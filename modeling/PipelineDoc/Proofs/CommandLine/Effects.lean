import PipelineDoc.Proofs.CommandLine.Runs
import PipelineDoc.Proofs.Review.Collector

/-!
# What a run does to its surroundings

A run comes to at most one effect. An effect that fails is a store that fails, or a standard error
that does not take a report; either leaves the files and standard output as they were. So a run that
fails leaves no trace but the reports that standard error took; a check ends as the analysis says,
if standard error takes its reports; and a graph fails only where it cannot be written or stored.
What a run gives, prints and stores depends on the files only through the selected settings file and
the document. Main statement: `run_effects`.
-/

namespace PipelineDoc

/-- Stores texts one after the other. -/
def FileSystem.storeAll {σ : Type} (fs : FileSystem σ) (s : σ) (texts : List (Text × Text)) :
    Except FileFault σ :=
  texts.foldlM (fun s (name, t) => fs.write s name t) s

/-- The library writes every value. A writer may refuse a value that decides so itself, or that has
keys other than texts; there are no such values here. -/
def Library.WritesEvery (library : Library) : Prop := ∀ v, ∃ t, library.writeValue v = .ok t

/-- The reports of what the analysis of a document lists. -/
def Settings.reports (settings : Settings) (source : Text) (active : Option Text) : List Report :=
  (settings.analyze source active).diagnostics.map fun d => d.report source

/-! ### Standard error -/

namespace Environment

variable {σ : Type} (env : Environment σ)

/-- Standard error takes some reports one after the other. -/
def TakesAll (reports : List Report) : Prop :=
  ∀ taken r, taken ++ [r] <+: reports → env.takes taken r = .ok ()

/-- Standard error takes whatever is written to it. -/
def TakesEvery : Prop := ∀ taken r, env.takes taken r = .ok ()

variable {env}

theorem TakesEvery.takesAll (h : env.TakesEvery) (reports : List Report) : env.TakesAll reports :=
  fun taken r _ => h taken r

theorem fst_takeAll_eq_ok_iff {taken reports : List Report} :
    (env.takeAll taken reports).1 = .ok () ↔
      ∀ older r, older ++ [r] <+: reports → env.takes (taken ++ older) r = .ok () := by
  induction reports generalizing taken with
  | nil => simp [takeAll]
  | cons r reports ih =>
    unfold takeAll
    constructor
    · intro h older r' hprefix
      cases htakes : env.takes taken r with
      | error fault => rw [htakes] at h; cases h
      | ok u =>
        rw [htakes] at h
        cases older with
        | nil =>
          obtain ⟨rfl, -⟩ := List.cons_prefix_cons.mp hprefix
          rw [List.append_nil, htakes]
        | cons first older =>
          obtain ⟨rfl, hrest⟩ := List.cons_prefix_cons.mp hprefix
          have hlater := ih.mp h older r' hrest
          rwa [List.append_assoc] at hlater
    · intro h
      have hfirst := h [] r (by simp)
      rw [List.append_nil] at hfirst
      rw [hfirst]
      refine ih.mpr fun older r' hprefix => ?_
      rw [List.append_assoc]
      exact h (r :: older) r' (List.cons_prefix_cons.mpr ⟨rfl, hprefix⟩)

theorem takesAll_iff {reports : List Report} :
    env.TakesAll reports ↔ (env.takeAll [] reports).1 = .ok () := by
  rw [fst_takeAll_eq_ok_iff]
  rfl

theorem snd_takeAll_of_ok {taken reports : List Report}
    (h : (env.takeAll taken reports).1 = .ok ()) :
    (env.takeAll taken reports).2 = taken ++ reports := by
  induction reports generalizing taken with
  | nil => rw [List.append_nil]; rfl
  | cons r reports ih =>
    unfold takeAll at h ⊢
    cases htakes : env.takes taken r with
    | error fault => rw [htakes] at h; cases h
    | ok u =>
      rw [htakes] at h
      refine (ih h).trans ?_
      rw [List.append_assoc, List.singleton_append]

theorem prefix_snd_takeAll (taken reports : List Report) :
    taken <+: (env.takeAll taken reports).2 := by
  induction reports generalizing taken with
  | nil => exact List.prefix_rfl
  | cons r reports ih =>
    unfold takeAll
    cases env.takes taken r with
    | error fault => exact List.prefix_rfl
    | ok u => exact (List.prefix_append taken [r]).trans (ih _)

theorem snd_takeAll_ne_nil_iff {reports : List Report} :
    (env.takeAll [] reports).2 ≠ [] ↔ ∃ r ∈ reports.head?, env.takes [] r = .ok () := by
  cases reports with
  | nil => simp [takeAll]
  | cons r reports =>
    simp only [List.head?_cons, Option.mem_some_iff, exists_eq_left']
    unfold takeAll
    cases htakes : env.takes [] r with
    | error fault => simp
    | ok u =>
      have hprefix : [r] <+: (env.takeAll ([] ++ [r]) reports).2 := env.prefix_snd_takeAll _ reports
      simp only [iff_true]
      intro hnil
      rw [hnil] at hprefix
      cases List.prefix_nil.mp hprefix

end Environment

/-! ### What effects leave -/

namespace Effect

variable {σ : Type} (env : Environment σ) (s : σ) (effect : Effect)

/-- **An effect that fails** leaves no trace but reports on standard error, and none if standard
error takes everything. -/
theorem apply_error {failure : Failure} (h : (effect.apply env (.start s)).1 = .error failure) :
    (effect.apply env (.start s)).2 =
        { Surroundings.start s with warnings := (effect.apply env (.start s)).2.warnings } ∧
      (env.TakesEvery → (effect.apply env (.start s)).2.warnings = []) := by
  cases effect with
  | warn reports =>
    refine ⟨rfl, fun htakes => ?_⟩
    have hverdict := Environment.takesAll_iff.mp (htakes.takesAll reports)
    simp only [apply, Surroundings.warnings_start, hverdict] at h
    cases h
  | print t => cases h
  | store name t =>
    simp only [apply, Surroundings.files_start] at h ⊢
    cases hstore : env.write s name t with
    | ok s' => rw [hstore] at h; cases h
    | error fault => exact ⟨rfl, fun _ => rfl⟩

theorem apply_ok {printout : Printout} (h : (effect.apply env (.start s)).1 = .ok printout) :
    printout =
      ⟨(effect.apply env (.start s)).2.output, (effect.apply env (.start s)).2.warnings⟩ := by
  cases effect with
  | warn reports =>
    simp only [apply, Surroundings.warnings_start] at h ⊢
    cases hverdict : (env.takeAll [] reports).1 with
    | error fault => rw [hverdict] at h; cases h
    | ok u =>
      rw [hverdict] at h
      cases h
      rw [Environment.snd_takeAll_of_ok hverdict, List.nil_append]
      rfl
  | print t => cases h; rfl
  | store name t =>
    simp only [apply, Surroundings.files_start] at h ⊢
    cases hstore : env.write s name t with
    | ok s' => rw [hstore] at h; cases h; rfl
    | error fault => rw [hstore] at h; cases h

theorem apply_warn_ok_iff {reports : List Report} :
    (∃ printout, (apply env (.start s) (.warn reports)).1 = .ok printout) ↔ env.TakesAll reports := by
  rw [Environment.takesAll_iff]
  simp only [apply, Surroundings.warnings_start]
  cases (env.takeAll [] reports).1 with
  | error fault => simp [Except.mapError, Except.map]
  | ok u => simp [Except.mapError, Except.map]

theorem storeAll_apply : env.storeAll s (effect.apply env (.start s)).2.stored =
    .ok (effect.apply env (.start s)).2.files := by
  cases effect with
  | warn reports => rfl
  | print t => rfl
  | store name t =>
    simp only [apply, Surroundings.files_start]
    cases hstore : env.write s name t with
    | ok s' => simp [FileSystem.storeAll, Surroundings.start, hstore]
    | error fault => rfl

/-- What an effect gives and what it prints and stores, but not the files that it leaves. -/
def visible (r : Except Failure Printout × Surroundings σ) :
    Except Failure Printout × Text × List Report × List (Text × Text) :=
  (r.1, r.2.output, r.2.warnings, r.2.stored)

theorem visible_apply {names : Text → Prop} {s s' : σ} (h : env.AgreeExcept names s s') :
    visible (effect.apply env (.start s')) = visible (effect.apply env (.start s)) := by
  cases effect with
  | warn reports => rfl
  | print t => rfl
  | store name t =>
    have hwrite := h.write name t
    simp only [apply, Surroundings.files_start]
    -- both stores succeed, or both fail in the same way
    cases hs : env.write s name t with
    | ok left =>
      cases hs' : env.write s' name t with
      | ok left' => rfl
      | error fault' => rw [hs, hs'] at hwrite; cases hwrite
    | error fault =>
      cases hs' : env.write s' name t with
      | ok left' => rw [hs, hs'] at hwrite; cases hwrite
      | error fault' => rw [hs, hs'] at hwrite; cases hwrite; rfl

end Effect

namespace Environment

variable {σ : Type} {env : Environment σ} {platform : Option Text} {i : Invocation} {s : σ}
  {settings : Settings} {source : Text}

/-! ### What runs leave -/

theorem after_error {failure : Failure} (h : (env.after platform i s).1 = .error failure) :
    (env.after platform i s).2 =
        { Surroundings.start s with warnings := (env.after platform i s).2.warnings } ∧
      (env.TakesEvery → (env.after platform i s).2.warnings = []) := by
  rw [after_eq] at h ⊢
  cases hplan : env.plan platform i s with
  | error other => exact ⟨rfl, fun _ => rfl⟩
  | ok effect =>
    rw [hplan] at h
    exact effect.apply_error env s h

theorem after_ok {printout : Printout} (h : (env.after platform i s).1 = .ok printout) :
    printout = ⟨(env.after platform i s).2.output, (env.after platform i s).2.warnings⟩ := by
  rw [after_eq] at h ⊢
  cases hplan : env.plan platform i s with
  | error other => rw [hplan] at h; cases h
  | ok effect =>
    rw [hplan] at h
    exact effect.apply_ok env s h

theorem storeAll_after : env.storeAll s (env.after platform i s).2.stored =
    .ok (env.after platform i s).2.files := by
  rw [after_eq]
  cases env.plan platform i s with
  | error failure => rfl
  | ok effect => exact effect.storeAll_apply env s

theorem Reads.after_eq (h : env.Reads platform i s settings source) :
    env.after platform i s =
      match env.decision i settings source with
      | .error failure => (.error failure, .start s)
      | .ok effect => effect.apply env (.start s) := by
  rw [Environment.after_eq, plan, inputs_eq_ok_iff.mpr h]
  rfl

theorem Reads.unique {settings' : Settings} {source' : Text}
    (h : env.Reads platform i s settings source) (h' : env.Reads platform i s settings' source') :
    settings' = settings ∧ source' = source := by
  have heq := (inputs_eq_ok_iff.mpr h').symm.trans (inputs_eq_ok_iff.mpr h)
  simpa using heq

/-! ### Checks -/

variable (env platform i s) in
/-- A run reads settings and a document whose analysis lists no errors. -/
def Passes (settings : Settings) (source : Text) : Prop :=
  env.Reads platform i s settings source ∧
    ∀ d ∈ (settings.analyze source i.active).diagnostics, d.severity ≠ .error

/-- A document without errors makes a check print all that the analysis lists. -/
theorem decision_eq_ok_iff_of_check (hcheck : i.command = .check) {effect : Effect} :
    env.decision i settings source = .ok effect ↔
      (∀ d ∈ (settings.analyze source i.active).diagnostics, d.severity ≠ .error) ∧
        effect = .warn (settings.reports source i.active) := by
  have hlisted : (settings.analyze source i.active).diagnostics =
      source.diagnose settings.builtinModules := rfl
  unfold Library.decision Settings.reports
  rw [hcheck, hlisted, Settings.check]
  cases hverdict : source.check settings.builtinModules with
  | error ds =>
    have hne : source.check settings.builtinModules ≠ .ok (source.diagnose settings.builtinModules) := by
      rw [hverdict]
      exact nofun
    simp only [reduceCtorEq, false_iff]
    exact fun h => hne (Text.check_eq_ok_iff.mpr ⟨rfl, h.1⟩)
  | ok ds =>
    obtain ⟨rfl, hclean⟩ := Text.check_eq_ok_iff.mp hverdict
    simp only [Except.ok.injEq, eq_comm (a := effect)]
    exact ⟨fun h => ⟨hclean, h⟩, fun h => h.2⟩

variable (env platform s) in
theorem after_check (hcheck : i.command = .check) :
    (∃ settings source, env.Passes platform i s settings source ∧
      env.after platform i s =
        Effect.apply env (.start s) (.warn (settings.reports source i.active))) ∨
    ((¬ ∃ settings source, env.Passes platform i s settings source) ∧
      ∃ failure, env.after platform i s = (.error failure, .start s)) := by
  cases hplan : env.plan platform i s with
  | error failure =>
    refine .inr ⟨?_, failure, by rw [after_eq, hplan]⟩
    rintro ⟨settings, source, hreads, hclean⟩
    have hok := plan_eq_ok_iff.mpr ⟨settings, source, hreads,
      (decision_eq_ok_iff_of_check hcheck).mpr ⟨hclean, rfl⟩⟩
    rw [hplan] at hok
    cases hok
  | ok effect =>
    obtain ⟨settings, source, hreads, hdecision⟩ := plan_eq_ok_iff.mp hplan
    obtain ⟨hclean, rfl⟩ := (decision_eq_ok_iff_of_check hcheck).mp hdecision
    refine .inl ⟨settings, source, ⟨hreads, hclean⟩, ?_⟩
    rw [after_eq, hplan]

theorem after_check_ok_iff (hcheck : i.command = .check) :
    (∃ printout, (env.after platform i s).1 = .ok printout) ↔
      ∃ settings source, env.Passes platform i s settings source ∧
        env.TakesAll (settings.reports source i.active) := by
  obtain ⟨settings, source, hpasses, hafter⟩ | ⟨hnone, failure, hafter⟩ :=
    env.after_check platform s hcheck
  · rw [hafter, Effect.apply_warn_ok_iff]
    constructor
    · exact fun htakes => ⟨settings, source, hpasses, htakes⟩
    · rintro ⟨settings', source', hpasses', htakes⟩
      obtain ⟨rfl, rfl⟩ := hpasses.1.unique hpasses'.1
      exact htakes
  · rw [hafter]
    constructor
    · rintro ⟨printout, h⟩
      cases h
    · rintro ⟨settings, source, hpasses, -⟩
      exact absurd ⟨settings, source, hpasses⟩ hnone

theorem warnings_after_check (hcheck : i.command = .check) :
    (env.after platform i s).2.warnings ≠ [] ↔
      ∃ settings source, env.Passes platform i s settings source ∧
        ∃ r ∈ (settings.reports source i.active).head?, env.takes [] r = .ok () := by
  obtain ⟨settings, source, hpasses, hafter⟩ | ⟨hnone, failure, hafter⟩ :=
    env.after_check platform s hcheck
  · have hleft : (env.after platform i s).2.warnings =
        (env.takeAll [] (settings.reports source i.active)).2 := by
      rw [hafter]
      rfl
    rw [hleft, snd_takeAll_ne_nil_iff]
    constructor
    · exact fun htakes => ⟨settings, source, hpasses, htakes⟩
    · rintro ⟨settings', source', hpasses', htakes⟩
      obtain ⟨rfl, rfl⟩ := hpasses.1.unique hpasses'.1
      exact htakes
  · rw [hafter]
    constructor
    · exact fun h => absurd rfl h
    · rintro ⟨settings, source, hpasses, -⟩
      exact absurd ⟨settings, source, hpasses⟩ hnone

/-- **A check whose reports are taken** ends as the analysis says. -/
theorem TakesEvery.after_check (h : env.TakesEvery) (hcheck : i.command = .check) :
    ((∃ printout, (env.after platform i s).1 = .ok printout) ↔
      ∃ settings source, env.Passes platform i s settings source) ∧
    ((env.after platform i s).2.warnings ≠ [] ↔
      (∃ printout, (env.after platform i s).1 = .ok printout) ∧
        ∃ settings source, env.Reads platform i s settings source ∧
          ∃ d ∈ (settings.analyze source i.active).diagnostics, d.severity = .warning) := by
  have hok : (∃ printout, (env.after platform i s).1 = .ok printout) ↔
      ∃ settings source, env.Passes platform i s settings source := by
    rw [after_check_ok_iff hcheck]
    simp only [h.takesAll, and_true]
  refine ⟨hok, ?_⟩
  rw [hok, warnings_after_check hcheck]
  constructor
  · rintro ⟨settings, source, hpasses, r, hr, -⟩
    obtain ⟨d, hd, -⟩ := List.mem_map.mp (List.mem_of_mem_head? hr)
    refine ⟨⟨settings, source, hpasses⟩, settings, source, hpasses.1, d, hd, ?_⟩
    cases hseverity : d.severity with
    | error => exact absurd hseverity (hpasses.2 d hd)
    | warning => rfl
  · rintro ⟨⟨settings, source, hpasses⟩, settings', source', hreads', d, hd, -⟩
    obtain ⟨rfl, rfl⟩ := hpasses.1.unique hreads'
    have hne : (settings'.reports source' i.active) ≠ [] :=
      List.ne_nil_of_mem (List.mem_map_of_mem hd)
    exact ⟨settings', source', hpasses, _, List.head?_eq_some_head hne, h [] _⟩

/-! ### Graphs -/

/-- **A graph is delivered**, or cannot be written. -/
theorem Reads.after_graph (h : env.Reads platform i s settings source) (hgraph : i.command = .graph) :
    env.after platform i s =
      match env.writeValue (settings.graph source i.active).toValue with
      | .error fault => (.error (.file fault), .start s)
      | .ok t =>
        match i.output with
        | none => Effect.apply env (.start s) (.print (t ++ ['\n']))
        | some name => Effect.apply env (.start s) (.store name t) := by
  rw [h.after_eq, Library.decision, hgraph]
  cases env.writeValue (settings.graph source i.active).toValue with
  | error fault => rfl
  | ok t => cases i.output <;> rfl

theorem Reads.after_graph_eq_error_iff (h : env.Reads platform i s settings source)
    (hgraph : i.command = .graph) {failure : Failure} :
    (env.after platform i s).1 = .error failure ↔
      ∃ fault, failure = .file fault ∧
        (env.writeValue (settings.graph source i.active).toValue = .error fault ∨
          ∃ name t, i.output = some name ∧
            env.writeValue (settings.graph source i.active).toValue = .ok t ∧
            env.write s name t = .error fault) := by
  rw [h.after_graph hgraph]
  cases hwrite : env.writeValue (settings.graph source i.active).toValue with
  | error fault => simp [eq_comm]
  | ok t =>
    cases houtput : i.output with
    | none => simp [Effect.apply]
    | some name =>
      simp only [Effect.apply, Surroundings.files_start]
      cases hstore : env.write s name t with
      | ok s' => simp [hstore]
      | error fault => simp [hstore, eq_comm]

theorem Reads.delivered_after_graph (h : env.Reads platform i s settings source)
    (hgraph : i.command = .graph) {printout : Printout}
    (hok : (env.after platform i s).1 = .ok printout) :
    ∃ t, env.writeValue (settings.graph source i.active).toValue = .ok t ∧
      ((env.after platform i s).2.output, (env.after platform i s).2.stored) =
        match i.output with
        | none => (t ++ ['\n'], [])
        | some name => ([], [(name, t)]) := by
  rw [h.after_graph hgraph] at hok ⊢
  cases hwrite : env.writeValue (settings.graph source i.active).toValue with
  | error fault => rw [hwrite] at hok; cases hok
  | ok t =>
    refine ⟨t, rfl, ?_⟩
    rw [hwrite] at hok
    cases houtput : i.output with
    | none => rfl
    | some name =>
      rw [houtput] at hok
      simp only [Effect.apply, Surroundings.files_start] at hok ⊢
      cases hstore : env.write s name t with
      | ok s' => rfl
      | error fault => rw [hstore] at hok; cases hok

theorem warnings_after_graph (hgraph : i.command = .graph) :
    (env.after platform i s).2.warnings = [] := by
  cases hinputs : env.inputs platform i s with
  | error failure => rw [Environment.after_eq, plan, hinputs]; rfl
  | ok read =>
    rw [(inputs_eq_ok_iff.mp hinputs).after_graph hgraph]
    cases env.writeValue (read.1.graph read.2 i.active).toValue with
    | error fault => rfl
    | ok t =>
      cases i.output with
      | none => rfl
      | some name =>
        simp only [Effect.apply]
        cases env.write (Surroundings.start s).files name t <;> rfl

/-! ### Files that are not read -/

section Agree

variable {names : Text → Prop} {s' : σ} (h : env.AgreeExcept names s s')
  (hselected : ∀ name ∈ env.selected? s platform i.settings, ¬ names name) (hinput : ¬ names i.input)

include h hselected hinput

theorem inputs_of_agreeExcept : env.inputs platform i s' = env.inputs platform i s := by
  have hsettings : env.settings s' (env.selected? s platform i.settings) =
      env.settings s (env.selected? s platform i.settings) := by
    cases hname : env.selected? s platform i.settings with
    | none => rfl
    | some name => simp only [Environment.settings, h.isPresent, h.text (hselected name hname)]
  unfold inputs
  rw [h.selected?, hsettings, h.text hinput]

/-- **Files that a run does not read leave no trace in it.** -/
theorem visible_after_of_agreeExcept :
    Effect.visible (env.after platform i s') = Effect.visible (env.after platform i s) := by
  rw [after_eq, after_eq, plan, plan, inputs_of_agreeExcept h hselected hinput]
  split
  · rfl
  · exact Effect.visible_apply env _ h

end Agree

end Environment

/-- **What a run does to its surroundings.** The files that a run leaves are those at the start with
the stored texts stored in them, and the printout is what was printed. A run that fails leaves the
files and standard output as they were; only on standard error there may be reports, and there are
none if standard error takes everything.

A check succeeds exactly if the settings can be loaded, the document can be read, its analysis lists
no errors and standard error takes the reports of what it lists; it prints on standard error exactly
if there is a first report and standard error takes it. So if standard error takes everything, the
check succeeds exactly if the settings can be loaded, the document can be read and its analysis
lists no errors, and it prints on standard error exactly if it succeeds and the analysis lists a
warning.

A graph of a document that was read, whatever it says, fails exactly if the library does not write
it or the output file cannot be stored, and otherwise it is printed or stored. So if the library
writes every value, only storing the output file can fail.

Other files make no difference: if in another state the same names stand for something, and only
files other than the selected settings file and the document hold something else, then a run has the
same result, prints the same and stores the same. -/
theorem run_effects {σ : Type} (env : Environment σ) (platform : Option Text) (i : Invocation)
    (s : σ) :
    let result := (env.after platform i s).1
    let left := (env.after platform i s).2
    (env.storeAll s left.stored = .ok left.files ∧
      ∀ printout, result = .ok printout → printout = ⟨left.output, left.warnings⟩) ∧
    (∀ failure, result = .error failure →
      left = { Surroundings.start s with warnings := left.warnings } ∧
      (env.TakesEvery → left.warnings = [])) ∧
    (i.command = .check →
      ((∃ printout, result = .ok printout) ↔
        ∃ settings source, env.Passes platform i s settings source ∧
          env.TakesAll (settings.reports source i.active)) ∧
      (left.warnings ≠ [] ↔
        ∃ settings source, env.Passes platform i s settings source ∧
          ∃ r ∈ (settings.reports source i.active).head?, env.takes [] r = .ok ()) ∧
      (env.TakesEvery →
        ((∃ printout, result = .ok printout) ↔
          ∃ settings source, env.Passes platform i s settings source) ∧
        (left.warnings ≠ [] ↔ (∃ printout, result = .ok printout) ∧
          ∃ settings source, env.Reads platform i s settings source ∧
            ∃ d ∈ (settings.analyze source i.active).diagnostics, d.severity = .warning))) ∧
    (i.command = .graph → left.warnings = [] ∧
      ∀ settings source, env.Reads platform i s settings source →
        (∀ failure, result = .error failure ↔
          ∃ fault, failure = .file fault ∧
            (env.writeValue (settings.graph source i.active).toValue = .error fault ∨
              ∃ name t, i.output = some name ∧
                env.writeValue (settings.graph source i.active).toValue = .ok t ∧
                env.write s name t = .error fault)) ∧
        (∀ printout, result = .ok printout →
          ∃ t, env.writeValue (settings.graph source i.active).toValue = .ok t ∧
            (left.output, left.stored) =
              match i.output with
              | none => (t ++ ['\n'], [])
              | some name => ([], [(name, t)])) ∧
        (env.WritesEvery → ∀ failure, result = .error failure →
          ∃ name t fault, i.output = some name ∧ env.write s name t = .error fault ∧
            failure = .file fault)) ∧
    (∀ (others : Text → Prop) (s' : σ), env.AgreeExcept others s s' →
      (∀ name ∈ env.selected? s platform i.settings, ¬ others name) → ¬ others i.input →
      (env.after platform i s').1 = result ∧ (env.after platform i s').2.output = left.output ∧
        (env.after platform i s').2.warnings = left.warnings ∧
        (env.after platform i s').2.stored = left.stored) := by
  intro result left
  refine ⟨⟨Environment.storeAll_after, fun _ => Environment.after_ok⟩,
    fun _ hfailed => Environment.after_error hfailed,
    fun hcheck => ⟨Environment.after_check_ok_iff hcheck, Environment.warnings_after_check hcheck,
      fun htakes => htakes.after_check hcheck⟩,
    fun hgraph => ⟨Environment.warnings_after_graph hgraph, fun settings source hreads =>
      ⟨fun _ => hreads.after_graph_eq_error_iff hgraph,
        fun _ => hreads.delivered_after_graph hgraph, ?_⟩⟩, ?_⟩
  · intro hwrites failure hfailed
    obtain ⟨fault, rfl, hunwritten | ⟨name, t, houtput, -, hstore⟩⟩ :=
      (hreads.after_graph_eq_error_iff hgraph).mp hfailed
    · obtain ⟨t, ht⟩ := hwrites (settings.graph source i.active).toValue
      rw [hunwritten] at ht
      cases ht
    · exact ⟨name, t, fault, houtput, hstore, rfl⟩
  · intro others s' hagree hselected hinput
    have hvisible := Environment.visible_after_of_agreeExcept hagree hselected hinput
    simpa only [Effect.visible, Prod.mk.injEq] using hvisible

/-- A document with two modules of one name, and a settings file in the working directory that hides
the one of the platform. The graph cannot be stored where a directory stands; then nothing is
printed or stored, and it makes no difference what the hidden file holds. The check succeeds and
prints a report; on a standard error that is full it fails. -/
theorem run_effects_directory :
    let tree : FileTree := ⟨[([['l', 'o', 'o', 'm'], "config.toml".toList], "".toUTF8),
      ([['p']], "platform".toUTF8), ([['d']], "module \"m\" \x7b\x7d module \"m\" \x7b\x7d".toUTF8)]⟩
    let graph : Invocation := ⟨.graph, ['d'], some ['l', 'o', 'o', 'm'], none, none, []⟩
    let check : Invocation := ⟨.check, ['d'], none, none, none, []⟩
    let changed := tree.withContent [['p']] "no settings".toUTF8
    let full : Environment FileTree :=
      { FileTree.environment with takes := fun _ _ => .error (.other "No space left on device") }
    FileTree.environment.selected? tree (some ['p']) none = some Program.localSettings ∧
      FileTree.environment.after (some ['p']) graph tree =
        (.error (.file .isDirectory), .start tree) ∧
      (Program.run FileTree.access (some ['p']) graph).run.run tree =
        (.error (.file .isDirectory), tree) ∧
      (FileTree.environment.after (some ['p']) graph changed).1 = .error (.file .isDirectory) ∧
      (FileTree.environment.after (some ['p']) check tree).2.warnings ≠ [] ∧
      ¬ ∃ printout, (full.after (some ['p']) check tree).1 = .ok printout := by
  intro tree graph check changed full
  let source : Text := "module \"m\" \x7b\x7d module \"m\" \x7b\x7d".toList
  have hselected : FileTree.environment.selected? tree (some ['p']) none =
      some Program.localSettings := by
    decide +kernel
  have hloads : FileTree.environment.Loads tree (some Program.localSettings) {} :=
    ⟨by decide +kernel, [], rfl, by decide +kernel⟩
  have hgraphReads : FileTree.environment.Reads (some ['p']) graph tree {} source :=
    ⟨hselected ▸ hloads, rfl⟩
  have hcheckReads : FileTree.environment.Reads (some ['p']) check tree {} source :=
    ⟨hselected ▸ hloads, rfl⟩
  have hseverities : (({} : Settings).analyze source none).diagnostics.map Diagnostic.severity =
      [.warning] := by
    have hemitted : (source.emitted []).map (fun f => f.diagnostic.severity) = [.warning] := by
      decide +kernel
    have hperm := ((source.emitted []).mergeSort_perm fun f g => f.span.le g.span).map
      fun f => f.diagnostic.severity
    rw [hemitted] at hperm
    exact (List.map_map ..).trans (List.perm_singleton.mp hperm)
  have hclean : ∀ d ∈ (({} : Settings).analyze source none).diagnostics, d.severity ≠ .error := by
    intro d hd
    have hmem := List.mem_map_of_mem (f := Diagnostic.severity) hd
    rw [hseverities, List.mem_singleton] at hmem
    rw [hmem]
    exact nofun
  obtain ⟨r, reports, hreports⟩ : ∃ r reports, ({} : Settings).reports source none = r :: reports := by
    refine List.exists_cons_of_ne_nil fun hnil => ?_
    rw [List.map_eq_nil_iff.mp hnil] at hseverities
    cases hseverities
  obtain ⟨-, hfailed, -, hgraph, hagree⟩ := run_effects FileTree.environment (some ['p']) graph tree
  obtain ⟨-, -, hcheck, -⟩ := run_effects FileTree.environment (some ['p']) check tree
  obtain ⟨-, -, hfull, -⟩ := run_effects full (some ['p']) check tree
  have herror := (((hgraph rfl).2 {} source hgraphReads).1 (.file .isDirectory)).mpr
    ⟨.isDirectory, rfl, .inr ⟨['l', 'o', 'o', 'm'], _, rfl, rfl, rfl⟩⟩
  have hstart : (FileTree.environment.after (some ['p']) graph tree).2 = .start tree := by
    obtain ⟨hleft, hwarnings⟩ := hfailed _ herror
    rw [hleft, hwarnings fun _ _ => rfl]
    rfl
  have hchanged := hagree _ changed (tree.agreeExcept_withContent [['p']] _)
    (by
      intro name hname
      rw [hselected] at hname
      cases hname
      exact FileTree.not_leadsTo rfl (by decide))
    (FileTree.not_leadsTo rfl (by decide))
  refine ⟨hselected, Prod.ext herror hstart, ?_, hchanged.1.trans herror, ?_, ?_⟩
  · rw [FileTree.run_access, herror, hstart]
    rfl
  · exact (hcheck rfl).2.1.mpr ⟨{}, source, ⟨hcheckReads, hclean⟩, r, by rw [hreports]; rfl, rfl⟩
  · rw [(hfull rfl).1]
    rintro ⟨settings, other, ⟨hreads, -⟩, htakes⟩
    have hfullReads : full.Reads (some ['p']) check tree {} source :=
      ⟨hcheckReads.loads, hcheckReads.holds⟩
    obtain ⟨rfl, rfl⟩ := hfullReads.unique hreads
    cases htakes [] r (by rw [hreports]; exact ⟨reports, rfl⟩)

end PipelineDoc
