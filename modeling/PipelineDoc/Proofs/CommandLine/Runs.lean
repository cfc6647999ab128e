import PipelineDoc.Proofs.CommandLine.FileSystem

/-!
# Runs and what they leave

The *environment* of a run is a file system, a library and a standard error, any of which can refuse
what is asked. The *surroundings* are what the run can change: the files, and what stands on
standard output and on standard error.

A run loads the settings, reads the document, and comes to one *effect*: it prints warnings, prints
the graph, or stores the graph in a file. By then everything has been decided from the files as they
were (`plan`). So a run is its plan and then the effect (`after_eq`). A run on a host that keeps a
file tree gives the same result and leaves the same files (`FileTree.run_access`).
-/

namespace PipelineDoc

/-- What a run meets. Standard error takes a report or does not, which may depend on the reports
that it has taken before. -/
structure Environment (σ : Type) extends FileSystem σ, Library where
  takes : List Report → Report → Except FileFault Unit

/-- What a run can change. -/
structure Surroundings (σ : Type) where
  files : σ
  /-- What stands on standard output. -/
  output : Text
  /-- The reports that standard error has taken. -/
  warnings : List Report
  /-- The texts that have been stored, with the names of their files. -/
  stored : List (Text × Text)

/-- Files before anything has been printed or stored. -/
def Surroundings.start {σ : Type} (s : σ) : Surroundings σ := ⟨s, [], [], []⟩

@[simp] theorem Surroundings.files_start {σ : Type} (s : σ) : (start s).files = s := rfl

@[simp] theorem Surroundings.warnings_start {σ : Type} (s : σ) : (start s).warnings = [] := rfl

namespace Environment

variable {σ : Type} (env : Environment σ)

/-- The host that keeps the surroundings of a run. -/
def host : Host (StateM (Surroundings σ)) where
  isPresent name := return env.isPresent (← get).files name
  read name := return env.read (← get).files name
  write name t := do
    let w ← get
    match env.write w.files name t with
    | .ok s =>
      set { w with files := s, stored := w.stored ++ [(name, t)] }
      return .ok ()
    | .error fault => return .error fault
  toLibrary := env.toLibrary
  print t := modify fun w => { w with output := w.output ++ t }
  warn r := do
    let w ← get
    match env.takes w.warnings r with
    | .ok () =>
      set { w with warnings := w.warnings ++ [r] }
      return .ok ()
    | .error fault => return .error fault

/-- The result of a run on given files, and the surroundings that it leaves. -/
def after (platform : Option Text) (i : Invocation) (s : σ) :
    Except Failure Printout × Surroundings σ :=
  (Program.run env.host platform i).run.run (.start s)

/-! ### What a run reads -/

/-- The selected settings file is there and holds given settings. Without a settings file the
settings are the defaults. -/
def Loads (s : σ) (selected : Option Text) (settings : Settings) : Prop :=
  match selected with
  | none => settings = {}
  | some name =>
    env.isPresent s name = true ∧ ∃ t, env.Holds s name t ∧ env.parseSettings t = .ok settings

/-- A run reads given settings and a given document. -/
structure Reads (platform : Option Text) (i : Invocation) (s : σ) (settings : Settings)
    (source : Text) : Prop where
  loads : env.Loads s (env.selected? s platform i.settings) settings
  holds : env.Holds s i.input source

/-- The settings of the selected file, or what keeps them from being loaded. -/
def settings (s : σ) (selected : Option Text) : Except Failure Settings :=
  match selected with
  | none => .ok {}
  | some name =>
    if env.isPresent s name then
      match env.text s name with
      | .error failure => .error failure
      | .ok t =>
        match env.parseSettings t with
        | .ok settings => .ok settings
        | .error message => .error (.settings ("Failed to parse TOML configuration: " ++ message))
    else .error (.settings ("Missing configuration file: " ++ String.ofList name))

/-- The settings and the document that a run reads, or what keeps it from reading them. -/
def inputs (platform : Option Text) (i : Invocation) (s : σ) : Except Failure (Settings × Text) := do
  let settings ← env.settings s (env.selected? s platform i.settings)
  let source ← env.text s i.input
  return (settings, source)

end Environment

/-! ### Plans -/

/-- What a run comes to when nothing has gone wrong before. -/
inductive Effect where
  | warn (reports : List Report)
  | print (t : Text)
  | store (name t : Text)

/-- What a run comes to with given settings and a given document. -/
def Library.decision (library : Library) (i : Invocation) (settings : Settings) (source : Text) :
    Except Failure Effect :=
  match i.command with
  | .check =>
    match settings.check source with
    | .error diagnostics => .error (.refused diagnostics source)
    | .ok warnings => .ok (.warn (warnings.map fun d => d.report source))
  | .graph =>
    match library.writeValue (settings.graph source i.active).toValue with
    | .error fault => .error (.file fault)
    | .ok t =>
      match i.output with
      | none => .ok (.print (t ++ ['\n']))
      | some name => .ok (.store name t)

namespace Environment

variable {σ : Type} (env : Environment σ)

/-- What a run on given files comes to. -/
def plan (platform : Option Text) (i : Invocation) (s : σ) : Except Failure Effect := do
  let (settings, source) ← env.inputs platform i s
  env.decision i settings source

/-- Writes reports to a standard error that has taken some already, up to the first that it does not
take. Gives the fault, if there is one, and the reports that it has then taken. -/
def takeAll (taken : List Report) : List Report → Except FileFault Unit × List Report
  | [] => (.ok (), taken)
  | r :: reports =>
    match env.takes taken r with
    | .ok () => takeAll (taken ++ [r]) reports
    | .error fault => (.error fault, taken)

end Environment

/-- The result of an effect, and the surroundings that it leaves. -/
def Effect.apply {σ : Type} (env : Environment σ) (w : Surroundings σ) :
    Effect → Except Failure Printout × Surroundings σ
  | .warn reports =>
    let (verdict, taken) := env.takeAll w.warnings reports
    ((verdict.mapError .file).map fun _ => ⟨[], reports⟩, { w with warnings := taken })
  | .print t => (.ok ⟨t, []⟩, { w with output := w.output ++ t })
  | .store name t =>
    match env.write w.files name t with
    | .ok s => (.ok ⟨[], []⟩, { w with files := s, stored := w.stored ++ [(name, t)] })
    | .error fault => (.error (.file fault), w)

namespace Environment

variable {σ : Type} {env : Environment σ}

/-! ### Looking at files -/

section Steps

variable {τ α β : Type} {x : ExceptT Failure (StateM τ) α} {w w' : τ}

theorem run_bind_ok {a : α} (hx : x.run.run w = (.ok a, w')) (f : α → ExceptT Failure (StateM τ) β) :
    (x >>= f).run.run w = (f a).run.run w' := by
  simp only [ExceptT.run_bind, StateT.run_bind, hx]
  rfl

theorem run_bind_error {failure : Failure} (hx : x.run.run w = (.error failure, w'))
    (f : α → ExceptT Failure (StateM τ) β) : (x >>= f).run.run w = (.error failure, w') := by
  simp only [ExceptT.run_bind, StateT.run_bind, hx]
  rfl

theorem run_liftM {y : StateM τ α} {a : α} (hy : y.run w = (a, w')) :
    (liftM y : ExceptT Failure (StateM τ) α).run.run w = (.ok a, w') := by
  simp only [ExceptT.run_liftM, StateT.run_map, hy]
  rfl

end Steps

variable {τ : Type} {view : τ → σ} {host : Host (StateM τ)}

/-- A host looks at the files in a part of its state, changes nothing by that, and has the library
of the environment. -/
structure LooksAt (env : Environment σ) (view : τ → σ) (host : Host (StateM τ)) : Prop where
  isPresent : ∀ name w, (host.isPresent name).run w = (env.isPresent (view w) name, w)
  read : ∀ name w, (host.read name).run w = (env.read (view w) name, w)
  toLibrary : host.toLibrary = env.toLibrary

theorem looksAt_host : env.LooksAt Surroundings.files env.host :=
  ⟨fun _ _ => rfl, fun _ _ => rfl, rfl⟩

namespace LooksAt

variable (h : env.LooksAt view host) (w : τ)

include h

theorem run_readText (name : Text) :
    (Program.readText host name).run.run w = (env.text (view w) name, w) := by
  unfold Program.readText FileSystem.text
  rw [run_bind_ok (run_liftM (h.read name w))]
  cases env.read (view w) name with
  | error fault => rfl
  | ok content =>
    simp only
    cases String.fromUTF8? content <;> rfl

theorem run_loadFile (name : Text) :
    (Program.loadFile host name).run.run w = (env.settings (view w) (some name), w) := by
  unfold Program.loadFile
  rw [run_bind_ok (run_liftM (h.isPresent name w)), h.toLibrary]
  cases hpresent : env.isPresent (view w) name with
  | false =>
    simp only [Environment.settings, hpresent, Bool.false_eq_true, if_false]
    rfl
  | true =>
    have hread := h.run_readText w name
    simp only [Environment.settings, hpresent, if_true]
    cases htext : env.text (view w) name with
    | error failure => exact run_bind_error (htext ▸ hread) _
    | ok t =>
      rw [run_bind_ok (htext ▸ hread)]
      simp only
      cases env.parseSettings t <;> rfl

theorem run_loadFirst (names : List Text) : (Program.loadFirst host names).run.run w =
    (env.settings (view w) (names.find? (env.isPresent (view w))), w) := by
  -- a file that is there is asked for twice, which changes nothing
  induction names with
  | nil => rfl
  | cons name names ih =>
    unfold Program.loadFirst
    rw [run_bind_ok (run_liftM (h.isPresent name w))]
    cases hname : env.isPresent (view w) name with
    | false => simpa only [List.find?_cons, hname, Bool.false_eq_true, if_false] using ih
    | true => simpa only [List.find?_cons, hname, if_true] using h.run_loadFile w name

theorem run_loadSettings (platform explicit : Option Text) :
    (Program.loadSettings host platform explicit).run.run w =
      (env.settings (view w) (env.selected? (view w) platform explicit), w) := by
  cases explicit with
  | some name => exact h.run_loadFile w name
  | none => exact h.run_loadFirst w _

/-- **A run reads first**: what it does then depends on the settings and the document only. -/
theorem run_inputs {β : Type} (platform : Option Text) (i : Invocation)
    (f : Settings → Text → ExceptT Failure (StateM τ) β) :
    (do let settings ← Program.loadSettings host platform i.settings
        let source ← Program.readText host i.input
        f settings source).run.run w =
      match env.inputs platform i (view w) with
      | .error failure => (.error failure, w)
      | .ok (settings, source) => (f settings source).run.run w := by
  have hload := h.run_loadSettings w platform i.settings
  have hread := h.run_readText w i.input
  unfold inputs
  cases hsettings : env.settings (view w) (env.selected? (view w) platform i.settings) with
  | error failure => exact run_bind_error (hsettings ▸ hload) _
  | ok settings =>
    rw [run_bind_ok (hsettings ▸ hload)]
    cases htext : env.text (view w) i.input with
    | error failure => exact run_bind_error (htext ▸ hread) _
    | ok source => exact run_bind_ok (htext ▸ hread) _

end LooksAt

section Reads

variable {platform : Option Text} {i : Invocation} {s : σ} {settings : Settings} {source : Text}

theorem settings_eq_ok_iff {selected : Option Text} :
    env.settings s selected = .ok settings ↔ env.Loads s selected settings := by
  cases selected with
  | none => simp [Environment.settings, Loads, eq_comm]
  | some name =>
    unfold Environment.settings Loads
    simp only [← FileSystem.text_eq_ok_iff]
    cases env.isPresent s name with
    | false => simp
    | true =>
      cases env.text s name with
      | error failure => simp
      | ok t => cases hparse : env.parseSettings t <;> simp [hparse]

theorem inputs_eq_ok_iff : env.inputs platform i s = .ok (settings, source) ↔
    env.Reads platform i s settings source := by
  have hreads : env.Reads platform i s settings source ↔
      env.settings s (env.selected? s platform i.settings) = .ok settings ∧
        env.text s i.input = .ok source := by
    rw [settings_eq_ok_iff, FileSystem.text_eq_ok_iff]
    exact ⟨fun h => ⟨h.loads, h.holds⟩, fun h => ⟨h.1, h.2⟩⟩
  rw [hreads, inputs]
  cases env.settings s (env.selected? s platform i.settings) with
  | error failure => simp [bind, Except.bind]
  | ok loaded =>
    cases env.text s i.input with
    | error failure => simp [bind, Except.bind]
    | ok t => simp [bind, Except.bind, pure, Except.pure]

theorem plan_eq_ok_iff {effect : Effect} : env.plan platform i s = .ok effect ↔
    ∃ settings source, env.Reads platform i s settings source ∧
      env.decision i settings source = .ok effect := by
  simp only [← inputs_eq_ok_iff, plan]
  cases env.inputs platform i s with
  | error failure => simp [bind, Except.bind]
  | ok read =>
    constructor
    · exact fun h => ⟨read.1, read.2, rfl, h⟩
    · rintro ⟨settings, source, hread, h⟩
      cases hread
      exact h

end Reads

/-! ### Runs and their plans -/

theorem run_host_warn (r : Report) (w : Surroundings σ) : (env.host.warn r).run w =
    match env.takes w.warnings r with
    | .ok () => (.ok (), { w with warnings := w.warnings ++ [r] })
    | .error fault => (.error fault, w) := by
  simp only [Environment.host, StateT.run_bind, StateT.run_get, pure_bind]
  cases env.takes w.warnings r <;> rfl

/-- A store that fails leaves the surroundings as they were. -/
theorem run_host_write (name t : Text) (w : Surroundings σ) : (env.host.write name t).run w =
    match env.write w.files name t with
    | .ok s => (.ok (), { w with files := s, stored := w.stored ++ [(name, t)] })
    | .error fault => (.error fault, w) := by
  simp only [Environment.host, StateT.run_bind, StateT.run_get, pure_bind]
  cases env.write w.files name t <;> rfl

theorem run_warnAll (reports : List Report) (w : Surroundings σ) :
    (Program.warnAll env.host reports).run.run w =
      ((env.takeAll w.warnings reports).1.mapError .file,
        { w with warnings := (env.takeAll w.warnings reports).2 }) := by
  induction reports generalizing w with
  | nil => rfl
  | cons r reports ih =>
    have hwarn := env.run_host_warn r w
    unfold Program.warnAll takeAll
    cases htakes : env.takes w.warnings r with
    | ok u =>
      rw [htakes] at hwarn
      exact (run_bind_ok (run_liftM hwarn) _).trans (ih _)
    | error fault =>
      rw [htakes] at hwarn
      exact run_bind_ok (run_liftM hwarn) _

theorem run_check (settings : Settings) (source : Text) (w : Surroundings σ) :
    (Program.check env.host settings source).run.run w =
      match settings.check source with
      | .error diagnostics => (.error (.refused diagnostics source), w)
      | .ok warnings => Effect.apply env w (.warn (warnings.map fun d => d.report source)) := by
  unfold Program.check
  cases settings.check source with
  | error ds => rfl
  | ok ds =>
    have hall := env.run_warnAll (ds.map fun d => d.report source) w
    simp only [Effect.apply]
    cases hverdict : (env.takeAll w.warnings (ds.map fun d => d.report source)).1 with
    | error fault =>
      rw [hverdict] at hall
      exact run_bind_error hall _
    | ok u =>
      rw [hverdict] at hall
      exact run_bind_ok hall _

theorem run_deliver (output : Option Text) (t : Text) (w : Surroundings σ) :
    (Program.deliver env.host output t).run.run w =
      Effect.apply env w (match output with
        | none => .print (t ++ ['\n'])
        | some name => .store name t) := by
  unfold Program.deliver
  cases output with
  | none => rfl
  | some name =>
    have hwrite := env.run_host_write name t w
    simp only [Effect.apply]
    cases hstore : env.write w.files name t with
    | ok s => exact run_bind_ok (run_liftM (by rw [hwrite, hstore])) _
    | error fault => exact run_bind_ok (run_liftM (by rw [hwrite, hstore])) _

/-- **A run is its plan and then the effect.** -/
theorem after_eq (platform : Option Text) (i : Invocation) (s : σ) :
    env.after platform i s =
      match env.plan platform i s with
      | .error failure => (.error failure, .start s)
      | .ok effect => effect.apply env (.start s) := by
  unfold after Program.run plan
  rw [looksAt_host.run_inputs, Surroundings.files_start]
  cases env.inputs platform i s with
  | error failure => rfl
  | ok read =>
    obtain ⟨settings, source⟩ := read
    simp only [bind, Except.bind, Library.decision]
    cases i.command with
    | check =>
      refine (env.run_check settings source _).trans ?_
      cases settings.check source <;> rfl
    | graph =>
      simp only
      have hlibrary : env.host.toLibrary = env.toLibrary := rfl
      rw [hlibrary]
      cases env.writeValue (settings.graph source i.active).toValue with
      | error fault => rfl
      | ok t =>
        refine (env.run_deliver i.output t _).trans ?_
        cases i.output <;> rfl

end Environment

namespace FileTree

/-- File trees with the standard library and a standard error that takes everything. -/
def environment : Environment FileTree where
  toFileSystem := system
  toLibrary := .standard
  takes _ _ := .ok ()

theorem run_access_warnAll (reports : List Report) (tree : FileTree) :
    (Program.warnAll access reports).run.run tree = (.ok (), tree) := by
  induction reports with
  | nil => rfl
  | cons r reports ih => exact ih

theorem takeAll_environment (taken reports : List Report) :
    environment.takeAll taken reports = (.ok (), taken ++ reports) := by
  induction reports generalizing taken with
  | nil => rw [List.append_nil]; rfl
  | cons r reports ih =>
    refine (ih _).trans ?_
    rw [List.append_assoc, List.singleton_append]

theorem run_access_write (name t : Text) (tree : FileTree) : (access.write name t).run tree =
    match tree.write name t with
    | .ok left => (.ok (), left)
    | .error fault => (.error fault, tree) := by
  simp only [access, StateT.run_bind, StateT.run_get, pure_bind]
  cases tree.write name t <;> rfl

theorem run_access_deliver (output : Option Text) (t : Text) (tree : FileTree) :
    (Program.deliver access output t).run.run tree =
      let done := Effect.apply environment (.start tree) (match output with
        | none => .print (t ++ ['\n'])
        | some name => .store name t)
      (done.1, done.2.files) := by
  unfold Program.deliver
  cases output with
  | none => rfl
  | some name =>
    have hwrite := run_access_write name t tree
    have hsystem : environment.write tree name t = tree.write name t := rfl
    simp only [Effect.apply, Surroundings.files_start, hsystem]
    cases hstore : tree.write name t with
    | ok left => exact Environment.run_bind_ok (Environment.run_liftM (by rw [hwrite, hstore])) _
    | error fault => exact Environment.run_bind_ok (Environment.run_liftM (by rw [hwrite, hstore])) _

/-- **The host that keeps a file tree** gives the result of a run and the files that it leaves. -/
theorem run_access (platform : Option Text) (i : Invocation) (tree : FileTree) :
    (Program.run access platform i).run.run tree =
      ((environment.after platform i tree).1, (environment.after platform i tree).2.files) := by
  have hlooks : environment.LooksAt id access := ⟨fun _ _ => rfl, fun _ _ => rfl, rfl⟩
  unfold Program.run
  rw [hlooks.run_inputs, id_eq, Environment.after_eq, Environment.plan]
  cases environment.inputs platform i tree with
  | error failure => rfl
  | ok read =>
    obtain ⟨settings, source⟩ := read
    simp only [bind, Except.bind, Library.decision]
    cases i.command with
    | check =>
      simp only [Program.check]
      cases settings.check source with
      | error ds => rfl
      | ok ds =>
        refine (Environment.run_bind_ok (run_access_warnAll _ tree) _).trans ?_
        simp only [Effect.apply, takeAll_environment]
        rfl
    | graph =>
      have hdeliver := run_access_deliver i.output ((settings.graph source i.active).toValue.pretty 0) tree
      refine hdeliver.trans ?_
      cases i.output <;> rfl

end FileTree

end PipelineDoc
