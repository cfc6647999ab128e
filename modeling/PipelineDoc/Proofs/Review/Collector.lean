import PipelineDoc.Proofs.Review.Order

/-!
# Collecting diagnostics

The passes of a review hand their diagnostics one by one to a *collector*. It keeps them in the
order in which they come, and it notes when one of them is an error. In the end they are sorted by
place; the strict review decides by the note alone, without another look at the diagnostics.

One hand-over keeps the note right (`Faithful.emit`), and each pass hands over the findings of that
pass in their order, so a whole review collects the findings of all passes (`collector_passes`). The
collector has the diagnostics of the lenient review and comes to the verdict of the strict one. Main
statement: `reviews_agree`.
-/

namespace PipelineDoc

/-- Whether a diagnostic is placed no later than another one; those without a place come last. -/
def Diagnostic.le (d e : Diagnostic) : Bool :=
  match d.span?, e.span? with
  | some s, some t => s.le t
  | none, some _ => false
  | _, none => true

/-- Diagnostics in the order in which they were found, and the note that an error was among them. -/
structure Collector where
  diagnostics : List Diagnostic
  hasErrors : Bool
  deriving DecidableEq, Repr

namespace Collector

/-- A collector before the first diagnostic. -/
def empty : Collector := ⟨[], false⟩

/-- Takes one more diagnostic. -/
def emit (c : Collector) (d : Diagnostic) : Collector where
  diagnostics := c.diagnostics ++ [d]
  hasErrors := if d.isError then true else c.hasErrors

/-- The diagnostics by place; those at one place stay in the order in which they were found. -/
def sorted (c : Collector) : List Diagnostic := c.diagnostics.mergeSort Diagnostic.le

/-- All diagnostics as a failure if an error was noted, and as warnings otherwise. -/
def finish (c : Collector) : Except (List Diagnostic) (List Diagnostic) :=
  if c.hasErrors then .error c.sorted else .ok c.sorted

/-! ### The passes -/

/-- Reports braces that do not balance in number. -/
def checkBraces (source : Text) (c : Collector) : Collector :=
  let (opened, closed) := source.codeBraces
  if opened = closed then c
  else c.emit (Finding.unbalanced opened closed source.lastLineSpan).diagnostic

/-- Reports a keyword without a quoted name. -/
def checkHeader (c : Collector) (r : Rejection) : Collector :=
  if r.reason ≠ .missingName then c else c.emit (Finding.unnamed r.kind r.keywordSpan).diagnostic

/-- The places where kinds and names were first declared. -/
abbrev FirstPlaces := List ((Declaration.Kind × Text) × Span)

/-- Reports a declaration whose kind and name were declared before, and remembers any other. -/
def checkRepeat (state : FirstPlaces × Collector) (d : Declaration) : FirstPlaces × Collector :=
  match state.1.lookup (d.kind, d.name) with
  | none => (((d.kind, d.name), d.nameSpan) :: state.1, state.2)
  | some first => (state.1, state.2.emit (Finding.duplicate d.kind d.name d.nameSpan first).diagnostic)

/-- Reports a reference to a name that is neither `input` nor bound. -/
def checkReference (scope : Scope) (pipeline : Text) (offset : Nat) (c : Collector) (r : Reference) :
    Collector :=
  if r.root = inputWord ∨ scope.binds r.root then c
  else c.emit (Finding.unknownVariable r.root pipeline (r.rootSpan.shift offset)).diagnostic

/-- Reports the module of a call if it is unknown, and then goes over the references in the
arguments if these close on the line. -/
def checkCall (known : List Text) (scope : Scope) (pipeline : Text) (offset : Nat) (code : Text)
    (c : Collector) (call : Call) : Collector :=
  let c := if known.contains call.module then c
    else c.emit (Finding.unknownModule call.module (call.moduleSpan.shift offset)).diagnostic
  match call.args with
  | some args =>
    (code.slice args).references.foldl (checkReference scope pipeline (offset + args.start)) c
  | none => c

/-- Goes over the lines of a pipeline until the braces close more than they opened. -/
def checkLines (known : List Text) (pipeline : Text) :
    (offset : Nat) → (depth : Int) → Scope → List Text → Collector → Collector
  | _, _, _, [], c => c
  | offset, depth, scope, line :: lines, c =>
    let (opened, closed) := line.codeBraces
    let depth := depth + opened - closed
    if depth < 0 then c
    else
      let code := line.codePart
      let scope := scope.afterLine code
      let c := code.lineCalls.foldl (checkCall known scope pipeline offset code) c
      checkLines known pipeline (offset + line.byteLength) depth scope lines c

/-- Goes over the body of a pipeline. -/
def checkPipeline (source : Text) (known : List Text) (c : Collector) (d : Declaration) : Collector :=
  checkLines known d.name d.body.start 0 .initial (d.content source).lines c

end Collector

/-- What the passes over a document leave. -/
structure Passes where
  declarations : List Declaration
  known : List Text
  collector : Collector

/-- **All passes over a document**, in their order. -/
def Text.passes (source : Text) (extra : List Text) : Passes :=
  let declarations := source.declarations
  let known := source.knownModules extra
  let c := Collector.checkBraces source .empty
  let c := source.rejections.foldl Collector.checkHeader c
  let c := (declarations.foldl Collector.checkRepeat ([], c)).2
  let c := (declarations.filter fun d => d.kind == .pipeline).foldl
    (Collector.checkPipeline source known) c
  ⟨declarations, known, c⟩

theorem Text.declarations_passes (source : Text) (extra : List Text) :
    (source.passes extra).declarations = source.declarations := rfl

namespace Collector

/-! ### Taking many diagnostics -/

/-- Takes the diagnostics of findings, one after the other. -/
def emitAll (c : Collector) (fs : List Finding) : Collector :=
  fs.foldl (fun c f => c.emit f.diagnostic) c

@[simp] theorem emitAll_nil (c : Collector) : c.emitAll [] = c := rfl

@[simp] theorem emitAll_singleton (c : Collector) (f : Finding) :
    c.emitAll [f] = c.emit f.diagnostic := rfl

theorem emitAll_append (c : Collector) (fs gs : List Finding) :
    c.emitAll (fs ++ gs) = (c.emitAll fs).emitAll gs := List.foldl_append

/-- Steps that hand over the findings of an element each hand over those of a whole list. -/
theorem foldl_eq_emitAll {α : Type} {step : Collector → α → Collector} {f : α → List Finding}
    {l : List α} (h : ∀ c, ∀ a ∈ l, step c a = c.emitAll (f a)) (c : Collector) :
    l.foldl step c = c.emitAll (l.flatMap f) := by
  induction l generalizing c with
  | nil => rfl
  | cons a l ih =>
    rw [List.foldl_cons, List.flatMap_cons, emitAll_append, h c a List.mem_cons_self]
    exact ih (fun c b hb => h c b (List.mem_cons_of_mem _ hb)) _

theorem diagnostics_emitAll (c : Collector) (fs : List Finding) :
    (c.emitAll fs).diagnostics = c.diagnostics ++ fs.map Finding.diagnostic := by
  induction fs generalizing c with
  | nil => exact (List.append_nil _).symm
  | cons f fs ih =>
    show ((c.emit f.diagnostic).emitAll fs).diagnostics = _
    rw [ih, List.map_cons]
    exact List.append_assoc ..

/-- The note says whether an error is among the diagnostics. -/
def Faithful (c : Collector) : Prop := c.hasErrors = c.diagnostics.any Diagnostic.isError

theorem faithful_empty : empty.Faithful := rfl

theorem Faithful.emit {c : Collector} (h : c.Faithful) (d : Diagnostic) : (c.emit d).Faithful := by
  show (if d.isError then true else c.hasErrors) = (c.diagnostics ++ [d]).any Diagnostic.isError
  rw [List.any_append, ← h]
  cases hd : d.isError with
  | true => simp [hd]
  | false => simp [hd]

/-- **The note is right** after any number of diagnostics. -/
theorem Faithful.emitAll {c : Collector} (h : c.Faithful) (fs : List Finding) :
    (c.emitAll fs).Faithful := by
  induction fs generalizing c with
  | nil => exact h
  | cons f fs ih => exact ih (h.emit f.diagnostic)

/-! ### What the passes hand over -/

theorem checkBraces_eq (source : Text) (c : Collector) :
    checkBraces source c = c.emitAll (braceFindings source) := by
  simp only [checkBraces, braceFindings]
  split <;> rfl

theorem foldl_checkHeader (source : Text) (c : Collector) :
    source.rejections.foldl checkHeader c = c.emitAll (nameFindings source) := by
  rw [nameFindings, List.filterMap_eq_flatMap_toList]
  refine foldl_eq_emitAll (fun c r _ => ?_) c
  by_cases h : r.reason = .missingName <;> simp [checkHeader, h]

/-- The places are those of the first declarations of each kind and name. -/
def FirstPlaces.Remembers (places : FirstPlaces) (seen : List Declaration) : Prop :=
  ∀ kind name, places.lookup (kind, name) =
    (seen.find? fun e => e.kind == kind && e.name == name).map (·.nameSpan)

theorem lookup_checkRepeat (places : FirstPlaces) (c : Collector) (d : Declaration)
    (key : Declaration.Kind × Text) : (checkRepeat (places, c) d).1.lookup key =
      (places.lookup key).or (if key = (d.kind, d.name) then some d.nameSpan else none) := by
  unfold checkRepeat
  cases hlookup : places.lookup (d.kind, d.name) with
  | none =>
    simp only [List.lookup_cons]
    by_cases hkey : key = (d.kind, d.name)
    · simp [hkey, hlookup]
    · have hother : (key == (d.kind, d.name)) = false := beq_eq_false_iff_ne.mpr hkey
      simp [hkey, hother]
  | some first =>
    by_cases hkey : key = (d.kind, d.name)
    · simp [hkey, hlookup]
    · simp [hkey]

theorem FirstPlaces.Remembers.checkRepeat {places : FirstPlaces} {seen : List Declaration}
    (h : places.Remembers seen) (c : Collector) (d : Declaration) :
    FirstPlaces.Remembers (checkRepeat (places, c) d).1 (seen ++ [d]) := by
  intro kind name
  have hkey : ((kind, name) = (d.kind, d.name)) ↔ (d.kind == kind && d.name == name) = true := by
    rw [Prod.mk.injEq, Bool.and_eq_true, beq_iff_eq, beq_iff_eq, eq_comm, eq_comm (a := name)]
  rw [lookup_checkRepeat, h kind name, List.find?_append, Option.map_or, List.find?_singleton]
  simp only [hkey]
  split <;> rfl

/-- **The repeats** are handed over with the place of the first declaration. -/
theorem foldl_checkRepeat {places : FirstPlaces} {seen : List Declaration}
    (h : places.Remembers seen) (ds : List Declaration) (c : Collector) :
    (ds.foldl checkRepeat (places, c)).2 = c.emitAll (duplicatesAfter seen ds) := by
  induction ds generalizing seen places c with
  | nil => rfl
  | cons d ds ih =>
    have hfirst := h d.kind d.name
    rw [List.foldl_cons, duplicatesAfter, emitAll_append, ih (h.checkRepeat c d)]
    congr 1
    unfold checkRepeat
    simp only [hfirst]
    cases seen.find? fun e => e.kind == d.kind && e.name == d.name <;> rfl

theorem checkReference_eq {scope : Scope} (hscope : scope.binds inputWord = true) (pipeline : Text)
    (offset : Nat) (c : Collector) (r : Reference) : checkReference scope pipeline offset c r =
      c.emitAll (referenceFinding? scope pipeline offset r).toList := by
  unfold checkReference referenceFinding?
  by_cases h : scope.binds r.root = true
  · rw [if_pos (Or.inr h), if_pos h]
    rfl
  · have hfree : ¬ (r.root = inputWord ∨ scope.binds r.root = true) := by
      rintro (hroot | hbinds)
      · exact h (hroot ▸ hscope)
      · exact h hbinds
    rw [if_neg hfree, if_neg h]
    rfl

theorem checkCall_eq (known : List Text) {scope : Scope} (hscope : scope.binds inputWord = true)
    (pipeline : Text) (offset : Nat) (code : Text) (c : Collector) (call : Call) :
    checkCall known scope pipeline offset code c call =
      c.emitAll (callFindings known scope pipeline offset code call) := by
  have hmodule : (if known.contains call.module then c
      else c.emit (Finding.unknownModule call.module (call.moduleSpan.shift offset)).diagnostic) =
      c.emitAll (if known.contains call.module then []
        else [Finding.unknownModule call.module (call.moduleSpan.shift offset)]) := by
    split <;> rfl
  rw [checkCall, callFindings, emitAll_append, hmodule]
  cases call.args with
  | none => rfl
  | some args =>
    simp only [List.filterMap_eq_flatMap_toList]
    exact foldl_eq_emitAll (fun c r _ => checkReference_eq hscope pipeline _ c r) _

theorem checkLines_eq (known : List Text) (pipeline : Text) (lines : List Text) (offset : Nat)
    (depth : Int) {scope : Scope} (hscope : scope.binds inputWord = true) (c : Collector) :
    checkLines known pipeline offset depth scope lines c =
      c.emitAll (lineFindings known pipeline offset depth scope lines) := by
  induction lines generalizing offset depth scope c with
  | nil => rfl
  | cons line lines ih =>
    have hscope' := Scope.binds_afterLine hscope line.codePart
    simp only [checkLines, lineFindings]
    split
    · rfl
    · rw [ih _ _ hscope', emitAll_append,
        foldl_eq_emitAll fun c call _ => checkCall_eq known hscope' pipeline offset line.codePart c call]

theorem checkPipeline_eq (source : Text) (known : List Text) (c : Collector) (d : Declaration) :
    checkPipeline source known c d = c.emitAll (pipelineFindings source known d) :=
  checkLines_eq known d.name _ _ 0 (by decide) c

end Collector

/-- **The passes hand over all findings**, pass by pass. -/
theorem Text.collector_passes (source : Text) (extra : List Text) :
    (source.passes extra).collector = Collector.empty.emitAll (source.emitted extra) := by
  have hnothing : Collector.FirstPlaces.Remembers [] [] := fun _ _ => rfl
  have hrepeats := Collector.foldl_checkRepeat hnothing
  have hpipelines := Collector.foldl_eq_emitAll
    (l := source.declarations.filter fun d => d.kind == .pipeline)
    fun c d _ => Collector.checkPipeline_eq source (source.knownModules extra) c d
  simp only [Text.passes, Text.emitted, Collector.emitAll_append, Collector.checkBraces_eq,
    Collector.foldl_checkHeader, hrepeats, hpipelines]

theorem Text.diagnostics_passes (source : Text) (extra : List Text) :
    (source.passes extra).collector.diagnostics = (source.emitted extra).map Finding.diagnostic := by
  rw [Text.collector_passes, Collector.diagnostics_emitAll]
  rfl

/-! ### Sorting -/

theorem Diagnostic.le_trans (a b c : Diagnostic) (hab : a.le b) (hbc : b.le c) : a.le c := by
  unfold Diagnostic.le at hab hbc ⊢
  cases ha : a.span? <;> cases hb : b.span? <;> cases hc : c.span? <;> simp_all
  exact Span.le_trans hab hbc

theorem Diagnostic.le_total (a b : Diagnostic) : a.le b || b.le a := by
  unfold Diagnostic.le
  cases a.span? <;> cases b.span? <;> simp
  exact Bool.or_eq_true .. ▸ Span.le_total _ _

/-- Diagnostics at one place are in order, whichever way they stand. -/
theorem Diagnostic.le_of_span?_eq {a b : Diagnostic} (h : a.span? = b.span?) : a.le b = true := by
  unfold Diagnostic.le
  rw [h]
  cases b.span? with
  | none => rfl
  | some s => simp [Span.le]

/-- **Diagnostics at one place** stay in the order in which they were found. -/
theorem Collector.filter_sorted (c : Collector) (place : Option Span) :
    c.sorted.filter (fun d => d.span? == place) = c.diagnostics.filter fun d => d.span? == place := by
  rw [Collector.sorted, filter_mergeSort Diagnostic.le_trans Diagnostic.le_total]
  refine List.mergeSort_of_pairwise (List.pairwise_of_forall_mem_list fun a ha b hb => ?_)
  have hplace : ∀ d ∈ c.diagnostics.filter (fun d => d.span? == place), d.span? = place :=
    fun d hd => by simpa using (List.mem_filter.mp hd).2
  exact Diagnostic.le_of_span?_eq ((hplace a ha).trans (hplace b hb).symm)

/-- The lenient review gives what the passes collect, by place. -/
theorem Text.sorted_passes (source : Text) (extra : List Text) :
    (source.passes extra).collector.sorted = source.diagnose extra := by
  rw [Collector.sorted, Text.diagnostics_passes, Text.diagnose, Text.findings]
  refine (List.map_mergeSort fun f _ g _ => ?_).symm
  simp [Diagnostic.le]

/-- The strict review decides as the note of the collector says. -/
theorem Text.finish_passes (source : Text) (extra : List Text) :
    (source.passes extra).collector.finish = source.check extra := by
  have hfaithful : (source.passes extra).collector.Faithful :=
    source.collector_passes extra ▸ Collector.faithful_empty.emitAll _
  have hnote : (source.passes extra).collector.hasErrors =
      (source.diagnose extra).any Diagnostic.isError := by
    rw [hfaithful, ← Text.sorted_passes]
    exact ((List.mergeSort_perm _ _).any_eq).symm
  rw [Collector.finish, hnote, Text.sorted_passes]
  rfl

/-! ### The two reviews -/

theorem Text.check_eq_ok_iff {source : Text} {extra : List Text} {ds : List Diagnostic} :
    source.check extra = .ok ds ↔
      ds = source.diagnose extra ∧ ∀ d ∈ source.diagnose extra, d.severity ≠ .error := by
  have hclean : (source.diagnose extra).any Diagnostic.isError = false ↔
      ∀ d ∈ source.diagnose extra, d.severity ≠ .error := by
    rw [List.any_eq_false]
    exact forall₂_congr fun d _ => not_congr beq_iff_eq
  rw [← hclean, Text.check]
  cases (source.diagnose extra).any Diagnostic.isError with
  | true => simp
  | false => simp [eq_comm]

theorem Text.check_eq_error_iff {source : Text} {extra : List Text} {ds : List Diagnostic} :
    source.check extra = .error ds ↔
      ds = source.diagnose extra ∧ 1 ≤ Diagnostic.errorCount (source.diagnose extra) := by
  have hcount : 1 ≤ Diagnostic.errorCount (source.diagnose extra) ↔
      (source.diagnose extra).any Diagnostic.isError = true := by
    rw [List.any_eq_true]
    exact List.countP_pos_iff
  rw [hcount, Text.check]
  cases (source.diagnose extra).any Diagnostic.isError with
  | true => simp [eq_comm]
  | false => simp

/-- **The lenient and the strict review agree, and nothing is lost.** The passes hand over what is
wrong with the document as a whole and then, in document order, what is wrong with each pipeline. An
analysis lists the same diagnostics by place, those at one place in the order in which they were
found. The strict review, which decides by the note of the collector, gives the same list: as
warnings exactly when none of them is an error, and otherwise as a failure with at least one error.
An analysis has errors exactly when the strict review fails. -/
theorem reviews_agree (settings : Settings) (source : Text) (active : Option Text) :
    let collector := (source.passes settings.builtinModules).collector
    let pipelines := source.declarations.filter fun d => d.kind == .pipeline
    let listed := (settings.analyze source active).diagnostics
    (collector.diagnostics = (braceFindings source ++ nameFindings source ++
        duplicatesAfter [] source.declarations ++ pipelines.flatMap
          (pipelineFindings source (source.knownModules settings.builtinModules))).map
            Finding.diagnostic ∧
      pipelines.Pairwise fun d e => d.body.stop < e.keywordSpan.start) ∧
    (listed.Perm collector.diagnostics ∧ listed.Pairwise (fun d e => d.le e = true) ∧
      ∀ place, listed.filter (fun d => d.span? == place) =
        collector.diagnostics.filter fun d => d.span? == place) ∧
    (source.diagnose settings.builtinModules = collector.sorted ∧ settings.diagnose source = listed ∧
      source.check settings.builtinModules = collector.finish ∧
      settings.check source = collector.finish) ∧
    (∀ ds, settings.check source = .ok ds ↔ ds = listed ∧ ∀ d ∈ listed, d.severity ≠ .error) ∧
    (∀ ds, settings.check source = .error ds ↔ ds = listed ∧ 1 ≤ Diagnostic.errorCount listed) ∧
    ((settings.analyze source active).hasErrors = true ↔
      ∃ ds, settings.check source = .error ds) := by
  intro collector pipelines listed
  have hlisted : collector.sorted = listed := source.sorted_passes settings.builtinModules
  have hverdict : collector.finish = settings.check source :=
    source.finish_passes settings.builtinModules
  refine ⟨⟨source.diagnostics_passes _, source.pairwise_declarations.filter _⟩, ?_,
    ⟨hlisted.symm, rfl, hverdict.symm, hverdict.symm⟩, fun _ => Text.check_eq_ok_iff,
    fun _ => Text.check_eq_error_iff, ?_⟩
  · rw [← hlisted]
    exact ⟨List.mergeSort_perm .., List.pairwise_mergeSort Diagnostic.le_trans Diagnostic.le_total _,
      collector.filter_sorted⟩
  · have hfails : (∃ ds, settings.check source = .error ds) ↔ 1 ≤ Diagnostic.errorCount listed :=
      ⟨fun ⟨_, h⟩ => (Text.check_eq_error_iff.mp h).2,
        fun h => ⟨listed, Text.check_eq_error_iff.mpr ⟨rfl, h⟩⟩⟩
    rw [hfails, Analysis.hasErrors, List.any_eq_true]
    exact List.countP_pos_iff.symm

end PipelineDoc
