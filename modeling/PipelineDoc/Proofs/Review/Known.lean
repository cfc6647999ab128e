import PipelineDoc.Proofs.Review.Collector

/-!
# More known modules

A review with more known modules finds what it found before, less the calls of modules that it did
not know before (`lineFindings_eq_filter`). The sort by place is stable, so the diagnostics that
stay keep their order. Main statement: `analyze_more_builtins`.
-/

namespace PipelineDoc

/-- Whether a finding stays one when modules of the given names are known as well. -/
def Finding.outlasts (names : List Text) : Finding → Bool
  | .unknownModule name _ => !names.contains name
  | _ => true

theorem Finding.outlasts_of_not_isOfCall {f : Finding} (h : f.isOfCall = false)
    (names : List Text) : f.outlasts names = true := by
  cases f with
  | unbalanced | unnamed | duplicate => rfl
  | unknownModule | unknownVariable => cases h

section

variable {known known' names : List Text} (hknown : ∀ m, m ∈ known' ↔ m ∈ known ∨ m ∈ names)

include hknown

theorem callFindings_eq_filter (scope : Scope) (pipeline : Text) (offset : Nat) (code : Text)
    (call : Call) : callFindings known' scope pipeline offset code call =
      (callFindings known scope pipeline offset code call).filter (Finding.outlasts names) := by
  simp only [callFindings, List.filter_append]
  congr 1
  · have hcontains : known'.contains call.module =
        (known.contains call.module || names.contains call.module) := by
      rw [Bool.eq_iff_iff]
      simp only [List.contains_iff_mem, Bool.or_eq_true, hknown]
    have houtlasts : (Finding.unknownModule call.module (call.moduleSpan.shift offset)).outlasts
        names = !names.contains call.module := rfl
    rw [hcontains]
    cases known.contains call.module with
    | true => rfl
    | false =>
      cases hm : names.contains call.module with
      | true => rw [hm] at houtlasts; simp [houtlasts]
      | false => rw [hm] at houtlasts; simp [houtlasts]
  · -- what is found in the arguments does not depend on the known modules
    symm
    rw [List.filter_eq_self]
    intro f hf
    split at hf
    · obtain ⟨r, -, hr⟩ := List.mem_filterMap.mp hf
      simp only [referenceFinding?, Option.ite_none_left_eq_some, Option.some.injEq] at hr
      obtain ⟨-, rfl⟩ := hr
      rfl
    · cases hf

/-- **With more known modules** the other findings of a pipeline stay as they are. -/
theorem lineFindings_eq_filter (pipeline : Text) (lines : List Text) (offset : Nat) (depth : Int)
    (scope : Scope) : lineFindings known' pipeline offset depth scope lines =
      (lineFindings known pipeline offset depth scope lines).filter (Finding.outlasts names) := by
  induction lines generalizing offset depth scope with
  | nil => rfl
  | cons line lines ih =>
    simp only [lineFindings]
    split
    · rfl
    · rw [List.filter_append, ih, List.filter_flatMap]
      congr 2
      funext call
      exact callFindings_eq_filter hknown ..

theorem pipelineReview_eq_filter (source : Text) : source.pipelineReview known' =
    (source.pipelineReview known).filter (Finding.outlasts names) := by
  rw [Text.pipelineReview, Text.pipelineReview, List.filter_flatMap]
  exact List.flatMap_congr fun d _ => lineFindings_eq_filter hknown ..

end

/-! ### The message of an unknown module -/

theorem unknownModule_message_beq (name name' : Text) :
    ("undefined module `" ++ String.ofList name ++ "`" ==
      "undefined module `" ++ String.ofList name' ++ "`") = (name == name') := by
  rw [Bool.eq_iff_iff, beq_iff_eq, beq_iff_eq]
  constructor
  · intro h
    have hlist := congrArg String.toList h
    simpa only [String.toList_append, String.toList_ofList, List.append_cancel_left_eq,
      List.append_cancel_right_eq] using hlist
  · intro h
    rw [h]

/-- Whether a diagnostic reports one of the given modules as unknown. -/
def Diagnostic.reportsOneOf (names : List Text) (d : Diagnostic) : Bool :=
  d.code == some .unknownModule &&
    names.any fun name => d.message == "undefined module `" ++ String.ofList name ++ "`"

theorem Finding.reportsOneOf_diagnostic (f : Finding) (names : List Text) :
    f.diagnostic.reportsOneOf names = !f.outlasts names := by
  have hcode : f.diagnostic.code = some f.code := rfl
  rw [Diagnostic.reportsOneOf, hcode]
  cases f with
  | unknownModule name span =>
    have hmessage : (Finding.unknownModule name span).diagnostic.message =
        "undefined module `" ++ String.ofList name ++ "`" := rfl
    simp only [hmessage, unknownModule_message_beq, Finding.code, BEq.rfl, Bool.true_and,
      Finding.outlasts, Bool.not_not, List.contains_eq_any_beq]
  | unbalanced | unnamed | duplicate | unknownVariable => rfl

/-! ### Built-in modules -/

/-- The settings with other built-in modules. -/
def Settings.withBuiltins (settings : Settings) (names : List Text) : Settings :=
  { settings with builtinModules := names }

theorem Settings.graph_withBuiltins (settings : Settings) (names : List Text) (source : Text)
    (active : Option Text) :
    (settings.withBuiltins names).graph source active = settings.graph source active := rfl

section

variable {extra more : List Text} (h : extra ⊆ more)

include h

theorem mem_knownModules_of_subset (source m : Text) :
    m ∈ source.knownModules more ↔ m ∈ source.knownModules extra ∨ m ∈ more := by
  simp only [Text.knownModules, List.mem_append]
  constructor
  · rintro ((hstandard | hmore) | hdeclared)
    · exact .inl (.inl (.inl hstandard))
    · exact .inr hmore
    · exact .inl (.inr hdeclared)
  · rintro (((hstandard | hextra) | hdeclared) | hmore)
    · exact .inl (.inl hstandard)
    · exact .inl (.inr (h hextra))
    · exact .inr hdeclared
    · exact .inl (.inr hmore)

theorem emitted_eq_filter (source : Text) : source.emitted more =
    (source.emitted extra).filter (Finding.outlasts more) := by
  have houtlasts : ∀ f, f ∈ braceFindings source ∨
      f ∈ nameFindings source ++ duplicatesAfter [] source.declarations → f.outlasts more = true :=
    fun f hf => Finding.outlasts_of_not_isOfCall (isOfCall_eq_false hf) more
  rw [Text.emitted_eq_append, Text.emitted_eq_append, Text.laterFindings, Text.laterFindings,
    List.filter_append, List.filter_append,
    ← pipelineReview_eq_filter (mem_knownModules_of_subset h source),
    List.filter_eq_self.mpr fun f hf => houtlasts f (.inl hf),
    List.filter_eq_self.mpr fun f hf => houtlasts f (.inr hf)]

theorem findings_eq_filter (source : Text) : source.findings more =
    (source.findings extra).filter (Finding.outlasts more) := by
  rw [filter_findings, ← emitted_eq_filter h]
  rfl

/-- **More built-in modules** take away the reports of unknown modules that are now built in, and
leave all else as it is: the other diagnostics in their order, the declarations and the graph. -/
theorem analyze_more_builtins (settings : Settings) (source : Text) (active : Option Text) :
    let before := (settings.withBuiltins extra).analyze source active
    let after := (settings.withBuiltins more).analyze source active
    after.diagnostics = before.diagnostics.filter (fun d => !d.reportsOneOf more) ∧
      after.markers = (before.diagnostics.filter fun d => !d.reportsOneOf more).map
        (fun d => d.marker source) ∧
      (source.passes more).declarations = (source.passes extra).declarations ∧
      after.graph = before.graph := by
  intro before after
  have hdiagnostics : after.diagnostics =
      before.diagnostics.filter fun d => !d.reportsOneOf more := by
    show (source.findings more).map Finding.diagnostic =
      ((source.findings extra).map Finding.diagnostic).filter fun d => !d.reportsOneOf more
    rw [findings_eq_filter h, List.filter_map]
    simp only [Function.comp_def, Finding.reportsOneOf_diagnostic, Bool.not_not]
  refine ⟨hdiagnostics, ?_, ?_, ?_⟩
  · show after.diagnostics.map (fun d => d.marker source) = _
    rw [hdiagnostics]
  · rw [Text.declarations_passes, Text.declarations_passes]
  · show (settings.withBuiltins more).graph source active =
      (settings.withBuiltins extra).graph source active
    rw [Settings.graph_withBuiltins, Settings.graph_withBuiltins]

end

/-- Of three unknown modules one has been built in before and one more is now. Between the calls
stand a repeated declaration and an unknown variable, which stay reported. -/
theorem analyze_more_builtins_second :
    let source : Text := ("module \"m\" \x7b\x7d\n" ++
      "pipeline \"p\" \x7b run x(u) run y(u) run z(u) \x7d\nmodule \"m\" \x7b\x7d").toList
    let extra : List Text := [['x']]
    let more : List Text := [['y'], ['x'], ['m']]
    let before := (Settings.withBuiltins {} extra).analyze source none
    let after := (Settings.withBuiltins {} more).analyze source none
    extra ⊆ more ∧ after.diagnostics = before.diagnostics.filter (fun d => !d.reportsOneOf more) ∧
      (Finding.unknownModule ['y'] (.ofLength 42 1)).diagnostic ∈ before.diagnostics ∧
      (Finding.unknownModule ['y'] (.ofLength 42 1)).diagnostic ∉ after.diagnostics ∧
      (Finding.unknownModule ['z'] (.ofLength 51 1)).diagnostic ∈ after.diagnostics := by
  intro source extra more before after
  have hsubset : extra ⊆ more := by decide
  have hbefore : ∀ f, f ∈ source.emitted extra → f.diagnostic ∈ before.diagnostics :=
    fun f hf => mem_diagnostics.mpr ⟨f, hf, rfl⟩
  have hdiagnostics := (analyze_more_builtins hsubset {} source none).1
  have hy := hbefore (.unknownModule ['y'] (.ofLength 42 1)) (by decide +kernel)
  have hz := hbefore (.unknownModule ['z'] (.ofLength 51 1)) (by decide +kernel)
  refine ⟨hsubset, hdiagnostics, hy, fun hmem => ?_, ?_⟩
  · rw [hdiagnostics, List.mem_filter, Finding.reportsOneOf_diagnostic] at hmem
    cases hmem.2
  · rw [hdiagnostics, List.mem_filter, Finding.reportsOneOf_diagnostic]
    exact ⟨hz, rfl⟩

end PipelineDoc
