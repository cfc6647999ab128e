import PipelineDoc.Proofs.Review.Lines

/-!
# The reports of a document

What is wrong with calls and their arguments is found by the review of the pipelines, and by nothing
else (`filter_emitted`). Pipelines stand apart, so these findings come one after the other in the
whole document, and one whose span lies in the body of a pipeline is a finding of that pipeline.
-/

namespace PipelineDoc

/-- Whether a finding is about a call or its arguments. -/
def Finding.isOfCall : Finding → Bool
  | .unknownModule .. | .unknownVariable .. => true
  | _ => false

/-- The findings of all pipelines. -/
def Text.pipelineReview (source : Text) (known : List Text) : List Finding :=
  (source.declarations.filter fun d => d.kind == .pipeline).flatMap (pipelineFindings source known)

section

variable {source : Text} {known : List Text} {d : Declaration} {f : Finding}

theorem Finding.IsIn.isOfCall (h : f.IsIn source known d) : f.isOfCall = true := by
  cases f with
  | unknownModule | unknownVariable => rfl
  | unbalanced | unnamed | duplicate => exact h.elim

theorem Finding.IsIn.within (h : f.IsIn source known d) : f.span.Within d.body := by
  cases f with
  | unknownModule | unknownVariable => exact h.2.1
  | unbalanced | unnamed | duplicate => exact h.elim

theorem Text.mem_pipelineReview :
    f ∈ source.pipelineReview known ↔
      ∃ d ∈ source.declarations, d.kind = .pipeline ∧ f ∈ pipelineFindings source known d := by
  simp only [Text.pipelineReview, List.mem_flatMap, List.mem_filter, beq_iff_eq, and_assoc]

/-- The findings of all passes but the first. -/
def Text.laterFindings (source : Text) (extra : List Text) : List Finding :=
  nameFindings source ++ duplicatesAfter [] source.declarations ++
    source.pipelineReview (source.knownModules extra)

theorem Text.emitted_eq_append (source : Text) (extra : List Text) :
    source.emitted extra = braceFindings source ++ source.laterFindings extra := by
  simp only [emitted, laterFindings, pipelineReview, List.append_assoc]

/-- What is found before the review of the pipelines is not about calls. -/
theorem isOfCall_eq_false (h : f ∈ braceFindings source ∨
    f ∈ nameFindings source ++ duplicatesAfter [] source.declarations) : f.isOfCall = false := by
  rcases h with hbraces | h
  · obtain ⟨-, rfl⟩ := mem_braceFindings_iff.mp hbraces
    rfl
  · rcases List.mem_append.mp h with hname | hrepeat
    · obtain ⟨r, -, rfl⟩ := exists_of_mem_nameFindings hname
      rfl
    · obtain ⟨_, _, _, _, -, -, -, -, rfl⟩ := exists_of_mem_duplicatesAfter hrepeat
      rfl

/-- **Only the review of the pipelines** finds something wrong with calls. -/
theorem filter_emitted (source : Text) (extra : List Text) :
    (source.emitted extra).filter Finding.isOfCall =
      source.pipelineReview (source.knownModules extra) := by
  have hbraces : (braceFindings source).filter Finding.isOfCall = [] :=
    List.filter_eq_nil_iff.mpr fun _ hf => Bool.not_eq_true _ ▸ isOfCall_eq_false (.inl hf)
  have hearlier : (nameFindings source ++ duplicatesAfter [] source.declarations).filter
      Finding.isOfCall = [] :=
    List.filter_eq_nil_iff.mpr fun _ hf => Bool.not_eq_true _ ▸ isOfCall_eq_false (.inr hf)
  rw [Text.emitted_eq_append, Text.laterFindings, List.filter_append, hbraces, List.filter_append,
    hearlier, List.nil_append, List.nil_append]
  refine List.filter_eq_self.mpr fun f hf => ?_
  obtain ⟨d, hd, -, hf⟩ := Text.mem_pipelineReview.mp hf
  exact (pipelineFindings_isIn hd f hf).isOfCall

theorem mem_pipelineReview_of_mem_emitted {extra : List Text} (hf : f ∈ source.emitted extra)
    (hcall : f.isOfCall = true) : f ∈ source.pipelineReview (source.knownModules extra) :=
  filter_emitted source extra ▸ List.mem_filter.mpr ⟨hf, hcall⟩

theorem countP_diagnostics (settings : Settings) (source : Text) (active : Option Text)
    {P : Diagnostic → Bool} (hP : ∀ f : Finding, P f.diagnostic = true → f.isOfCall = true) :
    (settings.analyze source active).diagnostics.countP P =
      (source.pipelineReview (source.knownModules settings.builtinModules)).countP
        (P ∘ Finding.diagnostic) := by
  have hsorted := List.mergeSort_perm (source.emitted settings.builtinModules)
    fun f g => f.span.le g.span
  rw [← filter_emitted, List.countP_filter]
  calc (settings.analyze source active).diagnostics.countP P
      = (source.emitted settings.builtinModules).countP (P ∘ Finding.diagnostic) := by
        rw [← hsorted.countP_eq, ← List.countP_map]
        rfl
    _ = _ := by
        refine List.countP_congr fun f _ => ?_
        rw [Bool.and_eq_true]
        exact ⟨fun h => ⟨h, hP f h⟩, And.left⟩

theorem mem_diagnostics {settings : Settings} {active : Option Text} {g : Diagnostic} :
    g ∈ (settings.analyze source active).diagnostics ↔
      ∃ f ∈ source.emitted settings.builtinModules, f.diagnostic = g := by
  show g ∈ (source.findings settings.builtinModules).map Finding.diagnostic ↔ _
  simp only [Text.findings, List.mem_map, List.mem_mergeSort]

/-! ### Order -/

theorem Declaration.StandsIn.keyword_le_body (h : d.StandsIn source) :
    d.keywordSpan.start ≤ d.body.start := by
  have := d.keywordSpan.start_le_stop
  have := d.nameSpan.start_le_stop
  have := h.keyword_le_name
  have := h.name_le_body
  omega

theorem pairwise_pipelineReview (source : Text) (known : List Text) :
    (source.pipelineReview known).Pairwise fun f g => f.span.Before g.span := by
  refine List.pairwise_flatMap.mpr ⟨fun d _ => pairwise_pipelineFindings source known d, ?_⟩
  refine List.Pairwise.imp_of_mem ?_ (source.pairwise_declarations.filter _)
  intro d e hd he hde f hf g hg
  have hd' := List.mem_of_mem_filter hd
  have he' := List.mem_of_mem_filter he
  have hf' := (pipelineFindings_isIn hd' f hf).within
  have hg' := (pipelineFindings_isIn he' g hg).within
  have hkeyword := (Text.standsIn_of_mem_declarations he').keyword_le_body
  rw [Span.Within] at hf' hg'
  rw [Span.Before]
  omega

/-- **A finding in the body of a pipeline** is one of that pipeline. -/
theorem mem_pipelineFindings_of_within (hd : d ∈ source.declarations)
    (hf : f ∈ source.pipelineReview known) (hwithin : f.span.Within d.body)
    (hne : f.span.start < f.span.stop) : f ∈ pipelineFindings source known d := by
  obtain ⟨e, he, -, hfe⟩ := Text.mem_pipelineReview.mp hf
  have hwithin' := (pipelineFindings_isIn he f hfe).within
  rw [Span.Within] at hwithin hwithin'
  have hkeyword := (Text.standsIn_of_mem_declarations hd).keyword_le_body
  have hkeyword' := (Text.standsIn_of_mem_declarations he).keyword_le_body
  rcases eq_or_or_of_pairwise source.pairwise_declarations hd he with rfl | hbefore | hafter
  · exact hfe
  · omega
  · omega

theorem cut_eq_of_mem_lineReports {body pipeline line line' : Text} {start : Nat}
    {older newer older' newer' : List Text} (h : body.lines = older ++ line :: newer)
    (h' : body.lines = older' ++ line' :: newer')
    (hf : f ∈ lineReports known pipeline start older' line')
    (hstart : start + Text.byteLength older.flatten ≤ f.span.start)
    (hne : f.span.start < f.span.stop)
    (hstop : f.span.stop ≤ start + Text.byteLength (older.flatten ++ line)) :
    older' = older ∧ line' = line := by
  have hin := (pairwise_lineReports ..).1 f hf
  rw [List.flatten_append, List.flatten_singleton] at hin
  exact Text.line_unique h' h (n := f.span.start - start) (by omega) (by omega) (by omega) (by omega)

end

end PipelineDoc
