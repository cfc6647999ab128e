import PipelineDoc.Proofs.Review.Reports

/-!
# The order of findings

Findings are sorted by their spans, and the sort is stable: to leave findings out before or after it
is the same (`filter_findings`). If those of one kind all come before those of another kind, they
can be sorted one kind after the other (`mergeSort_eq_append`).
-/

namespace PipelineDoc

/-! ### Stable sorting -/

section

variable {α : Type} {le : α → α → Bool} (htrans : ∀ a b c, le a b → le b c → le a c)
  (htotal : ∀ a b, le a b || le b a)

include htrans htotal

theorem mergeSort_cons_eq (a : α) (l : List α) : (a :: l).mergeSort le =
    ((l.mergeSort le).filter fun b => !le a b) ++ a :: (l.mergeSort le).filter (le a) := by
  obtain ⟨l₁, l₂, hsort, hl, hless⟩ := List.mergeSort_cons htrans htotal a l
  have hsorted := List.pairwise_mergeSort htrans htotal (a :: l)
  rw [hsort, List.pairwise_append, List.pairwise_cons] at hsorted
  have hgreater : ∀ b ∈ l₂, le a b = true := hsorted.2.1.1
  rw [hsort, hl, List.filter_append, List.filter_append, List.filter_eq_self.mpr hless,
    List.filter_eq_self.mpr hgreater, List.filter_eq_nil_iff.mpr, List.filter_eq_nil_iff.mpr,
    List.append_nil, List.nil_append]
  · intro b hb
    simpa using hless b hb
  · intro b hb
    simpa using hgreater b hb

/-- **To leave elements out before or after sorting** is the same. -/
theorem filter_mergeSort (p : α → Bool) (l : List α) :
    (l.mergeSort le).filter p = (l.filter p).mergeSort le := by
  induction l with
  | nil => rw [List.filter_nil, List.mergeSort_nil, List.filter_nil]
  | cons a l ih =>
    by_cases ha : p a
    · rw [List.filter_cons_of_pos ha, mergeSort_cons_eq htrans htotal, List.filter_append,
        List.filter_cons_of_pos ha, mergeSort_cons_eq htrans htotal, ← ih]
      simp only [List.filter_filter, Bool.and_comm]
    · obtain ⟨l₁, l₂, hsort, hl, -⟩ := List.mergeSort_cons htrans htotal a l
      rw [List.filter_cons_of_neg ha, ← ih, hsort, hl, List.filter_append, List.filter_append,
        List.filter_cons_of_neg ha]

omit htrans htotal in
/-- In a list in order, those of a kind that comes first stand in front. -/
theorem eq_filter_append_filter {p : α → Bool} {l : List α} (hl : l.Pairwise (le · ·))
    (h : ∀ a ∈ l, ∀ b ∈ l, p a = true → p b = false → le b a = false) :
    l = l.filter p ++ l.filter fun a => !p a := by
  induction hl with
  | nil => rfl
  | @cons a l hfirst _ ih =>
    by_cases ha : p a
    · have hl := ih fun b hb c hc => h b (List.mem_cons_of_mem _ hb) c (List.mem_cons_of_mem _ hc)
      rw [List.filter_cons_of_pos ha, List.filter_cons_of_neg (by simp [ha]), List.cons_append, ← hl]
    · -- nothing that should come before `a` can follow it
      have hnone : ∀ b ∈ a :: l, p b = false := by
        intro b hb
        rcases List.mem_cons.mp hb with rfl | hb'
        · simpa using ha
        · refine Bool.eq_false_iff.mpr fun hpb => ?_
          have hless := h b hb a List.mem_cons_self hpb (by simpa using ha)
          rw [hfirst b hb'] at hless
          cases hless
      rw [List.filter_eq_nil_iff.mpr (by simpa using hnone), List.nil_append,
        List.filter_eq_self.mpr fun b hb => by rw [hnone b hb]; rfl]

/-- **Sorting one kind after the other**, when those of the first kind are all smaller. -/
theorem mergeSort_eq_append {p : α → Bool} {l : List α}
    (h : ∀ a ∈ l, ∀ b ∈ l, p a = true → p b = false → le b a = false) :
    l.mergeSort le = (l.filter p).mergeSort le ++ (l.filter fun a => !p a).mergeSort le := by
  rw [← filter_mergeSort htrans htotal, ← filter_mergeSort htrans htotal]
  refine eq_filter_append_filter (List.pairwise_mergeSort htrans htotal l) fun a ha b hb => ?_
  exact h a (List.mem_mergeSort.mp ha) b (List.mem_mergeSort.mp hb)

end

/-! ### Findings in order -/

theorem Span.le_trans {s t u : Span} (h : s.le t = true) (h' : t.le u = true) : s.le u = true := by
  simp only [Span.le, Bool.or_eq_true, Bool.and_eq_true, decide_eq_true_eq, beq_iff_eq] at h h' ⊢
  omega

theorem Span.le_total (s t : Span) : (s.le t || t.le s) = true := by
  simp only [Span.le, Bool.or_eq_true, Bool.and_eq_true, decide_eq_true_eq, beq_iff_eq]
  omega

/-- Whether a finding is placed no later than another one. -/
def Finding.le (f g : Finding) : Bool := f.span.le g.span

theorem Finding.le_trans (f g h : Finding) (hfg : f.le g) (hgh : g.le h) : f.le h :=
  Span.le_trans hfg hgh

theorem Finding.le_total (f g : Finding) : f.le g || g.le f := Span.le_total f.span g.span

theorem filter_findings (source : Text) (extra : List Text) (p : Finding → Bool) :
    (source.findings extra).filter p = ((source.emitted extra).filter p).mergeSort Finding.le :=
  filter_mergeSort Finding.le_trans Finding.le_total p _

end PipelineDoc
