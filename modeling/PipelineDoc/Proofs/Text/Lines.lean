import Mathlib.Data.List.Basic
import PipelineDoc.Proofs.Text.Slices

/-!
# Lines of a text

A text either has no newline, and is one line, or it is a line up to its first newline and a further
text (`lines_induction`). So a newline stands at the end of a line only, and every line but the last
ends with one. A word without a newline lies in one line (`exists_line`).
-/

namespace PipelineDoc

namespace Text

theorem lines_cons_newline (t : Text) : lines ('\n' :: t) = ['\n'] :: lines t := by
  rw [lines, if_pos rfl]

theorem lines_cons {c : Char} (hc : c ≠ '\n') (t : Text) :
    lines (c :: t) = match lines t with
      | [] => [[c]]
      | l :: ls => (c :: l) :: ls := by
  rw [lines]
  exact if_neg hc

theorem lines_of_not_mem {t : Text} (h : '\n' ∉ t) (hne : t ≠ []) : t.lines = [t] := by
  induction t with
  | nil => exact absurd rfl hne
  | cons c t ih =>
    rw [List.mem_cons, not_or] at h
    rw [lines_cons (Ne.symm h.1)]
    cases t with
    | nil => rfl
    | cons d t => rw [ih h.2 (by simp)]

theorem lines_append_newline {p : Text} (h : '\n' ∉ p) (s : Text) :
    (p ++ '\n' :: s : Text).lines = (p ++ ['\n']) :: s.lines := by
  induction p with
  | nil => exact lines_cons_newline s
  | cons c p ih =>
    rw [List.mem_cons, not_or] at h
    rw [List.cons_append, lines_cons (Ne.symm h.1), ih h.2]
    rfl

/-- **Induction over lines**: a text has no newline, or a line of it can be taken off. -/
theorem lines_induction {motive : Text → Prop} (last : ∀ t, '\n' ∉ t → motive t)
    (line : ∀ p s, '\n' ∉ p → motive s → motive (p ++ '\n' :: s)) (t : Text) : motive t := by
  induction hn : t.length using Nat.strongRecOn generalizing t with
  | ind n ih =>
    by_cases h : '\n' ∈ t
    · obtain ⟨p, s, rfl, hp⟩ := List.eq_append_cons_of_mem h
      exact line p s hp (ih s.length (by simp at hn; omega) s rfl)
    · exact last t h

/-! ### The lines before a line -/

theorem exists_newline_of_mem_older {t : Text} {older newer : List Text} {line : Text}
    (h : t.lines = older ++ line :: newer) : ∀ l ∈ older, ∃ q, l = q ++ ['\n'] := by
  induction t using lines_induction generalizing older with
  | last t ht =>
    intro l hl
    cases older with
    | nil => cases hl
    | cons first older =>
      by_cases hne : t = []
      · rw [hne] at h
        cases h
      · rw [lines_of_not_mem ht hne, List.cons_append, List.cons.injEq] at h
        simp at h
  | line p s hp ih =>
    intro l hl
    cases older with
    | nil => cases hl
    | cons first older =>
      rw [lines_append_newline hp, List.cons_append, List.cons.injEq] at h
      rcases List.mem_cons.mp hl with rfl | hl
      · exact ⟨p, h.1.symm⟩
      · exact ih h.2 l hl

theorem flatten_older {t : Text} {older newer : List Text} {line : Text}
    (h : t.lines = older ++ line :: newer) :
    older = [] ∨ ∃ q, older.flatten = q ++ ['\n'] := by
  rcases List.eq_nil_or_concat' older with rfl | ⟨front, l, rfl⟩
  · exact Or.inl rfl
  · obtain ⟨q, hq⟩ := exists_newline_of_mem_older h l (by simp)
    exact Or.inr ⟨front.flatten ++ q, by simp [hq]⟩

theorem eq_of_lines {t : Text} {older newer : List Text} {line : Text}
    (h : t.lines = older ++ line :: newer) : t = older.flatten ++ (line ++ newer.flatten) := by
  rw [← flatten_lines t, h, List.flatten_append, List.flatten_cons]

/-- A line that starts no later than some byte of another one is the other one or comes before it.
-/
theorem concat_prefix_of_lines {t line line' : Text} {older newer older' newer' : List Text}
    (h : t.lines = older ++ line :: newer) (h' : t.lines = older' ++ line' :: newer')
    (hlt : byteLength older.flatten < byteLength (older'.flatten ++ line')) :
    older ++ [line] <+: older' ++ [line'] := by
  have hpre : ∀ {older newer : List Text} {line : Text}, t.lines = older ++ line :: newer →
      older ++ [line] <+: t.lines := by
    intro older newer line h
    exact ⟨newer, by rw [h]; simp⟩
  refine List.prefix_of_prefix_length_le (hpre h) (hpre h') (Nat.le_of_not_lt fun hlen => ?_)
  -- otherwise the other line lies before the start of the line
  obtain ⟨m, rfl⟩ : older' ++ [line'] <+: older := by
    refine List.prefix_of_prefix_length_le (hpre h') (h ▸ List.prefix_append older (line :: newer)) ?_
    simp only [List.length_append, List.length_singleton] at hlen ⊢
    omega
  rw [List.flatten_append, List.flatten_append, List.flatten_singleton,
    byteLength_append _ m.flatten] at hlt
  omega

theorem line_unique {t line line' : Text} {older newer older' newer' : List Text}
    (h : t.lines = older ++ line :: newer) (h' : t.lines = older' ++ line' :: newer') {n : Nat}
    (hle : byteLength older.flatten ≤ n) (hlt : n < byteLength (older.flatten ++ line))
    (hle' : byteLength older'.flatten ≤ n) (hlt' : n < byteLength (older'.flatten ++ line')) :
    older = older' ∧ line = line' := by
  have hpre := concat_prefix_of_lines h h' (Nat.lt_of_le_of_lt hle hlt')
  have hpre' := concat_prefix_of_lines h' h (Nat.lt_of_le_of_lt hle' hlt)
  obtain ⟨holder, hline⟩ := List.append_inj'
    (hpre.eq_of_length (Nat.le_antisymm hpre.length_le hpre'.length_le)) rfl
  exact ⟨holder, by simpa using hline⟩

/-- **A word without a newline** lies in one line. -/
theorem exists_line {t p w s : Text} (ht : t = p ++ (w ++ s)) (hne : w ≠ []) (hw : '\n' ∉ w) :
    ∃ older line newer p' s', t.lines = older ++ line :: newer ∧ p = older.flatten ++ p' ∧
      line = p' ++ (w ++ s') ∧ s = s' ++ newer.flatten ∧ '\n' ∉ p' := by
  induction t using lines_induction generalizing p with
  | last t hnone =>
    have hp : '\n' ∉ p := fun h => hnone (ht ▸ List.mem_append_left _ h)
    refine ⟨[], t, [], p, s, lines_of_not_mem hnone (by simp [ht, hne]), rfl, ht, by simp, hp⟩
  | line q r hq ih =>
    have ht' : p ++ (w ++ s) = (q ++ ['\n']) ++ r := by rw [← ht, List.append_assoc]; rfl
    by_cases hlt : p.length < (q ++ ['\n']).length
    · -- the word lies in the first line
      obtain ⟨u, rfl⟩ := append_prefix_of_not_mem ht' hlt hw
      simp only [List.mem_append, not_or] at hq
      refine ⟨[], p ++ w ++ u ++ ['\n'], r.lines, p, u ++ ['\n'], ?_, rfl, by simp, ?_, hq.1.1⟩
      · exact lines_append_newline (by simp [hq]) r
      · simpa [flatten_lines] using ht'
    · -- the word comes after the first newline
      obtain ⟨u, rfl⟩ := List.prefix_of_prefix_length_le
        (ht'.symm ▸ List.prefix_append (q ++ ['\n']) r) (List.prefix_append p (w ++ s))
        (Nat.le_of_not_lt hlt)
      rw [List.append_assoc (q ++ ['\n']), List.append_cancel_left_eq] at ht'
      obtain ⟨older, line, newer, p', s', hlines, rfl, hline, hs, hp'⟩ := ih ht'.symm
      refine ⟨(q ++ ['\n']) :: older, line, newer, p', s', ?_, ?_, hline, hs, hp'⟩
      · rw [lines_append_newline hq, hlines]
        rfl
      · simp

end Text

end PipelineDoc
