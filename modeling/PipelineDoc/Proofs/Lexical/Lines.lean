import PipelineDoc.Proofs.Lexical.Nesting
import PipelineDoc.Proofs.Text.Lines

/-!
# Labels line by line

A review reads each line of a body on its own, from code on. If no newline before a line is part of
a string, then the lines up to that one have the labels of the body (`zip_labels_lines`). A line
whose start is part of a string is read the other way round: what is code in the body is none in the
line (`not_codeAfter_of_string`). What is code on a line belongs to its code part
(`prefix_codePart`).
-/

namespace PipelineDoc

namespace Mode

/-! ### Labels of parts -/

theorem getElem?_labels (mode : Mode) (p s : Text) (c : Char) :
    (mode.labels (p ++ c :: s))[p.length]? = some ((mode.run p (some c)).step c s.head?).1 := by
  induction p generalizing mode with
  | nil => rfl
  | cons d p ih =>
    rw [List.cons_append, labels_cons, List.length_cons, List.getElem?_cons_succ, ih, run_cons,
      List.head?_append]
    rfl

theorem mem_zip_labels (mode : Mode) (p r s : Text) (c : Char) :
    (c, ((mode.run p (some c)).step c s.head?).1) ∈ (p ++ c :: r).zip (mode.labels (p ++ c :: s)) := by
  refine List.mem_of_getElem? (i := p.length) (List.getElem?_zip_eq_some.mpr ⟨?_, ?_⟩)
  · simp
  · exact getElem?_labels mode p s c

theorem step_newline (mode : Mode) (next : Option Char) :
    mode.step '\n' next = mode.step '\n' none := by
  cases mode <;> rfl

theorem labels_append_newline (mode : Mode) (p s : Text) :
    mode.labels (p ++ '\n' :: s) =
      mode.labels (p ++ ['\n']) ++ (mode.run (p ++ ['\n']) none).labels s := by
  induction p generalizing mode with
  | nil => rw [List.nil_append, List.nil_append, labels_cons, labels_cons, step_newline]; rfl
  | cons c p ih =>
    have hhead : (p ++ '\n' :: s).head? = (p ++ ['\n']).head? := by
      rw [List.head?_append, List.head?_append]
      rfl
    rw [List.cons_append, List.cons_append, labels_cons, labels_cons, run_cons, Option.or_none,
      hhead, ih]
    rfl

/-! ### Lines that start in a string -/

/-- Where a reader that started in a string is in code, one that started in code is in a string or
in a comment. -/
def Opposite : Mode → Mode → Prop
  | .code, m => m = .string ∨ m = .comment
  | .codeEscape, m => m = .stringEscape ∨ m = .comment
  | .string, m => m = .code ∨ m = .comment
  | .stringEscape, m => m = .codeEscape ∨ m = .comment
  | .comment, _ => True

theorem Opposite.step {m m' : Mode} (h : Opposite m m') {c : Char} (hc : c ≠ '\n')
    (next next' : Option Char) : Opposite (m.step c next).2 (m'.step c next').2 := by
  cases m with
  | comment => simp [Mode.step, hc, Opposite]
  | code =>
    rcases h with rfl | rfl
    · simp only [Mode.step]
      split_ifs <;> simp [Opposite]
    · simp only [Mode.step, if_neg hc]
      split_ifs <;> simp [Opposite]
  | codeEscape =>
    rcases h with rfl | rfl <;> simp [Mode.step, hc, Opposite]
  | string =>
    rcases h with rfl | rfl
    · simp only [Mode.step]
      split_ifs <;> simp [Opposite]
    · simp only [Mode.step, if_neg hc]
      split_ifs <;> simp [Opposite]
  | stringEscape =>
    rcases h with rfl | rfl <;> simp [Mode.step, hc, Opposite]

theorem Opposite.run {m m' : Mode} (h : Opposite m m') {p : Text} (hp : '\n' ∉ p)
    (next next' : Option Char) : Opposite (m.run p next) (m'.run p next') := by
  induction p generalizing m m' with
  | nil => exact h
  | cons c p ih =>
    rw [List.mem_cons, not_or] at hp
    exact ih (h.step (Ne.symm hp.1) _ _) hp.2

/-- **A line that starts in a string** is read the other way round. -/
theorem not_codeAfter_of_string {p s s' : Text} (hp : '\n' ∉ p) {c : Char} (hc : isInert c = true)
    (hnl : c ≠ '\n') (h : Mode.string.CodeAfter p (c :: s)) : ¬ Mode.code.CodeAfter p (c :: s') := by
  intro h'
  have hstart : Opposite string code := Or.inl rfl
  have hopp : Opposite (string.run p (some c)) (code.run p (some c)) := hstart.run hp _ _
  have hl : ((string.run p (some c)).step c s.head?).1 = .code := h
  have hl' : ((code.run p (some c)).step c s'.head?).1 = .code := h'
  simp only [isInert, Bool.and_eq_true, bne_iff_ne] at hc
  generalize string.run p (some c) = m at hopp hl
  generalize code.run p (some c) = m' at hopp hl'
  cases m with
  | code => rcases hopp with rfl | rfl <;> simp [step, hc, hnl] at hl'
  | codeEscape => rcases hopp with rfl | rfl <;> simp [step, hnl] at hl'
  | string => simp [step, hc] at hl
  | stringEscape => simp [step] at hl
  | comment => simp [step, hnl] at hl

/-! ### Comments -/

theorem mode_of_comment {mode : Mode} {c : Char} {next : Option Char}
    (hl : (mode.step c next).1 = .comment) : (mode.step c next).2 = .comment := by
  cases mode with
  | code =>
    simp only [step] at hl ⊢
    split_ifs at hl ⊢
    rfl
  | codeEscape => cases hl
  | string =>
    simp only [step] at hl
    split_ifs at hl
  | stringEscape => cases hl
  | comment =>
    simp only [step] at hl ⊢
    split_ifs at hl ⊢
    rfl

theorem run_comment {p : Text} (hp : '\n' ∉ p) (next : Option Char) :
    comment.run p next = comment := by
  induction p with
  | nil => rfl
  | cons c p ih =>
    rw [List.mem_cons, not_or] at hp
    rw [run_cons]
    simp only [step, if_neg (Ne.symm hp.1)]
    exact ih hp.2

end Mode

/-! ### Lines of a text -/

namespace Text

variable {t line : Text} {older newer : List Text}

/-- The line after the lines `older` starts inside a string of the text. -/
def StartsInString (t : Text) (older : List Text) : Prop :=
  older ≠ [] ∧ t.labels[older.flatten.length - 1]? = some .string

theorem run_older (h : t.lines = older ++ line :: newer) (next : Option Char) :
    (t.StartsInString older → Mode.code.run older.flatten next = .string) ∧
      (¬ t.StartsInString older → Mode.code.run older.flatten next = .code) := by
  rcases flatten_older h with rfl | ⟨q, hq⟩
  · exact ⟨fun h => absurd rfl h.1, fun _ => rfl⟩
  · have hne : older ≠ [] := by
      rintro rfl
      simp at hq
    have ht : t = q ++ '\n' :: (line ++ newer.flatten) := by
      rw [eq_of_lines h, hq, List.append_assoc]
      rfl
    have hlabel := Mode.getElem?_labels .code q (line ++ newer.flatten) '\n'
    rw [← ht] at hlabel
    have hstarts : t.StartsInString older ↔
        ((Mode.code.run q (some '\n')).step '\n' next).1 = .string := by
      rw [StartsInString, hq, List.length_append, List.length_singleton, Nat.add_sub_cancel]
      rw [show t.labels = Mode.code.labels t from rfl, hlabel, Option.some.injEq,
        Mode.step_newline, Mode.step_newline _ next]
      exact and_iff_right hne
    rw [hstarts, hq, Mode.run_concat]
    exact ⟨Mode.mode_of_string_newline, Mode.mode_of_newline⟩

/-- **Lines have the labels of their text**, up to a line before which no newline is part of a
string. -/
theorem zip_labels_lines (h : t.lines = older ++ line :: newer)
    (hnone : ('\n', Label.string) ∉ older.flatten.zip t.labels) :
    (older ++ [line]).flatMap (fun l => l.zip l.labels) = (older.flatten ++ line).zip t.labels := by
  induction t using lines_induction generalizing older with
  | last t ht =>
    have hne : t ≠ [] := by
      rintro rfl
      simp [lines] at h
    rw [lines_of_not_mem ht hne] at h
    obtain rfl : older = [] := by
      cases older with
      | nil => rfl
      | cons _ _ => simp at h
    cases h
    simp
  | line p s hp ih =>
    have hlabels := Mode.labels_append_newline .code p s
    rw [lines_append_newline hp] at h
    cases older with
    | nil =>
      cases h
      rw [List.nil_append, List.flatMap_singleton, List.flatten_nil, List.nil_append]
      show _ = (p ++ ['\n']).zip (Mode.code.labels (p ++ '\n' :: s))
      rw [hlabels, ← List.append_nil (p ++ ['\n']), List.zip_append (by simp)]
      simp [labels]
    | cons first older =>
      rw [List.cons_append, List.cons.injEq] at h
      obtain ⟨rfl, h⟩ := h
      -- the first newline is not part of a string, so the rest is read from code on
      have hmode : Mode.code.run (p ++ ['\n']) none = .code := by
        rw [Mode.run_concat]
        refine Mode.mode_of_newline fun hl => hnone ?_
        have hmem := Mode.mem_zip_labels .code p older.flatten s '\n'
        rw [Mode.step_newline, hl] at hmem
        rw [List.flatten_cons, List.append_assoc]
        exact hmem
      rw [hmode] at hlabels
      have hzip : ∀ u : Text, ((p ++ ['\n']) ++ u).zip (labels (p ++ '\n' :: s)) =
          (p ++ ['\n']).zip (labels (p ++ ['\n'])) ++ u.zip s.labels := by
        intro u
        rw [show labels (p ++ '\n' :: s) = Mode.code.labels (p ++ '\n' :: s) from rfl, hlabels,
          List.zip_append (by simp)]
        rfl
      rw [List.flatten_cons, hzip, List.mem_append, not_or] at hnone
      rw [List.cons_append, List.flatMap_cons, ih h hnone.2, List.flatten_cons, List.append_assoc,
        hzip]

theorem mem_zip_mono {p : Text} {labels : List Label} (h : p <+: t) {x : Char × Label}
    (hx : x ∈ p.zip labels) : x ∈ t.zip labels := by
  obtain ⟨r, rfl⟩ := h
  obtain ⟨i, hi⟩ := List.mem_iff_getElem?.mp hx
  obtain ⟨hp, hl⟩ := List.getElem?_zip_eq_some.mp hi
  refine List.mem_of_getElem? (i := i) (List.getElem?_zip_eq_some.mpr ⟨?_, hl⟩)
  rw [List.getElem?_append_left (List.getElem?_eq_some_iff.mp hp).1, hp]

theorem flatMap_byteLabels_lines (hnone : ('\n', Label.string) ∉ t.zip t.labels) :
    t.lines.flatMap byteLabels = t.byteLabels := by
  rcases List.eq_nil_or_concat' t.lines with hnil | ⟨older, line, hlines⟩
  · have ht : t = [] := by rw [← flatten_lines t, hnil, List.flatten_nil]
    rw [ht]
    rfl
  · have hsplit := eq_of_lines hlines
    rw [List.flatten_nil, List.append_nil] at hsplit
    have holder : ('\n', Label.string) ∉ older.flatten.zip t.labels := fun hmem =>
      hnone (mem_zip_mono ⟨line, hsplit.symm⟩ hmem)
    have hzip := zip_labels_lines hlines holder
    rw [← hsplit] at hzip
    rw [byteLabels, ← hzip, hlines, List.flatMap_assoc]
    rfl

/-! ### The code part of a line -/

/-- **What is code on a line** comes before its first comment. -/
theorem prefix_codePart {p s : Text} {c : Char} (hp : '\n' ∉ p) (hc : c ≠ '\n')
    (h : Mode.code.CodeAfter p (c :: s)) : p ++ [c] <+: (p ++ c :: s : Text).codePart := by
  rw [codePart, labels]
  generalize Mode.code = mode at h ⊢
  induction p generalizing mode with
  | nil =>
    have hl : (mode.step c s.head?).1 = .code := h
    rw [List.nil_append, List.nil_append, Mode.labels_cons, List.zip_cons_cons, hl,
      List.takeWhile_cons_of_pos rfl, List.map_cons]
    exact ⟨_, rfl⟩
  | cons d p ih =>
    rw [List.mem_cons, not_or] at hp
    have hrest : (mode.step d (p ++ c :: s).head?).2.CodeAfter p (c :: s) :=
      Mode.codeAfter_append (p := [d]).mp h
    have hl : (mode.step d (p ++ c :: s).head?).1 ≠ .comment := by
      intro hl
      rw [Mode.mode_of_comment hl] at hrest
      have hl' : ((Mode.comment.run p (some c)).step c s.head?).1 = .code := hrest
      rw [Mode.run_comment hp.2] at hl'
      simp [Mode.step, hc] at hl'
    rw [List.cons_append, List.cons_append, Mode.labels_cons, List.zip_cons_cons,
      List.takeWhile_cons_of_pos (by simpa using hl), List.map_cons]
    exact (List.prefix_cons_inj _).mpr (ih hp.2 _ hrest)

/-- A word of inert characters in code lies in the code part. -/
theorem exists_codePart_eq {p w s : Text} (hp : '\n' ∉ p) (hnl : '\n' ∉ w)
    (hw : ∀ c ∈ w, isInert c = true) (hne : w ≠ []) (h : Mode.code.CodeAfter p (w ++ s)) :
    ∃ r, (p ++ (w ++ s) : Text).codePart = p ++ (w ++ r) := by
  obtain ⟨u, c, rfl⟩ := (List.eq_nil_or_concat' w).resolve_left hne
  have hlast : Mode.code.CodeAfter (p ++ u) (c :: s) := by
    rw [List.append_assoc] at h
    exact h.append (fun d hd => hw d (by simp [hd])) (by simpa using hw c (by simp)) (by simp)
  simp only [List.mem_append, not_or, List.mem_singleton] at hnl
  obtain ⟨r, hr⟩ := prefix_codePart (by simp [hp, hnl.1]) (Ne.symm hnl.2) hlast
  refine ⟨r, ?_⟩
  rw [show p ++ (u ++ [c] ++ s) = p ++ u ++ c :: s by simp, ← hr]
  simp

end Text

end PipelineDoc
