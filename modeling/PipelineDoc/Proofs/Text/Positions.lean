import Mathlib.Data.List.TakeWhile
import Mathlib.Data.Set.Function
import PipelineDoc.Position
import PipelineDoc.Proofs.Text.Lines

/-!
# Positions of boundaries

The position of a boundary counts the newlines before it, and the characters after the last of them
(`endPosition`). A *line* of a text is what stands between two newlines, or between a newline and an
end of the text (`IsLine`); these are the pieces that the text is split into at its newlines
(`getElem?_splitOn_iff`). So the boundaries on a line, its end included, have the columns from one
on, and every position in the text belongs to exactly one boundary (`position_bijOn`).
-/

namespace PipelineDoc

/-- A position comes before another: on an earlier line, or on the same line and further left. -/
def Position.Before (a b : Position) : Prop :=
  a.line < b.line ∨ a.line = b.line ∧ a.column < b.column

theorem Position.Before.ne {a b : Position} (h : a.Before b) : a ≠ b := by
  rintro rfl
  rcases h with h | ⟨-, h⟩ <;> exact Nat.lt_irrefl _ h

namespace Text

/-- An offset at which a text can be cut. -/
def IsBoundary (t : Text) (n : Nat) : Prop := (t.splitAt? n).isSome

/-- A position in a text: its line is one of the pieces between newlines, and its column is that of
a character of the line or of the end of the line. -/
def HasPosition (t : Text) (pos : Position) : Prop :=
  1 ≤ pos.line ∧ 1 ≤ pos.column ∧
    ∃ line, (t.splitOn '\n')[pos.line - 1]? = some line ∧ pos.column ≤ line.length + 1

theorem isBoundary_iff {t : Text} {n : Nat} :
    t.IsBoundary n ↔ ∃ p s, t = p ++ s ∧ byteLength p = n := by
  rw [IsBoundary, Option.isSome_iff_exists]
  constructor
  · rintro ⟨⟨p, s⟩, h⟩
    exact ⟨p, s, splitAt?_eq_some_iff.mp h⟩
  · rintro ⟨p, s, h⟩
    exact ⟨(p, s), splitAt?_eq_some_iff.mpr h⟩

/-! ### Parts before an offset -/

theorem takeBytes_inside (p s : Text) {c : Char} {k : Nat} (hk : k < c.utf8Size) :
    takeBytes (p ++ c :: s) (byteLength p + k) = p := by
  induction p with
  | nil =>
    rw [List.nil_append, byteLength_nil, Nat.zero_add, takeBytes, if_neg (by omega)]
  | cons d p ih =>
    rw [List.cons_append, byteLength_cons, takeBytes, if_pos (by omega), Nat.add_assoc,
      Nat.add_sub_cancel_left, ih]

theorem takeBytes_of_le {t : Text} {n : Nat} (h : byteLength t ≤ n) : takeBytes t n = t := by
  induction t generalizing n with
  | nil => rfl
  | cons c t ih =>
    rw [byteLength_cons] at h
    rw [takeBytes, if_pos (by omega), ih (by omega)]

theorem takeBytes_append (p s : Text) : takeBytes (p ++ s) (byteLength p) = p := by
  cases s with
  | nil => rw [List.append_nil, takeBytes_of_le (Nat.le_refl _)]
  | cons c s => exact takeBytes_inside p s (Char.utf8Size_pos c)

/-! ### The position of the end of a text -/

/-- The position of the end of a text. -/
def endPosition (p : Text) : Position :=
  ⟨p.count '\n' + 1, (p.reverse.takeWhile (· != '\n')).length + 1⟩

theorem position_append (p s : Text) : (p ++ s : Text).position p.byteLength = p.endPosition := by
  rw [position, takeBytes_append]
  rfl

/-- What stands on the last line moves the end to the right. -/
theorem endPosition_append {p m : Text} (hm : '\n' ∉ m) :
    (p ++ m : Text).endPosition = ⟨p.endPosition.line, p.endPosition.column + m.length⟩ := by
  have hall : ∀ c ∈ m.reverse, (c != '\n') = true := by
    intro c hc
    rw [bne_iff_ne]
    rintro rfl
    exact hm (List.mem_reverse.mp hc)
  rw [endPosition, List.count_append, List.count_eq_zero.mpr hm, List.reverse_append,
    List.takeWhile_append_of_pos hall, List.length_append, List.length_reverse]
  simp only [endPosition, Nat.add_zero, Position.mk.injEq, true_and]
  omega

theorem endPosition_before (p : Text) {m : Text} (hne : m ≠ []) :
    p.endPosition.Before (p ++ m : Text).endPosition := by
  by_cases hm : '\n' ∈ m
  · refine Or.inl ?_
    have := List.count_pos_iff.mpr hm
    simp only [endPosition, List.count_append]
    omega
  · rw [endPosition_append hm]
    have := List.length_pos_iff.mpr hne
    exact Or.inr ⟨rfl, by simp only; omega⟩

/-! ### Lines -/

/-- A line of a text, by what stands before and after it. -/
structure IsLine (front line after : Text) : Prop where
  front : front = [] ∨ ∃ q, front = q ++ ['\n']
  line : '\n' ∉ line
  after : after = [] ∨ ∃ r, after = '\n' :: r

theorem IsLine.endPosition {front w rest after : Text} (h : IsLine front (w ++ rest) after) :
    (front ++ w : Text).endPosition = ⟨front.count '\n' + 1, w.length + 1⟩ := by
  rw [endPosition_append fun hw => h.line (List.mem_append_left _ hw)]
  rcases h.front with rfl | ⟨q, rfl⟩
  · simp [Text.endPosition, Nat.add_comm]
  · simp [Text.endPosition, Nat.add_comm]

theorem exists_isLine (p s : Text) :
    ∃ front w rest after, p = front ++ w ∧ s = rest ++ after ∧ IsLine front (w ++ rest) after := by
  have hnewline : ∀ t : Text, '\n' ∉ t.takeWhile (· != '\n') := fun t h =>
    absurd (List.mem_takeWhile_imp h) (by simp)
  refine ⟨(p.reverse.dropWhile (· != '\n')).reverse, (p.reverse.takeWhile (· != '\n')).reverse,
    s.takeWhile (· != '\n'), s.dropWhile (· != '\n'), (dropWhile_reverse_append _ p).symm,
    List.takeWhile_append_dropWhile.symm, ?_, ?_, ?_⟩
  · cases hd : p.reverse.dropWhile (· != '\n') with
    | nil => exact Or.inl rfl
    | cons c q =>
      have hc := List.head?_dropWhile_not (· != '\n') p.reverse
      rw [hd] at hc
      obtain rfl : c = '\n' := by simpa using hc
      exact Or.inr ⟨q.reverse, by simp⟩
  · rw [List.mem_append, not_or, List.mem_reverse]
    exact ⟨hnewline _, hnewline _⟩
  · cases hd : s.dropWhile (· != '\n') with
    | nil => exact Or.inl rfl
    | cons c r =>
      have hc := List.head?_dropWhile_not (· != '\n') s
      rw [hd] at hc
      obtain rfl : c = '\n' := by simpa using hc
      exact Or.inr ⟨r, rfl⟩

theorem length_splitOn (t : Text) : (t.splitOn '\n').length = t.count '\n' + 1 := by
  induction t using lines_induction with
  | last t ht => rw [List.splitOn_eq_singleton ht, List.count_eq_zero.mpr ht]; rfl
  | line p s hp ih =>
    rw [List.splitOn_append_cons_self_of_not_mem hp, List.length_cons, ih, List.count_append,
      List.count_eq_zero.mpr hp, List.count_cons_self, Nat.zero_add]

/-- A line comes first if what follows it is read alone. -/
theorem IsLine.splitOn_append {front line after : Text} (h : IsLine front line after) :
    ∃ lines, (line ++ after : Text).splitOn '\n' = line :: lines := by
  rcases h.after with rfl | ⟨r, rfl⟩
  · exact ⟨[], by rw [List.append_nil, List.splitOn_eq_singleton h.line]⟩
  · exact ⟨_, List.splitOn_append_cons_self_of_not_mem h.line r⟩

/-- **The lines of a text** are the pieces that it is split into at its newlines. -/
theorem getElem?_splitOn_iff {t line : Text} {k : Nat} :
    (t.splitOn '\n')[k]? = some line ↔ ∃ front after, t = front ++ (line ++ after) ∧
      IsLine front line after ∧ front.count '\n' = k := by
  constructor
  · intro h
    induction t using lines_induction generalizing k with
    | last t ht =>
      rw [List.splitOn_eq_singleton ht, List.getElem?_singleton] at h
      split at h
      · next hk =>
        cases h
        exact ⟨[], [], by simp, ⟨Or.inl rfl, ht, Or.inl rfl⟩, by rw [hk]; rfl⟩
      · cases h
    | line p s hp ih =>
      rw [List.splitOn_append_cons_self_of_not_mem hp] at h
      cases k with
      | zero =>
        cases h
        exact ⟨[], '\n' :: s, rfl, ⟨Or.inl rfl, hp, Or.inr ⟨s, rfl⟩⟩, rfl⟩
      | succ k =>
        obtain ⟨front, after, rfl, hline, rfl⟩ := ih h
        refine ⟨p ++ '\n' :: front, after, by simp, ⟨Or.inr ?_, hline.line, hline.after⟩, ?_⟩
        · rcases hline.front with rfl | ⟨q, rfl⟩
          · exact ⟨p, rfl⟩
          · exact ⟨p ++ '\n' :: q, by simp⟩
        · rw [List.count_append, List.count_eq_zero.mpr hp, List.count_cons_self, Nat.zero_add]
  · rintro ⟨front, after, rfl, hline, rfl⟩
    obtain ⟨lines, hlines⟩ := hline.splitOn_append
    rcases hline.front with rfl | ⟨q, rfl⟩
    · rw [List.nil_append, hlines]
      rfl
    · have hcount : (q ++ ['\n']).count '\n' = (q.splitOn '\n').length := by
        rw [length_splitOn, List.count_append, List.count_singleton_self]
      rw [List.append_assoc, List.singleton_append, List.splitOn_append_cons_self, hlines, hcount,
        List.getElem?_append_right (Nat.le_refl _), Nat.sub_self]
      rfl

/-! ### Positions and boundaries -/

theorem hasPosition_of_isLine {front w rest after : Text} (h : IsLine front (w ++ rest) after) :
    (front ++ (w ++ rest ++ after) : Text).HasPosition ⟨front.count '\n' + 1, w.length + 1⟩ := by
  refine ⟨Nat.le_add_left _ _, Nat.le_add_left _ _, w ++ rest, ?_, ?_⟩
  · exact getElem?_splitOn_iff.mpr ⟨front, after, rfl, h, rfl⟩
  · rw [List.length_append]
    simp only
    omega

/-- **A part of a line** starts and ends on that line, as many columns apart as it has characters.
-/
theorem range_of_isLine {front w m rest after : Text} (h : IsLine front (w ++ (m ++ rest)) after) :
    (front ++ w ++ (m ++ (rest ++ after)) : Text).range
        (.ofLength (byteLength (front ++ w)) (byteLength m)) =
      (⟨front.count '\n' + 1, w.length + 1⟩, ⟨front.count '\n' + 1, (w ++ m).length + 1⟩) := by
  have hstart := position_append (front ++ w) (m ++ (rest ++ after))
  have hstop := position_append (front ++ w ++ m) (rest ++ after)
  rw [h.endPosition] at hstart
  rw [← List.append_assoc] at h
  rw [List.append_assoc front w m, h.endPosition, ← List.append_assoc front w m, List.append_assoc _ m,
    byteLength_append _ m] at hstop
  rw [range, Span.start_ofLength, Span.stop_ofLength, hstart, hstop]

theorem position_before {t : Text} {m n : Nat} (hm : t.IsBoundary m) (hn : t.IsBoundary n)
    (h : m < n) : (t.position m).Before (t.position n) := by
  obtain ⟨p, s, rfl, rfl⟩ := isBoundary_iff.mp hm
  obtain ⟨q, r, heq, rfl⟩ := isBoundary_iff.mp hn
  have hq : q <+: p ++ s := heq ▸ List.prefix_append q r
  have hle := (length_le_iff (List.prefix_append p s) hq).mpr (Nat.le_of_lt h)
  obtain ⟨w, rfl⟩ := List.prefix_of_prefix_length_le (List.prefix_append p s) hq hle
  have hne : w ≠ [] := by
    rintro rfl
    rw [List.append_nil] at h
    exact Nat.lt_irrefl _ h
  rw [position_append, heq, position_append]
  exact endPosition_before p hne

/-- **Every position of a text belongs to one boundary.** -/
theorem position_bijOn (t : Text) :
    Set.BijOn t.position {n | t.IsBoundary n} {pos | t.HasPosition pos} := by
  refine ⟨fun n hn => ?_, fun m hm n hn heq => ?_, fun pos hpos => ?_⟩
  · obtain ⟨p, s, rfl, rfl⟩ := isBoundary_iff.mp hn
    obtain ⟨front, w, rest, after, rfl, rfl, hline⟩ := exists_isLine p s
    rw [Set.mem_ofPred_eq, position_append, hline.endPosition, List.append_assoc,
      ← List.append_assoc w]
    exact hasPosition_of_isLine hline
  · -- of two different boundaries the first one has the earlier position
    rcases Nat.lt_trichotomy m n with h | h | h
    · exact absurd heq (position_before hm hn h).ne
    · exact h
    · exact absurd heq.symm (position_before hn hm h).ne
  · obtain ⟨hline, hcolumn, line, hget, hle⟩ := hpos
    obtain ⟨front, after, rfl, hisLine, hcount⟩ := getElem?_splitOn_iff.mp hget
    obtain ⟨w, rest, rfl, hw⟩ : ∃ w rest, line = w ++ rest ∧ w.length + 1 = pos.column := by
      refine ⟨line.take (pos.column - 1), line.drop (pos.column - 1),
        (List.take_append_drop _ line).symm, ?_⟩
      rw [List.length_take]
      omega
    have hend := position_append (front ++ w) (rest ++ after)
    rw [hisLine.endPosition, hcount, hw, Nat.sub_add_cancel hline, List.append_assoc,
      ← List.append_assoc w] at hend
    exact ⟨_, isBoundary_iff.mpr ⟨front ++ w, rest ++ after, by simp, rfl⟩, hend⟩

theorem position_inside (p s : Text) {c : Char} {k : Nat} (hk : k < c.utf8Size) :
    (p ++ c :: s : Text).position (p.byteLength + k) =
      (p ++ c :: s : Text).position p.byteLength := by
  rw [position_append, position, takeBytes_inside p s hk]
  rfl

theorem position_of_le {t : Text} {n : Nat} (h : t.byteLength ≤ n) :
    t.position n = t.position t.byteLength := by
  rw [position, position, takeBytes_of_le h, takeBytes_of_le (Nat.le_refl _)]

end Text

end PipelineDoc
