import PipelineDoc.Text.Basic

/-!
# Cuts and slices

Offsets come from lengths: the boundary between `p` and `s` in `p ++ s` is the length of `p`, and
the text under the span of `m` in `p ++ m ++ q` is `m`. Spans that are found in a part of a text are
moved by the length of what comes before the part.
-/

namespace PipelineDoc

/-- One span lies in another. -/
def Span.Within (s t : Span) : Prop := t.start ≤ s.start ∧ s.stop ≤ t.stop

theorem Span.Within.trans {s t u : Span} (h : s.Within t) (h' : t.Within u) : s.Within u :=
  ⟨Nat.le_trans h'.1 h.1, Nat.le_trans h.2 h'.2⟩

instance (s t : Span) : Decidable (s.Within t) := inferInstanceAs (Decidable (_ ∧ _))

theorem Span.eq_of_shift_eq {s t : Span} {n : Nat} (h : s.shift n = t.shift n) : s = t := by
  rw [Span.ext_iff, Span.start_shift, Span.start_shift, Span.stop_shift, Span.stop_shift] at h
  exact Span.ext (Nat.add_right_cancel h.1) (Nat.add_right_cancel h.2)

theorem Span.shift_ofLength (start length amount : Nat) :
    (Span.ofLength start length).shift amount = .ofLength (amount + start) length := by
  ext <;> simp <;> omega

theorem Span.ofEnds_add (start length : Nat) :
    Span.ofEnds start (start + length) = .ofLength start length := by
  ext <;> simp [Span.ofEnds, Span.ofLength]

/-- One span ends before another starts. -/
def Span.Before (s t : Span) : Prop := s.stop ≤ t.start

/-- Of two things in a list that is in order, one comes first, unless they are the same. -/
theorem eq_or_or_of_pairwise {α : Type} {R : α → α → Prop} {l : List α} (h : l.Pairwise R) {x y : α}
    (hx : x ∈ l) (hy : y ∈ l) : x = y ∨ R x y ∨ R y x := by
  induction h with
  | nil => cases hx
  | cons hfirst _ ih =>
    rcases List.mem_cons.mp hx with rfl | hx'
    · exact (List.mem_cons.mp hy).imp Eq.symm fun hy' => Or.inl (hfirst y hy')
    · rcases List.mem_cons.mp hy with rfl | hy'
      · exact Or.inr (Or.inr (hfirst x hx'))
      · exact ih hx' hy'

namespace Text

/-! ### Cuts -/

@[simp] theorem splitAt?_append (p s : Text) : splitAt? (p ++ s) (byteLength p) = some (p, s) :=
  splitAt?_eq_some_iff.mpr ⟨rfl, rfl⟩

theorem byteLength_pos {t : Text} (h : t ≠ []) : 0 < t.byteLength := by
  cases t with
  | nil => exact absurd rfl h
  | cons c t =>
    have := Char.utf8Size_pos c
    simp only [byteLength_cons]
    omega

theorem byteLength_takeWhile_add_dropWhile (f : Char → Bool) (t : Text) :
    byteLength (t.takeWhile f) + byteLength (t.dropWhile f) = byteLength t := by
  rw [← byteLength_append, List.takeWhile_append_dropWhile]

theorem takeWhile_append_of_neg {p : Char → Bool} {c : Char} (hc : p c = false) (t s : Text) :
    (t ++ c :: s).takeWhile p = t.takeWhile p := by
  induction t with
  | nil => simp [hc]
  | cons d t ih => rw [List.cons_append, List.takeWhile_cons, List.takeWhile_cons, ih]

theorem dropWhile_append_of_neg {p : Char → Bool} {c : Char} (hc : p c = false) (t s : Text) :
    (t ++ c :: s).dropWhile p = t.dropWhile p ++ c :: s := by
  induction t with
  | nil => simp [hc]
  | cons d t ih =>
    rw [List.cons_append, List.dropWhile_cons, List.dropWhile_cons, ih]
    split <;> rfl

theorem dropWhile_reverse_append (f : Char → Bool) (t : Text) :
    (t.reverse.dropWhile f).reverse ++ (t.reverse.takeWhile f).reverse = t := by
  rw [← List.reverse_append, List.takeWhile_append_dropWhile, List.reverse_reverse]

theorem splitAt?_inside {p s : Text} {c : Char} {k : Nat} (h0 : 0 < k) (hk : k < c.utf8Size) :
    splitAt? (p ++ c :: s) (byteLength p + k) = none := by
  rw [Option.eq_none_iff_forall_ne_some]
  rintro ⟨a, b⟩ h
  obtain ⟨hab, hl⟩ := splitAt?_eq_some_iff.mp h
  rcases List.append_eq_append_iff.mp hab with ⟨m, rfl, hm⟩ | ⟨m, rfl, hm⟩
  · -- the cut comes after `p`
    cases m with
    | nil => simp only [List.append_nil] at hl; omega
    | cons d m =>
      simp only [List.cons_append, List.cons.injEq] at hm
      obtain ⟨rfl, -⟩ := hm
      simp only [byteLength_append, byteLength_cons] at hl
      omega
  · simp only [byteLength_append] at hl
    omega

theorem exists_char_of_lt {t : Text} {n : Nat} (h : n < byteLength t) :
    ∃ p c s k, t = p ++ c :: s ∧ k < c.utf8Size ∧ n = byteLength p + k := by
  induction t generalizing n with
  | nil => simp at h
  | cons c t ih =>
    by_cases hn : n < c.utf8Size
    · exact ⟨[], c, t, n, rfl, hn, by simp⟩
    · rw [byteLength_cons] at h
      obtain ⟨p, d, s, k, rfl, hk, hp⟩ := ih (n := n - c.utf8Size) (by omega)
      exact ⟨c :: p, d, s, k, rfl, hk, by rw [byteLength_cons]; omega⟩

theorem length_le_iff {p q t : Text} (hp : p <+: t) (hq : q <+: t) :
    p.length ≤ q.length ↔ byteLength p ≤ byteLength q := by
  have hle : ∀ {p q : Text}, p <+: t → q <+: t → p.length ≤ q.length → p <+: q :=
    List.prefix_of_prefix_length_le
  constructor
  · intro h
    obtain ⟨m, rfl⟩ := hle hp hq h
    rw [byteLength_append]
    exact Nat.le_add_right _ _
  · intro h
    refine Nat.le_of_not_lt fun hlen => ?_
    obtain ⟨m, rfl⟩ := hle hq hp (Nat.le_of_lt hlen)
    have hne : m ≠ [] := by
      rintro rfl
      simp at hlen
    have := byteLength_pos hne
    rw [byteLength_append] at h
    omega

theorem eq_of_byteLength_eq {p q t : Text} (hp : p <+: t) (hq : q <+: t)
    (h : byteLength p = byteLength q) : p = q := by
  have hle := (length_le_iff hp hq).mpr (Nat.le_of_eq h)
  have hge := (length_le_iff hq hp).mpr (Nat.le_of_eq h.symm)
  exact (List.prefix_of_prefix_length_le hp hq hle).eq_of_length (Nat.le_antisymm hle hge)

/-- Two words of a text that end before a sign, and start apart from each other by no such sign, end
before the same one. -/
theorem append_inj_of_not_mem {p u s q v t : Text} {c : Char}
    (h : p ++ (u ++ c :: s) = q ++ (v ++ c :: t)) (hu : c ∉ u) (hv : c ∉ v)
    (hle : q.length ≤ p.length) (hle' : p.length ≤ (q ++ v).length) : p ++ u = q ++ v ∧ s = t := by
  -- the first word starts in the second
  obtain ⟨m, rfl⟩ := List.prefix_of_prefix_length_le (h ▸ List.prefix_append q (v ++ c :: t))
    (List.prefix_append p (u ++ c :: s)) hle
  rw [List.append_assoc, List.append_cancel_left_eq] at h
  have hm : m <+: v := by
    rw [List.length_append, List.length_append] at hle'
    exact List.prefix_of_prefix_length_le (h ▸ List.prefix_append m (u ++ c :: s))
      (List.prefix_append v (c :: t)) (by omega)
  obtain ⟨w, rfl⟩ := hm
  rw [List.append_assoc, List.append_cancel_left_eq] at h
  have hw : c ∉ w := fun hmem => hv (List.mem_append_right _ hmem)
  rcases List.append_eq_append_iff.mp h with ⟨a, rfl, ha⟩ | ⟨a, rfl, ha⟩
  · cases a with
    | nil => simpa using ha
    | cons d a =>
      rw [List.cons_append, List.cons.injEq] at ha
      exact absurd (by rw [ha.1]; simp) hw
  · cases a with
    | nil => simpa [eq_comm] using ha
    | cons d a =>
      rw [List.cons_append, List.cons.injEq] at ha
      exact absurd (by rw [ha.1]; simp) hu

/-- A word that starts before the last character of a part ends before it, unless the character is
one of the word. -/
theorem append_prefix_of_not_mem {q w t r rest : Text} {c : Char}
    (heq : q ++ (w ++ t) = (r ++ [c]) ++ rest) (hlt : q.length < (r ++ [c]).length) (hc : c ∉ w) :
    q ++ w <+: r := by
  rw [List.append_assoc] at heq
  rw [List.length_append, List.length_singleton] at hlt
  obtain ⟨m, rfl⟩ := List.prefix_of_prefix_length_le (heq ▸ List.prefix_append q (w ++ t))
    (List.prefix_append r ([c] ++ rest)) (Nat.le_of_lt_succ hlt)
  rw [List.append_assoc, List.append_cancel_left_eq] at heq
  refine (List.prefix_append_right_inj q).mpr ?_
  rcases List.append_eq_append_iff.mp heq with ⟨a, hm, -⟩ | ⟨a, hw, hrest⟩
  · exact ⟨a, hm.symm⟩
  · cases a with
    | nil => exact ⟨[], by rw [hw]; simp⟩
    | cons d a =>
      rw [List.cons_append, List.cons_append, List.cons.injEq] at hrest
      exact absurd (by rw [hw, hrest.1]; simp) hc

/-! ### Slices -/

/-- **The text under a span** is what remains between a part as long as the start and the rest. -/
theorem slice?_eq_some_iff {t m : Text} {s : Span} :
    t.slice? s = some m ↔
      ∃ p q, t = p ++ (m ++ q) ∧ byteLength p = s.start ∧ byteLength m = s.length := by
  simp only [slice?, Option.bind_eq_some_iff, Option.map_eq_some_iff, Prod.exists,
    splitAt?_eq_some_iff]
  constructor
  · rintro ⟨p, r, ⟨rfl, hp⟩, a, q, ⟨rfl, hm⟩, rfl⟩
    exact ⟨p, q, rfl, hp, hm⟩
  · rintro ⟨p, q, rfl, hp, hm⟩
    exact ⟨p, m ++ q, ⟨rfl, hp⟩, m, q, ⟨rfl, hm⟩, rfl⟩

theorem slice?_append (p m q : Text) :
    slice? (p ++ (m ++ q)) (.ofLength (byteLength p) (byteLength m)) = some m :=
  slice?_eq_some_iff.mpr ⟨p, q, rfl, rfl, by simp⟩

theorem slice?_shift {t part m : Text} {outer inner : Span} (ho : t.slice? outer = some part)
    (hi : part.slice? inner = some m) : t.slice? (inner.shift outer.start) = some m := by
  obtain ⟨p, q, rfl, hp, -⟩ := slice?_eq_some_iff.mp ho
  obtain ⟨a, b, rfl, ha, hm⟩ := slice?_eq_some_iff.mp hi
  refine slice?_eq_some_iff.mpr ⟨p ++ a, b ++ q, by simp, ?_, ?_⟩
  · simp only [byteLength_append, hp, ha, Span.start_shift]
    omega
  · simp only [hm, Span.length, Span.start_shift, Span.stop_shift]
    omega

theorem start_lt_stop_of_slice? {t m : Text} {s : Span} (h : t.slice? s = some m) (hm : m ≠ []) :
    s.start < s.stop := by
  obtain ⟨_, _, -, -, hlen⟩ := slice?_eq_some_iff.mp h
  have := byteLength_pos hm
  rw [Span.length] at hlen
  omega

theorem stop_le_of_slice? {t m : Text} {s : Span} (h : t.slice? s = some m) :
    s.stop ≤ t.byteLength := by
  obtain ⟨p, q, rfl, hp, hm⟩ := slice?_eq_some_iff.mp h
  have := s.start_le_stop
  simp only [Span.length] at hm
  simp only [byteLength_append]
  omega

end Text

theorem within_of_slice? {t part m : Text} {outer inner : Span} (ho : t.slice? outer = some part)
    (hi : part.slice? inner = some m) : (inner.shift outer.start).Within outer := by
  obtain ⟨p, q, -, -, hlen⟩ := Text.slice?_eq_some_iff.mp ho
  have hstop := Text.stop_le_of_slice? hi
  have houter := outer.start_le_stop
  simp only [Span.length] at hlen
  constructor
  · rw [Span.start_shift]
    omega
  · rw [Span.stop_shift]
    omega

end PipelineDoc
