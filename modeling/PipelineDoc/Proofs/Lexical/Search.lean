import PipelineDoc.Proofs.Lexical.Lexemes

/-!
# Searches from an offset on

A search for keywords reads its text from code on, wherever it starts. A reader that has come from
the start of the text stands in some state at that offset (`Text.stateAt`), and in general it is not
the one of the search. If it is the state of a reader in code, the search sees the labels of the
whole text (`labels_stateAt`), also from an offset inside a character, and it finds the first place
at or after the offset where one of the keywords stands (`nextKeyword_eq_some_iff`,
`nextKeyword_eq_none_iff`).
-/

namespace PipelineDoc

open Cursor

namespace Text

/-! ### The state at an offset -/

/-- The state of a reader that has come from the start of a text to an offset, byte after byte. -/
def stateAt (t : Text) : Nat → State
  | 0 => .start
  | n + 1 =>
    match t.bytes[n]? with
    | some byte => ((t.stateAt n).stepByte byte t.bytes[n + 1]?).2
    | none => t.stateAt n

/-- **Reading on from an offset** in the state reached there gives the labels of the whole text. -/
theorem labels_stateAt (t : Text) (n : Nat) :
    (t.stateAt n).labels (t.bytes.drop n) = t.byteLabels.drop n := by
  induction n with
  | zero => exact t.byteLabels_eq_labels_bytes.symm
  | succ n ih =>
    have htail : t.byteLabels.drop (n + 1) = (t.byteLabels.drop n).tail := List.tail_drop.symm
    rw [htail, ← ih, stateAt]
    cases hbyte : t.bytes[n]? with
    | none =>
      have hend := List.getElem?_eq_none_iff.mp hbyte
      rw [List.drop_eq_nil_of_le hend, List.drop_eq_nil_of_le (Nat.le_succ_of_le hend)]
      rfl
    | some byte =>
      obtain ⟨hn, rfl⟩ := List.getElem?_eq_some_iff.mp hbyte
      rw [List.drop_eq_getElem_cons hn, State.labels_cons, List.tail_cons, List.head?_drop]

theorem stateAt_succ {t : Text} {n : Nat} {label : Label} {state : State}
    (h : (t.stateAt n).step t.bytes n = .ok (label, state)) : t.stateAt (n + 1) = state := by
  rw [stateAt]
  cases hbyte : t.bytes[n]? with
  | none => simp [State.step, fetch, hbyte] at h
  | some byte =>
    rw [State.step, fetch_eq hbyte, ok_bind] at h
    exact congrArg Prod.snd (Except.ok.inj h)

theorem stateAt_char {p s : Text} {c : Char} {mode : Mode}
    (hp : (p ++ c :: s : Text).stateAt p.byteLength = .ofMode mode) {k : Nat} (hk : k < c.utf8Size) :
    (p ++ c :: s : Text).stateAt (p.byteLength + k + 1) = .ofMode (mode.step c s.head?).2 := by
  induction k with
  | zero =>
    have hfirst := State.step_first mode p s c
    rw [← hp] at hfirst
    exact stateAt_succ hfirst
  | succ k ih =>
    have hinside := State.step_inside mode p s (Nat.succ_pos k) hk
    rw [← ih (Nat.lt_of_succ_lt hk)] at hinside
    exact (stateAt_succ hinside).trans (ih (Nat.lt_of_succ_lt hk))

theorem stateAt_append (p s : Text) :
    (p ++ s : Text).stateAt p.byteLength = .ofMode (Mode.code.run p s.head?) := by
  induction p using List.reverseRecOn generalizing s with
  | nil => rfl
  | append_singleton p c ih =>
    have hpos := Char.utf8Size_pos c
    have hchar := stateAt_char (ih (c :: s)) (Nat.sub_lt hpos Nat.one_pos)
    rw [Nat.add_assoc, Nat.sub_add_cancel hpos] at hchar
    rw [Mode.run_concat, byteLength_append, List.append_assoc]
    exact hchar

theorem drop_byteLabels {p s : Text} (h : Mode.code.run p s.head? = .code) :
    (p ++ s).byteLabels.drop p.byteLength = s.byteLabels := by
  rw [← labels_stateAt, stateAt_append, h, bytes_append, ← length_bytes, List.drop_left]
  exact s.byteLabels_eq_labels_bytes.symm

theorem stateAt_byteLength {t : Text} {n : Nat} (h : t.byteLength ≤ n) :
    t.stateAt n = t.stateAt t.byteLength := by
  induction n, h using Nat.le_induction with
  | base => rfl
  | succ n hn ih => rw [stateAt, List.getElem?_eq_none (by rwa [length_bytes]), ih]

/-! ### Cuts at or after an offset -/

/-- The cut of a search is at its offset, or after the character that the offset cuts, or at the end
of the text that the offset is past. -/
theorem splitAtOrAfter_cases (t : Text) (n : Nat) :
    t = (t.splitAtOrAfter n).1 ++ (t.splitAtOrAfter n).2 ∧
      ((t.splitAtOrAfter n).1.byteLength = n ∨
        ((t.splitAtOrAfter n).2 = [] ∧ t.byteLength < n) ∨
        ∃ (p : Text) (c : Char) (k : Nat), (t.splitAtOrAfter n).1 = p ++ [c] ∧
          n = p.byteLength + k + 1 ∧ k + 1 < c.utf8Size) := by
  induction t generalizing n with
  | nil =>
    cases n with
    | zero => exact ⟨rfl, Or.inl rfl⟩
    | succ n => exact ⟨rfl, Or.inr (Or.inl ⟨rfl, Nat.succ_pos n⟩)⟩
  | cons c t ih =>
    cases n with
    | zero => exact ⟨rfl, Or.inl rfl⟩
    | succ n =>
      obtain ⟨hsplit, hcases⟩ := ih (n + 1 - c.utf8Size)
      refine ⟨congrArg (c :: ·) hsplit, ?_⟩
      simp only [splitAtOrAfter, byteLength_cons]
      by_cases hin : n + 1 < c.utf8Size
      · -- the offset cuts the first character
        rw [show n + 1 - c.utf8Size = 0 by omega]
        exact Or.inr (Or.inr ⟨[], c, n, by simp [splitAtOrAfter], by simp, hin⟩)
      · rcases hcases with hat | ⟨hnil, hlen⟩ | ⟨p, d, k, hp, hn, hk⟩
        · exact Or.inl (by omega)
        · exact Or.inr (Or.inl ⟨hnil, by omega⟩)
        · refine Or.inr (Or.inr ⟨c :: p, d, k, congrArg (c :: ·) hp, ?_, hk⟩)
          rw [byteLength_cons]
          omega

theorem le_byteLength_iff {t q r : Text} (ht : t = q ++ r) (hr : r ≠ []) (n : Nat) :
    n ≤ q.byteLength ↔ (t.splitAtOrAfter n).1.length ≤ q.length := by
  obtain ⟨hsplit, hcases⟩ := t.splitAtOrAfter_cases n
  have hq : q <+: t := ⟨r, ht.symm⟩
  have hcut : (t.splitAtOrAfter n).1 <+: t := ⟨_, hsplit.symm⟩
  rw [length_le_iff hcut hq]
  rcases hcases with hat | ⟨hnil, hlt⟩ | ⟨p, c, k, hp, rfl, hk⟩
  · rw [hat]
  · have hlen := congrArg byteLength ht
    have hpos := byteLength_pos hr
    rw [byteLength_append] at hlen
    rw [hnil, List.append_nil] at hsplit
    rw [← hsplit]
    omega
  · have hlen : (p ++ [c] : Text).byteLength = p.byteLength + c.utf8Size := by simp
    rw [hp] at hcut ⊢
    refine ⟨fun hle => ?_, fun hle => by omega⟩
    -- no boundary lies inside the character
    have hshort : ¬ q.length ≤ p.length := by
      rw [length_le_iff hq ((List.prefix_append p [c]).trans hcut)]
      omega
    rw [← length_le_iff hcut hq, List.length_append, List.length_singleton]
    omega

/-- **A search that starts in code** is in code after its cut. -/
theorem run_splitAtOrAfter {t : Text} {n : Nat} (h : t.stateAt n = .start) :
    Mode.code.run (t.splitAtOrAfter n).1 (t.splitAtOrAfter n).2.head? = .code := by
  have hmode : ∀ mode : Mode, State.ofMode mode = .start → mode = .code := by
    intro mode
    cases mode <;> decide
  obtain ⟨hsplit, hcases⟩ := t.splitAtOrAfter_cases n
  generalize (t.splitAtOrAfter n).1 = cut at hsplit hcases
  generalize (t.splitAtOrAfter n).2 = rest at hsplit hcases
  subst hsplit
  rcases hcases with rfl | ⟨rfl, hlt⟩ | ⟨p, c, k, rfl, rfl, hk⟩
  · exact hmode _ (stateAt_append cut rest ▸ h)
  · rw [List.append_nil] at h hlt
    rw [stateAt_byteLength (Nat.le_of_lt hlt)] at h
    have hend := stateAt_append cut []
    rw [List.append_nil, h] at hend
    exact hmode _ hend.symm
  · rw [List.append_assoc] at h
    have hchar := stateAt_char (stateAt_append p (c :: rest)) (Nat.lt_of_succ_lt hk)
    rw [Mode.run_concat]
    exact hmode _ (hchar.symm.trans h)

/-! ### Words at offsets -/

/-- A word stands as a whole word at an offset, and its first byte is code. -/
structure WordAt (t word : Text) (i : Nat) : Prop where
  text : t.slice? (.ofLength i word.byteLength) = some word
  whole : t.isWholeWord i word.byteLength = .ok true
  code : t.byteLabels[i]? = some .code

instance (t word : Text) (i : Nat) : Decidable (t.WordAt word i) :=
  decidable_of_iff (t.slice? (.ofLength i word.byteLength) = some word ∧
      t.isWholeWord i word.byteLength = .ok true ∧ t.byteLabels[i]? = some .code)
    ⟨fun ⟨text, whole, code⟩ => ⟨text, whole, code⟩, fun ⟨text, whole, code⟩ => ⟨text, whole, code⟩⟩

theorem wordAt_iff {t word : Text} {i : Nat} : t.WordAt word i ↔
    ∃ p q, t = p ++ (word ++ q) ∧ byteLength p = i ∧ StandsInCode .code none p word q := by
  constructor
  · rintro ⟨htext, hwhole, hcode⟩
    obtain ⟨p, q, rfl, rfl, -⟩ := slice?_eq_some_iff.mp htext
    rw [isWholeWord_append, Except.ok.injEq, Bool.and_eq_true] at hwhole
    refine ⟨p, q, rfl, rfl, byteLabels_eq_code_iff.mp hcode, ?_, hwhole.2⟩
    rw [Option.or_none]
    exact hwhole.1
  · rintro ⟨p, q, rfl, rfl, hcode, hbefore, hafter⟩
    rw [Option.or_none] at hbefore
    refine ⟨slice?_append p word q, ?_, byteLabels_eq_code_iff.mpr hcode⟩
    rw [isWholeWord_append, hbefore, hafter]
    rfl

theorem wordAt_append_iff {p s word : Text} (hcode : Mode.code.CodeAfter p s) :
    (p ++ s).WordAt word p.byteLength ↔
      ∃ q, s = word ++ q ∧ isClear p.getLast? = true ∧ isClear q.head? = true := by
  rw [wordAt_iff]
  constructor
  · rintro ⟨p', q, heq, hlen, -, hbefore, hafter⟩
    obtain rfl : p = p' := eq_of_byteLength_eq (List.prefix_append p s) ⟨_, heq.symm⟩ hlen.symm
    rw [Option.or_none] at hbefore
    exact ⟨q, List.append_cancel_left heq, hbefore, hafter⟩
  · rintro ⟨q, rfl, hbefore, hafter⟩
    exact ⟨p, q, rfl, rfl, hcode, by rwa [Option.or_none], hafter⟩

/-- **The keyword that is taken** at a boundary in code is the first of the list that stands there.
-/
theorem map_fst_wordAt? {p s : Text} (hcode : Mode.code.CodeAfter p s) (keywords : List Text) :
    (wordAt? id keywords p.getLast? s).map (·.1) =
      keywords.find? fun word => (p ++ s).WordAt word p.byteLength := by
  induction keywords with
  | nil => rfl
  | cons word keywords ih =>
    rw [wordAt?, List.findSome?_cons, List.find?_cons]
    cases hskip : s.skip? (id word) with
    | none =>
      have hword : ¬ (p ++ s).WordAt word p.byteLength := by
        rw [wordAt_append_iff hcode]
        rintro ⟨q, rfl, -⟩
        rw [id, skip?_eq_some_iff.mpr rfl] at hskip
        cases hskip
      rw [decide_eq_false hword]
      exact ih
    | some q =>
      have hs : s = word ++ q := skip?_eq_some_iff.mp hskip
      have hword : (p ++ s).WordAt word p.byteLength ↔
          (isClear p.getLast? && isClear q.head?) = true := by
        rw [wordAt_append_iff hcode, Bool.and_eq_true]
        constructor
        · rintro ⟨r, hr, hclear⟩
          rwa [List.append_cancel_left (hs.symm.trans hr)]
        · exact fun hclear => ⟨q, hs, hclear⟩
      by_cases hclear : (isClear p.getLast? && isClear q.head?) = true
      · simp only [if_pos hclear, decide_eq_true (hword.mpr hclear), Option.map_some]
      · simp only [if_neg hclear, decide_eq_false (mt hword.mp hclear)]
        exact ih

end Text

theorem wordAt?_of_findWord? {α : Type} {spelling : α → Text} {candidates : List α}
    {prev : Option Char} {mode : Mode} {t : Text} {f : Find α}
    (h : findWord? spelling candidates prev mode t = some f) :
    wordAt? spelling candidates (f.before.getLast?.or prev) (spelling f.key ++ f.after) =
      some (f.key, f.after) := by
  induction t generalizing prev mode f with
  | nil => cases h
  | cons c t ih =>
    rw [findWord?_cons] at h
    split at h
    · next a after ha =>
      cases h
      split at ha
      · rw [← eq_of_wordAt? ha]
        exact ha
      · cases ha
    · obtain ⟨g, hg, rfl⟩ := Option.map_eq_some_iff.mp h
      rw [getLast?_cons_or]
      exact ih hg

namespace Text

/-! ### The first keyword -/

/-- One of the keywords stands at an offset, at or after `start`, and none stands between the two.
If several stand there, it is the first of the list. -/
structure IsFirstWord (t : Text) (keywords : List Text) (start i : Nat) (word : Text) : Prop where
  start_le : start ≤ i
  first : keywords.find? (fun word => t.WordAt word i) = some word
  least : ∀ j, start ≤ j → j < i → ∀ word ∈ keywords, ¬ t.WordAt word j

theorem IsFirstWord.mem {t word : Text} {keywords : List Text} {start i : Nat}
    (h : t.IsFirstWord keywords start i word) : word ∈ keywords :=
  List.mem_of_find?_eq_some h.first

theorem IsFirstWord.wordAt {t word : Text} {keywords : List Text} {start i : Nat}
    (h : t.IsFirstWord keywords start i word) : t.WordAt word i := by
  simpa using List.find?_some h.first

theorem IsFirstWord.unique {t word word' : Text} {keywords : List Text} {start i i' : Nat}
    (h : t.IsFirstWord keywords start i word) (h' : t.IsFirstWord keywords start i' word') :
    i = i' ∧ word = word' := by
  have hle : i' ≤ i := Nat.le_of_not_lt fun hlt => h'.least i h.start_le hlt word h.mem h.wordAt
  have hge : i ≤ i' := Nat.le_of_not_lt fun hlt => h.least i' h'.start_le hlt word' h'.mem h'.wordAt
  obtain rfl := Nat.le_antisymm hge hle
  exact ⟨rfl, Option.some.inj (h.first.symm.trans h'.first)⟩

theorem nextKeyword_eq {keywords : List Text} (hkeywords : ∀ word ∈ keywords, word ≠ []) (t : Text)
    (start : Nat) : t.nextKeyword keywords start =
      .ok ((findWord? id keywords (t.splitAtOrAfter start).1.getLast? .code
        (t.splitAtOrAfter start).2).map fun f =>
          ((t.splitAtOrAfter start).1.byteLength + f.before.byteLength, f.key)) := by
  have hempty : keywords.contains [] = false := by
    simpa using fun hmem => hkeywords [] hmem rfl
  simp only [nextKeyword, hempty, Bool.false_and, Bool.false_eq_true, if_false]

section

variable {t : Text} {keywords : List Text} {start : Nat} (hstart : t.stateAt start = .start)
  (hkeywords : ∀ word ∈ keywords, word ≠ [])

include hstart hkeywords

/-- **No keyword is passed over**: the search ends at the first one or before. -/
theorem exists_findWord?_of_wordAt {i : Nat} {word : Text} (hi : start ≤ i) (hword : word ∈ keywords)
    (h : t.WordAt word i) : ∃ f, findWord? id keywords (t.splitAtOrAfter start).1.getLast? .code
        (t.splitAtOrAfter start).2 = some f ∧
      (t.splitAtOrAfter start).1.byteLength + f.before.byteLength ≤ i := by
  obtain ⟨p, q, ht, rfl, hstands⟩ := wordAt_iff.mp h
  have hne : word ++ q ≠ [] := by simp [hkeywords word hword]
  have hlen := (le_byteLength_iff ht hne start).mp hi
  have hrun := run_splitAtOrAfter hstart
  obtain ⟨hsplit, -⟩ := t.splitAtOrAfter_cases start
  generalize (t.splitAtOrAfter start).1 = cut at *
  generalize (t.splitAtOrAfter start).2 = rest at *
  -- the word stands in what the search reads
  obtain ⟨m, rfl⟩ := List.prefix_of_prefix_length_le ⟨rest, hsplit.symm⟩ ⟨word ++ q, ht.symm⟩ hlen
  obtain rfl : rest = m ++ (word ++ q) := by
    rw [hsplit, List.append_assoc] at ht
    exact List.append_cancel_left ht
  have hrest : StandsInCode .code cut.getLast? m (id word) q := by
    rw [← Option.or_none (o := cut.getLast?)]
    exact (standsInCode_restart hrun).mp hstands
  obtain ⟨f, hfind, hle⟩ := exists_findWord? hword hrest
  have hbefore : f.before.byteLength ≤ byteLength m := by
    refine (length_le_iff ?_ (List.prefix_append m (word ++ q))).mp hle
    exact ⟨_, (eq_of_findWord? hfind).symm⟩
  exact ⟨f, hfind, by rw [byteLength_append]; omega⟩

theorem isFirstWord_of_findWord? {f : Find Text} (h : findWord? id keywords
      (t.splitAtOrAfter start).1.getLast? .code (t.splitAtOrAfter start).2 = some f) :
    t.IsFirstWord keywords start ((t.splitAtOrAfter start).1.byteLength + f.before.byteLength)
      f.key := by
  have hleast : ∀ j, start ≤ j → j < (t.splitAtOrAfter start).1.byteLength + f.before.byteLength →
      ∀ word ∈ keywords, ¬ t.WordAt word j := by
    intro j hj hlt word hword hat
    obtain ⟨g, hg, hle⟩ := exists_findWord?_of_wordAt hstart hkeywords hj hword hat
    rw [h, Option.some.injEq] at hg
    subst hg
    omega
  obtain ⟨hmem, hstands⟩ := standsInCode_of_findWord? h
  have hrun := run_splitAtOrAfter hstart
  have hstart_le := fun q r ht hr => (le_byteLength_iff (t := t) (q := q) (r := r) ht hr start).mpr
  obtain ⟨hsplit, -⟩ := t.splitAtOrAfter_cases start
  generalize (t.splitAtOrAfter start).1 = cut at *
  generalize (t.splitAtOrAfter start).2 = rest at *
  have hrest := eq_of_findWord? h
  rw [id] at hrest hstands
  have ht : t = (cut ++ f.before) ++ (f.key ++ f.after) := by rw [hsplit, hrest, List.append_assoc]
  rw [← byteLength_append]
  refine ⟨hstart_le _ _ ht (by simp [hkeywords f.key hmem]) (by simp), ?_, ?_⟩
  · have hcode : Mode.code.CodeAfter (cut ++ f.before) (f.key ++ f.after) := by
      rw [hrest] at hrun
      exact (Mode.codeAfter_restart hrun).mpr hstands.code
    have hword := wordAt?_of_findWord? h
    rw [← List.getLast?_append] at hword
    rw [ht, ← map_fst_wordAt? hcode]
    exact congrArg (Option.map (·.1)) hword
  · rwa [byteLength_append]

/-- **The search for keywords** gives the first one. -/
theorem nextKeyword_eq_some_iff {i : Nat} {word : Text} :
    t.nextKeyword keywords start = .ok (some (i, word)) ↔ t.IsFirstWord keywords start i word := by
  rw [nextKeyword_eq hkeywords, Except.ok.injEq, Option.map_eq_some_iff]
  constructor
  · rintro ⟨f, hfind, heq⟩
    cases heq
    exact isFirstWord_of_findWord? hstart hkeywords hfind
  · intro h
    obtain ⟨f, hfind, -⟩ := exists_findWord?_of_wordAt hstart hkeywords h.start_le h.mem h.wordAt
    obtain ⟨rfl, rfl⟩ := (isFirstWord_of_findWord? hstart hkeywords hfind).unique h
    exact ⟨f, hfind, rfl⟩

theorem nextKeyword_eq_none_iff : t.nextKeyword keywords start = .ok none ↔
    ∀ i, start ≤ i → ∀ word ∈ keywords, ¬ t.WordAt word i := by
  rw [nextKeyword_eq hkeywords, Except.ok.injEq, Option.map_eq_none_iff]
  constructor
  · intro hnone i hi word hword hat
    obtain ⟨f, hfind, -⟩ := exists_findWord?_of_wordAt hstart hkeywords hi hword hat
    rw [hnone] at hfind
    cases hfind
  · intro h
    refine Option.eq_none_iff_forall_ne_some.mpr fun f hfind => ?_
    have hfirst := isFirstWord_of_findWord? hstart hkeywords hfind
    exact h _ hfirst.start_le _ hfirst.mem hfirst.wordAt

end

end Text

end PipelineDoc
