import PipelineDoc.Bracket
import PipelineDoc.Proofs.Lexical.Restart

/-!
# Nesting of brackets

The inside of a bracket is balanced in code: along it there are never more closing delimiters than
opening ones, and at its end there are as many (`closes_of_inside?`). So brackets nest: one that
opens inside another closes, and does so inside it (`Closes.exists_inside?`, `Closes.nested`). The
characters of code are those of `Mode.codeChars`, which is `Text.codeChars` for a part of a text.
-/

namespace PipelineDoc

/-! ### Characters of code -/

/-- The characters of code of a text that is read from a mode on; `next` is the character that
follows it. -/
def Mode.codeChars : Mode → Text → Option Char → Text
  | _, [], _ => []
  | mode, c :: cs, next =>
    let (label, mode') := mode.step c (cs.head?.or next)
    if label = .code then c :: mode'.codeChars cs next else mode'.codeChars cs next

namespace Mode

@[simp] theorem codeChars_nil (mode : Mode) (next : Option Char) : mode.codeChars [] next = [] := rfl

theorem codeChars_cons (mode : Mode) (c : Char) (cs : Text) (next : Option Char) :
    mode.codeChars (c :: cs) next =
      (if (mode.step c (cs.head?.or next)).1 = .code then [c] else []) ++
        (mode.step c (cs.head?.or next)).2.codeChars cs next := by
  simp only [codeChars]
  split <;> rfl

theorem mem_of_mem_codeChars {mode : Mode} {t : Text} {next : Option Char} {c : Char}
    (h : c ∈ mode.codeChars t next) : c ∈ t := by
  induction t generalizing mode with
  | nil => cases h
  | cons d t ih =>
    rw [codeChars_cons, List.mem_append] at h
    rcases h with h | h
    · split at h
      · exact List.mem_cons.mpr (Or.inl (List.mem_singleton.mp h))
      · cases h
    · exact List.mem_cons_of_mem _ (ih h)

/-- A character counts if it is code; `r` is what follows the part. -/
theorem count_codeChars_cons (mode : Mode) (c d : Char) (q r : Text) :
    (mode.codeChars (c :: q) r.head?).count d =
      (if (mode.step c (q ++ r).head?).1 = .code ∧ c = d then 1 else 0) +
        ((mode.step c (q ++ r).head?).2.codeChars q r.head?).count d := by
  rw [codeChars_cons, List.count_append, ← List.head?_append]
  congr 1
  generalize (mode.step c (q ++ r).head?).1 = label
  by_cases hl : label = .code
  · simp [hl, List.count_singleton]
  · simp [hl]

theorem codeChars_append (mode : Mode) (p q : Text) (next : Option Char) :
    mode.codeChars (p ++ q) next =
      mode.codeChars p (q.head?.or next) ++ (mode.run p (q.head?.or next)).codeChars q next := by
  induction p generalizing mode with
  | nil => rfl
  | cons c p ih =>
    rw [List.cons_append, codeChars_cons, codeChars_cons, run_cons, ih, List.head?_append,
      Option.or_assoc, List.append_assoc]

theorem codeChars_next (mode : Mode) (t : Text) {next : Option Char} (h : next ≠ some '/') :
    mode.codeChars t next = mode.codeChars t none := by
  induction t generalizing mode with
  | nil => rfl
  | cons c t ih =>
    rw [codeChars_cons, codeChars_cons, ih]
    cases t with
    | nil => rw [List.head?_nil, Option.none_or, Option.none_or, step_next mode c h]
    | cons d t => rfl

theorem filterMap_zip_labels (mode : Mode) (p s : Text) :
    ((p.zip (mode.labels (p ++ s))).filterMap fun (c, label) =>
      if label = .code then some c else none) = mode.codeChars p s.head? := by
  induction p generalizing mode with
  | nil => rfl
  | cons c p ih =>
    rw [List.cons_append, labels_cons, List.zip_cons_cons, List.filterMap_cons, codeChars_cons,
      List.head?_append, ih]
    by_cases hl : (mode.step c (p.head?.or s.head?)).1 = .code
    · simp only [if_pos hl]
      rfl
    · simp only [if_neg hl]
      rfl

end Mode

theorem Text.codeChars_eq (t : Text) : t.codeChars = Mode.code.codeChars t none := by
  have h := Mode.filterMap_zip_labels .code t []
  rwa [List.append_nil] at h

/-! ### The inside of a bracket -/

namespace Bracket

variable {b : Bracket} {depth : Nat} {mode : Mode} {t p s : Text}

/-- Read from a mode on at a depth, a bracket is closed after the part `p`, and not before: the
delimiters of its kind in code balance along `p`. -/
structure Closes (b : Bracket) (depth : Nat) (mode : Mode) (p s : Text) : Prop where
  code : mode.CodeAfter p (b.closer :: s)
  count_le : ∀ q r, p = q ++ r → (mode.codeChars q (r ++ b.closer :: s).head?).count b.closer ≤
    depth + (mode.codeChars q (r ++ b.closer :: s).head?).count b.opener
  count_eq : (mode.codeChars p (some b.closer)).count b.closer =
    depth + (mode.codeChars p (some b.closer)).count b.opener

theorem Closes.cons {c : Char} {depth' : Nat}
    (h : Closes b depth' (mode.step c (p ++ b.closer :: s).head?).2 p s)
    (hdepth : depth' +
        (if (mode.step c (p ++ b.closer :: s).head?).1 = .code ∧ c = b.closer then 1 else 0) =
      depth + if (mode.step c (p ++ b.closer :: s).head?).1 = .code ∧ c = b.opener then 1 else 0) :
    Closes b depth mode (c :: p) s := by
  refine ⟨Mode.codeAfter_append (p := [c]).mpr h.code, ?_, ?_⟩
  · intro q r hp
    cases q with
    | nil => simp
    | cons d q =>
      rw [List.cons_append, List.cons.injEq] at hp
      obtain ⟨rfl, rfl⟩ := hp
      have := h.count_le q r rfl
      rw [List.append_assoc] at this hdepth
      rw [Mode.count_codeChars_cons, Mode.count_codeChars_cons]
      omega
  · have := h.count_eq
    rw [← List.head?_cons (a := b.closer) (l := s), Mode.count_codeChars_cons,
      Mode.count_codeChars_cons]
    rw [← List.head?_cons (a := b.closer) (l := s)] at this
    omega

theorem Closes.tail {c : Char} (h : Closes b depth mode (c :: p) s) :
    ∃ depth', Closes b depth' (mode.step c (p ++ b.closer :: s).head?).2 p s ∧ depth' +
        (if (mode.step c (p ++ b.closer :: s).head?).1 = .code ∧ c = b.closer then 1 else 0) =
      depth + if (mode.step c (p ++ b.closer :: s).head?).1 = .code ∧ c = b.opener then 1 else 0 := by
  have hfirst := h.count_le [c] p rfl
  rw [Mode.count_codeChars_cons, Mode.count_codeChars_cons] at hfirst
  simp only [Mode.codeChars_nil, List.count_nil, Nat.add_zero, List.nil_append] at hfirst
  refine ⟨depth + (if (mode.step c (p ++ b.closer :: s).head?).1 = .code ∧ c = b.opener then 1 else 0) -
    (if (mode.step c (p ++ b.closer :: s).head?).1 = .code ∧ c = b.closer then 1 else 0),
    ⟨Mode.codeAfter_append (p := [c]).mp h.code, ?_, ?_⟩, by omega⟩
  · intro q r hp
    have := h.count_le (c :: q) r (by rw [hp, List.cons_append])
    rw [Mode.count_codeChars_cons, Mode.count_codeChars_cons, ← List.append_assoc, ← hp] at this
    omega
  · have := h.count_eq
    rw [← List.head?_cons (a := b.closer) (l := s), Mode.count_codeChars_cons,
      Mode.count_codeChars_cons] at this
    rw [← List.head?_cons (a := b.closer) (l := s)]
    omega

theorem closes_of_splitClosing (h : b.splitClosing depth mode t = some (p, s)) :
    Closes b depth mode p s := by
  induction t generalizing depth mode p with
  | nil => simp [splitClosing] at h
  | cons c t ih =>
    have hne := b.opener_ne_closer
    -- a character that does not end the search
    have next : ∀ {depth' : Nat}, ((b.splitClosing depth' (mode.step c t.head?).2 t).map
          fun x => (c :: x.1, x.2)) = some (p, s) →
        (depth' + (if (mode.step c t.head?).1 = .code ∧ c = b.closer then 1 else 0) =
          depth + if (mode.step c t.head?).1 = .code ∧ c = b.opener then 1 else 0) →
        Closes b depth mode p s := by
      intro depth' h hdepth
      obtain ⟨⟨q, s'⟩, hq, heq⟩ := Option.map_eq_some_iff.mp h
      cases heq
      have ht := eq_of_splitClosing hq
      subst ht
      exact (ih hq).cons hdepth
    simp only [splitClosing] at h
    split at h
    · next hc =>
      have ho : ¬ ((mode.step c t.head?).1 = .code ∧ c = b.opener) :=
        fun ho => hne (ho.2.symm.trans hc.2)
      split at h
      · cases h
        obtain ⟨hl, rfl⟩ := hc
        exact ⟨hl, by simp, rfl⟩
      · exact next h (by rw [if_pos hc, if_neg ho])
    · next hc =>
      split at h
      · next ho => exact next h (by rw [if_neg hc, if_pos ho])
      · next ho => exact next h (by rw [if_neg hc, if_neg ho])

/-- **Where a bracket closes**: the search ends at the closing delimiter before which the text is
balanced. -/
theorem splitClosing_eq_some_iff :
    b.splitClosing depth mode t = some (p, s) ↔ t = p ++ b.closer :: s ∧ Closes b depth mode p s := by
  refine ⟨fun h => ⟨eq_of_splitClosing h, closes_of_splitClosing h⟩, ?_⟩
  rintro ⟨rfl, h⟩
  induction p generalizing depth mode with
  | nil =>
    have hdepth : 0 = depth := by simpa using h.count_eq
    have hl : (mode.step b.closer s.head?).1 = .code := h.code
    rw [List.nil_append, splitClosing_cons, if_pos ⟨hl, rfl⟩, ← hdepth]
  | cons c p ih =>
    obtain ⟨depth', htail, hdepth⟩ := h.tail
    rw [List.cons_append, splitClosing_cons]
    split
    · next hc =>
      have ho : ¬ ((mode.step c (p ++ b.closer :: s).head?).1 = .code ∧ c = b.opener) :=
        fun ho => b.opener_ne_closer (ho.2.symm.trans hc.2)
      rw [if_pos hc, if_neg ho] at hdepth
      obtain rfl : depth' + 1 = depth := hdepth
      simp only [ih htail, Option.map_some]
    · next hc =>
      rw [if_neg hc] at hdepth
      split
      · next ho =>
        rw [if_pos ho] at hdepth
        obtain rfl : depth' = depth + 1 := hdepth
        rw [ih htail, Option.map_some]
      · next ho =>
        rw [if_neg ho] at hdepth
        obtain rfl : depth' = depth := hdepth
        rw [ih htail, Option.map_some]

theorem closes_of_inside? (h : b.inside? t = some (p, s)) : Closes b 0 .code p s :=
  closes_of_splitClosing h

theorem splitClosing_append (h : b.splitClosing depth mode (p ++ b.closer :: s) = some (p, s))
    (s' : Text) : b.splitClosing depth mode (p ++ b.closer :: s') = some (p, s') := by
  induction p generalizing depth mode with
  | nil =>
    have hnext : ∀ next next', mode.step b.closer next = mode.step b.closer next' := by
      intro next next'
      cases b <;> cases mode <;> rfl
    simp only [List.nil_append, splitClosing] at h ⊢
    rw [hnext s'.head? s.head?]
    split at h
    · next hc =>
      rw [if_pos hc]
      cases depth with
      | zero => rfl
      | succ depth => simp at h
    · split at h <;> simp at h
  | cons c p ih =>
    have hhead : (p ++ b.closer :: s').head? = (p ++ b.closer :: s).head? := by
      rw [List.head?_append, List.head?_append]
      rfl
    have next : ∀ {depth' : Nat} {mode' : Mode},
        ((b.splitClosing depth' mode' (p ++ b.closer :: s)).map fun x => (c :: x.1, x.2)) =
          some (c :: p, s) →
        ((b.splitClosing depth' mode' (p ++ b.closer :: s')).map fun x => (c :: x.1, x.2)) =
          some (c :: p, s') := by
      intro depth' mode' h
      obtain ⟨⟨q, r⟩, hq, heq⟩ := Option.map_eq_some_iff.mp h
      simp only [Prod.mk.injEq, List.cons.injEq, true_and] at heq
      obtain ⟨rfl, rfl⟩ := heq
      rw [ih hq]
      rfl
    simp only [List.cons_append, splitClosing, hhead] at h ⊢
    split at h
    · next hc =>
      rw [if_pos hc]
      cases depth with
      | zero => simp at h
      | succ depth => exact next h
    · next hc =>
      rw [if_neg hc]
      split at h
      · next ho => rw [if_pos ho]; exact next h
      · next ho => rw [if_neg ho]; exact next h

theorem Closes.run (h : Closes b depth mode p s) : mode.run (p ++ [b.closer]) s.head? = .code := by
  rw [Mode.run_concat]
  refine Mode.mode_of_label h.code ?_
  cases b <;> decide

/-- **A bracket that is never closed**: no more delimiters close than are open. -/
theorem count_closer_le (h : b.splitClosing depth mode t = none) :
    (mode.codeChars t none).count b.closer ≤ depth + (mode.codeChars t none).count b.opener := by
  induction t generalizing depth mode with
  | nil => simp
  | cons c t ih =>
    have hne := b.opener_ne_closer
    have hcount : ∀ d, (mode.codeChars (c :: t) none).count d =
        (if (mode.step c t.head?).1 = .code ∧ c = d then 1 else 0) +
          ((mode.step c t.head?).2.codeChars t none).count d := by
      intro d
      simpa using mode.count_codeChars_cons c d t []
    rw [hcount, hcount]
    rw [splitClosing_cons] at h
    split at h
    · next hc =>
      have ho : ¬ ((mode.step c t.head?).1 = .code ∧ c = b.opener) :=
        fun ho => hne (ho.2.symm.trans hc.2)
      rw [if_pos hc, if_neg ho]
      cases depth with
      | zero => cases h
      | succ depth =>
        have := ih (Option.map_eq_none_iff.mp h)
        omega
    · next hc =>
      rw [if_neg hc]
      split at h
      · next ho =>
        have := ih (Option.map_eq_none_iff.mp h)
        rw [if_pos ho]
        omega
      · next ho =>
        have := ih (Option.map_eq_none_iff.mp h)
        rw [if_neg ho]
        omega

/-- The characters of code before a bracket that opens in code, itself, and those after it. -/
theorem count_codeChars_opener {q : Text} (hcode : mode.CodeAfter q (b.opener :: (p ++ b.closer :: s)))
    (d : Char) : (mode.codeChars (q ++ b.opener :: p) (some b.closer)).count d =
      (mode.codeChars q (some b.opener)).count d + [b.opener].count d +
        (Mode.code.codeChars p (some b.closer)).count d := by
  have hslash : b.opener ≠ '\\' := by cases b <;> decide
  have hhead : p.head?.or (some b.closer) = (p ++ b.closer :: s).head? := by
    rw [List.head?_append, List.head?_cons]
  have hl : ((mode.run q (some b.opener)).step b.opener (p ++ b.closer :: s).head?).1 = .code :=
    hcode
  rw [Mode.codeChars_append, List.head?_cons, Option.some_or, Mode.codeChars_cons, hhead,
    if_pos hl, Mode.mode_of_label hl hslash, List.count_append, List.count_append, Nat.add_assoc]

/-- After a bracket that opens in code inside another one, more delimiters close than open. -/
theorem Closes.count_lt {q : Text} (h : Closes b depth mode (q ++ b.opener :: p) s)
    (hcode : mode.CodeAfter q (b.opener :: (p ++ b.closer :: s))) :
    (Mode.code.codeChars p (some b.closer)).count b.opener <
      (Mode.code.codeChars p (some b.closer)).count b.closer := by
  have hbefore := h.count_le q (b.opener :: p) rfl
  have htotal := h.count_eq
  rw [List.cons_append, List.head?_cons] at hbefore
  rw [count_codeChars_opener hcode, count_codeChars_opener hcode, List.count_singleton_self,
    List.count_singleton, beq_false_of_ne b.opener_ne_closer] at htotal
  simp only [Bool.false_eq_true, if_false] at htotal
  omega

/-- **Brackets nest**: one that opens in code inside another closes inside it. -/
theorem Closes.nested {q r s' : Text} (h : Closes b depth mode (q ++ b.opener :: p) s)
    (hcode : mode.CodeAfter q (b.opener :: (p ++ b.closer :: s)))
    (hinner : Closes b 0 .code r s') (heq : p ++ b.closer :: s = r ++ b.closer :: s') :
    ∃ u, p = r ++ b.closer :: u := by
  have hlt := h.count_lt hcode
  -- the inner bracket cannot close with the outer one or after it
  have hnot : ∀ a, r ≠ p ++ a := by
    rintro a rfl
    have hle := hinner.count_le p a rfl
    rw [List.append_assoc, List.append_cancel_left_eq] at heq
    rw [← heq, List.head?_cons] at hle
    omega
  rcases List.append_eq_append_iff.mp heq with ⟨a, ha, -⟩ | ⟨a, ha, hs⟩
  · exact absurd ha (hnot a)
  · cases a with
    | nil => exact absurd (by rw [ha, List.append_nil, List.append_nil]) (hnot [])
    | cons d u =>
      rw [List.cons_append, List.cons.injEq] at hs
      exact ⟨u, by rw [ha, hs.1]⟩

/-- **A bracket inside another is closed**, also for a reader who sees the inside only. -/
theorem Closes.exists_inside? {q : Text} (h : Closes b depth mode (q ++ b.opener :: p) s)
    (hcode : mode.CodeAfter q (b.opener :: (p ++ b.closer :: s))) : ∃ r, b.inside? p = some r := by
  have hlt := h.count_lt hcode
  have hnext : (some b.closer : Option Char) ≠ some '/' := by cases b <;> decide
  rw [Mode.codeChars_next _ _ hnext] at hlt
  refine Option.ne_none_iff_exists'.mp fun hnone => ?_
  have hle := count_closer_le (show b.splitClosing 0 .code p = none from hnone)
  omega

end Bracket

end PipelineDoc
