import PipelineDoc.Proofs.Grammar.Paths
import PipelineDoc.Proofs.Lexical.Modes
import PipelineDoc.Reference
import PipelineDoc.Statement

/-!
# Tokens along a text

The statements of a body and the references of an argument text are found in the same way. The text
is passed from left to right; at each character of code a *tokenizer* may find a token at the front
of what is left, and then nothing is looked for before the end of that token. `tokensFrom` is this
pass for any tokenizer. A token *takes* a non-empty part off the front of its text (`Takes`), so the
pass goes on after that part, in the mode reached there (`Takes.exists_tokensAfter`).
-/

namespace PipelineDoc

/-- Gives what stands at the front of a text at an offset after a character, and the offset past
it. -/
abbrev Tokenizer (γ : Type) := Nat → Option Char → Text → Option (List γ × Nat)

variable {γ : Type}

/-- The tokens of a text that stands at an offset and is read from a mode on, apart from those that
start before `barrier`. -/
def tokensFrom (token? : Tokenizer γ) (offset barrier : Nat) (prev : Option Char) (mode : Mode) :
    Text → List γ
  | [] => []
  | c :: cs =>
    let (label, mode') := mode.step c cs.head?
    match if barrier ≤ offset ∧ label = .code then token? offset prev (c :: cs) else none with
    | some (found, stop) =>
      found ++ tokensFrom token? (offset + c.utf8Size) stop (some c) mode' cs
    | none => tokensFrom token? (offset + c.utf8Size) barrier (some c) mode' cs

/-- Every token takes a non-empty part of its text. -/
def Takes (token? : Tokenizer γ) : Prop :=
  ∀ ⦃offset prev t found stop⦄, token? offset prev t = some (found, stop) →
    ∃ m s, t = m ++ s ∧ m ≠ [] ∧ stop = offset + Text.byteLength m

theorem tokensFrom_cons (token? : Tokenizer γ) (offset barrier : Nat) (prev : Option Char)
    (mode : Mode) (c : Char) (cs : Text) :
    tokensFrom token? offset barrier prev mode (c :: cs) =
      match if barrier ≤ offset ∧ (mode.step c cs.head?).1 = .code then token? offset prev (c :: cs)
        else none with
      | some (found, stop) =>
        found ++ tokensFrom token? (offset + c.utf8Size) stop (some c) (mode.step c cs.head?).2 cs
      | none =>
        tokensFrom token? (offset + c.utf8Size) barrier (some c) (mode.step c cs.head?).2 cs := rfl

/-- The character before a place, in a text that stands after `prev`. -/
theorem getLast?_cons_or (c : Char) (t : Text) (prev : Option Char) :
    (c :: t).getLast?.or prev = t.getLast?.or (some c) := by
  rw [List.getLast?_cons]
  cases t.getLast? <;> rfl

theorem tokensFrom_skip (token? : Tokenizer γ) {offset barrier : Nat} (prev : Option Char)
    (mode : Mode) (m s : Text) (h : offset + m.byteLength ≤ barrier) :
    tokensFrom token? offset barrier prev mode (m ++ s) =
      tokensFrom token? (offset + m.byteLength) barrier (m.getLast?.or prev) (mode.run m s.head?)
        s := by
  induction m generalizing offset prev mode with
  | nil => rfl
  | cons c m ih =>
    have hc := Char.utf8Size_pos c
    rw [Text.byteLength_cons] at h
    rw [List.cons_append, tokensFrom_cons, if_neg (by omega), List.head?_append]
    show tokensFrom token? _ _ _ _ (m ++ s) = _
    rw [ih _ _ (by omega), getLast?_cons_or, Mode.run_cons, Text.byteLength_cons, Nat.add_assoc]

theorem tokensFrom_barrier (token? : Tokenizer γ) {offset b b' : Nat} (prev : Option Char)
    (mode : Mode) (t : Text) (h : b ≤ offset) (h' : b' ≤ offset) :
    tokensFrom token? offset b prev mode t = tokensFrom token? offset b' prev mode t := by
  induction t generalizing offset prev mode with
  | nil => rfl
  | cons c t ih =>
    rw [tokensFrom_cons, tokensFrom_cons]
    simp only [h, h', true_and]
    split
    · rfl
    · exact ih _ _ (by omega) (by omega)

/-- **After a token** the pass goes on where the token ends. -/
theorem tokensFrom_take {token? : Tokenizer γ} {offset barrier : Nat} {prev : Option Char}
    {mode : Mode} {c : Char} {cs m s : Text} {found : List γ}
    (hb : barrier ≤ offset) (hl : (mode.step c cs.head?).1 = .code)
    (ht : token? offset prev (c :: cs) = some (found, offset + m.byteLength))
    (hm : c :: cs = m ++ s) (hne : m ≠ []) :
    tokensFrom token? offset barrier prev mode (c :: cs) =
      found ++ tokensFrom token? (offset + m.byteLength) (offset + m.byteLength) m.getLast?
        (mode.run m s.head?) s := by
  obtain ⟨d, m, rfl⟩ := List.exists_cons_of_ne_nil hne
  rw [List.cons_append, List.cons.injEq] at hm
  obtain ⟨rfl, rfl⟩ := hm
  rw [tokensFrom_cons, if_pos ⟨hb, hl⟩, ht]
  show found ++ _ = _
  have hlast : m.getLast?.or (some c) = (c :: m).getLast? := by
    rw [← getLast?_cons_or c m none, Option.or_none]
  rw [tokensFrom_skip token? _ _ m s (by rw [Text.byteLength_cons]; omega), hlast, Mode.run_cons,
    List.head?_append, Text.byteLength_cons, Nat.add_assoc]

theorem getLast?_append_of_ne_nil (p : Text) {m : Text} (h : m ≠ []) :
    (p ++ m).getLast? = m.getLast? := by
  rw [List.getLast?_append]
  cases hm : m.getLast? with
  | none => exact absurd (List.getLast?_eq_none_iff.mp hm) h
  | some c => rfl

/-- The tokens of `p ++ s` that start in `s`, when none that starts in `p` reaches into `s`. -/
def tokensAfter (token? : Tokenizer γ) (p s : Text) : List γ :=
  tokensFrom token? p.byteLength p.byteLength p.getLast? (Mode.code.run p s.head?) s

theorem tokensAfter_take {token? : Tokenizer γ} {p cs m s : Text} {c : Char} {found : List γ}
    (hl : ((Mode.code.run p (some c)).step c cs.head?).1 = .code)
    (ht : token? p.byteLength p.getLast? (c :: cs) = some (found, p.byteLength + m.byteLength))
    (hm : c :: cs = m ++ s) (hne : m ≠ []) :
    tokensAfter token? p (c :: cs) = found ++ tokensAfter token? (p ++ m) s := by
  have hrun : Mode.code.run (p ++ m) s.head? = (Mode.code.run p (some c)).run m s.head? := by
    rw [Mode.run_append, ← List.head?_append, ← hm]
    rfl
  rw [tokensAfter, tokensAfter, List.head?_cons, tokensFrom_take (Nat.le_refl _) hl ht hm hne, hrun,
    getLast?_append_of_ne_nil p hne, Text.byteLength_append]

theorem tokensAfter_pass {token? : Tokenizer γ} {p cs : Text} {c : Char}
    (h : ((Mode.code.run p (some c)).step c cs.head?).1 = .code →
      token? p.byteLength p.getLast? (c :: cs) = none) :
    tokensAfter token? p (c :: cs) = tokensAfter token? (p ++ [c]) cs := by
  have hnone : (if p.byteLength ≤ p.byteLength ∧
        ((Mode.code.run p (some c)).step c cs.head?).1 = .code
      then token? p.byteLength p.getLast? (c :: cs) else none) = none := by
    split
    · next hl => exact h hl.2
    · rfl
  rw [tokensAfter, tokensAfter, List.head?_cons, tokensFrom_cons, hnone, Mode.run_concat,
    List.getLast?_concat, show (p ++ [c] : Text).byteLength = p.byteLength + c.utf8Size by simp]
  exact tokensFrom_barrier _ _ _ _ (by omega) (Nat.le_refl _)

/-- The pass after a token, for a loop that goes on where the token ends. -/
theorem Takes.exists_tokensAfter {token? : Tokenizer γ} (h : Takes token?) {p cs : Text} {c : Char}
    {found : List γ} {stop : Nat} (hl : ((Mode.code.run p (some c)).step c cs.head?).1 = .code)
    (ht : token? p.byteLength p.getLast? (c :: cs) = some (found, stop)) :
    ∃ m s : Text, p ++ c :: cs = (p ++ m) ++ s ∧ stop = Text.byteLength (p ++ m) ∧
      s.byteLength < Text.byteLength (c :: cs) ∧
      tokensAfter token? p (c :: cs) = found ++ tokensAfter token? (p ++ m) s := by
  obtain ⟨m, s, hm, hne, rfl⟩ := h ht
  have hlen := congrArg Text.byteLength hm
  rw [Text.byteLength_append] at hlen
  have hpos := Text.byteLength_pos hne
  exact ⟨m, s, by rw [hm, List.append_assoc], (Text.byteLength_append p m).symm, by omega,
    tokensAfter_take hl ht hm hne⟩

/-- **Where a token stands**: at a character of code after some part of the text. -/
theorem exists_code_of_mem_tokensFrom {token? : Tokenizer γ} {offset barrier : Nat}
    {prev : Option Char} {mode : Mode} {t : Text} {x : γ}
    (hx : x ∈ tokensFrom token? offset barrier prev mode t) :
    ∃ p c s found stop, t = p ++ c :: s ∧ ((mode.run p (some c)).step c s.head?).1 = .code ∧
      token? (offset + p.byteLength) (p.getLast?.or prev) (c :: s) = some (found, stop) ∧
      x ∈ found := by
  induction t generalizing offset barrier prev mode with
  | nil => simp [tokensFrom] at hx
  | cons c t ih =>
    have later : ∀ {b : Nat}, x ∈ tokensFrom token? (offset + c.utf8Size) b (some c)
        (mode.step c t.head?).2 t → ∃ (p : Text) (d : Char) (s : Text) (found : List γ) (stop : Nat),
          c :: t = p ++ d :: s ∧ ((mode.run p (some d)).step d s.head?).1 = .code ∧
          token? (offset + p.byteLength) (p.getLast?.or prev) (d :: s) = some (found, stop) ∧
          x ∈ found := by
      intro b hx
      obtain ⟨p, d, s, found, stop, rfl, hl, htok, hx⟩ := ih hx
      refine ⟨c :: p, d, s, found, stop, rfl, ?_, ?_, hx⟩
      · rwa [List.head?_append] at hl
      · rwa [Text.byteLength_cons, getLast?_cons_or, ← Nat.add_assoc]
    rw [tokensFrom_cons] at hx
    split at hx
    · next found stop htok =>
      rcases List.mem_append.mp hx with hx | hx
      · split at htok
        · next hl => exact ⟨[], c, t, found, stop, rfl, hl.2, htok, hx⟩
        · simp at htok
      · exact later hx
    · exact later hx

theorem exists_of_mem_tokensFrom {token? : Tokenizer γ} {offset barrier : Nat} {prev : Option Char}
    {mode : Mode} {t : Text} {x : γ} (hx : x ∈ tokensFrom token? offset barrier prev mode t) :
    ∃ p s found stop, t = p ++ s ∧
      token? (offset + p.byteLength) (p.getLast?.or prev) s = some (found, stop) ∧ x ∈ found := by
  obtain ⟨p, c, s, found, stop, ht, -, htok, hx⟩ := exists_code_of_mem_tokensFrom hx
  exact ⟨p, c :: s, found, stop, ht, htok, hx⟩

/-! ### Statements -/

/-- The statement at the front of a text, as a token. -/
def statementToken? : Tokenizer Statement := fun offset prev t =>
  if t.head?.any (startsStatement prev) then (statement? offset t).map fun s => ([s], s.stop)
  else none

theorem statementsFrom_eq (offset barrier : Nat) (prev : Option Char) (mode : Mode) (t : Text) :
    statementsFrom offset barrier prev mode t =
      tokensFrom statementToken? offset barrier prev mode t := by
  induction t generalizing offset barrier prev mode with
  | nil => rfl
  | cons c t ih =>
    rw [tokensFrom_cons, statementsFrom]
    simp only [ih]
    by_cases h : barrier ≤ offset ∧ (mode.step c t.head?).1 = .code
    · by_cases hs : startsStatement prev c = true
      · rw [if_pos h, if_pos ⟨h.1, h.2, hs⟩, statementToken?, List.head?_cons,
          Option.any_some, if_pos hs]
        cases statement? offset (c :: t) <;> rfl
      · rw [if_pos h, if_neg (fun h' => hs h'.2.2), statementToken?, List.head?_cons,
          Option.any_some, if_neg hs]
    · rw [if_neg h, if_neg (fun h' => h ⟨h'.1, h'.2.1⟩)]

theorem exists_of_statement? {offset : Nat} {t : Text} {s : Statement}
    (h : statement? offset t = some s) :
    ∃ m rest, t = m ++ rest ∧ m ≠ [] ∧ s.stop = offset + Text.byteLength m := by
  simp only [statement?] at h
  split at h
  · next c hc =>
    cases h
    simp only [call?, Option.map_eq_some_iff, Prod.exists] at hc
    obtain ⟨form, rest, hread, rfl⟩ := hc
    exact ⟨form.text, rest, CallForm.eq_of_read? hread,
      List.length_pos_iff.mp form.length_text_pos, rfl⟩
  · simp only [chain?, Option.map_eq_some_iff, Prod.exists] at h
    obtain ⟨c, ⟨head, rest, hread, rfl⟩, rfl⟩ := h
    obtain ⟨htext, hwritten⟩ := ChainHead.eq_of_read? hread
    exact ⟨head.text, rest, htext, by simp [ChainHead.text, hwritten.first.ne_nil], rfl⟩

theorem takes_statementToken? : Takes statementToken? := by
  intro offset prev t found stop h
  simp only [statementToken?] at h
  split at h
  · rw [Option.map_eq_some_iff] at h
    obtain ⟨s, hs, heq⟩ := h
    rw [Prod.mk.injEq] at heq
    obtain ⟨m, rest, ht, hne, hstop⟩ := exists_of_statement? hs
    exact ⟨m, rest, ht, hne, by rw [← heq.2, hstop]⟩
  · simp at h

/-! ### References -/

/-- The argument token at the front of a text, with the reference it makes. -/
def referenceToken? : Tokenizer Reference := fun offset prev t =>
  (argumentToken? offset prev t).map fun token => (token.reference.toList, token.stop)

theorem referencesFrom_eq (offset barrier : Nat) (prev : Option Char) (mode : Mode) (t : Text) :
    referencesFrom offset barrier prev mode t =
      tokensFrom referenceToken? offset barrier prev mode t := by
  induction t generalizing offset barrier prev mode with
  | nil => rfl
  | cons c t ih =>
    rw [tokensFrom_cons, referencesFrom]
    simp only [ih]
    by_cases h : barrier ≤ offset ∧ (mode.step c t.head?).1 = .code
    · rw [if_pos h, if_pos h, referenceToken?]
      cases argumentToken? offset prev (c :: t) <;> rfl
    · rw [if_neg h, if_neg h]

theorem takes_referenceToken? : Takes referenceToken? := by
  intro offset prev t found stop h
  simp only [referenceToken?, Option.map_eq_some_iff, Prod.mk.injEq, argumentToken?] at h
  obtain ⟨token, htok, -, rfl⟩ := h
  split at htok
  · next hnum =>
    -- a numeric character is a word character, so the numeral is not empty
    cases htok
    refine ⟨_, _, (List.takeWhile_append_dropWhile (p := fun c => isWordChar c || c == '.')).symm,
      ?_, rfl⟩
    cases t with
    | nil => simp at hnum
    | cons c t =>
      have hc : isWordChar c = true := by
        rw [List.head?_cons, Option.any_some] at hnum
        simp [isWordChar, hnum]
      simp [hc]
  · simp only [Option.map_eq_some_iff, Prod.exists] at htok
    obtain ⟨path, rest, hpath, rfl⟩ := htok
    obtain ⟨ht, hne⟩ := eq_of_path? hpath
    exact ⟨path, rest, ht, hne, rfl⟩

end PipelineDoc
