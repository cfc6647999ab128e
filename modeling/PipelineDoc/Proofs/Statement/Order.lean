import PipelineDoc.Proofs.Lexical.Restart
import PipelineDoc.Proofs.Statement.Places

/-!
# Statements and references in order

Tokens come one after the other (`pairwise_tokensFrom`), and none is passed over: where a token can
be read in code, it is found, or the place lies inside another one (`mem_tokensFrom_or`).
-/

namespace PipelineDoc

variable {γ : Type}

/-- A tokenizer that finds at most one thing at a time; `start` and `stop` say from where to
where. -/
structure Tokenizer.Spans (token? : Tokenizer γ) (start stop : γ → Nat) : Prop where
  length_le : ∀ ⦃offset prev t found e⦄, token? offset prev t = some (found, e) → found.length ≤ 1
  lt : ∀ ⦃offset prev t found e⦄, token? offset prev t = some (found, e) → offset < e
  start_eq : ∀ ⦃offset prev t found e⦄, token? offset prev t = some (found, e) →
    ∀ x ∈ found, start x = offset
  stop_eq : ∀ ⦃offset prev t found e⦄, token? offset prev t = some (found, e) →
    ∀ x ∈ found, stop x = e

variable {token? : Tokenizer γ} {start stop : γ → Nat}

/-- **Tokens come one after the other**, none before the barrier. -/
theorem pairwise_tokensFrom (h : token?.Spans start stop) (offset barrier : Nat)
    (prev : Option Char) (mode : Mode) (t : Text) :
    (∀ x ∈ tokensFrom token? offset barrier prev mode t, offset ≤ start x ∧ barrier ≤ start x) ∧
      (tokensFrom token? offset barrier prev mode t).Pairwise fun x y => stop x ≤ start y := by
  induction t generalizing offset barrier prev mode with
  | nil => exact ⟨fun _ h => absurd h List.not_mem_nil, List.Pairwise.nil⟩
  | cons c t ih =>
    rw [tokensFrom_cons]
    split
    · next found e htok =>
      split at htok
      · next hb =>
        obtain ⟨hlater, hpair⟩ := ih (offset + c.utf8Size) e (some c) (mode.step c t.head?).2
        have hlt := h.lt htok
        refine ⟨fun x hx => ?_, List.pairwise_append.mpr ⟨?_, hpair, fun x hx y hy => ?_⟩⟩
        · rcases List.mem_append.mp hx with hx | hx
          · rw [h.start_eq htok x hx]
            exact ⟨Nat.le_refl _, hb.1⟩
          · have := hlater x hx
            omega
        · match found, h.length_le htok with
          | [], _ => exact List.Pairwise.nil
          | [x], _ => exact List.pairwise_singleton _ x
        · rw [h.stop_eq htok x hx]
          exact (hlater y hy).2
      · cases htok
    · obtain ⟨hlater, hpair⟩ := ih (offset + c.utf8Size) barrier (some c) (mode.step c t.head?).2
      refine ⟨fun x hx => ?_, hpair⟩
      have := hlater x hx
      omega

/-- **No token is passed over**, if each one finds something: a place in code where one can be read
starts a token or lies inside one. -/
theorem mem_tokensFrom_or (h : token?.Spans start stop)
    (hne : ∀ ⦃offset prev t found e⦄, token? offset prev t = some (found, e) → found ≠ [])
    (offset barrier : Nat) (prev : Option Char) (mode : Mode) {p s : Text}
    (hcode : mode.CodeAfter p s) {found : List γ} {e : Nat}
    (htok : token? (offset + p.byteLength) (p.getLast?.or prev) s = some (found, e)) :
    (∀ x ∈ found, x ∈ tokensFrom token? offset barrier prev mode (p ++ s)) ∨
      offset + p.byteLength < barrier ∨
      ∃ y ∈ tokensFrom token? offset barrier prev mode (p ++ s),
        start y < offset + p.byteLength ∧ offset + p.byteLength < stop y := by
  induction p generalizing offset barrier prev mode with
  | nil =>
    cases s with
    | nil => exact hcode.elim
    | cons c s =>
      by_cases hb : barrier ≤ offset
      · refine Or.inl fun x hx => ?_
        have hl : (mode.step c s.head?).1 = .code := hcode
        have htok' : token? offset prev (c :: s) = some (found, e) := htok
        rw [List.nil_append, tokensFrom_cons, if_pos ⟨hb, hl⟩, htok']
        exact List.mem_append_left _ hx
      · exact Or.inr (Or.inl (Nat.lt_of_not_le hb))
  | cons d p ih =>
    have hd := Char.utf8Size_pos d
    have hcode' : (mode.step d (p ++ s).head?).2.CodeAfter p s := by
      cases s with
      | nil => exact hcode.elim
      | cons c s => exact Mode.codeAfter_append (p := [d]).mp hcode
    rw [getLast?_cons_or, Text.byteLength_cons, ← Nat.add_assoc] at htok
    rw [List.cons_append, tokensFrom_cons, Text.byteLength_cons, ← Nat.add_assoc]
    split
    · next found' e' htok' =>
      split at htok'
      · rcases ih _ e' _ _ hcode' htok with hmem | hlt | ⟨y, hy, hin⟩
        · exact Or.inl fun x hx => List.mem_append_right _ (hmem x hx)
        · -- the place lies inside the token that was just found
          obtain ⟨y, hy⟩ := List.exists_mem_of_ne_nil _ (hne htok')
          refine Or.inr (Or.inr ⟨y, List.mem_append_left _ hy, ?_, ?_⟩)
          · rw [h.start_eq htok' y hy]
            omega
          · rw [h.stop_eq htok' y hy]
            exact hlt
        · exact Or.inr (Or.inr ⟨y, List.mem_append_right _ hy, hin⟩)
      · cases htok'
    · exact ih _ _ _ _ hcode' htok

/-! ### Statements -/

theorem start_of_statement? {offset : Nat} {t : Text} {s : Statement}
    (h : statement? offset t = some s) : s.start = offset := by
  simp only [statement?] at h
  split at h
  · next c hc =>
    cases h
    simp only [call?, Option.map_eq_some_iff, Prod.exists] at hc
    obtain ⟨form, rest, -, rfl⟩ := hc
    rfl
  · simp only [chain?, Option.map_eq_some_iff, Prod.exists] at h
    obtain ⟨c, ⟨head, rest, -, rfl⟩, rfl⟩ := h
    rfl

theorem exists_of_statementToken? {offset : Nat} {prev : Option Char} {t : Text}
    {found : List Statement} {e : Nat} (h : statementToken? offset prev t = some (found, e)) :
    ∃ s, statement? offset t = some s ∧ found = [s] ∧ s.stop = e ∧
      t.head?.any (startsStatement prev) := by
  simp only [statementToken?] at h
  split at h
  · next hstart =>
    simp only [Option.map_eq_some_iff, Prod.mk.injEq] at h
    obtain ⟨s, hs, hfound, hstop⟩ := h
    exact ⟨s, hs, hfound.symm, hstop, hstart⟩
  · cases h

theorem spans_statementToken? : statementToken?.Spans Statement.start Statement.stop where
  length_le := by
    intro offset prev t found e h
    obtain ⟨s, -, rfl, -⟩ := exists_of_statementToken? h
    exact Nat.le_refl 1
  lt := by
    intro offset prev t found e h
    obtain ⟨m, s, -, hne, rfl⟩ := takes_statementToken? h
    have := Text.byteLength_pos hne
    omega
  start_eq := by
    intro offset prev t found e h x hx
    obtain ⟨s, hs, rfl, -⟩ := exists_of_statementToken? h
    rw [List.mem_singleton.mp hx]
    exact start_of_statement? hs
  stop_eq := by
    intro offset prev t found e h x hx
    obtain ⟨s, -, rfl, hstop, -⟩ := exists_of_statementToken? h
    rw [List.mem_singleton.mp hx]
    exact hstop

theorem Text.pairwise_statements (body : Text) :
    body.statements.Pairwise fun s u => s.stop ≤ u.start := by
  rw [Text.statements, statementsFrom_eq]
  exact (pairwise_tokensFrom spans_statementToken? 0 0 none .code body).2

theorem exists_code_of_mem_statements {body : Text} {st : Statement} (h : st ∈ body.statements) :
    ∃ p s, body = p ++ s ∧ Mode.code.CodeAfter p s ∧
      statementToken? p.byteLength p.getLast? s = some ([st], st.stop) := by
  rw [Text.statements, statementsFrom_eq] at h
  obtain ⟨p, d, s, found, stop, rfl, hl, htok, hx⟩ := exists_code_of_mem_tokensFrom h
  rw [Nat.zero_add, Option.or_none] at htok
  obtain ⟨st', -, rfl, hstop, -⟩ := exists_of_statementToken? htok
  obtain rfl := List.mem_singleton.mp hx
  exact ⟨p, d :: s, rfl, hl, hstop ▸ htok⟩

theorem exists_code_of_call_mem_statements {body : Text} {c : Call}
    (h : .call c ∈ body.statements) :
    ∃ p s, body = p ++ s ∧ Mode.code.CodeAfter p s ∧ call? p.byteLength s = some c ∧
      s.head?.any (startsStatement p.getLast?) := by
  obtain ⟨p, s, rfl, hcode, htok⟩ := exists_code_of_mem_statements h
  obtain ⟨st, hst, hfound, -, hstart⟩ := exists_of_statementToken? htok
  cases hfound
  refine ⟨p, s, rfl, hcode, ?_, hstart⟩
  simp only [statement?] at hst
  split at hst
  · next c' hc =>
    cases hst
    exact hc
  · simp at hst

/-- A statement that can be read in code, at a word that continues neither a word nor a path, is a
statement of the text, or it starts inside one. -/
theorem statement_mem_or {p s : Text} (hcode : Mode.code.CodeAfter p s)
    (hstart : s.head?.any (startsStatement p.getLast?)) {st : Statement}
    (hst : statement? p.byteLength s = some st) :
    st ∈ (p ++ s : Text).statements ∨
      ∃ u ∈ (p ++ s : Text).statements, u.start < p.byteLength ∧ p.byteLength < u.stop := by
  have htok : statementToken? p.byteLength p.getLast? s = some ([st], st.stop) := by
    rw [statementToken?, if_pos hstart, hst]
    rfl
  have hne : ∀ ⦃offset prev t found e⦄, statementToken? offset prev t = some (found, e) →
      found ≠ [] := by
    intro offset prev t found e h
    obtain ⟨s, -, rfl, -⟩ := exists_of_statementToken? h
    exact List.cons_ne_nil _ _
  rw [Text.statements, statementsFrom_eq]
  rcases mem_tokensFrom_or spans_statementToken? hne 0 0 none .code hcode
    (by rw [Nat.zero_add, Option.or_none]; exact htok) with hmem | hlt | hin
  · exact Or.inl (hmem _ List.mem_cons_self)
  · exact absurd hlt (Nat.not_lt_zero _)
  · rw [Nat.zero_add] at hin
    exact Or.inr hin

theorem call_mem_statements_or {p s : Text} (hcode : Mode.code.CodeAfter p s)
    (hstart : s.head?.any (startsStatement p.getLast?)) {c : Call}
    (hc : call? p.byteLength s = some c) :
    .call c ∈ (p ++ s : Text).statements ∨
      ∃ st ∈ (p ++ s : Text).statements, st.start < p.byteLength ∧ p.byteLength < st.stop :=
  statement_mem_or hcode hstart (by rw [statement?, hc])

/-! ### References -/

theorem span_of_referenceToken? {offset : Nat} {prev : Option Char} {t : Text}
    {found : List Reference} {e : Nat} (h : referenceToken? offset prev t = some (found, e)) :
    ∀ r ∈ found, r.span.start = offset ∧ r.span.stop = e := by
  intro r hr
  simp only [referenceToken?, argumentToken?, Option.map_eq_some_iff, Prod.mk.injEq] at h
  obtain ⟨token, htok, rfl, rfl⟩ := h
  split at htok
  · cases htok
    cases hr
  · simp only [Option.map_eq_some_iff, Prod.exists] at htok
    obtain ⟨path, rest, -, rfl⟩ := htok
    simp only at hr
    split at hr
    · rw [List.mem_singleton.mp hr]
      exact ⟨rfl, rfl⟩
    · cases hr

theorem spans_referenceToken? :
    referenceToken?.Spans (fun r => r.span.start) (fun r => r.span.stop) where
  length_le := by
    intro offset prev t found e h
    simp only [referenceToken?, Option.map_eq_some_iff, Prod.mk.injEq] at h
    obtain ⟨token, -, rfl, -⟩ := h
    cases token.reference <;> simp
  lt := by
    intro offset prev t found e h
    obtain ⟨m, s, -, hne, rfl⟩ := takes_referenceToken? h
    have := Text.byteLength_pos hne
    omega
  start_eq := fun _ _ _ _ _ h r hr => (span_of_referenceToken? h r hr).1
  stop_eq := fun _ _ _ _ _ h r hr => (span_of_referenceToken? h r hr).2

theorem Text.pairwise_references (args : Text) :
    args.references.Pairwise fun r s => r.span.stop ≤ s.span.start := by
  rw [Text.references, referencesFrom_eq]
  exact (pairwise_tokensFrom spans_referenceToken? 0 0 none .code args).2

end PipelineDoc
