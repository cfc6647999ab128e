import Mathlib.Data.List.Basic
import PipelineDoc.Proofs.Lexical.Restart

/-!
# From one word to the next

Declarations, and the calls of a line, are looked for in rounds: the next whole word in code is
searched for, something is taken with it, and the search starts anew in code where that ends.
`Visits` says which words are visited in this way. If a reader that comes from the start of the text
is in code wherever the search starts anew, then the visited words are words of the text as a whole,
they come one after the other, and no word in code is passed over: each one is visited, or lies in
what was taken with one that is (`Visits.complete`).
-/

namespace PipelineDoc

variable {α : Type}

/-- The words visited in a text `s` that stands after `p`, each with all of the text before it.
`taken` gives what is taken beyond a word, by the text after the word. -/
inductive Visits (spelling : α → Text) (candidates : List α) (taken : Text → Text) :
    Text → Text → List (Find α) → Prop
  | done {p s : Text} (hfind : findWord? spelling candidates p.getLast? .code s = none) :
      Visits spelling candidates taken p s []
  | visit {p s rest : Text} {f : Find α} {vs : List (Find α)}
      (hfind : findWord? spelling candidates p.getLast? .code s = some f)
      (hrest : f.after = taken f.after ++ rest)
      (hmode : Mode.code.run (p ++ f.before ++ (spelling f.key ++ taken f.after)) rest.head? = .code)
      (hnext : Visits spelling candidates taken (p ++ f.before ++ (spelling f.key ++ taken f.after))
        rest vs) :
      Visits spelling candidates taken p s ({ f with before := p ++ f.before } :: vs)

/-- A visited word with what is taken. -/
def Find.reach (spelling : α → Text) (taken : Text → Text) (v : Find α) : Text :=
  v.before ++ (spelling v.key ++ taken v.after)

namespace Visits

variable {spelling : α → Text} {candidates : List α} {taken : Text → Text} {p s : Text}
  {vs : List (Find α)}

theorem split {rest : Text} {f : Find α} {prev : Option Char} {mode : Mode}
    (hfind : findWord? spelling candidates prev mode s = some f)
    (hrest : f.after = taken f.after ++ rest) (p : Text) :
    p ++ s = (p ++ f.before ++ (spelling f.key ++ taken f.after)) ++ rest := by
  have hs := eq_of_findWord? hfind
  rw [hrest] at hs
  rw [hs]
  simp

/-- A word, and what it takes along, leave a reader in code if both do so on their own. -/
theorem run_of_findWord? {rest m : Text} {f : Find α} (hp : Mode.code.run p s.head? = .code)
    (hfind : findWord? spelling candidates p.getLast? .code s = some f)
    (hword : ∀ c ∈ spelling f.key, isInert c = true) (hne : spelling f.key ≠ [])
    (hrest : f.after = m ++ rest) (hm : Mode.code.run m rest.head? = .code) :
    Mode.code.run (p ++ f.before ++ (spelling f.key ++ m)) rest.head? = .code := by
  obtain ⟨-, hcode, -⟩ := standsInCode_of_findWord? hfind
  rw [eq_of_findWord? hfind] at hp
  have hrun := ((Mode.codeAfter_restart hp).mpr hcode).run_append hword hne
  rw [← List.append_assoc, Mode.run_append, ← List.head?_append, ← hrest, hrun, hm]

theorem eq_append (h : Visits spelling candidates taken p s vs) {v : Find α} (hv : v ∈ vs) :
    p ++ s = v.before ++ (spelling v.key ++ v.after) ∧ p <+: v.before := by
  induction h with
  | done => cases hv
  | @visit p s rest f vs hfind hrest hmode hnext ih =>
    rcases List.mem_cons.mp hv with rfl | hv
    · exact ⟨by rw [eq_of_findWord? hfind, List.append_assoc], List.prefix_append _ _⟩
    · obtain ⟨heq, hpre⟩ := ih hv
      rw [split hfind hrest p]
      refine ⟨heq, List.IsPrefix.trans ?_ hpre⟩
      rw [List.append_assoc]
      exact List.prefix_append _ _

/-- **Visited words** are whole words in code of the text. -/
theorem standsInCode (h : Visits spelling candidates taken p s vs)
    (hp : Mode.code.run p s.head? = .code) {v : Find α} (hv : v ∈ vs) :
    v.key ∈ candidates ∧ StandsInCode .code none v.before (spelling v.key) v.after := by
  induction h with
  | done => cases hv
  | @visit p s rest f vs hfind hrest hmode hnext ih =>
    rcases List.mem_cons.mp hv with rfl | hv
    · obtain ⟨hmem, hstands⟩ := standsInCode_of_findWord? hfind
      rw [eq_of_findWord? hfind] at hp
      rw [← Option.or_none (o := p.getLast?)] at hstands
      exact ⟨hmem, (standsInCode_restart hp).mpr hstands⟩
    · exact ih hmode hv

/-- **Visited words come one after the other**, with what is taken. -/
theorem pairwise (h : Visits spelling candidates taken p s vs) :
    vs.Pairwise fun v w => v.reach spelling taken <+: w.before := by
  induction h with
  | done => exact List.Pairwise.nil
  | visit hfind hrest hmode hnext ih =>
    exact List.Pairwise.cons (fun w hw => (hnext.eq_append hw).2) ih

/-- **No word in code is passed over**: it is visited, or it starts inside what a visit takes. -/
theorem complete (h : Visits spelling candidates taken p s vs)
    (hp : Mode.code.run p s.head? = .code) {q t : Text} {a : α} (ha : a ∈ candidates)
    (heq : p ++ s = q ++ (spelling a ++ t)) (hq : StandsInCode .code none q (spelling a) t)
    (hle : p.length ≤ q.length) :
    ∃ v ∈ vs, v.before = q ∨
      v.before.length < q.length ∧ q.length < (v.reach spelling taken).length := by
  -- after `p` the word stands in `s`
  have after : ∀ {p s : Text}, Mode.code.run p s.head? = .code → p ++ s = q ++ (spelling a ++ t) →
      p.length ≤ q.length → ∃ m, q = p ++ m ∧ s = m ++ (spelling a ++ t) ∧
        StandsInCode .code p.getLast? m (spelling a) t := by
    intro p s hp heq hle
    obtain ⟨m, rfl⟩ := List.prefix_of_prefix_length_le
      (List.prefix_append p s) (heq ▸ List.prefix_append q _) hle
    rw [List.append_assoc, List.append_cancel_left_eq] at heq
    subst heq
    have := (standsInCode_restart hp).mp hq
    rw [Option.or_none] at this
    exact ⟨m, rfl, rfl, this⟩
  induction h with
  | @done p s hfind =>
    obtain ⟨m, -, rfl, hm⟩ := after hp heq hle
    obtain ⟨f, hf, -⟩ := exists_findWord? ha hm
    rw [hfind] at hf
    cases hf
  | @visit p s rest f vs hfind hrest hmode hnext ih =>
    have hsplit := split hfind hrest p
    by_cases hreach : (p ++ f.before ++ (spelling f.key ++ taken f.after)).length ≤ q.length
    · obtain ⟨v, hv, hvq⟩ := ih hmode (hsplit.symm.trans heq) hreach
      exact ⟨v, List.mem_cons_of_mem _ hv, hvq⟩
    · refine ⟨_, List.mem_cons_self, ?_⟩
      obtain ⟨m, rfl, rfl, hm⟩ := after hp heq hle
      obtain ⟨g, hg, hlen⟩ := exists_findWord? ha hm
      rw [hfind, Option.some.injEq] at hg
      subst hg
      have hpre : p ++ f.before <+: p ++ m := by
        refine (List.prefix_append_right_inj p).mpr (List.prefix_of_prefix_length_le ?_
          (List.prefix_append m (spelling a ++ t)) hlen)
        exact ⟨_, (eq_of_findWord? hfind).symm⟩
      rcases Nat.lt_or_ge (p ++ f.before).length (p ++ m).length with hlt | hge
      · exact Or.inr ⟨hlt, Nat.lt_of_not_le hreach⟩
      · exact Or.inl (hpre.eq_of_length_le hge)

end Visits

theorem StandsInCode.not_inside {mode : Mode} {prev : Option Char} {q w t p word s : Text}
    (h : StandsInCode mode prev q w t) (hword : ∀ c ∈ word, isWordChar c = true)
    (heq : q ++ (w ++ t) = p ++ (word ++ s)) (hlt : p.length < q.length) :
    (p ++ word).length ≤ q.length := by
  by_contra hlen
  -- the character before the word would be one of `word`
  obtain ⟨m, rfl⟩ := List.prefix_of_prefix_length_le (heq ▸ List.prefix_append p _ : p <+: _)
    (List.prefix_append q _) (Nat.le_of_lt hlt)
  rw [List.append_assoc, List.append_cancel_left_eq] at heq
  have hpre : m <+: word := List.prefix_of_prefix_length_le (List.prefix_append m (w ++ t))
    (heq ▸ List.prefix_append word s) (by simp only [List.length_append] at hlen; omega)
  have hne : m ≠ [] := by
    rintro rfl
    simp at hlt
  obtain ⟨front, last, rfl⟩ := (List.eq_nil_or_concat' m).resolve_left hne
  have hclear := h.clear_before
  rw [← List.append_assoc, List.getLast?_concat, Option.some_or, isClear, Option.all_some,
    hword last (hpre.subset (by simp))] at hclear
  cases hclear

end PipelineDoc
