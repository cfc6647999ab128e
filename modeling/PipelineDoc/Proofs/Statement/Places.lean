import PipelineDoc.Proofs.Declaration.Places
import PipelineDoc.Proofs.Grammar.Heads
import PipelineDoc.Proofs.Lexical.Tokens

/-!
# Where calls and references stand

The parts of a call that was found in a text stand in that text at their spans, and the module that
it names is a dotted path (`Call.StandsIn`). This holds of the calls among the statements of a body
and of the calls of a line. A reference stands in its argument text, with its root at the front
(`Reference.StandsIn`).
-/

namespace PipelineDoc

/-- The spans of a call are those of its parts in a text. -/
structure Call.StandsIn (c : Call) (t : Text) : Prop where
  isDottedPath : IsDottedPath c.module
  module : t.slice? c.moduleSpan = some c.module
  args : ∀ a ∈ c.args, t.slice? a = some (t.slice a)

theorem CallForm.standsIn {f : CallForm} {t rest : Text} (h : CallForm.read? t = some (f, rest))
    (p : Text) : (f.place p.byteLength).StandsIn (p ++ t) := by
  have ht := CallForm.eq_of_read? h
  simp only [CallForm.read?, Option.map_eq_some_iff, Prod.exists] at h
  obtain ⟨head, r, hread, hform⟩ := h
  obtain ⟨hhead, hwritten⟩ := CallHead.read?_eq_some_iff.mp hread
  have hfhead : f.head = head := by
    split at hform <;> (rw [Prod.mk.injEq] at hform; rw [← hform.1])
  refine ⟨?_, ?_, ?_⟩
  · show IsDottedPath f.head.run.module
    exact hfhead ▸ hwritten.run.module
  · have h := Text.slice?_append (p ++ (f.head.front ++ (runWord ++ f.head.run.gap)))
      f.head.run.module (f.head.run.pad ++ ('(' :: r))
    rw [hhead, ← hfhead]
    simp only [CallForm.place, RunHead.moduleSpan, CallHead.text, RunHead.text, List.append_assoc,
      List.cons_append, List.nil_append, Text.byteLength_append, Nat.add_assoc] at h ⊢
    exact h
  · intro a ha
    simp only [CallForm.place, Option.mem_def, Option.map_eq_some_iff] at ha
    obtain ⟨inside, hin, rfl⟩ := ha
    have h := Text.slice?_append (p ++ f.head.text) inside ([Bracket.paren.closer] ++ rest)
    have htext : p ++ t = (p ++ f.head.text) ++ (inside ++ ([Bracket.paren.closer] ++ rest)) := by
      rw [ht, CallForm.text, hin]
      simp
    rw [← htext, Text.byteLength_append] at h
    rw [Text.slice_of_slice? h, h]

theorem standsIn_of_call? {t : Text} {c : Call} (p : Text) (h : call? p.byteLength t = some c) :
    c.StandsIn (p ++ t) := by
  simp only [call?, Option.map_eq_some_iff, Prod.exists] at h
  obtain ⟨f, rest, hread, rfl⟩ := h
  exact CallForm.standsIn hread p

theorem lineCallsFrom_standsIn (p s : Text) (prev : Option Char) :
    ∀ c ∈ lineCallsFrom p.byteLength prev s, c.StandsIn (p ++ s) := by
  induction hn : s.length using Nat.strongRecOn generalizing p s prev with
  | ind n ih =>
    intro c hc
    rw [lineCallsFrom] at hc
    split at hc
    · simp at hc
    · next f hfind =>
      have hs := eq_of_findWord? hfind
      have hlen := length_after_findWord? hfind
      have hsplit : p ++ s = (p ++ f.before) ++ (runWord ++ f.after) := by rw [hs]; simp
      have hrun : runWord.length = 3 := rfl
      -- what is left after a part of the text
      have next : ∀ (m rest : Text) (prev : Option Char), runWord ++ f.after = m ++ rest →
          0 < m.length →
          c ∈ lineCallsFrom (p.byteLength + f.before.byteLength + m.byteLength) prev rest →
          c.StandsIn (p ++ s) := by
        intro m rest prev hm hpos hc
        have hrest := congrArg List.length hm
        simp only [List.length_append] at hrest
        have h := ih rest.length (by omega) (p ++ f.before ++ m) rest prev rfl c
        rw [Text.byteLength_append, Text.byteLength_append, List.append_assoc _ m, ← hm,
          ← hsplit] at h
        exact h hc
      simp only at hc
      split at hc
      · next form rest hread =>
        rcases List.mem_cons.mp hc with rfl | hc
        · have h := CallForm.standsIn hread (p ++ f.before)
          rwa [← hsplit, Text.byteLength_append] at h
        · exact next form.text rest _ (CallForm.eq_of_read? hread) form.length_text_pos hc
      · exact next runWord f.after _ rfl (by decide) hc

theorem standsIn_of_mem_lineCalls {line : Text} {c : Call} (h : c ∈ line.lineCalls) :
    c.StandsIn line :=
  lineCallsFrom_standsIn [] line none c h

theorem exists_of_mem_statements {body : Text} {st : Statement} (h : st ∈ body.statements) :
    ∃ p s, body = p ++ s ∧ statement? p.byteLength s = some st := by
  rw [Text.statements, statementsFrom_eq] at h
  obtain ⟨p, s, found, stop, rfl, htok, hst⟩ := exists_of_mem_tokensFrom h
  rw [Nat.zero_add, statementToken?] at htok
  split at htok
  · simp only [Option.map_eq_some_iff, Prod.mk.injEq] at htok
    obtain ⟨st', hst', rfl, -⟩ := htok
    cases List.mem_singleton.mp hst
    exact ⟨p, s, rfl, hst'⟩
  · cases htok

/-- **The calls of a body** stand in it. -/
theorem standsIn_of_mem_statements {body : Text} {c : Call} (h : .call c ∈ body.statements) :
    c.StandsIn body := by
  obtain ⟨p, s, rfl, hst⟩ := exists_of_mem_statements h
  simp only [statement?] at hst
  split at hst
  · next c' hc =>
    cases hst
    exact standsIn_of_call? p hc
  · simp at hst

theorem exists_of_arrow_mem_statements {body : Text} {chain : Chain}
    (h : .arrow chain ∈ body.statements) :
    ∃ (p s : Text) (head : ChainHead) (rest : Text), body = p ++ s ∧
      ChainHead.read? s = some (head, rest) ∧ chain = head.place p.byteLength := by
  obtain ⟨p, s, rfl, hst⟩ := exists_of_mem_statements h
  simp only [statement?] at hst
  split at hst
  · simp at hst
  · simp only [chain?, Option.map_eq_some_iff, Prod.exists, Statement.arrow.injEq] at hst
    obtain ⟨_, ⟨head, rest, hread, rfl⟩, rfl⟩ := hst
    exact ⟨p, s, head, rest, rfl, hread, rfl⟩

theorem map_fst_targets (offset : Nat) (steps : List ArrowStep) :
    (ChainHead.targets offset steps).map (·.1) = steps.map (·.target) := by
  induction steps generalizing offset with
  | nil => rfl
  | cons step steps ih => rw [ChainHead.targets, List.map_cons, ih, List.map_cons]

theorem isDottedPath_of_mem_endpoints {body : Text} {chain : Chain}
    (h : .arrow chain ∈ body.statements) : ∀ e ∈ chain.endpoints, IsDottedPath e.1 := by
  obtain ⟨p, s, head, rest, rfl, hread, rfl⟩ := exists_of_arrow_mem_statements h
  have hwritten := (ChainHead.eq_of_read? hread).2
  intro e he
  rcases List.mem_cons.mp he with rfl | he
  · exact hwritten.first
  · have hname := List.mem_map_of_mem (f := (·.1)) he
    rw [map_fst_targets] at hname
    obtain ⟨step, hstep, htarget⟩ := List.mem_map.mp hname
    exact htarget ▸ (hwritten.steps step hstep).target

theorem ChainHead.length_endpoints (h : ChainHead) (offset : Nat) :
    (h.endpoints offset).length = h.steps.length + 1 := by
  rw [← List.length_map (f := (·.1))]
  simp only [ChainHead.endpoints, List.map_cons, map_fst_targets, List.length_cons, List.length_map]

theorem two_le_length_endpoints {body : Text} {chain : Chain}
    (h : .arrow chain ∈ body.statements) : 2 ≤ chain.endpoints.length := by
  obtain ⟨p, s, head, rest, rfl, hread, rfl⟩ := exists_of_arrow_mem_statements h
  have hne : head.steps ≠ [] := by
    simp only [ChainHead.read?, Option.bind_eq_some_iff, Prod.exists] at hread
    obtain ⟨first, t, -, hread⟩ := hread
    split at hread
    · cases hread
    · next hsteps =>
      cases hread
      exact fun hnil => hsteps (List.isEmpty_iff.mpr hnil)
  have hlen : (head.place p.byteLength).endpoints.length = head.steps.length + 1 :=
    head.length_endpoints _
  have := List.length_pos_iff.mpr hne
  omega

/-! ### References -/

/-- A reference is a dotted path at its span in a text. -/
structure Reference.StandsIn (r : Reference) (args : Text) : Prop where
  isDottedPath : IsDottedPath r.path
  path : args.slice? r.span = some r.path

theorem Reference.StandsIn.root {r : Reference} {args : Text} (h : r.StandsIn args) :
    args.slice? r.rootSpan = some r.root := by
  obtain ⟨p, q, rfl, hp, hlen⟩ := Text.slice?_eq_some_iff.mp h.path
  have hsplit : r.path = r.root ++ r.path.dropWhile (· != '.') :=
    List.takeWhile_append_dropWhile.symm
  refine Text.slice?_eq_some_iff.mpr ⟨p, r.path.dropWhile (· != '.') ++ q, ?_, hp, by
    simp [Reference.rootSpan]⟩
  rw [← List.append_assoc r.root, ← hsplit]

/-- **The references of an argument text** stand in it. -/
theorem standsIn_of_mem_references {args : Text} {r : Reference} (h : r ∈ args.references) :
    r.StandsIn args := by
  rw [Text.references, referencesFrom_eq] at h
  obtain ⟨p, s, found, stop, rfl, htok, hr⟩ := exists_of_mem_tokensFrom h
  simp only [Nat.zero_add, referenceToken?, argumentToken?, Option.map_eq_some_iff,
    Prod.mk.injEq] at htok
  obtain ⟨token, htok, rfl, -⟩ := htok
  split at htok
  · cases htok
    simp at hr
  · simp only [Option.map_eq_some_iff, Prod.exists] at htok
    obtain ⟨path, rest, hpath, rfl⟩ := htok
    simp only at hr
    split at hr
    · cases List.mem_singleton.mp hr
      refine ⟨isDottedPath_of_path? hpath, ?_⟩
      rw [(eq_of_path? hpath).1]
      exact Text.slice?_append p path rest
    · simp at hr

end PipelineDoc
