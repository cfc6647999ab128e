import PipelineDoc.Proofs.Grammar.Chains
import PipelineDoc.Proofs.Lexical.Partners
import PipelineDoc.Proofs.Statement.LineCalls

/-!
# The recognizers of statements, by their grammars

A call is recognized at a place of a text exactly if a written call head stands there, and a chain
exactly if a written chain does. There is only one way to take a call head apart, and the call has
its parts; its parenthesis is closed by its partner. Of the chains that stand there the longest one
is taken. Main statement: `recognizers_by_grammar`.
-/

namespace PipelineDoc

/-! ### Calls -/

/-- A call at an offset of a text has the parts of a head, at the places where they stand. What its
parenthesis opens goes up to the partner of the parenthesis, if there is one. -/
structure Call.IsReadAs (c : Call) (t : Text) (offset : Nat) (h : CallHead) : Prop where
  start : c.start = offset
  binding : c.binding = h.binding.map fun b =>
    ⟨b.1.name, .ofLength (offset + (letWord ++ b.1.gap : Text).byteLength) b.1.name.byteLength⟩
  module : c.module = h.run.module
  moduleSpan : c.moduleSpan = .ofLength
    (offset + (h.front ++ (runWord ++ h.run.gap) : Text).byteLength) h.run.module.byteLength
  args : c.args = (t.closing? .paren (offset + h.stem.byteLength)).map
    fun close => .ofEnds (offset + h.text.byteLength) close
  stop : c.stop = (t.closing? .paren (offset + h.stem.byteLength)).elim
    (offset + h.text.byteLength) (· + 1)

theorem CallHead.byteLength_text (h : CallHead) : h.text.byteLength = h.stem.byteLength + 1 := by
  rw [h.text_eq, Text.byteLength_append]
  rfl

theorem closing?_paren (p r : Text) (h : CallHead) :
    (p ++ (h.text ++ r) : Text).closing? .paren (p.byteLength + h.stem.byteLength) =
      (Bracket.paren.inside? r).map fun x => p.byteLength + h.text.byteLength + x.1.byteLength := by
  have hclosing := Text.closing?_append (p ++ h.stem) r .paren
  rw [Text.byteLength_append] at hclosing
  rw [h.text_eq, List.append_assoc, List.singleton_append, ← List.append_assoc]
  refine hclosing.trans ?_
  congr 1
  funext x
  rw [← h.text_eq, h.byteLength_text]
  omega

/-- **The call that is read** has the parts of a written head. -/
theorem isReadAs_of_call? {p s : Text} {c : Call} (h : call? p.byteLength s = some c) :
    ∃ head : CallHead, head.IsWritten ∧ head.text <+: s ∧ c.IsReadAs (p ++ s) p.byteLength head := by
  simp only [call?, Option.map_eq_some_iff, Prod.exists] at h
  obtain ⟨f, rest, hread, rfl⟩ := h
  obtain ⟨r, rfl, hw, hinside, -⟩ := CallForm.exists_of_read? hread
  have hclosing := closing?_paren p r f.head
  rw [hinside, Option.map_map] at hclosing
  refine ⟨f.head, hw, List.prefix_append _ _, rfl, rfl, rfl, ?_, ?_, ?_⟩
  · simp only [CallForm.place, RunHead.moduleSpan, Text.byteLength_append, Nat.add_assoc]
  · rw [hclosing, Option.map_map]
    simp only [CallForm.place]
    congr 1
    funext inside
    ext
    · rfl
    · simp [Span.ofEnds]
  · rw [hclosing]
    cases hf : f.inside with
    | none => simp [CallForm.place, CallForm.text, hf]
    | some inside =>
      simp only [CallForm.place, f.byteLength_text hf, Option.map_some, Option.elim_some,
        Function.comp_apply]
      omega

theorem exists_call?_of_isWritten {head : CallHead} (hw : head.IsWritten) {s : Text}
    (hs : head.text <+: s) (offset : Nat) : (call? offset s).isSome := by
  obtain ⟨r, rfl⟩ := hs
  obtain ⟨f, rest, hread, -⟩ := CallForm.exists_read? (CallHead.read?_eq_some_iff.mpr ⟨rfl, hw⟩)
  rw [call?, hread]
  rfl

/-- **A written head is taken apart in one way.** -/
theorem CallHead.IsWritten.unique {h k : CallHead} (hh : h.IsWritten) (hk : k.IsWritten) {s : Text}
    (hs : h.text <+: s) (hs' : k.text <+: s) : h = k := by
  obtain ⟨r, rfl⟩ := hs
  obtain ⟨r', hr'⟩ := hs'
  have hread := CallHead.read?_eq_some_iff.mpr ⟨hr'.symm, hk⟩
  rw [CallHead.read?_eq_some_iff.mpr ⟨rfl, hh⟩, Option.some.injEq, Prod.mk.injEq] at hread
  exact hread.1

/-! ### Chains -/

/-- A chain at an offset has the paths of a head, at the places where they stand. -/
structure Chain.IsReadAs (c : Chain) (offset : Nat) (h : ChainHead) : Prop where
  start : c.start = offset
  stop : c.stop = offset + h.text.byteLength
  length : c.endpoints.length = h.steps.length + 1
  first : c.endpoints[0]? = some (h.first, .ofLength offset h.first.byteLength)
  target : ∀ before step after, h.steps = before ++ step :: after →
    c.endpoints[before.length + 1]? = some (step.target, .ofLength
      (offset + Text.byteLength (h.first ++ (before.flatMap ArrowStep.text ++ step.front)))
      step.target.byteLength)

theorem getElem?_targets (offset : Nat) (before : List ArrowStep) (step : ArrowStep)
    (after : List ArrowStep) :
    (ChainHead.targets offset (before ++ step :: after))[before.length]? = some (step.target, .ofLength
      (offset + Text.byteLength (before.flatMap ArrowStep.text ++ step.front))
      step.target.byteLength) := by
  induction before generalizing offset with
  | nil => rfl
  | cons s before ih =>
    rw [List.cons_append, ChainHead.targets, List.length_cons, List.getElem?_cons_succ, ih,
      List.flatMap_cons, List.append_assoc, Text.byteLength_append s.text, Nat.add_assoc]

theorem ChainHead.isReadAs_place (h : ChainHead) (offset : Nat) :
    (h.place offset).IsReadAs offset h := by
  refine ⟨rfl, rfl, h.length_endpoints offset, rfl, fun before step after hsteps => ?_⟩
  simp only [ChainHead.place, ChainHead.endpoints, List.getElem?_cons_succ, hsteps, getElem?_targets,
    Text.byteLength_append, Nat.add_assoc]

theorem isReadAs_of_chain? {offset : Nat} {s : Text} {c : Chain} (h : chain? offset s = some c) :
    ∃ head : ChainHead, head.IsLongest s ∧ c.IsReadAs offset head := by
  simp only [chain?, Option.map_eq_some_iff, Prod.exists] at h
  obtain ⟨head, rest, hread, rfl⟩ := h
  exact ⟨head, (ChainHead.read?_eq_some_iff.mp hread).2, head.isReadAs_place offset⟩

theorem exists_chain?_of_isWritten {head : ChainHead} (hw : head.IsWritten) {s : Text}
    (hs : head.text <+: s) (offset : Nat) : (chain? offset s).isSome := by
  obtain ⟨r, rfl⟩ := hs
  obtain ⟨k, rest, hread, -⟩ := hw.exists_read? r
  rw [chain?, hread]
  rfl

/-! ### Both -/

theorem Text.readCall_append (p s : Text) :
    (p ++ s).readCall p.byteLength = .ok (call? p.byteLength s) := by
  simp only [Text.readCall, Text.splitAt, Text.splitAt?_append]
  rfl

theorem Text.readChain_append (p s : Text) :
    (p ++ s).readChain p.byteLength = .ok (chain? p.byteLength s) := by
  simp only [Text.readChain, Text.splitAt, Text.splitAt?_append]
  rfl

/-- **The recognizers accept their grammars.** At a boundary of a text a call is read if and only if
a written call head stands there; the head is the only one, and the call has its parts. A chain is
read if and only if a written chain stands there; it is the longest one, and its last path is as
long as it can be. -/
theorem Text.recognizers_by_grammar (p s : Text) :
    (∃ r, (p ++ s).readCall p.byteLength = .ok r ∧
      (r.isSome ↔ ∃ h : CallHead, h.IsWritten ∧ h.text <+: s) ∧
      ∀ c, r = some c → ∃ h : CallHead, h.IsWritten ∧ h.text <+: s ∧
        c.IsReadAs (p ++ s) p.byteLength h ∧
        ∀ k : CallHead, k.IsWritten → k.text <+: s → k = h) ∧
    ∃ r, (p ++ s).readChain p.byteLength = .ok r ∧
      (r.isSome ↔ ∃ h : ChainHead, h.IsWritten ∧ h.text <+: s) ∧
      ∀ c, r = some c → ∃ h : ChainHead, h.IsLongest s ∧ c.IsReadAs p.byteLength h ∧
        ∃ steps last, h.steps = steps ++ [last] ∧ ∀ path, IsDottedPath path →
          h.first ++ (steps.flatMap ArrowStep.text ++ (last.front ++ path)) <+: s →
          path <+: last.target := by
  refine ⟨⟨_, Text.readCall_append p s, ⟨fun hsome => ?_, ?_⟩, fun c hc => ?_⟩,
    _, Text.readChain_append p s, ⟨fun hsome => ?_, ?_⟩, fun c hc => ?_⟩
  · obtain ⟨c, hc⟩ := Option.isSome_iff_exists.mp hsome
    obtain ⟨h, hw, hs, -⟩ := isReadAs_of_call? hc
    exact ⟨h, hw, hs⟩
  · rintro ⟨h, hw, hs⟩
    exact exists_call?_of_isWritten hw hs _
  · obtain ⟨h, hw, hs, hread⟩ := isReadAs_of_call? hc
    exact ⟨h, hw, hs, hread, fun k hk hks => hk.unique hw hks hs⟩
  · obtain ⟨c, hc⟩ := Option.isSome_iff_exists.mp hsome
    obtain ⟨h, hh, -⟩ := isReadAs_of_chain? hc
    exact ⟨h, hh.isWritten, hh.text⟩
  · rintro ⟨h, hw, hs⟩
    exact exists_chain?_of_isWritten hw hs _
  · obtain ⟨h, hh, hread⟩ := isReadAs_of_chain? hc
    have hsteps := (List.dropLast_append_getLast hh.isWritten.steps_ne_nil).symm
    exact ⟨h, hh, hread, _, _, hsteps, fun path hpath htext => hh.last hsteps hpath htext⟩

/-- After `é ` the call `let v = run m.n(x(é))` is read with the head that stands there, and up to
the second parenthesis. The chain `a.b -> c→d.e` is the longest one before a dot that no word
follows. -/
theorem Text.recognizers_by_grammar_wide :
    (∃ c : Call, Text.readCall "é let v = run m.n(x(é))".toList 3 = .ok (some c) ∧ c.stop = 25 ∧
      ∃ h : CallHead, h.IsWritten ∧ h.text <+: "let v = run m.n(x(é))".toList ∧
        c.IsReadAs "é let v = run m.n(x(é))".toList 3 h) ∧
    ∃ c : Chain, Text.readChain "a.b -> c→d.e.".toList 0 = .ok (some c) ∧ c.stop = 14 ∧
      ∃ h : ChainHead, h.IsLongest "a.b -> c→d.e.".toList ∧ c.IsReadAs 0 h := by
  have htext : "é ".toList ++ "let v = run m.n(x(é))".toList = "é let v = run m.n(x(é))".toList := by
    decide +kernel
  have hlen : Text.byteLength "é ".toList = 3 := by decide +kernel
  have hgrammar := Text.recognizers_by_grammar "é ".toList "let v = run m.n(x(é))".toList
  rw [htext, hlen] at hgrammar
  obtain ⟨⟨r, hr, -, hcall⟩, -⟩ := hgrammar
  obtain ⟨-, r', hr', -, hchain⟩ := Text.recognizers_by_grammar [] "a.b -> c→d.e.".toList
  have hstop : r.map Call.stop = some 25 := by
    have := congrArg (fun x => x.toOption.bind fun r => r.map Call.stop) hr
    exact this.symm.trans (by decide +kernel)
  have hstop' : r'.map Chain.stop = some 14 := by
    have := congrArg (fun x => x.toOption.bind fun r => r.map Chain.stop) hr'
    exact this.symm.trans (by decide +kernel)
  obtain ⟨c, rfl, -⟩ := Option.map_eq_some_iff.mp hstop
  obtain ⟨c', rfl, -⟩ := Option.map_eq_some_iff.mp hstop'
  obtain ⟨h, hw, hs, hread, -⟩ := hcall c rfl
  obtain ⟨h', hlongest, hread', -⟩ := hchain c' rfl
  exact ⟨⟨c, hr, Option.some.inj hstop, h, hw, hs, hread⟩, c', hr', Option.some.inj hstop', h', hlongest,
    hread'⟩

end PipelineDoc
