import PipelineDoc.Proofs.Statement.Order
import PipelineDoc.Proofs.Statement.Recognizers

/-!
# The extents of statements

The statements of a body cover disjoint parts of it, one after the other. Each starts in code, at a
word that continues neither a word nor a path, and its parts stand at their spans: a chain is code
all along, a call up to its opening parenthesis and at its closing one. None is missed: where a call
or a chain can be read at such a word, it is a statement, or it starts inside one. Main statement:
`statements_extents`.
-/

namespace PipelineDoc

/-- All bytes from `start` up to `stop` are code. -/
def Text.CodeBetween (t : Text) (start stop : Nat) : Prop :=
  ∀ i, start ≤ i → i < stop → t.byteLabels[i]? = some .code

/-- At an offset of a text a word starts in code that is glued neither to a word nor to a dot. -/
def Text.StartsWord (t : Text) (i : Nat) : Prop :=
  t.byteLabels[i]? = some .code ∧ ∃ (p : Text) (c : Char) (s : Text), t = p ++ c :: s ∧
    p.byteLength = i ∧ isWordStart c ∧ ∀ d ∈ p.getLast?, isWordChar d = false ∧ d ≠ '.'

/-- The parts of a call stand in a text at their spans, its parenthesis at `opening`. -/
structure Call.PlacedIn (c : Call) (t : Text) (opening : Nat) : Prop where
  binding : ∀ b ∈ c.binding, t.slice? b.span = some b.name
  module : t.slice? c.moduleSpan = some c.module
  opener : t.slice? (.ofLength opening 1) = some ['(']
  code : t.CodeBetween c.start (opening + 1)
  args : c.args = (t.closing? .paren opening).map fun close => .ofEnds (opening + 1) close
  stop : c.stop = (t.closing? .paren opening).elim (opening + 1) (· + 1)
  closer : ∀ close ∈ t.closing? .paren opening,
    t.slice? (.ofLength close 1) = some [')'] ∧ t.byteLabels[close]? = some .code

/-- The endpoints of a chain stand in a text at their spans, and all of the chain is code. -/
structure Chain.PlacedIn (c : Chain) (t : Text) : Prop where
  endpoints : ∀ e ∈ c.endpoints, t.slice? e.2 = some e.1
  code : t.CodeBetween c.start c.stop

/-- The parts of a statement stand in a text at their spans. -/
def Statement.PlacedIn (t : Text) : Statement → Prop
  | .call c => ∃ opening, c.PlacedIn t opening
  | .arrow c => c.PlacedIn t

/-! ### Words -/

theorem startsWord_append {p s : Text} : (p ++ s : Text).StartsWord p.byteLength ↔
    Mode.code.CodeAfter p s ∧ s.head?.any (startsStatement p.getLast?) := by
  rw [Text.StartsWord, Text.byteLabels_eq_code_iff]
  refine and_congr_right fun hcode => ?_
  cases s with
  | nil => exact hcode.elim
  | cons c s =>
    have hstarts : startsStatement p.getLast? c = true ↔
        isWordStart c ∧ ∀ d ∈ p.getLast?, isWordChar d = false ∧ d ≠ '.' := by
      cases p.getLast? <;> simp [startsStatement]
    constructor
    · rintro ⟨q, d, r, heq, hlen, hword⟩
      have hsplit := Text.splitAt?_append p (c :: s)
      rw [heq, ← hlen, Text.splitAt?_append] at hsplit
      cases hsplit
      exact hstarts.mpr hword
    · intro h
      exact ⟨p, c, s, rfl, rfl, hstarts.mp h⟩

/-! ### Calls -/

theorem codeBetween_inert {p w s : Text} (hcode : Mode.code.CodeAfter p (w ++ s))
    (hw : ∀ c ∈ w, isInert c = true) :
    (p ++ (w ++ s) : Text).CodeBetween p.byteLength (p.byteLength + w.byteLength) := by
  intro i hi hi'
  rw [Text.byteLabels_eq]
  exact hcode.getElem?_byteLabels hw hi hi'

theorem closer_paren {p r : Text} {h : CallHead} (hw : h.IsWritten)
    (hcode : Mode.code.CodeAfter p (h.text ++ r)) :
    ∀ close ∈ (p ++ (h.text ++ r) : Text).closing? .paren (p.byteLength + h.stem.byteLength),
      (p ++ (h.text ++ r) : Text).slice? (.ofLength close 1) = some [')'] ∧
        (p ++ (h.text ++ r) : Text).byteLabels[close]? = some .code := by
  intro close hclose
  rw [closing?_paren, Option.mem_def, Option.map_eq_some_iff] at hclose
  obtain ⟨⟨inside, rest⟩, hinside, rfl⟩ := hclose
  have hclosed := Bracket.closes_of_inside? hinside
  rw [Bracket.eq_of_inside? hinside] at hcode ⊢
  -- a reader is in code after the head, as one that starts anew behind the parenthesis
  have hrun := hcode.run_append hw.isInert (by simp [h.text_eq])
  have hafter : Mode.code.CodeAfter (p ++ h.text ++ inside) (Bracket.paren.closer :: rest) :=
    (Mode.codeAfter_restart hrun).mpr hclosed.code
  have hslice := Text.slice?_append (p ++ h.text ++ inside) [')'] rest
  have hlabel := Text.byteLabels_eq_code_iff.mpr hafter
  simp only [Text.byteLength_append, List.append_assoc, Nat.add_assoc] at hslice hlabel ⊢
  exact ⟨hslice, hlabel⟩

theorem placedIn_of_call? {p s : Text} {c : Call} (hcode : Mode.code.CodeAfter p s)
    (h : call? p.byteLength s = some c) : ∃ opening, c.PlacedIn (p ++ s) opening := by
  obtain ⟨head, hw, ⟨r, rfl⟩, hread⟩ := isReadAs_of_call? h
  have hargs := hread.args
  have hstop := hread.stop
  rw [head.byteLength_text, ← Nat.add_assoc] at hargs hstop
  refine ⟨p.byteLength + head.stem.byteLength, ?_, (standsIn_of_call? p h).module, ?_, ?_, hargs, hstop,
    closer_paren hw hcode⟩
  · intro b hb
    rw [hread.binding, Option.mem_def, Option.map_eq_some_iff] at hb
    obtain ⟨⟨l, pad⟩, hbinding, rfl⟩ := hb
    have hslice := Text.slice?_append (p ++ (letWord ++ l.gap)) l.name
      (l.pad ++ (['='] ++ (pad ++ (head.run.text ++ r))))
    simp only [CallHead.text, CallHead.front, hbinding, LetHead.text, List.append_assoc,
      Text.byteLength_append] at hslice ⊢
    exact hslice
  · have hslice := Text.slice?_append (p ++ head.stem) ['('] r
    simp only [head.text_eq, List.append_assoc, Text.byteLength_append] at hslice ⊢
    exact hslice
  · rw [hread.start, Nat.add_assoc, ← head.byteLength_text]
    exact codeBetween_inert hcode hw.isInert

/-! ### Chains -/

theorem slice?_targets (p : Text) (steps : List ArrowStep) (rest : Text) :
    ∀ e ∈ ChainHead.targets p.byteLength steps,
      (p ++ (steps.flatMap ArrowStep.text ++ rest) : Text).slice? e.2 = some e.1 := by
  induction steps generalizing p with
  | nil => exact fun e he => absurd he List.not_mem_nil
  | cons s steps ih =>
    intro e he
    rw [List.flatMap_cons, List.append_assoc]
    rcases List.mem_cons.mp he with rfl | he
    · have hslice := Text.slice?_append (p ++ s.front) s.target (steps.flatMap ArrowStep.text ++ rest)
      rw [Text.byteLength_append] at hslice
      rwa [ArrowStep.text, List.append_assoc s.front, ← List.append_assoc p]
    · rw [← Text.byteLength_append] at he
      rw [← List.append_assoc]
      exact ih (p ++ s.text) e he

theorem placedIn_of_chain? {p s : Text} {c : Chain} (hcode : Mode.code.CodeAfter p s)
    (h : chain? p.byteLength s = some c) : c.PlacedIn (p ++ s) := by
  simp only [chain?, Option.map_eq_some_iff, Prod.exists] at h
  obtain ⟨head, rest, hread, rfl⟩ := h
  obtain ⟨rfl, hlongest⟩ := ChainHead.read?_eq_some_iff.mp hread
  refine ⟨fun e he => ?_, codeBetween_inert hcode hlongest.isWritten.isInert⟩
  rw [ChainHead.text, List.append_assoc]
  rcases List.mem_cons.mp he with rfl | he
  · exact Text.slice?_append p head.first _
  · rw [← Text.byteLength_append] at he
    rw [← List.append_assoc]
    exact slice?_targets (p ++ head.first) head.steps rest e he

theorem call?_eq_none_of_chain? {offset : Nat} {s : Text} {c : Chain} (h : chain? offset s = some c) :
    call? offset s = none := by
  refine Option.eq_none_iff_forall_ne_some.mpr fun d hd => ?_
  simp only [call?, Option.map_eq_some_iff, Prod.exists] at hd
  obtain ⟨f, rest, hread, -⟩ := hd
  obtain ⟨r, rfl, hw, -⟩ := CallForm.exists_of_read? hread
  rw [chain?, hw.read?_chain r] at h
  cases h

/-! ### Statements -/

theorem placedIn_of_statement? {p s : Text} {st : Statement} (hcode : Mode.code.CodeAfter p s)
    (h : statement? p.byteLength s = some st) : st.PlacedIn (p ++ s) := by
  simp only [statement?] at h
  split at h
  · next c hc =>
    cases h
    exact placedIn_of_call? hcode hc
  · simp only [Option.map_eq_some_iff] at h
    obtain ⟨c, hc, rfl⟩ := h
    exact placedIn_of_chain? hcode hc

/-- **The extents of statements.** They are disjoint and in order, and lie in the body. Each
statement starts at a word in code and has its parts at their spans. Where a call or a chain can be
read at a word in code, it is a statement of the body, or the word lies inside one. -/
theorem Text.statements_extents (body : Text) :
    body.statements.Pairwise (fun st u => st.stop ≤ u.start) ∧
    (∀ st ∈ body.statements, st.start < st.stop ∧ st.stop ≤ body.byteLength ∧
      body.StartsWord st.start ∧ st.PlacedIn body) ∧
    ∀ i, body.StartsWord i → ∀ st : Statement,
      (∃ c, body.readCall i = .ok (some c) ∧ st = .call c) ∨
        (∃ c, body.readChain i = .ok (some c) ∧ st = .arrow c) →
      st ∈ body.statements ∨ ∃ u ∈ body.statements, u.start < i ∧ i < u.stop := by
  refine ⟨body.pairwise_statements, fun st hst => ?_, fun i hi st hread => ?_⟩
  · obtain ⟨p, s, rfl, hcode, htok⟩ := exists_code_of_mem_statements hst
    obtain ⟨st', hst', hfound, -, hstarts⟩ := exists_of_statementToken? htok
    cases hfound
    have hstart := start_of_statement? hst'
    obtain ⟨m, rest, rfl, hne, hstop⟩ := takes_statementToken? htok
    have hpos := Text.byteLength_pos hne
    rw [hstart, hstop, Text.byteLength_append, Text.byteLength_append]
    exact ⟨by omega, by omega, startsWord_append.mpr ⟨hcode, hstarts⟩,
      placedIn_of_statement? hcode hst'⟩
  · obtain ⟨-, p, c, s, rfl, rfl, -⟩ := id hi
    obtain ⟨hcode, hstarts⟩ := startsWord_append.mp hi
    refine statement_mem_or hcode hstarts ?_
    rw [Text.readCall_append, Text.readChain_append] at hread
    rcases hread with ⟨call, hcall, rfl⟩ | ⟨chain, hchain, rfl⟩
    · rw [statement?, Except.ok.inj hcall]
    · rw [statement?, call?_eq_none_of_chain? (Except.ok.inj hchain), Except.ok.inj hchain]
      rfl

/-- In `let é = run m(run k(x)) a→é.b` the call and the chain are statements. The call inside the
arguments can be read as well, at a word that lies inside the first statement. -/
theorem Text.statements_extents_nested :
    let body := "let é = run m(run k(x)) a→é.b".toList
    (Text.statements body).map (fun st => (st.start, st.stop)) = [(0, 24), (25, 33)] ∧
      (∀ st ∈ Text.statements body, Text.StartsWord body st.start ∧ st.PlacedIn body) ∧
      Text.StartsWord body 15 ∧ (Text.readCall body 15).toOption.join.isSome ∧
      ∃ u ∈ Text.statements body, u.start < 15 ∧ 15 < u.stop := by
  intro body
  have hspans : (Text.statements body).map (fun st => (st.start, st.stop)) = [(0, 24), (25, 33)] := by
    decide +kernel
  have hword : Text.StartsWord body 15 := by
    have hlast : "let é = run m(".toList.getLast? = some '(' := by decide +kernel
    refine ⟨by decide +kernel, "let é = run m(".toList, 'r', "un k(x)) a→é.b".toList,
      by decide +kernel, by decide +kernel, by decide +kernel, ?_⟩
    rw [hlast]
    rintro d ⟨⟩
    decide +kernel
  have hread : (Text.readCall body 15).toOption.join.isSome := by decide +kernel
  obtain ⟨-, hplaced, hcomplete⟩ := Text.statements_extents body
  refine ⟨hspans, fun st hst => (hplaced st hst).2.2, hword, hread, ?_⟩
  obtain ⟨c, hc⟩ := Option.isSome_iff_exists.mp hread
  have hcall : Text.readCall body 15 = .ok (some c) := by
    cases h : Text.readCall body 15 with
    | error e => rw [h] at hc; cases hc
    | ok r => rw [h] at hc; exact congrArg Except.ok hc
  rcases hcomplete 15 hword (.call c) (Or.inl ⟨c, hcall, rfl⟩) with hmem | hin
  · have hnew : (Text.readCall body 15).toOption.join.all
        fun c => !(Text.statements body).contains (.call c) := by decide +kernel
    rw [hc] at hnew
    simp [hmem] at hnew
  · exact hin

end PipelineDoc
