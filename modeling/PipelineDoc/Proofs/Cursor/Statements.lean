import PipelineDoc.Proofs.Cursor.Scan
import PipelineDoc.Proofs.Lexical.Tokens

/-!
# Statements and references by offsets

Calls, chains and bindings are recognized in the text cut off at an offset, and their parts are
placed by moving spans of that text. The statements of a body and the references of an argument text
are collected by a loop that jumps past what it has found; its rounds are bounded by the number of
bytes that are left.
-/

namespace PipelineDoc.Cursor

/-! ### Calls and chains -/

/-- The call that starts at an offset. -/
def callAt? (t : Text) (pos : Nat) : Read (Option Call) := do
  let rest ← cutFrom t pos
  match CallHead.read? rest with
  | none => return none
  | some (head, after) =>
    let consumed ← minus rest.byteLength after.byteLength
    let opening ← minus (pos + consumed) 1
    let closing ← closing? t .paren opening
    return some
      { start := pos
        binding := head.binding.map fun (h, _) => ⟨h.name, (h.nameSpan 0).shift pos⟩
        module := head.run.module
        moduleSpan := (head.run.moduleSpan head.front.byteLength).shift pos
        args := closing.map fun closing => .ofEnds (opening + 1) closing
        stop := closing.getD opening + 1 }

/-- The chain that starts at an offset. -/
def chainAt? (t : Text) (pos : Nat) : Read (Option Chain) := do
  let rest ← cutFrom t pos
  match ChainHead.read? rest with
  | none => return none
  | some (head, after) =>
    let consumed ← minus rest.byteLength after.byteLength
    return some
      { start := pos
        endpoints := (head.endpoints 0).map fun (path, span) => (path, span.shift pos)
        stop := pos + consumed }

/-- The statement that starts at an offset. A call is tried first. -/
def statementAt? (t : Text) (pos : Nat) : Read (Option Statement) := do
  match ← callAt? t pos with
  | some call => return some (.call call)
  | none => return (← chainAt? t pos).map .arrow

/-- The binding at the start of a line, after its indentation. -/
def binding? (line : Text) : Read (Option Binding) := do
  let indent ← minus line.byteLength line.trimStart.byteLength
  let rest ← cutFrom line indent
  return (LetHead.read? rest).map fun (h, _) => ⟨h.name, (h.nameSpan 0).shift indent⟩

/-- A call head ends with its parenthesis. -/
theorem exists_callHead_text (h : CallHead) : ∃ front, h.text = front ++ [Bracket.paren.opener] :=
  ⟨h.front ++ (runWord ++ (h.run.gap ++ (h.run.module ++ h.run.pad))),
    by simp [CallHead.text, RunHead.text, Bracket.opener]⟩

theorem callAt?_eq (p s : Text) : callAt? (p ++ s) p.byteLength = .ok (call? p.byteLength s) := by
  rw [callAt?, cutFrom_append, ok_bind, call?, CallForm.read?]
  cases hread : CallHead.read? s with
  | none => rfl
  | some r =>
    obtain ⟨head, after⟩ := r
    have hs := CallHead.eq_of_read? hread
    obtain ⟨front, hfront⟩ := exists_callHead_text head
    have hlen : head.text.byteLength = front.byteLength + 1 := by
      rw [hfront, Text.byteLength_append]
      rfl
    have hsum : s.byteLength = head.text.byteLength + after.byteLength := by
      rw [hs, Text.byteLength_append]
    -- the parenthesis stands between the front of the head and what follows
    have hclose := closing?_eq .paren (p ++ front) after
    rw [show (p ++ front) ++ Bracket.paren.opener :: after = p ++ s by rw [hs, hfront]; simp,
      Text.byteLength_append] at hclose
    simp only
    rw [minus_eq (by omega), ok_bind, minus_eq (by omega), ok_bind,
      show p.byteLength + (s.byteLength - after.byteLength) - 1 = p.byteLength + front.byteLength by
        omega, hclose, ok_bind]
    cases hin : Bracket.paren.inside? after with
    | none =>
      simp only [hin, Option.map_none, Option.map_some, Option.getD_none, CallForm.place, CallForm.text,
        LetHead.nameSpan, RunHead.moduleSpan, Span.shift_ofLength, hlen]
      simp [pure_eq, Nat.add_assoc]
    | some r =>
      obtain ⟨inside, rest⟩ := r
      have hstop : (head.text ++ (inside ++ [Bracket.paren.closer]) : Text).byteLength =
          front.byteLength + 1 + inside.byteLength + 1 := by
        rw [Text.byteLength_append, Text.byteLength_append, hlen]
        simp only [Nat.add_assoc]
        rfl
      simp only [hin, Option.map_some, Option.getD_some, CallForm.place, CallForm.text,
        LetHead.nameSpan, RunHead.moduleSpan, Span.shift_ofLength, Span.ofEnds_add, hstop, hlen]
      simp [pure_eq, Nat.add_assoc]

theorem targets_shift (steps : List ArrowStep) (offset amount : Nat) :
    (ChainHead.targets offset steps).map (fun r => (r.1, r.2.shift amount)) =
      ChainHead.targets (amount + offset) steps := by
  induction steps generalizing offset with
  | nil => rfl
  | cons s steps ih => simp [ChainHead.targets, ih, Span.shift_ofLength, Nat.add_assoc]

theorem chainAt?_eq (p s : Text) :
    chainAt? (p ++ s) p.byteLength = .ok (chain? p.byteLength s) := by
  rw [chainAt?, cutFrom_append, ok_bind, chain?]
  cases hread : ChainHead.read? s with
  | none => rfl
  | some r =>
    obtain ⟨head, after⟩ := r
    have hs := (ChainHead.eq_of_read? hread).1
    have hsum : s.byteLength = head.text.byteLength + after.byteLength := by
      rw [hs, Text.byteLength_append]
    have hstop : s.byteLength - after.byteLength = head.text.byteLength := by omega
    simp only
    rw [minus_eq (by omega), ok_bind, hstop]
    have htargets := targets_shift head.steps head.first.byteLength p.byteLength
    simp only [ChainHead.endpoints, List.map_cons, Nat.zero_add, Option.map_some, ChainHead.place,
      htargets, Span.shift_ofLength, Nat.add_zero]
    rfl

theorem statementAt?_eq (p s : Text) :
    statementAt? (p ++ s) p.byteLength = .ok (statement? p.byteLength s) := by
  rw [statementAt?, callAt?_eq, ok_bind, statement?]
  cases call? p.byteLength s with
  | some call => rfl
  | none => simp only [chainAt?_eq, ok_bind, pure_eq]

theorem binding?_eq (line : Text) : binding? line = .ok line.binding? := by
  have h := Text.byteLength_takeWhile_add_dropWhile isWhite line
  have hsplit : line = line.takeWhile isWhite ++ line.trimStart :=
    List.takeWhile_append_dropWhile.symm
  have hcut := cutFrom_append (line.takeWhile isWhite) line.trimStart
  rw [← hsplit, Text.trimStart] at hcut
  have hindent : line.byteLength - Text.byteLength (line.dropWhile isWhite) =
      Text.byteLength (line.takeWhile isWhite) := by omega
  rw [binding?, Text.binding?, Text.trimStart, minus_eq (by omega), ok_bind, hindent, hcut, ok_bind]
  simp only [LetHead.nameSpan, Span.shift_ofLength, Nat.zero_add]
  rfl

/-! ### The calls of a line -/

/-- The calls of a line from an offset on, in a bounded number of rounds. -/
def lineCallsFrom (line : Text) : (rounds : Nat) → (start : Nat) → Read (List Call)
  | 0, _ => .error .endless
  | rounds + 1, start => do
    match ← findWord? (fun () => runWord) [()] line start with
    | none => return []
    | some (pos, _) =>
      let next := pos + runWord.byteLength
      match ← callAt? line pos with
      | some call => return call :: (← lineCallsFrom line rounds (max next call.stop))
      | none => lineCallsFrom line rounds next

/-- The calls of a line. -/
def lineCalls (line : Text) : Read (List Call) := lineCallsFrom line (line.byteLength + 1) 0

theorem byteLength_runWord_le (f : CallForm) : runWord.byteLength ≤ f.text.byteLength := by
  have h : runWord.byteLength ≤ f.head.text.byteLength := by
    simp only [CallHead.text, RunHead.text, Text.byteLength_append]
    omega
  unfold CallForm.text
  split
  · rw [Text.byteLength_append]
    omega
  · exact h

theorem lineCallsFrom_unfold (offset : Nat) (prev : Option Char) (t : Text) :
    PipelineDoc.lineCallsFrom offset prev t =
      match PipelineDoc.findWord? (fun () => runWord) [()] prev .code t with
      | none => []
      | some f =>
        match CallForm.read? (runWord ++ f.after) with
        | some (form, rest) =>
          form.place (offset + f.before.byteLength) ::
            PipelineDoc.lineCallsFrom (offset + f.before.byteLength + form.text.byteLength)
              form.text.getLast? rest
        | none => PipelineDoc.lineCallsFrom (offset + f.before.byteLength + runWord.byteLength)
            runWord.getLast? f.after := by
  rw [PipelineDoc.lineCallsFrom]
  split
  · next h => rw [h]
  · next f h =>
    rw [h]
    simp only
    split
    · next form rest hread => rw [hread]
    · next hread => rw [hread]

theorem lineCallsFrom_eq (p s : Text) {rounds : Nat} (h : s.byteLength < rounds) :
    lineCallsFrom (p ++ s) rounds p.byteLength =
      .ok (PipelineDoc.lineCallsFrom p.byteLength p.getLast? s) := by
  induction rounds generalizing p s with
  | zero => omega
  | succ rounds ih =>
    rw [lineCallsFrom, findWord?_eq (by decide), ok_bind, lineCallsFrom_unfold]
    cases hfind : PipelineDoc.findWord? (fun () => runWord) [()] p.getLast? .code s with
    | none => rfl
    | some f =>
      have hs := eq_of_findWord? hfind
      have hrun : 0 < runWord.byteLength := by decide
      have hsplit : p ++ s = (p ++ f.before) ++ (runWord ++ f.after) := by rw [hs]; simp
      have hlen : (p ++ f.before : Text).byteLength = p.byteLength + f.before.byteLength :=
        Text.byteLength_append _ _
      have hsum := congrArg Text.byteLength hs
      simp only [Text.byteLength_append] at hsum
      -- both readings go on after the same part of the text
      have next : ∀ m rest : Text, runWord ++ f.after = m ++ rest → m ≠ [] →
          runWord.byteLength ≤ m.byteLength →
          lineCallsFrom (p ++ s) rounds (p.byteLength + f.before.byteLength + m.byteLength) =
            .ok (PipelineDoc.lineCallsFrom (p.byteLength + f.before.byteLength + m.byteLength)
              m.getLast? rest) := by
        intro m rest hm hne hle
        have hrest := congrArg Text.byteLength hm
        simp only [Text.byteLength_append] at hrest
        have h := ih (p ++ f.before ++ m) rest (by omega)
        rwa [getLast?_append_of_ne_nil _ hne, List.append_assoc _ m rest, ← hm, ← hsplit,
          Text.byteLength_append, hlen] at h
      have hcall := callAt?_eq (p ++ f.before) (runWord ++ f.after)
      rw [← hsplit, hlen, call?] at hcall
      simp only [Option.map_some]
      rw [hcall, ok_bind]
      cases hread : CallForm.read? (runWord ++ f.after) with
      | none => exact next runWord f.after rfl (by decide) (Nat.le_refl _)
      | some r =>
        obtain ⟨form, rest⟩ := r
        have hle := byteLength_runWord_le form
        have hmax : max (p.byteLength + f.before.byteLength + runWord.byteLength)
            (form.place (p.byteLength + f.before.byteLength)).stop =
              p.byteLength + f.before.byteLength + form.text.byteLength := by
          show max _ (p.byteLength + f.before.byteLength + form.text.byteLength) = _
          omega
        simp only [Option.map_some]
        rw [hmax, next form.text rest (CallForm.eq_of_read? hread)
          (List.length_pos_iff.mp form.length_text_pos) hle]
        rfl

theorem lineCalls_eq (line : Text) : lineCalls line = .ok line.lineCalls :=
  lineCallsFrom_eq [] line (Nat.lt_succ_self _)

/-! ### The statements of a body -/

/-- Whether a word starts at an offset that continues neither a word nor a path. -/
def startsWord (t : Text) (pos : Nat) : Read Bool :=
  if isBoundary t pos then do
    let rest ← cutFrom t pos
    let front ← cutTo t pos
    return rest.head?.any isWordStart && front.getLast?.all fun c => !isWordChar c && c != '.'
  else return false

/-- The statement that the loop over a body finds at an offset. -/
def statementHere? (body : Text) (labels : List Label) (pos : Nat) : Read (Option Statement) := do
  if (← fetch labels pos) = .code then
    if ← startsWord body pos then statementAt? body pos else return none
  else return none

/-- The statements of a body from an offset on, in a bounded number of rounds. Where there is none,
the loop goes on at the next byte. -/
def statementsFrom (body : Text) (labels : List Label) :
    (rounds : Nat) → (pos : Nat) → Read (List Statement)
  | 0, _ => .error .endless
  | rounds + 1, pos =>
    if body.byteLength ≤ pos then return []
    else do
      match ← statementHere? body labels pos with
      | some s => return s :: (← statementsFrom body labels rounds s.stop)
      | none => statementsFrom body labels rounds (pos + 1)

/-- The statements of a body. -/
def statements (body : Text) : Read (List Statement) := do
  statementsFrom body (← labels body) (body.byteLength + 1) 0

theorem fetch_byteLabels (p cs : Text) {c : Char} {k : Nat} (hk : k < c.utf8Size) :
    fetch (p ++ c :: cs : Text).byteLabels (p.byteLength + k) =
      .ok ((Mode.code.run p (some c)).step c cs.head?).1 :=
  fetch_eq (Mode.getElem?_byteLabels .code p cs c hk)

theorem startsWord_eq (p cs : Text) (c : Char) :
    startsWord (p ++ c :: cs) p.byteLength = .ok (startsStatement p.getLast? c) := by
  rw [startsWord, if_pos (isBoundary_append _ _), cutFrom_append, ok_bind, cutTo_append, ok_bind]
  rfl

theorem statementHere?_eq (p cs : Text) (c : Char) :
    statementHere? (p ++ c :: cs) (p ++ c :: cs : Text).byteLabels p.byteLength =
      .ok (if ((Mode.code.run p (some c)).step c cs.head?).1 = .code ∧
          startsStatement p.getLast? c then statement? p.byteLength (c :: cs) else none) := by
  have hlabel := fetch_byteLabels p cs (Char.utf8Size_pos c)
  rw [Nat.add_zero] at hlabel
  rw [statementHere?, hlabel, ok_bind, startsWord_eq, ok_bind, statementAt?_eq]
  by_cases hl : ((Mode.code.run p (some c)).step c cs.head?).1 = .code
  · by_cases hs : startsStatement p.getLast? c = true
    · rw [if_pos hl, if_pos hs, if_pos ⟨hl, hs⟩]
    · rw [if_pos hl, if_neg hs, if_neg (fun h => hs h.2)]
      rfl
  · rw [if_neg hl, if_neg (fun h => hl h.1)]
    rfl

/-- Inside a character there is no statement. -/
theorem statementHere?_inside (p cs : Text) {c : Char} {k : Nat} (h0 : 0 < k)
    (hk : k < c.utf8Size) :
    statementHere? (p ++ c :: cs) (p ++ c :: cs : Text).byteLabels (p.byteLength + k) =
      .ok none := by
  have hword : startsWord (p ++ c :: cs) (p.byteLength + k) = .ok false :=
    if_neg (by rw [isBoundary_inside p cs h0 hk]; exact Bool.false_ne_true)
  rw [statementHere?, fetch_byteLabels p cs hk, ok_bind, hword]
  split_ifs <;> rfl

/-- Through a character without a statement the loop goes byte by byte. -/
theorem statementsFrom_inside (p cs : Text) (c : Char) (rounds n : Nat) (hn : n < c.utf8Size) :
    statementsFrom (p ++ c :: cs) (p ++ c :: cs : Text).byteLabels (rounds + n)
        (p.byteLength + (c.utf8Size - n)) =
      statementsFrom (p ++ c :: cs) (p ++ c :: cs : Text).byteLabels rounds
        (p.byteLength + c.utf8Size) := by
  induction n with
  | zero => rfl
  | succ n ih =>
    have hlt : ¬ (p ++ c :: cs : Text).byteLength ≤ p.byteLength + (c.utf8Size - (n + 1)) := by
      simp only [Text.byteLength_append, Text.byteLength_cons]
      omega
    rw [← ih (by omega), ← Nat.add_assoc, statementsFrom, if_neg hlt,
      statementHere?_inside p cs (by omega) (by omega), ok_bind,
      show c.utf8Size - n = c.utf8Size - (n + 1) + 1 by omega]
    rfl

theorem statementsFrom_pass (p cs : Text) (c : Char) {rounds : Nat} (h : c.utf8Size ≤ rounds + 1) :
    statementsFrom (p ++ c :: cs) (p ++ c :: cs : Text).byteLabels rounds (p.byteLength + 1) =
      statementsFrom ((p ++ [c]) ++ cs) ((p ++ [c]) ++ cs : Text).byteLabels
        (rounds - (c.utf8Size - 1)) (p ++ [c] : Text).byteLength := by
  have hc := Char.utf8Size_pos c
  have hinside := statementsFrom_inside p cs c (rounds - (c.utf8Size - 1)) (c.utf8Size - 1) (by omega)
  rw [show rounds - (c.utf8Size - 1) + (c.utf8Size - 1) = rounds by omega,
    show c.utf8Size - (c.utf8Size - 1) = 1 by omega] at hinside
  rw [hinside, List.append_assoc, List.singleton_append,
    show (p ++ [c] : Text).byteLength = p.byteLength + c.utf8Size by simp]

theorem statementsFrom_eq (p s : Text) {rounds : Nat} (h : s.byteLength < rounds) :
    statementsFrom (p ++ s) (p ++ s : Text).byteLabels rounds p.byteLength =
      .ok (tokensAfter statementToken? p s) := by
  induction rounds using Nat.strongRecOn generalizing p s with
  | ind rounds ih =>
    obtain ⟨n, rfl⟩ : ∃ n, rounds = n + 1 := ⟨rounds - 1, by omega⟩
    cases s with
    | nil => rw [statementsFrom, if_pos (by simp)]; rfl
    | cons c cs =>
      have hc := Char.utf8Size_pos c
      rw [Text.byteLength_cons] at h
      have hlt : ¬ (p ++ c :: cs : Text).byteLength ≤ p.byteLength := by
        simp only [Text.byteLength_append, Text.byteLength_cons]
        omega
      rw [statementsFrom, if_neg hlt, statementHere?_eq, ok_bind]
      by_cases hcode : ((Mode.code.run p (some c)).step c cs.head?).1 = .code ∧
          startsStatement p.getLast? c
      · rw [if_pos hcode]
        have htoken : statementToken? p.byteLength p.getLast? (c :: cs) =
            (statement? p.byteLength (c :: cs)).map fun s => ([s], s.stop) := if_pos hcode.2
        cases hst : statement? p.byteLength (c :: cs) with
        | none =>
          rw [hst] at htoken
          rw [tokensAfter_pass fun _ => htoken]
          simp only
          rw [statementsFrom_pass p cs c (by omega)]
          exact ih _ (by omega) (p ++ [c]) cs (by omega)
        | some st =>
          rw [hst, Option.map_some] at htoken
          obtain ⟨m, rest, hm, hstop, hrest, htake⟩ :=
            takes_statementToken?.exists_tokensAfter hcode.1 htoken
          rw [Text.byteLength_cons] at hrest
          have hnext := ih n (by omega) (p ++ m) rest (by omega)
          rw [← hm, ← hstop] at hnext
          simp only
          rw [hnext, htake]
          rfl
      · rw [if_neg hcode, tokensAfter_pass fun hl => if_neg fun hs => hcode ⟨hl, hs⟩]
        simp only
        rw [statementsFrom_pass p cs c (by omega)]
        exact ih _ (by omega) (p ++ [c]) cs (by omega)

theorem statements_eq (body : Text) : statements body = .ok body.statements := by
  rw [statements, labels_eq, ok_bind, Text.statements, PipelineDoc.statementsFrom_eq]
  exact statementsFrom_eq [] body (Nat.lt_succ_self _)

end PipelineDoc.Cursor
