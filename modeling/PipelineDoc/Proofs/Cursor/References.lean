import PipelineDoc.Proofs.Cursor.Statements

/-!
# References by offsets

The loop over an argument text goes from character to character, past each numeral and each path. A
path is kept as a reference by looking at the text cut off before it and after it.
-/

namespace PipelineDoc.Cursor

/-- The number of bytes of the numeral at the front of `rest`, which stands at an offset. -/
def numeralWidth (args rest : Text) (pos : Nat) : Read Nat := do
  let remaining ← minus args.byteLength pos
  let isPart (c : Char) : Bool := isWordChar c || c == '.'
  return if (rest.dropWhile isPart).isEmpty then remaining
    else Text.byteLength (rest.takeWhile isPart)

/-- The reference that a path at an offset makes. -/
def reference? (args path : Text) (pos : Nat) : Read (Option Reference) := do
  let span := Span.ofEnds pos (pos + path.byteLength)
  let front ← cutTo args span.start
  let after ← cutFrom args span.stop
  if front.getLast? == some '.' || after.trimStart.head? == some ':' ||
      literalWords.contains (pathRoot path) then return none
  else return some ⟨path, span⟩

/-- The token of code that starts at an offset with the character `c`: the offset past it, and the
reference that it makes. -/
def argumentTokenAt (args : Text) (pos : Nat) (c : Char) : Read (Nat × Option Reference) := do
  let rest ← cutFrom args pos
  if isNumeric c then return (pos + (← numeralWidth args rest pos), none)
  else if isWordStart c then
    match path? rest with
    | some (path, _) => return (pos + path.byteLength, ← reference? args path pos)
    | none => return (pos + c.utf8Size, none)
  else return (pos + c.utf8Size, none)

/-- The references of an argument text from an offset on, in a bounded number of rounds. -/
def referencesFrom (args : Text) (labels : List Label) :
    (rounds : Nat) → (pos : Nat) → Read (List Reference)
  | 0, _ => .error .endless
  | rounds + 1, pos =>
    if args.byteLength ≤ pos then return []
    else do
      match ← cutFrom args pos with
      | [] => return []
      | c :: _ =>
        if (← fetch labels pos) = .code then
          let (stop, reference) ← argumentTokenAt args pos c
          return reference.toList ++ (← referencesFrom args labels rounds stop)
        else referencesFrom args labels rounds (pos + c.utf8Size)

/-- The references of an argument text. -/
def references (args : Text) : Read (List Reference) := do
  referencesFrom args (← labels args) (args.byteLength + 1) 0

theorem numeralWidth_eq (p s : Text) :
    numeralWidth (p ++ s) s p.byteLength =
      .ok (Text.byteLength (s.takeWhile fun c => isWordChar c || c == '.')) := by
  rw [numeralWidth, minus_eq (by simp), ok_bind, Text.byteLength_append, Nat.add_sub_cancel_left,
    pure_eq]
  have h := Text.byteLength_takeWhile_add_dropWhile (fun c => isWordChar c || c == '.') s
  cases hd : s.dropWhile fun c => isWordChar c || c == '.' with
  | nil =>
    rw [hd, Text.byteLength_nil, Nat.add_zero] at h
    simp [h]
  | cons d rest => rfl

theorem reference?_eq (p path s : Text) :
    reference? (p ++ (path ++ s)) path p.byteLength =
      .ok (if isReference p.getLast? path s then
        some ⟨path, .ofLength p.byteLength path.byteLength⟩ else none) := by
  have hafter := cutFrom_append (p ++ path) s
  rw [List.append_assoc, Text.byteLength_append] at hafter
  rw [reference?, Span.ofEnds_add, Span.start_ofLength, Span.stop_ofLength, cutTo_append, ok_bind,
    hafter, ok_bind, isReference]
  cases p.getLast? == some '.' || s.trimStart.head? == some ':' ||
    literalWords.contains (pathRoot path) <;> rfl

/-- **The token at a boundary** takes what the library takes, or else one character. -/
theorem argumentTokenAt_eq (p cs : Text) (c : Char) :
    argumentTokenAt (p ++ c :: cs) p.byteLength c =
      .ok (match argumentToken? p.byteLength p.getLast? (c :: cs) with
        | some token => (token.stop, token.reference)
        | none => (p.byteLength + c.utf8Size, none)) := by
  rw [argumentTokenAt, cutFrom_append, ok_bind, argumentToken?, List.head?_cons, Option.any_some]
  by_cases hnum : isNumeric c = true
  · rw [if_pos hnum, if_pos hnum, numeralWidth_eq]
    rfl
  · rw [if_neg hnum, if_neg hnum]
    by_cases hstart : isWordStart c = true
    · rw [if_pos hstart]
      cases hpath : path? (c :: cs) with
      | none => rfl
      | some r =>
        obtain ⟨path, rest⟩ := r
        have href := reference?_eq p path rest
        rw [← (eq_of_path? hpath).1] at href
        simp only [href, ok_bind, Option.map_some]
        rfl
    · have hpath : path? (c :: cs) = none := if_neg hstart
      rw [if_neg hstart, hpath]
      rfl

theorem referencesFrom_eq (p s : Text) {rounds : Nat} (h : s.byteLength < rounds) :
    referencesFrom (p ++ s) (p ++ s : Text).byteLabels rounds p.byteLength =
      .ok (tokensAfter referenceToken? p s) := by
  induction rounds generalizing p s with
  | zero => omega
  | succ rounds ih =>
    cases s with
    | nil => rw [referencesFrom, if_pos (by simp)]; rfl
    | cons c cs =>
      have hc := Char.utf8Size_pos c
      rw [Text.byteLength_cons] at h
      have hlt : ¬ (p ++ c :: cs : Text).byteLength ≤ p.byteLength := by
        simp only [Text.byteLength_append, Text.byteLength_cons]
        omega
      have hlabel := fetch_byteLabels p cs hc
      rw [Nat.add_zero] at hlabel
      rw [referencesFrom, if_neg hlt, cutFrom_append, ok_bind]
      simp only [hlabel, ok_bind]
      have pass := ih (p ++ [c]) cs (by omega)
      rw [List.append_assoc, List.singleton_append,
        show (p ++ [c] : Text).byteLength = p.byteLength + c.utf8Size by simp] at pass
      by_cases hl : ((Mode.code.run p (some c)).step c cs.head?).1 = .code
      case neg =>
        rw [if_neg hl, pass, tokensAfter_pass fun hl' => absurd hl' hl]
      have htoken : referenceToken? p.byteLength p.getLast? (c :: cs) =
        (argumentToken? p.byteLength p.getLast? (c :: cs)).map
          fun token => (token.reference.toList, token.stop) := rfl
      rw [if_pos hl, argumentTokenAt_eq, ok_bind]
      cases harg : argumentToken? p.byteLength p.getLast? (c :: cs) with
      | none =>
        rw [harg, Option.map_none] at htoken
        simp only
        rw [pass, tokensAfter_pass fun _ => htoken]
        rfl
      | some token =>
        rw [harg, Option.map_some] at htoken
        obtain ⟨m, rest, hm, hstop, hrest, htake⟩ :=
          takes_referenceToken?.exists_tokensAfter hl htoken
        rw [Text.byteLength_cons] at hrest
        have hnext := ih (p ++ m) rest (by omega)
        rw [← hm, ← hstop] at hnext
        simp only
        rw [hnext, htake]
        rfl

theorem references_eq (args : Text) : references args = .ok args.references := by
  rw [references, labels_eq, ok_bind, Text.references, PipelineDoc.referencesFrom_eq]
  exact referencesFrom_eq [] args (Nat.lt_succ_self _)

end PipelineDoc.Cursor
