import PipelineDoc.Lexical

/-!
# Matching brackets

The partner of an opening bracket is found by counting the brackets of its kind in code. The text
after the opening bracket is read from code on, whatever comes before it.
-/

namespace PipelineDoc

/-- A kind of paired delimiters. -/
inductive Bracket where
  | brace
  | paren
  deriving DecidableEq, Repr

namespace Bracket

/-- The opening delimiter. -/
def opener : Bracket → Char
  | .brace => '{'
  | .paren => '('

/-- The closing delimiter. -/
def closer : Bracket → Char
  | .brace => '}'
  | .paren => ')'

theorem opener_ne_closer (b : Bracket) : b.opener ≠ b.closer := by cases b <;> decide

/-- Reads up to the closing delimiter that leaves `depth` brackets, and gives the text before and
after it. -/
def splitClosing (b : Bracket) : Nat → Mode → Text → Option (Text × Text)
  | _, _, [] => none
  | depth, mode, c :: cs =>
    let (label, mode') := mode.step c cs.head?
    if label = .code ∧ c = b.closer then
      match depth with
      | 0 => some ([], cs)
      | depth + 1 => (b.splitClosing depth mode' cs).map fun (p, s) => (c :: p, s)
    else if label = .code ∧ c = b.opener then
      (b.splitClosing (depth + 1) mode' cs).map fun (p, s) => (c :: p, s)
    else (b.splitClosing depth mode' cs).map fun (p, s) => (c :: p, s)

theorem splitClosing_cons (b : Bracket) (depth : Nat) (mode : Mode) (c : Char) (cs : Text) :
    b.splitClosing depth mode (c :: cs) =
      if (mode.step c cs.head?).1 = .code ∧ c = b.closer then
        match depth with
        | 0 => some ([], cs)
        | depth + 1 =>
          (b.splitClosing depth (mode.step c cs.head?).2 cs).map fun r => (c :: r.1, r.2)
      else if (mode.step c cs.head?).1 = .code ∧ c = b.opener then
        (b.splitClosing (depth + 1) (mode.step c cs.head?).2 cs).map fun r => (c :: r.1, r.2)
      else (b.splitClosing depth (mode.step c cs.head?).2 cs).map fun r => (c :: r.1, r.2) := rfl

/-- The inside of a bracket whose opening delimiter has just been read, and what follows its closing
delimiter; none when it is never closed. -/
def inside? (b : Bracket) (t : Text) : Option (Text × Text) := b.splitClosing 0 .code t

/-- **What a closing bracket splits off** is the text without that bracket. -/
theorem eq_of_splitClosing {b : Bracket} {depth : Nat} {mode : Mode} {t p s : Text}
    (h : b.splitClosing depth mode t = some (p, s)) : t = p ++ b.closer :: s := by
  induction t generalizing depth mode p with
  | nil => simp [splitClosing] at h
  | cons c t ih =>
    have key : ∀ {d m}, ((b.splitClosing d m t).map fun (p, s) => (c :: p, s)) = some (p, s) →
        c :: t = p ++ b.closer :: s := by
      intro d m h
      obtain ⟨⟨q, s'⟩, hq, heq⟩ := Option.map_eq_some_iff.1 h
      simp only [Prod.mk.injEq] at heq
      obtain ⟨rfl, rfl⟩ := heq
      simp [ih hq]
    simp only [splitClosing] at h
    split at h
    · next hc =>
      split at h
      · simp only [Option.some.injEq, Prod.mk.injEq] at h
        obtain ⟨rfl, rfl⟩ := h
        simp [hc.2]
      · exact key h
    · split at h <;> exact key h

theorem eq_of_inside? {b : Bracket} {t p s : Text} (h : b.inside? t = some (p, s)) :
    t = p ++ b.closer :: s := eq_of_splitClosing h

end Bracket

/-- The offset of the delimiter that closes the one at offset `start`; none when there is no opening
delimiter at `start`, or when it is never closed. -/
def Text.closing? (t : Text) (b : Bracket) (start : Nat) : Option Nat :=
  match t.splitAt? start with
  | some (_, c :: rest) =>
    if c = b.opener then
      (b.inside? rest).map fun (inside, _) => start + c.utf8Size + inside.byteLength
    else none
  | _ => none

end PipelineDoc
