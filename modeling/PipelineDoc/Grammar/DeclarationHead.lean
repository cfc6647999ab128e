import PipelineDoc.Grammar.Path

/-!
# Heads of declarations

    W* "name" V* {

This follows the keyword of a declaration. `W` is a blank, `V` a blank or an end of line. The name
runs to the next quote on its line, whatever stands between.
-/

namespace PipelineDoc

/-- Why a keyword does not introduce a declaration. -/
inductive HeaderFault where
  | missingName
  | missingBody
  | unterminated
  deriving DecidableEq, Repr

/-- The wording of a reason. -/
def HeaderFault.message : HeaderFault → String
  | .missingName => "missing quoted name"
  | .missingBody => "missing body"
  | .unterminated => "unterminated body"

/-- Blanks and ends of line. -/
def isLayoutBlank (c : Char) : Bool := isBlank c || c == '\r' || c == '\n'

/-- Whether a character may stand in a quoted name. -/
def isNameChar (c : Char) : Bool := c != '"' && c != '\n'

/-- What stands between the keyword of a declaration and its body. -/
structure DeclarationHead where
  /-- The blanks before the name. -/
  pad : Text
  name : Text
  /-- The blanks before `{`. -/
  gap : Text
  deriving DecidableEq, Repr

namespace DeclarationHead

/-- The text of a head. -/
def text (h : DeclarationHead) : Text := h.pad ++ ('"' :: (h.name ++ ('"' :: (h.gap ++ ['{']))))

/-- The span of the name in a head that stands at an offset. -/
def nameSpan (h : DeclarationHead) (offset : Nat) : Span :=
  .ofLength (offset + (h.pad ++ ['"'] : Text).byteLength) h.name.byteLength

/-- The head at the front of a text, or the part of it that is missing. -/
def read (t : Text) : Except HeaderFault (DeclarationHead × Text) :=
  let (pad, t) := blanks t
  match t.skip? ['"'] with
  | none => .error .missingName
  | some t =>
    let name := t.takeWhile isNameChar
    match Text.skip? (t.dropWhile isNameChar) ['"'] with
    | none => .error .missingName
    | some t =>
      let gap := t.takeWhile isLayoutBlank
      match Text.skip? (t.dropWhile isLayoutBlank) ['{'] with
      | none => .error .missingBody
      | some rest => .ok (⟨pad, name, gap⟩, rest)

theorem eq_of_read {t rest : Text} {h : DeclarationHead}
    (e : DeclarationHead.read t = .ok (h, rest)) : t = h.text ++ rest := by
  have b := blanks_append t
  simp only [DeclarationHead.read] at e
  split at e
  · simp at e
  · next t₁ e₁ =>
    split at e
    · simp at e
    · next t₂ e₂ =>
      split at e
      · simp at e
      · next t₃ e₃ =>
        simp only [Except.ok.injEq, Prod.mk.injEq] at e
        obtain ⟨rfl, rfl⟩ := e
        rw [Text.skip?_eq_some_iff] at e₁ e₂ e₃
        have n := List.takeWhile_append_dropWhile (p := isNameChar) (l := t₁)
        have g := List.takeWhile_append_dropWhile (p := isLayoutBlank) (l := t₂)
        rw [e₂] at n
        rw [e₃] at g
        simp only [List.cons_append, List.nil_append] at e₁ n g
        simp only [DeclarationHead.text, List.append_assoc, List.cons_append, List.nil_append]
        rw [g, n, ← e₁, b]

end DeclarationHead

end PipelineDoc
