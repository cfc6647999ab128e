import PipelineDoc.Text.Basic

/-!
# Lexical labels

Every character of a text is code, part of a string or part of a comment. A text is read from left
to right in a *mode*. A quote opens and closes a string; two slashes in code open a comment, which
runs up to the end of the line; a backslash, in code as well as in a string, takes its meaning from
the character after it. All characters with a meaning of their own are single bytes, so a label may
be read off a byte as well as off its character.
-/

namespace PipelineDoc

/-- What a character belongs to. -/
inductive Label where
  | code
  /-- A string, with its quotes. -/
  | string
  /-- A comment, with its slashes and without the newline that ends it. -/
  | comment
  deriving DecidableEq, Repr

/-- Where a reader stands between two characters. -/
inductive Mode where
  | code
  /-- In code, after a backslash. -/
  | codeEscape
  | string
  /-- In a string, after a backslash. -/
  | stringEscape
  | comment
  deriving DecidableEq, Repr

/-- Reads the character `c`, of which `next` is the successor: its label, and the mode after it. -/
def Mode.step (mode : Mode) (c : Char) (next : Option Char) : Label × Mode :=
  match mode with
  | .comment => if c = '\n' then (.code, .code) else (.comment, .comment)
  | .codeEscape => (.code, .code)
  | .stringEscape => (.string, .string)
  | .code =>
    if c = '\\' then (.code, .codeEscape)
    else if c = '"' then (.string, .string)
    else if c = '/' ∧ next = some '/' then (.comment, .comment)
    else (.code, .code)
  | .string =>
    if c = '\\' then (.string, .stringEscape)
    else if c = '"' then (.string, .code)
    else (.string, .string)

/-- The labels of a text that is read from a given mode on. -/
def Mode.labels : Mode → Text → List Label
  | _, [] => []
  | mode, c :: cs =>
    let (label, mode') := mode.step c cs.head?
    label :: mode'.labels cs

@[simp] theorem Mode.length_labels (mode : Mode) (t : Text) :
    (mode.labels t).length = t.length := by
  induction t generalizing mode with
  | nil => rfl
  | cons c t ih => simp [Mode.labels, ih]

namespace Text

/-- The labels of the characters of a text, which starts in code. -/
def labels (t : Text) : List Label := Mode.code.labels t

/-- The labels of the bytes of a text. -/
def byteLabels (t : Text) : List Label :=
  (t.zip t.labels).flatMap fun (c, label) => List.replicate c.utf8Size label

/-- The characters that are code. -/
def codeChars (t : Text) : Text :=
  (t.zip t.labels).filterMap fun (c, label) => if label = .code then some c else none

/-- The part before the first comment. -/
def codePart (t : Text) : Text :=
  ((t.zip t.labels).takeWhile fun (_, label) => decide (label ≠ .comment)).map fun (c, _) => c

/-- The numbers of opening and closing braces in code. -/
def codeBraces (t : Text) : Nat × Nat := (t.codeChars.count '{', t.codeChars.count '}')

end Text

end PipelineDoc
