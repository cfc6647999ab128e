import PipelineDoc.Text.Basic

/-!
# Lines and columns

Editors name a place by its line and its column. Both count from one, and columns count characters.
-/

namespace PipelineDoc

/-- A place in a text, by line and column. -/
structure Position where
  line : Nat
  column : Nat
  deriving DecidableEq, Repr

/-- The position of an offset. An offset inside a character has the position of that character, and
one past the end has the position of the end. -/
def Text.position (t : Text) (offset : Nat) : Position :=
  let before := t.takeBytes offset
  { line := before.count '\n' + 1
    column := (before.reverse.takeWhile (· != '\n')).length + 1 }

/-- The positions of the ends of a span. -/
def Text.range (t : Text) (s : Span) : Position × Position :=
  (t.position s.start, t.position s.stop)

end PipelineDoc
