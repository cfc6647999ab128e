import PipelineDoc.Text.CodeRanges

/-!
# White space

The property White_Space of the Unicode standard.
-/

namespace PipelineDoc

/-- The code points with the property White_Space. -/
def whiteRanges : List (Nat × Nat) :=
  [(0x9, 0xD), (0x20, 0x20), (0x85, 0x85), (0xA0, 0xA0), (0x1680, 0x1680), (0x2000, 0x200A),
   (0x2028, 0x2029), (0x202F, 0x202F), (0x205F, 0x205F), (0x3000, 0x3000)]

/-- Whether a character is white space. -/
def isWhite (c : Char) : Bool := CodeRanges.contains whiteRanges c.toNat

end PipelineDoc
