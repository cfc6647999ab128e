/-!
# Ranges of code points

A property of characters is given by the increasing list of its ranges of code points, both ends
included.
-/

namespace PipelineDoc.CodeRanges

/-- Whether `n` lies in one of the ranges. They are listed in increasing order, so the search stops
at the first range that starts past `n`. -/
def contains : List (Nat × Nat) → Nat → Bool
  | [], _ => false
  | (lo, hi) :: rest, n => decide (lo ≤ n) && (decide (n ≤ hi) || contains rest n)

end PipelineDoc.CodeRanges
