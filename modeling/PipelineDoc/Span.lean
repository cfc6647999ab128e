/-!
# Spans

A span is a half-open interval of byte offsets.
-/

namespace PipelineDoc

/-- A half-open interval of byte offsets, never of negative length. -/
@[ext]
structure Span where
  start : Nat
  stop : Nat
  start_le_stop : start ≤ stop
  deriving DecidableEq, Repr

namespace Span

/-- The span of `length` bytes at `start`. -/
def ofLength (start length : Nat) : Span := ⟨start, start + length, Nat.le_add_right _ _⟩

/-- The span from `start` to `stop`, empty at `start` when `stop` lies before it. -/
def ofEnds (start stop : Nat) : Span := ⟨start, max start stop, Nat.le_max_left _ _⟩

/-- The number of bytes covered. -/
def length (s : Span) : Nat := s.stop - s.start

/-- Whether no byte is covered. -/
def isEmpty (s : Span) : Bool := s.start == s.stop

/-- The same bytes, seen from a text in which `amount` more bytes come first. -/
def shift (s : Span) (amount : Nat) : Span :=
  ⟨s.start + amount, s.stop + amount, Nat.add_le_add_right s.start_le_stop amount⟩

/-- The written form `start..stop`. -/
def display (s : Span) : String := toString s.start ++ ".." ++ toString s.stop

/-- Whether `s` comes no later than `t`: by start, then by end. -/
def le (s t : Span) : Bool :=
  decide (s.start < t.start) || (s.start == t.start && decide (s.stop ≤ t.stop))

@[simp] theorem start_ofLength (a n : Nat) : (ofLength a n).start = a := rfl

@[simp] theorem stop_ofLength (a n : Nat) : (ofLength a n).stop = a + n := rfl

@[simp] theorem length_ofLength (a n : Nat) : (ofLength a n).length = n := by
  simp [length]

@[simp] theorem start_shift (s : Span) (n : Nat) : (s.shift n).start = s.start + n := rfl

@[simp] theorem stop_shift (s : Span) (n : Nat) : (s.shift n).stop = s.stop + n := rfl

theorem shift_shift (s : Span) (m n : Nat) : (s.shift m).shift n = s.shift (m + n) := by
  ext <;> simp [Nat.add_assoc]

end Span

end PipelineDoc
