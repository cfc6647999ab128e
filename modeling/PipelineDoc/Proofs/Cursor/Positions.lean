import Mathlib.Data.List.Induction
import Mathlib.Data.List.TakeWhile
import PipelineDoc.Diagnostic
import PipelineDoc.Proofs.Cursor.Access

/-!
# Positions by offsets

A position is found with a table of the offsets at which lines start. The offset is moved back to a
boundary, the line is looked up in the table, and the column is the number of characters between the
start of the line and the boundary.
-/

namespace PipelineDoc.Cursor

/-- The offsets at which lines start. -/
def lineStarts (t : Text) : List Nat :=
  0 :: (t.bytes.zipIdx.filter fun (byte, _) => byte = byteOf '\n').map fun (_, i) => i + 1

/-- The last boundary at or before an offset. -/
def boundaryBefore (t : Text) : Nat → Read Nat
  | 0 => if isBoundary t 0 then return 0 else .error (.underflow 0 1)
  | n + 1 => if isBoundary t (n + 1) then return n + 1 else boundaryBefore t n

/-- The position of an offset. -/
def position (t : Text) (offset : Nat) : Read Position := do
  let offset ← boundaryBefore t (min offset t.byteLength)
  let line := ((lineStarts t).takeWhile fun start => start ≤ offset).length - 1
  let start ← fetch (lineStarts t) line
  let front ← cut t start offset
  return ⟨line + 1, front.length + 1⟩

/-- Places a diagnostic of a document. -/
def marker (source : Text) (d : Diagnostic) : Read Marker := do
  let span := d.span?.getD (.ofLength 0 0)
  let start ← position source span.start
  let stop ← position source span.stop
  return ⟨start, stop, d.message, d.severity, d.code⟩

/-! ### Boundaries -/

theorem exists_takeBytes_append (t : Text) (n : Nat) :
    ∃ rest, t = t.takeBytes n ++ rest ∧ (t.takeBytes n).byteLength ≤ n ∧
      ∀ c ∈ rest.head?, n < (t.takeBytes n).byteLength + c.utf8Size := by
  induction t generalizing n with
  | nil => exact ⟨[], by simp [Text.takeBytes]⟩
  | cons c t ih =>
    by_cases h : c.utf8Size ≤ n
    · obtain ⟨rest, ht, hle, hlt⟩ := ih (n - c.utf8Size)
      rw [Text.takeBytes, if_pos h]
      refine ⟨rest, by rw [List.cons_append, ← ht], ?_, fun d hd => ?_⟩
      · rw [Text.byteLength_cons]
        omega
      · have := hlt d hd
        rw [Text.byteLength_cons]
        omega
    · rw [Text.takeBytes, if_neg h]
      refine ⟨c :: t, rfl, by simp, fun d hd => ?_⟩
      cases hd
      rw [Text.byteLength_nil]
      omega

theorem boundaryBefore_append (p s : Text) : boundaryBefore (p ++ s) p.byteLength = .ok p.byteLength := by
  have h := isBoundary_append p s
  cases hp : p.byteLength with
  | zero => rw [hp] at h; rw [boundaryBefore, if_pos h]; rfl
  | succ n => rw [hp] at h; rw [boundaryBefore, if_pos h]; rfl

theorem boundaryBefore_inside (p s : Text) {c : Char} {k : Nat} (hk : k < c.utf8Size) :
    boundaryBefore (p ++ c :: s) (p.byteLength + k) = .ok p.byteLength := by
  induction k with
  | zero => exact boundaryBefore_append p (c :: s)
  | succ k ih =>
    have h : isBoundary (p ++ c :: s) (p.byteLength + k + 1) = false :=
      isBoundary_inside p s (Nat.succ_pos k) hk
    rw [← Nat.add_assoc, boundaryBefore, if_neg (by rw [h]; exact Bool.false_ne_true)]
    exact ih (by omega)

theorem boundaryBefore_eq (t : Text) (offset : Nat) :
    boundaryBefore t (min offset t.byteLength) = .ok (t.takeBytes offset).byteLength := by
  obtain ⟨rest, ht, hle, hlt⟩ := exists_takeBytes_append t offset
  have hlen := congrArg Text.byteLength ht
  rw [Text.byteLength_append] at hlen
  generalize t.takeBytes offset = p at ht hle hlt hlen ⊢
  subst ht
  cases rest with
  | nil =>
    rw [Text.byteLength_nil, Nat.add_zero] at hlen
    rw [hlen, Nat.min_eq_right hle]
    exact boundaryBefore_append p []
  | cons c s =>
    have hc := hlt c rfl
    rw [Text.byteLength_cons] at hlen
    rw [Nat.min_eq_left (by omega), show offset = p.byteLength + (offset - p.byteLength) by omega]
    exact boundaryBefore_inside p s (by omega)

/-! ### Lines -/

theorem lineStarts_append (p s : Text) :
    lineStarts (p ++ s) = lineStarts p ++
      ((s.bytes.zipIdx p.byteLength).filter fun (byte, _) => byte = byteOf '\n').map
        fun (_, i) => i + 1 := by
  simp [lineStarts, List.zipIdx_append]

/-- One more character starts a line exactly when it is a newline. -/
theorem lineStarts_concat (p : Text) (c : Char) :
    lineStarts (p ++ [c]) = lineStarts p ++ if c = '\n' then [p.byteLength + 1] else [] := by
  rw [lineStarts_append, Text.bytes_cons, Text.bytes_nil, List.append_nil]
  congr 1
  split
  · next h =>
    subst h
    rw [(show Narrow '\n' by decide).encode]
    simp
  · next h =>
    rw [List.map_eq_nil_iff, List.filter_eq_nil_iff]
    rintro ⟨byte, i⟩ hi
    rw [decide_eq_true_eq, eq_byteOf_iff (by decide) (List.fst_mem_of_mem_zipIdx hi)]
    exact h

/-- **The table of line starts**, seen from the end of a text: the last entry is where the last line
starts. -/
structure LineTable (p q : Text) : Prop where
  split : p = q ++ (p.reverse.takeWhile (· != '\n')).reverse
  last : (lineStarts p).getLast? = some q.byteLength
  length : (lineStarts p).length = p.count '\n' + 1
  le : ∀ start ∈ lineStarts p, start ≤ p.byteLength

theorem exists_lineTable (p : Text) : ∃ q, LineTable p q := by
  induction p using List.reverseRecOn with
  | nil => exact ⟨[], by simp, rfl, rfl, by simp [lineStarts]⟩
  | append_singleton p c ih =>
    obtain ⟨q, hq⟩ := ih
    have hlen : Text.byteLength (p ++ [c]) = Text.byteLength p + c.utf8Size := by simp
    have hle : ∀ start ∈ lineStarts p, start ≤ Text.byteLength (p ++ [c]) := fun start hs => by
      have := hq.le start hs
      omega
    by_cases hc : c = '\n'
    · subst hc
      have hone : '\n'.utf8Size = 1 := rfl
      refine ⟨p ++ ['\n'], by simp, ?_, ?_, ?_⟩
      · rw [lineStarts_concat, if_pos rfl, List.getLast?_concat, hlen, hone]
      · rw [lineStarts_concat, if_pos rfl, List.length_append, hq.length, List.count_append]
        rfl
      · intro start hs
        rw [lineStarts_concat, if_pos rfl, List.mem_append, List.mem_singleton] at hs
        rcases hs with hs | rfl
        · exact hle start hs
        · rw [hlen, hone]
    · have hsame : lineStarts (p ++ [c]) = lineStarts p := by
        rw [lineStarts_concat, if_neg hc, List.append_nil]
      refine ⟨q, ?_, hsame ▸ hq.last, ?_, hsame ▸ hle⟩
      · rw [List.reverse_append, List.reverse_singleton, List.singleton_append,
          List.takeWhile_cons_of_pos (by simpa using hc), List.reverse_cons, ← List.append_assoc,
          ← hq.split]
      · rw [hsame, hq.length, List.count_append, List.count_singleton]
        simp [hc]

/-- The lines that start at or before a boundary. -/
theorem takeWhile_lineStarts (p s : Text) :
    ((lineStarts (p ++ s)).takeWhile fun start => start ≤ p.byteLength) = lineStarts p := by
  obtain ⟨q, hq⟩ := exists_lineTable p
  rw [lineStarts_append, List.takeWhile_append_of_pos fun start hs =>
    decide_eq_true (hq.le start hs)]
  -- all later lines start after the boundary
  have hlater : ∀ start ∈ ((s.bytes.zipIdx p.byteLength).filter
      fun (byte, _) => byte = byteOf '\n').map fun (_, i) => i + 1, p.byteLength < start := by
    intro start hs
    obtain ⟨⟨byte, i⟩, hi, rfl⟩ := List.mem_map.mp hs
    exact Nat.lt_succ_of_le (List.le_snd_of_mem_zipIdx (List.mem_filter.mp hi).1)
  generalize ((s.bytes.zipIdx p.byteLength).filter fun (byte, _) => byte = byteOf '\n').map
    (fun (_, i) => i + 1) = later at hlater ⊢
  cases later with
  | nil => simp
  | cons start later =>
    have := hlater start List.mem_cons_self
    rw [List.takeWhile_cons_of_neg (by rw [decide_eq_true_eq]; omega), List.append_nil]

theorem position_eq (t : Text) (offset : Nat) : position t offset = .ok (t.position offset) := by
  obtain ⟨rest, ht, -, -⟩ := exists_takeBytes_append t offset
  rw [position, boundaryBefore_eq, ok_bind, Text.position]
  generalize t.takeBytes offset = p at ht ⊢
  subst ht
  obtain ⟨q, hq⟩ := exists_lineTable p
  have hget : (lineStarts (p ++ rest))[(lineStarts p).length - 1]? = some q.byteLength := by
    have hlen := hq.length
    rw [lineStarts_append, List.getElem?_append_left (by omega), ← List.getLast?_eq_getElem?]
    exact hq.last
  have hcut : cut (p ++ rest) q.byteLength p.byteLength =
      .ok (p.reverse.takeWhile (· != '\n')).reverse := by
    have h := cut_append q (p.reverse.takeWhile (· != '\n')).reverse rest
    rwa [← Text.byteLength_append, ← List.append_assoc, ← hq.split] at h
  simp only [takeWhile_lineStarts]
  rw [fetch_eq hget, ok_bind, hcut, ok_bind, hq.length, List.length_reverse]
  rfl

theorem marker_eq (source : Text) (d : Diagnostic) : marker source d = .ok (d.marker source) := by
  simp only [marker, position_eq, ok_bind]
  rfl

end PipelineDoc.Cursor
