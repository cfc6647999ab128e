import PipelineDoc.Lexical
import PipelineDoc.Proofs.Text.Slices

/-!
# Modes along a text

`Mode.run` is the mode in which a reader stands after a text. The label of a character depends on
the mode reached before it, on the character and on the one after it, and all bytes of a character
have its label (`getElem?_byteLabels`).
-/

namespace PipelineDoc

namespace Mode

/-- The mode after a text; `next` is the character that follows it. -/
def run : Mode → Text → Option Char → Mode
  | mode, [], _ => mode
  | mode, c :: cs, next => (mode.step c (cs.head?.or next)).2.run cs next

@[simp] theorem run_nil (mode : Mode) (next : Option Char) : mode.run [] next = mode := rfl

theorem run_cons (mode : Mode) (c : Char) (cs : Text) (next : Option Char) :
    mode.run (c :: cs) next = (mode.step c (cs.head?.or next)).2.run cs next := rfl

theorem run_append (mode : Mode) (p q : Text) (next : Option Char) :
    mode.run (p ++ q) next = (mode.run p (q.head?.or next)).run q next := by
  induction p generalizing mode with
  | nil => rfl
  | cons c p ih =>
    rw [List.cons_append, run_cons, run_cons, ih, List.head?_append, Option.or_assoc]

theorem run_concat (mode : Mode) (p : Text) (c : Char) (next : Option Char) :
    mode.run (p ++ [c]) next = ((mode.run p (some c)).step c next).2 := by
  rw [run_append]
  rfl

theorem labels_cons (mode : Mode) (c : Char) (cs : Text) :
    mode.labels (c :: cs) = (mode.step c cs.head?).1 :: (mode.step c cs.head?).2.labels cs := rfl

/-- The labels of the bytes of a text that is read from a mode on. -/
def byteLabels (mode : Mode) (t : Text) : List Label :=
  (t.zip (mode.labels t)).flatMap fun (c, label) => List.replicate c.utf8Size label

theorem byteLabels_cons (mode : Mode) (c : Char) (cs : Text) :
    mode.byteLabels (c :: cs) = List.replicate c.utf8Size (mode.step c cs.head?).1 ++
      (mode.step c cs.head?).2.byteLabels cs := rfl

/-- All bytes of a character have its label. -/
theorem getElem?_byteLabels (mode : Mode) (p s : Text) (c : Char) {k : Nat} (hk : k < c.utf8Size) :
    (mode.byteLabels (p ++ c :: s))[p.byteLength + k]? =
      some ((mode.run p (some c)).step c s.head?).1 := by
  induction p generalizing mode with
  | nil =>
    rw [List.nil_append, byteLabels_cons, Text.byteLength_nil, Nat.zero_add,
      List.getElem?_append_left (by simpa using hk)]
    simp [hk]
  | cons d p ih =>
    rw [List.cons_append, byteLabels_cons, Text.byteLength_cons,
      List.getElem?_append_right (by simp only [List.length_replicate]; omega),
      List.length_replicate, Nat.add_assoc, Nat.add_sub_cancel_left, ih, run_cons,
      List.head?_append]
    rfl

end Mode

namespace Text

theorem byteLabels_eq (t : Text) : t.byteLabels = Mode.code.byteLabels t := rfl

/-! ### The code part -/

/-- The code part is the text up to its first comment. -/
theorem exists_codePart_append (t : Text) : ∃ rest, t = t.codePart ++ rest := by
  refine ⟨((t.zip t.labels).dropWhile fun (_, label) => decide (label ≠ .comment)).map (·.1), ?_⟩
  rw [codePart, ← List.map_append, List.takeWhile_append_dropWhile]
  rw [List.map_fst_zip (by simp [labels])]

end Text

end PipelineDoc
