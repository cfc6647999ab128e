import Mathlib.Tactic.SplitIfs
import PipelineDoc.Proofs.Lexical.Modes
import PipelineDoc.Proofs.Text.Bytes

/-!
# Reading by offsets

The library takes texts apart as lists of characters. A reader that works on the UTF-8 bytes of a
document knows its place by an offset, and every use of an offset may go wrong: an index past the
end, a slice that does not start and end between two characters, a subtraction below zero. Here
these are *faults*, and a reading by offsets is a computation that may end in one.

The modules of this folder read a document by offsets, from the labels of its bytes to the graph
that is laid out. Each reading is shown to give `.ok` of what the library gives, so no fault is ever
met. This module has the ways of access and the reading of labels, byte after byte.
-/

namespace PipelineDoc.Cursor

/-- What can go wrong in a reading by offsets. -/
inductive Fault where
  /-- An index at or past the end. -/
  | index (i : Nat)
  /-- A slice whose ends are out of order, past the end of the text, or inside a character. -/
  | slice (start stop : Nat)
  /-- A subtraction below zero. -/
  | underflow (a b : Nat)
  /-- A loop that has used up its rounds. -/
  | endless
  deriving DecidableEq, Repr

/-- A reading that may end in a fault. -/
abbrev Read := Except Fault

theorem ok_bind {α β : Type} (a : α) (f : α → Read β) : (Except.ok a >>= f : Read β) = f a := rfl

theorem pure_eq {α : Type} (a : α) : (pure a : Read α) = .ok a := rfl

theorem mapM_eq {α β : Type} {f : α → Read β} {g : α → β} {xs : List α}
    (h : ∀ a ∈ xs, f a = .ok (g a)) : xs.mapM f = .ok (xs.map g) := by
  induction xs with
  | nil => rfl
  | cons a xs ih =>
    rw [List.mapM_cons, h a List.mem_cons_self, ok_bind,
      ih fun b hb => h b (List.mem_cons_of_mem _ hb)]
    rfl

theorem foldlM_eq {α σ : Type} {f : σ → α → Read σ} {g : σ → α → σ} {xs : List α}
    (h : ∀ acc, ∀ a ∈ xs, f acc a = .ok (g acc a)) (acc : σ) :
    xs.foldlM f acc = .ok (xs.foldl g acc) := by
  induction xs generalizing acc with
  | nil => rfl
  | cons a xs ih =>
    rw [List.foldlM_cons, h acc a List.mem_cons_self, ok_bind,
      ih fun acc b hb => h acc b (List.mem_cons_of_mem _ hb)]
    rfl

/-! ### Access -/

/-- The item at an index. -/
def fetch {α : Type} (xs : List α) (i : Nat) : Read α :=
  match xs[i]? with
  | some a => .ok a
  | none => .error (.index i)

/-- Replaces the item at an index. -/
def store {α : Type} (xs : List α) (i : Nat) (a : α) : Read (List α) :=
  if i < xs.length then .ok (xs.set i a) else .error (.index i)

/-- The difference of two sizes. -/
def minus (a b : Nat) : Read Nat := if b ≤ a then .ok (a - b) else .error (.underflow a b)

/-- The text from one offset to another. -/
def cut (t : Text) (start stop : Nat) : Read Text :=
  match t.splitAt? stop with
  | none => .error (.slice start stop)
  | some (front, _) =>
    match front.splitAt? start with
    | none => .error (.slice start stop)
    | some (_, part) => .ok part

/-- The text from an offset on. -/
def cutFrom (t : Text) (start : Nat) : Read Text := cut t start t.byteLength

/-- The text up to an offset. -/
def cutTo (t : Text) (stop : Nat) : Read Text := cut t 0 stop

/-- The bytes from an offset on. -/
def bytesFrom (bytes : List UInt8) (start : Nat) : Read (List UInt8) :=
  if start ≤ bytes.length then .ok (bytes.drop start) else .error (.slice start bytes.length)

/-- Whether an offset lies between two characters. -/
def isBoundary (t : Text) (offset : Nat) : Bool := (t.splitAt? offset).isSome

theorem fetch_eq_ok_iff {α : Type} {xs : List α} {i : Nat} {a : α} :
    fetch xs i = .ok a ↔ xs[i]? = some a := by
  unfold fetch
  cases xs[i]? <;> simp

theorem fetch_eq {α : Type} {xs : List α} {i : Nat} {a : α} (h : xs[i]? = some a) :
    fetch xs i = .ok a := fetch_eq_ok_iff.mpr h

theorem store_eq {α : Type} {xs : List α} {i : Nat} (h : i < xs.length) (a : α) :
    store xs i a = .ok (xs.set i a) := if_pos h

theorem minus_eq {a b : Nat} (h : b ≤ a) : minus a b = .ok (a - b) := if_pos h

/-- **A cut succeeds** exactly when both its ends are boundaries of the text, in order. -/
theorem cut_eq_ok_iff {t m : Text} {start stop : Nat} :
    cut t start stop = .ok m ↔
      ∃ p q, t = p ++ (m ++ q) ∧ p.byteLength = start ∧ (p ++ m).byteLength = stop := by
  unfold cut
  constructor
  · intro h
    split at h
    · cases h
    · next front q hfront =>
      split at h
      · cases h
      · next p part hpart =>
        cases h
        obtain ⟨rfl, rfl⟩ := Text.splitAt?_eq_some_iff.mp hfront
        obtain ⟨rfl, rfl⟩ := Text.splitAt?_eq_some_iff.mp hpart
        exact ⟨p, q, by rw [List.append_assoc], rfl, rfl⟩
  · rintro ⟨p, q, rfl, rfl, rfl⟩
    rw [← List.append_assoc, Text.splitAt?_append]
    simp only [Text.splitAt?_append]

theorem cut_append (p m q : Text) :
    cut (p ++ (m ++ q)) p.byteLength (p.byteLength + m.byteLength) = .ok m :=
  cut_eq_ok_iff.mpr ⟨p, q, rfl, rfl, Text.byteLength_append p m⟩

theorem cut_of_slice? {t m : Text} {s : Span} (h : t.slice? s = some m) :
    cut t s.start s.stop = .ok m := by
  obtain ⟨p, q, rfl, hp, hm⟩ := Text.slice?_eq_some_iff.mp h
  have := s.start_le_stop
  simp only [Span.length] at hm
  exact cut_eq_ok_iff.mpr ⟨p, q, rfl, hp, by rw [Text.byteLength_append]; omega⟩

theorem cutFrom_append (p s : Text) : cutFrom (p ++ s) p.byteLength = .ok s := by
  have h := cut_append p s []
  rwa [List.append_nil, ← Text.byteLength_append] at h

theorem cutTo_append (p s : Text) : cutTo (p ++ s) p.byteLength = .ok p := by
  have h := cut_append [] p s
  rwa [List.nil_append, Text.byteLength_nil, Nat.zero_add] at h

theorem bytesFrom_append (p s : Text) : bytesFrom (p ++ s : Text).bytes p.byteLength = .ok s.bytes := by
  rw [bytesFrom, if_pos (by simp), Text.bytes_append, ← Text.length_bytes, List.drop_left]

theorem isBoundary_append (p s : Text) : isBoundary (p ++ s) p.byteLength = true := by
  rw [isBoundary, Text.splitAt?_append, Option.isSome_some]

theorem isBoundary_inside (p s : Text) {c : Char} {k : Nat} (h0 : 0 < k) (hk : k < c.utf8Size) :
    isBoundary (p ++ c :: s) (p.byteLength + k) = false := by
  rw [isBoundary, Text.splitAt?_inside h0 hk, Option.isSome_none]

/-! ### Labels, byte after byte -/

/-- Where a reader of bytes stands. -/
structure State where
  inString : Bool
  inComment : Bool
  /-- The byte before was a backslash that takes its meaning from the next one. -/
  escaped : Bool
  deriving DecidableEq, Repr

namespace State

/-- The state before the first byte. -/
def start : State := ⟨false, false, false⟩

/-- The label of a byte without a meaning of its own, outside comments. -/
def current (state : State) : Label := if state.inString then .string else .code

/-- Reads a byte, of which `next` is the successor: its label, and the state after it. -/
def stepByte (state : State) (byte : UInt8) (next : Option UInt8) : Label × State :=
  if state.inComment then
    if byte = byteOf '\n' then (.code, { state with inComment := false }) else (.comment, state)
  else if state.escaped then (state.current, { state with escaped := false })
  else if byte = byteOf '\\' then (state.current, { state with escaped := true })
  else if byte = byteOf '"' then (.string, { state with inString := !state.inString })
  else if byte = byteOf '/' ∧ ¬ state.inString ∧ next = some (byteOf '/') then
    (.comment, { state with inComment := true })
  else (state.current, state)

/-- Reads the byte at an offset. -/
def step (state : State) (bytes : List UInt8) (pos : Nat) : Read (Label × State) := do
  let byte ← fetch bytes pos
  return state.stepByte byte bytes[pos + 1]?

/-- The state in which a reader of bytes stands between two characters. -/
def ofMode : Mode → State
  | .code => ⟨false, false, false⟩
  | .codeEscape => ⟨false, false, true⟩
  | .string => ⟨true, false, false⟩
  | .stringEscape => ⟨true, false, true⟩
  | .comment => ⟨false, true, false⟩

/-- A byte of a character is read as the character. The byte after it matters only after a slash. -/
theorem stepByte_ofMode (mode : Mode) {c : Char} {byte : UInt8} (hb : byte ∈ String.utf8EncodeChar c)
    (next : Option UInt8) (nextChar : Option Char)
    (hn : c = '/' → (next = some (byteOf '/') ↔ nextChar = some '/')) :
    (ofMode mode).stepByte byte next =
      ((mode.step c nextChar).1, ofMode (mode.step c nextChar).2) := by
  have h1 : byte = byteOf '\n' ↔ c = '\n' := eq_byteOf_iff (by decide) hb
  have h2 : byte = byteOf '\\' ↔ c = '\\' := eq_byteOf_iff (by decide) hb
  have h3 : byte = byteOf '"' ↔ c = '"' := eq_byteOf_iff (by decide) hb
  have h4 : byte = byteOf '/' ↔ c = '/' := eq_byteOf_iff (by decide) hb
  have h5 : byte = byteOf '/' ∧ next = some (byteOf '/') ↔ c = '/' ∧ nextChar = some '/' := by
    rw [h4]
    exact and_congr_right hn
  cases mode with
  | code =>
    simp only [stepByte, ofMode, Mode.step, current, h2, h3, h5, Bool.false_eq_true, if_false,
      not_false_eq_true, true_and, Bool.not_false]
    split_ifs <;> rfl
  | codeEscape => rfl
  | string =>
    simp only [stepByte, ofMode, Mode.step, current, h2, h3, Bool.false_eq_true, if_false,
      not_true_eq_false, false_and, and_false, Bool.not_true, if_true]
    split_ifs <;> rfl
  | stringEscape => rfl
  | comment =>
    simp only [stepByte, ofMode, Mode.step, h1, if_true]
    split_ifs <;> rfl

/-- **The first byte of a character** is read as the character. -/
theorem step_first (mode : Mode) (p s : Text) (c : Char) :
    (ofMode mode).step (p ++ c :: s : Text).bytes p.byteLength =
      .ok ((mode.step c s.head?).1, ofMode (mode.step c s.head?).2) := by
  obtain ⟨b, hb, hget⟩ := Text.getElem?_bytes_char p s c (Char.utf8Size_pos c)
  rw [Nat.add_zero] at hget
  rw [step, fetch_eq hget, ok_bind, stepByte_ofMode mode hb _ s.head?]
  · rfl
  · rintro rfl
    have h := Text.getElem?_bytes_eq_iff (p ++ ['/']) s (show Narrow '/' by decide)
    rw [Text.byteLength_append, List.append_assoc] at h
    exact h

/-- A wide character has no meaning of its own: read again, it changes nothing. -/
theorem step_again {c : Char} (h : ¬ Narrow c) (mode : Mode) (next : Option Char) :
    (mode.step c next).2.step c next = mode.step c next := by
  have ne : ∀ d, Narrow d → c ≠ d := by
    rintro d hd rfl
    exact h hd
  have h1 := ne '\n' (by decide)
  have h2 := ne '\\' (by decide)
  have h3 := ne '"' (by decide)
  have h4 := ne '/' (by decide)
  cases mode <;> simp [Mode.step, h1, h2, h3, h4]

/-- **The other bytes of a character** have its label and leave the state as it is. -/
theorem step_inside (mode : Mode) (p s : Text) {c : Char} {k : Nat} (h0 : 0 < k)
    (hk : k < c.utf8Size) :
    (ofMode (mode.step c s.head?).2).step (p ++ c :: s : Text).bytes (p.byteLength + k) =
      .ok ((mode.step c s.head?).1, ofMode (mode.step c s.head?).2) := by
  have hw : ¬ Narrow c := by
    intro hn
    rw [Narrow] at hn
    omega
  obtain ⟨b, hb, hget⟩ := Text.getElem?_bytes_char p s c hk
  rw [step, fetch_eq hget, ok_bind, stepByte_ofMode _ hb _ s.head?, step_again hw]
  · rfl
  · rintro rfl
    exact absurd (by decide) hw

end State

end PipelineDoc.Cursor
