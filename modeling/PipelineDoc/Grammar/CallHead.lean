import PipelineDoc.Grammar.Path

/-!
# Heads of bindings and calls

    let W+ ID W* =                      a binding head
    run W+ PATH W* (                    a run head
    [binding head W*] run head          a call head

Here `W` is a blank. A head is kept with its blanks, so that its `text` gives back the characters
that were read.
-/

namespace PipelineDoc

/-- `let`. -/
def letWord : Text := ['l', 'e', 't']

/-- `run`. -/
def runWord : Text := ['r', 'u', 'n']

/-- The head `let name =` of a binding. -/
structure LetHead where
  /-- The blanks before the name. -/
  gap : Text
  name : Text
  /-- The blanks before `=`. -/
  pad : Text
  deriving DecidableEq, Repr

/-- The head `run module(` of a call, up to its opening parenthesis. -/
structure RunHead where
  /-- The blanks before the module. -/
  gap : Text
  module : Text
  /-- The blanks before `(`. -/
  pad : Text
  deriving DecidableEq, Repr

/-- The head of a call, with the binding that may stand before it. -/
structure CallHead where
  /-- The binding and the blanks after it. -/
  binding : Option (LetHead × Text)
  run : RunHead
  deriving DecidableEq, Repr

namespace LetHead

/-- The text of a binding head. -/
def text (h : LetHead) : Text := letWord ++ (h.gap ++ (h.name ++ (h.pad ++ ['='])))

/-- The span of the name in a head that stands at an offset. -/
def nameSpan (h : LetHead) (offset : Nat) : Span :=
  .ofLength (offset + (letWord ++ h.gap : Text).byteLength) h.name.byteLength

/-- The binding head at the front of a text. -/
def read? (t : Text) : Option (LetHead × Text) :=
  (t.skip? letWord).bind fun t =>
  let (gap, t) := blanks t
  if gap.isEmpty then none
  else (identifier? t).bind fun (name, t) =>
  let (pad, t) := blanks t
  (t.skip? ['=']).map fun rest => (⟨gap, name, pad⟩, rest)

end LetHead

namespace RunHead

/-- The text of a run head. -/
def text (h : RunHead) : Text := runWord ++ (h.gap ++ (h.module ++ (h.pad ++ ['('])))

/-- The span of the module in a head that stands at an offset. -/
def moduleSpan (h : RunHead) (offset : Nat) : Span :=
  .ofLength (offset + (runWord ++ h.gap : Text).byteLength) h.module.byteLength

/-- The run head at the front of a text. -/
def read? (t : Text) : Option (RunHead × Text) :=
  (t.skip? runWord).bind fun t =>
  let (gap, t) := blanks t
  if gap.isEmpty then none
  else (path? t).bind fun (module, t) =>
  let (pad, t) := blanks t
  (t.skip? ['(']).map fun rest => (⟨gap, module, pad⟩, rest)

end RunHead

namespace CallHead

/-- The binding and the blanks before the run head. -/
def front (h : CallHead) : Text :=
  match h.binding with
  | some (binding, pad) => binding.text ++ pad
  | none => []

/-- The text of a call head. -/
def text (h : CallHead) : Text := h.front ++ h.run.text

/-- The call head at the front of a text. A binding head that is not followed by a run head makes no
call. -/
def read? (t : Text) : Option (CallHead × Text) :=
  match LetHead.read? t with
  | some (binding, rest) =>
    let (pad, rest) := blanks rest
    (RunHead.read? rest).map fun (run, rest) => (⟨some (binding, pad), run⟩, rest)
  | none => (RunHead.read? t).map fun (run, rest) => (⟨none, run⟩, rest)

end CallHead

theorem LetHead.eq_of_read? {t rest : Text} {h : LetHead} (e : LetHead.read? t = some (h, rest)) :
    t = h.text ++ rest := by
  simp only [LetHead.read?, Option.bind_eq_some_iff] at e
  obtain ⟨t₁, e₁, e⟩ := e
  split at e
  · simp at e
  · simp only [Option.bind_eq_some_iff, Option.map_eq_some_iff, Prod.exists, Prod.mk.injEq] at e
    obtain ⟨name, t₂, e₂, r, e₃, rfl, rfl⟩ := e
    rw [Text.skip?_eq_some_iff] at e₁ e₃
    have e₂ := eq_of_identifier? e₂
    have b₁ := blanks_append t₁
    have b₂ := blanks_append t₂
    simp only [LetHead.text, List.append_assoc]
    rw [e₁, ← e₃, b₂, ← e₂, b₁]

theorem RunHead.eq_of_read? {t rest : Text} {h : RunHead} (e : RunHead.read? t = some (h, rest)) :
    t = h.text ++ rest := by
  simp only [RunHead.read?, Option.bind_eq_some_iff] at e
  obtain ⟨t₁, e₁, e⟩ := e
  split at e
  · simp at e
  · simp only [Option.bind_eq_some_iff, Option.map_eq_some_iff, Prod.exists, Prod.mk.injEq] at e
    obtain ⟨path, t₂, e₂, r, e₃, rfl, rfl⟩ := e
    rw [Text.skip?_eq_some_iff] at e₁ e₃
    have e₂ := (eq_of_path? e₂).1
    have b₁ := blanks_append t₁
    have b₂ := blanks_append t₂
    simp only [RunHead.text, List.append_assoc]
    rw [e₁, ← e₃, b₂, ← e₂, b₁]

/-- **A call head splits its text** into the characters it was read from and the rest. -/
theorem CallHead.eq_of_read? {t rest : Text} {h : CallHead}
    (e : CallHead.read? t = some (h, rest)) : t = h.text ++ rest := by
  unfold CallHead.read? at e
  split at e
  · next binding t₁ e₁ =>
    simp only [Option.map_eq_some_iff, Prod.exists, Prod.mk.injEq] at e
    obtain ⟨run, r, e₂, rfl, rfl⟩ := e
    have b := blanks_append t₁
    simp only [CallHead.text, CallHead.front, List.append_assoc]
    rw [LetHead.eq_of_read? e₁, ← RunHead.eq_of_read? e₂, b]
  · simp only [Option.map_eq_some_iff, Prod.exists, Prod.mk.injEq] at e
    obtain ⟨run, r, e₂, rfl, rfl⟩ := e
    simpa [CallHead.text, CallHead.front] using RunHead.eq_of_read? e₂

end PipelineDoc
