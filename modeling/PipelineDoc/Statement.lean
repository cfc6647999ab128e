import PipelineDoc.Bracket
import PipelineDoc.Grammar.Chain
import PipelineDoc.Grammar.CallHead

/-!
# Statements

The statements of a pipeline body are *calls* `run module(args)`, which may be bound to a name by
`let name =`, and *arrow chains*. Anything else in a body is passed over.

There are two ways to look for calls. `Text.statements` reads a whole body and takes the statements
from left to right, each at the first place past the one before. `Text.lineCalls` reads a single
line and knows neither bindings nor chains: it goes from one word `run` to the next.
-/

namespace PipelineDoc

/-- A name bound by `let`, and where it stands. -/
structure Binding where
  name : Text
  span : Span
  deriving DecidableEq, Repr

/-- A call. -/
structure Call where
  start : Nat
  /-- The binding in front of the call. -/
  binding : Option Binding
  module : Text
  moduleSpan : Span
  /-- What stands between the parentheses; none when they are never closed. -/
  args : Option Span
  /-- The offset just past the call, or past its opening parenthesis when that is never closed. -/
  stop : Nat
  deriving DecidableEq, Repr

/-- A chain of endpoints joined by arrows. -/
structure Chain where
  start : Nat
  endpoints : List (Text × Span)
  /-- The offset just past the last endpoint. -/
  stop : Nat
  deriving DecidableEq, Repr

/-- The pairs of consecutive endpoints. -/
def Chain.links (chain : Chain) : List (Text × Text) :=
  let names := chain.endpoints.map fun (name, _) => name
  names.zip names.tail

/-- A statement of a pipeline body. -/
inductive Statement where
  | call (call : Call)
  | arrow (chain : Chain)
  deriving DecidableEq, Repr

/-- Where a statement starts. -/
def Statement.start : Statement → Nat
  | .call c => c.start
  | .arrow c => c.start

/-- The offset just past a statement. -/
def Statement.stop : Statement → Nat
  | .call c => c.stop
  | .arrow c => c.stop

/-! ### Calls and chains as read -/

/-- A call as it was read: its head, and the text between its parentheses if they are closed. -/
structure CallForm where
  head : CallHead
  inside : Option Text
  deriving DecidableEq, Repr

namespace CallForm

/-- The text of a call. -/
def text (f : CallForm) : Text :=
  match f.inside with
  | some inside => f.head.text ++ (inside ++ [Bracket.paren.closer])
  | none => f.head.text

/-- The call at the front of a text. -/
def read? (t : Text) : Option (CallForm × Text) :=
  (CallHead.read? t).map fun (head, rest) =>
    match Bracket.paren.inside? rest with
    | some (inside, after) => (⟨head, some inside⟩, after)
    | none => (⟨head, none⟩, rest)

/-- The call that a form makes at an offset. -/
def place (f : CallForm) (offset : Nat) : Call where
  start := offset
  binding := f.head.binding.map fun (h, _) => ⟨h.name, h.nameSpan offset⟩
  module := f.head.run.module
  moduleSpan := f.head.run.moduleSpan (offset + f.head.front.byteLength)
  args := f.inside.map fun inside =>
    .ofLength (offset + f.head.text.byteLength) inside.byteLength
  stop := offset + f.text.byteLength

theorem eq_of_read? {t rest : Text} {f : CallForm} (h : CallForm.read? t = some (f, rest)) :
    t = f.text ++ rest := by
  simp only [CallForm.read?, Option.map_eq_some_iff, Prod.exists] at h
  obtain ⟨head, r, hr, h⟩ := h
  have hr := CallHead.eq_of_read? hr
  split at h
  · next inside after hin =>
    simp only [Prod.mk.injEq] at h
    obtain ⟨rfl, rfl⟩ := h
    rw [hr, Bracket.eq_of_inside? hin]
    simp [CallForm.text]
  · simp only [Prod.mk.injEq] at h
    obtain ⟨rfl, rfl⟩ := h
    exact hr

theorem length_text_pos (f : CallForm) : 0 < f.text.length := by
  unfold CallForm.text
  split <;>
    simp only [CallHead.text, RunHead.text, List.length_append, List.length_cons,
      List.length_nil] <;>
    omega

end CallForm

/-- The chain that a chain head makes at an offset. -/
def ChainHead.place (h : ChainHead) (offset : Nat) : Chain where
  start := offset
  endpoints := h.endpoints offset
  stop := offset + h.text.byteLength

/-- The call at the front of a text that stands at an offset. -/
def call? (offset : Nat) (t : Text) : Option Call :=
  (CallForm.read? t).map fun (f, _) => f.place offset

/-- The chain at the front of a text that stands at an offset. -/
def chain? (offset : Nat) (t : Text) : Option Chain :=
  (ChainHead.read? t).map fun (h, _) => h.place offset

/-- The statement at the front of a text that stands at an offset. A call is tried first. -/
def statement? (offset : Nat) (t : Text) : Option Statement :=
  match call? offset t with
  | some c => some (.call c)
  | none => (chain? offset t).map .arrow

/-- Whether a statement may start with the character `c` after the character `prev`: a word starts
there that continues neither a word nor a path. -/
def startsStatement (prev : Option Char) (c : Char) : Bool :=
  isWordStart c && prev.all fun p => !isWordChar p && p != '.'

/-- The statements of a text that stands at an offset and is read from a mode on, apart from those
that start before `barrier`. -/
def statementsFrom (offset barrier : Nat) (prev : Option Char) (mode : Mode) : Text → List Statement
  | [] => []
  | c :: cs =>
    let (label, mode') := mode.step c cs.head?
    let here :=
      if barrier ≤ offset ∧ label = .code ∧ startsStatement prev c then statement? offset (c :: cs)
      else none
    match here with
    | some s => s :: statementsFrom (offset + c.utf8Size) s.stop (some c) mode' cs
    | none => statementsFrom (offset + c.utf8Size) barrier (some c) mode' cs

/-- The calls of a text that stands at an offset, from one word `run` to the next. After each call,
or after a `run` that makes none, the text is read from code on. -/
def lineCallsFrom (offset : Nat) (prev : Option Char) (t : Text) : List Call :=
  match _ : findWord? (fun () => runWord) [()] prev .code t with
  | none => []
  | some f =>
    let start := offset + f.before.byteLength
    match _ : CallForm.read? (runWord ++ f.after) with
    | some (form, rest) =>
      form.place start :: lineCallsFrom (start + form.text.byteLength) form.text.getLast? rest
    | none => lineCallsFrom (start + runWord.byteLength) runWord.getLast? f.after
termination_by t.length
decreasing_by
  · have hf := length_after_findWord? ‹findWord? _ _ _ _ _ = _›
    have hr := congrArg List.length (CallForm.eq_of_read? ‹CallForm.read? _ = _›)
    have := form.length_text_pos
    simp only [List.length_append] at hr
    omega
  · have hf := length_after_findWord? ‹findWord? _ _ _ _ _ = _›
    simp only [runWord, List.length_cons, List.length_nil] at hf
    omega

namespace Text

/-- The statements of a pipeline body, in order. -/
def statements (body : Text) : List Statement := statementsFrom 0 0 none .code body

/-- The calls of a line, in order. -/
def lineCalls (line : Text) : List Call := lineCallsFrom 0 none line

/-- The binding at the start of a line, after its indentation. -/
def binding? (line : Text) : Option Binding :=
  let indent : Text := line.takeWhile isWhite
  (LetHead.read? line.trimStart).map fun (h, _) => ⟨h.name, h.nameSpan indent.byteLength⟩

/-- The call that starts at an offset. -/
def readCall (t : Text) (offset : Nat) : Except BadOffset (Option Call) := do
  let (_, rest) ← t.splitAt offset
  return call? offset rest

/-- The arrow chain that starts at an offset. -/
def readChain (t : Text) (offset : Nat) : Except BadOffset (Option Chain) := do
  let (_, rest) ← t.splitAt offset
  return chain? offset rest

end Text

end PipelineDoc
