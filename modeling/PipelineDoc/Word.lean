import PipelineDoc.Lexical
import PipelineDoc.Text.Alphabetic
import PipelineDoc.Text.Numeric

/-!
# Words

A *word* is a piece of text that is not glued to a word character on either side. Keywords are
searched for as whole words in code. A search reads its text from code on, so it is meant for a
place that is code: the start of a text, or just past an earlier find.
-/

namespace PipelineDoc

/-- Whether a character may stand inside an identifier. -/
def isWordChar (c : Char) : Bool := isAlphabetic c || isNumeric c || c == '_'

/-- Whether a character may start an identifier. -/
def isWordStart (c : Char) : Bool := isAlphabetic c || c == '_'

/-- Whether a neighbour leaves a word free on its side: there is none, or it is no word
character. -/
def isClear (neighbour : Option Char) : Bool := neighbour.all fun c => !isWordChar c

/-- A keyword found in a text: the text before it, the keyword, and the text after it. -/
structure Find (α : Type) where
  before : Text
  key : α
  after : Text

/-- The first of the candidates whose spelling stands as a whole word at the front of `t`, with the
text after it; `prev` is the character before `t`. -/
def wordAt? {α : Type} (spelling : α → Text) (candidates : List α) (prev : Option Char) (t : Text) :
    Option (α × Text) :=
  candidates.findSome? fun a =>
    match t.skip? (spelling a) with
    | some after => if isClear prev && isClear after.head? then some (a, after) else none
    | none => none

/-- The first place in code where one of the candidates stands as a whole word. -/
def findWord? {α : Type} (spelling : α → Text) (candidates : List α) :
    Option Char → Mode → Text → Option (Find α)
  | _, _, [] => none
  | prev, mode, c :: cs =>
    let (label, mode') := mode.step c cs.head?
    match (if label = .code then wordAt? spelling candidates prev (c :: cs) else none) with
    | some (a, after) => some ⟨[], a, after⟩
    | none =>
      (findWord? spelling candidates (some c) mode' cs).map fun f =>
        { f with before := c :: f.before }

theorem findWord?_cons {α : Type} (spelling : α → Text) (candidates : List α) (prev : Option Char)
    (mode : Mode) (c : Char) (cs : Text) :
    findWord? spelling candidates prev mode (c :: cs) =
      match if (mode.step c cs.head?).1 = .code then wordAt? spelling candidates prev (c :: cs)
        else none with
      | some (a, after) => some ⟨[], a, after⟩
      | none => (findWord? spelling candidates (some c) (mode.step c cs.head?).2 cs).map
          fun f => { f with before := c :: f.before } := rfl

theorem eq_of_wordAt? {α : Type} {spelling : α → Text} {candidates : List α} {prev : Option Char}
    {t after : Text} {a : α} (h : wordAt? spelling candidates prev t = some (a, after)) :
    t = spelling a ++ after := by
  obtain ⟨b, -, hb⟩ := List.exists_of_findSome?_eq_some h
  split at hb
  · next rest hrest =>
    split at hb
    · simp only [Option.some.injEq, Prod.mk.injEq] at hb
      obtain ⟨rfl, rfl⟩ := hb
      exact Text.skip?_eq_some_iff.1 hrest
    · simp at hb
  · simp at hb

/-- **A find splits its text** at the keyword. -/
theorem eq_of_findWord? {α : Type} {spelling : α → Text} {candidates : List α} {prev : Option Char}
    {mode : Mode} {t : Text} {f : Find α} (h : findWord? spelling candidates prev mode t = some f) :
    t = f.before ++ (spelling f.key ++ f.after) := by
  induction t generalizing prev mode f with
  | nil => simp [findWord?] at h
  | cons c t ih =>
    simp only [findWord?] at h
    split at h
    · next a after ha =>
      simp only [Option.some.injEq] at h
      subst h
      split at ha
      · simpa using eq_of_wordAt? ha
      · simp at ha
    · obtain ⟨g, hg, rfl⟩ := Option.map_eq_some_iff.1 h
      simpa using ih hg

/-- The text after a find is shorter than the text searched, by the keyword at least. -/
theorem length_after_findWord? {α : Type} {spelling : α → Text} {candidates : List α}
    {prev : Option Char} {mode : Mode} {t : Text} {f : Find α}
    (h : findWord? spelling candidates prev mode t = some f) :
    (spelling f.key).length + f.after.length ≤ t.length := by
  have := congrArg List.length (eq_of_findWord? h)
  simp at this
  omega

namespace Text

/-- Whether the `length` bytes at offset `start` stand as a whole word. -/
def isWholeWord (t : Text) (start length : Nat) : Except BadOffset Bool := do
  let (before, _) ← t.splitAt start
  let (_, after) ← t.splitAt (start + length)
  return isClear before.getLast? && isClear after.head?

/-- Whether a search of `t` for the empty word would look inside a character: there is code of more
than one byte. -/
def hasWideCode (t : Text) : Bool := t.codeChars.any fun c => decide (1 < c.utf8Size)

/-- The first place at or after the offset `start` where one of the keywords stands as a whole word
in code. The rest of a character that `start` cuts is code. An empty keyword is looked for at every
byte of code that is passed, so it fails on the first character of several bytes. -/
def nextKeyword (t : Text) (keywords : List Text) (start : Nat) :
    Except BadOffset (Option (Nat × Text)) :=
  let (passed, rest) := t.splitAtOrAfter start
  let cut := decide (start ≠ passed.byteLength ∧ start < t.byteLength)
  let found := findWord? id keywords passed.getLast? .code rest
  let skipped := match found with
    | some f => f.before
    | none => rest
  if keywords.contains [] && (cut || skipped.hasWideCode) then .error ⟨start⟩
  else .ok (found.map fun f => (passed.byteLength + f.before.byteLength, f.key))

end Text

end PipelineDoc
