import PipelineDoc.Word

/-!
# Identifiers and dotted paths

An *identifier* is a word start followed by word characters. A *path* is one or more identifiers
joined by dots; a dot belongs to the path only when an identifier follows it. The segment before the
first dot is the *root* of the path, the next one its *field*.

The recognizers of this folder look at the front of a text. They give what they recognized and the
text after it.
-/

namespace PipelineDoc

/-- Blanks inside a statement: spaces and tabs. -/
def isBlank (c : Char) : Bool := c == ' ' || c == '\t'

/-- The blanks at the front of a text and what follows them. -/
def blanks (t : Text) : Text × Text := (t.takeWhile isBlank, t.dropWhile isBlank)

/-- The identifier at the front of a text. -/
def identifier? : Text → Option (Text × Text)
  | [] => none
  | c :: cs =>
    if isWordStart c then some (c :: cs.takeWhile isWordChar, cs.dropWhile isWordChar) else none

/-- What continues a path: word characters, and dots before an identifier. -/
def pathTail : Text → Text × Text
  | [] => ([], [])
  | c :: cs =>
    if isWordChar c || (c == '.' && cs.head?.any isWordStart) then
      let (p, s) := pathTail cs
      (c :: p, s)
    else ([], c :: cs)

/-- The dotted path at the front of a text. -/
def path? : Text → Option (Text × Text)
  | [] => none
  | c :: cs =>
    if isWordStart c then
      let (p, s) := pathTail cs
      some (c :: p, s)
    else none

/-- The segment before the first dot. -/
def pathRoot (path : Text) : Text := path.takeWhile (· != '.')

/-- The segment after the first dot. -/
def pathField? (path : Text) : Option Text :=
  match path.dropWhile (· != '.') with
  | _ :: rest => some (rest.takeWhile (· != '.'))
  | [] => none

theorem blanks_append (t : Text) : (blanks t).1 ++ (blanks t).2 = t :=
  List.takeWhile_append_dropWhile

theorem eq_of_identifier? {t name rest : Text} (h : identifier? t = some (name, rest)) :
    t = name ++ rest := by
  cases t with
  | nil => simp [identifier?] at h
  | cons c cs =>
    simp only [identifier?] at h
    split at h
    · simp only [Option.some.injEq, Prod.mk.injEq] at h
      obtain ⟨rfl, rfl⟩ := h
      simp [List.takeWhile_append_dropWhile]
    · simp at h

theorem pathTail_append (t : Text) : (pathTail t).1 ++ (pathTail t).2 = t := by
  induction t with
  | nil => rfl
  | cons c cs ih =>
    simp only [pathTail]
    split
    · simp [ih]
    · simp

/-- **A path splits its text** and is not empty. -/
theorem eq_of_path? {t path rest : Text} (h : path? t = some (path, rest)) :
    t = path ++ rest ∧ path ≠ [] := by
  cases t with
  | nil => simp [path?] at h
  | cons c cs =>
    simp only [path?] at h
    split at h
    · simp only [Option.some.injEq, Prod.mk.injEq] at h
      obtain ⟨rfl, rfl⟩ := h
      simp [pathTail_append]
    · simp at h

end PipelineDoc
