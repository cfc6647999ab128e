import PipelineDoc.Span
import PipelineDoc.Text.White

/-!
# Texts and byte offsets

A text is its list of characters. Places in a text are named by *byte offsets* into its UTF-8
encoding. The offsets at which the text can be cut without cutting a character are its *boundaries*:
`splitAt?` cuts there and nowhere else, and a slice is two such cuts.
-/

namespace PipelineDoc

/-- A text, as its list of characters. -/
abbrev Text := List Char

/-- An offset that was handed in from outside and is not a boundary of the text. -/
structure BadOffset where
  offset : Nat
  deriving DecidableEq, Repr

namespace Text

/-- The number of bytes of the UTF-8 encoding. -/
def byteLength : Text → Nat
  | [] => 0
  | c :: cs => c.utf8Size + byteLength cs

@[simp] theorem byteLength_nil : byteLength [] = 0 := rfl

@[simp] theorem byteLength_cons (c : Char) (t : Text) :
    byteLength (c :: t) = c.utf8Size + byteLength t := rfl

@[simp] theorem byteLength_append (s t : Text) :
    byteLength (s ++ t) = byteLength s + byteLength t := by
  induction s with
  | nil => simp
  | cons c s ih => simp [ih, Nat.add_assoc]

/-! ### Cuts -/

/-- The text before and after the boundary at offset `n`; none when `n` lies inside a character or
past the end. -/
def splitAt? : Text → Nat → Option (Text × Text)
  | t, 0 => some ([], t)
  | [], _ + 1 => none
  | c :: cs, n + 1 =>
    if c.utf8Size ≤ n + 1 then
      (splitAt? cs (n + 1 - c.utf8Size)).map fun (p, s) => (c :: p, s)
    else none

/-- As `splitAt?`, with the refused offset named. -/
def splitAt (t : Text) (n : Nat) : Except BadOffset (Text × Text) :=
  match t.splitAt? n with
  | some parts => .ok parts
  | none => .error ⟨n⟩

/-- The text before and after the first boundary at or past offset `n`, or the end. -/
def splitAtOrAfter : Text → Nat → Text × Text
  | t, 0 => ([], t)
  | [], _ + 1 => ([], [])
  | c :: cs, n + 1 =>
    let (p, s) := splitAtOrAfter cs (n + 1 - c.utf8Size)
    (c :: p, s)

/-- The longest initial part of at most `n` bytes. -/
def takeBytes : Text → Nat → Text
  | [], _ => []
  | c :: cs, n => if c.utf8Size ≤ n then c :: takeBytes cs (n - c.utf8Size) else []

/-- The text under a span; none unless both ends are boundaries. -/
def slice? (t : Text) (s : Span) : Option Text :=
  (t.splitAt? s.start).bind fun (_, rest) => (rest.splitAt? s.length).map fun (p, _) => p

/-- The text under a span, empty when there is none. -/
def slice (t : Text) (s : Span) : Text := (t.slice? s).getD []

/-- What follows `word` in a text that starts with it. -/
def skip? (t : Text) : (word : Text) → Option Text
  | [] => some t
  | c :: word =>
    match t with
    | [] => none
    | d :: t => if c = d then skip? t word else none

/-! ### White space and lines -/

/-- The text without the white space at its front. -/
def trimStart (t : Text) : Text := t.dropWhile isWhite

/-- The text without the white space at its end. -/
def trimEnd (t : Text) : Text := (t.reverse.dropWhile isWhite).reverse

/-- The lines of a text, each with the newline that ends it. -/
def lines : Text → List Text
  | [] => []
  | c :: cs =>
    if c = '\n' then [c] :: lines cs
    else match lines cs with
      | [] => [[c]]
      | l :: ls => (c :: l) :: ls

@[simp] theorem flatten_lines (t : Text) : t.lines.flatten = t := by
  induction t with
  | nil => rfl
  | cons c cs ih =>
    unfold lines
    split
    · simp [ih]
    · cases h : lines cs with
      | nil => rw [h] at ih; simp at ih; simp [ih]
      | cons l ls => rw [h] at ih; simp at ih; simp [ih]

theorem skip?_eq_some_iff {t word rest : Text} : t.skip? word = some rest ↔ t = word ++ rest := by
  induction word generalizing t with
  | nil => simp [skip?]
  | cons c word ih =>
    cases t with
    | nil => simp [skip?]
    | cons d t =>
      by_cases h : c = d
      · simp [skip?, h, ih]
      · simp [skip?, h, Ne.symm h]

/-- **The cuts of a text** are its decompositions into two parts, by the length of the first. -/
theorem splitAt?_eq_some_iff {t p s : Text} {n : Nat} :
    t.splitAt? n = some (p, s) ↔ t = p ++ s ∧ byteLength p = n := by
  induction t generalizing n p s with
  | nil =>
    cases n with
    | zero => cases p <;> simp [splitAt?, eq_comm]
    | succ n => cases p <;> simp [splitAt?]
  | cons c t ih =>
    cases n with
    | zero =>
      cases p with
      | nil => simp [splitAt?]
      | cons d p => have := Char.utf8Size_pos d; simp [splitAt?]; omega
    | succ n =>
      simp only [splitAt?]
      split
      · next h =>
        cases p with
        | nil => simp
        | cons d p =>
          simp only [Option.map_eq_some_iff, Prod.exists, ih, Prod.mk.injEq, List.cons.injEq,
            List.cons_append, byteLength_cons]
          constructor
          · rintro ⟨q, s', ⟨rfl, hq⟩, ⟨rfl, rfl⟩, rfl⟩
            exact ⟨⟨rfl, rfl⟩, by omega⟩
          · rintro ⟨⟨rfl, rfl⟩, hp⟩
            exact ⟨p, s, ⟨rfl, by omega⟩, ⟨rfl, rfl⟩, rfl⟩
      · next h =>
        cases p with
        | nil => simp
        | cons d p =>
          simp only [List.cons_append, List.cons.injEq, byteLength_cons]
          constructor
          · rintro ⟨⟩
          · rintro ⟨⟨rfl, -⟩, hp⟩; omega

end Text

end PipelineDoc
