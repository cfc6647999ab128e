import PipelineDoc.Text.Basic

/-!
# Blanks, strings and keys of TOML

The readers look at the front of a text and give what they read and the text after it. A string is
read in two steps: first it is cut at its closing quotes, where a backslash hides the next
character; then its escapes are resolved.
-/

namespace PipelineDoc.Toml

/-! ### Characters -/

/-- Blanks on a line. -/
def isSpace (c : Char) : Bool := c == ' ' || c == '\t'

/-- Whether a character may stand in a comment or a string: no control character but the tab. -/
def isPrintable (c : Char) : Bool := c == '\t' || (decide (32 ≤ c.toNat) && c.toNat != 127)

/-- Whether a character may stand in a key without quotes. -/
def isKeyChar (c : Char) : Bool := c.isAlphanum || c == '_' || c == '-'

/-! ### Lines -/

/-- The text after the blanks at its front. -/
def skipSpace (t : Text) : Text := t.dropWhile isSpace

/-- What follows an end of line. -/
def lineEnd? : Text → Option Text
  | '\n' :: rest => some rest
  | '\r' :: '\n' :: rest => some rest
  | _ => none

/-- The text after a comment, if one is there. -/
def skipComment : Text → Text
  | '#' :: rest => rest.dropWhile isPrintable
  | t => t

/-- What follows the end of a line, after blanks and perhaps a comment. -/
def lineRest? (t : Text) : Option Text :=
  match skipComment (skipSpace t) with
  | [] => some []
  | t => lineEnd? t

/-- The text after blanks, comments and ends of lines, of which there are at most `fuel`. -/
def skipLines : (fuel : Nat) → Text → Text
  | 0, t => t
  | fuel + 1, t =>
    let t := skipComment (skipSpace t)
    match lineEnd? t with
    | some rest => skipLines fuel rest
    | none => t

/-! ### Escapes -/

/-- The number that a hexadecimal digit stands for. -/
def hexValue? (c : Char) : Option Nat :=
  if c.isDigit then some (c.toNat - 48)
  else if 'a' ≤ c ∧ c ≤ 'f' then some (c.toNat - 87)
  else if 'A' ≤ c ∧ c ≤ 'F' then some (c.toNat - 55)
  else none

/-- The character with a code point in hexadecimal. -/
def codePoint? (digits : Text) : Option Char := do
  let values ← digits.mapM hexValue?
  let n := values.foldl (fun n d => 16 * n + d) 0
  if n.isValidChar then some (Char.ofNat n) else none

/-- The character that a letter after a backslash stands for. -/
def escaped? (c : Char) : Option Char :=
  [('b', '\x08'), ('t', '\t'), ('n', '\n'), ('f', '\x0c'), ('r', '\r'), ('e', '\x1b'),
    ('"', '"'), ('\\', '\\')].lookup c

/-- Whether only blanks stand before the end of the line. -/
def isLineEnding (t : Text) : Bool := (lineEnd? (skipSpace t)).isSome

/-- Resolves the escapes of a string. A backslash at the end of a line removes all blanks and ends
of lines up to the next other character; `trim` says that this is going on. -/
def unescape? (trim : Bool) : Text → Option Text
  | [] => some []
  | '\\' :: 'x' :: a :: b :: rest => do
    let char ← codePoint? [a, b]
    return char :: (← unescape? false rest)
  | '\\' :: 'u' :: a :: b :: c :: d :: rest => do
    let char ← codePoint? [a, b, c, d]
    return char :: (← unescape? false rest)
  | '\\' :: 'U' :: a :: b :: c :: d :: e :: f :: g :: h :: rest => do
    let char ← codePoint? [a, b, c, d, e, f, g, h]
    return char :: (← unescape? false rest)
  | '\\' :: c :: rest =>
    if isLineEnding (c :: rest) then unescape? true rest
    else do
      let char ← escaped? c
      return char :: (← unescape? false rest)
  | c :: rest =>
    if trim && (isSpace c || c == '\n' || c == '\r') then unescape? true rest
    else (unescape? false rest).map (c :: ·)

/-! ### Strings -/

/-- The inside of a string in double quotes, as it is written. -/
def basicInside? : Text → Option (Text × Text)
  | [] => none
  | '"' :: rest => some ([], rest)
  | '\\' :: c :: rest =>
    if isPrintable c then (basicInside? rest).map fun (s, rest) => ('\\' :: c :: s, rest) else none
  | c :: rest =>
    if isPrintable c then (basicInside? rest).map fun (s, rest) => (c :: s, rest) else none

/-- The rest of a string in double quotes. -/
def basicString? (t : Text) : Option (Text × Text) := do
  let (inside, rest) ← basicInside? t
  return (← unescape? false inside, rest)

/-- The end of a string in threefold quotes: up to two quotes that belong to it, and three that do
not. -/
def longEnd? (quote : Char) : Text → Option (Text × Text)
  | a :: b :: c :: rest =>
    if a = quote ∧ b = quote ∧ c = quote then
      let own := (rest.takeWhile (· == quote)).take 2
      some (own, rest.drop own.length)
    else none
  | _ => none

/-- The inside of a string in threefold quotes, as it is written. If `escapes` is set, a backslash
hides the next character; `hidden` says that there was one. -/
def longInside? (quote : Char) (escapes hidden : Bool) : Text → Option (Text × Text)
  | [] => none
  | '\r' :: '\n' :: rest =>
    (longInside? quote escapes false rest).map fun (s, rest) => ('\r' :: '\n' :: s, rest)
  | c :: rest =>
    match if hidden then none else longEnd? quote (c :: rest) with
    | some found => some found
    | none =>
      if isPrintable c || c == '\n' then
        (longInside? quote escapes (escapes && !hidden && c == '\\') rest).map
          fun (s, rest) => (c :: s, rest)
      else none

/-- The rest of a string in threefold quotes. An end of line at its front does not belong to it. -/
def longString? (quote : Char) (escapes : Bool) (t : Text) : Option (Text × Text) := do
  let (inside, rest) ← longInside? quote escapes false ((lineEnd? t).getD t)
  if escapes then return (← unescape? false inside, rest) else return (inside, rest)

/-- The rest of a string in single quotes. -/
def literalString? (t : Text) : Option (Text × Text) :=
  let inside := t.takeWhile fun c => isPrintable c && c != '\''
  match t.drop inside.length with
  | '\'' :: rest => some (inside, rest)
  | _ => none

/-! ### Keys -/

/-- One part of a key. -/
def simpleKey? : Text → Option (Text × Text)
  | '"' :: rest => basicString? rest
  | '\'' :: rest => literalString? rest
  | t =>
    let name := t.takeWhile isKeyChar
    if name.isEmpty then none else some (name, t.drop name.length)

/-- A key of at most the given number of parts, joined by dots. -/
def keyWithin? : (parts : Nat) → Text → Option (List Text × Text)
  | 0, _ => none
  | parts + 1, t => do
    let (name, t) ← simpleKey? t
    match skipSpace t with
    | '.' :: rest =>
      let (names, rest) ← keyWithin? parts (skipSpace rest)
      return (name :: names, rest)
    | _ => return ([name], t)

/-- How many parts a key may have, and how deep values may be nested. -/
def depthLimit : Nat := 80

/-- A key. -/
def key? (t : Text) : Option (List Text × Text) := keyWithin? depthLimit t

end PipelineDoc.Toml
