import PipelineDoc.Toml.Lexeme
import PipelineDoc.Value

/-!
# Single values of TOML

Strings, numbers, booleans and dates. A number is read as it is written, however large it is.
-/

namespace PipelineDoc.Toml

/-! ### Numbers -/

/-- The digits of a numeral, without the underscores, each of which stands between two digits. -/
def digits? (isDigit : Char → Bool) : Text → Option Text
  | [] => none
  | [c] => if isDigit c then some [c] else none
  | c :: '_' :: rest => if isDigit c then (digits? isDigit rest).map (c :: ·) else none
  | c :: rest => if isDigit c then (digits? isDigit rest).map (c :: ·) else none

/-- The digits of a decimal numeral that does not start with a needless zero. -/
def wholeDigits? (t : Text) : Option Text :=
  (digits? Char.isDigit t).bind fun ds =>
    if ds.head? = some '0' ∧ ds.length ≠ 1 then none else some ds

/-- The number that digits stand for in a base. -/
def ofDigits (base : Nat) (ds : Text) : Nat :=
  ds.foldl (fun n d => base * n + (hexValue? d).getD 0) 0

/-- The number that digits stand for in a base, whose digits are the only ones allowed. -/
def inBase? (base : Nat) (t : Text) : Option Int :=
  (digits? (fun c => (hexValue? c).any (· < base)) t).map fun ds => ofDigits base ds

/-- A number with its sign. -/
def signed (negative : Bool) (n : Nat) : Int := if negative then -n else n

/-- A sign, and the text after it. -/
def sign : Text → Bool × Text
  | '-' :: rest => (true, rest)
  | '+' :: rest => (false, rest)
  | t => (false, t)

/-- An integer: in decimal with a sign or without, or without a sign in another base. -/
def integer? : Text → Option Int
  | '0' :: 'x' :: t => inBase? 16 t
  | '0' :: 'o' :: t => inBase? 8 t
  | '0' :: 'b' :: t => inBase? 2 t
  | t =>
    let (negative, t) := sign t
    (wholeDigits? t).map fun ds => signed negative (ofDigits 10 ds)

/-- A number with a fraction, an exponent or both. -/
def decimal? (t : Text) : Option Decimal := do
  let (negative, t) := sign t
  let mantissa := t.takeWhile fun c => c != 'e' && c != 'E'
  let whole := mantissa.takeWhile (· != '.')
  let fraction ← match mantissa.drop whole.length with
    | [] => some []
    | _ :: fraction => digits? Char.isDigit fraction
  let exponent ← match t.drop mantissa.length with
    | [] => if fraction.isEmpty then none else some 0
    | _ :: exponent =>
      let (negative, exponent) := sign exponent
      (digits? Char.isDigit exponent).map fun ds => signed negative (ofDigits 10 ds)
  let whole ← wholeDigits? whole
  return ⟨signed negative (ofDigits 10 (whole ++ fraction)), exponent - fraction.length⟩

/-- Whether a text stands for infinity, or for no number. -/
def isSpecial (t : Text) : Bool :=
  let t := (sign t).2
  t == ['i', 'n', 'f'] || t == ['n', 'a', 'n']

/-! ### Dates -/

/-- The number at the front of a text that is written with just so many digits. -/
def fixed? (count : Nat) (t : Text) : Option (Nat × Text) :=
  let ds := t.take count
  if ds.length = count ∧ ds.all Char.isDigit then some (ofDigits 10 ds, t.drop count) else none

/-- The text after a given character. -/
def after? (c : Char) : Text → Option Text
  | d :: rest => if d = c then some rest else none
  | [] => none

/-- The number of days in a month. -/
def daysIn (year month : Nat) : Nat :=
  if month = 2 then
    if year % 4 = 0 ∧ (year % 100 ≠ 0 ∨ year % 400 = 0) then 29 else 28
  else if month = 4 ∨ month = 6 ∨ month = 9 ∨ month = 11 then 30
  else 31

/-- What follows a day of the calendar. -/
def afterDay? (t : Text) : Option Text := do
  let (year, t) ← fixed? 4 t
  let (month, t) ← fixed? 2 (← after? '-' t)
  let (day, t) ← fixed? 2 (← after? '-' t)
  if 1 ≤ month ∧ month ≤ 12 ∧ 1 ≤ day ∧ day ≤ daysIn year month then some t else none

/-- What follows hours and minutes. -/
def afterMinutes? (t : Text) : Option Text := do
  let (hour, t) ← fixed? 2 t
  let (minute, t) ← fixed? 2 (← after? ':' t)
  if hour < 24 ∧ minute < 60 then some t else none

/-- What follows a time of the day. The seconds may be left out, and they may be a leap second. -/
def afterTime? (t : Text) : Option Text := do
  let t ← afterMinutes? t
  match t with
  | ':' :: t =>
    let (second, t) ← fixed? 2 t
    if second ≤ 60 then
      match t with
      | '.' :: t =>
        let fraction := t.takeWhile Char.isDigit
        if fraction.isEmpty then none else some (t.drop fraction.length)
      | t => some t
    else none
  | t => some t

/-- Whether a text is the distance from universal time, or empty. -/
def isOffset : Text → Bool
  | [] | ['Z'] | ['z'] => true
  | '+' :: t | '-' :: t => afterMinutes? t == some []
  | _ => false

/-- Whether a text is a day, a time of the day, or a day and a time. -/
def isDate (t : Text) : Bool :=
  match afterDay? t with
  | some [] => true
  | some (c :: rest) =>
    (c == 'T' || c == 't' || c == ' ') && (afterTime? rest).any isOffset
  | none => afterTime? t == some []

/-! ### Words -/

/-- A value that is written as one word. -/
def word? (t : Text) : Option Value :=
  if t = ['t', 'r', 'u', 'e'] then some (.bool true)
  else if t = ['f', 'a', 'l', 's', 'e'] then some (.bool false)
  else if isSpecial t then some (.real none)
  else if isDate t then some (.date t)
  else
    match integer? t with
    | some n => some (.int n)
    | none => (decimal? t).map fun d => .real (some d)

/-- Whether a character may stand in such a word. -/
def isWordChar (c : Char) : Bool :=
  c.isAlphanum || c == '_' || c == '.' || c == '+' || c == '-' || c == ':'

/-- The word at the front of a text. A blank may divide a day from a time. -/
def wordOf (t : Text) : Text :=
  let word := t.takeWhile isWordChar
  match t.drop word.length with
  | ' ' :: rest =>
    if afterDay? word = some [] ∧ rest.head?.any Char.isDigit then
      word ++ ' ' :: rest.takeWhile isWordChar
    else word
  | _ => word

/-- **A value that holds no other values.** -/
def scalar? : Text → Option (Value × Text)
  | '"' :: '"' :: '"' :: rest => (longString? '"' true rest).map fun (s, rest) => (.text s, rest)
  | '"' :: rest => (basicString? rest).map fun (s, rest) => (.text s, rest)
  | '\'' :: '\'' :: '\'' :: rest =>
    (longString? '\'' false rest).map fun (s, rest) => (.text s, rest)
  | '\'' :: rest => (literalString? rest).map fun (s, rest) => (.text s, rest)
  | t =>
    let word := wordOf t
    (word? word).map fun v => (v, t.drop word.length)

end PipelineDoc.Toml
