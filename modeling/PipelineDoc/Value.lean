import PipelineDoc.Decimal
import PipelineDoc.Text.Basic

/-!
# Data values

Settings, traces and graphs are exchanged as trees of plain values.

A *record* is written as a table that gives its fields by name, or as a list that gives them in
order; a *choice* is written as the name of an alternative, or as a table that has this name as its
only field. What else a value may hold there depends on the `Value.Format`.

`Value.pretty` writes a value as JSON over several lines: two blanks for each level, a blank after a
colon, and empty lists and tables without a break.
-/

namespace PipelineDoc

/-- A plain value. -/
inductive Value where
  | null
  | bool (b : Bool)
  | int (n : Int)
  /-- A number with a fraction or an exponent; none is infinity, or no number. -/
  | real (d : Option Decimal)
  | text (t : Text)
  /-- A date, a time or both, as it is written. -/
  | date (written : Text)
  | list (items : List Value)
  | table (fields : List (Text × Value))
  deriving Inhabited, Repr

namespace Value

/-! ### Reading values -/

/-- The text that a value is. -/
def text? : Value → Option Text
  | .text t => some t
  | _ => none

/-- The list of texts that a value is. -/
def texts? : Value → Option (List Text)
  | .list items => items.mapM text?
  | _ => none

/-- The 32-bit integer that a value is. -/
def int32? : Value → Option Int32
  | .int n =>
    if Int32.minValue.toInt ≤ n ∧ n ≤ Int32.maxValue.toInt then some (Int32.ofInt n) else none
  | _ => none

/-- The 64-bit natural number that a value is. -/
def count? : Value → Option Nat
  | .int n => if 0 ≤ n ∧ n.toNat < UInt64.size then some n.toNat else none
  | _ => none

/-- Reads what may be left out: null stands for nothing. -/
def optional? {α : Type} (read? : Value → Option α) : Value → Option (Option α)
  | .null => some none
  | v => (read? v).map some

/-- Reads a field of a record; a field that is not there has a default. -/
def field? {α : Type} (fields : List (Text × Value)) (name : String) (default : α)
    (read? : Value → Option α) : Option α :=
  match fields.lookup name.toList with
  | some v => read? v
  | none => some default

/-- Reads a field that a record must have. -/
def required? {α : Type} (fields : List (Text × Value)) (name : String)
    (read? : Value → Option α) : Option α :=
  (fields.lookup name.toList).bind read?

/-! ### Records and choices -/

/-- What a file format makes of records and choices. -/
structure Format where
  /-- Whether a list that stands for a record may have items after the last field. -/
  allowsExtraItems : Bool
  /-- Whether a field that has no meaning may hold a value. -/
  isPassable : Value → Bool
  /-- Whether a value may stand beside the name of an alternative. -/
  isBlank : Value → Bool

/-- The fields that a value gives to a record with fields of the given names. A date is a record
that gives none of them. -/
def Format.fields? (f : Format) (names : List String) : Value → Option (List (Text × Value))
  | .table fields =>
    if fields.all fun (name, v) => names.contains (String.ofList name) || f.isPassable v then
      some fields
    else none
  | .list items =>
    if f.allowsExtraItems || items.length ≤ names.length then
      some ((names.map String.toList).zip items)
    else none
  | .date _ => some []
  | _ => none

/-- The name of the alternative that a value chooses. -/
def Format.choice? (f : Format) : Value → Option Text
  | .text name => some name
  | .table [(name, v)] => if f.isBlank v then some name else none
  | _ => none

/-- Records and choices in JSON: a list that stands for a record has no item too many, and null may
stand beside an alternative. -/
def Format.json : Format where
  allowsExtraItems := false
  isPassable _ := true
  isBlank
    | .null => true
    | _ => false

mutual

/-- Whether all numbers in a value can be held: integers in 128 bits, with or without a sign, and
others in double precision. -/
def hasSmallNumbers : Value → Bool
  | .int n => decide (-2 ^ 127 ≤ n ∧ n < 2 ^ 128)
  | .real (some d) => d.isDouble
  | .list items => haveSmallNumbers items
  | .table fields => fieldsHaveSmallNumbers fields
  | _ => true

/-- Whether all numbers in the items of a list can be held. -/
def haveSmallNumbers : List Value → Bool
  | [] => true
  | v :: vs => v.hasSmallNumbers && haveSmallNumbers vs

/-- Whether all numbers in the fields of a table can be held. -/
def fieldsHaveSmallNumbers : List (Text × Value) → Bool
  | [] => true
  | (_, v) :: fields => v.hasSmallNumbers && fieldsHaveSmallNumbers fields

end

/-- Records and choices in TOML: a list that stands for a record may go on after its last field,
where nothing is looked at; numbers in a field without a meaning are looked at all the same; an
empty list or table may stand beside an alternative. -/
def Format.toml : Format where
  allowsExtraItems := true
  isPassable := hasSmallNumbers
  isBlank
    | .list [] | .table [] => true
    | _ => false

/-! ### Writing values -/

/-- A table with the given field names. -/
def record (fields : List (String × Value)) : Value :=
  .table (fields.map fun (name, v) => (name.toList, v))

/-- The text of a string. -/
def ofString (s : String) : Value := .text s.toList

/-- A character inside a quoted text. -/
def escape (c : Char) : Text :=
  if c = '"' then ['\\', '"']
  else if c = '\\' then ['\\', '\\']
  else if c = '\n' then ['\\', 'n']
  else if c = '\r' then ['\\', 'r']
  else if c = '\t' then ['\\', 't']
  else if c.toNat = 8 then ['\\', 'b']
  else if c.toNat = 12 then ['\\', 'f']
  else if c.toNat < 32 then
    ['\\', 'u', '0', '0', (c.toNat / 16).digitChar, (c.toNat % 16).digitChar]
  else [c]

/-- A text in quotes. -/
def quote (t : Text) : Text := '"' :: (t.flatMap escape ++ ['"'])

/-- A new line at a level. -/
def newline (level : Nat) : Text := '\n' :: List.replicate (2 * level) ' '

mutual

/-- A value as JSON, at a level. -/
def pretty (level : Nat) : Value → Text
  | .null => ['n', 'u', 'l', 'l']
  | .bool true => ['t', 'r', 'u', 'e']
  | .bool false => ['f', 'a', 'l', 's', 'e']
  | .int n => (toString n).toList
  | .real none => ['n', 'u', 'l', 'l']
  | .real (some d) => (toString d.mantissa).toList ++ 'e' :: (toString d.exponent).toList
  | .text t => quote t
  | .date written => quote written
  | .list [] => ['[', ']']
  | .list (v :: vs) =>
    '[' :: (newline (level + 1) ++ pretty (level + 1) v ++ prettyItems (level + 1) vs ++
      newline level ++ [']'])
  | .table [] => ['{', '}']
  | .table ((name, v) :: fields) =>
    '{' :: (newline (level + 1) ++ quote name ++ [':', ' '] ++ pretty (level + 1) v ++
      prettyFields (level + 1) fields ++ newline level ++ ['}'])

/-- The further items of a list. -/
def prettyItems (level : Nat) : List Value → Text
  | [] => []
  | v :: vs => ',' :: (newline level ++ pretty level v ++ prettyItems level vs)

/-- The further fields of a table. -/
def prettyFields (level : Nat) : List (Text × Value) → Text
  | [] => []
  | (name, v) :: fields =>
    ',' :: (newline level ++ quote name ++ [':', ' '] ++ pretty level v ++
      prettyFields level fields)

end

end Value

end PipelineDoc
