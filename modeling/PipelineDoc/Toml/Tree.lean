import PipelineDoc.Value

/-!
# Tables of TOML

While a document is read its tables are kept apart by their origin, since this decides what may be
added to them. A header opens a table that no header has opened before and no dotted key has made. A
dotted key goes through tables that were made on the way to others, but through none that has a
header. Values, and with them lists and tables in braces, are closed.
-/

namespace PipelineDoc.Toml

/-- How a table came about. -/
inductive Origin where
  /-- By a header of its own. -/
  | header
  /-- On the way to the table of a header. -/
  | implied
  /-- On the way to the value of a dotted key. -/
  | dotted
  deriving DecidableEq, Repr

/-- What a key stands for. -/
inductive Item where
  | value (v : Value)
  | table (origin : Origin) (fields : List (Text × Item))
  /-- A list of tables, each under a header in double brackets; the last one is open. -/
  | tables (earlier : List (List (Text × Item))) (last : List (Text × Item))

/-- The fields of a table. -/
abbrev Fields := List (Text × Item)

namespace Fields

/-- Gives a key that is there another item. -/
def set (fields : Fields) (name : Text) (item : Item) : Fields :=
  fields.map fun (other, old) => if other == name then (other, item) else (other, old)

/-- Changes the table at a path, whose tables are made as needed; `origin` says by what the path is
given. None when the path leads through something that cannot be extended in this way. -/
def alter? (origin : Origin) (change : Fields → Option Fields) : List Text → Fields → Option Fields
  | [], fields => change fields
  | name :: path, fields =>
    match fields.lookup name with
    | none =>
      (alter? origin change path []).map fun inner => fields ++ [(name, .table origin inner)]
    | some (.table old inner) =>
      if origin = .dotted ∧ old = .header then none
      else (alter? origin change path inner).map fun inner => set fields name (.table old inner)
    | some (.tables earlier last) =>
      if origin = .dotted then none
      else (alter? origin change path last).map fun last => set fields name (.tables earlier last)
    | some (.value _) => none

/-- Adds a key that is not there. -/
def add? (name : Text) (item : Item) (fields : Fields) : Option Fields :=
  match fields.lookup name with
  | none => some (fields ++ [(name, item)])
  | some _ => none

/-- Sets a dotted key to a value. -/
def assign? (key : List Text) (v : Value) (fields : Fields) : Option Fields := do
  let name ← key.getLast?
  alter? .dotted (add? name (.value v)) key.dropLast fields

/-- Opens the table of a header. -/
def openTable? (path : List Text) (fields : Fields) : Option Fields := do
  let name ← path.getLast?
  alter? .implied (fun inner =>
    match inner.lookup name with
    | none => some (inner ++ [(name, .table .header [])])
    | some (.table .implied old) => some (set inner name (.table .header old))
    | some _ => none) path.dropLast fields

/-- Opens a further table in the list of a header in double brackets. -/
def openNext? (path : List Text) (fields : Fields) : Option Fields := do
  let name ← path.getLast?
  alter? .implied (fun inner =>
    match inner.lookup name with
    | none => some (inner ++ [(name, .tables [] [])])
    | some (.tables earlier last) => some (set inner name (.tables (earlier ++ [last]) []))
    | some _ => none) path.dropLast fields

end Fields

mutual

/-- What a key stands for, as a value. -/
def Item.toValue : Item → Value
  | .value v => v
  | .table _ fields => .table (fieldValues fields)
  | .tables earlier last => .list (tableValues earlier ++ [.table (fieldValues last)])

/-- The fields of a table, as values. -/
def fieldValues : List (Text × Item) → List (Text × Value)
  | [] => []
  | (name, item) :: fields => (name, item.toValue) :: fieldValues fields

/-- The tables of a list, as values. -/
def tableValues : List (List (Text × Item)) → List Value
  | [] => []
  | fields :: rest => .table (fieldValues fields) :: tableValues rest

end

/-- A table as a value. -/
def Fields.toValue (fields : Fields) : Value := .table (fieldValues fields)

end PipelineDoc.Toml
