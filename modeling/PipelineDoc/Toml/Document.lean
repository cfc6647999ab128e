import PipelineDoc.Toml.Scalar
import PipelineDoc.Toml.Tree

/-!
# Documents of TOML

A document is a sequence of lines: headers, which open tables, and keys with their values, which go
into the open table. `Toml.parse?` gives the table that a document describes.
-/

namespace PipelineDoc.Toml

/-! ### Values -/

/-- The rest of a list: at most `fuel` items divided by commas, the last of which may be followed by
one. -/
def items? (item? : Text → Option (Value × Text)) : (fuel : Nat) → Text → Option (List Value × Text)
  | 0, _ => none
  | fuel + 1, t =>
    match skipLines t.length t with
    | ']' :: rest => some ([], rest)
    | t => do
      let (v, t) ← item? t
      match skipLines t.length t with
      | ',' :: rest =>
        let (vs, rest) ← items? item? fuel rest
        return (v :: vs, rest)
      | ']' :: rest => return ([v], rest)
      | _ => none

/-- A key and its value. -/
def pair? (item? : Text → Option (Value × Text)) (t : Text) :
    Option ((List Text × Value) × Text) := do
  let (key, t) ← key? t
  match skipSpace t with
  | '=' :: rest =>
    let (v, t) ← item? (skipSpace rest)
    return ((key, v), t)
  | _ => none

/-- The rest of a table in braces: at most `fuel` keys with their values, divided by commas, the
last of which may be followed by one. -/
def pairs? (item? : Text → Option (Value × Text)) :
    (fuel : Nat) → Fields → Text → Option (Fields × Text)
  | 0, _, _ => none
  | fuel + 1, fields, t =>
    match skipLines t.length t with
    | '}' :: rest => some (fields, rest)
    | t => do
      let ((key, v), t) ← pair? item? t
      let fields ← fields.assign? key v
      match skipLines t.length t with
      | ',' :: rest => pairs? item? fuel fields rest
      | '}' :: rest => return (fields, rest)
      | _ => none

/-- A value in which others are nested at most so deep. -/
def value? : (depth : Nat) → Text → Option (Value × Text)
  | 0, t => scalar? t
  | depth + 1, t =>
    match t with
    | '[' :: rest => (items? (value? depth) t.length rest).map fun (vs, rest) => (.list vs, rest)
    | '{' :: rest =>
      (pairs? (value? depth) t.length [] rest).map fun (fields, rest) => (fields.toValue, rest)
    | t => scalar? t

/-! ### Lines -/

/-- A document that is being read: its fields, and the path of the open table. -/
structure Document where
  fields : Fields
  current : List Text

/-- The rest of a header, which ends with the given brackets. -/
def header? (brackets : Text) (t : Text) : Option (List Text × Text) := do
  let (path, t) ← key? (skipSpace t)
  let t ← (skipSpace t).skip? brackets
  return (path, ← lineRest? t)

/-- Reads one line that is neither empty nor a comment. -/
def line? (d : Document) (t : Text) : Option (Document × Text) :=
  match t with
  | '[' :: '[' :: rest => do
    let (path, rest) ← header? [']', ']'] rest
    return (⟨← d.fields.openNext? path, path⟩, rest)
  | '[' :: rest => do
    let (path, rest) ← header? [']'] rest
    return (⟨← d.fields.openTable? path, path⟩, rest)
  | t => do
    let ((key, v), t) ← pair? (value? depthLimit) t
    let rest ← lineRest? t
    let fields ← d.fields.alter? .implied (Fields.assign? key v) d.current
    return (⟨fields, d.current⟩, rest)

/-- Reads the lines of a document, of which there are at most `fuel`. -/
def lines? : (fuel : Nat) → Document → Text → Option Document
  | 0, _, _ => none
  | fuel + 1, d, t =>
    match skipLines t.length t with
    | [] => some d
    | t => (line? d t).bind fun (d, rest) => lines? fuel d rest

/-- **Reads a document.** A byte order mark at its front is passed over. -/
def parse? (t : Text) : Option Value :=
  let t := (t.skip? ['\ufeff']).getD t
  (lines? (t.length + 1) ⟨[], []⟩ t).map fun d => d.fields.toValue

end PipelineDoc.Toml
