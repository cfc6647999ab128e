import PipelineDoc.Grammar.Path

/-!
# References in arguments

The arguments of a call refer to values by dotted paths. Not every path in them is a reference: a
numeral such as `1.5e3` or `0x1f` is none, nor is a path that continues a member access
(`f().field`), a key of an object (`key: …`) or one of the literal words. Strings and comments are
passed over.
-/

namespace PipelineDoc

/-- A path that refers to a value, and where it stands. -/
structure Reference where
  path : Text
  span : Span
  deriving DecidableEq, Repr

namespace Reference

/-- The name that a reference looks up. -/
def root (r : Reference) : Text := pathRoot r.path

/-- Where the root stands. -/
def rootSpan (r : Reference) : Span := .ofLength r.span.start r.root.byteLength

/-- The field that a reference selects first. -/
def field? (r : Reference) : Option Text := pathField? r.path

end Reference

/-- The words that stand for values of their own: `true`, `false` and `null`. -/
def literalWords : List Text :=
  [['t', 'r', 'u', 'e'], ['f', 'a', 'l', 's', 'e'], ['n', 'u', 'l', 'l']]

/-- Whether a path is a reference, by the character before it and the text after it. -/
def isReference (prev : Option Char) (path rest : Text) : Bool :=
  !(prev == some '.' || rest.trimStart.head? == some ':' || literalWords.contains (pathRoot path))

/-- What an argument text has at its front: the offset past it, and the reference that it makes. -/
structure ArgumentToken where
  stop : Nat
  reference : Option Reference

/-- The numeral or the path at the front of a text that stands at an offset after `prev`. A numeric
character starts a numeral, whether or not it may start a word as well. -/
def argumentToken? (offset : Nat) (prev : Option Char) (t : Text) : Option ArgumentToken :=
  if t.head?.any isNumeric then
    let numeral : Text := t.takeWhile fun c => isWordChar c || c == '.'
    some ⟨offset + numeral.byteLength, none⟩
  else (path? t).map fun (path, rest) =>
    let span := Span.ofLength offset path.byteLength
    ⟨span.stop, if isReference prev path rest then some ⟨path, span⟩ else none⟩

/-- The references of a text that stands at an offset and is read from a mode on, apart from those
that start before `barrier`. -/
def referencesFrom (offset barrier : Nat) (prev : Option Char) (mode : Mode) : Text → List Reference
  | [] => []
  | c :: cs =>
    let (label, mode') := mode.step c cs.head?
    let here :=
      if barrier ≤ offset ∧ label = .code then argumentToken? offset prev (c :: cs) else none
    match here with
    | some token =>
      token.reference.toList ++ referencesFrom (offset + c.utf8Size) token.stop (some c) mode' cs
    | none => referencesFrom (offset + c.utf8Size) barrier (some c) mode' cs

/-- The references of an argument text, in order. -/
def Text.references (args : Text) : List Reference := referencesFrom 0 0 none .code args

end PipelineDoc
