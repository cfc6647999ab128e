import PipelineDoc.Bracket
import PipelineDoc.Grammar.DeclarationHead

/-!
# Declarations

A document declares modules and pipelines:

    module "name" { body }
    pipeline "name" { body }

It is read from one declaration keyword in code to the next. A keyword that introduces no
declaration is *rejected*, with the reason, and reading goes on after the keyword; after a
declaration it goes on past the closing brace. In both cases the rest is read from code on.

A module may hold a *runtime block* `runtime { … }` in its body.
-/

namespace PipelineDoc

/-- The two kinds of declaration. -/
inductive Declaration.Kind where
  | module
  | pipeline
  deriving DecidableEq, Repr

namespace Declaration.Kind

/-- All kinds, in the order in which their keywords are tried. -/
def all : List Declaration.Kind := [.module, .pipeline]

/-- The keyword that introduces a declaration of a kind. -/
def keyword : Declaration.Kind → Text
  | .module => ['m', 'o', 'd', 'u', 'l', 'e']
  | .pipeline => ['p', 'i', 'p', 'e', 'l', 'i', 'n', 'e']

theorem length_keyword_pos (kind : Declaration.Kind) : 0 < kind.keyword.length := by
  cases kind <;> decide

end Declaration.Kind

/-- A declaration, by the places of its parts in the document. -/
structure Declaration where
  kind : Declaration.Kind
  name : Text
  nameSpan : Span
  keywordSpan : Span
  /-- What stands between the braces. -/
  body : Span
  deriving DecidableEq, Repr

/-- A keyword that introduces no declaration. -/
structure Rejection where
  kind : Declaration.Kind
  keywordSpan : Span
  reason : HeaderFault
  deriving DecidableEq, Repr

/-- What became of a declaration keyword. -/
inductive Header where
  | accepted (declaration : Declaration)
  | rejected (rejection : Rejection)
  deriving DecidableEq, Repr

namespace Header

/-- The declaration that a header makes. -/
def declaration? : Header → Option Declaration
  | .accepted d => some d
  | .rejected _ => none

/-- The rejection of a header that makes none. -/
def rejection? : Header → Option Rejection
  | .accepted _ => none
  | .rejected r => some r

end Header

/-- A declaration as it was read after its keyword: its head and the text of its body. -/
structure DeclarationForm where
  head : DeclarationHead
  body : Text
  deriving DecidableEq, Repr

namespace DeclarationForm

/-- The text of a declaration after its keyword. -/
def text (f : DeclarationForm) : Text := f.head.text ++ (f.body ++ [Bracket.brace.closer])

/-- Reads on after a keyword. -/
def read (t : Text) : Except HeaderFault (DeclarationForm × Text) :=
  match DeclarationHead.read t with
  | .error reason => .error reason
  | .ok (head, rest) =>
    match Bracket.brace.inside? rest with
    | some (body, after) => .ok (⟨head, body⟩, after)
    | none => .error .unterminated

/-- The declaration that a form makes after a keyword at an offset. -/
def place (f : DeclarationForm) (kind : Declaration.Kind) (offset : Nat) : Declaration :=
  let after := offset + kind.keyword.byteLength
  { kind
    name := f.head.name
    nameSpan := f.head.nameSpan after
    keywordSpan := .ofLength offset kind.keyword.byteLength
    body := .ofLength (after + f.head.text.byteLength) f.body.byteLength }

theorem eq_of_read {t rest : Text} {f : DeclarationForm}
    (h : DeclarationForm.read t = .ok (f, rest)) : t = f.text ++ rest := by
  simp only [DeclarationForm.read] at h
  split at h
  · simp at h
  · next head r hr =>
    split at h
    · next body after hb =>
      simp only [Except.ok.injEq, Prod.mk.injEq] at h
      obtain ⟨rfl, rfl⟩ := h
      rw [DeclarationHead.eq_of_read hr, Bracket.eq_of_inside? hb]
      simp [DeclarationForm.text]
    · simp at h

end DeclarationForm

/-- The headers of a text that stands at an offset. -/
def headersFrom (offset : Nat) (prev : Option Char) (t : Text) : List Header :=
  match _ : findWord? Declaration.Kind.keyword Declaration.Kind.all prev .code t with
  | none => []
  | some f =>
    let start := offset + f.before.byteLength
    let after := start + f.key.keyword.byteLength
    match _ : DeclarationForm.read f.after with
    | .ok (form, rest) =>
      .accepted (form.place f.key start) ::
        headersFrom (after + form.text.byteLength) form.text.getLast? rest
    | .error reason =>
      .rejected ⟨f.key, .ofLength start f.key.keyword.byteLength, reason⟩ ::
        headersFrom after f.key.keyword.getLast? f.after
termination_by t.length
decreasing_by
  · have hf := length_after_findWord? ‹findWord? _ _ _ _ _ = _›
    have hr := congrArg List.length (DeclarationForm.eq_of_read ‹DeclarationForm.read _ = _›)
    have := f.key.length_keyword_pos
    simp only [List.length_append] at hr
    omega
  · have hf := length_after_findWord? ‹findWord? _ _ _ _ _ = _›
    have := f.key.length_keyword_pos
    omega

/-- `runtime`. -/
def runtimeWord : Text := ['r', 'u', 'n', 't', 'i', 'm', 'e']

/-- The inside of the first runtime block of a text that stands at an offset. A word `runtime` that
no brace follows is passed over; a brace that is never closed ends the search. -/
def runtimeFrom (offset : Nat) (prev : Option Char) (t : Text) : Option Span :=
  match _ : findWord? (fun () => runtimeWord) [()] prev .code t with
  | none => none
  | some f =>
    let after := offset + f.before.byteLength + runtimeWord.byteLength
    let gap : Text := f.after.takeWhile isWhite
    match f.after.trimStart.skip? [Bracket.brace.opener] with
    | some rest =>
      (Bracket.brace.inside? rest).map fun (inside, _) =>
        .ofLength (after + (gap ++ [Bracket.brace.opener] : Text).byteLength) inside.byteLength
    | none => runtimeFrom after runtimeWord.getLast? f.after
termination_by t.length
decreasing_by
  have hf := length_after_findWord? ‹findWord? _ _ _ _ _ = _›
  simp only [runtimeWord, List.length_cons, List.length_nil] at hf
  omega

namespace Text

/-- What became of each declaration keyword of a document, in order. -/
def headers (source : Text) : List Header := headersFrom 0 none source

/-- The declarations of a document, in order. -/
def declarations (source : Text) : List Declaration := source.headers.filterMap Header.declaration?

/-- The rejected keywords of a document, in order. -/
def rejections (source : Text) : List Rejection := source.headers.filterMap Header.rejection?

end Text

namespace Declaration

/-- The text of the body. -/
def content (d : Declaration) (source : Text) : Text := source.slice d.body

/-- The inside of the runtime block of a module; a pipeline has none. -/
def runtime? (d : Declaration) (source : Text) : Option Span :=
  match d.kind with
  | .module => runtimeFrom d.body.start none (d.content source)
  | .pipeline => none

end Declaration

end PipelineDoc
