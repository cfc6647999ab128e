import PipelineDoc.Grammar.Path

/-!
# Arrow chains

    PATH (W* arrow W* PATH)+

An arrow is `->` or `→`. As with call heads, a chain is kept with its blanks.
-/

namespace PipelineDoc

/-- The two spellings of an arrow. -/
inductive ArrowSign where
  | ascii
  | single
  deriving DecidableEq, Repr

/-- The characters of an arrow. -/
def ArrowSign.text : ArrowSign → Text
  | .ascii => ['-', '>']
  | .single => ['→']

/-- The arrow at the front of a text. -/
def ArrowSign.read? (t : Text) : Option (ArrowSign × Text) :=
  match t.skip? (ArrowSign.text .ascii) with
  | some rest => some (.ascii, rest)
  | none => (t.skip? (ArrowSign.text .single)).map fun rest => (.single, rest)

/-- One arrow of a chain, with the path that it leads to. -/
structure ArrowStep where
  /-- The blanks before the arrow. -/
  before : Text
  arrow : ArrowSign
  /-- The blanks after the arrow. -/
  after : Text
  target : Text
  deriving DecidableEq, Repr

namespace ArrowStep

/-- The text of a step up to its target. -/
def front (s : ArrowStep) : Text := s.before ++ (s.arrow.text ++ s.after)

/-- The text of a step. -/
def text (s : ArrowStep) : Text := s.front ++ s.target

/-- The step at the front of a text. -/
def read? (t : Text) : Option (ArrowStep × Text) :=
  let (before, t) := blanks t
  (ArrowSign.read? t).bind fun (arrow, t) =>
  let (after, t) := blanks t
  (path? t).map fun (target, rest) => (⟨before, arrow, after, target⟩, rest)

end ArrowStep

theorem ArrowSign.eq_of_read? {t rest : Text} {a : ArrowSign}
    (h : ArrowSign.read? t = some (a, rest)) : t = a.text ++ rest := by
  unfold ArrowSign.read? at h
  split at h
  · next r hr =>
    simp only [Option.some.injEq, Prod.mk.injEq] at h
    obtain ⟨rfl, rfl⟩ := h
    exact Text.skip?_eq_some_iff.1 hr
  · simp only [Option.map_eq_some_iff, Prod.mk.injEq] at h
    obtain ⟨r, hr, rfl, rfl⟩ := h
    exact Text.skip?_eq_some_iff.1 hr

/-- **A step splits its text**, and its target is not empty. -/
theorem ArrowStep.eq_of_read? {t rest : Text} {s : ArrowStep}
    (h : ArrowStep.read? t = some (s, rest)) : t = s.text ++ rest ∧ s.target ≠ [] := by
  simp only [ArrowStep.read?, Option.bind_eq_some_iff, Option.map_eq_some_iff, Prod.exists,
    Prod.mk.injEq] at h
  obtain ⟨arrow, t₁, h₁, target, r, h₂, rfl, rfl⟩ := h
  have h₁ := ArrowSign.eq_of_read? h₁
  obtain ⟨h₂, hne⟩ := eq_of_path? h₂
  have b₁ := blanks_append t
  have b₂ := blanks_append t₁
  refine ⟨?_, hne⟩
  simp only [ArrowStep.text, ArrowStep.front, List.append_assoc]
  rw [← h₂, b₂, ← h₁, b₁]

theorem ArrowStep.length_rest_lt {t rest : Text} {s : ArrowStep}
    (h : ArrowStep.read? t = some (s, rest)) : rest.length < t.length := by
  obtain ⟨ht, hne⟩ := ArrowStep.eq_of_read? h
  have := List.length_pos_iff.2 hne
  have := congrArg List.length ht
  simp only [ArrowStep.text, List.length_append] at this
  omega

/-- All steps at the front of a text, one after the other. -/
def arrowSteps (t : Text) : List ArrowStep × Text :=
  match _ : ArrowStep.read? t with
  | some (s, rest) =>
    let (steps, rest') := arrowSteps rest
    (s :: steps, rest')
  | none => ([], t)
termination_by t.length
decreasing_by exact ArrowStep.length_rest_lt ‹_›

/-- A path with the arrows that lead on from it. -/
structure ChainHead where
  first : Text
  steps : List ArrowStep
  deriving DecidableEq, Repr

namespace ChainHead

/-- The text of a chain. -/
def text (h : ChainHead) : Text := h.first ++ h.steps.flatMap ArrowStep.text

/-- The chain at the front of a text. It has at least one arrow. -/
def read? (t : Text) : Option (ChainHead × Text) :=
  (path? t).bind fun (first, t) =>
  let (steps, rest) := arrowSteps t
  if steps.isEmpty then none else some (⟨first, steps⟩, rest)

/-- The paths of the steps with their spans, for steps that start at an offset. -/
def targets : Nat → List ArrowStep → List (Text × Span)
  | _, [] => []
  | offset, s :: steps =>
    (s.target, .ofLength (offset + s.front.byteLength) s.target.byteLength) ::
      targets (offset + s.text.byteLength) steps

/-- The paths of a chain with their spans, for a chain that stands at an offset. -/
def endpoints (h : ChainHead) (offset : Nat) : List (Text × Span) :=
  (h.first, .ofLength offset h.first.byteLength) :: targets (offset + h.first.byteLength) h.steps

end ChainHead

end PipelineDoc
