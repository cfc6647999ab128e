import Mathlib.Data.List.TakeWhile
import PipelineDoc.Grammar.CallHead
import PipelineDoc.Grammar.Chain

/-!
# What the grammar recognizes

An *identifier* and a *dotted path* as properties of a text, and that the recognizers give texts of
this kind. The root of a dotted path is an identifier. A chain splits its text as the other heads do,
and it is *written*: its parts are of the kinds that the grammar asks for.
-/

namespace PipelineDoc

/-- A word start followed by word characters. -/
def IsIdentifier (t : Text) : Prop := t.head?.any isWordStart ∧ ∀ c ∈ t, isWordChar c

instance : DecidablePred IsIdentifier := fun t =>
  haveI := List.decidableBAll (fun c => isWordChar c = true) t
  inferInstanceAs (Decidable (t.head?.any isWordStart ∧ ∀ c ∈ t, isWordChar c))

/-- Identifiers joined by dots. -/
inductive IsDottedPath : Text → Prop
  | identifier {t : Text} (ht : IsIdentifier t) : IsDottedPath t
  | dot {s t : Text} (hs : IsIdentifier s) (ht : IsDottedPath t) : IsDottedPath (s ++ '.' :: t)

theorem isWordChar_of_isWordStart {c : Char} (h : isWordStart c) : isWordChar c := by
  simp only [isWordStart, isWordChar, Bool.or_eq_true] at h ⊢
  exact h.imp_left Or.inl

theorem not_isWordChar_dot : isWordChar '.' = false := by decide

namespace IsIdentifier

theorem singleton {c : Char} (h : isWordStart c) : IsIdentifier [c] :=
  ⟨h, by simpa using isWordChar_of_isWordStart h⟩

theorem append {t s : Text} (ht : IsIdentifier t) (hs : ∀ c ∈ s, isWordChar c) :
    IsIdentifier (t ++ s) := by
  obtain ⟨hhead, hall⟩ := ht
  refine ⟨?_, fun c hc => (List.mem_append.mp hc).elim (hall c) (hs c)⟩
  cases t with
  | nil => simp at hhead
  | cons c t => exact hhead

theorem ne_nil {t : Text} (h : IsIdentifier t) : t ≠ [] := by
  rintro rfl
  simpa using h.1

theorem ne_dot {t : Text} (h : IsIdentifier t) : ∀ c ∈ t, (c != '.') = true := by
  intro c hc
  rw [bne_iff_ne]
  rintro rfl
  have := h.2 '.' hc
  rw [not_isWordChar_dot] at this
  exact Bool.false_ne_true this

theorem pathRoot_eq {t : Text} (h : IsIdentifier t) : pathRoot t = t :=
  List.takeWhile_eq_self_iff.mpr h.ne_dot

theorem pathRoot_append_dot {t : Text} (h : IsIdentifier t) (path : Text) :
    pathRoot (t ++ '.' :: path) = t := by
  rw [pathRoot, List.takeWhile_append_of_pos h.ne_dot, List.takeWhile_cons_of_neg (by simp),
    List.append_nil]

end IsIdentifier

namespace IsDottedPath

theorem ne_nil {t : Text} (h : IsDottedPath t) : t ≠ [] := by
  cases h with
  | identifier ht => exact ht.ne_nil
  | dot hs ht => simp

/-- A dotted path has word characters and dots only. -/
theorem isWordChar_or_dot {t : Text} (h : IsDottedPath t) : ∀ c ∈ t, isWordChar c ∨ c = '.' := by
  induction h with
  | identifier ht => exact fun c hc => Or.inl (ht.2 c hc)
  | dot hs _ ih =>
    intro c hc
    rw [List.mem_append, List.mem_cons] at hc
    rcases hc with hc | rfl | hc
    · exact Or.inl (hs.2 c hc)
    · exact Or.inr rfl
    · exact ih c hc

theorem isIdentifier_root {t : Text} (h : IsDottedPath t) : IsIdentifier (pathRoot t) := by
  cases h with
  | identifier ht => rwa [ht.pathRoot_eq]
  | dot hs ht => rwa [hs.pathRoot_append_dot]

end IsDottedPath

/-! ### Recognizers -/

/-- What continues a path continues its last identifier, and is a path where it starts one. -/
theorem isDottedPath_pathTail (t : Text) :
    (∀ s, IsIdentifier s → IsDottedPath (s ++ (pathTail t).1)) ∧
      (t.head?.any isWordStart → IsDottedPath (pathTail t).1) := by
  induction t with
  | nil => exact ⟨fun s hs => .identifier (by simpa [pathTail] using hs), by simp⟩
  | cons c t ih =>
    have start : isWordStart c → IsDottedPath (pathTail (c :: t)).1 := by
      intro hc
      rw [pathTail, if_pos (by rw [isWordChar_of_isWordStart hc]; rfl)]
      exact ih.1 [c] (.singleton hc)
    refine ⟨fun s hs => ?_, start⟩
    rw [pathTail]
    split
    · next hc =>
      rw [Bool.or_eq_true, Bool.and_eq_true, beq_iff_eq] at hc
      rcases hc with hc | ⟨rfl, hnext⟩
      · have h := ih.1 (s ++ [c]) (hs.append (by simpa using hc))
        rwa [List.append_assoc] at h
      · exact .dot hs (ih.2 hnext)
    · rw [List.append_nil]
      exact .identifier hs

theorem isDottedPath_of_path? {t path rest : Text} (h : path? t = some (path, rest)) :
    IsDottedPath path := by
  cases t with
  | nil => simp [path?] at h
  | cons c cs =>
    simp only [path?] at h
    split at h
    · next hc =>
      simp only [Option.some.injEq, Prod.mk.injEq] at h
      obtain ⟨rfl, -⟩ := h
      exact (isDottedPath_pathTail cs).1 [c] (.singleton hc)
    · simp at h

/-! ### Chains -/

/-- The parts of a step are of the kinds that the grammar asks for. -/
structure ArrowStep.IsWritten (s : ArrowStep) : Prop where
  before : ∀ c ∈ s.before, isBlank c = true
  after : ∀ c ∈ s.after, isBlank c = true
  target : IsDottedPath s.target

/-- The parts of a chain are of the kinds that the grammar asks for, and it has an arrow. -/
structure ChainHead.IsWritten (h : ChainHead) : Prop where
  first : IsDottedPath h.first
  steps : ∀ s ∈ h.steps, s.IsWritten
  steps_ne_nil : h.steps ≠ []

theorem ArrowStep.isWritten_of_read? {t rest : Text} {s : ArrowStep}
    (h : ArrowStep.read? t = some (s, rest)) : s.IsWritten := by
  simp only [ArrowStep.read?, Option.bind_eq_some_iff, Option.map_eq_some_iff, Prod.exists,
    Prod.mk.injEq] at h
  obtain ⟨arrow, t₁, -, target, r, hpath, rfl, -⟩ := h
  exact ⟨fun c hc => List.mem_takeWhile_imp hc, fun c hc => List.mem_takeWhile_imp hc,
    isDottedPath_of_path? hpath⟩

/-- **The steps of a chain** split their text and are written. -/
theorem arrowSteps_spec (t : Text) :
    t = (arrowSteps t).1.flatMap ArrowStep.text ++ (arrowSteps t).2 ∧
      ∀ s ∈ (arrowSteps t).1, s.IsWritten := by
  fun_induction arrowSteps t with
  | case1 t s rest h steps rest' hsteps ih =>
    rw [hsteps] at ih
    obtain ⟨htext, hwritten⟩ := ih
    refine ⟨?_, ?_⟩
    · rw [List.flatMap_cons, List.append_assoc, ← htext, ← (ArrowStep.eq_of_read? h).1]
    · intro u hu
      rcases List.mem_cons.mp hu with rfl | hu
      · exact ArrowStep.isWritten_of_read? h
      · exact hwritten u hu
  | case2 t h => simp

theorem ChainHead.eq_of_read? {t rest : Text} {h : ChainHead}
    (e : ChainHead.read? t = some (h, rest)) : t = h.text ++ rest ∧ h.IsWritten := by
  simp only [ChainHead.read?, Option.bind_eq_some_iff, Prod.exists] at e
  obtain ⟨first, t₁, hpath, e⟩ := e
  split at e
  · cases e
  · next hne =>
    cases e
    obtain ⟨htext, hwritten⟩ := arrowSteps_spec t₁
    refine ⟨?_, isDottedPath_of_path? hpath, hwritten, fun hnil => hne (List.isEmpty_iff.mpr hnil)⟩
    rw [ChainHead.text, List.append_assoc, ← htext]
    exact (eq_of_path? hpath).1

end PipelineDoc
