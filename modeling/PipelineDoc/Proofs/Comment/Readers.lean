import PipelineDoc.Proofs.Comment.Veil
import PipelineDoc.Proofs.Declaration.Keywords
import PipelineDoc.Proofs.Grammar.Chains

/-!
# Reading veiled texts

The recognizers pass over inert characters of code, which a veil leaves as they are, and look at the
character after them, which is a slash only if it was one before. So they recognize the same in a
veiled text, with the rest veiled. The searches for words and for closing brackets step over
comments, and find the same places (`splitClosing_veil`, `findWord?_veil`).
-/

namespace PipelineDoc

/-! ### Words of inert characters -/

namespace Text

theorem takeWhile_veil {f : Char → Bool} (hf : ∀ c, f c = true → isInert c = true) (t : Text) :
    t.veil.takeWhile f = t.takeWhile f ∧ t.veil.dropWhile f = veil (t.dropWhile f) := by
  induction t with
  | nil => exact ⟨rfl, rfl⟩
  | cons c t ih =>
    by_cases hc : f c = true
    · rw [veil_cons_inert (hf c hc), List.takeWhile_cons_of_pos hc, List.takeWhile_cons_of_pos hc,
        List.dropWhile_cons_of_pos hc, List.dropWhile_cons_of_pos hc, ih.1]
      exact ⟨rfl, ih.2⟩
    · obtain ⟨r, hr⟩ := List.head?_eq_some_iff.mp (head?_veil (c :: t))
      rw [List.takeWhile_cons_of_neg hc, List.dropWhile_cons_of_neg hc, hr,
        List.takeWhile_cons_of_neg hc, List.dropWhile_cons_of_neg hc]
      exact ⟨rfl, rfl⟩

theorem skip?_veil {word : Text} (hword : word.all isInert = true) (t : Text) :
    t.veil.skip? word = (t.skip? word).map veil := by
  induction word generalizing t with
  | nil => simp [skip?]
  | cons c word ih =>
    rw [List.all_cons, Bool.and_eq_true] at hword
    cases t with
    | nil => rfl
    | cons d t =>
      by_cases hd : c = d
      · subst hd
        rw [veil_cons_inert hword.1, skip?, skip?, if_pos rfl, if_pos rfl, ih hword.2]
      · obtain ⟨r, hr⟩ := List.head?_eq_some_iff.mp (head?_veil (d :: t))
        rw [hr, skip?, skip?, if_neg hd, if_neg hd]
        rfl

end Text

/-- What a recognizer gives, with the rest veiled. -/
def veilRest {α : Type} (r : α × Text) : α × Text := (r.1, r.2.veil)

theorem blanks_veil (t : Text) : blanks t.veil = veilRest (blanks t) := by
  obtain ⟨htake, hdrop⟩ := Text.takeWhile_veil (fun c => isInert_of_isBlank) t
  rw [blanks, htake, hdrop]
  rfl

theorem identifier?_veil (t : Text) : identifier? t.veil = (identifier? t).map veilRest := by
  cases t with
  | nil => rfl
  | cons c t =>
    by_cases hc : isWordStart c = true
    · obtain ⟨htake, hdrop⟩ := Text.takeWhile_veil (fun c => isInert_of_isWordChar) t
      rw [Text.veil_cons_inert (isInert_of_isWordChar (isWordChar_of_isWordStart hc)), identifier?,
        identifier?, if_pos hc, if_pos hc, htake, hdrop]
      rfl
    · obtain ⟨r, hr⟩ := List.head?_eq_some_iff.mp (Text.head?_veil (c :: t))
      rw [hr, identifier?, identifier?, if_neg hc, if_neg hc]
      rfl

theorem pathTail_veil (t : Text) : pathTail t.veil = veilRest (pathTail t) := by
  induction t with
  | nil => rfl
  | cons c t ih =>
    by_cases hc : (isWordChar c || (c == '.' && t.head?.any isWordStart)) = true
    · have hinert : isInert c = true := by
        rw [Bool.or_eq_true, Bool.and_eq_true, beq_iff_eq] at hc
        rcases hc with hc | ⟨rfl, -⟩
        · exact isInert_of_isWordChar hc
        · decide
      rw [Text.veil_cons_inert hinert, pathTail, pathTail, Text.head?_veil, if_pos hc, if_pos hc, ih]
      rfl
    · have hstop : ∀ cs, ¬ (isWordChar c || (c == '.' && cs.head?.any isWordStart)) = true →
          pathTail (c :: cs) = ([], c :: cs) := fun cs h => by rw [pathTail, if_neg h]
      by_cases hdot : c = '.'
      · subst hdot
        have hveil := Text.veil_cons_inert (show isInert '.' = true by decide) t
        rw [hstop t hc, veilRest, hveil, hstop _ (by rwa [Text.head?_veil])]
      · obtain ⟨r, hr⟩ := List.head?_eq_some_iff.mp (Text.head?_veil (c :: t))
        have hword : ¬ isWordChar c = true := fun h => hc (by rw [h]; rfl)
        rw [hstop t hc, veilRest, hr, hstop r (by simp [hword, hdot])]

theorem path?_veil (t : Text) : path? t.veil = (path? t).map veilRest := by
  cases t with
  | nil => rfl
  | cons c t =>
    by_cases hc : isWordStart c = true
    · rw [Text.veil_cons_inert (isInert_of_isWordChar (isWordChar_of_isWordStart hc)), path?, path?,
        if_pos hc, if_pos hc, pathTail_veil]
      rfl
    · obtain ⟨r, hr⟩ := List.head?_eq_some_iff.mp (Text.head?_veil (c :: t))
      rw [hr, path?, path?, if_neg hc, if_neg hc]
      rfl

/-! ### Heads and chains -/

theorem LetHead.read?_veil (t : Text) : LetHead.read? t.veil = (LetHead.read? t).map veilRest := by
  rw [LetHead.read?, LetHead.read?, Text.skip?_veil (by decide)]
  cases t.skip? letWord with
  | none => rfl
  | some t =>
    simp only [Option.map_some, Option.bind_some, blanks_veil, veilRest]
    split
    · rfl
    · rw [identifier?_veil]
      cases identifier? (blanks t).2 with
      | none => rfl
      | some r =>
        simp only [Option.map_some, Option.bind_some, blanks_veil, veilRest,
          Text.skip?_veil (show List.all ['='] isInert = true by decide), Option.map_map]
        rfl

theorem RunHead.read?_veil (t : Text) : RunHead.read? t.veil = (RunHead.read? t).map veilRest := by
  rw [RunHead.read?, RunHead.read?, Text.skip?_veil (by decide)]
  cases t.skip? runWord with
  | none => rfl
  | some t =>
    simp only [Option.map_some, Option.bind_some, blanks_veil, veilRest]
    split
    · rfl
    · rw [path?_veil]
      cases path? (blanks t).2 with
      | none => rfl
      | some r =>
        simp only [Option.map_some, Option.bind_some, blanks_veil, veilRest,
          Text.skip?_veil (show List.all ['('] isInert = true by decide), Option.map_map]
        rfl

theorem CallHead.read?_veil (t : Text) :
    CallHead.read? t.veil = (CallHead.read? t).map veilRest := by
  rw [CallHead.read?, CallHead.read?, LetHead.read?_veil]
  cases LetHead.read? t with
  | none =>
    simp only [Option.map_none, RunHead.read?_veil, Option.map_map]
    rfl
  | some r =>
    simp only [Option.map_some, veilRest, blanks_veil, RunHead.read?_veil, Option.map_map]
    rfl

theorem ArrowSign.read?_veil (t : Text) :
    ArrowSign.read? t.veil = (ArrowSign.read? t).map veilRest := by
  rw [ArrowSign.read?, ArrowSign.read?, Text.skip?_veil (by decide), Text.skip?_veil (by decide)]
  cases t.skip? (ArrowSign.text .ascii) with
  | none =>
    simp only [Option.map_none, Option.map_map]
    rfl
  | some r => rfl

theorem ArrowStep.read?_veil (t : Text) :
    ArrowStep.read? t.veil = (ArrowStep.read? t).map veilRest := by
  rw [ArrowStep.read?, ArrowStep.read?]
  simp only [blanks_veil, veilRest, ArrowSign.read?_veil]
  cases ArrowSign.read? (blanks t).2 with
  | none => rfl
  | some r =>
    simp only [Option.map_some, Option.bind_some, blanks_veil, veilRest, path?_veil, Option.map_map]
    rfl

theorem arrowSteps_of_none {t : Text} (h : ArrowStep.read? t = none) : arrowSteps t = ([], t) := by
  rw [arrowSteps]
  split
  · next hread => rw [h] at hread; cases hread
  · rfl

theorem arrowSteps_veil (t : Text) : arrowSteps t.veil = veilRest (arrowSteps t) := by
  induction t using arrowSteps.induct with
  | case1 t s rest h steps rest' hsteps ih =>
    have hveil := ArrowStep.read?_veil t
    rw [h] at hveil
    rw [arrowSteps_of_read? hveil, arrowSteps_of_read? h, ih]
    rfl
  | case2 t h =>
    have hveil := ArrowStep.read?_veil t
    rw [h] at hveil
    rw [arrowSteps_of_none hveil, arrowSteps_of_none h]
    rfl

theorem ChainHead.read?_veil (t : Text) :
    ChainHead.read? t.veil = (ChainHead.read? t).map veilRest := by
  rw [ChainHead.read?, ChainHead.read?, path?_veil]
  cases path? t with
  | none => rfl
  | some r =>
    simp only [Option.map_some, Option.bind_some, veilRest, arrowSteps_veil]
    split <;> rfl

/-! ### Closing brackets -/

namespace Bracket

theorem splitClosing_cons_comment (b : Bracket) (depth : Nat) {mode : Mode} {c : Char} {cs : Text}
    (hl : (mode.step c cs.head?).1 = .comment) :
    b.splitClosing depth mode (c :: cs) =
      (b.splitClosing depth .comment cs).map fun r => (c :: r.1, r.2) := by
  have hcode : (mode.step c cs.head?).1 ≠ .code := by rw [hl]; exact Label.noConfusion
  rw [splitClosing_cons, if_neg fun h => hcode h.1, if_neg fun h => hcode h.1, Mode.mode_of_comment hl]

theorem splitClosing_replicate_slash (b : Bracket) (depth k : Nat) (t : Text) :
    b.splitClosing depth .comment (List.replicate k '/' ++ t) =
      (b.splitClosing depth .comment t).map fun r => (List.replicate k '/' ++ r.1, r.2) := by
  induction k with
  | zero => simp
  | succ k ih =>
    rw [List.replicate_succ, List.cons_append,
      splitClosing_cons_comment b depth (Mode.step_comment_slash _ ▸ rfl), ih, Option.map_map]
    rfl

theorem splitClosing_veil (b : Bracket) (depth : Nat) (mode : Mode) (t : Text) :
    b.splitClosing depth mode (mode.veil t) =
      (b.splitClosing depth mode t).map fun r => (mode.veil r.1, r.2.veil) := by
  induction t generalizing depth mode with
  | nil => rfl
  | cons c t ih =>
    have hcloser : ∀ s : Text, (b.closer :: s).head? ≠ some '/' := by
      cases b <;> simp [closer]
    by_cases hl : (mode.step c t.head?).1 = .comment
    · obtain ⟨k, hk, hveil, hslash⟩ := Mode.exists_veil_comment hl
      rw [hveil, splitClosing_cons_comment b depth (by rw [hslash]), splitClosing_replicate_slash, ih,
        splitClosing_cons_comment b depth hl, Option.map_map, Option.map_map, Option.map_map]
      refine Option.map_congr fun r hr => ?_
      have ht := eq_of_splitClosing (p := r.1) (s := r.2) hr
      rw [ht, Mode.step_append mode c r.1 (hcloser _)] at hl
      simp only [Function.comp_apply]
      rw [Mode.veil_cons, if_pos hl, Mode.mode_of_comment hl, hk, List.replicate_succ,
        List.cons_append]
    · -- the character stands as it is, and what follows is veiled from the same mode on
      have hnext : ∀ d, ((b.splitClosing d (mode.step c t.head?).2 ((mode.step c t.head?).2.veil t)).map
          fun r => (c :: r.1, r.2)) =
          ((b.splitClosing d (mode.step c t.head?).2 t).map fun r => (c :: r.1, r.2)).map
            fun r => (mode.veil r.1, r.2.veil) := by
        intro d
        rw [ih, Option.map_map, Option.map_map]
        refine Option.map_congr fun r hr => ?_
        have ht := eq_of_splitClosing (p := r.1) (s := r.2) hr
        rw [ht, Mode.step_append mode c r.1 (hcloser _)] at hl
        simp only [Function.comp_apply]
        rw [Mode.veil_cons_of_ne hl, ht, Mode.step_append mode c r.1 (hcloser _)]
      rw [Mode.veil_cons_of_ne hl, splitClosing_cons, splitClosing_cons, Mode.step_head?_veil hl]
      by_cases hclose : (mode.step c t.head?).1 = .code ∧ c = b.closer
      · simp only [if_pos hclose]
        cases depth with
        | zero =>
          have hmode := Mode.mode_of_label hclose.1 (by rw [hclose.2]; cases b <;> decide)
          simp only [hmode, Option.map_some]
          rfl
        | succ depth => exact hnext depth
      · simp only [if_neg hclose]
        split
        · exact hnext (depth + 1)
        · exact hnext depth

theorem inside?_veil (b : Bracket) (t : Text) :
    b.inside? t.veil = (b.inside? t).map fun r => (r.1.veil, r.2.veil) :=
  b.splitClosing_veil 0 .code t

end Bracket

/-! ### Words -/

/-- A find in a text that is read from a mode on, as it is found in the veiled text. -/
def Find.veil {α : Type} (mode : Mode) (f : Find α) : Find α :=
  { f with before := mode.veil f.before, after := f.after.veil }

section Words

variable {α : Type} {spelling : α → Text} {candidates : List α}
  (hword : ∀ a, ∀ c ∈ spelling a, isWordChar c = true) (hne : ∀ a, spelling a ≠ [])

include hword in
theorem wordAt?_veil (prev : Option Char) (t : Text) :
    wordAt? spelling candidates prev t.veil =
      (wordAt? spelling candidates prev t).map veilRest := by
  rw [wordAt?, wordAt?, List.map_findSome?]
  congr 1
  funext a
  rw [Function.comp_apply, Text.skip?_veil (List.all_eq_true.mpr fun c hc =>
    isInert_of_isWordChar (hword a c hc))]
  cases t.skip? (spelling a) with
  | none => rfl
  | some after =>
    simp only [Option.map_some, Text.head?_veil]
    split <;> rfl

include hword hne

theorem wordAt?_of_not_isWordChar {c : Char} (hc : isWordChar c = false) (prev : Option Char)
    (s : Text) : wordAt? spelling candidates prev (c :: s) = none := by
  rw [wordAt?, List.findSome?_eq_none_iff]
  intro a _
  obtain ⟨d, w, hw⟩ := List.exists_cons_of_ne_nil (hne a)
  have hd : d ≠ c := by
    rintro rfl
    rw [hword a d (by rw [hw]; exact List.mem_cons_self)] at hc
    cases hc
  rw [hw, Text.skip?, if_neg hd]

theorem wordAt?_veil_of_code {mode : Mode} {c : Char} {cs : Text}
    (hl : (mode.step c cs.head?).1 = .code) (prev : Option Char) :
    wordAt? spelling candidates prev (mode.veil (c :: cs)) =
      (wordAt? spelling candidates prev (c :: cs)).map veilRest := by
  rw [Mode.veil_cons_of_ne (by rw [hl]; exact Label.noConfusion)]
  by_cases hc : isWordChar c = true
  · have hinert := isInert_of_isWordChar hc
    rw [Mode.mode_of_label hl (by rintro rfl; exact absurd hinert (by decide)), ← wordAt?_veil hword,
      Text.veil_cons_inert hinert]
    rfl
  · rw [Bool.not_eq_true] at hc
    rw [wordAt?_of_not_isWordChar hword hne hc, wordAt?_of_not_isWordChar hword hne hc]
    rfl

/-- In a comment it does not matter what comes before: the first code after it is a newline. -/
theorem findWord?_comment_prev (prev prev' : Option Char) (t : Text) :
    findWord? spelling candidates prev .comment t =
      findWord? spelling candidates prev' .comment t := by
  cases t with
  | nil => rfl
  | cons c t =>
    rw [findWord?_cons, findWord?_cons]
    by_cases hc : c = '\n'
    · rw [hc, wordAt?_of_not_isWordChar hword hne (by decide),
        wordAt?_of_not_isWordChar hword hne (by decide)]
    · have hl : (Mode.comment.step c t.head?).1 ≠ .code := by simp [Mode.step, hc]
      rw [if_neg hl, if_neg hl]

theorem findWord?_cons_comment {prev : Option Char} {mode : Mode} {c : Char} {cs : Text}
    (hl : (mode.step c cs.head?).1 = .comment) (prev' : Option Char) :
    findWord? spelling candidates prev mode (c :: cs) =
      (findWord? spelling candidates prev' .comment cs).map fun f =>
        { f with before := c :: f.before } := by
  rw [findWord?_cons, if_neg (by rw [hl]; exact Label.noConfusion), Mode.mode_of_comment hl,
    findWord?_comment_prev hword hne (some c) prev']

theorem findWord?_replicate_slash (prev prev' : Option Char) (k : Nat) (t : Text) :
    findWord? spelling candidates prev .comment (List.replicate k '/' ++ t) =
      (findWord? spelling candidates prev' .comment t).map fun f =>
        { f with before := List.replicate k '/' ++ f.before } := by
  induction k with
  | zero => simp [findWord?_comment_prev hword hne prev prev']
  | succ k ih =>
    rw [List.replicate_succ, List.cons_append,
      findWord?_cons_comment hword hne (by rw [Mode.step_comment_slash]) prev, ih, Option.map_map]
    rfl

/-- **A word is found in a veiled text** where it is found in the text. -/
theorem findWord?_veil (prev : Option Char) (mode : Mode) (t : Text) :
    findWord? spelling candidates prev mode (mode.veil t) =
      (findWord? spelling candidates prev mode t).map (Find.veil mode) := by
  have hslash : ∀ {f : Find α} {mode : Mode} {t : Text} {prev : Option Char},
      findWord? spelling candidates prev mode t = some f →
        t = f.before ++ (spelling f.key ++ f.after) ∧
          (spelling f.key ++ f.after).head? ≠ some '/' := by
    intro f mode t prev h
    obtain ⟨d, w, hw⟩ := List.exists_cons_of_ne_nil (hne f.key)
    refine ⟨eq_of_findWord? h, ?_⟩
    rw [hw, List.cons_append, List.head?_cons, Ne, Option.some_inj]
    rintro rfl
    exact absurd (hword f.key '/' (by rw [hw]; exact List.mem_cons_self)) (by decide)
  induction t generalizing prev mode with
  | nil => rfl
  | cons c t ih =>
    by_cases hl : (mode.step c t.head?).1 = .comment
    · obtain ⟨k, hk, hveil, hfirst⟩ := Mode.exists_veil_comment hl
      rw [hveil, findWord?_cons_comment hword hne (by rw [hfirst]) prev,
        findWord?_replicate_slash hword hne prev prev, ih, findWord?_cons_comment hword hne hl prev,
        Option.map_map, Option.map_map, Option.map_map]
      refine Option.map_congr fun f hf => ?_
      obtain ⟨ht, hne'⟩ := hslash hf
      rw [ht, Mode.step_append mode c f.before hne'] at hl
      simp only [Function.comp_apply, Find.veil]
      rw [Mode.veil_cons, if_pos hl, Mode.mode_of_comment hl, hk, List.replicate_succ,
        List.cons_append]
    · have hrest : ((findWord? spelling candidates (some c) (mode.step c t.head?).2
          ((mode.step c t.head?).2.veil t)).map fun f => { f with before := c :: f.before }) =
          ((findWord? spelling candidates (some c) (mode.step c t.head?).2 t).map
            fun f => { f with before := c :: f.before }).map (Find.veil mode) := by
        rw [ih, Option.map_map, Option.map_map]
        refine Option.map_congr fun f hf => ?_
        obtain ⟨ht, hne'⟩ := hslash hf
        rw [ht, Mode.step_append mode c f.before hne'] at hl ⊢
        simp only [Function.comp_apply, Find.veil]
        rw [Mode.veil_cons_of_ne hl]
      have hveil := Mode.veil_cons_of_ne hl
      rw [hveil, findWord?_cons, findWord?_cons, Mode.step_head?_veil hl, ← hveil]
      by_cases hcode : (mode.step c t.head?).1 = .code
      · rw [if_pos hcode, if_pos hcode, wordAt?_veil_of_code hword hne hcode]
        cases wordAt? spelling candidates prev (c :: t) with
        | none => exact hrest
        | some r => rfl
      · rw [if_neg hcode, if_neg hcode]
        exact hrest

end Words

end PipelineDoc
