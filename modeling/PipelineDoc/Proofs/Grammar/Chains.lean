import PipelineDoc.Proofs.Grammar.Heads

/-!
# Arrow chains, read and written

A chain is *written* if its parts are of the kinds that the grammar asks for. A text may start with
many written chains: a chain can be cut before any of its arrows but the first, and inside its last
path. Inside a chain there is no choice, since an arrow or a blank ends a path. So of the written
chains at the front of a text one is the longest, all others are beginnings of it, and it is the one
that is read (`ChainHead.read?_eq_some_iff`).
-/

namespace PipelineDoc

/-! ### Paths -/

/-- **A path is read as far as it goes**: every dotted path at the front of a text is a beginning of
what is read. -/
theorem IsDottedPath.prefix_pathTail {path : Text} (hpath : IsDottedPath path) (rest : Text) :
    path <+: (pathTail (path ++ rest)).1 := by
  induction hpath with
  | identifier ht =>
    rw [pathTail_wordChars ht.2]
    exact List.prefix_append _ _
  | @dot s t hs ht ih =>
    rw [List.append_assoc, pathTail_wordChars hs.2, List.cons_append, pathTail,
      ht.any_head?_append rest]
    simpa using ih

/-! ### Written steps -/

theorem ArrowSign.read?_append (a : ArrowSign) (rest : Text) :
    ArrowSign.read? (a.text ++ rest) = some (a, rest) := by
  cases a <;> simp [ArrowSign.read?, ArrowSign.text, Text.skip?]

theorem ArrowSign.head?_text (a : ArrowSign) (rest : Text) :
    ((a.text ++ rest).head?.all fun c => !isBlank c) ∧
      (a.text ++ rest).head?.all fun c => !isWordChar c && c != '.' := by
  cases a with
  | ascii =>
    have hword : isWordChar '-' = false := by decide
    exact ⟨rfl, by simp [ArrowSign.text, hword]⟩
  | single =>
    have hword : isWordChar '→' = false := by decide +kernel
    exact ⟨rfl, by simp [ArrowSign.text, hword]⟩

theorem ArrowStep.IsWritten.ends_path {s : ArrowStep} (hs : s.IsWritten) (rest : Text) :
    (s.text ++ rest).head?.all fun c => !isWordChar c && c != '.' := by
  have harrow := (s.arrow.head?_text (s.after ++ (s.target ++ rest))).2
  rw [ArrowStep.text, ArrowStep.front]
  cases hbefore : s.before with
  | nil => simpa using harrow
  | cons c before =>
    have hc := not_isPathChar_of_isBlank (hs.before c (by simp [hbefore]))
    simpa [isPathChar] using hc

theorem ends_path_of_steps {steps : List ArrowStep} (hsteps : ∀ s ∈ steps, s.IsWritten)
    (hne : steps ≠ []) (rest : Text) : (steps.flatMap ArrowStep.text ++ rest).head?.all
      fun c => !isWordChar c && c != '.' := by
  obtain ⟨s, steps, rfl⟩ := List.exists_cons_of_ne_nil hne
  rw [List.flatMap_cons, List.append_assoc]
  exact (hsteps s List.mem_cons_self).ends_path _

/-- **A step is read where a written one stands**, with its target as far as it goes. -/
theorem ArrowStep.read?_append {s : ArrowStep} (hs : s.IsWritten) (rest : Text) :
    ArrowStep.read? (s.text ++ rest) =
      some ({ s with target := (pathTail (s.target ++ rest)).1 }, (pathTail (s.target ++ rest)).2) := by
  simp only [ArrowStep.read?, ArrowStep.text, ArrowStep.front, List.append_assoc,
    blanks_append_of hs.before (s.arrow.head?_text _).1, ArrowSign.read?_append, Option.bind_some,
    blanks_append_of hs.after (all_not_isBlank hs.target.any_head? rest),
    path?_eq_pathTail (hs.target.any_head?_append rest), Option.map_some]

/-! ### Written chains -/

theorem arrowSteps_of_read? {t rest : Text} {s : ArrowStep} (h : ArrowStep.read? t = some (s, rest)) :
    arrowSteps t = (s :: (arrowSteps rest).1, (arrowSteps rest).2) := by
  rw [arrowSteps]
  split
  · next s' rest' h' =>
    rw [h] at h'
    cases h'
    rfl
  · next h' =>
    rw [h] at h'
    cases h'

/-- **Written steps** at the front of a text are a beginning of the steps that are read. -/
theorem prefix_arrowSteps {steps : List ArrowStep} (hsteps : ∀ s ∈ steps, s.IsWritten) (rest : Text) :
    steps.flatMap ArrowStep.text <+:
      (arrowSteps (steps.flatMap ArrowStep.text ++ rest)).1.flatMap ArrowStep.text := by
  induction steps with
  | nil => exact List.nil_prefix
  | cons s steps ih =>
    have hs := hsteps s List.mem_cons_self
    have hrest : ∀ u ∈ steps, u.IsWritten := fun u hu => hsteps u (List.mem_cons_of_mem _ hu)
    rw [List.flatMap_cons, List.append_assoc, arrowSteps_of_read? (ArrowStep.read?_append hs _),
      List.flatMap_cons]
    by_cases hnil : steps = []
    · -- the last path may go on in the text
      subst hnil
      have htarget := hs.target.prefix_pathTail rest
      rw [List.flatMap_nil, List.append_nil, List.nil_append]
      refine List.IsPrefix.trans ?_ (List.prefix_append _ _)
      exact (List.prefix_append_right_inj s.front).mpr htarget
    · -- the next step ends the path
      rw [pathTail_append_of hs.target (ends_path_of_steps hrest hnil rest)]
      exact (List.prefix_append_right_inj s.text).mpr (ih hrest)

theorem arrowSteps_flatMap {steps : List ArrowStep} (hsteps : ∀ s ∈ steps, s.IsWritten) :
    arrowSteps (steps.flatMap ArrowStep.text) = (steps, []) := by
  induction steps with
  | nil => rw [arrowSteps]; rfl
  | cons s steps ih =>
    have hs := hsteps s List.mem_cons_self
    have hrest : ∀ u ∈ steps, u.IsWritten := fun u hu => hsteps u (List.mem_cons_of_mem _ hu)
    have hend : pathTail (s.target ++ steps.flatMap ArrowStep.text) =
        (s.target, steps.flatMap ArrowStep.text) := by
      refine pathTail_append_of hs.target ?_
      by_cases hnil : steps = []
      · rw [hnil]
        rfl
      · simpa using ends_path_of_steps hrest hnil []
    rw [List.flatMap_cons, arrowSteps_of_read? (ArrowStep.read?_append hs _), hend, ih hrest]

namespace ChainHead

/-- **A chain is read where a written one stands**, and what is read goes at least as far. -/
theorem IsWritten.exists_read? {h : ChainHead} (hw : h.IsWritten) (rest : Text) :
    ∃ k rest', ChainHead.read? (h.text ++ rest) = some (k, rest') ∧ h.text <+: k.text := by
  have hsteps := prefix_arrowSteps hw.steps rest
  have hne : (arrowSteps (h.steps.flatMap ArrowStep.text ++ rest)).1 ≠ [] := by
    intro hnil
    obtain ⟨s, steps, hs⟩ := List.exists_cons_of_ne_nil hw.steps_ne_nil
    have hpos := (hw.steps s (by simp [hs])).target.ne_nil
    rw [hnil, List.flatMap_nil, List.prefix_nil, hs, List.flatMap_cons, ArrowStep.text] at hsteps
    simp [hpos] at hsteps
  refine ⟨⟨h.first, (arrowSteps (h.steps.flatMap ArrowStep.text ++ rest)).1⟩,
    (arrowSteps (h.steps.flatMap ArrowStep.text ++ rest)).2, ?_,
    (List.prefix_append_right_inj h.first).mpr hsteps⟩
  rw [ChainHead.read?, ChainHead.text, List.append_assoc, path?_append hw.first
    (ends_path_of_steps hw.steps hw.steps_ne_nil rest)]
  simp only [Option.bind_some, List.isEmpty_iff, if_neg hne]

theorem IsWritten.read?_text {h : ChainHead} (hw : h.IsWritten) :
    ChainHead.read? h.text = some (h, []) := by
  have hend := ends_path_of_steps hw.steps hw.steps_ne_nil []
  rw [List.append_nil] at hend
  rw [ChainHead.read?, ChainHead.text, path?_append hw.first hend]
  simp only [Option.bind_some, arrowSteps_flatMap hw.steps, List.isEmpty_iff, if_neg hw.steps_ne_nil]

theorem IsWritten.eq_of_text_eq {h k : ChainHead} (hh : h.IsWritten) (hk : k.IsWritten)
    (htext : h.text = k.text) : h = k := by
  have hread := hh.read?_text
  rw [htext, hk.read?_text, Option.some.injEq, Prod.mk.injEq] at hread
  exact hread.1.symm

/-- The longest of the written chains at the front of a text: all others are beginnings of it. -/
structure IsLongest (h : ChainHead) (t : Text) : Prop where
  isWritten : h.IsWritten
  text : h.text <+: t
  longest : ∀ k : ChainHead, k.IsWritten → k.text <+: t → k.text <+: h.text

theorem IsLongest.unique {h k : ChainHead} {t : Text} (hh : h.IsLongest t) (hk : k.IsLongest t) :
    h = k := by
  have hle := hk.longest h hh.isWritten hh.text
  have hge := hh.longest k hk.isWritten hk.text
  exact hh.isWritten.eq_of_text_eq hk.isWritten (hle.eq_of_length_le hge.length_le)

/-- **The chain that is read** is the longest one. -/
theorem read?_eq_some_iff {t rest : Text} {h : ChainHead} :
    ChainHead.read? t = some (h, rest) ↔ t = h.text ++ rest ∧ h.IsLongest t := by
  have hlongest : ∀ {h rest}, ChainHead.read? t = some (h, rest) →
      t = h.text ++ rest ∧ h.IsLongest t := by
    intro h rest e
    obtain ⟨ht, hwritten⟩ := ChainHead.eq_of_read? e
    refine ⟨ht, hwritten, ⟨rest, ht.symm⟩, ?_⟩
    rintro k hk ⟨r, rfl⟩
    obtain ⟨k', r', hread, hprefix⟩ := hk.exists_read? r
    rw [e, Option.some.injEq, Prod.mk.injEq] at hread
    rwa [hread.1]
  refine ⟨hlongest, ?_⟩
  rintro ⟨ht, hh⟩
  obtain ⟨k, r, hread, -⟩ := hh.isWritten.exists_read? rest
  rw [← ht] at hread
  obtain ⟨ht', hk⟩ := hlongest hread
  obtain rfl := hh.unique hk
  rw [ht, List.append_cancel_left_eq] at ht'
  rwa [ht']

/-- In the longest chain the last path is as long as it can be. -/
theorem IsLongest.last {h : ChainHead} {t : Text} (hh : h.IsLongest t) {steps : List ArrowStep}
    {s : ArrowStep} (hsteps : h.steps = steps ++ [s]) {path : Text} (hpath : IsDottedPath path)
    (htext : h.first ++ (steps.flatMap ArrowStep.text ++ (s.front ++ path)) <+: t) :
    path <+: s.target := by
  have hs := hh.isWritten.steps s (by simp [hsteps])
  have htext' : ∀ u : ArrowStep, (⟨h.first, steps ++ [u]⟩ : ChainHead).text =
      h.first ++ (steps.flatMap ArrowStep.text ++ u.text) := by
    intro u
    simp [ChainHead.text]
  have hk : (⟨h.first, steps ++ [{ s with target := path }]⟩ : ChainHead).IsWritten := by
    refine ⟨hh.isWritten.first, fun u hu => ?_, by simp⟩
    rcases List.mem_append.mp hu with hu | hu
    · exact hh.isWritten.steps u (by simp [hsteps, hu])
    · rw [List.mem_singleton.mp hu]
      exact ⟨hs.before, hs.after, hpath⟩
  have hle := hh.longest _ hk (by rw [htext']; exact htext)
  have hself : h.text = h.first ++ (steps.flatMap ArrowStep.text ++ s.text) := by
    rw [ChainHead.text, hsteps]
    simp
  rw [htext', hself, List.prefix_append_right_inj, List.prefix_append_right_inj] at hle
  exact (List.prefix_append_right_inj s.front).mp hle

theorem IsWritten.isInert {h : ChainHead} (hw : h.IsWritten) : ∀ c ∈ h.text, isInert c = true := by
  have harrow : ∀ a : ArrowSign, ∀ c ∈ a.text, PipelineDoc.isInert c = true := by
    intro a
    cases a <;> exact List.all_eq_true.mp (by decide +kernel)
  intro c hc
  simp only [ChainHead.text, List.mem_append, List.mem_flatMap, ArrowStep.text, ArrowStep.front] at hc
  rcases hc with hc | ⟨s, hs, (hc | hc | hc) | hc⟩
  · exact hw.first.isInert c hc
  · exact isInert_of_isBlank ((hw.steps s hs).before c hc)
  · exact harrow s.arrow c hc
  · exact isInert_of_isBlank ((hw.steps s hs).after c hc)
  · exact (hw.steps s hs).target.isInert c hc

/-- No chain starts with two words that only blanks separate. -/
theorem read?_word_gap {word gap rest : Text} (hword : IsDottedPath word) (hne : gap ≠ [])
    (hgap : ∀ c ∈ gap, isBlank c = true) (hrest : rest.head?.any isWordStart) :
    ChainHead.read? (word ++ (gap ++ rest)) = none := by
  obtain ⟨d, gap, rfl⟩ := List.exists_cons_of_ne_nil hne
  cases rest with
  | nil => cases hrest
  | cons c rest =>
    have hc : isWordChar c = true := isWordChar_of_isWordStart hrest
    have hd := not_isPathChar_of_isBlank (hgap d List.mem_cons_self)
    simp only [isPathChar, Bool.or_eq_false_iff, beq_eq_false_iff_ne] at hd
    have harrow : ArrowSign.read? (c :: rest) = none := by
      refine Option.eq_none_iff_forall_ne_some.mpr fun x hx => ?_
      have hhead := (ArrowSign.head?_text x.1 x.2).2
      rw [← ArrowSign.eq_of_read? hx] at hhead
      simp [hc] at hhead
    have hblanks : blanks (d :: gap ++ c :: rest) = (d :: gap, c :: rest) :=
      blanks_append_of hgap (by simp [not_isBlank_of_isWordChar hc])
    have hstep : ArrowStep.read? (d :: gap ++ c :: rest) = none := by
      simp only [ArrowStep.read?, hblanks, harrow, Option.bind_none]
    have hsteps : arrowSteps (d :: gap ++ c :: rest) = ([], d :: gap ++ c :: rest) := by
      rw [arrowSteps]
      split
      · next h => rw [hstep] at h; cases h
      · rfl
    rw [ChainHead.read?, path?_append hword (by simp [hd])]
    simp only [Option.bind_some, hsteps, List.isEmpty_nil, if_true]

end ChainHead

/-- **Where a call head stands there is no chain.** -/
theorem CallHead.IsWritten.read?_chain {h : CallHead} (hw : h.IsWritten) (rest : Text) :
    ChainHead.read? (h.text ++ rest) = none := by
  obtain ⟨binding, run⟩ := h
  obtain ⟨hbinding, hrun⟩ := hw
  cases binding with
  | none =>
    simp only [CallHead.text, CallHead.front, RunHead.text, List.nil_append, List.append_assoc]
    exact ChainHead.read?_word_gap (.identifier (by decide +kernel)) hrun.gap_ne_nil hrun.gap
      (hrun.module.any_head?_append _)
  | some b =>
    obtain ⟨hb, -⟩ := hbinding b rfl
    simp only [CallHead.text, CallHead.front, LetHead.text, List.append_assoc]
    exact ChainHead.read?_word_gap (.identifier (by decide +kernel)) hb.gap_ne_nil hb.gap
      ((IsDottedPath.identifier hb.name).any_head?_append _)

end PipelineDoc
