import PipelineDoc.Proofs.Grammar.Heads
import PipelineDoc.Proofs.Lexical.Nesting
import PipelineDoc.Proofs.Lexical.Visits
import PipelineDoc.Proofs.Statement.Places

/-!
# The calls of a line

The calls of a line are the visits of a search for the word `run` (`exists_visits_lineCalls`), so
they come one after the other. A run head in code makes a call of the line, unless it stands in the
arguments of one (`lineCall_or_inside`).
-/

namespace PipelineDoc

/-! ### Calls as read -/

theorem CallForm.exists_of_read? {t rest : Text} {f : CallForm}
    (h : CallForm.read? t = some (f, rest)) :
    ∃ r, t = f.head.text ++ r ∧ f.head.IsWritten ∧
      Bracket.paren.inside? r = f.inside.map (fun inside => (inside, rest)) ∧
      (f.inside = none → r = rest) := by
  simp only [CallForm.read?, Option.map_eq_some_iff, Prod.exists] at h
  obtain ⟨head, r, hread, hform⟩ := h
  obtain ⟨rfl, hw⟩ := CallHead.read?_eq_some_iff.mp hread
  split at hform
  · next inside after hin =>
    cases hform
    exact ⟨r, rfl, hw, hin, fun h => absurd h (Option.some_ne_none _)⟩
  · next hin =>
    cases hform
    exact ⟨rest, rfl, hw, hin, fun _ => rfl⟩

theorem CallForm.read?_append {head : CallHead} (hw : head.IsWritten) {inside s : Text}
    (hin : Bracket.paren.inside? (inside ++ ')' :: s) = some (inside, s)) :
    CallForm.read? (head.text ++ (inside ++ ')' :: s)) = some (⟨head, some inside⟩, s) := by
  simp only [CallForm.read?, CallHead.read?_eq_some_iff.mpr ⟨rfl, hw⟩, Option.map_some, hin]

theorem CallForm.exists_read? {t r : Text} {head : CallHead}
    (h : CallHead.read? t = some (head, r)) :
    ∃ f rest, CallForm.read? t = some (f, rest) ∧ f.head = head := by
  simp only [CallForm.read?, h, Option.map_some]
  split
  · exact ⟨_, _, rfl, rfl⟩
  · exact ⟨_, _, rfl, rfl⟩

theorem CallHead.IsWritten.isInert {h : CallHead} (hw : h.IsWritten) :
    ∀ c ∈ h.text, isInert c = true := by
  intro c hc
  rw [h.text_eq] at hc
  rcases List.mem_append.mp hc with hc | hc
  · exact isInert_of_isHeadChar (hw.all_isHeadChar c hc)
  · rw [List.mem_singleton.mp hc]
    decide

theorem CallHead.IsWritten.codeAfter_front {h : CallHead} (hw : h.IsWritten) {mode : Mode}
    {p s : Text} (hcode : mode.CodeAfter p (h.text ++ s)) :
    mode.CodeAfter (p ++ h.front) (h.run.text ++ s) := by
  rw [CallHead.text, List.append_assoc] at hcode
  exact hcode.append (fun c hc => hw.isInert c (List.mem_append_left _ hc))
    (fun c hc => hw.isInert c (List.mem_append_right _ hc)) (by simp [RunHead.text, runWord])

/-- **After a call** a reader is in code. -/
theorem CallForm.run_text {t rest : Text} {f : CallForm} (h : CallForm.read? t = some (f, rest)) :
    Mode.code.run f.text rest.head? = .code := by
  obtain ⟨r, -, hw, hin, -⟩ := CallForm.exists_of_read? h
  have hhead : ∀ next, Mode.code.run f.head.text next = .code := fun next =>
    Mode.run_inert hw.isInert next
  unfold CallForm.text
  split
  · next inside hinside =>
    rw [hinside] at hin
    rw [Mode.run_append, hhead]
    exact (Bracket.closes_of_inside? hin).run
  · exact hhead _

theorem CallForm.byteLength_text {f : CallForm} {inside : Text} (h : f.inside = some inside) :
    f.text.byteLength = f.head.text.byteLength + (inside.byteLength + 1) := by
  simp only [CallForm.text, h, Text.byteLength_append]
  rfl

/-! ### Calls as visits -/

/-- What a word `run` takes along: the rest of the call that it starts. -/
def callTaken (after : Text) : Text :=
  match CallForm.read? (runWord ++ after) with
  | some (form, _) => form.text.drop runWord.length
  | none => []

/-- The call that a word `run` starts, by the text before and after it. -/
def callOf? (v : Find Unit) : Option Call :=
  (CallForm.read? (runWord ++ v.after)).map fun (form, _) => form.place v.before.byteLength

theorem CallForm.binding_eq_none {after rest : Text} {f : CallForm}
    (h : CallForm.read? (runWord ++ after) = some (f, rest)) : f.head.binding = none := by
  simp only [CallForm.read?, Option.map_eq_some_iff, Prod.exists] at h
  obtain ⟨head, r, hread, hform⟩ := h
  have hlet : LetHead.read? (runWord ++ after) = none := rfl
  rw [CallHead.read?, hlet] at hread
  simp only [Option.map_eq_some_iff, Prod.exists, Prod.mk.injEq] at hread
  obtain ⟨run, r', -, rfl, -⟩ := hread
  split at hform <;> (cases hform; rfl)

/-- The text of a call that starts with `run`. -/
theorem CallForm.runWord_append_drop {after rest : Text} {f : CallForm}
    (h : CallForm.read? (runWord ++ after) = some (f, rest)) :
    runWord ++ f.text.drop runWord.length = f.text := by
  have hnone := CallForm.binding_eq_none h
  have htext : ∃ u, f.text = runWord ++ u := by
    simp only [CallForm.text, CallHead.text, CallHead.front, hnone, RunHead.text]
    split <;> exact ⟨_, by simp; rfl⟩
  obtain ⟨u, hu⟩ := htext
  rw [hu, List.drop_left]

theorem exists_callTaken (after : Text) :
    ∃ rest, after = callTaken after ++ rest ∧
      Mode.code.run (callTaken after) rest.head? = .code := by
  unfold callTaken
  split
  · next form rest hread =>
    have hdrop := CallForm.runWord_append_drop hread
    have heq := CallForm.eq_of_read? hread
    rw [← hdrop, List.append_assoc] at heq
    have hrun := CallForm.run_text hread
    rw [← hdrop, Mode.run_append, Mode.run_inert (List.all_eq_true.mp (by decide))] at hrun
    exact ⟨rest, List.append_cancel_left heq, hrun⟩
  · exact ⟨after, rfl, rfl⟩

theorem lineCallsFrom_of_findWord? {p s rest : Text} {f : Find Unit}
    (hfind : findWord? (fun () => runWord) [()] p.getLast? .code s = some f)
    (hrest : f.after = callTaken f.after ++ rest) :
    lineCallsFrom p.byteLength p.getLast? s =
      (callOf? { f with before := p ++ f.before }).toList ++
        lineCallsFrom (p ++ f.before ++ (runWord ++ callTaken f.after)).byteLength
          (p ++ f.before ++ (runWord ++ callTaken f.after)).getLast? rest := by
  rw [lineCallsFrom]
  split
  · next hnone =>
    rw [hfind] at hnone
    cases hnone
  · next g hg =>
    rw [hfind, Option.some.injEq] at hg
    subst hg
    simp only
    split
    · next form r hread =>
      have htaken : runWord ++ callTaken f.after = form.text := by
        rw [callTaken, hread]
        exact CallForm.runWord_append_drop hread
      have hne : form.text ≠ [] := List.length_pos_iff.mp form.length_text_pos
      have hsame : r = rest := by
        have heq := CallForm.eq_of_read? hread
        rw [← htaken, List.append_assoc, List.append_cancel_left_eq] at heq
        exact List.append_cancel_left (heq.symm.trans hrest)
      simp only [callOf?, hread, Option.map_some, Option.toList_some, List.singleton_append, htaken,
        Text.byteLength_append, getLast?_append_of_ne_nil _ hne, hsame]
    · next hread =>
      have htaken : callTaken f.after = [] := by rw [callTaken, hread]
      rw [htaken, List.nil_append] at hrest
      subst hrest
      simp only [callOf?, hread, htaken, Option.map_none, Option.toList_none, List.nil_append,
        List.append_nil, Text.byteLength_append,
        getLast?_append_of_ne_nil _ (show runWord ≠ [] by decide)]

/-- **The calls of a text** are made by the visits of the search for `run`. -/
theorem exists_visits_lineCallsFrom {p s : Text} (hmode : Mode.code.run p s.head? = .code) :
    ∃ vs, Visits (fun () => runWord) [()] callTaken p s vs ∧
      lineCallsFrom p.byteLength p.getLast? s = vs.filterMap callOf? := by
  induction hn : s.length using Nat.strongRecOn generalizing p s with
  | ind n ih =>
    cases hfind : findWord? (fun () => runWord) [()] p.getLast? .code s with
    | none =>
      refine ⟨[], .done hfind, ?_⟩
      rw [lineCallsFrom]
      split
      · rfl
      · next hsome =>
        rw [hfind] at hsome
        cases hsome
    | some f =>
      have hs := eq_of_findWord? hfind
      have hlen := length_after_findWord? hfind
      have hrun : runWord.length = 3 := rfl
      obtain ⟨rest, hrest, htaken⟩ := exists_callTaken f.after
      have hmode' := Visits.run_of_findWord? hmode hfind
        (List.all_eq_true.mp (by decide)) (by decide) hrest htaken
      have hshort := congrArg List.length hrest
      rw [List.length_append] at hshort
      obtain ⟨vs, hvisits, hcalls⟩ := ih rest.length (by omega) hmode' rfl
      refine ⟨_, .visit hfind hrest hmode' hvisits, ?_⟩
      rw [lineCallsFrom_of_findWord? hfind hrest, hcalls]
      rw [List.filterMap_cons]
      cases callOf? { f with before := p ++ f.before } <;> rfl

theorem exists_visits_lineCalls (line : Text) :
    ∃ vs, Visits (fun () => runWord) [()] callTaken [] line vs ∧
      line.lineCalls = vs.filterMap callOf? :=
  exists_visits_lineCallsFrom rfl

/-! ### Order -/

theorem CallForm.place_spans (f : CallForm) (offset : Nat) :
    (f.place offset).start ≤ (f.place offset).moduleSpan.start ∧
      (f.place offset).moduleSpan.stop ≤ (f.place offset).stop ∧
      ∀ a ∈ (f.place offset).args, (f.place offset).moduleSpan.stop ≤ a.start ∧
        a.stop ≤ (f.place offset).stop := by
  have hhead : f.head.text.byteLength ≤ f.text.byteLength := by
    unfold CallForm.text
    split
    · rw [Text.byteLength_append]
      exact Nat.le_add_right _ _
    · exact Nat.le_refl _
  have hmodule : (f.place offset).moduleSpan.stop ≤ offset + f.head.text.byteLength := by
    simp only [CallForm.place, RunHead.moduleSpan, CallHead.text, RunHead.text, Span.stop_ofLength,
      Text.byteLength_append]
    omega
  refine ⟨?_, ?_, ?_⟩
  · simp only [CallForm.place, RunHead.moduleSpan, Span.start_ofLength]
    omega
  · exact Nat.le_trans hmodule (Nat.add_le_add_left hhead offset)
  · intro a ha
    simp only [CallForm.place, Option.mem_def, Option.map_eq_some_iff] at ha
    obtain ⟨inside, hin, rfl⟩ := ha
    refine ⟨hmodule, ?_⟩
    simp only [CallForm.place, CallForm.text, hin, Span.stop_ofLength, Text.byteLength_append]
    omega

theorem exists_of_mem_lineCalls {line : Text} {q : Call} (h : q ∈ line.lineCalls) :
    ∃ p f rest, line = p ++ (f.text ++ rest) ∧ CallForm.read? (f.text ++ rest) = some (f, rest) ∧
      f.head.binding = none ∧ q = f.place p.byteLength ∧ isClear p.getLast? = true ∧
      Mode.code.CodeAfter p (f.text ++ rest) := by
  obtain ⟨vs, hvisits, hcalls⟩ := exists_visits_lineCalls line
  rw [hcalls] at h
  obtain ⟨v, hv, hq⟩ := List.mem_filterMap.mp h
  obtain ⟨-, hstands⟩ := hvisits.standsInCode rfl hv
  have heq := (hvisits.eq_append hv).1
  simp only [callOf?, Option.map_eq_some_iff, Prod.exists] at hq
  obtain ⟨f, rest, hread, rfl⟩ := hq
  have htext := CallForm.eq_of_read? hread
  refine ⟨v.before, f, rest, ?_, ?_, ?_, rfl, ?_, ?_⟩
  · rw [← htext]
    exact heq
  · rw [← htext]
    exact hread
  · exact CallForm.binding_eq_none hread
  · have hclear := hstands.clear_before
    rwa [Option.or_none] at hclear
  · rw [← htext]
    exact hstands.code

theorem binding_eq_none_of_mem_lineCalls {line : Text} {q : Call} (h : q ∈ line.lineCalls) :
    q.binding = none := by
  obtain ⟨p, f, rest, -, -, hb, rfl, -⟩ := exists_of_mem_lineCalls h
  rw [CallForm.place, hb]
  rfl

theorem stop_le_of_mem_lineCalls {line : Text} {q : Call} (h : q ∈ line.lineCalls) :
    q.stop ≤ line.byteLength := by
  obtain ⟨p, f, rest, rfl, -, -, rfl, -⟩ := exists_of_mem_lineCalls h
  simp only [CallForm.place, Text.byteLength_append]
  omega

theorem Text.pairwise_lineCalls (line : Text) :
    line.lineCalls.Pairwise fun q r => q.stop ≤ r.start := by
  obtain ⟨vs, hvisits, hcalls⟩ := exists_visits_lineCalls line
  rw [hcalls]
  refine hvisits.pairwise.filterMap _ ?_
  intro v w hvw q hq r hr
  simp only [callOf?, Option.map_eq_some_iff, Prod.exists] at hq hr
  obtain ⟨f, rest, hread, rfl⟩ := hq
  obtain ⟨g, rest', -, rfl⟩ := hr
  obtain ⟨m, hm⟩ := hvw
  have hlen := congrArg Text.byteLength hm
  rw [Find.reach, callTaken, hread] at hlen
  simp only [CallForm.runWord_append_drop hread, Text.byteLength_append] at hlen
  simp only [CallForm.place]
  omega

/-! ### Run heads in code -/

theorem isClear_of_isWritten {h : RunHead} (hw : h.IsWritten) (s : Text) :
    isClear (h.gap ++ s).head? = true := by
  obtain ⟨c, gap, hgap⟩ := List.exists_cons_of_ne_nil hw.gap_ne_nil
  have hc := not_isWordChar_of_isBlank (hw.gap c (by simp [hgap]))
  rw [hgap, List.cons_append, List.head?_cons, isClear, Option.all_some, hc]
  rfl

theorem CallHead.text_of_binding_eq_none {h : CallHead} (hb : h.binding = none) :
    h.text = h.run.text := by
  rw [CallHead.text, CallHead.front, hb, List.nil_append]

/-- Inside the head of a call without binding no other run head starts. -/
theorem RunHead.not_inside_head {h : RunHead} (hw : h.IsWritten) {head : CallHead}
    (hhead : head.IsWritten) (hb : head.binding = none) {p s b r : Text}
    (heq : p ++ (h.text ++ s) = b ++ (head.text ++ r)) (hlt : b.length < p.length) :
    (b ++ head.text).length ≤ p.length := by
  by_contra hlen
  -- both heads end with the same parenthesis
  rw [head.text_eq, ← List.append_assoc, List.length_append, List.length_singleton] at hlen
  rw [h.text_eq, head.text_eq, List.append_assoc, List.append_assoc] at heq
  obtain ⟨hsame, -⟩ := Text.append_inj_of_not_mem heq (hw.not_mem_stem (by decide))
    (hhead.not_mem_stem (by decide)) (Nat.le_of_lt hlt) (by omega)
  have htext : p ++ h.text = b ++ head.run.text := by
    rw [← CallHead.text_of_binding_eq_none hb, h.text_eq, head.text_eq, ← List.append_assoc, hsame,
      List.append_assoc]
  obtain ⟨rfl, -⟩ := RunHead.append_text_inj hw hhead.run htext
  exact Nat.lt_irrefl _ hlt

/-- A run head that starts in a call without binding stands in the arguments of the call. -/
theorem RunHead.exists_inside {h : RunHead} (hw : h.IsWritten) {p s b rest : Text} {f : CallForm}
    (heq : p ++ (h.text ++ s) = b ++ (f.text ++ rest))
    (hread : CallForm.read? (f.text ++ rest) = some (f, rest)) (hb : f.head.binding = none)
    (hlt : b.length < p.length) (hreach : p.length < (b ++ f.text).length) :
    ∃ u w, f.inside = some (u ++ (h.text ++ w)) ∧ p = b ++ (f.head.text ++ u) := by
  obtain ⟨r, hr, hfw, -, -⟩ := CallForm.exists_of_read? hread
  have hafter := RunHead.not_inside_head hw hfw hb (by rw [← hr]; exact heq) hlt
  cases hinside : f.inside with
  | none =>
    simp only [CallForm.text, hinside] at hreach
    omega
  | some inside =>
    obtain ⟨u, rfl⟩ : b ++ f.head.text <+: p := by
      refine List.prefix_of_prefix_length_le ?_ (List.prefix_append p (h.text ++ s)) hafter
      rw [heq, hr]
      exact ⟨r, by simp⟩
    have heq' : b ++ f.head.text ++ u ++ (h.text ++ s) =
        ((b ++ f.head.text ++ inside) ++ [')']) ++ rest := by
      rw [heq, CallForm.text, hinside]
      simp [Bracket.closer]
    obtain ⟨w, hw'⟩ := Text.append_prefix_of_not_mem heq' (by
      simpa [CallForm.text, hinside] using hreach) (hw.not_mem_text (by decide) (by decide))
    rw [List.append_assoc (b ++ f.head.text), List.append_assoc (b ++ f.head.text),
      List.append_cancel_left_eq, List.append_assoc] at hw'
    exact ⟨u, w, by rw [hw'], by simp⟩

/-- **A run head in code** makes a call of the line, or it stands in the arguments of one. -/
theorem lineCall_or_inside {p s : Text} {h : RunHead} (hw : h.IsWritten)
    (hcode : Mode.code.CodeAfter p (h.text ++ s)) (hclear : isClear p.getLast? = true) :
    (∃ f rest, CallForm.read? (h.text ++ s) = some (f, rest) ∧ f.head = ⟨none, h⟩ ∧
      f.place p.byteLength ∈ (p ++ (h.text ++ s) : Text).lineCalls) ∨
    ∃ b f rest u w, p ++ (h.text ++ s) = b ++ (f.text ++ rest) ∧
      CallForm.read? (f.text ++ rest) = some (f, rest) ∧
      f.place b.byteLength ∈ (p ++ (h.text ++ s) : Text).lineCalls ∧
      f.inside = some (u ++ (h.text ++ w)) ∧ p = b ++ (f.head.text ++ u) ∧
      isClear b.getLast? = true ∧ Mode.code.CodeAfter b (f.text ++ rest) := by
  obtain ⟨vs, hvisits, hcalls⟩ := exists_visits_lineCalls (p ++ (h.text ++ s))
  have htext : h.text ++ s = runWord ++ (h.gap ++ (h.module ++ (h.pad ++ '(' :: s))) := by
    simp [RunHead.text]
  have hstands : StandsInCode .code none p runWord (h.gap ++ (h.module ++ (h.pad ++ '(' :: s))) :=
    ⟨htext ▸ hcode, by rwa [Option.or_none], isClear_of_isWritten hw _⟩
  obtain ⟨v, hv, hvp⟩ := hvisits.complete rfl (List.mem_singleton.mpr rfl)
    (by rw [List.nil_append, htext]) hstands (Nat.zero_le _)
  have heq := (hvisits.eq_append hv).1
  rw [List.nil_append] at heq
  rcases hvp with rfl | ⟨hlt, hreach⟩
  · have hsame : runWord ++ v.after = h.text ++ s := (List.append_cancel_left heq).symm
    have hhead : CallHead.read? (h.text ++ s) = some (⟨none, h⟩, s) :=
      CallHead.read?_eq_some_iff.mpr ⟨rfl, fun _ hb => absurd hb (by simp), hw⟩
    obtain ⟨f, rest, hread, hf⟩ := CallForm.exists_read? hhead
    refine Or.inl ⟨f, rest, hread, hf, ?_⟩
    rw [hcalls]
    refine List.mem_filterMap.mpr ⟨v, hv, ?_⟩
    rw [callOf?, hsame, hread]
    rfl
  · rw [Find.reach, callTaken] at hreach
    cases hread : CallForm.read? (runWord ++ v.after) with
    | none =>
      -- nothing is taken, and inside the word `run` no other one starts
      rw [hread, List.append_nil] at hreach
      rw [htext] at heq
      have := hstands.not_inside isWordChar_of_mem_runWord heq hlt
      omega
    | some fr =>
      obtain ⟨f, rest⟩ := fr
      have hftext := CallForm.eq_of_read? hread
      simp only [hread, CallForm.runWord_append_drop hread] at hreach
      have hmem : f.place v.before.byteLength ∈ (p ++ (h.text ++ s) : Text).lineCalls := by
        rw [hcalls]
        refine List.mem_filterMap.mpr ⟨v, hv, ?_⟩
        rw [callOf?, hread]
        rfl
      have hbinding := CallForm.binding_eq_none hread
      obtain ⟨-, hvcode, hvclear, -⟩ := hvisits.standsInCode rfl hv
      rw [Option.or_none] at hvclear
      rw [hftext] at heq hread hvcode
      obtain ⟨u, w, hin, hp⟩ := RunHead.exists_inside hw heq hread hbinding hlt hreach
      exact Or.inr ⟨v.before, f, rest, u, w, heq, hread, hmem, hin, hp, hvclear, hvcode⟩

end PipelineDoc
