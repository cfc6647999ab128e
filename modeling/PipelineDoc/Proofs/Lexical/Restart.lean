import Mathlib.Data.List.Induction
import Mathlib.Tactic.SplitIfs
import PipelineDoc.Proofs.Lexical.Tokens

/-!
# Reading on from a place in code

A reader that starts in code at some place of a text agrees with one that has come from the start of
the text if the latter is in code there too. So it is enough to know the mode at the places where
reading starts anew. A character of code that is no backslash leaves a reader in code
(`mode_of_label`), and *inert* characters, which open neither a string nor a comment, keep it there
(`run_inert`).

`CodeAfter p s` says that a text `p ++ s` has code after `p`; `StandsInCode` says that a whole word
stands there.
-/

namespace PipelineDoc

/-- Characters that mean nothing to a reader in code. -/
def isInert (c : Char) : Bool := c != '\\' && c != '"' && c != '/'

theorem isInert_of_isWhite {c : Char} (h : isWhite c = true) : isInert c = true := by
  simp only [isInert, Bool.and_eq_true, bne_iff_ne]
  refine ⟨⟨?_, ?_⟩, ?_⟩
  all_goals
    rintro rfl
    exact absurd h (by decide)

namespace Mode

/-! ### Single characters -/

/-- **After a character of code** that is no backslash, a reader is in code. -/
theorem mode_of_label {mode : Mode} {c : Char} {next : Option Char}
    (hl : (mode.step c next).1 = .code) (hc : c ≠ '\\') : (mode.step c next).2 = .code := by
  cases mode with
  | code =>
    simp only [step, if_neg hc] at hl ⊢
    split_ifs at hl ⊢
    rfl
  | codeEscape => rfl
  | string =>
    simp only [step] at hl
    split_ifs at hl
  | stringEscape => cases hl
  | comment =>
    simp only [step] at hl ⊢
    split_ifs at hl ⊢
    rfl

theorem step_inert {c : Char} (hc : isInert c = true) (next : Option Char) :
    code.step c next = (.code, .code) := by
  simp only [isInert, Bool.and_eq_true, bne_iff_ne] at hc
  simp [step, hc]

theorem mode_of_newline {mode : Mode} {next : Option Char}
    (hl : (mode.step '\n' next).1 ≠ .string) : (mode.step '\n' next).2 = .code := by
  cases mode with
  | code => rfl
  | codeEscape => rfl
  | string => exact absurd rfl hl
  | stringEscape => exact absurd rfl hl
  | comment => rfl

theorem mode_of_string_newline {mode : Mode} {next : Option Char}
    (hl : (mode.step '\n' next).1 = .string) : (mode.step '\n' next).2 = .string := by
  cases mode with
  | string => rfl
  | stringEscape => rfl
  | code => cases hl
  | codeEscape => cases hl
  | comment => cases hl

/-- What follows a character matters only if it is a slash. -/
theorem step_next (mode : Mode) (c : Char) {next : Option Char} (h : next ≠ some '/') :
    mode.step c next = mode.step c none := by
  cases mode <;> simp [step, h]

/-! ### Parts of a text -/

theorem run_next {mode : Mode} (t : Text) {next : Option Char} (h : next ≠ some '/') :
    mode.run t next = mode.run t none := by
  induction t generalizing mode with
  | nil => rfl
  | cons c t ih =>
    rw [run_cons, run_cons, ih]
    cases t with
    | nil => rw [List.head?_nil, Option.none_or, Option.none_or, step_next mode c h]
    | cons d t => rfl

theorem run_inert {w : Text} (hw : ∀ c ∈ w, isInert c = true) (next : Option Char) :
    code.run w next = code := by
  induction w with
  | nil => rfl
  | cons c w ih =>
    rw [run_cons, step_inert (hw c List.mem_cons_self)]
    exact ih fun d hd => hw d (List.mem_cons_of_mem _ hd)

/-- Inside a string without a quote, a reader stays in it; it stands after a backslash only if the
last character is one. -/
theorem run_string {w : Text} (hw : '"' ∉ w) (next : Option Char) :
    string.run w next = string ∨ string.run w next = stringEscape ∧ w.getLast? = some '\\' := by
  induction w using List.reverseRecOn generalizing next with
  | nil => exact Or.inl rfl
  | append_singleton w c ih =>
    have hw' : '"' ∉ w := fun h => hw (List.mem_append_left _ h)
    have hc : c ≠ '"' := fun h => hw (by simp [h])
    rw [run_concat, List.getLast?_concat]
    rcases ih hw' (some c) with h | ⟨h, -⟩
    · rw [h]
      by_cases hb : c = '\\'
      · exact Or.inr ⟨by simp [step, hb], by rw [hb]⟩
      · exact Or.inl (by simp [step, hb, hc])
    · rw [h]
      exact Or.inl rfl

/-! ### Code after a part -/

/-- In a text that is read from a mode on, what comes after the part `p` starts with code. -/
def CodeAfter (mode : Mode) (p : Text) : Text → Prop
  | [] => False
  | c :: s => ((mode.run p (some c)).step c s.head?).1 = .code

theorem codeAfter_append {mode : Mode} {p q s : Text} :
    mode.CodeAfter (p ++ q) s ↔ (mode.run p (q ++ s).head?).CodeAfter q s := by
  cases s with
  | nil => exact Iff.rfl
  | cons c s => simp only [CodeAfter, run_append, List.head?_append, List.head?_cons]

/-- A reader that starts anew in code sees the code of the whole text. -/
theorem codeAfter_restart {mode : Mode} {p q s : Text} (h : mode.run p (q ++ s).head? = code) :
    mode.CodeAfter (p ++ q) s ↔ code.CodeAfter q s := by
  rw [codeAfter_append, h]

/-- **A word of inert characters** that starts in code leaves a reader in code. -/
theorem CodeAfter.run_append {mode : Mode} {p w s : Text} (h : mode.CodeAfter p (w ++ s))
    (hw : ∀ c ∈ w, isInert c = true) (hne : w ≠ []) : mode.run (p ++ w) s.head? = code := by
  obtain ⟨c, w, rfl⟩ := List.exists_cons_of_ne_nil hne
  have hc := hw c List.mem_cons_self
  have hslash : c ≠ '\\' := by
    rintro rfl
    exact absurd hc (by decide)
  rw [List.cons_append] at h
  rw [Mode.run_append, run_cons, List.head?_cons, Option.some_or, ← List.head?_append,
    mode_of_label h hslash]
  exact run_inert (fun d hd => hw d (List.mem_cons_of_mem _ hd)) _

theorem CodeAfter.append {mode : Mode} {p u v s : Text} (h : mode.CodeAfter p (u ++ (v ++ s)))
    (hu : ∀ c ∈ u, isInert c = true) (hv : ∀ c ∈ v, isInert c = true) (hne : v ≠ []) :
    mode.CodeAfter (p ++ u) (v ++ s) := by
  by_cases hnil : u = []
  · subst hnil
    rwa [List.append_nil]
  · obtain ⟨c, v, rfl⟩ := List.exists_cons_of_ne_nil hne
    have hmode := h.run_append hu hnil
    show ((mode.run (p ++ u) (some c)).step c (v ++ s).head?).1 = .code
    rw [List.cons_append, List.head?_cons] at hmode
    rw [hmode, step_inert (hv c List.mem_cons_self)]

theorem step_inert_next {c : Char} (hc : isInert c = true) (mode : Mode) (next next' : Option Char) :
    mode.step c next = mode.step c next' := by
  simp only [isInert, Bool.and_eq_true, bne_iff_ne] at hc
  cases mode <;> simp [step, hc]

theorem CodeAfter.change_rest {mode : Mode} {p w s : Text} (h : mode.CodeAfter p (w ++ s))
    (hw : ∀ c ∈ w, isInert c = true) (hne : w ≠ []) (s' : Text) : mode.CodeAfter p (w ++ s') := by
  obtain ⟨c, w, rfl⟩ := List.exists_cons_of_ne_nil hne
  have hl : ((mode.run p (some c)).step c (w ++ s).head?).1 = .code := h
  show ((mode.run p (some c)).step c (w ++ s').head?).1 = .code
  rw [step_inert_next (hw c List.mem_cons_self) _ _ (w ++ s).head?, hl]

theorem CodeAfter.getElem?_byteLabels {mode : Mode} {p w s : Text} (h : mode.CodeAfter p (w ++ s))
    (hw : ∀ c ∈ w, isInert c = true) {i : Nat} (hi : p.byteLength ≤ i)
    (hi' : i < p.byteLength + w.byteLength) :
    (mode.byteLabels (p ++ (w ++ s)))[i]? = some .code := by
  induction w generalizing p with
  | nil => simp only [Text.byteLength_nil] at hi'; omega
  | cons c w ih =>
    rw [Text.byteLength_cons] at hi'
    by_cases hc : i < p.byteLength + c.utf8Size
    · have hbyte := Mode.getElem?_byteLabels mode p (w ++ s) c
        (show i - p.byteLength < c.utf8Size by omega)
      rw [Nat.add_sub_cancel' hi] at hbyte
      rw [List.cons_append, hbyte]
      exact congrArg some h
    · cases w with
      | nil => simp only [Text.byteLength_nil] at hi'; omega
      | cons d w =>
        have hnext := CodeAfter.append (u := [c]) h (by simpa using hw c (by simp))
          (fun e he => hw e (List.mem_cons_of_mem _ he)) (by simp)
        have := ih hnext (fun e he => hw e (List.mem_cons_of_mem _ he))
          (by simp only [Text.byteLength_append, Text.byteLength_cons, Text.byteLength_nil]; omega)
          (by
            simp only [Text.byteLength_append, Text.byteLength_cons, Text.byteLength_nil] at hi' ⊢
            omega)
        simpa using this

end Mode

theorem Text.length_byteLabels (t : Text) : t.byteLabels.length = t.byteLength := by
  rw [Text.byteLabels_eq]
  generalize Mode.code = mode
  induction t generalizing mode with
  | nil => rfl
  | cons c t ih => rw [Mode.byteLabels_cons, List.length_append, List.length_replicate, ih]; rfl

theorem Text.byteLabels_eq_code_iff {p s : Text} :
    (p ++ s : Text).byteLabels[p.byteLength]? = some .code ↔ Mode.code.CodeAfter p s := by
  cases s with
  | nil =>
    rw [List.append_nil, List.getElem?_eq_none (Nat.le_of_eq (Text.length_byteLabels p))]
    exact ⟨fun hl => absurd hl (by simp), False.elim⟩
  | cons c s =>
    have h := Mode.getElem?_byteLabels .code p s c (Char.utf8Size_pos c)
    rw [Nat.add_zero] at h
    rw [Text.byteLabels_eq, h, Option.some.injEq]
    exact Iff.rfl

/-! ### Words -/

/-- In a text that stands after `prev` and is read from a mode on, the word after `p` is a whole
word in code; `s` is what follows it. -/
structure StandsInCode (mode : Mode) (prev : Option Char) (p word s : Text) : Prop where
  code : mode.CodeAfter p (word ++ s)
  clear_before : isClear (p.getLast?.or prev) = true
  clear_after : isClear s.head? = true

/-- **Words after a restart** are the words of the whole text. -/
theorem standsInCode_restart {mode : Mode} {prev : Option Char} {p q word s : Text}
    (h : mode.run p (q ++ (word ++ s)).head? = .code) :
    StandsInCode mode prev (p ++ q) word s ↔ StandsInCode .code (p.getLast?.or prev) q word s := by
  have hcode := Mode.codeAfter_restart h
  have hlast : (p ++ q).getLast?.or prev = q.getLast?.or (p.getLast?.or prev) := by
    rw [List.getLast?_append, Option.or_assoc]
  constructor
  · rintro ⟨hc, hb, ha⟩
    exact ⟨hcode.mp hc, hlast ▸ hb, ha⟩
  · rintro ⟨hc, hb, ha⟩
    exact ⟨hcode.mpr hc, hlast ▸ hb, ha⟩

theorem Text.isWholeWord_append (p w s : Text) :
    (p ++ (w ++ s) : Text).isWholeWord p.byteLength w.byteLength =
      .ok (isClear p.getLast? && isClear s.head?) := by
  have hsplit := splitAt?_append (p ++ w) s
  rw [List.append_assoc, byteLength_append] at hsplit
  simp only [isWholeWord, splitAt, splitAt?_append, hsplit]
  rfl

section Find

variable {α : Type} {spelling : α → Text} {candidates : List α}

theorem wordAt?_eq_some {prev : Option Char} {t after : Text} {a : α}
    (h : wordAt? spelling candidates prev t = some (a, after)) :
    a ∈ candidates ∧ isClear prev = true ∧ isClear after.head? = true := by
  obtain ⟨b, hb, h⟩ := List.exists_of_findSome?_eq_some h
  split at h
  · next rest hrest =>
    split at h
    · next hclear =>
      rw [Bool.and_eq_true] at hclear
      cases h
      exact ⟨hb, hclear⟩
    · cases h
  · cases h

theorem wordAt?_isSome {prev : Option Char} {s : Text} {a : α} (ha : a ∈ candidates)
    (hprev : isClear prev = true) (hs : isClear s.head? = true) :
    (wordAt? spelling candidates prev (spelling a ++ s)).isSome := by
  rw [wordAt?, List.findSome?_isSome_iff]
  refine ⟨a, ha, ?_⟩
  rw [Text.skip?_eq_some_iff.mpr rfl]
  simp [hprev, hs]

theorem standsInCode_of_findWord? {prev : Option Char} {mode : Mode} {t : Text} {f : Find α}
    (h : findWord? spelling candidates prev mode t = some f) :
    f.key ∈ candidates ∧ StandsInCode mode prev f.before (spelling f.key) f.after := by
  induction t generalizing prev mode f with
  | nil => simp [findWord?] at h
  | cons c t ih =>
    simp only [findWord?] at h
    split at h
    · next a after ha =>
      cases h
      split at ha
      · next hl =>
        have ht := eq_of_wordAt? ha
        obtain ⟨hmem, hprev, hafter⟩ := wordAt?_eq_some ha
        refine ⟨hmem, ?_, hprev, hafter⟩
        rw [← ht]
        exact hl
      · cases ha
    · obtain ⟨g, hg, rfl⟩ := Option.map_eq_some_iff.mp h
      have ht := eq_of_findWord? hg
      obtain ⟨hmem, hcode, hbefore, hafter⟩ := ih hg
      refine ⟨hmem, ?_, ?_, hafter⟩
      · rw [ht] at hcode
        have happend : mode.CodeAfter ([c] ++ g.before) (spelling g.key ++ g.after) ↔ _ :=
          Mode.codeAfter_append
        rw [← ht] at happend
        exact happend.mpr (by rwa [ht])
      · rwa [getLast?_cons_or]

/-- **The first whole word in code** is found, if there is one. -/
theorem exists_findWord? {prev : Option Char} {mode : Mode} {p s : Text} {a : α}
    (ha : a ∈ candidates) (h : StandsInCode mode prev p (spelling a) s) :
    ∃ f, findWord? spelling candidates prev mode (p ++ (spelling a ++ s)) = some f ∧
      f.before.length ≤ p.length := by
  induction p generalizing prev mode with
  | nil =>
    obtain ⟨hcode, hbefore, hafter⟩ := h
    have hfound : (wordAt? spelling candidates _ (spelling a ++ s)).isSome :=
      wordAt?_isSome ha hbefore hafter
    rw [List.nil_append]
    cases ht : spelling a ++ s with
    | nil => rw [ht] at hcode; exact hcode.elim
    | cons c t =>
      rw [ht] at hcode hfound
      obtain ⟨⟨b, after⟩, hb⟩ := Option.isSome_iff_exists.mp hfound
      refine ⟨⟨[], b, after⟩, ?_, Nat.le_refl 0⟩
      simp only [findWord?, if_pos (show (mode.step c t.head?).1 = .code from hcode)]
      rw [show wordAt? spelling candidates prev (c :: t) = some (b, after) from hb]
  | cons c p ih =>
    rw [List.cons_append]
    simp only [findWord?]
    split
    · next b after hb => exact ⟨_, rfl, Nat.zero_le _⟩
    · have hrest : StandsInCode (mode.step c (p ++ (spelling a ++ s)).head?).2 (some c) p
          (spelling a) s :=
        ⟨Mode.codeAfter_append (p := [c]).mp h.code, getLast?_cons_or c p prev ▸ h.clear_before,
          h.clear_after⟩
      obtain ⟨f, hf, hle⟩ := ih hrest
      exact ⟨{ f with before := c :: f.before }, by rw [hf]; rfl, Nat.succ_le_succ hle⟩

end Find

end PipelineDoc
