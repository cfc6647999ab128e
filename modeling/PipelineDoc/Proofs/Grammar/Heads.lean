import Mathlib.Data.List.Basic
import PipelineDoc.Proofs.Grammar.Paths
import PipelineDoc.Proofs.Lexical.Restart

/-!
# Heads of bindings and calls, read and written

A head is *written* if its parts are of the kinds that the grammar asks for. The recognizers accept
exactly the texts of written heads, whatever comes after (`RunHead.read?_eq_some_iff` and its like),
so a head that was read in one text is read in any other text that goes on differently. The
characters of a head mean nothing to a reader in code, and none is a newline. A run head has one
opening parenthesis, its last character, and is told by where it ends (`RunHead.append_text_inj`).
-/

namespace PipelineDoc

/-! ### Recognizers on what they recognize -/

theorem takeWhile_dropWhile_append {f : Char → Bool} {p rest : Text} (hp : ∀ c ∈ p, f c = true)
    (hrest : rest.head?.all fun c => !f c) :
    (p ++ rest).takeWhile f = p ∧ (p ++ rest).dropWhile f = rest := by
  rw [List.takeWhile_append_of_pos hp, List.dropWhile_append_of_pos hp]
  cases rest with
  | nil => exact ⟨List.append_nil p, rfl⟩
  | cons c rest =>
    have hc : ¬ f c = true := by simpa using hrest
    rw [List.takeWhile_cons_of_neg hc, List.dropWhile_cons_of_neg hc, List.append_nil]
    exact ⟨rfl, rfl⟩

theorem blanks_append_of {gap rest : Text} (hgap : ∀ c ∈ gap, isBlank c = true)
    (hrest : rest.head?.all fun c => !isBlank c) : blanks (gap ++ rest) = (gap, rest) := by
  obtain ⟨htake, hdrop⟩ := takeWhile_dropWhile_append hgap hrest
  rw [blanks, htake, hdrop]

theorem identifier?_append {name rest : Text} (hname : IsIdentifier name)
    (hrest : rest.head?.all fun c => !isWordChar c) :
    identifier? (name ++ rest) = some (name, rest) := by
  obtain ⟨c, name, rfl⟩ := List.exists_cons_of_ne_nil hname.ne_nil
  have hstart : isWordStart c = true := hname.1
  obtain ⟨htake, hdrop⟩ := takeWhile_dropWhile_append
    (fun d hd => hname.2 d (List.mem_cons_of_mem _ hd)) hrest
  rw [List.cons_append, identifier?, if_pos hstart, htake, hdrop]

theorem pathTail_wordChars {w : Text} (hw : ∀ c ∈ w, isWordChar c = true) (t : Text) :
    pathTail (w ++ t) = (w ++ (pathTail t).1, (pathTail t).2) := by
  induction w with
  | nil => rfl
  | cons c w ih =>
    rw [List.cons_append, pathTail, hw c List.mem_cons_self, Bool.true_or, if_pos rfl,
      ih fun d hd => hw d (List.mem_cons_of_mem _ hd)]
    rfl

theorem IsDottedPath.any_head? {t : Text} (h : IsDottedPath t) : t.head?.any isWordStart := by
  cases h with
  | identifier ht => exact ht.1
  | dot hs ht =>
    rw [List.head?_append]
    obtain ⟨c, s, rfl⟩ := List.exists_cons_of_ne_nil hs.ne_nil
    exact hs.1

theorem IsDottedPath.any_head?_append {t : Text} (h : IsDottedPath t) (rest : Text) :
    (t ++ rest).head?.any isWordStart := by
  obtain ⟨c, t, rfl⟩ := List.exists_cons_of_ne_nil h.ne_nil
  exact h.any_head?

/-- A path goes no further than the characters that can belong to one. -/
theorem pathTail_append_of {path rest : Text} (hpath : IsDottedPath path)
    (hrest : rest.head?.all fun c => !isWordChar c && c != '.') :
    pathTail (path ++ rest) = (path, rest) := by
  induction hpath with
  | identifier ht =>
    rw [pathTail_wordChars ht.2]
    cases rest with
    | nil => simp [pathTail]
    | cons c rest =>
      rw [List.head?_cons, Option.all_some, Bool.and_eq_true, Bool.not_eq_true'] at hrest
      rw [pathTail, hrest.1, beq_eq_false_iff_ne.mpr (bne_iff_ne.mp hrest.2)]
      simp
  | @dot s t hs ht ih =>
    rw [List.append_assoc, pathTail_wordChars hs.2, List.cons_append, pathTail, ih,
      ht.any_head?_append rest]
    simp

/-- A path is read from its first word start on. -/
theorem path?_eq_pathTail {t : Text} (h : t.head?.any isWordStart) : path? t = some (pathTail t) := by
  cases t with
  | nil => cases h
  | cons c t =>
    have hc : isWordStart c = true := h
    rw [path?, if_pos hc, pathTail, isWordChar_of_isWordStart hc, Bool.true_or, if_pos rfl]

theorem path?_append {path rest : Text} (hpath : IsDottedPath path)
    (hrest : rest.head?.all fun c => !isWordChar c && c != '.') :
    path? (path ++ rest) = some (path, rest) := by
  rw [path?_eq_pathTail (hpath.any_head?_append rest), pathTail_append_of hpath hrest]

/-! ### Written heads -/

/-- The parts of a binding head are of the kinds that the grammar asks for. -/
structure LetHead.IsWritten (h : LetHead) : Prop where
  gap_ne_nil : h.gap ≠ []
  gap : ∀ c ∈ h.gap, isBlank c = true
  name : IsIdentifier h.name
  pad : ∀ c ∈ h.pad, isBlank c = true

/-- The parts of a run head are of the kinds that the grammar asks for. -/
structure RunHead.IsWritten (h : RunHead) : Prop where
  gap_ne_nil : h.gap ≠ []
  gap : ∀ c ∈ h.gap, isBlank c = true
  module : IsDottedPath h.module
  pad : ∀ c ∈ h.pad, isBlank c = true

theorem isIdentifier_of_identifier? {t name rest : Text}
    (h : identifier? t = some (name, rest)) : IsIdentifier name := by
  cases t with
  | nil => simp [identifier?] at h
  | cons c cs =>
    simp only [identifier?] at h
    split at h
    · next hc =>
      cases h
      exact (IsIdentifier.singleton hc).append fun d hd => List.mem_takeWhile_imp hd
    · cases h

theorem not_isWordChar_of_isBlank {c : Char} (h : isBlank c = true) : isWordChar c = false := by
  simp only [isBlank, Bool.or_eq_true, beq_iff_eq] at h
  rcases h with rfl | rfl <;> decide

theorem not_isBlank_of_isWordChar {c : Char} (h : isWordChar c = true) : isBlank c = false := by
  rw [Bool.eq_false_iff]
  intro hb
  rw [not_isWordChar_of_isBlank hb] at h
  cases h

theorem all_not_isBlank {p : Text} (hp : p.head?.any isWordStart) (rest : Text) :
    (p ++ rest).head?.all fun c => !isBlank c := by
  cases p with
  | nil => cases hp
  | cons c p =>
    rw [List.cons_append, List.head?_cons, Option.all_some, Bool.not_eq_true']
    exact not_isBlank_of_isWordChar (isWordChar_of_isWordStart hp)

theorem all_head?_blanks {pad rest : Text} {c : Char} {f : Char → Bool}
    (hpad : ∀ d ∈ pad, isBlank d = true) (hblank : ∀ d, isBlank d = true → f d = true)
    (hc : f c = true) : (pad ++ c :: rest).head?.all f := by
  cases pad with
  | nil => exact hc
  | cons d pad => exact hblank d (hpad d List.mem_cons_self)

/-- **A binding head** is read where a written one stands. -/
theorem LetHead.read?_eq_some_iff {t rest : Text} {h : LetHead} :
    LetHead.read? t = some (h, rest) ↔ t = h.text ++ rest ∧ h.IsWritten := by
  constructor
  · intro e
    refine ⟨LetHead.eq_of_read? e, ?_⟩
    simp only [LetHead.read?, Option.bind_eq_some_iff] at e
    obtain ⟨t₁, -, e⟩ := e
    split at e
    · cases e
    · next hgap =>
      simp only [Option.bind_eq_some_iff, Option.map_eq_some_iff, Prod.exists,
        Prod.mk.injEq] at e
      obtain ⟨name, t₂, hname, r, -, rfl, rfl⟩ := e
      exact ⟨fun hnil => hgap (List.isEmpty_iff.mpr hnil), fun c hc => List.mem_takeWhile_imp hc,
        isIdentifier_of_identifier? hname, fun c hc => List.mem_takeWhile_imp hc⟩
  · rintro ⟨rfl, hne, hgap, hname, hpad⟩
    have htext : h.text ++ rest = letWord ++ (h.gap ++ (h.name ++ (h.pad ++ '=' :: rest))) := by
      simp [LetHead.text]
    have hword : (h.pad ++ '=' :: rest).head?.all fun c => !isWordChar c :=
      all_head?_blanks hpad (fun d hd => by rw [not_isWordChar_of_isBlank hd]; rfl) (by decide)
    have hsign : blanks (h.pad ++ '=' :: rest) = (h.pad, '=' :: rest) := blanks_append_of hpad rfl
    have hskip : Text.skip? ('=' :: rest) ['='] = some rest := Text.skip?_eq_some_iff.mpr rfl
    rw [htext, LetHead.read?, Text.skip?_eq_some_iff.mpr rfl]
    simp only [Option.bind_some, blanks_append_of hgap (all_not_isBlank hname.1 _),
      List.isEmpty_iff, if_neg hne, identifier?_append hname hword,
      hsign, hskip, Option.map_some]

/-- **A run head** is read where a written one stands. -/
theorem RunHead.read?_eq_some_iff {t rest : Text} {h : RunHead} :
    RunHead.read? t = some (h, rest) ↔ t = h.text ++ rest ∧ h.IsWritten := by
  constructor
  · intro e
    refine ⟨RunHead.eq_of_read? e, ?_⟩
    simp only [RunHead.read?, Option.bind_eq_some_iff] at e
    obtain ⟨t₁, -, e⟩ := e
    split at e
    · cases e
    · next hgap =>
      simp only [Option.bind_eq_some_iff, Option.map_eq_some_iff, Prod.exists,
        Prod.mk.injEq] at e
      obtain ⟨path, t₂, hpath, r, -, rfl, rfl⟩ := e
      exact ⟨fun hnil => hgap (List.isEmpty_iff.mpr hnil), fun c hc => List.mem_takeWhile_imp hc,
        isDottedPath_of_path? hpath, fun c hc => List.mem_takeWhile_imp hc⟩
  · rintro ⟨rfl, hne, hgap, hmodule, hpad⟩
    have htext : h.text ++ rest = runWord ++ (h.gap ++ (h.module ++ (h.pad ++ '(' :: rest))) := by
      simp [RunHead.text]
    have hword : (h.pad ++ '(' :: rest).head?.all fun c => !isWordChar c && c != '.' := by
      refine all_head?_blanks hpad (fun d hd => ?_) (by decide)
      rw [not_isWordChar_of_isBlank hd]
      simp only [isBlank, Bool.or_eq_true, beq_iff_eq] at hd
      rcases hd with rfl | rfl <;> decide
    have hsign : blanks (h.pad ++ '(' :: rest) = (h.pad, '(' :: rest) := blanks_append_of hpad rfl
    have hskip : Text.skip? ('(' :: rest) ['('] = some rest := Text.skip?_eq_some_iff.mpr rfl
    rw [htext, RunHead.read?, Text.skip?_eq_some_iff.mpr rfl]
    simp only [Option.bind_some, blanks_append_of hgap (all_not_isBlank hmodule.any_head? _),
      List.isEmpty_iff, if_neg hne, path?_append hmodule hword,
      hsign, hskip, Option.map_some]

/-- The parts of a call head are of the kinds that the grammar asks for. -/
structure CallHead.IsWritten (h : CallHead) : Prop where
  binding : ∀ b ∈ h.binding, b.1.IsWritten ∧ ∀ c ∈ b.2, isBlank c = true
  run : h.run.IsWritten

/-- **A call head** is read where a written one stands. -/
theorem CallHead.read?_eq_some_iff {t rest : Text} {h : CallHead} :
    CallHead.read? t = some (h, rest) ↔ t = h.text ++ rest ∧ h.IsWritten := by
  constructor
  · intro e
    refine ⟨CallHead.eq_of_read? e, ?_⟩
    unfold CallHead.read? at e
    split at e
    · next binding t₁ hlet =>
      simp only [Option.map_eq_some_iff, Prod.exists, Prod.mk.injEq] at e
      obtain ⟨run, r, hrun, rfl, rfl⟩ := e
      refine ⟨?_, (RunHead.read?_eq_some_iff.mp hrun).2⟩
      rintro _ ⟨⟩
      exact ⟨(LetHead.read?_eq_some_iff.mp hlet).2, fun c hc => List.mem_takeWhile_imp hc⟩
    · simp only [Option.map_eq_some_iff, Prod.exists, Prod.mk.injEq] at e
      obtain ⟨run, r, hrun, rfl, rfl⟩ := e
      exact ⟨fun _ hb => absurd hb (by simp), (RunHead.read?_eq_some_iff.mp hrun).2⟩
  · rintro ⟨rfl, hbinding, hrun⟩
    obtain ⟨binding, run⟩ := h
    have hread : RunHead.read? (run.text ++ rest) = some (run, rest) :=
      RunHead.read?_eq_some_iff.mpr ⟨rfl, hrun⟩
    cases binding with
    | none =>
      have hlet : LetHead.read? (run.text ++ rest) = none := rfl
      rw [CallHead.read?, CallHead.text, CallHead.front, List.nil_append, hlet]
      simp only [hread, Option.map_some]
    | some b =>
      obtain ⟨hb, hpad⟩ := hbinding b rfl
      have hlet : LetHead.read? (b.1.text ++ (b.2 ++ (run.text ++ rest))) =
          some (b.1, b.2 ++ (run.text ++ rest)) := LetHead.read?_eq_some_iff.mpr ⟨rfl, hb⟩
      have hblanks : blanks (b.2 ++ (run.text ++ rest)) = (b.2, run.text ++ rest) :=
        blanks_append_of hpad rfl
      rw [CallHead.read?, CallHead.text, CallHead.front, List.append_assoc, List.append_assoc, hlet]
      simp only [hblanks, hread, Option.map_some]

/-! ### Characters of heads -/

/-- Characters of heads, the opening parenthesis apart: they mean nothing to a reader in code, end
no line and open or close nothing. -/
def isHeadChar (c : Char) : Bool := isInert c && c != '\n' && c != '(' && c != ')'

theorem isInert_of_isHeadChar {c : Char} (h : isHeadChar c = true) : isInert c = true := by
  simp only [isHeadChar, Bool.and_eq_true] at h
  exact h.1.1.1

theorem isHeadChar_of_isWordChar {c : Char} (h : isWordChar c = true) : isHeadChar c = true := by
  simp only [isHeadChar, isInert, Bool.and_eq_true, bne_iff_ne]
  refine ⟨⟨⟨⟨⟨?_, ?_⟩, ?_⟩, ?_⟩, ?_⟩, ?_⟩ <;> (rintro rfl; exact absurd h (by decide))

theorem isInert_of_isWordChar {c : Char} (h : isWordChar c = true) : isInert c = true :=
  isInert_of_isHeadChar (isHeadChar_of_isWordChar h)

/-- The characters of a path mean nothing to a reader in code. -/
theorem IsDottedPath.isInert {path : Text} (h : IsDottedPath path) :
    ∀ c ∈ path, isInert c = true := by
  intro c hc
  rcases h.isWordChar_or_dot c hc with hword | rfl
  · exact isInert_of_isWordChar hword
  · decide

theorem isHeadChar_of_isBlank {c : Char} (h : isBlank c = true) : isHeadChar c = true := by
  simp only [isBlank, Bool.or_eq_true, beq_iff_eq] at h
  rcases h with rfl | rfl <;> decide

theorem isInert_of_isBlank {c : Char} (h : isBlank c = true) : isInert c = true :=
  isInert_of_isHeadChar (isHeadChar_of_isBlank h)

theorem LetHead.IsWritten.all_isHeadChar {h : LetHead} (hw : h.IsWritten) :
    ∀ c ∈ h.text, isHeadChar c = true := by
  intro c hc
  simp only [LetHead.text, List.mem_append, List.mem_singleton] at hc
  rcases hc with hc | hc | hc | hc | rfl
  · exact List.all_eq_true.mp (by decide) c hc
  · exact isHeadChar_of_isBlank (hw.gap c hc)
  · exact isHeadChar_of_isWordChar (hw.name.2 c hc)
  · exact isHeadChar_of_isBlank (hw.pad c hc)
  · decide

/-- The text of a run head up to its parenthesis. -/
def RunHead.stem (h : RunHead) : Text := runWord ++ (h.gap ++ (h.module ++ h.pad))

theorem RunHead.text_eq (h : RunHead) : h.text = h.stem ++ ['('] := by
  simp [RunHead.text, RunHead.stem]

theorem RunHead.IsWritten.all_isHeadChar {h : RunHead} (hw : h.IsWritten) :
    ∀ c ∈ h.stem, isHeadChar c = true := by
  intro c hc
  simp only [RunHead.stem, List.mem_append] at hc
  rcases hc with hc | hc | hc | hc
  · exact List.all_eq_true.mp (by decide) c hc
  · exact isHeadChar_of_isBlank (hw.gap c hc)
  · rcases hw.module.isWordChar_or_dot c hc with hword | rfl
    · exact isHeadChar_of_isWordChar hword
    · decide
  · exact isHeadChar_of_isBlank (hw.pad c hc)

theorem RunHead.IsWritten.not_mem_stem {h : RunHead} (hw : h.IsWritten) {c : Char}
    (hc : isHeadChar c = false) : c ∉ h.stem := fun hmem => by
  rw [hw.all_isHeadChar c hmem] at hc
  cases hc

theorem RunHead.IsWritten.not_mem_text {h : RunHead} (hw : h.IsWritten) {c : Char}
    (hc : isHeadChar c = false) (hne : c ≠ '(') : c ∉ h.text := by
  rw [h.text_eq, List.mem_append, List.mem_singleton, not_or]
  exact ⟨hw.not_mem_stem hc, hne⟩

/-- The text of a call head up to its parenthesis. -/
def CallHead.stem (h : CallHead) : Text := h.front ++ h.run.stem

theorem CallHead.text_eq (h : CallHead) : h.text = h.stem ++ ['('] := by
  rw [CallHead.text, h.run.text_eq, CallHead.stem, List.append_assoc]

theorem CallHead.IsWritten.all_isHeadChar {h : CallHead} (hw : h.IsWritten) :
    ∀ c ∈ h.stem, isHeadChar c = true := by
  intro c hc
  rcases List.mem_append.mp hc with hc | hc
  · unfold CallHead.front at hc
    split at hc
    · next b pad hb =>
      obtain ⟨hlet, hpad⟩ := hw.binding (b, pad) hb
      rcases List.mem_append.mp hc with hc | hc
      · exact hlet.all_isHeadChar c hc
      · exact isHeadChar_of_isBlank (hpad c hc)
    · cases hc
  · exact hw.run.all_isHeadChar c hc

theorem CallHead.IsWritten.not_mem_stem {h : CallHead} (hw : h.IsWritten) {c : Char}
    (hc : isHeadChar c = false) : c ∉ h.stem := fun hmem => by
  rw [hw.all_isHeadChar c hmem] at hc
  cases hc

theorem CallHead.IsWritten.not_mem_text {h : CallHead} (hw : h.IsWritten) {c : Char}
    (hc : isHeadChar c = false) (hne : c ≠ '(') : c ∉ h.text := by
  rw [h.text_eq, List.mem_append, List.mem_singleton, not_or]
  exact ⟨hw.not_mem_stem hc, hne⟩

theorem CallHead.text_ne_nil (h : CallHead) : h.text ≠ [] := by
  rw [h.text_eq]
  simp

/-! ### A run head is told by its end -/

/-- The longest end of characters of one kind is told by the text. -/
theorem append_inj_of_getLast? {f : Char → Bool} {p q u v : Text} (h : p ++ u = q ++ v)
    (hu : ∀ c ∈ u, f c = true) (hv : ∀ c ∈ v, f c = true) (hp : p.getLast?.any fun c => !f c)
    (hq : q.getLast?.any fun c => !f c) : p = q ∧ u = v := by
  -- nothing of an end can stand before the other end
  have hnil : ∀ {p a u : Text}, (∀ c ∈ a ++ u, f c = true) →
      ((p ++ a).getLast?.any fun c => !f c) → a = [] := by
    intro p a u hall hlast
    by_contra hne
    obtain ⟨front, c, rfl⟩ := (List.eq_nil_or_concat' a).resolve_left hne
    rw [← List.append_assoc, List.getLast?_concat, Option.any_some, hall c (by simp)] at hlast
    cases hlast
  rcases List.append_eq_append_iff.mp h with ⟨a, rfl, rfl⟩ | ⟨a, rfl, rfl⟩
  · obtain rfl := hnil hu hq
    simp
  · obtain rfl := hnil hv hp
    simp

theorem any_getLast?_append {f : Char → Bool} {p u : Text} (hne : u ≠ [])
    (hu : ∀ c ∈ u, f c = false) : ((p ++ u).getLast?.any fun c => !f c) = true := by
  obtain ⟨front, c, rfl⟩ := (List.eq_nil_or_concat' u).resolve_left hne
  rw [← List.append_assoc, List.getLast?_concat, Option.any_some, hu c (by simp)]
  rfl

/-- Whether a character may belong to a dotted path. -/
def isPathChar (c : Char) : Bool := isWordChar c || c == '.'

theorem IsDottedPath.isPathChar {path : Text} (h : IsDottedPath path) :
    ∀ c ∈ path, isPathChar c = true := by
  intro c hc
  simpa [PipelineDoc.isPathChar] using h.isWordChar_or_dot c hc

theorem not_isBlank_of_isPathChar {c : Char} (h : isPathChar c = true) : isBlank c = false := by
  simp only [isPathChar, Bool.or_eq_true, beq_iff_eq] at h
  rcases h with h | rfl
  · exact not_isBlank_of_isWordChar h
  · decide

theorem not_isPathChar_of_isBlank {c : Char} (h : isBlank c = true) : isPathChar c = false := by
  rw [Bool.eq_false_iff]
  intro hc
  rw [not_isBlank_of_isPathChar hc] at h
  cases h

theorem isWordChar_of_mem_runWord : ∀ c ∈ runWord, isWordChar c = true :=
  List.all_eq_true.mp (by decide +kernel)

theorem not_isBlank_of_mem_runWord : ∀ c ∈ runWord, isBlank c = false := fun c hc =>
  not_isBlank_of_isWordChar (isWordChar_of_mem_runWord c hc)

/-- **A run head is told by where it ends.** -/
theorem RunHead.append_text_inj {p q : Text} {h k : RunHead} (hh : h.IsWritten) (hk : k.IsWritten)
    (heq : p ++ h.text = q ++ k.text) : p = q ∧ h = k := by
  obtain ⟨gap, module, pad⟩ := h
  obtain ⟨gap', module', pad'⟩ := k
  have hlast : ∀ {u m : Text}, IsDottedPath m →
      ((u ++ m).getLast?.any fun c => !isBlank c) = true := fun hm =>
    any_getLast?_append hm.ne_nil fun c hc => not_isBlank_of_isPathChar (hm.isPathChar c hc)
  -- the parts are taken off from the end: the blanks, the module, the blanks before it
  simp only [RunHead.text, ← List.append_assoc] at heq
  have h₁ := append_inj_of_getLast? (List.append_cancel_right heq) hh.pad hk.pad
    (hlast hh.module) (hlast hk.module)
  have h₂ := append_inj_of_getLast? h₁.1 hh.module.isPathChar hk.module.isPathChar
    (any_getLast?_append hh.gap_ne_nil fun c hc => not_isPathChar_of_isBlank (hh.gap c hc))
    (any_getLast?_append hk.gap_ne_nil fun c hc => not_isPathChar_of_isBlank (hk.gap c hc))
  have h₃ := append_inj_of_getLast? h₂.1 hh.gap hk.gap
    (any_getLast?_append (by decide) not_isBlank_of_mem_runWord)
    (any_getLast?_append (by decide) not_isBlank_of_mem_runWord)
  refine ⟨List.append_cancel_right h₃.1, ?_⟩
  rw [RunHead.mk.injEq]
  exact ⟨h₃.2, h₂.2, h₁.2⟩

end PipelineDoc
