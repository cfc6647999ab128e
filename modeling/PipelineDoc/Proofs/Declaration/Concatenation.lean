import PipelineDoc.Proofs.Declaration.Keywords

/-!
# Documents one after the other

A document is put in front of another one, with a newline between them. No keyword spans the newline
and none is glued to a character across it, and what was read up to a closing brace is read again.
So if a reader is in no string at the end of the first document, the headers of both are those of
the first one, followed by those of the second one moved behind it (`headers_append_newline`). A
keyword without a quoted name keeps missing it, since a name stands on the line of its keyword; one
without a body, or with a body that is not closed, could find what it misses in the second document,
so the first one must have none of these.
-/

namespace PipelineDoc

/-! ### Moved headers -/

/-- The same declaration, seen from a document in which `amount` more bytes come first. -/
def Declaration.shift (d : Declaration) (amount : Nat) : Declaration :=
  { d with
    nameSpan := d.nameSpan.shift amount
    keywordSpan := d.keywordSpan.shift amount
    body := d.body.shift amount }

/-- The same rejected keyword, seen from a document in which `amount` more bytes come first. -/
def Rejection.shift (r : Rejection) (amount : Nat) : Rejection :=
  { r with keywordSpan := r.keywordSpan.shift amount }

/-- The same header, seen from a document in which `amount` more bytes come first. -/
def Header.shift (amount : Nat) : Header → Header
  | .accepted d => .accepted (d.shift amount)
  | .rejected r => .rejected (r.shift amount)

theorem DeclarationForm.place_add (f : DeclarationForm) (kind : Declaration.Kind)
    (offset amount : Nat) : f.place kind (offset + amount) = (f.place kind offset).shift amount := by
  simp only [place, Declaration.shift, DeclarationHead.nameSpan, Span.shift_ofLength,
    Nat.add_comm offset amount, Nat.add_assoc]

theorem headersFrom_add (offset amount : Nat) (prev : Option Char) (t : Text) :
    headersFrom (offset + amount) prev t = (headersFrom offset prev t).map (Header.shift amount) := by
  induction offset, prev, t using headersFrom.induct with
  | case1 offset prev t hfind => rw [headersFrom_of_none hfind, headersFrom_of_none hfind]; rfl
  | case2 offset prev t f hfind start after form rest hread ih =>
    have hstart : offset + amount + f.before.byteLength = start + amount := Nat.add_right_comm ..
    have hafter : start + amount + f.key.keyword.byteLength + form.text.byteLength =
        after + form.text.byteLength + amount := by omega
    rw [headersFrom_of_ok hfind hread, headersFrom_of_ok hfind hread, hstart, hafter, ih,
      DeclarationForm.place_add]
    rfl
  | case3 offset prev t f hfind start after reason hread ih =>
    have hstart : offset + amount + f.before.byteLength = start + amount := Nat.add_right_comm ..
    have hafter : start + amount + f.key.keyword.byteLength = after + amount :=
      Nat.add_right_comm ..
    rw [headersFrom_of_error hfind hread, headersFrom_of_error hfind hread, hstart, hafter, ih,
      Nat.add_comm start amount, ← Span.shift_ofLength]
    rfl

/-! ### Words before a newline -/

/-- A newline leaves a word free on its side, as the end of a text does. -/
theorem isClear_head?_append_newline (t s : Text) :
    isClear (t ++ '\n' :: s).head? = isClear t.head? := by
  cases t with
  | nil => exact (by decide +kernel : isClear (some '\n') = isClear none)
  | cons c t => rfl

/-- To the character before it a newline is as good as the end of a text. -/
theorem Mode.step_append_newline (mode : Mode) (c : Char) (t s : Text) :
    mode.step c (t ++ '\n' :: s).head? = mode.step c t.head? := by
  cases t with
  | nil => exact mode.step_next c (by simp)
  | cons d t => rfl

theorem Text.skip?_append_newline {word : Text} (hword : '\n' ∉ word) (t s : Text) :
    skip? (t ++ '\n' :: s) word = (t.skip? word).map (· ++ '\n' :: s) := by
  induction word generalizing t with
  | nil => simp [skip?]
  | cons c word ih =>
    rw [List.mem_cons, not_or] at hword
    cases t with
    | nil => simp [skip?, Ne.symm hword.1]
    | cons d t =>
      rw [List.cons_append, skip?, skip?]
      split
      · exact ih hword.2 t
      · rfl

section Find

variable {α : Type} {spelling : α → Text} {candidates : List α}

theorem wordAt?_append_newline (hword : ∀ a, '\n' ∉ spelling a) (prev : Option Char) (t s : Text) :
    wordAt? spelling candidates prev (t ++ '\n' :: s) =
      (wordAt? spelling candidates prev t).map fun x => (x.1, x.2 ++ '\n' :: s) := by
  rw [wordAt?, wordAt?, List.map_findSome?]
  congr 1
  funext a
  rw [Function.comp_apply, Text.skip?_append_newline (hword a)]
  cases t.skip? (spelling a) with
  | none => rfl
  | some after =>
    simp only [Option.map_some, isClear_head?_append_newline]
    split <;> rfl

theorem wordAt?_newline (hword : ∀ a, '\n' ∉ spelling a) (hne : ∀ a, spelling a ≠ [])
    (prev : Option Char) (s : Text) : wordAt? spelling candidates prev ('\n' :: s) = none := by
  rw [← List.nil_append ('\n' :: s), wordAt?_append_newline hword, Option.map_eq_none_iff, wordAt?,
    List.findSome?_eq_none_iff]
  intro a _
  obtain ⟨c, w, hw⟩ := List.exists_cons_of_ne_nil (hne a)
  rw [hw]
  rfl

/-- What comes before a text matters to a search only as far as it leaves the first word free. -/
theorem findWord?_prev {prev prev' : Option Char} (h : isClear prev = isClear prev') (mode : Mode)
    (t : Text) :
    findWord? spelling candidates prev mode t = findWord? spelling candidates prev' mode t := by
  cases t with
  | nil => rfl
  | cons c t =>
    have hword : wordAt? spelling candidates prev (c :: t) =
        wordAt? spelling candidates prev' (c :: t) := by
      simp only [wordAt?, h]
    rw [findWord?, findWord?, hword]

/-- **A search across a newline** finds what it finds before the newline, and else goes on after
it. -/
theorem findWord?_append_newline (hword : ∀ a, '\n' ∉ spelling a) (hne : ∀ a, spelling a ≠ [])
    (prev : Option Char) (mode : Mode) (t s : Text) :
    findWord? spelling candidates prev mode (t ++ '\n' :: s) =
      match findWord? spelling candidates prev mode t with
      | some f => some { f with after := f.after ++ '\n' :: s }
      | none => (findWord? spelling candidates (some '\n') (mode.run (t ++ ['\n']) s.head?) s).map
          fun f => { f with before := t ++ '\n' :: f.before } := by
  induction t generalizing prev mode with
  | nil =>
    simp only [List.nil_append, findWord?, wordAt?_newline hword hne, ite_self]
    rfl
  | cons c t ih =>
    have hrun : mode.run (c :: t ++ ['\n']) s.head? =
        (mode.step c t.head?).2.run (t ++ ['\n']) s.head? := by
      rw [List.cons_append, Mode.run_cons, ← List.head?_append, List.append_assoc,
        List.singleton_append, Mode.step_append_newline]
    have hhere : (if (mode.step c t.head?).1 = .code then
          wordAt? spelling candidates prev (c :: (t ++ '\n' :: s)) else none) =
        (if (mode.step c t.head?).1 = .code then wordAt? spelling candidates prev (c :: t)
          else none).map fun x => (x.1, x.2 ++ '\n' :: s) := by
      rw [← List.cons_append, wordAt?_append_newline hword]
      split <;> rfl
    simp only [List.cons_append, findWord?, Mode.step_append_newline, hhere]
    rw [← List.cons_append, hrun, ih]
    cases (if (mode.step c t.head?).1 = .code then wordAt? spelling candidates prev (c :: t)
        else none) with
    | some x => rfl
    | none =>
      simp only [Option.map_none]
      cases findWord? spelling candidates (some c) (mode.step c t.head?).2 t with
      | some f => rfl
      | none =>
        simp only [Option.map_none, Option.map_map]
        rfl

end Find

/-! ### Heads and bodies before a newline -/

theorem DeclarationHead.read_append_newline {t rest : Text} {h : DeclarationHead}
    (e : DeclarationHead.read t = .ok (h, rest)) (s : Text) :
    DeclarationHead.read (t ++ '\n' :: s) = .ok (h, rest ++ '\n' :: s) := by
  have hquote : '\n' ∉ ['"'] := by decide
  simp only [read, blanks, Text.takeWhile_append_of_neg (show isBlank '\n' = false by decide),
    Text.dropWhile_append_of_neg (show isBlank '\n' = false by decide),
    Text.skip?_append_newline hquote] at e ⊢
  cases h₁ : Text.skip? (t.dropWhile isBlank) ['"'] with
  | none => simp [h₁] at e
  | some t₁ =>
    simp only [h₁, Option.map_some,
      Text.takeWhile_append_of_neg (show isNameChar '\n' = false by decide),
      Text.dropWhile_append_of_neg (show isNameChar '\n' = false by decide),
      Text.skip?_append_newline hquote] at e ⊢
    cases h₂ : Text.skip? (t₁.dropWhile isNameChar) ['"'] with
    | none => simp [h₂] at e
    | some t₂ =>
      simp only [h₂, Option.map_some] at e ⊢
      cases h₃ : Text.skip? (t₂.dropWhile isLayoutBlank) ['{'] with
      | none => simp [h₃] at e
      | some t₃ =>
        simp only [h₃, Except.ok.injEq, Prod.mk.injEq] at e
        obtain ⟨rfl, rfl⟩ := e
        -- the blanks end before the brace, so the newline is not reached
        have hbrace : isLayoutBlank '{' = false := by decide
        have hsplit : t₂ ++ '\n' :: s =
            t₂.takeWhile isLayoutBlank ++ '{' :: (t₃ ++ '\n' :: s) := by
          have hdrop : t₂.dropWhile isLayoutBlank = '{' :: t₃ := Text.skip?_eq_some_iff.mp h₃
          rw [← List.cons_append, ← hdrop, ← List.append_assoc, List.takeWhile_append_dropWhile]
        have hgap := List.all_takeWhile (p := isLayoutBlank) (l := t₂)
        rw [hsplit, Text.takeWhile_append_of_neg hbrace, Text.dropWhile_append_of_neg hbrace,
          List.takeWhile_eq_self_iff.mpr (List.all_eq_true.mp hgap),
          List.dropWhile_eq_nil_iff.mpr (List.all_eq_true.mp hgap),
          List.nil_append, Text.skip?_eq_some_iff.mpr (List.singleton_append ..).symm]

/-- A name that is missing on the line of its keyword is not found on a later line. -/
theorem DeclarationHead.read_missing_append_newline {t : Text}
    (e : DeclarationHead.read t = .error .missingName) (s : Text) :
    DeclarationHead.read (t ++ '\n' :: s) = .error .missingName := by
  have hquote : '\n' ∉ ['"'] := by decide
  simp only [read, blanks, Text.dropWhile_append_of_neg (show isBlank '\n' = false by decide),
    Text.skip?_append_newline hquote] at e ⊢
  cases h₁ : Text.skip? (t.dropWhile isBlank) ['"'] with
  | none => rfl
  | some t₁ =>
    simp only [h₁, Option.map_some,
      Text.dropWhile_append_of_neg (show isNameChar '\n' = false by decide),
      Text.skip?_append_newline hquote] at e ⊢
    cases h₂ : Text.skip? (t₁.dropWhile isNameChar) ['"'] with
    | none => rfl
    | some t₂ =>
      simp only [h₂] at e
      split at e <;> cases e

theorem DeclarationForm.read_append_newline {t rest : Text} {form : DeclarationForm}
    (e : DeclarationForm.read t = .ok (form, rest)) (s : Text) :
    DeclarationForm.read (t ++ '\n' :: s) = .ok (form, rest ++ '\n' :: s) := by
  obtain ⟨r, hread, hinside⟩ := read_eq_ok_iff.mp e
  refine read_eq_ok_iff.mpr ⟨r ++ '\n' :: s, DeclarationHead.read_append_newline hread s, ?_⟩
  have hbody := Bracket.eq_of_inside? hinside
  rw [hbody] at hinside
  have hsame := Bracket.splitClosing_append hinside (rest ++ '\n' :: s)
  rwa [← List.cons_append, ← List.append_assoc, ← hbody] at hsame

theorem DeclarationForm.read_missing_append_newline {t : Text}
    (e : DeclarationForm.read t = .error .missingName) (s : Text) :
    DeclarationForm.read (t ++ '\n' :: s) = .error .missingName := by
  simp only [DeclarationForm.read] at e ⊢
  cases hread : DeclarationHead.read t with
  | error reason =>
    simp only [hread, Except.error.injEq] at e
    subst e
    rw [DeclarationHead.read_missing_append_newline hread]
  | ok r =>
    simp only [hread] at e
    split at e <;> cases e

/-! ### Headers across a newline -/

theorem newline_not_mem_keyword (kind : Declaration.Kind) : '\n' ∉ kind.keyword := by
  cases kind <;> decide

theorem run_of_findWord?_keyword {prev : Option Char} {t : Text} {f : Find Declaration.Kind}
    (hfind : findWord? Declaration.Kind.keyword Declaration.Kind.all prev .code t = some f) :
    Mode.code.run t none = Mode.code.run f.after none := by
  obtain ⟨-, hcode, -⟩ := standsInCode_of_findWord? hfind
  rw [eq_of_findWord? hfind, ← List.append_assoc, Mode.run_append, Option.or_none,
    hcode.run_append (isInert_keyword _) (keyword_ne_nil _)]

/-- **Headers across a newline** are those before it, followed by those after it. -/
theorem headersFrom_append_newline {offset : Nat} {prev : Option Char} {t : Text}
    (hescape : ¬ ['\\', '"'] <:+: t)
    (hend : Mode.code.run t none ∉ [Mode.string, Mode.stringEscape])
    (hreason : ∀ r, .rejected r ∈ headersFrom offset prev t → r.reason = .missingName) (s : Text) :
    headersFrom offset prev (t ++ '\n' :: s) =
      headersFrom offset prev t ++ headersFrom (offset + t.byteLength + 1) (some '\n') s := by
  induction offset, prev, t using headersFrom.induct with
  | case1 offset prev t hfind =>
    -- the reader comes to the second document in code
    have hmode : Mode.code.run (t ++ ['\n']) s.head? = .code := by
      rw [Mode.run_concat, Mode.run_next t (by decide)]
      refine Mode.mode_of_newline fun hstring => hend ?_
      generalize Mode.code.run t none = mode at hstring
      cases mode with
      | string | stringEscape => decide
      | code | codeEscape | comment => cases hstring
    have hmove : ∀ m : Text, offset + (t ++ '\n' :: m : Text).byteLength =
        offset + t.byteLength + 1 + m.byteLength := by
      intro m
      have hnewline : ('\n').utf8Size = 1 := by decide
      rw [Text.byteLength_append, Text.byteLength_cons]
      omega
    have hsearch : findWord? Declaration.Kind.keyword Declaration.Kind.all prev .code
        (t ++ '\n' :: s) = (findWord? Declaration.Kind.keyword Declaration.Kind.all (some '\n') .code
          s).map fun f => { f with before := t ++ '\n' :: f.before } := by
      rw [findWord?_append_newline newline_not_mem_keyword keyword_ne_nil, hfind, hmode]
    rw [headersFrom_of_none hfind, List.nil_append]
    cases hnext : findWord? Declaration.Kind.keyword Declaration.Kind.all (some '\n') .code s with
    | none =>
      rw [hnext] at hsearch
      rw [headersFrom_of_none hsearch, headersFrom_of_none hnext]
    | some f =>
      rw [hnext, Option.map_some] at hsearch
      cases hread : DeclarationForm.read f.after with
      | ok r => rw [headersFrom_of_ok hsearch hread, headersFrom_of_ok hnext hread, hmove]
      | error reason =>
        rw [headersFrom_of_error hsearch hread, headersFrom_of_error hnext hread, hmove]
  | case2 offset prev t f hfind start after form rest hread ih =>
    have hsearch : findWord? Declaration.Kind.keyword Declaration.Kind.all prev .code
        (t ++ '\n' :: s) = some { f with after := f.after ++ '\n' :: s } := by
      rw [findWord?_append_newline newline_not_mem_keyword keyword_ne_nil, hfind]
    have hform := DeclarationForm.eq_of_read hread
    have ht : t = f.before ++ (f.key.keyword ++ (form.text ++ rest)) := by
      rw [← hform]
      exact eq_of_findWord? hfind
    have htext : ¬ ['\\', '"'] <:+: form.text := fun h => hescape (h.trans (by
      rw [ht, ← List.append_assoc]
      exact List.infix_append' ..))
    have hrest : ¬ ['\\', '"'] <:+: rest := fun h => hescape (h.trans (by
      rw [ht, ← List.append_assoc, ← List.append_assoc]
      exact (List.suffix_append ..).isInfix))
    have hoff : offset + t.byteLength + 1 =
        after + form.text.byteLength + rest.byteLength + 1 := by
      have hlen := congrArg Text.byteLength ht
      simp only [Text.byteLength_append] at hlen
      omega
    rw [run_of_findWord?_keyword hfind, hform, Mode.run_append, Option.or_none,
      DeclarationForm.run_text hread htext] at hend
    rw [headersFrom_of_ok hfind hread] at hreason ⊢
    rw [headersFrom_of_ok hsearch (DeclarationForm.read_append_newline hread s), List.cons_append,
      hoff, ← ih hrest hend fun r hr => hreason r (List.mem_cons_of_mem _ hr)]
  | case3 offset prev t f hfind start after reason hread ih =>
    have hsearch : findWord? Declaration.Kind.keyword Declaration.Kind.all prev .code
        (t ++ '\n' :: s) = some { f with after := f.after ++ '\n' :: s } := by
      rw [findWord?_append_newline newline_not_mem_keyword keyword_ne_nil, hfind]
    have ht := eq_of_findWord? hfind
    have hrest : ¬ ['\\', '"'] <:+: f.after := fun h => hescape (h.trans (by
      rw [ht, ← List.append_assoc]
      exact (List.suffix_append ..).isInfix))
    have hoff : offset + t.byteLength + 1 = after + f.after.byteLength + 1 := by
      have hlen := congrArg Text.byteLength ht
      simp only [Text.byteLength_append] at hlen
      omega
    rw [run_of_findWord?_keyword hfind] at hend
    rw [headersFrom_of_error hfind hread] at hreason ⊢
    obtain rfl : reason = .missingName := hreason _ List.mem_cons_self
    rw [headersFrom_of_error hsearch (DeclarationForm.read_missing_append_newline hread s),
      List.cons_append, hoff, ← ih hrest hend fun r hr => hreason r (List.mem_cons_of_mem _ hr)]

theorem headersFrom_prev {prev prev' : Option Char} (h : isClear prev = isClear prev') (offset : Nat)
    (t : Text) : headersFrom offset prev t = headersFrom offset prev' t := by
  rw [headersFrom_unfold, headersFrom_unfold, findWord?_prev h]

namespace Text

variable {a : Text} (hescape : ¬ ['\\', '"'] <:+: a)
  (hend : Mode.code.run a none ∉ [Mode.string, Mode.stringEscape])
  (hreason : ∀ r ∈ a.rejections, r.reason = .missingName)

include hescape hend hreason

theorem headers_append_newline (b : Text) : (a ++ '\n' :: b : Text).headers =
    a.headers ++ b.headers.map (Header.shift (a.byteLength + 1)) := by
  have hclear : isClear (some '\n') = isClear none := by decide +kernel
  rw [headers, headersFrom_append_newline hescape hend fun r hr => hreason r (mem_rejections.mpr hr),
    headersFrom_prev hclear, Nat.add_assoc, headersFrom_add]
  rfl

theorem declarations_append_newline (b : Text) : (a ++ '\n' :: b : Text).declarations =
    a.declarations ++ b.declarations.map (·.shift (a.byteLength + 1)) := by
  rw [declarations, headers_append_newline hescape hend hreason, List.filterMap_append,
    List.filterMap_map, declarations, declarations, List.map_filterMap]
  congr 2
  funext h
  cases h <;> rfl

theorem rejections_append_newline (b : Text) : (a ++ '\n' :: b : Text).rejections =
    a.rejections ++ b.rejections.map (·.shift (a.byteLength + 1)) := by
  rw [rejections, headers_append_newline hescape hend hreason, List.filterMap_append,
    List.filterMap_map, rejections, rejections, List.map_filterMap]
  congr 2
  funext h
  cases h <;> rfl

end Text

end PipelineDoc
