import Mathlib.Data.List.Basic
import PipelineDoc.Graph.Dependencies
import PipelineDoc.Proofs.Comment.Readers
import PipelineDoc.Proofs.Declaration.Places
import PipelineDoc.Proofs.Lexical.Tokens
import PipelineDoc.Proofs.Statement.Hidden

/-!
# Veiled documents

A quiet document has the same headers when it is veiled: a reader goes from one keyword to the next,
and comes past each declaration in code, since the name of a declaration ends where its string ends.
The body of a declaration is veiled on its own then, and so are the arguments of a call. Statements
and references are read token by token, and start with a word character of code, so a veil does not
change them. Hence the dependency graph does not depend on comments (`dependencies_veil`).
-/

namespace PipelineDoc

/-! ### Parts of veiled texts -/

theorem Text.slice?_veil {p m q : Text} (hmode : Mode.code.run p (m ++ q).head? = .code)
    (hq : q.head? ≠ some '/') :
    slice? (veil (p ++ (m ++ q))) (.ofLength (byteLength p) (byteLength m)) = some m.veil := by
  obtain ⟨a, ha, hlength⟩ := Mode.exists_veil_append .code p (m ++ q)
  rw [hmode, Mode.veil_append .code m hq] at ha
  have hslice := slice?_append a m.veil ((Mode.code.run m none).veil q)
  rw [hlength, byteLength_veil] at hslice
  rw [veil, ha]
  exact hslice

theorem quiet_of_findWord? {α : Type} {spelling : α → Text} {candidates : List α}
    (hword : ∀ a, ∀ c ∈ spelling a, isWordChar c = true) (hne : ∀ a, spelling a ≠ [])
    {prev : Option Char} {t : Text} {f : Find α}
    (hfind : findWord? spelling candidates prev .code t = some f) (hquiet : Mode.code.Quiet t) :
    Mode.code.run (f.before ++ spelling f.key) f.after.head? = .code ∧ Mode.code.Quiet f.after := by
  have hrun := (standsInCode_of_findWord? hfind).2.code.run_append
    (fun c hc => isInert_of_isWordChar (hword _ c hc)) (hne f.key)
  rw [eq_of_findWord? hfind, ← List.append_assoc, Mode.quiet_append, hrun] at hquiet
  exact ⟨hrun, hquiet.2⟩

/-! ### Declarations -/

theorem Text.skip?_singleton_cons (c d : Char) (t : Text) :
    skip? (d :: t) [c] = if c = d then some t else none := by
  simp only [skip?]

theorem Text.skip?_quote_veil (t : Text) :
    t.veil.skip? ['"'] = (t.skip? ['"']).map Mode.string.veil := by
  cases t with
  | nil => rfl
  | cons c t =>
    by_cases hc : '"' = c
    · subst hc
      have hveil : veil ('"' :: t) = '"' :: Mode.string.veil t := rfl
      rw [hveil, skip?_singleton_cons, skip?_singleton_cons, if_pos rfl, if_pos rfl]
      rfl
    · obtain ⟨r, hr⟩ := List.head?_eq_some_iff.mp (head?_veil (c :: t))
      rw [hr, skip?_singleton_cons, skip?_singleton_cons, if_neg hc, if_neg hc]
      rfl

/-- **A quoted name** is read in a veiled text as in the text itself: no quote of it is escaped. -/
theorem name_veil {mode : Mode} (hmode : mode = .string ∨ mode = .stringEscape) {t : Text}
    (hquiet : mode.Quiet t) :
    (mode.veil t).takeWhile isNameChar = t.takeWhile isNameChar ∧
      Text.skip? ((mode.veil t).dropWhile isNameChar) ['"'] =
        (Text.skip? (t.dropWhile isNameChar) ['"']).map Text.veil := by
  induction t generalizing mode with
  | nil => exact ⟨rfl, rfl⟩
  | cons c t ih =>
    have hl : (mode.step c t.head?).1 ≠ .comment := fun h => by
      rcases Mode.of_label_comment h with ⟨rfl, -⟩ | ⟨rfl, -⟩ <;> simp at hmode
    rw [Mode.veil_cons_of_ne hl]
    by_cases hc : isNameChar c = true
    · have hquote : c ≠ '"' := by
        rintro rfl
        exact absurd hc (by decide)
      obtain ⟨htake, hdrop⟩ := ih (Mode.step_string hmode hquote t.head?) hquiet.2.2
      rw [List.takeWhile_cons_of_pos hc, List.takeWhile_cons_of_pos hc,
        List.dropWhile_cons_of_pos hc, List.dropWhile_cons_of_pos hc, htake]
      exact ⟨rfl, hdrop⟩
    · rw [List.takeWhile_cons_of_neg hc, List.takeWhile_cons_of_neg hc,
        List.dropWhile_cons_of_neg hc, List.dropWhile_cons_of_neg hc, Text.skip?_singleton_cons,
        Text.skip?_singleton_cons]
      refine ⟨rfl, ?_⟩
      by_cases hquote : '"' = c
      · obtain rfl := hmode.resolve_right (hquiet.1 hquote.symm)
        subst hquote
        rfl
      · rw [if_neg hquote, if_neg hquote]
        rfl

theorem DeclarationHead.read_veil {t : Text} (hquiet : Mode.code.Quiet t) :
    DeclarationHead.read t.veil = (DeclarationHead.read t).map veilRest := by
  rw [DeclarationHead.read, DeclarationHead.read]
  simp only [blanks_veil, veilRest, Text.skip?_quote_veil]
  have hpad := blanks_append t
  cases hopen : (blanks t).2.skip? ['"'] with
  | none => rfl
  | some t₁ =>
    rw [Text.skip?_eq_some_iff] at hopen
    rw [hopen] at hpad
    have hblank : ∀ c ∈ (blanks t).1, isInert c = true := fun c hc =>
      isInert_of_isBlank (List.mem_takeWhile_imp hc)
    have hstring : Mode.string.Quiet t₁ := by
      rw [← hpad, Mode.quiet_append, Mode.run_inert hblank] at hquiet
      exact hquiet.2.2.2
    obtain ⟨htake, hskip⟩ := name_veil (Or.inl rfl) hstring
    simp only [Option.map_some, htake, hskip]
    cases Text.skip? (t₁.dropWhile isNameChar) ['"'] with
    | none => rfl
    | some t₂ =>
      obtain ⟨hgap, hrest⟩ := Text.takeWhile_veil (fun c => isInert_of_isLayoutBlank) t₂
      simp only [Option.map_some, hgap, hrest,
        Text.skip?_veil (show List.all ['{'] isInert = true by decide)]
      cases Text.skip? (t₂.dropWhile isLayoutBlank) ['{'] <;> rfl

/-- A declaration as it is read in the veiled text. -/
def DeclarationForm.veil (f : DeclarationForm) : DeclarationForm := { f with body := f.body.veil }

namespace DeclarationForm

theorem read_veil {t : Text} (hquiet : Mode.code.Quiet t) :
    DeclarationForm.read t.veil = (DeclarationForm.read t).map fun r => (r.1.veil, r.2.veil) := by
  rw [DeclarationForm.read, DeclarationForm.read, DeclarationHead.read_veil hquiet]
  cases DeclarationHead.read t with
  | error reason => rfl
  | ok r =>
    simp only [Except.map, veilRest, Bracket.inside?_veil]
    cases Bracket.brace.inside? r.2 <;> rfl

theorem place_veil (f : DeclarationForm) (kind : Declaration.Kind) (offset : Nat) :
    f.veil.place kind offset = f.place kind offset := by
  simp [place, veil]

@[simp] theorem byteLength_text_veil (f : DeclarationForm) :
    f.veil.text.byteLength = f.text.byteLength := by
  simp [text, veil]

theorem getLast?_text (f : DeclarationForm) : f.text.getLast? = some '}' := by
  rw [text, ← List.append_assoc, List.getLast?_concat]
  rfl

end DeclarationForm

/-- The name of a declaration of a quiet text leaves a reader in its string. -/
theorem DeclarationHead.run_text_of_quiet {t rest : Text} {h : DeclarationHead}
    (e : DeclarationHead.read t = .ok (h, rest)) (hquiet : Mode.code.Quiet t) (next : Option Char) :
    Mode.code.run h.text next = .code := by
  refine run_text_of_string e ?_ next
  have hpad : ∀ c ∈ h.pad, isInert c = true := fun c hc =>
    isInert_of_isBlank ((chars_of_read e).1 c hc)
  have ht : t = h.pad ++ ('"' :: (h.name ++ ('"' :: (h.gap ++ ('{' :: rest))))) := by
    rw [eq_of_read e, text]
    simp
  rw [ht, Mode.quiet_append, Mode.run_inert hpad] at hquiet
  have hname := Mode.quiet_append.mp hquiet.2.2.2
  rcases Mode.run_string (quote_not_mem_name e) (some '"') with hrun | ⟨hrun, -⟩
  · exact hrun
  · exact absurd hrun (hname.2.1 rfl)

theorem DeclarationForm.quiet_of_read {t rest : Text} {form : DeclarationForm}
    (h : DeclarationForm.read t = .ok (form, rest)) (hquiet : Mode.code.Quiet t) :
    (∀ next, Mode.code.run form.head.text next = .code) ∧ Mode.code.Quiet form.body ∧
      Mode.code.run form.text rest.head? = .code ∧ Mode.code.Quiet rest := by
  obtain ⟨r, hread, hinside⟩ := read_eq_ok_iff.mp h
  have hhead := DeclarationHead.run_text_of_quiet hread hquiet
  have hrun := run_text_of_head h hhead
  have hbody := hquiet
  rw [DeclarationHead.eq_of_read hread, Bracket.eq_of_inside? hinside, Mode.quiet_append, hhead,
    Mode.quiet_append] at hbody
  rw [eq_of_read h, Mode.quiet_append, hrun] at hquiet
  exact ⟨hhead, hbody.2.1, hrun, hquiet.2⟩

theorem findWord?_keyword_veil (prev : Option Char) (t : Text) :
    findWord? Declaration.Kind.keyword Declaration.Kind.all prev .code t.veil =
      (findWord? Declaration.Kind.keyword Declaration.Kind.all prev .code t).map (Find.veil .code) :=
  findWord?_veil isWordChar_keyword keyword_ne_nil prev .code t

/-- **The headers of a quiet text** do not depend on comments. -/
theorem headersFrom_veil (offset : Nat) (prev : Option Char) {t : Text}
    (hquiet : Mode.code.Quiet t) : headersFrom offset prev t.veil = headersFrom offset prev t := by
  induction offset, prev, t using headersFrom.induct with
  | case1 offset prev t hfind =>
    have hveil := findWord?_keyword_veil prev t
    rw [hfind] at hveil
    rw [headersFrom_of_none hfind, headersFrom_of_none hveil]
  | case2 offset prev t f hfind start after form rest hread ih =>
    have hveil := findWord?_keyword_veil prev t
    rw [hfind] at hveil
    obtain ⟨-, hafter⟩ := quiet_of_findWord? isWordChar_keyword keyword_ne_nil hfind hquiet
    have hform := DeclarationForm.read_veil hafter
    rw [hread] at hform
    obtain ⟨-, -, -, hrest⟩ := DeclarationForm.quiet_of_read hread hafter
    rw [headersFrom_of_ok hfind hread, headersFrom_of_ok hveil hform]
    simp only [Find.veil, Mode.byteLength_veil, DeclarationForm.place_veil,
      DeclarationForm.byteLength_text_veil, DeclarationForm.getLast?_text]
    rw [DeclarationForm.getLast?_text] at ih
    rw [ih hrest]
  | case3 offset prev t f hfind start after reason hread ih =>
    have hveil := findWord?_keyword_veil prev t
    rw [hfind] at hveil
    obtain ⟨-, hafter⟩ := quiet_of_findWord? isWordChar_keyword keyword_ne_nil hfind hquiet
    have hform := DeclarationForm.read_veil hafter
    rw [hread] at hform
    rw [headersFrom_of_error hfind hread, headersFrom_of_error hveil hform]
    simp only [Find.veil, Mode.byteLength_veil]
    rw [ih hafter]

/-- A declaration is read in a text that stands at an offset: its keyword leaves a reader in code,
and what follows the keyword is quiet. -/
def Declaration.IsReadIn (d : Declaration) (offset : Nat) (t : Text) : Prop :=
  ∃ q kind form rest, t = q ++ (kind.keyword ++ (form.text ++ rest)) ∧
    Mode.code.run (q ++ kind.keyword) (form.text ++ rest).head? = .code ∧
    DeclarationForm.read (form.text ++ rest) = .ok (form, rest) ∧
    Mode.code.Quiet (form.text ++ rest) ∧ d = form.place kind (offset + q.byteLength)

theorem Declaration.IsReadIn.append {d : Declaration} {offset : Nat} {m rest : Text}
    (h : d.IsReadIn (offset + m.byteLength) rest) (hm : Mode.code.run m rest.head? = .code) :
    d.IsReadIn offset (m ++ rest) := by
  obtain ⟨q, kind, form, rest', rfl, hrun, hread, hform, rfl⟩ := h
  refine ⟨m ++ q, kind, form, rest', by simp, ?_, hread, hform, ?_⟩
  · rw [← List.append_assoc, List.head?_append] at hm
    rw [List.append_assoc, Mode.run_append, hm, hrun]
  · rw [Text.byteLength_append, Nat.add_assoc]

/-- **A declaration of a quiet text** is read from code on. -/
theorem isReadIn_of_mem_headersFrom {offset : Nat} {prev : Option Char} {t : Text}
    (hquiet : Mode.code.Quiet t) {d : Declaration} (hd : .accepted d ∈ headersFrom offset prev t) :
    d.IsReadIn offset t := by
  induction offset, prev, t using headersFrom.induct with
  | case1 offset prev t hfind =>
    rw [headersFrom_of_none hfind] at hd
    cases hd
  | case2 offset prev t f hfind start after form rest hread ih =>
    obtain ⟨hrun, hafter⟩ := quiet_of_findWord? isWordChar_keyword keyword_ne_nil hfind hquiet
    obtain ⟨-, -, hform, hrest⟩ := DeclarationForm.quiet_of_read hread hafter
    have hafter_eq := DeclarationForm.eq_of_read hread
    rw [headersFrom_of_ok hfind hread] at hd
    rcases List.mem_cons.mp hd with hd | hd
    · cases hd
      rw [hafter_eq] at hrun hread hafter
      exact ⟨f.before, f.key, form, rest, hafter_eq ▸ eq_of_findWord? hfind, hrun, hread, hafter, rfl⟩
    · have ht : t = (f.before ++ f.key.keyword ++ form.text) ++ rest := by
        rw [eq_of_findWord? hfind, hafter_eq]
        simp
      rw [hafter_eq, List.head?_append] at hrun
      rw [ht]
      refine Declaration.IsReadIn.append ?_ (by rw [Mode.run_append, hrun, hform])
      rw [Text.byteLength_append, Text.byteLength_append, ← Nat.add_assoc, ← Nat.add_assoc]
      exact ih hrest hd
  | case3 offset prev t f hfind start after reason hread ih =>
    obtain ⟨hrun, hafter⟩ := quiet_of_findWord? isWordChar_keyword keyword_ne_nil hfind hquiet
    rw [headersFrom_of_error hfind hread] at hd
    rcases List.mem_cons.mp hd with hd | hd
    · cases hd
    · have ht : t = (f.before ++ f.key.keyword) ++ f.after := by
        rw [eq_of_findWord? hfind]
        simp
      rw [ht]
      refine Declaration.IsReadIn.append ?_ hrun
      rw [Text.byteLength_append, ← Nat.add_assoc]
      exact ih hafter hd

namespace Text

variable {t : Text} (hquiet : Mode.code.Quiet t)
include hquiet

theorem headers_veil : t.veil.headers = t.headers := headersFrom_veil 0 none hquiet

theorem declarations_veil : t.veil.declarations = t.declarations := by
  rw [declarations, headers_veil hquiet]
  rfl

theorem rejections_veil : t.veil.rejections = t.rejections := by
  rw [rejections, headers_veil hquiet]
  rfl

theorem content_veil {d : Declaration} (hd : d ∈ t.declarations) :
    d.content t.veil = (d.content t).veil ∧ Mode.code.Quiet (d.content t) := by
  obtain ⟨q, kind, form, rest, ht, hrun, hread, hform, rfl⟩ :=
    isReadIn_of_mem_headersFrom hquiet (mem_declarations.mp hd)
  obtain ⟨hhead, hbody, -, -⟩ := DeclarationForm.quiet_of_read hread hform
  have hsplit : t = (q ++ kind.keyword ++ form.head.text) ++ (form.body ++ ('}' :: rest)) := by
    rw [ht, DeclarationForm.text]
    simp [Bracket.closer]
  have hmode : Mode.code.run (q ++ kind.keyword ++ form.head.text)
      (form.body ++ '}' :: rest).head? = .code := by
    have hnext : (form.head.text.head?.or (form.body ++ '}' :: rest).head?) =
        (form.text ++ rest).head? := by
      rw [← List.head?_append, DeclarationForm.text]
      simp [Bracket.closer]
    rw [Mode.run_append, hnext, hrun, hhead]
  have hspan : (form.place kind (0 + q.byteLength)).body =
      .ofLength (byteLength (q ++ kind.keyword ++ form.head.text)) form.body.byteLength := by
    simp [DeclarationForm.place, Nat.add_assoc]
  have hcontent : (form.place kind (0 + q.byteLength)).content t = form.body := by
    rw [Declaration.content, hspan, hsplit]
    exact slice_of_slice? (slice?_append _ _ _)
  have hveil : (form.place kind (0 + q.byteLength)).content t.veil = form.body.veil := by
    rw [Declaration.content, hspan, hsplit]
    exact slice_of_slice? (slice?_veil hmode (by simp))
  rw [hcontent, hveil]
  exact ⟨rfl, hbody⟩

end Text

/-! ### Runtime blocks -/

theorem Text.trimStart_veil (t : Text) : t.veil.trimStart = t.trimStart.veil :=
  (takeWhile_veil (fun _ => isInert_of_isWhite) t).2

theorem runtimeFrom_veil (offset : Nat) (prev : Option Char) (t : Text) :
    runtimeFrom offset prev t.veil = runtimeFrom offset prev t := by
  induction hn : t.length using Nat.strongRecOn generalizing offset prev t with
  | ind n ih =>
    have hveil : findWord? (fun () => runtimeWord) [()] prev .code (Mode.code.veil t) =
        (findWord? (fun () => runtimeWord) [()] prev .code t).map (Find.veil .code) :=
      findWord?_veil (fun _ => List.all_eq_true.mp (by decide +kernel))
        (fun _ => List.cons_ne_nil _ _) prev .code t
    rw [runtimeFrom_unfold offset prev t.veil, runtimeFrom_unfold offset prev t, Text.veil, hveil]
    cases hfind : findWord? (fun () => runtimeWord) [()] prev .code t with
    | none => rfl
    | some f =>
      have hlength := length_after_findWord? hfind
      have hword : 0 < runtimeWord.length := by decide
      simp only [Option.map_some, Find.veil, Mode.byteLength_veil, Text.trimStart_veil,
        (Text.takeWhile_veil (fun _ => isInert_of_isWhite) f.after).1,
        Text.skip?_veil (show List.all [Bracket.brace.opener] isInert = true by decide)]
      cases f.after.trimStart.skip? [Bracket.brace.opener] with
      | none => exact ih f.after.length (by omega) _ _ f.after rfl
      | some rest =>
        simp only [Option.map_some, Bracket.inside?_veil, Option.map_map]
        congr 1
        funext r
        simp

/-! ### Tokens -/

section Tokens

variable {γ : Type}

/-- A tokenizer that sees no comments: it takes the same from a veiled text, and tokens start with a
word character. -/
structure IgnoresComments (token? : Tokenizer γ) : Prop where
  veil : ∀ offset prev t, token? offset prev (Text.veil t) = token? offset prev t
  start : ∀ offset prev c t, isWordChar c = false → token? offset prev (c :: t) = none

variable {token? : Tokenizer γ} (h : IgnoresComments token?)
include h

theorem IgnoresComments.veil_of_code {mode : Mode} {c : Char} {cs : Text}
    (hl : (mode.step c cs.head?).1 = .code) (offset : Nat) (prev : Option Char) :
    token? offset prev (mode.veil (c :: cs)) = token? offset prev (c :: cs) := by
  rw [Mode.veil_cons_of_ne (by rw [hl]; exact Label.noConfusion)]
  by_cases hc : isWordChar c = true
  · have hinert := isInert_of_isWordChar hc
    rw [Mode.mode_of_label hl (by rintro rfl; exact absurd hinert (by decide)),
      ← h.veil offset prev (c :: cs), Text.veil_cons_inert hinert]
    rfl
  · rw [Bool.not_eq_true] at hc
    rw [h.start offset prev c _ hc, h.start offset prev c _ hc]

theorem tokensFrom_comment_prev (offset barrier : Nat) (prev prev' : Option Char) (t : Text) :
    tokensFrom token? offset barrier prev .comment t =
      tokensFrom token? offset barrier prev' .comment t := by
  cases t with
  | nil => rfl
  | cons c t =>
    rw [tokensFrom_cons, tokensFrom_cons]
    by_cases hc : c = '\n'
    · rw [hc, h.start _ _ _ _ (by decide), h.start _ _ _ _ (by decide)]
    · have hl : (Mode.comment.step c t.head?).1 ≠ .code := by simp [Mode.step, hc]
      rw [if_neg fun h => hl h.2, if_neg fun h => hl h.2]

theorem tokensFrom_cons_comment {offset barrier : Nat} {prev : Option Char} {mode : Mode} {c : Char}
    {cs : Text} (hl : (mode.step c cs.head?).1 = .comment) (prev' : Option Char) :
    tokensFrom token? offset barrier prev mode (c :: cs) =
      tokensFrom token? (offset + c.utf8Size) barrier prev' .comment cs := by
  have hcode : (mode.step c cs.head?).1 ≠ .code := by rw [hl]; exact Label.noConfusion
  rw [tokensFrom_cons, if_neg fun h => hcode h.2, Mode.mode_of_comment hl,
    tokensFrom_comment_prev h _ _ (some c) prev']

theorem tokensFrom_replicate_slash (offset barrier : Nat) (prev prev' : Option Char) (k : Nat)
    (t : Text) :
    tokensFrom token? offset barrier prev .comment (List.replicate k '/' ++ t) =
      tokensFrom token? (offset + k) barrier prev' .comment t := by
  induction k generalizing offset with
  | zero => exact tokensFrom_comment_prev h offset barrier prev prev' t
  | succ k ih =>
    have hsize : ('/').utf8Size = 1 := by decide
    rw [List.replicate_succ, List.cons_append,
      tokensFrom_cons_comment h (by rw [Mode.step_comment_slash]) prev, ih, hsize,
      Nat.add_right_comm, Nat.add_assoc]

/-- **The tokens of a veiled text** are those of the text. -/
theorem tokensFrom_veil (offset barrier : Nat) (prev : Option Char) (mode : Mode) (t : Text) :
    tokensFrom token? offset barrier prev mode (mode.veil t) =
      tokensFrom token? offset barrier prev mode t := by
  induction t generalizing offset barrier prev mode with
  | nil => rfl
  | cons c t ih =>
    by_cases hl : (mode.step c t.head?).1 = .comment
    · obtain ⟨k, hk, hveil, hfirst⟩ := Mode.exists_veil_comment hl
      have hsize : ('/').utf8Size = 1 := by decide
      rw [hveil, tokensFrom_cons_comment h (by rw [hfirst]) prev,
        tokensFrom_replicate_slash h _ _ prev prev, ih, tokensFrom_cons_comment h hl prev, hsize, hk,
        Nat.add_assoc, Nat.add_comm 1 k]
    · have hveil := Mode.veil_cons_of_ne hl
      rw [hveil, tokensFrom_cons, tokensFrom_cons, Mode.step_head?_veil hl, ← hveil]
      by_cases hcode : barrier ≤ offset ∧ (mode.step c t.head?).1 = .code
      · rw [if_pos hcode, if_pos hcode, h.veil_of_code hcode.2]
        cases token? offset prev (c :: t) with
        | none => exact ih _ _ _ _
        | some found => exact congrArg _ (ih _ _ _ _)
      · rw [if_neg hcode, if_neg hcode]
        exact ih _ _ _ _

end Tokens

/-! ### Statements -/

/-- A call as it is read in the veiled text. -/
def CallForm.veil (f : CallForm) : CallForm := { f with inside := f.inside.map Text.veil }

theorem CallForm.read?_veil (t : Text) :
    CallForm.read? t.veil = (CallForm.read? t).map fun r => (r.1.veil, r.2.veil) := by
  rw [CallForm.read?, CallForm.read?, CallHead.read?_veil, Option.map_map, Option.map_map]
  refine Option.map_congr fun r _ => ?_
  simp only [Function.comp_apply, veilRest, Bracket.inside?_veil]
  cases Bracket.paren.inside? r.2 <;> rfl

theorem CallForm.place_veil (f : CallForm) (offset : Nat) : f.veil.place offset = f.place offset := by
  obtain ⟨head, inside⟩ := f
  cases inside <;> simp [place, veil, text]

theorem statement?_veil (offset : Nat) (t : Text) :
    statement? offset t.veil = statement? offset t := by
  have hcall : call? offset t.veil = call? offset t := by
    rw [call?, call?, CallForm.read?_veil, Option.map_map]
    exact Option.map_congr fun r _ => CallForm.place_veil r.1 offset
  have hchain : chain? offset t.veil = chain? offset t := by
    rw [chain?, chain?, ChainHead.read?_veil, Option.map_map]
    rfl
  rw [statement?, statement?, hcall, hchain]

theorem ignoresComments_statementToken? : IgnoresComments statementToken? where
  veil offset prev t := by
    rw [statementToken?, statementToken?, Text.head?_veil, statement?_veil]
  start offset prev c t hc := by
    have hstart : startsStatement prev c = false := by
      rw [startsStatement, Bool.and_eq_false_iff]
      exact Or.inl (Bool.eq_false_iff.mpr fun h => by simp [isWordChar_of_isWordStart h] at hc)
    rw [statementToken?, List.head?_cons, Option.any_some, hstart]
    rfl

theorem ignoresComments_referenceToken? : IgnoresComments referenceToken? where
  veil offset prev t := by
    have hnumeral := (Text.takeWhile_veil (f := fun c => isWordChar c || c == '.') (fun c hc => by
      rw [Bool.or_eq_true, beq_iff_eq] at hc
      rcases hc with hc | rfl
      · exact isInert_of_isWordChar hc
      · decide) t).1
    have hreference : ∀ path rest,
        isReference prev path (Text.veil rest) = isReference prev path rest := fun path rest => by
      rw [isReference, Text.trimStart_veil, Text.head?_veil, isReference]
    rw [referenceToken?, referenceToken?, argumentToken?, argumentToken?, Text.head?_veil]
    split
    · rw [hnumeral]
    · rw [path?_veil, Option.map_map, Option.map_map, Option.map_map]
      refine Option.map_congr fun r _ => ?_
      simp only [Function.comp_apply, veilRest, hreference]
  start offset prev c t hc := by
    rw [isWordChar, Bool.or_eq_false_iff, Bool.or_eq_false_iff] at hc
    have hstart : isWordStart c = false := by
      rw [isWordStart, hc.1.1, hc.2]
      rfl
    rw [referenceToken?, argumentToken?, List.head?_cons, Option.any_some, hc.1.2, path?, hstart]
    rfl

theorem Text.statements_veil (t : Text) : t.veil.statements = t.statements := by
  rw [statements, statements, statementsFrom_eq, statementsFrom_eq]
  exact tokensFrom_veil ignoresComments_statementToken? 0 0 none .code t

theorem Text.references_veil (t : Text) : t.veil.references = t.references := by
  rw [references, references, referencesFrom_eq, referencesFrom_eq]
  exact tokensFrom_veil ignoresComments_referenceToken? 0 0 none .code t

/-! ### The graph -/

namespace Graph

theorem callReferences_veil {body : Text} {c : Call} (hc : .call c ∈ body.statements) :
    callReferences body.veil c = callReferences body c := by
  obtain ⟨p, f, rest, hbody, hread, rfl, -, hcode⟩ := exists_form_of_call_mem_statements hc
  obtain ⟨head, inside⟩ := f
  cases inside with
  | none => rfl
  | some inside =>
    have hsplit : body = (p ++ head.text) ++ (inside ++ (')' :: rest)) := by
      rw [hbody, CallForm.text]
      simp [Bracket.closer]
    have hmode : Mode.code.run (p ++ head.text) (inside ++ ')' :: rest).head? = .code := by
      obtain ⟨-, -, hwritten, -, -⟩ := CallForm.exists_of_read? hread
      have hrest : (CallForm.text ⟨head, some inside⟩ ++ rest : Text) =
          head.text ++ (inside ++ ')' :: rest) := by
        rw [CallForm.text]
        simp [Bracket.closer]
      rw [hrest] at hcode
      exact hcode.run_append hwritten.isInert head.text_ne_nil
    have hspan : ((CallForm.mk head (some inside)).place p.byteLength).args =
        some (.ofLength (Text.byteLength (p ++ head.text)) inside.byteLength) := by
      rw [Text.byteLength_append]
      rfl
    rw [callReferences, callReferences, hspan, hsplit]
    simp only
    rw [Text.slice_of_slice? (Text.slice?_veil hmode (by simp)),
      Text.slice_of_slice? (Text.slice?_append _ _ _), Text.references_veil]

theorem addStatement_veil {body : Text} {s : Statement} (hs : s ∈ body.statements)
    (state : Graph × Results) :
    addStatement body.veil state s = addStatement body state s := by
  cases s with
  | call c =>
    rw [addStatement, addStatement, addCall, addCall, callReferences_veil hs]
  | arrow chain => rfl

variable {t : Text} (hquiet : Mode.code.Quiet t) {d : Declaration} (hd : d ∈ t.declarations)
include hquiet hd

theorem addPipeline_veil (g : Graph) : addPipeline t.veil g d = addPipeline t g d := by
  rw [addPipeline, addPipeline, (Text.content_veil hquiet hd).1]
  simp only [Text.statements_veil]
  rw [List.foldl_ext _ _ _ fun state s hs => addStatement_veil hs state]

theorem addDeclaredModule_veil (g : Graph) :
    addDeclaredModule t.veil g d = addDeclaredModule t g d := by
  have hruntime : d.runtime? t.veil = d.runtime? t := by
    rw [Declaration.runtime?, Declaration.runtime?, (Text.content_veil hquiet hd).1,
      runtimeFrom_veil]
  rw [addDeclaredModule, addDeclaredModule, hruntime]

end Graph

/-- **The dependency graph of a quiet document** does not depend on comments. -/
theorem Text.dependencies_veil {t : Text} (hquiet : Mode.code.Quiet t) :
    t.veil.dependencies = t.dependencies := by
  simp only [dependencies, declarations_veil hquiet]
  rw [List.foldl_ext (Graph.addDeclaredModule t.veil) (Graph.addDeclaredModule t) _ fun g d hd =>
      Graph.addDeclaredModule_veil hquiet (List.mem_of_mem_filter hd) g]
  exact List.foldl_ext _ _ _ fun g d hd =>
    Graph.addPipeline_veil hquiet (List.mem_of_mem_filter hd) g

end PipelineDoc
