import PipelineDoc.Proofs.Statement.LineCalls
import PipelineDoc.Review

/-!
# Plain lines

A *plain* text has no quote, backslash, slash or brace. All of it is code, and braces around it
match. A plain line on which one parenthesis opens, that of a run head, has one call
(`CallLine.lineCalls_eq`). So a review of the line has only the module and the references in the
arguments of this call to look at (`CallLine.lineFindings_cons`).
-/

namespace PipelineDoc

/-! ### Inert text -/

theorem Text.zip_labels_inert {t : Text} (ht : ∀ c ∈ t, isInert c = true) :
    t.zip t.labels = t.map (·, .code) := by
  unfold Text.labels
  induction t with
  | nil => rfl
  | cons c t ih =>
    rw [Mode.labels_cons, Mode.step_inert (ht c List.mem_cons_self), List.zip_cons_cons,
      ih fun d hd => ht d (List.mem_cons_of_mem _ hd), List.map_cons]

theorem Text.codeChars_inert {t : Text} (ht : ∀ c ∈ t, isInert c = true) : t.codeChars = t := by
  rw [Text.codeChars, Text.zip_labels_inert ht, List.filterMap_map]
  exact List.filterMap_some

theorem Text.codePart_inert {t : Text} (ht : ∀ c ∈ t, isInert c = true) : t.codePart = t := by
  have hall : (t.map (·, Label.code)).takeWhile (fun x => decide (x.2 ≠ .comment)) =
      t.map (·, .code) := by
    rw [List.takeWhile_eq_self_iff]
    intro x hx
    obtain ⟨c, -, rfl⟩ := List.mem_map.mp hx
    rfl
  rw [Text.codePart, Text.zip_labels_inert ht]
  show ((t.map (·, Label.code)).takeWhile fun x => decide (x.2 ≠ .comment)).map (·.1) = t
  rw [hall, List.map_map]
  exact List.map_id t

/-- A bracket around inert text without its delimiters closes after the text. -/
theorem Bracket.inside?_inert (b : Bracket) {t : Text} (ht : ∀ c ∈ t, isInert c = true)
    (ho : b.opener ∉ t) (hc : b.closer ∉ t) (s : Text) :
    b.inside? (t ++ b.closer :: s) = some (t, s) := by
  unfold Bracket.inside?
  induction t with
  | nil =>
    have hinert : isInert b.closer = true := by cases b <;> decide
    rw [List.nil_append, Bracket.splitClosing_cons, Mode.step_inert hinert, if_pos ⟨rfl, rfl⟩]
  | cons c t ih =>
    rw [List.mem_cons, not_or] at ho hc
    rw [List.cons_append, Bracket.splitClosing_cons, Mode.step_inert (ht c List.mem_cons_self),
      if_neg fun h => hc.1 h.2.symm, if_neg fun h => ho.1 h.2.symm,
      ih (fun d hd => ht d (List.mem_cons_of_mem _ hd)) ho.2 hc.2]
    rfl

/-! ### Plain text -/

/-- Characters that are code wherever they stand in code, other than braces. -/
def isPlain (c : Char) : Bool := isInert c && c != '{' && c != '}'

theorem isInert_of_isPlain {c : Char} (h : isPlain c = true) : isInert c = true := by
  simp only [isPlain, Bool.and_eq_true] at h
  exact h.1.1

theorem isPlain_of_isWordChar {c : Char} (h : isWordChar c = true) : isPlain c = true := by
  simp only [isPlain, isInert_of_isWordChar h, Bool.true_and, Bool.and_eq_true, bne_iff_ne]
  constructor
  all_goals
    rintro rfl
    exact absurd h (by decide)

section

variable {t : Text} (ht : ∀ c ∈ t, isPlain c = true)
include ht

theorem isInert_of_plain : ∀ c ∈ t, isInert c = true := fun c hc => isInert_of_isPlain (ht c hc)

theorem brace_not_mem_plain : '{' ∉ t ∧ '}' ∉ t :=
  ⟨fun h => absurd (ht _ h) (by decide), fun h => absurd (ht _ h) (by decide)⟩

theorem Text.codeBraces_plain : t.codeBraces = (0, 0) := by
  obtain ⟨ho, hc⟩ := brace_not_mem_plain ht
  rw [Text.codeBraces, Text.codeChars_inert (isInert_of_plain ht), List.count_eq_zero_of_not_mem ho,
    List.count_eq_zero_of_not_mem hc]

/-- **A plain line** is reviewed as it stands. -/
theorem lineFindings_plain (known : List Text) (pipeline : Text) (offset : Nat) (scope : Scope)
    (lines : List Text) :
    lineFindings known pipeline offset 0 scope (t :: lines) =
      t.lineCalls.flatMap (callFindings known (scope.afterLine t) pipeline offset t) ++
        lineFindings known pipeline (offset + t.byteLength) 0 (scope.afterLine t) lines := by
  simp only [lineFindings, Text.codeBraces_plain ht, Text.codePart_inert (isInert_of_plain ht)]
  exact if_neg (by decide)

end

/-! ### Lines with one call -/

/-- A plain line with a run head, its arguments and no other parenthesis. -/
structure CallLine where
  front : Text
  head : RunHead
  inside : Text
  rest : Text
  isWritten : head.IsWritten
  isClear_front : isClear front.getLast? = true
  plain : ∀ c ∈ front ++ (head.text ++ (inside ++ ')' :: rest)), isPlain c = true
  opener_not_mem : '(' ∉ front ++ (inside ++ rest)
  closer_not_mem : ')' ∉ inside

namespace CallLine

variable (l : CallLine)

/-- The characters of a line. -/
def text : Text := l.front ++ (l.head.text ++ (l.inside ++ ')' :: l.rest))

/-- The call of a line. -/
def call : Call := CallForm.place ⟨⟨none, l.head⟩, some l.inside⟩ l.front.byteLength

theorem isInert_text : ∀ c ∈ l.text, isInert c = true := isInert_of_plain l.plain

theorem codeAfter_front : Mode.code.CodeAfter l.front (l.head.text ++ (l.inside ++ ')' :: l.rest)) := by
  have hfront : Mode.code.run l.front (some 'r') = .code :=
    Mode.run_inert (fun c hc => l.isInert_text c (List.mem_append_left _ hc)) _
  show ((Mode.code.run l.front (some 'r')).step 'r' _).1 = .code
  rw [hfront]
  rfl

theorem inside?_eq :
    Bracket.paren.inside? (l.inside ++ ')' :: l.rest) = some (l.inside, l.rest) := by
  have hopener := l.opener_not_mem
  refine Bracket.inside?_inert .paren (fun c hc => l.isInert_text c ?_) (fun h => hopener ?_)
    l.closer_not_mem l.rest
  · simp [text, hc]
  · exact List.mem_append_right _ (List.mem_append_left _ h)

theorem read?_eq : CallForm.read? (l.head.text ++ (l.inside ++ ')' :: l.rest)) =
    some (⟨⟨none, l.head⟩, some l.inside⟩, l.rest) := by
  have hhead : CallHead.IsWritten ⟨none, l.head⟩ := ⟨fun _ hb => absurd hb (by simp), l.isWritten⟩
  exact CallForm.read?_append hhead l.inside?_eq

theorem call_mem : l.call ∈ l.text.lineCalls := by
  rcases lineCall_or_inside l.isWritten l.codeAfter_front l.isClear_front with
    ⟨f, rest, hread, -, hmem⟩ | ⟨b, f, rest, u, w, -, -, -, -, hfront, -⟩
  · rw [l.read?_eq] at hread
    cases hread
    exact hmem
  · -- a call around the run head would open a parenthesis before it
    have hmem : '(' ∈ l.front := by
      rw [hfront, f.head.text_eq]
      simp
    exact absurd (List.mem_append_left _ hmem) l.opener_not_mem

theorem eq_call_of_mem {q : Call} (hq : q ∈ l.text.lineCalls) : q = l.call := by
  obtain ⟨p, f, rest, heq, hread, hb, rfl, -⟩ := exists_of_mem_lineCalls hq
  obtain ⟨r, hr, hfw, -⟩ := CallForm.exists_of_read? hread
  have hhead := CallHead.text_of_binding_eq_none hb
  have hopener := l.opener_not_mem
  simp only [List.mem_append, not_or] at hopener
  -- one parenthesis opens on the line, so both heads end with it
  have hparens : l.front ++ l.head.stem ++ '(' :: (l.inside ++ ')' :: l.rest) =
      p ++ f.head.run.stem ++ '(' :: r := by
    rw [hr, hhead, f.head.run.text_eq, text, l.head.text_eq] at heq
    simpa using heq
  have hbefore : '(' ∉ l.front ++ l.head.stem := by
    rw [List.mem_append, not_or]
    exact ⟨hopener.1, l.isWritten.not_mem_stem (by decide)⟩
  have hafter : '(' ∉ l.inside ++ ')' :: l.rest := by simp [hopener.2]
  obtain ⟨hstems, -⟩ := (List.append_cons_inj_of_notMem hbefore hafter).mp hparens
  have htexts : p ++ f.head.run.text = l.front ++ l.head.text := by
    rw [f.head.run.text_eq, l.head.text_eq, ← List.append_assoc, ← List.append_assoc]
    exact congrArg (· ++ ['(']) hstems.symm
  obtain ⟨rfl, -⟩ := RunHead.append_text_inj hfw.run l.isWritten htexts
  rw [text, List.append_cancel_left_eq] at heq
  rw [← heq, l.read?_eq] at hread
  cases hread
  rfl

/-- **A line with one run head has one call.** -/
theorem lineCalls_eq : l.text.lineCalls = [l.call] := by
  have hmem := l.call_mem
  have honly := fun q => l.eq_call_of_mem (q := q)
  have hpairwise := l.text.pairwise_lineCalls
  match hcalls : l.text.lineCalls with
  | [] => simp [hcalls] at hmem
  | [q] => rw [honly q (by simp [hcalls])]
  | q :: r :: calls =>
    -- two equal calls cannot come one after the other
    rw [hcalls] at hpairwise
    have hle := (List.pairwise_cons.mp hpairwise).1 r (by simp)
    rw [honly q (by simp [hcalls]), honly r (by simp [hcalls])] at hle
    have hpos := Text.byteLength_pos
      (List.length_pos_iff.mp (CallForm.length_text_pos ⟨⟨none, l.head⟩, some l.inside⟩))
    simp only [call, CallForm.place] at hle
    omega

theorem slice_args : l.text.slice (.ofLength (l.front ++ l.head.text).byteLength l.inside.byteLength) =
    l.inside := by
  refine Text.slice_of_slice? ?_
  rw [text, ← List.append_assoc]
  exact Text.slice?_append _ _ _

/-- **The review of a line with one call** of a known module. -/
theorem lineFindings_cons {known : List Text} (hknown : l.head.module ∈ known) (pipeline : Text)
    (offset : Nat) (scope : Scope) (lines : List Text) :
    lineFindings known pipeline offset 0 scope (l.text :: lines) =
      l.inside.references.filterMap (referenceFinding? (scope.afterLine l.text) pipeline
        (offset + (l.front ++ l.head.text).byteLength)) ++
      lineFindings known pipeline (offset + l.text.byteLength) 0 (scope.afterLine l.text) lines := by
  have hargs : l.call.args =
      some (.ofLength (l.front ++ l.head.text).byteLength l.inside.byteLength) := by
    simp [call, CallForm.place, CallHead.text, CallHead.front]
  rw [lineFindings_plain (t := l.text) l.plain, l.lineCalls_eq, List.flatMap_singleton]
  congr 1
  have hmodule : known.contains l.call.module = true := by simpa [call, CallForm.place] using hknown
  rw [callFindings, hargs, if_pos hmodule, List.nil_append]
  simp only [l.slice_args, Span.start_ofLength]

end CallLine

end PipelineDoc
