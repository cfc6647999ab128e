import PipelineDoc.Proofs.Comment.Documents
import PipelineDoc.Proofs.Review.Order
import PipelineDoc.Proofs.Review.Reports
import PipelineDoc.Proofs.Text.Lines

/-!
# Comments are opaque

A quiet document is reviewed line by line, and each line starts in code. The lines of the veiled
document are the veiled lines; they have the same braces in code and the same part before the first
comment, so the passes find the same in them. Only the end of the last line may lie elsewhere, when
it is the end of a comment. This does not change the order of the findings: what is reported at the
start of the last line is a word, and it ends the line in the veiled document just when it does so
in the document itself. Main statement: `comments_opaque`.
-/

namespace PipelineDoc

/-! ### Lines -/

theorem Mode.newline_not_mem_veil (mode : Mode) {t : Text} (h : '\n' ∉ t) : '\n' ∉ mode.veil t := by
  induction t generalizing mode with
  | nil => exact h
  | cons c t ih =>
    rw [List.mem_cons, not_or] at h
    rw [veil_cons, List.mem_append, not_or]
    refine ⟨?_, ih _ h.2⟩
    split
    · simp
    · simpa using h.1

namespace Text

/-- **A line of a quiet text** ends in code, so it is veiled on its own. -/
theorem veil_append_newline {p s : Text} (hquiet : Mode.code.Quiet (p ++ '\n' :: s)) :
    (∀ s', veil (p ++ '\n' :: s') = p.veil ++ '\n' :: veil s') ∧ Mode.code.Quiet s := by
  obtain ⟨-, -, hmode, hs⟩ := Mode.quiet_append.mp hquiet
  rw [List.head?_cons, Mode.run_next p (by decide)] at hmode hs
  have hstep : ∀ next, (Mode.code.run p none).step '\n' next = (.code, .code) := by
    generalize Mode.code.run p none = mode at hmode
    cases mode with
    | string | stringEscape => simp at hmode
    | code | codeEscape | comment => exact fun _ => rfl
  refine ⟨fun s' => ?_, by rwa [hstep] at hs⟩
  rw [veil, Mode.veil_append .code p (by simp), Mode.veil_cons_of_ne (by rw [hstep]; simp), hstep]
  rfl

theorem lines_veil {t : Text} (hquiet : Mode.code.Quiet t) : t.veil.lines = t.lines.map veil := by
  induction t using lines_induction with
  | last t ht =>
    cases t with
    | nil => rfl
    | cons c t =>
      obtain ⟨r, hr⟩ := List.head?_eq_some_iff.mp (head?_veil (c :: t))
      rw [lines_of_not_mem ht (List.cons_ne_nil c t), List.map_singleton]
      exact lines_of_not_mem (Mode.newline_not_mem_veil .code ht) (by simp [hr])
  | line p s hp ih =>
    obtain ⟨hveil, hs⟩ := veil_append_newline hquiet
    have hp' : '\n' ∉ p.veil := Mode.newline_not_mem_veil .code hp
    rw [hveil, lines_append_newline hp', lines_append_newline hp, ih hs, List.map_cons, hveil []]
    rfl

end Text

/-! ### Code -/

namespace Mode

theorem codeChars_cons_comment {mode : Mode} {c : Char} {cs : Text}
    (hl : (mode.step c cs.head?).1 = .comment) :
    mode.codeChars (c :: cs) none = comment.codeChars cs none := by
  rw [codeChars_cons, Option.or_none, if_neg (by rw [hl]; exact Label.noConfusion),
    mode_of_comment hl, List.nil_append]

theorem codeChars_replicate_slash (k : Nat) (t : Text) :
    comment.codeChars (List.replicate k '/' ++ t) none = comment.codeChars t none := by
  induction k with
  | zero => rfl
  | succ k ih =>
    rw [List.replicate_succ, List.cons_append,
      codeChars_cons_comment (by rw [step_comment_slash]), ih]

theorem codeChars_veil (mode : Mode) (t : Text) :
    mode.codeChars (mode.veil t) none = mode.codeChars t none := by
  induction t generalizing mode with
  | nil => rfl
  | cons c t ih =>
    by_cases hl : (mode.step c t.head?).1 = .comment
    · obtain ⟨k, -, hveil, hfirst⟩ := exists_veil_comment hl
      rw [hveil, codeChars_cons_comment (by rw [hfirst]), codeChars_replicate_slash, ih,
        codeChars_cons_comment hl]
    · rw [veil_cons_of_ne hl, codeChars_cons, codeChars_cons, Option.or_none, Option.or_none,
        step_head?_veil hl, ih]

theorem takeWhile_zip_veil (mode : Mode) (t : Text) :
    ((mode.veil t).zip (mode.labels (mode.veil t))).takeWhile
        (fun x => decide (x.2 ≠ .comment)) =
      (t.zip (mode.labels t)).takeWhile fun x => decide (x.2 ≠ .comment) := by
  induction t generalizing mode with
  | nil => rfl
  | cons c t ih =>
    by_cases hl : (mode.step c t.head?).1 = .comment
    · obtain ⟨k, -, hveil, hfirst⟩ := exists_veil_comment hl
      rw [hveil, labels_cons, labels_cons, List.zip_cons_cons, List.zip_cons_cons, hfirst,
        List.takeWhile_cons_of_neg (by simp), List.takeWhile_cons_of_neg (by simp [hl])]
    · rw [veil_cons_of_ne hl, labels_cons, labels_cons, List.zip_cons_cons, List.zip_cons_cons,
        step_head?_veil hl, List.takeWhile_cons_of_pos (by simp [hl]),
        List.takeWhile_cons_of_pos (by simp [hl]), ih]

end Mode

namespace Text

theorem codeBraces_veil (t : Text) : t.veil.codeBraces = t.codeBraces := by
  rw [codeBraces, codeBraces, codeChars_eq, codeChars_eq t]
  exact congrArg (fun chars : Text => (chars.count '{', chars.count '}'))
    (Mode.codeChars_veil .code t)

theorem codePart_veil (t : Text) : t.veil.codePart = t.codePart :=
  congrArg (List.map fun x : Char × Label => x.1) (Mode.takeWhile_zip_veil .code t)

end Text

/-! ### Findings -/

theorem lineFindings_veil (known : List Text) (pipeline : Text) (lines : List Text) (offset : Nat)
    (depth : Int) (scope : Scope) :
    lineFindings known pipeline offset depth scope (lines.map Text.veil) =
      lineFindings known pipeline offset depth scope lines := by
  induction lines generalizing offset depth scope with
  | nil => rfl
  | cons line lines ih =>
    rw [List.map_cons, lineFindings, lineFindings]
    simp only [Text.codeBraces_veil, Text.codePart_veil, Text.byteLength_veil, ih]

theorem Text.laterFindings_veil {t : Text} (hquiet : Mode.code.Quiet t) (extra : List Text) :
    t.veil.laterFindings extra = t.laterFindings extra := by
  have hpipelines : (t.declarations.filter fun d => d.kind == .pipeline).flatMap
      (pipelineFindings t.veil (t.knownModules extra)) =
      (t.declarations.filter fun d => d.kind == .pipeline).flatMap
        (pipelineFindings t (t.knownModules extra)) := by
    refine List.flatMap_congr fun d hd => ?_
    obtain ⟨hcontent, hbody⟩ := content_veil hquiet (List.mem_of_mem_filter hd)
    rw [pipelineFindings, hcontent, lines_veil hbody, lineFindings_veil]
    rfl
  have hknown : t.veil.knownModules extra = t.knownModules extra := by
    rw [knownModules, declarations_veil hquiet]
    rfl
  rw [laterFindings, nameFindings, rejections_veil hquiet, pipelineReview, declarations_veil hquiet,
    hknown, hpipelines]
  rfl

/-! ### The last line -/

theorem Mode.forall_isWhite_veil {mode : Mode} (hmode : mode ≠ .comment) (t : Text) :
    (∀ c ∈ mode.veil t, isWhite c = true) ↔ ∀ c ∈ t, isWhite c = true := by
  induction t generalizing mode with
  | nil => rfl
  | cons c t ih =>
    by_cases hl : (mode.step c t.head?).1 = .comment
    · obtain ⟨k, -, hveil, -⟩ := exists_veil_comment hl
      obtain ⟨-, rfl, -⟩ := (of_label_comment hl).resolve_right fun h => hmode h.1
      have hslash : ¬ isWhite '/' = true := by decide
      rw [hveil, List.forall_mem_cons, List.forall_mem_cons]
      exact iff_of_false (fun h => hslash h.1) fun h => hslash h.1
    · rw [veil_cons_of_ne hl, List.forall_mem_cons, List.forall_mem_cons, ih (mode_ne_comment hl)]

/-- The place after a character of a text, in the veiled text: in a comment it is that after a
slash. -/
theorem Mode.exists_veil_concat (mode : Mode) (p : Text) (c : Char) (q : Text) :
    ∃ a : Text, mode.veil (p ++ c :: q) = a ++ (mode.run (p ++ [c]) q.head?).veil q ∧
      a.byteLength = Text.byteLength (p ++ [c]) ∧
      (mode.run (p ++ [c]) q.head? = .comment → a.getLast? = some '/') := by
  obtain ⟨a, ha, hlength⟩ := exists_veil_append mode p (c :: q)
  rw [List.head?_cons, veil_cons, ← List.append_assoc] at ha
  rw [run_concat]
  refine ⟨_, ha, ?_, ?_⟩
  · have htotal := congrArg Text.byteLength ha
    simp only [Text.byteLength_append, Text.byteLength_cons, Text.byteLength_nil,
      byteLength_veil] at htotal ⊢
    omega
  · intro hcomment
    have hl : ((mode.run p (some c)).step c q.head?).1 = .comment :=
      by_contra fun h => mode_ne_comment h hcomment
    obtain ⟨k, hk⟩ := Nat.exists_eq_add_one_of_ne_zero (Nat.ne_of_gt (Char.utf8Size_pos c))
    rw [if_pos hl, hk, List.replicate_succ', ← List.append_assoc, List.getLast?_concat]

namespace Text

theorem byteLength_flatten_veil (lines : List Text) :
    byteLength (lines.map veil).flatten = byteLength lines.flatten := by
  induction lines with
  | nil => rfl
  | cons line lines ih =>
    rw [List.map_cons, List.flatten_cons, List.flatten_cons, byteLength_append, byteLength_append, ih,
      byteLength_veil]

theorem IsLast.veil {t line : Text} {older newer : List Text} (h : t.IsLast older line newer)
    (hquiet : Mode.code.Quiet t) :
    t.veil.IsLast (older.map Text.veil) line.veil (newer.map Text.veil) where
  lines := by rw [lines_veil hquiet, h.lines, List.map_append, List.map_cons]
  line := by
    by_contra hwhite
    obtain ⟨c, hc, hblack⟩ := h.line
    have hall : ∀ c ∈ line.veil, isWhite c = true := by simpa using hwhite
    rw [(Mode.forall_isWhite_veil Mode.noConfusion line).mp hall c hc] at hblack
    cases hblack
  newer := by
    intro l hl
    obtain ⟨l, hmem, rfl⟩ := List.mem_map.mp hl
    exact (Mode.forall_isWhite_veil Mode.noConfusion l).mpr (h.newer l hmem)

end Text

/-! ### Order -/

/-- The text that a finding is about. -/
def Finding.word : Finding → Text
  | .unbalanced .. => []
  | .unnamed kind _ => kind.keyword
  | .duplicate _ name _ _ => name
  | .unknownModule name _ => name
  | .unknownVariable name _ _ => name

/-- **What the later passes report** is the name of a declaration, or a word without a slash. -/
theorem word_of_mem_laterFindings {t : Text} {extra : List Text} {f : Finding}
    (hf : f ∈ t.laterFindings extra) :
    t.slice? f.span = some f.word ∧
      ((∃ d ∈ t.declarations, f.span = d.nameSpan) ∨ f.word ≠ [] ∧ '/' ∉ f.word) := by
  rcases List.mem_append.mp hf with hf | hf
  · rcases List.mem_append.mp hf with hf | hf
    · obtain ⟨r, hr, rfl⟩ := exists_of_mem_nameFindings hf
      refine ⟨Text.slice?_of_mem_rejections hr, Or.inr ⟨keyword_ne_nil r.kind, fun hmem => ?_⟩⟩
      exact absurd (isWordChar_keyword r.kind _ hmem) (by decide)
    · obtain ⟨older, d, newer, first, hsplit, -, -, -, rfl⟩ := exists_of_mem_duplicatesAfter hf
      have hd : d ∈ t.declarations := by
        rw [List.nil_append] at hsplit
        rw [hsplit]
        simp
      exact ⟨(Text.standsIn_of_mem_declarations hd).name, Or.inl ⟨d, hd, rfl⟩⟩
  · obtain ⟨d, hd, -, hf⟩ := Text.mem_pipelineReview.mp hf
    have hin := pipelineFindings_isIn hd f hf
    cases f with
    | unbalanced | unnamed | duplicate => exact hin.elim
    | unknownModule name span =>
      refine ⟨hin.1, Or.inr ⟨hin.2.2.1.ne_nil, fun hmem => ?_⟩⟩
      exact absurd (hin.2.2.1.isPathChar _ hmem) (by decide)
    | unknownVariable name pipeline span =>
      refine ⟨hin.1, Or.inr ⟨hin.2.2.1.ne_nil, fun hmem => ?_⟩⟩
      exact absurd (hin.2.2.1.2 _ hmem) (by decide)

theorem exists_quote_of_mem_declarations {t : Text} {d : Declaration} (hd : d ∈ t.declarations) :
    ∃ p s, t = (p ++ ['"']) ++ s ∧ Text.byteLength (p ++ ['"']) = d.nameSpan.start := by
  obtain ⟨q, kind, form, rest, ht, -, rfl⟩ :=
    exists_form_of_mem_headersFrom [] t none (Text.mem_declarations.mp hd)
  refine ⟨q ++ kind.keyword ++ form.head.pad,
    form.head.name ++ ('"' :: (form.head.gap ++ '{' :: (form.body ++ '}' :: rest))), ?_, ?_⟩
  · rw [← List.nil_append t, ht, DeclarationForm.text, DeclarationHead.text]
    simp [Bracket.closer]
  · simp [DeclarationForm.place, DeclarationHead.nameSpan, Nat.add_assoc]

theorem byteLength_trimEnd_veil_le_iff {t : Text} {span : Span} {word : Text}
    (hslice : t.slice? span = some word) (hveil : t.veil.slice? span = some word) (hne : word ≠ [])
    (hslash : '/' ∉ word) :
    t.veil.trimEnd.byteLength ≤ span.stop ↔ t.trimEnd.byteLength ≤ span.stop := by
  obtain ⟨p, q, ht, hstart, hlength⟩ := Text.slice?_eq_some_iff.mp hslice
  obtain ⟨p', q', ht', hstart', -⟩ := Text.slice?_eq_some_iff.mp hveil
  obtain ⟨w, c, hword⟩ := (List.eq_nil_or_concat word).resolve_left hne
  rw [List.concat_eq_append] at hword
  subst hword
  have hsplit : t = (p ++ w) ++ c :: q := by
    rw [ht]
    simp
  obtain ⟨a, ha, hbytes, hcomment⟩ := Mode.exists_veil_concat .code (p ++ w) c q
  generalize Mode.code.run (p ++ w ++ [c]) q.head? = mode at ha hcomment
  have hveiled : t.veil = a ++ mode.veil q := by rw [Text.veil, hsplit, ha]
  -- the word ends at the same place of both
  have haeq : a = p' ++ (w ++ [c]) := by
    refine Text.eq_of_byteLength_eq (t := t.veil) ⟨mode.veil q, hveiled.symm⟩
      ⟨q', by rw [ht', List.append_assoc]⟩ ?_
    rw [hbytes, List.append_assoc, Text.byteLength_append, Text.byteLength_append p', hstart, hstart']
  have hmode : mode ≠ .comment := fun h => by
    have hlast := hcomment h
    rw [haeq, ← List.append_assoc, List.getLast?_concat, Option.some_inj] at hlast
    exact hslash (by simp [hlast])
  have hstop : span.stop = a.byteLength := by
    have hle := span.start_le_stop
    rw [Span.length] at hlength
    rw [hbytes, List.append_assoc, Text.byteLength_append]
    omega
  rw [hstop, hveiled, Text.byteLength_trimEnd_le_iff, Mode.forall_isWhite_veil hmode, hbytes, hsplit,
    List.append_cons, Text.byteLength_trimEnd_le_iff]

/-- **The last line comes at the same place** among the findings when the text is veiled. -/
theorem le_lastLineSpan_veil {t : Text} (hquiet : Mode.code.Quiet t)
    (hblack : ∃ c ∈ t, isWhite c = false) {extra : List Text} {f : Finding}
    (hf : f ∈ t.laterFindings extra) : t.veil.lastLineSpan.le f.span = t.lastLineSpan.le f.span := by
  obtain ⟨older, line, newer, hlast⟩ := Text.exists_isLast hblack
  have hstart : t.veil.lastLineSpan.start = t.lastLineSpan.start := by
    rw [(hlast.veil hquiet).start_eq, hlast.start_eq, Text.byteLength_flatten_veil,
      (Text.takeWhile_veil (fun _ => isInert_of_isWhite) line).1]
  rw [Span.le, Span.le, hstart]
  by_cases hsame : t.lastLineSpan.start = f.span.start
  · obtain ⟨hslice, hname | ⟨hne, hslash⟩⟩ := word_of_mem_laterFindings hf
    · -- the character before a name is a quote, which is not white
      obtain ⟨d, hd, hspan⟩ := hname
      obtain ⟨front, rest, ht, hfront, hwhite⟩ := hlast.exists_front
      obtain ⟨p, s, hquote, hp⟩ := exists_quote_of_mem_declarations hd
      have heq : p ++ ['"'] = front := by
        refine Text.eq_of_byteLength_eq ⟨s, hquote.symm⟩ ⟨rest, ht.symm⟩ ?_
        rw [hp, ← hspan, ← hsame, hfront]
      exact absurd (hwhite '"' (by rw [← heq, List.getLast?_concat]; rfl)) (by decide)
    · have hveil := (word_of_mem_laterFindings (Text.laterFindings_veil hquiet extra ▸ hf)).1
      rw [Text.stop_lastLineSpan, Text.stop_lastLineSpan,
        decide_eq_decide.mpr (byteLength_trimEnd_veil_le_iff hslice hveil hne hslash)]
  · rw [beq_eq_false_iff_ne.mpr hsame, Bool.false_and, Bool.false_and]

/-! ### Diagnostics -/

/-- A diagnostic without its places, if it is about braces that do not balance. -/
def Diagnostic.withoutLastLine (d : Diagnostic) : Diagnostic :=
  if d.code = some .unbalancedBraces then
    { d with annotations := d.annotations.map fun a => { a with span := .ofLength 0 0 } }
  else d

/-- **The review of a quiet document** does not depend on comments, but for the last line. -/
theorem diagnose_veil {t : Text} (hquiet : Mode.code.Quiet t) (extra : List Text) :
    (t.veil.diagnose extra).map Diagnostic.withoutLastLine =
      (t.diagnose extra).map Diagnostic.withoutLastLine := by
  have hfindings : ∀ t : Text, t.findings extra =
      (braceFindings t ++ t.laterFindings extra).mergeSort Finding.le := fun t => by
    rw [← Text.emitted_eq_append]
    rfl
  rw [Text.diagnose, Text.diagnose, hfindings, hfindings, Text.laterFindings_veil hquiet]
  simp only [braceFindings, Text.codeBraces_veil]
  split
  · rfl
  · next hne =>
    have hblack := Text.exists_not_white hne
    have hle : ∀ f ∈ (t.laterFindings extra).mergeSort Finding.le, ∀ opened closed,
        Finding.le (.unbalanced opened closed t.veil.lastLineSpan) f =
          Finding.le (.unbalanced opened closed t.lastLineSpan) f := fun f hf _ _ =>
      le_lastLineSpan_veil hquiet hblack (List.mem_mergeSort.mp hf)
    simp only [List.singleton_append]
    rw [mergeSort_cons_eq Finding.le_trans Finding.le_total,
      mergeSort_cons_eq Finding.le_trans Finding.le_total,
      List.filter_congr fun f hf => congrArg (!·) (hle f hf _ _),
      List.filter_congr fun f hf => hle f hf _ _]
    simp only [List.map_append, List.map_cons]
    rfl

/-- **Comments are opaque.** Let two documents have the same labels, and the same bytes where the
label is not that of a comment. Let no quote outside comments come right after a backslash, and let
no newline be part of a string. Then they have the same declarations, the same rejected keywords and
the same graph, and their diagnostics are the same one by one, but for the place of the last line in
a diagnostic about braces that do not balance. -/
theorem comments_opaque (settings : Settings) (s t : Text) (active : Option Text)
    (hlabels : s.byteLabels = t.byteLabels)
    (hbytes : ∀ i < s.byteLength, s.byteLabels[i]? ≠ some .comment → s.bytes[i]? = t.bytes[i]?)
    (hquote : s.NoEscapedQuote) (hnewline : ('\n', Label.string) ∉ s.zip s.labels) :
    s.declarations = t.declarations ∧ s.rejections = t.rejections ∧
    s.dependencies = t.dependencies ∧
    (settings.analyze s active).graph = (settings.analyze t active).graph ∧
    (settings.analyze s active).diagnostics.map Diagnostic.withoutLastLine =
      (settings.analyze t active).diagnostics.map Diagnostic.withoutLastLine := by
  have hveil : s.veil = t.veil := Text.veil_eq_of_bytes hlabels hbytes
  have hs : Mode.code.Quiet s := Text.quiet_of_noEscapedQuote hquote hnewline
  have ht : Mode.code.Quiet t := by
    have hquiet : Mode.code.Quiet t.veil := hveil ▸ Mode.quiet_veil.mpr hs
    exact Mode.quiet_veil.mp hquiet
  have hdependencies : s.dependencies = t.dependencies := by
    rw [← Text.dependencies_veil hs, hveil, Text.dependencies_veil ht]
  refine ⟨?_, ?_, hdependencies, ?_, ?_⟩
  · rw [← Text.declarations_veil hs, hveil, Text.declarations_veil ht]
  · rw [← Text.rejections_veil hs, hveil, Text.rejections_veil ht]
  · simp only [Settings.analyze, Settings.graph, hdependencies]
  · simp only [Settings.analyze, Settings.diagnose]
    rw [← diagnose_veil hs, hveil, diagnose_veil ht]

/-- Two documents that differ in their comments: where one of them has a keyword and a brace, the
other one has a wide character, and the last line ends elsewhere. -/
theorem comments_opaque_wide :
    let s : Text := ("module \"m\" \x7b // module \x7d\n\x7d\npipeline \"p\" \x7b\n" ++
      "  run n(m) // run x(\n\x7d \x7b\n// a  ").toList
    let t : Text := ("module \"m\" \x7b // \\\"  é \x7b\n\x7d\npipeline \"p\" \x7b\n" ++
      "  run n(m) // é→ \n\x7d \x7b\n// abc").toList
    s.byteLabels = t.byteLabels ∧
      (∀ i < s.byteLength, s.byteLabels[i]? ≠ some .comment → s.bytes[i]? = t.bytes[i]?) ∧
      s.NoEscapedQuote ∧ ('\n', Label.string) ∉ s.zip s.labels ∧ s ≠ t ∧
      s.lastLineSpan ≠ t.lastLineSpan ∧ s.declarations = t.declarations ∧
      (Settings.diagnose {} s).map Diagnostic.withoutLastLine =
        (Settings.diagnose {} t).map Diagnostic.withoutLastLine := by
  intro s t
  have hlabels : s.byteLabels = t.byteLabels := by decide +kernel
  have hbytes : ∀ i < s.byteLength, s.byteLabels[i]? ≠ some .comment → s.bytes[i]? = t.bytes[i]? := by
    decide +kernel
  have hquote : s.NoEscapedQuote := by decide +kernel
  have hnewline : ('\n', Label.string) ∉ s.zip s.labels := by decide +kernel
  obtain ⟨hdeclarations, -, -, -, hdiagnostics⟩ :=
    comments_opaque {} s t none hlabels hbytes hquote hnewline
  exact ⟨hlabels, hbytes, hquote, hnewline, by decide +kernel, by decide +kernel, hdeclarations,
    hdiagnostics⟩

end PipelineDoc
