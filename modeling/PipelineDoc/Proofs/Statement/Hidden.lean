import PipelineDoc.Proofs.Lexical.Lines
import PipelineDoc.Proofs.Statement.LineCalls
import PipelineDoc.Proofs.Statement.Order

/-!
# Calls of a body and calls of its lines

A call among the statements of a body is a call of its line as well, if the line does not start in a
string, unless it stands in the arguments of another call of the line. Then that call is no
statement itself, since the statements of a body do not overlap: it comes right after a dot or in an
arrow chain (`lineCall_or_hidden`).
-/

namespace PipelineDoc

/-! ### Where calls stand -/

theorem isClear_of_startsStatement {prev : Option Char} {t : Text}
    (h : t.head?.any (startsStatement prev)) : isClear prev = true := by
  cases t with
  | nil => cases h
  | cons c t =>
    rw [List.head?_cons, Option.any_some, startsStatement, Bool.and_eq_true] at h
    cases prev with
    | none => rfl
    | some d =>
      have hd := h.2
      rw [Option.all_some, Bool.and_eq_true] at hd
      exact hd.1

theorem exists_form_of_call_mem_statements {body : Text} {c : Call}
    (h : .call c ∈ body.statements) :
    ∃ p f rest, body = p ++ (f.text ++ rest) ∧ CallForm.read? (f.text ++ rest) = some (f, rest) ∧
      c = f.place p.byteLength ∧ isClear p.getLast? = true ∧
      Mode.code.CodeAfter p (f.text ++ rest) := by
  obtain ⟨p, s, rfl, hcode, hc, hstart⟩ := exists_code_of_call_mem_statements h
  simp only [call?, Option.map_eq_some_iff, Prod.exists] at hc
  obtain ⟨f, rest, hread, rfl⟩ := hc
  have htext := CallForm.eq_of_read? hread
  rw [htext] at hread hcode
  exact ⟨p, f, rest, by rw [htext], hread, rfl, isClear_of_startsStatement hstart, hcode⟩

theorem CallHead.IsWritten.isClear_front {h : CallHead} (hw : h.IsWritten) {p : Text}
    (hp : isClear p.getLast? = true) : isClear (p ++ h.front).getLast? = true := by
  unfold CallHead.front
  split
  · next b pad hb =>
    rcases List.eq_nil_or_concat' pad with rfl | ⟨front, c, rfl⟩
    · have htext : p ++ (b.text ++ []) = p ++ (letWord ++ (b.gap ++ (b.name ++ b.pad))) ++ ['='] := by
        simp [LetHead.text]
      rw [htext, List.getLast?_concat]
      decide
    · have hc := (hw.binding _ hb).2 c (by simp)
      rw [← List.append_assoc, ← List.append_assoc, List.getLast?_concat, isClear, Option.all_some,
        not_isWordChar_of_isBlank hc]
      rfl
  · rwa [List.append_nil]

theorem CallForm.exists_text_eq (f : CallForm) : ∃ u, f.text = f.head.text ++ u := by
  unfold CallForm.text
  split
  · exact ⟨_, rfl⟩
  · exact ⟨[], (List.append_nil _).symm⟩

/-! ### Calls inside calls -/

theorem byteLength_le_of_nested {m r i inside rest rest' : Text} {h : CallHead} (hw : h.IsWritten)
    (houter : Bracket.paren.inside? (m ++ (h.text ++ r)) = some (i, rest'))
    (hinner : Bracket.paren.inside? r = some (inside, rest))
    (hcode : Mode.code.CodeAfter m (h.text ++ r)) (hm : m.length ≤ i.length) :
    m.byteLength + (h.text.byteLength + (inside.byteLength + 1)) ≤ i.byteLength := by
  have hsplit : m ++ (h.text ++ r) = (i ++ [')']) ++ rest' := by
    rw [Bracket.eq_of_inside? houter, List.append_assoc]
    rfl
  obtain ⟨u, rfl⟩ := Text.append_prefix_of_not_mem hsplit (by simpa using Nat.lt_succ_of_le hm)
    (hw.not_mem_text (by decide) (by decide))
  have hr : r = u ++ ')' :: rest' := by
    simpa using hsplit
  -- the inner parenthesis opens in the outer arguments
  have hclosed : Bracket.paren.Closes 0 .code ((m ++ h.stem) ++ '(' :: u) rest' := by
    have := Bracket.closes_of_inside? houter
    rwa [h.text_eq, show m ++ (h.stem ++ ['(']) ++ u = (m ++ h.stem) ++ '(' :: u by simp] at this
  have hopen : Mode.code.CodeAfter (m ++ h.stem) ('(' :: (u ++ ')' :: rest')) := by
    rw [h.text_eq, List.append_assoc, hr] at hcode
    exact hcode.append (fun c hc => isInert_of_isHeadChar (hw.all_isHeadChar c hc))
      (List.forall_mem_singleton.mpr (by decide)) (by decide)
  obtain ⟨w, rfl⟩ := hclosed.nested hopen (Bracket.closes_of_inside? hinner)
    (hr.symm.trans (Bracket.eq_of_inside? hinner))
  have hone : Bracket.paren.closer.utf8Size = 1 := by decide
  simp only [Text.byteLength_append, Text.byteLength_cons]
  omega

/-- **A call that starts in another one** ends in it, if its parenthesis is closed. -/
theorem stop_le_of_start_le {p rest : Text} {f : CallForm} {inside : Text}
    (hinside : f.inside = some inside) (hread : CallForm.read? (f.text ++ rest) = some (f, rest))
    (hcode : Mode.code.CodeAfter p (f.text ++ rest)) {c : Call}
    (hc : .call c ∈ (p ++ (f.text ++ rest) : Text).statements) (hstart : c.start ≤ p.byteLength)
    (hstop : p.byteLength < c.stop) : p.byteLength + f.text.byteLength ≤ c.stop := by
  obtain ⟨q, g, rest', hbody, hread', rfl, -, hcode'⟩ := exists_form_of_call_mem_statements hc
  obtain ⟨r, hr, hw, hin, -⟩ := CallForm.exists_of_read? hread
  obtain ⟨r', hr', hw', hin', -⟩ := CallForm.exists_of_read? hread'
  rw [hinside, Option.map_some] at hin
  have hftext := CallForm.byteLength_text hinside
  -- the bytes of the places and their characters
  have hle : q.length ≤ p.length :=
    (Text.length_le_iff ⟨_, hbody.symm⟩ ⟨_, rfl⟩).mpr hstart
  have hlt : p.length < (q ++ g.text).length := by
    rw [← Nat.not_le, Text.length_le_iff ⟨rest', by rw [List.append_assoc, ← hbody]⟩ ⟨_, rfl⟩,
      Text.byteLength_append, Nat.not_le]
    exact hstop
  show _ ≤ q.byteLength + g.text.byteLength
  rw [hr, hr', f.head.text_eq, g.head.text_eq, List.append_assoc, List.append_assoc] at hbody
  change p ++ (f.head.stem ++ '(' :: r) = q ++ (g.head.stem ++ '(' :: r') at hbody
  by_cases hhead : p.length ≤ (q ++ g.head.stem).length
  · -- both heads end with the same parenthesis
    obtain ⟨hsame, rfl⟩ := Text.append_inj_of_not_mem hbody (hw.not_mem_stem (by decide))
      (hw'.not_mem_stem (by decide)) hle hhead
    rw [hin, eq_comm, Option.map_eq_some_iff] at hin'
    obtain ⟨i, hi, heq⟩ := hin'
    cases heq
    have hlen := congrArg Text.byteLength hsame
    rw [hftext, CallForm.byteLength_text hi, f.head.text_eq, g.head.text_eq]
    simp only [Text.byteLength_append] at hlen ⊢
    omega
  · -- the call starts in the arguments of the other one
    have hafter : (q ++ g.head.text).length ≤ p.length := by
      rw [g.head.text_eq, ← List.append_assoc, List.length_append, List.length_singleton]
      omega
    have hbody' : p ++ (f.head.text ++ r) = (q ++ g.head.text) ++ r' := by
      rw [f.head.text_eq, g.head.text_eq]
      simpa using hbody
    obtain ⟨m, rfl⟩ := List.prefix_of_prefix_length_le (hbody' ▸ List.prefix_append _ r')
      (List.prefix_append p (f.head.text ++ r)) hafter
    rw [List.append_assoc, List.append_cancel_left_eq] at hbody'
    cases hi : g.inside with
    | none =>
      simp only [CallForm.text, hi, List.length_append] at hlt
      omega
    | some i =>
      rw [hi, Option.map_some, ← hbody'] at hin'
      have hm : m.length ≤ i.length := by
        simp only [CallForm.text, hi, List.length_append, List.length_singleton] at hlt
        omega
      have hmode : Mode.code.run (q ++ g.head.text) (m ++ (f.head.text ++ r)).head? = .code := by
        rw [hr', ← hbody'] at hcode'
        exact hcode'.run_append hw'.isInert g.head.text_ne_nil
      have hnested := byteLength_le_of_nested hw hin' hin
        ((Mode.codeAfter_restart hmode).mp (hr ▸ hcode)) hm
      rw [hftext, CallForm.byteLength_text hi]
      simp only [Text.byteLength_append]
      omega

/-- Whether a statement is an arrow chain. -/
def Statement.isArrow : Statement → Bool
  | .call _ => false
  | .arrow _ => true

/-- A call that takes in a statement is no statement itself: it starts in an arrow chain. -/
theorem exists_chain_of_inside {p rest : Text} {f : CallForm} {inside : Text}
    (hinside : f.inside = some inside) (hread : CallForm.read? (f.text ++ rest) = some (f, rest))
    (hbinding : f.head.binding = none) (hcode : Mode.code.CodeAfter p (f.text ++ rest))
    (hclear : isClear p.getLast? = true) (hdot : p.getLast? ≠ some '.') {c : Call}
    (hc : .call c ∈ (p ++ (f.text ++ rest) : Text).statements) (hstart : p.byteLength < c.start)
    (hstop : c.start < p.byteLength + f.text.byteLength) :
    ∃ st ∈ (p ++ (f.text ++ rest) : Text).statements, st.isArrow ∧ st.start < p.byteLength ∧
      p.byteLength < st.stop := by
  have hcall : call? p.byteLength (f.text ++ rest) = some (f.place p.byteLength) := by
    rw [call?, hread]
    rfl
  have hstarts : (f.text ++ rest).head?.any (startsStatement p.getLast?) := by
    obtain ⟨u, hu⟩ := f.exists_text_eq
    rw [hu, CallHead.text_of_binding_eq_none hbinding]
    show startsStatement p.getLast? 'r' = true
    rw [startsStatement, Bool.and_eq_true]
    refine ⟨by decide +kernel, ?_⟩
    cases hp : p.getLast? with
    | none => rfl
    | some d =>
      rw [hp] at hclear hdot
      rw [Option.all_some, Bool.and_eq_true, bne_iff_ne]
      exact ⟨hclear, fun hd => hdot (congrArg some hd)⟩
  -- the order of the statement and another one
  have horder : ∀ st ∈ (p ++ (f.text ++ rest) : Text).statements, st = .call c ∨
      st.stop ≤ c.start ∨ c.stop ≤ st.start := fun st hst =>
    eq_or_or_of_pairwise (Text.pairwise_statements _) hst hc
  have hle : c.start ≤ c.stop := by
    obtain ⟨q, g, rest', -, -, rfl, -⟩ := exists_form_of_call_mem_statements hc
    exact Nat.le_add_right _ _
  rcases call_mem_statements_or hcode hstarts hcall with hmem | ⟨st, hst, hin⟩
  · rcases horder _ hmem with heq | hbefore | hafter
    · cases heq
      exact absurd hstart (Nat.lt_irrefl _)
    · exact absurd hbefore (Nat.not_le_of_lt hstop)
    · exact absurd (Nat.le_trans hle hafter) (Nat.not_le_of_lt hstart)
  · cases st with
    | arrow chain => exact ⟨_, hst, rfl, hin⟩
    | call d =>
      have hcovers := stop_le_of_start_le hinside hread hcode hst (Nat.le_of_lt hin.1) hin.2
      rcases horder _ hst with heq | hbefore | hafter
      · cases heq
        exact absurd hin.1 (Nat.not_lt_of_lt hstart)
      · exact absurd (Nat.le_trans hcovers hbefore) (Nat.not_le_of_lt hstop)
      · have := hin.1
        simp only [Statement.start] at hafter this
        omega

/-! ### Calls on a line -/

/-- A call stands on a line of a body, after the lines `older`. -/
structure Call.IsOn (c : Call) (body : Text) (older : List Text) (line : Text) : Prop where
  lines : ∃ newer, body.lines = older ++ line :: newer
  start_le : Text.byteLength older.flatten ≤ c.start
  lt_stop : c.start < Text.byteLength (older.flatten ++ line)

theorem Call.IsOn.unique {c : Call} {body line line' : Text} {older older' : List Text}
    (h : c.IsOn body older line) (h' : c.IsOn body older' line') : older = older' ∧ line = line' := by
  obtain ⟨newer, hlines⟩ := h.lines
  obtain ⟨newer', hlines'⟩ := h'.lines
  exact Text.line_unique hlines hlines' h.start_le h.lt_stop h'.start_le h'.lt_stop

/-- The head of a call of a body stands on its line, after the part `p` of the line. -/
structure Call.ReadOn (c : Call) (body : Text) (older : List Text) (line p : Text) (h : CallHead) :
    Prop where
  isWritten : h.IsWritten
  line_eq : ∃ s, line = p ++ (h.text ++ s)
  code : ∃ r, body = (older.flatten ++ p) ++ (h.text ++ r) ∧
    Mode.code.CodeAfter (older.flatten ++ p) (h.text ++ r)
  newline : '\n' ∉ p
  clear : isClear p.getLast? = true
  start : c.start = Text.byteLength (older.flatten ++ p)
  binding : c.binding = h.binding.map fun (b, _) => ⟨b.name, b.nameSpan c.start⟩
  module : c.module = h.run.module
  moduleSpan : c.moduleSpan =
    (h.run.moduleSpan (p ++ h.front).byteLength).shift (Text.byteLength older.flatten)

/-- **A call of a body** stands on a line, and is read there. -/
theorem exists_isOn {body : Text} {c : Call} (hc : .call c ∈ body.statements) :
    ∃ older line, c.IsOn body older line ∧ ∃ p h, c.ReadOn body older line p h := by
  obtain ⟨q, f, rest, hbody, hread, rfl, hclear, hcode⟩ := exists_form_of_call_mem_statements hc
  obtain ⟨r, hr, hw, -, -⟩ := CallForm.exists_of_read? hread
  rw [hr] at hbody hcode
  obtain ⟨older, line, newer, p, s, hlines, rfl, hline, -, hp⟩ :=
    Text.exists_line hbody f.head.text_ne_nil (hw.not_mem_text (by decide) (by decide))
  have hpos := Text.byteLength_pos f.head.text_ne_nil
  refine ⟨older, line, ⟨⟨newer, hlines⟩, ?_, ?_⟩, p, f.head, hw, ⟨s, hline⟩, ⟨r, hbody, hcode⟩, hp, ?_,
    rfl, rfl, rfl, ?_⟩
  · simp only [CallForm.place, Text.byteLength_append]
    omega
  · simp only [CallForm.place, hline, Text.byteLength_append]
    omega
  · by_cases hnil : p = []
    · rw [hnil]
      rfl
    · rwa [getLast?_append_of_ne_nil _ hnil] at hclear
  · ext
    · simp only [CallForm.place, RunHead.moduleSpan, Span.start_ofLength, Span.start_shift,
        Text.byteLength_append]
      omega
    · simp only [CallForm.place, RunHead.moduleSpan, Span.stop_ofLength, Span.stop_shift,
        Text.byteLength_append]
      omega

theorem Call.IsOn.exists_readOn {body line : Text} {c : Call} {older : List Text}
    (hon : c.IsOn body older line) (hc : .call c ∈ body.statements) :
    ∃ p h, c.ReadOn body older line p h := by
  obtain ⟨older', line', hon', hread⟩ := exists_isOn hc
  obtain ⟨rfl, rfl⟩ := hon.unique hon'
  exact hread

/-! ### Calls of a body and of a line -/

/-- A call of a line is no statement of the body: it comes right after a dot or in an arrow chain.
-/
def Call.IsAside (q : Call) (body : Text) (older : List Text) (line : Text) : Prop :=
  (line.codePart.splitAt? q.start).any (fun cut => cut.1.getLast? == some '.') ∨
    ∃ st ∈ body.statements, st.isArrow ∧ st.start < q.start + Text.byteLength older.flatten ∧
      q.start + Text.byteLength older.flatten < st.stop

/-- A call of a body is hidden on its line: it stands in the arguments of a call of the line that is
no statement. -/
def Call.Hidden (c : Call) (body : Text) (older : List Text) (line : Text) : Prop :=
  ∃ q ∈ line.codePart.lineCalls, q.IsAside body older line ∧
    ∃ args ∈ q.args, c.moduleSpan.Within (args.shift (Text.byteLength older.flatten))

instance (q : Call) (body : Text) (older : List Text) (line : Text) :
    Decidable (q.IsAside body older line) := inferInstanceAs (Decidable (_ ∨ _))

instance (c : Call) (body : Text) (older : List Text) (line : Text) :
    Decidable (c.Hidden body older line) :=
  inferInstanceAs (Decidable (∃ q ∈ line.codePart.lineCalls, q.IsAside body older line ∧
    ∃ args ∈ q.args, c.moduleSpan.Within (args.shift (Text.byteLength older.flatten))))

theorem Text.getLast?_older {body line : Text} {older newer : List Text}
    (h : body.lines = older ++ line :: newer) (p : Text) :
    (older.flatten ++ p).getLast? = p.getLast? ∨ (older.flatten ++ p).getLast? = some '\n' := by
  by_cases hp : p = []
  · rcases Text.flatten_older h with rfl | ⟨q, hq⟩
    · exact Or.inl rfl
    · rw [hp, List.append_nil, hq, List.getLast?_concat]
      exact Or.inr rfl
  · exact Or.inl (getLast?_append_of_ne_nil _ hp)

theorem CallForm.read?_text {f : CallForm} {inside rest : Text} (hinside : f.inside = some inside)
    (h : CallForm.read? (f.text ++ rest) = some (f, rest)) (rest' : Text) :
    CallForm.read? (f.text ++ rest') = some (f, rest') := by
  obtain ⟨r, -, hw, hin, -⟩ := CallForm.exists_of_read? h
  rw [hinside, Option.map_some] at hin
  have hr := Bracket.eq_of_inside? hin
  rw [hr] at hin
  have hread := CallForm.read?_append hw (Bracket.splitClosing_append hin rest')
  obtain ⟨head, inside'⟩ := f
  cases hinside
  simpa [CallForm.text, Bracket.closer] using hread

theorem CallHead.IsWritten.prefix_of_append {h : CallHead} (hw : h.IsWritten) {p b u : Text}
    {head : CallHead} (heq : p ++ h.front = b ++ (head.text ++ u)) : b ++ head.text <+: p := by
  rw [head.text_eq] at heq ⊢
  have hsplit : (b ++ head.stem) ++ '(' :: u = p ++ h.front := by
    rw [heq]
    simp
  have hparen : '(' ∉ h.front := fun hmem =>
    hw.not_mem_stem (c := '(') (by decide) (List.mem_append_left _ hmem)
  rcases List.append_eq_append_iff.mp hsplit with ⟨m, rfl, hm⟩ | ⟨m, -, hm⟩
  · cases m with
    | nil => exact absurd (by rw [← List.nil_append h.front, ← hm]; simp) hparen
    | cons d m =>
      rw [List.cons_append, List.cons.injEq] at hm
      exact ⟨m, by simpa using hm.1⟩
  · exact absurd (by rw [hm]; simp) hparen

/-- A call of a line with a statement in its arguments comes right after a dot or in an arrow chain
of the body. -/
theorem dot_or_chain_of_inside {body line : Text} {older newer : List Text}
    (hlines : body.lines = older ++ line :: newer)
    (hmode : ∀ next, Mode.code.run older.flatten next = .code) {b rest inside : Text} {f : CallForm}
    (hpart : line.codePart = b ++ (f.text ++ rest)) (hinside : f.inside = some inside)
    (hread : CallForm.read? (f.text ++ rest) = some (f, rest)) (hbinding : f.head.binding = none)
    (hcode : Mode.code.CodeAfter b (f.text ++ rest)) (hclear : isClear b.getLast? = true) {c : Call}
    (hc : .call c ∈ body.statements) (hstart : Text.byteLength (older.flatten ++ b) < c.start)
    (hstop : c.start < Text.byteLength (older.flatten ++ b) + f.text.byteLength) :
    b.getLast? = some '.' ∨ ∃ st ∈ body.statements, st.isArrow ∧
      st.start < Text.byteLength (older.flatten ++ b) ∧
      Text.byteLength (older.flatten ++ b) < st.stop := by
  refine or_iff_not_imp_left.mpr fun hdot => ?_
  obtain ⟨comment, hcomment⟩ := line.exists_codePart_append
  -- the call as it is read in the body
  have hbody : body = (older.flatten ++ b) ++ (f.text ++ (rest ++ (comment ++ newer.flatten))) := by
    rw [hpart] at hcomment
    rw [Text.eq_of_lines hlines, hcomment]
    simp
  obtain ⟨u, hu⟩ := f.exists_text_eq
  have hcode' : Mode.code.CodeAfter (older.flatten ++ b)
      (f.text ++ (rest ++ (comment ++ newer.flatten))) := by
    obtain ⟨-, -, hw, -⟩ := CallForm.exists_of_read? hread
    rw [Mode.codeAfter_restart (hmode _)]
    rw [hu, List.append_assoc] at hcode ⊢
    exact hcode.change_rest hw.isInert f.head.text_ne_nil _
  rw [hbody] at hc ⊢
  refine exists_chain_of_inside hinside (CallForm.read?_text hinside hread _) hbinding hcode' ?_ ?_ hc
    hstart hstop
  · rcases Text.getLast?_older hlines b with hlast | hlast
    · rwa [hlast]
    · rw [hlast]
      decide +kernel
  · rcases Text.getLast?_older hlines b with hlast | hlast
    · rwa [hlast]
    · rw [hlast]
      decide

theorem Call.ReadOn.hidden {body line p : Text} {c : Call} {older newer : List Text} {h : CallHead}
    (hread : c.ReadOn body older line p h) (hc : .call c ∈ body.statements)
    (hlines : body.lines = older ++ line :: newer)
    (hmode : ∀ next, Mode.code.run older.flatten next = .code) {b rest u w : Text} {f : CallForm}
    (heq : line.codePart = b ++ (f.text ++ rest))
    (hf : CallForm.read? (f.text ++ rest) = some (f, rest))
    (hmem : f.place b.byteLength ∈ line.codePart.lineCalls)
    (hin : f.inside = some (u ++ (h.run.text ++ w))) (hp : p ++ h.front = b ++ (f.head.text ++ u))
    (hclear : isClear b.getLast? = true) (hb : Mode.code.CodeAfter b (f.text ++ rest)) :
    c.Hidden body older line := by
  have hargs : (.ofLength (b.byteLength + f.head.text.byteLength)
      (u ++ (h.run.text ++ w)).byteLength) ∈ (f.place b.byteLength).args := by
    rw [CallForm.place, hin]
    rfl
  have hbinding : f.head.binding = none := by
    have := binding_eq_none_of_mem_lineCalls hmem
    rwa [CallForm.place, Option.map_eq_none_iff] at this
  -- where the heads and what is between them end
  obtain ⟨m, hm⟩ := hread.isWritten.prefix_of_append hp
  have hbefore := congrArg Text.byteLength hm
  have hbetween := congrArg Text.byteLength hp
  have hpos := Text.byteLength_pos f.head.text_ne_nil
  have hftext := CallForm.byteLength_text hin
  simp only [Text.byteLength_append] at hbefore hbetween hftext
  refine ⟨_, hmem, ?_, _, hargs, ?_⟩
  · have hstart := hread.start
    rw [Text.byteLength_append] at hstart
    rcases dot_or_chain_of_inside hlines hmode heq hin hf hbinding hb hclear hc
        (by rw [Text.byteLength_append]; omega) (by rw [Text.byteLength_append]; omega) with
      hdot | hchain
    · refine Or.inl ?_
      rw [heq, show (f.place b.byteLength).start = b.byteLength from rfl, Text.splitAt?_append]
      simp [hdot]
    · rw [Text.byteLength_append, Nat.add_comm] at hchain
      exact Or.inr hchain
  · rw [hread.moduleSpan]
    simp only [Span.Within, RunHead.moduleSpan, RunHead.text, Span.start_shift, Span.stop_shift,
      Span.start_ofLength, Span.stop_ofLength, Text.byteLength_append]
    omega

/-- **A call of a body** is a call of its line, if the line does not start in a string, or it is
hidden. -/
theorem lineCall_or_hidden {body : Text} {c : Call} (hc : .call c ∈ body.statements)
    {older : List Text} {line : Text} (hon : c.IsOn body older line)
    (hstring : ¬ body.StartsInString older) :
    (∃ q ∈ line.codePart.lineCalls, q.module = c.module ∧
      q.moduleSpan.shift (Text.byteLength older.flatten) = c.moduleSpan) ∨
    c.Hidden body older line := by
  obtain ⟨p, h, hread⟩ := hon.exists_readOn hc
  obtain ⟨newer, hlines⟩ := hon.lines
  obtain ⟨s, hline⟩ := hread.line_eq
  obtain ⟨r, hbody, hcode⟩ := hread.code
  have hw := hread.isWritten
  -- the line is read from code on
  have hmode : ∀ next, Mode.code.run older.flatten next = .code := fun next =>
    (Text.run_older hlines next).2 hstring
  have hcode' := (Mode.codeAfter_restart (hmode _)).mp hcode
  obtain ⟨s', hpart⟩ := Text.exists_codePart_eq hread.newline
    (hw.not_mem_text (by decide) (by decide)) hw.isInert h.text_ne_nil
    (hcode'.change_rest hw.isInert h.text_ne_nil s)
  rw [← hline, CallHead.text, List.append_assoc, ← List.append_assoc] at hpart
  have hrun := hw.codeAfter_front (hcode'.change_rest hw.isInert h.text_ne_nil s')
  have hinside := lineCall_or_inside hw.run hrun (hw.isClear_front hread.clear)
  rw [← hpart] at hinside
  rcases hinside with ⟨f, rest, -, hf, hmem⟩ | ⟨b, f, rest, u, w, heq, hf, hmem, hin, hp, hclear, hb⟩
  · refine Or.inl ⟨_, hmem, ?_, ?_⟩
    · rw [hread.module, CallForm.place, hf]
    · rw [hread.moduleSpan, CallForm.place, hf]
      rfl
  · exact Or.inr (hread.hidden hc hlines hmode heq hf hmem hin hp hclear hb)

/-! ### Calls that no line has -/

theorem RunHead.eq_of_start_moduleSpan {t p q : Text} {h k : RunHead} (hh : h.IsWritten)
    (hk : k.IsWritten) (hp : p ++ h.text <+: t) (hq : q ++ k.text <+: t)
    (heq : (h.moduleSpan p.byteLength).start = (k.moduleSpan q.byteLength).start) : p = q := by
  have hfront : ∀ (p : Text) (h : RunHead), p ++ h.text <+: t → p ++ runWord ++ h.gap <+: t := by
    intro p h hpre
    refine List.IsPrefix.trans ⟨h.module ++ (h.pad ++ ['(']), ?_⟩ hpre
    simp [RunHead.text]
  simp only [RunHead.moduleSpan, Span.start_ofLength, Text.byteLength_append] at heq
  have hsame := Text.eq_of_byteLength_eq (hfront p h hp) (hfront q k hq) (by
    simp only [Text.byteLength_append]
    omega)
  have hwords := append_inj_of_getLast? hsame hh.gap hk.gap
    (any_getLast?_append (by decide) not_isBlank_of_mem_runWord)
    (any_getLast?_append (by decide) not_isBlank_of_mem_runWord)
  exact List.append_cancel_right hwords.1

/-- **On a line that starts in a string** no call of the body is read. -/
theorem moduleSpan_ne_of_string {body line : Text} {c : Call} (hc : .call c ∈ body.statements)
    {older : List Text} (hon : c.IsOn body older line) (hstring : body.StartsInString older)
    {q : Call} (hq : q ∈ line.codePart.lineCalls) :
    q.moduleSpan.shift (Text.byteLength older.flatten) ≠ c.moduleSpan := by
  intro hspan
  obtain ⟨p, h, hread⟩ := hon.exists_readOn hc
  obtain ⟨newer, hlines⟩ := hon.lines
  obtain ⟨s, hline⟩ := hread.line_eq
  obtain ⟨r, -, hcode⟩ := hread.code
  have hw := hread.isWritten
  obtain ⟨b, f, rest, hpart, hf, hbinding, rfl, -, hb⟩ := exists_of_mem_lineCalls hq
  obtain ⟨t, hft, hfw, -⟩ := CallForm.exists_of_read? hf
  rw [CallHead.text_of_binding_eq_none hbinding] at hft
  rw [hft] at hpart hb
  -- both run heads stand at the same place of the line
  have hsame : b = p ++ h.front := by
    refine RunHead.eq_of_start_moduleSpan hfw.run hw.run (t := line) ?_ ?_ ?_
    · obtain ⟨comment, hcomment⟩ := line.exists_codePart_append
      rw [hpart] at hcomment
      exact ⟨t ++ comment, by rw [hcomment]; simp⟩
    · exact ⟨s, by rw [hline, CallHead.text]; simp⟩
    · have hstart := congrArg Span.start (hspan.trans hread.moduleSpan)
      simp only [CallForm.place, Span.start_shift, CallHead.front, hbinding] at hstart
      exact Nat.add_right_cancel hstart
  have hstr : Mode.string.CodeAfter (p ++ h.front) (h.run.text ++ r) := by
    rw [Mode.codeAfter_append, (Text.run_older hlines _).1 hstring] at hcode
    exact hw.codeAfter_front hcode
  have hnewline : '\n' ∉ p ++ h.front := by
    rw [List.mem_append, not_or]
    exact ⟨hread.newline, fun hmem =>
      hw.not_mem_text (c := '\n') (by decide) (by decide) (List.mem_append_left _ hmem)⟩
  rw [hsame] at hb
  exact Mode.not_codeAfter_of_string hnewline (c := 'r') (by decide) (by decide) hstr hb

/-- **A hidden call** is no call of its line. -/
theorem Call.Hidden.moduleSpan_ne {body line : Text} {c : Call} {older : List Text}
    (h : c.Hidden body older line) {q : Call} (hq : q ∈ line.codePart.lineCalls) :
    q.moduleSpan.shift (Text.byteLength older.flatten) ≠ c.moduleSpan := by
  intro hspan
  obtain ⟨outer, houter, -, args, hargs, hwithin⟩ := h
  rw [← hspan, Span.Within] at hwithin
  simp only [Span.start_shift, Span.stop_shift] at hwithin
  have horder := eq_or_or_of_pairwise line.codePart.pairwise_lineCalls hq houter
  obtain ⟨b, f, rest, -, hf, -, rfl, -⟩ := exists_of_mem_lineCalls hq
  obtain ⟨b', f', rest', -, -, -, rfl, -⟩ := exists_of_mem_lineCalls houter
  have hpos : (f.place b.byteLength).moduleSpan.start < (f.place b.byteLength).moduleSpan.stop := by
    obtain ⟨-, -, hw, -⟩ := CallForm.exists_of_read? hf
    have := Text.byteLength_pos hw.run.module.ne_nil
    simp only [CallForm.place, RunHead.moduleSpan, Span.start_ofLength, Span.stop_ofLength]
    omega
  obtain ⟨hstart, hmodule, -⟩ := f.place_spans b.byteLength
  obtain ⟨hstart', hmodule', hargs'⟩ := f'.place_spans b'.byteLength
  have := hargs' args hargs
  have := (f'.place b'.byteLength).moduleSpan.start_le_stop
  rcases horder with heq | hbefore | hafter
  · rw [heq] at hwithin hpos
    omega
  · omega
  · omega

end PipelineDoc
