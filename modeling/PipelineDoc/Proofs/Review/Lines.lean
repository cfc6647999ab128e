import Mathlib.Data.List.Infix
import PipelineDoc.Proofs.Lexical.Lines
import PipelineDoc.Proofs.Review.Places
import PipelineDoc.Proofs.Statement.LineCalls
import PipelineDoc.Proofs.Statement.Order

/-!
# The review of a pipeline, line by line

A review passes the lines of a body with a scope and a count of braces. `lineReports` says what is
wrong with one line without either: it looks at the line and at the lines before it. The review
gives these reports for the lines before the count falls below zero (`pipelineFindings_eq`), and the
count does not fall below zero as long as no newline is part of a string, since the braces of a body
balance (`braceDepth_nonneg`). Main statement: `pipelineFindings_by_lines`.
-/

namespace PipelineDoc

/-! ### Braces -/

/-- The braces that lines open and do not close, each line read from code on. -/
def braceDepth : List Text → Int
  | [] => 0
  | line :: lines => (line.codeBraces.1 : Int) - line.codeBraces.2 + braceDepth lines

theorem braceDepth_concat (lines : List Text) (line : Text) :
    braceDepth (lines ++ [line]) = braceDepth lines + line.codeBraces.1 - line.codeBraces.2 := by
  induction lines with
  | nil =>
    simp only [List.nil_append, braceDepth]
    omega
  | cons first lines ih =>
    rw [List.cons_append, braceDepth, ih, braceDepth]
    omega

theorem braceDepth_eq (lines : List Text) :
    braceDepth lines = ((lines.flatMap Text.codeChars).count '{' : Int) -
      (lines.flatMap Text.codeChars).count '}' := by
  induction lines with
  | nil => rfl
  | cons line lines ih =>
    rw [braceDepth, ih, List.flatMap_cons, List.count_append, List.count_append, Text.codeBraces]
    push_cast
    omega

/-- **No line closes more braces than were opened** in a body, up to a line before which no newline
is part of a string. -/
theorem braceDepth_nonneg {body rest line : Text} {older newer : List Text}
    (hbody : Bracket.brace.Closes 0 .code body rest) (h : body.lines = older ++ line :: newer)
    (hnone : ('\n', Label.string) ∉ older.flatten.zip body.labels) :
    0 ≤ braceDepth (older ++ [line]) := by
  have hsplit := Text.eq_of_lines h
  rw [← List.append_assoc] at hsplit
  -- the code of the lines is the code of the front of the body
  have hcode : (older ++ [line]).flatMap Text.codeChars =
      Mode.code.codeChars (older.flatten ++ line) newer.flatten.head? := by
    rw [← Mode.filterMap_zip_labels, ← hsplit, ← Text.labels, ← Text.zip_labels_lines h hnone,
      List.filterMap_flatMap]
    rfl
  have hnext : Mode.code.codeChars (older.flatten ++ line)
        (newer.flatten ++ Bracket.brace.closer :: rest).head? =
      Mode.code.codeChars (older.flatten ++ line) newer.flatten.head? := by
    cases newer.flatten with
    | nil => exact Mode.codeChars_next _ _ (by simp [Bracket.closer])
    | cons c t => rfl
  have hle := hbody.count_le _ _ hsplit
  rw [hnext, ← hcode, Nat.zero_add] at hle
  rw [braceDepth_eq]
  exact Int.sub_nonneg_of_le (Int.ofNat_le.mpr hle)

/-! ### Names -/

/-- Whether the code of a line starts with a binding of a name. -/
def Text.binds (line name : Text) : Bool := line.codePart.binding?.any fun b => b.name == name

/-- Whether a name can be used on a line: it is `input`, or that line or one before it binds it. -/
def isBoundOn (lines : List Text) (name : Text) : Bool :=
  name == inputWord || lines.any fun line => line.binds name

theorem Scope.binds_afterLine_eq {scope : Scope} {older : List Text}
    (hscope : ∀ name, scope.binds name = isBoundOn older name) (line name : Text) :
    (scope.afterLine line.codePart).binds name = isBoundOn (older ++ [line]) name := by
  have hname := hscope name
  simp only [isBoundOn, List.any_append, List.any_cons, List.any_nil, Bool.or_false,
    Text.binds] at hname ⊢
  unfold Scope.afterLine
  split
  · next binding hb =>
    rw [hb, Option.any_some, ← Bool.or_assoc, ← hname, Scope.binds, Scope.bind, Scope.binds,
      List.contains_cons, Bool.or_comm, Bool.beq_comm]
  · next hb => rw [hb, Option.any_none, Bool.or_false, hname]

/-! ### Reports -/

/-- What is wrong with the closed arguments of a call on a line of code that stands at an offset:
the references to names that cannot be used on the last of the lines `lines`. -/
def argumentReports (pipeline : Text) (offset : Nat) (lines : List Text) (code : Text)
    (call : Call) : List Finding :=
  call.args.toList.flatMap fun args =>
    ((code.slice args).references.filter fun r => !isBoundOn lines r.root).map fun r =>
      .unknownVariable r.root pipeline (r.rootSpan.shift (offset + args.start))

/-- What is wrong with a call: its module, if it is not known, and its arguments. -/
def callReports (known : List Text) (pipeline : Text) (offset : Nat) (lines : List Text)
    (code : Text) (call : Call) : List Finding :=
  (if call.module ∈ known then [] else
    [.unknownModule call.module (call.moduleSpan.shift offset)]) ++
  argumentReports pipeline offset lines code call

/-- What is wrong with a line of a body that starts at `start`, by the line and those before it. -/
def lineReports (known : List Text) (pipeline : Text) (start : Nat) (older : List Text)
    (line : Text) : List Finding :=
  line.codePart.lineCalls.flatMap
    (callReports known pipeline (start + Text.byteLength older.flatten) (older ++ [line]) line.codePart)

theorem callFindings_eq {known : List Text} {scope : Scope} {pipeline : Text} {offset : Nat}
    {lines : List Text} (hscope : ∀ name, scope.binds name = isBoundOn lines name) (code : Text)
    (call : Call) :
    callFindings known scope pipeline offset code call =
      callReports known pipeline offset lines code call := by
  have hreference : ∀ at_ r, referenceFinding? scope pipeline at_ r =
      if (!isBoundOn lines r.root) = true then
        some (.unknownVariable r.root pipeline (r.rootSpan.shift at_)) else none := by
    intro at_ r
    rw [referenceFinding?, hscope]
    cases isBoundOn lines r.root <;> rfl
  have hmodule : known.contains call.module = true ↔ call.module ∈ known := by simp
  simp only [callFindings, callReports, argumentReports, hmodule]
  congr 1
  cases call.args with
  | none => rfl
  | some args =>
    simp only [Option.toList_some, List.flatMap_singleton]
    rw [← List.filterMap_eq_map, List.filterMap_filter]
    exact List.filterMap_congr fun r _ => hreference _ r

theorem zip_inits_cons (older : List Text) (line : Text) (lines : List Text) :
    ((line :: lines).inits.map (older ++ ·)).zip (line :: lines) =
      (older, line) :: (lines.inits.map ((older ++ [line]) ++ ·)).zip lines := by
  simp [Function.comp_def]

/-- The cuts of a body at its lines: each line with the lines before it. -/
def Text.lineCuts (body : Text) : List (List Text × Text) := body.lines.inits.zip body.lines

/-- **The lines of a body** are reported one by one, up to the first that closes more braces than
were opened. -/
theorem lineFindings_eq (known : List Text) (pipeline : Text) (start : Nat) {older : List Text}
    {scope : Scope} (hscope : ∀ name, scope.binds name = isBoundOn older name) (lines : List Text) :
    lineFindings known pipeline (start + Text.byteLength older.flatten) (braceDepth older) scope lines =
      (((lines.inits.map (older ++ ·)).zip lines).takeWhile fun cut =>
        decide (0 ≤ braceDepth (cut.1 ++ [cut.2]))).flatMap fun cut =>
          lineReports known pipeline start cut.1 cut.2 := by
  induction lines generalizing older scope with
  | nil => rfl
  | cons line lines ih =>
    have hscope' := Scope.binds_afterLine_eq hscope line
    have hdepth := braceDepth_concat older line
    have hoffset : start + Text.byteLength older.flatten + line.byteLength =
        start + Text.byteLength (older ++ [line]).flatten := by
      simp [Nat.add_assoc]
    simp only [lineFindings]
    rw [zip_inits_cons, ← hdepth, hoffset, ih hscope']
    by_cases hneg : braceDepth (older ++ [line]) < 0
    · rw [if_pos hneg, List.takeWhile_cons_of_neg (by simpa using hneg), List.flatMap_nil]
    · rw [if_neg hneg, List.takeWhile_cons_of_pos (by simpa using hneg), List.flatMap_cons]
      congr 1
      exact List.flatMap_congr fun call _ => callFindings_eq hscope' line.codePart call

/-- The lines that a review comes to: before and on them the braces do not close more than was
opened. -/
def Text.reached (body : Text) : List (List Text × Text) :=
  body.lineCuts.takeWhile fun cut => decide (0 ≤ braceDepth (cut.1 ++ [cut.2]))

theorem pipelineFindings_eq (source : Text) (known : List Text) (d : Declaration) :
    pipelineFindings source known d = (d.content source).reached.flatMap fun cut =>
      lineReports known d.name d.body.start cut.1 cut.2 := by
  have hscope : ∀ name, Scope.binds .initial name = isBoundOn [] name := by
    intro name
    rw [Scope.binds, Scope.initial, List.contains_cons]
    rfl
  have h := lineFindings_eq known d.name d.body.start hscope (d.content source).lines
  simp only [List.nil_append, List.map_id'] at h
  exact h

/-! ### Cuts -/

theorem mem_takeWhile_cuts {P : List Text × Text → Bool} {base lines : List Text}
    {cut : List Text × Text} :
    cut ∈ ((lines.inits.map (base ++ ·)).zip lines).takeWhile P ↔
      ∃ older newer, lines = older ++ cut.2 :: newer ∧ cut.1 = base ++ older ∧
        ∀ front l, front ++ [l] <+: older ++ [cut.2] → P (base ++ front, l) := by
  induction lines generalizing base with
  | nil => simp
  | cons line lines ih =>
    rw [zip_inits_cons]
    by_cases hP : P (base, line) = true
    · rw [List.takeWhile_cons_of_pos hP, List.mem_cons, ih]
      constructor
      · rintro (rfl | ⟨older, newer, rfl, hcut, hall⟩)
        · refine ⟨[], lines, rfl, (List.append_nil base).symm, fun front l hpre => ?_⟩
          cases front with
          | nil =>
            obtain rfl : l = line := by simpa using hpre
            simpa using hP
          | cons f front => simp at hpre
        · refine ⟨line :: older, newer, rfl, by simpa using hcut, fun front l hpre => ?_⟩
          cases front with
          | nil =>
            obtain rfl : l = line := by simpa [List.cons_prefix_cons] using hpre
            simpa using hP
          | cons f front =>
            rw [List.cons_append, List.cons_append, List.cons_prefix_cons] at hpre
            rw [hpre.1]
            simpa using hall front l hpre.2
      · rintro ⟨older, newer, hlines, hcut, hall⟩
        cases older with
        | nil =>
          rw [List.nil_append, List.cons.injEq] at hlines
          rw [List.append_nil] at hcut
          exact Or.inl (Prod.ext hcut hlines.1.symm)
        | cons l older =>
          rw [List.cons_append, List.cons.injEq] at hlines
          obtain ⟨rfl, rfl⟩ := hlines
          refine Or.inr ⟨older, newer, rfl, by simpa using hcut, fun front m hpre => ?_⟩
          simpa using hall (line :: front) m ((List.prefix_cons_inj _).mpr hpre)
    · rw [List.takeWhile_cons_of_neg hP]
      refine iff_of_false List.not_mem_nil ?_
      rintro ⟨older, newer, hlines, -, hall⟩
      refine hP ?_
      have hfirst : [line] <+: older ++ [cut.2] := by
        cases older with
        | nil =>
          rw [List.nil_append, List.cons.injEq] at hlines
          simp [hlines.1]
        | cons l older =>
          rw [List.cons_append, List.cons.injEq] at hlines
          simp [hlines.1]
      simpa using hall [] line hfirst

theorem Text.mem_lineCuts {body : Text} {cut : List Text × Text} :
    cut ∈ body.lineCuts ↔ ∃ newer, body.lines = cut.1 ++ cut.2 :: newer := by
  have h : cut ∈ ((body.lines.inits.map ([] ++ ·)).zip body.lines).takeWhile (fun _ => true) ↔ _ :=
    mem_takeWhile_cuts
  rw [List.takeWhile_eq_self_iff.mpr fun _ _ => rfl] at h
  simp only [List.nil_append, List.map_id', implies_true, and_true] at h
  rw [Text.lineCuts, h]
  constructor
  · rintro ⟨_, newer, hlines, rfl⟩
    exact ⟨newer, hlines⟩
  · rintro ⟨newer, hlines⟩
    exact ⟨cut.1, newer, hlines, rfl⟩

theorem Text.mem_reached {body line : Text} {older : List Text} :
    (older, line) ∈ body.reached ↔ (∃ newer, body.lines = older ++ line :: newer) ∧
      ∀ front, front <+: older ++ [line] → 0 ≤ braceDepth front := by
  have h : (older, line) ∈ ((body.lines.inits.map ([] ++ ·)).zip body.lines).takeWhile
      (fun cut => decide (0 ≤ braceDepth (cut.1 ++ [cut.2]))) ↔ _ := mem_takeWhile_cuts
  simp only [List.nil_append, List.map_id', decide_eq_true_eq] at h
  rw [Text.reached, Text.lineCuts, h]
  constructor
  · rintro ⟨_, newer, hlines, rfl, hall⟩
    refine ⟨⟨newer, hlines⟩, fun front hfront => ?_⟩
    rcases List.eq_nil_or_concat' front with rfl | ⟨front, l, rfl⟩
    · exact Int.le_refl 0
    · exact hall front l hfront
  · rintro ⟨⟨newer, hlines⟩, hall⟩
    exact ⟨older, newer, hlines, rfl, fun front l hpre => hall _ hpre⟩

/-! ### Places of reports -/

/-- The root of a reference lies at its start, and the reference in its argument text. -/
theorem rootSpan_of_mem_references {args : Text} {r : Reference} (hr : r ∈ args.references) :
    r.rootSpan.start = r.span.start ∧ r.rootSpan.stop ≤ r.span.stop ∧
      r.span.stop ≤ args.byteLength := by
  have hpath := (standsIn_of_mem_references hr).path
  have hstop := Text.stop_le_of_slice? hpath
  obtain ⟨p, q, -, -, hlen⟩ := Text.slice?_eq_some_iff.mp hpath
  have hroot : r.root.byteLength ≤ r.path.byteLength := by
    have := Text.byteLength_takeWhile_add_dropWhile (· != '.') r.path
    rw [Reference.root, pathRoot]
    omega
  have hle := r.span.start_le_stop
  rw [Span.length] at hlen
  refine ⟨rfl, ?_, hstop⟩
  rw [Reference.rootSpan, Span.stop_ofLength]
  omega

theorem pairwise_argumentReports {code : Text} {q : Call} (hq : q.StandsIn code) (pipeline : Text)
    (offset : Nat) (lines : List Text) :
    (∀ f ∈ argumentReports pipeline offset lines code q, ∃ args ∈ q.args,
        offset + args.start ≤ f.span.start ∧ f.span.stop ≤ offset + args.stop) ∧
      (argumentReports pipeline offset lines code q).Pairwise fun f g => f.span.Before g.span := by
  rw [argumentReports]
  cases hargs : q.args with
  | none => exact ⟨fun _ hf => absurd hf List.not_mem_nil, List.Pairwise.nil⟩
  | some args =>
    obtain ⟨_, _, -, -, hlen⟩ := Text.slice?_eq_some_iff.mp (hq.args args hargs)
    have hle := args.start_le_stop
    rw [Span.length] at hlen
    rw [Option.toList_some, List.flatMap_singleton]
    refine ⟨?_, List.pairwise_map.mpr ?_⟩
    · intro f hf
      obtain ⟨r, hr, rfl⟩ := List.mem_map.mp hf
      obtain ⟨hstart, hstop, hin⟩ := rootSpan_of_mem_references (List.mem_of_mem_filter hr)
      refine ⟨args, rfl, ?_, ?_⟩
      · rw [Finding.span, Span.start_shift]
        omega
      · rw [Finding.span, Span.stop_shift]
        omega
    · refine List.Pairwise.imp_of_mem ?_ ((code.slice args).pairwise_references.filter _)
      intro r s hr hs hrs
      have hr' := rootSpan_of_mem_references (List.mem_of_mem_filter hr)
      have hs' := rootSpan_of_mem_references (List.mem_of_mem_filter hs)
      rw [Span.Before, Finding.span, Finding.span, Span.stop_shift, Span.start_shift]
      omega

theorem pairwise_callReports {code : Text} {q : Call} (hq : q ∈ code.lineCalls) (known : List Text)
    (pipeline : Text) (offset : Nat) (lines : List Text) :
    (∀ f ∈ callReports known pipeline offset lines code q,
        offset + q.start ≤ f.span.start ∧ f.span.stop ≤ offset + q.stop) ∧
      (callReports known pipeline offset lines code q).Pairwise fun f g => f.span.Before g.span := by
  obtain ⟨hin, hpair⟩ :=
    pairwise_argumentReports (standsIn_of_mem_lineCalls hq) pipeline offset lines
  obtain ⟨p, form, rest, -, -, -, rfl, -⟩ := exists_of_mem_lineCalls hq
  obtain ⟨hstart, hmodule, hargs⟩ := form.place_spans p.byteLength
  generalize form.place p.byteLength = q at *
  have hle := q.moduleSpan.start_le_stop
  have hfirst : ∀ f ∈ (if q.module ∈ known then [] else
      [Finding.unknownModule q.module (q.moduleSpan.shift offset)]),
      f.span = q.moduleSpan.shift offset := by
    intro f hf
    split at hf
    · cases hf
    · rw [List.mem_singleton.mp hf]
      rfl
  refine ⟨fun f hf => ?_, List.pairwise_append.mpr ⟨?_, hpair, fun f hf g hg => ?_⟩⟩
  · rcases List.mem_append.mp hf with hf | hf
    · rw [hfirst f hf, Span.start_shift, Span.stop_shift]
      omega
    · obtain ⟨args, ha, hargs_in⟩ := hin f hf
      have := hargs args ha
      omega
  · split
    · exact List.Pairwise.nil
    · exact List.pairwise_singleton _ _
  · obtain ⟨args, ha, hargs_in⟩ := hin g hg
    have := hargs args ha
    rw [Span.Before, hfirst f hf, Span.stop_shift]
    omega

theorem pairwise_lineReports (known : List Text) (pipeline : Text) (start : Nat)
    (older : List Text) (line : Text) :
    (∀ f ∈ lineReports known pipeline start older line,
        start + Text.byteLength older.flatten ≤ f.span.start ∧
          f.span.stop ≤ start + Text.byteLength (older ++ [line]).flatten) ∧
      (lineReports known pipeline start older line).Pairwise fun f g => f.span.Before g.span := by
  refine ⟨fun f hf => ?_, List.pairwise_flatMap.mpr ⟨fun q hq => (pairwise_callReports hq ..).2, ?_⟩⟩
  · obtain ⟨q, hq, hf⟩ := List.mem_flatMap.mp hf
    have hin := (pairwise_callReports hq ..).1 f hf
    have hstop := stop_le_of_mem_lineCalls hq
    obtain ⟨comment, hline⟩ := line.exists_codePart_append
    have hlen := congrArg Text.byteLength hline
    rw [Text.byteLength_append] at hlen
    rw [List.flatten_append, List.flatten_singleton, Text.byteLength_append]
    omega
  · refine List.Pairwise.imp_of_mem ?_ line.codePart.pairwise_lineCalls
    intro q r hq hr hqr f hf g hg
    have hf' := (pairwise_callReports hq ..).1 f hf
    have hg' := (pairwise_callReports hr ..).1 g hg
    rw [Span.Before]
    omega

theorem Text.pairwise_lineCuts (body : Text) :
    body.lineCuts.Pairwise fun cut cut' => cut.1 ++ [cut.2] <+: cut'.1 := by
  suffices h : ∀ base lines : List Text, ((lines.inits.map (base ++ ·)).zip lines).Pairwise
      fun cut cut' => cut.1 ++ [cut.2] <+: cut'.1 by
    have h := h [] body.lines
    simp only [List.nil_append, List.map_id'] at h
    exact h
  intro base lines
  induction lines generalizing base with
  | nil => simp
  | cons line lines ih =>
    rw [zip_inits_cons]
    refine List.Pairwise.cons (fun cut hcut => ?_) (ih (base ++ [line]))
    obtain ⟨older, -, hcut⟩ := List.mem_map.mp (List.of_mem_zip hcut).1
    exact hcut ▸ List.prefix_append _ _

/-- **Findings come one after the other.** -/
theorem pairwise_pipelineFindings (source : Text) (known : List Text) (d : Declaration) :
    (pipelineFindings source known d).Pairwise fun f g => f.span.Before g.span := by
  rw [pipelineFindings_eq]
  refine List.pairwise_flatMap.mpr ⟨fun cut _ => (pairwise_lineReports ..).2, ?_⟩
  have hcuts := (d.content source).pairwise_lineCuts.sublist
    (List.takeWhile_sublist fun cut => decide (0 ≤ braceDepth (cut.1 ++ [cut.2])))
  refine hcuts.imp fun {cut cut'} hpre f hf g hg => ?_
  have hf' := (pairwise_lineReports ..).1 f hf
  have hg' := (pairwise_lineReports ..).1 g hg
  obtain ⟨m, hm⟩ := hpre
  rw [← hm, List.flatten_append, Text.byteLength_append] at hg'
  rw [Span.Before]
  omega

/-! ### Bodies without newlines in strings -/

/-- **The review of a pipeline by its lines.** In a body in which no newline is part of a string,
the labels of the lines are those of the body, no line closes more braces than were opened, and the
review reports exactly what is wrong with each line, by that line and those before it; no two
reports overlap. -/
theorem pipelineFindings_by_lines (source : Text) (known : List Text) {d : Declaration}
    (hd : d ∈ source.declarations)
    (hnone : ('\n', Label.string) ∉ (d.content source).zip (d.content source).labels) :
    (d.content source).lines.flatMap Text.byteLabels = (d.content source).byteLabels ∧
    (∀ front, front <+: (d.content source).lines → 0 ≤ braceDepth front) ∧
    (pipelineFindings source known d = (d.content source).lineCuts.flatMap fun cut =>
      lineReports known d.name d.body.start cut.1 cut.2) ∧
    (pipelineFindings source known d).Pairwise fun f g => f.span.Before g.span := by
  obtain ⟨_, rest, hinside⟩ := exists_inside?_content hd
  have hclosed := Bracket.closes_of_inside? hinside
  have hdepth : ∀ front, front <+: (d.content source).lines → 0 ≤ braceDepth front := by
    rintro front ⟨newer, hlines⟩
    rcases List.eq_nil_or_concat' front with rfl | ⟨older, line, rfl⟩
    · exact Int.le_refl 0
    · rw [List.append_assoc] at hlines
      have hsplit := Text.eq_of_lines hlines.symm
      refine braceDepth_nonneg hclosed hlines.symm fun hmem => ?_
      exact hnone (Text.mem_zip_mono ⟨_, hsplit.symm⟩ hmem)
  have hreached : (d.content source).reached = (d.content source).lineCuts := by
    refine List.takeWhile_eq_self_iff.mpr fun cut hcut => decide_eq_true (hdepth _ ?_)
    obtain ⟨newer, hlines⟩ := Text.mem_lineCuts.mp hcut
    exact ⟨newer, by rw [hlines]; simp⟩
  refine ⟨Text.flatMap_byteLabels_lines hnone, hdepth, ?_, pairwise_pipelineFindings source known d⟩
  rw [pipelineFindings_eq, hreached]

/-- A brace in a string and one in a comment do not count, and a binding is in force on its own
line. -/
theorem pipelineFindings_by_lines_binding :
    let source := "pipeline \"p\" \x7b\n  let a = run m(a, \"\x7d\") // \x7b\n  run n(b.c)\n\x7d".toList
    let d : Declaration := ⟨.pipeline, ['p'], .ofLength 10 1, .ofLength 0 8, .ofLength 14 43⟩
    d ∈ Text.declarations source ∧
      ('\n', Label.string) ∉ (d.content source).zip (d.content source).labels ∧
      pipelineFindings source [['m']] d =
        [.unknownModule ['n'] (.ofLength 50 1), .unknownVariable ['b'] ['p'] (.ofLength 52 1)] := by
  intro source d
  have hd : d ∈ Text.declarations source := by decide +kernel
  have hnone : ('\n', Label.string) ∉ (d.content source).zip (d.content source).labels := by
    decide +kernel
  refine ⟨hd, hnone, ?_⟩
  rw [(pipelineFindings_by_lines source [['m']] hd hnone).2.2.1]
  decide +kernel

end PipelineDoc
