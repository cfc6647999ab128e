import PipelineDoc.Proofs.Graph.Dependencies
import PipelineDoc.Proofs.Review.Reports
import PipelineDoc.Proofs.Statement.Hidden

/-!
# Names that the graph resolves

The dependency graph is built with a table of the results that calls bind to names, and the review
has the names of the bindings that open a line. A reference that the graph resolves is reported as
unknown exactly where the review reads it on a line (`Text.ReadsName`) and neither this line nor one
before it opens with a binding of the name. A call that binds a name and opens its line is seen by
both (`binds_of_opensLine`), so after it the name is not reported. Main statement:
`resolved_reported_iff`.
-/

namespace PipelineDoc

/-! ### Results -/

/-- The results that names are bound to when the graph of a document has been built up to a
statement of a body: after the modules, the pipelines `earlier` and the statements `before` of the
body. -/
def Text.resultsAfter (source : Text) (earlier : List Declaration) (body : Text)
    (before : List Statement) : Results :=
  let modules := source.declarations.filter fun d => d.kind == .module
  let g := earlier.foldl (Graph.addPipeline source)
    (modules.foldl (Graph.addDeclaredModule source) .empty)
  (before.foldl (Graph.addStatement body) (g, [])).2

/-- **A name that is resolved** gives the module of the latest call that binds it. -/
theorem tracks_resultsAfter {source body : Text} {earlier : List Declaration}
    {before : List Statement} (hbefore : ∀ st ∈ before, st ∈ body.statements) :
    Graph.Tracks source before (source.resultsAfter earlier body before) := by
  have hbase := Graph.holds_foldl source (source.declarations.filter fun d => d.kind == .module)
  have hpipes := Graph.Grows.foldl hbase.tidy (f := Graph.addPipeline source) fun d
    (_ : d ∈ earlier) g' hg' => Graph.addPipeline_grows hg'.tidy (hbase.knows.above hg') d
  exact (Graph.tracks_nil source).foldl_addStatement hpipes.above.tidy
    (hbase.knows.above hpipes.above) hbefore

/-! ### Bindings that open a line -/

/-- Whether only white space stands before a call on its line. -/
def Call.opensLine (c : Call) (body : Text) : Bool :=
  (body.splitAt? c.start).any fun cut => (cut.1.reverse.takeWhile (· != '\n')).all isWhite

theorem Call.ReadOn.all_isWhite {c : Call} {body line p : Text} {older : List Text} {h : CallHead}
    (hread : c.ReadOn body older line p h) (hopens : c.opensLine body = true) :
    ∀ x ∈ p, isWhite x = true := by
  obtain ⟨r, hbody, -⟩ := hread.code
  rw [Call.opensLine, hbody, hread.start, Text.splitAt?_append, Option.any_some, List.all_eq_true]
    at hopens
  intro x hx
  refine hopens x ?_
  have hline : ∀ y ∈ p.reverse, (y != '\n') = true := by
    intro y hy
    rw [bne_iff_ne]
    rintro rfl
    exact hread.newline (List.mem_reverse.mp hy)
  rw [List.reverse_append, List.takeWhile_append_of_pos hline]
  exact List.mem_append_left _ (List.mem_reverse.mpr hx)

/-- **A call that opens its line** binds its name for the review as well. -/
theorem binds_of_opensLine {body line : Text} {c : Call} (hc : .call c ∈ body.statements)
    {older : List Text} (hon : c.IsOn body older line) (hopens : c.opensLine body = true)
    {name : Text} (hbinds : c.Binds name) : line.binds name = true := by
  obtain ⟨p, h, hread⟩ := hon.exists_readOn hc
  have hw := hread.isWritten
  have hwhite := hread.all_isWhite hopens
  obtain ⟨s, hline⟩ := hread.line_eq
  obtain ⟨binding, hb, rfl⟩ := hbinds
  rw [hread.binding, Option.map_eq_some_iff] at hb
  obtain ⟨⟨head, pad⟩, hhead, rfl⟩ := hb
  -- white space leaves a reader in code
  have hcode : Mode.code.CodeAfter p (h.text ++ s) := by
    obtain ⟨x, t, hx⟩ := List.exists_cons_of_ne_nil h.text_ne_nil
    have hinert := hw.isInert x (by rw [hx]; exact List.mem_cons_self)
    rw [hx]
    show ((Mode.code.run p (some x)).step x (t ++ s).head?).1 = .code
    rw [Mode.run_inert fun y hy => isInert_of_isWhite (hwhite y hy), Mode.step_inert hinert]
  obtain ⟨r, hpart⟩ := Text.exists_codePart_eq hread.newline
    (hw.not_mem_text (by decide) (by decide)) hw.isInert h.text_ne_nil hcode
  rw [← hline] at hpart
  have htext : h.text = head.text ++ (pad ++ h.run.text) := by
    rw [CallHead.text, CallHead.front, hhead]
    simp
  have htrim : line.codePart.trimStart = head.text ++ (pad ++ h.run.text ++ r) := by
    rw [hpart, htext, List.append_assoc, Text.trimStart]
    exact (takeWhile_dropWhile_append hwhite (by rfl)).2
  rw [Text.binds, Text.binding?, htrim,
    LetHead.read?_eq_some_iff.mpr ⟨rfl, (hw.binding _ hhead).1⟩]
  simp

/-! ### Reports -/

/-- The review reads a name at a span of a body, on a line that it comes to: the name is the root of
a reference in the closed arguments of a call of the line. -/
def Text.ReadsName (body : Text) (cut : List Text × Text) (name : Text) (span : Span) : Prop :=
  cut ∈ body.reached ∧ ∃ q ∈ cut.2.codePart.lineCalls, ∃ args ∈ q.args,
    ∃ r ∈ (cut.2.codePart.slice args).references,
      r.root = name ∧ r.rootSpan.shift (Text.byteLength cut.1.flatten + args.start) = span

theorem unknownVariable_mem_lineReports {known : List Text} {name pipeline pipeline' line : Text}
    {start : Nat} {older : List Text} {span : Span} :
    .unknownVariable name pipeline span ∈ lineReports known pipeline' start older line ↔
      pipeline = pipeline' ∧ isBoundOn (older ++ [line]) name = false ∧
        ∃ q ∈ line.codePart.lineCalls, ∃ args ∈ q.args, ∃ r ∈ (line.codePart.slice args).references,
          r.root = name ∧
            (r.rootSpan.shift (Text.byteLength older.flatten + args.start)).shift start = span := by
  have hshift : ∀ (r : Reference) (args : Span),
      (r.rootSpan.shift (Text.byteLength older.flatten + args.start)).shift start =
        r.rootSpan.shift (start + Text.byteLength older.flatten + args.start) := by
    intro r args
    rw [Span.shift_shift]
    congr 1
    omega
  simp only [lineReports, List.mem_flatMap, callReports, List.mem_append, hshift]
  constructor
  · rintro ⟨q, hq, hmem | hmem⟩
    · split at hmem
      · cases hmem
      · cases List.mem_singleton.mp hmem
    · simp only [argumentReports, List.mem_flatMap, List.mem_map, List.mem_filter,
        Option.mem_toList] at hmem
      obtain ⟨args, hargs, r, ⟨hr, hfree⟩, heq⟩ := hmem
      cases heq
      exact ⟨rfl, by simpa using hfree, q, hq, args, hargs, r, hr, rfl, rfl⟩
  · rintro ⟨rfl, hfree, q, hq, args, hargs, r, hr, rfl, rfl⟩
    refine ⟨q, hq, Or.inr ?_⟩
    simp only [argumentReports, List.mem_flatMap, List.mem_map, List.mem_filter, Option.mem_toList]
    exact ⟨args, hargs, r, ⟨hr, by rw [hfree]; rfl⟩, rfl⟩

section

variable {source : Text} {known : List Text} {d : Declaration} {name : Text} {span : Span}

/-- **A name is reported as unknown** where the review reads it on a line, if neither this line nor
one before it binds the name. -/
theorem unknownVariable_mem_iff (hd : d ∈ source.declarations)
    (hspan : (d.content source).slice? span = some name) :
    (∃ name' pipeline,
      .unknownVariable name' pipeline (span.shift d.body.start) ∈ pipelineFindings source known d) ↔
      ∃ cut, (d.content source).ReadsName cut name span ∧
        isBoundOn (cut.1 ++ [cut.2]) name = false := by
  constructor
  · rintro ⟨name', pipeline, hmem⟩
    -- the report is about the text at its place
    obtain rfl : name' = name := by
      have hbody := (Text.standsIn_of_mem_declarations hd).body
      have hslice := (pipelineFindings_isIn hd _ hmem).1
      rw [Text.slice?_shift hbody hspan] at hslice
      exact (Option.some.inj hslice).symm
    rw [pipelineFindings_eq, List.mem_flatMap] at hmem
    obtain ⟨cut, hreached, hmem⟩ := hmem
    obtain ⟨-, hfree, q, hq, args, hargs, r, hr, hroot, hplace⟩ :=
      unknownVariable_mem_lineReports.mp hmem
    exact ⟨cut, ⟨hreached, q, hq, args, hargs, r, hr, hroot, Span.eq_of_shift_eq hplace⟩, hfree⟩
  · rintro ⟨cut, ⟨hreached, q, hq, args, hargs, r, hr, hroot, hplace⟩, hfree⟩
    refine ⟨name, d.name, ?_⟩
    rw [pipelineFindings_eq, List.mem_flatMap]
    exact ⟨cut, hreached, unknownVariable_mem_lineReports.mpr
      ⟨rfl, hfree, q, hq, args, hargs, r, hr, hroot, by rw [hplace]⟩⟩

theorem unknownVariable_reported_iff (settings : Settings) (active : Option Text)
    (hd : d ∈ source.declarations.filter fun d => d.kind == .pipeline)
    (hspan : (d.content source).slice? span = some name) (hname : name ≠ []) :
    (∃ g ∈ (settings.analyze source active).diagnostics, g.code = some .unknownVariable ∧
        g.span? = some (span.shift d.body.start)) ↔
      ∃ cut, (d.content source).ReadsName cut name span ∧
        isBoundOn (cut.1 ++ [cut.2]) name = false := by
  obtain ⟨hd', hkind⟩ := List.mem_filter.mp hd
  rw [← unknownVariable_mem_iff hd' hspan]
  constructor
  · rintro ⟨g, hg, hcode, hplace⟩
    obtain ⟨f, hf, rfl⟩ := mem_diagnostics.mp hg
    rw [Finding.span?_diagnostic, Option.some.injEq] at hplace
    cases f with
    | unbalanced | unnamed | duplicate | unknownModule => cases hcode
    | unknownVariable name' pipeline span' =>
      obtain rfl : span' = span.shift d.body.start := hplace
      have hbody := (Text.standsIn_of_mem_declarations hd').body
      exact ⟨name', pipeline, mem_pipelineFindings_of_within hd'
        (mem_pipelineReview_of_mem_emitted hf rfl) (within_of_slice? hbody hspan)
        (Text.start_lt_stop_of_slice? (Text.slice?_shift hbody hspan) hname)⟩
  · rintro ⟨name', pipeline, hmem⟩
    refine ⟨(Finding.unknownVariable name' pipeline (span.shift d.body.start)).diagnostic,
      mem_diagnostics.mpr ⟨_, ?_, rfl⟩, rfl, Finding.span?_diagnostic _⟩
    rw [Text.emitted_eq_append]
    exact List.mem_append_right _ (List.mem_append_right _
      (Text.mem_pipelineReview.mpr ⟨d, hd', beq_iff_eq.mp hkind, hmem⟩))

end

/-- **After a call that binds a name and opens its line** the name is bound where the review reads
it. -/
theorem Text.ReadsName.isBoundOn_of_opensLine {body name : Text} {cut : List Text × Text} {span : Span}
    (h : body.ReadsName cut name span) (hspan : span.start < span.stop) {b : Call}
    (hb : .call b ∈ body.statements) (hopens : b.opensLine body = true) (hbinds : b.Binds name)
    (hle : b.start ≤ span.start) : isBoundOn (cut.1 ++ [cut.2]) name = true := by
  obtain ⟨hreached, q, hq, args, hargs, r, hr, hroot, hplace⟩ := h
  obtain ⟨⟨newer', hlines'⟩, -⟩ := Text.mem_reached.mp hreached
  obtain ⟨older, line, hon, -⟩ := exists_isOn hb
  obtain ⟨newer, hlines⟩ := hon.lines
  have hline := binds_of_opensLine hb hon hopens hbinds
  by_contra hfree
  rw [Bool.not_eq_true] at hfree
  -- the line of the call is not after the line on which the name is read
  have hpre : older ++ [line] <+: cut.1 ++ [cut.2] := by
    refine Text.concat_prefix_of_lines hlines hlines' ?_
    have hmem : .unknownVariable name [] (span.shift 0) ∈ lineReports [] [] 0 cut.1 cut.2 :=
      unknownVariable_mem_lineReports.mpr
        ⟨rfl, hfree, q, hq, args, hargs, r, hr, hroot, by rw [hplace]⟩
    have hin := ((pairwise_lineReports ..).1 _ hmem).2
    have hstart := hon.start_le
    rw [List.flatten_append, List.flatten_singleton, Finding.span, Span.stop_shift] at hin
    omega
  rw [isBoundOn, Bool.or_eq_false_iff, List.any_eq_false] at hfree
  exact hfree.2 line (hpre.subset (by simp)) hline

theorem start_le_of_mem_statements {body : Text} {c : Call} (hc : .call c ∈ body.statements) :
    c.start ≤ c.stop ∧ ∀ a ∈ c.args, c.start ≤ a.start := by
  obtain ⟨p, f, rest, -, -, rfl, -⟩ := exists_form_of_call_mem_statements hc
  obtain ⟨hstart, hmodule, hargs⟩ := f.place_spans p.byteLength
  have hle := (f.place p.byteLength).moduleSpan.start_le_stop
  refine ⟨by omega, fun a ha => ?_⟩
  have := hargs a ha
  omega

/-- **Names that the graph resolves.** Where the results that names are bound to give a module for a
reference in the arguments of a call, it is the declared module of the latest call before that binds
the name. A name is reported as unknown at the root of the reference exactly if the review reads the
name there on a line that it comes to, and neither this line nor one before it opens with a binding
of the name. So none is reported if some call before that binds the name opens its line. -/
theorem resolved_reported_iff (settings : Settings) (source : Text) (active : Option Text)
    {earlier later : List Declaration} {d : Declaration}
    (hd : (source.declarations.filter fun d => d.kind == .pipeline) = earlier ++ d :: later)
    {before after : List Statement} {c : Call}
    (hc : (d.content source).statements = before ++ .call c :: after) {args : Span}
    (hargs : c.args = some args) {r : Reference}
    (hr : r ∈ ((d.content source).slice args).references) {m : Text}
    (hresolved : (source.resultsAfter earlier (d.content source) before).producer? r.root = some m) :
    (∃ b, Latest before r.root b ∧ source.Declares b.module ∧ b.module = m) ∧
    ((∃ g ∈ (settings.analyze source active).diagnostics, g.code = some .unknownVariable ∧
        g.span? = some (r.rootSpan.shift (args.start + d.body.start))) ↔
      ∃ cut, (d.content source).ReadsName cut r.root (r.rootSpan.shift args.start) ∧
        isBoundOn (cut.1 ++ [cut.2]) r.root = false) ∧
    ((∃ b, .call b ∈ before ∧ b.Binds r.root ∧ b.opensLine (d.content source) = true) →
      ∀ g ∈ (settings.analyze source active).diagnostics, g.code = some .unknownVariable →
        g.span? ≠ some (r.rootSpan.shift (args.start + d.body.start))) := by
  have hpipeline : d ∈ source.declarations.filter fun d => d.kind == .pipeline := by
    rw [hd]
    exact List.mem_append_right _ List.mem_cons_self
  have hd' : d ∈ source.declarations := List.mem_of_mem_filter hpipeline
  have hmem : .call c ∈ (d.content source).statements := by
    rw [hc]
    exact List.mem_append_right _ List.mem_cons_self
  have hbefore : ∀ st ∈ before, st ∈ (d.content source).statements := fun st hst => by
    rw [hc]
    exact List.mem_append_left _ hst
  -- the root of the reference stands in the body
  have hreference := standsIn_of_mem_references hr
  have hslice := Text.slice?_shift ((standsIn_of_mem_statements hmem).args args hargs)
    hreference.root
  have hname : r.root ≠ [] := hreference.isDottedPath.isIdentifier_root.ne_nil
  have hreported := unknownVariable_reported_iff settings active hpipeline hslice hname
  rw [Span.shift_shift] at hreported
  refine ⟨(tracks_resultsAfter hbefore _ _).mp hresolved, hreported, ?_⟩
  rintro ⟨b, hb, hbinds, hopens⟩ g hg hcode hspan
  obtain ⟨cut, hreads, hfree⟩ := hreported.mp ⟨g, hg, hcode, hspan⟩
  -- the call that binds the name ends before the call with the reference starts
  have hle : b.start ≤ (r.rootSpan.shift args.start).start := by
    have horder := (d.content source).pairwise_statements
    rw [hc] at horder
    have hbc := (List.pairwise_append.mp horder).2.2 _ hb _ List.mem_cons_self
    have hb' := (start_le_of_mem_statements (hbefore _ hb)).1
    have hc' := (start_le_of_mem_statements hmem).2 args hargs
    simp only [Statement.stop, Statement.start] at hbc
    rw [Span.start_shift]
    omega
  have hbound := hreads.isBoundOn_of_opensLine (Text.start_lt_stop_of_slice? hslice hname)
    (hbefore _ hb) hopens hbinds hle
  rw [hfree] at hbound
  cases hbound

/-- A name bound twice on one line, first by the call that opens the line and then by the call that
it is resolved to. -/
theorem resolved_reported_iff_rebound :
    let source : Text := ("module \"m\" \x7b\x7d\nmodule \"n\" \x7b\x7d\n" ++
      "pipeline \"p\" \x7b\n  let x = run k() let x = run m()\n  run n(x.y)\n\x7d").toList
    let d : Declaration := ⟨.pipeline, ['p'], .ofLength 38 1, .ofLength 28 8, .ofLength 42 48⟩
    let first : Call :=
      ⟨3, some ⟨['x'], .ofLength 7 1⟩, ['k'], .ofLength 15 1, some (.ofLength 17 0), 18⟩
    let second : Call :=
      ⟨19, some ⟨['x'], .ofLength 23 1⟩, ['m'], .ofLength 31 1, some (.ofLength 33 0), 34⟩
    let c : Call := ⟨37, none, ['n'], .ofLength 41 1, some (.ofLength 43 3), 47⟩
    (d.content source).statements = [.call first, .call second, .call c] ∧
      first.opensLine (d.content source) = true ∧ second.opensLine (d.content source) = false ∧
      (source.resultsAfter [] (d.content source) [.call first, .call second]).producer? ['x'] =
        some ['m'] ∧
      (∃ b, Latest [.call first, .call second] ['x'] b ∧ source.Declares b.module ∧
        b.module = ['m']) ∧
      ∀ g ∈ (Settings.analyze {} source none).diagnostics, g.code = some .unknownVariable →
        g.span? ≠ some (.ofLength 85 1) := by
  intro source d first second c
  have hd : (source.declarations.filter fun d => d.kind == .pipeline) = [] ++ d :: [] := by
    decide +kernel
  have hc : (d.content source).statements = [.call first, .call second] ++ .call c :: [] := by
    decide +kernel
  have hr : (⟨"x.y".toList, .ofLength 0 3⟩ : Reference) ∈
      ((d.content source).slice (.ofLength 43 3)).references := by
    decide +kernel
  have hresolved : (source.resultsAfter [] (d.content source)
      [.call first, .call second]).producer? ['x'] = some ['m'] := by
    decide +kernel
  have hfirst : first.opensLine (d.content source) = true := by decide +kernel
  have hsecond : second.opensLine (d.content source) = false := by decide +kernel
  have h := resolved_reported_iff {} source none hd hc rfl hr hresolved
  exact ⟨hc, hfirst, hsecond, hresolved, h.1, h.2.2 ⟨first, by simp, ⟨_, rfl, rfl⟩, hfirst⟩⟩

/-- **Not every name that the graph resolves is known to the review**: not one that is bound by the
second call of a line. -/
theorem resolved_reported :
    let source : Text := ("module \"m\" \x7b\x7d\nmodule \"n\" \x7b\x7d\n" ++
      "pipeline \"p\" \x7b\n  let a = run m() let b = run m()\n  run n(b)\n\x7d").toList
    let d : Declaration := ⟨.pipeline, ['p'], .ofLength 38 1, .ofLength 28 8, .ofLength 42 46⟩
    let before : List Statement :=
      [.call ⟨3, some ⟨['a'], .ofLength 7 1⟩, ['m'], .ofLength 15 1, some (.ofLength 17 0), 18⟩,
        .call ⟨19, some ⟨['b'], .ofLength 23 1⟩, ['m'], .ofLength 31 1, some (.ofLength 33 0), 34⟩]
    let c : Call := ⟨37, none, ['n'], .ofLength 41 1, some (.ofLength 43 1), 45⟩
    let r : Reference := ⟨['b'], .ofLength 0 1⟩
    (source.declarations.filter fun d => d.kind == .pipeline) = [d] ∧
      (d.content source).statements = before ++ [.call c] ∧
      r ∈ ((d.content source).slice (.ofLength 43 1)).references ∧ r.root ≠ inputWord ∧
      (source.resultsAfter [] (d.content source) before).producer? r.root = some ['m'] ∧
      ∃ g ∈ (Settings.analyze {} source none).diagnostics, g.code = some .unknownVariable ∧
        g.span? = some (r.rootSpan.shift (43 + d.body.start)) := by
  intro source d before c r
  refine ⟨by decide +kernel, by decide +kernel, by decide +kernel, by decide +kernel,
    by decide +kernel, (Finding.unknownVariable ['b'] ['p'] (.ofLength 85 1)).diagnostic, ?_, rfl,
    rfl⟩
  exact mem_diagnostics.mpr ⟨_, by decide +kernel, rfl⟩

end PipelineDoc
