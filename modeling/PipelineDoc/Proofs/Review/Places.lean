import PipelineDoc.Analysis
import PipelineDoc.Proofs.Lexical.Nesting
import PipelineDoc.Proofs.Review.LastLine
import PipelineDoc.Proofs.Statement.Places

/-!
# What diagnostics point at

A diagnostic has one primary annotation, and the text under it is what the diagnostic is about
(`Diagnostic.IsPlaced`). Spans are found in a part of the document, the arguments of a call in the
code of a line in the body of a pipeline, and are moved step by step to the document; at each step
the text under the span stays the same. Main statement: `analyze_places_diagnostics`.
-/

namespace PipelineDoc

/-- What a diagnostic of a code says of the text under its primary annotation `a`. -/
def Diagnostic.SpeaksOf (d : Diagnostic) (source : Text) (known : List Text) (a : Annotation)
    (text : Text) : Code → Prop
  | .unbalancedBraces =>
    '\n' ∉ text ∧ (∃ c ∈ text.head?, isWhite c = false) ∧ (∃ c ∈ text.getLast?, isWhite c = false) ∧
      ∃ front rest, source.splitAt? a.span.stop = some (front, rest) ∧ ∀ c ∈ rest, isWhite c
  | .missingName => ∃ kind : Declaration.Kind, text = kind.keyword
  | .unknownModule =>
    d.message = "undefined module `" ++ String.ofList text ++ "`" ∧ IsDottedPath text ∧
      text ∉ known ∧ ∃ p ∈ source.declarations, p.kind = .pipeline ∧ a.span.Within p.body
  | .unknownVariable =>
    d.message = "undefined variable `" ++ String.ofList text ++ "`" ∧ IsIdentifier text ∧
      text ≠ inputWord ∧ ∃ p ∈ source.declarations, p.kind = .pipeline ∧ a.span.Within p.body ∧
        a.message = "not bound in pipeline `" ++ String.ofList p.name ++ "`"
  | .duplicate =>
    ∃ e ∈ source.declarations, ∃ first ∈ source.declarations, first.kind = e.kind ∧
      e.name = text ∧ e.nameSpan = a.span ∧
      ∃ b, d.annotations.filter (!·.primary) = [b] ∧ first.nameSpan = b.span ∧
        source.slice? b.span = some text ∧ b.span.start < a.span.start

/-- A diagnostic has a code and one primary annotation, which covers the text that it is about. -/
def Diagnostic.IsPlaced (d : Diagnostic) (source : Text) (known : List Text) : Prop :=
  ∃ code a text, d.code = some code ∧ d.annotations.filter (·.primary) = [a] ∧
    source.slice? a.span = some text ∧ d.SpeaksOf source known a text code

/-! ### Braces -/

theorem Text.exists_not_white {t : Text} (h : t.codeBraces.1 ≠ t.codeBraces.2) :
    ∃ c ∈ t, isWhite c = false := by
  rw [codeBraces, codeChars_eq] at h
  by_cases hopen : '{' ∈ Mode.code.codeChars t none
  · exact ⟨'{', Mode.mem_of_mem_codeChars hopen, by decide⟩
  · by_cases hclose : '}' ∈ Mode.code.codeChars t none
    · exact ⟨'}', Mode.mem_of_mem_codeChars hclose, by decide⟩
    · refine absurd ?_ h
      rw [List.count_eq_zero_of_not_mem hopen, List.count_eq_zero_of_not_mem hclose]

theorem mem_braceFindings_iff {source : Text} {f : Finding} : f ∈ braceFindings source ↔
    source.codeBraces.1 ≠ source.codeBraces.2 ∧
      f = .unbalanced source.codeBraces.1 source.codeBraces.2 source.lastLineSpan := by
  have heq : braceFindings source = if source.codeBraces.1 = source.codeBraces.2 then []
    else [.unbalanced source.codeBraces.1 source.codeBraces.2 source.lastLineSpan] := rfl
  rw [heq]
  split
  · next h => simp [h]
  · next h => simp [h]

theorem isPlaced_of_mem_braceFindings {source : Text} {known : List Text} {f : Finding}
    (hf : f ∈ braceFindings source) : f.diagnostic.IsPlaced source known := by
  obtain ⟨hne, rfl⟩ := mem_braceFindings_iff.mp hf
  obtain ⟨front, line, rest, hsource, hspan, hline⟩ :=
    Text.exists_lastLine (Text.exists_not_white hne)
  refine ⟨.unbalancedBraces, _, line, rfl, rfl, ?_, hline.1, hline.2.1, hline.2.2.1, front ++ line,
    rest, ?_, hline.2.2.2⟩
  · show source.slice? source.lastLineSpan = _
    rw [hspan, hsource]
    exact Text.slice?_append front line rest
  · have hcut := Text.splitAt?_append (front ++ line) rest
    rw [List.append_assoc, ← hsource, Text.byteLength_append] at hcut
    show source.splitAt? source.lastLineSpan.stop = _
    rw [hspan, Span.stop_ofLength, hcut]

/-! ### Declarations -/

theorem exists_of_mem_nameFindings {source : Text} {f : Finding} (hf : f ∈ nameFindings source) :
    ∃ r ∈ source.rejections, f = .unnamed r.kind r.keywordSpan := by
  obtain ⟨r, hr, hf⟩ := List.mem_filterMap.mp hf
  simp only [Option.ite_none_right_eq_some, Option.some.injEq] at hf
  exact ⟨r, hr, hf.2.symm⟩

theorem isPlaced_of_mem_nameFindings {source : Text} {known : List Text} {f : Finding}
    (hf : f ∈ nameFindings source) : f.diagnostic.IsPlaced source known := by
  obtain ⟨r, hr, rfl⟩ := exists_of_mem_nameFindings hf
  exact ⟨.missingName, _, r.kind.keyword, rfl, rfl, Text.slice?_of_mem_rejections hr, r.kind, rfl⟩

theorem exists_of_mem_duplicatesAfter {seen ds : List Declaration} {f : Finding}
    (hf : f ∈ duplicatesAfter seen ds) :
    ∃ older d newer first, seen ++ ds = older ++ d :: newer ∧ first ∈ older ∧
      first.kind = d.kind ∧ first.name = d.name ∧
      f = .duplicate d.kind d.name d.nameSpan first.nameSpan := by
  induction ds generalizing seen with
  | nil => simp [duplicatesAfter] at hf
  | cons d ds ih =>
    rw [duplicatesAfter] at hf
    rcases List.mem_append.mp hf with hf | hf
    · split at hf
      · next first hfirst =>
        have hsame := List.find?_some hfirst
        rw [Bool.and_eq_true, beq_iff_eq, beq_iff_eq] at hsame
        exact ⟨seen, d, ds, first, rfl, List.mem_of_find?_eq_some hfirst, hsame.1, hsame.2,
          List.mem_singleton.mp hf⟩
      · simp at hf
    · have h := ih hf
      rwa [List.append_assoc, List.singleton_append] at h

theorem isPlaced_of_mem_duplicates {source : Text} {known : List Text} {f : Finding}
    (hf : f ∈ duplicatesAfter [] source.declarations) : f.diagnostic.IsPlaced source known := by
  obtain ⟨older, d, newer, first, hsplit, hfirst, hkind, hname, rfl⟩ :=
    exists_of_mem_duplicatesAfter hf
  rw [List.nil_append] at hsplit
  have hd : d ∈ source.declarations := by rw [hsplit]; simp
  have hfirst' : first ∈ source.declarations := by
    rw [hsplit]
    exact List.mem_append_left _ hfirst
  have hds := Text.standsIn_of_mem_declarations hd
  have hfs := Text.standsIn_of_mem_declarations hfirst'
  -- the earlier name stands before the earlier body, and the later keyword before the later name
  have hbefore : first.body.stop < d.keywordSpan.start := by
    have hpair := source.pairwise_declarations
    rw [hsplit, List.pairwise_append] at hpair
    exact hpair.2.2 first hfirst d List.mem_cons_self
  have hlt : first.nameSpan.start < d.nameSpan.start := by
    have h1 := first.nameSpan.start_le_stop
    have h2 := hfs.name_le_body
    have h3 := first.body.start_le_stop
    have h4 := d.keywordSpan.start_le_stop
    have h5 := hds.keyword_le_name
    omega
  exact ⟨.duplicate, _, d.name, rfl, rfl, hds.name, d, hd, first, hfirst', hkind, rfl, rfl, _, rfl,
    rfl, hname ▸ hfs.name, hlt⟩

/-! ### Pipelines -/

/-- What a finding about the body of a pipeline says. -/
def Finding.IsIn (source : Text) (known : List Text) (d : Declaration) : Finding → Prop
  | .unknownModule name span =>
    source.slice? span = some name ∧ span.Within d.body ∧ IsDottedPath name ∧ name ∉ known
  | .unknownVariable name pipeline span =>
    source.slice? span = some name ∧ span.Within d.body ∧ IsIdentifier name ∧ name ≠ inputWord ∧
      pipeline = d.name
  | _ => False

theorem Finding.IsIn.isPlaced {source : Text} {known : List Text} {d : Declaration} {f : Finding}
    (h : f.IsIn source known d) (hd : d ∈ source.declarations) (hkind : d.kind = .pipeline) :
    f.diagnostic.IsPlaced source known := by
  cases f with
  | unknownModule name span =>
    obtain ⟨hslice, hwithin, hpath, hknown⟩ := h
    exact ⟨.unknownModule, _, name, rfl, rfl, hslice, rfl, hpath, hknown, d, hd, hkind, hwithin⟩
  | unknownVariable name pipeline span =>
    obtain ⟨hslice, hwithin, hname, hinput, rfl⟩ := h
    exact ⟨.unknownVariable, _, name, rfl, rfl, hslice, rfl, hname, hinput, d, hd, hkind, hwithin,
      rfl⟩
  | unbalanced | unnamed | duplicate => exact h.elim

section

variable {source : Text} {known : List Text} {d : Declaration}

theorem callFindings_isIn {scope : Scope} (hscope : scope.binds inputWord = true) {code : Text}
    {outer : Span} (hcode : source.slice? outer = some code) (hbody : outer.Within d.body)
    {call : Call} (hcall : call.StandsIn code) :
    ∀ f ∈ callFindings known scope d.name outer.start code call, f.IsIn source known d := by
  intro f hf
  rcases List.mem_append.mp hf with hf | hf
  · split at hf
    · simp at hf
    · next hknown =>
      cases List.mem_singleton.mp hf
      exact ⟨Text.slice?_shift hcode hcall.module, (within_of_slice? hcode hcall.module).trans hbody,
        hcall.isDottedPath, by simpa using hknown⟩
  · split at hf
    · next args hargs =>
      obtain ⟨r, hr, hf⟩ := List.mem_filterMap.mp hf
      have hstands := standsIn_of_mem_references hr
      -- from the arguments to the line, and from the line to the document
      have hline := Text.slice?_shift (hcall.args args hargs) hstands.root
      have hsource := Text.slice?_shift hcode hline
      have hwithin := (within_of_slice? hcode hline).trans hbody
      rw [Span.shift_shift, Nat.add_comm] at hsource hwithin
      simp only [referenceFinding?, Option.ite_none_left_eq_some, Option.some.injEq] at hf
      obtain ⟨hfree, rfl⟩ := hf
      refine ⟨hsource, hwithin, hstands.isDottedPath.isIdentifier_root, ?_, rfl⟩
      intro hroot
      rw [hroot] at hfree
      exact hfree hscope
    · simp at hf

theorem Scope.binds_afterLine {scope : Scope} {name : Text} (h : scope.binds name = true)
    (code : Text) : (scope.afterLine code).binds name = true := by
  unfold Scope.afterLine
  split
  · simp only [Scope.binds, Scope.bind, List.contains_eq_mem, decide_eq_true_eq] at h ⊢
    exact List.mem_cons_of_mem _ h
  · exact h

/-- **The lines of a body**: what is found on a line stands in the document after the lines
before. -/
theorem lineFindings_isIn {lines : List Text} {p q : Text} {depth : Int} {scope : Scope}
    (hscope : scope.binds inputWord = true) (hsource : source = p ++ (lines.flatten ++ q))
    (hstart : d.body.start ≤ p.byteLength)
    (hstop : p.byteLength + Text.byteLength lines.flatten ≤ d.body.stop) :
    ∀ f ∈ lineFindings known d.name p.byteLength depth scope lines, f.IsIn source known d := by
  induction lines generalizing p depth scope with
  | nil => simp [lineFindings]
  | cons line lines ih =>
    intro f hf
    rw [List.flatten_cons] at hsource hstop
    rw [Text.byteLength_append] at hstop
    have hscope' := Scope.binds_afterLine hscope line.codePart
    obtain ⟨comment, hline⟩ := line.exists_codePart_append
    have hlen := congrArg Text.byteLength hline
    rw [Text.byteLength_append] at hlen
    have hcode := Text.slice?_append p line.codePart (comment ++ (lines.flatten ++ q))
    rw [← List.append_assoc line.codePart, ← hline, ← List.append_assoc line, ← hsource] at hcode
    simp only [lineFindings] at hf
    split at hf
    · simp at hf
    · rcases List.mem_append.mp hf with hf | hf
      · obtain ⟨call, hcall, hf⟩ := List.mem_flatMap.mp hf
        refine callFindings_isIn hscope' hcode ?_ (standsIn_of_mem_lineCalls hcall) f hf
        constructor
        · exact hstart
        · rw [Span.stop_ofLength]
          omega
      · rw [← Text.byteLength_append] at hf
        refine ih hscope' ?_ ?_ ?_ f hf
        · rw [hsource]
          simp
        · rw [Text.byteLength_append]
          omega
        · rw [Text.byteLength_append]
          omega

theorem pipelineFindings_isIn (hd : d ∈ source.declarations) :
    ∀ f ∈ pipelineFindings source known d, f.IsIn source known d := by
  obtain ⟨p, q, hsource, hp, hlen⟩ :=
    Text.slice?_eq_some_iff.mp (Text.standsIn_of_mem_declarations hd).body
  have hbody := d.body.start_le_stop
  rw [Span.length] at hlen
  rw [pipelineFindings, ← hp]
  refine lineFindings_isIn (by decide) (q := q) ?_ (Nat.le_of_eq hp.symm) ?_
  · rw [Text.flatten_lines]
    exact hsource
  · rw [Text.flatten_lines]
    omega

end

/-! ### The review -/

/-- **Every diagnostic of an analysis** has one primary annotation, and it covers what the
diagnostic is about. -/
theorem analyze_places_diagnostics (settings : Settings) (source : Text) (active : Option Text) :
    ∀ d ∈ (settings.analyze source active).diagnostics,
      d.IsPlaced source (source.knownModules settings.builtinModules) := by
  intro d hd
  obtain ⟨f, hf, rfl⟩ := List.mem_map.mp hd
  rw [Text.findings, List.mem_mergeSort, Text.emitted, List.mem_append, List.mem_append,
    List.mem_append] at hf
  rcases hf with ((hf | hf) | hf) | hf
  · exact isPlaced_of_mem_braceFindings hf
  · exact isPlaced_of_mem_nameFindings hf
  · exact isPlaced_of_mem_duplicates hf
  · obtain ⟨p, hp, hf⟩ := List.mem_flatMap.mp hf
    rw [List.mem_filter, beq_iff_eq] at hp
    exact (pipelineFindings_isIn hp.1 f hf).isPlaced hp.1 hp.2

/-- A variable in the arguments of a call on an indented line, after characters of more than one
byte. -/
theorem analyze_places_diagnostics_variable :
    let source : Text := "pipeline \"é\" \x7b // →\n  let ö = run ü.a(ö, \"x\", x.y)\n\x7d".toList
    let d := (Finding.unknownVariable ['x'] ['é'] (.ofLength 52 1)).diagnostic
    d ∈ (Settings.analyze {} source none).diagnostics ∧
      d.IsPlaced source (source.knownModules []) := by
  intro source d
  have hd : d ∈ (Settings.analyze {} source none).diagnostics :=
    List.mem_map_of_mem (List.mem_mergeSort.mpr (by decide +kernel))
  exact ⟨hd, analyze_places_diagnostics {} source none d hd⟩

end PipelineDoc
