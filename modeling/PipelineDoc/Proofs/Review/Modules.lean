import PipelineDoc.Proofs.Review.Reports
import PipelineDoc.Proofs.Statement.Hidden

/-!
# Reports of unknown modules

The dependency graph is built from the calls of a body as a whole, and the review looks for calls
line by line. A call of a body that names an unknown module is reported once, unless the review does
not see it (`Call.Unseen`): its line starts in a string, or the review has stopped before it, or it
is hidden in the arguments of a call that is no statement. Main statement:
`unknownModule_reported_once`.
-/

namespace PipelineDoc

/-! ### Calls that the review does not see -/

/-- The review stops on a line or before it: strings that go on over the end of a line have upset
the count of braces. -/
def Text.StopsBy (body : Text) (older : List Text) (line : Text) : Prop :=
  ('\n', Label.string) ∈ older.flatten.zip body.labels ∧
    ∃ front ∈ (older ++ [line]).inits, braceDepth front < 0

/-- The review does not see a call of a body. -/
def Call.Unseen (c : Call) (body : Text) : Prop :=
  ∃ cut ∈ body.lineCuts, c.IsOn body cut.1 cut.2 ∧
    (body.StartsInString cut.1 ∨ body.StopsBy cut.1 cut.2 ∨ c.Hidden body cut.1 cut.2)

instance (body : Text) (older : List Text) : Decidable (body.StartsInString older) :=
  inferInstanceAs (Decidable (_ ∧ _))

instance (body : Text) (older : List Text) (line : Text) : Decidable (body.StopsBy older line) :=
  inferInstanceAs (Decidable (_ ∧ ∃ front ∈ (older ++ [line]).inits, braceDepth front < 0))

theorem Call.isOn_iff {c : Call} {body line : Text} {older : List Text} :
    c.IsOn body older line ↔ (older, line) ∈ body.lineCuts ∧
      Text.byteLength older.flatten ≤ c.start ∧
      c.start < Text.byteLength (older.flatten ++ line) :=
  ⟨fun h => ⟨Text.mem_lineCuts.mpr h.lines, h.start_le, h.lt_stop⟩,
    fun h => ⟨Text.mem_lineCuts.mp h.1, h.2.1, h.2.2⟩⟩

instance (c : Call) (body : Text) (older : List Text) (line : Text) :
    Decidable (c.IsOn body older line) := decidable_of_iff _ Call.isOn_iff.symm

instance (c : Call) (body : Text) : Decidable (c.Unseen body) :=
  inferInstanceAs (Decidable (∃ cut ∈ body.lineCuts, c.IsOn body cut.1 cut.2 ∧
    (body.StartsInString cut.1 ∨ body.StopsBy cut.1 cut.2 ∨ c.Hidden body cut.1 cut.2)))

/-- **The review comes to every line**, or it stops by then. -/
theorem mem_reached_or_stopsBy {body rest line : Text} {older newer : List Text}
    (hbody : Bracket.brace.Closes 0 .code body rest) (h : body.lines = older ++ line :: newer) :
    (older, line) ∈ body.reached ∨ body.StopsBy older line := by
  by_cases hstop : ∃ front ∈ (older ++ [line]).inits, braceDepth front < 0
  · refine Or.inr ⟨?_, hstop⟩
    by_contra hnone
    obtain ⟨front, hfront, hneg⟩ := hstop
    obtain ⟨after, hafter⟩ := (List.mem_inits _ _).mp hfront
    rcases List.eq_nil_or_concat' front with rfl | ⟨older', line', rfl⟩
    · exact absurd hneg (by decide)
    · -- no newline before that line is part of a string either
      have hlines : body.lines = older' ++ line' :: (after ++ newer) := by
        rw [h, ← List.singleton_append, ← List.append_assoc, ← hafter]
        simp
      refine absurd hneg (Int.not_lt.mpr (braceDepth_nonneg hbody hlines fun hmem => hnone ?_))
      refine Text.mem_zip_mono ?_ hmem
      have hpre : older' <+: older := by
        refine List.prefix_of_prefix_length_le ⟨line' :: after, ?_⟩
          (List.prefix_append older [line]) ?_
        · rw [← hafter]
          simp
        · have := congrArg List.length hafter
          simp only [List.length_append, List.length_singleton] at this
          omega
      obtain ⟨m, rfl⟩ := hpre
      exact ⟨m.flatten, List.flatten_append.symm⟩
  · refine Or.inl (Text.mem_reached.mpr ⟨⟨newer, h⟩, fun front hfront => ?_⟩)
    by_contra hneg
    exact hstop ⟨front, (List.mem_inits _ _).mpr hfront, Int.not_le.mp hneg⟩

theorem Text.StopsBy.not_mem_reached {body line : Text} {older : List Text}
    (h : body.StopsBy older line) : (older, line) ∉ body.reached := by
  intro hreached
  obtain ⟨-, front, hfront, hneg⟩ := h
  have := (Text.mem_reached.mp hreached).2 front ((List.mem_inits _ _).mp hfront)
  omega

/-! ### Lines -/

theorem Call.IsOn.moduleSpan {body line : Text} {c : Call} {older : List Text}
    (hon : c.IsOn body older line) (hc : .call c ∈ body.statements) :
    Text.byteLength older.flatten ≤ c.moduleSpan.start ∧ c.moduleSpan.start < c.moduleSpan.stop ∧
      c.moduleSpan.stop ≤ Text.byteLength (older.flatten ++ line) := by
  obtain ⟨p, h, hread⟩ := hon.exists_readOn hc
  obtain ⟨s, hline⟩ := hread.line_eq
  have hpos := Text.byteLength_pos hread.isWritten.run.module.ne_nil
  rw [hread.moduleSpan, hline]
  simp only [RunHead.moduleSpan, CallHead.text, RunHead.text, Span.start_shift, Span.stop_shift,
    Span.start_ofLength, Span.stop_ofLength, Text.byteLength_append]
  omega

/-! ### Reports -/

section

variable {source : Text} {known : List Text} {d : Declaration}

theorem unknownModule_mem_lineReports {pipeline name : Text} {start : Nat} {older : List Text}
    {line : Text} {span : Span} :
    .unknownModule name span ∈ lineReports known pipeline start older line ↔
      ∃ q ∈ line.codePart.lineCalls, q.module = name ∧ name ∉ known ∧
        (q.moduleSpan.shift (Text.byteLength older.flatten)).shift start = span := by
  simp only [lineReports, List.mem_flatMap, callReports, List.mem_append]
  refine exists_congr fun q => and_congr_right fun _ => ?_
  constructor
  · rintro (hmem | hmem)
    · split at hmem
      · cases hmem
      · next hknown =>
        cases List.mem_singleton.mp hmem
        exact ⟨rfl, hknown, by rw [Span.shift_shift, Nat.add_comm]⟩
    · simp [argumentReports] at hmem
  · rintro ⟨rfl, hknown, rfl⟩
    rw [if_neg hknown, List.mem_singleton, Span.shift_shift, Nat.add_comm]
    exact Or.inl rfl

/-- **A call to an unknown module is reported**, unless the review does not see it. -/
theorem unknownModule_mem_or_unseen (hd : d ∈ source.declarations) {c : Call}
    (hc : .call c ∈ (d.content source).statements) (hknown : c.module ∉ known) :
    .unknownModule c.module (c.moduleSpan.shift d.body.start) ∈ pipelineFindings source known d ∨
      c.Unseen (d.content source) := by
  obtain ⟨_, rest, hinside⟩ := exists_inside?_content hd
  obtain ⟨older, line, hon, -⟩ := exists_isOn hc
  have hunseen : ((d.content source).StartsInString older ∨ (d.content source).StopsBy older line ∨
      c.Hidden (d.content source) older line) → c.Unseen (d.content source) := fun h =>
    ⟨(older, line), Text.mem_lineCuts.mpr hon.lines, hon, h⟩
  by_cases hstring : (d.content source).StartsInString older
  · exact Or.inr (hunseen (Or.inl hstring))
  obtain ⟨newer, hlines⟩ := hon.lines
  rcases mem_reached_or_stopsBy (Bracket.closes_of_inside? hinside) hlines with hreached | hstops
  · rcases lineCall_or_hidden hc hon hstring with ⟨q, hq, hmodule, hspan⟩ | hhidden
    · refine Or.inl ?_
      rw [pipelineFindings_eq, List.mem_flatMap]
      exact ⟨_, hreached, unknownModule_mem_lineReports.mpr ⟨q, hq, hmodule, hknown, by rw [hspan]⟩⟩
    · exact Or.inr (hunseen (Or.inr (Or.inr hhidden)))
  · exact Or.inr (hunseen (Or.inr (Or.inl hstops)))

theorem Call.Unseen.unknownModule_not_mem {c : Call} (h : c.Unseen (d.content source))
    (hc : .call c ∈ (d.content source).statements) (name : Text) :
    .unknownModule name (c.moduleSpan.shift d.body.start) ∉ pipelineFindings source known d := by
  intro hmem
  obtain ⟨⟨older, line⟩, -, hon, hwhy⟩ := h
  dsimp only at hon hwhy
  rw [pipelineFindings_eq, List.mem_flatMap] at hmem
  obtain ⟨⟨older', line'⟩, hreached, hmem⟩ := hmem
  obtain ⟨q, hq, -, -, hspan⟩ := unknownModule_mem_lineReports.mp hmem
  have hspan := Span.eq_of_shift_eq hspan
  -- the report was made on the line of the call
  obtain ⟨rfl, rfl⟩ : older' = older ∧ line' = line := by
    obtain ⟨newer, hlines⟩ := hon.lines
    obtain ⟨⟨newer', hlines'⟩, -⟩ := Text.mem_reached.mp hreached
    have hplace := hon.moduleSpan hc
    refine cut_eq_of_mem_lineReports hlines hlines' hmem ?_ ?_ ?_
    · simp only [Finding.span, Span.start_shift]
      omega
    · simp only [Finding.span, Span.start_shift, Span.stop_shift]
      omega
    · simp only [Finding.span, Span.stop_shift]
      omega
  rcases hwhy with hstring | hstops | hhidden
  · exact moduleSpan_ne_of_string hc hon hstring hq hspan
  · exact hstops.not_mem_reached hreached
  · exact hhidden.moduleSpan_ne hq hspan

theorem moduleSpan_within (hd : d ∈ source.declarations) {c : Call}
    (hc : .call c ∈ (d.content source).statements) :
    (c.moduleSpan.shift d.body.start).Within d.body ∧ c.moduleSpan.start < c.moduleSpan.stop := by
  obtain ⟨older, line, hon, -⟩ := exists_isOn hc
  obtain ⟨newer, hlines⟩ := hon.lines
  have hplace := hon.moduleSpan hc
  have hlen := congrArg Text.byteLength (Text.eq_of_lines hlines)
  obtain ⟨_, _, -, -, hbody⟩ := Text.slice?_eq_some_iff.mp (Text.standsIn_of_mem_declarations hd).body
  have hle := d.body.start_le_stop
  rw [Span.length] at hbody
  simp only [Text.byteLength_append] at hlen hplace
  refine ⟨⟨?_, ?_⟩, hplace.2.1⟩
  · rw [Span.start_shift]
    omega
  · rw [Span.stop_shift]
    omega

end

/-! ### The review -/

/-- Things of a kind of which no two are apart are one, in a list in order. -/
theorem countP_eq_one_of_pairwise {α : Type} {R : α → α → Prop} {l : List α} (h : l.Pairwise R)
    {P : α → Bool} (hP : ∀ x y, P x = true → P y = true → ¬ R x y) {x : α} (hx : x ∈ l)
    (hPx : P x = true) : l.countP P = 1 := by
  induction h with
  | nil => cases hx
  | @cons y l hfirst hl ih =>
    by_cases hPy : P y = true
    · have hrest : l.countP P = 0 :=
        List.countP_eq_zero.mpr fun z hz hPz => hP y z hPy hPz (hfirst z hz)
      rw [List.countP_cons_of_pos hPy, hrest]
    · rw [List.countP_cons_of_neg hPy]
      refine ih ((List.mem_cons.mp hx).resolve_left ?_)
      rintro rfl
      exact hPy hPx

/-- Whether a diagnostic reports an unknown module at a span. -/
def Diagnostic.reportsModule (span : Span) (g : Diagnostic) : Bool :=
  g.code == some .unknownModule && g.span? == some span

theorem Finding.reportsModule_diagnostic {f : Finding} {span : Span} :
    f.diagnostic.reportsModule span = true ↔ ∃ name, f = .unknownModule name span := by
  rw [Diagnostic.reportsModule, Bool.and_eq_true, beq_iff_eq, beq_iff_eq, Finding.span?_diagnostic,
    Option.some.injEq]
  cases f <;> simp [Finding.diagnostic, Finding.code, Finding.span]

/-- **A call to an unknown module is reported once.** Of the statements of a pipeline, each call
that names an unknown module has exactly one report of an unknown module at the span of its module,
unless the review does not see the call, and then it has none. So in a document without such reports
the review sees no call to an unknown module. -/
theorem unknownModule_reported_once (settings : Settings) (source : Text) (active : Option Text)
    {d : Declaration} (hd : d ∈ source.declarations) (hkind : d.kind = .pipeline) {c : Call}
    (hc : .call c ∈ (d.content source).statements)
    (hknown : c.module ∉ source.knownModules settings.builtinModules) :
    (settings.analyze source active).diagnostics.countP
        (Diagnostic.reportsModule (c.moduleSpan.shift d.body.start)) =
      (if c.Unseen (d.content source) then 0 else 1) ∧
    ((∀ g ∈ (settings.analyze source active).diagnostics, g.code ≠ some .unknownModule) →
      c.Unseen (d.content source)) := by
  obtain ⟨hwithin, hne⟩ := moduleSpan_within hd hc
  have hcount := countP_diagnostics settings source active
    (P := Diagnostic.reportsModule (c.moduleSpan.shift d.body.start)) fun f hf => by
      obtain ⟨name, rfl⟩ := Finding.reportsModule_diagnostic.mp hf
      rfl
  have honce : (settings.analyze source active).diagnostics.countP
      (Diagnostic.reportsModule (c.moduleSpan.shift d.body.start)) =
        if c.Unseen (d.content source) then 0 else 1 := by
    rw [hcount]
    split
    · next hunseen =>
      refine List.countP_eq_zero.mpr fun f hf hreports => ?_
      obtain ⟨name, rfl⟩ := Finding.reportsModule_diagnostic.mp hreports
      exact hunseen.unknownModule_not_mem hc name
        (mem_pipelineFindings_of_within hd hf hwithin (Nat.add_lt_add_right hne _))
    · next hseen =>
      have hmem := (unknownModule_mem_or_unseen hd hc hknown).resolve_right hseen
      refine countP_eq_one_of_pairwise (pairwise_pipelineReview _ _) ?_
        (Text.mem_pipelineReview.mpr ⟨d, hd, hkind, hmem⟩)
        (Finding.reportsModule_diagnostic.mpr ⟨_, rfl⟩)
      -- two reports at one span are not apart
      intro f g hf hg hbefore
      obtain ⟨_, rfl⟩ := Finding.reportsModule_diagnostic.mp hf
      obtain ⟨_, rfl⟩ := Finding.reportsModule_diagnostic.mp hg
      simp only [Span.Before, Finding.span, Span.start_shift, Span.stop_shift] at hbefore
      omega
  refine ⟨honce, fun hnone => ?_⟩
  by_contra hseen
  rw [if_neg hseen] at honce
  obtain ⟨g, hg, hreports⟩ := List.countP_pos_iff.mp (honce ▸ Nat.one_pos)
  rw [Diagnostic.reportsModule, Bool.and_eq_true, beq_iff_eq] at hreports
  exact hnone g hg hreports.1

/-- A bound call after a line with a call, a parenthesis in a string and a brace in a comment. -/
theorem unknownModule_reported_once_bound :
    let source : Text :=
      "pipeline \"p\" \x7b run é(\")\") // \x7b\n  let b = run io.m (b)\n\x7d".toList
    let d : Declaration := ⟨.pipeline, ['p'], .ofLength 10 1, .ofLength 0 8, .ofLength 14 41⟩
    let c : Call := ⟨20, some ⟨['b'], .ofLength 24 1⟩, "io.m".toList, .ofLength 32 4,
      some (.ofLength 38 1), 40⟩
    d ∈ source.declarations ∧ .call c ∈ (d.content source).statements ∧
      c.module ∉ source.knownModules [] ∧ ¬ c.Unseen (d.content source) ∧
      (Settings.analyze {} source none).diagnostics.countP
        (Diagnostic.reportsModule (.ofLength 46 4)) = 1 := by
  intro source d c
  have hd : d ∈ source.declarations := by decide +kernel
  have hc : .call c ∈ (d.content source).statements := by decide +kernel
  have hknown : c.module ∉ source.knownModules [] := by decide +kernel
  have hseen : ¬ c.Unseen (d.content source) := by decide +kernel
  refine ⟨hd, hc, hknown, hseen, ?_⟩
  have h := (unknownModule_reported_once {} source none hd rfl hc hknown).1
  rwa [if_neg hseen] at h

/-- A document calls an unknown module, and no unknown module is reported of it. -/
def Text.LacksReport (source : Text) : Prop :=
  ∃ d ∈ source.declarations, d.kind = .pipeline ∧
    ∃ c, .call c ∈ (d.content source).statements ∧ c.module ∉ source.knownModules [] ∧
      ∀ g ∈ (Settings.analyze {} source none).diagnostics, g.code ≠ some .unknownModule

/-- **Not every call to an unknown module is reported**: not on a line that starts in a string, nor
after a line on which a brace of a string was counted, nor in the arguments of a `run` after a dot
or in an arrow chain. -/
theorem unknownModule_unreported :
    Text.LacksReport "pipeline \"p\" \x7b\n  run io.write_output(\"a\nb\") run nope()\n\x7d".toList ∧
    Text.LacksReport
      "pipeline \"p\" \x7b\n  run io.write_output(\"\n\x7d\n\")\n  run nope()\n\x7d".toList ∧
    Text.LacksReport "pipeline \"p\" \x7b x.run io.read_fs(run nope()) \x7d".toList ∧
    Text.LacksReport "pipeline \"p\" \x7b a -> run io.read_fs(run nope()) \x7d".toList := by
  -- the pipeline and the call, by the length of the one and the start of the other
  have hcase : ∀ (source : Text) (length start : Nat),
      let d : Declaration := ⟨.pipeline, ['p'], .ofLength 10 1, .ofLength 0 8, .ofLength 14 length⟩
      let c : Call := ⟨start, none, "nope".toList, .ofLength (start + 4) 4,
        some (.ofLength (start + 9) 0), start + 10⟩
      (d ∈ source.declarations ∧ .call c ∈ (d.content source).statements ∧
        c.module ∉ source.knownModules [] ∧ ∀ f ∈ source.emitted [], f.code ≠ .unknownModule) →
      source.LacksReport := by
    rintro source length start d c ⟨hd, hc, hknown, hnone⟩
    refine ⟨d, hd, rfl, c, hc, hknown, fun g hg hcode => ?_⟩
    obtain ⟨f, hf, rfl⟩ := mem_diagnostics.mp hg
    exact hnone f hf (Option.some.inj hcode)
  exact ⟨hcase _ 41 30 (by decide +kernel), hcase _ 43 32 (by decide +kernel),
    hcase _ 30 18 (by decide +kernel), hcase _ 33 21 (by decide +kernel)⟩

end PipelineDoc
