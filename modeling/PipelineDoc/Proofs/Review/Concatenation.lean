import PipelineDoc.Proofs.Declaration.Concatenation
import PipelineDoc.Proofs.Review.Known

/-!
# The review of documents one after the other

A pipeline is reviewed in its own body, and all that it takes from the rest of the document is which
modules are known. So what is found in two documents, one after the other, is what is found in each
of them, apart from calls of a module that the other one declares. The findings of the first
document all stand before those of the second one, and the sort keeps them apart
(`filter_findings_append_newline`). Main statement: `analysis_append_newline`.
-/

namespace PipelineDoc

/-! ### Moved findings -/

/-- The same finding, seen from a document in which `amount` more bytes come first. -/
def Finding.shift (amount : Nat) : Finding → Finding
  | .unbalanced opened closed span => .unbalanced opened closed (span.shift amount)
  | .unnamed kind span => .unnamed kind (span.shift amount)
  | .duplicate kind name span first => .duplicate kind name (span.shift amount) (first.shift amount)
  | .unknownModule name span => .unknownModule name (span.shift amount)
  | .unknownVariable name pipeline span => .unknownVariable name pipeline (span.shift amount)

/-- The same diagnostic, seen from a document in which `amount` more bytes come first. -/
def Diagnostic.shift (d : Diagnostic) (amount : Nat) : Diagnostic :=
  { d with annotations := d.annotations.map fun a => { a with span := a.span.shift amount } }

@[simp] theorem Finding.span_shift (f : Finding) (amount : Nat) :
    (f.shift amount).span = f.span.shift amount := by
  cases f <;> rfl

theorem Finding.diagnostic_shift (f : Finding) (amount : Nat) :
    (f.shift amount).diagnostic = f.diagnostic.shift amount := by
  cases f <;> rfl

theorem Finding.le_shift (f g : Finding) (amount : Nat) :
    (f.shift amount).le (g.shift amount) = f.le g := by
  simp only [Finding.le, Span.le, Finding.span_shift, Span.start_shift, Span.stop_shift,
    Nat.add_lt_add_iff_right, Nat.add_le_add_iff_right, beq_eq_decide, Nat.add_right_cancel_iff]

theorem callFindings_add (known : List Text) (scope : Scope) (pipeline : Text) (offset amount : Nat)
    (code : Text) (call : Call) : callFindings known scope pipeline (offset + amount) code call =
      (callFindings known scope pipeline offset code call).map (Finding.shift amount) := by
  have hmodule : Finding.unknownModule call.module (call.moduleSpan.shift (offset + amount)) =
      (Finding.unknownModule call.module (call.moduleSpan.shift offset)).shift amount := by
    rw [Finding.shift, Span.shift_shift]
  have hreference : ∀ n, referenceFinding? scope pipeline (n + amount) =
      fun r => (referenceFinding? scope pipeline n r).map (Finding.shift amount) := by
    intro n
    funext r
    simp only [referenceFinding?]
    split
    · rfl
    · rw [Option.map_some, Finding.shift, Span.shift_shift]
  simp only [callFindings, List.map_append, hmodule]
  congr 1
  · split <;> rfl
  · cases call.args with
    | none => rfl
    | some args =>
      simp only
      rw [Nat.add_right_comm, hreference, List.map_filterMap]

theorem lineFindings_add (known : List Text) (pipeline : Text) (amount : Nat) (lines : List Text)
    (offset : Nat) (depth : Int) (scope : Scope) :
    lineFindings known pipeline (offset + amount) depth scope lines =
      (lineFindings known pipeline offset depth scope lines).map (Finding.shift amount) := by
  induction lines generalizing offset depth scope with
  | nil => rfl
  | cons line lines ih =>
    simp only [lineFindings]
    split
    · rfl
    · rw [List.map_append, Nat.add_right_comm, ih, List.map_flatMap]
      congr 2
      funext call
      exact callFindings_add ..

/-! ### Names of modules -/

/-- The names of the modules that a document declares. -/
def Text.moduleNames (source : Text) : List Text := source.modules.map (·.name)

/-! ### Bodies in a longer document -/

theorem Text.slice?_append_left {t m : Text} {span : Span} (h : t.slice? span = some m) (s : Text) :
    (t ++ s).slice? span = some m := by
  obtain ⟨p, q, rfl, hp, hm⟩ := slice?_eq_some_iff.mp h
  exact slice?_eq_some_iff.mpr ⟨p, q ++ s, by simp, hp, hm⟩

theorem Text.slice?_append_right {t m : Text} {span : Span} (h : t.slice? span = some m) (p : Text) :
    (p ++ t).slice? (span.shift p.byteLength) = some m := by
  have hwhole := slice?_append p t []
  rw [List.append_nil] at hwhole
  exact slice?_shift hwhole h

section

variable {source : Text} {known known' names : List Text} {d : Declaration}
  (hknown : ∀ m, m ∈ known' ↔ m ∈ known ∨ m ∈ names) (hd : d ∈ source.declarations)

include hknown hd

theorem pipelineFindings_append_left (s : Text) : pipelineFindings (source ++ s) known' d =
    (pipelineFindings source known d).filter (Finding.outlasts names) := by
  have hbody := Text.slice?_append_left (Text.standsIn_of_mem_declarations hd).body s
  rw [pipelineFindings, pipelineFindings, Declaration.content, Text.slice_of_slice? hbody]
  exact lineFindings_eq_filter hknown ..

theorem pipelineFindings_append_right (p : Text) :
    pipelineFindings (p ++ source) known' (d.shift p.byteLength) =
      ((pipelineFindings source known d).filter (Finding.outlasts names)).map
        (Finding.shift p.byteLength) := by
  have hbody := Text.slice?_append_right (Text.standsIn_of_mem_declarations hd).body p
  have hcontent : (d.shift p.byteLength).content (p ++ source) = d.content source :=
    Text.slice_of_slice? hbody
  rw [pipelineFindings, pipelineFindings, hcontent, ← lineFindings_eq_filter hknown,
    ← lineFindings_add]
  rfl

end

/-! ### The passes over two documents -/

section

variable {a : Text} (hescape : ¬ ['\\', '"'] <:+: a)
  (hend : Mode.code.run a none ∉ [Mode.string, Mode.stringEscape])
  (hreason : ∀ r ∈ a.rejections, r.reason = .missingName)

include hescape hend hreason

theorem nameFindings_append_newline (b : Text) : nameFindings (a ++ '\n' :: b) =
    nameFindings a ++ (nameFindings b).map (Finding.shift (a.byteLength + 1)) := by
  rw [nameFindings, Text.rejections_append_newline hescape hend hreason, List.filterMap_append,
    List.filterMap_map, nameFindings, nameFindings, List.map_filterMap]
  congr 2
  funext r
  simp only [Function.comp_apply, Rejection.shift]
  split <;> rfl

theorem mem_knownModules_append_newline (b : Text) (extra : List Text) (m : Text) :
    (m ∈ (a ++ '\n' :: b : Text).knownModules extra ↔
      m ∈ a.knownModules extra ∨ m ∈ b.moduleNames) ∧
    (m ∈ (a ++ '\n' :: b : Text).knownModules extra ↔
      m ∈ b.knownModules extra ∨ m ∈ a.moduleNames) := by
  have hnames : (a ++ '\n' :: b : Text).moduleNames = a.moduleNames ++ b.moduleNames := by
    rw [Text.moduleNames, Text.modules, Text.declarations_append_newline hescape hend hreason,
      List.filter_append, List.filter_map, List.map_append, List.map_map]
    rfl
  have hmem : ∀ t : Text, m ∈ t.knownModules extra ↔
      m ∈ standardModules ++ extra ∨ m ∈ t.moduleNames := fun t => List.mem_append
  simp only [hmem, hnames, List.mem_append]
  tauto

theorem pipelineReview_append_newline (b : Text) (extra : List Text) :
    (a ++ '\n' :: b : Text).pipelineReview ((a ++ '\n' :: b : Text).knownModules extra) =
      (a.pipelineReview (a.knownModules extra)).filter (Finding.outlasts b.moduleNames) ++
        ((b.pipelineReview (b.knownModules extra)).filter (Finding.outlasts a.moduleNames)).map
          (Finding.shift (a.byteLength + 1)) := by
  have hknown := mem_knownModules_append_newline hescape hend hreason b extra
  have hfront : (a ++ ['\n'] : Text).byteLength = a.byteLength + 1 := by
    rw [Text.byteLength_append]
    rfl
  rw [Text.pipelineReview, Text.declarations_append_newline hescape hend hreason,
    List.filter_append, List.flatMap_append, List.filter_map, List.flatMap_map, Text.pipelineReview,
    Text.pipelineReview, List.filter_flatMap, List.filter_flatMap, List.map_flatMap]
  congr 1
  · refine List.flatMap_congr fun d hd => ?_
    exact pipelineFindings_append_left (fun m => (hknown m).1) (List.mem_of_mem_filter hd) _
  · refine List.flatMap_congr fun d hd => ?_
    have hmoved := pipelineFindings_append_right (fun m => (hknown m).2)
      (List.mem_of_mem_filter hd) (a ++ ['\n'])
    rw [hfront, List.append_assoc, List.singleton_append] at hmoved
    exact hmoved

end

/-! ### Findings about names and calls -/

/-- What is found about names and calls, pass by pass. -/
def Text.reports (source : Text) (extra : List Text) : List Finding :=
  nameFindings source ++ source.pipelineReview (source.knownModules extra)

/-- Findings other than unbalanced braces and repeats are about names and calls. -/
theorem filter_emitted_of {p : Finding → Bool}
    (hbraces : ∀ opened closed span, p (.unbalanced opened closed span) = false)
    (hrepeat : ∀ kind name span first, p (.duplicate kind name span first) = false)
    (source : Text) (extra : List Text) :
    (source.emitted extra).filter p = (source.reports extra).filter p := by
  have hunbalanced : (braceFindings source).filter p = [] := by
    rw [List.filter_eq_nil_iff]
    intro f hf
    simp only [braceFindings] at hf
    split at hf
    · cases hf
    · rw [List.mem_singleton.mp hf, hbraces]
      exact Bool.false_ne_true
  have hduplicates : (duplicatesAfter [] source.declarations).filter p = [] := by
    rw [List.filter_eq_nil_iff]
    intro f hf
    obtain ⟨_, _, _, _, -, -, -, -, rfl⟩ := exists_of_mem_duplicatesAfter hf
    rw [hrepeat]
    exact Bool.false_ne_true
  simp only [Text.emitted, Text.reports, List.filter_append, hunbalanced, hduplicates,
    List.nil_append, List.append_nil]
  rfl

theorem filter_outlasts_nameFindings (source : Text) (names : List Text) :
    (nameFindings source).filter (Finding.outlasts names) = nameFindings source := by
  rw [List.filter_eq_self]
  intro f hf
  exact Finding.outlasts_of_not_isOfCall
    (isOfCall_eq_false (.inr (List.mem_append_left _ hf))) _

theorem start_le_of_mem_reports {source : Text} {extra : List Text} {f : Finding}
    (hf : f ∈ source.reports extra) : f.span.start ≤ source.byteLength := by
  have hslice : ∃ m, source.slice? f.span = some m := by
    rcases List.mem_append.mp hf with hf | hf
    · obtain ⟨r, hr, rfl⟩ := exists_of_mem_nameFindings hf
      exact ⟨_, Text.slice?_of_mem_rejections hr⟩
    · obtain ⟨d, hd, -, hf⟩ := Text.mem_pipelineReview.mp hf
      have hin := pipelineFindings_isIn hd f hf
      cases f with
      | unknownModule | unknownVariable => exact ⟨_, hin.1⟩
      | unbalanced | unnamed | duplicate => exact hin.elim
  obtain ⟨m, hm⟩ := hslice
  exact f.span.start_le_stop.trans (Text.stop_le_of_slice? hm)

section

variable {a : Text} (hescape : ¬ ['\\', '"'] <:+: a)
  (hend : Mode.code.run a none ∉ [Mode.string, Mode.stringEscape])
  (hreason : ∀ r ∈ a.rejections, r.reason = .missingName)

include hescape hend hreason

/-- What is found in two documents, one after the other, falls apart by where it starts. -/
theorem filter_start_reports_append_newline (b : Text) (extra : List Text) :
    ((a ++ '\n' :: b : Text).reports extra).filter (fun f => decide (f.span.start ≤ a.byteLength)) =
        (a.reports extra).filter (Finding.outlasts b.moduleNames) ∧
      ((a ++ '\n' :: b : Text).reports extra).filter
          (fun f => !decide (f.span.start ≤ a.byteLength)) =
        ((b.reports extra).filter (Finding.outlasts a.moduleNames)).map
          (Finding.shift (a.byteLength + 1)) := by
  have hfirst : ∀ l : List Finding, l ⊆ a.reports extra →
      l.filter (fun f => decide (f.span.start ≤ a.byteLength)) = l ∧
        l.filter (fun f => !decide (f.span.start ≤ a.byteLength)) = [] := by
    intro l hl
    have hstart : ∀ f ∈ l, f.span.start ≤ a.byteLength := fun f hf => start_le_of_mem_reports (hl hf)
    rw [List.filter_eq_self, List.filter_eq_nil_iff]
    simpa using hstart
  have hsecond : ∀ l : List Finding,
      (l.map (Finding.shift (a.byteLength + 1))).filter
          (fun f => decide (f.span.start ≤ a.byteLength)) = [] ∧
        (l.map (Finding.shift (a.byteLength + 1))).filter
          (fun f => !decide (f.span.start ≤ a.byteLength)) =
        l.map (Finding.shift (a.byteLength + 1)) := by
    intro l
    have hstart : ∀ f ∈ l.map (Finding.shift (a.byteLength + 1)), a.byteLength < f.span.start := by
      intro f hf
      obtain ⟨g, -, rfl⟩ := List.mem_map.mp hf
      rw [Finding.span_shift, Span.start_shift]
      omega
    rw [List.filter_eq_self, List.filter_eq_nil_iff]
    simpa using hstart
  obtain ⟨hnames, hnames'⟩ := hfirst (nameFindings a) (List.subset_append_left ..)
  obtain ⟨hcalls, hcalls'⟩ := hfirst
    ((a.pipelineReview (a.knownModules extra)).filter (Finding.outlasts b.moduleNames))
    (List.Subset.trans (List.filter_subset_self ..) (List.subset_append_right ..))
  rw [Text.reports, nameFindings_append_newline hescape hend hreason,
    pipelineReview_append_newline hescape hend hreason]
  simp only [Text.reports, List.filter_append, List.map_append, filter_outlasts_nameFindings,
    hnames, hnames', hcalls, hcalls', (hsecond _).1, (hsecond _).2, List.append_nil,
    List.nil_append, and_self]

/-- **The findings of two documents**, one after the other, of a kind that has nothing to do with
unbalanced braces, repeats and places. -/
theorem filter_findings_append_newline {p : Finding → Bool}
    (hbraces : ∀ opened closed span, p (.unbalanced opened closed span) = false)
    (hrepeat : ∀ kind name span first, p (.duplicate kind name span first) = false)
    (hshift : ∀ f amount, p (f.shift amount) = p f) (b : Text) (extra : List Text) :
    ((a ++ '\n' :: b : Text).findings extra).filter p =
      (a.findings extra).filter (fun f => f.outlasts b.moduleNames && p f) ++
        ((b.findings extra).filter fun f => f.outlasts a.moduleNames && p f).map
          (Finding.shift (a.byteLength + 1)) := by
  obtain ⟨hfirst, hsecond⟩ := filter_start_reports_append_newline hescape hend hreason b extra
  have hless : ∀ f g : Finding, decide (f.span.start ≤ a.byteLength) = true →
      decide (g.span.start ≤ a.byteLength) = false → g.le f = false := by
    intro f g hf hg
    rw [decide_eq_true_eq] at hf
    rw [decide_eq_false_iff_not] at hg
    have hne : (g.span.start == f.span.start) = false := beq_false_of_ne (by omega)
    rw [Finding.le, Span.le, decide_eq_false (by omega), hne]
    rfl
  have hmap : ∀ l : List Finding, (l.map (Finding.shift (a.byteLength + 1))).filter p =
      (l.filter p).map (Finding.shift (a.byteLength + 1)) := by
    intro l
    rw [List.filter_map]
    congr 2
    funext f
    exact hshift f _
  rw [← List.filter_filter, ← List.filter_filter]
  simp only [filter_findings, filter_emitted_of hbraces hrepeat]
  rw [mergeSort_eq_append Finding.le_trans Finding.le_total fun f _ g _ => hless f g,
    filter_mergeSort Finding.le_trans Finding.le_total,
    filter_mergeSort Finding.le_trans Finding.le_total,
    List.map_mergeSort fun f _ g _ => (Finding.le_shift f g _).symm, ← List.filter_comm p, hfirst,
    ← List.filter_comm p, hsecond, hmap, List.filter_comm p, List.filter_comm p]

end

/-! ### Diagnostics -/

/-- Whether a diagnostic has one of the given codes. -/
def Diagnostic.hasCode (codes : List Code) (d : Diagnostic) : Bool := d.code.any codes.contains

section

variable {a : Text} (hescape : ¬ ['\\', '"'] <:+: a)
  (hend : Mode.code.run a none ∉ [Mode.string, Mode.stringEscape])
  (hreason : ∀ r ∈ a.rejections, r.reason = .missingName)

include hescape hend hreason

/-- **The diagnostics of two documents**, one after the other, about names and calls. -/
theorem filter_diagnose_append_newline (settings : Settings) (q : Diagnostic → Bool)
    (kept : List Text → Diagnostic → Bool)
    (hq : ∀ f : Finding, q f.diagnostic → f.code ≠ .unbalancedBraces ∧ f.code ≠ .duplicate)
    (hshift : ∀ (f : Finding) amount, q (f.shift amount).diagnostic = q f.diagnostic)
    (hkept : ∀ names (f : Finding),
      kept names f.diagnostic = (f.outlasts names && q f.diagnostic)) (b : Text) :
    (settings.diagnose (a ++ '\n' :: b)).filter q =
      (settings.diagnose a).filter (kept b.moduleNames) ++
        ((settings.diagnose b).filter (kept a.moduleNames)).map (·.shift (a.byteLength + 1)) := by
  have hbraces : ∀ opened closed span, q (Finding.unbalanced opened closed span).diagnostic = false :=
    fun _ _ _ => Bool.eq_false_iff.mpr fun h => (hq _ h).1 rfl
  have hrepeat : ∀ kind name span first,
      q (Finding.duplicate kind name span first).diagnostic = false :=
    fun _ _ _ _ => Bool.eq_false_iff.mpr fun h => (hq _ h).2 rfl
  have hfindings := filter_findings_append_newline hescape hend hreason
    (p := fun f => q f.diagnostic) hbraces hrepeat hshift b settings.builtinModules
  simp only [Settings.diagnose, Text.diagnose, List.filter_map, Function.comp_def, hkept, hfindings,
    List.map_append, List.map_map, Finding.diagnostic_shift]

end

/-- **Documents one after the other are analysed one after the other.** Let no quote of the first
one come right after a backslash, let it not end in a string, and let none of its keywords be
rejected for another reason than a missing name. Then the declarations and the rejected keywords of
both, with a newline between them, are those of the first one followed by those of the second one
moved behind it, and so are the diagnostics about missing names and unknown variables. Unknown
modules are those that the other document does not declare. -/
theorem analysis_append_newline (settings : Settings) (a b : Text) (hescape : ¬ ['\\', '"'] <:+: a)
    (hend : Mode.code.run a none ∉ [Mode.string, Mode.stringEscape])
    (hreason : ∀ r ∈ a.rejections, r.reason = .missingName) :
    (a ++ '\n' :: b : Text).declarations =
      a.declarations ++ b.declarations.map (·.shift (a.byteLength + 1)) ∧
    (a ++ '\n' :: b : Text).rejections =
      a.rejections ++ b.rejections.map (·.shift (a.byteLength + 1)) ∧
    (settings.diagnose (a ++ '\n' :: b)).filter (·.hasCode [.missingName, .unknownVariable]) =
      (settings.diagnose a).filter (·.hasCode [.missingName, .unknownVariable]) ++
        ((settings.diagnose b).filter (·.hasCode [.missingName, .unknownVariable])).map
          (·.shift (a.byteLength + 1)) ∧
    (settings.diagnose (a ++ '\n' :: b)).filter (·.hasCode [.unknownModule]) =
      (settings.diagnose a).filter
          (fun d => d.hasCode [.unknownModule] && !d.reportsOneOf b.moduleNames) ++
        ((settings.diagnose b).filter fun d =>
          d.hasCode [.unknownModule] && !d.reportsOneOf a.moduleNames).map
            (·.shift (a.byteLength + 1)) := by
  refine ⟨Text.declarations_append_newline hescape hend hreason b,
    Text.rejections_append_newline hescape hend hreason b, ?_, ?_⟩
  · refine filter_diagnose_append_newline hescape hend hreason settings _
      (fun _ => Diagnostic.hasCode [.missingName, .unknownVariable]) ?_ ?_ ?_ b
    · intro f hf
      cases f with
      | unnamed | unknownVariable => exact ⟨Code.noConfusion, Code.noConfusion⟩
      | unbalanced | duplicate | unknownModule => cases hf
    · intro f amount
      rw [Finding.diagnostic_shift]
      rfl
    · intro names f
      cases f with
      | unknownModule => exact (Bool.and_false _).symm
      | unbalanced | unnamed | duplicate | unknownVariable => rfl
  · refine filter_diagnose_append_newline hescape hend hreason settings _
      (fun names d => d.hasCode [.unknownModule] && !d.reportsOneOf names) ?_ ?_ ?_ b
    · intro f hf
      cases f with
      | unknownModule => exact ⟨Code.noConfusion, Code.noConfusion⟩
      | unbalanced | unnamed | duplicate | unknownVariable => cases hf
    · intro f amount
      rw [Finding.diagnostic_shift]
      rfl
    · intro names f
      rw [Finding.reportsOneOf_diagnostic, Bool.not_not, Bool.and_comm]

/-- Of two modules that a pipeline calls and its document does not declare, the next document
declares one, and only the other one stays unknown. A keyword without a name stands right before the
newline. -/
theorem analysis_append_newline_calls :
    let a : Text := "module \"a\" \x7b\x7d pipeline \"p\" \x7b run b(x) run c(y) \x7d module".toList
    let b : Text := "module \"b\" \x7b\x7d\npipeline \"q\" \x7b run a(u) run d() \x7d".toList
    ¬ ['\\', '"'] <:+: a ∧ Mode.code.run a none ∉ [Mode.string, Mode.stringEscape] ∧
      (∀ r ∈ a.rejections, r.reason = .missingName) ∧
      (a ++ '\n' :: b).declarations = a.declarations ++ b.declarations.map (·.shift 56) ∧
      (Finding.unknownModule ['b'] (.ofLength 33 1)).diagnostic ∈ Settings.diagnose {} a ∧
      (Finding.unknownModule ['b'] (.ofLength 33 1)).diagnostic ∉
        Settings.diagnose {} (a ++ '\n' :: b) ∧
      (Finding.unknownModule ['c'] (.ofLength 42 1)).diagnostic ∈
        Settings.diagnose {} (a ++ '\n' :: b) := by
  intro a b
  have hescape : ¬ ['\\', '"'] <:+: a := by decide +kernel
  have hend : Mode.code.run a none ∉ [Mode.string, Mode.stringEscape] := by decide +kernel
  have hreason : ∀ r ∈ a.rejections, r.reason = .missingName := by decide +kernel
  have hb : (Finding.unknownModule ['b'] (.ofLength 33 1)).diagnostic ∈ Settings.diagnose {} a :=
    List.mem_map_of_mem (List.mem_mergeSort.mpr (by decide +kernel))
  have hc : (Finding.unknownModule ['c'] (.ofLength 42 1)).diagnostic ∈ Settings.diagnose {} a :=
    List.mem_map_of_mem (List.mem_mergeSort.mpr (by decide +kernel))
  obtain ⟨hdeclarations, -, -, hmodules⟩ := analysis_append_newline {} a b hescape hend hreason
  have hlength : a.byteLength + 1 = 56 := by decide +kernel
  rw [hlength] at hdeclarations
  have hkept : (Finding.unknownModule ['c'] (.ofLength 42 1)).diagnostic.reportsOneOf
      b.moduleNames = false := by
    rw [Finding.reportsOneOf_diagnostic]
    decide +kernel
  have hlost : (Finding.unknownModule ['b'] (.ofLength 33 1)).diagnostic.reportsOneOf
      b.moduleNames = true := by
    rw [Finding.reportsOneOf_diagnostic]
    decide +kernel
  refine ⟨hescape, hend, hreason, hdeclarations, hb, fun hmem => ?_, ?_⟩
  · have hmem := List.mem_filter.mpr ⟨hmem, (rfl : Diagnostic.hasCode [.unknownModule] _ = true)⟩
    rw [hmodules] at hmem
    rcases List.mem_append.mp hmem with hmem | hmem
    · have hreports := (List.mem_filter.mp hmem).2
      rw [hlost, Bool.not_true, Bool.and_false] at hreports
      cases hreports
    · -- what is moved behind the first document does not start in it
      obtain ⟨d, -, hd⟩ := List.mem_map.mp hmem
      have hspan : (d.annotations.map fun x => x.span.start + (a.byteLength + 1)) = [33] := by
        have hstarts := congrArg (fun d => d.annotations.map (·.span.start)) hd
        rw [Diagnostic.shift, List.map_map] at hstarts
        exact hstarts
      obtain ⟨x, -, hx⟩ := List.mem_map.mp (hspan ▸ List.mem_singleton_self 33)
      omega
  · refine List.mem_of_mem_filter (p := Diagnostic.hasCode [.unknownModule]) ?_
    rw [hmodules]
    refine List.mem_append_left _ (List.mem_filter.mpr ⟨hc, ?_⟩)
    rw [hkept]
    rfl

end PipelineDoc
