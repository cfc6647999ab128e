import Mathlib.Data.Finset.Card
import PipelineDoc.Proofs.Declaration.Keywords
import PipelineDoc.Proofs.Review.Order

/-!
# Repeated and unnamed declarations

The review goes over the declarations in order and compares each with those it has seen. What it
reports is said here by places alone: a declaration is a repeat if another one of its kind and name
ends before it (`Declaration.Repeats`), and the report points at the first such one
(`duplicatesAfter_eq`). Each repeat is one declaration more than there are kinds and names
(`length_duplicatesAfter`). Declarations and rejected keywords come in the order of their places, so
sorting does not move their reports. Main statement: `analyze_repeats_exactly`.
-/

namespace PipelineDoc

/-- A declaration has the kind and the name of one that ends before it. -/
structure Declaration.Repeats (d e : Declaration) : Prop where
  kind : e.kind = d.kind
  name : e.name = d.name
  earlier : e.body.stop < d.keywordSpan.start

instance (d e : Declaration) : Decidable (d.Repeats e) :=
  decidable_of_iff (e.kind = d.kind ∧ e.name = d.name ∧ e.body.stop < d.keywordSpan.start)
    ⟨fun ⟨kind, name, earlier⟩ => ⟨kind, name, earlier⟩,
      fun ⟨kind, name, earlier⟩ => ⟨kind, name, earlier⟩⟩

/-- The warning that a declaration repeats `first`: the primary remark is on its own name, the other
one on the name of `first`. -/
def Declaration.repeatWarning (d first : Declaration) : Diagnostic where
  severity := .warning
  code := some .duplicate
  message := d.kind.display ++ " `" ++ String.ofList d.name ++ "` is declared more than once"
  annotations := [⟨d.nameSpan, "duplicate declaration", true⟩,
    ⟨first.nameSpan, "first declared here", false⟩]
  help := some "the last declaration wins"

/-- The error that a keyword has no quoted name. -/
def Rejection.nameError (r : Rejection) : Diagnostic where
  severity := .error
  code := some .missingName
  message := "`" ++ r.kind.display ++ "` must be followed by a quoted name"
  annotations := [⟨r.keywordSpan, "expected a name in double quotes after this", true⟩]
  help := some ("write `" ++ r.kind.display ++ " \"name\" \x7b ... \x7d`")

/-! ### Repeats by places -/

/-- Declarations that come one after the other, each with its keyword before the end of its body. -/
structure InOrder (ds : List Declaration) : Prop where
  pairwise : ds.Pairwise fun d e => d.body.stop < e.keywordSpan.start
  keyword_le : ∀ d ∈ ds, d.keywordSpan.start ≤ d.body.stop

theorem Text.inOrder_declarations (source : Text) : InOrder source.declarations := by
  refine ⟨source.pairwise_declarations, fun d hd => ?_⟩
  have := (Text.standsIn_of_mem_declarations hd).keyword_le_body
  have := d.body.start_le_stop
  omega

theorem InOrder.find?_repeats {older newer : List Declaration} {d : Declaration}
    (h : InOrder (older ++ d :: newer)) : (older ++ d :: newer).find? (fun e => d.Repeats e) =
      older.find? fun e => e.kind == d.kind && e.name == d.name := by
  obtain ⟨-, hnewer, holder⟩ := List.pairwise_append.mp h.pairwise
  have hnone : (d :: newer).find? (fun e => decide (d.Repeats e)) = none := by
    refine List.find?_eq_none.mpr fun e he hrepeats => ?_
    have hearlier := (of_decide_eq_true hrepeats).earlier
    have hspan := h.keyword_le e (List.mem_append_right _ he)
    rcases List.mem_cons.mp he with rfl | he
    · omega
    · have := (List.pairwise_cons.mp hnewer).1 e he
      have := h.keyword_le d (by simp)
      omega
  rw [List.find?_append, hnone, Option.or_none, ← List.head?_filter, ← List.head?_filter]
  refine congrArg List.head? (List.filter_congr fun e he => ?_)
  have hearlier := holder e he d List.mem_cons_self
  rw [Bool.eq_iff_iff, decide_eq_true_iff, Bool.and_eq_true, beq_iff_eq, beq_iff_eq]
  exact ⟨fun hrepeats => ⟨hrepeats.kind, hrepeats.name⟩, fun ⟨hkind, hname⟩ => ⟨hkind, hname, hearlier⟩⟩

/-- **The repeats that are found**: each declaration that repeats another one, with the first that
it repeats. -/
theorem InOrder.duplicatesAfter_eq {ds : List Declaration} (h : InOrder ds) :
    duplicatesAfter [] ds = ds.filterMap fun d => (ds.find? fun e => d.Repeats e).map fun first =>
      .duplicate d.kind d.name d.nameSpan first.nameSpan := by
  -- from any place of the list on, with the declarations before it
  suffices hrest : ∀ seen rest, ds = seen ++ rest → duplicatesAfter seen rest =
      rest.filterMap fun d => (ds.find? fun e => d.Repeats e).map fun first =>
        .duplicate d.kind d.name d.nameSpan first.nameSpan from hrest [] ds rfl
  intro seen rest hds
  induction rest generalizing seen with
  | nil => rfl
  | cons d rest ih =>
    have hfirst : ds.find? (fun e => d.Repeats e) =
        seen.find? fun e => e.kind == d.kind && e.name == d.name := by
      rw [hds] at h ⊢
      exact h.find?_repeats
    rw [duplicatesAfter, ih (seen ++ [d]) (by rw [hds]; simp), List.filterMap_cons, hfirst]
    cases seen.find? fun e => e.kind == d.kind && e.name == d.name <;> rfl

theorem InOrder.first_of_find? {ds : List Declaration} (h : InOrder ds) {d first : Declaration}
    (hfirst : ds.find? (fun e => d.Repeats e) = some first) : first ∈ ds ∧ d.Repeats first ∧
      ∀ e ∈ ds, d.Repeats e → e = first ∨ e.Repeats first := by
  obtain ⟨hrepeats, older, newer, rfl, holder⟩ := List.find?_eq_some_iff_append.mp hfirst
  replace hrepeats := of_decide_eq_true hrepeats
  refine ⟨by simp, hrepeats, fun e he hde => ?_⟩
  rcases List.mem_append.mp he with he | he
  · have := holder e he
    simp [hde] at this
  · rcases List.mem_cons.mp he with rfl | he
    · exact Or.inl rfl
    · obtain ⟨-, hnewer, -⟩ := List.pairwise_append.mp h.pairwise
      exact Or.inr ⟨hrepeats.kind.trans hde.kind.symm, hrepeats.name.trans hde.name.symm,
        (List.pairwise_cons.mp hnewer).1 e he⟩

/-- Of three modules of one name, with a pipeline of that name among them, the last two repeat the
first. -/
example :
    let source : Text :=
      "module \"m\" \x7b\x7d pipeline \"m\" \x7b\x7d module \"m\" \x7b\x7d module \"m\" \x7b\x7d".toList
    (duplicatesAfter [] source.declarations).map
        (fun f => f.annotations.map fun a => (a.span.start, a.primary)) =
      [[(38, true), (8, false)], [(52, true), (8, false)]] := by
  decide +kernel

/-! ### The number of repeats -/

/-- The kind and the name of a declaration. -/
def Declaration.key (d : Declaration) : Declaration.Kind × Text := (d.kind, d.name)

/-- **One report for each declaration** whose kind and name are not new. -/
theorem length_duplicatesAfter (seen ds : List Declaration) :
    (duplicatesAfter seen ds).length + ((seen ++ ds).map Declaration.key).toFinset.card =
      ds.length + (seen.map Declaration.key).toFinset.card := by
  induction ds generalizing seen with
  | nil => rw [List.append_nil]; rfl
  | cons d ds ih =>
    have hseen : ((seen ++ [d]).map Declaration.key).toFinset =
        insert d.key (seen.map Declaration.key).toFinset := by
      ext key
      simp
    have hnext := ih (seen ++ [d])
    rw [List.append_assoc, List.singleton_append, hseen] at hnext
    rw [duplicatesAfter, List.length_append, List.length_cons]
    cases hfirst : seen.find? fun e => e.kind == d.kind && e.name == d.name with
    | some first =>
      have hsame := List.find?_some hfirst
      rw [Bool.and_eq_true, beq_iff_eq, beq_iff_eq] at hsame
      have hmem : d.key ∈ (seen.map Declaration.key).toFinset := by
        rw [List.mem_toFinset]
        exact List.mem_map.mpr
          ⟨first, List.mem_of_find?_eq_some hfirst, Prod.ext hsame.1 hsame.2⟩
      rw [Finset.insert_eq_of_mem hmem] at hnext
      simp only [List.length_singleton]
      omega
    | none =>
      have hnew : d.key ∉ (seen.map Declaration.key).toFinset := by
        rw [List.mem_toFinset, List.mem_map]
        rintro ⟨e, he, hkey⟩
        obtain ⟨hkind, hname⟩ := Prod.mk.inj hkey
        have := List.find?_eq_none.mp hfirst e he
        simp [hkind, hname] at this
      rw [Finset.card_insert_of_notMem hnew] at hnext
      simp only [List.length_nil]
      omega

/-! ### Findings of one code -/

theorem Span.le_of_before {s t : Span} (h : s.Before t) : s.le t = true := by
  have := s.start_le_stop
  have := t.start_le_stop
  rw [Span.Before] at h
  simp only [Span.le, Bool.or_eq_true, Bool.and_eq_true, decide_eq_true_eq, beq_iff_eq]
  omega

theorem nameFindings_eq (source : Text) : nameFindings source =
    (source.rejections.filter fun r => r.reason == .missingName).map fun r =>
      .unnamed r.kind r.keywordSpan := by
  rw [nameFindings, ← List.filterMap_eq_filter, List.map_filterMap]
  refine List.filterMap_congr fun r _ => ?_
  by_cases h : r.reason = .missingName
  · simp [h, Option.guard]
  · simp [h, Option.guard]

theorem filter_code {l : List Finding} {c : Code} (h : ∀ f ∈ l, f.code = c) (code : Code) :
    l.filter (fun f => f.code == code) = if c = code then l else [] := by
  split
  · next hc =>
    refine List.filter_eq_self.mpr fun f hf => ?_
    rw [h f hf, hc, beq_self_eq_true]
  · next hc =>
    refine List.filter_eq_nil_iff.mpr fun f hf => ?_
    rwa [h f hf, beq_iff_eq]

theorem code_of_mem_pipelineReview {source : Text} {known : List Text} {f : Finding}
    (hf : f ∈ source.pipelineReview known) : f.code = .unknownModule ∨ f.code = .unknownVariable := by
  obtain ⟨d, hd, -, hf⟩ := Text.mem_pipelineReview.mp hf
  have hcall := (pipelineFindings_isIn hd f hf).isOfCall
  cases f with
  | unknownModule => exact Or.inl rfl
  | unknownVariable => exact Or.inr rfl
  | unbalanced | unnamed | duplicate => cases hcall

/-- **The findings of a code** that is not about calls are those of one pass. -/
theorem filter_code_emitted (source : Text) (extra : List Text) {code : Code}
    (hmodule : code ≠ .unknownModule) (hvariable : code ≠ .unknownVariable) :
    (source.emitted extra).filter (fun f => f.code == code) =
      (if .unbalancedBraces = code then braceFindings source else []) ++
        (if .missingName = code then nameFindings source else []) ++
        (if .duplicate = code then duplicatesAfter [] source.declarations else []) := by
  have hbraces : ∀ f ∈ braceFindings source, f.code = .unbalancedBraces := by
    intro f hf
    obtain ⟨-, rfl⟩ := mem_braceFindings_iff.mp hf
    rfl
  have hnames : ∀ f ∈ nameFindings source, f.code = .missingName := by
    intro f hf
    obtain ⟨r, -, rfl⟩ := exists_of_mem_nameFindings hf
    rfl
  have hrepeats : ∀ f ∈ duplicatesAfter [] source.declarations, f.code = .duplicate := by
    intro f hf
    obtain ⟨_, _, _, _, -, -, -, -, rfl⟩ := exists_of_mem_duplicatesAfter hf
    rfl
  have hcalls : (source.pipelineReview (source.knownModules extra)).filter
      (fun f => f.code == code) = [] := by
    refine List.filter_eq_nil_iff.mpr fun f hf => ?_
    rw [beq_iff_eq]
    rintro rfl
    exact (code_of_mem_pipelineReview hf).elim hmodule hvariable
  rw [Text.emitted_eq_append, Text.laterFindings, List.filter_append, List.filter_append,
    List.filter_append, hcalls, filter_code hbraces, filter_code hnames, filter_code hrepeats,
    List.append_nil, List.append_assoc]

theorem filter_code_diagnostics (settings : Settings) (source : Text) (active : Option Text)
    {code : Code} {fs : List Finding}
    (hfs : (source.emitted settings.builtinModules).filter (fun f => f.code == code) = fs)
    (horder : fs.Pairwise fun f g => f.span.Before g.span) :
    (settings.analyze source active).diagnostics.filter (fun g => g.code == some code) =
      fs.map Finding.diagnostic := by
  have hsort : fs.mergeSort Finding.le = fs :=
    List.mergeSort_of_pairwise (horder.imp Span.le_of_before)
  show ((source.findings settings.builtinModules).map Finding.diagnostic).filter _ = _
  rw [List.filter_map, ← hsort, ← hfs, ← filter_findings]
  rfl

/-! ### The order of places -/

theorem Text.pairwise_nameSpan (source : Text) :
    source.declarations.Pairwise fun d e => d.nameSpan.stop < e.nameSpan.start := by
  refine source.pairwise_declarations.imp_of_mem fun {d e} hd he hde => ?_
  have := (Text.standsIn_of_mem_declarations hd).name_le_body
  have := (Text.standsIn_of_mem_declarations he).keyword_le_name
  have := d.body.start_le_stop
  have := e.keywordSpan.start_le_stop
  omega

theorem pairwise_duplicates (source : Text) :
    (duplicatesAfter [] source.declarations).Pairwise fun f g => f.span.Before g.span := by
  rw [source.inOrder_declarations.duplicatesAfter_eq]
  refine source.pairwise_nameSpan.filterMap _ ?_
  intro d e hde f hf g hg
  obtain ⟨first, -, rfl⟩ := Option.map_eq_some_iff.mp hf
  obtain ⟨first', -, rfl⟩ := Option.map_eq_some_iff.mp hg
  exact Nat.le_of_lt hde

theorem pairwise_names (source : Text) :
    (nameFindings source).Pairwise fun f g => f.span.Before g.span := by
  rw [nameFindings_eq]
  exact List.pairwise_map.mpr (source.pairwise_rejections.filter _)

/-- **Repeats and missing names are reported exactly.** An analysis warns of each declaration that
repeats another one, once, with its remarks on the name of the declaration and on that of the first
that it repeats. It reports each keyword that was rejected for a missing name, once. There are as
many warnings of repeats as there are declarations beyond the distinct pairs of kind and name. -/
theorem Settings.analyze_repeats_exactly (settings : Settings) (source : Text)
    (active : Option Text) :
    let ds := source.declarations
    let listed := (settings.analyze source active).diagnostics
    (∃ repeats : List (Declaration × Declaration),
      listed.filter (fun g => g.code == some .duplicate) =
        repeats.map (fun r => r.1.repeatWarning r.2) ∧
      repeats.map Prod.fst = ds.filter (fun d => ∃ e ∈ ds, d.Repeats e) ∧
      ∀ r ∈ repeats, r.2 ∈ ds ∧ r.1.Repeats r.2 ∧
        ∀ e ∈ ds, r.1.Repeats e → e = r.2 ∨ e.Repeats r.2) ∧
    listed.filter (fun g => g.code == some .missingName) =
      (source.rejections.filter fun r => r.reason == .missingName).map Rejection.nameError ∧
    ds.Pairwise (fun d e => d.nameSpan.stop < e.nameSpan.start) ∧
    source.rejections.Pairwise (fun r q => r.keywordSpan.start < q.keywordSpan.start) ∧
    listed.countP (fun g => g.code == some .duplicate) +
      (ds.map fun d => (d.kind, d.name)).toFinset.card = ds.length := by
  intro ds listed
  have hinorder : InOrder ds := source.inOrder_declarations
  have hwarnings : listed.filter (fun g => g.code == some .duplicate) =
      (duplicatesAfter [] ds).map Finding.diagnostic := by
    refine filter_code_diagnostics settings source active ?_ (pairwise_duplicates source)
    rw [filter_code_emitted source _ (by decide) (by decide)]
    rfl
  have hnames : listed.filter (fun g => g.code == some .missingName) =
      (nameFindings source).map Finding.diagnostic := by
    refine filter_code_diagnostics settings source active ?_ (pairwise_names source)
    rw [filter_code_emitted source _ (by decide) (by decide)]
    exact List.append_nil _
  refine ⟨⟨ds.filterMap fun d => (ds.find? fun e => d.Repeats e).map (Prod.mk d), ?_, ?_, ?_⟩, ?_,
    source.pairwise_nameSpan, ?_, ?_⟩
  · rw [hwarnings, hinorder.duplicatesAfter_eq, List.map_filterMap, List.map_filterMap]
    simp only [Option.map_map]
    rfl
  · rw [List.map_filterMap, ← List.filterMap_eq_filter]
    refine List.filterMap_congr fun d _ => ?_
    cases hfind : ds.find? (fun e => d.Repeats e) with
    | none =>
      have hnone : ¬ ∃ e ∈ ds, d.Repeats e := by simpa using hfind
      simp [Option.guard, hnone]
    | some first =>
      obtain ⟨hmem, hrepeats, -⟩ := hinorder.first_of_find? hfind
      have hsome : ∃ e ∈ ds, d.Repeats e := ⟨first, hmem, hrepeats⟩
      simp [Option.guard, hsome]
  · intro r hr
    obtain ⟨d, hd, hfirst⟩ := List.mem_filterMap.mp hr
    obtain ⟨first, hfind, rfl⟩ := Option.map_eq_some_iff.mp hfirst
    exact hinorder.first_of_find? hfind
  · rw [hnames, nameFindings_eq, List.map_map]
    rfl
  · refine source.pairwise_rejections.imp_of_mem fun {r q} hr _ hrq => ?_
    have hlt := Text.start_lt_stop_of_slice? (Text.slice?_of_mem_rejections hr)
      (List.length_pos_iff.mp r.kind.length_keyword_pos)
    rw [Span.Before] at hrq
    omega
  · have hcount := length_duplicatesAfter [] ds
    rw [List.countP_eq_length_filter, hwarnings, List.length_map]
    exact hcount

end PipelineDoc
