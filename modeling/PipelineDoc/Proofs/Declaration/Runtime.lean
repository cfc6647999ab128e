import PipelineDoc.Proofs.Grammar.Heads
import PipelineDoc.Proofs.Lexical.Partners
import PipelineDoc.Proofs.Lexical.Search

/-!
# Runtime blocks

The runtime block of a module is that of the first word `runtime` in code that a brace follows, with
nothing but white characters between the two. The words are visited one after the other, and the
search goes on in code after each (`exists_visits_runtimeFrom`). The search would end at a brace
that is never closed, but the body of a declaration is balanced, so every brace that opens in its
code is closed in it (`exists_inside?_of_content_eq`). Main statement: `runtime?_first_block`.
-/

namespace PipelineDoc

/-! ### Words that open a block -/

/-- A word `runtime` stands in code at the offset `i`, and a brace at the offset `opening`, with
nothing but white characters between them. -/
structure Text.OpensRuntime (t : Text) (i opening : Nat) : Prop where
  word : t.WordAt runtimeWord i
  brace : ∃ gap : Text, (∀ c ∈ gap, isWhite c = true) ∧
    opening = i + runtimeWord.byteLength + gap.byteLength ∧
    t.slice? (.ofLength (i + runtimeWord.byteLength) (gap.byteLength + 1)) =
      some (gap ++ [Bracket.brace.opener])

theorem Text.opensRuntime_iff {t : Text} {i opening : Nat} : t.OpensRuntime i opening ↔
    ∃ p gap rest : Text, t = p ++ (runtimeWord ++ (gap ++ Bracket.brace.opener :: rest)) ∧
      (∀ c ∈ gap, isWhite c = true) ∧ p.byteLength = i ∧
      (p ++ (runtimeWord ++ gap) : Text).byteLength = opening ∧
      StandsInCode .code none p runtimeWord (gap ++ Bracket.brace.opener :: rest) := by
  have hbrace : byteLength [Bracket.brace.opener] = 1 := rfl
  constructor
  · rintro ⟨hword, gap, hgap, rfl, hslice⟩
    obtain ⟨p, q, rfl, rfl, hstands⟩ := Text.wordAt_iff.mp hword
    obtain ⟨p', rest, heq, hlen, -⟩ := Text.slice?_eq_some_iff.mp hslice
    rw [← List.append_assoc p] at heq
    obtain rfl : p ++ runtimeWord = p' :=
      Text.eq_of_byteLength_eq (List.prefix_append _ q) ⟨_, heq.symm⟩
        (by rw [hlen, Span.start_ofLength, Text.byteLength_append])
    have hq := List.append_cancel_left heq
    rw [List.append_assoc, List.singleton_append] at hq
    subst hq
    exact ⟨p, gap, rest, rfl, hgap, rfl, by simp only [Text.byteLength_append]; omega, hstands⟩
  · rintro ⟨p, gap, rest, rfl, hgap, rfl, rfl, hstands⟩
    refine ⟨Text.wordAt_iff.mpr ⟨p, _, rfl, rfl, hstands⟩, gap, hgap, ?_, ?_⟩
    · simp only [Text.byteLength_append]
      omega
    · refine Text.slice?_eq_some_iff.mpr ⟨p ++ runtimeWord, rest, by simp, ?_, ?_⟩
      · rw [Span.start_ofLength, Text.byteLength_append]
      · rw [Text.byteLength_append, hbrace, Span.length, Span.start_ofLength, Span.stop_ofLength]
        omega

theorem gap_of_brace {gap : Text} (hgap : ∀ c ∈ gap, isWhite c = true) (rest : Text) :
    (gap ++ Bracket.brace.opener :: rest).takeWhile isWhite = gap ∧
      Text.trimStart (gap ++ Bracket.brace.opener :: rest) = Bracket.brace.opener :: rest :=
  takeWhile_dropWhile_append hgap rfl

theorem Text.OpensRuntime.unique {t : Text} {i opening opening' : Nat} (h : t.OpensRuntime i opening)
    (h' : t.OpensRuntime i opening') : opening = opening' := by
  obtain ⟨p, gap, rest, rfl, hgap, rfl, rfl, -⟩ := Text.opensRuntime_iff.mp h
  obtain ⟨p', gap', rest', heq, hgap', hlen, rfl, -⟩ := Text.opensRuntime_iff.mp h'
  obtain rfl : p' = p :=
    Text.eq_of_byteLength_eq ⟨_, heq.symm⟩ (List.prefix_append _ _) hlen
  have hrest := List.append_cancel_left (List.append_cancel_left heq)
  rw [← (gap_of_brace hgap rest).1, hrest, (gap_of_brace hgap' rest').1]

/-! ### Blocks as visits -/

/-- The block that a visited word opens, by the text before its brace and the text after it. -/
def runtimeBlock? (v : Find Unit) : Option (Text × Text) :=
  (v.after.trimStart.skip? [Bracket.brace.opener]).map fun rest =>
    (v.before ++ (runtimeWord ++ v.after.takeWhile isWhite), rest)

theorem runtimeBlock?_eq_some_iff {v : Find Unit} {front rest : Text} :
    runtimeBlock? v = some (front, rest) ↔ ∃ gap : Text, (∀ c ∈ gap, isWhite c = true) ∧
      v.after = gap ++ Bracket.brace.opener :: rest ∧ front = v.before ++ (runtimeWord ++ gap) := by
  simp only [runtimeBlock?, Option.map_eq_some_iff, Text.skip?_eq_some_iff, Prod.mk.injEq]
  constructor
  · rintro ⟨_, htrim, rfl, rfl⟩
    refine ⟨v.after.takeWhile isWhite, fun c hc => List.mem_takeWhile_imp hc, ?_, rfl⟩
    have hsplit := (List.takeWhile_append_dropWhile (p := isWhite) (l := v.after)).symm
    rw [Text.trimStart] at htrim
    rwa [htrim] at hsplit
  · rintro ⟨gap, hgap, hafter, rfl⟩
    obtain ⟨htake, htrim⟩ := gap_of_brace hgap rest
    exact ⟨rest, by rw [hafter, htrim]; rfl, by rw [hafter, htake], rfl⟩

/-- The span of a block, if its brace is closed. -/
def blockSpan? (base : Nat) (block : Text × Text) : Option Span :=
  (Bracket.brace.inside? block.2).map fun r =>
    .ofLength (base + (block.1.byteLength + 1)) r.1.byteLength

theorem runtimeFrom_of_findWord? {p s : Text} {f : Find Unit}
    (hfind : findWord? (fun () => runtimeWord) [()] p.getLast? .code s = some f) (base : Nat) :
    runtimeFrom (base + p.byteLength) p.getLast? s =
      match runtimeBlock? { f with before := p ++ f.before } with
      | some block => blockSpan? base block
      | none => runtimeFrom (base + (p ++ f.before ++ runtimeWord : Text).byteLength)
          (p ++ f.before ++ runtimeWord).getLast? f.after := by
  rw [runtimeFrom_unfold, hfind]
  simp only [runtimeBlock?]
  cases hskip : f.after.trimStart.skip? [Bracket.brace.opener] with
  | none =>
    simp only [Option.map_none, Text.byteLength_append, Nat.add_assoc,
      getLast?_append_of_ne_nil _ (show runtimeWord ≠ [] by decide)]
  | some rest =>
    have hbrace : Text.byteLength [Bracket.brace.opener] = 1 := rfl
    simp only [Option.map_some, blockSpan?, Text.byteLength_append, hbrace, Nat.add_assoc]

/-- **The runtime block of a text** is the first that a visited word opens. -/
theorem exists_visits_runtimeFrom {p s : Text} (hmode : Mode.code.run p s.head? = .code)
    (base : Nat) : ∃ vs, Visits (fun () => runtimeWord) [()] (fun _ => []) p s vs ∧
      runtimeFrom (base + p.byteLength) p.getLast? s =
        (vs.findSome? runtimeBlock?).bind (blockSpan? base) := by
  induction hn : s.length using Nat.strongRecOn generalizing p s with
  | ind n ih =>
    cases hfind : findWord? (fun () => runtimeWord) [()] p.getLast? .code s with
    | none =>
      refine ⟨[], .done hfind, ?_⟩
      rw [runtimeFrom_unfold, hfind]
      rfl
    | some f =>
      have hlen := length_after_findWord? hfind
      have hword : runtimeWord.length = 7 := rfl
      have hrest : f.after = [] ++ f.after := rfl
      have hmode' := Visits.run_of_findWord? hmode hfind (List.all_eq_true.mp (by decide)) (by decide)
        hrest rfl
      obtain ⟨vs, hvisits, hspan⟩ := ih f.after.length (by omega) hmode' rfl
      refine ⟨_, .visit hfind hrest hmode' hvisits, ?_⟩
      rw [List.append_nil] at hspan
      rw [runtimeFrom_of_findWord? hfind, List.findSome?_cons]
      cases runtimeBlock? { f with before := p ++ f.before } with
      | some block => rfl
      | none => exact hspan

section Visited

variable {body : Text} {vs : List (Find Unit)}
  (hvisits : Visits (fun () => runtimeWord) [()] (fun _ => []) [] body vs)

include hvisits

theorem opensRuntime_of_runtimeBlock? {v : Find Unit} (hv : v ∈ vs) {front rest : Text}
    (h : runtimeBlock? v = some (front, rest)) :
    body = front ++ Bracket.brace.opener :: rest ∧
      body.OpensRuntime v.before.byteLength front.byteLength := by
  obtain ⟨gap, hgap, hafter, rfl⟩ := runtimeBlock?_eq_some_iff.mp h
  obtain ⟨-, hstands⟩ := hvisits.standsInCode rfl hv
  have hbody := (hvisits.eq_append hv).1
  rw [List.nil_append, hafter] at hbody
  rw [hafter] at hstands
  refine ⟨by rw [hbody]; simp, ?_⟩
  exact Text.opensRuntime_iff.mpr ⟨v.before, gap, rest, hbody, hgap, rfl, rfl, hstands⟩

/-- **Every word that opens a block** is visited. -/
theorem exists_runtimeBlock?_of_opensRuntime {i opening : Nat} (h : body.OpensRuntime i opening) :
    ∃ v ∈ vs, v.before.byteLength = i ∧ (runtimeBlock? v).isSome := by
  obtain ⟨p, gap, rest, hbody, hgap, rfl, -, hstands⟩ := Text.opensRuntime_iff.mp h
  obtain ⟨v, hv, hvp⟩ := hvisits.complete rfl (List.mem_singleton.mpr rfl)
    (by rw [List.nil_append, hbody]) hstands (Nat.zero_le _)
  have heq := (hvisits.eq_append hv).1
  rw [List.nil_append, hbody] at heq
  rcases hvp with rfl | ⟨hlt, hreach⟩
  · have hafter := (List.append_cancel_left (List.append_cancel_left heq)).symm
    exact ⟨v, hv, rfl, Option.isSome_iff_exists.mpr
      ⟨_, runtimeBlock?_eq_some_iff.mpr ⟨gap, hgap, hafter, rfl⟩⟩⟩
  · -- inside the word `runtime` no other one starts
    have hin := hstands.not_inside (List.all_eq_true.mp (by decide)) heq hlt
    rw [Find.reach, List.append_nil] at hreach
    omega

end Visited

/-- **The search for a runtime block**: nothing opens one, or the first word that does is taken, and
the block goes up to the partner of its brace. -/
theorem runtimeFrom_cases (body : Text) (base : Nat) :
    (runtimeFrom base none body = none ∧ ∀ i opening, ¬ body.OpensRuntime i opening) ∨
    ∃ i opening, body.OpensRuntime i opening ∧
      (∀ j other, body.OpensRuntime j other → i ≤ j) ∧
      runtimeFrom base none body =
        (body.closing? .brace opening).map fun close =>
          (Span.ofEnds (opening + 1) close).shift base := by
  obtain ⟨vs, hvisits, hspan⟩ := exists_visits_runtimeFrom (p := []) (s := body) rfl base
  replace hspan : runtimeFrom base none body = (vs.findSome? runtimeBlock?).bind (blockSpan? base) :=
    hspan
  rw [hspan]
  cases hfirst : vs.findSome? runtimeBlock? with
  | none =>
    refine Or.inl ⟨rfl, fun i opening h => ?_⟩
    obtain ⟨v, hv, -, hblock⟩ := exists_runtimeBlock?_of_opensRuntime hvisits h
    rw [List.findSome?_eq_none_iff.mp hfirst v hv] at hblock
    cases hblock
  | some block =>
    obtain ⟨front, rest⟩ := block
    obtain ⟨older, v, newer, rfl, hblock, holder⟩ := List.findSome?_eq_some_iff.mp hfirst
    obtain ⟨hbody, hopens⟩ := opensRuntime_of_runtimeBlock? hvisits (by simp) hblock
    refine Or.inr ⟨_, _, hopens, fun j other h => ?_, ?_⟩
    · obtain ⟨w, hw, rfl, hsome⟩ := exists_runtimeBlock?_of_opensRuntime hvisits h
      rcases List.mem_append.mp hw with hw | hw
      · rw [holder w hw] at hsome
        cases hsome
      · rcases List.mem_cons.mp hw with rfl | hw
        · exact Nat.le_refl _
        · obtain ⟨-, hnewer, -⟩ := List.pairwise_append.mp hvisits.pairwise
          obtain ⟨m, hm⟩ := (List.pairwise_cons.mp hnewer).1 w hw
          rw [← hm, Find.reach, Text.byteLength_append, Text.byteLength_append]
          omega
    · rw [Option.bind_some, blockSpan?, hbody, Text.closing?_append, Option.map_map]
      congr 1
      funext r
      rw [Function.comp_apply, Span.ofEnds_add, Span.shift_ofLength]

/-! ### Blocks in the body of a declaration -/

theorem Bracket.isInert_opener (b : Bracket) : ∀ c ∈ [b.opener], isInert c = true := by
  intro c hc
  rw [List.mem_singleton.mp hc]
  cases b <;> decide

/-- **A brace in the body of a declaration** that opens in code is closed in the body. -/
theorem exists_inside?_of_content_eq {source : Text} {d : Declaration} (hd : d ∈ source.declarations)
    {front rest : Text} (hbody : d.content source = front ++ Bracket.brace.opener :: rest)
    (hcode : Mode.code.CodeAfter front (Bracket.brace.opener :: rest)) :
    ∃ r, Bracket.brace.inside? rest = some r := by
  obtain ⟨r, after, hinside⟩ := exists_inside?_content hd
  rw [hbody] at hinside
  exact (Bracket.closes_of_inside? hinside).exists_inside?
    (Mode.CodeAfter.change_rest (w := [Bracket.brace.opener]) hcode (Bracket.isInert_opener _)
      (by decide) _)

theorem Text.OpensRuntime.code {t : Text} {i opening : Nat} (h : t.OpensRuntime i opening) :
    ∃ front rest : Text, t = front ++ Bracket.brace.opener :: rest ∧ front.byteLength = opening ∧
      Mode.code.CodeAfter front (Bracket.brace.opener :: rest) := by
  obtain ⟨p, gap, rest, rfl, hgap, -, rfl, hcode, -⟩ := Text.opensRuntime_iff.mp h
  refine ⟨p ++ (runtimeWord ++ gap), rest, by simp, rfl, ?_⟩
  have hinert : ∀ c ∈ runtimeWord ++ gap, isInert c = true := by
    intro c hc
    rcases List.mem_append.mp hc with hc | hc
    · exact List.all_eq_true.mp (by decide) c hc
    · exact isInert_of_isWhite (hgap c hc)
  refine Mode.CodeAfter.append (v := [Bracket.brace.opener]) ?_ hinert (Bracket.isInert_opener _)
    (by decide)
  rwa [List.append_assoc]

/-- The search for a runtime block never meets a brace that is not closed. -/
theorem exists_closing?_of_opensRuntime {source : Text} {d : Declaration}
    (hd : d ∈ source.declarations) {i opening : Nat}
    (h : (d.content source).OpensRuntime i opening) :
    ∃ close, (d.content source).closing? .brace opening = some close := by
  obtain ⟨front, rest, hbody, rfl, hcode⟩ := h.code
  obtain ⟨r, hr⟩ := exists_inside?_of_content_eq hd hbody hcode
  rw [hbody, Text.closing?_append, hr]
  exact ⟨_, rfl⟩

/-- **A closed block**: its inside stands in the text, and its braces are balanced, both with the
labels of the whole text and on its own. -/
theorem isDyck_of_opensRuntime {t : Text} {i opening close : Nat} (h : t.OpensRuntime i opening)
    (hclose : t.closing? .brace opening = some close) :
    ∃ inside, t.slice? (.ofEnds (opening + 1) close) = some inside ∧
      IsDyck (Bracket.brace.word inside.labelledBytes) ∧
      IsDyck (Bracket.brace.word
        ((t.labelledBytes.drop (opening + 1)).take (Span.ofEnds (opening + 1) close).length)) := by
  obtain ⟨front, rest, rfl, rfl, hcode⟩ := h.code
  rw [Text.closing?_append, Option.map_eq_some_iff] at hclose
  obtain ⟨⟨inside, after⟩, hinside, rfl⟩ := hclose
  have hlen : front.byteLength + 1 = (front ++ [Bracket.brace.opener] : Text).byteLength := by
    rw [Text.byteLength_append]
    rfl
  have hsplit : front ++ Bracket.brace.opener :: rest = front ++ [Bracket.brace.opener] ++ rest := by
    simp
  have hrun := Mode.CodeAfter.run_append (w := [Bracket.brace.opener]) hcode
    (Bracket.isInert_opener _) (by decide)
  refine ⟨inside, ?_, isDyck_of_inside? hinside, ?_⟩
  · rw [hsplit, hlen, Bracket.eq_of_inside? hinside, Span.ofEnds_add]
    exact Text.slice?_append _ _ _
  · have hlabels := Text.drop_byteLabels hrun
    have hbytes : (front ++ [Bracket.brace.opener] ++ rest : Text).bytes.drop
        (front ++ [Bracket.brace.opener] : Text).byteLength = rest.bytes := by
      rw [Text.bytes_append, ← Text.length_bytes, List.drop_left]
    rw [hsplit, hlen, Text.labelledBytes, List.zip_eq_zipWith, List.drop_zipWith,
      hlabels, hbytes, Span.ofEnds_add, Span.length_ofLength]
    exact (Bracket.inside?_iff.mp ⟨_, hinside, rfl⟩).2

/-- **The runtime block of a module**: nothing in its body opens one, or the first word that does is
taken, and its brace is closed. -/
theorem Declaration.runtime?_cases {source : Text} {d : Declaration} (hd : d ∈ source.declarations)
    (hkind : d.kind = .module) :
    (d.runtime? source = none ∧ ∀ i opening, ¬ (d.content source).OpensRuntime i opening) ∨
    ∃ i opening close, (d.content source).OpensRuntime i opening ∧
      (∀ j other, (d.content source).OpensRuntime j other → i ≤ j) ∧
      (d.content source).closing? .brace opening = some close ∧
      d.runtime? source = some ((Span.ofEnds (opening + 1) close).shift d.body.start) := by
  have hruntime : d.runtime? source = runtimeFrom d.body.start none (d.content source) := by
    rw [Declaration.runtime?, hkind]
  rw [hruntime]
  refine (runtimeFrom_cases (d.content source) d.body.start).imp_right ?_
  rintro ⟨i, opening, hopens, hleast, hspan⟩
  obtain ⟨close, hclose⟩ := exists_closing?_of_opensRuntime hd hopens
  exact ⟨i, opening, close, hopens, hleast, hclose, by rw [hspan, hclose, Option.map_some]⟩

/-- The runtime block of a module is the inside of the brace block that the first word `runtime` in
the code of its body opens, if there is such a word, and there is none otherwise. It lies in the
body, and its braces of code are balanced, read on their own or as part of the body. No word opens a
block that is not closed in the body. -/
theorem Declaration.runtime?_first_block {source : Text} {d : Declaration}
    (hd : d ∈ source.declarations) (hkind : d.kind = .module) :
    (∀ span, d.runtime? source = some span ↔
      ∃ i opening close, (d.content source).OpensRuntime i opening ∧
        (∀ j other, (d.content source).OpensRuntime j other → i ≤ j) ∧
        (d.content source).IsPartner .brace opening close ∧
        span = (Span.ofEnds (opening + 1) close).shift d.body.start) ∧
    ((d.runtime? source).isSome ↔ ∃ i opening, (d.content source).OpensRuntime i opening) ∧
    (∀ span ∈ d.runtime? source, span.Within d.body ∧
      IsDyck (Bracket.brace.word (source.slice span).labelledBytes) ∧
      IsDyck (Bracket.brace.word
        (((d.content source).labelledBytes.drop (span.start - d.body.start)).take span.length))) ∧
    ∀ i opening, (d.content source).OpensRuntime i opening →
      ∃ close, (d.content source).closing? .brace opening = some close := by
  have hbody := (Text.standsIn_of_mem_declarations hd).body
  refine ⟨fun span => ?_, ?_, ?_, fun i opening => exists_closing?_of_opensRuntime hd⟩
  · rcases d.runtime?_cases hd hkind with
      ⟨hnone, hnot⟩ | ⟨i, opening, close, hopens, hleast, hclose, hspan⟩
    · rw [hnone]
      refine ⟨fun h => absurd h (Option.some_ne_none span).symm, ?_⟩
      rintro ⟨i, opening, -, hopens, -⟩
      exact absurd hopens (hnot i opening)
    · have hpartner := (Text.closing?_eq_some_iff.mp hclose).2
      rw [hspan, Option.some.injEq]
      constructor
      · rintro rfl
        exact ⟨i, opening, close, hopens, hleast, hpartner, rfl⟩
      · rintro ⟨j, opening', close', hopens', hleast', hpartner', rfl⟩
        obtain rfl : i = j := Nat.le_antisymm (hleast j _ hopens') (hleast' i _ hopens)
        obtain rfl := hopens.unique hopens'
        rw [hpartner.unique hpartner']
  · rcases d.runtime?_cases hd hkind with ⟨hnone, hnot⟩ | ⟨i, opening, close, hopens, -, -, hspan⟩
    · simp [hnone, hnot]
    · rw [hspan]
      exact ⟨fun _ => ⟨i, opening, hopens⟩, fun _ => rfl⟩
  · intro span hmem
    rcases d.runtime?_cases hd hkind with ⟨hnone, -⟩ | ⟨i, opening, close, hopens, -, hclose, hspan⟩
    · rw [hnone] at hmem
      cases hmem
    · rw [hspan] at hmem
      cases hmem
      obtain ⟨inside, hslice, hdyck, hdyck'⟩ := isDyck_of_opensRuntime hopens hclose
      refine ⟨within_of_slice? hbody hslice, ?_, ?_⟩
      · rwa [Text.slice_of_slice? (Text.slice?_shift hbody hslice)]
      · rw [Span.length, Span.start_shift, Span.stop_shift, Nat.add_sub_cancel, Nat.add_sub_add_right]
        exact hdyck'

/-- A word in a string, a longer word and one without a brace come before the word that opens the
block, after which a wide space stands, and the block holds braces in a string and in code. -/
theorem Declaration.runtime?_first_block_wide_space :
    let t : Text := "module \"é\" \x7b runtimes \"runtime \x7b\" runtime, ".toList ++
      "runtime\u2003\x7b a \x7b \"\x7d\" \x7d \x7d \x7d".toList
    ∃ d ∈ t.declarations, d.kind = .module ∧ d.runtime? t = some (.ofLength 55 11) ∧
      (∃ i opening, (d.content t).OpensRuntime i opening) ∧ (Span.ofLength 55 11).Within d.body ∧
      IsDyck (Bracket.brace.word (t.slice (.ofLength 55 11)).labelledBytes) := by
  intro t
  have hblocks : t.declarations.map (fun d => (d.kind, d.runtime? t)) =
      [(.module, some (.ofLength 55 11))] := by decide +kernel
  obtain ⟨d, hd, heq⟩ := List.mem_map.mp (hblocks ▸ List.mem_singleton.mpr rfl)
  obtain ⟨hkind, hspan⟩ := Prod.mk.inj heq
  obtain ⟨-, hsome, hinside, -⟩ := d.runtime?_first_block hd hkind
  obtain ⟨hwithin, hdyck, -⟩ := hinside _ hspan
  exact ⟨d, hd, hkind, hspan, hsome.mp (by rw [hspan]; rfl), hwithin, hdyck⟩

end PipelineDoc
