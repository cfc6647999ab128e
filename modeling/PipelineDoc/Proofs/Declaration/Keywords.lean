import PipelineDoc.Proofs.Declaration.Places
import PipelineDoc.Proofs.Lexical.Nesting
import PipelineDoc.Proofs.Lexical.Visits

/-!
# Declaration keywords

What becomes of the declaration keywords of a document in which no quote comes right after a
backslash. The name of a declaration is read up to the next quote, whatever stands between, and a
reader of the whole document sees the same string there. So wherever the search for keywords starts
anew, that reader is in code (`DeclarationForm.run_text`), and the headers are the visits of a
search (`exists_visits_headers`). Main statement: `keywords_accounted`.
-/

namespace PipelineDoc

/-! ### Keywords in code -/

/-- A declaration keyword stands at a span as a whole word, and all its bytes are code. -/
structure Text.KeywordAt (t : Text) (kind : Declaration.Kind) (s : Span) : Prop where
  text : t.slice? s = some kind.keyword
  whole : t.isWholeWord s.start s.length = .ok true
  code : ∀ i, s.start ≤ i → i < s.stop → t.byteLabels[i]? = some .code

theorem isInert_keyword (kind : Declaration.Kind) : ∀ c ∈ kind.keyword, isInert c = true :=
  List.all_eq_true.mp (by cases kind <;> decide)

theorem isWordChar_keyword (kind : Declaration.Kind) : ∀ c ∈ kind.keyword, isWordChar c = true :=
  List.all_eq_true.mp (by cases kind <;> decide +kernel)

theorem keyword_ne_nil (kind : Declaration.Kind) : kind.keyword ≠ [] := by
  cases kind <;> decide

theorem eq_of_keyword_append {kind kind' : Declaration.Kind} {s s' : Text}
    (h : kind.keyword ++ s = kind'.keyword ++ s') : kind = kind' := by
  cases kind with
  | module =>
    cases kind' with
    | module => rfl
    | pipeline =>
      injection h with hc
      exact absurd hc (by decide)
  | pipeline =>
    cases kind' with
    | module =>
      injection h with hc
      exact absurd hc (by decide)
    | pipeline => rfl

theorem Text.keywordAt_iff {t : Text} {kind : Declaration.Kind} {s : Span} :
    t.KeywordAt kind s ↔ ∃ p q, t = p ++ (kind.keyword ++ q) ∧
      s = .ofLength p.byteLength kind.keyword.byteLength ∧
      StandsInCode .code none p kind.keyword q := by
  constructor
  · rintro ⟨htext, hwhole, hcode⟩
    obtain ⟨p, q, rfl, hp, hlen⟩ := slice?_eq_some_iff.mp htext
    rw [← hp, ← hlen, isWholeWord_append, Except.ok.injEq, Bool.and_eq_true] at hwhole
    have hpos := byteLength_pos (keyword_ne_nil kind)
    have hle := s.start_le_stop
    rw [Span.length] at hlen
    have hfirst := hcode p.byteLength (Nat.le_of_eq hp.symm) (by omega)
    refine ⟨p, q, rfl, ?_, byteLabels_eq_code_iff.mp hfirst, ?_, hwhole.2⟩
    · ext
      · rw [Span.start_ofLength, hp]
      · rw [Span.stop_ofLength]
        omega
    · rw [Option.or_none]
      exact hwhole.1
  · rintro ⟨p, q, rfl, rfl, hcode, hbefore, hafter⟩
    refine ⟨slice?_append p _ q, ?_, fun i hi hi' => ?_⟩
    · rw [Option.or_none] at hbefore
      rw [Span.start_ofLength, Span.length_ofLength, isWholeWord_append, hbefore, hafter]
      rfl
    · exact hcode.getElem?_byteLabels (isInert_keyword kind) hi hi'

/-! ### Where the search starts anew -/

theorem DeclarationHead.chars_of_read {t rest : Text} {h : DeclarationHead}
    (e : DeclarationHead.read t = .ok (h, rest)) :
    (∀ c ∈ h.pad, isBlank c) ∧ (∀ c ∈ h.name, isNameChar c) ∧ ∀ c ∈ h.gap, isLayoutBlank c := by
  simp only [DeclarationHead.read] at e
  split at e
  · cases e
  · split at e
    · cases e
    · split at e
      · cases e
      · cases e
        exact ⟨fun c hc => List.mem_takeWhile_imp hc, fun c hc => List.mem_takeWhile_imp hc,
          fun c hc => List.mem_takeWhile_imp hc⟩

theorem isInert_of_isLayoutBlank {c : Char} (h : isLayoutBlank c = true) : isInert c = true := by
  simp only [isLayoutBlank, isBlank, Bool.or_eq_true, beq_iff_eq] at h
  rcases h with ((rfl | rfl) | rfl) | rfl <;> decide

/-- **After the head of a declaration** a reader is in code, if the name ends where its string
ends. -/
theorem DeclarationHead.run_text_of_string {t rest : Text} {h : DeclarationHead}
    (e : DeclarationHead.read t = .ok (h, rest))
    (hstring : Mode.string.run h.name (some '"') = .string) (next : Option Char) :
    Mode.code.run h.text next = .code := by
  obtain ⟨hpad, -, hgap⟩ := chars_of_read e
  have hpad' : ∀ c ∈ h.pad, isInert c = true := fun c hc =>
    isInert_of_isLayoutBlank (by simp [isLayoutBlank, hpad c hc])
  have hrest' : ∀ c ∈ h.gap ++ ['{'], isInert c = true := by
    intro c hc
    rcases List.mem_append.mp hc with hc | hc
    · exact isInert_of_isLayoutBlank (hgap c hc)
    · rw [List.mem_singleton.mp hc]
      decide
  have hopen : ∀ next, Mode.code.step '"' next = (.string, .string) := fun _ => rfl
  have hclose : ∀ next, Mode.string.step '"' next = (.string, .code) := fun _ => rfl
  rw [text, Mode.run_append, Mode.run_inert hpad', Mode.run_cons, hopen, Mode.run_append,
    List.head?_cons, Option.some_or, hstring, Mode.run_cons, hclose, Mode.run_inert hrest']

theorem DeclarationHead.quote_not_mem_name {t rest : Text} {h : DeclarationHead}
    (e : DeclarationHead.read t = .ok (h, rest)) : '"' ∉ h.name := fun hmem =>
  absurd ((chars_of_read e).2.1 _ hmem) (by decide)

/-- The name leaves a reader in its string, if no quote of the head comes right after a
backslash. -/
theorem DeclarationHead.run_text {t rest : Text} {h : DeclarationHead}
    (e : DeclarationHead.read t = .ok (h, rest)) (hescape : ¬ ['\\', '"'] <:+: h.text)
    (next : Option Char) : Mode.code.run h.text next = .code := by
  refine run_text_of_string e ?_ next
  rcases Mode.run_string (quote_not_mem_name e) (some '"') with hrun | ⟨-, hlast⟩
  · exact hrun
  · obtain ⟨front, hfront⟩ := List.getLast?_eq_some_iff.mp hlast
    refine absurd ⟨h.pad ++ ('"' :: front), h.gap ++ ['{'], ?_⟩ hescape
    simp [text, hfront]

theorem DeclarationForm.run_text_of_head {t rest : Text} {form : DeclarationForm}
    (h : DeclarationForm.read t = .ok (form, rest))
    (hhead : ∀ next, Mode.code.run form.head.text next = .code) :
    Mode.code.run form.text rest.head? = .code := by
  obtain ⟨r, -, hinside⟩ := read_eq_ok_iff.mp h
  rw [DeclarationForm.text, Mode.run_append, hhead]
  exact (Bracket.closes_of_inside? hinside).run

theorem DeclarationForm.run_text {t rest : Text} {form : DeclarationForm}
    (h : DeclarationForm.read t = .ok (form, rest)) (hescape : ¬ ['\\', '"'] <:+: form.text) :
    Mode.code.run form.text rest.head? = .code := by
  obtain ⟨r, hread, -⟩ := read_eq_ok_iff.mp h
  exact run_text_of_head h (DeclarationHead.run_text hread fun hin =>
    hescape (hin.trans (List.prefix_append _ _).isInfix))

/-! ### Headers as visits -/

/-- What a declaration keyword takes along: the declaration that it introduces. -/
def declarationTaken (after : Text) : Text :=
  match DeclarationForm.read after with
  | .ok (form, _) => form.text
  | .error _ => []

/-- What becomes of a keyword, by the text before and after it. -/
def headerOf (v : Find Declaration.Kind) : Header :=
  match DeclarationForm.read v.after with
  | .ok (form, _) => .accepted (form.place v.key v.before.byteLength)
  | .error reason =>
    .rejected ⟨v.key, .ofLength v.before.byteLength v.key.keyword.byteLength, reason⟩

theorem exists_declarationTaken {after : Text} (hescape : ¬ ['\\', '"'] <:+: after) :
    ∃ rest, after = declarationTaken after ++ rest ∧
      Mode.code.run (declarationTaken after) rest.head? = .code := by
  unfold declarationTaken
  split
  · next form rest hread =>
    have heq := DeclarationForm.eq_of_read hread
    have hin : form.text <:+: after := heq ▸ (List.prefix_append _ _).isInfix
    exact ⟨rest, heq, DeclarationForm.run_text hread fun h => hescape (h.trans hin)⟩
  · exact ⟨after, rfl, rfl⟩

theorem headersFrom_of_findWord? {p s rest : Text} {f : Find Declaration.Kind}
    (hfind : findWord? Declaration.Kind.keyword Declaration.Kind.all p.getLast? .code s = some f)
    (hrest : f.after = declarationTaken f.after ++ rest) :
    headersFrom p.byteLength p.getLast? s =
      headerOf { f with before := p ++ f.before } ::
        headersFrom (p ++ f.before ++ (f.key.keyword ++ declarationTaken f.after)).byteLength
          (p ++ f.before ++ (f.key.keyword ++ declarationTaken f.after)).getLast? rest := by
  rw [headersFrom_unfold, hfind]
  cases hread : DeclarationForm.read f.after with
  | ok r =>
    have htaken : declarationTaken f.after = r.1.text := by rw [declarationTaken, hread]
    have hne : r.1.text ≠ [] := by simp [DeclarationForm.text]
    have hsame : r.2 = rest := by
      rw [htaken, DeclarationForm.eq_of_read hread] at hrest
      exact List.append_cancel_left hrest
    simp only [headerOf, hread, htaken, Text.byteLength_append, ← List.append_assoc,
      getLast?_append_of_ne_nil _ hne, hsame, Nat.add_assoc]
  | error reason =>
    have htaken : declarationTaken f.after = [] := by rw [declarationTaken, hread]
    rw [htaken, List.nil_append] at hrest
    subst hrest
    simp only [headerOf, hread, htaken, List.append_nil, Text.byteLength_append,
      getLast?_append_of_ne_nil _ (keyword_ne_nil f.key), Nat.add_assoc]

/-- **The headers of a text** are the visits of the search for keywords. -/
theorem exists_visits {source : Text} (hescape : ¬ ['\\', '"'] <:+: source) {p s : Text}
    (hsource : source = p ++ s) (hmode : Mode.code.run p s.head? = .code) :
    ∃ vs, Visits Declaration.Kind.keyword Declaration.Kind.all declarationTaken p s vs ∧
      headersFrom p.byteLength p.getLast? s = vs.map headerOf := by
  induction hn : s.length using Nat.strongRecOn generalizing p s with
  | ind n ih =>
    cases hfind : findWord? Declaration.Kind.keyword Declaration.Kind.all p.getLast? .code s with
    | none =>
      rw [headersFrom_unfold, hfind]
      exact ⟨[], .done hfind, rfl⟩
    | some f =>
      have hs := eq_of_findWord? hfind
      have hlen := length_after_findWord? hfind
      have hkey := f.key.length_keyword_pos
      have hafter : ¬ ['\\', '"'] <:+: f.after := by
        intro hin
        refine hescape (hin.trans (List.IsSuffix.isInfix ⟨p ++ f.before ++ f.key.keyword, ?_⟩))
        rw [hsource, hs]
        simp
      obtain ⟨rest, hrest, htaken⟩ := exists_declarationTaken hafter
      have hmode' := Visits.run_of_findWord? hmode hfind (isInert_keyword _) (keyword_ne_nil _) hrest
        htaken
      have hshort := congrArg List.length hrest
      rw [List.length_append] at hshort
      obtain ⟨vs, hvisits, hheaders⟩ := ih rest.length (by omega)
        (hsource.trans (Visits.split hfind hrest p)) hmode' rfl
      refine ⟨_, .visit hfind hrest hmode' hvisits, ?_⟩
      rw [headersFrom_of_findWord? hfind hrest, hheaders]
      rfl

/-! ### The keywords of a document -/

/-- A declaration as a whole, from its keyword to its closing brace. -/
def Declaration.extent (d : Declaration) : Span := .ofEnds d.keywordSpan.start (d.body.stop + 1)

/-- What a header covers: a declaration as a whole, or a rejected keyword. -/
def Header.extent : Header → Span
  | .accepted d => d.extent
  | .rejected r => r.keywordSpan

/-- A header is about a keyword in code, and a declaration is covered up to its closing brace. -/
def Header.IsAt (source : Text) : Header → Prop
  | .accepted d => source.KeywordAt d.kind d.keywordSpan ∧
      ∃ m, source.slice? d.extent = some (d.kind.keyword ++ (m ++ [Bracket.brace.closer]))
  | .rejected r => source.KeywordAt r.kind r.keywordSpan

theorem DeclarationForm.extent_place (form : DeclarationForm) (kind : Declaration.Kind)
    (offset : Nat) :
    (form.place kind offset).extent = .ofLength offset (kind.keyword ++ form.text).byteLength := by
  have hbrace : Bracket.brace.closer.utf8Size = 1 := by decide
  ext
  · rfl
  · simp only [Declaration.extent, Span.ofEnds, place, text, Span.stop_ofLength,
      Span.start_ofLength, Text.byteLength_append, Text.byteLength_cons, Text.byteLength_nil]
    omega

/-- **Headers come one after the other** in any text: the search goes on where a header ends. -/
theorem headersFrom_extents (offset : Nat) (prev : Option Char) (t : Text) :
    (∀ h ∈ headersFrom offset prev t, offset ≤ h.extent.start) ∧
      (headersFrom offset prev t).Pairwise fun h k => h.extent.Before k.extent := by
  induction hn : t.length using Nat.strongRecOn generalizing offset prev t with
  | ind n ih =>
    cases hfind : findWord? Declaration.Kind.keyword Declaration.Kind.all prev .code t with
    | none =>
      rw [headersFrom_of_none hfind]
      exact ⟨fun _ h => absurd h List.not_mem_nil, List.Pairwise.nil⟩
    | some f =>
      have hlen := length_after_findWord? hfind
      have hkey := f.key.length_keyword_pos
      -- one more header in front, and the others from its end on
      have next : ∀ {h : Header} {hs : List Header} {length : Nat},
          h.extent = .ofLength (offset + f.before.byteLength) length →
          ((∀ k ∈ hs, offset + f.before.byteLength + length ≤ k.extent.start) ∧
            hs.Pairwise fun h k => h.extent.Before k.extent) →
          (∀ k ∈ h :: hs, offset ≤ k.extent.start) ∧
            (h :: hs).Pairwise fun h k => h.extent.Before k.extent := by
        rintro h hs length hextent ⟨hstart, hpair⟩
        refine ⟨fun k hk => ?_, List.Pairwise.cons (fun k hk => ?_) hpair⟩
        · rcases List.mem_cons.mp hk with rfl | hk
          · rw [hextent, Span.start_ofLength]
            omega
          · have := hstart k hk
            omega
        · rw [Span.Before, hextent, Span.stop_ofLength]
          exact hstart k hk
      cases hread : DeclarationForm.read f.after with
      | ok r =>
        have hform := congrArg List.length (DeclarationForm.eq_of_read hread)
        rw [List.length_append] at hform
        rw [headersFrom_of_ok hfind hread]
        refine next (r.1.extent_place f.key _) ?_
        rw [Text.byteLength_append, ← Nat.add_assoc]
        exact ih r.2.length (by omega) _ _ _ rfl
      | error reason =>
        rw [headersFrom_of_error hfind hread]
        exact next rfl (ih f.after.length (by omega) _ _ _ rfl)

theorem extent_headerOf (v : Find Declaration.Kind) :
    (headerOf v).extent =
      .ofLength v.before.byteLength (v.key.keyword ++ declarationTaken v.after).byteLength := by
  simp only [headerOf, declarationTaken]
  split
  · next form rest hread => exact form.extent_place v.key v.before.byteLength
  · rw [List.append_nil]
    rfl

theorem stop_extent_headerOf (v : Find Declaration.Kind) :
    (headerOf v).extent.stop =
      (v.reach Declaration.Kind.keyword declarationTaken).byteLength := by
  rw [extent_headerOf, Find.reach, Span.stop_ofLength, ← Text.byteLength_append]

/-- A keyword in code that starts in what another one takes along lies in the declaration of the
latter. -/
theorem within_extent_of_lt {v : Find Declaration.Kind} {kind : Declaration.Kind} {q t : Text}
    (heq : q ++ (kind.keyword ++ t) = v.before ++ (v.key.keyword ++ v.after))
    (hq : StandsInCode .code none q kind.keyword t) (hlt : v.before.length < q.length)
    (hreach : q.length < (v.reach Declaration.Kind.keyword declarationTaken).length) :
    ∃ d, headerOf v = .accepted d ∧
      (Span.ofLength q.byteLength kind.keyword.byteLength).Within d.extent := by
  have hlen := hq.not_inside (isWordChar_keyword v.key) heq hlt
  cases hread : DeclarationForm.read v.after with
  | error reason =>
    -- nothing is taken, and inside the keyword itself no other one starts
    rw [Find.reach, declarationTaken, hread, List.append_nil] at hreach
    omega
  | ok r =>
    have htaken : declarationTaken v.after = r.1.text := by rw [declarationTaken, hread]
    have hheader : headerOf v = .accepted (r.1.place v.key v.before.byteLength) := by
      rw [headerOf, hread]
    have hstop := stop_extent_headerOf v
    refine ⟨_, hheader, ?_, ?_⟩
    · obtain ⟨m, hm⟩ := List.prefix_of_prefix_length_le
        (heq ▸ List.prefix_append v.before _) (List.prefix_append q _) (Nat.le_of_lt hlt)
      rw [r.1.extent_place, Span.start_ofLength, Span.start_ofLength, ← hm, Text.byteLength_append]
      exact Nat.le_add_right _ _
    · have hbrace : Bracket.brace.closer ∉ kind.keyword := by cases kind <;> decide
      have hsplit : v.reach Declaration.Kind.keyword declarationTaken =
          (v.before ++ (v.key.keyword ++ (r.1.head.text ++ r.1.body))) ++ [Bracket.brace.closer] := by
        rw [Find.reach, htaken, DeclarationForm.text]
        simp
      have heq' : q ++ (kind.keyword ++ t) =
          (v.before ++ (v.key.keyword ++ (r.1.head.text ++ r.1.body)) ++ [Bracket.brace.closer]) ++
            r.2 := by
        rw [heq, DeclarationForm.eq_of_read hread, DeclarationForm.text]
        simp
      rw [hsplit] at hreach hstop
      obtain ⟨m, hm⟩ := Text.append_prefix_of_not_mem heq' hreach hbrace
      rw [hheader, ← hm, Header.extent] at hstop
      rw [hstop, Span.stop_ofLength]
      simp only [Text.byteLength_append]
      omega

namespace Text

theorem exists_visits_headers {source : Text} (hescape : ¬ ['\\', '"'] <:+: source) :
    ∃ vs, Visits Declaration.Kind.keyword Declaration.Kind.all declarationTaken [] source vs ∧
      source.headers = vs.map headerOf :=
  exists_visits hescape rfl rfl

theorem headers_extents (source : Text) :
    source.headers.Pairwise fun h k => h.extent.Before k.extent := (headersFrom_extents 0 none source).2

theorem pairwise_extent (source : Text) :
    (source.declarations.map Declaration.extent).Pairwise Span.Before := by
  refine List.pairwise_map.mpr (source.headers_extents.filterMap _ ?_)
  rintro (d | r) (e | r) hbefore _ ⟨⟩ _ ⟨⟩
  exact hbefore

theorem pairwise_rejections (source : Text) :
    source.rejections.Pairwise fun r q => r.keywordSpan.Before q.keywordSpan := by
  refine source.headers_extents.filterMap _ ?_
  rintro (d | r) (d | q) hbefore _ ⟨⟩ _ ⟨⟩
  exact hbefore

theorem before_or_before {source : Text} {d : Declaration} (hd : d ∈ source.declarations)
    {r : Rejection} (hr : r ∈ source.rejections) :
    d.extent.Before r.keywordSpan ∨ r.keywordSpan.Before d.extent :=
  (eq_or_or_of_pairwise source.headers_extents (mem_declarations.mp hd)
    (mem_rejections.mp hr)).resolve_left Header.noConfusion

theorem isAt_of_mem_headers {source : Text} (hescape : ¬ ['\\', '"'] <:+: source)
    {h : Header} (hh : h ∈ source.headers) : h.IsAt source := by
  obtain ⟨vs, hvisits, hheaders⟩ := exists_visits_headers hescape
  obtain ⟨v, hv, rfl⟩ := List.mem_map.mp (hheaders ▸ hh)
  have heq := (hvisits.eq_append hv).1
  have hat : source.KeywordAt v.key (.ofLength v.before.byteLength v.key.keyword.byteLength) :=
    keywordAt_iff.mpr ⟨v.before, v.after, heq, rfl, (hvisits.standsInCode rfl hv).2⟩
  rw [List.nil_append] at heq
  cases hread : DeclarationForm.read v.after with
  | ok r =>
    rw [headerOf, hread]
    refine ⟨hat, r.1.head.text ++ r.1.body, ?_⟩
    have hslice := slice?_append v.before (v.key.keyword ++ r.1.text) r.2
    rw [List.append_assoc, ← DeclarationForm.eq_of_read hread, ← heq] at hslice
    rw [r.1.extent_place, hslice, DeclarationForm.text, List.append_assoc]
    rfl
  | error reason =>
    rw [headerOf, hread]
    exact hat

/-- No keyword in code is left out. -/
theorem header_of_keywordAt {source : Text} (hescape : ¬ ['\\', '"'] <:+: source)
    {kind : Declaration.Kind} {s : Span} (h : source.KeywordAt kind s) :
    (∃ d, .accepted d ∈ source.headers ∧ d.kind = kind ∧ d.keywordSpan = s) ∨
      (∃ r, .rejected r ∈ source.headers ∧ r.kind = kind ∧ r.keywordSpan = s) ∨
      ∃ d, .accepted d ∈ source.headers ∧ s.Within d.extent := by
  obtain ⟨vs, hvisits, hheaders⟩ := exists_visits_headers hescape
  obtain ⟨p, q, rfl, rfl, hcode⟩ := keywordAt_iff.mp h
  have hkind : kind ∈ Declaration.Kind.all := by cases kind <;> decide
  obtain ⟨v, hv, hvp⟩ := hvisits.complete rfl hkind rfl hcode (Nat.zero_le _)
  have hmem : headerOf v ∈ (p ++ (kind.keyword ++ q) : Text).headers :=
    hheaders ▸ List.mem_map_of_mem hv
  have heq := (hvisits.eq_append hv).1
  rw [List.nil_append] at heq
  rcases hvp with rfl | ⟨hlt, hreach⟩
  · -- the keyword is the one that was visited
    obtain rfl := eq_of_keyword_append (List.append_cancel_left heq)
    cases hread : DeclarationForm.read v.after with
    | ok r =>
      rw [headerOf, hread] at hmem
      exact Or.inl ⟨_, hmem, rfl, rfl⟩
    | error reason =>
      rw [headerOf, hread] at hmem
      exact Or.inr (Or.inl ⟨_, hmem, rfl, rfl⟩)
  · obtain ⟨d, hd, hwithin⟩ := within_extent_of_lt heq hcode hlt hreach
    exact Or.inr (Or.inr ⟨d, hd ▸ hmem, hwithin⟩)

end Text

/-- **Every declaration keyword is accounted for once.** In a document in which no quote comes right
after a backslash, declarations and rejected keywords do not overlap and come in order; each of them
is about a keyword that is a whole word in code; and each whole word in code that spells a keyword
introduces a declaration, is rejected, or lies in a declaration. -/
theorem Text.keywords_accounted (source : Text) (hescape : ¬ ['\\', '"'] <:+: source) :
    (source.declarations.map Declaration.extent).Pairwise Span.Before ∧
    (source.rejections.map Rejection.keywordSpan).Pairwise Span.Before ∧
    (∀ d ∈ source.declarations, ∀ r ∈ source.rejections,
      d.extent.Before r.keywordSpan ∨ r.keywordSpan.Before d.extent) ∧
    (∀ d ∈ source.declarations, source.KeywordAt d.kind d.keywordSpan ∧
      ∃ m, source.slice? d.extent = some (d.kind.keyword ++ (m ++ ['}']))) ∧
    (∀ r ∈ source.rejections, source.KeywordAt r.kind r.keywordSpan) ∧
    ∀ kind s, source.KeywordAt kind s →
      (∃ d ∈ source.declarations, d.kind = kind ∧ d.keywordSpan = s) ∨
      (∃ r ∈ source.rejections, r.kind = kind ∧ r.keywordSpan = s) ∨
      ∃ d ∈ source.declarations, s.Within d.extent := by
  refine ⟨source.pairwise_extent, List.pairwise_map.mpr source.pairwise_rejections,
    fun d hd r hr => before_or_before hd hr, ?_, ?_, ?_⟩
  · intro d hd
    exact isAt_of_mem_headers hescape (mem_declarations.mp hd)
  · intro r hr
    exact isAt_of_mem_headers hescape (mem_rejections.mp hr)
  · intro kind s h
    simp only [mem_declarations, mem_rejections]
    exact header_of_keywordAt hescape h

/-- Of the keywords in `module "module" { pipeline } module x`, the one in the name is no word in
code, the one in the body lies in the declaration, and the last one is rejected. -/
theorem Text.keywords_accounted_nested :
    let source := "module \"module\" \x7b pipeline \x7d module x".toList
    ¬ ['\\', '"'] <:+: source ∧ Text.KeywordAt source .pipeline (.ofLength 18 8) ∧
      Text.KeywordAt source .module (.ofLength 29 6) ∧
      (∃ d ∈ Text.declarations source, (Span.ofLength 18 8).Within d.extent) ∧
      ∃ r ∈ Text.rejections source, r.kind = .module ∧ r.keywordSpan = .ofLength 29 6 := by
  intro source
  have hescape : ¬ ['\\', '"'] <:+: source := by decide +kernel
  have hinner : Text.KeywordAt source .pipeline (.ofLength 18 8) :=
    ⟨by decide +kernel, by decide +kernel, by decide +kernel⟩
  have hlast : Text.KeywordAt source .module (.ofLength 29 6) :=
    ⟨by decide +kernel, by decide +kernel, by decide +kernel⟩
  have hdecl : ∀ d ∈ Text.declarations source, d.keywordSpan ≠ .ofLength 18 8 ∧
      d.keywordSpan ≠ .ofLength 29 6 ∧ ¬ (Span.ofLength 29 6).Within d.extent := by decide +kernel
  have hrej : ∀ r ∈ Text.rejections source, r.keywordSpan ≠ .ofLength 18 8 := by decide +kernel
  obtain ⟨-, -, -, -, -, hall⟩ := Text.keywords_accounted source hescape
  refine ⟨hescape, hinner, hlast, ?_, ?_⟩
  · rcases hall _ _ hinner with ⟨d, hd, -, hspan⟩ | ⟨r, hr, -, hspan⟩ | h
    · exact absurd hspan (hdecl d hd).1
    · exact absurd hspan (hrej r hr)
    · exact h
  · rcases hall _ _ hlast with ⟨d, hd, -, hspan⟩ | h | ⟨d, hd, hwithin⟩
    · exact absurd hspan (hdecl d hd).2.1
    · exact h
    · exact absurd hwithin (hdecl d hd).2.2

end PipelineDoc
