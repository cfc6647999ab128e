import PipelineDoc.Declaration
import PipelineDoc.Proofs.Text.Slices

/-!
# Where declarations stand

The parts of a declaration stand in the document at the spans that the declaration names: the
keyword, the name and the body, in this order and apart from each other (`Declaration.StandsIn`).
Declarations come one after the other: a body ends before the next keyword
(`pairwise_declarations`).
-/

namespace PipelineDoc

/-- The spans of a declaration are those of its parts in a document. -/
structure Declaration.StandsIn (d : Declaration) (source : Text) : Prop where
  keyword : source.slice? d.keywordSpan = some d.kind.keyword
  name : source.slice? d.nameSpan = some d.name
  body : source.slice? d.body = some (d.content source)
  keyword_le_name : d.keywordSpan.stop ≤ d.nameSpan.start
  name_le_body : d.nameSpan.stop ≤ d.body.start

/-- A header stands in a document, not before an offset. -/
def Header.StandsFrom (source : Text) (offset : Nat) : Header → Prop
  | .accepted d => d.StandsIn source ∧ offset ≤ d.keywordSpan.start
  | .rejected r => source.slice? r.keywordSpan = some r.kind.keyword

theorem Header.StandsFrom.mono {source : Text} {m n : Nat} {h : Header} (hmn : m ≤ n)
    (hh : h.StandsFrom source n) : h.StandsFrom source m := by
  cases h with
  | accepted d => exact ⟨hh.1, Nat.le_trans hmn hh.2⟩
  | rejected r => exact hh

/-- The header `h` ends before `k` starts, if both make declarations. -/
def Header.Before (h k : Header) : Prop :=
  ∀ d ∈ h.declaration?, ∀ e ∈ k.declaration?, d.body.stop < e.keywordSpan.start

theorem Text.slice_of_slice? {t m : Text} {s : Span} (h : t.slice? s = some m) : t.slice s = m := by
  rw [Text.slice, h, Option.getD_some]

theorem DeclarationForm.read_eq_ok_iff {t rest : Text} {form : DeclarationForm} :
    DeclarationForm.read t = .ok (form, rest) ↔ ∃ r, DeclarationHead.read t = .ok (form.head, r) ∧
      Bracket.brace.inside? r = some (form.body, rest) := by
  constructor
  · intro h
    simp only [DeclarationForm.read] at h
    split at h
    · cases h
    · next head r hread =>
      split at h
      · next body after hinside =>
        cases h
        exact ⟨r, hread, hinside⟩
      · cases h
  · rintro ⟨r, hread, hinside⟩
    simp only [DeclarationForm.read, hread, hinside]

theorem DeclarationForm.slice?_body (f : DeclarationForm) (kind : Declaration.Kind)
    (p after : Text) : (p ++ (kind.keyword ++ (f.text ++ after))).slice?
      (f.place kind p.byteLength).body = some f.body := by
  have body := Text.slice?_append (p ++ (kind.keyword ++ f.head.text)) f.body
    (Bracket.brace.closer :: after)
  simp only [DeclarationForm.text, DeclarationForm.place, List.append_assoc,
    Text.byteLength_append, Nat.add_assoc] at body ⊢
  exact body

theorem DeclarationForm.standsIn (f : DeclarationForm) (kind : Declaration.Kind) (p after : Text) :
    (f.place kind p.byteLength).StandsIn (p ++ (kind.keyword ++ (f.text ++ after))) := by
  have keyword := Text.slice?_append p kind.keyword (f.text ++ after)
  have name := Text.slice?_append (p ++ (kind.keyword ++ (f.head.pad ++ ['"']))) f.head.name
    ('"' :: (f.head.gap ++ ('{' :: (f.body ++ (Bracket.brace.closer :: after)))))
  have body := f.slice?_body kind p after
  refine ⟨keyword, ?_, ?_, ?_, ?_⟩
  · simp only [DeclarationForm.text, DeclarationForm.place, DeclarationHead.text,
      DeclarationHead.nameSpan, List.append_assoc, List.cons_append, List.nil_append,
      Text.byteLength_append, Nat.add_assoc] at name ⊢
    exact name
  · rw [Declaration.content, Text.slice_of_slice? body, body]
  · simp only [DeclarationForm.place, DeclarationHead.nameSpan, Span.stop_ofLength,
      Span.start_ofLength]
    omega
  · simp only [DeclarationForm.place, DeclarationHead.nameSpan, DeclarationHead.text,
      Span.stop_ofLength, Span.start_ofLength, Text.byteLength_append, Text.byteLength_cons,
      Text.byteLength_nil]
    omega

theorem headersFrom_unfold (offset : Nat) (prev : Option Char) (t : Text) :
    headersFrom offset prev t =
      match findWord? Declaration.Kind.keyword Declaration.Kind.all prev .code t with
      | none => []
      | some f =>
        match DeclarationForm.read f.after with
        | .ok (form, rest) =>
          .accepted (form.place f.key (offset + f.before.byteLength)) ::
            headersFrom (offset + f.before.byteLength + f.key.keyword.byteLength +
              form.text.byteLength) form.text.getLast? rest
        | .error reason =>
          .rejected ⟨f.key, .ofLength (offset + f.before.byteLength) f.key.keyword.byteLength,
              reason⟩ ::
            headersFrom (offset + f.before.byteLength + f.key.keyword.byteLength)
              f.key.keyword.getLast? f.after := by
  rw [headersFrom]
  split
  · next h => rw [h]
  · next f h =>
    rw [h]
    simp only
    split
    · next form rest hread => rw [hread]
    · next reason hread => rw [hread]

section Rounds

variable {offset : Nat} {prev : Option Char} {t : Text} {f : Find Declaration.Kind}

theorem headersFrom_of_none
    (hfind : findWord? Declaration.Kind.keyword Declaration.Kind.all prev .code t = none) :
    headersFrom offset prev t = [] := by
  rw [headersFrom_unfold, hfind]

theorem headersFrom_of_ok
    (hfind : findWord? Declaration.Kind.keyword Declaration.Kind.all prev .code t = some f)
    {form : DeclarationForm} {rest : Text} (hread : DeclarationForm.read f.after = .ok (form, rest)) :
    headersFrom offset prev t = .accepted (form.place f.key (offset + f.before.byteLength)) ::
      headersFrom (offset + f.before.byteLength + f.key.keyword.byteLength + form.text.byteLength)
        form.text.getLast? rest := by
  rw [headersFrom_unfold, hfind]
  simp only [hread]

theorem headersFrom_of_error
    (hfind : findWord? Declaration.Kind.keyword Declaration.Kind.all prev .code t = some f)
    {reason : HeaderFault} (hread : DeclarationForm.read f.after = .error reason) :
    headersFrom offset prev t =
      .rejected ⟨f.key, .ofLength (offset + f.before.byteLength) f.key.keyword.byteLength, reason⟩ ::
        headersFrom (offset + f.before.byteLength + f.key.keyword.byteLength)
          f.key.keyword.getLast? f.after := by
  rw [headersFrom_unfold, hfind]
  simp only [hread]

end Rounds

/-- **All headers stand where they were read**, one after the other. -/
theorem headersFrom_spec (p s : Text) (prev : Option Char) :
    (∀ h ∈ headersFrom p.byteLength prev s, h.StandsFrom (p ++ s) p.byteLength) ∧
      (headersFrom p.byteLength prev s).Pairwise Header.Before := by
  induction hn : s.length using Nat.strongRecOn generalizing p s prev with
  | ind n ih =>
    rw [headersFrom_unfold]
    split
    · simp
    · next f hfind =>
      have hs := eq_of_findWord? hfind
      have hkey := f.key.length_keyword_pos
      have hlen := congrArg List.length hs
      simp only [List.length_append] at hlen
      have hbefore : (p ++ f.before : Text).byteLength = p.byteLength + f.before.byteLength :=
        Text.byteLength_append _ _
      split
      · next form rest hread =>
        have hform := DeclarationForm.eq_of_read hread
        have hflen := congrArg List.length hform
        simp only [List.length_append] at hflen
        have hsplit : p ++ s = (p ++ f.before) ++ (f.key.keyword ++ (form.text ++ rest)) := by
          rw [hs, hform]
          simp
        have hstands := form.standsIn f.key (p ++ f.before) rest
        rw [← hsplit, hbefore] at hstands
        -- what is left stands after the closing brace
        have hnext := ih rest.length (by omega) (p ++ f.before ++ f.key.keyword ++ form.text) rest
          form.text.getLast? rfl
        have hoff : (p ++ f.before ++ f.key.keyword ++ form.text).byteLength =
            p.byteLength + f.before.byteLength + f.key.keyword.byteLength + form.text.byteLength := by
          simp only [Text.byteLength_append]
        rw [hoff, show (p ++ f.before ++ f.key.keyword ++ form.text) ++ rest = p ++ s by
          rw [hsplit]; simp] at hnext
        have hstop : (form.place f.key (p.byteLength + f.before.byteLength)).body.stop <
            p.byteLength + f.before.byteLength + f.key.keyword.byteLength + form.text.byteLength := by
          simp only [DeclarationForm.place, DeclarationForm.text, Span.stop_ofLength,
            Text.byteLength_append, Text.byteLength_cons, Text.byteLength_nil]
          have := Char.utf8Size_pos Bracket.brace.closer
          omega
        refine ⟨?_, List.Pairwise.cons ?_ hnext.2⟩
        · intro h hh
          rcases List.mem_cons.mp hh with rfl | hh
          · exact ⟨hstands, by simp [DeclarationForm.place]⟩
          · exact (hnext.1 h hh).mono (by omega)
        · intro k hk d hd e he
          cases hd
          cases k with
          | accepted e' =>
            cases he
            have := (hnext.1 _ hk).2
            omega
          | rejected r => cases he
      · next reason hread =>
        have hsplit : p ++ s = (p ++ f.before) ++ (f.key.keyword ++ f.after) := by
          rw [hs]
          simp
        have hnext := ih f.after.length (by omega) (p ++ f.before ++ f.key.keyword) f.after
          f.key.keyword.getLast? rfl
        have hoff : (p ++ f.before ++ f.key.keyword).byteLength =
            p.byteLength + f.before.byteLength + f.key.keyword.byteLength := by
          simp only [Text.byteLength_append]
        rw [hoff, show (p ++ f.before ++ f.key.keyword) ++ f.after = p ++ s by
          rw [hsplit]; simp] at hnext
        refine ⟨?_, List.Pairwise.cons ?_ hnext.2⟩
        · intro h hh
          rcases List.mem_cons.mp hh with rfl | hh
          · show (p ++ s).slice? _ = _
            rw [hsplit, ← hbefore]
            exact Text.slice?_append _ _ _
          · exact (hnext.1 h hh).mono (by omega)
        · intro k _ d hd
          cases hd

theorem exists_form_of_mem_headersFrom (p s : Text) (prev : Option Char) {d : Declaration}
    (hd : .accepted d ∈ headersFrom p.byteLength prev s) :
    ∃ q kind form rest, p ++ s = q ++ (kind.keyword ++ (form.text ++ rest)) ∧
      DeclarationForm.read (form.text ++ rest) = .ok (form, rest) ∧
      d = form.place kind q.byteLength := by
  induction hn : s.length using Nat.strongRecOn generalizing p s prev with
  | ind n ih =>
    rw [headersFrom_unfold] at hd
    split at hd
    · cases hd
    · next f hfind =>
      have hs := eq_of_findWord? hfind
      have hkey := f.key.length_keyword_pos
      have hlen := congrArg List.length hs
      simp only [List.length_append] at hlen
      have hsplit : p ++ s = (p ++ f.before) ++ (f.key.keyword ++ f.after) := by rw [hs]; simp
      -- what is left after a part of the text
      have next : ∀ (m rest : Text) (prev : Option Char), f.after = m ++ rest →
          .accepted d ∈ headersFrom (p.byteLength + f.before.byteLength +
            f.key.keyword.byteLength + m.byteLength) prev rest →
          ∃ q kind form rest, p ++ s = q ++ (kind.keyword ++ (form.text ++ rest)) ∧
            DeclarationForm.read (form.text ++ rest) = .ok (form, rest) ∧
            d = form.place kind q.byteLength := by
        intro m rest prev hm hd
        have hrest := congrArg List.length hm
        simp only [List.length_append] at hrest
        have hwhole : p ++ f.before ++ f.key.keyword ++ m ++ rest = p ++ s := by
          rw [hsplit, hm]
          simp
        rw [← Text.byteLength_append, ← Text.byteLength_append, ← Text.byteLength_append] at hd
        rw [← hwhole]
        exact ih rest.length (by omega) _ rest prev hd rfl
      split at hd
      · next form rest hread =>
        have hform := DeclarationForm.eq_of_read hread
        rcases List.mem_cons.mp hd with hd | hd
        · cases hd
          rw [hform] at hsplit hread
          exact ⟨p ++ f.before, f.key, form, rest, hsplit, hread, by rw [Text.byteLength_append]⟩
        · exact next form.text rest _ hform hd
      · rcases List.mem_cons.mp hd with hd | hd
        · cases hd
        · exact next [] f.after _ rfl hd

theorem runtimeFrom_unfold (offset : Nat) (prev : Option Char) (t : Text) :
    runtimeFrom offset prev t =
      match findWord? (fun () => runtimeWord) [()] prev .code t with
      | none => none
      | some f =>
        match f.after.trimStart.skip? [Bracket.brace.opener] with
        | some rest =>
          (Bracket.brace.inside? rest).map fun r =>
            .ofLength (offset + f.before.byteLength + runtimeWord.byteLength +
              Text.byteLength (f.after.takeWhile isWhite ++ [Bracket.brace.opener]))
              r.1.byteLength
        | none => runtimeFrom (offset + f.before.byteLength + runtimeWord.byteLength)
            runtimeWord.getLast? f.after := by
  rw [runtimeFrom]
  split
  · next h => rw [h]
  · next f h =>
    rewrite [h]
    rfl

/-- The modules that a document declares, in order. -/
def Text.modules (source : Text) : List Declaration :=
  source.declarations.filter fun d => d.kind == .module

theorem Text.mem_declarations {source : Text} {d : Declaration} :
    d ∈ source.declarations ↔ .accepted d ∈ source.headers := by
  rw [declarations, List.mem_filterMap]
  constructor
  · rintro ⟨h, hh, hd⟩
    cases h with
    | accepted e => cases hd; exact hh
    | rejected r => cases hd
  · exact fun h => ⟨_, h, rfl⟩

theorem Text.mem_rejections {source : Text} {r : Rejection} :
    r ∈ source.rejections ↔ .rejected r ∈ source.headers := by
  rw [rejections, List.mem_filterMap]
  constructor
  · rintro ⟨h, hh, hr⟩
    cases h with
    | accepted e => cases hr
    | rejected q => cases hr; exact hh
  · exact fun h => ⟨_, h, rfl⟩

/-- The body of a declaration is the inside of a brace. -/
theorem exists_inside?_content {source : Text} {d : Declaration} (hd : d ∈ source.declarations) :
    ∃ r rest, Bracket.brace.inside? r = some (d.content source, rest) := by
  obtain ⟨q, kind, form, rest, hsource, hread, rfl⟩ :=
    exists_form_of_mem_headersFrom [] source none (Text.mem_declarations.mp hd)
  rw [List.nil_append] at hsource
  obtain ⟨r, -, hinside⟩ := DeclarationForm.read_eq_ok_iff.mp hread
  have hbody : (form.place kind q.byteLength).content source = form.body := by
    rw [Declaration.content, hsource]
    exact Text.slice_of_slice? (form.slice?_body kind q rest)
  exact ⟨r, rest, by rw [hbody, hinside]⟩

theorem Text.headers_spec (source : Text) :
    (∀ h ∈ source.headers, h.StandsFrom source 0) ∧ source.headers.Pairwise Header.Before :=
  headersFrom_spec [] source none

theorem Text.standsIn_of_mem_declarations {source : Text} {d : Declaration}
    (hd : d ∈ source.declarations) : d.StandsIn source :=
  (source.headers_spec.1 _ (mem_declarations.mp hd)).1

theorem Text.slice?_of_mem_rejections {source : Text} {r : Rejection} (hr : r ∈ source.rejections) :
    source.slice? r.keywordSpan = some r.kind.keyword :=
  source.headers_spec.1 _ (mem_rejections.mp hr)

theorem Text.pairwise_declarations (source : Text) :
    source.declarations.Pairwise fun d e => d.body.stop < e.keywordSpan.start :=
  source.headers_spec.2.filterMap _ fun _ _ h d hd e he => h d hd e he

end PipelineDoc
