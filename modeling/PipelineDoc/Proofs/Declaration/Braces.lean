import PipelineDoc.Proofs.Declaration.Keywords

/-!
# The braces of declarations in the labels of the document

The name of a declaration is read up to the next quote, whatever stands between, and its body is
read from code on. A reader of the whole document takes a quote that comes after an escaping
backslash for a part of the string. Both see the name end at the same quote unless the name *ends
escaping*: with an odd number of backslashes (`Mode.run_string_eq`). As long as no name does, the
search for declarations starts anew where the document is in code. So the keyword and the braces of
a declaration are code up to the first name that ends escaping, and the opening brace after that
name is in a string. Main statement: `declarations_inCode_iff`.
-/

namespace PipelineDoc

/-! ### Names that end escaping -/

/-- Whether a text ends with an odd number of backslashes. -/
def Text.endsEscaping (t : Text) : Bool := (t.reverse.takeWhile (· == '\\')).length % 2 == 1

namespace Text

theorem endsEscaping_concat (t : Text) (c : Char) :
    endsEscaping (t ++ [c]) = (c == '\\' && !endsEscaping t) := by
  rw [endsEscaping, List.reverse_append, List.reverse_singleton, List.singleton_append]
  by_cases hc : c = '\\'
  · rw [List.takeWhile_cons_of_pos (by simp [hc]), List.length_cons, endsEscaping, hc]
    -- one more backslash changes the parity
    rw [Bool.eq_iff_iff]
    simp only [beq_iff_eq, beq_self_eq_true, Bool.true_and, Bool.not_eq_true', beq_eq_false_iff_ne]
    omega
  · rw [List.takeWhile_cons_of_neg (by simpa using hc), beq_false_of_ne hc]
    rfl

theorem endsEscaping_of_not_mem {t : Text} (h : '\\' ∉ t) : t.endsEscaping = false := by
  rcases List.eq_nil_or_concat' t with rfl | ⟨front, c, rfl⟩
  · rfl
  · have hc : c ≠ '\\' := fun hc => h (by simp [hc])
    rw [endsEscaping_concat, beq_false_of_ne hc, Bool.false_and]

end Text

/-- **Inside a string without a quote** a reader stands after an escaping backslash exactly if the
text ends escaping. -/
theorem Mode.run_string_eq {w : Text} (hw : '"' ∉ w) (next : Option Char) :
    string.run w next = if w.endsEscaping then stringEscape else string := by
  induction w using List.reverseRecOn generalizing next with
  | nil => rfl
  | append_singleton w c ih =>
    have hc : c ≠ '"' := fun h => hw (by simp [h])
    rw [run_concat, ih fun h => hw (List.mem_append_left _ h), Text.endsEscaping_concat]
    cases Text.endsEscaping w with
    | true =>
      rw [Bool.not_true, Bool.and_false]
      rfl
    | false =>
      by_cases hb : c = '\\'
      · simp [step, hb]
      · simp [step, hb, hc]

/-! ### Heads of declarations -/

namespace DeclarationHead

/-- The text of a head up to its brace. -/
def stem (h : DeclarationHead) : Text := h.pad ++ ('"' :: (h.name ++ ('"' :: h.gap)))

theorem text_eq (h : DeclarationHead) : h.text = h.stem ++ ['{'] := by
  simp [text, stem]

theorem run_stem {t rest : Text} {h : DeclarationHead} (e : DeclarationHead.read t = .ok (h, rest))
    (next : Option Char) :
    Mode.code.run h.stem next = if h.name.endsEscaping then .string else .code := by
  obtain ⟨hpad, -, hgap⟩ := chars_of_read e
  have hpad' : ∀ c ∈ h.pad, isInert c = true := fun c hc =>
    isInert_of_isLayoutBlank (by simp [isLayoutBlank, hpad c hc])
  have hgap' : ∀ c ∈ h.gap, isInert c = true := fun c hc => isInert_of_isLayoutBlank (hgap c hc)
  have hopen : ∀ next, (Mode.code.step '"' next).2 = .string := fun _ => rfl
  rw [stem, Mode.run_append, Mode.run_inert hpad', Mode.run_cons, hopen, Mode.run_append,
    List.head?_cons, Option.some_or, Mode.run_string_eq (quote_not_mem_name e), Mode.run_cons]
  cases h.name.endsEscaping with
  | true =>
    -- the quote after the name is hidden, and the blanks after it are part of the string
    have hquote : '"' ∉ h.gap := fun hmem => absurd (hgap' _ hmem) (by decide)
    have hslash : '\\' ∉ h.gap := fun hmem => absurd (hgap' _ hmem) (by decide)
    have hstep : ∀ next, (Mode.stringEscape.step '"' next).2 = .string := fun _ => rfl
    rw [if_pos rfl, hstep, Mode.run_string_eq hquote, Text.endsEscaping_of_not_mem hslash]
    rfl
  | false =>
    have hstep : ∀ next, (Mode.string.step '"' next).2 = .code := fun _ => rfl
    rw [if_neg Bool.false_ne_true, hstep, Mode.run_inert hgap']
    rfl

end DeclarationHead

/-! ### Labels of a declaration -/

/-- The bytes before and after the body of a declaration are its braces. -/
structure Declaration.BracedIn (d : Declaration) (source : Text) : Prop where
  opening : source.slice? (.ofLength (d.body.start - 1) 1) = some ['{']
  closing : source.slice? (.ofLength d.body.stop 1) = some ['}']

/-- The first byte of the keyword and both braces of a declaration are code in the document. -/
structure Declaration.InCode (d : Declaration) (source : Text) : Prop where
  keyword : source.byteLabels[d.keywordSpan.start]? = some .code
  opening : source.byteLabels[d.body.start - 1]? = some .code
  closing : source.byteLabels[d.body.stop]? = some .code

/-- The labels of a declaration whose keyword is code, by its name. -/
structure Declaration.LabelledByName (d : Declaration) (source : Text) : Prop where
  keyword : source.byteLabels[d.keywordSpan.start]? = some .code
  opening : source.byteLabels[d.body.start - 1]? =
    some (if d.name.endsEscaping then .string else .code)
  closing : d.name.endsEscaping = false → source.byteLabels[d.body.stop]? = some .code

theorem Declaration.LabelledByName.inCode_iff {d : Declaration} {source : Text}
    (h : d.LabelledByName source) : d.InCode source ↔ d.name.endsEscaping = false := by
  constructor
  · intro hcode
    have hopening := h.opening
    rw [hcode.opening] at hopening
    by_contra hname
    rw [if_pos (by simpa using hname)] at hopening
    cases hopening
  · intro hname
    have hopening := h.opening
    rw [hname] at hopening
    exact ⟨h.keyword, hopening, h.closing hname⟩

namespace DeclarationForm

variable {q rest : Text} {kind : Declaration.Kind} {form : DeclarationForm}

theorem start_body_place (form : DeclarationForm) (kind : Declaration.Kind) (q : Text) :
    (form.place kind q.byteLength).body.start - 1 =
      (q ++ (kind.keyword ++ form.head.stem)).byteLength := by
  have hbrace : '{'.utf8Size = 1 := by decide
  simp only [place, Span.start_ofLength, form.head.text_eq, Text.byteLength_append,
    Text.byteLength_cons, Text.byteLength_nil]
  omega

theorem stop_body_eq (form : DeclarationForm) (kind : Declaration.Kind) (q : Text) :
    (form.place kind q.byteLength).body.stop =
      (q ++ (kind.keyword ++ (form.head.text ++ form.body))).byteLength := by
  simp only [place, Span.stop_ofLength, Text.byteLength_append]
  omega

theorem bracedIn (form : DeclarationForm) (kind : Declaration.Kind) (q rest : Text) :
    (form.place kind q.byteLength).BracedIn (q ++ (kind.keyword ++ (form.text ++ rest))) := by
  have hopener : '{'.utf8Size = 1 := by decide
  have hcloser : '}'.utf8Size = 1 := by decide
  refine ⟨?_, ?_⟩
  · have hslice := Text.slice?_append (q ++ (kind.keyword ++ form.head.stem)) ['{']
      (form.body ++ ('}' :: rest))
    rw [start_body_place]
    simpa [text, form.head.text_eq, Bracket.closer, hopener] using hslice
  · have hslice := Text.slice?_append (q ++ (kind.keyword ++ (form.head.text ++ form.body))) ['}'] rest
    rw [stop_body_eq]
    simpa [text, Bracket.closer, hcloser] using hslice

/-- **One declaration**: if its keyword is code, its name decides the labels of its braces. -/
theorem labelledByName (hread : DeclarationForm.read (form.text ++ rest) = .ok (form, rest))
    (hcode : Mode.code.CodeAfter q (kind.keyword ++ (form.text ++ rest))) :
    (form.place kind q.byteLength).LabelledByName (q ++ (kind.keyword ++ (form.text ++ rest))) := by
  obtain ⟨r, hhead, hinside⟩ := read_eq_ok_iff.mp hread
  have hafter : ∀ next, next = (form.text ++ rest).head? →
      Mode.code.run (q ++ kind.keyword) next = .code := fun next hnext =>
    hnext ▸ hcode.run_append (isInert_keyword kind) (keyword_ne_nil kind)
  refine ⟨?_, ?_, fun hname => ?_⟩
  · exact Text.byteLabels_eq_code_iff.mpr hcode
  · have hsplit : q ++ (kind.keyword ++ (form.text ++ rest)) =
        (q ++ (kind.keyword ++ form.head.stem)) ++ '{' :: (form.body ++ '}' :: rest) := by
      simp [text, form.head.text_eq, Bracket.closer]
    have hlabel := Mode.getElem?_byteLabels .code (q ++ (kind.keyword ++ form.head.stem))
      (form.body ++ '}' :: rest) '{' (Char.utf8Size_pos '{')
    have hmode : Mode.code.run (q ++ (kind.keyword ++ form.head.stem)) (some '{') =
        if form.head.name.endsEscaping then .string else .code := by
      rw [← List.append_assoc, Mode.run_append, hafter _ (by simp [text, form.head.text_eq]),
        DeclarationHead.run_stem hhead]
    rw [start_body_place, hsplit, Text.byteLabels_eq, ← Nat.add_zero (Text.byteLength _), hlabel, hmode]
    show some _ = some (if form.head.name.endsEscaping then Label.string else .code)
    cases form.head.name.endsEscaping <;> rfl
  · have hsplit : q ++ (kind.keyword ++ (form.text ++ rest)) =
        (q ++ (kind.keyword ++ (form.head.text ++ form.body))) ++ '}' :: rest := by
      simp [text, Bracket.closer]
    have hrun : ∀ next, Mode.code.run form.head.text next = .code := by
      intro next
      have hname' : form.head.name.endsEscaping = false := hname
      rw [form.head.text_eq, Mode.run_concat, DeclarationHead.run_stem hhead, hname']
      rfl
    have hmode : Mode.code.run (q ++ (kind.keyword ++ form.head.text)) (form.body ++ '}' :: rest).head? =
        .code := by
      rw [← List.append_assoc, Mode.run_append, hafter _ (by simp [text, Bracket.closer]), hrun]
    rw [stop_body_eq, hsplit, Text.byteLabels_eq_code_iff, ← List.append_assoc, ← List.append_assoc,
      List.append_assoc q, Mode.codeAfter_restart hmode]
    exact (Bracket.closes_of_inside? hinside).code

end DeclarationForm

/-! ### Along the document -/

/-- What a keyword takes along is a part of the text, and it leaves a reader in code if its name
does not end escaping. -/
theorem exists_declarationTaken_of_name (after : Text) :
    ∃ rest, after = declarationTaken after ++ rest ∧
      ((∀ form r, DeclarationForm.read after = .ok (form, r) → form.head.name.endsEscaping = false) →
        Mode.code.run (declarationTaken after) rest.head? = .code) := by
  unfold declarationTaken
  cases hread : DeclarationForm.read after with
  | error reason => exact ⟨after, rfl, fun _ => rfl⟩
  | ok r =>
    obtain ⟨form, rest⟩ := r
    refine ⟨rest, DeclarationForm.eq_of_read hread, fun hname => ?_⟩
    obtain ⟨t, hhead, -⟩ := DeclarationForm.read_eq_ok_iff.mp hread
    refine DeclarationForm.run_text_of_head hread (DeclarationHead.run_text_of_string hhead ?_)
    rw [Mode.run_string_eq (DeclarationHead.quote_not_mem_name hhead), hname form rest rfl]
    rfl

/-- **Up to the first name that ends escaping**, keywords are code, and names decide the labels of
braces. The text `s` that is searched stands after `p`, where the document is in code. -/
theorem labelledByName_of_headersFrom {p s : Text} (hmode : Mode.code.run p s.head? = .code)
    {before after : List Declaration} {d : Declaration}
    (h : (headersFrom p.byteLength p.getLast? s).filterMap Header.declaration? = before ++ d :: after)
    (hbefore : ∀ e ∈ before, e.name.endsEscaping = false) : d.LabelledByName (p ++ s) := by
  induction hn : s.length using Nat.strongRecOn generalizing p s before with
  | ind n ih =>
    cases hfind : findWord? Declaration.Kind.keyword Declaration.Kind.all p.getLast? .code s with
    | none =>
      rw [headersFrom_of_none hfind] at h
      simp at h
    | some f =>
      obtain ⟨rest, hrest, hrun⟩ := exists_declarationTaken_of_name f.after
      rw [headersFrom_of_findWord? hfind hrest, List.filterMap_cons] at h
      have hlen := length_after_findWord? hfind
      have hkey := f.key.length_keyword_pos
      have hshort := congrArg List.length hrest
      rw [List.length_append] at hshort
      -- declarations after this keyword, if it leaves a reader in code
      have next : (∀ form r, DeclarationForm.read f.after = .ok (form, r) →
            form.head.name.endsEscaping = false) → ∀ older : List Declaration,
          (headersFrom (p ++ f.before ++ (f.key.keyword ++ declarationTaken f.after)).byteLength
            (p ++ f.before ++ (f.key.keyword ++ declarationTaken f.after)).getLast? rest).filterMap
              Header.declaration? = older ++ d :: after →
          (∀ e ∈ older, e.name.endsEscaping = false) → d.LabelledByName (p ++ s) := by
        intro hname older hsplit holder
        rw [Visits.split hfind hrest p]
        exact ih rest.length (by omega) (Visits.run_of_findWord? hmode hfind (isInert_keyword _)
          (keyword_ne_nil _) hrest (hrun hname)) hsplit holder rfl
      cases hread : DeclarationForm.read f.after with
      | error reason =>
        rw [headerOf, hread] at h
        exact next (fun _ _ hok => by rw [hread] at hok; cases hok) before h hbefore
      | ok r =>
        obtain ⟨form, rest'⟩ := r
        rw [headerOf, hread] at h
        simp only [Header.declaration?] at h
        cases before with
        | nil =>
          -- the declaration is the one that was read
          obtain ⟨rfl, -⟩ := List.cons.inj h
          have hs := eq_of_findWord? hfind
          have hafter := DeclarationForm.eq_of_read hread
          obtain ⟨-, hcode, -⟩ := standsInCode_of_findWord? hfind
          rw [hs] at hmode
          have hwhole := (Mode.codeAfter_restart hmode).mpr hcode
          rw [hafter] at hwhole hread
          rw [hs, hafter, ← List.append_assoc]
          exact DeclarationForm.labelledByName hread hwhole
        | cons e older =>
          obtain ⟨rfl, hnext⟩ := List.cons.inj h
          have hname := hbefore _ List.mem_cons_self
          refine next (fun form' r hok => ?_) older hnext fun e he =>
            hbefore e (List.mem_cons_of_mem _ he)
          rw [hread] at hok
          cases hok
          exact hname

theorem bracedIn_of_mem_declarations {source : Text} {d : Declaration}
    (hd : d ∈ source.declarations) : d.BracedIn source := by
  obtain ⟨q, kind, form, rest, hsource, -, rfl⟩ :=
    exists_form_of_mem_headersFrom [] source none (Text.mem_declarations.mp hd)
  rw [List.nil_append] at hsource
  rw [hsource]
  exact form.bracedIn kind q rest

/-- **The braces of declarations in the labels of the document.** Before and after the body of a
declaration stand its braces. Up to the first declaration whose name ends escaping, keywords are
code, and the opening brace is code or, for that one, in a string; after a name that does not end
escaping the closing brace is code too. So the keywords and braces of all declarations are code
exactly if no name ends escaping. -/
theorem declarations_inCode_iff (source : Text) :
    (∀ d ∈ source.declarations, d.BracedIn source) ∧
      (∀ before d after, source.declarations = before ++ d :: after →
        (∀ e ∈ before, e.name.endsEscaping = false) → d.LabelledByName source) ∧
      ((∀ d ∈ source.declarations, d.InCode source) ↔
        ∀ d ∈ source.declarations, d.name.endsEscaping = false) := by
  have hfirst : ∀ before d after, source.declarations = before ++ d :: after →
      (∀ e ∈ before, e.name.endsEscaping = false) → d.LabelledByName source := fun before d after =>
    labelledByName_of_headersFrom (p := []) rfl
  refine ⟨fun d hd => bracedIn_of_mem_declarations hd, hfirst, fun hcode => ?_, fun hname d hd => ?_⟩
  · by_contra hsome
    simp only [not_forall, Bool.not_eq_false] at hsome
    obtain ⟨d, hd, hname⟩ := hsome
    -- of the names that end escaping, the first one is followed by a brace in a string
    obtain ⟨e, he⟩ := Option.isSome_iff_exists.mp
      (List.find?_isSome (p := fun d : Declaration => d.name.endsEscaping).mpr ⟨d, hd, hname⟩)
    obtain ⟨hescaping, before, after, hsplit, hbefore⟩ := List.find?_eq_some_iff_append.mp he
    have hlabels := hfirst before e after hsplit fun e he => by simpa using hbefore e he
    have hfalse := hlabels.inCode_iff.mp (hcode e (hsplit ▸ by simp))
    rw [hescaping] at hfalse
    cases hfalse
  · obtain ⟨before, after, hsplit⟩ := List.append_of_mem hd
    refine (hfirst before d after hsplit fun e he => ?_).inCode_iff.mpr (hname d hd)
    exact hname e (hsplit ▸ List.mem_append_left _ he)

/-- In `module "a\\" {} module "b\" {}` the first name ends with two backslashes and the second with
one, so only the braces of the first module are code. -/
theorem declarations_inCode_iff_second :
    let source : Text := "module \"a\\\\\" \x7b\x7d module \"b\\\" \x7b\x7d".toList
    ∃ d e, source.declarations = [d, e] ∧ d.InCode source ∧
      source.byteLabels[e.body.start - 1]? = some .string ∧
      ¬ ∀ d ∈ source.declarations, d.InCode source := by
  intro source
  have hnames : source.declarations.map (fun d => d.name.endsEscaping) = [false, true] := by
    decide +kernel
  obtain ⟨d, e, hsplit⟩ := List.length_eq_two.mp (by simpa using congrArg List.length hnames)
  obtain ⟨hd, he⟩ : d.name.endsEscaping = false ∧ e.name.endsEscaping = true := by
    simpa [hsplit] using hnames
  obtain ⟨-, hfirst, hall⟩ := declarations_inCode_iff source
  have hopening := (hfirst [d] e [] hsplit (by simpa using hd)).opening
  rw [he] at hopening
  refine ⟨d, e, hsplit, (hfirst [] d [e] hsplit (by simp)).inCode_iff.mpr hd, hopening, ?_⟩
  rw [hall, hsplit]
  simp [he]

/-- **A brace of a declaration need not be code**: the quote that ends the name of `module "a\" {}`
is hidden from a reader of the document, for whom the string goes on. -/
theorem not_forall_inCode : ¬ ∀ (source : Text), ∀ d ∈ source.declarations, d.InCode source := by
  intro h
  have hsome : ∃ d ∈ Text.declarations "module \"a\\\" \x7b\x7d".toList,
      (Text.byteLabels "module \"a\\\" \x7b\x7d".toList)[d.body.start - 1]? = some .string := by
    decide +kernel
  obtain ⟨d, hd, hstring⟩ := hsome
  rw [(h _ d hd).opening] at hstring
  cases hstring

end PipelineDoc
