import Mathlib.Algebra.BigOperators.Intervals
import PipelineDoc.Proofs.Declaration.Braces
import PipelineDoc.Proofs.Lexical.Partners
import PipelineDoc.Proofs.Review.Reports

/-!
# The balance of braces

A byte has a weight: one if it is an opening brace in code, minus one if it is a closing one, and
zero otherwise. The weights of a part of a document add up to its balance (`sum_braceWeight`), and
the balance of a declaration is zero (`balance_text`). So what stands outside all declarations has
the balance of the whole (`sum_outside`), which is what the review looks at. A declaration whose
body is never closed opens one brace more than the rest of the document closes (`one_le_balance`),
and only a closing brace outside the declarations can make up for it. Main statement:
`unterminated_reported`.
-/

namespace PipelineDoc

/-! ### Balance of a text -/

namespace Mode

/-- How many more braces a text opens in code than it closes; `next` is the character after it. -/
def balance (mode : Mode) (t : Text) (next : Option Char) : ℤ :=
  (mode.codeChars t next).count '{' - (mode.codeChars t next).count '}'

theorem balance_append (mode : Mode) (p q : Text) (next : Option Char) :
    mode.balance (p ++ q) next =
      mode.balance p (q.head?.or next) + (mode.run p (q.head?.or next)).balance q next := by
  simp only [balance, codeChars_append, List.count_append, Nat.cast_add]
  ring

theorem balance_of_not_mem {t : Text} (ho : '{' ∉ t) (hc : '}' ∉ t) (mode : Mode)
    (next : Option Char) : mode.balance t next = 0 := by
  rw [balance, List.count_eq_zero_of_not_mem fun h => ho (mem_of_mem_codeChars h),
    List.count_eq_zero_of_not_mem fun h => hc (mem_of_mem_codeChars h), sub_self]

theorem balance_opener (next : Option Char) : code.balance ['{'] next = 1 := rfl

theorem balance_closer {mode : Mode} {next : Option Char} (h : (mode.step '}' next).1 = .code) :
    mode.balance ['}'] next = -1 := by
  rw [balance, codeChars_cons, List.head?_nil, Option.none_or, if_pos h]
  rfl

/-- In a string, up to the quote that ends it, nothing is code. -/
theorem codeChars_string {w : Text} (hw : '"' ∉ w) (next : Option Char) :
    string.codeChars w next = [] ∧ stringEscape.codeChars w next = [] := by
  induction w with
  | nil => exact ⟨rfl, rfl⟩
  | cons c w ih =>
    rw [List.mem_cons, not_or] at hw
    obtain ⟨hc, hw⟩ := hw
    obtain ⟨hstring, hescape⟩ := ih hw
    refine ⟨?_, by rw [codeChars_cons]; exact hstring⟩
    rw [codeChars_cons]
    by_cases hslash : c = '\\'
    · simpa [step, hslash] using hescape
    · simpa [step, hslash, Ne.symm hc] using hstring

theorem balance_string {w : Text} (hw : '"' ∉ w) (next : Option Char) :
    string.balance w next = 0 := by
  rw [balance, (codeChars_string hw next).1]
  rfl

end Mode

/-! ### Balance of declarations -/

theorem balance_keyword (kind : Declaration.Kind) (mode : Mode) (next : Option Char) :
    mode.balance kind.keyword next = 0 :=
  Mode.balance_of_not_mem (by cases kind <;> decide) (by cases kind <;> decide) mode next

namespace DeclarationHead

variable {t rest : Text} {h : DeclarationHead}

theorem endsEscaping_name (hescape : ¬ ['\\', '"'] <:+: h.text) : h.name.endsEscaping = false := by
  by_contra hname
  rw [Bool.not_eq_false] at hname
  rcases List.eq_nil_or_concat' h.name with hnil | ⟨front, c, hfront⟩
  · rw [hnil] at hname
    cases hname
  · rw [hfront, Text.endsEscaping_concat, Bool.and_eq_true, beq_iff_eq] at hname
    refine hescape ⟨h.pad ++ ('"' :: front), h.gap ++ ['{'], ?_⟩
    simp [text, hfront, hname.1]

theorem balance_stem (e : DeclarationHead.read t = .ok (h, rest))
    (hname : h.name.endsEscaping = false) (next : Option Char) :
    Mode.code.balance h.stem next = 0 := by
  obtain ⟨hpad, -, hgap⟩ := chars_of_read e
  have hblank : ∀ w : Text, (∀ c ∈ w, isLayoutBlank c = true) → ∀ mode next,
      Mode.balance mode w next = 0 := fun w hw =>
    Mode.balance_of_not_mem (fun hm => absurd (hw _ hm) (by decide))
      (fun hm => absurd (hw _ hm) (by decide))
  have hpad' : ∀ c ∈ h.pad, isLayoutBlank c = true := fun c hc => by simp [isLayoutBlank, hpad c hc]
  have hopen : ∀ w next, Mode.code.balance ('"' :: w) next = Mode.string.balance w next :=
    fun _ _ => rfl
  have hclose : ∀ w next, Mode.string.balance ('"' :: w) next = Mode.code.balance w next :=
    fun _ _ => rfl
  have hquote := quote_not_mem_name e
  rw [stem, Mode.balance_append, hblank _ hpad', Mode.run_inert fun c hc =>
    isInert_of_isLayoutBlank (hpad' c hc), hopen, Mode.balance_append, Mode.balance_string hquote,
    Mode.run_string_eq hquote, hname, if_neg Bool.false_ne_true, hclose, hblank _ hgap]
  rfl

theorem balance_text (e : DeclarationHead.read t = .ok (h, rest))
    (hname : h.name.endsEscaping = false) (next : Option Char) : Mode.code.balance h.text next = 1 := by
  rw [text_eq, Mode.balance_append, balance_stem e hname, run_stem e, hname,
    if_neg Bool.false_ne_true, Mode.balance_opener, zero_add]

end DeclarationHead

theorem DeclarationForm.balance_text {t rest : Text} {form : DeclarationForm}
    (h : DeclarationForm.read t = .ok (form, rest)) (hescape : ¬ ['\\', '"'] <:+: t) :
    Mode.code.balance form.text rest.head? = 0 := by
  obtain ⟨r, hread, hinside⟩ := read_eq_ok_iff.mp h
  have hclose := Bracket.closes_of_inside? hinside
  have hhead : ¬ ['\\', '"'] <:+: form.head.text := fun hin => hescape
    (hin.trans ⟨[], r, by rw [DeclarationHead.eq_of_read hread, List.nil_append]⟩)
  have hbody : Mode.code.balance form.body (some '}') = 0 := by
    have hcount := hclose.count_eq
    rw [Nat.zero_add] at hcount
    rw [Mode.balance, sub_eq_zero]
    exact_mod_cast hcount.symm
  have hlast : (Mode.code.run form.body (some '}')).balance ['}'] rest.head? = -1 :=
    Mode.balance_closer hclose.code
  have hname := DeclarationHead.endsEscaping_name hhead
  rw [text, Mode.balance_append, DeclarationHead.balance_text hread hname,
    DeclarationHead.run_text hread hhead, Mode.balance_append]
  show 1 + (Mode.code.balance form.body (some '}') +
    (Mode.code.run form.body (some '}')).balance ['}'] rest.head?) = 0
  rw [hbody, hlast]
  rfl

theorem exists_of_read_unterminated {t : Text} (h : DeclarationForm.read t = .error .unterminated) :
    ∃ head rest, DeclarationHead.read t = .ok (head, rest) ∧ Bracket.brace.inside? rest = none := by
  simp only [DeclarationForm.read] at h
  split at h
  · next reason hread =>
    cases h
    -- the head itself misses its name or its brace, and nothing else
    simp only [DeclarationHead.read] at hread
    split at hread
    · cases hread
    · split at hread
      · cases hread
      · split at hread <;> cases hread
  · next head rest hread =>
    split at h
    · cases h
    · next hinside => exact ⟨head, rest, hread, hinside⟩

/-- **A declaration that is never closed** opens one brace more than the text after it closes. -/
theorem one_le_balance {t : Text} (h : DeclarationForm.read t = .error .unterminated)
    (hescape : ¬ ['\\', '"'] <:+: t) : 1 ≤ Mode.code.balance t none := by
  obtain ⟨head, rest, hread, hinside⟩ := exists_of_read_unterminated h
  have heq := DeclarationHead.eq_of_read hread
  have hhead : ¬ ['\\', '"'] <:+: head.text := fun hin =>
    hescape (hin.trans (heq ▸ (List.prefix_append _ _).isInfix))
  have hrest := Bracket.count_closer_le hinside
  rw [Nat.zero_add] at hrest
  have hopen : 0 ≤ Mode.code.balance rest none := sub_nonneg.mpr (Int.ofNat_le.mpr hrest)
  rw [heq, Mode.balance_append, DeclarationHead.balance_text hread
    (DeclarationHead.endsEscaping_name hhead), DeclarationHead.run_text hread hhead]
  exact le_add_of_nonneg_right hopen

/-! ### Weights of bytes -/

/-- The bytes that a span covers. -/
def Span.offsets (s : Span) : Finset Nat := Finset.Ico s.start s.stop

namespace Text

/-- A narrow character stands at an offset, in code. -/
def CodeAt (t : Text) (c : Char) (i : Nat) : Prop := t.labelledBytes[i]? = some (byteOf c, .code)

instance (t : Text) (c : Char) : DecidablePred (t.CodeAt c) := fun i =>
  inferInstanceAs (Decidable (t.labelledBytes[i]? = some (byteOf c, .code)))

/-- The weight of the byte at an offset. -/
def braceWeight (t : Text) (i : Nat) : ℤ :=
  (if t.CodeAt '{' i then 1 else 0) - if t.CodeAt '}' i then 1 else 0

theorem braceWeight_eq (t : Text) (n : Nat) :
    t.braceWeight n = ((Bracket.brace.word t.labelledBytes[n]?.toList).count .U : ℤ) -
      (Bracket.brace.word t.labelledBytes[n]?.toList).count .D := by
  have hne : byteOf '{' ≠ byteOf '}' := by decide
  rcases hbyte : t.labelledBytes[n]? with _ | ⟨byte, label⟩
  · simp [braceWeight, CodeAt, hbyte, Bracket.word]
  · by_cases hl : label = .code
    · by_cases ho : byte = byteOf '{'
      · simp [braceWeight, CodeAt, hbyte, Bracket.word, Bracket.step?, Bracket.opener, hl, ho, hne]
      · by_cases hc : byte = byteOf '}'
        · simp [braceWeight, CodeAt, hbyte, Bracket.word, Bracket.step?, Bracket.opener,
            Bracket.closer, hl, hc, hne.symm]
        · simp [braceWeight, CodeAt, hbyte, Bracket.word, Bracket.step?, Bracket.opener,
            Bracket.closer, hl, ho, hc]
    · simp [braceWeight, CodeAt, hbyte, Bracket.word, hl]

theorem codeAt_of_braceWeight_neg {t : Text} {i : Nat} (h : t.braceWeight i < 0) : t.CodeAt '}' i := by
  by_contra hc
  rw [braceWeight, if_neg hc] at h
  split_ifs at h <;> omega

theorem sum_braceWeight_card (t : Text) (A : Finset Nat) :
    ∑ i ∈ A, t.braceWeight i = ((A.filter (t.CodeAt '{')).card : ℤ) - (A.filter (t.CodeAt '}')).card := by
  simp only [braceWeight, Finset.sum_sub_distrib, Finset.sum_boole]

theorem sum_braceWeight_range (t : Text) (n : Nat) :
    ∑ i ∈ Finset.range n, t.braceWeight i =
      ((Bracket.brace.word (t.labelledBytes.take n)).count .U : ℤ) -
        (Bracket.brace.word (t.labelledBytes.take n)).count .D := by
  induction n with
  | zero => rfl
  | succ n ih =>
    have hword : ∀ l l', Bracket.brace.word (l ++ l') = Bracket.brace.word l ++ Bracket.brace.word l' :=
      fun l l' => List.filterMap_append
    rw [Finset.sum_range_succ, ih, List.take_add_one, hword, List.count_append, List.count_append,
      braceWeight_eq]
    push_cast
    ring

theorem sum_braceWeight_front (p s : Text) :
    ∑ i ∈ Finset.range p.byteLength, (p ++ s).braceWeight i = Mode.code.balance p s.head? := by
  rw [sum_braceWeight_range, Bracket.word_take_labelledBytes, Bracket.count_up, Bracket.count_down]
  rfl

/-- **The weights of a part** add up to its balance. -/
theorem sum_braceWeight (p q s : Text) :
    ∑ i ∈ (Span.ofLength p.byteLength q.byteLength).offsets, (p ++ (q ++ s)).braceWeight i =
      (Mode.code.run p (q ++ s).head?).balance q s.head? := by
  have hpart := sum_braceWeight_front (p ++ q) s
  rw [List.append_assoc, byteLength_append] at hpart
  rw [Span.offsets, Span.start_ofLength, Span.stop_ofLength,
    Finset.sum_Ico_eq_sub _ (Nat.le_add_right _ _), hpart, sum_braceWeight_front,
    Mode.balance_append, ← List.head?_append]
  ring

end Text

/-! ### Outside of declarations -/

/-- **Parts of weight zero** may be left out of a sum: parts that come one after the other and that
are not cut by its end. -/
theorem sum_outside_spans {w : Nat → ℤ} {n : Nat} {l : List Span} (hpair : l.Pairwise Span.Before)
    (hzero : ∀ s ∈ l, ∑ i ∈ s.offsets, w i = 0) (hcut : ∀ s ∈ l, s.stop ≤ n ∨ n ≤ s.start) :
    ∑ i ∈ Finset.range n with ∀ s ∈ l, i ∉ s.offsets, w i = ∑ i ∈ Finset.range n, w i := by
  induction l with
  | nil => simp
  | cons s l ih =>
    obtain ⟨hbefore, hpair⟩ := List.pairwise_cons.mp hpair
    have hrest := ih hpair (fun t ht => hzero t (List.mem_cons_of_mem _ ht))
      (fun t ht => hcut t (List.mem_cons_of_mem _ ht))
    -- the bytes of the first part that stand before the end
    have hpart : ∑ i ∈ (Finset.range n).filter (fun i => ∀ t ∈ l, i ∉ t.offsets) with i ∈ s.offsets,
        w i = 0 := by
      rcases hcut s List.mem_cons_self with hin | hout
      · rw [← hzero s List.mem_cons_self]
        refine congrArg (fun A : Finset Nat => ∑ i ∈ A, w i) (Finset.ext fun i => ?_)
        simp only [Finset.mem_filter, Finset.mem_range, Span.offsets, Finset.mem_Ico]
        refine ⟨And.right, fun hi => ⟨⟨by omega, fun t ht htc => ?_⟩, hi⟩⟩
        have := hbefore t ht
        rw [Span.Before] at this
        omega
      · refine Finset.sum_eq_zero fun i hi => ?_
        simp only [Finset.mem_filter, Finset.mem_range, Span.offsets, Finset.mem_Ico] at hi
        omega
    rw [← hrest, ← Finset.sum_filter_add_sum_filter_not
      ((Finset.range n).filter fun i => ∀ t ∈ l, i ∉ t.offsets) (· ∈ s.offsets), hpart, zero_add,
      Finset.filter_filter]
    simp only [List.forall_mem_cons, and_comm]

namespace Text

/-- The bytes of a document that stand in no declaration. -/
def outside (source : Text) : Finset Nat :=
  {i ∈ Finset.range source.byteLength | ∀ d ∈ source.declarations, i ∉ d.extent.offsets}

variable {source : Text} {d : Declaration}

/-- A header is about a keyword, after which a reader of the document is in code. -/
theorem exists_find_of_mem_headers (hescape : ¬ ['\\', '"'] <:+: source) {h : Header}
    (hh : h ∈ source.headers) : ∃ v : Find Declaration.Kind, h = headerOf v ∧
      source = v.before ++ (v.key.keyword ++ v.after) ∧ ¬ ['\\', '"'] <:+: v.after ∧
      Mode.code.run (v.before ++ v.key.keyword) v.after.head? = .code := by
  obtain ⟨vs, hvisits, hheaders⟩ := exists_visits_headers hescape
  obtain ⟨v, hv, rfl⟩ := List.mem_map.mp (hheaders ▸ hh)
  have heq := (hvisits.eq_append hv).1
  obtain ⟨-, hcode, -⟩ := hvisits.standsInCode rfl hv
  refine ⟨v, rfl, heq, fun hin => hescape (hin.trans ?_),
    hcode.run_append (isInert_keyword _) (keyword_ne_nil _)⟩
  exact ⟨v.before ++ v.key.keyword, [], by rw [List.append_nil, List.append_assoc]; exact heq.symm⟩

theorem sum_extent (hescape : ¬ ['\\', '"'] <:+: source) (hd : d ∈ source.declarations) :
    ∑ i ∈ d.extent.offsets, source.braceWeight i = 0 := by
  obtain ⟨v, hheader, heq, hafter, hrun⟩ :=
    exists_find_of_mem_headers hescape (mem_declarations.mp hd)
  rw [headerOf] at hheader
  split at hheader
  · next form rest hread =>
    obtain rfl : d = form.place v.key v.before.byteLength := Header.accepted.inj hheader
    have hsplit : source = v.before ++ ((v.key.keyword ++ form.text) ++ rest) := by
      rw [heq, DeclarationForm.eq_of_read hread, List.append_assoc]
    rw [DeclarationForm.eq_of_read hread, List.head?_append, Mode.run_append, ← List.head?_append,
      ← List.head?_append, ← List.append_assoc] at hrun
    rw [form.extent_place, hsplit, sum_braceWeight, Mode.balance_append, balance_keyword, zero_add,
      ← List.head?_append, hrun, DeclarationForm.balance_text hread hafter]
  · cases hheader

/-- **A declaration that is never closed** leaves the text before its keyword with less balance than
the whole document. -/
theorem sum_before_lt (hescape : ¬ ['\\', '"'] <:+: source) {r : Rejection}
    (hr : r ∈ source.rejections) (hreason : r.reason = .unterminated) :
    ∑ i ∈ Finset.range r.keywordSpan.start, source.braceWeight i < Mode.code.balance source none := by
  obtain ⟨v, hheader, heq, hafter, hrun⟩ :=
    exists_find_of_mem_headers hescape (mem_rejections.mp hr)
  rw [headerOf] at hheader
  split at hheader
  · cases hheader
  · next reason hread =>
    obtain rfl := Header.rejected.inj hheader
    obtain rfl : reason = .unterminated := hreason
    have hopen := one_le_balance hread hafter
    have hfront := sum_braceWeight_front v.before (v.key.keyword ++ v.after)
    have htotal : Mode.code.balance source none =
        Mode.code.balance v.before (v.key.keyword ++ v.after).head? + Mode.code.balance v.after none := by
      rw [heq, ← List.append_assoc, Mode.balance_append, Option.or_none, hrun, Mode.balance_append,
        balance_keyword, add_zero, List.head?_append]
    rw [← heq] at hfront
    rw [Span.start_ofLength, hfront, htotal]
    omega

theorem start_le_of_mem_rejections (hescape : ¬ ['\\', '"'] <:+: source) {r : Rejection}
    (hr : r ∈ source.rejections) : r.keywordSpan.start ≤ source.byteLength := by
  obtain ⟨htext, -, -⟩ := isAt_of_mem_headers hescape (mem_rejections.mp hr)
  exact r.keywordSpan.start_le_stop.trans (stop_le_of_slice? htext)

/-- A declaration does not reach over a rejected keyword. -/
theorem extent_apart (hd : d ∈ source.declarations) {r : Rejection} (hr : r ∈ source.rejections) :
    d.extent.stop ≤ r.keywordSpan.start ∨ r.keywordSpan.start ≤ d.extent.start := by
  rcases before_or_before hd hr with hbefore | hafter
  · exact Or.inl hbefore
  · exact Or.inr (r.keywordSpan.start_le_stop.trans hafter)

/-- **Outside of declarations** the weights add up as they do in the whole document, up to an offset
that no declaration covers. -/
theorem sum_outside (hescape : ¬ ['\\', '"'] <:+: source) {n : Nat} (hn : n ≤ source.byteLength)
    (hcut : ∀ d ∈ source.declarations, d.extent.stop ≤ n ∨ n ≤ d.extent.start) :
    ∑ i ∈ source.outside with i < n, source.braceWeight i =
      ∑ i ∈ Finset.range n, source.braceWeight i := by
  rw [← sum_outside_spans source.pairwise_extent (by simpa using fun d => sum_extent hescape)
    (by simpa using hcut), outside, Finset.filter_filter]
  refine congrArg (fun A : Finset Nat => ∑ i ∈ A, source.braceWeight i) (Finset.ext fun i => ?_)
  simp only [Finset.mem_filter, Finset.mem_range, List.forall_mem_map]
  exact ⟨fun h => ⟨h.2.2, h.2.1⟩, fun h => ⟨by omega, h.2, h.1⟩⟩

theorem sum_outside_total (hescape : ¬ ['\\', '"'] <:+: source) :
    ∑ i ∈ source.outside, source.braceWeight i = Mode.code.balance source none := by
  have hall := sum_braceWeight_front source []
  rw [List.append_nil, List.head?_nil] at hall
  have hin : ∀ i ∈ source.outside, i < source.byteLength := fun i hi =>
    Finset.mem_range.mp (Finset.mem_filter.mp hi).1
  rw [← hall, ← sum_outside hescape le_rfl, Finset.filter_true_of_mem hin]
  intro d hd
  obtain ⟨-, m, hslice⟩ := isAt_of_mem_headers hescape (mem_declarations.mp hd)
  exact Or.inl (stop_le_of_slice? hslice)

end Text

/-! ### What the review reports -/

theorem Text.codeBraces_eq_iff (source : Text) :
    source.codeBraces.1 = source.codeBraces.2 ↔ Mode.code.balance source none = 0 := by
  rw [codeBraces, codeChars_eq, Mode.balance, sub_eq_zero, Nat.cast_inj]

theorem mem_braceFindings_of_code {source : Text} {extra : List Text} {f : Finding}
    (hf : f ∈ source.emitted extra) (hcode : f.code = .unbalancedBraces) : f ∈ braceFindings source := by
  rw [Text.emitted_eq_append, Text.laterFindings] at hf
  rcases List.mem_append.mp hf with hbraces | hf
  · exact hbraces
  rcases List.mem_append.mp hf with hf | hcall
  · rcases List.mem_append.mp hf with hname | hrepeat
    · obtain ⟨r, -, rfl⟩ := exists_of_mem_nameFindings hname
      cases hcode
    · obtain ⟨_, _, _, _, -, -, -, -, rfl⟩ := exists_of_mem_duplicatesAfter hrepeat
      cases hcode
  · obtain ⟨d, hd, -, hf⟩ := Text.mem_pipelineReview.mp hcall
    have hcall := (pipelineFindings_isIn hd f hf).isOfCall
    cases f <;> cases hcode
    cases hcall

theorem exists_unbalanced_iff (settings : Settings) (source : Text) (active : Option Text) :
    (∃ g ∈ (settings.analyze source active).diagnostics, g.code = some .unbalancedBraces) ↔
      Mode.code.balance source none ≠ 0 := by
  rw [ne_eq, ← Text.codeBraces_eq_iff]
  constructor
  · rintro ⟨g, hg, hcode⟩ heq
    obtain ⟨f, hf, rfl⟩ := mem_diagnostics.mp hg
    have hbraces := mem_braceFindings_of_code hf (Option.some.inj hcode)
    exact (mem_braceFindings_iff.mp hbraces).1 heq
  · intro hne
    have hbraces := mem_braceFindings_iff.mpr ⟨hne, rfl⟩
    have hmem := List.mem_append_left (nameFindings source) hbraces
    exact ⟨_, mem_diagnostics.mpr ⟨_, List.mem_append_left _ (List.mem_append_left _ hmem), rfl⟩, rfl⟩

/-- **An unterminated declaration is not lost silently.** In a document in which no quote comes
right after a backslash, a declaration whose body is never closed has unbalanced braces reported,
unless a closing brace in code stands before its keyword and outside of all declarations. They are
reported exactly if the numbers of opening and of closing braces in code outside of all declarations
differ. -/
theorem unterminated_reported (settings : Settings) (source : Text) (active : Option Text)
    (hescape : ¬ ['\\', '"'] <:+: source) :
    (∀ r ∈ source.rejections, r.reason = .unterminated →
      (¬ ∃ g ∈ (settings.analyze source active).diagnostics, g.code = some .unbalancedBraces) →
        ∃ i ∈ source.outside, i < r.keywordSpan.start ∧ source.CodeAt '}' i) ∧
    ((∃ g ∈ (settings.analyze source active).diagnostics, g.code = some .unbalancedBraces) ↔
      (source.outside.filter (source.CodeAt '{')).card ≠
        (source.outside.filter (source.CodeAt '}')).card) := by
  rw [exists_unbalanced_iff]
  constructor
  · intro r hr hreason hsilent
    rw [not_not] at hsilent
    have hlt := Text.sum_before_lt hescape hr hreason
    rw [hsilent, ← Text.sum_outside hescape (Text.start_le_of_mem_rejections hescape hr)
      fun d hd => Text.extent_apart hd hr] at hlt
    -- a sum below zero has a summand below zero
    obtain ⟨i, hi, hneg⟩ := Finset.exists_lt_of_sum_lt (by rwa [Finset.sum_const_zero] :
      ∑ i ∈ source.outside with i < r.keywordSpan.start, source.braceWeight i <
        ∑ i ∈ source.outside with i < r.keywordSpan.start, 0)
    obtain ⟨hi, hbefore⟩ := Finset.mem_filter.mp hi
    exact ⟨i, hi, hbefore, Text.codeAt_of_braceWeight_neg hneg⟩
  · rw [← Text.sum_outside_total hescape, Text.sum_braceWeight_card, ne_eq, sub_eq_zero, Nat.cast_inj]

/-- In `module "m" { {} } } module "a" {` the stray brace at 18 hides that the last module is never
closed. -/
theorem unterminated_reported_stray :
    let source : Text := "module \"m\" \x7b \x7b\x7d \x7d \x7d module \"a\" \x7b".toList
    ¬ ['\\', '"'] <:+: source ∧
      (¬ ∃ g ∈ (Settings.analyze {} source none).diagnostics, g.code = some .unbalancedBraces) ∧
      ∃ r ∈ source.rejections, r.reason = .unterminated ∧
        ∃ i ∈ source.outside, i < r.keywordSpan.start ∧ source.CodeAt '}' i := by
  intro source
  have hescape : ¬ ['\\', '"'] <:+: source := by decide +kernel
  have hcounts : (source.outside.filter (source.CodeAt '{')).card =
      (source.outside.filter (source.CodeAt '}')).card := by decide +kernel
  have hrejected : ∃ r ∈ source.rejections, r.reason = .unterminated := by decide +kernel
  obtain ⟨hlost, hreported⟩ := unterminated_reported {} source none hescape
  have hsilent := mt hreported.mp (not_not.mpr hcounts)
  obtain ⟨r, hr, hreason⟩ := hrejected
  exact ⟨hescape, hsilent, r, hr, hreason, hlost r hr hreason hsilent⟩

end PipelineDoc
