import PipelineDoc.Proofs.Statement.Extents

/-!
# Which paths are references

The references of an argument text are found in a pass from left to right, which takes a numeral or
a path where there is one and goes on after it. They can be told from the text alone, path by path
(`Reference.CountsIn`): a reference is the longest path at a word in code that continues neither a
word nor a path and does not start with a numeric character, that is no key and not one of the
literal words. A token of the pass has path characters only, so no such word starts inside one
(`mem_tokensAfter`), and the pass never comes to stand inside a word of code (`Uncut`). Main
statement: `references_exactly`.
-/

namespace PipelineDoc

/-- After white space only, a colon follows. -/
def Text.ColonAfter (t : Text) (i : Nat) : Prop :=
  ∃ p gap rest : Text, t = p ++ (gap ++ ':' :: rest) ∧ p.byteLength = i ∧ ∀ c ∈ gap, isWhite c = true

/-- A path that stands in a text counts as a reference. -/
structure Reference.CountsIn (r : Reference) (args : Text) : Prop extends r.StandsIn args where
  starts : args.StartsWord r.span.start
  not_numeral : ∀ c ∈ r.path.head?, isNumeric c = false
  longest : ∀ u : Reference, u.StandsIn args → u.span.start = r.span.start → u.span.stop ≤ r.span.stop
  not_key : ¬ args.ColonAfter r.span.stop
  not_literal : r.root ∉ literalWords

/-! ### Tokens of arguments -/

theorem isClear_pathTail (t : Text) : isClear (pathTail t).2.head? = true := by
  induction t with
  | nil => rfl
  | cons c t ih =>
    rw [pathTail]
    split
    · exact ih
    · next hc =>
      rw [Bool.or_eq_true, not_or, Bool.not_eq_true] at hc
      simpa [isClear] using hc.1

theorem isClear_of_path? {t path rest : Text} (h : path? t = some (path, rest)) :
    isClear rest.head? = true := by
  cases t with
  | nil => cases h
  | cons c t =>
    rw [path?] at h
    split at h
    · cases h
      exact isClear_pathTail t
    · cases h

theorem isClear_dropWhile (t : Text) :
    isClear (t.dropWhile fun c => isWordChar c || c == '.').head? = true := by
  have hstop := List.head?_dropWhile_not (fun c => isWordChar c || c == '.') t
  cases hhead : (t.dropWhile fun c => isWordChar c || c == '.').head? with
  | none => rfl
  | some c =>
    rw [hhead] at hstop
    simp only [Bool.or_eq_false_iff] at hstop
    simp [isClear, hstop.1]

theorem referenceToken?_ne_none {c : Char} (hc : isWordChar c = true) (offset : Nat)
    (prev : Option Char) (cs : Text) : referenceToken? offset prev (c :: cs) ≠ none := by
  rw [referenceToken?, argumentToken?, ne_eq, Option.map_eq_none_iff]
  split
  · exact Option.some_ne_none _
  · next hnum =>
    have hstart : isWordStart c = true := by
      simp only [isWordChar, isWordStart, Bool.or_eq_true, List.head?_cons, Option.any_some] at hc hnum ⊢
      tauto
    have hread : path? (c :: cs) = _ := path?_eq_pathTail hstart
    rw [hread]
    exact Option.some_ne_none _

theorem exists_of_referenceToken? {offset : Nat} {prev : Option Char} {t : Text}
    {found : List Reference} {stop : Nat} (h : referenceToken? offset prev t = some (found, stop)) :
    ∃ m s : Text, t = m ++ s ∧ m ≠ [] ∧ stop = offset + m.byteLength ∧
      (∀ c ∈ m, isPathChar c = true) ∧ isClear s.head? = true := by
  obtain ⟨m, s, ht, hne, hstop⟩ := takes_referenceToken? h
  -- what is taken is told by its length
  have same : ∀ {n rest : Text}, t = n ++ rest → stop = offset + n.byteLength → m = n ∧ s = rest := by
    intro n rest htext hlen
    obtain rfl := Text.eq_of_byteLength_eq ⟨s, ht.symm⟩ ⟨rest, htext.symm⟩ (by omega)
    exact ⟨rfl, List.append_cancel_left (ht.symm.trans htext)⟩
  refine ⟨m, s, ht, hne, hstop, ?_⟩
  simp only [referenceToken?, argumentToken?, Option.map_eq_some_iff, Prod.mk.injEq] at h
  obtain ⟨token, htok, -, hlen⟩ := h
  split at htok
  · cases htok
    obtain ⟨rfl, rfl⟩ := same List.takeWhile_append_dropWhile.symm hlen.symm
    exact ⟨fun c hc => List.mem_takeWhile_imp hc, isClear_dropWhile t⟩
  · simp only [Option.map_eq_some_iff, Prod.exists] at htok
    obtain ⟨path, rest, hpath, rfl⟩ := htok
    obtain ⟨rfl, rfl⟩ := same (eq_of_path? hpath).1 hlen.symm
    exact ⟨(isDottedPath_of_path? hpath).isPathChar, isClear_of_path? hpath⟩

theorem mem_referenceToken?_iff {offset : Nat} {prev : Option Char} {t : Text} {r : Reference} :
    (∃ found stop, referenceToken? offset prev t = some (found, stop) ∧ r ∈ found) ↔
      t.head?.any isNumeric = false ∧ ∃ path rest, path? t = some (path, rest) ∧
        isReference prev path rest = true ∧ ⟨path, .ofLength offset path.byteLength⟩ = r := by
  cases hnum : t.head?.any isNumeric with
  | true => simp [referenceToken?, argumentToken?, hnum]
  | false =>
    cases hpath : path? t with
    | none => simp [referenceToken?, argumentToken?, hnum, hpath]
    | some x =>
      obtain ⟨path, rest⟩ := x
      simp [referenceToken?, argumentToken?, hnum, hpath]

theorem isReference_iff {prev : Option Char} {path rest : Text} : isReference prev path rest = true ↔
    prev ≠ some '.' ∧ rest.trimStart.head? ≠ some ':' ∧ pathRoot path ∉ literalWords := by
  simp [isReference, and_assoc]

theorem not_isPathChar_before {offset : Nat} {prev : Option Char} {t : Text} {found : List Reference}
    {stop : Nat} {r : Reference} (hcut : isClear prev = true ∨ isClear t.head? = true)
    (htok : referenceToken? offset prev t = some (found, stop)) (hr : r ∈ found) :
    ∀ d ∈ prev, isPathChar d = false := by
  obtain ⟨-, path, rest, hpath, href, -⟩ := mem_referenceToken?_iff.mp ⟨found, stop, htok, hr⟩
  have hstart := (isDottedPath_of_path? hpath).any_head?_append rest
  rw [← (eq_of_path? hpath).1] at hstart
  have hword : isClear t.head? ≠ true := by
    cases t with
    | nil => cases hstart
    | cons c cs =>
      have hc : isWordChar c = true := isWordChar_of_isWordStart hstart
      simp [isClear, hc]
  intro d hd
  have hchar : isWordChar d = false := by
    have hclear := hcut.resolve_right hword
    rw [Option.mem_def.mp hd] at hclear
    simpa [isClear] using hclear
  have hdot : d ≠ '.' := by
    rintro rfl
    exact (isReference_iff.mp href).1 hd
  simp [isPathChar, hchar, hdot]

/-! ### The pass over the arguments -/

/-- No word of code is cut between two parts of a text. -/
def Uncut (p s : Text) : Prop :=
  Mode.code.CodeAfter p s → isClear p.getLast? = true ∨ isClear s.head? = true

/-- One step of the pass after `p`: a token is taken, or a character is passed over. -/
inductive ReferenceStep (p : Text) : Text → Prop
  | take {m s : Text} {found : List Reference} (hne : m ≠ [])
      (hchars : ∀ c ∈ m, isPathChar c = true) (hclear : isClear s.head? = true)
      (hcode : Mode.code.CodeAfter p (m ++ s))
      (htok : referenceToken? p.byteLength p.getLast? (m ++ s) = some (found, p.byteLength + m.byteLength))
      (hrest : tokensAfter referenceToken? p (m ++ s) = found ++ tokensAfter referenceToken? (p ++ m) s) :
      ReferenceStep p (m ++ s)
  | pass {c : Char} {s : Text}
      (hnone : Mode.code.CodeAfter p (c :: s) →
        referenceToken? p.byteLength p.getLast? (c :: s) = none)
      (hrest : tokensAfter referenceToken? p (c :: s) = tokensAfter referenceToken? (p ++ [c]) s) :
      ReferenceStep p (c :: s)

theorem referenceStep (p : Text) {t : Text} (ht : t ≠ []) : ReferenceStep p t := by
  obtain ⟨c, cs, rfl⟩ := List.exists_cons_of_ne_nil ht
  by_cases hcode : Mode.code.CodeAfter p (c :: cs)
  · cases htok : referenceToken? p.byteLength p.getLast? (c :: cs) with
    | none => exact .pass (fun _ => htok) (tokensAfter_pass fun _ => htok)
    | some x =>
      obtain ⟨found, stop⟩ := x
      obtain ⟨m, s, heq, hne, rfl, hchars, hclear⟩ := exists_of_referenceToken? htok
      have hrest := tokensAfter_take hcode htok heq hne
      rw [heq] at hcode htok hrest ⊢
      exact .take hne hchars hclear hcode htok hrest
  · exact .pass (fun h => absurd h hcode) (tokensAfter_pass fun h => absurd h hcode)

/-- Outside of code a word goes on as it began. -/
theorem code_of_word {mode : Mode} {c d : Char} {next next' : Option Char} (hc : isWordChar c = true)
    (hd : isWordChar d = true) (h : ((mode.step c next).2.step d next').1 = .code) :
    (mode.step c next).1 = .code := by
  have hne : ∀ {e f : Char}, isWordChar e = true → isWordChar f = false → e ≠ f := by
    rintro e f he hf rfl
    rw [he] at hf
    cases hf
  have hstring : ∀ next, (Mode.string.step d next).1 = .string := by
    intro next
    simp only [Mode.step]
    split_ifs <;> rfl
  cases mode with
  | code => rw [Mode.step_inert (isInert_of_isWordChar hc)]
  | codeEscape => rfl
  | string =>
    have hstep : Mode.string.step c next = (.string, .string) := by
      simp [Mode.step, hne (f := '\\') hc (by decide), hne (f := '"') hc (by decide)]
    rw [hstep, hstring] at h
    cases h
  | stringEscape =>
    have hstep : Mode.stringEscape.step c next = (.string, .string) := rfl
    rw [hstep, hstring] at h
    cases h
  | comment =>
    simp [Mode.step, hne (f := '\n') hc (by decide), hne (f := '\n') hd (by decide)] at h

theorem uncut_pass {p s : Text} {c : Char} (hnone : Mode.code.CodeAfter p (c :: s) →
    referenceToken? p.byteLength p.getLast? (c :: s) = none) : Uncut (p ++ [c]) s := by
  intro hnext
  by_contra hcut
  rw [not_or, List.getLast?_concat] at hcut
  obtain ⟨hc, hs⟩ := hcut
  cases s with
  | nil => exact hnext.elim
  | cons d s =>
    have hc' : isWordChar c = true := by simpa [isClear] using hc
    have hd : isWordChar d = true := by simpa [isClear] using hs
    have hcode : Mode.code.CodeAfter p (c :: d :: s) :=
      code_of_word hc' hd (Mode.codeAfter_append.mp hnext)
    exact referenceToken?_ne_none hc' _ _ _ (hnone hcode)

/-- **References are found at words that are not cut.** -/
theorem exists_uncut_of_mem {p s : Text} {r : Reference} (hcut : Uncut p s)
    (hr : r ∈ tokensAfter referenceToken? p s) : ∃ q u found stop, p ++ s = q ++ u ∧
      Mode.code.CodeAfter q u ∧ Uncut q u ∧
      referenceToken? q.byteLength q.getLast? u = some (found, stop) ∧ r ∈ found := by
  induction hn : s.length using Nat.strongRecOn generalizing p s with
  | ind n ih =>
    by_cases hs : s = []
    · subst hs
      cases hr
    · cases referenceStep p hs with
      | @take m s found hne _ hclear hcode htok hrest =>
        rw [hrest] at hr
        rcases List.mem_append.mp hr with hr | hr
        · exact ⟨p, m ++ s, found, _, rfl, hcode, hcut, htok, hr⟩
        · have hlen := List.length_pos_of_ne_nil hne
          rw [List.length_append] at hn
          rw [← List.append_assoc]
          exact ih s.length (by omega) (fun _ => Or.inr hclear) hr rfl
      | @pass c s hnone hrest =>
        rw [hrest] at hr
        rw [List.length_cons] at hn
        rw [List.append_cons]
        exact ih s.length (by omega) (uncut_pass hnone) hr rfl

/-- A place that continues no path is not inside a token: there the character before it would be one
of the token. -/
theorem length_le_of_clear {p m s w u : Text} (heq : m ++ s = w ++ u) (hw : w ≠ [])
    (hchars : ∀ c ∈ m, isPathChar c = true) (hclear : ∀ d ∈ (p ++ w).getLast?, isPathChar d = false) :
    m.length ≤ w.length := by
  by_contra hlong
  have hpre : w <+: m := List.prefix_of_prefix_length_le ⟨u, heq.symm⟩ (List.prefix_append m s)
    (Nat.le_of_not_le hlong)
  obtain ⟨front, d, hlast⟩ := (List.eq_nil_or_concat' w).resolve_left hw
  have hd := hclear d (by rw [getLast?_append_of_ne_nil p hw, hlast, List.getLast?_concat]; rfl)
  rw [hchars d (hpre.subset (by simp [hlast]))] at hd
  cases hd

/-- **No reference is passed over** that continues no path. -/
theorem mem_tokensAfter {p s q u : Text} (heq : p ++ s = q ++ u) (hle : p.length ≤ q.length)
    (hcode : Mode.code.CodeAfter q u) (hclear : ∀ d ∈ q.getLast?, isPathChar d = false)
    {found : List Reference} {stop : Nat}
    (htok : referenceToken? q.byteLength q.getLast? u = some (found, stop)) {r : Reference}
    (hr : r ∈ found) : r ∈ tokensAfter referenceToken? p s := by
  induction hn : s.length using Nat.strongRecOn generalizing p s with
  | ind n ih =>
    by_cases hpq : p.length = q.length
    · -- the pass stands at the place
      obtain ⟨rfl, rfl⟩ := List.append_inj heq hpq
      have hs : s ≠ [] := by
        rintro rfl
        exact hcode.elim
      cases referenceStep p hs with
      | take _ _ _ _ htok' hrest =>
        rw [htok] at htok'
        cases htok'
        rw [hrest]
        exact List.mem_append_left _ hr
      | pass hnone hrest =>
        rw [hnone hcode] at htok
        cases htok
    · obtain ⟨w, rfl⟩ := List.prefix_of_prefix_length_le (List.prefix_append p s)
        (heq ▸ List.prefix_append q u) hle
      rw [List.append_assoc, List.append_cancel_left_eq] at heq
      have hw : w ≠ [] := by
        rintro rfl
        simp at hpq
      have hs : s ≠ [] := by
        rw [heq]
        simp [hw]
      cases referenceStep p hs with
      | @take m s _ hne hchars _ _ _ hrest =>
        rw [hrest]
        refine List.mem_append_right _ (ih s.length ?_ ?_ ?_ rfl)
        · have hlen := List.length_pos_of_ne_nil hne
          rw [List.length_append] at hn
          omega
        · rw [List.append_assoc, List.append_assoc, heq]
        · have hlen := length_le_of_clear heq hw hchars hclear
          simp only [List.length_append]
          omega
      | @pass c s hnone hrest =>
        rw [hrest]
        refine ih s.length ?_ ?_ ?_ rfl
        · rw [List.length_cons] at hn
          omega
        · rw [List.append_assoc, List.append_assoc, List.singleton_append, heq]
        · have hlen := List.length_pos_of_ne_nil hw
          simp only [List.length_append, List.length_singleton]
          omega

/-! ### References by the text alone -/

theorem colonAfter_append {p s : Text} :
    (p ++ s : Text).ColonAfter p.byteLength ↔ s.trimStart.head? = some ':' := by
  constructor
  · rintro ⟨q, gap, rest, heq, hlen, hgap⟩
    obtain rfl := Text.eq_of_byteLength_eq ⟨_, heq.symm⟩ ⟨s, rfl⟩ hlen
    have hcolon : isWhite ':' = false := by decide
    rw [List.append_cancel_left heq, Text.trimStart,
      (takeWhile_dropWhile_append hgap (by simp [hcolon])).2]
    rfl
  · intro hcolon
    obtain ⟨rest, hrest⟩ := List.head?_eq_some_iff.mp hcolon
    refine ⟨p, s.takeWhile isWhite, rest, ?_, rfl, fun c hc => List.mem_takeWhile_imp hc⟩
    rw [← hrest, Text.trimStart, List.takeWhile_append_dropWhile]

theorem path?_eq_some_iff {t path rest : Text} : path? t = some (path, rest) ↔
    t = path ++ rest ∧ IsDottedPath path ∧
      ∀ other rest', t = other ++ rest' → IsDottedPath other → other.byteLength ≤ path.byteLength := by
  constructor
  · intro h
    refine ⟨(eq_of_path? h).1, isDottedPath_of_path? h, fun other rest' ht hother => ?_⟩
    rw [ht, path?_eq_pathTail (hother.any_head?_append rest'), Option.some.injEq] at h
    obtain ⟨more, hmore⟩ := hother.prefix_pathTail rest'
    rw [h] at hmore
    have hlen := congrArg Text.byteLength hmore
    rw [Text.byteLength_append] at hlen
    exact Nat.le.intro hlen
  · rintro ⟨rfl, hpath, hlongest⟩
    have hstart := hpath.any_head?_append rest
    rw [path?_eq_pathTail hstart, Option.some.injEq]
    have hsplit := pathTail_append (path ++ rest)
    have hle := hlongest _ _ hsplit.symm ((isDottedPath_pathTail _).2 hstart)
    -- what is read goes on from the path, and is not longer
    obtain ⟨more, hmore⟩ := hpath.prefix_pathTail rest
    have hlen := congrArg Text.byteLength hmore
    rw [Text.byteLength_append] at hlen
    have hsame : path = (pathTail (path ++ rest)).1 := Text.eq_of_byteLength_eq
      (List.prefix_append path rest) ⟨_, hsplit⟩ (by omega)
    rw [← hsame] at hsplit
    exact Prod.ext hsame.symm (List.append_cancel_left hsplit)

theorem standsIn_append {q t : Text} {u : Reference} :
    (u.StandsIn (q ++ t) ∧ u.span.start = q.byteLength) ↔
      IsDottedPath u.path ∧ u.span = .ofLength q.byteLength u.path.byteLength ∧
        ∃ rest, t = u.path ++ rest := by
  constructor
  · rintro ⟨⟨hpath, hslice⟩, hstart⟩
    obtain ⟨p, rest, heq, hp, hlen⟩ := Text.slice?_eq_some_iff.mp hslice
    obtain rfl := Text.eq_of_byteLength_eq ⟨_, heq.symm⟩ ⟨t, rfl⟩ (hp.trans hstart)
    have hle := u.span.start_le_stop
    rw [Span.length] at hlen
    refine ⟨hpath, Span.ext hstart ?_, rest, List.append_cancel_left heq⟩
    rw [Span.stop_ofLength]
    omega
  · rintro ⟨hpath, hspan, rest, rfl⟩
    rw [hspan]
    refine ⟨⟨hpath, ?_⟩, rfl⟩
    rw [hspan]
    exact Text.slice?_append q u.path rest

theorem startsStatement_iff {prev : Option Char} {c : Char} :
    startsStatement prev c = true ↔ isWordStart c = true ∧ ∀ d ∈ prev, isPathChar d = false := by
  cases prev <;> simp [startsStatement, isPathChar]

/-- **At a place of the text** a reference counts if the token there makes it. -/
theorem countsIn_append {q t : Text} {r : Reference} :
    (r.CountsIn (q ++ t) ∧ r.span.start = q.byteLength) ↔
      Mode.code.CodeAfter q t ∧ (∀ d ∈ q.getLast?, isPathChar d = false) ∧
        ∃ found stop, referenceToken? q.byteLength q.getLast? t = some (found, stop) ∧ r ∈ found := by
  rw [mem_referenceToken?_iff]
  constructor
  · rintro ⟨h, hstart⟩
    obtain ⟨hpath, hspan, rest, rfl⟩ := standsIn_append.mp ⟨h.toStandsIn, hstart⟩
    have hstarts := h.starts
    have hkey := h.not_key
    have hlongest := h.longest
    rw [hspan, Span.start_ofLength] at hstarts hlongest
    rw [hspan, Span.stop_ofLength, ← Text.byteLength_append, ← List.append_assoc,
      colonAfter_append] at hkey
    obtain ⟨hcode, hword⟩ := startsWord_append.mp hstarts
    obtain ⟨c, w, hw⟩ := List.exists_cons_of_ne_nil hpath.ne_nil
    have hhead : (r.path ++ rest).head? = some c := by rw [hw]; rfl
    rw [hhead, Option.any_some, startsStatement_iff] at hword
    have hnumeral : isNumeric c = false := h.not_numeral c (by rw [hw]; rfl)
    have hread : path? (r.path ++ rest) = some (r.path, rest) := by
      refine path?_eq_some_iff.mpr ⟨rfl, hpath, fun other rest' heq hother => ?_⟩
      have hstands := standsIn_append (u := ⟨other, .ofLength q.byteLength other.byteLength⟩).mpr
        ⟨hother, rfl, rest', heq⟩
      have hle := hlongest _ hstands.1 rfl
      rw [Span.stop_ofLength, Span.stop_ofLength] at hle
      omega
    refine ⟨hcode, hword.2, by rw [hhead]; exact hnumeral, r.path, rest, hread,
      isReference_iff.mpr ⟨fun hdot => ?_, hkey, h.not_literal⟩, by rw [← hspan]⟩
    exact absurd (hword.2 '.' hdot) (by decide)
  · rintro ⟨hcode, hclear, hnum, path, rest, hread, href, rfl⟩
    obtain ⟨rfl, hpath, hlongest⟩ := path?_eq_some_iff.mp hread
    obtain ⟨-, hkey, hliteral⟩ := isReference_iff.mp href
    obtain ⟨hstands, hstart⟩ := standsIn_append (q := q)
      (u := ⟨path, .ofLength q.byteLength path.byteLength⟩).mpr ⟨hpath, rfl, rest, rfl⟩
    obtain ⟨c, w, hw⟩ := List.exists_cons_of_ne_nil hpath.ne_nil
    have hhead : (path ++ rest).head? = some c := by rw [hw]; rfl
    have hword : isWordStart c = true := by
      simpa [hw] using hpath.any_head?
    rw [hhead] at hnum
    refine ⟨⟨hstands, ?_, ?_, ?_, ?_, hliteral⟩, hstart⟩
    · refine startsWord_append.mpr ⟨hcode, ?_⟩
      rw [hhead]
      exact startsStatement_iff.mpr ⟨hword, hclear⟩
    · intro d hd
      rw [hw] at hd
      cases hd
      exact hnum
    · intro u hu hustart
      obtain ⟨hother, hspan, rest', heq⟩ := standsIn_append.mp ⟨hu, hustart⟩
      have hle := hlongest _ _ heq hother
      rw [hspan, Span.stop_ofLength, Span.stop_ofLength]
      omega
    · rw [Span.stop_ofLength, ← Text.byteLength_append, ← List.append_assoc, colonAfter_append]
      exact hkey

/-- **The references of an argument text.** They come one after the other, so that they are disjoint
and in increasing order. They are exactly the paths that count: the longest dotted path at a word in
code that continues neither a word nor a path and starts with no numeric character, unless it is a
key or its root is a literal word. Each of them is not empty, stands at its span, and is code all
along. -/
theorem Text.references_exactly (args : Text) :
    args.references.Pairwise (fun r u => r.span.stop ≤ u.span.start) ∧
    (∀ r, r ∈ args.references ↔ r.CountsIn args) ∧
    ∀ r ∈ args.references, r.span.start < r.span.stop ∧ args.slice? r.span = some r.path ∧
      args.CodeBetween r.span.start r.span.stop := by
  have hfrom : args.references = tokensAfter referenceToken? [] args := by
    rw [references, referencesFrom_eq]
    rfl
  have hcounts : ∀ r, r ∈ args.references ↔ r.CountsIn args := by
    intro r
    rw [hfrom]
    constructor
    · intro hr
      obtain ⟨q, t, found, stop, heq, hcode, hcut, htok, hr⟩ :=
        exists_uncut_of_mem (fun _ => Or.inl rfl) hr
      rw [List.nil_append] at heq
      rw [heq]
      exact (countsIn_append.mpr ⟨hcode, not_isPathChar_before (hcut hcode) htok hr, found, stop, htok,
        hr⟩).1
    · intro h
      obtain ⟨-, q, c, t, rfl, hlen, -⟩ := h.starts
      obtain ⟨hcode, hclear, found, stop, htok, hr⟩ := countsIn_append.mp ⟨h, hlen.symm⟩
      exact mem_tokensAfter (List.nil_append _) (Nat.zero_le _) hcode hclear htok hr
  refine ⟨args.pairwise_references, hcounts, fun r hr => ?_⟩
  have h := (hcounts r).mp hr
  obtain ⟨-, q, c, t, rfl, hlen, -⟩ := h.starts
  obtain ⟨hpath, hspan, rest, heq⟩ := standsIn_append.mp ⟨h.toStandsIn, hlen.symm⟩
  obtain ⟨hcode, -⟩ := countsIn_append.mp ⟨h, hlen.symm⟩
  have hpos := byteLength_pos hpath.ne_nil
  rw [heq] at hcode
  refine ⟨?_, h.path, ?_⟩
  · rw [hspan, Span.start_ofLength, Span.stop_ofLength]
    omega
  · rw [hspan, heq]
    exact codeBetween_inert hcode hpath.isInert

/-- A numeral, a member of a result, a key and a literal word are no references. -/
example : (Text.references "1.5e3, f().g, a.b, k: true".toList).map Reference.path =
    [['f'], ['a', '.', 'b']] := by
  decide +kernel

end PipelineDoc
