import Mathlib.Combinatorics.Enumerative.DyckWord
import PipelineDoc.Proofs.Cursor.Scan
import PipelineDoc.Proofs.Declaration.Keywords

/-!
# Partners of brackets

The delimiters of one kind that are code among some bytes make a word of steps up and down
(`Bracket.word`). The partner of an opening delimiter is the closing delimiter in code before which
this word is a Dyck word: it has as many steps down as up, and none of its prefixes has more. The
search for a partner counts how deep it stands; here the count is compared with the word
(`closes_iff`), and the characters of the search with the bytes (`word_take_labelledBytes`). Main
statement: `closing?_iff_dyck`.
-/

namespace PipelineDoc

/-! ### Words of delimiters -/

/-- A word that is balanced: as many steps down as up, and no prefix with more steps down. -/
def IsDyck (word : List DyckStep) : Prop := ∃ w : DyckWord, w.toList = word

theorem isDyck_iff {word : List DyckStep} : IsDyck word ↔
    (∀ w, w <+: word → w.count .D ≤ w.count .U) ∧ word.count .D = word.count .U := by
  constructor
  · rintro ⟨w, rfl⟩
    refine ⟨fun v hv => ?_, w.count_U_eq_count_D.symm⟩
    rw [List.prefix_iff_eq_take.mp hv]
    exact w.count_D_le_count_U _
  · rintro ⟨hle, heq⟩
    exact ⟨⟨word, heq.symm, fun i => hle _ (List.take_prefix i word)⟩, rfl⟩

/-- The bytes of a text with their labels. -/
def Text.labelledBytes (t : Text) : List (UInt8 × Label) := t.bytes.zip t.byteLabels

namespace Bracket

variable {b : Bracket} {mode : Mode} {p s t : Text}

/-- The step that a byte of code makes: up for an opening delimiter, down for a closing one. -/
def step? (b : Bracket) (byte : UInt8) : Option DyckStep :=
  if byte = byteOf b.opener then some .U
  else if byte = byteOf b.closer then some .D
  else none

/-- The word of the delimiters of a kind that are code. -/
def word (b : Bracket) (bytes : List (UInt8 × Label)) : List DyckStep :=
  bytes.filterMap fun (byte, label) => if label = .code then b.step? byte else none

/-- The step that a character of code makes. -/
def charStep? (b : Bracket) (c : Char) : Option DyckStep :=
  if c = b.opener then some .U
  else if c = b.closer then some .D
  else none

theorem step?_eq {c : Char} {byte : UInt8} (hb : byte ∈ String.utf8EncodeChar c) :
    b.step? byte = b.charStep? c := by
  simp only [step?, charStep?, eq_byteOf_iff (Cursor.narrow_opener b) hb,
    eq_byteOf_iff (Cursor.narrow_closer b) hb]

theorem narrow_of_charStep? {c : Char} (h : b.charStep? c ≠ none) : Narrow c := by
  unfold charStep? at h
  split_ifs at h with ho hc
  · exact ho ▸ Cursor.narrow_opener b
  · exact hc ▸ Cursor.narrow_closer b
  · exact absurd rfl h

/-- **All bytes of a character** make one step, if it is a delimiter in code, and none otherwise. -/
theorem word_char (b : Bracket) (c : Char) (label : Label) :
    b.word ((String.utf8EncodeChar c).zip (List.replicate c.utf8Size label)) =
      (if label = .code then [c] else []).filterMap b.charStep? := by
  by_cases hstep : label = .code ∧ b.charStep? c ≠ none
  · obtain ⟨rfl, hstep⟩ := hstep
    have hc := narrow_of_charStep? hstep
    have hbyte : b.step? (byteOf c) = b.charStep? c := step?_eq (by simp [hc.encode])
    rw [hc.encode, show c.utf8Size = 1 from hc, if_pos rfl]
    show List.filterMap _ [(byteOf c, Label.code)] = _
    simp only [List.filterMap_cons, List.filterMap_nil, if_true, hbyte]
  · -- no byte makes a step
    have hnone : (if label = .code then [c] else []).filterMap b.charStep? = [] := by
      by_cases hl : label = .code
      · have hc : b.charStep? c = none := by simpa [hl] using hstep
        simp [hl, hc]
      · simp [hl]
    rw [hnone, word, List.filterMap_eq_nil_iff]
    rintro ⟨byte, l⟩ hmem
    obtain ⟨hbyte, hl⟩ := List.of_mem_zip hmem
    obtain rfl := List.eq_of_mem_replicate hl
    by_cases hcode : l = .code
    · have hc : b.charStep? c = none := by simpa [hcode] using hstep
      simp only [if_pos hcode, step?_eq hbyte, hc]
    · simp only [if_neg hcode]

theorem word_take (b : Bracket) (mode : Mode) (p s : Text) :
    b.word (((p ++ s).bytes.zip (mode.byteLabels (p ++ s))).take p.byteLength) =
      (mode.codeChars p s.head?).filterMap b.charStep? := by
  induction p generalizing mode with
  | nil => rfl
  | cons c p ih =>
    have htake : ∀ (bytes rest : List (UInt8 × Label)), bytes.length = c.utf8Size →
        b.word ((bytes ++ rest).take (c.utf8Size + Text.byteLength p)) =
          b.word bytes ++ b.word (rest.take (Text.byteLength p)) := by
      intro bytes rest hlen
      rw [← hlen, List.take_length_add_append, word, List.filterMap_append]
      rfl
    rw [List.cons_append, Text.bytes_cons, Mode.byteLabels_cons, List.zip_append (by simp),
      Text.byteLength_cons, htake _ _ (by simp), word_char, ih, Mode.codeChars_cons,
      List.filterMap_append, List.head?_append]

theorem word_take_labelledBytes (b : Bracket) (p s : Text) :
    b.word ((p ++ s).labelledBytes.take p.byteLength) =
      (Mode.code.codeChars p s.head?).filterMap b.charStep? :=
  b.word_take .code p s

theorem word_labelledBytes (b : Bracket) (t : Text) :
    b.word t.labelledBytes = (Mode.code.codeChars t none).filterMap b.charStep? := by
  have h := b.word_take_labelledBytes t []
  rwa [List.append_nil, List.take_of_length_le (by simp [Text.labelledBytes])] at h

/-! ### Depth and words -/

theorem count_up (b : Bracket) (t : Text) :
    (t.filterMap b.charStep?).count .U = t.count b.opener := by
  rw [List.count_filterMap, List.count_eq_countP]
  refine List.countP_congr fun c _ => ?_
  unfold charStep?
  split_ifs <;> simp_all

theorem count_down (b : Bracket) (t : Text) :
    (t.filterMap b.charStep?).count .D = t.count b.closer := by
  have hne := b.opener_ne_closer
  rw [List.count_filterMap, List.count_eq_countP]
  refine List.countP_congr fun c _ => ?_
  unfold charStep?
  split_ifs <;> simp_all

/-- What is code in the front of a part, for a front of what is code. -/
theorem exists_of_prefix_codeChars {w : Text} {next : Option Char}
    (h : w <+: mode.codeChars p next) :
    ∃ q r, p = q ++ r ∧ w = mode.codeChars q (r.head?.or next) := by
  induction p generalizing mode w with
  | nil => exact ⟨[], [], rfl, List.prefix_nil.mp h⟩
  | cons c p ih =>
    cases w with
    | nil => exact ⟨[], c :: p, rfl, rfl⟩
    | cons d w =>
      rw [Mode.codeChars_cons] at h
      split at h
      · next hl =>
        rw [List.singleton_append, List.cons_prefix_cons] at h
        obtain ⟨rfl, h⟩ := h
        obtain ⟨q, r, rfl, rfl⟩ := ih h
        refine ⟨d :: q, r, rfl, ?_⟩
        rw [Mode.codeChars_cons, ← Option.or_assoc, ← List.head?_append, if_pos hl]
        rfl
      · next hl =>
        obtain ⟨q, r, rfl, hw⟩ := ih h
        refine ⟨c :: q, r, rfl, ?_⟩
        rw [Mode.codeChars_cons, ← Option.or_assoc, ← List.head?_append, if_neg hl, hw]
        rfl

/-- **A bracket closes** at a delimiter of code before which the delimiters make a Dyck word. -/
theorem closes_iff : Closes b 0 .code p s ↔ Mode.code.CodeAfter p (b.closer :: s) ∧
    IsDyck (b.word ((p ++ b.closer :: s : Text).labelledBytes.take p.byteLength)) := by
  rw [word_take_labelledBytes, List.head?_cons, isDyck_iff]
  constructor
  · rintro ⟨hcode, hle, heq⟩
    refine ⟨hcode, fun w hw => ?_, ?_⟩
    · obtain ⟨v, hv, rfl⟩ := List.prefix_filterMap_iff.mp hw
      obtain ⟨q, r, rfl, rfl⟩ := exists_of_prefix_codeChars hv
      have := hle q r rfl
      rw [List.head?_append, List.head?_cons] at this
      rw [count_up, count_down]
      omega
    · rw [count_up, count_down]
      omega
  · rintro ⟨hcode, hle, heq⟩
    rw [count_up, count_down] at heq
    refine ⟨hcode, fun q r hp => ?_, by omega⟩
    have hfront : Mode.code.codeChars q (r ++ b.closer :: s).head? <+:
        Mode.code.codeChars p (some b.closer) := by
      rw [hp, Mode.codeChars_append, List.head?_append, List.head?_cons]
      exact List.prefix_append _ _
    have := hle _ (hfront.filterMap b.charStep?)
    rw [count_up, count_down] at this
    omega

/-! ### The partner of a delimiter -/

/-- **The inside of a bracket** that has just been opened, by bytes: the byte after it is a closing
delimiter of code, and its delimiters make a Dyck word. -/
theorem inside?_iff {n : Nat} :
    (∃ r, b.inside? t = some r ∧ r.1.byteLength = n) ↔
      t.labelledBytes[n]? = some (byteOf b.closer, .code) ∧
        IsDyck (b.word (t.labelledBytes.take n)) := by
  rw [Text.labelledBytes, List.getElem?_zip_eq_some, ← Text.labelledBytes,
    Text.getElem?_bytes_eq_byteOf_iff (Cursor.narrow_closer b)]
  constructor
  · rintro ⟨⟨p, s⟩, hinside, rfl⟩
    obtain ⟨rfl, hcloses⟩ := splitClosing_eq_some_iff.mp hinside
    obtain ⟨hcode, hdyck⟩ := closes_iff.mp hcloses
    exact ⟨⟨⟨p, s, rfl, rfl⟩, Text.byteLabels_eq_code_iff.mpr hcode⟩, hdyck⟩
  · rintro ⟨⟨⟨p, s, rfl, rfl⟩, hlabel⟩, hdyck⟩
    have hcloses := closes_iff.mpr ⟨Text.byteLabels_eq_code_iff.mp hlabel, hdyck⟩
    exact ⟨(p, s), splitClosing_eq_some_iff.mpr ⟨rfl, hcloses⟩, rfl⟩

end Bracket

namespace Text

/-- Read from code on after the byte at `start`, the byte at `stop` is a closing delimiter of code,
and the delimiters of its kind that are code between the two make a Dyck word. -/
def IsPartner (t : Text) (b : Bracket) (start stop : Nat) : Prop :=
  ∃ before rest n, t.splitAt? (start + 1) = some (before, rest) ∧ stop = start + 1 + n ∧
    rest.labelledBytes[n]? = some (byteOf b.closer, .code) ∧
    IsDyck (b.word (rest.labelledBytes.take n))

theorem isPartner_append (p rest : Text) (b : Bracket) (stop : Nat) :
    (p ++ b.opener :: rest).IsPartner b p.byteLength stop ↔
      ∃ r, b.inside? rest = some r ∧ stop = p.byteLength + 1 + r.1.byteLength := by
  have hcut : (p ++ b.opener :: rest : Text).splitAt? (p.byteLength + 1) =
      some (p ++ [b.opener], rest) := by
    rw [splitAt?_eq_some_iff]
    refine ⟨by simp, ?_⟩
    rw [byteLength_append, byteLength_cons, Cursor.narrow_opener b, byteLength_nil]
  simp only [IsPartner, hcut, Option.some.injEq, Prod.mk.injEq]
  constructor
  · rintro ⟨_, _, n, ⟨rfl, rfl⟩, rfl, hpartner⟩
    obtain ⟨r, hr, rfl⟩ := Bracket.inside?_iff.mpr hpartner
    exact ⟨r, hr, rfl⟩
  · rintro ⟨r, hr, rfl⟩
    exact ⟨_, _, _, ⟨rfl, rfl⟩, rfl, Bracket.inside?_iff.mp ⟨r, hr, rfl⟩⟩

theorem closing?_append (p rest : Text) (b : Bracket) :
    (p ++ b.opener :: rest).closing? b p.byteLength =
      (b.inside? rest).map fun r => p.byteLength + 1 + r.1.byteLength := by
  simp only [closing?, splitAt?_append, if_pos, show b.opener.utf8Size = 1 from Cursor.narrow_opener b]

theorem closing?_eq_none {t : Text} {b : Bracket} {start : Nat}
    (h : t.bytes[start]? ≠ some (byteOf b.opener)) : t.closing? b start = none := by
  rw [ne_eq, getElem?_bytes_eq_byteOf_iff (Cursor.narrow_opener b)] at h
  unfold closing?
  split
  · next p c rest hcut =>
    obtain ⟨rfl, rfl⟩ := splitAt?_eq_some_iff.mp hcut
    exact if_neg fun hc => h ⟨p, rest, by rw [hc], rfl⟩
  · rfl

theorem closing?_eq_some_iff {t : Text} {b : Bracket} {start stop : Nat} :
    t.closing? b start = some stop ↔
      t.bytes[start]? = some (byteOf b.opener) ∧ t.IsPartner b start stop := by
  by_cases hopen : t.bytes[start]? = some (byteOf b.opener)
  · obtain ⟨p, rest, rfl, rfl⟩ :=
      (getElem?_bytes_eq_byteOf_iff (Cursor.narrow_opener b)).mp hopen
    rw [closing?_append, isPartner_append, Option.map_eq_some_iff]
    simp only [hopen, true_and, eq_comm]
  · simp [closing?_eq_none hopen, hopen]

theorem IsPartner.unique {t : Text} {b : Bracket} {start stop stop' : Nat}
    (h : t.IsPartner b start stop) (h' : t.IsPartner b start stop') : stop = stop' := by
  obtain ⟨p, rest, n, hcut, rfl, hn⟩ := h
  obtain ⟨p', rest', n', hcut', rfl, hn'⟩ := h'
  rw [hcut, Option.some.injEq, Prod.mk.injEq] at hcut'
  obtain ⟨-, rfl⟩ := hcut'
  obtain ⟨r, hr, rfl⟩ := Bracket.inside?_iff.mpr hn
  obtain ⟨r', hr', rfl⟩ := Bracket.inside?_iff.mpr hn'
  rw [hr, Option.some.injEq] at hr'
  rw [hr']

end Text

theorem isDyck_of_inside? {b : Bracket} {t p s : Text} (h : b.inside? t = some (p, s)) :
    IsDyck (b.word p.labelledBytes) := by
  have hnext : (some b.closer : Option Char) ≠ some '/' := by cases b <;> decide
  obtain ⟨-, hdyck⟩ := Bracket.closes_iff.mp (Bracket.closes_of_inside? h)
  rw [Bracket.word_take_labelledBytes, List.head?_cons, Mode.codeChars_next _ _ hnext] at hdyck
  rwa [Bracket.word_labelledBytes]

theorem isDyck_body {source : Text} {d : Declaration} (hd : d ∈ source.declarations) :
    IsDyck (Bracket.brace.word (d.content source).labelledBytes) := by
  obtain ⟨r, rest, hinside⟩ := exists_inside?_content hd
  exact isDyck_of_inside? hinside

/-- **The partner of a bracket.** The search for the partner of the byte at `start` gives `stop`
exactly if the byte is an opening delimiter and, read from code on after it, the byte at `stop` is a
closing delimiter of code before which the delimiters of code make a Dyck word. There is at most one
such `stop`, and nothing is found exactly if the byte is no opening delimiter or there is none. The
braces of code in the body of a declaration make a Dyck word as well. -/
theorem Text.closing?_iff_dyck (t : Text) (b : Bracket) (start : Nat) :
    (∀ stop, t.closing? b start = some stop ↔
      t.bytes[start]? = some (byteOf b.opener) ∧ t.IsPartner b start stop) ∧
    (∀ stop stop', t.IsPartner b start stop → t.IsPartner b start stop' → stop = stop') ∧
    (t.closing? b start = none ↔
      t.bytes[start]? ≠ some (byteOf b.opener) ∨ ¬ ∃ stop, t.IsPartner b start stop) ∧
    ∀ d ∈ t.declarations, IsDyck (Bracket.brace.word (d.content t).labelledBytes) := by
  refine ⟨fun stop => closing?_eq_some_iff, fun _ _ => IsPartner.unique, ?_, fun d => isDyck_body⟩
  rw [Option.eq_none_iff_forall_ne_some]
  simp only [ne_eq, closing?_eq_some_iff, not_and, not_exists]
  by_cases hopen : t.bytes[start]? = some (byteOf b.opener)
  · simp [hopen]
  · simp [hopen]

/-- In `module "m" { "}" {} //}` with a further brace on the next line, the braces in the string and
in the comment are passed over, and those inside are partners of each other. -/
theorem Text.closing?_iff_dyck_nested :
    let t := "module \"m\" \x7b \"\x7d\" \x7b\x7d //\x7d\n\x7d".toList
    Text.closing? t .brace 11 = some 24 ∧ Text.IsPartner t .brace 11 24 ∧
      ¬ Text.IsPartner t .brace 11 14 ∧ Text.IsPartner t .brace 17 18 ∧
      Text.closing? t .brace 0 = none ∧
      ∃ d ∈ Text.declarations t, IsDyck (Bracket.brace.word (d.content t).labelledBytes) := by
  intro t
  have houter : Text.closing? t .brace 11 = some 24 := by decide +kernel
  have hinner : Text.closing? t .brace 17 = some 18 := by decide +kernel
  have hkeyword : (Text.bytes t)[0]? ≠ some (byteOf Bracket.brace.opener) := by decide +kernel
  have hdecl : Text.declarations t ≠ [] := by decide +kernel
  obtain ⟨hsome, hunique, -, hbody⟩ := Text.closing?_iff_dyck t .brace 11
  have hpartner := ((hsome 24).mp houter).2
  obtain ⟨d, hd⟩ := List.exists_mem_of_ne_nil _ hdecl
  refine ⟨houter, hpartner, fun h => ?_, (((Text.closing?_iff_dyck t .brace 17).1 18).mp hinner).2,
    (Text.closing?_iff_dyck t .brace 0).2.2.1.mpr (Or.inl hkeyword), d, hd, hbody d hd⟩
  exact absurd (hunique _ _ h hpartner) (by decide)

end PipelineDoc
