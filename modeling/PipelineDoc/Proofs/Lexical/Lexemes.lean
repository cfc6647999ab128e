import PipelineDoc.Proofs.Cursor.Scan
import PipelineDoc.Proofs.Lexical.Restart

/-!
# Lexemes

The labels of a text, said by a grammar. The bytes of a text fall into *lexemes*, which are taken
from left to right:

    // …        a comment, up to the next newline or the end of the text
    " … "       a string, up to its closing quote or the end of the text
    \ b         a backslash and the byte after it, in code
    b           any other byte, in code

In a string a backslash goes together with the byte after it, too. All bytes of a lexeme have one
label (`Lexed`). A reader that goes from byte to byte and remembers three things, whether it is in a
string, in a comment and after a backslash, gives the labels of the grammar to every list of bytes
(`lexed_iff`). Main statement: `byteLabels_by_lexemes`.
-/

namespace PipelineDoc

open Cursor

/-! ### The grammar -/

/-- How a string goes on after its opening quote, and what comes after it: with pairs of a backslash
and any byte and with bytes other than quotes and backslashes, up to the closing quote or the end of
the text. The end may cut a pair after its backslash. -/
inductive StringTail : List UInt8 → List UInt8 → Prop
  | quote (rest : List UInt8) : StringTail [byteOf '"'] rest
  | done : StringTail [] []
  | cut : StringTail [byteOf '\\'] []
  | pair {tail rest : List UInt8} (byte : UInt8) (h : StringTail tail rest) :
      StringTail (byteOf '\\' :: byte :: tail) rest
  | plain {tail rest : List UInt8} {byte : UInt8} (hquote : byte ≠ byteOf '"')
      (hback : byte ≠ byteOf '\\') (h : StringTail tail rest) : StringTail (byte :: tail) rest

/-- A lexeme of a label, and the bytes that come after it. -/
inductive Lexeme : Label → List UInt8 → List UInt8 → Prop
  | comment {body rest : List UInt8} (hbody : byteOf '\n' ∉ body)
      (hrest : ∀ byte ∈ rest.head?, byte = byteOf '\n') :
      Lexeme .comment (byteOf '/' :: byteOf '/' :: body) rest
  | string {tail rest : List UInt8} (h : StringTail tail rest) :
      Lexeme .string (byteOf '"' :: tail) rest
  | escape (byte : UInt8) (rest : List UInt8) : Lexeme .code [byteOf '\\', byte] rest
  | plain {byte : UInt8} {rest : List UInt8} (hquote : byte ≠ byteOf '"')
      (hslash : byte = byteOf '/' → rest.head? ≠ some (byteOf '/'))
      (hback : byte = byteOf '\\' → rest = []) : Lexeme .code [byte] rest

/-- The labels of bytes that are taken lexeme by lexeme. -/
inductive Lexed : List UInt8 → List Label → Prop
  | nil : Lexed [] []
  | cons {label : Label} {token rest : List UInt8} {labels : List Label}
      (h : Lexeme label token rest) (hrest : Lexed rest labels) :
      Lexed (token ++ rest) (List.replicate token.length label ++ labels)

/-- Every list of bytes can be taken as the tail of a string and a rest. -/
theorem exists_stringTail (bytes : List UInt8) :
    ∃ tail rest, bytes = tail ++ rest ∧ StringTail tail rest := by
  induction hn : bytes.length using Nat.strongRecOn generalizing bytes with
  | ind n ih =>
    cases bytes with
    | nil => exact ⟨[], [], rfl, .done⟩
    | cons byte bytes =>
      by_cases hquote : byte = byteOf '"'
      · exact ⟨[byte], bytes, rfl, hquote ▸ .quote bytes⟩
      · by_cases hback : byte = byteOf '\\'
        · subst hback
          cases bytes with
          | nil => exact ⟨_, [], rfl, .cut⟩
          | cons next bytes =>
            rw [List.length_cons, List.length_cons] at hn
            obtain ⟨tail, rest, rfl, h⟩ := ih bytes.length (by omega) bytes rfl
            exact ⟨_, rest, rfl, .pair next h⟩
        · rw [List.length_cons] at hn
          obtain ⟨tail, rest, rfl, h⟩ := ih bytes.length (by omega) bytes rfl
          exact ⟨_, rest, rfl, .plain hquote hback h⟩

theorem exists_lexeme (byte : UInt8) (bytes : List UInt8) :
    ∃ label token rest, byte :: bytes = token ++ rest ∧ token ≠ [] ∧ Lexeme label token rest := by
  by_cases hquote : byte = byteOf '"'
  · subst hquote
    obtain ⟨tail, rest, rfl, h⟩ := exists_stringTail bytes
    exact ⟨_, _, rest, rfl, List.cons_ne_nil _ _, .string h⟩
  · by_cases hcomment : byte = byteOf '/' ∧ bytes.head? = some (byteOf '/')
    · obtain ⟨rfl, hhead⟩ := hcomment
      cases bytes with
      | nil => simp at hhead
      | cons next bytes =>
        obtain rfl : next = byteOf '/' := by simpa using hhead
        refine ⟨_, byteOf '/' :: byteOf '/' :: bytes.takeWhile (· != byteOf '\n'),
          bytes.dropWhile (· != byteOf '\n'), ?_, List.cons_ne_nil _ _, .comment ?_ ?_⟩
        · rw [List.cons_append, List.cons_append, List.takeWhile_append_dropWhile]
        · intro hmem
          simpa using List.mem_takeWhile_imp hmem
        · intro b hb
          have := List.head?_dropWhile_not (· != byteOf '\n') bytes
          rw [Option.mem_def.mp hb] at this
          simpa using this
    · by_cases hescape : byte = byteOf '\\' ∧ bytes ≠ []
      · obtain ⟨rfl, hne⟩ := hescape
        obtain ⟨next, bytes, rfl⟩ := List.exists_cons_of_ne_nil hne
        exact ⟨_, _, bytes, rfl, List.cons_ne_nil _ _, .escape next bytes⟩
      · refine ⟨_, [byte], bytes, rfl, List.cons_ne_nil _ _, .plain hquote ?_ ?_⟩
        · exact fun hslash hhead => hcomment ⟨hslash, hhead⟩
        · exact fun hback => by_contra fun hne => hescape ⟨hback, hne⟩

theorem exists_lexed (bytes : List UInt8) : ∃ labels, Lexed bytes labels := by
  induction hn : bytes.length using Nat.strongRecOn generalizing bytes with
  | ind n ih =>
    cases bytes with
    | nil => exact ⟨[], .nil⟩
    | cons byte bytes =>
      obtain ⟨label, token, rest, hsplit, hne, hlexeme⟩ := exists_lexeme byte bytes
      have hlen := congrArg List.length hsplit
      have := List.length_pos_iff.mpr hne
      rw [List.length_append] at hlen
      obtain ⟨labels, hrest⟩ := ih rest.length (by omega) rest rfl
      rw [hsplit]
      exact ⟨_, .cons hlexeme hrest⟩

/-! ### The reader of bytes -/

namespace Cursor.State

/-- The labels of bytes that are read from a state on. -/
def labels : State → List UInt8 → List Label
  | _, [] => []
  | state, byte :: bytes =>
    (state.stepByte byte bytes.head?).1 :: (state.stepByte byte bytes.head?).2.labels bytes

theorem labels_cons (state : State) (byte : UInt8) (bytes : List UInt8) :
    state.labels (byte :: bytes) =
      (state.stepByte byte bytes.head?).1 :: (state.stepByte byte bytes.head?).2.labels bytes := rfl

theorem labels_comment {body rest : List UInt8} (hbody : byteOf '\n' ∉ body)
    (hrest : ∀ byte ∈ rest.head?, byte = byteOf '\n') :
    (ofMode .comment).labels (body ++ rest) =
      List.replicate body.length .comment ++ start.labels rest := by
  induction body with
  | nil =>
    cases rest with
    | nil => rfl
    | cons byte rest =>
      obtain rfl := hrest byte rfl
      rfl
  | cons byte body ih =>
    rw [List.mem_cons, not_or] at hbody
    have hstep : ∀ next, (ofMode .comment).stepByte byte next = (.comment, ofMode .comment) := by
      intro next
      simp [stepByte, ofMode, Ne.symm hbody.1]
    rw [List.cons_append, labels_cons, hstep, ih hbody.2]
    rfl

theorem labels_stringTail {tail rest : List UInt8} (h : StringTail tail rest) :
    (ofMode .string).labels (tail ++ rest) =
      List.replicate tail.length .string ++ start.labels rest := by
  induction h with
  | quote rest => rfl
  | done => rfl
  | cut => rfl
  | @pair tail rest byte h ih =>
    have hback : ∀ next, (ofMode .string).stepByte (byteOf '\\') next =
        (.string, ofMode .stringEscape) := fun _ => rfl
    have hbyte : ∀ next, (ofMode .stringEscape).stepByte byte next =
        (.string, ofMode .string) := fun _ => rfl
    rw [List.cons_append, List.cons_append, labels_cons, hback, labels_cons, hbyte, ih]
    rfl
  | @plain tail rest byte hquote hback h ih =>
    have hstep : ∀ next, (ofMode .string).stepByte byte next = (.string, ofMode .string) := by
      intro next
      simp [stepByte, ofMode, current, hquote, hback]
    rw [List.cons_append, labels_cons, hstep, ih]
    rfl

end Cursor.State

/-- **One lexeme** is read with its label, and leaves the reader in code. -/
theorem Lexeme.labels_append {label : Label} {token rest : List UInt8} (h : Lexeme label token rest) :
    State.start.labels (token ++ rest) =
      List.replicate token.length label ++ State.start.labels rest := by
  cases h with
  | @comment body rest hbody hrest =>
    have hbody' : byteOf '\n' ∉ byteOf '/' :: body := by
      rw [List.mem_cons, not_or]
      exact ⟨by decide, hbody⟩
    have hread := State.labels_comment hbody' hrest
    show Label.comment :: (State.ofMode .comment).labels (byteOf '/' :: body ++ rest) = _
    rw [hread]
    rfl
  | @string tail rest h =>
    show Label.string :: (State.ofMode .string).labels (tail ++ rest) = _
    rw [State.labels_stringTail h]
    rfl
  | escape byte rest => rfl
  | @plain byte rest hquote hslash hback =>
    by_cases hb : byte = byteOf '\\'
    · obtain rfl := hback hb
      subst hb
      rfl
    · have hstep : State.start.stepByte byte rest.head? = (.code, .start) := by
        simp only [State.stepByte, State.start, State.current, hquote, hb]
        simpa using hslash
      rw [List.singleton_append, State.labels_cons, hstep]
      rfl

/-- **The reader of bytes gives the labels of the grammar**, and the grammar gives no others. -/
theorem lexed_iff {bytes : List UInt8} {labels : List Label} :
    Lexed bytes labels ↔ labels = State.start.labels bytes := by
  have hread : ∀ {bytes labels}, Lexed bytes labels → labels = State.start.labels bytes := by
    intro bytes labels h
    induction h with
    | nil => rfl
    | cons h hrest ih => rw [h.labels_append, ih]
  refine ⟨hread, ?_⟩
  rintro rfl
  obtain ⟨labels, h⟩ := exists_lexed bytes
  rwa [← hread h]

/-! ### Labels of a text -/

theorem Cursor.scan_push (bytes : List UInt8) {n pos : Nat} (hn : pos + n = bytes.length)
    (state : State) (acc : List Label) :
    scan bytes (fun acc _ label => (.ok (.inl (acc ++ [label])) : Read (List Label ⊕ Empty)))
        (List.range' pos n) state acc =
      .ok (.inl (acc ++ state.labels (bytes.drop pos))) := by
  induction n generalizing pos state acc with
  | zero =>
    rw [List.drop_eq_nil_of_le (by omega)]
    simp [scan, State.labels]
  | succ n ih =>
    have hpos : pos < bytes.length := by omega
    have hnext : bytes[pos + 1]? = (bytes.drop (pos + 1)).head? := by rw [List.head?_drop]
    rw [List.range'_succ, scan, State.step, fetch_eq (List.getElem?_eq_getElem hpos), ok_bind, pure_eq,
      ok_bind]
    cases hstep : state.stepByte bytes[pos] bytes[pos + 1]? with
    | mk label state' =>
      show scan _ _ _ state' (acc ++ [label]) = _
      rw [ih (by omega), List.drop_eq_getElem_cons hpos, State.labels_cons, ← hnext, hstep,
        List.append_assoc, List.singleton_append]

namespace Text

theorem byteLabels_eq_labels_bytes (t : Text) : t.byteLabels = State.start.labels t.bytes := by
  have h := labels_eq t
  rw [Cursor.labels, offsets, Nat.sub_zero, Cursor.scan_push t.bytes (Nat.zero_add _)] at h
  exact (Except.ok.inj h).symm

/-- The code part ends at the first byte of a comment, or with the text. -/
theorem byteLength_codePart (t : Text) :
    t.codePart.byteLength = t.byteLabels.findIdx (· == .comment) := by
  rw [codePart, labels, byteLabels_eq]
  generalize Mode.code = mode
  induction t generalizing mode with
  | nil => rfl
  | cons c t ih =>
    rw [Mode.labels_cons, Mode.byteLabels_cons, List.zip_cons_cons]
    by_cases hl : (mode.step c t.head?).1 = .comment
    · rw [List.takeWhile_cons_of_neg (by simp [hl]), hl,
        ← Nat.sub_add_cancel (Char.utf8Size_pos c), List.replicate_succ, List.cons_append,
        List.findIdx_cons]
      rfl
    · have hskip : (List.replicate c.utf8Size (mode.step c t.head?).1).findIdx (· == .comment) =
          (List.replicate c.utf8Size (mode.step c t.head?).1).length := by
        refine List.findIdx_eq_length.mpr fun label hmem => ?_
        rw [List.eq_of_mem_replicate hmem]
        simpa using hl
      rw [List.length_replicate] at hskip
      rw [List.takeWhile_cons_of_pos (by simp [hl]), List.map_cons, byteLength_cons, ih,
        List.findIdx_append, hskip, List.length_replicate, if_neg (Nat.lt_irrefl _), Nat.add_comm]

theorem isSome_splitAt?_of_ne {t : Text} {i : Nat} {a b : Label} (ha : t.byteLabels[i]? = some a)
    (hb : t.byteLabels[i + 1]? = some b) (hne : a ≠ b) : (t.splitAt? (i + 1)).isSome := by
  have hi : i < t.byteLength := by
    rw [← length_byteLabels]
    exact (List.getElem?_eq_some_iff.mp ha).1
  obtain ⟨p, c, s, k, rfl, hk, rfl⟩ := exists_char_of_lt hi
  by_cases hlast : k + 1 < c.utf8Size
  · -- both bytes belong to the character
    rw [byteLabels_eq, Mode.getElem?_byteLabels _ _ _ _ hk] at ha
    rw [byteLabels_eq, Nat.add_assoc, Mode.getElem?_byteLabels _ _ _ _ hlast, ha] at hb
    exact absurd (Option.some.inj hb) hne
  · have hcut := splitAt?_append (p ++ [c]) s
    rw [List.append_assoc, List.singleton_append, byteLength_append, byteLength_cons,
      byteLength_nil] at hcut
    rw [show p.byteLength + k + 1 = p.byteLength + (c.utf8Size + 0) by omega, hcut]
    rfl

end Text

/-- **The labels of a text, by lexemes.** The grammar gives the bytes of a text its labels and no
others. All bytes of a character have one label, so the code part ends between two characters, at
the first byte of a comment or with the text, and labels change between two characters only. -/
theorem Text.byteLabels_by_lexemes (t : Text) :
    (∀ labels, Lexed t.bytes labels ↔ labels = t.byteLabels) ∧
    (∀ (p : Text) c s, t = p ++ c :: s →
      ∃ label, ∀ k < c.utf8Size, t.byteLabels[p.byteLength + k]? = some label) ∧
    (t.codePart.byteLength = t.byteLabels.findIdx (· == .comment) ∧
      (t.splitAt? t.codePart.byteLength).isSome) ∧
    ∀ i a b, t.byteLabels[i]? = some a → t.byteLabels[i + 1]? = some b → a ≠ b →
      (t.splitAt? (i + 1)).isSome := by
  refine ⟨fun labels => ?_, ?_, ⟨t.byteLength_codePart, ?_⟩, fun i a b => isSome_splitAt?_of_ne⟩
  · rw [lexed_iff, t.byteLabels_eq_labels_bytes]
  · rintro p c s rfl
    exact ⟨_, fun k hk => Mode.getElem?_byteLabels .code p s c hk⟩
  · obtain ⟨rest, hrest⟩ := t.exists_codePart_append
    have hcut := splitAt?_append t.codePart rest
    rw [← hrest] at hcut
    rw [hcut]
    rfl

/-- In `é"\é"//"`, a quote that comes after a character of two bytes opens a string, in which a
backslash is followed by such a character. -/
theorem Text.byteLabels_by_lexemes_wide :
    let t := "é\"\\é\"//\"".toList
    Lexed (Text.bytes t) (Text.byteLabels t) ∧
      (Text.byteLabels t = [.code, .code, .string, .string, .string, .string, .string, .comment,
        .comment, .comment]) ∧
      (∃ label, ∀ k < 'é'.utf8Size, (Text.byteLabels t)[4 + k]? = some label) ∧
      (Text.splitAt? t 2).isSome ∧ (Text.splitAt? t 7).isSome := by
  intro t
  have hlabels : Text.byteLabels t = [.code, .code, .string, .string, .string, .string, .string,
      .comment, .comment, .comment] := by decide +kernel
  obtain ⟨hlexed, hchar, -, hchange⟩ := Text.byteLabels_by_lexemes t
  have hat : ∀ i : Nat, (Text.byteLabels t)[i]? = ([.code, .code, .string, .string, .string, .string,
      .string, .comment, .comment, .comment] : List Label)[i]? := fun i => by rw [hlabels]
  refine ⟨(hlexed _).mpr rfl, hlabels, hchar ['é', '"', '\\'] 'é' _ rfl,
    hchange 1 .code .string (hat 1) (hat 2) (by decide),
    hchange 6 .string .comment (hat 6) (hat 7) (by decide)⟩

end PipelineDoc
