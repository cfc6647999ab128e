import PipelineDoc.Proofs.Lexical.Lines
import PipelineDoc.Proofs.Text.Bytes

/-!
# Veiled comments

`Mode.veil` puts a slash in the place of every byte of a comment. All else stays where it is, the
slashes are a comment again, and a reader comes through the veiled text in the same modes. Two texts
with the same labels, and the same bytes outside comments, are the same text when veiled
(`veil_eq_of_bytes`). So whatever reads a veiled text as it reads the text itself does not look into
comments.
-/

namespace PipelineDoc

namespace Mode

/-- A text that is read from a mode on, with a slash for each byte of its comments. -/
def veil : Mode → Text → Text
  | _, [] => []
  | mode, c :: cs =>
    let (label, mode') := mode.step c cs.head?
    (if label = .comment then List.replicate c.utf8Size '/' else [c]) ++ mode'.veil cs

@[simp] theorem veil_nil (mode : Mode) : mode.veil [] = [] := rfl

theorem veil_cons (mode : Mode) (c : Char) (cs : Text) :
    mode.veil (c :: cs) = (if (mode.step c cs.head?).1 = .comment then
      List.replicate c.utf8Size '/' else [c]) ++ (mode.step c cs.head?).2.veil cs := rfl

theorem veil_cons_of_ne {mode : Mode} {c : Char} {cs : Text}
    (hl : (mode.step c cs.head?).1 ≠ .comment) :
    mode.veil (c :: cs) = c :: (mode.step c cs.head?).2.veil cs := by
  rw [veil_cons, if_neg hl]
  rfl

/-! ### Where comments are -/

/-- A character of a comment opens one, or stands in one and is no newline. -/
theorem of_label_comment {mode : Mode} {c : Char} {next : Option Char}
    (hl : (mode.step c next).1 = .comment) :
    mode = .code ∧ c = '/' ∧ next = some '/' ∨ mode = .comment ∧ c ≠ '\n' := by
  cases mode with
  | code =>
    simp only [step] at hl
    split_ifs at hl with h1 h2 h3
    exact Or.inl ⟨rfl, h3⟩
  | comment =>
    simp only [step] at hl
    split_ifs at hl with h1
    exact Or.inr ⟨rfl, h1⟩
  | codeEscape => cases hl
  | stringEscape => cases hl
  | string =>
    simp only [step] at hl
    split_ifs at hl

theorem mode_ne_comment {mode : Mode} {c : Char} {next : Option Char}
    (hl : (mode.step c next).1 ≠ .comment) : (mode.step c next).2 ≠ .comment := by
  cases mode with
  | code =>
    simp only [step] at hl ⊢
    split_ifs at hl ⊢ <;> simp_all
  | comment =>
    simp only [step] at hl ⊢
    split_ifs at hl ⊢ <;> simp_all
  | codeEscape => exact Mode.noConfusion
  | stringEscape => exact Mode.noConfusion
  | string =>
    simp only [step]
    split_ifs <;> exact Mode.noConfusion

theorem step_string {mode : Mode} (hmode : mode = .string ∨ mode = .stringEscape) {c : Char}
    (hc : c ≠ '"') (next : Option Char) :
    (mode.step c next).2 = .string ∨ (mode.step c next).2 = .stringEscape := by
  rcases hmode with rfl | rfl
  · by_cases hslash : c = '\\' <;> simp [step, hc, hslash]
  · exact Or.inl rfl

theorem step_comment_slash (next : Option Char) : comment.step '/' next = (.comment, .comment) := rfl

theorem head?_veil {mode : Mode} (hmode : mode ≠ .comment) (t : Text) :
    (mode.veil t).head? = t.head? := by
  cases t with
  | nil => rfl
  | cons c cs =>
    by_cases hl : (mode.step c cs.head?).1 = .comment
    · rcases of_label_comment hl with ⟨-, rfl, -⟩ | ⟨rfl, -⟩
      · rw [veil_cons, if_pos hl]
        rfl
      · exact absurd rfl hmode
    · rw [veil_cons_of_ne hl]
      rfl

theorem step_head?_veil {mode : Mode} {c : Char} {cs : Text}
    (hl : (mode.step c cs.head?).1 ≠ .comment) :
    mode.step c ((mode.step c cs.head?).2.veil cs).head? = mode.step c cs.head? := by
  rw [head?_veil (mode_ne_comment hl)]

/-- **A character of a comment** becomes slashes, of which the first is read as part of a comment.
-/
theorem exists_veil_comment {mode : Mode} {c : Char} {cs : Text}
    (hl : (mode.step c cs.head?).1 = .comment) :
    ∃ k, c.utf8Size = k + 1 ∧
      mode.veil (c :: cs) = '/' :: (List.replicate k '/' ++ comment.veil cs) ∧
      mode.step '/' (List.replicate k '/' ++ comment.veil cs).head? = (.comment, .comment) := by
  obtain ⟨k, hk⟩ := Nat.exists_eq_add_one_of_ne_zero (Nat.ne_of_gt (Char.utf8Size_pos c))
  refine ⟨k, hk, ?_, ?_⟩
  · rw [veil_cons, if_pos hl, mode_of_comment hl, hk, List.replicate_succ, List.cons_append]
  · rcases of_label_comment hl with ⟨rfl, rfl, hnext⟩ | ⟨rfl, -⟩
    · -- the second slash of the opening pair is seen by the first one
      obtain rfl : k = 0 := by
        have : ('/').utf8Size = 1 := by decide
        omega
      obtain ⟨cs, rfl⟩ := List.head?_eq_some_iff.mp hnext
      rfl
    · rfl

/-! ### Lengths and parts -/

theorem byteLength_replicate_slash (k : Nat) : Text.byteLength (List.replicate k '/') = k := by
  induction k with
  | zero => rfl
  | succ k ih =>
    rw [List.replicate_succ, Text.byteLength_cons, ih, Nat.add_comm]
    rfl

@[simp] theorem byteLength_veil (mode : Mode) (t : Text) :
    (mode.veil t).byteLength = t.byteLength := by
  induction t generalizing mode with
  | nil => rfl
  | cons c cs ih =>
    rw [veil_cons, Text.byteLength_append, ih, Text.byteLength_cons]
    congr 1
    split
    · exact byteLength_replicate_slash _
    · rfl

theorem step_append (mode : Mode) (c : Char) (p : Text) {q : Text} (hq : q.head? ≠ some '/') :
    mode.step c (p ++ q).head? = mode.step c p.head? := by
  cases p with
  | nil => exact step_next mode c hq
  | cons d p => rfl

/-- A part of a text is veiled on its own, if what follows it does not turn its end into a
comment. -/
theorem veil_append (mode : Mode) (p : Text) {q : Text} (hq : q.head? ≠ some '/') :
    mode.veil (p ++ q) = mode.veil p ++ (mode.run p none).veil q := by
  induction p generalizing mode with
  | nil => rfl
  | cons c p ih =>
    rw [List.cons_append, veil_cons, step_append mode c p hq, ih, veil_cons, run_cons,
      Option.or_none, List.append_assoc]

theorem exists_veil_append (mode : Mode) (p q : Text) :
    ∃ a : Text, mode.veil (p ++ q) = a ++ (mode.run p q.head?).veil q ∧
      a.byteLength = p.byteLength := by
  induction p generalizing mode with
  | nil => exact ⟨[], rfl, rfl⟩
  | cons c p ih =>
    obtain ⟨a, ha, hlength⟩ := ih (mode.step c (p ++ q).head?).2
    have hchar := byteLength_veil mode (c :: (p ++ q))
    rw [veil_cons, Text.byteLength_append, byteLength_veil, Text.byteLength_cons,
      Nat.add_right_cancel_iff] at hchar
    refine ⟨(if (mode.step c (p ++ q).head?).1 = .comment then List.replicate c.utf8Size '/'
      else [c]) ++ a, ?_, ?_⟩
    · rw [List.cons_append, veil_cons, ha, run_cons, List.head?_append, List.append_assoc]
    · rw [Text.byteLength_append, hchar, hlength, Text.byteLength_cons]

theorem veil_inert_append {w : Text} (hw : ∀ c ∈ w, isInert c = true) (t : Text) :
    code.veil (w ++ t) = w ++ code.veil t := by
  induction w with
  | nil => rfl
  | cons c w ih =>
    have hstep := step_inert (hw c List.mem_cons_self) (w ++ t).head?
    rw [List.cons_append, veil_cons_of_ne (by rw [hstep]; exact Label.noConfusion), hstep,
      ih fun d hd => hw d (List.mem_cons_of_mem _ hd), List.cons_append]

/-! ### Quiet texts -/

/-- In a text that is read from a mode on, no quote of a string comes right after a backslash, and
no newline is part of a string. -/
def Quiet : Mode → Text → Prop
  | _, [] => True
  | mode, c :: cs =>
    (c = '"' → mode ≠ .stringEscape) ∧ (c = '\n' → mode ≠ .string ∧ mode ≠ .stringEscape) ∧
      (mode.step c cs.head?).2.Quiet cs

theorem quiet_append {mode : Mode} {p q : Text} :
    mode.Quiet (p ++ q) ↔ mode.Quiet p ∧ (mode.run p q.head?).Quiet q := by
  induction p generalizing mode with
  | nil => exact ⟨fun h => ⟨trivial, h⟩, And.right⟩
  | cons c p ih =>
    rw [List.cons_append, Quiet, ih, run_cons, List.head?_append]
    cases p with
    | nil =>
      simp only [Quiet, true_and, and_true, and_assoc]
    | cons d p => simp only [Quiet, List.head?_cons, Option.some_or, and_assoc]

theorem quiet_replicate_slash (k : Nat) (t : Text) :
    comment.Quiet (List.replicate k '/' ++ t) ↔ comment.Quiet t := by
  induction k with
  | zero => rfl
  | succ k ih =>
    rw [List.replicate_succ, List.cons_append, Quiet, step_comment_slash, ih]
    simp

theorem quiet_veil {mode : Mode} {t : Text} : mode.Quiet (mode.veil t) ↔ mode.Quiet t := by
  induction t generalizing mode with
  | nil => rfl
  | cons c cs ih =>
    by_cases hl : (mode.step c cs.head?).1 = .comment
    · obtain ⟨k, -, hveil, hslash⟩ := exists_veil_comment hl
      have hmode : mode ≠ .string ∧ mode ≠ .stringEscape := by
        rcases of_label_comment hl with ⟨rfl, -⟩ | ⟨rfl, -⟩ <;> simp
      rw [hveil, Quiet, hslash, quiet_replicate_slash, ih, Quiet, mode_of_comment hl]
      simp [hmode]
    · rw [veil_cons_of_ne hl, Quiet, step_head?_veil hl, ih, Quiet]

theorem quiet_of_labels {mode : Mode} {t : Text}
    (hquote : ∀ i, t[i]? = some '\\' → t[i + 1]? = some '"' → (mode.labels t)[i + 1]? = some .comment)
    (hnewline : ('\n', Label.string) ∉ t.zip (mode.labels t))
    (hstart : t.head? = some '"' → mode ≠ .stringEscape) : mode.Quiet t := by
  induction t generalizing mode with
  | nil => trivial
  | cons c cs ih =>
    rw [labels_cons, List.zip_cons_cons, List.mem_cons, not_or] at hnewline
    refine ⟨fun hc => hstart (by rw [hc]; rfl), ?_, ih ?_ hnewline.2 ?_⟩
    · rintro rfl
      refine ⟨?_, ?_⟩ <;>
      · rintro rfl
        exact hnewline.1 rfl
    · intro i hi hi'
      have h := hquote (i + 1) hi hi'
      rwa [labels_cons, List.getElem?_cons_succ] at h
    · -- in a string, a backslash before a quote would make the quote a part of the string
      intro hhead hescape
      obtain ⟨cs, rfl⟩ := List.head?_eq_some_iff.mp hhead
      have hc : c = '\\' := by
        by_contra hc
        cases mode with
        | code | string | comment =>
          simp only [step] at hescape
          split_ifs at hescape
        | codeEscape | stringEscape => cases hescape
      have hlabel := hquote 0 (by rw [hc]; rfl) rfl
      rw [labels_cons, List.getElem?_cons_succ, hescape] at hlabel
      cases hlabel

end Mode

namespace Text

/-- A text with a slash for each byte of its comments. -/
def veil (t : Text) : Text := Mode.code.veil t

@[simp] theorem veil_nil : veil [] = [] := rfl

@[simp] theorem byteLength_veil (t : Text) : t.veil.byteLength = t.byteLength :=
  Mode.byteLength_veil .code t

@[simp] theorem head?_veil (t : Text) : t.veil.head? = t.head? :=
  Mode.head?_veil Mode.noConfusion t

theorem veil_cons_inert {c : Char} (hc : isInert c = true) (t : Text) :
    veil (c :: t) = c :: t.veil :=
  Mode.veil_inert_append (w := [c]) (by simpa using hc) t

/-- Outside comments, no quote of a text comes right after a backslash. -/
def NoEscapedQuote (t : Text) : Prop :=
  ∀ i < t.length, t[i]? = some '\\' → t[i + 1]? = some '"' → t.labels[i + 1]? = some .comment

instance : DecidablePred NoEscapedQuote := fun t => inferInstanceAs (Decidable (∀ i < t.length, _))

theorem quiet_of_noEscapedQuote {t : Text} (hquote : t.NoEscapedQuote)
    (hnewline : ('\n', Label.string) ∉ t.zip t.labels) : Mode.code.Quiet t := by
  refine Mode.quiet_of_labels (fun i hi => ?_) hnewline fun _ => Mode.noConfusion
  exact hquote i (List.getElem?_eq_some_iff.mp hi).1 hi

/-! ### Bytes -/

theorem bytes_inj {s t : Text} (h : s.bytes = t.bytes) : s = t := by
  have hencode : List.utf8Encode s = List.utf8Encode t := congrArg List.toByteArray h
  rw [← String.toByteArray_ofList, ← String.toByteArray_ofList, String.toByteArray_inj] at hencode
  exact String.ofList_injective hencode

/-- What a byte with a label becomes. -/
def veiledByte (byte : UInt8) (label : Label) : UInt8 :=
  if label = .comment then byteOf '/' else byte

theorem zipWith_veiledByte (bytes : List UInt8) (label : Label) :
    List.zipWith veiledByte bytes (List.replicate bytes.length label) =
      bytes.map fun byte => veiledByte byte label := by
  induction bytes with
  | nil => rfl
  | cons byte bytes ih =>
    rw [List.length_cons, List.replicate_succ, List.zipWith_cons_cons, ih, List.map_cons]

theorem bytes_replicate_slash (k : Nat) :
    bytes (List.replicate k '/') = List.replicate k (byteOf '/') := by
  induction k with
  | zero => rfl
  | succ k ih =>
    rw [List.replicate_succ, bytes_cons, ih, Narrow.encode (by decide), List.singleton_append,
      List.replicate_succ]

theorem bytes_veil (mode : Mode) (t : Text) :
    bytes (mode.veil t) = List.zipWith veiledByte t.bytes (mode.byteLabels t) := by
  induction t generalizing mode with
  | nil => rfl
  | cons c cs ih =>
    have hchar := zipWith_veiledByte (String.utf8EncodeChar c) (mode.step c cs.head?).1
    rw [String.length_utf8EncodeChar] at hchar
    rw [Mode.veil_cons, bytes_append, ih, bytes_cons, Mode.byteLabels_cons,
      List.zipWith_append (by simp), hchar]
    congr 1
    split
    · next hl =>
      simp only [veiledByte, hl, if_true, List.map_const', String.length_utf8EncodeChar]
      exact bytes_replicate_slash _
    · next hl => simp [veiledByte, hl]

/-- **Texts that agree outside comments** are the same when veiled. -/
theorem veil_eq_of_bytes {s t : Text} (hlabels : s.byteLabels = t.byteLabels)
    (hbytes : ∀ i < s.byteLength, s.byteLabels[i]? ≠ some .comment → s.bytes[i]? = t.bytes[i]?) :
    s.veil = t.veil := by
  have hlength : s.byteLength = t.byteLength := by
    rw [← length_byteLabels, hlabels, length_byteLabels]
  refine bytes_inj (List.ext_getElem? fun i => ?_)
  rw [veil, veil, bytes_veil, bytes_veil, ← byteLabels_eq, ← byteLabels_eq, ← hlabels,
    List.getElem?_zipWith, List.getElem?_zipWith]
  rcases Nat.lt_or_ge i s.byteLength with hi | hi
  · by_cases hcomment : s.byteLabels[i]? = some .comment
    · -- both have a byte there, and it is veiled
      have hs : i < s.bytes.length := by rwa [length_bytes]
      have ht : i < t.bytes.length := by rwa [length_bytes, ← hlength]
      rw [hcomment, List.getElem?_eq_getElem hs, List.getElem?_eq_getElem ht]
      rfl
    · rw [hbytes i hi hcomment]
  · have hs : s.bytes[i]? = none := List.getElem?_eq_none (by rwa [length_bytes])
    have ht : t.bytes[i]? = none := List.getElem?_eq_none (by rwa [length_bytes, ← hlength])
    rw [hs, ht]

end Text

end PipelineDoc
