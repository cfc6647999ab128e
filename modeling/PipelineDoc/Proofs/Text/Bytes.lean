import PipelineDoc.Proofs.Text.Slices

/-!
# Bytes

The UTF-8 encoding of a text. A character of one byte is *narrow*, any other is *wide*. The bytes of
wide characters are all above those of narrow ones, so a narrow character can be looked for among
the bytes of a text: each byte of an encoded character is the byte of the narrow character `d`
exactly when that character is `d` (`eq_byteOf_iff`).
-/

namespace PipelineDoc

/-- The byte of a narrow character. -/
def byteOf (d : Char) : UInt8 := d.val.toUInt8

/-- A character of one byte. -/
def Narrow (c : Char) : Prop := c.utf8Size = 1

instance : DecidablePred Narrow := fun c => inferInstanceAs (Decidable (c.utf8Size = 1))

theorem narrow_iff {c : Char} : Narrow c ↔ c.toNat < 128 := by
  rw [Narrow, Char.utf8Size_eq_one_iff, UInt32.le_iff_toNat_le]
  exact Nat.lt_succ_iff.symm

theorem Narrow.encode {c : Char} (h : Narrow c) : String.utf8EncodeChar c = [byteOf c] :=
  String.utf8EncodeChar_eq_singleton h

theorem Narrow.toNat_byteOf {c : Char} (h : Narrow c) : (byteOf c).toNat = c.toNat := by
  have hlt : c.val.toNat < 128 := narrow_iff.mp h
  rw [byteOf, UInt32.toNat_toUInt8]
  exact Nat.mod_eq_of_lt (by omega)

theorem byteOf_inj {c d : Char} (hc : Narrow c) (hd : Narrow d) (h : byteOf c = byteOf d) :
    c = d := by
  have h1 := hc.toNat_byteOf
  rw [h, hd.toNat_byteOf] at h1
  exact Char.toNat_inj.mp h1.symm

theorem le_or_right (a b : UInt8) : b.toNat ≤ (a ||| b).toNat := by
  rw [UInt8.toNat_or]
  exact Nat.right_le_or

/-- The bytes of a wide character are above those of all narrow characters. -/
theorem le_toNat_of_wide {c : Char} (h : ¬ Narrow c) {b : UInt8}
    (hb : b ∈ String.utf8EncodeChar c) : 128 ≤ b.toNat := by
  have lead : ∀ (a m : UInt8), 128 ≤ m.toNat → b = a ||| m → 128 ≤ b.toNat := by
    rintro a m hm rfl
    exact Nat.le_trans hm (le_or_right a m)
  rcases Char.utf8Size_eq c with h1 | h2 | h3 | h4
  · exact absurd h1 h
  · rw [String.utf8EncodeChar_eq_cons_cons h2] at hb
    simp only [List.mem_cons, List.not_mem_nil, or_false] at hb
    rcases hb with hb | hb <;> exact lead _ _ (by decide) hb
  · rw [String.utf8EncodeChar_eq_cons_cons_cons h3] at hb
    simp only [List.mem_cons, List.not_mem_nil, or_false] at hb
    rcases hb with hb | hb | hb <;> exact lead _ _ (by decide) hb
  · rw [String.utf8EncodeChar_eq_cons_cons_cons_cons h4] at hb
    simp only [List.mem_cons, List.not_mem_nil, or_false] at hb
    rcases hb with hb | hb | hb | hb <;> exact lead _ _ (by decide) hb

/-- **A narrow character is told by any byte.** -/
theorem eq_byteOf_iff {c d : Char} (hd : Narrow d) {b : UInt8} (hb : b ∈ String.utf8EncodeChar c) :
    b = byteOf d ↔ c = d := by
  by_cases hc : Narrow c
  · rw [hc.encode, List.mem_singleton] at hb
    subst hb
    exact ⟨byteOf_inj hc hd, fun h => by rw [h]⟩
  · have hge := le_toNat_of_wide hc hb
    constructor
    · rintro rfl
      rw [hd.toNat_byteOf] at hge
      have := narrow_iff.mp hd
      omega
    · rintro rfl
      exact absurd hd hc

namespace Text

/-- The UTF-8 encoding of a text. -/
def bytes (t : Text) : List UInt8 := t.flatMap String.utf8EncodeChar

@[simp] theorem bytes_nil : bytes [] = [] := rfl

@[simp] theorem bytes_cons (c : Char) (t : Text) :
    bytes (c :: t) = String.utf8EncodeChar c ++ bytes t := rfl

@[simp] theorem bytes_append (s t : Text) : bytes (s ++ t) = bytes s ++ bytes t := by
  simp [bytes]

@[simp] theorem length_bytes (t : Text) : t.bytes.length = t.byteLength := by
  induction t with
  | nil => rfl
  | cons c t ih => simp [ih]

theorem getElem?_bytes_char (p s : Text) (c : Char) {k : Nat} (hk : k < c.utf8Size) :
    ∃ b ∈ String.utf8EncodeChar c, (bytes (p ++ c :: s))[byteLength p + k]? = some b := by
  have hk' : k < (String.utf8EncodeChar c).length := by simpa using hk
  refine ⟨(String.utf8EncodeChar c)[k], List.getElem_mem hk', ?_⟩
  rw [bytes_append, bytes_cons, List.getElem?_append_right (by simp), length_bytes,
    Nat.add_sub_cancel_left, List.getElem?_append_left hk', List.getElem?_eq_getElem hk']

/-- Whether a narrow character stands at a boundary can be read off the byte there. -/
theorem getElem?_bytes_eq_iff (p s : Text) {d : Char} (hd : Narrow d) :
    (bytes (p ++ s))[byteLength p]? = some (byteOf d) ↔ s.head? = some d := by
  cases s with
  | nil =>
    rw [List.append_nil, List.getElem?_eq_none (by simp)]
    simp
  | cons c s =>
    obtain ⟨b, hb, hget⟩ := getElem?_bytes_char p s c (Char.utf8Size_pos c)
    rw [Nat.add_zero] at hget
    rw [hget, Option.some.injEq, eq_byteOf_iff hd hb]
    simp

theorem getElem?_bytes_eq_byteOf_iff {t : Text} {n : Nat} {d : Char} (hd : Narrow d) :
    t.bytes[n]? = some (byteOf d) ↔ ∃ p s, t = p ++ d :: s ∧ byteLength p = n := by
  constructor
  · intro h
    have hn : n < t.byteLength := by
      rw [← length_bytes]
      exact (List.getElem?_eq_some_iff.mp h).1
    obtain ⟨p, c, s, k, rfl, hk, rfl⟩ := exists_char_of_lt hn
    obtain ⟨b, hb, hget⟩ := getElem?_bytes_char p s c hk
    rw [hget, Option.some.injEq, eq_byteOf_iff hd hb] at h
    subst h
    rw [show c.utf8Size = 1 from hd] at hk
    exact ⟨p, s, rfl, by omega⟩
  · rintro ⟨p, s, rfl, rfl⟩
    exact (getElem?_bytes_eq_iff p (d :: s) hd).mpr rfl

theorem isPrefixOf_bytes_iff {word : Text} (hw : ∀ c ∈ word, Narrow c) (s : Text) :
    word.bytes.isPrefixOf s.bytes = true ↔ ∃ rest, s = word ++ rest := by
  rw [List.isPrefixOf_iff_prefix]
  constructor
  · intro h
    induction word generalizing s with
    | nil => exact ⟨s, rfl⟩
    | cons d word ih =>
      have hd := hw d List.mem_cons_self
      rw [bytes_cons, hd.encode, List.singleton_append] at h
      cases s with
      | nil => simp at h
      | cons c s =>
        obtain ⟨rest, hrest⟩ := h
        -- the first bytes agree, so the first characters do
        have hc : c = d := by
          obtain ⟨b, hb, hget⟩ := getElem?_bytes_char [] s c (Char.utf8Size_pos c)
          rw [← eq_byteOf_iff hd hb]
          rw [List.nil_append, ← hrest] at hget
          simpa using hget.symm
        subst hc
        rw [bytes_cons, hd.encode] at hrest
        simp only [List.cons_append, List.nil_append, List.cons.injEq, true_and] at hrest
        obtain ⟨r, rfl⟩ := ih (fun e he => hw e (List.mem_cons_of_mem _ he)) s ⟨rest, hrest⟩
        exact ⟨r, rfl⟩
  · rintro ⟨rest, rfl⟩
    rw [bytes_append]
    exact List.prefix_append _ _

end Text

end PipelineDoc
