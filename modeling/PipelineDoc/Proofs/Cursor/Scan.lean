import PipelineDoc.Bracket
import PipelineDoc.Proofs.Cursor.Access
import PipelineDoc.Word

/-!
# Scans

A *scan* goes over the bytes of a text from an offset on, reads the label of each and looks at it,
until the look ends the scan or the bytes are used up. There are three: for the labels of all bytes,
for the partner of a bracket, and for a word. At a boundary a scan can be followed character by
character (`scan_cons`): all bytes of a character are looked at under its label.
-/

namespace PipelineDoc.Cursor

variable {σ β : Type}

/-- The offsets from `start` up to `stop`. -/
def offsets (start stop : Nat) : List Nat := List.range' start (stop - start)

/-- Reads the bytes at the given offsets one after the other. `look` gets what the scan has so far,
the offset and the label, and goes on or ends the scan. -/
def scan (bytes : List UInt8) (look : σ → Nat → Label → Read (σ ⊕ β)) :
    List Nat → State → σ → Read (σ ⊕ β)
  | [], _, acc => .ok (.inl acc)
  | pos :: rest, state, acc => do
    let (label, state) ← state.step bytes pos
    match ← look acc pos label with
    | .inl acc => scan bytes look rest state acc
    | .inr found => .ok (.inr found)

/-- Looks at bytes of one label. -/
def lookAll (look : σ → Nat → Label → Read (σ ⊕ β)) (label : Label) :
    List Nat → σ → Read (σ ⊕ β)
  | [], acc => .ok (.inl acc)
  | pos :: rest, acc => do
    match ← look acc pos label with
    | .inl acc => lookAll look label rest acc
    | .inr found => .ok (.inr found)

theorem scan_of_step {bytes : List UInt8} {look : σ → Nat → Label → Read (σ ⊕ β)} {label : Label}
    {state : State} {ps : List Nat} (h : ∀ pos ∈ ps, state.step bytes pos = .ok (label, state))
    (rest : List Nat) (acc : σ) :
    scan bytes look (ps ++ rest) state acc = lookAll look label ps acc >>= fun
      | .inl acc => scan bytes look rest state acc
      | .inr found => .ok (.inr found) := by
  induction ps generalizing acc with
  | nil => rfl
  | cons pos ps ih =>
    rw [List.cons_append, scan, h pos List.mem_cons_self, ok_bind, lookAll]
    dsimp only
    cases look acc pos label with
    | error fault => rfl
    | ok next =>
      cases next with
      | inl acc => exact ih (fun q hq => h q (List.mem_cons_of_mem _ hq)) acc
      | inr found => rfl

/-- **A scan takes a character at a time**: it looks at all bytes of the character under its label.
-/
theorem scan_cons (look : σ → Nat → Label → Read (σ ⊕ β)) (mode : Mode) (p s : Text) (c : Char)
    (acc : σ) :
    scan (p ++ c :: s : Text).bytes look (offsets p.byteLength (p ++ c :: s : Text).byteLength)
        (.ofMode mode) acc =
      lookAll look (mode.step c s.head?).1 (List.range' p.byteLength c.utf8Size) acc >>= fun
        | .inl acc =>
          scan (p ++ c :: s : Text).bytes look
            (offsets (p ++ [c] : Text).byteLength (p ++ c :: s : Text).byteLength)
            (.ofMode (mode.step c s.head?).2) acc
        | .inr found => .ok (.inr found) := by
  have hpos := Char.utf8Size_pos c
  have hsplit : offsets p.byteLength (p ++ c :: s : Text).byteLength =
      p.byteLength :: (List.range' (p.byteLength + 1) (c.utf8Size - 1) ++
        offsets (p ++ [c] : Text).byteLength (p ++ c :: s : Text).byteLength) := by
    simp only [offsets, Text.byteLength_append, Text.byteLength_cons, Text.byteLength_nil]
    rw [← List.cons_append, ← List.range'_succ, Nat.sub_add_cancel hpos, Nat.add_zero,
      List.range'_append_1]
    congr 1
    omega
  have hall : List.range' p.byteLength c.utf8Size =
      p.byteLength :: List.range' (p.byteLength + 1) (c.utf8Size - 1) := by
    rw [← List.range'_succ, Nat.sub_add_cancel hpos]
  rw [hsplit, hall, scan, State.step_first, ok_bind, lookAll]
  dsimp only
  cases look acc p.byteLength (mode.step c s.head?).1 with
  | error fault => rfl
  | ok next =>
    cases next with
    | inr found => rfl
    | inl acc =>
      refine scan_of_step (fun pos hp => ?_) _ acc
      obtain ⟨i, hi, rfl⟩ := List.mem_range'.mp hp
      have := State.step_inside mode p s (c := c) (k := i + 1) (by omega) (by omega)
      rw [← this]
      congr 1
      omega

/-- Looks that change nothing. -/
theorem lookAll_keep {look : σ → Nat → Label → Read (σ ⊕ β)} {label : Label} {ps : List Nat}
    {acc : σ} (h : ∀ pos ∈ ps, look acc pos label = .ok (.inl acc)) :
    lookAll look label ps acc = .ok (.inl acc) := by
  induction ps with
  | nil => rfl
  | cons pos ps ih =>
    rw [lookAll, h pos List.mem_cons_self]
    exact ih fun q hq => h q (List.mem_cons_of_mem _ hq)

theorem scan_nil (look : σ → Nat → Label → Read (σ ⊕ β)) (p : Text) (state : State) (acc : σ) :
    scan p.bytes look (offsets p.byteLength p.byteLength) state acc = .ok (.inl acc) := by
  simp [offsets, scan]

/-! ### All labels -/

/-- The labels of the bytes of a text. -/
def labels (t : Text) : Read (List Label) := do
  match ← scan t.bytes (fun acc _ label => (.ok (.inl (acc ++ [label])) : Read (List Label ⊕ Empty)))
      (offsets 0 t.bytes.length) .start [] with
  | .inl acc => .ok acc

theorem lookAll_push (label : Label) (ps : List Nat) (acc : List Label) :
    lookAll (fun acc _ label => (.ok (.inl (acc ++ [label])) : Read (List Label ⊕ Empty))) label ps
      acc = .ok (.inl (acc ++ List.replicate ps.length label)) := by
  induction ps generalizing acc with
  | nil => simp [lookAll]
  | cons pos ps ih =>
    rw [lookAll, ok_bind]
    show lookAll _ _ ps (acc ++ [label]) = _
    rw [ih, List.length_cons, List.replicate_succ]
    simp

theorem labels_eq (t : Text) : labels t = .ok t.byteLabels := by
  have key : ∀ (s p : Text) (mode : Mode) (acc : List Label),
      scan (p ++ s : Text).bytes
          (fun acc _ label => (.ok (.inl (acc ++ [label])) : Read (List Label ⊕ Empty)))
          (offsets p.byteLength (p ++ s : Text).byteLength) (.ofMode mode) acc =
        .ok (.inl (acc ++ mode.byteLabels s)) := by
    intro s
    induction s with
    | nil =>
      intro p mode acc
      rw [List.append_nil, scan_nil]
      simp [Mode.byteLabels]
    | cons c s ih =>
      intro p mode acc
      rw [scan_cons, lookAll_push, ok_bind]
      have h := ih (p ++ [c]) (mode.step c s.head?).2
        (acc ++ List.replicate (List.range' p.byteLength c.utf8Size).length (mode.step c s.head?).1)
      rw [List.append_assoc, List.singleton_append] at h
      show scan _ _ _ _ _ = _
      rw [h, Mode.byteLabels_cons, List.length_range', List.append_assoc]
  have h := key t [] .code []
  rw [List.nil_append, Text.byteLength_nil] at h
  rw [labels, Text.length_bytes]
  show (scan _ _ _ (State.ofMode .code) _ >>= _) = _
  rw [h]
  rfl

/-! ### Searches -/

/-- What a scan ends with, if its look ends it. -/
def search (bytes : List UInt8) (look : σ → Nat → Label → Read (σ ⊕ β)) (ps : List Nat)
    (state : State) (acc : σ) : Read (Option β) := do
  match ← scan bytes look ps state acc with
  | .inl _ => return none
  | .inr found => return some found

theorem search_nil (look : σ → Nat → Label → Read (σ ⊕ β)) (p : Text) (state : State) (acc : σ) :
    search (p ++ [] : Text).bytes look (offsets p.byteLength (p ++ [] : Text).byteLength) state acc =
      .ok none := by
  rw [List.append_nil, search, scan_nil]
  rfl

theorem search_cons (look : σ → Nat → Label → Read (σ ⊕ β)) (mode : Mode) (p s : Text) (c : Char)
    (acc : σ) :
    search (p ++ c :: s : Text).bytes look (offsets p.byteLength (p ++ c :: s : Text).byteLength)
        (.ofMode mode) acc =
      lookAll look (mode.step c s.head?).1 (List.range' p.byteLength c.utf8Size) acc >>= fun
        | .inl acc =>
          search ((p ++ [c]) ++ s : Text).bytes look
            (offsets (p ++ [c] : Text).byteLength ((p ++ [c]) ++ s : Text).byteLength)
            (.ofMode (mode.step c s.head?).2) acc
        | .inr found => .ok (some found) := by
  rw [search, scan_cons, List.append_assoc, List.singleton_append]
  cases lookAll look (mode.step c s.head?).1 (List.range' p.byteLength c.utf8Size) acc with
  | error fault => rfl
  | ok next => cases next <;> rfl

/-! ### The partner of a bracket -/

/-- Looks for the closing delimiter. `depth` counts the brackets that are open. -/
def lookBracket (b : Bracket) (bytes : List UInt8) (depth pos : Nat) (label : Label) : Read (Nat ⊕ Nat) :=
  if label ≠ .code then .ok (.inl depth)
  else do
    let byte ← fetch bytes pos
    if byte = byteOf b.opener then return .inl (depth + 1)
    else if byte = byteOf b.closer then
      let depth ← minus depth 1
      if depth = 0 then return .inr pos else return .inl depth
    else return .inl depth

/-- The offset of the delimiter that closes the one at offset `start`. -/
def closing? (t : Text) (b : Bracket) (start : Nat) : Read (Option Nat) :=
  if t.bytes[start]? ≠ some (byteOf b.opener) then .ok none
  else search t.bytes (lookBracket b t.bytes) (offsets (start + 1) t.bytes.length) .start 1

theorem narrow_opener (b : Bracket) : Narrow b.opener := by cases b <;> decide

theorem narrow_closer (b : Bracket) : Narrow b.closer := by cases b <;> decide

/-- What is made of all bytes of a character: only a delimiter in code counts. -/
theorem lookAll_bracket (b : Bracket) (p s : Text) (c : Char) (label : Label) (depth : Nat) :
    lookAll (lookBracket b (p ++ c :: s : Text).bytes) label
        (List.range' p.byteLength c.utf8Size) (depth + 1) =
      .ok (if label = .code ∧ c = b.closer then
          if depth = 0 then .inr p.byteLength else .inl depth
        else if label = .code ∧ c = b.opener then .inl (depth + 2)
        else .inl (depth + 1)) := by
  by_cases hl : label = .code
  case neg =>
    rw [if_neg (fun h => hl h.1), if_neg (fun h => hl h.1)]
    exact lookAll_keep fun pos _ => if_pos hl
  subst hl
  have look_eq : ∀ pos ∈ List.range' p.byteLength c.utf8Size,
      lookBracket b (p ++ c :: s : Text).bytes (depth + 1) pos .code =
        .ok (if c = b.opener then .inl (depth + 2)
          else if c = b.closer then if depth = 0 then .inr pos else .inl depth
          else .inl (depth + 1)) := by
    intro pos hpos
    obtain ⟨k, hk, rfl⟩ := List.mem_range'.mp hpos
    obtain ⟨byte, hb, hget⟩ := Text.getElem?_bytes_char p s c hk
    rw [Nat.one_mul, lookBracket, if_neg (by simp), fetch_eq hget, ok_bind,
      minus_eq (Nat.le_add_left 1 depth)]
    simp only [eq_byteOf_iff (narrow_opener b) hb, eq_byteOf_iff (narrow_closer b) hb]
    split_ifs <;> simp_all [pure_eq, ok_bind]
  -- a delimiter has one byte
  have single : c = b.opener ∨ c = b.closer →
      List.range' p.byteLength c.utf8Size = [p.byteLength] := by
    rintro (rfl | rfl)
    · rw [narrow_opener b]; rfl
    · rw [narrow_closer b]; rfl
  have hne := b.opener_ne_closer
  have first := look_eq p.byteLength
    (List.mem_range'.mpr ⟨0, Char.utf8Size_pos c, by simp⟩)
  by_cases ho : c = b.opener
  · rw [single (.inl ho), lookAll, first, if_pos ho, if_neg (fun h => hne (ho ▸ h.2)),
      if_pos ⟨rfl, ho⟩]
    rfl
  · by_cases hc : c = b.closer
    · have hcode : Label.code = .code ∧ c = b.closer := ⟨rfl, hc⟩
      rw [single (.inr hc), lookAll, first, if_neg ho, if_pos hc, if_pos hcode]
      split_ifs <;> rfl
    · rw [if_neg (fun h => hc h.2), if_neg (fun h => ho h.2)]
      refine lookAll_keep fun pos hpos => ?_
      rw [look_eq pos hpos, if_neg ho, if_neg hc]

theorem search_bracket (b : Bracket) (p s : Text) (mode : Mode) (depth : Nat) :
    search (p ++ s : Text).bytes (lookBracket b (p ++ s : Text).bytes)
        (offsets p.byteLength (p ++ s : Text).byteLength) (.ofMode mode) (depth + 1) =
      .ok ((b.splitClosing depth mode s).map fun (inside, _) =>
        p.byteLength + inside.byteLength) := by
  induction s generalizing p mode depth with
  | nil => rw [search_nil]; rfl
  | cons c s ih =>
    have next : ∀ d, search ((p ++ [c]) ++ s : Text).bytes
        (lookBracket b (p ++ c :: s : Text).bytes)
        (offsets (p ++ [c] : Text).byteLength ((p ++ [c]) ++ s : Text).byteLength)
        (.ofMode (mode.step c s.head?).2) (d + 1) =
        .ok (((b.splitClosing d (mode.step c s.head?).2 s).map
          fun r => (c :: r.1, r.2)).map fun (inside, _) =>
            p.byteLength + Text.byteLength inside) := by
      intro d
      have h := ih (p ++ [c]) (mode.step c s.head?).2 d
      rw [show (p ++ [c]) ++ s = p ++ c :: s by simp] at h ⊢
      rw [h, Option.map_map]
      congr 2
      funext ⟨q, r⟩
      simp [Nat.add_assoc]
    rw [search_cons, lookAll_bracket, ok_bind, Bracket.splitClosing_cons]
    by_cases hc : (mode.step c s.head?).1 = .code ∧ c = b.closer
    · simp only [if_pos hc]
      cases depth with
      | zero => simp
      | succ depth => exact next depth
    · simp only [if_neg hc]
      split_ifs
      · exact next (depth + 1)
      · exact next depth

/-- **The partner of the bracket** that has just been read. -/
theorem closing?_eq (b : Bracket) (p s : Text) :
    closing? (p ++ b.opener :: s) b p.byteLength =
      .ok ((b.inside? s).map fun (inside, _) => p.byteLength + 1 + inside.byteLength) := by
  have hopen : (p ++ b.opener :: s : Text).bytes[p.byteLength]? = some (byteOf b.opener) :=
    (Text.getElem?_bytes_eq_iff p (b.opener :: s) (narrow_opener b)).mpr rfl
  have h := search_bracket b (p ++ [b.opener]) s .code 0
  have hlen : (p ++ [b.opener] : Text).byteLength = p.byteLength + 1 := by
    rw [Text.byteLength_append, Text.byteLength_cons, narrow_opener b]
    rfl
  rw [hlen, List.append_assoc, List.singleton_append] at h
  rw [closing?, if_neg (not_not_intro hopen), Text.length_bytes]
  exact h

/-! ### Words -/

variable {α : Type}

/-- Whether the `length` bytes at an offset stand as a whole word. -/
def isWordAt (t : Text) (pos length : Nat) : Read Bool := do
  let before ← cutTo t pos
  let after ← cutFrom t (pos + length)
  return isClear before.getLast? && isClear after.head?

/-- Whether a word stands as a whole word at an offset. -/
def isKeyAt (word t : Text) (pos : Nat) : Read Bool := do
  let rest ← bytesFrom t.bytes pos
  if word.bytes.isPrefixOf rest then isWordAt t pos word.byteLength else return false

/-- The first of the candidates whose spelling stands as a whole word at an offset. -/
def keyAt? (spelling : α → Text) (t : Text) (pos : Nat) : List α → Read (Option α)
  | [] => return none
  | a :: candidates => do
    if ← isKeyAt (spelling a) t pos then return some a else keyAt? spelling t pos candidates

/-- Looks for a word at every byte of code. -/
def lookWord (spelling : α → Text) (candidates : List α) (t : Text) (_ : Unit) (pos : Nat)
    (label : Label) : Read (Unit ⊕ (Nat × α)) :=
  if label ≠ .code then .ok (.inl ())
  else do
    match ← keyAt? spelling t pos candidates with
    | some a => return .inr (pos, a)
    | none => return .inl ()

/-- The first place at or after the offset `start` where one of the candidates stands as a whole
word in code. -/
def findWord? (spelling : α → Text) (candidates : List α) (t : Text) (start : Nat) :
    Read (Option (Nat × α)) :=
  search t.bytes (lookWord spelling candidates t) (offsets start t.bytes.length) .start ()

/-- A word that can be looked for byte by byte: it is not empty and has narrow characters only. -/
def IsPlain (word : Text) : Prop := word ≠ [] ∧ ∀ c ∈ word, Narrow c

instance : DecidablePred IsPlain := fun word =>
  haveI := List.decidableBAll Narrow word
  inferInstanceAs (Decidable (word ≠ [] ∧ ∀ c ∈ word, Narrow c))

theorem isWordAt_eq (p word s : Text) :
    isWordAt (p ++ (word ++ s)) p.byteLength word.byteLength =
      .ok (isClear p.getLast? && isClear s.head?) := by
  have h := cutFrom_append (p ++ word) s
  rw [List.append_assoc, Text.byteLength_append] at h
  rw [isWordAt, cutTo_append, ok_bind, h]
  rfl

theorem isKeyAt_eq {word : Text} (hw : IsPlain word) (p s : Text) :
    isKeyAt word (p ++ s) p.byteLength =
      .ok (match s.skip? word with
        | some after => isClear p.getLast? && isClear after.head?
        | none => false) := by
  rw [isKeyAt, bytesFrom_append, ok_bind]
  cases hskip : s.skip? word with
  | some after =>
    obtain rfl := Text.skip?_eq_some_iff.mp hskip
    rw [if_pos ((Text.isPrefixOf_bytes_iff hw.2 _).mpr ⟨after, rfl⟩), isWordAt_eq]
  | none =>
    rw [if_neg]
    · rfl
    · rw [Text.isPrefixOf_bytes_iff hw.2]
      rintro ⟨after, rfl⟩
      rw [Text.skip?_eq_some_iff.mpr rfl] at hskip
      simp at hskip

/-- Inside a character no word starts. -/
theorem isKeyAt_inside {word : Text} (hw : IsPlain word) (p s : Text) {c : Char} {k : Nat}
    (h0 : 0 < k) (hk : k < c.utf8Size) :
    isKeyAt word (p ++ c :: s) (p.byteLength + k) = .ok false := by
  obtain ⟨hne, hnarrow⟩ := hw
  obtain ⟨byte, hb, hget⟩ := Text.getElem?_bytes_char p s c hk
  have hlen : p.byteLength + k < (p ++ c :: s : Text).bytes.length := by
    simp only [Text.length_bytes, Text.byteLength_append, Text.byteLength_cons]
    omega
  rw [isKeyAt, bytesFrom, if_pos (Nat.le_of_lt hlen), ok_bind, if_neg]
  · rfl
  · obtain ⟨d, rest, rfl⟩ := List.exists_cons_of_ne_nil hne
    have hd := hnarrow d List.mem_cons_self
    rw [Text.bytes_cons, hd.encode, List.singleton_append, List.isPrefixOf_iff_prefix,
      List.drop_eq_getElem_cons hlen, List.cons_prefix_cons]
    rintro ⟨heq, -⟩
    rw [List.getElem?_eq_getElem hlen, Option.some.injEq, ← heq] at hget
    -- the first byte of the word would make the character narrow
    have hc := (eq_byteOf_iff hd hb).mp hget.symm
    rw [hc, show d.utf8Size = 1 from hd] at hk
    exact absurd hk (Nat.not_lt.mpr h0)

theorem keyAt?_eq {spelling : α → Text} {candidates : List α}
    (hs : ∀ a ∈ candidates, IsPlain (spelling a)) (p s : Text) :
    keyAt? spelling (p ++ s) p.byteLength candidates =
      .ok ((wordAt? spelling candidates p.getLast? s).map (·.1)) := by
  induction candidates with
  | nil => rfl
  | cons a candidates ih =>
    have ih := ih fun b hb => hs b (List.mem_cons_of_mem _ hb)
    rw [keyAt?, isKeyAt_eq (hs a List.mem_cons_self), ok_bind, wordAt?, List.findSome?_cons]
    cases s.skip? (spelling a) with
    | none => exact ih
    | some after =>
      by_cases hclear : (isClear p.getLast? && isClear after.head?) = true
      · simp only [if_pos hclear]
        rfl
      · simp only [if_neg hclear]
        exact ih

theorem keyAt?_inside {spelling : α → Text} {candidates : List α}
    (hs : ∀ a ∈ candidates, IsPlain (spelling a)) (p s : Text) {c : Char} {k : Nat} (h0 : 0 < k)
    (hk : k < c.utf8Size) :
    keyAt? spelling (p ++ c :: s) (p.byteLength + k) candidates = .ok none := by
  induction candidates with
  | nil => rfl
  | cons a candidates ih =>
    rw [keyAt?, isKeyAt_inside (hs a List.mem_cons_self) p s h0 hk]
    exact ih fun b hb => hs b (List.mem_cons_of_mem _ hb)

theorem lookAll_word {spelling : α → Text} {candidates : List α}
    (hs : ∀ a ∈ candidates, IsPlain (spelling a)) (p s : Text) (c : Char) (label : Label) :
    lookAll (lookWord spelling candidates (p ++ c :: s)) label
        (List.range' p.byteLength c.utf8Size) () =
      .ok (match if label = .code then wordAt? spelling candidates p.getLast? (c :: s) else none with
        | some (a, _) => .inr (p.byteLength, a)
        | none => .inl ()) := by
  by_cases hl : label = .code
  case neg =>
    rw [if_neg hl]
    exact lookAll_keep fun pos _ => if_pos hl
  subst hl
  rw [if_pos rfl, show c.utf8Size = (c.utf8Size - 1) + 1 from
    (Nat.sub_add_cancel (Char.utf8Size_pos c)).symm, List.range'_succ, lookAll, lookWord,
    if_neg (by simp), keyAt?_eq hs, ok_bind]
  cases wordAt? spelling candidates p.getLast? (c :: s) with
  | some found => rfl
  | none =>
    refine lookAll_keep fun pos hpos => ?_
    obtain ⟨k, hk, rfl⟩ := List.mem_range'.mp hpos
    rw [lookWord, if_neg (by simp), Nat.one_mul, Nat.add_assoc,
      keyAt?_inside hs p s (by omega) (by omega)]
    rfl

theorem search_word {spelling : α → Text} {candidates : List α}
    (hs : ∀ a ∈ candidates, IsPlain (spelling a)) (p s : Text) (mode : Mode) :
    search (p ++ s : Text).bytes (lookWord spelling candidates (p ++ s))
        (offsets p.byteLength (p ++ s : Text).byteLength) (.ofMode mode) () =
      .ok ((PipelineDoc.findWord? spelling candidates p.getLast? mode s).map fun f =>
        (p.byteLength + f.before.byteLength, f.key)) := by
  induction s generalizing p mode with
  | nil => rw [search_nil]; rfl
  | cons c s ih =>
    rw [search_cons, lookAll_word hs, ok_bind, findWord?_cons]
    cases if (mode.step c s.head?).1 = .code then wordAt? spelling candidates p.getLast? (c :: s)
      else none with
    | some found => simp
    | none =>
      have h := ih (p ++ [c]) (mode.step c s.head?).2
      rw [List.getLast?_concat] at h
      rw [show (p ++ [c]) ++ s = p ++ c :: s by simp] at h ⊢
      refine h.trans ?_
      rw [Option.map_map]
      congr 2
      funext f
      simp [Nat.add_assoc]

/-- **The first word after a boundary.** -/
theorem findWord?_eq {spelling : α → Text} {candidates : List α}
    (hs : ∀ a ∈ candidates, IsPlain (spelling a)) (p s : Text) :
    findWord? spelling candidates (p ++ s) p.byteLength =
      .ok ((PipelineDoc.findWord? spelling candidates p.getLast? .code s).map fun f =>
        (p.byteLength + f.before.byteLength, f.key)) := by
  rw [findWord?, Text.length_bytes]
  exact search_word hs p s .code

end PipelineDoc.Cursor
