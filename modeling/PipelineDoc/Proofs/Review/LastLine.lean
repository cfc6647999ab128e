import PipelineDoc.Proofs.Grammar.Heads
import PipelineDoc.Proofs.Text.Lines
import PipelineDoc.Review

/-!
# The last line

The braces of a document are reported at its last line that is not all white, without the white
space around it. The span of that line ends where all that follows is white (`stop_lastLineSpan`),
and starts after the lines before it and its indentation (`IsLast.start_eq`).
-/

namespace PipelineDoc.Text

/-! ### White space at the end -/

theorem exists_trimEnd_append (t : Text) :
    ∃ rest, t = t.trimEnd ++ rest ∧ ∀ c ∈ rest, isWhite c := by
  refine ⟨(t.reverse.takeWhile isWhite).reverse, (dropWhile_reverse_append isWhite t).symm, ?_⟩
  intro c hc
  exact List.mem_takeWhile_imp (List.mem_reverse.mp hc)

/-- What a text with some character that is not white ends with, without white space. -/
theorem exists_trimEnd_concat {t : Text} (h : ∃ c ∈ t, isWhite c = false) :
    ∃ init last, t.trimEnd = init ++ [last] ∧ isWhite last = false := by
  obtain ⟨c, hc, hwhite⟩ := h
  have hne : t.reverse.dropWhile isWhite ≠ [] := by
    rw [Ne, List.dropWhile_eq_nil_iff]
    intro hall
    rw [hall c (List.mem_reverse.mpr hc)] at hwhite
    cases hwhite
  have hlast := List.head_dropWhile_not isWhite hne
  obtain ⟨last, init, hinit⟩ := List.exists_cons_of_ne_nil hne
  refine ⟨init.reverse, last, ?_, ?_⟩
  · rw [trimEnd, hinit, List.reverse_cons]
  · simpa [hinit] using hlast

theorem trimEnd_append_of_white {p q : Text} (hq : ∀ c ∈ q, isWhite c = true) :
    (p ++ q).trimEnd = p.trimEnd := by
  rw [trimEnd, List.reverse_append, List.dropWhile_append_of_pos (by simpa using hq)]
  rfl

theorem trimEnd_append {q : Text} (hq : ∃ c ∈ q, isWhite c = false) (p : Text) :
    (p ++ q).trimEnd = p ++ q.trimEnd := by
  obtain ⟨init, last, hlast, -⟩ := exists_trimEnd_concat hq
  have hne : q.reverse.dropWhile isWhite ≠ [] := fun h => by
    rw [trimEnd, h] at hlast
    simp at hlast
  rw [trimEnd, trimEnd, List.reverse_append, List.dropWhile_append, if_neg (by simpa using hne),
    List.reverse_append, List.reverse_reverse]

theorem byteLength_trimEnd_le_iff (p q : Text) :
    (p ++ q : Text).trimEnd.byteLength ≤ p.byteLength ↔ ∀ c ∈ q, isWhite c = true := by
  constructor
  · intro hle c hc
    by_contra hwhite
    have hq : ∃ c ∈ q, isWhite c = false := ⟨c, hc, by simpa using hwhite⟩
    obtain ⟨init, last, hlast, -⟩ := exists_trimEnd_concat hq
    have hpos := byteLength_pos (t := q.trimEnd) (by simp [hlast])
    rw [trimEnd_append hq, byteLength_append] at hle
    omega
  · intro hq
    obtain ⟨rest, hrest, -⟩ := p.exists_trimEnd_append
    have hlength := congrArg byteLength hrest
    rw [byteLength_append] at hlength
    rw [trimEnd_append_of_white hq]
    omega

/-! ### The span of the last line -/

/-- **The last line** of a text that is not all white. -/
theorem exists_lastLine {source : Text} (h : ∃ c ∈ source, isWhite c = false) :
    ∃ front line rest, source = front ++ (line ++ rest) ∧
      source.lastLineSpan = .ofLength (byteLength front) (byteLength line) ∧ '\n' ∉ line ∧
      (∃ c ∈ line.head?, isWhite c = false) ∧ (∃ c ∈ line.getLast?, isWhite c = false) ∧
      ∀ c ∈ rest, isWhite c := by
  obtain ⟨rest, hsource, hrest⟩ := source.exists_trimEnd_append
  obtain ⟨init, last, htrim, hlast⟩ := exists_trimEnd_concat h
  have hnewline : last ≠ '\n' := by
    rintro rfl
    exact absurd hlast (by decide)
  -- the last character is on the last line, and stays when the indentation goes
  have hline : (source.trimEnd.reverse.takeWhile (· != '\n')).reverse =
      (init.reverse.takeWhile (· != '\n')).reverse ++ [last] := by
    rw [htrim, List.reverse_append, List.reverse_singleton, List.singleton_append,
      List.takeWhile_cons_of_pos (by simpa using hnewline), List.reverse_cons]
  have hshown : ((source.trimEnd.reverse.takeWhile (· != '\n')).reverse).dropWhile isWhite =
      ((init.reverse.takeWhile (· != '\n')).reverse).dropWhile isWhite ++ [last] := by
    rw [hline, dropWhile_append_of_neg hlast]
  generalize hl : (source.trimEnd.reverse.takeWhile (· != '\n')).reverse = line at hline hshown
  have hsplit : source.trimEnd = (source.trimEnd.reverse.dropWhile (· != '\n')).reverse ++
      line.takeWhile isWhite ++ line.dropWhile isWhite := by
    rw [List.append_assoc, List.takeWhile_append_dropWhile, ← hl, dropWhile_reverse_append]
  have hne : line.dropWhile isWhite ≠ [] := by
    rw [hshown]
    simp
  refine ⟨(source.trimEnd.reverse.dropWhile (· != '\n')).reverse ++ line.takeWhile isWhite,
    line.dropWhile isWhite, rest, ?_, ?_, ?_, ?_, ?_, hrest⟩
  · rw [← List.append_assoc, ← hsplit]
    exact hsource
  · have hlen := congrArg byteLength hsplit
    rw [byteLength_append _ (line.dropWhile isWhite)] at hlen
    rw [lastLineSpan, hl, hlen]
    show Span.ofLength (_ + byteLength (line.dropWhile isWhite) - _) _ = _
    rw [trimStart, Nat.add_sub_cancel]
  · intro hmem
    have hmem := (List.dropWhile_sublist isWhite).subset hmem
    rw [← hl, List.mem_reverse] at hmem
    have := List.mem_takeWhile_imp hmem
    simp at this
  · refine ⟨(line.dropWhile isWhite).head hne, List.head?_eq_some_head hne, ?_⟩
    simpa using List.head_dropWhile_not isWhite hne
  · refine ⟨last, ?_, hlast⟩
    rw [hshown, List.getLast?_concat]
    rfl

theorem takeWhile_append_of_exists {f : Char → Bool} {p : Text} (hp : ∃ c ∈ p, f c = false)
    (q : Text) : (p ++ q).takeWhile f = p.takeWhile f := by
  obtain ⟨c, hc, hneg⟩ := hp
  obtain ⟨a, b, rfl⟩ := List.append_of_mem hc
  rw [List.append_assoc, List.cons_append, takeWhile_append_of_neg hneg,
    takeWhile_append_of_neg hneg]

theorem stop_lastLineSpan (t : Text) : t.lastLineSpan.stop = t.trimEnd.byteLength := by
  have hline := congrArg byteLength (dropWhile_reverse_append (· != '\n') t.trimEnd)
  have hshown := byteLength_takeWhile_add_dropWhile isWhite
    (t.trimEnd.reverse.takeWhile (· != '\n')).reverse
  rw [byteLength_append] at hline
  simp only [lastLineSpan, Span.stop_ofLength, trimStart]
  omega

/-- **The last line starts** after the lines before it and its indentation. -/
theorem start_lastLineSpan {older p rest : Text} (holder : older = [] ∨ ∃ q, older = q ++ ['\n'])
    (hp : '\n' ∉ p) (hwhite : ∃ c ∈ p, isWhite c = false) (hrest : ∀ c ∈ rest, isWhite c = true) :
    (older ++ (p ++ rest) : Text).lastLineSpan.start =
      older.byteLength + byteLength (p.takeWhile isWhite) := by
  obtain ⟨init, last, hlast, hblack⟩ := exists_trimEnd_concat hwhite
  obtain ⟨tail, htail, -⟩ := p.exists_trimEnd_append
  have htrim : (older ++ (p ++ rest) : Text).trimEnd = older ++ p.trimEnd := by
    rw [← List.append_assoc, trimEnd_append_of_white hrest, trimEnd_append hwhite]
  have hline : ((older ++ p.trimEnd).reverse.takeWhile (· != '\n')).reverse = p.trimEnd := by
    have hnewline : ∀ c ∈ p.trimEnd.reverse, (c != '\n') = true := by
      intro c hc
      have hmem : c ∈ p := by
        rw [htail]
        exact List.mem_append_left _ (List.mem_reverse.mp hc)
      rw [bne_iff_ne]
      rintro rfl
      exact hp hmem
    have holder' : older.reverse.head?.all fun c => !(c != '\n') := by
      rcases holder with rfl | ⟨q, rfl⟩ <;> simp
    rw [List.reverse_append, (takeWhile_dropWhile_append hnewline holder').1, List.reverse_reverse]
  have hindent : p.takeWhile isWhite = p.trimEnd.takeWhile isWhite := by
    have h := takeWhile_append_of_exists (p := p.trimEnd) ⟨last, by simp [hlast], hblack⟩ tail
    rwa [← htail] at h
  have hshown := byteLength_takeWhile_add_dropWhile isWhite p.trimEnd
  rw [← hindent] at hshown
  simp only [lastLineSpan, htrim, hline, Span.start_ofLength, trimStart, byteLength_append]
  omega

/-! ### The last line among the lines -/

theorem exists_of_mem_lines {t line : Text} (h : line ∈ t.lines) :
    ∃ p e : Text, line = p ++ e ∧ '\n' ∉ p ∧ ∀ c ∈ e, isWhite c = true := by
  induction t using lines_induction with
  | last t ht =>
    by_cases hne : t = []
    · rw [hne] at h
      cases h
    · rw [lines_of_not_mem ht hne, List.mem_singleton] at h
      exact ⟨t, [], by simp [h], ht, by simp⟩
  | line p s hp ih =>
    rw [lines_append_newline hp] at h
    rcases List.mem_cons.mp h with rfl | h
    · exact ⟨p, ['\n'], rfl, hp, by simp; decide⟩
    · exact ih h

/-- The last line that is not all white, among the lines of a text. -/
structure IsLast (t : Text) (older : List Text) (line : Text) (newer : List Text) : Prop where
  lines : t.lines = older ++ line :: newer
  line : ∃ c ∈ line, isWhite c = false
  newer : ∀ l ∈ newer, ∀ c ∈ l, isWhite c = true

theorem exists_isLast {t : Text} (h : ∃ c ∈ t, isWhite c = false) :
    ∃ older line newer, t.IsLast older line newer := by
  obtain ⟨c, hc, hwhite⟩ := h
  rw [← flatten_lines t] at hc
  obtain ⟨l, hl, hcl⟩ := List.mem_flatten.mp hc
  cases hfind : t.lines.reverse.find? fun l => l.any fun c => !isWhite c with
  | none =>
    rw [List.find?_eq_none] at hfind
    exact absurd (List.any_eq_true.mpr ⟨c, hcl, by simp [hwhite]⟩)
      (hfind l (List.mem_reverse.mpr hl))
  | some line =>
    obtain ⟨hline, newer, older, hlines, hnewer⟩ := List.find?_eq_some_iff_append.mp hfind
    refine ⟨older.reverse, line, newer.reverse, ?_, ?_, ?_⟩
    · rw [← List.reverse_inj, hlines]
      simp
    · simpa using hline
    · intro l hl c hc
      have hall : ∀ c ∈ l, isWhite c = true := by simpa using hnewer l (List.mem_reverse.mp hl)
      exact hall c hc

namespace IsLast

variable {t line : Text} {older newer : List Text} (h : t.IsLast older line newer)
include h

theorem start_eq :
    t.lastLineSpan.start = byteLength older.flatten + byteLength (line.takeWhile isWhite) := by
  obtain ⟨p, e, hpe, hp, he⟩ := exists_of_mem_lines (show line ∈ t.lines by rw [h.lines]; simp)
  have hwhite : ∃ c ∈ p, isWhite c = false := by
    obtain ⟨c, hc, hc'⟩ := h.line
    rw [hpe, List.mem_append] at hc
    refine ⟨c, hc.resolve_right fun hmem => ?_, hc'⟩
    rw [he c hmem] at hc'
    cases hc'
  have hrest : ∀ c ∈ e ++ newer.flatten, isWhite c = true := by
    intro c hc
    rcases List.mem_append.mp hc with hc | hc
    · exact he c hc
    · obtain ⟨l, hl, hcl⟩ := List.mem_flatten.mp hc
      exact h.newer l hl c hcl
  have holder : older.flatten = [] ∨ ∃ q, older.flatten = q ++ ['\n'] :=
    (flatten_older h.lines).imp_left fun hnil => by rw [hnil]; rfl
  have hstart := start_lastLineSpan holder hp hwhite hrest
  have ht := eq_of_lines h.lines
  rw [hpe, List.append_assoc] at ht
  rw [ht, hstart, hpe, takeWhile_append_of_exists hwhite]

theorem exists_front : ∃ front rest, t = front ++ rest ∧
    t.lastLineSpan.start = byteLength front ∧ ∀ c ∈ front.getLast?, isWhite c = true := by
  refine ⟨older.flatten ++ line.takeWhile isWhite, line.dropWhile isWhite ++ newer.flatten, ?_, ?_, ?_⟩
  · rw [List.append_assoc, ← List.append_assoc (line.takeWhile isWhite),
      List.takeWhile_append_dropWhile]
    exact eq_of_lines h.lines
  · rw [h.start_eq, byteLength_append]
  · intro c hc
    rw [List.getLast?_append, Option.mem_def, Option.or_eq_some_iff] at hc
    rcases hc with hc | ⟨-, hc⟩
    · exact List.mem_takeWhile_imp (List.mem_of_getLast? hc)
    · rcases flatten_older h.lines with hnil | ⟨q, hq⟩
      · simp [hnil] at hc
      · rw [hq, List.getLast?_concat, Option.some_inj] at hc
        rw [← hc]
        decide

end IsLast

end PipelineDoc.Text
