import Mathlib.Data.List.Forall2
import PipelineDoc.Proofs.Declaration.Keywords
import PipelineDoc.Proofs.Review.Places
import PipelineDoc.Proofs.Text.Positions

/-!
# Markers

A marker shows a diagnostic to an editor, by the positions of the ends of its primary annotation. No
pass of the review annotates a text that goes over a newline (`exists_slice_of_mem_emitted`), so a
marker stands on one line, and what is between its columns is the annotated text. Main statement:
`markers_on_lines`, together with what positions are.
-/

namespace PipelineDoc

/-! ### Annotated texts -/

theorem newline_not_mem_of_isDottedPath {t : Text} (h : IsDottedPath t) : '\n' ∉ t := by
  intro hmem
  rcases h.isWordChar_or_dot _ hmem with hword | hdot
  · exact absurd hword (by decide +kernel)
  · exact absurd hdot (by decide)

theorem newline_not_mem_name {source : Text} {d : Declaration} (hd : d ∈ source.declarations) :
    '\n' ∉ d.name := by
  obtain ⟨q, kind, form, rest, -, hread, rfl⟩ :=
    exists_form_of_mem_headersFrom [] source none (Text.mem_declarations.mp hd)
  obtain ⟨r, hhead, -⟩ := DeclarationForm.read_eq_ok_iff.mp hread
  intro hmem
  exact absurd ((DeclarationHead.chars_of_read hhead).2.1 _ hmem) (by decide)

/-- **No pass goes over a newline**: what a finding is reported at is a part of one line. -/
theorem exists_slice_of_mem_emitted {source : Text} {extra : List Text} {f : Finding}
    (hf : f ∈ source.emitted extra) :
    ∃ text, source.slice? f.span = some text ∧ '\n' ∉ text := by
  simp only [Text.emitted, List.mem_append] at hf
  rcases hf with ((hf | hf) | hf) | hf
  · obtain ⟨hne, rfl⟩ := mem_braceFindings_iff.mp hf
    obtain ⟨front, line, rest, hsource, hspan, hline, -⟩ :=
      Text.exists_lastLine (Text.exists_not_white hne)
    refine ⟨line, ?_, hline⟩
    show source.slice? source.lastLineSpan = some line
    rw [hspan, hsource]
    exact Text.slice?_append front line rest
  · obtain ⟨r, hr, rfl⟩ := exists_of_mem_nameFindings hf
    exact ⟨r.kind.keyword, Text.slice?_of_mem_rejections hr, by cases r.kind <;> decide⟩
  · obtain ⟨older, d, newer, first, hsplit, -, -, -, rfl⟩ := exists_of_mem_duplicatesAfter hf
    have hd : d ∈ source.declarations := by
      rw [← List.nil_append source.declarations, hsplit]
      simp
    exact ⟨d.name, (Text.standsIn_of_mem_declarations hd).name, newline_not_mem_name hd⟩
  · obtain ⟨d, hd, hf⟩ := List.mem_flatMap.mp hf
    have hin := pipelineFindings_isIn (List.mem_filter.mp hd).1 f hf
    cases f with
    | unknownModule name span =>
      exact ⟨name, hin.1, newline_not_mem_of_isDottedPath hin.2.2.1⟩
    | unknownVariable name pipeline span =>
      exact ⟨name, hin.1, newline_not_mem_of_isDottedPath (.identifier hin.2.2.1)⟩
    | unbalanced | unnamed | duplicate => exact hin.elim

/-! ### Markers -/

/-- A marker stands on one line of a document, and between its columns is the given text. -/
structure Marker.Covers (m : Marker) (source text : Text) : Prop where
  one_le_line : 1 ≤ m.start.line
  stop_line : m.stop.line = m.start.line
  one_le_column : 1 ≤ m.start.column
  columns : m.start.column ≤ m.stop.column
  shown : ∃ line, (source.splitOn '\n')[m.start.line - 1]? = some line ∧
    m.stop.column ≤ line.length + 1 ∧
    (line.drop (m.start.column - 1)).take (m.stop.column - m.start.column) = text

/-- **A text without a newline** is what is between the columns of its ends. -/
theorem Diagnostic.marker_covers {d : Diagnostic} {source text : Text} {s : Span}
    (hspan : d.span? = some s) (hslice : source.slice? s = some text) (hnewline : '\n' ∉ text) :
    (d.marker source).Covers source text := by
  obtain ⟨p, q, rfl, hp, hlen⟩ := Text.slice?_eq_some_iff.mp hslice
  -- the text belongs to the line of what stands before and after it
  obtain ⟨front, w, rest, after, rfl, rfl, hline⟩ := Text.exists_isLine p q
  have hwhole : Text.IsLine front (w ++ (text ++ rest)) after := by
    refine ⟨hline.front, ?_, hline.after⟩
    have := hline.line
    simp only [List.mem_append, not_or] at this ⊢
    exact ⟨this.1, hnewline, this.2⟩
  obtain rfl : s = .ofLength (Text.byteLength (front ++ w)) text.byteLength := by
    have := s.start_le_stop
    rw [Span.length] at hlen
    exact Span.ext hp.symm (by rw [Span.stop_ofLength]; omega)
  have hrange := Text.range_of_isLine hwhole
  rw [Diagnostic.marker, hspan, Option.getD_some, hrange]
  refine ⟨Nat.le_add_left _ _, rfl, Nat.le_add_left _ _, ?_, w ++ (text ++ rest), ?_, ?_, ?_⟩
  · simp
  · exact Text.getElem?_splitOn_iff.mpr ⟨front, after, by simp, hwhole, rfl⟩
  · simp
  · simp

/-- **Positions and markers.** Along the boundaries of a document positions grow, by line and then
by column, and they are the positions on the lines between its newlines, each of them once. An
offset inside a character has the position of the character, and one past the end that of the end.
Every marker of an analysis stands on one line, and between its columns is the text under the
primary annotation of its diagnostic. -/
theorem markers_on_lines (settings : Settings) (source : Text) (active : Option Text) :
    (∀ m n, source.IsBoundary m → source.IsBoundary n → m < n →
      (source.position m).Before (source.position n)) ∧
    Set.BijOn source.position {n | source.IsBoundary n} {pos | source.HasPosition pos} ∧
    (∀ (p : Text) (c : Char) (s : Text) (k : Nat), source = p ++ c :: s → k < c.utf8Size →
      source.position (p.byteLength + k) = source.position p.byteLength) ∧
    (∀ n, source.byteLength ≤ n → source.position n = source.position source.byteLength) ∧
    List.Forall₂ (fun d m => ∃ s text, d.span? = some s ∧ source.slice? s = some text ∧
        m.Covers source text)
      (settings.analyze source active).diagnostics (settings.analyze source active).markers := by
  refine ⟨fun m n => Text.position_before, source.position_bijOn, ?_, fun n => Text.position_of_le, ?_⟩
  · rintro p c s k rfl hk
    exact Text.position_inside p s hk
  · refine List.forall₂_map_right_iff.mpr (List.forall₂_same.mpr fun d hd => ?_)
    obtain ⟨f, hf, rfl⟩ := List.mem_map.mp hd
    obtain ⟨text, hslice, hnewline⟩ := exists_slice_of_mem_emitted (List.mem_mergeSort.mp hf)
    have hspan := f.span?_diagnostic
    exact ⟨f.span, text, hspan, hslice, Diagnostic.marker_covers hspan hslice hnewline⟩

end PipelineDoc
