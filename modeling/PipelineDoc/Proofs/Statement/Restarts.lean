import PipelineDoc.Proofs.Lexical.Search
import PipelineDoc.Proofs.Statement.Recognizers

/-!
# Reading on in code

A search that goes on from an offset reads the text as if it started there. Where a reader of the
whole text is in code at the offset, nothing is lost by that: the labels are those of the whole
text, and the search finds the first keyword of the rest. The search for the calls of a line goes on
after each word `run`, and after each call, so it reports every call that starts in code and not
inside one already reported (`mem_lineCalls_iff`). Main statement: `restart_in_code`.
-/

namespace PipelineDoc

open Cursor

theorem start_lt_stop_of_mem_lineCalls {line : Text} {q : Call} (h : q ∈ line.lineCalls) :
    q.start < q.stop := by
  obtain ⟨p, f, rest, -, -, -, rfl, -⟩ := exists_of_mem_lineCalls h
  exact Nat.lt_add_of_pos_right (Text.byteLength_pos (List.length_pos_iff.mp f.length_text_pos))

theorem wordAt_of_mem_lineCalls {line : Text} {q : Call} (h : q ∈ line.lineCalls) :
    line.WordAt runWord q.start ∧ line.readCall q.start = .ok (some q) := by
  obtain ⟨p, f, rest, rfl, hread, hb, rfl, hclear, hcode⟩ := exists_of_mem_lineCalls h
  obtain ⟨r, htext, hw, -, -⟩ := CallForm.exists_of_read? hread
  constructor
  · rw [htext, CallHead.text_of_binding_eq_none hb] at hcode ⊢
    simp only [RunHead.text, List.append_assoc] at hcode ⊢
    refine Text.wordAt_iff.mpr ⟨p, _, rfl, rfl, hcode, ?_, isClear_of_isWritten hw.run _⟩
    rwa [Option.or_none]
  · refine (Text.readCall_append p (f.text ++ rest)).trans ?_
    rw [call?, hread]
    rfl

theorem mem_lineCalls_or_inside {line : Text} {i : Nat} {c : Call} (hword : line.WordAt runWord i)
    (hread : line.readCall i = .ok (some c)) :
    c ∈ line.lineCalls ∨ ∃ q ∈ line.lineCalls, q.start < i ∧ i < q.stop := by
  obtain ⟨p, s, rfl, rfl, hcode, hclear, -⟩ := Text.wordAt_iff.mp hword
  rw [Option.or_none] at hclear
  simp only [Text.readCall_append, call?, Except.ok.injEq, Option.map_eq_some_iff, Prod.exists]
    at hread
  obtain ⟨f, rest, hform, rfl⟩ := hread
  obtain ⟨r, htext, hw, -, -⟩ := CallForm.exists_of_read? hform
  rw [CallHead.text_of_binding_eq_none (CallForm.binding_eq_none hform)] at htext
  rw [htext] at hcode hform ⊢
  rcases lineCall_or_inside hw.run hcode hclear with
    ⟨g, rest', hg, -, hmem⟩ | ⟨b, g, rest', u, w, -, -, hmem, hin, rfl, -⟩
  · rw [hform, Option.some.injEq, Prod.mk.injEq] at hg
    obtain ⟨rfl, -⟩ := hg
    exact Or.inl hmem
  · refine Or.inr ⟨_, hmem, ?_, ?_⟩
    · have hhead := g.head.byteLength_text
      simp only [CallForm.place, Text.byteLength_append]
      omega
    · simp only [CallForm.place, g.byteLength_text hin, Text.byteLength_append]
      omega

/-- **The calls of a line** are those that can be read at a word `run` in code, except inside a call
of the line. -/
theorem mem_lineCalls_iff {line : Text} {c : Call} : c ∈ line.lineCalls ↔
    ∃ i, line.WordAt runWord i ∧ line.readCall i = .ok (some c) ∧
      ∀ q ∈ line.lineCalls, ¬ (q.start < i ∧ i < q.stop) := by
  constructor
  · intro hc
    obtain ⟨hword, hread⟩ := wordAt_of_mem_lineCalls hc
    refine ⟨c.start, hword, hread, ?_⟩
    rintro q hq ⟨hstart, hstop⟩
    have hpos := start_lt_stop_of_mem_lineCalls hc
    rcases eq_or_or_of_pairwise line.pairwise_lineCalls hq hc with rfl | hbefore | hafter <;> omega
  · rintro ⟨i, hword, hread, houtside⟩
    refine (mem_lineCalls_or_inside hword hread).resolve_right ?_
    rintro ⟨q, hq, hin⟩
    exact houtside q hq hin

/-- From an offset where a reader of the whole text is in code, reading from code on gives the
labels of the whole text, and a search for keywords that are not empty finds the first place at or
after the offset where one of them stands, with the first keyword of the list that does. It finds
none exactly if there is no such place. So the calls of a line come one after the other, and they
are exactly those that can be read at a word `run` in code, but for the words inside a call of the
line. -/
theorem Text.restart_in_code (t : Text) :
    (∀ start, t.stateAt start = .start →
      State.start.labels (t.bytes.drop start) = t.byteLabels.drop start ∧
      (∀ front rest, t.splitAt? start = some (front, rest) →
        rest.byteLabels = t.byteLabels.drop start) ∧
      ∀ keywords, (∀ word ∈ keywords, word ≠ []) →
        (∀ i word, t.nextKeyword keywords start = .ok (some (i, word)) ↔
          t.IsFirstWord keywords start i word) ∧
        (t.nextKeyword keywords start = .ok none ↔
          ∀ i, start ≤ i → ∀ word ∈ keywords, ¬ t.WordAt word i)) ∧
    t.lineCalls.Pairwise (fun q r => q.stop ≤ r.start) ∧
    (∀ q ∈ t.lineCalls, q.start < q.stop) ∧
    ∀ c, c ∈ t.lineCalls ↔ ∃ i, t.WordAt runWord i ∧ t.readCall i = .ok (some c) ∧
      ∀ q ∈ t.lineCalls, ¬ (q.start < i ∧ i < q.stop) := by
  refine ⟨fun start hstart => ?_, t.pairwise_lineCalls, fun q => start_lt_stop_of_mem_lineCalls,
    fun c => mem_lineCalls_iff⟩
  have hlabels : State.start.labels (t.bytes.drop start) = t.byteLabels.drop start := by
    rw [← labels_stateAt, hstart]
  refine ⟨hlabels, ?_, fun keywords hkeywords => ⟨fun i word => ?_, ?_⟩⟩
  · intro front rest hsplit
    obtain ⟨rfl, rfl⟩ := splitAt?_eq_some_iff.mp hsplit
    rw [← hlabels, bytes_append, ← length_bytes, List.drop_left]
    exact byteLabels_eq_labels_bytes rest
  · exact nextKeyword_eq_some_iff hstart hkeywords
  · exact nextKeyword_eq_none_iff hstart hkeywords

/-- A search from inside the first character, past a word in a string, and a call after one that has
a word `run` in its arguments. -/
theorem Text.restart_in_code_inside_character :
    let t : Text := "é \"run\" run a(run b(x)) run c(".toList
    t.stateAt 1 = .start ∧ State.start.labels (t.bytes.drop 1) = t.byteLabels.drop 1 ∧
      t.IsFirstWord [runWord] 1 9 runWord ∧ t.WordAt runWord 15 ∧
      ∃ c, t.readCall 25 = .ok (some c) ∧ c ∈ t.lineCalls := by
  intro t
  have hstart : t.stateAt 1 = .start := by decide +kernel
  obtain ⟨hrestart, -, -, hcalls⟩ := restart_in_code t
  obtain ⟨hlabels, -, hsearch⟩ := hrestart 1 hstart
  have hfound : t.nextKeyword [runWord] 1 = .ok (some (9, runWord)) := by rfl
  refine ⟨hstart, hlabels, ((hsearch [runWord] (by simp [runWord])).1 9 runWord).mp hfound,
    by decide +kernel, ?_⟩
  obtain ⟨c, hread⟩ : ∃ c, t.readCall 25 = .ok (some c) := ⟨_, by rfl⟩
  exact ⟨c, hread, (hcalls c).mpr ⟨25, by decide +kernel, hread, by decide +kernel⟩⟩

/-- From inside a string the search takes a word for code that is none. -/
example : Text.nextKeyword "\"run\"".toList [runWord] 1 = .ok (some (1, runWord)) ∧
    ¬ Text.WordAt "\"run\"".toList runWord 1 := ⟨rfl, by decide +kernel⟩

end PipelineDoc
