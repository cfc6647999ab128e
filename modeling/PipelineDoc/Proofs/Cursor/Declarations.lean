import PipelineDoc.Proofs.Cursor.Scan
import PipelineDoc.Proofs.Cursor.Statements
import PipelineDoc.Proofs.Declaration.Places

/-!
# Declarations by offsets

A cursor goes from one declaration keyword to the next, past the closing brace of a declaration or
just past a keyword that makes none. The runtime block of a module is looked for in its body, which
is cut out of the document by the span of the declaration.
-/

namespace PipelineDoc.Cursor

/-! ### Headers -/

/-- Reads on after the keyword at a span. -/
def declarationAt (t : Text) (kind : Declaration.Kind) (keywordSpan : Span) :
    Read (Except HeaderFault Declaration) := do
  let start := keywordSpan.stop
  let rest ← cutFrom t start
  match DeclarationHead.read rest with
  | .error reason => return .error reason
  | .ok (head, after) =>
    let consumed ← minus rest.byteLength after.byteLength
    let opening ← minus (start + consumed) 1
    match ← closing? t .brace opening with
    | none => return .error .unterminated
    | some closing =>
      return .ok
        { kind
          name := head.name
          nameSpan := (head.nameSpan 0).shift start
          keywordSpan
          body := .ofEnds (opening + 1) closing }

/-- The headers of a document from an offset on, in a bounded number of rounds. -/
def headersFrom (t : Text) : (rounds : Nat) → (cursor : Nat) → Read (List Header)
  | 0, _ => .error .endless
  | rounds + 1, cursor => do
    match ← findWord? Declaration.Kind.keyword Declaration.Kind.all t cursor with
    | none => return []
    | some (pos, kind) =>
      let keywordSpan := Span.ofEnds pos (pos + kind.keyword.byteLength)
      match ← declarationAt t kind keywordSpan with
      | .ok d => return .accepted d :: (← headersFrom t rounds (d.body.stop + 1))
      | .error reason =>
        return .rejected ⟨kind, keywordSpan, reason⟩ :: (← headersFrom t rounds keywordSpan.stop)

/-- What became of each declaration keyword of a document. -/
def headers (t : Text) : Read (List Header) := headersFrom t (t.byteLength + 1) 0

/-- A declaration head ends with its brace. -/
theorem exists_declarationHead_text (h : DeclarationHead) :
    ∃ front, h.text = front ++ [Bracket.brace.opener] :=
  ⟨h.pad ++ ('"' :: (h.name ++ ('"' :: h.gap))), by simp [DeclarationHead.text, Bracket.opener]⟩

theorem declarationAt_eq (p s : Text) (kind : Declaration.Kind) :
    declarationAt (p ++ (kind.keyword ++ s)) kind
        (.ofLength p.byteLength kind.keyword.byteLength) =
      .ok (match DeclarationForm.read s with
        | .ok (form, _) => .ok (form.place kind p.byteLength)
        | .error reason => .error reason) := by
  have hcut := cutFrom_append (p ++ kind.keyword) s
  rw [List.append_assoc, Text.byteLength_append] at hcut
  rw [declarationAt, Span.stop_ofLength, hcut, ok_bind, DeclarationForm.read]
  cases hread : DeclarationHead.read s with
  | error reason => rfl
  | ok r =>
    obtain ⟨head, after⟩ := r
    have hs := DeclarationHead.eq_of_read hread
    obtain ⟨front, hfront⟩ := exists_declarationHead_text head
    have hlen : head.text.byteLength = front.byteLength + 1 := by
      rw [hfront, Text.byteLength_append]
      rfl
    have hsum : s.byteLength = head.text.byteLength + after.byteLength := by
      rw [hs, Text.byteLength_append]
    have hclose := closing?_eq .brace (p ++ kind.keyword ++ front) after
    rw [show (p ++ kind.keyword ++ front) ++ Bracket.brace.opener :: after =
        p ++ (kind.keyword ++ s) by rw [hs, hfront]; simp, Text.byteLength_append,
      Text.byteLength_append] at hclose
    simp only
    rw [minus_eq (by omega), ok_bind, minus_eq (by omega), ok_bind,
      show p.byteLength + kind.keyword.byteLength + (s.byteLength - after.byteLength) - 1 =
        p.byteLength + kind.keyword.byteLength + front.byteLength by omega, hclose, ok_bind]
    cases Bracket.brace.inside? after with
    | none => rfl
    | some r =>
      simp only [Option.map_some, DeclarationForm.place, DeclarationHead.nameSpan, Span.ofEnds_add,
        Span.shift_ofLength, hlen, Nat.zero_add, ← Nat.add_assoc]
      rfl

theorem isPlain_keyword : ∀ kind ∈ Declaration.Kind.all, IsPlain kind.keyword := by decide

/-- The cursor after a declaration stands just past its closing brace. -/
theorem stop_body_place (form : DeclarationForm) (kind : Declaration.Kind) (offset : Nat) :
    (form.place kind offset).body.stop + 1 =
      offset + kind.keyword.byteLength + form.text.byteLength := by
  simp only [DeclarationForm.place, DeclarationForm.text, Span.stop_ofLength, Text.byteLength_append]
  rw [show Text.byteLength [Bracket.brace.closer] = 1 from rfl]
  omega

theorem headersFrom_eq (p s : Text) {rounds : Nat} (h : s.byteLength < rounds) :
    headersFrom (p ++ s) rounds p.byteLength =
      .ok (PipelineDoc.headersFrom p.byteLength p.getLast? s) := by
  induction rounds generalizing p s with
  | zero => omega
  | succ rounds ih =>
    rw [headersFrom, findWord?_eq isPlain_keyword, ok_bind, headersFrom_unfold]
    cases hfind : PipelineDoc.findWord? Declaration.Kind.keyword Declaration.Kind.all p.getLast? .code
        s with
    | none => rfl
    | some f =>
      have hs := eq_of_findWord? hfind
      have hkey : f.key.keyword ≠ [] := List.length_pos_iff.mp f.key.length_keyword_pos
      have hkpos := Text.byteLength_pos hkey
      have hsplit : p ++ s = (p ++ f.before) ++ (f.key.keyword ++ f.after) := by rw [hs]; simp
      have hlen : (p ++ f.before : Text).byteLength = p.byteLength + f.before.byteLength :=
        Text.byteLength_append _ _
      have hsum := congrArg Text.byteLength hs
      simp only [Text.byteLength_append] at hsum
      -- both readings go on after the same part of the text
      have next : ∀ m rest : Text, f.after = m ++ rest →
          headersFrom (p ++ s) rounds
              (p.byteLength + f.before.byteLength + f.key.keyword.byteLength + m.byteLength) =
            .ok (PipelineDoc.headersFrom
              (p.byteLength + f.before.byteLength + f.key.keyword.byteLength + m.byteLength)
              (f.key.keyword ++ m).getLast? rest) := by
        intro m rest hm
        have hrest := congrArg Text.byteLength hm
        simp only [Text.byteLength_append] at hrest
        have h := ih (p ++ f.before ++ (f.key.keyword ++ m)) rest (by omega)
        rw [getLast?_append_of_ne_nil _ (by simp [hkey]), List.append_assoc _ _ rest,
          List.append_assoc f.key.keyword, ← hm, ← hsplit] at h
        rwa [Text.byteLength_append, hlen, Text.byteLength_append, ← Nat.add_assoc] at h
      have hdecl := declarationAt_eq (p ++ f.before) f.after f.key
      rw [← hsplit, hlen] at hdecl
      simp only [Option.map_some, Span.ofEnds_add]
      rw [hdecl, ok_bind]
      cases hread : DeclarationForm.read f.after with
      | error reason =>
        have h := next [] f.after rfl
        rw [List.append_nil, Text.byteLength_nil, Nat.add_zero] at h
        simp only [Span.stop_ofLength]
        rw [h]
        rfl
      | ok r =>
        obtain ⟨form, rest⟩ := r
        have h := next form.text rest (DeclarationForm.eq_of_read hread)
        rw [getLast?_append_of_ne_nil _ (by simp [DeclarationForm.text])] at h
        simp only [stop_body_place]
        rw [h]
        rfl

theorem headers_eq (t : Text) : headers t = .ok t.headers :=
  headersFrom_eq [] t (Nat.lt_succ_self _)

/-! ### Bodies and runtime blocks -/

/-- The text of the body of a declaration. -/
def content (source : Text) (d : Declaration) : Read Text := cut source d.body.start d.body.stop

theorem content_eq {source : Text} {d : Declaration} (hd : d ∈ source.declarations) :
    content source d = .ok (d.content source) :=
  cut_of_slice? (Text.standsIn_of_mem_declarations hd).body

/-- The inside of the first runtime block of a body that stands at the offset `base`, from an offset
of the body on, in a bounded number of rounds. -/
def runtimeFrom (body : Text) (base : Nat) : (rounds : Nat) → (start : Nat) → Read (Option Span)
  | 0, _ => .error .endless
  | rounds + 1, start => do
    match ← findWord? (fun () => runtimeWord) [()] body start with
    | none => return none
    | some (pos, _) =>
      let next := pos + runtimeWord.byteLength
      let rest ← cutFrom body next
      let opening := next + (← minus rest.byteLength rest.trimStart.byteLength)
      if body.bytes[opening]? ≠ some (byteOf Bracket.brace.opener) then
        runtimeFrom body base rounds next
      else
        match ← closing? body .brace opening with
        | none => return none
        | some closing => return some ((Span.ofEnds (opening + 1) closing).shift base)

/-- The inside of the runtime block of a module. -/
def runtime? (source : Text) (d : Declaration) : Read (Option Span) :=
  match d.kind with
  | .pipeline => return none
  | .module => do
    let body ← content source d
    runtimeFrom body d.body.start (body.byteLength + 1) 0

theorem runtimeFrom_eq (p s : Text) (base : Nat) {rounds : Nat} (h : s.byteLength < rounds) :
    runtimeFrom (p ++ s) base rounds p.byteLength =
      .ok (PipelineDoc.runtimeFrom (base + p.byteLength) p.getLast? s) := by
  induction rounds generalizing p s with
  | zero => omega
  | succ rounds ih =>
    rw [runtimeFrom, findWord?_eq (by decide), ok_bind, runtimeFrom_unfold]
    cases hfind : PipelineDoc.findWord? (fun () => runtimeWord) [()] p.getLast? .code s with
    | none => rfl
    | some f =>
      have hs := eq_of_findWord? hfind
      have hword : 0 < runtimeWord.byteLength := by decide
      have hsum := congrArg Text.byteLength hs
      simp only [Text.byteLength_append] at hsum
      have hwhite := Text.byteLength_takeWhile_add_dropWhile isWhite f.after
      have hgap : f.after.byteLength - f.after.trimStart.byteLength =
          Text.byteLength (f.after.takeWhile isWhite) := by
        rw [Text.trimStart]
        omega
      -- the text up to the word, and up to what follows its blanks
      have hfront : (p ++ f.before ++ runtimeWord : Text).byteLength =
          p.byteLength + f.before.byteLength + runtimeWord.byteLength := by
        simp only [Text.byteLength_append]
      have hsplit : p ++ s = (p ++ f.before ++ runtimeWord) ++ f.after := by rw [hs]; simp
      have hsplit' : p ++ s = (p ++ f.before ++ runtimeWord ++ f.after.takeWhile isWhite) ++
          f.after.trimStart := by
        rw [List.append_assoc _ (f.after.takeWhile isWhite), Text.trimStart,
          List.takeWhile_append_dropWhile, hsplit]
      have hcut := cutFrom_append (p ++ f.before ++ runtimeWord) f.after
      rw [← hsplit, hfront] at hcut
      simp only [Option.map_some]
      rw [hcut, ok_bind, minus_eq (by rw [Text.trimStart]; omega), ok_bind, hgap]
      have hopen := Text.getElem?_bytes_eq_iff (p ++ f.before ++ runtimeWord ++
        f.after.takeWhile isWhite) f.after.trimStart (narrow_opener .brace)
      rw [← hsplit', Text.byteLength_append, hfront] at hopen
      cases hskip : f.after.trimStart.skip? [Bracket.brace.opener] with
      | none =>
        rw [if_pos]
        · have h := ih (p ++ f.before ++ runtimeWord) f.after (by omega)
          rwa [← hsplit, hfront, getLast?_append_of_ne_nil _ (by decide), ← Nat.add_assoc,
            ← Nat.add_assoc] at h
        · rw [Ne, hopen]
          intro hhead
          obtain ⟨rest, hrest⟩ : ∃ rest, f.after.trimStart = Bracket.brace.opener :: rest := by
            cases ht : f.after.trimStart with
            | nil => rw [ht] at hhead; cases hhead
            | cons c rest => rw [ht] at hhead; cases hhead; exact ⟨rest, rfl⟩
          have hsome : f.after.trimStart.skip? [Bracket.brace.opener] = some rest :=
            Text.skip?_eq_some_iff.mpr hrest
          rw [hsome] at hskip
          cases hskip
      | some rest =>
        have hrest := Text.skip?_eq_some_iff.mp hskip
        rw [if_neg (not_not_intro (hopen.mpr (by rw [hrest]; rfl)))]
        have hclose := closing?_eq .brace (p ++ f.before ++ runtimeWord ++
          f.after.takeWhile isWhite) rest
        rw [show (p ++ f.before ++ runtimeWord ++ f.after.takeWhile isWhite) ++
            Bracket.brace.opener :: rest = p ++ s by rw [hsplit', hrest]; rfl,
          Text.byteLength_append, hfront] at hclose
        rw [hclose, ok_bind]
        cases hin : Bracket.brace.inside? rest with
        | none => simp only [hin]; rfl
        | some r =>
          have hone : Text.byteLength [Bracket.brace.opener] = 1 := rfl
          simp only [hin, Option.map_some, Span.ofEnds_add, Span.shift_ofLength,
            Text.byteLength_append, hone, ← Nat.add_assoc]
          rfl

theorem runtime?_eq {source : Text} {d : Declaration} (hd : d ∈ source.declarations) :
    runtime? source d = .ok (d.runtime? source) := by
  rw [runtime?, Declaration.runtime?]
  cases d.kind with
  | pipeline => rfl
  | module =>
    simp only
    rw [content_eq hd, ok_bind]
    exact runtimeFrom_eq [] _ _ (Nat.lt_succ_self _)

end PipelineDoc.Cursor
