import PipelineDoc.Analysis
import PipelineDoc.Proofs.Declaration.Places
import PipelineDoc.Proofs.Review.PlainLines
import PipelineDoc.Proofs.Text.Lines

/-!
# Names that nothing binds

A pipeline calls a module with a name as its argument, once as it stands and once after a line that
binds the name. With the binding there is nothing to report. Without it the name is reported as
unknown where it stands, unless it starts with a numeric character: there are such characters that
may start a word, so the name can be bound, but in arguments they start a numeral. Main statement:
`unboundName_diagnostics`; a name that is not reported: `unboundName_unreported`.
-/

namespace PipelineDoc

/-! ### The references of a name -/

/-- What a name at the front of arguments refers to: to nothing if it is read as a numeral or is a
literal word. -/
def nameReferences (v : Text) : List Reference :=
  if v.head?.any isNumeric || literalWords.contains v then [] else [⟨v, .ofLength 0 v.byteLength⟩]

theorem IsIdentifier.referenceToken?_eq {v : Text} (hv : IsIdentifier v) :
    referenceToken? 0 none v = some (nameReferences v, v.byteLength) := by
  rw [referenceToken?, argumentToken?, nameReferences]
  cases hnum : v.head?.any isNumeric with
  | true =>
    have hall : v.takeWhile (fun c => isWordChar c || c == '.') = v :=
      List.takeWhile_eq_self_iff.mpr fun c hc => by rw [hv.2 c hc, Bool.true_or]
    simp [hall]
  | false =>
    have hend : ([] : Text).head?.all (fun c => !isWordChar c && c != '.') = true := rfl
    have hpath := path?_append (.identifier hv) hend
    have href : isReference none v [] = !literalWords.contains v := by
      rw [isReference, hv.pathRoot_eq]
      rfl
    rw [List.append_nil] at hpath
    rw [if_neg (by simp), hpath]
    simp only [Option.map_some, href, Bool.false_or, Span.stop_ofLength, Nat.zero_add]
    cases literalWords.contains v <;> rfl

theorem IsIdentifier.references_eq {v : Text} (hv : IsIdentifier v) :
    v.references = nameReferences v := by
  have htoken := hv.referenceToken?_eq
  rw [← Nat.zero_add v.byteLength] at htoken
  obtain ⟨c, cs, rfl⟩ := List.exists_cons_of_ne_nil hv.ne_nil
  have hinert := isInert_of_isPlain (isPlain_of_isWordChar (hv.2 c List.mem_cons_self))
  have hlabel : ((Mode.code.run [] (some c)).step c cs.head?).1 = .code := by
    rw [Mode.run_nil, Mode.step_inert hinert]
  have htake := tokensAfter_take (p := []) hlabel htoken (List.append_nil _).symm hv.ne_nil
  rw [Text.references, referencesFrom_eq]
  exact htake.trans (List.append_nil _)

/-! ### Documents with one pipeline -/

/-- The opening of the documents: an empty module `m`, and a pipeline `p`. -/
def pipelineOpening : Text := "module \"m\" \x7b\x7d\npipeline \"p\" \x7b".toList

/-- The document with an empty module `m` and a pipeline `p`, whose body has the given lines. -/
def pipelineDocument (lines : List Text) : Text :=
  ['\n'].intercalate (pipelineOpening :: lines ++ [['}']])

/-- The text between the braces of the pipeline. -/
def bodyOf (lines : List Text) : Text := '\n' :: lines.flatMap (· ++ ['\n'])

theorem pipelineDocument_eq (lines : List Text) :
    pipelineDocument lines = pipelineOpening ++ (bodyOf lines ++ ['}']) := by
  have hlines : ∀ first : Text, ['\n'].intercalate (first :: lines ++ [['}']]) =
      first ++ (bodyOf lines ++ ['}']) := by
    induction lines with
    | nil =>
      intro first
      simp [bodyOf, List.intercalate]
    | cons line lines ih =>
      intro first
      rw [List.cons_append, List.cons_append, List.intercalate_cons_cons, ← List.cons_append, ih]
      simp [bodyOf]
  exact hlines pipelineOpening

theorem lines_bodyOf {lines : List Text} (h : ∀ line ∈ lines, '\n' ∉ line) :
    (bodyOf lines).lines = ['\n'] :: lines.map (· ++ ['\n']) := by
  rw [bodyOf, Text.lines_cons_newline]
  congr 1
  induction lines with
  | nil => rfl
  | cons line lines ih =>
    have hline := h line List.mem_cons_self
    rw [List.flatMap_cons, List.append_assoc, List.singleton_append,
      Text.lines_append_newline hline, ih fun l hl => h l (List.mem_cons_of_mem _ hl), List.map_cons]

section

variable {lines : List Text} (hplain : ∀ line ∈ lines, ∀ c ∈ line, isPlain c = true)
include hplain

theorem isPlain_bodyOf : ∀ c ∈ bodyOf lines, isPlain c = true := by
  intro c hc
  simp only [bodyOf, List.mem_cons, List.mem_flatMap, List.mem_append, List.not_mem_nil,
    or_false] at hc
  rcases hc with rfl | ⟨line, hline, hc | rfl⟩
  · decide
  · exact hplain line hline c hc
  · decide

theorem headers_pipelineDocument : (pipelineDocument lines).headers =
    [.accepted ⟨.module, ['m'], .ofLength 8 1, .ofLength 0 6, .ofLength 12 0⟩,
      .accepted ⟨.pipeline, ['p'], .ofLength 24 1, .ofLength 14 8,
        .ofLength 28 (bodyOf lines).byteLength⟩] := by
  have hinside : Bracket.brace.inside? (bodyOf lines ++ ['}']) = some (bodyOf lines, []) := by
    have hbody := isPlain_bodyOf hplain
    obtain ⟨ho, hc⟩ := brace_not_mem_plain hbody
    exact Bracket.inside?_inert .brace (isInert_of_plain hbody) ho hc []
  have hmodule : DeclarationForm.read (pipelineOpening.drop 6 ++ (bodyOf lines ++ ['}'])) =
      .ok (⟨⟨[' '], ['m'], [' ']⟩, []⟩, pipelineOpening.drop 13 ++ (bodyOf lines ++ ['}'])) := rfl
  have hpipeline : DeclarationForm.read (pipelineOpening.drop 22 ++ (bodyOf lines ++ ['}'])) =
      .ok (⟨⟨[' '], ['p'], [' ']⟩, bodyOf lines⟩, []) :=
    DeclarationForm.read_eq_ok_iff.mpr ⟨_, rfl, hinside⟩
  rw [Text.headers, pipelineDocument_eq]
  rw [headersFrom_of_ok (f := ⟨[], .module, _⟩) rfl hmodule]
  rw [headersFrom_of_ok (f := ⟨['\n'], .pipeline, _⟩) rfl hpipeline, headersFrom_of_none rfl]
  rfl

theorem codeBraces_pipelineDocument : (pipelineDocument lines).codeBraces = (2, 2) := by
  have hbody := isPlain_bodyOf hplain
  have htail : Mode.code.codeChars (bodyOf lines ++ ['}']) none = bodyOf lines ++ ['}'] := by
    rw [← Text.codeChars_eq]
    have hbrace : ∀ c ∈ ['}'], isInert c = true := List.all_eq_true.mp (by decide)
    exact Text.codeChars_inert (List.forall_mem_append.mpr ⟨isInert_of_plain hbody, hbrace⟩)
  have hchars : (pipelineDocument lines).codeChars =
      Mode.code.codeChars pipelineOpening (some '\n') ++ (bodyOf lines ++ ['}']) := by
    rw [Text.codeChars_eq, pipelineDocument_eq, Mode.codeChars_append]
    exact congrArg (Mode.code.codeChars pipelineOpening (some '\n') ++ ·) htail
  obtain ⟨ho, hc⟩ := brace_not_mem_plain hbody
  rw [Text.codeBraces, hchars]
  simp only [List.count_append, List.count_eq_zero_of_not_mem ho, List.count_eq_zero_of_not_mem hc]
  rfl

theorem emitted_pipelineDocument (hnewline : ∀ line ∈ lines, '\n' ∉ line) (extra : List Text) :
    (pipelineDocument lines).emitted extra =
      lineFindings (standardModules ++ extra ++ [['m']]) ['p'] 29 0 .initial
        (lines.map (· ++ ['\n'])) := by
  have hheaders := headers_pipelineDocument hplain
  have hdeclarations : (pipelineDocument lines).declarations = _ :=
    congrArg (List.filterMap Header.declaration?) hheaders
  have hrejections : (pipelineDocument lines).rejections = [] :=
    congrArg (List.filterMap Header.rejection?) hheaders
  have hbraces : braceFindings (pipelineDocument lines) = [] := by
    rw [braceFindings, codeBraces_pipelineDocument hplain]
    rfl
  have hcontent : (pipelineDocument lines).slice (.ofLength 28 (bodyOf lines).byteLength) =
      bodyOf lines := by
    rw [pipelineDocument_eq]
    exact Text.slice_of_slice? (Text.slice?_append pipelineOpening (bodyOf lines) ['}'])
  have hempty : Text.lineCalls ['\n'] = [] := by
    rw [Text.lineCalls, lineCallsFrom]
    rfl
  rw [Text.emitted, hbraces, nameFindings, hrejections, Text.knownModules, hdeclarations]
  show lineFindings _ ['p'] 28 0 .initial
    ((pipelineDocument lines).slice (.ofLength 28 (bodyOf lines).byteLength)).lines ++ [] = _
  rw [List.append_nil, hcontent, lines_bodyOf hnewline,
    lineFindings_plain (List.all_eq_true.mp (by decide)), hempty]
  rfl

end

/-! ### A line that uses a name and a line that binds it -/

/-- The line `  run m(v)`. -/
def useLine (v : Text) : Text := "  run m(".toList ++ (v ++ [')'])

/-- The line `  let v = run m(input.x)`. -/
def bindLine (v : Text) : Text := "  let ".toList ++ (v ++ " = run m(input.x)".toList)

theorem isWritten_run_m : RunHead.IsWritten ⟨[' '], ['m'], []⟩ :=
  ⟨by decide, List.all_eq_true.mp (by decide), .identifier (by decide), by simp⟩

theorem afterLine_useLine (scope : Scope) (v : Text) :
    scope.afterLine (useLine v ++ ['\n']) = scope := rfl

theorem findings_input {scope : Scope} (hscope : scope.binds inputWord = true) (pipeline : Text)
    (offset : Nat) : (Text.references "input.x".toList).filterMap
      (referenceFinding? scope pipeline offset) = [] := by
  have hreferences : Text.references "input.x".toList = [⟨"input.x".toList, .ofLength 0 7⟩] := by
    decide +kernel
  have hroot : Reference.root ⟨"input.x".toList, .ofLength 0 7⟩ = inputWord := by decide
  rw [hreferences, List.filterMap_cons, referenceFinding?, hroot, if_pos hscope]
  rfl

namespace IsIdentifier

variable {v : Text} (hv : IsIdentifier v)
include hv

theorem all_isPlain : ∀ c ∈ v, isPlain c = true := fun c hc =>
  isPlain_of_isWordChar (hv.2 c hc)

theorem not_mem {c : Char} (hc : isWordChar c = false) : c ∉ v := fun h =>
  absurd (hv.2 c h) (by simp [hc])

/-- The line that uses a name has one call. -/
def useCall : CallLine where
  front := [' ', ' ']
  head := ⟨[' '], ['m'], []⟩
  inside := v
  rest := ['\n']
  isWritten := isWritten_run_m
  isClear_front := rfl
  plain := by
    simp only [List.forall_mem_append]
    exact ⟨List.all_eq_true.mp (by decide), List.all_eq_true.mp (by decide), hv.all_isPlain,
      List.all_eq_true.mp (by decide)⟩
  opener_not_mem := by
    simp only [List.mem_append, not_or]
    exact ⟨by decide, hv.not_mem (by decide), by decide⟩
  closer_not_mem := hv.not_mem (by decide)

/-- The line that binds a name has one call. -/
def bindCall : CallLine where
  front := "  let ".toList ++ (v ++ " = ".toList)
  head := ⟨[' '], ['m'], []⟩
  inside := "input.x".toList
  rest := ['\n']
  isWritten := isWritten_run_m
  isClear_front := by
    rw [← List.append_assoc, getLast?_append_of_ne_nil _ (by decide)]
    rfl
  plain := by
    simp only [List.forall_mem_append]
    exact ⟨⟨List.all_eq_true.mp (by decide), hv.all_isPlain, List.all_eq_true.mp (by decide)⟩,
      List.all_eq_true.mp (by decide), List.all_eq_true.mp (by decide),
      List.all_eq_true.mp (by decide)⟩
  opener_not_mem := by
    simp only [List.mem_append, not_or]
    exact ⟨⟨by decide, hv.not_mem (by decide), by decide⟩, by decide, by decide⟩
  closer_not_mem := by decide

theorem text_useCall : hv.useCall.text = useLine v ++ ['\n'] := by
  unfold CallLine.text useCall useLine
  simp only [List.append_assoc]
  rfl

theorem text_bindCall : hv.bindCall.text = bindLine v ++ ['\n'] := by
  unfold CallLine.text bindCall bindLine
  simp only [List.append_assoc]
  rfl

theorem afterLine_bindLine (scope : Scope) :
    scope.afterLine (bindLine v ++ ['\n']) = scope.bind v := by
  have hblank : ∀ c ∈ [' '], isBlank c = true := List.all_eq_true.mp (by decide)
  have hwritten : LetHead.IsWritten ⟨[' '], v, [' ']⟩ := ⟨by simp, hblank, hv, hblank⟩
  have htext : (bindLine v ++ ['\n']).trimStart =
      LetHead.text ⟨[' '], v, [' ']⟩ ++ " run m(input.x)\n".toList := by
    unfold bindLine LetHead.text
    simp only [List.append_assoc]
    rfl
  rw [Scope.afterLine, Text.binding?, LetHead.read?_eq_some_iff.mpr ⟨htext, hwritten⟩]
  rfl

theorem isPlain_lines : ∀ line ∈ [bindLine v, useLine v], ∀ c ∈ line, isPlain c = true := by
  have huse := hv.useCall.plain
  have hbind := hv.bindCall.plain
  rw [← CallLine.text, text_useCall] at huse
  rw [← CallLine.text, text_bindCall] at hbind
  simp only [List.forall_mem_cons, List.forall_mem_append] at huse hbind ⊢
  exact ⟨hbind.1, huse.1, by simp⟩

theorem newline_not_mem_lines : ∀ line ∈ [bindLine v, useLine v], '\n' ∉ line := by
  have hname : '\n' ∉ v := hv.not_mem (by decide)
  unfold bindLine useLine
  simp only [List.forall_mem_cons, List.mem_append, not_or]
  exact ⟨⟨by decide, hname, by decide⟩, ⟨by decide, hname, by decide⟩, by simp⟩

theorem findings_name (scope : Scope) (pipeline : Text) (offset : Nat) :
    v.references.filterMap (referenceFinding? scope pipeline offset) =
      if v.head?.any isNumeric || literalWords.contains v || scope.binds v then []
      else [.unknownVariable v pipeline (.ofLength offset v.byteLength)] := by
  have hfinding : referenceFinding? scope pipeline offset ⟨v, .ofLength 0 v.byteLength⟩ =
      if scope.binds v then none
      else some (.unknownVariable v pipeline (.ofLength offset v.byteLength)) := by
    rw [referenceFinding?, Reference.rootSpan, Reference.root, hv.pathRoot_eq, Span.start_ofLength,
      Span.shift_ofLength, Nat.add_zero]
  rw [hv.references_eq, nameReferences]
  cases v.head?.any isNumeric || literalWords.contains v with
  | true => rfl
  | false =>
    rw [Bool.false_or, if_neg (by simp), List.filterMap_cons, hfinding]
    cases scope.binds v <;> rfl

theorem emitted_use (extra : List Text) :
    (pipelineDocument [useLine v]).emitted extra =
      if v.head?.any isNumeric || literalWords.contains v || Scope.initial.binds v then []
      else [.unknownVariable v ['p'] (.ofLength 37 v.byteLength)] := by
  have hplain : ∀ line ∈ [useLine v], ∀ c ∈ line, isPlain c = true :=
    fun line hline => hv.isPlain_lines line (List.mem_cons_of_mem _ hline)
  have hnewline : ∀ line ∈ [useLine v], '\n' ∉ line :=
    fun line hline => hv.newline_not_mem_lines line (List.mem_cons_of_mem _ hline)
  have hknown : ['m'] ∈ standardModules ++ extra ++ [['m']] := by simp
  rw [emitted_pipelineDocument hplain hnewline, List.map_singleton, ← hv.text_useCall,
    hv.useCall.lineFindings_cons hknown, hv.text_useCall, afterLine_useLine, lineFindings,
    List.append_nil]
  exact hv.findings_name .initial ['p'] 37

theorem emitted_bind_use (extra : List Text) :
    (pipelineDocument [bindLine v, useLine v]).emitted extra = [] := by
  have hknown : ['m'] ∈ standardModules ++ extra ++ [['m']] := by simp
  have hinput : (Scope.initial.bind v).binds inputWord = true := by
    simp [Scope.bind, Scope.binds, Scope.initial]
  have hname : (Scope.initial.bind v).binds v = true := by simp [Scope.bind, Scope.binds]
  rw [emitted_pipelineDocument hv.isPlain_lines hv.newline_not_mem_lines, List.map_cons,
    List.map_singleton, ← hv.text_bindCall, hv.bindCall.lineFindings_cons hknown, hv.text_bindCall,
    hv.afterLine_bindLine, ← hv.text_useCall, hv.useCall.lineFindings_cons hknown, hv.text_useCall,
    afterLine_useLine, lineFindings, List.append_nil]
  refine List.append_eq_nil_iff.mpr ⟨findings_input hinput ['p'] _, ?_⟩
  exact (hv.findings_name _ ['p'] _).trans (if_pos (by rw [hname, Bool.or_true]))

end IsIdentifier

/-- **Names that nothing binds.** A name in the arguments of a call is reported where it stands, and
is the only thing reported, unless it starts with a numeric character. Bound on the line before, it
is not reported. -/
theorem unboundName_diagnostics (v : Text) (hname : identifier? v = some (v, []))
    (hreserved : v ∉ inputWord :: literalWords) (active : Option Text) :
    (({} : Settings).analyze (pipelineDocument [useLine v]) active).diagnostics =
      (if v.head?.any isNumeric then []
      else [(Finding.unknownVariable v ['p'] (.ofLength 37 v.byteLength)).diagnostic]) ∧
    (pipelineDocument [useLine v]).slice? (.ofLength 37 v.byteLength) = some v ∧
    (({} : Settings).analyze (pipelineDocument [bindLine v, useLine v]) active).diagnostics = [] := by
  have hv := isIdentifier_of_identifier? hname
  rw [List.mem_cons, not_or] at hreserved
  have hliteral : literalWords.contains v = false := by simpa using hreserved.2
  have hinput : Scope.initial.binds v = false := by
    simpa [Scope.binds, Scope.initial] using hreserved.1
  refine ⟨?_, ?_, ?_⟩
  · show Text.diagnose _ [] = _
    rw [Text.diagnose, Text.findings, hv.emitted_use, hliteral, hinput, Bool.or_false, Bool.or_false]
    cases v.head?.any isNumeric with
    | true => rw [if_pos rfl, if_pos rfl, List.mergeSort_nil, List.map_nil]
    | false =>
      rw [if_neg Bool.false_ne_true, if_neg Bool.false_ne_true, List.mergeSort_singleton,
        List.map_singleton]
  · have hfront : pipelineDocument [useLine v] =
        (pipelineOpening ++ "\n  run m(".toList) ++ (v ++ ")\n\x7d".toList) := by
      rw [pipelineDocument_eq]
      unfold bodyOf useLine
      simp only [List.flatMap_singleton, List.append_assoc, List.cons_append]
      rfl
    rw [hfront]
    exact Text.slice?_append (pipelineOpening ++ "\n  run m(".toList) v _
  · show Text.diagnose _ [] = _
    rw [Text.diagnose, Text.findings, hv.emitted_bind_use, List.mergeSort_nil, List.map_nil]

/-- The word `run` is a name like others. -/
theorem unboundName_diagnostics_run :
    identifier? runWord = some (runWord, []) ∧ runWord ∉ inputWord :: literalWords ∧
      (({} : Settings).analyze (pipelineDocument [useLine runWord]) none).diagnostics =
        [(Finding.unknownVariable runWord ['p'] (.ofLength 37 3)).diagnostic] ∧
      (({} : Settings).analyze (pipelineDocument [bindLine runWord, useLine runWord])
        none).diagnostics = [] := by
  have hname : identifier? runWord = some (runWord, []) := by decide
  have hreserved : runWord ∉ inputWord :: literalWords := by decide
  obtain ⟨huse, -, hbind⟩ := unboundName_diagnostics runWord hname hreserved none
  exact ⟨hname, hreserved, huse, hbind⟩

/-- **A name that is not reported**: it can be bound, but in arguments it is a numeral. -/
theorem unboundName_unreported :
    identifier? ['Ⅷ'] = some (['Ⅷ'], []) ∧ ['Ⅷ'] ∉ inputWord :: literalWords ∧
      (bindLine ['Ⅷ']).binding?.map (·.name) = some ['Ⅷ'] ∧
      (({} : Settings).analyze (pipelineDocument [useLine ['Ⅷ']]) none).diagnostics = [] := by
  exact ⟨by decide +kernel, by decide, by decide +kernel, by decide +kernel⟩

end PipelineDoc
