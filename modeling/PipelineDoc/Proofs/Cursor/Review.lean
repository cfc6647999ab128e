import PipelineDoc.Proofs.Cursor.Declarations
import PipelineDoc.Proofs.Cursor.References
import PipelineDoc.Proofs.Statement.Places
import PipelineDoc.Review

/-!
# The review by offsets

Braces are counted over labelled bytes, the code of a line is cut off where its first comment
starts, and arguments are cut out of a line of code by their span. All offsets come from a reading
of the same text, so every cut is one of that text.
-/

namespace PipelineDoc.Cursor

/-! ### Braces -/

/-- The numbers of opening and closing braces in code. -/
def braceCounts (t : Text) : Read (Nat × Nat) := do
  let code := ((← labels t).zip t.bytes).filter fun (label, _) => label = .code
  return (code.countP fun (_, byte) => byte = byteOf '{',
    code.countP fun (_, byte) => byte = byteOf '}')

theorem countP_encode {d : Char} (hd : Narrow d) (c : Char) :
    (String.utf8EncodeChar c).countP (fun byte => decide (byte = byteOf d)) =
      if c = d then 1 else 0 := by
  split
  · next h =>
    subst h
    rw [hd.encode]
    simp
  · next h =>
    refine List.countP_eq_zero.mpr fun byte hb => ?_
    rw [decide_eq_true_eq, eq_byteOf_iff hd hb]
    exact h

theorem countP_zip_replicate (label : Label) (b : UInt8) (xs : List UInt8) :
    ((List.replicate xs.length label).zip xs).countP
        (fun r => decide (r.2 = b) && decide (r.1 = .code)) =
      if label = .code then xs.countP (fun byte => decide (byte = b)) else 0 := by
  induction xs with
  | nil => simp
  | cons x xs ih =>
    rw [List.length_cons, List.replicate_succ, List.zip_cons_cons, List.countP_cons, ih,
      List.countP_cons]
    by_cases hl : label = .code <;> simp [hl]

/-- Bytes of code that are a narrow character, counted over a text that is read from a mode on. -/
theorem countP_byteLabels {d : Char} (hd : Narrow d) (mode : Mode) (t : Text) :
    ((mode.byteLabels t).zip t.bytes).countP
        (fun r => decide (r.2 = byteOf d) && decide (r.1 = .code)) =
      ((t.zip (mode.labels t)).filterMap fun (c, label) =>
        if label = .code then some c else none).count d := by
  induction t generalizing mode with
  | nil => rfl
  | cons c t ih =>
    have hfront := countP_zip_replicate (mode.step c t.head?).1 (byteOf d) (String.utf8EncodeChar c)
    rw [String.length_utf8EncodeChar, countP_encode hd] at hfront
    rw [Mode.byteLabels_cons, Text.bytes_cons, List.zip_append (by simp), List.countP_append, ih,
      hfront, Mode.labels_cons, List.zip_cons_cons, List.filterMap_cons]
    by_cases hl : (mode.step c t.head?).1 = .code
    · simp only [hl, if_true, List.count_cons, beq_iff_eq]
      omega
    · simp only [hl, if_false, Nat.zero_add]

theorem braceCounts_eq (t : Text) : braceCounts t = .ok t.codeBraces := by
  have hopen := countP_byteLabels (show Narrow '{' by decide) .code t
  have hclose := countP_byteLabels (show Narrow '}' by decide) .code t
  rw [braceCounts, labels_eq, ok_bind, Text.byteLabels_eq]
  simp only [List.countP_filter]
  rw [hopen, hclose]
  rfl

/-! ### Lines -/

/-- The offset at which the code of a line ends. -/
def codeEnd (line : Text) : Read Nat := do
  return ((← labels line).findIdx? fun label => label = .comment).getD line.byteLength

/-- The code of a line. -/
def codePart (line : Text) : Read Text := do cutTo line (← codeEnd line)

theorem findIdx?_byteLabels (mode : Mode) (t : Text) :
    ((mode.byteLabels t).findIdx? fun label => decide (label = .comment)).getD t.byteLength =
      Text.byteLength (((t.zip (mode.labels t)).takeWhile
        fun (_, label) => decide (label ≠ .comment)).map fun (c, _) => c) := by
  induction t generalizing mode with
  | nil => rfl
  | cons c t ih =>
    have hc := Char.utf8Size_pos c
    rw [Mode.byteLabels_cons, List.findIdx?_append, List.findIdx?_replicate, Mode.labels_cons,
      List.zip_cons_cons, List.takeWhile_cons]
    by_cases hl : (mode.step c t.head?).1 = .comment
    · simp [hl, hc]
    · have h := ih (mode.step c t.head?).2
      simp only [hl, decide_false, Bool.false_eq_true, and_false, if_false, Option.none_or,
        List.length_replicate, ne_eq, not_false_eq_true, decide_true, if_true, List.map_cons,
        Text.byteLength_cons, ← h]
      cases (Mode.byteLabels (mode.step c t.head?).2 t).findIdx?
        fun label => decide (label = .comment) with
      | none => rfl
      | some i => exact Nat.add_comm _ _

theorem codePart_eq (line : Text) : codePart line = .ok line.codePart := by
  obtain ⟨rest, hrest⟩ := line.exists_codePart_append
  have hcut := cutTo_append line.codePart rest
  rw [← hrest] at hcut
  rw [codePart, codeEnd, labels_eq, ok_bind, pure_eq, ok_bind, Text.byteLabels_eq,
    findIdx?_byteLabels]
  exact hcut

/-- The offset of the last newline. -/
def lastNewline? (t : Text) : Option Nat :=
  match t.reverse.dropWhile (· != '\n') with
  | [] => none
  | _ :: front => some (Text.byteLength front.reverse)

/-- The last line that holds more than white space, without its indentation. -/
def lastLineSpan (source : Text) : Read Span := do
  let trimmed := source.trimEnd
  let lineStart := match lastNewline? trimmed with
    | some pos => pos + 1
    | none => 0
  let line ← cutFrom trimmed lineStart
  let indent ← minus line.byteLength line.trimStart.byteLength
  return .ofEnds (lineStart + indent) trimmed.byteLength

/-- The last line stands after the last newline. -/
theorem lineStart_eq (t : Text) :
    (match lastNewline? t with
      | some pos => pos + 1
      | none => 0) = Text.byteLength (t.reverse.dropWhile (· != '\n')).reverse := by
  rw [lastNewline?]
  cases hd : t.reverse.dropWhile (· != '\n') with
  | nil => rfl
  | cons c front =>
    have hc : c = '\n' := by
      have h := List.head_dropWhile_not (p := (· != '\n')) (l := t.reverse) (by rw [hd]; simp)
      simpa [hd] using h
    subst hc
    rw [List.reverse_cons, Text.byteLength_append]
    rfl

theorem lastLineSpan_eq (source : Text) : lastLineSpan source = .ok source.lastLineSpan := by
  have hsplit := Text.dropWhile_reverse_append (· != '\n') source.trimEnd
  have hlen := congrArg Text.byteLength hsplit
  rw [Text.byteLength_append] at hlen
  have hcut := cutFrom_append (source.trimEnd.reverse.dropWhile (· != '\n')).reverse
    (source.trimEnd.reverse.takeWhile (· != '\n')).reverse
  rw [hsplit] at hcut
  have hwhite := Text.byteLength_takeWhile_add_dropWhile isWhite
    (source.trimEnd.reverse.takeWhile (· != '\n')).reverse
  rw [lastLineSpan, Text.lastLineSpan, lineStart_eq, hcut, ok_bind, Text.trimStart,
    minus_eq (by omega), ok_bind, pure_eq]
  congr 1
  ext
  · simp only [Span.ofEnds, Span.ofLength]
    omega
  · simp only [Span.ofEnds, Span.ofLength]
    omega

/-! ### Findings -/

/-- Whether the braces of a document balance in number. -/
def braceFindings (source : Text) : Read (List Finding) := do
  let (opened, closed) ← braceCounts source
  if opened = closed then return []
  else return [.unbalanced opened closed (← lastLineSpan source)]

theorem braceFindings_eq (source : Text) :
    braceFindings source = .ok (PipelineDoc.braceFindings source) := by
  rw [braceFindings, braceCounts_eq, ok_bind, PipelineDoc.braceFindings]
  simp only [lastLineSpan_eq, ok_bind, pure_eq]
  split_ifs <;> rfl

/-- What is wrong with one call on a line of code that stands at an offset. -/
def callFindings (known : List Text) (scope : Scope) (pipeline : Text) (offset : Nat) (code : Text)
    (call : Call) : Read (List Finding) := do
  let moduleFinding :=
    if known.contains call.module then []
    else [Finding.unknownModule call.module (call.moduleSpan.shift offset)]
  match call.args with
  | none => return moduleFinding
  | some args =>
    let inside ← cut code args.start args.stop
    return moduleFinding ++ (← references inside).filterMap
      (referenceFinding? scope pipeline (offset + args.start))

/-- The scope after a line of code. -/
def scopeAfter (scope : Scope) (code : Text) : Read Scope := do
  match ← binding? code with
  | some binding => return scope.bind binding.name
  | none => return scope

/-- What is wrong with the lines of a pipeline, the first of which stands at an offset. -/
def lineFindings (known : List Text) (pipeline : Text) :
    (offset : Nat) → (depth : Int) → Scope → List Text → Read (List Finding)
  | _, _, _, [] => return []
  | offset, depth, scope, line :: lines => do
    let (opened, closed) ← braceCounts line
    let depth := depth + opened - closed
    if depth < 0 then return []
    else
      let code ← codePart line
      let scope ← scopeAfter scope code
      let here ← (← lineCalls code).mapM (callFindings known scope pipeline offset code)
      let later ← lineFindings known pipeline (offset + line.byteLength) depth scope lines
      return here.flatten ++ later

theorem callFindings_eq (known : List Text) (scope : Scope) (pipeline : Text) (offset : Nat)
    {code : Text} {call : Call} (h : call.StandsIn code) :
    callFindings known scope pipeline offset code call =
      .ok (PipelineDoc.callFindings known scope pipeline offset code call) := by
  rw [callFindings, PipelineDoc.callFindings]
  cases hargs : call.args with
  | none => simp [pure_eq]
  | some args =>
    simp only
    rw [cut_of_slice? (h.args args hargs), ok_bind, references_eq]
    rfl

theorem scopeAfter_eq (scope : Scope) (code : Text) :
    scopeAfter scope code = .ok (scope.afterLine code) := by
  rw [scopeAfter, binding?_eq, ok_bind, Scope.afterLine]
  cases code.binding? <;> rfl

theorem lineFindings_eq (known : List Text) (pipeline : Text) (offset : Nat) (depth : Int)
    (scope : Scope) (lines : List Text) :
    lineFindings known pipeline offset depth scope lines =
      .ok (PipelineDoc.lineFindings known pipeline offset depth scope lines) := by
  induction lines generalizing offset depth scope with
  | nil => rfl
  | cons line lines ih =>
    have hcalls : line.codePart.lineCalls.mapM
        (callFindings known (scope.afterLine line.codePart) pipeline offset line.codePart) =
        .ok (line.codePart.lineCalls.map (PipelineDoc.callFindings known
          (scope.afterLine line.codePart) pipeline offset line.codePart)) :=
      mapM_eq fun call hcall => callFindings_eq _ _ _ _ (standsIn_of_mem_lineCalls hcall)
    rw [lineFindings, braceCounts_eq, ok_bind, PipelineDoc.lineFindings]
    simp only [codePart_eq, ok_bind, scopeAfter_eq, lineCalls_eq, hcalls, ih]
    split_ifs
    · rfl
    · rw [List.flatMap_def]
      rfl

/-- What is wrong with the body of a pipeline. -/
def pipelineFindings (source : Text) (known : List Text) (d : Declaration) :
    Read (List Finding) := do
  let body ← content source d
  lineFindings known d.name d.body.start 0 .initial body.lines

/-- All findings of a document, by place. -/
def findings (source : Text) (extra : List Text) : Read (List Finding) := do
  let found ← headers source
  let declarations := found.filterMap Header.declaration?
  let known := standardModules ++ extra ++
    (declarations.filter fun d => d.kind == .module).map fun d => d.name
  let unnamed := (found.filterMap Header.rejection?).filterMap fun r =>
    if r.reason = .missingName then some (Finding.unnamed r.kind r.keywordSpan) else none
  let unbalanced ← braceFindings source
  let unknown ← (declarations.filter fun d => d.kind == .pipeline).mapM
    (pipelineFindings source known)
  return (unbalanced ++ unnamed ++ duplicatesAfter [] declarations ++ unknown.flatten).mergeSort
    fun f g => f.span.le g.span

theorem findings_eq (source : Text) (extra : List Text) :
    findings source extra = .ok (source.findings extra) := by
  have hpipelines : (source.declarations.filter fun d => d.kind == .pipeline).mapM
      (pipelineFindings source (source.knownModules extra)) =
      .ok ((source.declarations.filter fun d => d.kind == .pipeline).map
        (PipelineDoc.pipelineFindings source (source.knownModules extra))) := by
    refine mapM_eq fun d hd => ?_
    rw [pipelineFindings, content_eq (List.mem_filter.mp hd).1, ok_bind, lineFindings_eq]
    rfl
  rw [findings, headers_eq, ok_bind]
  simp only [braceFindings_eq, ok_bind]
  refine (congrArg (· >>= _) hpipelines).trans ?_
  rw [Text.findings, Text.emitted, List.flatMap_def]
  rfl

/-! ### Diagnostics -/

/-- The message about braces that do not balance. -/
def unbalancedMessage (opened closed : Nat) : Read String :=
  if opened > closed then do
    let missing ← minus opened closed
    return "unbalanced braces: " ++ toString missing ++ " `\x7b` never closed"
  else do
    let extra ← minus closed opened
    return "unbalanced braces: " ++ toString extra ++ " unmatched `\x7d`"

/-- The message of a finding. -/
def message (f : Finding) : Read String :=
  match f with
  | .unbalanced opened closed _ => unbalancedMessage opened closed
  | _ => return f.message

/-- The diagnostic of a finding. -/
def diagnostic (f : Finding) : Read Diagnostic := do
  return ⟨f.severity, some f.code, ← message f, f.annotations, some f.help⟩

/-- All diagnostics of a document, by place. -/
def diagnose (source : Text) (extra : List Text) : Read (List Diagnostic) := do
  (← findings source extra).mapM diagnostic

/-- The warnings of a document without errors, or else all its diagnostics. -/
def check (source : Text) (extra : List Text) :
    Read (Except (List Diagnostic) (List Diagnostic)) := do
  let diagnostics ← diagnose source extra
  return if diagnostics.any Diagnostic.isError then .error diagnostics else .ok diagnostics

theorem unbalancedMessage_eq (opened closed : Nat) (span : Span) :
    unbalancedMessage opened closed = .ok (Finding.unbalanced opened closed span).message := by
  show _ = Except.ok (if opened > closed then _ else _)
  unfold unbalancedMessage
  by_cases h : opened > closed
  · rw [if_pos h, if_pos h, minus_eq (Nat.le_of_lt h)]
    exact pure_eq _
  · rw [if_neg h, if_neg h, minus_eq (Nat.not_lt.mp h)]
    exact pure_eq _

theorem message_eq (f : Finding) : message f = .ok f.message := by
  cases f with
  | unbalanced opened closed span => exact unbalancedMessage_eq opened closed span
  | _ => exact pure_eq _

theorem diagnose_eq (source : Text) (extra : List Text) :
    diagnose source extra = .ok (source.diagnose extra) := by
  rw [diagnose, findings_eq, ok_bind]
  exact mapM_eq fun f _ => by rw [diagnostic, message_eq]; rfl

theorem check_eq (source : Text) (extra : List Text) :
    check source extra = .ok (source.check extra) := by
  rw [check, diagnose_eq]
  rfl

end PipelineDoc.Cursor
