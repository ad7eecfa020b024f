import XmlOxydizer.Reader.Capture

/-!
# The event loop

`reader/parser.rs`. The local variables of `parse_file` are a `ParserState`. Beside them
the state carries an `Output`: the flush buffer, what was sent on the channel, and a log of
the rule evaluations, which the source does not keep and no definition reads.
-/

namespace XmlOxydizer

variable {R : Type}

/-- The sibling counters of one open element, keyed by tag hash. -/
abbrev Counters := List (UInt64 × UInt32)

/-- `ReaderMode`. -/
inductive ReaderMode
  | streaming
  | capturing (builder : CaptureBuilder) (depth : ℕ) (descriptorId : NodeId)
      (contextStackIndex : ℕ)

/-- A call of `Rule::evaluate`. -/
structure Evaluation (R : Type) where
  rule : R
  view : NodeAccess

/-- The diagnostics that an evaluation returned. -/
def Evaluation.diagnostics [Rule R] (e : Evaluation R) : List Diagnostic :=
  Rule.evaluate e.rule e.view

structure Output (R : Type) where
  diagBuffer : List Diagnostic
  sent : List Diagnostic
  evaluated : List (Evaluation R)

structure ParserState (R : Type) where
  contextStack : List NodeContext
  descriptorStack : List (Option NodeId)
  mode : ReaderMode
  skipDepth : ℕ
  siblingCounters : List Counters
  siblingPool : List Counters
  ctxPool : ContextPool
  attrPool : AttrPool
  out : Output R

/-- The variables of `parse_file` before the loop. -/
def ParserState.init : ParserState R where
  contextStack := []
  descriptorStack := []
  mode := .streaming
  skipDepth := 0
  siblingCounters := []
  siblingPool := []
  ctxPool := .new
  attrPool := .new
  out := ⟨[], [], []⟩

/-- Why the loop is left early. -/
abbrev Stop := Abort ReaderError

/-- The outcome of a step: the next state, or an early exit with what was put out. -/
inductive Flow (R : Type)
  | next (s : ParserState R)
  | stop (why : Stop) (out : Output R)

/-- Goes on with the value of a computation that can end the loop. -/
def Flow.attempt {α : Type} (out : Output R) (r : Except Stop α) (k : α → Flow R) : Flow R :=
  match r with
  | .ok a => k a
  | .error why => .stop why out

def Flow.bind (m : Flow R) (k : ParserState R → Flow R) : Flow R :=
  match m with
  | .next s => k s
  | .stop why out => .stop why out

/-- `DIAG_BUFFER_DEFAULT`. -/
def diagBufferDefault : ℕ := 256

def flushDiagnostics (out : Output R) : Output R :=
  { out with diagBuffer := [], sent := out.sent ++ out.diagBuffer }

def bufferDiagnostic (out : Output R) (diag : Diagnostic) : Output R :=
  let out := { out with diagBuffer := out.diagBuffer ++ [diag] }
  if out.diagBuffer.length ≥ diagBufferDefault then flushDiagnostics out else out

/-- `hash_tag`: 64-bit FNV-1a of the bytes. -/
def hashTag (tag : String) : UInt64 :=
  tag.toUTF8.data.toList.foldl (fun h b => (h ^^^ b.toUInt64) * 0x100000001b3)
    0xcbf29ce484222325

/-- `sibling_counter_get_or_insert`: the index for the tag, and the counters after it. -/
def siblingCounterGetOrInsert (checks : OverflowChecks) (tagHash : UInt64) :
    Counters → Except Panic (UInt32 × Counters)
  | [] => .ok (0, [(tagHash, 1)])
  | entry :: counters =>
    if entry.1 = tagHash then do
      let next ← u32Add checks entry.2 1
      return (entry.2, (entry.1, next) :: counters)
    else do
      let (idx, counters) ← siblingCounterGetOrInsert checks tagHash counters
      return (idx, entry :: counters)

/-- The descriptor of an element with this tag under the innermost open descriptor. -/
def lookupDescriptor (tree : DescriptorTree R) (descriptorStack : List (Option NodeId))
    (tagName : String) : Except Panic (Option NodeId) := do
  if descriptorStack.isEmpty then
    match tree.rootId with
    | none => return none
    | some id => return if (← tree.get id).tag.str = tagName then some id else none
  else
    match ← unwrap descriptorStack.getLast? with
    | some parentId => tree.childOf parentId tagName
    | none => return none

/-- The index of a new element, counted by the innermost open element. -/
def countSibling (checks : OverflowChecks) (siblingCounters : List Counters)
    (tagHash : UInt64) : Except Panic (UInt32 × List Counters) :=
  match siblingCounters.getLast? with
  | some counters => do
    let (idx, counters) ← siblingCounterGetOrInsert checks tagHash counters
    return (idx, siblingCounters.dropLast ++ [counters])
  | none => .ok (0, siblingCounters)

/-- Whether the parser reads the attributes of an element with this descriptor. -/
def DescriptorNode.needAttrs (desc : DescriptorNode R) : Bool :=
  desc.needs.contains .attrs || desc.summaryNeeds.contains .attrs

/-- Whether the parser reads the text of a streaming element with this descriptor. -/
def DescriptorNode.needText (desc : DescriptorNode R) : Bool :=
  desc.needs.contains .text || desc.summaryNeeds.contains .text

/-- The branch of `handle_start` for a declared element in streaming mode. -/
def openElement (checks : OverflowChecks) (tree : DescriptorTree R) (tag : BytesStart)
    (tagName : String) (id : NodeId) (s : ParserState R) : Except Stop (ParserState R) := do
  let (index, siblingCounters) ← orPanic (countSibling checks s.siblingCounters (hashTag tagName))
  let desc ← orPanic (tree.get id)
  let isCapture := desc.needs.isCapture
  let (attrs, attrPool) ←
    if desc.needAttrs || isCapture then do
      let (attrs, attrPool) := s.attrPool.acquire
      let attrs ← orError (parseAttributesInto tag.attributes attrs)
      pure (attrs, attrPool)
    else pure ([], s.attrPool)
  let (ctx, ctxPool) := s.ctxPool.acquire id attrs index
  let s := { s with
    attrPool
    ctxPool
    descriptorStack := s.descriptorStack ++ [some id]
    -- a recycled counter map is cleared before it is used again
    siblingPool := s.siblingPool.dropLast
    siblingCounters := siblingCounters ++ [[]] }
  if isCapture then do
    let builder := CaptureBuilder.new tree.captureMemoryLimit (formatPath desc.fullPath)
    let builder ← orError (builder.startElement tagName attrs)
    return { s with
      contextStack := s.contextStack ++ [ctx]
      mode := .capturing builder 1 id s.contextStack.length }
  else
    return { s with contextStack := s.contextStack ++ [ctx] }

/-- `handle_start`. -/
def handleStart (checks : OverflowChecks) (tree : DescriptorTree R) (tag : BytesStart)
    (s : ParserState R) : Except Stop (ParserState R) :=
  if s.skipDepth > 0 then .ok { s with skipDepth := s.skipDepth + 1 }
  else
    match s.mode with
    | .capturing builder depth descriptorId contextStackIndex => do
      let tagName ← orError ((fromUtf8 tag.name).mapError .utf8)
      let (attrs, attrPool) := s.attrPool.acquire
      let attrs ← orError (parseAttributesInto tag.attributes attrs)
      let builder ← orError (builder.startElement tagName attrs)
      return { s with
        attrPool
        mode := .capturing builder (depth + 1) descriptorId contextStackIndex }
    | .streaming => do
      let tagName ← orError ((fromUtf8 tag.name).mapError .utf8)
      match ← orPanic (lookupDescriptor tree s.descriptorStack tagName) with
      | some id => openElement checks tree tag tagName id s
      | none => return { s with skipDepth := 1 }

/-- The loop over the rules of an element: evaluates each, buffers its diagnostics and
records whether it passed. -/
def evaluateRules [Rule R] (checks : OverflowChecks) (view : NodeAccess) :
    List R → ℕ → RuleResults → Output R → Output R × Except Panic RuleResults
  | [], _, ruleResults, out => (out, .ok ruleResults)
  | rule :: rules, i, ruleResults, out =>
    let diags := Rule.evaluate rule view
    let out := { out with evaluated := out.evaluated ++ [⟨rule, view⟩] }
    let out := diags.foldl bufferDiagnostic out
    match ruleResults.set checks i diags.isEmpty with
    | .ok ruleResults => evaluateRules checks view rules (i + 1) ruleResults out
    | .error p => (out, .error p)

/-- Appends a summary to the innermost context, if there is one. -/
def pushSummary (contextStack : List NodeContext) (summary : ChildSummary) :
    List NodeContext :=
  match contextStack.getLast? with
  | some parent =>
    contextStack.dropLast ++ [{ parent with children := parent.children ++ [summary] }]
  | none => contextStack

/-- The innermost counter map goes back to the pool. -/
def recycleCounters (s : ParserState R) : ParserState R :=
  match s.siblingCounters.getLast? with
  | some sib =>
    { s with siblingCounters := s.siblingCounters.dropLast, siblingPool := s.siblingPool ++ [sib] }
  | none => s

/-- The branch of `handle_end` for the end of a capture. The mode has been replaced by
streaming, so that the `unreachable!()` arm on the old mode is the other arm of the match
in `handleEnd`. -/
def closeCapture [Rule R] (checks : OverflowChecks) (tree : DescriptorTree R)
    (builder : CaptureBuilder) (descriptorId : NodeId) (contextStackIndex : ℕ)
    (s : ParserState R) : Flow R :=
  Flow.attempt s.out (orPanic (do
    let builder ← builder.endElement
    let subtreeRoot ← builder.finalize
    let descriptor ← tree.get descriptorId
    let ctx ← index s.contextStack contextStackIndex
    let parentStack ← sliceTo s.contextStack contextStackIndex
    return (subtreeRoot, descriptor, ctx, parentStack)))
  fun (subtreeRoot, descriptor, ctx, parentStack) =>
    let view : SubtreeView R :=
      { root := subtreeRoot, descriptorId, index := ctx.index, parentStack, tree }
    let (out, ruleResults) :=
      evaluateRules checks (view.nodeAccess checks) descriptor.rules 0 .empty s.out
    Flow.attempt out (orPanic ruleResults) fun ruleResults =>
      let takeAttrs := descriptor.summaryNeeds.contains .attrs
      let summary : ChildSummary :=
        { attrs := if takeAttrs then ctx.attrs else []
          text := if descriptor.summaryNeeds.contains .text then subtreeRoot.text else ""
          descriptorId
          index := ctx.index
          ruleResults }
      -- `mem::take` leaves empty attributes behind
      let contextStack :=
        if takeAttrs then s.contextStack.set contextStackIndex { ctx with attrs := [] }
        else s.contextStack
      Flow.attempt out (orPanic (unwrap contextStack.getLast?)) fun popped =>
        .next (recycleCounters { s with
          contextStack := pushSummary contextStack.dropLast summary
          descriptorStack := s.descriptorStack.dropLast
          mode := .streaming
          ctxPool := s.ctxPool.release popped
          out })

/-- The branch of `handle_end` for the end of an element in streaming mode. -/
def closeStreaming [Rule R] (checks : OverflowChecks) (tree : DescriptorTree R)
    (s : ParserState R) : Flow R :=
  let s := recycleCounters { s with descriptorStack := s.descriptorStack.dropLast }
  match s.contextStack.getLast? with
  | none => .next s
  | some ctx =>
    let parentStack := s.contextStack.dropLast
    Flow.attempt s.out (orPanic (tree.get ctx.descriptorId)) fun descriptor =>
      let view : StreamingViewOwned R := { ctx, parentStack, tree }
      let (out, ruleResults) :=
        evaluateRules checks (view.nodeAccess checks) descriptor.rules 0 .empty s.out
      Flow.attempt out (orPanic ruleResults) fun ruleResults =>
        let summary : ChildSummary :=
          { attrs := if descriptor.summaryNeeds.contains .attrs then ctx.attrs else []
            text := if descriptor.summaryNeeds.contains .text then ctx.text else ""
            descriptorId := ctx.descriptorId
            index := ctx.index
            ruleResults }
        .next { s with contextStack := pushSummary parentStack summary, out }

/-- `handle_end`. -/
def handleEnd [Rule R] (checks : OverflowChecks) (tree : DescriptorTree R)
    (s : ParserState R) : Flow R :=
  if s.skipDepth > 0 then .next { s with skipDepth := s.skipDepth - 1 }
  else
    match s.mode with
    | .capturing builder depth descriptorId contextStackIndex =>
      Flow.attempt s.out (orPanic (usizeSub checks depth 1)) fun depth =>
        if depth = 0 then
          closeCapture checks tree builder descriptorId contextStackIndex
            { s with mode := .streaming }
        else
          Flow.attempt s.out (orPanic builder.endElement) fun builder =>
            .next { s with mode := .capturing builder depth descriptorId contextStackIndex }
    | .streaming => closeStreaming checks tree s

/-- The arm of the loop of `parse_file` for `Event::Text`. -/
def handleText (tree : DescriptorTree R) (text : BytesText) (s : ParserState R) :
    Except Stop (ParserState R) := do
  if s.skipDepth = 0 then
    match s.mode with
    | .capturing builder depth descriptorId contextStackIndex =>
      let decoded ← orError text.decode
      if decoded.isEmpty then return s
      let builder ← orError (builder.text decoded)
      return { s with mode := .capturing builder depth descriptorId contextStackIndex }
    | .streaming =>
      match s.contextStack.getLast? with
      | none => return s
      | some ctx =>
        let desc ← orPanic (tree.get ctx.descriptorId)
        if desc.needText then
          let decoded ← orError text.decode
          if decoded.isEmpty then return s
          return { s with
            contextStack := s.contextStack.dropLast ++ [{ ctx with text := ctx.text ++ decoded }] }
        else return s
  else return s

/-- One event in the loop of `parse_file`. An empty-element event is handled as a start and an end. -/
def step [Rule R] (checks : OverflowChecks) (tree : DescriptorTree R) (event : Event)
    (s : ParserState R) : Flow R :=
  match event with
  | .start tag => Flow.attempt s.out (handleStart checks tree tag s) .next
  | .close => handleEnd checks tree s
  | .empty tag =>
    Flow.attempt s.out (handleStart checks tree tag s) (handleEnd checks tree)
  | .leaf (.text text) => Flow.attempt s.out (handleText tree text s) .next
  | .leaf _ => .next s

/-- The loop of `parse_file` up to `Event::Eof`. -/
def eventLoop [Rule R] (checks : OverflowChecks) (tree : DescriptorTree R) :
    List (Except XmlError Event) → ParserState R → Flow R
  | [], s => .next s
  | .ok event :: events, s => (step checks tree event s).bind (eventLoop checks tree events)
  | .error e :: _, s => .stop (.error (.xmlParse e)) s.out

/-- How a parse ends, and what it put out. -/
structure Outcome (R : Type) where
  result : Except Stop Unit
  out : Output R

/-- `parse_file`, on the events that the reader produces. -/
def parseFile [Rule R] (checks : OverflowChecks) (tree : DescriptorTree R)
    (events : List (Except XmlError Event)) : Outcome R :=
  match eventLoop checks tree events .init with
  | .next s => ⟨.ok (), flushDiagnostics s.out⟩
  | .stop why out => ⟨.error why, out⟩

/-- The arm of the loop of `parse_slice` for `Event::Text`. -/
def sliceText (tree : DescriptorTree R) (textEv : BytesText) (s : ParserState R) :
    Except Stop (ParserState R) := do
  if s.skipDepth = 0 then
    match s.mode with
    | .capturing builder depth descriptorId contextStackIndex =>
      let decoded ← orError textEv.decode
      if !decoded.isEmpty then
        let builder ← orError (builder.text decoded)
        return { s with mode := .capturing builder depth descriptorId contextStackIndex }
      else return s
    | .streaming =>
      match s.contextStack.getLast? with
      | some ctx =>
        let desc ← orPanic (tree.get ctx.descriptorId)
        let needText := desc.needs.contains .text || desc.summaryNeeds.contains .text
        if needText then
          let decoded ← orError textEv.decode
          if !decoded.isEmpty then
            let ctx := { ctx with text := ctx.text ++ decoded }
            return { s with contextStack := s.contextStack.dropLast ++ [ctx] }
          else return s
        else return s
      | none => return s
  else return s

/-- The loop of `parse_slice` up to `Event::Eof`. -/
def sliceLoop [Rule R] (checks : OverflowChecks) (tree : DescriptorTree R) :
    List (Except XmlError Event) → ParserState R → Flow R
  | [], s => .next s
  | .ok (.start tag) :: events, s =>
    Flow.attempt s.out (handleStart checks tree tag s) (sliceLoop checks tree events)
  | .ok .close :: events, s => (handleEnd checks tree s).bind (sliceLoop checks tree events)
  | .ok (.leaf (.text textEv)) :: events, s =>
    Flow.attempt s.out (sliceText tree textEv s) (sliceLoop checks tree events)
  | .ok (.empty tag) :: events, s =>
    Flow.attempt s.out (handleStart checks tree tag s) fun s =>
      (handleEnd checks tree s).bind (sliceLoop checks tree events)
  -- `Ok(_) => {}`
  | .ok (.leaf _) :: events, s => sliceLoop checks tree events s
  | .error e :: _, s => .stop (.error (.xmlParse e)) s.out

/-- `parse_slice`, on the events that the reader of a string produces from the checked text. -/
def parseSlice [Rule R] (checks : OverflowChecks) (tree : DescriptorTree R)
    (read : String → List (Except XmlError Event)) (data : ByteArray) : Outcome R :=
  match fromUtf8 data with
  | .error e => ⟨.error (.error (.utf8 e)), ⟨[], [], []⟩⟩
  | .ok text =>
    match sliceLoop checks tree (read text) .init with
    | .next s => ⟨.ok (), flushDiagnostics s.out⟩
    | .stop why out => ⟨.error why, out⟩

end XmlOxydizer
