import XmlOxydizer.Proofs.ErrorPaths

/-!
# A higher capture limit

The memory limit of captures only cuts parses off. With a higher limit a parse does the same, unless a capture
exceeds the lower one; then it does the same up to there and goes on.
-/

namespace XmlOxydizer

open Markup

variable {R : Type}

/-- The tree with another limit for its captures. -/
def DescriptorTree.withLimit (tree : DescriptorTree R) (limit : ℕ) : DescriptorTree R :=
  { tree with captureMemoryLimit := limit }

def CaptureBuilder.withLimit (b : CaptureBuilder) (limit : ℕ) : CaptureBuilder := { b with memoryLimit := limit }

def ReaderMode.withLimit (limit : ℕ) : ReaderMode → ReaderMode
  | .streaming => .streaming
  | .capturing b depth descriptorId contextStackIndex =>
    .capturing (b.withLimit limit) depth descriptorId contextStackIndex

def ParserState.withLimit (s : ParserState R) (limit : ℕ) : ParserState R :=
  { s with mode := s.mode.withLimit limit }

/-- The limit of the capture under way, if there is one. -/
def ReaderMode.HasLimit (limit : ℕ) : ReaderMode → Prop
  | .streaming => True
  | .capturing b _ _ _ => b.memoryLimit = limit

/-- Two states that differ in the limit of the capture under way. -/
structure Raised (limit limit' : ℕ) (s s' : ParserState R) : Prop where
  hasLimit : s.mode.HasLimit limit
  raised : s' = s.withLimit limit'

/-- A fallible step and the same step with a higher limit. -/
inductive RaisedStart (limit limit' : ℕ) : Except Stop (ParserState R) → Except Stop (ParserState R) → Prop
  | ok {s s' : ParserState R} (h : Raised limit limit' s s') : RaisedStart limit limit' (.ok s) (.ok s')
  | error (why : Stop) : RaisedStart limit limit' (.error why) (.error why)
  | cut (path : String) (r : Except Stop (ParserState R)) :
      RaisedStart limit limit' (.error (.error (.captureOverflow path limit))) r

/-- A flow and the same flow with a higher limit. Where the limit cuts it off, it has put out `out`. -/
inductive RaisedFlow (limit limit' : ℕ) (out : Output R) : Flow R → Flow R → Prop
  | next {s s' : ParserState R} (h : Raised limit limit' s s') : RaisedFlow limit limit' out (.next s) (.next s')
  | stop (why : Stop) (out' : Output R) : RaisedFlow limit limit' out (.stop why out') (.stop why out')
  | cut (path : String) (r : Flow R) :
      RaisedFlow limit limit' out (.stop (.error (.captureOverflow path limit)) out) r

/-! ### The capture buffer -/

section Builder

variable {limit limit' : ℕ} {b : CaptureBuilder}

/-- A step of the buffer and the same step with a higher limit. -/
inductive RaisedBuilder (limit limit' : ℕ) :
    Except ReaderError CaptureBuilder → Except ReaderError CaptureBuilder → Prop
  | ok {b : CaptureBuilder} (h : b.memoryLimit = limit) :
      RaisedBuilder limit limit' (.ok b) (.ok (b.withLimit limit'))
  | cut (path : String) (r : Except ReaderError CaptureBuilder) :
      RaisedBuilder limit limit' (.error (.captureOverflow path limit)) r

lemma checkLimit_raised (hlimit : b.memoryLimit = limit) (hle : limit ≤ limit') :
    b.checkLimit = .ok () ∧ (b.withLimit limit').checkLimit = .ok () ∨
      b.checkLimit = .error (.captureOverflow b.pathForError limit) := by
  unfold CaptureBuilder.checkLimit
  subst hlimit
  by_cases hover : b.memoryUsage > b.memoryLimit
  · right
    rw [if_pos hover]
  · left
    have hfits : ¬ (b.withLimit limit').memoryUsage > (b.withLimit limit').memoryLimit := by
      simp only [CaptureBuilder.withLimit]
      omega
    rw [if_neg hover, if_neg hfits]
    exact ⟨rfl, rfl⟩

lemma startElement_raised (hlimit : b.memoryLimit = limit) (hle : limit ≤ limit') (tag : String)
    (attrs : List (String × String)) :
    RaisedBuilder limit limit' (b.startElement tag attrs) ((b.withLimit limit').startElement tag attrs) := by
  let charged : CaptureBuilder := { b with memoryUsage := b.memoryUsage + CaptureBuilder.elementSize tag attrs }
  unfold CaptureBuilder.startElement
  rcases checkLimit_raised (b := charged) hlimit hle with ⟨hfits, hfits'⟩ | hover
  · change RaisedBuilder limit limit' (charged.checkLimit >>= fun _ => _)
      ((charged.withLimit limit').checkLimit >>= fun _ => _)
    rw [hfits, hfits']
    exact .ok hlimit
  · change RaisedBuilder limit limit' (charged.checkLimit >>= fun _ => _) _
    rw [hover]
    exact .cut _ _

lemma text_raised (hlimit : b.memoryLimit = limit) (hle : limit ≤ limit') (text : String) :
    RaisedBuilder limit limit' (b.text text) ((b.withLimit limit').text text) := by
  let charged : CaptureBuilder := { b with memoryUsage := b.memoryUsage + text.utf8ByteSize }
  unfold CaptureBuilder.text
  split_ifs with hempty
  · exact .ok hlimit
  rcases checkLimit_raised (b := charged) hlimit hle with ⟨hfits, hfits'⟩ | hover
  · change RaisedBuilder limit limit' (charged.checkLimit >>= fun _ => _)
      ((charged.withLimit limit').checkLimit >>= fun _ => _)
    rw [hfits, hfits']
    simp only [ok_bind, CaptureBuilder.withLimit]
    cases b.stack.getLast? with
    | none => exact .ok hlimit
    | some top => exact .ok hlimit
  · change RaisedBuilder limit limit' (charged.checkLimit >>= fun _ => _) _
    rw [hover]
    exact .cut _ _

lemma endElement_raised (b : CaptureBuilder) (limit : ℕ) :
    (b.withLimit limit).endElement = b.endElement.map (CaptureBuilder.withLimit · limit) := by
  obtain ⟨stack, usage, old, path⟩ := b
  unfold CaptureBuilder.endElement CaptureBuilder.withLimit
  rcases List.eq_nil_or_concat' stack with rfl | ⟨stack, node, rfl⟩
  · rfl
  · simp only [List.getLast?_concat, List.dropLast_concat, expect_some, ok_bind]
    cases stack.getLast? <;> rfl

lemma endElement_limit {b b' : CaptureBuilder} (h : b.endElement = .ok b') : b'.memoryLimit = b.memoryLimit := by
  obtain ⟨stack, usage, limit, path⟩ := b
  unfold CaptureBuilder.endElement at h
  rcases List.eq_nil_or_concat' stack with rfl | ⟨stack, node, rfl⟩
  · cases h
  · simp only [List.getLast?_concat, List.dropLast_concat, expect_some, ok_bind] at h
    cases hparent : stack.getLast? with
    | none =>
      rw [hparent] at h
      cases h
      rfl
    | some parent =>
      rw [hparent] at h
      cases h
      rfl

end Builder

/-! ### Steps -/

section Steps

variable {checks : OverflowChecks} {tree : DescriptorTree R} {s s' : ParserState R} {limit' : ℕ}

lemma RaisedBuilder.start {limit : ℕ} {r r' : Except ReaderError CaptureBuilder}
    (h : RaisedBuilder limit limit' r r')
    {k k' : CaptureBuilder → ParserState R}
    (hk : ∀ b, b.memoryLimit = limit → Raised limit limit' (k b) (k' (b.withLimit limit'))) :
    RaisedStart limit limit' (orError r >>= fun b => .ok (k b)) (orError r' >>= fun b => .ok (k' b)) := by
  cases h with
  | ok hlimit => exact .ok (hk _ hlimit)
  | cut path => exact .cut path _

lemma openElement_raised (h : Raised tree.captureMemoryLimit limit' s s')
    (hle : tree.captureMemoryLimit ≤ limit') (tag : BytesStart) (tagName : String) (id : NodeId) :
    RaisedStart tree.captureMemoryLimit limit' (openElement checks tree tag tagName id s)
      (openElement checks (tree.withLimit limit') tag tagName id s') := by
  obtain ⟨hlimit, rfl⟩ := h
  have hnew : ∀ path attrs, RaisedBuilder tree.captureMemoryLimit limit'
      ((CaptureBuilder.new tree.captureMemoryLimit path).startElement tagName attrs)
      ((CaptureBuilder.new limit' path).startElement tagName attrs) := by
    intro path attrs
    exact startElement_raised (b := .new tree.captureMemoryLimit path) rfl hle tagName attrs
  unfold openElement
  simp only [ParserState.withLimit]
  cases countSibling checks s.siblingCounters (hashTag tagName) with
  | error e => exact .error _
  | ok counted =>
    change RaisedStart _ _ (orPanic (tree.get id) >>= _) (orPanic (tree.get id) >>= _)
    cases tree.get id with
    | error e => exact .error _
    | ok desc =>
      simp only [orPanic_ok, ok_bind, except_pure]
      cases desc.needAttrs || desc.needs.isCapture with
      | true =>
        cases parseAttributesInto tag.attributes s.attrPool.acquire.1 with
        | error e => exact .error _
        | ok attrs =>
          simp only [if_true, orError_ok, ok_bind]
          split_ifs with hcapture
          · exact (hnew _ attrs).start fun b hb => ⟨hb, rfl⟩
          · exact .ok ⟨hlimit, rfl⟩
      | false =>
        simp only [Bool.false_eq_true, if_false]
        split_ifs with hcapture
        · exact (hnew _ []).start fun b hb => ⟨hb, rfl⟩
        · exact .ok ⟨hlimit, rfl⟩

lemma handleStart_raised (h : Raised tree.captureMemoryLimit limit' s s')
    (hle : tree.captureMemoryLimit ≤ limit') (tag : BytesStart) :
    RaisedStart tree.captureMemoryLimit limit' (handleStart checks tree tag s)
      (handleStart checks (tree.withLimit limit') tag s') := by
  obtain ⟨hlimit, rfl⟩ := h
  obtain ⟨contexts, descriptors, mode, skipDepth, counters, maps, frames, attrPool, out⟩ := s
  unfold handleStart
  change RaisedStart _ _ (if skipDepth > 0 then _ else _) (if skipDepth > 0 then _ else _)
  split_ifs with hskip
  · exact .ok ⟨hlimit, rfl⟩
  cases mode with
  | capturing builder depth descriptorId contextStackIndex =>
    simp only [ParserState.withLimit, ReaderMode.withLimit]
    cases fromUtf8 tag.name with
    | error e => exact .error _
    | ok tagName =>
      simp only [ok_mapError, orError_ok, ok_bind]
      cases parseAttributesInto tag.attributes attrPool.acquire.1 with
      | error e => exact .error _
      | ok attrs =>
        simp only [orError_ok, ok_bind, except_pure]
        exact (startElement_raised hlimit hle tagName attrs).start fun b hb => ⟨hb, rfl⟩
  | streaming =>
    simp only [ParserState.withLimit, ReaderMode.withLimit]
    cases fromUtf8 tag.name with
    | error e => exact .error _
    | ok tagName =>
      simp only [ok_mapError, orError_ok, ok_bind]
      change RaisedStart _ _ (orPanic (lookupDescriptor tree descriptors tagName) >>= _)
        (orPanic (lookupDescriptor tree descriptors tagName) >>= _)
      cases lookupDescriptor tree descriptors tagName with
      | error e => exact .error _
      | ok child =>
        simp only [orPanic_ok, ok_bind]
        cases child with
        | some id => exact openElement_raised ⟨hlimit, rfl⟩ hle tag tagName id
        | none => exact .ok ⟨trivial, rfl⟩

lemma handleText_raised (h : Raised tree.captureMemoryLimit limit' s s')
    (hle : tree.captureMemoryLimit ≤ limit') (text : BytesText) :
    RaisedStart tree.captureMemoryLimit limit' (handleText tree text s)
      (handleText (tree.withLimit limit') text s') := by
  obtain ⟨hlimit, rfl⟩ := h
  obtain ⟨contexts, descriptors, mode, skipDepth, counters, maps, frames, attrPool, out⟩ := s
  unfold handleText
  change RaisedStart _ _ (if skipDepth = 0 then _ else _) (if skipDepth = 0 then _ else _)
  split_ifs with hskip
  case neg => exact .ok ⟨hlimit, rfl⟩
  cases mode with
  | capturing builder depth descriptorId contextStackIndex =>
    simp only [ParserState.withLimit, ReaderMode.withLimit]
    cases text.decode with
    | error e => exact .error _
    | ok decoded =>
      simp only [orError_ok, ok_bind, except_pure]
      split_ifs with hempty
      · exact .ok ⟨hlimit, rfl⟩
      · exact (text_raised hlimit hle decoded).start fun b hb => ⟨hb, rfl⟩
  | streaming =>
    simp only [ParserState.withLimit, ReaderMode.withLimit]
    cases contexts.getLast? with
    | none => exact .ok ⟨trivial, rfl⟩
    | some ctx =>
      dsimp only
      change RaisedStart _ _ (orPanic (tree.get ctx.descriptorId) >>= _)
        (orPanic (tree.get ctx.descriptorId) >>= _)
      cases tree.get ctx.descriptorId with
      | error e => exact .error _
      | ok desc =>
        simp only [orPanic_ok, ok_bind]
        split_ifs with hneed
        · cases text.decode with
          | error e => exact .error _
          | ok decoded =>
            simp only [orError_ok, ok_bind]
            split_ifs with hempty
            · exact .ok ⟨trivial, rfl⟩
            · exact .ok ⟨trivial, rfl⟩
        · exact .ok ⟨trivial, rfl⟩

lemma RaisedStart.flow {limit : ℕ} {out : Output R} {r r' : Except Stop (ParserState R)}
    (h : RaisedStart limit limit' r r') {k k' : ParserState R → Flow R}
    (hk : ∀ {s s'}, Raised limit limit' s s' → RaisedFlow limit limit' out (k s) (k' s')) :
    RaisedFlow limit limit' out (Flow.attempt out r k) (Flow.attempt out r' k') := by
  cases h with
  | ok h => exact hk h
  | error why => exact .stop why out
  | cut path => exact .cut path _

lemma attempt_raised {α : Type} {limit : ℕ} {out out' : Output R} {r : Except Stop α} {k k' : α → Flow R}
    (hk : ∀ a, RaisedFlow limit limit' out (k a) (k' a)) :
    RaisedFlow limit limit' out (Flow.attempt out' r k) (Flow.attempt out' r k') := by
  cases r with
  | error why => exact .stop why out'
  | ok a => exact hk a

lemma recycleCounters_raised {limit : ℕ} (h : Raised limit limit' s s') :
    Raised limit limit' (recycleCounters s) (recycleCounters s') := by
  obtain ⟨hlimit, rfl⟩ := h
  unfold recycleCounters
  simp only [ParserState.withLimit]
  cases s.siblingCounters.getLast? with
  | none => exact ⟨hlimit, rfl⟩
  | some sib => exact ⟨hlimit, rfl⟩

variable [Rule R]

/-- The subtree of a capture does not depend on the limit. -/
lemma closeCapture_raised {limit : ℕ} {out : Output R} (s : ParserState R) (hmode : s.mode = .streaming)
    (builder : CaptureBuilder) (id : NodeId) (i : ℕ) :
    RaisedFlow limit limit' out (closeCapture checks tree builder id i s)
      (closeCapture checks (tree.withLimit limit') (builder.withLimit limit') id i s) := by
  obtain ⟨contexts, descriptors, mode, skipDepth, counters, maps, frames, attrPool, out'⟩ := s
  obtain rfl := hmode
  unfold closeCapture
  rw [endElement_raised]
  cases builder.endElement with
  | error e => exact .stop _ _
  | ok b =>
    apply attempt_raised
    intro closed
    refine attempt_raised fun ruleResults => attempt_raised fun popped => ?_
    exact .next (recycleCounters_raised ⟨trivial, rfl⟩)

lemma closeStreaming_raised {limit : ℕ} {out : Output R} (h : Raised limit limit' s s') :
    RaisedFlow limit limit' out (closeStreaming checks tree s)
      (closeStreaming checks (tree.withLimit limit') s') := by
  obtain ⟨hlimit, rfl⟩ := h
  have hrecycled : Raised limit limit' (recycleCounters { s with descriptorStack := s.descriptorStack.dropLast })
      (recycleCounters { s.withLimit limit' with
        descriptorStack := (s.withLimit limit').descriptorStack.dropLast }) :=
    recycleCounters_raised ⟨hlimit, rfl⟩
  unfold closeStreaming
  dsimp only
  generalize recycleCounters { s with descriptorStack := s.descriptorStack.dropLast } = t at hrecycled ⊢
  generalize recycleCounters { s.withLimit limit' with
    descriptorStack := (s.withLimit limit').descriptorStack.dropLast } = t' at hrecycled ⊢
  obtain ⟨hlimit, rfl⟩ := hrecycled
  simp only [ParserState.withLimit]
  cases t.contextStack.getLast? with
  | none => exact .next ⟨hlimit, rfl⟩
  | some ctx =>
    apply attempt_raised
    intro descriptor
    exact attempt_raised fun ruleResults => .next ⟨hlimit, rfl⟩

lemma handleEnd_raised {limit : ℕ} {out : Output R} (h : Raised limit limit' s s') :
    RaisedFlow limit limit' out (handleEnd checks tree s) (handleEnd checks (tree.withLimit limit') s') := by
  obtain ⟨hlimit, rfl⟩ := h
  obtain ⟨contexts, descriptors, mode, skipDepth, counters, maps, frames, attrPool, out'⟩ := s
  unfold handleEnd
  change RaisedFlow _ _ _ (if skipDepth > 0 then _ else _) (if skipDepth > 0 then _ else _)
  split_ifs with hskip
  · exact .next ⟨hlimit, rfl⟩
  cases mode with
  | capturing builder depth descriptorId contextStackIndex =>
    simp only [ParserState.withLimit, ReaderMode.withLimit]
    apply attempt_raised
    intro depth'
    split_ifs with hzero
    · exact closeCapture_raised _ rfl builder descriptorId contextStackIndex
    · rw [endElement_raised]
      cases hb : builder.endElement with
      | error e => exact .stop _ _
      | ok b => exact .next ⟨(endElement_limit hb).trans hlimit, rfl⟩
  | streaming => exact closeStreaming_raised ⟨hlimit, rfl⟩

variable (checks) in
/-- A step with a higher limit does the same, unless the step exceeds the lower limit. -/
theorem step_raised (h : Raised tree.captureMemoryLimit limit' s s') (hle : tree.captureMemoryLimit ≤ limit')
    (event : Event) : RaisedFlow tree.captureMemoryLimit limit' s.out (step checks tree event s)
      (step checks (tree.withLimit limit') event s') := by
  have hout : s'.out = s.out := by
    obtain ⟨-, rfl⟩ := h
    rfl
  cases event with
  | start tag =>
    simp only [step, hout]
    exact (handleStart_raised h hle tag).flow fun h => .next h
  | close => exact handleEnd_raised h
  | empty tag =>
    simp only [step, hout]
    exact (handleStart_raised h hle tag).flow handleEnd_raised
  | leaf leaf =>
    cases leaf with
    | text text =>
      simp only [step, hout]
      exact (handleText_raised h hle text).flow fun h => .next h
    | _ => exact .next h

end Steps

/-! ### Runs -/

section Runs

variable [Rule R] {checks : OverflowChecks} {tree : DescriptorTree R} {limit' : ℕ}

lemma DescriptorTree.WellFormed.withLimit (hwf : tree.WellFormed) (limit : ℕ) :
    (tree.withLimit limit).WellFormed where
  rootId_eq := hwf.rootId_eq
  root_contains := hwf.root_contains
  root_path := hwf.root_path
  root_parent := hwf.root_parent
  parent_spec := hwf.parent_spec
  eq_root := hwf.eq_root
  path_inj := hwf.path_inj
  childOf_spec p hp tag := by
    obtain ⟨r, hr, hspec⟩ := hwf.childOf_spec p hp tag
    refine ⟨r, hr, fun c => (hspec c).trans ⟨fun h => ?_, fun h => ?_⟩⟩
    · exact ⟨h.contains, h.parent, h.tag_eq⟩
    · exact ⟨h.contains, h.parent, h.tag_eq⟩
  no_nesting := hwf.no_nesting
  rule_needs := hwf.rule_needs
  children_needs := hwf.children_needs
  child_keeps := hwf.child_keeps
  summaryNeeds_eq := hwf.summaryNeeds_eq
  root_summaryNeeds := hwf.root_summaryNeeds

/-- What is put out first is the beginning of what is put out at last. -/
structure Begins (out out' : Output R) : Prop where
  evaluated : out.evaluated <+: out'.evaluated
  sent : out.sent <+: out'.sent

lemma begins_record (out : Output R) (evals : List (Evaluation R)) : Begins out (out.record evals) :=
  ⟨by rw [Output.evaluated_record]; exact List.prefix_append _ _, sent_prefix_record evals out⟩

lemma begins_run (checks : OverflowChecks) (hwf : tree.WellFormed) {z : OpenElements} {s : ParserState R}
    (h : Follows tree z s) (events : List (Except XmlError Event)) :
    Begins s.out (eventLoop checks tree events s).out := by
  have hrun := run_ok checks hwf h events
  generalize eventLoop checks tree events s = r at hrun ⊢
  cases hrun with
  | next ts s' groups _ _ _ hout =>
    rw [Flow.out, hout]
    exact begins_record _ _
  | error => exact begins_record _ _
  | overflow => exact begins_record _ _

/-- Two runs of the loop, the second with a higher limit. -/
inductive RaisedRun (limit limit' : ℕ) : Flow R → Flow R → Prop
  | next {s s' : ParserState R} (h : Raised limit limit' s s') : RaisedRun limit limit' (.next s) (.next s')
  | stop (why : Stop) (out : Output R) : RaisedRun limit limit' (.stop why out) (.stop why out)
  | cut (path : String) (out : Output R) (r : Flow R) (hbegins : Begins out r.out) :
      RaisedRun limit limit' (.stop (.error (.captureOverflow path limit)) out) r

variable (checks) in
theorem run_raised (hwf : tree.WellFormed) (hle : tree.captureMemoryLimit ≤ limit') {z : OpenElements}
    {s s' : ParserState R} (h : Raised tree.captureMemoryLimit limit' s s')
    (hfollows : Follows (tree.withLimit limit') z s') (events : List (Except XmlError Event)) :
    RaisedRun tree.captureMemoryLimit limit' (eventLoop checks tree events s)
      (eventLoop checks (tree.withLimit limit') events s') := by
  have hwf' := hwf.withLimit limit'
  induction events generalizing z s s' with
  | nil => exact .next h
  | cons event events ih =>
    cases event with
    | error e =>
      obtain ⟨-, rfl⟩ := h
      exact .stop _ _
    | ok tok =>
      have hout : s'.out = s.out := by
        obtain ⟨-, rfl⟩ := h
        rfl
      have hstep := step_raised checks h hle tok
      have hnext := step_ok checks hwf' hfollows tok
      have hbegins := begins_run checks hwf' hfollows (.ok tok :: events)
      rw [hout] at hbegins
      simp only [eventLoop] at hbegins ⊢
      generalize step checks tree tok s = r at hstep ⊢
      generalize step checks (tree.withLimit limit') tok s' = r' at hstep hnext hbegins ⊢
      cases hstep with
      | stop why out => exact .stop why out
      | cut path => exact .cut path _ _ hbegins
      | next h =>
        cases hnext with
        | next _ _ hfollows => exact ih h hfollows

lemma parse_raised (checks : OverflowChecks) (hwf : tree.WellFormed) (hle : tree.captureMemoryLimit ≤ limit')
    (events : List (Except XmlError Event)) :
    let o := parseFile checks tree events
    let o' := parseFile checks (tree.withLimit limit') events
    o = o' ∨ (∃ path, o.result = .error (.error (.captureOverflow path tree.captureMemoryLimit))) ∧
      Begins o.out o'.out := by
  have hinit : Raised tree.captureMemoryLimit limit' (.init : ParserState R) .init := ⟨trivial, rfl⟩
  have hrun := run_raised checks hwf hle hinit (follows_init (tree.withLimit limit')) events
  unfold parseFile
  dsimp only
  generalize eventLoop checks tree events .init = r at hrun ⊢
  generalize eventLoop checks (tree.withLimit limit') events .init = r' at hrun ⊢
  cases hrun with
  | next h =>
    obtain ⟨-, rfl⟩ := h
    exact .inl rfl
  | stop why out => exact .inl rfl
  | cut path out r' hbegins =>
    refine .inr ⟨⟨path, rfl⟩, ?_⟩
    cases r' with
    | stop why out' => exact hbegins
    | next s' => exact ⟨hbegins.evaluated, hbegins.sent.trans (List.prefix_append _ _)⟩

end Runs

/-- With a higher capture limit a parse does the same, unless a capture exceeds the lower limit. What the parse has
done up to there, it does with the higher limit as well. -/
theorem raised_limit [Rule R] (t : BuiltTree R) (checks : OverflowChecks) (events : List (Except XmlError Event))
    {limit : ℕ} (hle : t.tree.captureMemoryLimit ≤ limit) :
    let o := parseFile checks t.tree events
    let o' := parseFile checks (t.tree.withLimit limit) events
    o = o' ∨ (∃ path, o.result = .error (.error (.captureOverflow path t.tree.captureMemoryLimit))) ∧
      Begins o.out o'.out :=
  parse_raised checks t.wellFormed hle events

/-- The text is too long for the limit of the tree and not for a limit of 105 bytes. -/
theorem raised_limit_sample :
    let o := parseFile .checked tightTree.tree (longTextEvents.map .ok)
    let o' := parseFile .checked (tightTree.tree.withLimit 105) (longTextEvents.map .ok)
    (∃ path, o.result = .error (.error (.captureOverflow path tightTree.tree.captureMemoryLimit))) ∧
      o'.result = .ok () ∧ Begins o.out o'.out := by
  intro o o'
  have hlower : o.result = .error (.error (.captureOverflow "list/box" 100)) := by decide +kernel
  have hhigher : o'.result = .ok () := by decide +kernel
  have hle : tightTree.tree.captureMemoryLimit ≤ 105 := by decide +kernel
  rcases raised_limit tightTree .checked (longTextEvents.map .ok) hle with heq | ⟨hcut, hbegins⟩
  · change o = o' at heq
    rw [heq, hhigher] at hlower
    cases hlower
  · exact ⟨hcut, hhigher, hbegins⟩

/-! ### The limit that a stream needs -/

/-- What an event of a stream adds to the cost of a capture. -/
def eventCost : Except XmlError Event → ℕ
  | .ok tok => tokenCost tok
  | .error _ => 0

/-- What a capture of the whole stream would cost. -/
def streamCost (events : List (Except XmlError Event)) : ℕ := (events.map eventCost).sum

/-- The parse ends because a capture exceeds its limit. -/
def Outcome.Overflows (o : Outcome R) : Prop :=
  ∃ path limit, o.result = .error (.error (.captureOverflow path limit))

section Cost

variable {tree : DescriptorTree R} {z : OpenElements} {text : String} {limit : ℕ}

lemma spineCost_advance_le (z : OpenElements) (tok : Event) :
    spineCost (z.advance tok) ≤ spineCost z + tokenCost tok := by
  rcases List.eq_nil_or_concat' z with rfl | ⟨w, f, rfl⟩
  · cases tok with
    | start tag => simp [Spine.advance_start, spineCost, frameCost, contentCost, tokenCost]
    | _ => exact Nat.zero_le _
  · by_cases hopen : tok = .close → 2 ≤ (w ++ [f]).length
    · exact le_of_eq (spineCost_advance (by simp) hopen)
    · push Not at hopen
      obtain ⟨rfl, hlen⟩ := hopen
      obtain rfl : w = [] := List.eq_nil_of_length_eq_zero (by simpa using hlen)
      rw [Spine.advance_close, Spine.extend_nil]
      exact Nat.zero_le _

lemma spineCost_advanceAll_le (z : OpenElements) (ts : List Event) :
    spineCost (z.advanceAll ts) ≤ spineCost z + tokensCost ts := by
  induction ts generalizing z with
  | nil => simp [tokensCost]
  | cons tok ts ih =>
    have hfirst := spineCost_advance_le z tok
    have hrest := ih (z.advance tok)
    simp only [Spine.advanceAll_cons, tokensCost, List.map_cons, List.sum_cons] at hrest ⊢
    omega

lemma overflowFault_cost {id : NodeId} {cost : ℕ} {e : ReaderError} (h : overflowFault tree id cost = some e) :
    tree.captureMemoryLimit < cost := by
  unfold overflowFault at h
  split_ifs at h with hover
  exact hover

variable [Rule R] (hwf : tree.WellFormed)

include hwf

lemma spineCost_openCapture_le {id : NodeId} {zs : OpenElements} (h : tree.openCapture z = some (id, zs)) :
    spineCost zs ≤ spineCost z := by
  obtain ⟨-, w, hz, -⟩ := openCapture_spec hwf h
  rw [hz, spineCost_append]
  omega

/-- An overflow at a token means that what is open and the token cost more than the limit. -/
lemma fault_overflow_cost {tok : Event} (h : fault tree z tok = some (.captureOverflow text limit)) :
    tree.captureMemoryLimit < spineCost z + tokenCost tok := by
  have hstart : ∀ tag : BytesStart, startFault tree z tag = some (.captureOverflow text limit) →
      tree.captureMemoryLimit < spineCost z + elementCost tag.tagName tag.attrs := by
    intro tag h
    rcases startFault_overflow h with ⟨id, zs, hopen, hover⟩ | ⟨id, -, -, hover⟩
    · have hle := spineCost_openCapture_le hwf hopen
      have hcost := overflowFault_cost hover
      omega
    · have hcost := overflowFault_cost hover
      omega
  cases tok with
  | start tag => exact hstart tag h
  | empty tag => exact hstart tag h
  | close => cases h
  | leaf leaf =>
    obtain ⟨id, zs, hopen, hover⟩ := leafFault_overflow h
    have hle := spineCost_openCapture_le hwf hopen
    have hcost := overflowFault_cost hover
    simp only [tokenCost]
    omega

lemma overflows_cost {checks : OverflowChecks} {events : List (Except XmlError Event)}
    (h : (parseFile checks tree events).Overflows) : tree.captureMemoryLimit < streamCost events := by
  obtain ⟨path, limit, hresult⟩ := h
  have hparse := parseFile_ok checks hwf events
  generalize parseFile checks tree events = o at hresult hparse
  cases hparse with
  | finished => cases hresult
  | panicked => cases hresult
  | failed e ts bad rest groups out hevents _ _ _ hbad =>
    obtain rfl := Abort.error.inj (Except.error.inj hresult)
    cases bad with
    | error e => cases hbad
    | ok tok =>
      have hcost := fault_overflow_cost hwf hbad
      have hopen := spineCost_advanceAll_le [] ts
      have htotal : streamCost events = tokensCost ts + (tokenCost tok + streamCost rest) := by
        rw [hevents]
        simp [streamCost, tokensCost, eventCost, Function.comp_def]
      rw [show spineCost [] = 0 from rfl] at hopen
      omega

end Cost

/-- Every stream has a limit that it needs: with this limit or a higher one the parse does not overflow, with any
lower one it does. -/
theorem capture_threshold [Rule R] (t : BuiltTree R) (checks : OverflowChecks)
    (events : List (Except XmlError Event)) : ∃ needed ≤ streamCost events, ∀ limit,
      (parseFile checks (t.tree.withLimit limit) events).Overflows ↔ limit < needed := by
  classical
  have henough : ¬ (parseFile checks (t.tree.withLimit (streamCost events)) events).Overflows := fun h =>
    lt_irrefl _ (overflows_cost (t.wellFormed.withLimit _) h)
  have hexists : ∃ limit, ¬ (parseFile checks (t.tree.withLimit limit) events).Overflows := ⟨_, henough⟩
  refine ⟨Nat.find hexists, Nat.find_min' hexists henough, fun limit => ⟨fun hover => ?_, fun hlt => ?_⟩⟩
  · by_contra hge
    have hneeded := Nat.find_spec hexists
    have hwf := t.wellFormed.withLimit (Nat.find hexists)
    rcases parse_raised checks hwf (not_lt.mp hge) events with hsame | ⟨⟨path, hcut⟩, -⟩
    · exact hneeded (hsame ▸ hover)
    · exact hneeded ⟨path, _, hcut⟩
  · exact not_not.mp (Nat.find_min hexists hlt)

end XmlOxydizer
