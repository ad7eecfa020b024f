import XmlOxydizer.Proofs.EvaluationTrace

/-!
# Object pools

The parser recycles stack frames, attribute vectors and counter maps. What the pools hold makes no difference: from
any state the loop runs as it would with other pools or with none.
-/

namespace XmlOxydizer

open Markup

variable {R : Type}

/-! ### States up to their pools -/

/-- The pools of a parser. -/
structure Pools where
  siblingPool : List Counters
  ctxPool : ContextPool
  attrPool : AttrPool

/-- The state with other pools. -/
def ParserState.repool (s : ParserState R) (p : Pools) : ParserState R :=
  { s with siblingPool := p.siblingPool, ctxPool := p.ctxPool, attrPool := p.attrPool }

/-- The attribute vectors in the pool are empty. -/
def AttrPool.Clean (pool : AttrPool) : Prop := ∀ attrs ∈ pool.free, attrs = []

/-- Two states that differ at most in their pools. -/
structure SameButPools (s s' : ParserState R) : Prop where
  clean : s.attrPool.Clean
  clean' : s'.attrPool.Clean
  repooled : ∃ p, s' = s.repool p

/-- Two fallible steps with the same error, or with states that differ at most in their pools. -/
inductive SameStart : Except Stop (ParserState R) → Except Stop (ParserState R) → Prop
  | ok {s s' : ParserState R} (h : SameButPools s s') : SameStart (.ok s) (.ok s')
  | error (why : Stop) : SameStart (.error why) (.error why)

/-- Two flows that end alike, or go on with states that differ at most in their pools. -/
inductive SameFlow : Flow R → Flow R → Prop
  | next {s s' : ParserState R} (h : SameButPools s s') : SameFlow (.next s) (.next s')
  | stop (why : Stop) (out : Output R) : SameFlow (.stop why out) (.stop why out)

section Acquire

variable {pool : AttrPool}

lemma AttrPool.Clean.acquire (h : pool.Clean) : pool.acquire.1 = [] ∧ pool.acquire.2.Clean := by
  obtain ⟨free⟩ := pool
  rcases List.eq_nil_or_concat' free with rfl | ⟨free, attrs, rfl⟩
  · exact ⟨rfl, h⟩
  · refine ⟨?_, fun attrs' hattrs' => h attrs' ?_⟩
    · simp only [AttrPool.acquire, List.getLast?_concat]
      exact h attrs (by simp)
    · simp only [AttrPool.acquire, List.getLast?_concat, List.dropLast_concat] at hattrs'
      exact List.mem_append_left _ hattrs'

end Acquire

section Steps

variable {checks : OverflowChecks} {tree : DescriptorTree R} {s s' : ParserState R}

lemma SameStart.flow (h : SameStart r r') {out : Output R} {k : ParserState R → Flow R}
    (hk : ∀ {s s'}, SameButPools s s' → SameFlow (k s) (k s')) :
    SameFlow (Flow.attempt out r k) (Flow.attempt out r' k) := by
  cases h with
  | ok h => exact hk h
  | error why => exact .stop why out

lemma openElement_same (h : SameButPools s s') (tag : BytesStart) (tagName : String) (id : NodeId) :
    SameStart (openElement checks tree tag tagName id s) (openElement checks tree tag tagName id s') := by
  obtain ⟨hclean, hclean', p, rfl⟩ := h
  obtain ⟨hattrs, hrest⟩ := hclean.acquire
  obtain ⟨hattrs', hrest'⟩ := hclean'.acquire
  unfold openElement
  simp only [ParserState.repool] at hattrs' hrest' hclean' ⊢
  cases countSibling checks s.siblingCounters (hashTag tagName) with
  | error e => exact .error _
  | ok counted =>
    cases tree.get id with
    | error e => exact .error _
    | ok desc =>
      simp only [orPanic_ok, ok_bind, except_pure, acquire_fst, hattrs, hattrs']
      cases desc.needAttrs || desc.needs.isCapture with
      | true =>
        cases parseAttributesInto tag.attributes [] with
        | error e => exact .error _
        | ok attrs =>
          cases desc.needs.isCapture with
          | true =>
            simp only [if_true, orError_ok, ok_bind]
            generalize CaptureBuilder.new tree.captureMemoryLimit (formatPath desc.fullPath) = builder
            cases builder.startElement tagName attrs with
            | error e => exact .error _
            | ok builder => exact .ok ⟨hrest, hrest', ⟨_, _, _⟩, rfl⟩
          | false => exact .ok ⟨hrest, hrest', ⟨_, _, _⟩, rfl⟩
      | false =>
        cases desc.needs.isCapture with
        | true =>
          simp only [if_true]
          generalize CaptureBuilder.new tree.captureMemoryLimit (formatPath desc.fullPath) = builder
          cases builder.startElement tagName [] with
          | error e => exact .error _
          | ok builder => exact .ok ⟨hclean, hclean', ⟨_, _, _⟩, rfl⟩
        | false => exact .ok ⟨hclean, hclean', ⟨_, _, _⟩, rfl⟩

lemma handleStart_same (h : SameButPools s s') (tag : BytesStart) :
    SameStart (handleStart checks tree tag s) (handleStart checks tree tag s') := by
  obtain ⟨hclean, hclean', p, rfl⟩ := h
  obtain ⟨hattrs, hrest⟩ := hclean.acquire
  obtain ⟨hattrs', hrest'⟩ := hclean'.acquire
  obtain ⟨contexts, descriptors, mode, skipDepth, counters, maps, frames, attrPool, out⟩ := s
  unfold handleStart
  change SameStart (if skipDepth > 0 then _ else _) (if skipDepth > 0 then _ else _)
  split_ifs with hskip
  · exact .ok ⟨hclean, hclean', p, rfl⟩
  cases mode with
  | capturing builder depth descriptorId contextStackIndex =>
    simp only [ParserState.repool] at hattrs hrest hattrs' hrest' ⊢
    cases fromUtf8 tag.name with
    | error e => exact .error _
    | ok tagName =>
      simp only [ok_mapError, orError_ok, ok_bind, hattrs, hattrs']
      cases parseAttributesInto tag.attributes [] with
      | error e => exact .error _
      | ok attrs =>
        simp only [orError_ok, ok_bind]
        cases builder.startElement tagName attrs with
        | error e => exact .error _
        | ok builder => exact .ok ⟨hrest, hrest', ⟨p.siblingPool, p.ctxPool, p.attrPool.acquire.2⟩, rfl⟩
  | streaming =>
    simp only [ParserState.repool] at hclean' ⊢
    cases fromUtf8 tag.name with
    | error e => exact .error _
    | ok tagName =>
      simp only [ok_mapError, orError_ok, ok_bind]
      cases lookupDescriptor tree descriptors tagName with
      | error e => exact .error _
      | ok child =>
        simp only [orPanic_ok, ok_bind]
        cases child with
        | some id => exact openElement_same ⟨hclean, hclean', p, rfl⟩ tag tagName id
        | none => exact .ok ⟨hclean, hclean', p, rfl⟩

lemma handleText_same (h : SameButPools s s') (text : BytesText) :
    SameStart (handleText tree text s) (handleText tree text s') := by
  obtain ⟨hclean, hclean', p, rfl⟩ := h
  obtain ⟨contexts, descriptors, mode, skipDepth, counters, maps, frames, attrPool, out⟩ := s
  unfold handleText
  change SameStart (if skipDepth = 0 then _ else _) (if skipDepth = 0 then _ else _)
  split_ifs with hskip
  case neg => exact .ok ⟨hclean, hclean', p, rfl⟩
  cases mode with
  | capturing builder depth descriptorId contextStackIndex =>
    simp only [ParserState.repool] at hclean' ⊢
    cases text.decode with
    | error e => exact .error _
    | ok decoded =>
      simp only [orError_ok, ok_bind]
      split_ifs with hempty
      · exact .ok ⟨hclean, hclean', p, rfl⟩
      · cases builder.text decoded with
        | error e => exact .error _
        | ok builder => exact .ok ⟨hclean, hclean', p, rfl⟩
  | streaming =>
    simp only [ParserState.repool] at hclean' ⊢
    cases contexts.getLast? with
    | none => exact .ok ⟨hclean, hclean', p, rfl⟩
    | some ctx =>
      dsimp only
      cases tree.get ctx.descriptorId with
      | error e => exact .error _
      | ok desc =>
        simp only [orPanic_ok, ok_bind]
        split_ifs with hneed
        · cases text.decode with
          | error e => exact .error _
          | ok decoded =>
            simp only [orError_ok, ok_bind]
            split_ifs with hempty
            · exact .ok ⟨hclean, hclean', p, rfl⟩
            · exact .ok ⟨hclean, hclean', p, rfl⟩
        · exact .ok ⟨hclean, hclean', p, rfl⟩

lemma recycleCounters_same (h : SameButPools s s') : SameButPools (recycleCounters s) (recycleCounters s') := by
  obtain ⟨hclean, hclean', p, rfl⟩ := h
  obtain ⟨contexts, descriptors, mode, skipDepth, counters, maps, frames, attrPool, out⟩ := s
  simp only [recycleCounters, ParserState.repool] at hclean' ⊢
  cases counters.getLast? with
  | none => exact ⟨hclean, hclean', p, rfl⟩
  | some last => exact ⟨hclean, hclean', ⟨p.siblingPool ++ [last], p.ctxPool, p.attrPool⟩, rfl⟩

lemma attempt_same {α : Type} {r : Except Stop α} {out : Output R} {k k' : α → Flow R}
    (hk : ∀ a, SameFlow (k a) (k' a)) : SameFlow (Flow.attempt out r k) (Flow.attempt out r k') := by
  cases r with
  | error why => exact .stop why out
  | ok a => exact hk a

variable [Rule R]

lemma closeCapture_same (h : SameButPools s s') (builder : CaptureBuilder) (id : NodeId) (i : ℕ) :
    SameFlow (closeCapture checks tree builder id i s) (closeCapture checks tree builder id i s') := by
  obtain ⟨hclean, hclean', p, rfl⟩ := h
  refine attempt_same fun closed => attempt_same fun ruleResults => attempt_same fun popped => ?_
  exact .next (recycleCounters_same
    ⟨hclean, hclean', ⟨p.siblingPool, p.ctxPool.release popped, p.attrPool⟩, rfl⟩)

lemma closeStreaming_same (h : SameButPools s s') :
    SameFlow (closeStreaming checks tree s) (closeStreaming checks tree s') := by
  obtain ⟨hclean, hclean', p, rfl⟩ := h
  have hrecycled : SameButPools (recycleCounters { s with descriptorStack := s.descriptorStack.dropLast })
      (recycleCounters { s.repool p with descriptorStack := (s.repool p).descriptorStack.dropLast }) :=
    recycleCounters_same ⟨hclean, hclean', p, rfl⟩
  unfold closeStreaming
  dsimp only
  generalize recycleCounters { s with descriptorStack := s.descriptorStack.dropLast } = t at hrecycled ⊢
  generalize recycleCounters { s.repool p with descriptorStack := (s.repool p).descriptorStack.dropLast } = t'
    at hrecycled ⊢
  obtain ⟨hclean, hclean', q, rfl⟩ := hrecycled
  simp only [ParserState.repool] at hclean' ⊢
  cases t.contextStack.getLast? with
  | none => exact .next ⟨hclean, hclean', q, rfl⟩
  | some ctx =>
    exact attempt_same fun descriptor => attempt_same fun ruleResults => .next ⟨hclean, hclean', q, rfl⟩

lemma handleEnd_same (h : SameButPools s s') : SameFlow (handleEnd checks tree s) (handleEnd checks tree s') := by
  obtain ⟨hclean, hclean', p, rfl⟩ := h
  obtain ⟨contexts, descriptors, mode, skipDepth, counters, maps, frames, attrPool, out⟩ := s
  unfold handleEnd
  change SameFlow (if skipDepth > 0 then _ else _) (if skipDepth > 0 then _ else _)
  split_ifs with hskip
  · exact .next ⟨hclean, hclean', p, rfl⟩
  cases mode with
  | capturing builder depth descriptorId contextStackIndex =>
    refine attempt_same fun depth' => ?_
    split_ifs with hzero
    · exact closeCapture_same ⟨hclean, hclean', p, rfl⟩ builder descriptorId contextStackIndex
    · exact attempt_same fun builder' => .next ⟨hclean, hclean', p, rfl⟩
  | streaming => exact closeStreaming_same ⟨hclean, hclean', p, rfl⟩

lemma step_same (h : SameButPools s s') (event : Event) :
    SameFlow (step checks tree event s) (step checks tree event s') := by
  have hout : s'.out = s.out := by
    obtain ⟨-, -, p, rfl⟩ := h
    rfl
  cases event with
  | start tag =>
    simp only [step, hout]
    exact (handleStart_same h tag).flow fun h => .next h
  | close => exact handleEnd_same h
  | empty tag =>
    simp only [step, hout]
    exact (handleStart_same h tag).flow handleEnd_same
  | leaf leaf =>
    cases leaf with
    | text text =>
      simp only [step, hout]
      exact (handleText_same h text).flow fun h => .next h
    | _ => exact .next h

end Steps

/-- What the pools hold makes no difference to a run of the loop: from a state with other pools it reaches the same
states but for the pools, evaluates the same rules, sends the same diagnostics and stops with the same error. The
pooled counter maps and frames are any. The attribute vectors in the pools are empty: `acquire` hands them out as
they are, and the code puts none back. -/
theorem pools_unobservable [Rule R] {checks : OverflowChecks} {tree : DescriptorTree R} {s s' : ParserState R}
    (h : SameButPools s s') (events : List (Except XmlError Event)) :
    SameFlow (eventLoop checks tree events s) (eventLoop checks tree events s') := by
  induction events generalizing s s' with
  | nil => exact .next h
  | cons e events ih =>
    cases e with
    | error e =>
      obtain ⟨-, -, p, rfl⟩ := h
      exact .stop _ _
    | ok event =>
      have hstep : SameFlow (step checks tree event s) (step checks tree event s') := step_same h event
      simp only [eventLoop]
      generalize step checks tree event s = flow at hstep ⊢
      generalize step checks tree event s' = flow' at hstep ⊢
      cases hstep with
      | next h => exact ih h
      | stop why out => exact .stop why out

/-- Pools that hold a used counter map, a used frame and an empty vector. -/
def usedPools : Pools :=
  ⟨[[(5, 7)]], ⟨[{ attrs := [("k", "1")], text := "x", children := [], descriptorId := ⟨1⟩, index := 3 }]⟩,
    ⟨[[]]⟩⟩

theorem pools_unobservable_sample :
    SameFlow (eventLoop .checked sampleTree.tree (sampleDocument.tokens.map .ok) .init)
      (eventLoop .checked sampleTree.tree (sampleDocument.tokens.map .ok) (ParserState.init.repool usedPools)) :=
  pools_unobservable
    ⟨fun _ h => absurd h List.not_mem_nil, fun _ h => List.mem_singleton.mp h, usedPools, rfl⟩ _

end XmlOxydizer
