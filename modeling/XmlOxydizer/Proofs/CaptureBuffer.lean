import XmlOxydizer.Proofs.Levels

/-!
# The capture buffer

The stack of a `CaptureBuilder` is the mini-DOM of the open elements from the captured one
on, its memory usage is their cost, and it fails at the first event that takes the cost
over the limit.
-/

namespace XmlOxydizer

open Markup

variable {R : Type}

/-- The capture of node `id` that overflows at this cost. -/
def overflowFault (tree : DescriptorTree R) (id : NodeId) (cost : ℕ) : Option ReaderError :=
  if cost > tree.captureMemoryLimit then
    some (.captureOverflow (formatPath (tree.desc id).fullPath) tree.captureMemoryLimit)
  else none

/-- The error of a token that cannot be decoded. -/
def decodeFault : Event → Option ReaderError
  | .start tag => tag.nameFault <|> tag.attrsFault
  | .empty tag => tag.nameFault <|> tag.attrsFault
  | .close => none
  | .leaf leaf => leaf.fault

/-- What a token adds to the cost of a capture. -/
def tokenCost : Event → ℕ
  | .start tag => elementCost tag.tagName tag.attrs
  | .empty tag => elementCost tag.tagName tag.attrs
  | .close => 0
  | .leaf leaf => leaf.chars.utf8ByteSize

/-- The error that a token leads to inside a capture that has been charged `total`. -/
def captureFault (tree : DescriptorTree R) (id : NodeId) (total : ℕ) (tok : Event) : Option ReaderError :=
  decodeFault tok <|> overflowFault tree id (total + tokenCost tok)

/-- Everything in these open elements can be decoded. -/
def SpineReadable (zs : OpenElements) : Prop := ∀ f ∈ zs, f.label.Readable ∧ Readable f.content

lemma SpineReadable.concat {zs : OpenElements} (h : SpineReadable zs) {tag : BytesStart}
    (htag : tag.Readable) : SpineReadable (zs ++ [⟨tag, .nil⟩]) := by
  intro f hf
  rcases List.mem_append.mp hf with hf | hf
  · exact h f hf
  · rw [List.mem_singleton.mp hf]
    exact ⟨htag, trivial⟩

lemma SpineReadable.extend {zs : OpenElements} (h : SpineReadable zs) {g : Content}
    (hg : Readable g) : SpineReadable (zs.extend g) := by
  rcases List.eq_nil_or_concat' zs with rfl | ⟨w, p, rfl⟩
  · exact h
  · intro f hf
    rw [Spine.extend_concat] at hf
    rcases List.mem_append.mp hf with hf | hf
    · exact h f (by simp [hf])
    · have hp := h p (by simp)
      rw [List.mem_singleton.mp hf]
      exact ⟨hp.1, (readable_append _ _).mpr ⟨hp.2, hg⟩⟩

/-- The buffer of a capture of node `id` holds the open elements from the captured one on. -/
structure BuilderOk (tree : DescriptorTree R) (id : NodeId) (zs : OpenElements)
    (b : CaptureBuilder) : Prop where
  stack_eq : b.stack = zs.map buildNode
  usage_eq : b.memoryUsage = spineCost zs
  limit_eq : b.memoryLimit = tree.captureMemoryLimit
  usage_le : b.memoryUsage ≤ b.memoryLimit
  path_eq : b.pathForError = formatPath (tree.desc id).fullPath
  readable : SpineReadable zs

section Builder

variable {tree : DescriptorTree R} {id : NodeId} {zs : OpenElements} {b : CaptureBuilder}

variable (tree id b) in
lemma checkLimit_eq (hlimit : b.memoryLimit = tree.captureMemoryLimit)
    (hpath : b.pathForError = formatPath (tree.desc id).fullPath) :
    b.checkLimit =
      match overflowFault tree id b.memoryUsage with
      | none => .ok ()
      | some e => .error e := by
  simp only [CaptureBuilder.checkLimit, overflowFault, hlimit, hpath]
  split <;> rfl

/-- A new element of a capture is charged and put on the stack. -/
inductive StartElementOk (tree : DescriptorTree R) (id : NodeId) (zs : OpenElements)
    (tag : BytesStart) : Except ReaderError CaptureBuilder → Prop
  | ok (b : CaptureBuilder) (hb : BuilderOk tree id (zs ++ [⟨tag, .nil⟩]) b)
      (hfault : overflowFault tree id (spineCost zs +
        elementCost tag.tagName tag.attrs) = none) :
      StartElementOk tree id zs tag (.ok b)
  | overflow (e : ReaderError) (hfault : overflowFault tree id (spineCost zs +
        elementCost tag.tagName tag.attrs) = some e) :
      StartElementOk tree id zs tag (.error e)

lemma startElement_ok {tag : BytesStart} (hread : tag.Readable) (hstack : b.stack = zs.map buildNode)
    (husage : b.memoryUsage = spineCost zs) (hlimit : b.memoryLimit = tree.captureMemoryLimit)
    (hpath : b.pathForError = formatPath (tree.desc id).fullPath)
    (hzs : SpineReadable zs) :
    StartElementOk tree id zs tag (b.startElement tag.tagName tag.attrs) := by
  let cost := spineCost zs + elementCost tag.tagName tag.attrs
  let charged : CaptureBuilder := { b with memoryUsage := cost }
  have hcheck := checkLimit_eq tree id charged hlimit hpath
  have hstart : b.startElement tag.tagName tag.attrs = (do
      charged.checkLimit
      return { charged with stack := charged.stack ++ [⟨tag.tagName, tag.attrs, "", []⟩] }) := by
    simp only [CaptureBuilder.startElement, elementSize_eq, husage, charged, cost]
  rw [hstart, hcheck]
  cases hfault : overflowFault tree id cost with
  | some e => simpa [charged, hfault] using StartElementOk.overflow e hfault
  | none =>
    simp only [charged, ok_bind, except_pure]
    refine .ok _ ⟨?_, ?_, hlimit, ?_, hpath, hzs.concat hread⟩ hfault
    · simp [hstack, buildNode, buildNodes]
    · simp [cost, frameCost, contentCost]
    · simp only [overflowFault] at hfault
      split at hfault
      case isTrue => cases hfault
      case isFalse hle => simpa [hlimit] using hle

lemma BuilderOk.startElement (h : BuilderOk tree id zs b) (tag : BytesStart) (hread : tag.Readable) :
    StartElementOk tree id zs tag (b.startElement tag.tagName tag.attrs) :=
  startElement_ok hread h.stack_eq h.usage_eq h.limit_eq h.path_eq h.readable

variable (tree id) in
lemma new_startElement (tag : BytesStart) (hread : tag.Readable) :
    StartElementOk tree id [] tag
      ((CaptureBuilder.new tree.captureMemoryLimit (formatPath (tree.desc id).fullPath)).startElement
        tag.tagName tag.attrs) :=
  startElement_ok hread rfl rfl rfl rfl (by simp [SpineReadable])

variable (zs) in
/-- An inner element of a capture moves to the children of its parent. -/
lemma BuilderOk.endElement {f : Frame BytesStart LeafEvent} (h : BuilderOk tree id (zs ++ [f]) b)
    (hzs : zs ≠ []) : ∃ b', b.endElement = .ok b' ∧
      BuilderOk tree id (zs.extend (.element f.label f.content .nil)) b' := by
  obtain ⟨w, p, rfl⟩ := (List.eq_nil_or_concat' zs).resolve_left hzs
  have hstack : b.stack = w.map buildNode ++ [buildNode p] ++ [buildNode f] := by simp [h.stack_eq]
  refine ⟨_, by simp only [CaptureBuilder.endElement, hstack, List.getLast?_concat,
    List.dropLast_concat, expect_some, ok_bind, except_pure]; rfl, ?_⟩
  have hf := h.readable f (by simp)
  have hzs : SpineReadable (w ++ [p]) := fun g hg => h.readable g (List.mem_append_left _ hg)
  constructor
  case stack_eq => simp [buildNode, buildNodes]
  case usage_eq =>
    simp only [h.usage_eq, Spine.extend_concat, spineCost_append, spineCost_singleton, frameCost,
      contentCost_append, contentCost]
    omega
  case limit_eq => exact h.limit_eq
  case usage_le => exact h.usage_le
  case path_eq => exact h.path_eq
  case readable => exact hzs.extend ⟨hf.1, hf.2, trivial⟩

/-- At the end of the captured element the buffer is its mini-DOM. -/
lemma BuilderOk.finalize {f : Frame BytesStart LeafEvent} (h : BuilderOk tree id [f] b) :
    (do let b ← b.endElement; b.finalize) = .ok (dom f.label f.content) := by
  have hstack : b.stack = [buildNode f] := by simp [h.stack_eq]
  simp only [CaptureBuilder.endElement, hstack, List.getLast?_singleton, expect_some, ok_bind,
    List.dropLast_singleton, List.getLast?_nil, except_pure, List.nil_append,
    CaptureBuilder.finalize, List.head?_cons, buildArenaNode_eq]

/-- A text of a capture is charged and appended to the innermost element. -/
inductive TextOk (tree : DescriptorTree R) (id : NodeId) (zs : OpenElements) (leaf : LeafEvent) :
    Except ReaderError CaptureBuilder → Prop
  | ok (b : CaptureBuilder) (hb : BuilderOk tree id (zs.extend (.leaf leaf .nil)) b)
      (hfault : overflowFault tree id (spineCost zs + leaf.chars.utf8ByteSize) = none) :
      TextOk tree id zs leaf (.ok b)
  | overflow (e : ReaderError)
      (hfault : overflowFault tree id (spineCost zs + leaf.chars.utf8ByteSize) = some e) :
      TextOk tree id zs leaf (.error e)

lemma BuilderOk.overflowFault_eq_none (h : BuilderOk tree id zs b) :
    overflowFault tree id (spineCost zs) = none := by
  have hle := h.usage_le
  rw [h.usage_eq, h.limit_eq] at hle
  simp [overflowFault, hle]

/-- An event without characters leaves the buffer as it is. -/
lemma BuilderOk.extend_blank (h : BuilderOk tree id zs b) (hzs : zs ≠ []) {leaf : LeafEvent}
    (hfault : leaf.fault = none) (hblank : leaf.chars = "") :
    BuilderOk tree id (zs.extend (.leaf leaf .nil)) b := by
  obtain ⟨w, p, rfl⟩ := (List.eq_nil_or_concat' zs).resolve_left hzs
  constructor
  case stack_eq => simp [h.stack_eq, buildNode, buildNodes, hblank]
  case usage_eq => simp [h.usage_eq, frameCost, contentCost, hblank]
  case limit_eq => exact h.limit_eq
  case usage_le => exact h.usage_le
  case path_eq => exact h.path_eq
  case readable => exact h.readable.extend ⟨hfault, trivial⟩

lemma BuilderOk.text (h : BuilderOk tree id zs b) (hzs : zs ≠ []) {leaf : LeafEvent}
    (hread : leaf.fault = none) : TextOk tree id zs leaf (b.text leaf.chars) := by
  by_cases hblank : leaf.chars = ""
  · have htext : b.text leaf.chars = .ok b := by simp [CaptureBuilder.text, hblank]
    rw [htext]
    exact .ok b (h.extend_blank hzs hread hblank) (by simpa [hblank] using h.overflowFault_eq_none)
  · let cost := spineCost zs + leaf.chars.utf8ByteSize
    let charged : CaptureBuilder := { b with memoryUsage := cost }
    obtain ⟨w, p, rfl⟩ := (List.eq_nil_or_concat' zs).resolve_left hzs
    have hcheck := checkLimit_eq tree id charged h.limit_eq h.path_eq
    have hstack : b.stack = w.map buildNode ++ [buildNode p] := by simp [h.stack_eq]
    have htext : b.text leaf.chars = (do
        charged.checkLimit
        return { charged with
          stack := w.map buildNode ++
            [{ buildNode p with text := directText p.content ++ leaf.chars }] }) := by
      simp only [CaptureBuilder.text, String.isEmpty_iff, hblank, if_false, h.usage_eq, charged, cost,
        hstack, List.getLast?_concat, List.dropLast_concat]
      by_cases hempty : directText p.content = ""
      · simp [buildNode, hempty]
      · simp [buildNode, hempty]
    rw [htext, hcheck]
    cases hfault : overflowFault tree id cost with
    | some e => simpa [charged, hfault] using TextOk.overflow e hfault
    | none =>
      simp only [charged, ok_bind, except_pure]
      refine .ok _ ⟨?_, ?_, h.limit_eq, ?_, h.path_eq, h.readable.extend ⟨hread, trivial⟩⟩ hfault
      · simp [buildNode, buildNodes]
      · simp only [cost, Spine.extend_concat, spineCost_append, spineCost_singleton, frameCost,
          contentCost_append, contentCost]
        omega
      · simp only [overflowFault] at hfault
        split at hfault
        case isTrue => cases hfault
        case isFalse hle => simpa [h.limit_eq] using hle

end Builder

end XmlOxydizer
