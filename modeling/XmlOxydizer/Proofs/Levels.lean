import XmlOxydizer.Library.Lists
import XmlOxydizer.Proofs.Content

/-!
# Open levels

An open element that the parser tracks is a level: its node, what has been read of it, its
stack frame and what its sibling counters have counted. This file states what the parser
knows about a level and proves that it is kept when the element gets more content.
-/

namespace XmlOxydizer

open Markup

variable {R : Type}

/-- The tags from the root to the innermost open element. -/
def tagsOf (z : OpenElements) : List String := z.map (fun f => f.label.tagName)

@[simp] lemma tagsOf_nil : tagsOf [] = [] := rfl

@[simp] lemma tagsOf_append (z w : OpenElements) : tagsOf (z ++ w) = tagsOf z ++ tagsOf w := by
  simp [tagsOf]

@[simp] lemma tagsOf_cons (f : Frame BytesStart LeafEvent) (z : OpenElements) :
    tagsOf (f :: z) = f.label.tagName :: tagsOf z := rfl

@[simp] lemma length_tagsOf (z : OpenElements) : (tagsOf z).length = z.length := by simp [tagsOf]

@[simp] lemma tagsOf_extend (z : OpenElements) (g : Content) : tagsOf (z.extend g) = tagsOf z := by
  induction z using List.reverseRecOn with
  | nil => rfl
  | append_singleton z f => simp

section Readable

def BytesStart.Readable (tag : BytesStart) : Prop := tag.nameFault = none ∧ tag.attrsFault = none

/-- Every name, attribute and text of a content can be decoded. -/
def Readable : Content → Prop
  | .nil => True
  | .element tag content rest => tag.Readable ∧ Readable content ∧ Readable rest
  | .leaf leaf rest => leaf.fault = none ∧ Readable rest

instance (tag : BytesStart) : Decidable tag.Readable := inferInstanceAs (Decidable (_ ∧ _))

instance Readable.decidable : (g : Content) → Decidable (Readable g)
  | .nil => inferInstanceAs (Decidable True)
  | .element tag content rest =>
    have := decidable content
    have := decidable rest
    inferInstanceAs (Decidable (tag.Readable ∧ Readable content ∧ Readable rest))
  | .leaf leaf rest =>
    have := decidable rest
    inferInstanceAs (Decidable (leaf.fault = none ∧ Readable rest))

@[simp] lemma readable_append (g h : Content) : Readable (g ++ h) ↔ Readable g ∧ Readable h := by
  induction g with
  | nil => simp [Readable]
  | element tag content rest _ ih => simp [Readable, ih, and_assoc]
  | leaf leaf rest ih => simp [Readable, ih, and_assoc]

/-- Every text directly inside an element can be decoded. -/
def TextReadable (content : Content) : Prop := ∀ leaf ∈ content.leaves, leaf.fault = none

@[simp] lemma textReadable_append (g h : Content) :
    TextReadable (g ++ h) ↔ TextReadable g ∧ TextReadable h := by
  simp [TextReadable, or_imp, forall_and]

@[simp] lemma textReadable_element (tag : BytesStart) (content : Content) :
    TextReadable (.element tag content .nil) := by
  simp [TextReadable, Forest.leaves]

@[simp] lemma textReadable_leaf (leaf : LeafEvent) :
    TextReadable (.leaf leaf .nil) ↔ leaf.fault = none := by
  simp [TextReadable, Forest.leaves]

lemma Readable.text {content : Content} (h : Readable content) : TextReadable content := by
  induction content with
  | nil => simp [TextReadable, Forest.leaves]
  | element tag content rest _ ih => exact ih h.2.2
  | leaf leaf rest ih =>
    intro l hl
    rcases List.mem_cons.mp hl with rfl | hl
    · exact h.1
    · exact ih h.2 l hl

end Readable

namespace DescriptorTree

/-- Whether the attributes of an element of this node are kept. -/
def keepsAttrs (tree : DescriptorTree R) (id : NodeId) : Bool :=
  (tree.desc id).needAttrs || tree.isCapture id

/-- Whether the text of an element of this node is kept in its stack frame. -/
def keepsText (tree : DescriptorTree R) (id : NodeId) : Bool :=
  !tree.isCapture id && (tree.desc id).needText

end DescriptorTree

/-- A summary of a child: the data that the summary needs of the child's node ask for. -/
structure Summarizes (tree : DescriptorTree R) (child : ChildElement) (summary : ChildSummary) :
    Prop where
  descriptorId_eq : summary.descriptorId = child.id
  attrs_eq : summary.attrs =
    if (tree.desc child.id).summaryNeeds.has 0 then child.label.attrs else []
  attrs_ok : (tree.desc child.id).summaryNeeds.has 0 = true → child.label.attrsFault = none
  text_eq : summary.text =
    if (tree.desc child.id).summaryNeeds.has 1 then directText child.content else ""
  text_ok : (tree.desc child.id).summaryNeeds.has 1 = true → TextReadable child.content

/-- An open element that is declared: its node, what has been read of it, its stack frame
and the tags that its sibling counters have counted. -/
structure Level where
  id : NodeId
  frame : Frame BytesStart LeafEvent
  ctx : NodeContext
  counted : List String

namespace Level

def tag (l : Level) : String := l.frame.label.tagName

/-- The level after more content has been read. -/
def extend (l : Level) (g : Content) : Level :=
  { l with frame := ⟨l.frame.label, l.frame.content ++ g⟩ }

@[simp] lemma extend_id (l : Level) (g : Content) : (l.extend g).id = l.id := rfl
@[simp] lemma extend_ctx (l : Level) (g : Content) : (l.extend g).ctx = l.ctx := rfl
@[simp] lemma extend_counted (l : Level) (g : Content) : (l.extend g).counted = l.counted := rfl
@[simp] lemma extend_tag (l : Level) (g : Content) : (l.extend g).tag = l.tag := rfl
@[simp] lemma extend_frame (l : Level) (g : Content) :
    (l.extend g).frame = ⟨l.frame.label, l.frame.content ++ g⟩ := rfl

/-- The children that have left a summary, by tag. -/
def summarizedTags (tree : DescriptorTree R) (l : Level) : List String :=
  (summarizedChildren tree l.id l.frame.content).map ChildElement.tag

end Level

/-- What the stack frame of a level holds. -/
structure LevelOk (tree : DescriptorTree R) (l : Level) : Prop where
  contains : tree.Contains l.id
  descriptorId_eq : l.ctx.descriptorId = l.id
  name_ok : l.frame.label.nameFault = none
  attrs_eq : l.ctx.attrs = if tree.keepsAttrs l.id then l.frame.label.attrs else []
  attrs_ok : tree.keepsAttrs l.id = true → l.frame.label.attrsFault = none
  text_eq : l.ctx.text = if tree.keepsText l.id then directText l.frame.content else ""
  text_ok : tree.keepsText l.id = true → TextReadable l.frame.content
  children : List.Forall₂ (Summarizes tree) (summarizedChildren tree l.id l.frame.content)
    l.ctx.children
  indices : l.ctx.children.map ChildSummary.index = siblingIndices (l.summarizedTags tree)

/-- A level and the declared child that is open inside it. -/
structure Linked (tree : DescriptorTree R) (p c : Level) : Prop where
  child_eq : tree.child [p.id] c.tag = some c.id
  counted_eq : p.counted = p.summarizedTags tree ++ [c.tag]
  index_eq : c.ctx.index = siblingIndex (p.summarizedTags tree) c.tag

/-- The levels of a chain of open declared elements, outermost first. -/
structure OpenLevels (tree : DescriptorTree R) (levels : List Level) : Prop where
  ok : ∀ l ∈ levels, LevelOk tree l
  linked : levels.IsChain (Linked tree)
  counted_last : ∀ l ∈ levels.getLast?, l.counted = l.summarizedTags tree
  root_index : ∀ l ∈ levels.head?, l.ctx.index = 0
  walk_eq : tree.walk (tagsOf (levels.map Level.frame)) = ⟨levels.map Level.id, 0⟩

section Extend

variable {tree : DescriptorTree R} {l : Level}

@[simp] lemma summarizedChildren_append (id : NodeId) (g h : Content) :
    summarizedChildren tree id (g ++ h) =
      summarizedChildren tree id g ++ summarizedChildren tree id h := by
  unfold summarizedChildren
  split <;> simp [declaredChildren]

@[simp] lemma summarizedChildren_leaf (id : NodeId) (leaf : LeafEvent) :
    summarizedChildren tree id (.leaf leaf .nil) = [] := by
  simp [summarizedChildren, declaredChildren, Forest.elements]

lemma summarizedChildren_capture {id : NodeId} (h : tree.isCapture id = true) (g : Content) :
    summarizedChildren tree id g = [] := by
  simp [summarizedChildren, h]

lemma summarizedChildren_undeclared {id : NodeId} {tag : BytesStart}
    (h : tree.child [id] tag.tagName = none) (content : Content) :
    summarizedChildren tree id (.element tag content .nil) = [] := by
  simp [summarizedChildren, declaredChildren, Forest.elements, h]

lemma summarizedChildren_declared {id c : NodeId} {tag : BytesStart}
    (hcapture : tree.isCapture id = false) (h : tree.child [id] tag.tagName = some c)
    (content : Content) :
    summarizedChildren tree id (.element tag content .nil) = [⟨c, tag, content⟩] := by
  simp [summarizedChildren, hcapture, declaredChildren, Forest.elements, h]

/-- Content that holds neither text nor a declared child changes nothing. -/
lemma LevelOk.extend_silent (h : LevelOk tree l) {g : Content}
    (hchildren : summarizedChildren tree l.id g = []) (htext : tree.keepsText l.id = true →
      directText g = "" ∧ TextReadable g) : LevelOk tree (l.extend g) := by
  have htags : (l.extend g).summarizedTags tree = l.summarizedTags tree := by
    simp [Level.summarizedTags, hchildren]
  constructor
  case contains => exact h.contains
  case descriptorId_eq => exact h.descriptorId_eq
  case name_ok => exact h.name_ok
  case attrs_eq => exact h.attrs_eq
  case attrs_ok => exact h.attrs_ok
  case text_eq =>
    cases hkeeps : tree.keepsText l.id with
    | true => simp [h.text_eq, hkeeps, (htext hkeeps).1]
    | false => simp [h.text_eq, hkeeps]
  case text_ok =>
    intro hkeeps
    exact (textReadable_append _ _).mpr ⟨h.text_ok hkeeps, (htext hkeeps).2⟩
  case children => simpa [hchildren] using h.children
  case indices => rw [htags]; exact h.indices

/-- A text event is appended to the text, where the text is kept. -/
lemma LevelOk.extend_text (h : LevelOk tree l) {leaf : LeafEvent}
    (hkeeps : tree.keepsText l.id = true) (hok : leaf.fault = none) :
    LevelOk tree { l.extend (.leaf leaf .nil) with
      ctx := { l.ctx with text := l.ctx.text ++ leaf.chars } } := by
  have htags : Level.summarizedTags tree { l.extend (.leaf leaf .nil) with
      ctx := { l.ctx with text := l.ctx.text ++ leaf.chars } } = l.summarizedTags tree := by
    simp [Level.summarizedTags]
  constructor
  case contains => exact h.contains
  case descriptorId_eq => exact h.descriptorId_eq
  case name_ok => exact h.name_ok
  case attrs_eq => exact h.attrs_eq
  case attrs_ok => exact h.attrs_ok
  case text_eq => simp [h.text_eq, hkeeps]
  case text_ok => simp [h.text_ok hkeeps, hok]
  case children => simpa using h.children
  case indices => rw [htags]; exact h.indices

/-- A declared child that closes leaves its summary. -/
lemma LevelOk.extend_child (h : LevelOk tree l) (hcapture : tree.isCapture l.id = false)
    (child : ChildElement) (hchild : tree.child [l.id] child.tag = some child.id)
    {summary : ChildSummary} (hsummary : Summarizes tree child summary)
    (hindex : summary.index = siblingIndex (l.summarizedTags tree) child.tag) :
    LevelOk tree { l.extend (.element child.label child.content .nil) with
      ctx := { l.ctx with children := l.ctx.children ++ [summary] } } := by
  have hnew := summarizedChildren_declared hcapture hchild child.content
  have htags : Level.summarizedTags tree { l.extend (.element child.label child.content .nil) with
      ctx := { l.ctx with children := l.ctx.children ++ [summary] } } =
      l.summarizedTags tree ++ [child.tag] := by
    simp [Level.summarizedTags, hnew, ChildElement.tag]
  constructor
  case contains => exact h.contains
  case descriptorId_eq => exact h.descriptorId_eq
  case name_ok => exact h.name_ok
  case attrs_eq => exact h.attrs_eq
  case attrs_ok => exact h.attrs_ok
  case text_eq => simp [h.text_eq]
  case text_ok => simpa using h.text_ok
  case children =>
    simp only [Level.extend_id, Level.extend_frame, summarizedChildren_append, hnew]
    exact Lists.forall₂_concat h.children hsummary
  case indices =>
    rw [htags, siblingIndices_concat, List.map_append, h.indices, List.map_singleton, hindex]

end Extend

end XmlOxydizer
