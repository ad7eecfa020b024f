import XmlOxydizer.Rust

/-!
# Paths and descriptor trees

`tree/path.rs` and `tree/descriptor.rs`: the declared shape of a document, with the rules
of each node and the bit sets that say which data the parser has to keep.
-/

namespace XmlOxydizer

/-- A single segment of an element path. Equality and order are those of the string. -/
@[ext] structure PathSegment where
  str : String
  deriving DecidableEq

/-- An index into a tree's node array. The source stores it as a `u32`, for trees of fewer
than 2^32 declarations. -/
@[ext] structure NodeId where
  val : ℕ
  deriving DecidableEq

/-- `format_path`: the segments separated by slashes. -/
def formatPath (segments : List PathSegment) : String :=
  String.intercalate "/" (segments.map PathSegment.str)

/-- Bitflags for the data that a node or a rule needs. -/
structure NodeNeeds where
  bits : UInt8
  deriving DecidableEq

namespace NodeNeeds

def attrs : NodeNeeds := ⟨0x01⟩
def text : NodeNeeds := ⟨0x02⟩
def children : NodeNeeds := ⟨0x04⟩
def capture : NodeNeeds := ⟨0x08⟩

def empty : NodeNeeds := ⟨0⟩

/-- Attributes, text and children, but not capture. -/
def all : NodeNeeds := ⟨0x07⟩

def contains (self other : NodeNeeds) : Bool := self.bits &&& other.bits == other.bits

def isCapture (self : NodeNeeds) : Bool := self.bits &&& 0x08 != 0

def union (self other : NodeNeeds) : NodeNeeds := ⟨self.bits ||| other.bits⟩

instance : OrOp NodeNeeds := ⟨union⟩

/-- Bit `i` of the flags. -/
def has (self : NodeNeeds) (i : ℕ) : Bool := self.bits.toBitVec.getLsbD i

section Flags

set_option maxRecDepth 10000

@[simp] lemma contains_attrs (n : NodeNeeds) : n.contains .attrs = n.has 0 := by
  obtain ⟨⟨v⟩⟩ := n
  revert v
  decide

@[simp] lemma contains_text (n : NodeNeeds) : n.contains .text = n.has 1 := by
  obtain ⟨⟨v⟩⟩ := n
  revert v
  decide

@[simp] lemma contains_children (n : NodeNeeds) : n.contains .children = n.has 2 := by
  obtain ⟨⟨v⟩⟩ := n
  revert v
  decide

@[simp] lemma contains_capture (n : NodeNeeds) : n.contains .capture = n.has 3 := by
  obtain ⟨⟨v⟩⟩ := n
  revert v
  decide

@[simp] lemma isCapture_eq (n : NodeNeeds) : n.isCapture = n.has 3 := by
  obtain ⟨⟨v⟩⟩ := n
  revert v
  decide

end Flags

@[simp] lemma has_or (a b : NodeNeeds) (i : ℕ) : (a ||| b).has i = (a.has i || b.has i) := by
  change (a.bits ||| b.bits).toBitVec.getLsbD i = _
  simp [has]

@[simp] lemma has_empty (i : ℕ) : empty.has i = false := by
  change (0 : BitVec 8).getLsbD i = false
  simp

end NodeNeeds

/-- One declared element: its path, its rules and its place in the tree. -/
structure DescriptorNode (R : Type) where
  fullPath : List PathSegment
  rules : List R
  childrenSorted : List (PathSegment × NodeId)
  childIds : List NodeId
  tag : PathSegment
  parentId : Option NodeId
  needs : NodeNeeds
  summaryNeeds : NodeNeeds

instance {R : Type} : Inhabited (DescriptorNode R) :=
  ⟨⟨[], [], [], [], ⟨""⟩, none, .empty, .empty⟩⟩

/-- A descriptor tree. -/
structure DescriptorTree (R : Type) where
  nodes : List (DescriptorNode R)
  rootId : Option NodeId
  captureMemoryLimit : ℕ

namespace DescriptorTree

variable {R : Type}

/-- `DescriptorTree::get`, which panics out of bounds. -/
def get (tree : DescriptorTree R) (id : NodeId) : Except Panic (DescriptorNode R) :=
  index tree.nodes id.val

/-- `DescriptorTree::child_of`: binary search among the children sorted by tag. -/
def childOf (tree : DescriptorTree R) (parentId : NodeId) (tag : String) :
    Except Panic (Option NodeId) := do
  let parent ← tree.get parentId
  match BinarySearch.search (fun (k, _) => compare k.str tag) parent.childrenSorted with
  | none => return none
  | some i => return some (← index parent.childrenSorted i).2

end DescriptorTree

end XmlOxydizer
