import XmlOxydizer.Reader.Parser
import XmlOxydizer.Proofs.Walk

/-!
# The data of a document

What a document says about an element: its name, attributes, direct text, subtree, memory
cost and declared children, as functions of the elements and leaves themselves. The
reading functions of the parser compute these or report the first thing that cannot be
decoded.
-/

namespace XmlOxydizer

open Markup

variable {R : Type}

/-- What stands between the tags of an element. -/
abbrev Content := Forest BytesStart LeafEvent

/-- The open elements, outermost first. -/
abbrev OpenElements := Spine BytesStart LeafEvent

/-! ### Names, attributes and text -/

/-- The name of an element. It is empty when it is not UTF-8. -/
def BytesStart.tagName (tag : BytesStart) : String := (fromUtf8 tag.name).toOption.getD ""

/-- The name and value of an attribute, if it can be read. -/
def readAttribute (attr : Except String Attribute) : Option (String × String) := do
  let attr ← attr.toOption
  let key ← (fromUtf8 attr.key).toOption
  let value ← (fromUtf8 attr.value).toOption
  return (key, value)

/-- The attributes of an element in document order. -/
def BytesStart.attrs (tag : BytesStart) : List (String × String) :=
  tag.attributes.filterMap readAttribute

/-- The characters of a text event. -/
def LeafEvent.chars : LeafEvent → String
  | .text content => (fromUtf8 content.content).toOption.getD ""
  | _ => ""

/-- The text directly inside an element, not that of its children. -/
def directText (content : Content) : String := String.join (content.leaves.map LeafEvent.chars)

@[simp] lemma directText_nil : directText .nil = "" := rfl

@[simp] lemma directText_append (g h : Content) :
    directText (g ++ h) = directText g ++ directText h := by
  simp [directText]

@[simp] lemma directText_element (tag : BytesStart) (content : Content) :
    directText (.element tag content .nil) = "" := rfl

@[simp] lemma directText_leaf (leaf : LeafEvent) :
    directText (.leaf leaf .nil) = leaf.chars := by
  simp [directText, Forest.leaves]

/-! ### What cannot be decoded -/

def BytesStart.nameFault (tag : BytesStart) : Option ReaderError :=
  match fromUtf8 tag.name with
  | .ok _ => none
  | .error e => some (.utf8 e)

def attributeFault : Except String Attribute → Option ReaderError
  | .error message => some (.xmlParse (.invalidAttr message))
  | .ok attr =>
    match fromUtf8 attr.key, fromUtf8 attr.value with
    | .error e, _ => some (.utf8 e)
    | .ok _, .error e => some (.utf8 e)
    | .ok _, .ok _ => none

/-- The first attribute that cannot be read. -/
def BytesStart.attrsFault (tag : BytesStart) : Option ReaderError :=
  tag.attributes.findSome? attributeFault

def LeafEvent.fault : LeafEvent → Option ReaderError
  | .text content =>
    match fromUtf8 content.content with
    | .ok _ => none
    | .error _ => some (.xmlParse .encoding)
  | _ => none

lemma fromUtf8_name (tag : BytesStart) :
    (fromUtf8 tag.name).mapError ReaderError.utf8 =
      match tag.nameFault with
      | none => .ok tag.tagName
      | some e => .error e := by
  cases h : fromUtf8 tag.name <;> simp [BytesStart.nameFault, BytesStart.tagName, h, Except.toOption]

lemma decode_eq (content : BytesText) :
    content.decode =
      match (LeafEvent.text content).fault with
      | none => .ok (LeafEvent.text content).chars
      | some e => .error e := by
  cases h : fromUtf8 content.content <;>
    simp [BytesText.decode, LeafEvent.fault, LeafEvent.chars, h, Except.toOption]

/-- `parseAttributesInto` reads all attributes or reports the first fault. -/
lemma parseAttributesInto_eq (attributes : List (Except String Attribute))
    (out : List (String × String)) :
    parseAttributesInto attributes out =
      match attributes.findSome? attributeFault with
      | none => .ok (out ++ attributes.filterMap readAttribute)
      | some e => .error e := by
  induction attributes generalizing out with
  | nil => simp [parseAttributesInto]
  | cons attr attributes ih =>
    cases attr with
    | error message => simp [parseAttributesInto, List.findSome?_cons, attributeFault]
    | ok attr =>
      cases hk : fromUtf8 attr.key with
      | error e => simp [parseAttributesInto, attributeFault, hk]
      | ok key =>
        cases hv : fromUtf8 attr.value with
        | error e => simp [parseAttributesInto, attributeFault, hk, hv]
        | ok value =>
          have hread : readAttribute (.ok attr) = some (key, value) := by
            simp [readAttribute, hk, hv, Except.toOption]
          simp [parseAttributesInto, attributeFault, hk, hv, ih, hread]

lemma parseAttributes_eq (tag : BytesStart) :
    parseAttributesInto tag.attributes [] =
      match tag.attrsFault with
      | none => .ok tag.attrs
      | some e => .error e :=
  parseAttributesInto_eq tag.attributes []

/-! ### The subtree of an element -/

/-- The mini-DOM of the elements of a content. -/
def doms : Content → List SubtreeNode
  | .nil => []
  | .element tag content rest => ⟨tag.tagName, tag.attrs, directText content, doms content⟩ :: doms rest
  | .leaf _ rest => doms rest

/-- The mini-DOM of an element. -/
def dom (tag : BytesStart) (content : Content) : SubtreeNode :=
  ⟨tag.tagName, tag.attrs, directText content, doms content⟩

/-- The mini-DOM under construction. -/
def buildNodes : Content → List BuildNode
  | .nil => []
  | .element tag content rest =>
    ⟨tag.tagName, tag.attrs, directText content, buildNodes content⟩ :: buildNodes rest
  | .leaf _ rest => buildNodes rest

def buildNode (f : Frame BytesStart LeafEvent) : BuildNode :=
  ⟨f.label.tagName, f.label.attrs, directText f.content, buildNodes f.content⟩

@[simp] lemma buildNodes_append (g h : Content) : buildNodes (g ++ h) = buildNodes g ++ buildNodes h := by
  induction g with
  | nil => rfl
  | element tag content rest _ ih => simp [buildNodes, ih]
  | leaf leaf rest ih => simp [buildNodes, ih]

lemma buildArenaNodes_eq (g : Content) : buildArenaNodes (buildNodes g) = doms g := by
  induction g with
  | nil => rfl
  | element tag content rest ihc ihr => simp [buildNodes, buildArenaNodes, buildArenaNode, doms, ihc, ihr]
  | leaf leaf rest ih => simpa [buildNodes, doms] using ih

/-- The second stage of a capture turns the buffer into the mini-DOM. -/
lemma buildArenaNode_eq (f : Frame BytesStart LeafEvent) :
    buildArenaNode (buildNode f) = dom f.label f.content := by
  simp [buildNode, buildArenaNode, dom, buildArenaNodes_eq]

/-! ### The memory that a capture is charged -/

/-- What an element is charged without its content: its node, its tag, and 64 bytes for each attribute besides
its key and value. -/
def elementCost (tag : String) (attrs : List (String × String)) : ℕ :=
  BuildNode.size + tag.utf8ByteSize +
    (attrs.map (fun attr => attr.1.utf8ByteSize + attr.2.utf8ByteSize + 64)).sum

lemma elementSize_eq (tag : String) (attrs : List (String × String)) :
    CaptureBuilder.elementSize tag attrs = elementCost tag attrs := rfl

/-- The cost of the content of a captured element. -/
def contentCost : Content → ℕ
  | .nil => 0
  | .element tag content rest =>
    elementCost tag.tagName tag.attrs + contentCost content + contentCost rest
  | .leaf leaf rest => leaf.chars.utf8ByteSize + contentCost rest

/-- The cost of an element with the content read so far. -/
def frameCost (f : Frame BytesStart LeafEvent) : ℕ :=
  elementCost f.label.tagName f.label.attrs + contentCost f.content

/-- The cost of a chain of open elements. -/
def spineCost (z : OpenElements) : ℕ := (z.map frameCost).sum

@[simp] lemma contentCost_append (g h : Content) :
    contentCost (g ++ h) = contentCost g + contentCost h := by
  induction g with
  | nil => simp [contentCost]
  | element tag content rest _ ih => simp [contentCost, ih, Nat.add_assoc]
  | leaf leaf rest ih => simp [contentCost, ih, Nat.add_assoc]

@[simp] lemma spineCost_append (z w : OpenElements) :
    spineCost (z ++ w) = spineCost z + spineCost w := by
  simp [spineCost]

@[simp] lemma spineCost_singleton (f : Frame BytesStart LeafEvent) : spineCost [f] = frameCost f := by
  simp [spineCost]

lemma spineCost_cons (f : Frame BytesStart LeafEvent) (z : OpenElements) :
    spineCost (f :: z) = frameCost f + spineCost z := by
  simp [spineCost]

/-! ### Declared children and sibling indices -/

/-- A child element together with the node it is declared as. -/
structure ChildElement where
  id : NodeId
  label : BytesStart
  content : Content

/-- The declared children of an element of node `p`, in document order. -/
def declaredChildren (tree : DescriptorTree R) (p : NodeId) (content : Content) : List ChildElement :=
  content.elements.filterMap
    (fun (label, content) => (tree.child [p] label.tagName).map (⟨·, label, content⟩))

/-- The children that leave a summary: those of a captured element do not. -/
def summarizedChildren (tree : DescriptorTree R) (p : NodeId) (content : Content) : List ChildElement :=
  if tree.isCapture p then [] else declaredChildren tree p content

def ChildElement.tag (child : ChildElement) : String := child.label.tagName

/-- The index of an element, counted among the siblings before it whose tag has the same
hash. -/
def siblingIndex (before : List String) (tag : String) : UInt32 :=
  UInt32.ofNat (before.countP (fun t => hashTag t == hashTag tag))

/-- The indices of a list of siblings. -/
def siblingIndices (tags : List String) : List UInt32 :=
  tags.mapIdx (fun i tag => siblingIndex (tags.take i) tag)

lemma siblingIndices_concat (tags : List String) (tag : String) :
    siblingIndices (tags ++ [tag]) = siblingIndices tags ++ [siblingIndex tags tag] := by
  simp only [siblingIndices, List.mapIdx_concat, List.take_left']
  congr 1
  apply List.mapIdx_eq_mapIdx_iff.mpr
  intro i hi
  rw [List.take_append_of_le_length hi.le]

/-! ### The counter maps -/

/-- The counters after one more element. -/
def bump (tagHash : UInt64) : Counters → Counters
  | [] => [(tagHash, 1)]
  | entry :: counters =>
    if entry.1 = tagHash then (entry.1, entry.2 + 1) :: counters
    else entry :: bump tagHash counters

def countOf (tagHash : UInt64) : Counters → UInt32
  | [] => 0
  | entry :: counters => if entry.1 = tagHash then entry.2 else countOf tagHash counters

/-- The counters after these siblings. -/
def tally (tags : List String) : Counters := tags.foldl (fun counters t => bump (hashTag t) counters) []

@[simp] lemma tally_nil : tally [] = [] := rfl

lemma tally_concat (tags : List String) (tag : String) :
    tally (tags ++ [tag]) = bump (hashTag tag) (tally tags) := by
  simp [tally]

lemma countOf_bump (h h' : UInt64) (counters : Counters) :
    countOf h (bump h' counters) = countOf h counters + if h' = h then 1 else 0 := by
  induction counters with
  | nil => simp [bump, countOf]
  | cons entry counters ih =>
    simp only [bump]
    split
    case isTrue heq =>
      simp only [countOf, heq]
      split <;> simp
    case isFalse hne =>
      simp only [countOf, ih]
      split
      case isTrue heq => simp [show h' ≠ h from fun h => hne (heq.trans h.symm)]
      case isFalse => rfl

lemma countOf_tally (tags : List String) (tag : String) :
    countOf (hashTag tag) (tally tags) = siblingIndex tags tag := by
  induction tags using List.reverseRecOn with
  | nil => simp [countOf, siblingIndex]
  | append_singleton tags t ih =>
    rw [tally_concat, countOf_bump, ih]
    simp only [siblingIndex, List.countP_append, List.countP_singleton, beq_iff_eq]
    split <;> simp [UInt32.ofNat_add]

/-- The counter of a tag is read and counted up, unless it is at its maximum in a build
with overflow checks. -/
lemma siblingCounterGetOrInsert_eq (checks : OverflowChecks) (h : UInt64) (counters : Counters) :
    siblingCounterGetOrInsert checks h counters =
      if checks = .checked ∧ (countOf h counters).toNat + 1 = 2 ^ 32 then .error .addOverflow
      else .ok (countOf h counters, bump h counters) := by
  induction counters with
  | nil => simp [siblingCounterGetOrInsert, countOf, bump]
  | cons entry counters ih =>
    simp only [siblingCounterGetOrInsert, countOf, bump]
    split
    case isTrue heq =>
      have hlt := entry.2.toNat_lt
      cases checks with
      | checked =>
        by_cases hmax : entry.2.toNat + 1 = 2 ^ 32
        · simp [u32Add, hmax]
        · have hroom : entry.2.toNat + 1 < 4294967296 := by omega
          have hne : entry.2.toNat ≠ 4294967295 := by omega
          simp [u32Add, hroom, hne]
      | wrapping => simp [u32Add]
    case isFalse hne =>
      rw [ih]
      split <;> simp

end XmlOxydizer
