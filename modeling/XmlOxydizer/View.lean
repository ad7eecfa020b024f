import XmlOxydizer.Tree.Descriptor

/-!
# Rules and the views they read

`diagnostic.rs`, `rule.rs`, `view.rs` and the stack frame of `reader/context.rs`: what a
rule can observe about an element, in streaming mode and in capture mode.
-/

namespace XmlOxydizer

inductive Severity
  | error
  | warning
  | info
  deriving DecidableEq

/-- A single validation finding. -/
structure Diagnostic where
  ruleName : String
  message : String
  elementPath : List PathSegment
  elementIndex : UInt32
  severity : Severity
  deriving DecidableEq

/-- Pass or fail results of the rules of one element, one bit each. -/
structure RuleResults where
  bits : UInt64
  deriving DecidableEq

namespace RuleResults

def empty : RuleResults := ⟨0⟩

/-- Sets the bit of the rule at `index` when the rule passed. -/
def set (self : RuleResults) (checks : OverflowChecks) (index : ℕ) (passed : Bool) :
    Except Panic RuleResults := do
  if passed then
    let amount ← shiftAmount checks index
    return ⟨self.bits ||| (1 <<< UInt64.ofNat amount)⟩
  else
    return self

/-- Whether the rule at `index` passed. -/
def get (self : RuleResults) (checks : OverflowChecks) (index : ℕ) : Except Panic Bool := do
  let amount ← shiftAmount checks index
  return (self.bits >>> UInt64.ofNat amount) &&& 1 == 1

/-- Whether the first `count` rules all passed. -/
def allPassed (self : RuleResults) (count : ℕ) : Bool :=
  let mask : UInt64 :=
    if count ≥ 64 then 0xffffffffffffffff else (1 <<< UInt64.ofNat count) - 1
  self.bits &&& mask == mask

end RuleResults

/-- `iter().find(|(k, _)| k == name).map(|(_, v)| v)`, the lookup of every `attr` method. -/
def findAttr (attrs : List (String × String)) (name : String) : Option String :=
  (attrs.find? (fun (k, _) => k == name)).map Prod.snd

/-- The answer to a request for an attribute: the value of the first pair with this name, or nothing where
no pair has it. -/
def FirstValue (attrs : List (String × String)) (name : String) : Option String → Prop
  | some value => ∃ before after, attrs = before ++ (name, value) :: after ∧ ∀ pair ∈ before, pair.1 ≠ name
  | none => ∀ pair ∈ attrs, pair.1 ≠ name

lemma findAttr_spec (attrs : List (String × String)) (name : String) :
    FirstValue attrs name (findAttr attrs name) := by
  unfold findAttr
  cases hfind : attrs.find? (fun (k, _) => k == name) with
  | none => simpa [FirstValue] using hfind
  | some pair =>
    obtain ⟨hname, before, after, hsplit, hbefore⟩ := List.find?_eq_some_iff_append.mp hfind
    obtain ⟨key, value⟩ := pair
    obtain rfl : key = name := by simpa using hname
    exact ⟨before, after, hsplit, by simpa using hbefore⟩

/-- There is one such answer. -/
lemma findAttr_eq_iff {attrs : List (String × String)} {name : String} {answer : Option String} :
    findAttr attrs name = answer ↔ FirstValue attrs name answer := by
  constructor
  · rintro rfl
    exact findAttr_spec attrs name
  · intro h
    unfold findAttr
    cases answer with
    | none =>
      rw [List.find?_eq_none.mpr (by simpa [FirstValue] using h)]
      rfl
    | some value =>
      obtain ⟨before, after, rfl, hbefore⟩ := h
      rw [List.find?_eq_some_iff_append.mpr ⟨by simp, before, after, rfl, by simpa using hbefore⟩]
      rfl

/-- What a completed child element leaves in the context of its parent. -/
structure ChildSummary where
  attrs : List (String × String)
  text : String
  descriptorId : NodeId
  index : UInt32
  ruleResults : RuleResults
  deriving DecidableEq

/-- A node of the mini-DOM of a captured subtree. -/
structure SubtreeNode where
  tag : String
  attrs : List (String × String)
  text : String
  children : List SubtreeNode

/-- `SubtreeDescendants`: the nodes that the iterator has still to visit, the next one last. -/
structure SubtreeDescendants where
  stack : List SubtreeNode

mutual

/-- The number of nodes of a subtree. -/
def SubtreeNode.count : SubtreeNode → ℕ
  | ⟨_, _, _, children⟩ => countAll children + 1

/-- The number of nodes of several subtrees. -/
def countAll : List SubtreeNode → ℕ
  | [] => 0
  | node :: nodes => node.count + countAll nodes

end

lemma countAll_append (nodes nodes' : List SubtreeNode) :
    countAll (nodes ++ nodes') = countAll nodes + countAll nodes' := by
  induction nodes with
  | nil => simp [countAll]
  | cons node nodes ih => simp [countAll, ih, Nat.add_assoc]

lemma countAll_reverse (nodes : List SubtreeNode) : countAll nodes.reverse = countAll nodes := by
  induction nodes with
  | nil => rfl
  | cons node nodes ih => simp [countAll, countAll_append, ih, Nat.add_comm]

namespace SubtreeDescendants

def next (self : SubtreeDescendants) : Option (SubtreeNode × SubtreeDescendants) :=
  match self.stack.getLast? with
  | none => none
  | some node => some (node, ⟨self.stack.dropLast ++ node.children.reverse⟩)

/-- Every round of the iterator leaves fewer nodes. -/
lemma count_lt_of_next {self rest : SubtreeDescendants} {node : SubtreeNode}
    (h : self.next = some (node, rest)) : countAll rest.stack < countAll self.stack := by
  obtain ⟨stack⟩ := self
  rcases List.eq_nil_or_concat' stack with rfl | ⟨stack, top, rfl⟩
  · cases h
  · simp only [next, List.getLast?_concat, List.dropLast_concat, Option.some.injEq, Prod.mk.injEq] at h
    obtain ⟨rfl, rfl⟩ := h
    obtain ⟨tag, attrs, text, children⟩ := top
    simp only [countAll_append, countAll_reverse, countAll, SubtreeNode.count]
    omega

/-- `Iterator::find` on the descendants. -/
def find (p : SubtreeNode → Bool) (self : SubtreeDescendants) : Option SubtreeNode :=
  match _h : self.next with
  | none => none
  | some (node, rest) => if p node then some node else rest.find p
termination_by countAll self.stack
decreasing_by all_goals exact count_lt_of_next _h

/-- `Iterator::filter` on the descendants, collected into a vector. -/
def filter (p : SubtreeNode → Bool) (self : SubtreeDescendants) : List SubtreeNode :=
  match _h : self.next with
  | none => []
  | some (node, rest) => if p node then node :: rest.filter p else rest.filter p
termination_by countAll self.stack
decreasing_by all_goals exact count_lt_of_next _h

end SubtreeDescendants

namespace SubtreeNode

def descendants (self : SubtreeNode) : SubtreeDescendants := ⟨self.children.reverse⟩

/-- `SubtreeNode::find`. -/
def find (self : SubtreeNode) (tag : String) : Option SubtreeNode :=
  self.descendants.find (fun node => node.tag == tag)

/-- `SubtreeNode::find_all`. -/
def findAll (self : SubtreeNode) (tag : String) : List SubtreeNode :=
  self.descendants.filter (fun node => node.tag == tag)

/-- `SubtreeNode::attr`. -/
def attr (self : SubtreeNode) (name : String) : Option String := findAttr self.attrs name

end SubtreeNode

/-- `ChildSummary::attr`. -/
def ChildSummary.attr (self : ChildSummary) (name : String) : Option String := findAttr self.attrs name

/-- `ChildSummary::tag`: the tag of the node of the child, which is looked up in the tree. -/
def ChildSummary.tag {R : Type} (self : ChildSummary) (tree : DescriptorTree R) : Except Panic String :=
  (tree.get self.descriptorId).map (fun node => node.tag.str)

/-- `NodeAccess`: the answers an element gives to a rule. The methods that index into the
tree or into the context stack can panic. -/
structure NodeAccess where
  tag : Except Panic String
  attr : String → Option String
  forEachAttr : List (String × String)
  text : String
  elementIndex : ℕ
  path : Except Panic (List PathSegment)
  childrenSummaries : List ChildSummary
  subtree : Option SubtreeNode
  depth : ℕ
  ancestorAttr : ℕ → String → Except Panic (Option String)
  ancestorText : ℕ → Except Panic (Option String)
  ancestorChildren : ℕ → Except Panic (Option (List ChildSummary))

/-- A stateless validation rule. -/
class Rule (R : Type) where
  name : R → String
  evaluate : R → NodeAccess → List Diagnostic
  needs : R → NodeNeeds := fun _ => NodeNeeds.all

/-- The stack frame of an element that is open and declared. -/
structure NodeContext where
  attrs : List (String × String)
  text : String
  children : List ChildSummary
  descriptorId : NodeId
  index : UInt32
  deriving DecidableEq

/-- `stack.len().checked_sub(level + 1)?` followed by `&stack[idx]`, the shared head of the
ancestor methods. -/
def ancestorContext (checks : OverflowChecks) (stack : List NodeContext) (level : ℕ) :
    Except Panic (Option NodeContext) := do
  let up ← usizeAdd checks level 1
  if up ≤ stack.length then
    return some (← index stack (stack.length - up))
  else
    return none

def ancestorAttr (checks : OverflowChecks) (stack : List NodeContext) (level : ℕ)
    (name : String) : Except Panic (Option String) := do
  match ← ancestorContext checks stack level with
  | none => return none
  | some ctx => return findAttr ctx.attrs name

def ancestorText (checks : OverflowChecks) (stack : List NodeContext) (level : ℕ) :
    Except Panic (Option String) := do
  match ← ancestorContext checks stack level with
  | none => return none
  | some ctx => return some ctx.text

def ancestorChildren (checks : OverflowChecks) (stack : List NodeContext) (level : ℕ) :
    Except Panic (Option (List ChildSummary)) := do
  match ← ancestorContext checks stack level with
  | none => return none
  | some ctx => return some ctx.children

variable {R : Type}

/-- The streaming view of the element whose frame stands at a place of the context stack. -/
structure StreamingView (R : Type) where
  stack : List NodeContext
  indexInStack : ℕ
  tree : DescriptorTree R
  index_lt : indexInStack < stack.length

namespace StreamingView

/-- The view of the parent element, or `none` at the root. -/
def parent (view : StreamingView R) : Option (StreamingView R) :=
  if view.indexInStack = 0 then none
  else some { view with
    indexInStack := view.indexInStack - 1
    index_lt := (Nat.sub_le _ _).trans_lt view.index_lt }

def ctx (view : StreamingView R) : NodeContext := view.stack.get ⟨view.indexInStack, view.index_lt⟩

/-- `index_in_stack.checked_sub(level + 1)?` followed by `&stack[idx]`. -/
def ancestorContext (checks : OverflowChecks) (view : StreamingView R) (level : ℕ) :
    Except Panic (Option NodeContext) := do
  let up ← usizeAdd checks level 1
  if up ≤ view.indexInStack then
    return some (← index view.stack (view.indexInStack - up))
  else
    return none

def ancestorAttr (checks : OverflowChecks) (view : StreamingView R) (level : ℕ) (name : String) :
    Except Panic (Option String) := do
  match ← view.ancestorContext checks level with
  | none => return none
  | some ctx => return findAttr ctx.attrs name

def ancestorText (checks : OverflowChecks) (view : StreamingView R) (level : ℕ) :
    Except Panic (Option String) := do
  match ← view.ancestorContext checks level with
  | none => return none
  | some ctx => return some ctx.text

def ancestorChildren (checks : OverflowChecks) (view : StreamingView R) (level : ℕ) :
    Except Panic (Option (List ChildSummary)) := do
  match ← view.ancestorContext checks level with
  | none => return none
  | some ctx => return some ctx.children

def nodeAccess (checks : OverflowChecks) (view : StreamingView R) : NodeAccess where
  tag := (view.tree.get view.ctx.descriptorId).map (fun node => node.tag.str)
  attr := findAttr view.ctx.attrs
  forEachAttr := view.ctx.attrs
  text := view.ctx.text
  elementIndex := view.ctx.index.toNat
  path := (view.tree.get view.ctx.descriptorId).map DescriptorNode.fullPath
  childrenSummaries := view.ctx.children
  subtree := none
  depth := view.indexInStack
  ancestorAttr := view.ancestorAttr checks
  ancestorText := view.ancestorText checks
  ancestorChildren := view.ancestorChildren checks

end StreamingView

/-- The parser's streaming view of an element whose context has been popped. -/
structure StreamingViewOwned (R : Type) where
  ctx : NodeContext
  parentStack : List NodeContext
  tree : DescriptorTree R

def StreamingViewOwned.nodeAccess (checks : OverflowChecks) (view : StreamingViewOwned R) :
    NodeAccess where
  tag := (view.tree.get view.ctx.descriptorId).map (fun node => node.tag.str)
  attr := findAttr view.ctx.attrs
  forEachAttr := view.ctx.attrs
  text := view.ctx.text
  elementIndex := view.ctx.index.toNat
  path := (view.tree.get view.ctx.descriptorId).map DescriptorNode.fullPath
  childrenSummaries := view.ctx.children
  subtree := none
  depth := view.parentStack.length
  ancestorAttr := ancestorAttr checks view.parentStack
  ancestorText := ancestorText checks view.parentStack
  ancestorChildren := ancestorChildren checks view.parentStack

/-- The view of a captured element. -/
structure SubtreeView (R : Type) where
  root : SubtreeNode
  descriptorId : NodeId
  index : UInt32
  parentStack : List NodeContext
  tree : DescriptorTree R

def SubtreeView.nodeAccess (checks : OverflowChecks) (view : SubtreeView R) : NodeAccess where
  tag := .ok view.root.tag
  attr := findAttr view.root.attrs
  forEachAttr := view.root.attrs
  text := view.root.text
  elementIndex := view.index.toNat
  path := (view.tree.get view.descriptorId).map DescriptorNode.fullPath
  childrenSummaries := []
  subtree := some view.root
  depth := view.parentStack.length
  ancestorAttr := ancestorAttr checks view.parentStack
  ancestorText := ancestorText checks view.parentStack
  ancestorChildren := ancestorChildren checks view.parentStack

end XmlOxydizer
