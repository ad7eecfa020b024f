import XmlOxydizer.View

/-!
# The tree builder

`tree/builder.rs` and the builder's part of `error.rs`.
-/

namespace XmlOxydizer

variable {R : Type}

/-- `BuilderError`. -/
inductive BuilderError
  | noRoot
  | orphanNode (path parentPath : String)
  | incompatibleAccessMode (nodePath ruleName : String)
  | duplicatePath (path : String)
  | nestedCapture (inner outer : String)
  deriving DecidableEq

/-- A declared node before the tree is finalized. -/
structure NodeDeclaration (R : Type) where
  tag : PathSegment
  fullPath : List PathSegment
  isCapture : Bool
  rules : List R
  parentIndex : Option ℕ

structure TreeBuilder (R : Type) where
  declarations : List (NodeDeclaration R)
  parentStack : List ℕ
  captureMemoryLimit : ℕ

namespace TreeBuilder

def new (rootTag : String) : TreeBuilder R where
  declarations := [⟨⟨rootTag⟩, [⟨rootTag⟩], false, [], none⟩]
  parentStack := [0]
  captureMemoryLimit := 64 * 1024 * 1024

/-- Updates the declaration of the current node. -/
def modifyCurrent (self : TreeBuilder R) (f : NodeDeclaration R → NodeDeclaration R) :
    Except Panic (TreeBuilder R) := do
  let idx ← unwrap self.parentStack.getLast?
  let decl ← index self.declarations idx
  return { self with declarations := self.declarations.set idx (f decl) }

def streaming (self : TreeBuilder R) : Except Panic (TreeBuilder R) :=
  self.modifyCurrent (fun decl => { decl with isCapture := false })

def captureSubtree (self : TreeBuilder R) : Except Panic (TreeBuilder R) :=
  self.modifyCurrent (fun decl => { decl with isCapture := true })

def rule (self : TreeBuilder R) (rule : R) : Except Panic (TreeBuilder R) :=
  self.modifyCurrent (fun decl => { decl with rules := decl.rules ++ [rule] })

/-- Declares a child of the current node and descends into it. -/
def node (self : TreeBuilder R) (tag : String) : Except Panic (TreeBuilder R) := do
  let parentIdx ← unwrap self.parentStack.getLast?
  let parent ← index self.declarations parentIdx
  return { self with
    declarations := self.declarations ++
      [⟨⟨tag⟩, parent.fullPath ++ [⟨tag⟩], false, [], some parentIdx⟩]
    parentStack := self.parentStack ++ [self.declarations.length] }

/-- Ascends to the parent of the current node. -/
def done (self : TreeBuilder R) : Except Panic (TreeBuilder R) :=
  if self.parentStack.length > 1 then
    .ok { self with parentStack := self.parentStack.dropLast }
  else .error (.assertFailed "done() called on root node")

def captureLimit (self : TreeBuilder R) (bytes : ℕ) : TreeBuilder R :=
  { self with captureMemoryLimit := bytes }

/-- The first check of `build`: no two declarations share a path. -/
def checkDuplicates : List (List PathSegment) → List (NodeDeclaration R) →
    Except BuilderError Unit
  | _, [] => .ok ()
  | seen, decl :: decls =>
    if decl.fullPath ∈ seen then .error (.duplicatePath (formatPath decl.fullPath))
    else checkDuplicates (decl.fullPath :: seen) decls

section Checks

variable [Rule R]

/-- The second check on one declaration: rules that need a capture sit on capture nodes. -/
def checkRules (decl : NodeDeclaration R) : List R → Except BuilderError Unit
  | [] => .ok ()
  | rule :: rules =>
    if (Rule.needs rule).isCapture && !decl.isCapture then
      .error (.incompatibleAccessMode (formatPath decl.fullPath) (Rule.name rule))
    else checkRules decl rules

def checkAccessModes : List (NodeDeclaration R) → Except BuilderError Unit
  | [] => .ok ()
  | decl :: decls => do
    checkRules decl decl.rules
    checkAccessModes decls

/-- The ancestor walk of the third check. The first argument bounds the number of rounds;
parents are declared before their children, so that it never runs out. -/
def walkAncestors (decls : List (NodeDeclaration R)) (decl : NodeDeclaration R) :
    ℕ → Option ℕ → Except (Abort BuilderError) Unit
  | _, none => .ok ()
  | 0, some _ => .ok ()
  | rounds + 1, some idx => do
    let ancestor ← orPanic (index decls idx)
    if ancestor.isCapture then
      .error (.error (.nestedCapture (formatPath decl.fullPath) (formatPath ancestor.fullPath)))
    else walkAncestors decls decl rounds ancestor.parentIndex

/-- The third check: no capture node inside a capture node. -/
def checkNesting (all : List (NodeDeclaration R)) :
    List (NodeDeclaration R) → Except (Abort BuilderError) Unit
  | [] => .ok ()
  | decl :: decls => do
    if decl.isCapture then walkAncestors all decl all.length decl.parentIndex
    checkNesting all decls

/-- The node of a declaration before it is linked with the others. -/
def toNode (decl : NodeDeclaration R) : DescriptorNode R :=
  let needs := decl.rules.foldl (fun acc r => acc ||| Rule.needs r) .empty
  { fullPath := decl.fullPath
    rules := decl.rules
    childrenSorted := []
    childIds := []
    tag := decl.tag
    parentId := decl.parentIndex.map NodeId.mk
    needs := if decl.isCapture then needs ||| .capture else needs
    summaryNeeds := .empty }

/-- Adds node `i` to the children of its parent. -/
def linkChild (nodes : List (DescriptorNode R)) (i : ℕ) :
    Except Panic (List (DescriptorNode R)) := do
  let node ← index nodes i
  match node.parentId with
  | none => return nodes
  | some parentId =>
    let parent ← index nodes parentId.val
    return nodes.set parentId.val { parent with
      childIds := parent.childIds ++ [⟨i⟩]
      childrenSorted := parent.childrenSorted ++ [(node.tag, ⟨i⟩)] }

/-- `sort_by` on the tags, a stable sort. -/
def sortChildren (node : DescriptorNode R) : DescriptorNode R :=
  { node with
    childrenSorted := node.childrenSorted.insertionSort (fun a b => a.1.str ≤ b.1.str) }

/-- Nodes with declared children keep attributes and text for their descendants. -/
def propagateNeeds (node : DescriptorNode R) : DescriptorNode R :=
  if node.childIds.isEmpty then node
  else { node with needs := node.needs ||| .attrs ||| .text }

/-- What the parent of node `i` needs from the summary of node `i`. -/
def setSummaryNeeds (nodes : List (DescriptorNode R)) (i : ℕ) :
    Except Panic (List (DescriptorNode R)) := do
  let node ← index nodes i
  match node.parentId with
  | none => return nodes
  | some parentId =>
    let parent ← index nodes parentId.val
    if parent.needs.contains .children then
      return nodes.set i { node with summaryNeeds := .all }
    else return nodes

/-- `TreeBuilder::build`. -/
def build (self : TreeBuilder R) : Except (Abort BuilderError) (DescriptorTree R) := do
  if self.declarations.isEmpty then throw (.error .noRoot)
  orError (checkDuplicates [] self.declarations)
  orError (checkAccessModes self.declarations)
  checkNesting self.declarations self.declarations
  let nodes := self.declarations.map toNode
  let nodes ← orPanic ((List.range nodes.length).foldlM linkChild nodes)
  let nodes := nodes.map sortChildren
  let nodes := nodes.map propagateNeeds
  let nodes ← orPanic ((List.range nodes.length).foldlM setSummaryNeeds nodes)
  return { nodes, rootId := some ⟨0⟩, captureMemoryLimit := self.captureMemoryLimit }

end Checks

end TreeBuilder

/-- The calls a client can make on a builder. -/
inductive BuilderCall (R : Type)
  | streaming
  | captureSubtree
  | rule (rule : R)
  | node (tag : String)
  | done
  | captureLimit (bytes : ℕ)

namespace TreeBuilder

def call (self : TreeBuilder R) : BuilderCall R → Except Panic (TreeBuilder R)
  | .streaming => self.streaming
  | .captureSubtree => self.captureSubtree
  | .rule rule => self.rule rule
  | .node tag => self.node tag
  | .done => self.done
  | .captureLimit bytes => .ok (self.captureLimit bytes)

def calls (self : TreeBuilder R) (cs : List (BuilderCall R)) : Except Panic (TreeBuilder R) :=
  cs.foldlM call self

end TreeBuilder

/-- A tree together with the builder calls that it was built by. -/
structure BuiltTree (R : Type) [Rule R] where
  rootTag : String
  calls : List (BuilderCall R)
  builder : TreeBuilder R
  tree : DescriptorTree R
  calls_eq : (TreeBuilder.new rootTag).calls calls = .ok builder
  build_eq : builder.build = .ok tree

/-- The tree of a sequence of builder calls, if they do not panic and `build` accepts. -/
def BuiltTree.ofCalls? [Rule R] (rootTag : String) (calls : List (BuilderCall R)) :
    Option (BuiltTree R) :=
  match h : (TreeBuilder.new rootTag).calls calls with
  | .error _ => none
  | .ok builder =>
    match h' : builder.build with
    | .error _ => none
    | .ok tree => some ⟨rootTag, calls, builder, tree, h, h'⟩

end XmlOxydizer
