import XmlOxydizer.Proofs.DataAccess

/-!
# Ancestor access

The three views answer the ancestor methods with the frame that stands `level + 1` places below their own.
For the largest level the sum overflows: a build with overflow checks panics, and one without them reads the
element itself or past the end of the stack.
-/

namespace XmlOxydizer

variable {R : Type}

/-- The frame `level + 1` places below place `i` of the stack. -/
def ancestorAt (stack : List NodeContext) (i level : ℕ) : Option NodeContext :=
  if level < i then stack[i - 1 - level]? else none

/-- At this level a view answers with the data of the ancestor of place `i`, and does not panic. -/
structure AnswersAbove (view : NodeAccess) (stack : List NodeContext) (i level : ℕ) : Prop where
  depth_eq : view.depth = i
  attr_eq : ∀ name, view.ancestorAttr level name =
    .ok ((ancestorAt stack i level).bind (fun ctx => findAttr ctx.attrs name))
  text_eq : view.ancestorText level = .ok ((ancestorAt stack i level).map NodeContext.text)
  children_eq : view.ancestorChildren level = .ok ((ancestorAt stack i level).map NodeContext.children)

namespace StreamingView

/-- `parent` applied `k` times. -/
def parents (view : StreamingView R) : ℕ → Option (StreamingView R)
  | 0 => some view
  | k + 1 => (view.parents k).bind parent

/-- The parser's view of the element, over the frames below its own. -/
def owned (view : StreamingView R) : StreamingViewOwned R where
  ctx := view.ctx
  parentStack := view.stack.take view.indexInStack
  tree := view.tree

/-- A view of a captured element over the same frames. -/
def captured (view : StreamingView R) (root : SubtreeNode) (descriptorId : NodeId) (index : UInt32) :
    SubtreeView R where
  root := root
  descriptorId := descriptorId
  index := index
  parentStack := view.stack.take view.indexInStack
  tree := view.tree

end StreamingView

/-- The views at one place of a stack agree on the ancestor at one level, and `parent` leads to it. -/
structure AncestorAccess (checks : OverflowChecks) (view : StreamingView R) (root : SubtreeNode)
    (descriptorId : NodeId) (elementIndex : UInt32) (level : ℕ) : Prop where
  streaming : AnswersAbove (view.nodeAccess checks) view.stack view.indexInStack level
  owned : AnswersAbove (view.owned.nodeAccess checks) view.stack view.indexInStack level
  captured : AnswersAbove ((view.captured root descriptorId elementIndex).nodeAccess checks) view.stack
    view.indexInStack level
  parents_eq : ∀ k, k ≤ view.indexInStack → ∃ p, view.parents k = some p ∧ p.stack = view.stack ∧
    p.tree = view.tree ∧ p.indexInStack = view.indexInStack - k
  parents_none : ∀ k, view.parents k = none ↔ view.indexInStack < k
  attr_of_parent : ∀ name, (view.nodeAccess checks).ancestorAttr level name =
    .ok ((view.parents (level + 1)).bind (fun p => (p.nodeAccess checks).attr name))

section

variable {checks : OverflowChecks} {stack : List NodeContext} {view : StreamingView R} {i level : ℕ}

/-! ### The frame of an ancestor -/

variable (checks) in
/-- The frames below place `i` hold its ancestors. -/
lemma ancestorContext_take (hi : i ≤ stack.length) (hlevel : level + 1 < 2 ^ 64) :
    ancestorContext checks (stack.take i) level = .ok (ancestorAt stack i level) := by
  have hlength : (stack.take i).length = i := List.length_take_of_le hi
  by_cases hlt : level < i
  · have hget : stack[i - 1 - level]? = some stack[i - 1 - level] := List.getElem?_eq_getElem (by omega)
    rw [ancestorAt, if_pos hlt, hget]
    apply ancestorContext_eq checks (by omega) hlevel
    rw [hlength, List.getElem?_take_of_lt (by omega), hget]
  · have hup : ¬ level + 1 ≤ (stack.take i).length := by omega
    rw [ancestorContext, usizeAdd_ok hlevel, ok_bind, if_neg hup, ancestorAt, if_neg hlt]
    rfl

variable (checks view) in
lemma StreamingView.ancestorContext_eq (hlevel : level + 1 < 2 ^ 64) :
    view.ancestorContext checks level = .ok (ancestorAt view.stack view.indexInStack level) := by
  have hplace := view.index_lt
  by_cases hlt : level < view.indexInStack
  · have hget : view.stack[view.indexInStack - 1 - level]? = some view.stack[view.indexInStack - 1 - level] :=
      List.getElem?_eq_getElem (by omega)
    have hindex : index view.stack (view.indexInStack - (level + 1)) =
        .ok view.stack[view.indexInStack - 1 - level] :=
      index_ok (by rw [← hget]; congr 1; omega)
    have hup : level + 1 ≤ view.indexInStack := by omega
    rw [ancestorAt, if_pos hlt, hget]
    rw [StreamingView.ancestorContext, usizeAdd_ok hlevel, ok_bind, if_pos hup, hindex]
    rfl
  · have hup : ¬ level + 1 ≤ view.indexInStack := by omega
    rw [StreamingView.ancestorContext, usizeAdd_ok hlevel, ok_bind, if_neg hup, ancestorAt, if_neg hlt]
    rfl

/-! ### The largest level -/

variable (checks stack) in
/-- Over the frames below the element, the largest level is a panic in every build. -/
lemma ancestorContext_max : ∃ p, ancestorContext checks stack (2 ^ 64 - 1) = .error p := by
  cases checks with
  | checked => exact ⟨.addOverflow, rfl⟩
  | wrapping =>
    have hend : index stack stack.length = .error .outOfBounds := by simp [index]
    refine ⟨.outOfBounds, ?_⟩
    simp [ancestorContext, usizeAdd, hend]

variable (view) in
/-- Without overflow checks the ancestor at the largest level is the element itself. -/
theorem StreamingView.ancestorContext_max :
    view.ancestorContext .wrapping (2 ^ 64 - 1) = .ok (some view.ctx) := by
  have hself : index view.stack view.indexInStack = .ok view.ctx :=
    index_ok (List.getElem?_eq_getElem view.index_lt)
  simp [StreamingView.ancestorContext, usizeAdd, hself]

/-! ### The views -/

variable (checks view) in
lemma StreamingView.answersAbove (hlevel : level + 1 < 2 ^ 64) :
    AnswersAbove (view.nodeAccess checks) view.stack view.indexInStack level := by
  have hctx := view.ancestorContext_eq checks hlevel
  constructor
  case depth_eq => rfl
  case attr_eq =>
    intro name
    simp only [nodeAccess, ancestorAttr, hctx, ok_bind]
    cases ancestorAt view.stack view.indexInStack level <;> rfl
  case text_eq =>
    simp only [nodeAccess, ancestorText, hctx, ok_bind]
    cases ancestorAt view.stack view.indexInStack level <;> rfl
  case children_eq =>
    simp only [nodeAccess, ancestorChildren, hctx, ok_bind]
    cases ancestorAt view.stack view.indexInStack level <;> rfl

/-- Views over the frames below place `i`, in either mode. -/
lemma answersAbove_take {access : NodeAccess} (hi : i ≤ stack.length) (hlevel : level + 1 < 2 ^ 64)
    (hdepth : access.depth = (stack.take i).length)
    (hattr : access.ancestorAttr = ancestorAttr checks (stack.take i))
    (htext : access.ancestorText = ancestorText checks (stack.take i))
    (hchildren : access.ancestorChildren = ancestorChildren checks (stack.take i)) :
    AnswersAbove access stack i level := by
  have hctx := ancestorContext_take checks hi hlevel
  constructor
  case depth_eq => rw [hdepth, List.length_take_of_le hi]
  case attr_eq =>
    intro name
    rw [hattr]
    simp only [ancestorAttr, hctx, ok_bind]
    cases ancestorAt stack i level <;> rfl
  case text_eq =>
    rw [htext]
    simp only [ancestorText, hctx, ok_bind]
    cases ancestorAt stack i level <;> rfl
  case children_eq =>
    rw [hchildren]
    simp only [ancestorChildren, hctx, ok_bind]
    cases ancestorAt stack i level <;> rfl

/-! ### Parents -/

namespace StreamingView

lemma parent_of_pos (h : view.indexInStack ≠ 0) : ∃ p, view.parent = some p ∧ p.stack = view.stack ∧
    p.tree = view.tree ∧ p.indexInStack = view.indexInStack - 1 :=
  ⟨_, if_neg h, rfl, rfl, rfl⟩

lemma parents_of_le {k : ℕ} (hk : k ≤ view.indexInStack) : ∃ p, view.parents k = some p ∧
    p.stack = view.stack ∧ p.tree = view.tree ∧ p.indexInStack = view.indexInStack - k := by
  induction k with
  | zero => exact ⟨view, rfl, rfl, rfl, rfl⟩
  | succ k ih =>
    obtain ⟨p, hp, hstack, htree, hindex⟩ := ih (by omega)
    obtain ⟨q, hq, hqstack, hqtree, hqindex⟩ := p.parent_of_pos (by omega)
    refine ⟨q, ?_, hqstack.trans hstack, hqtree.trans htree, by omega⟩
    rw [parents, hp, Option.bind_some, hq]

lemma parents_eq_none_iff {k : ℕ} : view.parents k = none ↔ view.indexInStack < k := by
  constructor
  · intro hnone
    by_contra hk
    obtain ⟨p, hp, -⟩ := view.parents_of_le (Nat.not_lt.mp hk)
    rw [hp] at hnone
    cases hnone
  · intro hk
    induction k with
    | zero => omega
    | succ k ih =>
      rw [parents]
      by_cases hlt : view.indexInStack < k
      · rw [ih hlt, Option.bind_none]
      · -- the view of the root has no parent
        obtain ⟨p, hp, -, -, hindex⟩ := view.parents_of_le (Nat.not_lt.mp hlt)
        have hroot : p.indexInStack = 0 := by omega
        rw [hp, Option.bind_some, parent, if_pos hroot]

/-- The frame of an ancestor is that of the view `parent` leads to. -/
lemma ancestorAt_eq_parents : ancestorAt view.stack view.indexInStack level =
    (view.parents (level + 1)).map ctx := by
  have hplace := view.index_lt
  by_cases hlt : level < view.indexInStack
  · obtain ⟨p, hp, hstack, -, hindex⟩ := view.parents_of_le (k := level + 1) hlt
    have hctx : p.stack[p.indexInStack]? = some p.ctx := List.getElem?_eq_getElem p.index_lt
    have hsame : view.indexInStack - 1 - level = p.indexInStack := by omega
    rw [ancestorAt, if_pos hlt, hp, Option.map_some, ← hstack, hsame, hctx]
  · rw [ancestorAt, if_neg hlt, view.parents_eq_none_iff.mpr (by omega), Option.map_none]

end StreamingView

end

/-- The views agree on the ancestor at a level, without a panic, exactly when it is not the largest. -/
theorem ancestorAccess_iff (checks : OverflowChecks) (view : StreamingView R) (root : SubtreeNode)
    (descriptorId : NodeId) (elementIndex : UInt32) (level : UInt64) :
    AncestorAccess checks view root descriptorId elementIndex level.toNat ↔ level.toNat ≠ 2 ^ 64 - 1 := by
  have hlt := level.toNat_lt
  constructor
  · intro h hmax
    obtain ⟨p, hp⟩ := ancestorContext_max checks (view.stack.take view.indexInStack)
    have htext := h.owned.text_eq
    rw [hmax] at htext
    simp only [StreamingView.owned, StreamingViewOwned.nodeAccess, ancestorText, hp, error_bind] at htext
    cases htext
  · intro hne
    have hlevel : level.toNat + 1 < 2 ^ 64 := by omega
    have hstreaming := view.answersAbove checks hlevel
    constructor
    case streaming => exact hstreaming
    case owned => exact answersAbove_take view.index_lt.le hlevel rfl rfl rfl rfl
    case captured => exact answersAbove_take view.index_lt.le hlevel rfl rfl rfl rfl
    case parents_eq => exact fun k hk => view.parents_of_le hk
    case parents_none => exact fun k => view.parents_eq_none_iff
    case attr_of_parent =>
      intro name
      rw [hstreaming.attr_eq, view.ancestorAt_eq_parents, Option.bind_map]
      rfl

/-- The view of an item inside a list. -/
def itemView : StreamingView Probe where
  stack := [⟨[("id", "7")], "a", [], ⟨0⟩, 0⟩, ⟨[], "b", [], ⟨1⟩, 0⟩]
  indexInStack := 1
  tree := sampleTree.tree
  index_lt := by decide

/-- At the largest level an item has no ancestor to show, but one build panics and the other shows the text
of the item itself in one view and panics in the others. -/
theorem ancestorAccess_fails :
    ancestorAt itemView.stack itemView.indexInStack (2 ^ 64 - 1) = none ∧
    (itemView.nodeAccess .checked).ancestorText (2 ^ 64 - 1) = .error .addOverflow ∧
    (itemView.nodeAccess .wrapping).ancestorText (2 ^ 64 - 1) = .ok (some "b") ∧
    (itemView.owned.nodeAccess .wrapping).ancestorText (2 ^ 64 - 1) = .error .outOfBounds ∧
    ¬ AncestorAccess .checked itemView ⟨"item", [], "b", []⟩ ⟨1⟩ 0 (2 ^ 64 - 1) ∧
    ¬ AncestorAccess .wrapping itemView ⟨"item", [], "b", []⟩ ⟨1⟩ 0 (2 ^ 64 - 1) := by
  refine ⟨rfl, rfl, rfl, rfl, fun h => ?_, fun h => ?_⟩
  · cases h.streaming.text_eq
  · cases h.owned.text_eq

end XmlOxydizer
