import XmlOxydizer.Library.Worklist
import XmlOxydizer.View

/-!
# Queries on a captured subtree

The iterator behind `descendants`, `find` and `find_all` goes through the subtree in pre-order: it
yields every proper descendant once, in document order, and ends.
-/

namespace XmlOxydizer

open Worklist

mutual

/-- The proper descendants of a node in document order. -/
def SubtreeNode.preorder : SubtreeNode → List SubtreeNode
  | ⟨_, _, _, children⟩ => preorderAll children

/-- Several subtrees, each node before its descendants. -/
def preorderAll : List SubtreeNode → List SubtreeNode
  | [] => []
  | node :: nodes => node :: (node.preorder ++ preorderAll nodes)

end

/-- The node of a subtree at a position below its root. -/
def SubtreeNode.at? (node : SubtreeNode) (position : List ℕ) : Option SubtreeNode :=
  nodeAt SubtreeNode.children node.children position

mutual

lemma preorder_children : ∀ node : SubtreeNode, Preorder SubtreeNode.children node.children node.preorder
  | ⟨_, _, _, children⟩ => preorder_all children

lemma preorder_all : ∀ nodes : List SubtreeNode, Preorder SubtreeNode.children nodes (preorderAll nodes)
  | [] => .nil
  | node :: nodes => .cons (preorder_children node) (preorder_all nodes)

end

/-- The iterator does what the worklist on its stack does. -/
lemma next_eq (stack : List SubtreeNode) : SubtreeDescendants.next ⟨stack⟩ =
    (Worklist.next SubtreeNode.children stack).map (fun r => (r.1, ⟨r.2⟩)) := by
  unfold SubtreeDescendants.next Worklist.next
  cases stack.getLast? <;> rfl

lemma yields_descendants (node : SubtreeNode) :
    Yields SubtreeDescendants.next node.descendants node.preorder :=
  (preorder_children node).yields.map SubtreeDescendants.mk next_eq

namespace SubtreeDescendants

variable {self : SubtreeDescendants} {nodes : List SubtreeNode}

lemma find_eq (p : SubtreeNode → Bool) (h : Yields next self nodes) : self.find p = nodes.find? p := by
  induction h with
  | done hnone =>
    unfold find
    split
    · rfl
    · next heq => rw [hnone] at heq; cases heq
  | @item self rest node nodes hnext _ ih =>
    unfold find
    split
    · next heq => rw [hnext] at heq; cases heq
    · next heq =>
      rw [hnext] at heq
      obtain ⟨rfl, rfl⟩ := Prod.mk.inj (Option.some.inj heq)
      by_cases hp : p node
      · rw [if_pos hp, List.find?_cons_of_pos hp]
      · rw [if_neg hp, List.find?_cons_of_neg hp, ih]

lemma filter_eq (p : SubtreeNode → Bool) (h : Yields next self nodes) :
    self.filter p = nodes.filter p := by
  induction h with
  | done hnone =>
    unfold filter
    split
    · rfl
    · next heq => rw [hnone] at heq; cases heq
  | @item self rest node nodes hnext _ ih =>
    unfold filter
    split
    · next heq => rw [hnext] at heq; cases heq
    · next heq =>
      rw [hnext] at heq
      obtain ⟨rfl, rfl⟩ := Prod.mk.inj (Option.some.inj heq)
      by_cases hp : p node
      · rw [if_pos hp, List.filter_cons_of_pos hp, ih]
      · rw [if_neg hp, List.filter_cons_of_neg hp, ih]

end SubtreeDescendants

/-- The descendants of a node, listed by their positions in document order. -/
lemma preorder_positions (node : SubtreeNode) :
    ∃ positions : List (List ℕ), positions.Pairwise (· < ·) ∧
      (∀ p, p ∈ positions ↔ (node.at? p).isSome) ∧ node.preorder.map some = positions.map node.at? :=
  (preorder_children node).positions

/-- The iterator over the descendants ends. It yields the node at every position below the root
once, in document order, which is the recursive pre-order; `findAll` selects from this list by tag
and `find` returns the first node selected. -/
theorem descendants_preorder (node : SubtreeNode) :
    Yields SubtreeDescendants.next node.descendants node.preorder ∧
    (∃ positions : List (List ℕ), positions.Pairwise (· < ·) ∧
      (∀ p, p ∈ positions ↔ (node.at? p).isSome) ∧ node.preorder.map some = positions.map node.at?) ∧
    (∀ tag, node.findAll tag = node.preorder.filter (fun d => d.tag == tag)) ∧
    (∀ tag, node.find tag = (node.findAll tag).head?) ∧
    (∀ tag, node.find tag = none ↔ ∀ d ∈ node.preorder, d.tag ≠ tag) := by
  have hyields := yields_descendants node
  have hfind : ∀ tag, node.find tag = node.preorder.find? (fun d => d.tag == tag) := fun tag =>
    SubtreeDescendants.find_eq _ hyields
  have hfindAll : ∀ tag, node.findAll tag = node.preorder.filter (fun d => d.tag == tag) := fun tag =>
    SubtreeDescendants.filter_eq _ hyields
  refine ⟨hyields, preorder_positions node, hfindAll, fun tag => ?_, fun tag => ?_⟩
  · rw [hfind, hfindAll, List.head?_filter]
  · rw [hfind, List.find?_eq_none]
    simp only [beq_iff_eq, ne_eq]

end XmlOxydizer
