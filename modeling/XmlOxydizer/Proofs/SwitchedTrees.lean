import XmlOxydizer.Proofs.DataAccess

/-!
# Trees that differ in one access mode

Two trees are built from the same declarations, but for one node, which is streaming in the
first and captured in the second. They have the same nodes, paths, children and flags, up to
the capture flag of that node.
-/

namespace XmlOxydizer

variable {R : Type}

/-- The declarations of the two trees are the same, but for those of node `n`, which is streaming
in the first tree and captured in the second. -/
def SwitchedMode [Rule R] (t t' : BuiltTree R) (n : NodeId) : Prop :=
  ∃ d, t.builder.declarations[n.val]? = some d ∧ d.isCapture = false ∧
    t'.builder.declarations = t.builder.declarations.set n.val { d with isCapture := true }

/-- What two such trees have in common. -/
structure Switched (tree tree' : DescriptorTree R) (n : NodeId) : Prop where
  contains_node : tree.Contains n
  contains_iff : ∀ id, tree.Contains id ↔ tree'.Contains id
  rules_eq : ∀ id, (tree.desc id).rules = (tree'.desc id).rules
  tag_eq : ∀ id, (tree.desc id).tag = (tree'.desc id).tag
  path_eq : ∀ id, (tree.desc id).fullPath = (tree'.desc id).fullPath
  parent_eq : ∀ id, (tree.desc id).parentId = (tree'.desc id).parentId
  needs_eq : ∀ id i, i ≠ 3 → (tree.desc id).needs.has i = (tree'.desc id).needs.has i
  capture_eq : ∀ id, id ≠ n → tree.isCapture id = tree'.isCapture id
  streaming : tree.isCapture n = false
  captured : tree'.isCapture n = true

namespace TreeBuilder

variable {decls : List (NodeDeclaration R)} {n : ℕ} {d : NodeDeclaration R}

lemma childrenUpTo_set (hd : decls[n]? = some d) (k p : ℕ) :
    childrenUpTo (decls.set n { d with isCapture := true }) k p = childrenUpTo decls k p := by
  unfold childrenUpTo
  apply List.filter_congr
  intro i _
  by_cases hi : n = i
  · subst hi
    obtain ⟨hlt, rfl⟩ := List.getElem?_eq_some_iff.mp hd
    simp [hlt]
  · simp [List.getElem?_set_ne hi]

variable [Rule R]

/-- The capture flag of a declaration is the capture bit of its node and no other one. -/
lemma keptNode_set (hd : decls[n]? = some d) (i j : ℕ) (e : NodeDeclaration R) (b : Bool)
    (hj : j ≠ 3) :
    (keptNode (decls.set n { d with isCapture := true }) i { e with isCapture := b }).needs.has j =
      (keptNode decls i e).needs.has j := by
  have hbit : NodeNeeds.capture.has j = false := by
    rw [NodeNeeds.has]
    change (8#8).getLsbD j = false
    by_cases hlt : j < 8
    · interval_cases j <;> simp_all
    · exact BitVec.getLsbD_of_ge _ _ (by omega)
  simp only [keptNode_has, toNode_has, hbit, Bool.and_false, Bool.or_false, List.length_set,
    childrenUpTo_set hd]

end TreeBuilder

/-! ### The trees of the declarations -/

section

variable [Rule R]

lemma BuiltTree.tree_eq (t : BuiltTree R) : t.tree = t.builder.closedForm :=
  ((TreeBuilder.build_eq_ok t.valid).mp t.build_eq).2.2.2

lemma BuiltTree.contains_iff (t : BuiltTree R) (id : NodeId) :
    t.tree.Contains id ↔ ∃ d, t.builder.declarations[id.val]? = some d := by
  rw [t.tree_eq]
  exact TreeBuilder.contains_closedForm

lemma BuiltTree.desc_eq (t : BuiltTree R) (id : NodeId) {d : NodeDeclaration R}
    (hd : t.builder.declarations[id.val]? = some d) : t.tree.desc id =
      TreeBuilder.summarizedNode t.builder.declarations t.builder.declarations.length id.val d := by
  rw [t.tree_eq]
  exact TreeBuilder.desc_closedForm id hd

lemma BuiltTree.desc_eq_default (t : BuiltTree R) (id : NodeId)
    (hnone : t.builder.declarations[id.val]? = none) : t.tree.desc id = default := by
  have hout : ¬ t.tree.Contains id := by
    rw [t.contains_iff, hnone]
    simp
  rw [DescriptorTree.desc, List.getD_eq_default]
  simpa [DescriptorTree.Contains] using hout

/-- A node is a capture node exactly when it is declared as one. -/
lemma BuiltTree.isCapture_eq (t : BuiltTree R) (id : NodeId) {d : NodeDeclaration R}
    (hd : t.builder.declarations[id.val]? = some d) : t.tree.isCapture id = d.isCapture := by
  have hchecked := (TreeBuilder.build_eq_ok t.valid).mp t.build_eq
  have hrules := TreeBuilder.checkAccessModes_eq_ok.mp hchecked.2.1 d (List.mem_of_getElem? hd)
  rw [DescriptorTree.isCapture, t.desc_eq id hd, TreeBuilder.summarizedNode_needs,
    NodeNeeds.isCapture_eq, TreeBuilder.keptNode_isCapture hrules]

variable {t t' : BuiltTree R} {n : NodeId}

/-- The declarations of a node in both trees. -/
lemma SwitchedMode.declaration (h : SwitchedMode t t' n) (id : NodeId) :
    (t.builder.declarations[id.val]? = none ∧ t'.builder.declarations[id.val]? = none) ∨
      ∃ e b, t.builder.declarations[id.val]? = some e ∧
        t'.builder.declarations[id.val]? = some { e with isCapture := b } ∧
        (id ≠ n → b = e.isCapture) := by
  obtain ⟨d, hd, hstream, hdecls⟩ := h
  rw [hdecls]
  by_cases hid : id = n
  · subst hid
    have hlt := (List.getElem?_eq_some_iff.mp hd).1
    exact .inr ⟨d, true, hd, by simp [hlt], fun hne => absurd rfl hne⟩
  · have hne : n.val ≠ id.val := fun heq => hid (NodeId.ext heq.symm)
    rw [List.getElem?_set_ne hne]
    cases he : t.builder.declarations[id.val]? with
    | none => exact .inl ⟨rfl, rfl⟩
    | some e => exact .inr ⟨e, e.isCapture, rfl, rfl, fun _ => rfl⟩

/-- What does not depend on the mode of a declaration is the same for a node of both trees. -/
lemma SwitchedMode.node_eq {β : Type} (h : SwitchedMode t t' n) (f : DescriptorNode R → β)
    (hf : ∀ i e b,
      f (TreeBuilder.summarizedNode t.builder.declarations t.builder.declarations.length i e) =
        f (TreeBuilder.summarizedNode t'.builder.declarations t'.builder.declarations.length i
          { e with isCapture := b })) (id : NodeId) : f (t.tree.desc id) = f (t'.tree.desc id) := by
  rcases h.declaration id with ⟨hnone, hnone'⟩ | ⟨e, b, he, he', -⟩
  · rw [t.desc_eq_default id hnone, t'.desc_eq_default id hnone']
  · rw [t.desc_eq id he, t'.desc_eq id he']
    exact hf id.val e b

theorem SwitchedMode.switched (h : SwitchedMode t t' n) : Switched t.tree t'.tree n := by
  obtain ⟨d, hd, hstream, hdecls⟩ := id h
  have hlt := (List.getElem?_eq_some_iff.mp hd).1
  constructor
  case contains_node => exact (t.contains_iff n).mpr ⟨d, hd⟩
  case contains_iff =>
    intro id
    rw [t.contains_iff, t'.contains_iff]
    rcases h.declaration id with ⟨hnone, hnone'⟩ | ⟨e, b, he, he', -⟩
    · simp [hnone, hnone']
    · simp [he, he']
  case rules_eq => exact h.node_eq DescriptorNode.rules (by simp)
  case tag_eq => exact h.node_eq DescriptorNode.tag (by simp)
  case path_eq => exact h.node_eq DescriptorNode.fullPath (by simp)
  case parent_eq => exact h.node_eq DescriptorNode.parentId (by simp)
  case needs_eq =>
    intro id i hi
    refine h.node_eq (fun node => node.needs.has i) (fun j e b => ?_) id
    rw [TreeBuilder.summarizedNode_needs, TreeBuilder.summarizedNode_needs, hdecls,
      TreeBuilder.keptNode_set hd j i e b hi]
  case capture_eq =>
    intro id hid
    rcases h.declaration id with ⟨hnone, hnone'⟩ | ⟨e, b, he, he', hmode⟩
    · rw [DescriptorTree.isCapture, DescriptorTree.isCapture, t.desc_eq_default id hnone,
        t'.desc_eq_default id hnone']
    · rw [t.isCapture_eq id he, t'.isCapture_eq id he', hmode hid]
  case streaming => rw [t.isCapture_eq n hd, hstream]
  case captured => rw [t'.isCapture_eq n (by rw [hdecls, List.getElem?_set_self hlt])]

end

/-! ### Children, paths and walks -/

section

variable [Rule R] {tree tree' : DescriptorTree R} {n : NodeId} (hwf : tree.WellFormed)
  (hwf' : tree'.WellFormed) (h : Switched tree tree' n)

include h

omit [Rule R] in
lemma Switched.tags_eq (id : NodeId) : (tree.desc id).tags = (tree'.desc id).tags := by
  rw [DescriptorNode.tags, DescriptorNode.tags, h.path_eq]

omit [Rule R] in
lemma Switched.isChild_iff (p c : NodeId) (tag : String) : tree.IsChild p c tag ↔ tree'.IsChild p c tag := by
  constructor
  · rintro ⟨hc, hparent, htag⟩
    exact ⟨(h.contains_iff c).mp hc, by rw [← h.parent_eq, hparent], by rw [← h.tag_eq, htag]⟩
  · rintro ⟨hc, hparent, htag⟩
    exact ⟨(h.contains_iff c).mpr hc, by rw [h.parent_eq, hparent], by rw [h.tag_eq, htag]⟩

include hwf hwf'

lemma Switched.child_eq (ids : List NodeId) (tag : String) : tree.child ids tag = tree'.child ids tag := by
  refine Option.ext fun c => ?_
  rcases List.eq_nil_or_concat' ids with rfl | ⟨ids, p, rfl⟩
  · rw [DescriptorTree.child_nil, DescriptorTree.child_nil, h.tag_eq]
  by_cases hp : tree.Contains p
  · rw [hwf.child_concat ids hp, hwf'.child_concat ids ((h.contains_iff p).mp hp), h.isChild_iff]
  · -- a node that is not in the tree has no children
    have hnone : ∀ tree : DescriptorTree R, ¬ tree.Contains p → tree.child (ids ++ [p]) tag = none := by
      intro tree hout
      have hget : tree.get p = .error .outOfBounds := by
        simp [DescriptorTree.get, index, List.getElem?_eq_none (Nat.not_lt.mp hout)]
      simp [DescriptorTree.child, DescriptorTree.childOf, hget, Except.toOption]
    rw [hnone tree hp, hnone tree' (mt (h.contains_iff p).mpr hp)]

lemma Switched.declaredAt_eq (path : List String) : tree.declaredAt path = tree'.declaredAt path := by
  refine Option.ext fun c => ?_
  rw [hwf.declaredAt_eq_some, hwf'.declaredAt_eq_some, h.contains_iff, h.tags_eq]

lemma Switched.summaryNeeds_eq {id : NodeId} (hid : tree.Contains id) :
    (tree.desc id).summaryNeeds = (tree'.desc id).summaryNeeds := by
  cases hparent : (tree.desc id).parentId with
  | none =>
    obtain rfl := hwf.eq_root id hid hparent
    rw [hwf.root_summaryNeeds, hwf'.root_summaryNeeds]
  | some p =>
    have hparent' : (tree'.desc id).parentId = some p := by rw [← h.parent_eq, hparent]
    rw [hwf.summaryNeeds_eq id p hid hparent,
      hwf'.summaryNeeds_eq id p ((h.contains_iff id).mp hid) hparent', h.needs_eq p 2 (by decide)]

/-- The node lies below no capture in either tree. -/
lemma Switched.evaluatedAt_eq {path : List String} (hpath : tree.declaredAt path = some n) :
    tree.evaluatedAt path = some n ∧ tree'.evaluatedAt path = some n := by
  have htags := (hwf.declaredAt_eq_some.mp hpath).2
  have hbelow' : tree'.belowCapture path = false := by
    rw [Bool.eq_false_iff, ne_eq, DescriptorTree.belowCapture_iff]
    rintro ⟨a, ha, hcapture, hle, hne⟩
    rw [← htags, h.tags_eq n] at hle hne
    have hprefix : (tree'.desc a).fullPath <+: (tree'.desc n).fullPath := by
      rw [fullPath_eq_tags, fullPath_eq_tags]
      exact hle.map _
    have hcapture' := h.captured
    rw [DescriptorTree.isCapture, NodeNeeds.isCapture_eq] at hcapture hcapture'
    have han := hwf'.no_nesting a n ha ((h.contains_iff n).mp h.contains_node) hcapture hcapture' hprefix
    exact hne (by rw [han])
  have hbelow : tree.belowCapture path = false := by
    rw [Bool.eq_false_iff, ne_eq, DescriptorTree.belowCapture_iff] at hbelow' ⊢
    rintro ⟨a, ha, hcapture, hle, hne⟩
    refine hbelow' ⟨a, (h.contains_iff a).mp ha, ?_, by rwa [← h.tags_eq], by rwa [← h.tags_eq]⟩
    rw [← h.capture_eq a (fun heq => by rw [heq, h.streaming] at hcapture; cases hcapture), hcapture]
  rw [DescriptorTree.evaluatedAt, DescriptorTree.evaluatedAt, hbelow, hbelow', ← h.declaredAt_eq hwf hwf']
  exact ⟨hpath, hpath⟩

/-- The walks agree at an element unless it is a declared child of the node. -/
lemma Switched.walk_concat {path : List String} {tag : String} (hwalk : tree.walk path = tree'.walk path)
    (hnone : tree.declaredAt path = some n → tree.declaredAt (path ++ [tag]) = none) :
    tree.walk (path ++ [tag]) = tree'.walk (path ++ [tag]) := by
  have hok := DescriptorTree.walk_ok hwf path
  have hlen := hok.length_eq
  rw [DescriptorTree.walk_concat, DescriptorTree.walk_concat, ← hwalk, Position.enter, Position.enter,
    h.child_eq hwf hwf']
  rcases List.eq_nil_or_concat' (tree.walk path).ids with hnil | ⟨ids, last, hconcat⟩
  · simp [hnil]
  by_cases hlast : last = n
  case neg => simp only [hconcat, DescriptorTree.inCapture_concat, h.capture_eq last hlast]
  case pos =>
    subst hlast
    simp only [hconcat, DescriptorTree.inCapture_concat, h.streaming, h.captured]
    by_cases hbelow : (tree.walk path).below > 0
    · simp [hbelow]
    · -- the node has no declared child of this tag
      have htags := hok.tags_last hconcat
      rw [List.take_of_length_le (by rw [← hlen, hconcat, List.length_append, List.length_singleton]; omega)]
        at htags
      have hlookup := hnone (hwf.declaredAt_eq_some.mpr ⟨h.contains_node, htags⟩)
      have hchild : tree'.child (ids ++ [last]) tag = none := by
        have hsingle := child_eq_declaredAt hwf h.contains_node tag
        rw [htags, hlookup] at hsingle
        rw [← h.child_eq hwf hwf', DescriptorTree.child, List.getLast?_concat]
        exact hsingle
      have hzero : (tree.walk path).below = 0 := by omega
      simp [hzero, hchild]

end

end XmlOxydizer
