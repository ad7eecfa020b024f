import XmlOxydizer.Proofs.WellFormed

/-!
# Walking down a descriptor tree

Which node an element belongs to depends on the tags from the root to the element. There
are two ways to find it: to look up the whole path among the declared paths, and to walk
the path tag by tag, which leaves the tree at the first undeclared tag and stops looking
once it is inside a capture. This file proves that both find the same node.
-/

namespace XmlOxydizer

variable {R : Type}

/-- The tags from the root to a node. -/
def DescriptorNode.tags (node : DescriptorNode R) : List String := node.fullPath.map PathSegment.str

namespace DescriptorTree

/-- Whether a node is captured. -/
def isCapture (tree : DescriptorTree R) (id : NodeId) : Bool := (tree.desc id).needs.isCapture

/-- The node with this path. -/
def declaredAt (tree : DescriptorTree R) (path : List String) : Option NodeId :=
  (tree.nodes.findIdx? (fun node => node.tags == path)).map NodeId.mk

/-- Whether a capture node lies strictly above this path. -/
def belowCapture (tree : DescriptorTree R) (path : List String) : Bool :=
  tree.nodes.any (fun node => node.needs.isCapture && node.tags.isPrefixOf path && node.tags != path)

/-- The node whose rules apply to an element at this path. -/
def evaluatedAt (tree : DescriptorTree R) (path : List String) : Option NodeId :=
  if tree.belowCapture path then none else tree.declaredAt path

/-- The declared child of the last node, or the root when there is no node yet. -/
def child (tree : DescriptorTree R) (ids : List NodeId) (tag : String) : Option NodeId :=
  match ids.getLast? with
  | none => if (tree.desc ⟨0⟩).tag.str = tag then some ⟨0⟩ else none
  | some parent => (tree.childOf parent tag).toOption.join

/-- Whether the last node is a capture node. -/
def inCapture (tree : DescriptorTree R) (ids : List NodeId) : Bool :=
  ids.getLast?.any tree.isCapture

end DescriptorTree

/-- A point of the walk: the nodes passed, and how many tags below the last one it is. -/
structure Position where
  ids : List NodeId
  below : ℕ

def Position.enter (tree : DescriptorTree R) (p : Position) (tag : String) : Position :=
  if p.below > 0 ∨ tree.inCapture p.ids = true then ⟨p.ids, p.below + 1⟩
  else match tree.child p.ids tag with
    | some id => ⟨p.ids ++ [id], 0⟩
    | none => ⟨p.ids, 1⟩

/-- The walk along a path of tags. -/
def DescriptorTree.walk (tree : DescriptorTree R) (path : List String) : Position :=
  path.foldl (Position.enter tree) ⟨[], 0⟩

namespace DescriptorTree

variable {tree : DescriptorTree R}

@[simp] lemma walk_nil : tree.walk [] = ⟨[], 0⟩ := rfl

lemma walk_concat (path : List String) (tag : String) :
    tree.walk (path ++ [tag]) = (tree.walk path).enter tree tag := by
  simp [walk]

@[simp] lemma inCapture_nil : tree.inCapture [] = false := rfl

@[simp] lemma inCapture_concat (ids : List NodeId) (id : NodeId) :
    tree.inCapture (ids ++ [id]) = tree.isCapture id := by
  simp [inCapture]

section WellFormed

variable [Rule R] (hwf : tree.WellFormed)

include hwf

lemma WellFormed.tags_root : (tree.desc ⟨0⟩).tags = [(tree.desc ⟨0⟩).tag.str] := by
  simp [DescriptorNode.tags, hwf.root_path]

lemma WellFormed.tags_child {p c : NodeId} {tag : String} (h : tree.IsChild p c tag) :
    (tree.desc c).tags = (tree.desc p).tags ++ [tag] := by
  have hpath := (hwf.parent_spec c p h.contains h.parent).2
  simp [DescriptorNode.tags, hpath, h.tag_eq]

lemma WellFormed.tags_inj {c d : NodeId} (hc : tree.Contains c) (hd : tree.Contains d)
    (h : (tree.desc c).tags = (tree.desc d).tags) : c = d := by
  apply hwf.path_inj c d hc hd
  exact List.map_injective_iff.mpr (fun _ _ hst => PathSegment.ext hst) h

lemma WellFormed.parent_contains {p c : NodeId} (hc : tree.Contains c)
    (h : (tree.desc c).parentId = some p) : tree.Contains p :=
  lt_trans (hwf.parent_spec c p hc h).1 hc

/-- A node is the root or a declared child. -/
lemma WellFormed.root_or_child {c : NodeId} (hc : tree.Contains c) :
    c = ⟨0⟩ ∨ ∃ p, tree.Contains p ∧ tree.IsChild p c (tree.desc c).tag.str := by
  cases hparent : (tree.desc c).parentId with
  | none => exact .inl (hwf.eq_root c hc hparent)
  | some p => exact .inr ⟨p, hwf.parent_contains hc hparent, hc, hparent, rfl⟩

lemma WellFormed.tags_ne_nil {c : NodeId} (hc : tree.Contains c) : (tree.desc c).tags ≠ [] := by
  rcases hwf.root_or_child hc with rfl | ⟨p, -, hchild⟩
  · simp [hwf.tags_root]
  · simp [hwf.tags_child hchild]

/-- Every nonempty initial part of a declared path is a declared path. -/
lemma WellFormed.ancestor_at {c : NodeId} (hc : tree.Contains c) {j : ℕ} (hj : 0 < j)
    (hlen : j ≤ (tree.desc c).tags.length) :
    ∃ a, tree.Contains a ∧ (tree.desc a).tags = (tree.desc c).tags.take j := by
  obtain ⟨n⟩ := c
  induction n using Nat.strong_induction_on with
  | _ n ih =>
    by_cases hall : j = (tree.desc ⟨n⟩).tags.length
    · exact ⟨⟨n⟩, hc, by rw [hall, List.take_length]⟩
    rcases hwf.root_or_child hc with hroot | ⟨p, hp, hchild⟩
    · rw [hroot, hwf.tags_root, List.length_singleton] at hlen hall
      omega
    · have htags := hwf.tags_child hchild
      have hlt := (hwf.parent_spec ⟨n⟩ p hc hchild.parent).1
      rw [htags, List.length_append, List.length_singleton] at hlen hall
      have hle : j ≤ (tree.desc p).tags.length := by omega
      obtain ⟨a, ha, hatags⟩ := ih p.val hlt hp hle
      exact ⟨a, ha, by rw [hatags, htags, List.take_append_of_le_length hle]⟩

/-- A node whose path extends the path of another by one tag is its declared child. -/
lemma WellFormed.isChild_of_tags {p c : NodeId} {tag : String} (hp : tree.Contains p)
    (hc : tree.Contains c) (h : (tree.desc c).tags = (tree.desc p).tags ++ [tag]) :
    tree.IsChild p c tag := by
  rcases hwf.root_or_child hc with rfl | ⟨q, hq, hchild⟩
  · rw [hwf.tags_root] at h
    have hempty : (tree.desc p).tags = [] := by
      have hlen := congrArg List.length h
      simp only [List.length_singleton, List.length_append] at hlen
      exact List.eq_nil_of_length_eq_zero (by omega)
    exact absurd hempty (hwf.tags_ne_nil hp)
  · have htags := (hwf.tags_child hchild).symm.trans h
    obtain ⟨hqp, htag⟩ := List.append_inj' htags rfl
    obtain rfl := hwf.tags_inj hq hp hqp
    exact ⟨hc, hchild.parent, List.singleton_inj.mp htag⟩

omit hwf [Rule R] in
lemma child_nil {tag : String} {id : NodeId} :
    tree.child [] tag = some id ↔ id = ⟨0⟩ ∧ (tree.desc ⟨0⟩).tag.str = tag := by
  simp only [child, List.getLast?_nil]
  split <;> simp_all [eq_comm]

lemma WellFormed.child_concat (ids : List NodeId) {p c : NodeId} {tag : String}
    (hp : tree.Contains p) : tree.child (ids ++ [p]) tag = some c ↔ tree.IsChild p c tag := by
  obtain ⟨r, hr, hspec⟩ := hwf.childOf_spec p hp tag
  simp only [child, List.getLast?_concat, hr]
  exact hspec c

lemma WellFormed.declaredAt_eq_some {path : List String} {c : NodeId} :
    tree.declaredAt path = some c ↔ tree.Contains c ∧ (tree.desc c).tags = path := by
  simp only [declaredAt, Option.map_eq_some_iff, List.findIdx?_eq_some_iff_getElem]
  constructor
  · rintro ⟨i, ⟨hi, htags, -⟩, rfl⟩
    have hdesc : tree.desc ⟨i⟩ = tree.nodes[i] := List.getD_eq_getElem _ _ hi
    exact ⟨hi, by simpa [hdesc] using htags⟩
  · rintro ⟨hc, htags⟩
    have hdesc : ∀ j (hj : j < tree.nodes.length), tree.desc ⟨j⟩ = tree.nodes[j] :=
      fun j hj => List.getD_eq_getElem _ _ hj
    refine ⟨c.val, ⟨hc, by rw [← hdesc c.val hc, beq_iff_eq]; exact htags, fun j hj => ?_⟩, rfl⟩
    have hjc : tree.Contains ⟨j⟩ := lt_trans hj hc
    intro heq
    have hjtags : (tree.desc ⟨j⟩).tags = path := (hdesc j hjc) ▸ beq_iff_eq.mp heq
    have hcj := hwf.tags_inj hjc hc (hjtags.trans htags.symm)
    rw [← hcj] at hj
    exact lt_irrefl _ hj

omit hwf [Rule R] in
lemma belowCapture_iff {path : List String} :
    tree.belowCapture path = true ↔
      ∃ c, tree.Contains c ∧ tree.isCapture c = true ∧ (tree.desc c).tags <+: path ∧
        (tree.desc c).tags ≠ path := by
  simp only [belowCapture, List.any_eq_true, Bool.and_eq_true, bne_iff_ne, List.isPrefixOf_iff_prefix,
    and_assoc]
  constructor
  · rintro ⟨node, hnode, hcapture, hle, hne⟩
    obtain ⟨i, hi, rfl⟩ := List.getElem_of_mem hnode
    have hdesc : tree.desc ⟨i⟩ = tree.nodes[i] := List.getD_eq_getElem _ _ hi
    exact ⟨⟨i⟩, hi, by rwa [isCapture, hdesc], by rwa [hdesc], by rwa [hdesc]⟩
  · rintro ⟨c, hc, hcapture, hle, hne⟩
    exact ⟨tree.desc c, desc_mem hc, hcapture, hle, hne⟩

end WellFormed

/-- What holds at every point of the walk. -/
structure WalkOk (tree : DescriptorTree R) (path : List String) (p : Position) : Prop where
  length_eq : p.ids.length + p.below = path.length
  contains : ∀ id ∈ p.ids, tree.Contains id
  tags_eq : ∀ i id, p.ids[i]? = some id → (tree.desc id).tags = path.take (i + 1)
  streaming : ∀ id ∈ p.ids.dropLast, tree.isCapture id = false
  undeclared : p.below > 0 → tree.inCapture p.ids = false →
    ∀ id, tree.Contains id → (tree.desc id).tags ≠ path.take (p.ids.length + 1)

section

variable {path : List String} {p : Position} {tag : String}

lemma WalkOk.tags_last (h : WalkOk tree path p) {ids : List NodeId} {id : NodeId}
    (hids : p.ids = ids ++ [id]) : (tree.desc id).tags = path.take (ids.length + 1) :=
  h.tags_eq ids.length id (by simp [hids])

/-- Entering one more tag below the last node, without a look at the declarations. -/
lemma WalkOk.enter_below (h : WalkOk tree path p) (hbelow : p.below > 0 ∨ tree.inCapture p.ids = true) :
    WalkOk tree (path ++ [tag]) ⟨p.ids, p.below + 1⟩ := by
  have hle : p.ids.length ≤ path.length := by
    have := h.length_eq
    omega
  constructor
  case length_eq =>
    have := h.length_eq
    simp only [List.length_append, List.length_singleton]
    omega
  case contains => exact h.contains
  case tags_eq =>
    intro i id hid
    have hi : i < p.ids.length := (List.getElem?_eq_some_iff.mp hid).1
    rw [h.tags_eq i id hid, List.take_append_of_le_length (by omega)]
  case streaming => exact h.streaming
  case undeclared =>
    intro _ hcapture id hid
    have hpos : p.below > 0 := hbelow.resolve_right (by simp [hcapture])
    have hlen := h.length_eq
    rw [List.take_append_of_le_length (by dsimp only; omega)]
    exact h.undeclared hpos hcapture id hid

variable [Rule R]

/-- Entering a declared child. -/
lemma WalkOk.enter_child (hwf : tree.WellFormed) (h : WalkOk tree path p) (hbelow : p.below = 0)
    (hcapture : tree.inCapture p.ids = false) {id : NodeId} (hid : tree.child p.ids tag = some id) :
    WalkOk tree (path ++ [tag]) ⟨p.ids ++ [id], 0⟩ := by
  have hlen := h.length_eq
  have hnew : tree.Contains id ∧ (tree.desc id).tags = path ++ [tag] := by
    rcases List.eq_nil_or_concat' p.ids with hnil | ⟨ids, last, hconcat⟩
    · have hpath : path = [] := List.eq_nil_of_length_eq_zero (by simp [← hlen, hnil, hbelow])
      rw [hnil] at hid
      obtain ⟨rfl, htag⟩ := child_nil.mp hid
      exact ⟨hwf.root_contains, by rw [hwf.tags_root, htag, hpath, List.nil_append]⟩
    · have hlast : tree.Contains last := h.contains last (by simp [hconcat])
      rw [hconcat] at hid
      have hchild := (hwf.child_concat _ hlast).mp hid
      have htags := h.tags_last hconcat
      rw [List.take_of_length_le (by simp [← hlen, hconcat, hbelow])] at htags
      exact ⟨hchild.contains, by rw [hwf.tags_child hchild, htags]⟩
  constructor
  case length_eq => simp [← hlen, hbelow]
  case contains =>
    intro c hc
    rcases List.mem_append.mp hc with hc | hc
    · exact h.contains c hc
    · rw [List.mem_singleton.mp hc]
      exact hnew.1
  case tags_eq =>
    intro i c hc
    rcases Nat.lt_or_ge i p.ids.length with hi | hi
    · rw [List.getElem?_append_left hi] at hc
      rw [h.tags_eq i c hc, List.take_append_of_le_length (by omega)]
    · have hlt := (List.getElem?_eq_some_iff.mp hc).1
      obtain rfl : i = p.ids.length := by
        simp only [List.length_append, List.length_singleton] at hlt
        omega
      obtain rfl : id = c := by simpa using hc
      rw [hnew.2, List.take_of_length_le (by simp [← hlen, hbelow])]
  case streaming =>
    intro c hc
    rw [List.dropLast_concat] at hc
    rcases List.eq_nil_or_concat' p.ids with hnil | ⟨ids, last, hconcat⟩
    · simp [hnil] at hc
    · rw [hconcat] at hc
      rcases List.mem_append.mp hc with hc | hc
      · exact h.streaming c (by simpa [hconcat] using hc)
      · rw [List.mem_singleton.mp hc]
        simpa [hconcat] using hcapture
  case undeclared => simp

/-- Leaving the tree at an undeclared tag. -/
lemma WalkOk.enter_undeclared (hwf : tree.WellFormed) (h : WalkOk tree path p) (hbelow : p.below = 0)
    (hchild : tree.child p.ids tag = none) : WalkOk tree (path ++ [tag]) ⟨p.ids, 1⟩ := by
  have hlen := h.length_eq
  constructor
  case length_eq => simp [← hlen, hbelow]
  case contains => exact h.contains
  case tags_eq =>
    intro i id hid
    have hi : i < p.ids.length := (List.getElem?_eq_some_iff.mp hid).1
    rw [h.tags_eq i id hid, List.take_append_of_le_length (by omega)]
  case streaming => exact h.streaming
  case undeclared =>
    intro _ _ id hid htags
    rw [List.take_of_length_le (by simp [← hlen, hbelow])] at htags
    have hsome : tree.child p.ids tag = some id := by
      rcases List.eq_nil_or_concat' p.ids with hnil | ⟨ids, last, hconcat⟩
      · have hpath : path = [] := List.eq_nil_of_length_eq_zero (by simp [← hlen, hnil, hbelow])
        rw [hnil, child_nil]
        rw [hpath, List.nil_append] at htags
        rcases hwf.root_or_child hid with rfl | ⟨q, hq, hqchild⟩
        · rw [hwf.tags_root] at htags
          exact ⟨rfl, List.singleton_inj.mp htags⟩
        · have := congrArg List.length ((hwf.tags_child hqchild).symm.trans htags)
          have hne := List.length_pos_of_ne_nil (hwf.tags_ne_nil hq)
          simp only [List.length_append, List.length_singleton] at this
          omega
      · have hlast : tree.Contains last := h.contains last (by simp [hconcat])
        have hlasttags := h.tags_last hconcat
        rw [List.take_of_length_le (by simp [← hlen, hconcat, hbelow])] at hlasttags
        rw [hconcat]
        exact (hwf.child_concat _ hlast).mpr (hwf.isChild_of_tags hlast hid (by rw [htags, hlasttags]))
    simp [hchild] at hsome

theorem walk_ok (hwf : tree.WellFormed) (path : List String) : WalkOk tree path (tree.walk path) := by
  induction path using List.reverseRecOn with
  | nil => exact ⟨rfl, by simp, by simp, by simp, by simp⟩
  | append_singleton path tag ih =>
    rw [walk_concat, Position.enter]
    split
    case isTrue hbelow => exact ih.enter_below hbelow
    case isFalse hbelow =>
      simp only [not_or, Nat.not_lt, Nat.le_zero, Bool.not_eq_true] at hbelow
      split
      case h_1 id hid => exact ih.enter_child hwf hbelow.1 hbelow.2 hid
      case h_2 hnone => exact ih.enter_undeclared hwf hbelow.1 hnone

/-- The walk and the look-up of the whole path find the same node. -/
theorem evaluatedAt_eq_walk (hwf : tree.WellFormed) (path : List String) :
    tree.evaluatedAt path =
      if (tree.walk path).below = 0 then (tree.walk path).ids.getLast? else none := by
  have h := walk_ok hwf path
  have hlen := h.length_eq
  split
  case isTrue hbelow =>
    rcases List.eq_nil_or_concat' (tree.walk path).ids with hnil | ⟨ids, last, hconcat⟩
    · have hpath : path = [] := List.eq_nil_of_length_eq_zero (by simp [← hlen, hnil, hbelow])
      have hnone : tree.declaredAt path = none := by
        rw [Option.eq_none_iff_forall_ne_some]
        intro c hc
        obtain ⟨hcontains, htags⟩ := hwf.declaredAt_eq_some.mp hc
        exact hwf.tags_ne_nil hcontains (htags.trans hpath)
      simp [evaluatedAt, hnone, hnil]
    · have hlast : tree.Contains last := h.contains last (by simp [hconcat])
      have htags := h.tags_last hconcat
      rw [List.take_of_length_le (by simp [← hlen, hconcat, hbelow])] at htags
      have hdeclared := hwf.declaredAt_eq_some.mpr ⟨hlast, htags⟩
      have habove : tree.belowCapture path = false := by
        rw [Bool.eq_false_iff, ne_eq, belowCapture_iff]
        rintro ⟨c, hc, hcapture, hle, hne⟩
        -- a capture node on a shorter path would be one of the nodes passed
        have hpos := List.length_pos_of_ne_nil (hwf.tags_ne_nil hc)
        have hlt : (tree.desc c).tags.length < path.length :=
          lt_of_le_of_ne hle.length_le fun heq => hne (hle.eq_of_length heq)
        have hids : ids.length + 1 = path.length := by simpa [hconcat, hbelow] using hlen
        obtain ⟨a, ha⟩ : ∃ a, ids[(tree.desc c).tags.length - 1]? = some a :=
          ⟨_, List.getElem?_eq_getElem (by omega)⟩
        have hatags := h.tags_eq ((tree.desc c).tags.length - 1) a
          (by rw [hconcat, List.getElem?_append_left (by omega), ha])
        rw [Nat.sub_add_cancel hpos, ← List.prefix_iff_eq_take.mp hle] at hatags
        have hmem := List.mem_of_getElem? ha
        have hac := hwf.tags_inj (h.contains a (by simp [hconcat, hmem])) hc hatags
        have hstream := h.streaming a (by simpa [hconcat] using hmem)
        rw [hac, hcapture] at hstream
        cases hstream
      simp [evaluatedAt, habove, hdeclared, hconcat]
  case isFalse hbelow =>
    have hpos : (tree.walk path).below > 0 := Nat.pos_of_ne_zero hbelow
    cases hcapture : tree.inCapture (tree.walk path).ids with
    | true =>
      rcases List.eq_nil_or_concat' (tree.walk path).ids with hnil | ⟨ids, last, hconcat⟩
      · simp [hnil] at hcapture
      · have hlast : tree.Contains last := h.contains last (by simp [hconcat])
        have htags := h.tags_last hconcat
        have habove : tree.belowCapture path = true := by
          refine belowCapture_iff.mpr ⟨last, hlast, by simpa [hconcat] using hcapture, ?_, ?_⟩
          · rw [htags]
            exact List.take_prefix _ _
          · intro heq
            have := congrArg List.length (htags.symm.trans heq)
            simp only [hconcat, List.length_append, List.length_singleton, List.length_take] at hlen this
            omega
        simp [evaluatedAt, habove]
    | false =>
      have hnone : tree.declaredAt path = none := by
        rw [Option.eq_none_iff_forall_ne_some]
        intro c hc
        obtain ⟨hcontains, htags⟩ := hwf.declaredAt_eq_some.mp hc
        obtain ⟨a, ha, hatags⟩ := hwf.ancestor_at hcontains
          (j := (tree.walk path).ids.length + 1) (by omega) (by rw [htags]; omega)
        exact h.undeclared hpos hcapture a ha (by rw [hatags, htags])
      simp [evaluatedAt, hnone]

/-- An element is evaluated when it is a declared child of a tracked element that is not captured. -/
lemma evaluatedAt_concat (hwf : tree.WellFormed) (path : List String) (tag : String) :
    tree.evaluatedAt (path ++ [tag]) =
      if (tree.walk path).below > 0 ∨ tree.inCapture (tree.walk path).ids = true then none
      else tree.child (tree.walk path).ids tag := by
  rw [evaluatedAt_eq_walk hwf, walk_concat, Position.enter]
  by_cases hbelow : (tree.walk path).below > 0 ∨ tree.inCapture (tree.walk path).ids = true
  · rw [if_pos hbelow, if_pos hbelow, if_neg (Nat.succ_ne_zero _)]
  · rw [if_neg hbelow, if_neg hbelow]
    cases tree.child (tree.walk path).ids tag with
    | none => rfl
    | some id =>
      dsimp only
      rw [if_pos rfl, List.getLast?_concat]

end

end DescriptorTree

end XmlOxydizer
