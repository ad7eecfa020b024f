import XmlOxydizer.Proofs.SchemaMeaning

/-!
# The order of declarations

Two builders that declare the same nodes, in whatever order, are answered alike by `build`, and their trees give
every stream of events the same verdict and the same calls. In a schema term the order of sibling nodes is of no
consequence, nor is the place of the rules between them.
-/

namespace XmlOxydizer

open Markup Relation

variable {R : Type}

/-! ### Trees with the same nodes -/

/-- Two nodes of two trees with the same path and rules, for which the parser keeps the same data. -/
structure Alike (tree tree' : DescriptorTree R) (id id' : NodeId) : Prop where
  contains : tree.Contains id
  contains' : tree'.Contains id'
  fullPath_eq : (tree.desc id).fullPath = (tree'.desc id').fullPath
  rules_eq : (tree.desc id).rules = (tree'.desc id').rules
  capture_eq : tree.isCapture id = tree'.isCapture id'
  keepsAttrs_eq : tree.keepsAttrs id = tree'.keepsAttrs id'
  keepsText_eq : tree.keepsText id = tree'.keepsText id'

/-- Each node of one tree has a counterpart in the other. -/
structure SameNodes (tree tree' : DescriptorTree R) : Prop where
  limit_eq : tree.captureMemoryLimit = tree'.captureMemoryLimit
  left : ∀ id, tree.Contains id → ∃ id', Alike tree tree' id id'
  right : ∀ id', tree'.Contains id' → ∃ id, Alike tree tree' id id'

section Alike

variable {tree tree' : DescriptorTree R} {id id' : NodeId}

lemma Alike.symm (h : Alike tree tree' id id') : Alike tree' tree id' id :=
  ⟨h.contains', h.contains, h.fullPath_eq.symm, h.rules_eq.symm, h.capture_eq.symm, h.keepsAttrs_eq.symm,
    h.keepsText_eq.symm⟩

lemma SameNodes.symm (h : SameNodes tree tree') : SameNodes tree' tree where
  limit_eq := h.limit_eq.symm
  left id' hid' := by
    obtain ⟨id, halike⟩ := h.right id' hid'
    exact ⟨id, halike.symm⟩
  right id hid := by
    obtain ⟨id', halike⟩ := h.left id hid
    exact ⟨id', halike.symm⟩

lemma Alike.tags_eq (h : Alike tree tree' id id') : (tree.desc id).tags = (tree'.desc id').tags :=
  congrArg (List.map PathSegment.str) h.fullPath_eq

lemma SameNodes.overflowFault_eq (h : SameNodes tree tree') (halike : Alike tree tree' id id') (cost : ℕ) :
    overflowFault tree id cost = overflowFault tree' id' cost := by
  rw [overflowFault, overflowFault, h.limit_eq, halike.fullPath_eq]

section Children

variable [Rule R]

lemma SameNodes.roots (hwf : tree.WellFormed) (hwf' : tree'.WellFormed) (h : SameNodes tree tree') :
    Alike tree tree' ⟨0⟩ ⟨0⟩ := by
  obtain ⟨id', halike⟩ := h.left ⟨0⟩ hwf.root_contains
  rcases hwf'.root_or_child halike.contains' with rfl | ⟨p, hp, hchild⟩
  · exact halike
  · have hlen := congrArg List.length halike.tags_eq
    have hpos := List.length_pos_of_ne_nil (hwf'.tags_ne_nil hp)
    rw [hwf.tags_root, hwf'.tags_child hchild, List.length_singleton, List.length_append,
      List.length_singleton] at hlen
    omega

lemma SameNodes.child_of_child (hwf : tree.WellFormed) (hwf' : tree'.WellFormed) (h : SameNodes tree tree')
    {ids ids' : List NodeId} (hids : List.Forall₂ (Alike tree tree') ids ids') {tag : String} {c : NodeId}
    (hc : tree.child ids tag = some c) : ∃ c', tree'.child ids' tag = some c' ∧ Alike tree tree' c c' := by
  rcases List.eq_nil_or_concat' ids with rfl | ⟨ids₀, p, rfl⟩
  · cases hids
    have hroots := h.roots hwf hwf'
    obtain ⟨rfl, htag⟩ := DescriptorTree.child_nil.mp hc
    refine ⟨⟨0⟩, DescriptorTree.child_nil.mpr ⟨rfl, ?_⟩, hroots⟩
    have htags := hroots.tags_eq
    rw [hwf.tags_root, hwf'.tags_root] at htags
    rw [← List.singleton_inj.mp htags, htag]
  · obtain ⟨ids₀', p', rfl, -, hp⟩ := Lists.forall₂_concat_left hids
    have hchild := (hwf.child_concat _ hp.contains).mp hc
    obtain ⟨c', halike⟩ := h.left c hchild.contains
    refine ⟨c', (hwf'.child_concat _ hp.contains').mpr (hwf'.isChild_of_tags hp.contains' halike.contains' ?_),
      halike⟩
    rw [← halike.tags_eq, hwf.tags_child hchild, hp.tags_eq]

/-- The same tag leads to counterparts. -/
lemma SameNodes.child_alike (hwf : tree.WellFormed) (hwf' : tree'.WellFormed) (h : SameNodes tree tree')
    {ids ids' : List NodeId} (hids : List.Forall₂ (Alike tree tree') ids ids') (tag : String) :
    Option.Rel (Alike tree tree') (tree.child ids tag) (tree'.child ids' tag) := by
  cases hc : tree.child ids tag with
  | some c =>
    obtain ⟨c', hc', halike⟩ := h.child_of_child hwf hwf' hids hc
    rw [hc']
    exact .some halike
  | none =>
    cases hc' : tree'.child ids' tag with
    | none => exact .none
    | some c' =>
      have hids' : List.Forall₂ (Alike tree' tree) ids' ids := hids.flip.imp fun _ _ halike => halike.symm
      obtain ⟨c, hsome, -⟩ := h.symm.child_of_child hwf' hwf hids' hc'
      rw [hc] at hsome
      cases hsome

end Children

/-! ### Walks, faults and calls -/

/-- Two parses end alike and make the same calls, unless a build with overflow checks panics in one of them. -/
def SameParses [Rule R] (tree tree' : DescriptorTree R) : Prop :=
  ∀ (checks : OverflowChecks) (events : List (Except XmlError Event)),
    let o := parseFile checks tree events
    let o' := parseFile checks tree' events
    (o.result = o'.result ∧ o.out.evaluated.map Evaluation.call = o'.out.evaluated.map Evaluation.call) ∨
      checks = .checked ∧ ((∃ p, o.result = .error (.panic p)) ∨ ∃ p, o'.result = .error (.panic p))

/-- Two positions at counterparts. -/
structure SamePosition (tree tree' : DescriptorTree R) (p p' : Position) : Prop where
  ids : List.Forall₂ (Alike tree tree') p.ids p'.ids
  below_eq : p.below = p'.below

lemma inCapture_eq {ids ids' : List NodeId} (hids : List.Forall₂ (Alike tree tree') ids ids') :
    tree.inCapture ids = tree'.inCapture ids' := by
  rcases List.eq_nil_or_concat' ids with rfl | ⟨ids₀, p, rfl⟩
  · cases hids
    rfl
  · obtain ⟨ids₀', p', rfl, -, hp⟩ := Lists.forall₂_concat_left hids
    rw [DescriptorTree.inCapture_concat, DescriptorTree.inCapture_concat, hp.capture_eq]

variable [Rule R] (hwf : tree.WellFormed) (hwf' : tree'.WellFormed) (h : SameNodes tree tree')

include hwf hwf' h

lemma SameNodes.enter {p p' : Position} (hp : SamePosition tree tree' p p') (tag : String) :
    SamePosition tree tree' (p.enter tree tag) (p'.enter tree' tag) := by
  obtain ⟨hids, hbelow⟩ := hp
  simp only [Position.enter, hbelow, inCapture_eq hids]
  by_cases hskip : p'.below > 0 ∨ tree'.inCapture p'.ids = true
  · rw [if_pos hskip, if_pos hskip]
    exact ⟨hids, rfl⟩
  · rw [if_neg hskip, if_neg hskip]
    have hchild := h.child_alike hwf hwf' hids tag
    revert hchild
    cases tree.child p.ids tag <;> cases tree'.child p'.ids tag <;> intro hchild <;> cases hchild
    · exact ⟨hids, rfl⟩
    case some.some halike => exact ⟨Lists.forall₂_concat hids halike, rfl⟩

/-- A path leads to counterparts. -/
theorem SameNodes.walk (path : List String) : SamePosition tree tree' (tree.walk path) (tree'.walk path) := by
  induction path using List.reverseRecOn with
  | nil => exact ⟨.nil, rfl⟩
  | append_singleton path tag ih =>
    rw [DescriptorTree.walk_concat, DescriptorTree.walk_concat]
    exact h.enter hwf hwf' ih tag

lemma SameNodes.evaluatedAt (path : List String) :
    Option.Rel (Alike tree tree') (tree.evaluatedAt path) (tree'.evaluatedAt path) := by
  obtain ⟨hids, hbelow⟩ := h.walk hwf hwf' path
  rw [DescriptorTree.evaluatedAt_eq_walk hwf, DescriptorTree.evaluatedAt_eq_walk hwf', hbelow]
  split
  case isFalse => exact .none
  case isTrue =>
    rcases List.eq_nil_or_concat' (tree.walk path).ids with hnil | ⟨ids, id, hconcat⟩
    · rw [hnil] at hids ⊢
      rw [List.forall₂_nil_left_iff.mp hids]
      exact .none
    · rw [hconcat] at hids ⊢
      obtain ⟨ids', id', hconcat', -, halike⟩ := Lists.forall₂_concat_left hids
      rw [hconcat', List.getLast?_concat, List.getLast?_concat]
      exact .some halike

lemma SameNodes.owedCalls_eq (path : List String) : owedCalls tree path = owedCalls tree' path := by
  have hrel := h.evaluatedAt hwf hwf' path
  rw [owedCalls, owedCalls]
  revert hrel
  cases tree.evaluatedAt path <;> cases tree'.evaluatedAt path <;> intro hrel <;> cases hrel
  case none.none => rfl
  case some.some halike => simp only [halike.rules_eq]

lemma SameNodes.openCapture (z : OpenElements) : (tree.openCapture z = none ∧ tree'.openCapture z = none) ∨
    ∃ id id' zs, Alike tree tree' id id' ∧ tree.openCapture z = some (id, zs) ∧
      tree'.openCapture z = some (id', zs) := by
  have hids := (h.walk hwf hwf' (tagsOf z)).ids
  have hlen := hids.length_eq
  rw [DescriptorTree.openCapture, DescriptorTree.openCapture]
  rcases List.eq_nil_or_concat' (tree.walk (tagsOf z)).ids with hnil | ⟨ids, id, hconcat⟩
  · rw [hnil] at hids
    rw [hnil, List.forall₂_nil_left_iff.mp hids]
    exact .inl ⟨rfl, rfl⟩
  · rw [hconcat] at hids
    obtain ⟨ids', id', hconcat', -, halike⟩ := Lists.forall₂_concat_left hids
    rw [hconcat, hconcat'] at hlen ⊢
    simp only [List.getLast?_concat, ← halike.capture_eq, ← hlen]
    cases tree.isCapture id with
    | true => exact .inr ⟨id, id', _, halike, rfl, rfl⟩
    | false => exact .inl ⟨rfl, rfl⟩

lemma SameNodes.startFault_eq (z : OpenElements) (tag : BytesStart) :
    startFault tree z tag = startFault tree' z tag := by
  rw [startFault, startFault]
  rcases h.openCapture hwf hwf' z with ⟨hnone, hnone'⟩ | ⟨id, id', zs, halike, hsome, hsome'⟩
  · obtain ⟨hids, hbelow⟩ := h.walk hwf hwf' (tagsOf z)
    have hchild := h.child_alike hwf hwf' hids tag.tagName
    rw [hnone, hnone']
    simp only [hbelow]
    revert hchild
    cases tree.child (tree.walk (tagsOf z)).ids tag.tagName <;>
      cases tree'.child (tree'.walk (tagsOf z)).ids tag.tagName <;> intro hchild <;> cases hchild
    case none.none => rfl
    case some.some halike =>
      simp only [halike.keepsAttrs_eq, halike.capture_eq, h.overflowFault_eq halike]
  · rw [hsome, hsome']
    simp only [h.overflowFault_eq halike]

lemma SameNodes.leafFault_eq (z : OpenElements) (leaf : LeafEvent) :
    leafFault tree z leaf = leafFault tree' z leaf := by
  rw [leafFault, leafFault]
  rcases h.openCapture hwf hwf' z with ⟨hnone, hnone'⟩ | ⟨id, id', zs, halike, hsome, hsome'⟩
  · obtain ⟨hids, hbelow⟩ := h.walk hwf hwf' (tagsOf z)
    have hkeeps : (tree.walk (tagsOf z)).ids.getLast?.any tree.keepsText =
        (tree'.walk (tagsOf z)).ids.getLast?.any tree'.keepsText := by
      rcases List.eq_nil_or_concat' (tree.walk (tagsOf z)).ids with hnil | ⟨ids, id, hconcat⟩
      · rw [hnil] at hids
        rw [hnil, List.forall₂_nil_left_iff.mp hids]
        rfl
      · rw [hconcat] at hids
        obtain ⟨ids', id', hconcat', -, halike⟩ := Lists.forall₂_concat_left hids
        rw [hconcat, hconcat', List.getLast?_concat, List.getLast?_concat]
        exact halike.keepsText_eq
    rw [hnone, hnone']
    simp only [hbelow, hkeeps]
  · rw [hsome, hsome']
    simp only [h.overflowFault_eq halike]

lemma SameNodes.fault_eq (z : OpenElements) (tok : Event) : fault tree z tok = fault tree' z tok := by
  cases tok with
  | start tag => exact h.startFault_eq hwf hwf' z tag
  | empty tag => exact h.startFault_eq hwf hwf' z tag
  | close => rfl
  | leaf leaf => exact h.leafFault_eq hwf hwf' z leaf

/-- Both trees find the same first error in a stream. -/
theorem SameNodes.firstFault_eq (z : OpenElements) (events : List (Except XmlError Event)) :
    firstFault tree z events = firstFault tree' z events ∧
      untilFault tree z events = untilFault tree' z events := by
  induction events generalizing z with
  | nil => exact ⟨rfl, rfl⟩
  | cons event events ih =>
    cases event with
    | error e => exact ⟨rfl, rfl⟩
    | ok tok =>
      obtain ⟨hfirst, huntil⟩ := ih (z.advance tok)
      simp only [firstFault, untilFault, h.fault_eq hwf hwf', hfirst, huntil, and_self]

theorem SameNodes.sameParses : SameParses tree tree' := by
  intro checks events
  obtain ⟨hfirst, huntil⟩ := h.firstFault_eq hwf hwf' [] events
  have hverdict : verdict tree [] events = verdict tree' [] events := by rw [verdict, verdict, hfirst]
  have hcalls : callsUntilFault tree [] events = callsUntilFault tree' [] events := by
    rw [callsUntilFault, callsUntilFault, huntil]
    exact List.flatMap_congr fun c _ => h.owedCalls_eq hwf hwf' (closingTags c)
  rcases parseFile_runs checks hwf events with ⟨p, hpanic⟩ | ⟨hresult, hmade⟩
  · exact .inr ⟨(parseFile_panics hwf hpanic).1, .inl ⟨p, hpanic⟩⟩
  rcases parseFile_runs checks hwf' events with ⟨p, hpanic⟩ | ⟨hresult', hmade'⟩
  · exact .inr ⟨(parseFile_panics hwf' hpanic).1, .inr ⟨p, hpanic⟩⟩
  exact .inl ⟨by rw [hresult, hresult', hverdict], by rw [hmade, hmade', hcalls]⟩

end Alike

/-! ### Builders with the same declarations -/

/-- Two builders declare the same nodes, up to the order, and have the same limit. -/
structure SameDeclarations (b b' : TreeBuilder R) : Prop where
  limit_eq : b.captureMemoryLimit = b'.captureMemoryLimit
  perm : (b.declarations.map NodeDeclaration.body).Perm (b'.declarations.map NodeDeclaration.body)

/-- Two nodes that are declared with the same path, mode and rules. -/
def SameBody (b b' : TreeBuilder R) (id id' : NodeId) : Prop :=
  ∃ d d', b.declarations[id.val]? = some d ∧ b'.declarations[id'.val]? = some d' ∧ d.body = d'.body

/-- Whether a node is declared one level below this path. -/
def HasChild (bodies : List (NodeBody R)) (path : List PathSegment) : Prop :=
  ∃ x ∈ bodies, ∃ segment, x.fullPath = path ++ [segment]

section Declarations

variable {b b' : TreeBuilder R} {id id' : NodeId} {d d' : NodeDeclaration R}

lemma SameDeclarations.symm (h : SameDeclarations b b') : SameDeclarations b' b :=
  ⟨h.limit_eq.symm, h.perm.symm⟩

lemma SameBody.symm (h : SameBody b b' id id') : SameBody b' b id' id := by
  obtain ⟨d, d', hd, hd', hbody⟩ := h
  exact ⟨d', d, hd', hd, hbody.symm⟩

lemma SameDeclarations.sameBody (h : SameDeclarations b b') (hd : b.declarations[id.val]? = some d) :
    ∃ id', SameBody b b' id id' := by
  have hmem : d.body ∈ b'.declarations.map NodeDeclaration.body :=
    h.perm.mem_iff.mp (List.mem_map_of_mem (List.mem_of_getElem? hd))
  obtain ⟨d', hd', hbody⟩ := List.mem_map.mp hmem
  obtain ⟨j, hj⟩ := List.mem_iff_getElem?.mp hd'
  exact ⟨⟨j⟩, d, d', hd, hj, hbody.symm⟩

/-- Which nodes have children can be seen from the paths. -/
lemma childrenUpTo_ne_nil_iff {decls : List (NodeDeclaration R)} (hplaced : Placed decls)
    (hnodup : (decls.map NodeDeclaration.fullPath).Nodup) {i : ℕ} (hd : decls[i]? = some d) :
    TreeBuilder.childrenUpTo decls decls.length i ≠ [] ↔
      HasChild (decls.map NodeDeclaration.body) d.fullPath := by
  constructor
  · intro hne
    obtain ⟨j, hj⟩ := List.exists_mem_of_ne_nil _ hne
    obtain ⟨-, e, he, hparent⟩ := TreeBuilder.mem_childrenUpTo.mp hj
    refine ⟨e.body, List.mem_map_of_mem (List.mem_of_getElem? he), e.tag, ?_⟩
    rcases hplaced j e he with ⟨hnone, -, -⟩ | ⟨p, f, hp, -, hf, hpath⟩
    · rw [hnone] at hparent
      cases hparent
    · obtain rfl := Option.some.inj (hp.symm.trans hparent)
      rwa [← Option.some.inj (hd.symm.trans hf)] at hpath
  · rintro ⟨x, hx, segment, hpath⟩
    obtain ⟨e, he, rfl⟩ := List.mem_map.mp hx
    obtain ⟨j, hj⟩ := List.mem_iff_getElem?.mp he
    replace hpath : e.fullPath = d.fullPath ++ [segment] := hpath
    rcases hplaced j e hj with ⟨-, -, hroot⟩ | ⟨p, f, hp, -, hf, hchild⟩
    · have hlen := congrArg List.length (hroot.symm.trans hpath)
      have hpos := List.length_pos_of_ne_nil (TreeBuilder.path_ne_nil hplaced hd)
      simp only [List.length_append, List.length_singleton] at hlen
      omega
    · have hsame := (List.append_inj' (hchild.symm.trans hpath) rfl).1
      have hlt : p < (decls.map NodeDeclaration.fullPath).length := by
        simpa using (List.getElem?_eq_some_iff.mp hf).1
      obtain rfl : p = i := (List.getElem?_inj hlt hnodup).mp (by simp [hf, hd, hsame])
      exact List.ne_nil_of_mem (TreeBuilder.mem_childrenUpTo.mpr
        ⟨(List.getElem?_eq_some_iff.mp hj).1, e, hj, hp⟩)

end Declarations

section Built

variable [Rule R] {b b' : TreeBuilder R} {id id' : NodeId} (hb : b.Valid) (hb' : b'.Valid)
  (h : SameDeclarations b b') (hvalid : ValidSchema b.declarations) (hvalid' : ValidSchema b'.declarations)

/-- Whether the declarations are valid does not depend on their order. -/
lemma SameDeclarations.validSchema (hb : b.Valid) (hb' : b'.Valid) (h : SameDeclarations b b')
    (hvalid : ValidSchema b.declarations) : ValidSchema b'.declarations := by
  rw [validSchema_iff_bodies hb.placed] at hvalid
  rw [validSchema_iff_bodies hb'.placed]
  refine ⟨(h.perm.map NodeBody.fullPath).nodup_iff.mp hvalid.paths_nodup,
    fun x hx => hvalid.capture_rules x (h.perm.mem_iff.mpr hx),
    fun x hx y hy => hvalid.no_nesting x (h.perm.mem_iff.mpr hx) y (h.perm.mem_iff.mpr hy)⟩

include hb hb' h hvalid hvalid'

lemma SameBody.needs_eq (hsame : SameBody b b' id id') (j : ℕ) :
    (b.closedForm.desc id).needs.has j = (b'.closedForm.desc id').needs.has j := by
  obtain ⟨d, d', hd, hd', hbody⟩ := hsame
  simp only [NodeDeclaration.body, NodeBody.mk.injEq] at hbody
  obtain ⟨hpath, hcapture, hrules⟩ := hbody
  have hchild : TreeBuilder.childrenUpTo b.declarations b.declarations.length id.val ≠ [] ↔
      TreeBuilder.childrenUpTo b'.declarations b'.declarations.length id'.val ≠ [] := by
    rw [childrenUpTo_ne_nil_iff hb.placed hvalid.paths_nodup hd,
      childrenUpTo_ne_nil_iff hb'.placed hvalid'.paths_nodup hd']
    simp only [HasChild, h.perm.mem_iff, hpath]
  rw [TreeBuilder.desc_closedForm _ hd, TreeBuilder.desc_closedForm _ hd', TreeBuilder.summarizedNode_needs,
    TreeBuilder.summarizedNode_needs, TreeBuilder.keptNode_has, TreeBuilder.keptNode_has, TreeBuilder.toNode_has,
    TreeBuilder.toNode_has, hrules, hcapture, decide_eq_decide.mpr hchild]

omit hb hb' h hvalid hvalid' in
lemma SameBody.contains (hsame : SameBody b b' id id') : b.closedForm.Contains id := by
  obtain ⟨d, d', hd, hd', hbody⟩ := hsame
  exact TreeBuilder.contains_closedForm.mpr ⟨d, hd⟩

omit hb hb' h hvalid hvalid' in
lemma SameBody.node_eq (hsame : SameBody b b' id id') :
    (b.closedForm.desc id).fullPath = (b'.closedForm.desc id').fullPath ∧
      (b.closedForm.desc id).rules = (b'.closedForm.desc id').rules := by
  obtain ⟨d, d', hd, hd', hbody⟩ := hsame
  simp only [NodeDeclaration.body, NodeBody.mk.injEq] at hbody
  rw [TreeBuilder.desc_closedForm _ hd, TreeBuilder.desc_closedForm _ hd']
  simp [hbody]

omit hb hb' hvalid hvalid' in
lemma SameBody.parent (hwf : b.closedForm.WellFormed) (hwf' : b'.closedForm.WellFormed)
    (hsame : SameBody b b' id id') {p : NodeId} (hp : (b.closedForm.desc id).parentId = some p) :
    ∃ p', (b'.closedForm.desc id').parentId = some p' ∧ SameBody b b' p p' := by
  have hcontains := hwf.parent_contains hsame.contains hp
  obtain ⟨d, hd⟩ := TreeBuilder.contains_closedForm.mp hcontains
  obtain ⟨p', hsame'⟩ := h.sameBody hd
  have hchild : b'.closedForm.IsChild p' id' (b.closedForm.desc id).tag.str := by
    refine hwf'.isChild_of_tags hsame'.symm.contains hsame.symm.contains ?_
    rw [DescriptorNode.tags, DescriptorNode.tags, ← hsame.node_eq.1, ← hsame'.node_eq.1,
      (hwf.parent_spec id p hsame.contains hp).2, List.map_append, List.map_singleton]
  exact ⟨p', hchild.parent, hsame'⟩

lemma SameBody.summaryNeeds_eq (hwf : b.closedForm.WellFormed) (hwf' : b'.closedForm.WellFormed)
    (hsame : SameBody b b' id id') :
    (b.closedForm.desc id).summaryNeeds = (b'.closedForm.desc id').summaryNeeds := by
  cases hp : (b.closedForm.desc id).parentId with
  | some p =>
    obtain ⟨p', hp', hparents⟩ := hsame.parent h hwf hwf' hp
    rw [hwf.summaryNeeds_eq id p hsame.contains hp, hwf'.summaryNeeds_eq id' p' hsame.symm.contains hp',
      hparents.needs_eq hb hb' h hvalid hvalid']
  | none =>
    cases hp' : (b'.closedForm.desc id').parentId with
    | some p' =>
      obtain ⟨p, hsome, -⟩ := hsame.symm.parent h.symm hwf' hwf hp'
      rw [hp] at hsome
      cases hsome
    | none =>
      rw [hwf.eq_root id hsame.contains hp, hwf'.eq_root id' hsame.symm.contains hp', hwf.root_summaryNeeds,
        hwf'.root_summaryNeeds]

lemma SameBody.alike (hwf : b.closedForm.WellFormed) (hwf' : b'.closedForm.WellFormed)
    (hsame : SameBody b b' id id') : Alike b.closedForm b'.closedForm id id' := by
  have hneeds := hsame.needs_eq hb hb' h hvalid hvalid'
  have hsummary := hsame.summaryNeeds_eq hb hb' h hvalid hvalid' hwf hwf'
  have hcapture : b.closedForm.isCapture id = b'.closedForm.isCapture id' := by
    simp only [DescriptorTree.isCapture, NodeNeeds.isCapture_eq, hneeds]
  refine ⟨hsame.contains, hsame.symm.contains, hsame.node_eq.1, hsame.node_eq.2, hcapture, ?_, ?_⟩
  · simp only [DescriptorTree.keepsAttrs, DescriptorNode.needAttrs, NodeNeeds.contains_attrs, hneeds, hsummary,
      hcapture]
  · simp only [DescriptorTree.keepsText, DescriptorNode.needText, NodeNeeds.contains_text, hneeds, hsummary,
      hcapture]

/-- The trees of two builders with the same declarations have the same nodes. -/
theorem SameDeclarations.sameNodes (hwf : b.closedForm.WellFormed) (hwf' : b'.closedForm.WellFormed) :
    SameNodes b.closedForm b'.closedForm where
  limit_eq := h.limit_eq
  left id hid := by
    obtain ⟨d, hd⟩ := TreeBuilder.contains_closedForm.mp hid
    obtain ⟨id', hsame⟩ := h.sameBody hd
    exact ⟨id', hsame.alike hb hb' h hvalid hvalid' hwf hwf'⟩
  right id' hid' := by
    obtain ⟨d', hd'⟩ := TreeBuilder.contains_closedForm.mp hid'
    obtain ⟨id, hsame⟩ := h.symm.sameBody hd'
    exact ⟨id, hsame.symm.alike hb hb' h hvalid hvalid' hwf hwf'⟩

end Built

lemma SameDeclarations.build [Rule R] {b b' : TreeBuilder R} (hb : b.Valid) (hb' : b'.Valid)
    (h : SameDeclarations b b') :
    (∃ tree tree', b.build = .ok tree ∧ b'.build = .ok tree' ∧ SameParses tree tree') ∨
      ∃ err err', b.build = .error (.error err) ∧ b'.build = .error (.error err') := by
  rcases TreeBuilder.build_cases hb with ⟨hvalid, hok⟩ | ⟨hinvalid, err, herr⟩
  · have hvalid' := h.validSchema hb hb' hvalid
    rcases TreeBuilder.build_cases hb' with ⟨-, hok'⟩ | ⟨hinvalid', -⟩
    · have hwf := TreeBuilder.wellFormed_of_build hb hok
      have hwf' := TreeBuilder.wellFormed_of_build hb' hok'
      exact .inl ⟨_, _, hok, hok', (h.sameNodes hb hb' hvalid hvalid' hwf hwf').sameParses hwf hwf'⟩
    · exact absurd hvalid' hinvalid'
  · rcases TreeBuilder.build_cases hb' with ⟨hvalid', -⟩ | ⟨-, err', herr'⟩
    · exact absurd (h.symm.validSchema hb' hb hvalid') hinvalid
    · exact .inr ⟨err, err', herr, herr'⟩

/-- The order in which the nodes are declared is of no consequence: `build` accepts the declarations in both
orders or in neither, and with both trees a parse of any stream of events ends alike and makes the same calls. -/
theorem declaration_order [Rule R] {rootTag rootTag' : String} {cs cs' : List (BuilderCall R)}
    {b b' : TreeBuilder R} (hcalls : (TreeBuilder.new rootTag).calls cs = .ok b)
    (hcalls' : (TreeBuilder.new rootTag').calls cs' = .ok b') (hsame : SameDeclarations b b') :
    (∃ tree tree', b.build = .ok tree ∧ b'.build = .ok tree' ∧ SameParses tree tree') ∨
      ∃ err err', b.build = .error (.error err) ∧ b'.build = .error (.error err') :=
  hsame.build (TreeBuilder.valid_calls (TreeBuilder.valid_new rootTag) hcalls)
    (TreeBuilder.valid_calls (TreeBuilder.valid_new rootTag') hcalls')

/-- The calls of `sampleCalls` with the box before the item and the rule of the list at the end. -/
def reorderedCalls : List (BuilderCall Probe) :=
  [.node "box", .captureSubtree, .rule ⟨⟨0x0f⟩, false⟩, .done, .node "item", .done, .rule ⟨.all, true⟩]

/-- Both orders are accepted, and the trees parse alike. -/
theorem declaration_order_sample : ∃ b b' tree tree', (TreeBuilder.new "list").calls sampleCalls = .ok b ∧
    (TreeBuilder.new "list").calls reorderedCalls = .ok b' ∧ b.build = .ok tree ∧ b'.build = .ok tree' ∧
    SameParses tree tree' := by
  have hcalls : (TreeBuilder.new "list").calls sampleCalls = .ok sampleBuilt.builder := rfl
  have hcalls' : (TreeBuilder.new "list").calls reorderedCalls = .ok _ := rfl
  have hsame := declaration_order hcalls hcalls' ⟨rfl, (List.Perm.swap _ _ _).cons _⟩
  rcases hsame with ⟨tree, tree', htree, htree', hparses⟩ | ⟨err, -, herr, -⟩
  · exact ⟨_, _, tree, tree', hcalls, hcalls', htree, htree', hparses⟩
  · rw [sampleBuilt.build_eq] at herr
    cases herr

/-! ### Schema terms -/

lemma Schema.bodies_perm (value : RuleLiteral → R) {s s' : Schema} (h : Forest.Reordered s.forest s'.forest) :
    ((s.declarations value).map NodeDeclaration.body).Perm ((s'.declarations value).map NodeDeclaration.body) := by
  rw [s.bodies, s'.bodies]
  refine h.entries_perm (fun path head content content' hcontent => ?_) []
  rw [entryBody, entryBody, hcontent.leaves_eq]

/-- The order of sibling nodes in an invocation of `build_tree!`, and the place of the rules between them, is of
no consequence: both terms are accepted or neither, and with both trees a parse of any stream of events ends alike
and makes the same calls. -/
theorem reordered_schema [Rule R] (value : RuleLiteral → R) {s s' : Schema} {tokens tokens' : List TokenTree}
    (hs : Written s tokens) (hs' : Written s' tokens') (h : Forest.Reordered s.forest s'.forest) :
    (∃ tree tree', buildTree value tokens = some (.ok tree) ∧ buildTree value tokens' = some (.ok tree') ∧
        SameParses tree tree') ∨
      ∃ err err', buildTree value tokens = some (.error (.error err)) ∧
        buildTree value tokens' = some (.error (.error err')) := by
  simp only [buildTree_written value hs, buildTree_written value hs', Option.some.injEq]
  exact SameDeclarations.build (s.validBuilder value) (s'.validBuilder value) ⟨rfl, s.bodies_perm value h⟩

/-- The invocation of `longListTokens` with the boxes in front. -/
def reorderedSchema : Schema where
  head := ⟨"list", none⟩
  body := .element ⟨"box", none⟩ (.leaf (emptyLiteral "Boxed") .nil) (.leaf (emptyLiteral "First")
    (.element ⟨"item", some .capture⟩ (.leaf (emptyLiteral "Inner") .nil) (.leaf (emptyLiteral "Last") .nil)))

def reorderedTokens : List TokenTree :=
  [.literal "list", .braces [.literal "box", .braces [.ident "Boxed", .braces []], .comma,
    .ident "First", .braces [], .comma,
    .literal "item", .ident "capture", .braces [.ident "Inner", .braces []], .comma,
    .ident "Last", .braces []]]

lemma reorderedTokens_written : Written reorderedSchema reorderedTokens :=
  .root (.node ⟨"box", none⟩ (.lastRule (emptyLiteral "Boxed")) (.rule (emptyLiteral "First")
    (.node ⟨"item", some .capture⟩ (.lastRule (emptyLiteral "Inner")) (.lastRule (emptyLiteral "Last")))))

/-- Both invocations are accepted, and the trees parse alike. -/
theorem reordered_schema_sample :
    ∃ tree tree', buildTree sampleValue longListTokens = some (.ok tree) ∧
      buildTree sampleValue reorderedTokens = some (.ok tree') ∧ SameParses tree tree' := by
  have hsame := reordered_schema sampleValue longListTokens_written reorderedTokens_written
    (.element _ (.trans (.leaf _ (.swapElements _ _ _ _ _)) (.symm (.swapLeaf _ _ _ _))) (.refl _))
  have haccepted : (buildTree sampleValue longListTokens).any Except.isOk = true := by decide +kernel
  rcases hsame with htrees | ⟨err, -, herr, -⟩
  · exact htrees
  · rw [herr] at haccepted
    cases haccepted

end XmlOxydizer
