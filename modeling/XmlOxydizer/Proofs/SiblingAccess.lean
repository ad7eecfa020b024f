import XmlOxydizer.Proofs.DataAccess

/-!
# Children of ancestors

`ancestor_children` lists the declared children of an ancestor that have closed. What the
summaries retain is decided by the rules of that ancestor alone: unless one of them needs
its children, the attributes and the text of the children are missing.
-/

namespace XmlOxydizer

open Markup

variable {R : Type}

/-- The path of the ancestor `level + 1` steps above a closing element. -/
def ancestorPath (c : ClosingElement) (level : ℕ) : List String :=
  (closingTags c).take (c.above.length - level)

/-- `ancestor_children` lists the declared children of the ancestor that have closed, each
with its full attributes and text. -/
def AncestorChildrenComplete (tree : DescriptorTree R) (c : ClosingElement) (e : Evaluation R)
    (level : ℕ) : Prop :=
  ∃ f summaries, ancestorFrame c level = some f ∧
    e.view.ancestorChildren level = .ok (some summaries) ∧
    List.Forall₂ ShowsChild (declaredElements tree (ancestorPath c level) f.content) summaries

/-- An element without attributes and without direct text. -/
def ChildElement.Blank (child : ChildElement) : Prop :=
  child.label.attributes = [] ∧ directText child.content = "" ∧ TextReadable child.content

/-- Some rule of the node at this path needs the children of its elements. -/
def ChildrenNeededAt [Rule R] (tree : DescriptorTree R) (path : List String) : Prop :=
  ∃ id, tree.declaredAt path = some id ∧
    ∃ rule ∈ (tree.desc id).rules, (Rule.needs rule).contains .children = true

section

variable [Rule R] {checks : OverflowChecks} {tree : DescriptorTree R} {c : ClosingElement}
  {ls : List Level} {l : Level}

/-- The node of the ancestor is the one declared at its path. -/
lemma Viewed.ancestor_declaredAt (hwf : tree.WellFormed) (h : Viewed tree c ls l) {level : ℕ}
    (hlevel : level < ls.length) {k : Level} (hk : ls[ls.length - 1 - level]? = some k) :
    (tree.desc k.id).tags = ancestorPath c level ∧
      tree.declaredAt (ancestorPath c level) = some k.id := by
  have hwalk := DescriptorTree.walk_ok hwf (tagsOf ((ls ++ [l]).map Level.frame))
  rw [h.levels_ok.walk_eq] at hwalk
  have htags := hwalk.tags_eq (ls.length - 1 - level) k.id (by
    rw [List.getElem?_map, List.getElem?_append_left (by omega), hk]
    rfl)
  have hpath : (tree.desc k.id).tags = ancestorPath c level := by
    rw [htags, ancestorPath, h.above_eq, List.length_map, closingTags, h.above_eq, h.label_eq]
    congr 1
    · omega
    · simp
  have hcontains := (h.levels_ok.ok k (by simp [List.mem_of_getElem? hk])).contains
  exact ⟨hpath, hwf.declaredAt_eq_some.mpr ⟨hcontains, hpath⟩⟩

omit [Rule R] in
/-- A summary that retains nothing shows a child exactly when there is nothing to show. -/
lemma showsChild_empty_iff {child : ChildElement} {summary : ChildSummary}
    (hneeds : (tree.desc child.id).summaryNeeds = .empty) (h : Summarizes tree child summary) :
    ShowsChild child summary ↔ child.Blank := by
  have hattrs : summary.attrs = [] := by simp [h.attrs_eq, hneeds]
  have htext : summary.text = "" := by simp [h.text_eq, hneeds]
  constructor
  · intro hshow
    refine ⟨?_, by rw [← hshow.text_eq, htext], hshow.text_ok⟩
    -- attributes that can all be read are as many as there are
    have hnone : child.label.attrs = [] := by rw [← hshow.attrs_eq, hattrs]
    have hok := hshow.attrs_ok
    simp only [BytesStart.attrsFault, List.findSome?_eq_none_iff] at hok
    rw [BytesStart.attrs, List.filterMap_eq_nil_iff] at hnone
    refine List.eq_nil_iff_forall_not_mem.mpr fun attr hattr => ?_
    have hfault := hok attr hattr
    have hread := hnone attr hattr
    cases attr with
    | error message => simp [attributeFault] at hfault
    | ok attr =>
      cases hk : fromUtf8 attr.key with
      | error e => simp [attributeFault, hk] at hfault
      | ok key =>
        cases hv : fromUtf8 attr.value with
        | error e => simp [attributeFault, hk, hv] at hfault
        | ok value => simp [readAttribute, hk, hv, Except.toOption] at hread
  · rintro ⟨hnone, hblank, hread⟩
    refine ⟨h.descriptorId_eq, ?_, ?_, hread, by rw [htext, hblank]⟩
    · simp [BytesStart.attrsFault, hnone]
    · rw [hattrs, BytesStart.attrs, hnone, List.filterMap_nil]

end

/-- `ancestor_children` is complete exactly when a rule of the ancestor needs the children
or there is nothing that the summaries could retain. -/
theorem ancestorChildren_complete_iff [Rule R] (t : BuiltTree R) (checks : OverflowChecks)
    (events : List (Except XmlError Event)) (c : ClosingElement) (e : Evaluation R)
    (hvisit : Visits checks t.tree events c e) (hlen : c.above.length < 2 ^ 64) (level : ℕ)
    (hlevel : level < e.view.depth) :
    AncestorChildrenComplete t.tree c e level ↔
      ChildrenNeededAt t.tree (ancestorPath c level) ∨
        ∀ f, ancestorFrame c level = some f →
          ∀ child ∈ declaredElements t.tree (ancestorPath c level) f.content, child.Blank := by
  have hwf := t.wellFormed
  obtain ⟨ls, l, hviewed, -, hview⟩ := visits_viewed hwf hvisit
  rw [hview, Level.view_depth] at hlevel
  rw [hviewed.above_eq, List.length_map] at hlen
  obtain ⟨k, hk, hframe, hctx⟩ := hviewed.ancestorContext_eq checks hlevel (by omega)
  obtain ⟨htags, hdeclared⟩ := hviewed.ancestor_declaredAt hwf hlevel hk
  obtain ⟨hstream, -, -⟩ := hviewed.levels_ok.outer hwf hk
  have hok := hviewed.levels_ok.ok k (by simp [List.mem_of_getElem? hk])
  have hsummaries := hok.children
  simp only [summarizedChildren, hstream, Bool.false_eq_true, if_false] at hsummaries
  have hchildren : e.view.ancestorChildren level = .ok (some k.ctx.children) := by
    rw [hview, (Level.view_ancestors checks t.tree ls l).2.2]
    simp [ancestorChildren, hctx]
  have hcomplete : AncestorChildrenComplete t.tree c e level ↔
      List.Forall₂ ShowsChild (declaredElements t.tree (ancestorPath c level) k.frame.content)
        k.ctx.children := by
    constructor
    · rintro ⟨f, summaries, hf, hs, hshow⟩
      obtain rfl := Option.some.inj (hframe.symm.trans hf)
      obtain rfl := Option.some.inj (Except.ok.inj (hchildren.symm.trans hs))
      exact hshow
    · exact fun hshow => ⟨k.frame, k.ctx.children, hframe, hchildren, hshow⟩
  have hneeded : ChildrenNeededAt t.tree (ancestorPath c level) ↔
      (t.tree.desc k.id).needs.has 2 = true := by
    simp only [hwf.children_needs k.id hok.contains, ChildrenNeededAt, hdeclared, Option.some.injEq,
      exists_eq_left', NodeNeeds.contains_children]
  rw [hcomplete, hneeded]
  cases hneeds : (t.tree.desc k.id).needs.has 2 with
  | true =>
    simp only [true_or, iff_true]
    rw [← htags]
    exact summaries_show hwf hok.contains hneeds hsummaries
  | false =>
    -- no summary retains anything
    have hall : ∀ child ∈ declaredChildren t.tree k.id k.frame.content,
        (t.tree.desc child.id).summaryNeeds = .empty := by
      intro child hmem
      obtain ⟨⟨label, inner⟩, -, hchild⟩ := List.mem_filterMap.mp hmem
      obtain ⟨id, hid, rfl⟩ := Option.map_eq_some_iff.mp hchild
      have hlink := (hwf.child_concat [] hok.contains).mp hid
      rw [hwf.summaryNeeds_eq id k.id hlink.contains hlink.parent, hneeds]
      rfl
    have hempty := ((List.forall₂_and_left ..).mpr ⟨hall, hsummaries⟩).imp
      fun _ _ h => showsChild_empty_iff h.1 h.2
    have heq := declaredChildren_eq hwf hok.contains k.frame.content
    rw [htags] at heq
    simp only [Bool.false_eq_true, false_or, hframe, Option.some.injEq, forall_eq', ← heq]
    exact Lists.forall₂_iff_forall hempty

/-! ### A list whose own node has no rule -/

/-- A list without rules of its own, whose items read their siblings. -/
def siblingTree : BuiltTree Probe :=
  (BuiltTree.ofCalls? "list" [.node "item", .rule ⟨.all, true⟩, .done]).get (by decide +kernel)

/-- A list of two items, the first with an attribute. -/
def siblingDocument : Content :=
  .element (tagNamed "list" [])
    (.element (tagNamed "item" [("k", "1")]) .nil (.element (tagNamed "item" []) .nil .nil)) .nil

/-- The first tokens, up to the end of the second item. -/
def siblingBefore : List Event := siblingDocument.tokens.take 4

/-- The second item as it closes. -/
def siblingItem : ClosingElement where
  above := [⟨tagNamed "list" [], .element (tagNamed "item" [("k", "1")]) .nil .nil⟩]
  label := tagNamed "item" []
  content := .nil

/-- The second item does not see the attribute of the first. -/
theorem ancestorChildren_incomplete :
    ∃ e, Visits .checked siblingTree.tree (siblingDocument.tokens.map .ok) siblingItem e ∧
      (Rule.needs e.rule).contains .children = true ∧ 0 < e.view.depth ∧
      ¬ AncestorChildrenComplete siblingTree.tree siblingItem e 0 := by
  have hne : evaluationsAt .checked siblingTree.tree siblingBefore .close ≠ [] := by decide +kernel
  have hmem := List.head_mem hne
  have hall : (evaluationsAt .checked siblingTree.tree siblingBefore .close).all (fun e =>
      (Rule.needs e.rule).contains .children && decide (0 < e.view.depth) &&
        ((e.view.ancestorChildren 0).toOption.join.map
          fun summaries => summaries.all fun summary => summary.attrs.isEmpty).getD false) = true := by
    decide +kernel
  have hfirst := List.all_eq_true.mp hall _ hmem
  simp only [Bool.and_eq_true, decide_eq_true_eq] at hfirst
  obtain ⟨⟨hneeds, hdepth⟩, hattrs⟩ := hfirst
  refine ⟨_, ⟨siblingBefore, .close, [.ok .close], rfl, rfl, hmem⟩, hneeds, hdepth, ?_⟩
  rintro ⟨f, summaries, hf, hsummaries, hshow⟩
  rw [hsummaries] at hattrs
  obtain rfl := Option.some.inj hf
  have hchildren : declaredElements siblingTree.tree (ancestorPath siblingItem 0)
      (.element (tagNamed "item" [("k", "1")]) .nil .nil) =
        [⟨⟨1⟩, tagNamed "item" [("k", "1")], .nil⟩] := rfl
  rw [hchildren] at hshow
  cases hshow with
  | cons hfirst hrest =>
    cases hrest
    have hshown : (tagNamed "item" [("k", "1")]).attrs ≠ [] := by decide +kernel
    have hempty := List.all_eq_true.mp (show List.all _ _ = true from hattrs) _ List.mem_cons_self
    rw [hfirst.attrs_eq, List.isEmpty_iff] at hempty
    exact hshown hempty

/-- Where a rule of the list needs the children, the second item sees the attribute of the first. -/
theorem ancestorChildren_complete_iff_sample :
    ∃ e, Visits .checked sampleTree.tree (siblingDocument.tokens.map .ok) siblingItem e ∧ 0 < e.view.depth ∧
      AncestorChildrenComplete sampleTree.tree siblingItem e 0 := by
  have hne : evaluationsAt .checked sampleTree.tree siblingBefore .close ≠ [] := by decide +kernel
  have hdepth : (evaluationsAt .checked sampleTree.tree siblingBefore .close).all
      (fun e => decide (0 < e.view.depth)) = true := by decide +kernel
  have hmem := List.head_mem hne
  have hpos := of_decide_eq_true (List.all_eq_true.mp hdepth _ hmem)
  have hvisit : Visits .checked sampleTree.tree (siblingDocument.tokens.map .ok) siblingItem _ :=
    ⟨siblingBefore, .close, [.ok .close], rfl, rfl, hmem⟩
  have hneeded : ChildrenNeededAt sampleTree.tree (ancestorPath siblingItem 0) :=
    ⟨⟨0⟩, by decide +kernel, ⟨.all, true⟩, List.mem_singleton.mpr rfl, by decide⟩
  have hiff := ancestorChildren_complete_iff sampleTree .checked (siblingDocument.tokens.map .ok) siblingItem _
    hvisit (by decide) 0 hpos
  exact ⟨_, hvisit, hpos, hiff.mpr (.inl hneeded)⟩

end XmlOxydizer
