import XmlOxydizer.Proofs.EvaluationTrace

/-!
# What a streaming rule can read

The flags that `build` computes decide which data the parser keeps. Whatever a rule
declares a need for, and the attributes and text of every ancestor, are kept in full.
-/

namespace XmlOxydizer

open Markup

variable {R : Type}

/-- The child elements whose path is declared, in document order. -/
def declaredElements (tree : DescriptorTree R) (path : List String) (content : Content) :
    List ChildElement :=
  content.elements.filterMap fun (label, content) =>
    (tree.declaredAt (path ++ [label.tagName])).map (⟨·, label, content⟩)

/-- A summary with the full attributes and the full direct text of a child. -/
structure ShowsChild (child : ChildElement) (summary : ChildSummary) : Prop where
  descriptorId_eq : summary.descriptorId = child.id
  attrs_ok : child.label.attrsFault = none
  attrs_eq : summary.attrs = child.label.attrs
  text_ok : TextReadable child.content
  text_eq : summary.text = directText child.content

section

variable [Rule R] {checks : OverflowChecks} {tree : DescriptorTree R} {c : ClosingElement}
  {ls : List Level} {l : Level}

/-- Looking up a child and looking up its path find the same node. -/
lemma child_eq_declaredAt (hwf : tree.WellFormed) {p : NodeId} (hp : tree.Contains p) (tag : String) :
    tree.child [p] tag = tree.declaredAt ((tree.desc p).tags ++ [tag]) := by
  refine Option.ext fun id => ?_
  have hchild : tree.child ([] ++ [p]) tag = some id ↔ tree.IsChild p id tag := hwf.child_concat [] hp
  rw [List.nil_append] at hchild
  rw [hchild, hwf.declaredAt_eq_some]
  exact ⟨fun h => ⟨h.contains, hwf.tags_child h⟩, fun h => hwf.isChild_of_tags hp h.1 h.2⟩

lemma declaredChildren_eq (hwf : tree.WellFormed) {p : NodeId} (hp : tree.Contains p)
    (content : Content) :
    declaredChildren tree p content = declaredElements tree (tree.desc p).tags content := by
  simp only [declaredChildren, declaredElements, child_eq_declaredAt hwf hp]

/-! ### The levels around an element -/

/-- A level with an open child is not captured and keeps its attributes and text. -/
lemma OpenLevels.outer (hwf : tree.WellFormed) (h : OpenLevels tree (ls ++ [l])) {i : ℕ} {k : Level}
    (hk : ls[i]? = some k) : tree.isCapture k.id = false ∧ tree.keepsAttrs k.id = true ∧
      tree.keepsText k.id = true := by
  have hi := (List.getElem?_eq_some_iff.mp hk).1
  have hwalk := DescriptorTree.walk_ok hwf (tagsOf ((ls ++ [l]).map Level.frame))
  rw [h.walk_eq] at hwalk
  have hmem : k ∈ ls := List.mem_of_getElem? hk
  have hstream : tree.isCapture k.id = false := by
    apply hwalk.streaming
    simp only [List.map_append, List.map_singleton, List.dropLast_concat]
    exact List.mem_map_of_mem hmem
  have hlink : ∃ n, Linked tree k n := by
    have hlinked : Linked tree ((ls ++ [l]).get ⟨i, by simp; omega⟩) _ :=
      List.isChain_iff_getElem.mp h.linked i (by simp; omega)
    have hki : (ls ++ [l]).get ⟨i, by simp; omega⟩ = k := by
      rw [List.get_eq_getElem, List.getElem_append_left hi]
      exact (List.getElem?_eq_some_iff.mp hk).2
    exact ⟨_, hki ▸ hlinked⟩
  obtain ⟨n, hn⟩ := hlink
  have hk' := (h.ok k (by simp [hmem])).contains
  have hchild := (hwf.child_concat [] hk').mp hn.child_eq
  have hneeds := hwf.child_keeps n.id k.id hchild.contains hchild.parent
  refine ⟨hstream, ?_, ?_⟩
  · simp [DescriptorTree.keepsAttrs, DescriptorNode.needAttrs, hneeds.1]
  · simp [DescriptorTree.keepsText, DescriptorNode.needText, hstream, hneeds.2]

variable (checks) in
lemma ancestorContext_eq {stack : List NodeContext} {level : ℕ} (hlevel : level < stack.length)
    (hlen : level + 1 < 2 ^ 64) {ctx : NodeContext}
    (hctx : stack[stack.length - 1 - level]? = some ctx) :
    ancestorContext checks stack level = .ok (some ctx) := by
  have hup : usizeAdd checks level 1 = .ok (level + 1) := usizeAdd_ok hlen
  have hindex : index stack (stack.length - (level + 1)) = .ok ctx :=
    index_ok (by rw [← hctx]; congr 1; omega)
  simp [ancestorContext, hup, show level + 1 ≤ stack.length by omega, hindex]

/-- The element `level + 1` steps above a closing element, with what it holds so far. -/
def ancestorFrame (c : ClosingElement) (level : ℕ) : Option (Frame BytesStart LeafEvent) :=
  c.above[c.above.length - 1 - level]?

variable (checks) in
omit [Rule R] in
/-- The ancestor methods read the stack frame of the level of that ancestor. -/
lemma Viewed.ancestorContext_eq (h : Viewed tree c ls l) {level : ℕ} (hlevel : level < ls.length)
    (hlen : level + 1 < 2 ^ 64) : ∃ k, ls[ls.length - 1 - level]? = some k ∧
      ancestorFrame c level = some k.frame ∧
      ancestorContext checks (ls.map Level.ctx) level = .ok (some k.ctx) := by
  obtain ⟨k, hk⟩ : ∃ k, ls[ls.length - 1 - level]? = some k :=
    ⟨_, List.getElem?_eq_getElem (by omega)⟩
  refine ⟨k, hk, by simp [ancestorFrame, h.above_eq, hk], ?_⟩
  exact XmlOxydizer.ancestorContext_eq checks (by simpa using hlevel) hlen (by simp [hk])

variable (checks tree) in
omit [Rule R] in
/-- The ancestor methods of a view, in either mode. -/
lemma Level.view_ancestors (ls : List Level) (l : Level) :
    (l.view checks tree ls).ancestorAttr = ancestorAttr checks (ls.map Level.ctx) ∧
    (l.view checks tree ls).ancestorText = ancestorText checks (ls.map Level.ctx) ∧
    (l.view checks tree ls).ancestorChildren = ancestorChildren checks (ls.map Level.ctx) := by
  unfold Level.view
  split <;> exact ⟨rfl, rfl, rfl⟩

/-! ### The rules of a level -/

lemma needs_of_rule (hwf : tree.WellFormed) {id : NodeId} (hid : tree.Contains id) {rule : R}
    (hrule : rule ∈ (tree.desc id).rules) {i : ℕ} (h : (Rule.needs rule).has i = true) :
    (tree.desc id).needs.has i = true :=
  hwf.rule_needs id hid rule hrule i h

/-- Below a node that needs summaries, every summary shows the full data of its child. -/
lemma summaries_show (hwf : tree.WellFormed) {p : NodeId} (hp : tree.Contains p)
    (hneeds : (tree.desc p).needs.has 2 = true) {content : Content} {summaries : List ChildSummary}
    (h : List.Forall₂ (Summarizes tree) (declaredChildren tree p content) summaries) :
    List.Forall₂ ShowsChild (declaredElements tree (tree.desc p).tags content) summaries := by
  rw [← declaredChildren_eq hwf hp]
  have hall : ∀ child ∈ declaredChildren tree p content,
      (tree.desc child.id).summaryNeeds = .all := by
    intro child hmem
    obtain ⟨⟨label, inner⟩, -, hchild⟩ := List.mem_filterMap.mp hmem
    obtain ⟨id, hid, rfl⟩ := Option.map_eq_some_iff.mp hchild
    have hlink := (hwf.child_concat [] hp).mp hid
    rw [hwf.summaryNeeds_eq id p hlink.contains hlink.parent, if_pos hneeds]
  refine ((List.forall₂_and_left ..).mpr ⟨hall, h⟩).imp ?_
  rintro child summary ⟨hneedsAll, hsummary⟩
  have hattrs : (tree.desc child.id).summaryNeeds.has 0 = true := by rw [hneedsAll]; decide
  have htext : (tree.desc child.id).summaryNeeds.has 1 = true := by rw [hneedsAll]; decide
  exact ⟨hsummary.descriptorId_eq, hsummary.attrs_ok hattrs, by rw [hsummary.attrs_eq, if_pos hattrs],
    hsummary.text_ok htext, by rw [hsummary.text_eq, if_pos htext]⟩

omit [Rule R] in
lemma Level.view_streaming (hstream : tree.isCapture l.id = false) :
    l.view checks tree ls = StreamingViewOwned.nodeAccess checks
      { ctx := l.ctx, parentStack := ls.map Level.ctx, tree } := by
  simp [Level.view, hstream]

omit [Rule R] in
lemma Level.view_capture (hcapture : tree.isCapture l.id = true) :
    l.view checks tree ls = SubtreeView.nodeAccess checks ({
      root := dom l.frame.label l.frame.content
      descriptorId := l.id
      index := l.ctx.index
      parentStack := ls.map Level.ctx
      tree } : SubtreeView R) := by
  simp [Level.view, hcapture]

omit [Rule R] in
/-- A view has a subtree exactly when its node is a capture node. -/
lemma Level.view_subtree (ls : List Level) (l : Level) : (l.view checks tree ls).subtree =
    if tree.isCapture l.id then some (dom l.frame.label l.frame.content) else none := by
  unfold Level.view
  split <;> rfl

/-- An ancestor shows its attributes and its text so far in full. -/
lemma Viewed.ancestor_data (hwf : tree.WellFormed) (h : Viewed tree c ls l) {level : ℕ}
    (hlevel : level < (l.view checks tree ls).depth) (hlen : c.above.length < 2 ^ 64) :
    ∃ f, ancestorFrame c level = some f ∧ f.label.attrsFault = none ∧ TextReadable f.content ∧
      (∀ name, (l.view checks tree ls).ancestorAttr level name = .ok (findAttr f.label.attrs name)) ∧
      (l.view checks tree ls).ancestorText level = .ok (some (directText f.content)) := by
  rw [Level.view_depth] at hlevel
  rw [h.above_eq, List.length_map] at hlen
  obtain ⟨k, hk, hframe, hctx⟩ := h.ancestorContext_eq checks hlevel (by omega)
  obtain ⟨-, hattrs, htext⟩ := h.levels_ok.outer hwf hk
  have hok := h.levels_ok.ok k (by simp [List.mem_of_getElem? hk])
  obtain ⟨hattr, htextOf, -⟩ := Level.view_ancestors checks tree ls l
  refine ⟨k.frame, hframe, hok.attrs_ok hattrs, hok.text_ok htext, fun name => ?_, ?_⟩
  · simp [hattr, ancestorAttr, hctx, hok.attrs_eq, hattrs]
  · simp [htextOf, ancestorText, hctx, hok.text_eq, htext]

end

/-- A rule that is evaluated in streaming mode reads in full what it declares to need of its
element and of the children, and the attributes and text of every ancestor. -/
theorem streaming_view_complete [Rule R] (t : BuiltTree R) (checks : OverflowChecks)
    (events : List (Except XmlError Event)) (c : ClosingElement) (e : Evaluation R)
    (hvisit : Visits checks t.tree events c e) (hstream : e.view.subtree = none)
    (hlen : c.above.length < 2 ^ 64) :
    ((Rule.needs e.rule).contains .attrs = true → c.label.attrsFault = none ∧
      e.view.forEachAttr = c.label.attrs ∧ ∀ name, FirstValue c.label.attrs name (e.view.attr name)) ∧
    ((Rule.needs e.rule).contains .text = true → TextReadable c.content ∧
      e.view.text = directText c.content) ∧
    ((Rule.needs e.rule).contains .children = true → List.Forall₂ ShowsChild
      (declaredElements t.tree (closingTags c) c.content) e.view.childrenSummaries) ∧
    ∀ level < e.view.depth, ∃ f, ancestorFrame c level = some f ∧ f.label.attrsFault = none ∧
      TextReadable f.content ∧
      (∀ name, ∃ answer, e.view.ancestorAttr level name = .ok answer ∧
        FirstValue f.label.attrs name answer) ∧
      e.view.ancestorText level = .ok (some (directText f.content)) := by
  have hwf := t.wellFormed
  obtain ⟨ls, l, hviewed, hrule, hview⟩ := visits_viewed hwf hvisit
  have hok := hviewed.levels_ok.last
  have hmode : t.tree.isCapture l.id = false := by
    rw [hview, Level.view_subtree] at hstream
    simpa using hstream
  rw [NodeNeeds.contains_attrs, NodeNeeds.contains_text, NodeNeeds.contains_children, hview]
  refine ⟨fun hneeds => ?_, fun hneeds => ?_, fun hneeds => ?_, fun level hlevel => ?_⟩
  · have hkeeps : t.tree.keepsAttrs l.id = true := by
      simp [DescriptorTree.keepsAttrs, DescriptorNode.needAttrs, needs_of_rule hwf hok.contains hrule hneeds]
    rw [hviewed.label_eq, Level.view_streaming hmode]
    simp [StreamingViewOwned.nodeAccess, hok.attrs_eq, hkeeps, hok.attrs_ok hkeeps, findAttr_spec]
  · have hkeeps : t.tree.keepsText l.id = true := by
      simp [DescriptorTree.keepsText, DescriptorNode.needText, hmode,
        needs_of_rule hwf hok.contains hrule hneeds]
    rw [hviewed.content_eq, Level.view_streaming hmode]
    exact ⟨hok.text_ok hkeeps, by simp [StreamingViewOwned.nodeAccess, hok.text_eq, hkeeps]⟩
  · have hchildren := hok.children
    simp only [summarizedChildren, hmode, Bool.false_eq_true, if_false] at hchildren
    rw [Level.view_streaming hmode, hviewed.content_eq, ← hviewed.tags hwf]
    exact summaries_show hwf hok.contains (needs_of_rule hwf hok.contains hrule hneeds) hchildren
  · obtain ⟨f, hf, hattrsOk, htextOk, hattr, htext⟩ := hviewed.ancestor_data hwf hlevel hlen
    exact ⟨f, hf, hattrsOk, htextOk, fun name => ⟨_, hattr name, findAttr_spec _ name⟩, htext⟩

/-- The first tokens of the sample document, up to the end of its item. -/
def sampleBefore : List Event := sampleDocument.tokens.take 4

/-- The item of the sample document as it closes. -/
def sampleItem : ClosingElement where
  above := [⟨tagNamed "list" [("id", "7")], .leaf (textNamed "a") .nil⟩]
  label := tagNamed "item" []
  content := .leaf (textNamed "b") .nil

/-- The list of the sample document as it closes, with its attribute and its two declared children. -/
def sampleList : ClosingElement where
  above := []
  label := tagNamed "list" [("id", "7")]
  content := .leaf (textNamed "a") (.element (tagNamed "item" []) (.leaf (textNamed "b") .nil)
    (.element (tagNamed "box" []) (.element (tagNamed "item" []) .nil .nil)
      (.element (tagNamed "note" []) (.leaf (textNamed "c") .nil) .nil)))

theorem streaming_view_complete_sample :
    (∃ e ∈ evaluationsAt .checked sampleTree.tree (sampleDocument.tokens.take 12) .close,
      e.view.forEachAttr = sampleList.label.attrs ∧
      (∀ name, FirstValue sampleList.label.attrs name (e.view.attr name)) ∧
      e.view.text = directText sampleList.content ∧
      List.Forall₂ ShowsChild (declaredElements sampleTree.tree (closingTags sampleList) sampleList.content)
        e.view.childrenSummaries) ∧
    ∃ e ∈ evaluationsAt .checked sampleTree.tree sampleBefore .close, ∃ f,
      ancestorFrame sampleItem 0 = some f ∧
      (∀ name, ∃ answer, e.view.ancestorAttr 0 name = .ok answer ∧ FirstValue f.label.attrs name answer) ∧
      e.view.ancestorText 0 = .ok (some (directText f.content)) := by
  constructor
  · have hne : evaluationsAt .checked sampleTree.tree (sampleDocument.tokens.take 12) .close ≠ [] := by
      decide +kernel
    have hall : (evaluationsAt .checked sampleTree.tree (sampleDocument.tokens.take 12) .close).all
        (fun e => e.view.subtree.isNone && e.rule.needs == .all) = true := by decide +kernel
    obtain ⟨e, hmem⟩ := List.exists_mem_of_ne_nil _ hne
    have hfirst := List.all_eq_true.mp hall e hmem
    rw [Bool.and_eq_true, Option.isNone_iff_eq_none, beq_iff_eq] at hfirst
    obtain ⟨hattrs, htext, hchildren, -⟩ := streaming_view_complete sampleTree .checked
      (sampleDocument.tokens.map .ok) sampleList e
      ⟨sampleDocument.tokens.take 12, .close, [], rfl, rfl, hmem⟩ hfirst.1 (by decide)
    have hneeds : Rule.needs e.rule = .all := hfirst.2
    rw [hneeds] at hattrs htext hchildren
    obtain ⟨-, hlist, hattr⟩ := hattrs (by decide)
    exact ⟨e, hmem, hlist, hattr, (htext (by decide)).2, hchildren (by decide)⟩
  · have hne : evaluationsAt .checked sampleTree.tree sampleBefore .close ≠ [] := by decide +kernel
    have hall : (evaluationsAt .checked sampleTree.tree sampleBefore .close).all
        (fun e => e.view.subtree.isNone && decide (0 < e.view.depth)) = true := by decide +kernel
    obtain ⟨e, hmem⟩ := List.exists_mem_of_ne_nil _ hne
    have hfirst := List.all_eq_true.mp hall e hmem
    rw [Bool.and_eq_true, Option.isNone_iff_eq_none, decide_eq_true_eq] at hfirst
    obtain ⟨-, -, -, hancestors⟩ := streaming_view_complete sampleTree .checked
      (sampleDocument.tokens.map .ok) sampleItem e
      ⟨sampleBefore, .close, (sampleDocument.tokens.drop 5).map .ok, rfl, rfl, hmem⟩ hfirst.1 (by decide)
    obtain ⟨f, hf, -, -, hattr, htext⟩ := hancestors 0 hfirst.2
    exact ⟨e, hmem, f, hf, hattr, htext⟩

end XmlOxydizer
