import XmlOxydizer.Proofs.PairedViews
import XmlOxydizer.Proofs.SiblingIndex
import XmlOxydizer.Proofs.Verdicts

/-!
# Rules do not disturb each other

More rules on the nodes of a tree make the parser keep more data. What a rule has declared to need looks the
same before and after, so a rule that reads no more than that returns the same diagnostics.
-/

namespace XmlOxydizer

open Markup

variable {R : Type}

/-- A node with the path and the mode of another that may have more rules. -/
structure GainsRules (node node' : DescriptorNode R) : Prop where
  fullPath_eq : node.fullPath = node'.fullPath
  capture_eq : node.needs.isCapture = node'.needs.isCapture
  rules : node.rules.Sublist node'.rules

/-- A tree with the nodes of another that may have more rules. -/
def MoreRules (tree tree' : DescriptorTree R) : Prop := List.Forall₂ GainsRules tree.nodes tree'.nodes

instance [DecidableEq R] (node node' : DescriptorNode R) : Decidable (GainsRules node node') :=
  decidable_of_iff (node.fullPath = node'.fullPath ∧ node.needs.isCapture = node'.needs.isCapture ∧
    node.rules.Sublist node'.rules)
    ⟨fun h => ⟨h.1, h.2.1, h.2.2⟩, fun h => ⟨h.fullPath_eq, h.capture_eq, h.rules⟩⟩

instance [DecidableEq R] (tree tree' : DescriptorTree R) : Decidable (MoreRules tree tree') :=
  inferInstanceAs (Decidable (List.Forall₂ GainsRules tree.nodes tree'.nodes))

/-- The child that a summary is about. -/
def ChildSummary.place (summary : ChildSummary) : NodeId × UInt32 := (summary.descriptorId, summary.index)

def ChildSummary.withoutResults (summary : ChildSummary) : ChildSummary := { summary with ruleResults := .empty }

/-- The children of an ancestor by their places. -/
def NodeAccess.ancestorPlaces (view : NodeAccess) (level : ℕ) : Except Panic (Option (List (NodeId × UInt32))) :=
  (view.ancestorChildren level).map (Option.map (List.map ChildSummary.place))

/-- Two views that are the same to a rule which reads no more than it declares to need. The attributes and the
text of the ancestors and the places of all siblings can always be read. -/
structure ShowSame (needs : NodeNeeds) (view view' : NodeAccess) : Prop where
  path_eq : view.path = view'.path
  tag_eq : view.tag = view'.tag
  depth_eq : view.depth = view'.depth
  elementIndex_eq : view.elementIndex = view'.elementIndex
  subtree_eq : view.subtree = view'.subtree
  attrs_eq : needs.contains .attrs = true → view.forEachAttr = view'.forEachAttr ∧ view.attr = view'.attr
  text_eq : needs.contains .text = true → view.text = view'.text
  children_eq : needs.contains .children = true →
    view.childrenSummaries.map ChildSummary.withoutResults =
      view'.childrenSummaries.map ChildSummary.withoutResults
  ancestorAttr_eq : view.ancestorAttr = view'.ancestorAttr
  ancestorText_eq : view.ancestorText = view'.ancestorText
  ancestorPlaces_eq : view.ancestorPlaces = view'.ancestorPlaces

/-- A rule that reads no more than it declares to need. -/
def Honest [Rule R] (rule : R) : Prop :=
  ∀ view view', ShowSame (Rule.needs rule) view view' → Rule.evaluate rule view = Rule.evaluate rule view'

/-- The same rule is evaluated on a view that is the same to it. -/
def Reappears [Rule R] (e e' : Evaluation R) : Prop :=
  e.rule = e'.rule ∧ ShowSame (Rule.needs e.rule) e.view e'.view

section Trees

variable {tree tree' : DescriptorTree R} {id : NodeId}

lemma MoreRules.desc (h : MoreRules tree tree') (id : NodeId) : GainsRules (tree.desc id) (tree'.desc id) := by
  have hlen := h.length_eq
  unfold DescriptorTree.desc
  by_cases hid : id.val < tree.nodes.length
  · rw [List.getD_eq_getElem _ _ hid, List.getD_eq_getElem _ _ (hlen ▸ hid)]
    exact (List.forall₂_iff_get.mp h).2 id.val hid (hlen ▸ hid)
  · rw [List.getD_eq_default _ _ (by omega), List.getD_eq_default _ _ (by omega)]
    exact ⟨rfl, rfl, .refl _⟩

lemma MoreRules.isCapture_eq (h : MoreRules tree tree') (id : NodeId) : tree.isCapture id = tree'.isCapture id :=
  (h.desc id).capture_eq

lemma GainsRules.tags_eq {node node' : DescriptorNode R} (h : GainsRules node node') : node.tags = node'.tags :=
  congrArg (List.map PathSegment.str) h.fullPath_eq

lemma MoreRules.declaredAt_eq (h : MoreRules tree tree') (path : List String) :
    tree.declaredAt path = tree'.declaredAt path := by
  unfold DescriptorTree.declaredAt
  congr 1
  unfold MoreRules at h
  generalize tree.nodes = nodes at h ⊢
  generalize tree'.nodes = nodes' at h ⊢
  induction h with
  | nil => rfl
  | cons hnode _ ih => rw [List.findIdx?_cons, List.findIdx?_cons, ih, hnode.tags_eq]

lemma MoreRules.evaluatedAt_eq (h : MoreRules tree tree') (path : List String) :
    tree.evaluatedAt path = tree'.evaluatedAt path := by
  have hbelow : tree.belowCapture path = tree'.belowCapture path := by
    unfold DescriptorTree.belowCapture
    unfold MoreRules at h
    generalize tree.nodes = nodes at h ⊢
    generalize tree'.nodes = nodes' at h ⊢
    induction h with
    | nil => rfl
    | cons hnode _ ih => rw [List.any_cons, List.any_cons, ih, hnode.tags_eq, hnode.capture_eq]
  unfold DescriptorTree.evaluatedAt
  rw [hbelow, h.declaredAt_eq]

lemma MoreRules.declaredElements_eq (h : MoreRules tree tree') (path : List String) (content : Content) :
    declaredElements tree path content = declaredElements tree' path content := by
  unfold declaredElements
  simp only [h.declaredAt_eq]

variable [Rule R] (hwf : tree.WellFormed) (hwf' : tree'.WellFormed) (h : MoreRules tree tree')

include hwf hwf' h

lemma MoreRules.summarizedChildren_eq (hid : tree.Contains id) (hid' : tree'.Contains id) (content : Content) :
    summarizedChildren tree id content = summarizedChildren tree' id content := by
  unfold summarizedChildren
  rw [h.isCapture_eq, declaredChildren_eq hwf hid, declaredChildren_eq hwf' hid', (h.desc id).tags_eq,
    h.declaredElements_eq]

lemma MoreRules.places_eq {k k' : Level} (hk : LevelOk tree k) (hk' : LevelOk tree' k') (hid : k.id = k'.id)
    (hframe : k.frame = k'.frame) :
    k.ctx.children.map ChildSummary.descriptorId = k'.ctx.children.map ChildSummary.descriptorId ∧
      k.ctx.children.map ChildSummary.index = k'.ctx.children.map ChildSummary.index := by
  have hsame := h.summarizedChildren_eq hwf hwf' hk.contains (hid ▸ hk'.contains) k.frame.content
  have htags : k.summarizedTags tree = k'.summarizedTags tree' := by
    unfold Level.summarizedTags
    rw [hsame, hid, hframe]
  constructor
  · rw [(summaries_retained hk.children).2, (summaries_retained hk'.children).2, hsame, hid, hframe]
  · rw [hk.indices, hk'.indices, htags]

end Trees

section Views

variable [Rule R] {checks : OverflowChecks} {tree tree' : DescriptorTree R} {c : ClosingElement}
  {ls ls' : List Level} {l l' : Level}

lemma shown_data {children : List ChildElement} {summaries : List ChildSummary}
    (h : List.Forall₂ ShowsChild children summaries) : summaries.map (fun s => (s.attrs, s.text)) =
      children.map (fun child => (child.label.attrs, directText child.content)) := by
  induction h with
  | nil => rfl
  | cons hshows _ ih => rw [List.map_cons, List.map_cons, ih, hshows.attrs_eq, hshows.text_eq]

lemma keepsAttrs_of_rule (hwf : tree.WellFormed) {id : NodeId} (hid : tree.Contains id) {rule : R}
    (hrule : rule ∈ (tree.desc id).rules) (hneeds : (Rule.needs rule).has 0 = true) :
    tree.keepsAttrs id = true := by
  unfold DescriptorTree.keepsAttrs DescriptorNode.needAttrs
  rw [NodeNeeds.contains_attrs, needs_of_rule hwf hid hrule hneeds, Bool.true_or, Bool.true_or]

lemma showsText_of_rule (hwf : tree.WellFormed) {id : NodeId} (hid : tree.Contains id) {rule : R}
    (hrule : rule ∈ (tree.desc id).rules) (hneeds : (Rule.needs rule).has 1 = true) :
    (tree.isCapture id || tree.keepsText id) = true := by
  unfold DescriptorTree.keepsText DescriptorNode.needText
  rw [NodeNeeds.contains_text, needs_of_rule hwf hid hrule hneeds]
  cases tree.isCapture id <;> rfl

variable (hwf : tree.WellFormed) (hwf' : tree'.WellFormed) (hmore : MoreRules tree tree')
  (h : Viewed tree c ls l) (h' : Viewed tree' c ls' l')

include hwf hwf' hmore h h'

lemma Viewed.same_id : l.id = l'.id := by
  have hat := h.evaluatedAt hwf
  rw [hmore.evaluatedAt_eq, h'.evaluatedAt hwf'] at hat
  exact (Option.some.inj hat).symm

omit [Rule R] hwf hwf' hmore in
lemma Viewed.same_length : ls.length = ls'.length := by
  have habove := congrArg List.length (h.above_eq.symm.trans h'.above_eq)
  simpa using habove

omit [Rule R] hwf hwf' hmore in
lemma Viewed.same_frame : l.frame = l'.frame := by
  have hlabel := h.label_eq.symm.trans h'.label_eq
  have hcontent := h.content_eq.symm.trans h'.content_eq
  cases hf : l.frame
  cases hf' : l'.frame
  rw [hf, hf'] at hlabel hcontent
  exact Frame.mk.injEq _ _ _ _ ▸ ⟨hlabel, hcontent⟩

lemma Viewed.same_ancestor {i : ℕ} {k k' : Level} (hk : ls[i]? = some k) (hk' : ls'[i]? = some k') :
    k.id = k'.id ∧ k.frame = k'.frame := by
  have hlen := h.same_length h'
  have hi := (List.getElem?_eq_some_iff.mp hk).1
  have hplace : ls.length - 1 - (ls.length - 1 - i) = i := by omega
  have hplace' : ls'.length - 1 - (ls.length - 1 - i) = i := by omega
  have hat := (h.ancestor_declaredAt hwf (by omega : ls.length - 1 - i < ls.length) (by rwa [hplace])).2
  have hat' := (h'.ancestor_declaredAt hwf' (by omega : ls.length - 1 - i < ls'.length) (by rwa [hplace'])).2
  rw [hmore.declaredAt_eq, hat'] at hat
  refine ⟨(Option.some.inj hat).symm, ?_⟩
  have hframes := congrArg (fun frames => frames[i]?) (h.above_eq.symm.trans h'.above_eq)
  simpa [hk, hk'] using hframes

lemma Viewed.same_index : l.ctx.index = l'.ctx.index := by
  by_cases habove : c.above = []
  · obtain rfl : ls = [] := List.map_eq_nil_iff.mp (h.above_eq ▸ habove)
    obtain rfl : ls' = [] := List.map_eq_nil_iff.mp (h'.above_eq ▸ habove)
    rw [h.levels_ok.root_index l rfl, h'.levels_ok.root_index l' rfl]
  · have hcolliding : collidingSiblings tree c = collidingSiblings tree' c := by
      unfold collidingSiblings
      simp only [hmore.declaredElements_eq]
    apply UInt32.toNat_inj.mp
    rw [h.index_eq hwf habove, h'.index_eq hwf' habove, hcolliding]

variable (checks) in
/-- What the ancestor methods answer without a look at the data of siblings. -/
lemma Viewed.same_ancestors (level : ℕ) :
    (∀ name, (l.view checks tree ls).ancestorAttr level name =
        (l'.view checks tree' ls').ancestorAttr level name) ∧
      (l.view checks tree ls).ancestorText level = (l'.view checks tree' ls').ancestorText level ∧
      (l.view checks tree ls).ancestorPlaces level = (l'.view checks tree' ls').ancestorPlaces level := by
  unfold NodeAccess.ancestorPlaces
  obtain ⟨hattr, htext, hchildren⟩ := Level.view_ancestors checks tree ls l
  obtain ⟨hattr', htext', hchildren'⟩ := Level.view_ancestors checks tree' ls' l'
  rw [hattr, hattr', htext, htext', hchildren, hchildren']
  have hlen : (ls.map Level.ctx).length = (ls'.map Level.ctx).length := by simpa using h.same_length h'
  rcases ancestorContext_cases checks hlen level with heq | ⟨i, ctx, ctx', -, hi, hctx, hctx', hfound, hfound'⟩
  · simp only [ancestorAttr, ancestorText, ancestorChildren, heq, implies_true, and_self]
  · rw [List.getElem?_map, Option.map_eq_some_iff] at hctx hctx'
    obtain ⟨k, hk, rfl⟩ := hctx
    obtain ⟨k', hk', rfl⟩ := hctx'
    obtain ⟨hid, hframe⟩ := h.same_ancestor hwf hwf' hmore h' hk hk'
    obtain ⟨-, hkeeps, hkeepsText⟩ := h.levels_ok.outer hwf hk
    obtain ⟨-, hkeeps', hkeepsText'⟩ := h'.levels_ok.outer hwf' hk'
    have hok := h.levels_ok.ok k (by simp [List.mem_of_getElem? hk])
    have hok' := h'.levels_ok.ok k' (by simp [List.mem_of_getElem? hk'])
    obtain ⟨hids, hindices⟩ := hmore.places_eq hwf hwf' hok hok' hid hframe
    have hplaces : k.ctx.children.map ChildSummary.place = k'.ctx.children.map ChildSummary.place := by
      unfold ChildSummary.place
      rw [← List.zip_map', ← List.zip_map', hids, hindices]
    refine ⟨fun name => ?_, ?_, ?_⟩
    · simp [ancestorAttr, hfound, hfound', hok.attrs_eq, hok'.attrs_eq, hkeeps, hkeeps', hframe]
    · simp [ancestorText, hfound, hfound', hok.text_eq, hok'.text_eq, hkeepsText, hkeepsText', hframe]
    · simp [ancestorChildren, hfound, hfound', hplaces]

lemma Viewed.same_children {rule : R} (hrule : rule ∈ (tree.desc l.id).rules)
    (hneeds : (Rule.needs rule).has 2 = true) :
    l.ctx.children.map ChildSummary.withoutResults = l'.ctx.children.map ChildSummary.withoutResults := by
  have hid := h.same_id hwf hwf' hmore h'
  have hframe := h.same_frame h'
  have hok := h.levels_ok.last
  have hok' := h'.levels_ok.last
  obtain ⟨hids, hindices⟩ := hmore.places_eq hwf hwf' hok hok' hid hframe
  have hdata : l.ctx.children.map (fun s => (s.attrs, s.text)) =
      l'.ctx.children.map (fun s => (s.attrs, s.text)) := by
    cases hcapture : tree.isCapture l.id with
    | true =>
      have hcapture' : tree'.isCapture l'.id = true := by rw [← hid, ← hmore.isCapture_eq, hcapture]
      rw [hok.capture_children hcapture, hok'.capture_children hcapture']
    | false =>
      have hcapture' : tree'.isCapture l'.id = false := by rw [← hid, ← hmore.isCapture_eq, hcapture]
      have hrule' : rule ∈ (tree'.desc l'.id).rules := hid ▸ (hmore.desc l.id).rules.subset hrule
      have hchildren := hok.children
      have hchildren' := hok'.children
      rw [summarizedChildren_streaming hcapture] at hchildren
      rw [summarizedChildren_streaming hcapture'] at hchildren'
      have hkept := needs_of_rule hwf hok.contains hrule hneeds
      have hkept' := needs_of_rule hwf' hok'.contains hrule' hneeds
      rw [shown_data (summaries_show hwf hok.contains hkept hchildren),
        shown_data (summaries_show hwf' hok'.contains hkept' hchildren'), h.tags hwf, h'.tags hwf',
        hmore.declaredElements_eq, hframe]
  apply summaries_ext
  · simpa [Function.comp_def, ChildSummary.withoutResults] using hids
  · simpa [Function.comp_def, ChildSummary.withoutResults] using hdata
  · simpa [Function.comp_def, ChildSummary.withoutResults] using hindices
  · have hlen := congrArg List.length hids
    simpa [Function.comp_def, ChildSummary.withoutResults] using hlen

/-- To the rules of the smaller tree both views are the same. -/
theorem Viewed.showSame {rule : R} (hrule : rule ∈ (tree.desc l.id).rules) :
    ShowSame (Rule.needs rule) (l.view checks tree ls) (l'.view checks tree' ls') := by
  have hid := h.same_id hwf hwf' hmore h'
  have hframe := h.same_frame h'
  have hok := h.levels_ok.last
  have hok' := h'.levels_ok.last
  have hcapture : tree.isCapture l.id = tree'.isCapture l'.id := by rw [hmore.isCapture_eq, hid]
  have hrule' : rule ∈ (tree'.desc l'.id).rules := hid ▸ (hmore.desc l.id).rules.subset hrule
  have hancestors := h.same_ancestors checks hwf hwf' hmore h'
  constructor
  case path_eq => rw [h.path_eq hwf, h'.path_eq hwf']
  case tag_eq => rw [h.tag_eq hwf, h'.tag_eq hwf']
  case depth_eq => rw [h.depth_eq, h'.depth_eq]
  case elementIndex_eq => rw [Level.view_elementIndex, Level.view_elementIndex, h.same_index hwf hwf' hmore h']
  case subtree_eq => rw [Level.view_subtree, Level.view_subtree, hcapture, hframe]
  case attrs_eq =>
    intro hneeds
    rw [NodeNeeds.contains_attrs] at hneeds
    have hseen : seenAttrs tree l.id l.frame = seenAttrs tree' l'.id l'.frame := by
      unfold seenAttrs
      rw [keepsAttrs_of_rule hwf hok.contains hrule hneeds, keepsAttrs_of_rule hwf' hok'.contains hrule' hneeds,
        hframe]
    obtain ⟨hlist, hattr⟩ := hok.view_attrs checks ls
    obtain ⟨hlist', hattr'⟩ := hok'.view_attrs checks ls'
    exact ⟨by rw [hlist, hlist', hseen], by rw [hattr, hattr', hseen]⟩
  case text_eq =>
    intro hneeds
    rw [NodeNeeds.contains_text] at hneeds
    rw [hok.view_text, hok'.view_text]
    unfold seenText
    rw [showsText_of_rule hwf hok.contains hrule hneeds, showsText_of_rule hwf' hok'.contains hrule' hneeds,
      hframe]
  case children_eq =>
    intro hneeds
    rw [NodeNeeds.contains_children] at hneeds
    rw [hok.view_children, hok'.view_children]
    exact h.same_children hwf hwf' hmore h' hrule hneeds
  case ancestorAttr_eq =>
    funext level name
    exact (hancestors level).1 name
  case ancestorText_eq =>
    funext level
    exact (hancestors level).2.1
  case ancestorPlaces_eq =>
    funext level
    exact (hancestors level).2.2

end Views

section Runs

variable [Rule R] {checks : OverflowChecks} {tree tree' : DescriptorTree R} (hwf : tree.WellFormed)
  (hwf' : tree'.WellFormed) (hmore : MoreRules tree tree')

include hwf hwf' hmore

lemma Evaluates.reappear {c : ClosingElement} {evals evals' : List (Evaluation R)}
    (h : Evaluates checks tree c evals) (h' : Evaluates checks tree' c evals') :
    ∃ kept, kept.Sublist evals' ∧ List.Forall₂ Reappears evals kept := by
  cases h with
  | undeclared => exact ⟨[], List.nil_sublist _, .nil⟩
  | declared ls l h =>
    cases h' with
    | undeclared hnone =>
      rw [← hmore.evaluatedAt_eq, h.evaluatedAt hwf] at hnone
      cases hnone
    | declared ls' l' h' =>
      refine ⟨evaluationsOn (l'.view checks tree' ls') (tree.desc l.id).rules, ?_, ?_⟩
      · rw [← h.same_id hwf hwf' hmore h']
        exact (hmore.desc l.id).rules.map _
      · unfold evaluationsOn
        rw [List.forall₂_map_left_iff, List.forall₂_map_right_iff, List.forall₂_same]
        exact fun rule hrule => ⟨rfl, h.showSame hwf hwf' hmore h' hrule⟩

lemma reappear_groups {cs : List ClosingElement} {groups groups' : List (List (Evaluation R))}
    (h : List.Forall₂ (Evaluates checks tree) cs groups) (h' : List.Forall₂ (Evaluates checks tree') cs groups') :
    ∃ kept, kept.Sublist groups'.flatten ∧ List.Forall₂ Reappears groups.flatten kept := by
  induction h generalizing groups' with
  | nil => exact ⟨[], List.nil_sublist _, .nil⟩
  | cons hc _ ih =>
    cases h' with
    | cons hc' hcs' =>
      obtain ⟨kept, hsub, hkept⟩ := hc.reappear hwf hwf' hmore hc'
      obtain ⟨more, hsubs, hmores⟩ := ih hcs'
      exact ⟨kept ++ more, hsub.append hsubs, List.rel_append hkept hmores⟩

omit hwf hwf' hmore in
/-- Honest rules return the same diagnostics where they reappear. -/
lemma Reappears.diagnostics_eq {evals kept : List (Evaluation R)} (h : List.Forall₂ Reappears evals kept)
    (hhonest : ∀ e ∈ evals, Honest e.rule) :
    evals.flatMap Evaluation.diagnostics = kept.flatMap Evaluation.diagnostics := by
  induction h with
  | nil => rfl
  | @cons e e' evals kept hab _ ih =>
    obtain ⟨hrule, hsame⟩ := hab
    have hfirst : e.diagnostics = e'.diagnostics := by
      unfold Evaluation.diagnostics
      rw [← hrule]
      exact hhonest e (by simp) _ _ hsame
    rw [List.flatMap_cons, List.flatMap_cons, hfirst, ih fun e he => hhonest e (by simp [he])]

end Runs

/-- More rules in a schema do not disturb the rules that are there. On a stream that both trees read to its end
every evaluation reappears in its order, on a view that shows the same of what its rule has declared to need.
Where the rules read no more than they declare, all their diagnostics are sent as before, in their order. -/
theorem rules_isolated [Rule R] (t t' : BuiltTree R) (hmore : MoreRules t.tree t'.tree) (checks : OverflowChecks)
    (events : List (Except XmlError Event)) (hok : (parseFile checks t.tree events).result = .ok ())
    (hok' : (parseFile checks t'.tree events).result = .ok ()) :
    let o := parseFile checks t.tree events
    let o' := parseFile checks t'.tree events
    ∃ kept, kept.Sublist o'.out.evaluated ∧ List.Forall₂ Reappears o.out.evaluated kept ∧
      ((∀ e ∈ o.out.evaluated, Honest e.rule) →
        o.out.sent = kept.flatMap Evaluation.diagnostics ∧ o.out.sent.Sublist o'.out.sent) := by
  have hsent := parseFile_sent t.wellFormed hok
  have hsent' := parseFile_sent t'.wellFormed hok'
  have hparse := parseFile_ok checks t.wellFormed events
  have hparse' := parseFile_ok checks t'.wellFormed events
  dsimp only
  generalize parseFile checks t.tree events = o at *
  generalize parseFile checks t'.tree events = o' at *
  cases hparse with
  | failed => cases hok
  | panicked => cases hok
  | finished ts s groups hevents _ _ hgroups hout =>
    cases hparse' with
    | failed => cases hok'
    | panicked => cases hok'
    | finished ts' s' groups' hevents' _ _ hgroups' hout' =>
      obtain rfl : ts = ts' :=
        List.map_injective_iff.mpr (fun _ _ h => Except.ok.inj h) (hevents.symm.trans hevents')
      obtain ⟨kept, hsub, hkept⟩ := reappear_groups t.wellFormed t'.wellFormed hmore hgroups hgroups'
      rw [← hout] at hkept
      rw [← hout'] at hsub
      refine ⟨kept, hsub, hkept, fun hhonest => ?_⟩
      have hdiags := Reappears.diagnostics_eq hkept hhonest
      rw [hsent, hsent']
      exact ⟨hdiags, hdiags ▸ hsub.flatMap _⟩

/-! ### A sample -/

instance : DecidableEq Probe := fun a b =>
  decidable_of_iff (a.needs = b.needs ∧ a.reports = b.reports) (by cases a; cases b; simp)

lemma Probe.honest {rule : Probe} (h : rule.needs.contains .text = true) : Honest rule := by
  intro view view' hsame
  change (if rule.reports then _ else _) = (if rule.reports then _ else _)
  rw [hsame.text_eq h, hsame.path_eq]

/-- The sample tree with more rules. -/
def busierTree : BuiltTree Probe :=
  (BuiltTree.ofCalls? "list" [.rule ⟨.all, true⟩, .node "item", .rule ⟨.empty, true⟩, .rule ⟨.all, true⟩, .done,
    .node "box", .captureSubtree, .rule ⟨⟨0x0f⟩, false⟩, .rule ⟨.children, true⟩, .done]).get (by decide +kernel)

theorem rules_isolated_sample :
    let o := parseFile .checked sampleTree.tree (sampleDocument.tokens.map .ok)
    let o' := parseFile .checked busierTree.tree (sampleDocument.tokens.map .ok)
    ∃ kept, kept.Sublist o'.out.evaluated ∧ List.Forall₂ Reappears o.out.evaluated kept ∧
      o.out.sent = kept.flatMap Evaluation.diagnostics ∧ o.out.sent.Sublist o'.out.sent := by
  have hneeds : ((parseFile .checked sampleTree.tree (sampleDocument.tokens.map .ok)).out.evaluated.all
      fun e => e.rule.needs.contains .text) = true := by decide +kernel
  have hhonest : ∀ e ∈ (parseFile .checked sampleTree.tree (sampleDocument.tokens.map .ok)).out.evaluated,
      Honest e.rule := fun e he => Probe.honest (List.all_eq_true.mp hneeds e he)
  obtain ⟨kept, hsub, hkept, hsame⟩ := rules_isolated sampleTree busierTree (by decide +kernel) .checked
    (sampleDocument.tokens.map .ok) (by decide +kernel) (by decide +kernel)
  exact ⟨kept, hsub, hkept, hsame hhonest⟩

end XmlOxydizer
