import XmlOxydizer.Proofs.PairedViews
import XmlOxydizer.Proofs.SubtreeQueries

/-!
# Looking around from a rule

What a rule finds when it goes through summaries and captured subtrees, in terms of the document. A summary can
lack data that nobody has declared to need, but it never shows data of another element, and its tag can always
be looked up.
-/

namespace XmlOxydizer

open Markup

variable {R : Type}

/-- A summary tells which child it is about, and shows nothing that is not of this child. -/
structure Recognises (tree : DescriptorTree R) (child : ChildElement) (summary : ChildSummary) : Prop where
  descriptorId_eq : summary.descriptorId = child.id
  tag_eq : summary.tag tree = .ok child.tag
  attr_sound : ∀ name value, summary.attr name = some value → FirstValue child.label.attrs name (some value)
  text_sound : summary.text = "" ∨ summary.text = directText child.content

section

variable [Rule R] {checks : OverflowChecks} {tree : DescriptorTree R} {p : NodeId} {content : Content}

lemma Summarizes.recognises (hwf : tree.WellFormed) (hp : tree.Contains p) {child : ChildElement}
    {summary : ChildSummary} (hchild : child ∈ declaredChildren tree p content)
    (h : Summarizes tree child summary) : Recognises tree child summary := by
  obtain ⟨⟨label, inner⟩, -, hsome⟩ := List.mem_filterMap.mp hchild
  obtain ⟨id, hid, rfl⟩ := Option.map_eq_some_iff.mp hsome
  have hlink := (hwf.child_concat [] hp).mp hid
  constructor
  case descriptorId_eq => exact h.descriptorId_eq
  case tag_eq =>
    unfold ChildSummary.tag
    rw [h.descriptorId_eq, DescriptorTree.get_eq hlink.contains, ok_map, hlink.tag_eq]
    rfl
  case attr_sound =>
    intro name value hvalue
    unfold ChildSummary.attr at hvalue
    rw [h.attrs_eq] at hvalue
    split at hvalue
    · exact findAttr_eq_iff.mp hvalue
    · cases hvalue
  case text_sound =>
    rw [h.text_eq]
    split
    · exact .inr rfl
    · exact .inl rfl

lemma LevelOk.recognises (hwf : tree.WellFormed) {l : Level} (h : LevelOk tree l)
    (hstream : tree.isCapture l.id = false) : List.Forall₂ (Recognises tree)
      (declaredElements tree (tree.desc l.id).tags l.frame.content) l.ctx.children := by
  have hchildren := h.children
  rw [summarizedChildren_streaming hstream] at hchildren
  rw [← declaredChildren_eq hwf h.contains]
  refine ((List.forall₂_and_left ..).mpr ⟨fun child hchild => hchild, hchildren⟩).imp ?_
  exact fun child summary hboth => hboth.2.recognises hwf h.contains hboth.1

/-! ### Captured subtrees -/

end

/-- Whatever the rules of a schema need, children and siblings can be recognised: in every view the summaries of
the children of a streaming element, and those of the children of every ancestor, are those of the declared child
elements that have closed, in document order; each names its tag and shows no attribute or text but those of its
element. The view of a captured element has no summaries. -/
theorem summaries_recognised [Rule R] (t : BuiltTree R) (checks : OverflowChecks)
    (events : List (Except XmlError Event)) (c : ClosingElement) (e : Evaluation R)
    (hvisit : Visits checks t.tree events c e) (hlen : c.above.length < 2 ^ 64) :
    List.Forall₂ (Recognises t.tree)
      (if e.view.subtree.isSome then [] else declaredElements t.tree (closingTags c) c.content)
      e.view.childrenSummaries ∧
    ∀ level < e.view.depth, ∃ f summaries, ancestorFrame c level = some f ∧
      e.view.ancestorChildren level = .ok (some summaries) ∧
      List.Forall₂ (Recognises t.tree) (declaredElements t.tree (ancestorPath c level) f.content) summaries := by
  have hwf := t.wellFormed
  obtain ⟨ls, l, hviewed, hrule, hview⟩ := visits_viewed hwf hvisit
  have hok := hviewed.levels_ok.last
  rw [hview]
  refine ⟨?_, fun level hlevel => ?_⟩
  · rw [Level.view_subtree, hok.view_children]
    cases hcapture : t.tree.isCapture l.id with
    | true =>
      rw [hok.capture_children hcapture]
      exact .nil
    | false =>
      rw [hviewed.content_eq, ← hviewed.tags hwf]
      exact hok.recognises hwf hcapture
  · rw [Level.view_depth] at hlevel
    rw [hviewed.above_eq, List.length_map] at hlen
    obtain ⟨k, hk, hframe, hctx⟩ := hviewed.ancestorContext_eq checks hlevel (by omega)
    obtain ⟨hpath, -⟩ := hviewed.ancestor_declaredAt hwf hlevel hk
    obtain ⟨hstream, -, -⟩ := hviewed.levels_ok.outer hwf hk
    obtain ⟨-, -, hchildren⟩ := Level.view_ancestors checks t.tree ls l
    have hkok := hviewed.levels_ok.ok k (by simp [List.mem_of_getElem? hk])
    refine ⟨k.frame, k.ctx.children, hframe, ?_, hpath ▸ hkok.recognises hwf hstream⟩
    rw [hchildren, ancestorChildren, hctx]
    rfl

theorem summaries_recognised_sample :
    ∃ e ∈ evaluationsAt .checked sampleTree.tree sampleBefore .close,
      List.Forall₂ (Recognises sampleTree.tree)
        (if e.view.subtree.isSome then []
          else declaredElements sampleTree.tree (closingTags sampleItem) sampleItem.content)
        e.view.childrenSummaries ∧
      ∀ level < e.view.depth, ∃ f summaries, ancestorFrame sampleItem level = some f ∧
        e.view.ancestorChildren level = .ok (some summaries) ∧ List.Forall₂ (Recognises sampleTree.tree)
          (declaredElements sampleTree.tree (ancestorPath sampleItem level) f.content) summaries := by
  have hne : evaluationsAt .checked sampleTree.tree sampleBefore .close ≠ [] := by decide +kernel
  have hmem := List.head_mem hne
  exact ⟨_, hmem, summaries_recognised sampleTree .checked (sampleDocument.tokens.map .ok) sampleItem _
    ⟨sampleBefore, .close, (sampleDocument.tokens.drop 5).map .ok, rfl, rfl, hmem⟩ (by decide)⟩

end XmlOxydizer
