import XmlOxydizer.Proofs.PairedRuns

/-!
# The summaries on the stack

Every declared child leaves a summary in the context of its parent, whether a rule may read it or not, and
the summary stays until the parent closes. The number of summaries on the stack is the number of declared
children that have closed inside the open elements, and not bounded by the depth.
-/

namespace XmlOxydizer

open Markup

variable {R : Type}

/-- The number of summaries that the contexts on the stack hold. -/
def ParserState.heldSummaries (s : ParserState R) : ℕ :=
  (s.contextStack.map (fun ctx => ctx.children.length)).sum

/-- The number of open elements that are declared. -/
def openDeclared (tree : DescriptorTree R) (z : OpenElements) : ℕ :=
  (tagsOf z).inits.countP (fun path => (tree.declaredAt path).isSome)

/-- The number of children of an element that are declared and not below a capture. -/
def declaredInside (tree : DescriptorTree R) (path : List String) (content : Content) : ℕ :=
  content.elements.countP (fun child => (tree.evaluatedAt (path ++ [child.1.tagName])).isSome)

/-- The number of declared children, outside captures, that have closed inside the open elements `z` below
the path `above`. -/
def closedInside (tree : DescriptorTree R) : List String → OpenElements → ℕ
  | _, [] => 0
  | above, f :: z =>
    declaredInside tree (above ++ [f.label.tagName]) f.content +
      closedInside tree (above ++ [f.label.tagName]) z

/-- No rule declares a need for the summaries of children. -/
def NoChildNeeds [Rule R] (tree : DescriptorTree R) : Prop :=
  ∀ node ∈ tree.nodes, ∀ rule ∈ node.rules, (Rule.needs rule).contains .children = false

/-- The open elements of a state between two events, or between the two halves of an empty-element event. -/
inductive OpenIn [Rule R] (checks : OverflowChecks) (tree : DescriptorTree R) :
    OpenElements → ParserState R → Prop
  | between (before : List Event) (s : ParserState R)
      (hrun : eventLoop checks tree (before.map .ok) .init = .next s) :
      OpenIn checks tree (Spine.advanceAll [] before) s
  | within (before : List Event) (tag : BytesStart) (u s : ParserState R)
      (hrun : eventLoop checks tree (before.map .ok) .init = .next u)
      (hstart : handleStart checks tree tag u = .ok s) :
      OpenIn checks tree (Spine.advanceAll [] before ++ [⟨tag, .nil⟩]) s

section

variable [Rule R] {checks : OverflowChecks} {tree : DescriptorTree R} {z : OpenElements}
  {s : ParserState R} {path : List String} {ids : List NodeId}

lemma OpenIn.follows (hwf : tree.WellFormed) (h : OpenIn checks tree z s) : Follows tree z s := by
  cases h with
  | between before _ hrun => exact follows_of_run hwf hrun
  | within before tag u _ hrun hstart => exact ((follows_of_run hwf hrun).start hwf hstart).1

/-! ### The children of one open element -/

/-- Below the innermost level no child is evaluated. -/
lemma declaredInside_below (hwf : tree.WellFormed) (hbelow : (tree.walk path).below > 0) (content : Content) :
    declaredInside tree path content = 0 := by
  unfold declaredInside
  rw [List.countP_eq_zero]
  intro child _
  rw [DescriptorTree.evaluatedAt_concat hwf, if_pos (.inl hbelow)]
  simp

/-- The evaluated children of a level are those that leave a summary. -/
lemma declaredInside_level (hwf : tree.WellFormed) {id : NodeId} (hwalk : tree.walk path = ⟨ids ++ [id], 0⟩)
    (content : Content) :
    declaredInside tree path content = (summarizedChildren tree id content).length := by
  have hat : ∀ tag, tree.evaluatedAt (path ++ [tag]) =
      if tree.isCapture id = true then none else tree.child [id] tag := by
    intro tag
    rw [DescriptorTree.evaluatedAt_concat hwf, hwalk, DescriptorTree.inCapture_concat]
    simp [DescriptorTree.child]
  unfold declaredInside summarizedChildren declaredChildren
  simp only [hat]
  by_cases hcapture : tree.isCapture id = true
  · simp [hcapture]
  · rw [if_neg hcapture, List.length_filterMap_eq_countP]
    apply List.countP_congr
    intro child _
    rw [if_neg hcapture, Option.isSome_map]

/-! ### The children of all open elements -/

omit [Rule R] in
lemma closedInside_append (above : List String) (z w : OpenElements) :
    closedInside tree above (z ++ w) =
      closedInside tree above z + closedInside tree (above ++ tagsOf z) w := by
  induction z generalizing above with
  | nil => simp [closedInside]
  | cons f z ih => simp [closedInside, ih, Nat.add_assoc]

/-- Elements that are skipped or captured hold no summaries. -/
lemma closedInside_below (hwf : tree.WellFormed) (z rest : OpenElements)
    (hwalk : tree.walk (tagsOf (z ++ rest)) = ⟨ids, rest.length⟩) : closedInside tree (tagsOf z) rest = 0 := by
  induction rest using List.reverseRecOn with
  | nil => rfl
  | append_singleton rest f ih =>
    rw [← List.append_assoc, tagsOf_append, tagsOf_cons, tagsOf_nil, List.length_append,
      List.length_singleton] at hwalk
    have hlast := declaredInside_below hwf (by rw [hwalk]; exact Nat.succ_pos _) f.content
    rw [tagsOf_append] at hlast
    rw [closedInside_append, ih (walk_leave hwalk), closedInside, closedInside, hlast]

/-- The levels hold one summary for each declared child that has closed. -/
lemma closedInside_levels (hwf : tree.WellFormed) (levels : List Level) (hok : ∀ l ∈ levels, LevelOk tree l)
    (hwalk : tree.walk (tagsOf (levels.map Level.frame)) = ⟨levels.map Level.id, 0⟩) :
    closedInside tree [] (levels.map Level.frame) =
      ((levels.map Level.ctx).map (fun ctx => ctx.children.length)).sum := by
  induction levels using List.reverseRecOn with
  | nil => rfl
  | append_singleton ls l ih =>
    simp only [List.map_append, List.map_singleton, tagsOf_append, tagsOf_cons, tagsOf_nil] at hwalk
    have houter := ih (fun k hk => hok k (by simp [hk])) (walk_leave_child hwalk).1
    have hlevel := (hok l (by simp)).children.length_eq
    rw [List.map_append, List.map_singleton, closedInside_append, houter, closedInside, closedInside,
      List.nil_append, declaredInside_level hwf hwalk, hlevel]
    simp

/-- The summaries on the stack belong to the declared children that have closed inside open elements. -/
lemma heldSummaries_eq (hwf : tree.WellFormed) (h : Follows tree z s) :
    s.heldSummaries = closedInside tree [] z := by
  obtain ⟨levels, rest, rfl, htracks⟩ := h
  have hlevels := closedInside_levels hwf levels htracks.levels_ok.ok htracks.levels_ok.walk_eq
  have hrest := closedInside_below hwf (levels.map Level.frame) rest htracks.walk_eq
  rw [closedInside_append, hlevels, List.nil_append, hrest, ParserState.heldSummaries,
    htracks.contextStack_eq, Nat.add_zero]

end

/-- In every state, the summaries on the stack are at most as many as the open declared elements exactly
when the declared children that have closed inside the open elements are. -/
theorem summaries_bounded_iff [Rule R] (t : BuiltTree R) (checks : OverflowChecks) (z : OpenElements)
    (s : ParserState R) (h : OpenIn checks t.tree z s) :
    s.heldSummaries ≤ openDeclared t.tree z ↔ closedInside t.tree [] z ≤ openDeclared t.tree z := by
  rw [heldSummaries_eq t.wellFormed (h.follows t.wellFormed)]

/-- A list of items whose rule reads their text. -/
def textTree : BuiltTree Probe :=
  (BuiltTree.ofCalls? "list" [.node "item", .rule ⟨.text, true⟩, .done]).get (by decide +kernel)

/-- A list after its second item. -/
def twoItems : List Event :=
  [.start (tagNamed "list" []), .empty (tagNamed "item" []), .empty (tagNamed "item" [])]

/-- No rule may read summaries, the list is the only open element, and its context holds two. -/
theorem summaries_not_bounded :
    NoChildNeeds textTree.tree ∧ ∃ s, OpenIn .checked textTree.tree (Spine.advanceAll [] twoItems) s ∧
      ¬ s.heldSummaries ≤ openDeclared textTree.tree (Spine.advanceAll [] twoItems) := by
  refine ⟨by unfold NoChildNeeds; decide +kernel, _, .between twoItems _ rfl, by decide +kernel⟩

/-- After the first item the context of the list holds one summary. -/
theorem summaries_bounded_iff_sample :
    ∃ s, OpenIn .checked textTree.tree (Spine.advanceAll [] (twoItems.take 2)) s ∧ s.heldSummaries = 1 ∧
      s.heldSummaries ≤ openDeclared textTree.tree (Spine.advanceAll [] (twoItems.take 2)) := by
  have hopen : OpenIn .checked textTree.tree (Spine.advanceAll [] (twoItems.take 2)) _ :=
    .between (twoItems.take 2) _ rfl
  exact ⟨_, hopen, by decide +kernel, (summaries_bounded_iff textTree .checked _ _ hopen).mpr (by decide +kernel)⟩

end XmlOxydizer
