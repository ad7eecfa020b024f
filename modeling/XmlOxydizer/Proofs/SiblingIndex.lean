import XmlOxydizer.Proofs.RuleResults

/-!
# The index among the siblings

The counters of an element are keyed by the hashes of the tags of its children. The index of a child
is therefore the number of earlier siblings of its tag and of declared earlier siblings whose tags
have the same hash.
-/

namespace XmlOxydizer

open Markup

variable {R : Type}

/-- The number of elements of the same tag that opened before `c` in the element around it. -/
def earlierSiblings (c : ClosingElement) : ℕ :=
  match c.above.getLast? with
  | none => 0
  | some f => (outline f.content).countP (fun tag => tag == c.label.tagName)

/-- The number of declared elements of another tag with the same hash that opened before `c` in the
element around it. -/
def collidingSiblings (tree : DescriptorTree R) (c : ClosingElement) : ℕ :=
  match c.above.getLast? with
  | none => 0
  | some f => (declaredElements tree (tagsOf c.above) f.content).countP fun child =>
      child.tag != c.label.tagName && hashTag child.tag == hashTag c.label.tagName

/-- The tags of one hash are the tag itself and those that collide with it. -/
lemma countP_hash (tags : List String) (tag : String) :
    tags.countP (fun t => hashTag t == hashTag tag) = tags.countP (fun t => t == tag) +
      tags.countP (fun t => t != tag && hashTag t == hashTag tag) := by
  induction tags with
  | nil => rfl
  | cons t tags ih =>
    simp only [List.countP_cons, ih]
    by_cases heq : t = tag
    · subst heq
      simp only [beq_self_eq_true, if_true, bne_self_eq_false, Bool.false_and, Bool.false_eq_true, if_false]
      omega
    · have hne : (t == tag) = false := by simpa using heq
      have hbne : (t != tag) = true := by simpa using heq
      simp only [hne, hbne, Bool.true_and, Bool.false_eq_true, if_false]
      omega

/-- Where a tag is declared, all elements of this tag are. -/
lemma countP_declaredElements {tree : DescriptorTree R} {path : List String} {tag : String} {id : NodeId}
    (hid : tree.declaredAt (path ++ [tag]) = some id) (content : Content) :
    ((declaredElements tree path content).map ChildElement.tag).countP (fun t => t == tag) =
      (outline content).countP (fun t => t == tag) := by
  unfold declaredElements outline
  generalize content.elements = elements
  induction elements with
  | nil => rfl
  | cons element elements ih =>
    obtain ⟨label, content⟩ := element
    cases hlabel : tree.declaredAt (path ++ [label.tagName]) with
    | none =>
      have hne : label.tagName ≠ tag := by
        rintro rfl
        rw [hid] at hlabel
        cases hlabel
      simp only [List.filterMap_cons, hlabel, Option.map_none, ih, List.map_cons, List.countP_cons]
      simp [hne]
    | some c =>
      simp only [List.filterMap_cons, hlabel, Option.map_some, List.map_cons, List.countP_cons, ih]
      rfl

section

variable [Rule R] {checks : OverflowChecks} {tree : DescriptorTree R} {c : ClosingElement}
  {ls : List Level} {l : Level}

/-- What the counters have counted when an element opened. -/
lemma Viewed.index_eq (hwf : tree.WellFormed) (h : Viewed tree c ls l) (habove : c.above ≠ []) :
    l.ctx.index.toNat = (earlierSiblings c + collidingSiblings tree c) % 2 ^ 32 := by
  have hls : ls ≠ [] := fun hnil => habove (by rw [h.above_eq, hnil, List.map_nil])
  obtain ⟨ls, p, rfl⟩ := (List.eq_nil_or_concat' ls).resolve_left hls
  obtain ⟨houter, -, hlink, hstream⟩ := h.levels_ok.pop
  have hp : LevelOk tree p := h.levels_ok.ok p (by simp)
  have hlast : c.above.getLast? = some p.frame := by rw [h.above_eq, List.map_append, List.map_singleton,
    List.getLast?_concat]
  have hpath : (tree.desc p.id).tags = tagsOf c.above := by
    have hat := houter.evaluatedAt hwf
    rw [(hwf.of_evaluatedAt hat).2.1, h.above_eq]
    simp [Level.tag]
  have htags : p.summarizedTags tree =
      (declaredElements tree (tagsOf c.above) p.frame.content).map ChildElement.tag := by
    rw [Level.summarizedTags, summarizedChildren, hstream, ← hpath, ← declaredChildren_eq hwf hp.contains]
    rfl
  have hdeclared : tree.declaredAt (tagsOf c.above ++ [c.label.tagName]) = some l.id := by
    have hat := h.evaluatedAt hwf
    obtain ⟨hcontains, hid, -⟩ := hwf.of_evaluatedAt hat
    exact hwf.declaredAt_eq_some.mpr ⟨hcontains, hid⟩
  have htag : l.tag = c.label.tagName := by rw [h.label_eq, Level.tag]
  rw [hlink.index_eq, siblingIndex, htags, htag, countP_hash, countP_declaredElements hdeclared,
    earlierSiblings, collidingSiblings, hlast]
  simp only [UInt32.toNat_ofNat', List.countP_map]
  rfl

end

/-- The index of an element with a parent is the number of earlier siblings of its tag exactly when the
declared siblings whose tags collide with it are a multiple of 2^32. -/
theorem elementIndex_exact_iff [Rule R] (t : BuiltTree R) (checks : OverflowChecks) (c : ClosingElement)
    (s : ParserState R) (hend : EndsIn checks t.tree c s) (id : NodeId)
    (hid : t.tree.evaluatedAt (closingTags c) = some id) (habove : c.above ≠ [])
    (hfew : earlierSiblings c < 2 ^ 32) :
    ∃ ls l, Viewed t.tree c ls l ∧ s.contextStack = (ls ++ [l]).map Level.ctx ∧
      let view := l.view checks t.tree ls
      let r := handleEnd checks t.tree s
      (∃ done, r.out.evaluated = s.out.evaluated ++ done ∧
        done <+: evaluationsOn view (t.tree.desc id).rules) ∧
      (∀ s', r = .next s' → ∃ summary, s'.lastSummary = some summary ∧
        summary.index.toNat = view.elementIndex) ∧
      (view.elementIndex = earlierSiblings c ↔ 2 ^ 32 ∣ collidingSiblings t.tree c) := by
  have hwf := t.wellFormed
  obtain ⟨ls, l, rfl, hviewed, htracks⟩ := hend.level hwf hid
  have hindex := hviewed.index_eq hwf habove
  have hlevel := htracks.ends checks
  refine ⟨ls, l, hviewed, htracks.contextStack_eq, ?_⟩
  dsimp only
  generalize handleEnd checks t.tree s = r at hlevel ⊢
  rw [Level.view_elementIndex]
  refine ⟨hlevel.evaluated, fun s' hs' => ?_, by omega⟩
  subst hs'
  cases hlevel with
  | next _ summary hout hsummary =>
    have hls : ls ≠ [] := fun hnil => habove (by rw [hviewed.above_eq, hnil, List.map_nil])
    exact ⟨summary, hsummary.last htracks hls, by rw [hsummary.index_eq]⟩

/-! ### Two tags of one hash -/

/-- Two different tags whose hashes are equal. -/
def collidingTags : String × String := ("gMPflVXtwGDXbIhP73TX", "LtHf1prlU1bCeYZEdqWf")

/-- A list with children of both tags. -/
def collidingTree : BuiltTree Probe :=
  (BuiltTree.ofCalls? "list" [.node collidingTags.1, .done, .node collidingTags.2,
    .rule ⟨.empty, false⟩]).get (by decide +kernel)

/-- The first tokens of a list with one child of each tag, up to the start of the second one. -/
def collidingBefore : List Event :=
  [.start (tagNamed "list" []), .empty (tagNamed collidingTags.1 []), .start (tagNamed collidingTags.2 [])]

/-- The second child as it closes. -/
def collidingItem : ClosingElement where
  above := [⟨tagNamed "list" [], .element (tagNamed collidingTags.1 []) .nil .nil⟩]
  label := tagNamed collidingTags.2 []
  content := .nil

/-- The first element of its tag has the index 1. -/
theorem elementIndex_not_exact :
    collidingTree.tree.evaluatedAt (closingTags collidingItem) = some ⟨2⟩ ∧
      earlierSiblings collidingItem = 0 ∧
      ∃ s s' summary, EndsIn .checked collidingTree.tree collidingItem s ∧
        handleEnd .checked collidingTree.tree s = .next s' ∧ s'.lastSummary = some summary ∧
        summary.index = 1 ∧ (s'.out.evaluated.map (fun e => e.view.elementIndex)) = [1] := by
  refine ⟨by decide +kernel, by decide +kernel, _, _, _, .close collidingBefore rfl rfl, rfl, rfl, ?_, ?_⟩
  · decide +kernel
  · decide +kernel

/-- The second item of a list of two has the index 1. -/
theorem elementIndex_exact_iff_sample :
    ∃ s, EndsIn .checked siblingTree.tree siblingItem s ∧
      ∃ ls l, Viewed siblingTree.tree siblingItem ls l ∧ s.contextStack = (ls ++ [l]).map Level.ctx ∧
        let view := l.view .checked siblingTree.tree ls
        let r := handleEnd .checked siblingTree.tree s
        (∃ done, r.out.evaluated = s.out.evaluated ++ done ∧
          done <+: evaluationsOn view (siblingTree.tree.desc ⟨1⟩).rules) ∧
        (∀ s', r = .next s' → ∃ summary, s'.lastSummary = some summary ∧
          summary.index.toNat = view.elementIndex) ∧ view.elementIndex = 1 := by
  have hend : EndsIn .checked siblingTree.tree siblingItem _ := .close siblingBefore rfl rfl
  obtain ⟨ls, l, hviewed, hcontexts, hdone, hsummary, hindex⟩ :=
    elementIndex_exact_iff siblingTree .checked siblingItem _ hend ⟨1⟩ (by decide +kernel) (by decide)
      (by decide +kernel)
  have hearlier : earlierSiblings siblingItem = 1 := by decide +kernel
  rw [hearlier] at hindex
  exact ⟨_, hend, ls, l, hviewed, hcontexts, hdone, hsummary, hindex.mpr (by decide +kernel)⟩

end XmlOxydizer
