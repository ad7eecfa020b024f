import XmlOxydizer.Proofs.SiblingAccess

/-!
# Two runs side by side

What the stack frames of a run hold is determined by the document, apart from the results of
the rules. Two runs over documents of one outline therefore stay in step as long as their rules
have the same results.
-/

namespace XmlOxydizer

open Markup

variable {R : Type}

/-! ### The effect of a step -/

/-- The results of one more child of the innermost element. -/
def pushResult (stack : List (List RuleResults)) (r : RuleResults) : List (List RuleResults) :=
  match stack.getLast? with
  | some last => stack.dropLast ++ [last ++ [r]]
  | none => stack

lemma map_pushSummary (contexts : List NodeContext) (summary : ChildSummary) :
    (pushSummary contexts summary).map (fun ctx => ctx.children.map ChildSummary.ruleResults) =
      pushResult (contexts.map (fun ctx => ctx.children.map ChildSummary.ruleResults))
        summary.ruleResults := by
  rcases List.eq_nil_or_concat' contexts with rfl | ⟨contexts, ctx, rfl⟩
  · rfl
  · simp [pushSummary, pushResult]

/-- What the end of the innermost element does. -/
inductive CloseEffect [Rule R] (checks : OverflowChecks) (tree : DescriptorTree R) (z : OpenElements)
    (s s' : ParserState R) : Prop
  | level (ls : List Level) (l : Level) (r : RuleResults) (htracks : Tracks tree (ls ++ [l]) [] s)
      (hz : z = ls.map Level.frame ++ [l.frame])
      (hout : s'.out = s.out.record (evaluationsOn (l.view checks tree ls) (tree.desc l.id).rules))
      (hresults : ruleResultsOf checks (l.view checks tree ls) (tree.desc l.id).rules = .ok r)
      (hstack : s'.resultStack = pushResult s.resultStack.dropLast r) : CloseEffect checks tree z s s'
  | other (hbelow : z = [] ∨ (tree.walk (tagsOf z)).below > 0) (hout : s'.out = s.out)
      (hstack : s'.resultStack = s.resultStack) : CloseEffect checks tree z s s'

section Effects

variable [Rule R] {checks : OverflowChecks} {tree : DescriptorTree R} {z : OpenElements}
  {s s' : ParserState R}

omit [Rule R] in
lemma Follows.resultStack_length (h : Follows tree z s) :
    s.resultStack.length = (tree.walk (tagsOf z)).ids.length := by
  obtain ⟨levels, rest, rfl, htracks⟩ := h
  rw [htracks.walk_eq]
  simp [ParserState.resultStack, htracks.contextStack_eq]

omit [Rule R] in
/-- Where nothing is skipped or captured below the innermost level, the levels are the open
elements. -/
lemma Follows.levels (h : Follows tree z s) (hbelow : (tree.walk (tagsOf z)).below = 0) :
    ∃ levels, z = levels.map Level.frame ∧ Tracks tree levels [] s := by
  obtain ⟨levels, rest, rfl, htracks⟩ := h
  rw [htracks.walk_eq] at hbelow
  obtain rfl := List.eq_nil_of_length_eq_zero hbelow
  exact ⟨levels, by simp, htracks⟩

lemma Follows.start (hwf : tree.WellFormed) (h : Follows tree z s) {tag : BytesStart}
    (hstart : handleStart checks tree tag s = .ok s') : Follows tree (z ++ [⟨tag, .nil⟩]) s' ∧
      s'.out = s.out ∧ (s'.resultStack = s.resultStack ∨ s'.resultStack = s.resultStack ++ [[]]) := by
  obtain ⟨levels, rest, rfl, htracks⟩ := h
  have hok := start_ok checks hwf htracks tag
  rw [hstart] at hok
  cases hok with
  | ok levels' rest' _ hz htracks' hout hfault hopens hstays =>
    refine ⟨⟨levels', rest', hz, htracks'⟩, hout, ?_⟩
    by_cases hnone : rest = [] → tree.inCapture (levels.map Level.id) = false →
        tree.child (levels.map Level.id) tag.tagName = none
    · exact .inl (by simp [ParserState.resultStack, hstays hnone])
    · push Not at hnone
      obtain ⟨hrest, hstream, hsome⟩ := hnone
      obtain ⟨id, hid⟩ := Option.ne_none_iff_exists'.mp hsome
      obtain ⟨ctx, hchildren, -, hcontexts⟩ := (hopens hrest hstream id hid).1.contexts_eq
      exact .inr (by simp [ParserState.resultStack, hcontexts, hchildren])

lemma Follows.leaf (h : Follows tree z s) {leaf : LeafEvent}
    (hstep : step checks tree (.leaf leaf) s = .next s') : Follows tree (z.extend (.leaf leaf .nil)) s' ∧
      s'.out = s.out ∧ s'.resultStack = s.resultStack := by
  obtain ⟨levels, rest, rfl, htracks⟩ := h
  have hok := leaf_ok checks htracks leaf
  rw [hstep] at hok
  cases hok with
  | next levels' rest' _ hz htracks' hout hfault hresults =>
    exact ⟨⟨levels', rest', hz, htracks'⟩, hout, hresults⟩

lemma Follows.close (h : Follows tree z s) (hend : handleEnd checks tree s = .next s') :
    Follows tree (z.advance .close) s' ∧ CloseEffect checks tree z s s' := by
  obtain ⟨levels, rest, rfl, htracks⟩ := h
  have hok := end_ok checks htracks
  rw [hend] at hok
  cases hok with
  | next levels' rest' _ hz htracks' hout hleaves hstays =>
    refine ⟨⟨levels', rest', hz, htracks'⟩, ?_⟩
    rcases List.eq_nil_or_concat' levels with rfl | ⟨ls, l, rfl⟩
    · refine .other ?_ (by simp [hout, closingEvaluations])
        (by simp [ParserState.resultStack, hstays (.inl rfl)])
      rw [htracks.walk_eq]
      cases rest <;> simp
    · cases rest with
      | cons f rest =>
        refine .other (.inr (by rw [htracks.walk_eq]; simp)) ?_
          (by simp [ParserState.resultStack, hstays (.inr (by simp))])
        rw [hout, closingEvaluations_below _ _ _ (by simp), Output.record_nil]
      | nil =>
        obtain ⟨summary, hsummary⟩ := hleaves rfl ls l rfl
        refine .level ls l summary.ruleResults htracks (by simp) ?_ hsummary.results_eq ?_
        · rw [hout, closingEvaluations_concat]
        · rw [ParserState.resultStack, hsummary.contexts_eq, map_pushSummary, List.map_dropLast]
          rfl

end Effects

/-! ### Outlines -/

/-- The tags of the child elements. -/
def outline (content : Content) : List String := content.elements.map (fun (label, _) => label.tagName)

@[simp] lemma outline_append (g h : Content) : outline (g ++ h) = outline g ++ outline h := by
  simp [outline]

@[simp] lemma outline_leaf (leaf : LeafEvent) : outline (.leaf leaf .nil) = [] := rfl

@[simp] lemma outline_element (tag : BytesStart) (content : Content) :
    outline (.element tag content .nil) = [tag.tagName] := rfl

/-- Two open elements of one tag whose children have the same tags. -/
structure SameOutline (f g : Frame BytesStart LeafEvent) : Prop where
  tag_eq : f.label.tagName = g.label.tagName
  outline_eq : outline f.content = outline g.content

section Outline

variable {z w : OpenElements}

lemma tagsOf_eq (h : List.Forall₂ SameOutline z w) : tagsOf z = tagsOf w := by
  induction h with
  | nil => rfl
  | cons hfg _ ih => rw [tagsOf_cons, tagsOf_cons, hfg.tag_eq, ih]

lemma sameOutline_extend (h : List.Forall₂ SameOutline z w) (g g' : Content) (hg : outline g = outline g') :
    List.Forall₂ SameOutline (z.extend g) (w.extend g') := by
  rcases List.eq_nil_or_concat' z with rfl | ⟨z, f, rfl⟩
  · cases h
    exact .nil
  · obtain ⟨w, f', rfl, hz, hf⟩ := Lists.forall₂_concat_left h
    rw [Spine.extend_concat, Spine.extend_concat]
    exact Lists.forall₂_concat hz ⟨hf.tag_eq, by simp [hf.outline_eq, hg]⟩

lemma sameOutline_close (h : List.Forall₂ SameOutline z w) :
    List.Forall₂ SameOutline (z.advance .close) (w.advance .close) := by
  rcases List.eq_nil_or_concat' z with rfl | ⟨z, f, rfl⟩
  · cases h
    exact .nil
  · obtain ⟨w, f', rfl, hz, hf⟩ := Lists.forall₂_concat_left h
    rw [Spine.advance_close, Spine.advance_close]
    exact sameOutline_extend hz _ _ (by simp [hf.tag_eq])

end Outline

/-! ### Runs in step -/

/-- Two states that describe open elements of one outline, at the same nodes and with the same
rule results. -/
structure Paired (tree tree' : DescriptorTree R) (z z' : OpenElements) (s s' : ParserState R) :
    Prop where
  left : Follows tree z s
  right : Follows tree' z' s'
  outline : List.Forall₂ SameOutline z z'
  walk_eq : tree.walk (tagsOf z) = tree'.walk (tagsOf z')
  results_eq : s.resultStack = s'.resultStack

/-- One tag back on the walk. -/
def Position.leave (p : Position) : Position :=
  if p.below = 0 then ⟨p.ids.dropLast, 0⟩ else ⟨p.ids, p.below - 1⟩

lemma walk_eq_leave (tree : DescriptorTree R) (path : List String) (tag : String) :
    tree.walk path = (tree.walk (path ++ [tag])).leave := by
  rw [DescriptorTree.walk_concat, Position.enter]
  obtain ⟨ids, k⟩ := tree.walk path
  split
  case isTrue => simp [Position.leave]
  case isFalse hbelow =>
    obtain rfl : k = 0 := by
      simp only [not_or, gt_iff_lt, Nat.not_lt, Nat.le_zero] at hbelow
      exact hbelow.1
    split <;> simp [Position.leave]

section Paired

variable [Rule R] {checks : OverflowChecks} {tree tree' : DescriptorTree R} {z z' : OpenElements}
  {s s' t t' : ParserState R}

omit [Rule R] in
lemma paired_init (tree tree' : DescriptorTree R) : Paired tree tree' [] [] .init .init :=
  ⟨follows_init tree, follows_init tree', .nil, rfl, rfl⟩

/-- Two elements of one tag open. -/
lemma Paired.start (hwf : tree.WellFormed) (hwf' : tree'.WellFormed) (h : Paired tree tree' z z' s s')
    {tag tag' : BytesStart} (hstart : handleStart checks tree tag s = .ok t)
    (hstart' : handleStart checks tree' tag' s' = .ok t') (htag : tag.tagName = tag'.tagName)
    (hwalk : tree.walk (tagsOf z ++ [tag.tagName]) = tree'.walk (tagsOf z' ++ [tag'.tagName])) :
    Paired tree tree' (z ++ [⟨tag, .nil⟩]) (z' ++ [⟨tag', .nil⟩]) t t' ∧ t.out = s.out ∧
      t'.out = s'.out := by
  obtain ⟨hfollows, hout, hstack⟩ := h.left.start hwf hstart
  obtain ⟨hfollows', hout', hstack'⟩ := h.right.start hwf' hstart'
  have hwalk' : tree.walk (tagsOf (z ++ [⟨tag, .nil⟩])) = tree'.walk (tagsOf (z' ++ [⟨tag', .nil⟩])) := by
    simpa using hwalk
  -- both open a level or neither does
  have hlength := hfollows.resultStack_length
  rw [hwalk', ← hfollows'.resultStack_length] at hlength
  refine ⟨⟨hfollows, hfollows', Lists.forall₂_concat h.outline ⟨htag, rfl⟩, hwalk', ?_⟩, hout, hout'⟩
  rcases hstack with hstack | hstack <;> rcases hstack' with hstack' | hstack' <;>
    simp [hstack, hstack', h.results_eq] at hlength ⊢

/-- A leaf in the left document. -/
lemma Paired.leaf_left (h : Paired tree tree' z z' s s') {leaf : LeafEvent}
    (hstep : step checks tree (.leaf leaf) s = .next t) :
    Paired tree tree' (z.extend (.leaf leaf .nil)) z' t s' ∧ t.out = s.out := by
  obtain ⟨hfollows, hout, hstack⟩ := h.left.leaf hstep
  have houtline := sameOutline_extend h.outline (.leaf leaf .nil) .nil rfl
  rw [Spine.extend_empty] at houtline
  exact ⟨⟨hfollows, h.right, houtline, by rw [tagsOf_extend, h.walk_eq], by rw [hstack, h.results_eq]⟩,
    hout⟩

/-- A leaf in the right document. -/
lemma Paired.leaf_right (h : Paired tree tree' z z' s s') {leaf : LeafEvent}
    (hstep : step checks tree' (.leaf leaf) s' = .next t') :
    Paired tree tree' z (z'.extend (.leaf leaf .nil)) s t' ∧ t'.out = s'.out := by
  obtain ⟨hfollows, hout, hstack⟩ := h.right.leaf hstep
  have houtline := sameOutline_extend h.outline .nil (.leaf leaf .nil) rfl
  rw [Spine.extend_empty] at houtline
  exact ⟨⟨h.left, hfollows, houtline, by rw [tagsOf_extend, h.walk_eq], by rw [hstack, h.results_eq]⟩,
    hout⟩

omit [Rule R] in
/-- Two elements of one outline close. -/
lemma Paired.walk_close (h : Paired tree tree' z z' s s') :
    tree.walk (tagsOf (z.advance .close)) = tree'.walk (tagsOf (z'.advance .close)) := by
  have hz := h.outline
  rcases List.eq_nil_or_concat' z with rfl | ⟨w, f, rfl⟩
  · cases hz
    rfl
  · obtain ⟨w', f', rfl, -, -⟩ := Lists.forall₂_concat_left hz
    have hleave := h.walk_eq
    rw [tagsOf_append, tagsOf_append, tagsOf_cons, tagsOf_cons, tagsOf_nil] at hleave
    rw [Spine.advance_close, Spine.advance_close, tagsOf_extend, tagsOf_extend,
      walk_eq_leave tree _ f.label.tagName, walk_eq_leave tree' _ f'.label.tagName, hleave]

/-- What the ends of two elements of one outline do: the rules of both are evaluated, at levels
alike, or those of neither. -/
inductive PairedEffect (checks : OverflowChecks) (tree tree' : DescriptorTree R) (z z' : OpenElements)
    (s s' t t' : ParserState R) : Prop
  | level (ls ls' : List Level) (l l' : Level) (r r' : RuleResults)
      (htracks : Tracks tree (ls ++ [l]) [] s) (htracks' : Tracks tree' (ls' ++ [l']) [] s')
      (hz : z = (ls ++ [l]).map Level.frame) (hz' : z' = (ls' ++ [l']).map Level.frame)
      (hout : t.out = s.out.record (evaluationsOn (l.view checks tree ls) (tree.desc l.id).rules))
      (hout' : t'.out = s'.out.record (evaluationsOn (l'.view checks tree' ls') (tree'.desc l'.id).rules))
      (hresults : ruleResultsOf checks (l.view checks tree ls) (tree.desc l.id).rules = .ok r)
      (hresults' : ruleResultsOf checks (l'.view checks tree' ls') (tree'.desc l'.id).rules = .ok r')
      (hstack : t.resultStack = pushResult s.resultStack.dropLast r)
      (hstack' : t'.resultStack = pushResult s'.resultStack.dropLast r') :
      PairedEffect checks tree tree' z z' s s' t t'
  | other (hbelow : z = [] ∨ (tree.walk (tagsOf z)).below > 0) (hout : t.out = s.out)
      (hout' : t'.out = s'.out) (hstack : t.resultStack = s.resultStack)
      (hstack' : t'.resultStack = s'.resultStack) : PairedEffect checks tree tree' z z' s s' t t'

omit [Rule R] in
lemma Tracks.below_eq {ls : List Level} {l : Level} (h : Tracks tree (ls ++ [l]) [] s)
    (hz : z = ls.map Level.frame ++ [l.frame]) : z ≠ [] ∧ (tree.walk (tagsOf z)).below = 0 := by
  subst hz
  have hwalk := h.levels_ok.walk_eq
  rw [List.map_append, List.map_singleton] at hwalk
  exact ⟨by simp, by rw [hwalk]⟩

lemma Paired.effect (h : Paired tree tree' z z' s s') (hend : handleEnd checks tree s = .next t)
    (hend' : handleEnd checks tree' s' = .next t') :
    PairedEffect checks tree tree' z z' s s' t t' := by
  have heffect := (h.left.close hend).2
  have heffect' := (h.right.close hend').2
  cases heffect with
  | level ls l r htracks hz hout hresults hstack =>
    obtain ⟨hne, hzero⟩ := htracks.below_eq hz
    cases heffect' with
    | level ls' l' r' htracks' hz' hout' hresults' hstack' =>
      exact .level ls ls' l l' r r' htracks htracks' (by simpa using hz) (by simpa using hz') hout hout'
        hresults hresults' hstack hstack'
    | other hbelow' hout' hstack' =>
      rcases hbelow' with rfl | hbelow'
      · exact absurd (List.forall₂_nil_right_iff.mp h.outline) hne
      · rw [← h.walk_eq] at hbelow'
        omega
  | other hbelow hout hstack =>
    cases heffect' with
    | other hbelow' hout' hstack' => exact .other hbelow hout hout' hstack hstack'
    | level ls' l' r' htracks' hz' hout' hresults' hstack' =>
      obtain ⟨hne, hzero⟩ := htracks'.below_eq hz'
      rcases hbelow with rfl | hbelow
      · exact absurd (List.forall₂_nil_left_iff.mp h.outline) hne
      · rw [h.walk_eq] at hbelow
        omega

/-- The innermost elements close, and their rules have the same results. -/
lemma Paired.close (h : Paired tree tree' z z' s s') (hend : handleEnd checks tree s = .next t)
    (hend' : handleEnd checks tree' s' = .next t')
    (hsame : ∀ ls l ls' l', Tracks tree (ls ++ [l]) [] s → Tracks tree' (ls' ++ [l']) [] s' →
      z = (ls ++ [l]).map Level.frame → z' = (ls' ++ [l']).map Level.frame →
      ruleResultsOf checks (l.view checks tree ls) (tree.desc l.id).rules =
        ruleResultsOf checks (l'.view checks tree' ls') (tree'.desc l'.id).rules) :
    Paired tree tree' (z.advance .close) (z'.advance .close) t t' := by
  refine ⟨(h.left.close hend).1, (h.right.close hend').1, sameOutline_close h.outline, h.walk_close, ?_⟩
  cases h.effect hend hend' with
  | other hbelow hout hout' hstack hstack' => rw [hstack, hstack', h.results_eq]
  | level ls ls' l l' r r' htracks htracks' hz hz' hout hout' hresults hresults' hstack hstack' =>
    have hr := hsame ls l ls' l' htracks htracks' hz hz'
    rw [hresults, hresults', Except.ok.injEq] at hr
    rw [hstack, hstack', h.results_eq, hr]

end Paired

/-! ### What the stack frames hold -/

/-- What the summary of a child retains of its attributes and its text. -/
def retained (tree : DescriptorTree R) (child : ChildElement) : List (String × String) × String :=
  (if (tree.desc child.id).summaryNeeds.has 0 then child.label.attrs else [],
    if (tree.desc child.id).summaryNeeds.has 1 then directText child.content else "")

lemma summaries_ext {as bs : List ChildSummary}
    (hids : as.map ChildSummary.descriptorId = bs.map ChildSummary.descriptorId)
    (hdata : as.map (fun a => (a.attrs, a.text)) = bs.map (fun b => (b.attrs, b.text)))
    (hindices : as.map ChildSummary.index = bs.map ChildSummary.index)
    (hresults : as.map ChildSummary.ruleResults = bs.map ChildSummary.ruleResults) : as = bs := by
  induction as generalizing bs with
  | nil => exact (List.map_eq_nil_iff.mp hids.symm).symm
  | cons a as ih =>
    cases bs with
    | nil => simp at hids
    | cons b bs =>
      simp only [List.map_cons, List.cons.injEq, Prod.mk.injEq] at hids hdata hindices hresults
      have hab : a = b := by
        obtain ⟨attrs, text, id, i, results⟩ := a
        rw [ChildSummary.mk.injEq]
        exact ⟨hdata.1.1, hdata.1.2, hids.1, hindices.1, hresults.1⟩
      rw [hab, ih hids.2 hdata.2 hindices.2 hresults.2]

section Frames

variable {tree tree' : DescriptorTree R} {k k' l l' : Level} {ls ls' : List Level}

lemma declaredChildren_tags (p : NodeId) (content : Content) :
    (declaredChildren tree p content).map ChildElement.tag =
      (outline content).filter (fun t => (tree.child [p] t).isSome) := by
  simp only [declaredChildren, outline]
  induction content.elements with
  | nil => rfl
  | cons e es ih =>
    cases h : tree.child [p] e.1.tagName <;> simp [h, ih, ChildElement.tag]

lemma declaredChildren_ids (p : NodeId) (content : Content) :
    (declaredChildren tree p content).map ChildElement.id =
      (outline content).filterMap (tree.child [p] ·) := by
  simp only [declaredChildren, outline]
  induction content.elements with
  | nil => rfl
  | cons e es ih =>
    cases h : tree.child [p] e.1.tagName <;> simp [h, ih]

lemma summaries_retained {children : List ChildElement} {summaries : List ChildSummary}
    (h : List.Forall₂ (Summarizes tree) children summaries) :
    summaries.map (fun s => (s.attrs, s.text)) = children.map (retained tree) ∧
      summaries.map ChildSummary.descriptorId = children.map ChildElement.id := by
  induction h with
  | nil => exact ⟨rfl, rfl⟩
  | cons hs _ ih =>
    simp only [List.map_cons, ih.1, ih.2, retained, hs.attrs_eq, hs.text_eq, hs.descriptorId_eq, and_self]

/-- Two levels for elements of one outline at one node, with the same rule results. -/
structure LevelAlike (k k' : Level) : Prop where
  id_eq : k.id = k'.id
  outline : SameOutline k.frame k'.frame
  results_eq : k.ctx.children.map ChildSummary.ruleResults = k'.ctx.children.map ChildSummary.ruleResults

lemma Paired.alike {z z' : OpenElements} {s s' : ParserState R} {levels levels' : List Level}
    (h : Paired tree tree' z z' s s') (htracks : Tracks tree levels [] s)
    (htracks' : Tracks tree' levels' [] s') (hz : z = levels.map Level.frame)
    (hz' : z' = levels'.map Level.frame) : List.Forall₂ LevelAlike levels levels' := by
  have hwalk := h.walk_eq
  rw [hz, hz', htracks.levels_ok.walk_eq, htracks'.levels_ok.walk_eq, Position.mk.injEq] at hwalk
  have hresults := h.results_eq
  simp only [ParserState.resultStack, htracks.contextStack_eq, htracks'.contextStack_eq,
    List.map_map] at hresults
  have houtline := h.outline
  rw [hz, hz', List.forall₂_map_left_iff, List.forall₂_map_right_iff] at houtline
  have hids := List.forall₂_eq_eq_eq.symm ▸ hwalk.1
  have hresults := List.forall₂_eq_eq_eq.symm ▸ hresults
  rw [List.forall₂_map_left_iff, List.forall₂_map_right_iff] at hids hresults
  rw [List.forall₂_iff_get] at hids hresults houtline ⊢
  exact ⟨hids.1, fun i hi hi' => ⟨hids.2 i hi hi', houtline.2 i hi hi', hresults.2 i hi hi'⟩⟩

/-- Two levels that are both captured or both not have summarized children of the same tags. -/
lemma LevelAlike.summarizedTags_eq (h : LevelAlike k k')
    (hchild : ∀ tag, tree.child [k.id] tag = tree'.child [k'.id] tag)
    (hcapture : tree.isCapture k.id = tree'.isCapture k'.id) :
    k.summarizedTags tree = k'.summarizedTags tree' := by
  simp only [Level.summarizedTags, summarizedChildren, hcapture]
  split
  · rfl
  · rw [declaredChildren_tags, declaredChildren_tags, h.outline.outline_eq]
    simp only [hchild]

/-- The children of two levels are summarized alike when what is retained of them is. -/
lemma LevelAlike.children_eq_iff (h : LevelAlike k k') (hk : LevelOk tree k) (hk' : LevelOk tree' k')
    (hchild : ∀ tag, tree.child [k.id] tag = tree'.child [k'.id] tag)
    (hcapture : tree.isCapture k.id = tree'.isCapture k'.id) :
    k.ctx.children = k'.ctx.children ↔
      (summarizedChildren tree k.id k.frame.content).map (retained tree) =
        (summarizedChildren tree' k'.id k'.frame.content).map (retained tree') := by
  have htags := h.summarizedTags_eq hchild hcapture
  have hids : (summarizedChildren tree k.id k.frame.content).map ChildElement.id =
      (summarizedChildren tree' k'.id k'.frame.content).map ChildElement.id := by
    simp only [summarizedChildren, hcapture]
    split
    · rfl
    · rw [declaredChildren_ids, declaredChildren_ids, h.outline.outline_eq]
      simp only [hchild]
  obtain ⟨hretained, hsummaries⟩ := summaries_retained hk.children
  obtain ⟨hretained', hsummaries'⟩ := summaries_retained hk'.children
  rw [← hretained, ← hretained']
  refine ⟨fun heq => by rw [heq], fun hdata => summaries_ext ?_ hdata ?_ h.results_eq⟩
  · rw [hsummaries, hsummaries', hids]
  · rw [hk.indices, hk'.indices, htags]

end Frames

end XmlOxydizer
