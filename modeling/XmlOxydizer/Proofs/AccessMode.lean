import XmlOxydizer.Proofs.SwitchedRuns

/-!
# Streaming and capturing one node

Two runs on one document, in trees that differ in the access mode of one node. The rules of that node see the
same data in both modes, unless an element of the node has a declared child: the view of a captured element has
no summaries of children. What an element leaves to its parent is the same unless its rules tell the modes
apart, as a rule that reads the subtree may do.
-/

namespace XmlOxydizer

open Markup

variable {R : Type}

/-- The rule declares that it needs attributes, text and children. -/
def DeclaresAll [Rule R] (rule : R) : Prop :=
  (Rule.needs rule).contains .attrs = true ∧ (Rule.needs rule).contains .text = true ∧
    (Rule.needs rule).contains .children = true

/-- The rule does not look at the subtree. -/
def IgnoresSubtree [Rule R] (rule : R) : Prop :=
  ∀ view view' : NodeAccess, view.withoutSubtree = view'.withoutSubtree →
    Rule.evaluate rule view = Rule.evaluate rule view'

/-- Two evaluations of one rule with the same answers to all methods but `subtree`. -/
structure SameObservation [Rule R] (e e' : Evaluation R) : Prop where
  rule_eq : e.rule = e'.rule
  view_eq : DeclaresAll e.rule → e.view.withoutSubtree = e'.view.withoutSubtree
  diagnostics_eq : DeclaresAll e.rule → IgnoresSubtree e.rule → e.diagnostics = e'.diagnostics

/-- The last summary that the innermost open element holds after the token `tok`. -/
def summaryAt [Rule R] (checks : OverflowChecks) (tree : DescriptorTree R) (before : List Event)
    (tok : Event) : Option ChildSummary :=
  match eventLoop checks tree ((before ++ [tok]).map .ok) .init with
  | .next s => s.contextStack.getLast?.bind (fun ctx => ctx.children.getLast?)
  | .stop _ _ => none

/-- Whenever an element of node `n` closes, its rules make the same observations in both trees,
and its parent is left the same summary. -/
def ModeIndependent [Rule R] (checks : OverflowChecks) (tree tree' : DescriptorTree R) (n : NodeId)
    (ts : List Event) : Prop :=
  ∀ before tok after c, ts = before ++ tok :: after →
    (Spine.advanceAll [] before).closing tok = some c → tree.declaredAt (closingTags c) = some n →
    List.Forall₂ SameObservation (evaluationsAt checks tree before tok)
      (evaluationsAt checks tree' before tok) ∧
    summaryAt checks tree before tok = summaryAt checks tree' before tok

/-- An element of the node has no declared child. -/
def NoDeclaredChild (tree : DescriptorTree R) (n : NodeId) (c : ClosingElement) : Prop :=
  tree.declaredAt (closingTags c) = some n → declaredElements tree (closingTags c) c.content = []

/-- Nothing tells the two modes of node `n` apart: no element of it has a declared child, if some rule declares
that it needs everything, and its rules set the same bits for the parent on what the two modes show them. -/
structure ModeBlind [Rule R] (checks : OverflowChecks) (tree tree' : DescriptorTree R) (n : NodeId)
    (ts : List Event) : Prop where
  childless : (∃ rule ∈ (tree.desc n).rules, DeclaresAll rule) →
    ∀ c ∈ Spine.closings [] ts, NoDeclaredChild tree n c
  verdicts : ∀ before tok after c, ts = before ++ tok :: after →
    (Spine.advanceAll [] before).closing tok = some c → tree.declaredAt (closingTags c) = some n →
    c.above ≠ [] → SameVerdicts checks tree tree' n before tok c

section Levels

variable [Rule R] {checks : OverflowChecks} {tree tree' : DescriptorTree R} {n : NodeId} {ls ls' : List Level}
  {l l' : Level} {c : ClosingElement} {r r' : RuleResults} {v v' t t' : ParserState R}

omit [Rule R] in
lemma Switched.keepsAttrs_eq (h : Switched tree tree' n) (hneeds : (tree.desc n).needs.has 0 = true) (id : NodeId)
    (hsummary : (tree.desc id).summaryNeeds = (tree'.desc id).summaryNeeds) :
    tree.keepsAttrs id = tree'.keepsAttrs id := by
  by_cases hid : id = n
  · subst hid
    simp [DescriptorTree.keepsAttrs, DescriptorNode.needAttrs, h.captured, hneeds]
  · simp [DescriptorTree.keepsAttrs, DescriptorNode.needAttrs, h.capture_eq id hid,
      h.needs_eq id 0 (by decide), hsummary]

omit [Rule R] in
lemma Switched.seesText_eq (h : Switched tree tree' n) (hneeds : (tree.desc n).needs.has 1 = true) (id : NodeId)
    (hsummary : (tree.desc id).summaryNeeds = (tree'.desc id).summaryNeeds) :
    (tree.isCapture id || tree.keepsText id) = (tree'.isCapture id || tree'.keepsText id) := by
  by_cases hid : id = n
  · subst hid
    simp [DescriptorTree.keepsText, DescriptorNode.needText, h.streaming, h.captured, hneeds]
  · simp [DescriptorTree.keepsText, DescriptorNode.needText, h.capture_eq id hid,
      h.needs_eq id 1 (by decide), hsummary]

lemma NoDeclaredChild.of_viewed (hwf : tree.WellFormed) (hc : NoDeclaredChild tree n c) (h : Viewed tree c ls l) :
    l.id = n → declaredChildren tree n l.frame.content = [] := by
  rintro rfl
  have htags := h.tags hwf
  rw [declaredChildren_eq hwf h.contains, htags, ← h.content_eq]
  exact hc (hwf.declaredAt_eq_some.mpr ⟨h.contains, htags⟩)

/-- An element of the node without declared children shows the same data in both modes. -/
lemma Switched.view_eq (hwf : tree.WellFormed) (hwf' : tree'.WellFormed) (h : Switched tree tree' n)
    (hneeds : ∃ rule ∈ (tree.desc n).rules, DeclaresAll rule)
    (hstep : InStep tree n (closingTags c) v.contextStack v'.contextStack)
    (hclose : NodeCloses checks tree n c.spine ls l r v t)
    (hclose' : NodeCloses checks tree' n c.spine ls' l' r' v' t') (hplain : NoDeclaredChild tree n c) :
    (l.view checks tree ls).withoutSubtree = (l'.view checks tree' ls').withoutSubtree := by
  have hviewed := hclose.viewed
  have hviewed' := hclose'.viewed
  have hl := hviewed.levels_ok.last
  have hl' := hviewed'.levels_ok.last
  have hid : l.id = l'.id := hclose.id_eq.trans hclose'.id_eq.symm
  have hframe := hclose.frame_eq hclose'
  have hn : tree.declaredAt (tagsOf c.spine) = some n := by
    rw [tagsOf_spine, hwf.declaredAt_eq_some, ← hviewed.tags hwf, ← hclose.id_eq]
    exact ⟨hviewed.contains, rfl⟩
  rw [← tagsOf_spine] at hstep
  obtain ⟨hcontexts, hindex⟩ := hstep.ends hwf hn hclose hclose'
  have hlen : ls.length = ls'.length := by simpa using congrArg List.length hcontexts
  obtain ⟨rule, hrule, hattrs, htext, -⟩ := hneeds
  rw [NodeNeeds.contains_attrs] at hattrs
  rw [NodeNeeds.contains_text] at htext
  have hkeeps := needs_of_rule hwf h.contains_node hrule hattrs
  have hsees := needs_of_rule hwf h.contains_node hrule htext
  have hsummary := h.summaryNeeds_eq hwf hwf' hl.contains
  have hpath : (tree.desc l.id).fullPath = (tree'.desc l'.id).fullPath := by rw [h.path_eq, hid]
  refine (sameData_iff hl hl' hlen ?_ ?_).mpr ⟨hindex, ?_⟩
  · rw [hviewed.tag_eq hwf, hviewed'.tag_eq hwf']
  · rw [hviewed.path_eq hwf, hviewed'.path_eq hwf']
  constructor
  case attrs_eq => rw [seenAttrs, seenAttrs, ← hid, ← hframe, h.keepsAttrs_eq hkeeps l.id hsummary]
  case text_eq => rw [seenText, seenText, ← hid, ← hframe, h.seesText_eq hsees l.id hsummary]
  case children_eq =>
    -- neither mode has left a summary
    have hcaptured : tree'.isCapture l'.id = true := by rw [hclose'.id_eq, h.captured]
    have hchildren := hl.children
    rw [summarizedChildren_streaming (by rw [hclose.id_eq, h.streaming]), hclose.id_eq,
      hplain.of_viewed hwf hviewed hclose.id_eq] at hchildren
    rw [hl'.capture_children hcaptured, List.forall₂_nil_left_iff.mp hchildren]
  case frames =>
    rw [hcontexts]
    exact ⟨rfl, fun level ctx ctx' _ _ hctx hctx' => by
      obtain rfl := Option.some.inj (hctx.symm.trans hctx')
      exact ⟨fun _ => rfl, rfl, rfl⟩⟩

end Levels

/-! ### Independence of the mode -/

section Independence

variable [Rule R] {checks : OverflowChecks} {tree tree' : DescriptorTree R} {n : NodeId} {before : List Event}
  {tok : Event} {c : ClosingElement} {ls ls' : List Level} {l l' : Level} {r r' : RuleResults}
  {s s' t t' v v' : ParserState R}

/-- An element of the node is viewed at a level of the node. -/
lemma Evaluates.viewed (hwf : tree.WellFormed) {c : ClosingElement} {evals : List (Evaluation R)}
    (h : Evaluates checks tree c evals) (hn : tree.evaluatedAt (closingTags c) = some n) :
    ∃ ls l, Viewed tree c ls l ∧ l.id = n ∧
      evals = evaluationsOn (l.view checks tree ls) (tree.desc n).rules := by
  cases h with
  | undeclared hnone => rw [hn] at hnone; cases hnone
  | declared ls l hviewed =>
    obtain rfl := Option.some.inj ((hviewed.evaluatedAt hwf).symm.trans hn)
    exact ⟨ls, l, hviewed, rfl, rfl⟩

/-- Where the observations are the same, no declared child is summarized in either mode. -/
lemma Switched.noDeclaredChild (hwf : tree.WellFormed) (hwf' : tree'.WellFormed)
    (h : Switched tree tree' n) (hneeds : ∃ rule ∈ (tree.desc n).rules, DeclaresAll rule)
    {c : ClosingElement} {evals evals' : List (Evaluation R)} (hevals : Evaluates checks tree c evals)
    (hevals' : Evaluates checks tree' c evals') (hsame : List.Forall₂ SameObservation evals evals') :
    NoDeclaredChild tree n c := by
  intro hn
  obtain ⟨hat, hat'⟩ := h.evaluatedAt_eq hwf hwf' hn
  obtain ⟨ls, l, hviewed, rfl, rfl⟩ := hevals.viewed hwf hat
  obtain ⟨ls', l', hviewed', hid, rfl⟩ := hevals'.viewed hwf' hat'
  obtain ⟨rule, hrule, hall⟩ := hneeds
  rw [evaluationsOn, evaluationsOn, ← h.rules_eq, List.forall₂_map_left_iff, List.forall₂_map_right_iff,
    List.forall₂_same] at hsame
  have hviews := congrArg NodeAccess.childrenSummaries ((hsame rule hrule).view_eq hall)
  change (l.view checks tree ls).childrenSummaries = (l'.view checks tree' ls').childrenSummaries at hviews
  rw [hviewed.levels_ok.last.view_children, hviewed'.levels_ok.last.view_children,
    hviewed'.levels_ok.last.capture_children (by rw [hid, h.captured])] at hviews
  have hchildren := hviewed.levels_ok.last.children
  rw [summarizedChildren_streaming h.streaming, hviews] at hchildren
  rw [hviewed.content_eq, ← hviewed.tags hwf, ← declaredChildren_eq hwf hviewed.contains]
  exact List.forall₂_nil_right_iff.mp hchildren

/-- The rules of the node are evaluated on the view of its level. -/
lemma NodeCloses.evaluationsAt_eq (hwf : tree.WellFormed) (h : NodeCloses checks tree n c.spine ls l r v t)
    (hrun : eventLoop checks tree (before.map .ok) .init = .next s) (hstep : step checks tree tok s = .next t)
    (hout : v.out = s.out) : evaluationsAt checks tree before tok =
      evaluationsOn (l.view checks tree ls) (tree.desc n).rules :=
  evaluationsAt_of_out hwf hrun hstep (by rw [h.out_eq, hout])

/-- Its summary is left to the element around it. -/
lemma NodeCloses.summaryAt_eq (h : NodeCloses checks tree n c.spine ls l r v t)
    (hrun : eventLoop checks tree (before.map .ok) .init = .next s) (hstep : step checks tree tok s = .next t) :
    summaryAt checks tree before tok =
      if c.above = [] then none else some (summaryOf tree l.ctx l.frame.label l.frame.content r) := by
  have hnext := run_snoc hrun hstep
  rw [summaryAt, hnext]
  dsimp only
  rw [h.contexts_eq, h.viewed.above_eq]
  rcases List.eq_nil_or_concat' ls with rfl | ⟨ls, p, rfl⟩
  · rfl
  · simp [pushSummary]

/-- The event of a parse at which an element of node `n` closes: the run up to it, and the end of the element. -/
lemma closes_of_ok (hwf : tree.WellFormed) {after : List Event}
    (hok : (parseFile checks tree ((before ++ tok :: after).map .ok)).result = .ok ())
    (hclosing : (Spine.advanceAll [] before).closing tok = some c)
    (hat : tree.evaluatedAt (closingTags c) = some n) :
    ∃ s v t ls l r, eventLoop checks tree (before.map .ok) .init = .next s ∧ step checks tree tok s = .next t ∧
      v.out = s.out ∧ ClosesAt checks tree before tok c v t ∧ NodeCloses checks tree n c.spine ls l r v t := by
  obtain ⟨s, t, hrun, hnext⟩ := run_before hok
  obtain ⟨v, hends, hout⟩ := closesAt hwf hrun hnext hclosing
  obtain ⟨ls, l, r, hclose⟩ := hends.nodeCloses hwf hat
  exact ⟨s, v, t, ls, l, r, hrun, hnext, hout, hends, hclose⟩

variable (hwf : tree.WellFormed) (hwf' : tree'.WellFormed) (h : Switched tree tree' n)

include hwf hwf' h

/-- Rules that do not look at the subtree of an element without declared children do the same in both modes. -/
lemma Switched.sameVerdicts (hneeds : ∃ rule ∈ (tree.desc n).rules, DeclaresAll rule)
    (hblind : ∀ rule ∈ (tree.desc n).rules, IgnoresSubtree rule) {after : List Event}
    (hok : (parseFile checks tree ((before ++ tok :: after).map .ok)).result = .ok ())
    (hok' : (parseFile checks tree' ((before ++ tok :: after).map .ok)).result = .ok ())
    (hclosing : (Spine.advanceAll [] before).closing tok = some c)
    (hstep : InStep tree n (closingTags c) (framesAtEnd checks tree before tok)
      (framesAtEnd checks tree' before tok))
    (hn : tree.declaredAt (closingTags c) = some n) (hplain : NoDeclaredChild tree n c) :
    SameVerdicts checks tree tree' n before tok c := by
  obtain ⟨hdeclared, hdeclared'⟩ := h.evaluatedAt_eq hwf hwf' hn
  obtain ⟨_, v, _, ls, l, r, -, -, -, hat, hclose⟩ := closes_of_ok hwf hok hclosing hdeclared
  obtain ⟨_, v', _, ls', l', r', -, -, -, hat', hclose'⟩ := closes_of_ok hwf' hok' hclosing hdeclared'
  rw [← hat.contexts_eq, ← hat'.contexts_eq] at hstep
  have hview := h.view_eq hwf hwf' hneeds hstep hclose hclose' hplain
  have hresults := hclose.results_eq
  rw [ruleResultsOf_congr checks fun rule hrule => hblind rule hrule _ _ hview, h.rules_eq,
    hclose'.results_eq, Except.ok.injEq] at hresults
  exact (h.results_eq hat hat' hclose hclose').mpr hresults.symm

/-- Where the runs are in step and no declared child is inside, the rules of the node observe the same. -/
lemma Switched.observations
    (hplain : (∃ rule ∈ (tree.desc n).rules, DeclaresAll rule) → NoDeclaredChild tree n c)
    (hstep : InStep tree n (closingTags c) v.contextStack v'.contextStack)
    (hclose : NodeCloses checks tree n c.spine ls l r v t)
    (hclose' : NodeCloses checks tree' n c.spine ls' l' r' v' t') :
    List.Forall₂ SameObservation (evaluationsOn (l.view checks tree ls) (tree.desc n).rules)
      (evaluationsOn (l'.view checks tree' ls') (tree'.desc n).rules) := by
  rw [evaluationsOn, evaluationsOn, ← h.rules_eq, List.forall₂_map_left_iff, List.forall₂_map_right_iff,
    List.forall₂_same]
  intro rule hrule
  have hview : DeclaresAll rule → _ := fun hall =>
    h.view_eq hwf hwf' ⟨rule, hrule, hall⟩ hstep hclose hclose' (hplain ⟨rule, hrule, hall⟩)
  exact ⟨rfl, hview, fun hall hignores => hignores _ _ (hview hall)⟩

/-- Where the runs are in step, the summaries that an element of the node leaves differ at most in the results. -/
lemma Switched.summaries_eq (hstep : InStep tree n (closingTags c) v.contextStack v'.contextStack)
    (hn : tree.declaredAt (closingTags c) = some n) (hclose : NodeCloses checks tree n c.spine ls l r v t)
    (hclose' : NodeCloses checks tree' n c.spine ls' l' r v' t') :
    summaryOf tree l.ctx l.frame.label l.frame.content r =
      summaryOf tree' l'.ctx l'.frame.label l'.frame.content r := by
  rw [← tagsOf_spine] at hstep hn
  have hl := hclose.tracks.levels_ok.last
  have hl' := hclose'.tracks.levels_ok.last
  rw [← hclose.frame_eq hclose']
  refine h.summaryOf_eq hwf hwf' (by rw [hl.descriptorId_eq]; exact hl.contains) ?_
    (hstep.ends hwf hn hclose hclose').2 _ r
  rw [hl.descriptorId_eq, hl'.descriptorId_eq, hclose.id_eq, hclose'.id_eq]

/-- Where the rules of the node set the same bits for the parents, nothing else tells the modes apart. -/
lemma Switched.modeIndependent {ts : List Event} (hok : (parseFile checks tree (ts.map .ok)).result = .ok ())
    (hok' : (parseFile checks tree' (ts.map .ok)).result = .ok ())
    (hchildless : (∃ rule ∈ (tree.desc n).rules, DeclaresAll rule) →
      ∀ c ∈ Spine.closings [] ts, NoDeclaredChild tree n c)
    (hsame : ∀ before tok after c, ts = before ++ tok :: after →
      (Spine.advanceAll [] before).closing tok = some c → tree.declaredAt (closingTags c) = some n →
      c.above ≠ [] →
      InStep tree n (closingTags c) (framesAtEnd checks tree before tok) (framesAtEnd checks tree' before tok) →
      SameVerdicts checks tree tree' n before tok c) :
    ModeIndependent checks tree tree' n ts := by
  rintro before tok after c rfl hclosing hn
  obtain ⟨hdeclared, hdeclared'⟩ := h.evaluatedAt_eq hwf hwf' hn
  obtain ⟨s, v, t, ls, l, r, hrun, hnext, hv, hat, hclose⟩ := closes_of_ok hwf hok hclosing hdeclared
  obtain ⟨s', v', t', ls', l', r', hrun', hnext', hv', hat', hclose'⟩ :=
    closes_of_ok hwf' hok' hclosing hdeclared'
  have hends := h.inStep_atEnd hwf hwf' hrun hrun' (h.run_inStep hwf hwf' _ rfl hrun hrun' hsame) hclosing
  have hstep := hends
  rw [← hat.contexts_eq, ← hat'.contexts_eq] at hstep
  rw [hclose.evaluationsAt_eq hwf hrun hnext hv, hclose'.evaluationsAt_eq hwf' hrun' hnext' hv',
    hclose.summaryAt_eq hrun hnext, hclose'.summaryAt_eq hrun' hnext']
  constructor
  · refine h.observations hwf hwf' (fun hneeds => hchildless hneeds c ?_) hstep hclose hclose'
    exact Spine.mem_closings.mpr ⟨before, tok, after, rfl, hclosing⟩
  · split
    case isTrue => rfl
    case isFalse habove =>
      have hverdicts := hsame before tok after c rfl hclosing hn habove hends
      obtain rfl := (h.results_eq hat hat' hclose hclose').mp hverdicts
      rw [h.summaries_eq hwf hwf' hstep hn hclose hclose']

/-- The summaries that are left to the parents show where the rules of the node set the same bits. -/
lemma Switched.modeBlind {ts : List Event} (hok : (parseFile checks tree (ts.map .ok)).result = .ok ())
    (hok' : (parseFile checks tree' (ts.map .ok)).result = .ok ())
    (hsame : ModeIndependent checks tree tree' n ts) : ModeBlind checks tree tree' n ts := by
  constructor
  case childless =>
    intro hneeds c hc hn
    obtain ⟨before, tok, after, rfl, hclosing⟩ := Spine.mem_closings.mp hc
    obtain ⟨s, t, hrun, hnext⟩ := run_before hok
    obtain ⟨s', t', hrun', hnext'⟩ := run_before hok'
    have hevals := evaluationsAt_evaluates hwf hrun hnext hclosing
    have hevals' := evaluationsAt_evaluates hwf' hrun' hnext' hclosing
    exact h.noDeclaredChild hwf hwf' hneeds hevals hevals' (hsame before tok after c rfl hclosing hn).1 hn
  case verdicts =>
    rintro before tok after c rfl hclosing hn habove
    obtain ⟨hdeclared, hdeclared'⟩ := h.evaluatedAt_eq hwf hwf' hn
    obtain ⟨s, v, t, ls, l, r, hrun, hnext, -, hat, hclose⟩ := closes_of_ok hwf hok hclosing hdeclared
    obtain ⟨s', v', t', ls', l', r', hrun', hnext', -, hat', hclose'⟩ :=
      closes_of_ok hwf' hok' hclosing hdeclared'
    have hsummaries := (hsame before tok after c rfl hclosing hn).2
    rw [hclose.summaryAt_eq hrun hnext, hclose'.summaryAt_eq hrun' hnext', if_neg habove,
      if_neg habove, Option.some.injEq] at hsummaries
    exact (h.results_eq hat hat' hclose hclose').mpr (congrArg ChildSummary.ruleResults hsummaries)

end Independence

/-- The rules of a node are independent of its access mode exactly when nothing tells the modes apart. For
rules that do not look at the subtree that is so when no element of the node has a declared child. -/
theorem modeIndependent_iff [Rule R] (t t' : BuiltTree R) (n : NodeId) (hswitch : SwitchedMode t t' n)
    (checks : OverflowChecks) (ts : List Event)
    (hok : (parseFile checks t.tree (ts.map .ok)).result = .ok ())
    (hok' : (parseFile checks t'.tree (ts.map .ok)).result = .ok ()) :
    (ModeIndependent checks t.tree t'.tree n ts ↔ ModeBlind checks t.tree t'.tree n ts) ∧
      ((∃ rule ∈ (t.tree.desc n).rules, DeclaresAll rule) →
        (∀ rule ∈ (t.tree.desc n).rules, IgnoresSubtree rule) →
        (ModeIndependent checks t.tree t'.tree n ts ↔
          ∀ c ∈ Spine.closings [] ts, NoDeclaredChild t.tree n c)) := by
  have hwf := t.wellFormed
  have hwf' := t'.wellFormed
  have h := hswitch.switched
  refine ⟨⟨h.modeBlind hwf hwf' hok hok', fun hblind => ?_⟩, fun hneeds hignores => ⟨fun hsame => ?_, ?_⟩⟩
  · refine h.modeIndependent hwf hwf' hok hok' hblind.childless ?_
    exact fun before tok after c hts hc hn habove _ => hblind.verdicts before tok after c hts hc hn habove
  · exact (h.modeBlind hwf hwf' hok hok' hsame).childless hneeds
  · intro hplain
    refine h.modeIndependent hwf hwf' hok hok' (fun _ => hplain) ?_
    rintro before tok after c rfl hclosing hn - hstep
    have hc := Spine.mem_closings.mpr ⟨before, tok, after, rfl, hclosing⟩
    exact h.sameVerdicts hwf hwf' hneeds hignores hok hok' hclosing hstep hn (hplain c hc)

/-! ### A box with a declared child -/

/-- A list of boxes with a rule, whose items are declared. -/
def streamedBoxTree : BuiltTree Probe :=
  (BuiltTree.ofCalls? "list" [.node "box", .rule ⟨.all, true⟩, .node "item", .done, .done]).get
    (by decide +kernel)

/-- The same tree with captured boxes. -/
def capturedBoxTree : BuiltTree Probe :=
  (BuiltTree.ofCalls? "list" [.node "box", .captureSubtree, .rule ⟨.all, true⟩, .node "item", .done,
    .done]).get (by decide +kernel)

lemma switchedMode_box : SwitchedMode streamedBoxTree capturedBoxTree ⟨1⟩ := ⟨_, rfl, rfl, rfl⟩

lemma declaresAll_box : ∃ rule ∈ (streamedBoxTree.tree.desc ⟨1⟩).rules, DeclaresAll rule :=
  ⟨⟨.all, true⟩, List.mem_singleton.mpr rfl, by decide, by decide, by decide⟩

lemma Probe.ignoresSubtree (rule : Probe) : IgnoresSubtree rule := by
  intro view view' h
  have htext : view.text = view'.text := by
    simpa [NodeAccess.withoutSubtree] using congrArg NodeAccess.text h
  have hpath : view.path = view'.path := by
    simpa [NodeAccess.withoutSubtree] using congrArg NodeAccess.path h
  simp only [Rule.evaluate, htext, hpath]

/-- A box with an item. -/
def boxDocument : Content :=
  .element (tagNamed "list" []) (.element (tagNamed "box" [])
    (.element (tagNamed "item" []) .nil .nil) .nil) .nil

/-- The rule of the box sees the summary of the item in one mode only. -/
theorem not_modeIndependent :
    (parseFile .checked streamedBoxTree.tree (boxDocument.tokens.map .ok)).result = .ok () ∧
      (parseFile .checked capturedBoxTree.tree (boxDocument.tokens.map .ok)).result = .ok () ∧
      ¬ ModeIndependent .checked streamedBoxTree.tree capturedBoxTree.tree ⟨1⟩ boxDocument.tokens := by
  refine ⟨rfl, rfl, fun h => ?_⟩
  let before : List Event := boxDocument.tokens.take 4
  have hsame := (h before .close (boxDocument.tokens.drop 5) _ rfl rfl (by decide +kernel)).1
  have hone : (evaluationsAt .checked streamedBoxTree.tree before .close).map
      (fun e => (e.rule.needs, e.view.childrenSummaries.length)) = [(.all, 1)] := by decide +kernel
  have hzero : (evaluationsAt .checked capturedBoxTree.tree before .close).map
      (fun e => e.view.childrenSummaries.length) = [0] := by decide +kernel
  generalize evaluationsAt .checked streamedBoxTree.tree before .close = evals at hsame hone
  generalize evaluationsAt .checked capturedBoxTree.tree before .close = evals' at hsame hzero
  cases hsame with
  | nil => cases hone
  | @cons e e' _ _ hfirst _ =>
    simp only [List.map_cons, List.cons.injEq, Prod.mk.injEq] at hone hzero
    have hall : DeclaresAll e.rule := by
      have hneeds : Rule.needs e.rule = .all := hone.1.1
      rw [DeclaresAll, hneeds]
      decide
    have hchildren := congrArg (fun view => view.childrenSummaries.length) (hfirst.view_eq hall)
    simp only [NodeAccess.withoutSubtree, hone.1.2, hzero.1] at hchildren
    cases hchildren

/-- A box with an undeclared child. -/
def plainBoxDocument : Content :=
  .element (tagNamed "list" []) (.element (tagNamed "box" [("k", "1")])
    (.leaf (textNamed "a") (.element (tagNamed "note" []) .nil .nil)) .nil) .nil

/-- The modes of such a box are not told apart. -/
theorem modeIndependent_iff_sample :
    ModeIndependent .checked streamedBoxTree.tree capturedBoxTree.tree ⟨1⟩ plainBoxDocument.tokens ∧
      ModeBlind .checked streamedBoxTree.tree capturedBoxTree.tree ⟨1⟩ plainBoxDocument.tokens := by
  obtain ⟨hblind, hplain⟩ := modeIndependent_iff streamedBoxTree capturedBoxTree ⟨1⟩ switchedMode_box .checked
    plainBoxDocument.tokens rfl rfl
  have hsame := (hplain declaresAll_box fun rule _ => rule.ignoresSubtree).mpr (by
    unfold NoDeclaredChild
    decide +kernel)
  exact ⟨hsame, hblind.mp hsame⟩

end XmlOxydizer
