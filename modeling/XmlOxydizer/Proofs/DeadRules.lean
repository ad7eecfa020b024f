import XmlOxydizer.Proofs.EvaluationTrace

/-!
# Rules that are never evaluated

Inside a captured element no descriptor is looked up. `build` accepts rules on the nodes below
a capture node all the same, and these rules are dead.
-/

namespace XmlOxydizer

open Markup

variable {R : Type}

/-- The calls of the rules that are declared at this path. -/
def declaredCalls (tree : DescriptorTree R) (path : List String) : List (RuleCall R) :=
  match tree.declaredAt path with
  | none => []
  | some id => (tree.desc id).rules.map fun rule =>
      { rule, path := .ok (path.map PathSegment.mk), tag := .ok (path.getLastD ""),
        depth := path.length - 1 }

/-- Whenever an element closes, each rule declared at its path is evaluated on it once. -/
def RulesHonoured [Rule R] (checks : OverflowChecks) (tree : DescriptorTree R) (ts : List Event) :
    Prop :=
  ∀ before tok after c, ts = before ++ tok :: after →
    (Spine.advanceAll [] before).closing tok = some c →
    (evaluationsAt checks tree before tok).map Evaluation.call = declaredCalls tree (closingTags c)

/-- No rule is declared at this path below a capture node. -/
def RulesReachable (tree : DescriptorTree R) (path : List String) : Prop :=
  ∀ id, tree.declaredAt path = some id → tree.belowCapture path = true → (tree.desc id).rules = []

lemma owedCalls_eq_iff (tree : DescriptorTree R) (path : List String) :
    owedCalls tree path = declaredCalls tree path ↔ RulesReachable tree path := by
  simp only [owedCalls, declaredCalls, RulesReachable, DescriptorTree.evaluatedAt]
  cases hid : tree.declaredAt path with
  | none => simp
  | some id =>
    cases hbelow : tree.belowCapture path with
    | false => simp
    | true => simp

section

variable [Rule R] {checks : OverflowChecks} {tree : DescriptorTree R}

/-- In a run that goes on, a closing element is given the calls that it is owed. -/
lemma evaluationsAt_calls (hwf : tree.WellFormed) {before : List Event} {tok : Event}
    {s s' : ParserState R} (hrun : eventLoop checks tree (before.map .ok) .init = .next s)
    (hstep : step checks tree tok s = .next s') {c : ClosingElement}
    (hc : (Spine.advanceAll [] before).closing tok = some c) :
    (evaluationsAt checks tree before tok).map Evaluation.call = owedCalls tree (closingTags c) :=
  (evaluationsAt_evaluates hwf hrun hstep hc).calls_eq hwf

/-- The run up to a token of a document that is parsed to `Ok`. -/
lemma run_before {before : List Event} {tok : Event} {after : List Event}
    (hok : (parseFile checks tree ((before ++ tok :: after).map .ok)).result = .ok ()) :
    ∃ s s', eventLoop checks tree (before.map .ok) .init = .next s ∧
      step checks tree tok s = .next s' := by
  simp only [parseFile, List.map_append, List.map_cons, eventLoop_append, eventLoop] at hok
  cases hrun : eventLoop checks tree (before.map .ok) .init with
  | stop why out => rw [hrun] at hok; cases hok
  | next s =>
    rw [hrun] at hok
    cases hstep : step checks tree tok s with
    | stop why out => simp only [Flow.bind, hstep] at hok; cases hok
    | next s' => exact ⟨s, s', rfl, hstep⟩

end

/-- In a document that is parsed to `Ok` all declared rules are evaluated exactly when no
element stands below a capture at a path with rules of its own. -/
theorem rulesHonoured_iff [Rule R] (t : BuiltTree R) (checks : OverflowChecks) (document : Content)
    (ts : List Event) (hdoc : Writes document ts)
    (hok : (parseFile checks t.tree (ts.map .ok)).result = .ok ()) :
    RulesHonoured checks t.tree ts ↔ ∀ path ∈ closingPaths document, RulesReachable t.tree path := by
  have hwf := t.wellFormed
  have hcalls : ∀ before tok after c, ts = before ++ tok :: after →
      (Spine.advanceAll [] before).closing tok = some c →
      (evaluationsAt checks t.tree before tok).map Evaluation.call =
        owedCalls t.tree (closingTags c) := by
    rintro before tok after c rfl hc
    obtain ⟨s, s', hrun, hstep⟩ := run_before hok
    exact evaluationsAt_calls hwf hrun hstep hc
  rw [← closingTags_writes hdoc]
  simp only [List.forall_mem_map, Spine.mem_closings, ← owedCalls_eq_iff]
  constructor
  · rintro h c ⟨before, tok, after, hts, hc⟩
    rw [← hcalls before tok after c hts hc, h before tok after c hts hc]
  · intro h before tok after c hts hc
    rw [hcalls before tok after c hts hc, h c ⟨before, tok, after, hts, hc⟩]

/-- A list of captured boxes whose items have a rule. -/
def deadTree : BuiltTree Probe :=
  (BuiltTree.ofCalls? "list" [.node "box", .captureSubtree, .node "item", .rule ⟨.all, true⟩, .done,
    .done]).get (by decide +kernel)

def deadDocument : Content :=
  .element (tagNamed "list" []) (.element (tagNamed "box" [])
    (.element (tagNamed "item" []) .nil .nil) .nil) .nil

/-- The tree is accepted and the document is parsed to `Ok`, but the rule of its item is not
evaluated. -/
theorem rules_not_honoured :
    (parseFile .checked deadTree.tree (deadDocument.tokens.map .ok)).result = .ok () ∧
      ¬ RulesHonoured .checked deadTree.tree deadDocument.tokens := by
  refine ⟨rfl, fun h => ?_⟩
  have hitem := h (deadDocument.tokens.take 3) .close (deadDocument.tokens.drop 4) _ rfl rfl
  have hlength := congrArg List.length hitem
  revert hlength
  decide +kernel

/-- In the sample document the rules are evaluated on all elements but the item in the box. -/
theorem rulesHonoured_iff_sample :
    RulesHonoured .checked sampleTree.tree sampleDocument.tokens ↔
      ∀ path ∈ closingPaths sampleDocument, RulesReachable sampleTree.tree path :=
  rulesHonoured_iff sampleTree .checked sampleDocument sampleDocument.tokens (writes_tokens _) rfl

end XmlOxydizer
