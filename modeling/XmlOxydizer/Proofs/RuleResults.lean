import XmlOxydizer.Proofs.Endings

/-!
# The results of many rules

The results of an element tell the verdict of every rule as long as there are at most 64 of them. Beyond
that a build with overflow checks ends in a panic, and one without them lets rules share a bit.
-/

namespace XmlOxydizer

open Markup

variable {R : Type} [Rule R]

/-- The results tell the verdicts of these rules, rule by rule and for every number of first rules. -/
structure FaithfulResults (checks : OverflowChecks) (view : NodeAccess) (rules : List R)
    (results : RuleResults) : Prop where
  get_eq : ∀ i rule, rules[i]? = some rule →
    results.get checks i = .ok (decide (Passes view rule))
  allPassed_iff : ∀ count ≤ rules.length,
    results.allPassed count = true ↔ ∀ rule ∈ rules.take count, Passes view rule

/-- Rules whose positions are equal modulo 64 have the same verdict. -/
def SharedBitsAgree (view : NodeAccess) (rules : List R) : Prop :=
  ∀ i j rule rule', rules[i]? = some rule → rules[j]? = some rule' → i % 64 = j % 64 →
    (Passes view rule ↔ Passes view rule')

/-- The word has room for the verdicts of these rules. -/
def VerdictsFit (view : NodeAccess) (rules : List R) : OverflowChecks → Prop
  | .checked => rules.length ≤ 64
  | .wrapping => SharedBitsAgree view rules

section

variable {checks : OverflowChecks} {view : NodeAccess} {rules : List R} {results : RuleResults}

lemma sharedBitsAgree_of_fit (h : VerdictsFit view rules checks) : SharedBitsAgree view rules := by
  cases checks with
  | wrapping => exact h
  | checked =>
    intro i j rule rule' hi hj hij
    change rules.length ≤ 64 at h
    have hlti := (List.getElem?_eq_some_iff.mp hi).1
    have hltj := (List.getElem?_eq_some_iff.mp hj).1
    obtain rfl : i = j := by omega
    obtain rfl := Option.some.inj (hi.symm.trans hj)
    exact Iff.rfl

lemma shiftAmount_of_fit (h : VerdictsFit view rules checks) {i : ℕ} (hi : i < rules.length) :
    shiftAmount checks i = .ok (i % 64) := by
  refine RuleResults.shiftAmount_of_lt fun hchecked => ?_
  subst hchecked
  exact hi.trans_le h

/-- Where rules that share a bit agree, the bit is the verdict of each of them. -/
lemma SharedBitsAgree.has_iff (h : SharedBitsAgree view rules)
    (hresults : ruleResultsOf checks view rules = .ok results) {i : ℕ} {rule : R}
    (hi : rules[i]? = some rule) : results.has (i % 64) = true ↔ Passes view rule := by
  rw [has_ruleResultsOf hresults]
  constructor
  · rintro ⟨m, rule', hm, hpass, hmi⟩
    exact (h m i rule' rule hm hi hmi).mp hpass
  · exact fun hpass => ⟨i, rule, hi, hpass, rfl⟩

/-- The results are faithful exactly when the word has room for the verdicts. -/
theorem faithfulResults_iff (hresults : ruleResultsOf checks view rules = .ok results) :
    FaithfulResults checks view rules results ↔ VerdictsFit view rules checks := by
  constructor
  · intro h
    cases checks with
    | checked =>
      by_contra hlen
      change ¬ rules.length ≤ 64 at hlen
      have hget := h.get_eq 64 rules[64] (List.getElem?_eq_getElem (by omega))
      cases hget
    | wrapping =>
      intro i j rule rule' hi hj hij
      have hshift : ∀ k, shiftAmount .wrapping k = .ok (k % 64) := fun k =>
        RuleResults.shiftAmount_of_lt fun hchecked => by cases hchecked
      have hgeti := (RuleResults.get_eq results (hshift i)).symm.trans (h.get_eq i rule hi)
      have hgetj := (RuleResults.get_eq results (hshift j)).symm.trans (h.get_eq j rule' hj)
      rw [hij] at hgeti
      simpa using (Except.ok.inj hgeti).symm.trans (Except.ok.inj hgetj)
  · intro h
    have hagree := sharedBitsAgree_of_fit h
    constructor
    case get_eq =>
      intro i rule hi
      rw [RuleResults.get_eq results (shiftAmount_of_fit h (List.getElem?_eq_some_iff.mp hi).1)]
      rw [Except.ok.injEq, ← Bool.coe_iff_coe, hagree.has_iff hresults hi, decide_eq_true_eq]
    case allPassed_iff =>
      intro count hcount
      rw [RuleResults.allPassed_iff]
      constructor
      · intro hbits rule hrule
        obtain ⟨i, hi⟩ := List.mem_iff_getElem?.mp hrule
        rw [List.getElem?_take] at hi
        split at hi
        case isFalse => cases hi
        case isTrue hlt =>
          have hle := Nat.mod_le i 64
          have hmod := Nat.mod_lt i (show 0 < 64 by decide)
          exact (hagree.has_iff hresults hi).mp (hbits (i % 64) (by omega) hmod)
      · intro hpass j hj hlt
        have hrule : rules[j]? = some rules[j] := List.getElem?_eq_getElem (by omega)
        have hmem : rules[j] ∈ rules.take count :=
          List.mem_iff_getElem?.mpr ⟨j, by rw [List.getElem?_take, if_pos hj, hrule]⟩
        have hbit := (hagree.has_iff hresults hrule).mpr (hpass _ hmem)
        rwa [Nat.mod_eq_of_lt hlt] at hbit

end

/-! ### The results of an element -/

/-- The end of an element does not panic, and the summary that it leaves to the element around it
tells the verdicts of its rules. -/
def LeavesFaithfulResults (checks : OverflowChecks) (c : ClosingElement) (view : NodeAccess)
    (rules : List R) (r : Flow R) : Prop :=
  ∃ s', r = .next s' ∧ (c.above ≠ [] → ∃ summary, s'.lastSummary = some summary ∧
    FaithfulResults checks view rules summary.ruleResults)

/-- What the verdicts have to satisfy. The root leaves no summary, so that it only must not panic. -/
def ResultsFit (checks : OverflowChecks) (c : ClosingElement) (view : NodeAccess) (rules : List R) : Prop :=
  if c.above = [] then checks = .checked → ∀ i rule, rules[i]? = some rule → 64 ≤ i → ¬ Passes view rule
  else VerdictsFit view rules checks

/-- The rules of an element are evaluated on the view of its level, and what they report there decides
whether its results are faithful. -/
theorem leavesFaithfulResults_iff (t : BuiltTree R) (checks : OverflowChecks) (c : ClosingElement)
    (s : ParserState R) (hend : EndsIn checks t.tree c s) (id : NodeId)
    (hid : t.tree.evaluatedAt (closingTags c) = some id) :
    ∃ ls l, Viewed t.tree c ls l ∧ s.contextStack = (ls ++ [l]).map Level.ctx ∧
      let view := l.view checks t.tree ls
      let rules := (t.tree.desc id).rules
      let r := handleEnd checks t.tree s
      (∃ done, r.out.evaluated = s.out.evaluated ++ done ∧ done <+: evaluationsOn view rules) ∧
        (LeavesFaithfulResults checks c view rules r ↔ ResultsFit checks c view rules) := by
  have hwf := t.wellFormed
  obtain ⟨ls, l, rfl, hviewed, htracks⟩ := hend.level hwf hid
  have hlevel := htracks.ends checks
  have hls : c.above = [] ↔ ls = [] := by rw [hviewed.above_eq, List.map_eq_nil_iff]
  refine ⟨ls, l, hviewed, htracks.contextStack_eq, ?_⟩
  dsimp only
  generalize handleEnd checks t.tree s = r at hlevel ⊢
  refine ⟨hlevel.evaluated, ?_⟩
  cases hlevel with
  | next s' summary hout hsummary =>
    by_cases habove : c.above = []
    · have hok := ruleResultsOf_ok_iff.mp ⟨_, hsummary.results_eq⟩
      rw [ResultsFit, if_pos habove]
      exact iff_of_true ⟨s', rfl, fun hne => absurd habove hne⟩ hok
    · have hlast := hsummary.last htracks (mt hls.mpr habove)
      rw [ResultsFit, if_neg habove, ← faithfulResults_iff hsummary.results_eq]
      constructor
      · rintro ⟨s'', hs'', hsome⟩
        obtain rfl := Flow.next.inj hs''
        obtain ⟨summary', hsummary', hfaithful⟩ := hsome habove
        obtain rfl := Option.some.inj (hlast.symm.trans hsummary')
        exact hfaithful
      · exact fun hfaithful => ⟨s', rfl, fun _ => ⟨summary, hlast, hfaithful⟩⟩
  | overflow done hchecked hdone hresults =>
    refine iff_of_false ?_ fun hfit => ?_
    · rintro ⟨s', hs', -⟩
      cases hs'
    · -- verdicts that fit do not panic
      have hok : ∃ results, ruleResultsOf checks (l.view checks t.tree ls) (t.tree.desc l.id).rules =
          .ok results := by
        rw [ruleResultsOf_ok_iff]
        unfold ResultsFit at hfit
        split at hfit
        case isTrue => exact hfit
        case isFalse =>
          subst hchecked
          intro _ i rule hi hle
          have hlt := (List.getElem?_eq_some_iff.mp hi).1
          change _ ≤ 64 at hfit
          omega
      obtain ⟨results, hok⟩ := hok
      rw [hresults] at hok
      cases hok

/-! ### An item with 65 rules -/

/-- A list whose items have 65 rules, of which the last one alone has nothing to report. -/
def crowdedTree : BuiltTree Probe :=
  (BuiltTree.ofCalls? "list" (.node "item" :: List.replicate 64 (.rule ⟨.empty, true⟩) ++
    [.rule ⟨.empty, false⟩])).get (by decide +kernel)

/-- The first tokens of a list, up to the start of its item. -/
def crowdedBefore : List Event := [.start (tagNamed "list" []), .start (tagNamed "item" [])]

def crowdedItem : ClosingElement where
  above := [⟨tagNamed "list" [], .nil⟩]
  label := tagNamed "item" []
  content := .nil

/-- Without overflow checks the first rule, which reports, counts as passed. With them the last rule,
which has nothing to report, ends the run in a panic. -/
theorem ruleResults_not_faithful :
    crowdedTree.tree.evaluatedAt (closingTags crowdedItem) = some ⟨1⟩ ∧
    (∃ rule, (crowdedTree.tree.desc ⟨1⟩).rules[0]? = some rule ∧ ∀ view, ¬ Passes view rule) ∧
    (∃ s s' summary, EndsIn .wrapping crowdedTree.tree crowdedItem s ∧
      handleEnd .wrapping crowdedTree.tree s = .next s' ∧ s'.lastSummary = some summary ∧
      summary.ruleResults.get .wrapping 0 = .ok true) ∧
    ∃ s out, EndsIn .checked crowdedTree.tree crowdedItem s ∧
      handleEnd .checked crowdedTree.tree s = .stop (.panic .shlOverflow) out := by
  refine ⟨by decide +kernel, ⟨⟨.empty, true⟩, rfl, fun view hpass => by cases hpass⟩, ?_, ?_⟩
  · exact ⟨_, _, _, .close crowdedBefore rfl rfl, rfl, rfl, rfl⟩
  · exact ⟨_, _, .close crowdedBefore rfl rfl, rfl⟩

/-- A list whose items have three rules, of which the second has nothing to report. -/
def threeRulesTree : BuiltTree Probe :=
  (BuiltTree.ofCalls? "list" [.node "item", .rule ⟨.empty, true⟩, .rule ⟨.empty, false⟩, .rule ⟨.empty, true⟩]).get
    (by decide +kernel)

/-- The results of three rules are faithful. -/
theorem leavesFaithfulResults_iff_sample :
    ∃ s, EndsIn .checked threeRulesTree.tree crowdedItem s ∧
      ∃ ls l, Viewed threeRulesTree.tree crowdedItem ls l ∧ s.contextStack = (ls ++ [l]).map Level.ctx ∧
        let view := l.view .checked threeRulesTree.tree ls
        let rules := (threeRulesTree.tree.desc ⟨1⟩).rules
        let r := handleEnd .checked threeRulesTree.tree s
        rules.length = 3 ∧
          (∃ done, r.out.evaluated = s.out.evaluated ++ done ∧ done <+: evaluationsOn view rules) ∧
          LeavesFaithfulResults .checked crowdedItem view rules r := by
  have hend : EndsIn .checked threeRulesTree.tree crowdedItem _ := .close crowdedBefore rfl rfl
  obtain ⟨ls, l, hviewed, hcontexts, hdone, hfaithful⟩ :=
    leavesFaithfulResults_iff threeRulesTree .checked crowdedItem _ hend ⟨1⟩ (by decide +kernel)
  have hlength : (threeRulesTree.tree.desc ⟨1⟩).rules.length = 3 := by decide +kernel
  refine ⟨_, hend, ls, l, hviewed, hcontexts, hlength, hdone, hfaithful.mpr ?_⟩
  rw [ResultsFit, if_neg (show crowdedItem.above ≠ [] from List.cons_ne_nil _ _)]
  exact hlength.trans_le (by decide)

end XmlOxydizer
