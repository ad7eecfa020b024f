import XmlOxydizer.Proofs.Evaluation

/-!
# The bits of the rule results

The results of the rules of an element are one bit each in a 64-bit word. A rule sets the bit at its
position modulo 64 when it has nothing to report. In a build with overflow checks such a rule beyond the
64th is a panic.
-/

namespace XmlOxydizer

namespace RuleResults

/-- Bit `j` of the results. -/
def has (r : RuleResults) (j : ℕ) : Bool := r.bits.toNat.testBit j

@[simp] lemma has_empty (j : ℕ) : empty.has j = false := by
  change (0 : ℕ).testBit j = false
  exact Nat.zero_testBit j

lemma ext_has {r r' : RuleResults} (h : ∀ j, r.has j = r'.has j) : r = r' := by
  obtain ⟨bits⟩ := r
  obtain ⟨bits'⟩ := r'
  rw [RuleResults.mk.injEq, ← UInt64.toNat_inj]
  exact Nat.eq_of_testBit_eq h

lemma toNat_shift {i : ℕ} (hi : i < 64) : (1 <<< UInt64.ofNat i : UInt64).toNat = 2 ^ i := by
  have hamount : (UInt64.ofNat i).toNat = i := UInt64.toNat_ofNat_of_lt (by simp [UInt64.size]; omega)
  have hpow : 2 ^ i < 2 ^ 64 := Nat.pow_lt_pow_right (by decide) hi
  rw [UInt64.toNat_shiftLeft, hamount, Nat.mod_eq_of_lt hi, Nat.shiftLeft_eq]
  simp
  omega

lemma shiftAmount_eq {checks : OverflowChecks} {i a : ℕ} (h : shiftAmount checks i = .ok a) :
    a = i % 64 ∧ (checks = .checked → i < 64) := by
  unfold shiftAmount at h
  split at h
  case isTrue hi =>
    cases h
    exact ⟨(Nat.mod_eq_of_lt hi).symm, fun _ => hi⟩
  case isFalse hi =>
    cases checks with
    | checked => cases h
    | wrapping => cases h; exact ⟨rfl, fun hc => by cases hc⟩

lemma shiftAmount_of_lt {checks : OverflowChecks} {i : ℕ} (h : checks = .checked → i < 64) :
    shiftAmount checks i = .ok (i % 64) := by
  unfold shiftAmount
  by_cases hi : i < 64
  · rw [if_pos hi, Nat.mod_eq_of_lt hi]
  · rw [if_neg hi]
    cases checks with
    | checked => exact absurd (h rfl) hi
    | wrapping => rfl

lemma has_set {checks : OverflowChecks} {r r' : RuleResults} {i : ℕ} {passed : Bool}
    (h : r.set checks i passed = .ok r') {j : ℕ} :
    r'.has j = (r.has j || (passed && decide (i % 64 = j))) := by
  unfold set at h
  cases passed with
  | false =>
    cases h
    simp
  | true =>
    obtain ⟨a, ha, hr⟩ := bind_eq_ok.mp h
    cases hr
    obtain ⟨rfl, -⟩ := shiftAmount_eq ha
    have hlt : i % 64 < 64 := Nat.mod_lt _ (by decide)
    simp only [has, UInt64.toNat_or, toNat_shift hlt, Nat.testBit_or, Nat.testBit_two_pow, Bool.true_and]

lemma get_eq {checks : OverflowChecks} (r : RuleResults) {i a : ℕ} (h : shiftAmount checks i = .ok a) :
    r.get checks i = .ok (r.has a) := by
  obtain ⟨rfl, -⟩ := shiftAmount_eq h
  have hlt : i % 64 < 64 := Nat.mod_lt _ (by decide)
  have hamount : (UInt64.ofNat (i % 64)).toNat = i % 64 :=
    UInt64.toNat_ofNat_of_lt (by simp [UInt64.size]; omega)
  rw [get, h, ok_bind, except_pure, Except.ok.injEq, has, Nat.testBit, ← Bool.coe_iff_coe]
  rw [beq_iff_eq, ← UInt64.toNat_inj]
  simp [hamount, Nat.mod_eq_of_lt hlt, Nat.and_comm]

lemma toNat_mask (count : ℕ) :
    (if count ≥ 64 then 0xffffffffffffffff else (1 <<< UInt64.ofNat count) - 1 : UInt64).toNat =
      2 ^ (min count 64) - 1 := by
  by_cases h : count ≥ 64
  · rw [if_pos h, min_eq_right h]
    rfl
  · rw [if_neg h, min_eq_left (by omega)]
    have hone : (1 : UInt64) ≤ 1 <<< UInt64.ofNat count := by
      rw [UInt64.le_iff_toNat_le, toNat_shift (by omega)]
      exact Nat.one_le_two_pow
    rw [UInt64.toNat_sub_of_le _ _ hone, toNat_shift (by omega)]
    rfl

lemma allPassed_iff (r : RuleResults) (count : ℕ) :
    r.allPassed count = true ↔ ∀ j, j < count → j < 64 → r.has j = true := by
  simp only [allPassed, beq_iff_eq]
  rw [← UInt64.toNat_inj, UInt64.toNat_and, toNat_mask]
  constructor
  · intro h j hj hlt
    have hbit := congrArg (fun n => Nat.testBit n j) h
    simp only [Nat.testBit_and, Nat.testBit_two_pow_sub_one] at hbit
    have : j < min count 64 := by omega
    simpa [has, this] using hbit
  · intro h
    refine Nat.eq_of_testBit_eq fun j => ?_
    rw [Nat.testBit_and, Nat.testBit_two_pow_sub_one]
    by_cases hj : j < min count 64
    · have := h j (by omega) (by omega)
      simpa [has, hj] using this
    · simp [hj]

end RuleResults

variable {R : Type} [Rule R]

/-- The rule has nothing to report. -/
def Passes (view : NodeAccess) (rule : R) : Prop := Rule.evaluate rule view = []

instance (view : NodeAccess) (rule : R) : Decidable (Passes view rule) :=
  decidable_of_iff ((Rule.evaluate rule view).isEmpty = true) List.isEmpty_iff

section

variable {checks : OverflowChecks} {view : NodeAccess} {rules : List R} {results : RuleResults}

/-- Bit `j` is set by the passing rules whose positions are `j` modulo 64. -/
lemma has_evaluateRules {rules : List R} {i : ℕ} {acc : RuleResults} {out : Output R}
    (h : (evaluateRules checks view rules i acc out).2 = .ok results) (j : ℕ) :
    results.has j = true ↔ acc.has j = true ∨
      ∃ m rule, rules[m]? = some rule ∧ Passes view rule ∧ (i + m) % 64 = j := by
  induction rules generalizing i acc out with
  | nil =>
    obtain rfl := Except.ok.inj h
    simp
  | cons rule rules ih =>
    simp only [evaluateRules] at h
    cases hset : acc.set checks i (Rule.evaluate rule view).isEmpty with
    | error p => rw [hset] at h; cases h
    | ok next =>
      rw [hset] at h
      rw [ih h, RuleResults.has_set hset, Bool.or_eq_true, Bool.and_eq_true, decide_eq_true_eq,
        List.isEmpty_iff, or_assoc]
      refine or_congr_right ⟨?_, ?_⟩
      · rintro (⟨hpass, hj⟩ | ⟨m, rule', hm, hpass, hj⟩)
        · exact ⟨0, rule, rfl, hpass, hj⟩
        · exact ⟨m + 1, rule', hm, hpass, by rw [← hj]; congr 1; omega⟩
      · rintro ⟨m, rule', hm, hpass, hj⟩
        cases m with
        | zero =>
          obtain rfl := Option.some.inj hm
          exact .inl ⟨hpass, hj⟩
        | succ m => exact .inr ⟨m, rule', hm, hpass, by rw [← hj]; congr 1; omega⟩

lemma has_ruleResultsOf (h : ruleResultsOf checks view rules = .ok results) (j : ℕ) :
    results.has j = true ↔ ∃ m rule, rules[m]? = some rule ∧ Passes view rule ∧ m % 64 = j := by
  simpa using has_evaluateRules h j

/-- In a build with overflow checks a passing rule beyond the 64th is a panic. -/
lemma evaluateRules_ok_iff (rules : List R) (i : ℕ) (acc : RuleResults) (out : Output R) :
    (∃ results, (evaluateRules checks view rules i acc out).2 = .ok results) ↔
      (checks = .checked → ∀ m rule, rules[m]? = some rule → 64 ≤ i + m → ¬ Passes view rule) := by
  induction rules generalizing i acc out with
  | nil => simp [evaluateRules]
  | cons rule rules ih =>
    simp only [evaluateRules]
    cases hset : acc.set checks i (Rule.evaluate rule view).isEmpty with
    | error p =>
      obtain ⟨hchecked, hi, hpass, -⟩ := RuleResults.set_error hset
      refine iff_of_false (by simp) fun h => ?_
      exact h hchecked 0 rule rfl hi (List.isEmpty_iff.mp hpass)
    | ok next =>
      have hearly : checks = .checked → 64 ≤ i → ¬ Passes view rule := by
        intro hchecked hi hpass
        rw [Passes] at hpass
        rw [hpass] at hset
        obtain ⟨a, ha, -⟩ := bind_eq_ok.mp hset
        have := (RuleResults.shiftAmount_eq ha).2 hchecked
        omega
      rw [ih]
      refine forall_congr' fun hchecked => ⟨fun h m rule' hm hi => ?_, fun h m rule' hm hi => ?_⟩
      · cases m with
        | zero =>
          obtain rfl := Option.some.inj hm
          exact hearly hchecked hi
        | succ m => exact h m rule' hm (by omega)
      · exact h (m + 1) rule' hm (by omega)

lemma ruleResultsOf_ok_iff : (∃ results, ruleResultsOf checks view rules = .ok results) ↔
    (checks = .checked → ∀ i rule, rules[i]? = some rule → 64 ≤ i → ¬ Passes view rule) := by
  unfold ruleResultsOf
  rw [evaluateRules_ok_iff]
  simp

end

end XmlOxydizer
