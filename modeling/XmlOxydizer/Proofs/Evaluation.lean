import XmlOxydizer.Reader.Parser

/-!
# Evaluating rules and buffering diagnostics

The loop over the rules of an element appends its evaluations to the log. Whatever the
flush buffer has sent or still holds is the sequence of the diagnostics that the logged
evaluations returned.
-/

namespace XmlOxydizer

variable {R : Type} [Rule R]

/-- The output after an evaluation whose diagnostics have been buffered. -/
def Output.recordOne (out : Output R) (e : Evaluation R) : Output R :=
  e.diagnostics.foldl bufferDiagnostic { out with evaluated := out.evaluated ++ [e] }

/-- The output after these evaluations. -/
def Output.record (out : Output R) (evals : List (Evaluation R)) : Output R :=
  evals.foldl Output.recordOne out

@[simp] lemma Output.record_nil (out : Output R) : out.record [] = out := rfl

lemma Output.record_cons (out : Output R) (e : Evaluation R) (evals : List (Evaluation R)) :
    out.record (e :: evals) = (out.recordOne e).record evals := rfl

lemma Output.record_append (out : Output R) (evals more : List (Evaluation R)) :
    out.record (evals ++ more) = (out.record evals).record more := by
  simp [Output.record]

omit [Rule R] in
lemma evaluated_bufferDiagnostic (out : Output R) (diag : Diagnostic) :
    (bufferDiagnostic out diag).evaluated = out.evaluated := by
  dsimp only [bufferDiagnostic, flushDiagnostics]
  split <;> rfl

omit [Rule R] in
lemma evaluated_foldl_bufferDiagnostic (out : Output R) (diags : List Diagnostic) :
    (diags.foldl bufferDiagnostic out).evaluated = out.evaluated := by
  induction diags generalizing out with
  | nil => rfl
  | cons diag diags ih => rw [List.foldl_cons, ih, evaluated_bufferDiagnostic]

@[simp] lemma Output.evaluated_record (out : Output R) (evals : List (Evaluation R)) :
    (out.record evals).evaluated = out.evaluated ++ evals := by
  induction evals generalizing out with
  | nil => simp
  | cons e evals ih =>
    rw [Output.record_cons, ih, Output.recordOne, evaluated_foldl_bufferDiagnostic]
    simp

/-! ### The loop over the rules -/

/-- The evaluations of a list of rules on one view. -/
def evaluationsOn (view : NodeAccess) (rules : List R) : List (Evaluation R) :=
  rules.map (fun rule => ⟨rule, view⟩)

/-- Only the bit of a passing rule beyond the 64th cannot be set, in a build with overflow checks. -/
lemma RuleResults.set_error {r : RuleResults} {checks : OverflowChecks} {i : ℕ} {passed : Bool} {p : Panic}
    (h : r.set checks i passed = .error p) :
    checks = .checked ∧ 64 ≤ i ∧ passed = true ∧ p = .shlOverflow := by
  simp only [RuleResults.set, shiftAmount] at h
  split at h
  case isFalse => simp at h
  case isTrue hpassed =>
    split at h
    case isTrue => simp at h
    case isFalse hi =>
      cases checks with
      | checked => exact ⟨rfl, by omega, hpassed, by simpa [eq_comm] using h⟩
      | wrapping => simp at h

/-- What the loop over the rules ends with: all rules have been evaluated, or in a build
with overflow checks the bit of a rule beyond the 64th was set. -/
inductive RulesDone (checks : OverflowChecks) (view : NodeAccess) (rules : List R) (i : ℕ)
    (out : Output R) : Output R × Except Panic RuleResults → Prop
  | all (ruleResults : RuleResults) :
      RulesDone checks view rules i out (out.record (evaluationsOn view rules), .ok ruleResults)
  | overflow (done : List (Evaluation R)) (hdone : done <+: evaluationsOn view rules)
      (hchecked : checks = .checked) (hlen : 64 < i + rules.length) :
      RulesDone checks view rules i out (out.record done, .error .shlOverflow)

theorem evaluateRules_spec (checks : OverflowChecks) (view : NodeAccess) (rules : List R) (i : ℕ)
    (ruleResults : RuleResults) (out : Output R) :
    RulesDone checks view rules i out (evaluateRules checks view rules i ruleResults out) := by
  induction rules generalizing i ruleResults out with
  | nil => exact .all ruleResults
  | cons rule rules ih =>
    have hout : (Rule.evaluate rule view).foldl bufferDiagnostic
        { out with evaluated := out.evaluated ++ [⟨rule, view⟩] } = out.recordOne ⟨rule, view⟩ := rfl
    simp only [evaluateRules, hout]
    cases hset : ruleResults.set checks i (Rule.evaluate rule view).isEmpty with
    | ok next =>
      have hrest := ih (i + 1) next (out.recordOne ⟨rule, view⟩)
      dsimp only
      generalize evaluateRules checks view rules (i + 1) next (out.recordOne ⟨rule, view⟩) = r at hrest ⊢
      cases hrest with
      | all final => exact .all final
      | overflow done hdone hchecked hlen =>
        refine .overflow (⟨rule, view⟩ :: done) ?_ hchecked (by simp only [List.length_cons]; omega)
        exact List.cons_prefix_cons.mpr ⟨rfl, hdone⟩
    | error p =>
      obtain ⟨hchecked, hi, -, rfl⟩ := RuleResults.set_error hset
      refine .overflow [⟨rule, view⟩] ?_ hchecked (by simp only [List.length_cons]; omega)
      exact List.cons_prefix_cons.mpr ⟨rfl, List.nil_prefix⟩

/-- The results do not depend on what was put out before, only on what the rules return. -/
lemma evaluateRules_snd (checks : OverflowChecks) (view view' : NodeAccess) (rules : List R)
    (h : ∀ rule ∈ rules, Rule.evaluate rule view = Rule.evaluate rule view') (i : ℕ)
    (ruleResults : RuleResults) (out out' : Output R) :
    (evaluateRules checks view rules i ruleResults out).2 =
      (evaluateRules checks view' rules i ruleResults out').2 := by
  induction rules generalizing i ruleResults out out' with
  | nil => rfl
  | cons rule rules ih =>
    simp only [evaluateRules, h rule (by simp)]
    split
    · exact ih (fun rule hrule => h rule (by simp [hrule])) _ _ _ _
    · rfl

/-- The results of a list of rules on one view. -/
def ruleResultsOf (checks : OverflowChecks) (view : NodeAccess) (rules : List R) :
    Except Panic RuleResults :=
  (evaluateRules checks view rules 0 .empty ⟨[], [], []⟩).2

lemma ruleResultsOf_congr (checks : OverflowChecks) {view view' : NodeAccess} {rules : List R}
    (h : ∀ rule ∈ rules, Rule.evaluate rule view = Rule.evaluate rule view') :
    ruleResultsOf checks view rules = ruleResultsOf checks view' rules :=
  evaluateRules_snd checks view view' rules h _ _ _ _

/-! ### The flush buffer -/

/-- What the buffer guarantees: the diagnostics are sent or held in order, and they are
sent in blocks of the buffer's capacity. -/
structure Buffered (out : Output R) : Prop where
  delivered : out.sent ++ out.diagBuffer = out.evaluated.flatMap Evaluation.diagnostics
  short : out.diagBuffer.length < diagBufferDefault
  blocks : diagBufferDefault ∣ out.sent.length

lemma buffered_init : Buffered (⟨[], [], []⟩ : Output R) :=
  ⟨rfl, by simp [diagBufferDefault], by simp⟩

omit [Rule R] in
/-- One more diagnostic is sent or held behind the others. -/
lemma sent_bufferDiagnostic (out : Output R) (diag : Diagnostic)
    (hshort : out.diagBuffer.length < diagBufferDefault) (hblocks : diagBufferDefault ∣ out.sent.length) :
    let out' := bufferDiagnostic out diag
    out'.sent ++ out'.diagBuffer = out.sent ++ out.diagBuffer ++ [diag] ∧
      out'.diagBuffer.length < diagBufferDefault ∧ diagBufferDefault ∣ out'.sent.length := by
  simp only [bufferDiagnostic]
  split
  case isTrue hfull =>
    have hlen : (out.diagBuffer ++ [diag]).length = diagBufferDefault := by
      simp only [List.length_append, List.length_singleton] at hfull ⊢
      omega
    refine ⟨by simp [flushDiagnostics], by simp [flushDiagnostics, diagBufferDefault], ?_⟩
    have hsent : (out.sent ++ (out.diagBuffer ++ [diag])).length = out.sent.length + diagBufferDefault := by
      rw [List.length_append, hlen]
    simp only [flushDiagnostics, hsent]
    exact Nat.dvd_add hblocks (dvd_refl _)
  case isFalse hroom => exact ⟨by simp, by simpa using hroom, hblocks⟩

lemma Buffered.recordOne {out : Output R} (h : Buffered out) (e : Evaluation R) :
    Buffered (out.recordOne e) := by
  have hdiags : ∀ (diags : List Diagnostic) (out : Output R),
      out.diagBuffer.length < diagBufferDefault → diagBufferDefault ∣ out.sent.length →
      let out' := diags.foldl bufferDiagnostic out
      out'.sent ++ out'.diagBuffer = out.sent ++ out.diagBuffer ++ diags ∧
        out'.diagBuffer.length < diagBufferDefault ∧ diagBufferDefault ∣ out'.sent.length := by
    intro diags
    induction diags with
    | nil => intro out hshort hblocks; simp [hshort, hblocks]
    | cons diag diags ih =>
      intro out hshort hblocks
      obtain ⟨hsent, hshort', hblocks'⟩ := sent_bufferDiagnostic out diag hshort hblocks
      obtain ⟨hall, hrest⟩ := ih _ hshort' hblocks'
      exact ⟨by rw [List.foldl_cons, hall, hsent, List.append_assoc, List.singleton_append], hrest⟩
  obtain ⟨hsent, hshort, hblocks⟩ :=
    hdiags e.diagnostics { out with evaluated := out.evaluated ++ [e] } h.short h.blocks
  refine ⟨?_, hshort, hblocks⟩
  rw [Output.recordOne, hsent, evaluated_foldl_bufferDiagnostic, h.delivered]
  simp

lemma Buffered.record {out : Output R} (h : Buffered out) (evals : List (Evaluation R)) :
    Buffered (out.record evals) := by
  induction evals generalizing out with
  | nil => exact h
  | cons e evals ih => exact ih (h.recordOne e)

/-- After the final flush everything has been sent. -/
lemma Buffered.sent_flush {out : Output R} (h : Buffered out) :
    (flushDiagnostics out).sent = out.evaluated.flatMap Evaluation.diagnostics := h.delivered

end XmlOxydizer
