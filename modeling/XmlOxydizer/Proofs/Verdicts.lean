import XmlOxydizer.Proofs.Readings
import XmlOxydizer.Proofs.Workers

/-!
# What a parse does on any stream

A parse is a function of the events and of the tree alone. It ends with the first error in the order of the
events, or with `Ok`, and the rules are evaluated on the elements that close before. Only a build with
overflow checks can panic.
-/

namespace XmlOxydizer

open Markup

variable {R : Type}

/-- The end of a parse that does not panic. -/
def verdict (tree : DescriptorTree R) (z : OpenElements) (events : List (Except XmlError Event)) :
    Except Stop Unit :=
  match firstFault tree z events with
  | none => .ok ()
  | some e => .error (.error e)

/-- The calls that the elements are owed which close before the first error. -/
def callsUntilFault (tree : DescriptorTree R) (z : OpenElements) (events : List (Except XmlError Event)) :
    List (RuleCall R) :=
  (z.closings (untilFault tree z events)).flatMap (fun c => owedCalls tree (closingTags c))

section

variable {tree : DescriptorTree R} {z : OpenElements} {tok : Event} {events : List (Except XmlError Event)}

@[simp] lemma verdict_nil : verdict tree z [] = .ok () := rfl

@[simp] lemma verdict_error (e : XmlError) : verdict tree z (.error e :: events) = .error (.error (.xmlParse e)) :=
  rfl

lemma verdict_fault {e : ReaderError} (h : fault tree z tok = some e) :
    verdict tree z (.ok tok :: events) = .error (.error e) := by
  simp [verdict, firstFault, h]

lemma verdict_ok (h : fault tree z tok = none) :
    verdict tree z (.ok tok :: events) = verdict tree (z.advance tok) events := by
  simp [verdict, firstFault, h]

lemma untilFault_fault {e : ReaderError} (h : fault tree z tok = some e) :
    untilFault tree z (.ok tok :: events) = [] := by
  simp [untilFault, h]

lemma untilFault_ok (h : fault tree z tok = none) :
    untilFault tree z (.ok tok :: events) = tok :: untilFault tree (z.advance tok) events := by
  simp [untilFault, h]

lemma untilFault_eq_self {ts : List Event} (h : firstFault tree z (ts.map .ok) = none) :
    untilFault tree z (ts.map .ok) = ts := by
  induction ts generalizing z with
  | nil => rfl
  | cons tok ts ih =>
    rw [List.map_cons, firstFault] at h
    cases hfault : fault tree z tok with
    | some e =>
      rw [hfault] at h
      cases h
    | none =>
      rw [hfault] at h
      rw [List.map_cons, untilFault_ok hfault, ih h]

end

section Run

variable [Rule R] {checks : OverflowChecks} {tree : DescriptorTree R} {z : OpenElements} {s : ParserState R}

/-- A run of the loop that does not panic. -/
structure RunsTo (checks : OverflowChecks) (tree : DescriptorTree R) (z : OpenElements) (s : ParserState R)
    (events : List (Except XmlError Event)) (r : Flow R) : Prop where
  result_eq : r.outcome.result = verdict tree z events
  evaluations : ∃ groups, List.Forall₂ (Evaluates checks tree) (z.closings (untilFault tree z events)) groups ∧
    r.out = s.out.record groups.flatten

variable (checks) in
/-- A run on a state that describes the open elements panics or runs to the first error. -/
theorem run_verdict (hwf : tree.WellFormed) (h : Follows tree z s) (events : List (Except XmlError Event)) :
    (∃ p out, eventLoop checks tree events s = .stop (.panic p) out) ∨
      RunsTo checks tree z s events (eventLoop checks tree events s) := by
  induction events generalizing z s with
  | nil => exact .inr ⟨rfl, [], .nil, rfl⟩
  | cons event events ih =>
    cases event with
    | error e => exact .inr ⟨rfl, [], .nil, rfl⟩
    | ok tok =>
      have hstep := step_ok checks hwf h tok
      simp only [eventLoop]
      generalize step checks tree tok s = r at hstep ⊢
      cases hstep with
      | overflow p done hchecked hcause => exact .inl ⟨p, _, rfl⟩
      | error e hfault =>
        refine .inr ⟨(verdict_fault hfault).symm, [], ?_, rfl⟩
        rw [untilFault_fault hfault]
        exact .nil
      | next s' first hfollows hfirst hout hfault =>
        rcases ih hfollows with hpanic | ⟨hresult, groups, hgroups, hout'⟩
        · exact .inl hpanic
        · refine .inr ⟨hresult.trans (verdict_ok hfault).symm, first ++ groups, ?_, ?_⟩
          · rw [untilFault_ok hfault]
            exact List.rel_append hfirst hgroups
          · rw [Flow.bind, hout', hout, List.flatten_append, Output.record_append]

lemma parseFile_eq_outcome (checks : OverflowChecks) (tree : DescriptorTree R)
    (events : List (Except XmlError Event)) :
    parseFile checks tree events = (eventLoop checks tree events .init).outcome := by
  unfold parseFile
  cases eventLoop checks tree events .init <;> rfl

omit [Rule R] in
lemma evaluated_outcome (r : Flow R) : r.outcome.out.evaluated = r.out.evaluated := by
  cases r <;> rfl

/-- A parse that does not panic ends with the first error and makes the calls owed before it. -/
lemma parseFile_runs (checks : OverflowChecks) (hwf : tree.WellFormed) (events : List (Except XmlError Event)) :
    (∃ p, (parseFile checks tree events).result = .error (.panic p)) ∨
      (parseFile checks tree events).result = verdict tree [] events ∧
        (parseFile checks tree events).out.evaluated.map Evaluation.call = callsUntilFault tree [] events := by
  rw [parseFile_eq_outcome]
  rcases run_verdict checks hwf (follows_init tree) events with ⟨p, out, hpanic⟩ | ⟨hresult, groups, hgroups, hout⟩
  · exact .inl ⟨p, by rw [hpanic]; rfl⟩
  · refine .inr ⟨hresult, ?_⟩
    rw [evaluated_outcome, hout, Output.evaluated_record]
    exact calls_of_groups hwf hgroups

lemma parseFile_panics (hwf : tree.WellFormed) {events : List (Except XmlError Event)} {p : Panic}
    (h : (parseFile checks tree events).result = .error (.panic p)) : checks = .checked ∧
      ∃ before tok after, events = before.map .ok ++ .ok tok :: after ∧
        OverflowCause tree (Spine.advanceAll [] before) tok p := by
  have hparse := parseFile_ok checks hwf events
  generalize parseFile checks tree events = o at h hparse
  cases hparse with
  | finished => cases h
  | failed => cases h
  | panicked p' before tok after out hevents _ hchecked hcause =>
    cases h
    exact ⟨hchecked, before, tok, after, hevents, hcause⟩

lemma parseFile_sent (hwf : tree.WellFormed) {events : List (Except XmlError Event)}
    (h : (parseFile checks tree events).result = .ok ()) : (parseFile checks tree events).out.sent =
      (parseFile checks tree events).out.evaluated.flatMap Evaluation.diagnostics := by
  have hparse := parseFile_ok checks hwf events
  generalize parseFile checks tree events = o at h hparse ⊢
  cases hparse with
  | failed => cases h
  | panicked => cases h
  | finished ts s groups _ _ _ _ _ hbuffered => exact hbuffered.sent_flush

/-- A document that a parse reads to its end is given the calls of the reference traversal. -/
lemma parseFile_calls (hwf : tree.WellFormed) {document : Content} {ts : List Event}
    (hdoc : Writes document ts) (h : (parseFile checks tree (ts.map .ok)).result = .ok ()) :
    (parseFile checks tree (ts.map .ok)).out.evaluated.map Evaluation.call = referenceCalls tree document := by
  rcases parseFile_runs checks hwf (ts.map .ok) with ⟨p, hpanic⟩ | ⟨hresult, hcalls⟩
  · rw [h] at hpanic
    cases hpanic
  · have hfault : firstFault tree [] (ts.map .ok) = none := by
      rw [h, verdict] at hresult
      cases hfirst : firstFault tree [] (ts.map .ok) with
      | none => rfl
      | some e =>
        rw [hfirst] at hresult
        cases hresult
    rw [hcalls, callsUntilFault, untilFault_eq_self hfault, referenceCalls, ← closingTags_writes hdoc,
      List.flatMap_map]

end Run

/-- On any stream of events a parse ends with the first error in document order, or with `Ok`, and evaluates
the rules that are owed to the elements that close before, in the order in which they close. The exception is
a build with overflow checks, which can panic where a counter or the results of the rules overflow. -/
theorem parseFile_verdict [Rule R] (t : BuiltTree R) (checks : OverflowChecks)
    (events : List (Except XmlError Event)) :
    let o := parseFile checks t.tree events
    (o.result = verdict t.tree [] events ∧
      o.out.evaluated.map Evaluation.call = callsUntilFault t.tree [] events) ∨
    checks = .checked ∧ ∃ p before tok after, o.result = .error (.panic p) ∧
      events = before.map .ok ++ .ok tok :: after ∧
      OverflowCause t.tree (Spine.advanceAll [] before) tok p := by
  rcases parseFile_runs checks t.wellFormed events with ⟨p, hpanic⟩ | hruns
  · obtain ⟨hchecked, before, tok, after, hevents, hcause⟩ := parseFile_panics t.wellFormed hpanic
    exact .inr ⟨hchecked, p, before, tok, after, hpanic, hevents, hcause⟩
  · exact .inl hruns

end XmlOxydizer
