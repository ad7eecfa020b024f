import XmlOxydizer.Proofs.HandleText

/-!
# Whole runs

One step keeps the invariant, evaluates the rules of the element that closes, and fails
exactly with the fault of the token. By induction a run evaluates, element by element in
the order in which they close, what each element is owed, until the first fault.
-/

namespace XmlOxydizer

open Markup

variable {R : Type}

/-- An element at the moment it closes. -/
abbrev ClosingElement := Closing BytesStart LeafEvent

/-- The tags from the root to a closing element. -/
def closingTags (c : ClosingElement) : List String := tagsOf c.above ++ [c.label.tagName]

lemma tagsOf_spine (c : ClosingElement) : tagsOf c.spine = closingTags c := by
  simp [Closing.spine, closingTags]

/-- A closing element as the innermost of the levels that the parser tracks. -/
structure Viewed (tree : DescriptorTree R) (c : ClosingElement) (ls : List Level) (l : Level) :
    Prop where
  levels_ok : OpenLevels tree (ls ++ [l])
  above_eq : c.above = ls.map Level.frame
  label_eq : c.label = l.frame.label
  content_eq : c.content = l.frame.content
  readable : tree.isCapture l.id = true → c.label.Readable ∧ Readable c.content

/-- The evaluations that a closing element is given: none, or one of each rule of its node
in declaration order on one view. -/
inductive Evaluates (checks : OverflowChecks) (tree : DescriptorTree R) (c : ClosingElement) :
    List (Evaluation R) → Prop
  | declared (ls : List Level) (l : Level) (h : Viewed tree c ls l) :
      Evaluates checks tree c (evaluationsOn (l.view checks tree ls) (tree.desc l.id).rules)
  | undeclared (h : tree.evaluatedAt (closingTags c) = none) : Evaluates checks tree c []

/-- The state describes the open elements `z`. -/
def Follows (tree : DescriptorTree R) (z : OpenElements) (s : ParserState R) : Prop :=
  ∃ levels rest, levels.map Level.frame ++ rest = z ∧ Tracks tree levels rest s

lemma follows_init (tree : DescriptorTree R) : Follows tree [] (.init : ParserState R) :=
  ⟨[], [], rfl, tracks_init tree⟩

/-- What overflows in a build with overflow checks: the counter of an element that already
has 2^32 - 1 children, or the results of more than 64 rules. -/
inductive OverflowCause (tree : DescriptorTree R) (z : OpenElements) (tok : Event) : Panic → Prop
  | counter (tag : BytesStart) (f : Frame BytesStart LeafEvent) (htok : tok = .start tag ∨ tok = .empty tag)
      (hf : z.getLast? = some f) (hfull : 2 ^ 32 ≤ f.content.elements.length + 1) :
      OverflowCause tree z tok .addOverflow
  | shift (c : ClosingElement) (id : NodeId) (hclosing : z.closing tok = some c)
      (hid : tree.evaluatedAt (closingTags c) = some id) (hlen : 64 < (tree.desc id).rules.length) :
      OverflowCause tree z tok .shlOverflow

section Step

variable [Rule R] {checks : OverflowChecks} {tree : DescriptorTree R} {z : OpenElements}
  {s : ParserState R} {levels ls : List Level} {l : Level} {rest : OpenElements}

lemma OpenLevels.evaluatedAt (hwf : tree.WellFormed) (h : OpenLevels tree (ls ++ [l])) :
    tree.evaluatedAt (tagsOf (ls.map Level.frame) ++ [l.tag]) = some l.id := by
  have hwalk := h.walk_eq
  rw [List.map_append, tagsOf_append] at hwalk
  rw [DescriptorTree.evaluatedAt_eq_walk hwf]
  simp only [Level.tag, List.map_singleton, tagsOf_cons, tagsOf_nil] at hwalk ⊢
  simp [hwalk]

lemma Viewed.evaluatedAt (hwf : tree.WellFormed) {c : ClosingElement} (h : Viewed tree c ls l) :
    tree.evaluatedAt (closingTags c) = some l.id := by
  have hlevel := h.levels_ok.evaluatedAt hwf
  rwa [closingTags, h.above_eq, h.label_eq]

omit [Rule R] in
/-- The innermost level of a state is viewed at its end. -/
lemma Tracks.viewed (h : Tracks tree (ls ++ [l]) [] s) :
    Viewed tree ⟨ls.map Level.frame, l.frame.label, l.frame.content⟩ ls l := by
  refine ⟨h.levels_ok, rfl, rfl, rfl, fun hcapture => ?_⟩
  cases h.mode_ok with
  | streaming hstream => simp [hcapture] at hstream
  | capturing ls' l' b hlevels _ hb =>
    obtain ⟨rfl, hll⟩ := List.append_inj' hlevels rfl
    obtain rfl := List.singleton_inj.mp hll
    exact hb.readable l.frame (by simp)

variable (checks) in
/-- What a closing element is given does not depend on how the state tracks it. -/
lemma Tracks.evaluates (hwf : tree.WellFormed) (h : Tracks tree levels rest s) :
    ∃ groups, groups.flatten = closingEvaluations checks tree levels rest ∧
      List.Forall₂ (Evaluates checks tree)
        (Spine.closing (levels.map Level.frame ++ rest) (.close : Event)).toList groups := by
  rcases List.eq_nil_or_concat' rest with rfl | ⟨r, f, rfl⟩
  · rcases List.eq_nil_or_concat' levels with rfl | ⟨ls, l, rfl⟩
    · exact ⟨[], by simp [closingEvaluations], by simp⟩
    · have hclosing : Spine.closing ((ls ++ [l]).map Level.frame ++ []) (.close : Event) =
          some ⟨ls.map Level.frame, l.frame.label, l.frame.content⟩ := by
        simp
      rw [hclosing, closingEvaluations_concat]
      exact ⟨[_], List.flatten_singleton, .cons (.declared ls l h.viewed) .nil⟩
  · have hclosing : Spine.closing (levels.map Level.frame ++ (r ++ [f])) (.close : Event) =
        some ⟨levels.map Level.frame ++ r, f.label, f.content⟩ := by
      rw [← List.append_assoc, Spine.closing_close]
    rw [hclosing, closingEvaluations_below _ _ _ (by simp)]
    refine ⟨[[]], rfl, .cons (.undeclared ?_) .nil⟩
    have htags : closingTags ⟨levels.map Level.frame ++ r, f.label, f.content⟩ =
        tagsOf (levels.map Level.frame ++ (r ++ [f])) := by
      simp [closingTags]
    rw [htags, DescriptorTree.evaluatedAt_eq_walk hwf, h.walk_eq]
    simp

/-- The outcome of a step. -/
inductive StepOk (checks : OverflowChecks) (tree : DescriptorTree R) (z : OpenElements)
    (tok : Event) (s : ParserState R) : Flow R → Prop
  | next (s' : ParserState R) (groups : List (List (Evaluation R)))
      (hfollows : Follows tree (z.advance tok) s')
      (hgroups : List.Forall₂ (Evaluates checks tree) (z.closing tok).toList groups)
      (hout : s'.out = s.out.record groups.flatten) (hfault : fault tree z tok = none) :
      StepOk checks tree z tok s (.next s')
  | error (e : ReaderError) (hfault : fault tree z tok = some e) :
      StepOk checks tree z tok s (.stop (.error e) s.out)
  | overflow (p : Panic) (done : List (Evaluation R)) (hchecked : checks = .checked)
      (hcause : OverflowCause tree z tok p)
      (hdone : ∀ e ∈ done, ∃ c evals, z.closing tok = some c ∧ Evaluates checks tree c evals ∧ e ∈ evals) :
      StepOk checks tree z tok s (.stop (.panic p) (s.out.record done))

variable (checks) in
lemma step_close_ok (hwf : tree.WellFormed) (h : Follows tree z s) :
    StepOk checks tree z .close s (handleEnd checks tree s) := by
  obtain ⟨levels, rest, rfl, htracks⟩ := h
  have hend := end_ok checks htracks
  obtain ⟨groups, hflatten, hgroups⟩ := htracks.evaluates checks hwf
  generalize handleEnd checks tree s = r at hend ⊢
  cases hend with
  | next levels' rest' s' hz htracks' hout =>
    exact .next s' groups ⟨levels', rest', hz, htracks'⟩ hgroups (by rw [hout, hflatten]) rfl
  | overflow ls l done hchecked hlevels hrest hdone hlen =>
    subst hlevels hrest
    have hclosing : Spine.closing ((ls ++ [l]).map Level.frame ++ []) (.close : Event) =
        some ⟨ls.map Level.frame, l.frame.label, l.frame.content⟩ := by
      simp
    refine .overflow _ done hchecked (.shift _ l.id hclosing ?_ hlen) fun e he => ?_
    · exact htracks.levels_ok.evaluatedAt hwf
    · rw [hclosing] at hgroups
      obtain ⟨evals, hevals, rfl⟩ : ∃ evals, Evaluates checks tree
          ⟨ls.map Level.frame, l.frame.label, l.frame.content⟩ evals ∧ groups = [evals] := by
        cases hgroups with
        | cons h hnil => cases hnil; exact ⟨_, h, rfl⟩
      rw [closingEvaluations_concat, List.flatten_singleton] at hflatten
      exact ⟨_, evals, hclosing, hevals, hflatten ▸ hdone.subset he⟩

variable (checks) in
/-- One event on a state that describes the open elements. -/
theorem step_ok (hwf : tree.WellFormed) (h : Follows tree z s) (tok : Event) :
    StepOk checks tree z tok s (step checks tree tok s) := by
  obtain ⟨levels, rest, hz, htracks⟩ := id h
  cases tok with
  | close => exact step_close_ok checks hwf h
  | leaf leaf =>
    have hleaf := leaf_ok checks htracks leaf
    generalize step checks tree (.leaf leaf) s = r at hleaf ⊢
    subst hz
    cases hleaf with
    | next levels' rest' s' hz' htracks' hout hfault =>
      exact .next s' [] ⟨levels', rest', hz', htracks'⟩ .nil hout hfault
    | error e hfault => exact .error e hfault
  | start tag =>
    have hstart := start_ok checks hwf htracks tag
    simp only [step]
    generalize handleStart checks tree tag s = r at hstart ⊢
    subst hz
    cases hstart with
    | ok levels' rest' s' hz' htracks' hout hfault =>
      exact .next s' [] ⟨levels', rest', hz', htracks'⟩ .nil hout hfault
    | error e hfault => exact .error e hfault
    | overflow ls p hcount hlevels hrest hfull =>
      subst hlevels hrest
      exact .overflow (s := s) _ [] hcount.1 (.counter tag p.frame (.inl rfl) (by simp) hfull)
        (by simp)
  | empty tag =>
    have hstart := start_ok checks hwf htracks tag
    simp only [step]
    generalize handleStart checks tree tag s = r at hstart ⊢
    subst hz
    cases hstart with
    | error e hfault => exact .error e hfault
    | overflow ls p hcount hlevels hrest hfull =>
      subst hlevels hrest
      exact .overflow (s := s) _ [] hcount.1 (.counter tag p.frame (.inr rfl) (by simp) hfull)
        (by simp)
    | ok levels' rest' s' hz' htracks' hout hfault =>
      have hclose := step_close_ok checks hwf ⟨levels', rest', rfl, htracks'⟩
      simp only [Flow.attempt]
      rw [hz'] at hclose
      generalize handleEnd checks tree s' = r at hclose ⊢
      cases hclose with
      | next s'' groups hfollows hgroups hout' _ =>
        rw [Spine.advance_close] at hfollows
        rw [Spine.closing_close] at hgroups
        exact .next s'' groups hfollows hgroups (by rw [hout', hout]) hfault
      | error e hfault' => cases hfault'
      | overflow p done hchecked hcause hdone =>
        rw [hout]
        rw [Spine.closing_close] at hdone
        refine .overflow p done hchecked ?_ hdone
        cases hcause with
        | counter tag' f htok => simp at htok
        | shift c id hclosing hid hlen =>
          rw [Spine.closing_close] at hclosing
          exact .shift c id hclosing hid hlen

end Step

/-! ### Runs -/

/-- The error that an event of the reader leads to. -/
def eventFault (tree : DescriptorTree R) (z : OpenElements) :
    Except XmlError Event → Option ReaderError
  | .ok tok => fault tree z tok
  | .error e => some (.xmlParse e)

/-- The first error of a stream of events. -/
def firstFault (tree : DescriptorTree R) :
    OpenElements → List (Except XmlError Event) → Option ReaderError
  | _, [] => none
  | _, .error e :: _ => some (.xmlParse e)
  | z, .ok tok :: events => fault tree z tok <|> firstFault tree (z.advance tok) events

/-- The tokens before the first event that leads to an error. -/
def untilFault (tree : DescriptorTree R) : OpenElements → List (Except XmlError Event) → List Event
  | _, [] => []
  | _, .error _ :: _ => []
  | z, .ok tok :: events =>
    if (fault tree z tok).isSome then [] else tok :: untilFault tree (z.advance tok) events

section Run

variable [Rule R] {checks : OverflowChecks} {tree : DescriptorTree R} {z : OpenElements}
  {s : ParserState R}

/-- The outcome of a run of the loop: the elements that closed have been given their
evaluations, up to the end or to the first fault. -/
inductive RunOk (checks : OverflowChecks) (tree : DescriptorTree R) (z : OpenElements)
    (s : ParserState R) (events : List (Except XmlError Event)) : Flow R → Prop
  | next (ts : List Event) (s' : ParserState R) (groups : List (List (Evaluation R)))
      (hevents : events = ts.map .ok) (hfollows : Follows tree (z.advanceAll ts) s')
      (hgroups : List.Forall₂ (Evaluates checks tree) (z.closings ts) groups)
      (hout : s'.out = s.out.record groups.flatten) (hfault : firstFault tree z events = none) :
      RunOk checks tree z s events (.next s')
  | error (e : ReaderError) (ts : List Event) (bad : Except XmlError Event)
      (rest : List (Except XmlError Event)) (groups : List (List (Evaluation R)))
      (hevents : events = ts.map .ok ++ bad :: rest)
      (hgroups : List.Forall₂ (Evaluates checks tree) (z.closings ts) groups)
      (hbad : eventFault tree (z.advanceAll ts) bad = some e)
      (hfault : firstFault tree z events = some e) :
      RunOk checks tree z s events (.stop (.error e) (s.out.record groups.flatten))
  | overflow (p : Panic) (ts : List Event) (tok : Event) (rest : List (Except XmlError Event))
      (done : List (Evaluation R)) (hevents : events = ts.map .ok ++ .ok tok :: rest)
      (hchecked : checks = .checked) (hcause : OverflowCause tree (z.advanceAll ts) tok p) :
      RunOk checks tree z s events (.stop (.panic p) (s.out.record done))

variable (checks) in
/-- A run on a state that describes the open elements. -/
theorem run_ok (hwf : tree.WellFormed) (h : Follows tree z s) (events : List (Except XmlError Event)) :
    RunOk checks tree z s events (eventLoop checks tree events s) := by
  induction events generalizing z s with
  | nil => exact .next [] s [] rfl h .nil rfl rfl
  | cons event events ih =>
    cases event with
    | error e => exact .error (s := s) (.xmlParse e) [] (.error e) events [] rfl .nil rfl rfl
    | ok tok =>
      have hstep := step_ok checks hwf h tok
      simp only [eventLoop]
      generalize step checks tree tok s = r at hstep ⊢
      cases hstep with
      | error e hfault =>
        exact .error (s := s) e [] (.ok tok) events [] rfl .nil hfault (by simp [firstFault, hfault])
      | overflow p done hchecked hcause _ => exact .overflow p [] tok events done rfl hchecked hcause
      | next s' first hfollows hfirst hout hfault =>
        have hrun := ih hfollows
        simp only [Flow.bind]
        generalize eventLoop checks tree events s' = r at hrun ⊢
        cases hrun with
        | next ts s'' groups hevents hfollows' hgroups hout' hfault' =>
          refine .next (tok :: ts) s'' (first ++ groups) (by simp [hevents]) hfollows'
            (List.rel_append hfirst hgroups) ?_ (by simp [firstFault, hfault, hfault'])
          rw [hout', hout, List.flatten_append, Output.record_append]
        | error e ts bad rest groups hevents hgroups hbad hfault' =>
          rw [hout, ← Output.record_append, ← List.flatten_append]
          exact .error e (tok :: ts) bad rest (first ++ groups) (by simp [hevents])
            (List.rel_append hfirst hgroups) hbad (by simp [firstFault, hfault, hfault'])
        | overflow p ts bad rest done hevents hchecked hcause =>
          rw [hout, ← Output.record_append]
          exact .overflow p (tok :: ts) bad rest _ (by simp [hevents]) hchecked hcause

/-- The outcome of a parse. -/
inductive ParseOk (checks : OverflowChecks) (tree : DescriptorTree R)
    (events : List (Except XmlError Event)) : Outcome R → Prop
  | finished (ts : List Event) (s : ParserState R) (groups : List (List (Evaluation R)))
      (hevents : events = ts.map .ok) (hrun : eventLoop checks tree events .init = .next s)
      (hfollows : Follows tree (Spine.advanceAll [] ts) s)
      (hgroups : List.Forall₂ (Evaluates checks tree) (Spine.closings [] ts) groups)
      (hout : s.out.evaluated = groups.flatten) (hbuffered : Buffered s.out)
      (hfault : firstFault tree [] events = none) :
      ParseOk checks tree events ⟨.ok (), flushDiagnostics s.out⟩
  | failed (e : ReaderError) (ts : List Event) (bad : Except XmlError Event)
      (rest : List (Except XmlError Event)) (groups : List (List (Evaluation R))) (out : Output R)
      (hevents : events = ts.map .ok ++ bad :: rest)
      (hgroups : List.Forall₂ (Evaluates checks tree) (Spine.closings [] ts) groups)
      (hout : out.evaluated = groups.flatten) (hbuffered : Buffered out)
      (hbad : eventFault tree (Spine.advanceAll [] ts) bad = some e)
      (hfault : firstFault tree [] events = some e) :
      ParseOk checks tree events ⟨.error (.error e), out⟩
  | panicked (p : Panic) (ts : List Event) (tok : Event) (rest : List (Except XmlError Event))
      (out : Output R) (hevents : events = ts.map .ok ++ .ok tok :: rest) (hbuffered : Buffered out)
      (hchecked : checks = .checked) (hcause : OverflowCause tree (Spine.advanceAll [] ts) tok p) :
      ParseOk checks tree events ⟨.error (.panic p), out⟩

variable (checks) in
/-- A parse of any stream of events. -/
theorem parseFile_ok (hwf : tree.WellFormed) (events : List (Except XmlError Event)) :
    ParseOk checks tree events (parseFile checks tree events) := by
  have hrun := run_ok checks hwf (follows_init tree) events
  have hbuffered : ∀ evals, Buffered (Output.record (ParserState.init : ParserState R).out evals) :=
    fun evals => buffered_init.record evals
  simp only [parseFile]
  cases hloop : eventLoop checks tree events .init with
  | next s =>
    rw [hloop] at hrun
    cases hrun with
    | next ts _ groups hevents hfollows hgroups hout hfault =>
      refine .finished ts s groups hevents hloop hfollows hgroups ?_ ?_ hfault
      · simp [hout, ParserState.init]
      · rw [hout]
        exact hbuffered _
  | stop why out =>
    rw [hloop] at hrun
    cases hrun with
    | error e ts bad rest groups hevents hgroups hbad hfault =>
      exact .failed e ts bad rest groups _ hevents hgroups (by simp [ParserState.init]) (hbuffered _)
        hbad hfault
    | overflow p ts tok rest done hevents hchecked hcause =>
      exact .panicked p ts tok rest _ hevents (hbuffered _) hchecked hcause

/-! ### The evaluations of a run -/

def Flow.out : Flow R → Output R
  | .next s => s.out
  | .stop _ out => out

/-- The flow does not end in a panic. -/
def Flow.Returns (r : Flow R) : Prop := ∀ p out, r ≠ .stop (.panic p) out

/-- The loop at a token: the token is a fault, or the loop goes on behind it. -/
lemma loop_head (hwf : tree.WellFormed) (h : Follows tree z s) {tok : Event}
    {events : List (Except XmlError Event)}
    (hreturns : (eventLoop checks tree (.ok tok :: events) s).Returns) :
    (∃ e, fault tree z tok = some e ∧ (eventLoop checks tree (.ok tok :: events) s).out = s.out) ∨
      ∃ t, step checks tree tok s = .next t ∧ fault tree z tok = none ∧
        eventLoop checks tree (.ok tok :: events) s = eventLoop checks tree events t := by
  have hok := step_ok checks hwf h tok
  rw [eventLoop] at hreturns ⊢
  generalize hstep : step checks tree tok s = r at hok hreturns
  cases hok with
  | next t groups hfollows hgroups hout hfault => exact .inr ⟨t, rfl, hfault, rfl⟩
  | error e hfault => exact .inl ⟨e, hfault, rfl⟩
  | overflow p done hchecked hcause hdone => exact absurd rfl (hreturns p _)

/-- The evaluations that the loop makes at the token `tok` after the tokens `before`. -/
def evaluationsAt (checks : OverflowChecks) (tree : DescriptorTree R) (before : List Event)
    (tok : Event) : List (Evaluation R) :=
  match eventLoop checks tree (before.map .ok) .init with
  | .next s => (step checks tree tok s).out.evaluated.drop s.out.evaluated.length
  | .stop _ _ => []

/-- The run on `events` evaluates `e` at the moment the element `c` closes. -/
def Visits (checks : OverflowChecks) (tree : DescriptorTree R)
    (events : List (Except XmlError Event)) (c : ClosingElement) (e : Evaluation R) : Prop :=
  ∃ before tok after, events = before.map .ok ++ .ok tok :: after ∧
    (Spine.advanceAll [] before).closing tok = some c ∧ e ∈ evaluationsAt checks tree before tok

/-- A run that goes on has followed the open elements. -/
lemma Follows.run (hwf : tree.WellFormed) (h : Follows tree z s) {ts : List Event} {s' : ParserState R}
    (hrun : eventLoop checks tree (ts.map .ok) s = .next s') : Follows tree (z.advanceAll ts) s' := by
  have hok := run_ok checks hwf h (ts.map .ok)
  rw [hrun] at hok
  cases hok with
  | next ts' s' groups hevents hfollows =>
    obtain rfl : ts = ts' := List.map_injective_iff.mpr (fun _ _ h => Except.ok.inj h) hevents
    exact hfollows

lemma follows_of_run (hwf : tree.WellFormed) {ts : List Event}
    (h : eventLoop checks tree (ts.map .ok) .init = .next s) :
    Follows tree (Spine.advanceAll [] ts) s := (follows_init tree).run hwf h

variable (checks) in
/-- What a step adds to the log belongs to the element that closes. -/
lemma step_evaluated (hwf : tree.WellFormed) (h : Follows tree z s) (tok : Event) :
    ∃ evals, (step checks tree tok s).out.evaluated = s.out.evaluated ++ evals ∧
      ∀ e ∈ evals, ∃ c owed, z.closing tok = some c ∧ Evaluates checks tree c owed ∧ e ∈ owed := by
  have hstep := step_ok checks hwf h tok
  generalize step checks tree tok s = r at hstep ⊢
  cases hstep with
  | error e => exact ⟨[], by simp [Flow.out]⟩
  | overflow p done hchecked hcause hdone => exact ⟨done, by simp [Flow.out], hdone⟩
  | next s' groups hfollows hgroups hout =>
    refine ⟨groups.flatten, by simp [Flow.out, hout], fun e he => ?_⟩
    cases hclosing : z.closing tok with
    | none =>
      rw [hclosing] at hgroups
      cases hgroups
      simp at he
    | some c =>
      rw [hclosing] at hgroups
      cases hgroups with
      | cons hc hnil =>
        cases hnil
        rw [List.flatten_singleton] at he
        exact ⟨c, _, rfl, hc, he⟩

lemma evaluationsAt_eq (hwf : tree.WellFormed) {before : List Event} (tok : Event)
    (hrun : eventLoop checks tree (before.map .ok) .init = .next s) :
    (step checks tree tok s).out.evaluated = s.out.evaluated ++ evaluationsAt checks tree before tok := by
  obtain ⟨evals, hevals, -⟩ := step_evaluated checks hwf (follows_of_run hwf hrun) tok
  simp [evaluationsAt, hrun, hevals]

/-- An evaluation is of a rule of the closing element's node, on the view of that element. -/
theorem visits_viewed (hwf : tree.WellFormed) {events : List (Except XmlError Event)}
    {c : ClosingElement} {e : Evaluation R} (h : Visits checks tree events c e) :
    ∃ ls l, Viewed tree c ls l ∧ e.rule ∈ (tree.desc l.id).rules ∧ e.view = l.view checks tree ls := by
  obtain ⟨before, tok, after, -, hclosing, he⟩ := h
  cases hrun : eventLoop checks tree (before.map .ok) .init with
  | stop why out => simp [evaluationsAt, hrun] at he
  | next s =>
    obtain ⟨evals, hevals, hof⟩ := step_evaluated checks hwf (follows_of_run hwf hrun) tok
    have hnew := (evaluationsAt_eq hwf tok hrun).symm.trans hevals
    rw [List.append_cancel_left_eq] at hnew
    obtain ⟨c', owed, hclosing', howed, he'⟩ := hof e (hnew ▸ he)
    obtain rfl := Option.some.inj (hclosing.symm.trans hclosing')
    cases howed with
    | undeclared => simp at he'
    | declared ls l hviewed =>
      obtain ⟨rule, hrule, rfl⟩ := List.mem_map.mp he'
      exact ⟨ls, l, hviewed, hrule, rfl⟩

/-- The evaluations at a token, in a run that goes on. -/
lemma evaluationsAt_of_out (hwf : tree.WellFormed) {before : List Event} {tok : Event}
    (hrun : eventLoop checks tree (before.map .ok) .init = .next s) {s' : ParserState R}
    (hstep : step checks tree tok s = .next s') {evals : List (Evaluation R)}
    (hout : s'.out = s.out.record evals) : evaluationsAt checks tree before tok = evals := by
  have hnew := evaluationsAt_eq hwf tok hrun
  rw [hstep, Flow.out, hout, Output.evaluated_record, List.append_cancel_left_eq] at hnew
  exact hnew.symm

/-- In a run that goes on, a closing element is given the evaluations that it is owed. -/
lemma evaluationsAt_evaluates (hwf : tree.WellFormed) {before : List Event} {tok : Event}
    (hrun : eventLoop checks tree (before.map .ok) .init = .next s) {s' : ParserState R}
    (hstep : step checks tree tok s = .next s') {c : ClosingElement}
    (hc : (Spine.advanceAll [] before).closing tok = some c) :
    Evaluates checks tree c (evaluationsAt checks tree before tok) := by
  have hok := step_ok checks hwf (follows_of_run hwf hrun) tok
  rw [hstep] at hok
  cases hok with
  | next _ groups hfollows hgroups hout =>
    rw [evaluationsAt_of_out hwf hrun hstep hout]
    rw [hc] at hgroups
    cases hgroups with
    | cons hfirst hnil =>
      cases hnil
      rwa [List.flatten_singleton]

lemma eventLoop_append (events more : List (Except XmlError Event)) (s : ParserState R) :
    eventLoop checks tree (events ++ more) s =
      (eventLoop checks tree events s).bind (eventLoop checks tree more) := by
  induction events generalizing s with
  | nil => rfl
  | cons event events ih =>
    cases event with
    | error e => rfl
    | ok tok =>
      simp only [List.cons_append, eventLoop]
      cases step checks tree tok s with
      | next s' => exact ih s'
      | stop why out => rfl

/-- A loop that stops has passed the events before the one that it stops at. -/
lemma eventLoop_stop {events : List (Except XmlError Event)} {why : Stop} {out : Output R}
    (h : eventLoop checks tree events s = .stop why out) :
    ∃ (before : List Event) (bad : Except XmlError Event) (after : List (Except XmlError Event))
      (t : ParserState R), events = before.map .ok ++ bad :: after ∧
      eventLoop checks tree (before.map .ok) s = .next t ∧ eventLoop checks tree [bad] t = .stop why out := by
  induction events generalizing s with
  | nil => cases h
  | cons event events ih =>
    cases event with
    | error e => exact ⟨[], .error e, events, s, rfl, rfl, h⟩
    | ok tok =>
      rw [eventLoop] at h
      cases hstep : step checks tree tok s with
      | stop why' out' =>
        refine ⟨[], .ok tok, events, s, rfl, rfl, ?_⟩
        rw [eventLoop, hstep]
        rwa [hstep] at h
      | next u =>
        rw [hstep] at h
        obtain ⟨before, bad, after, t, rfl, hbefore, hstop⟩ := ih h
        refine ⟨tok :: before, bad, after, t, rfl, ?_, hstop⟩
        rw [List.map_cons, eventLoop, hstep]
        exact hbefore

lemma run_snoc {ts : List Event} {tok : Event} {t : ParserState R}
    (hrun : eventLoop checks tree (ts.map .ok) .init = .next s) (hstep : step checks tree tok s = .next t) :
    eventLoop checks tree ((ts ++ [tok]).map .ok) .init = .next t := by
  rw [List.map_append, eventLoop_append, hrun]
  simp [Flow.bind, eventLoop, hstep]

/-- The last step of a run that goes on. -/
lemma run_concat {ts : List Event} {tok : Event}
    (h : eventLoop checks tree ((ts ++ [tok]).map .ok) .init = .next s) :
    ∃ u, eventLoop checks tree (ts.map .ok) .init = .next u ∧ step checks tree tok u = .next s := by
  rw [List.map_append, eventLoop_append] at h
  cases hrun : eventLoop checks tree (ts.map .ok) .init with
  | stop why out => rw [hrun] at h; cases h
  | next u =>
    rw [hrun] at h
    refine ⟨u, rfl, ?_⟩
    cases hstep : step checks tree tok u with
    | stop why out => simp [Flow.bind, eventLoop, hstep] at h
    | next t => simpa [Flow.bind, eventLoop, hstep] using h

end Run

/-! ### The loop of `parse_slice` -/

section Slice

variable {checks : OverflowChecks} {tree : DescriptorTree R}

lemma sliceText_eq (textEv : BytesText) (s : ParserState R) :
    sliceText tree textEv s = handleText tree textEv s := by
  unfold sliceText handleText
  split
  case isFalse => rfl
  case isTrue =>
    split
    case h_1 builder depth descriptorId contextStackIndex _ =>
      cases textEv.decode with
      | error e => rfl
      | ok decoded =>
        simp only [orError_ok, ok_bind]
        cases decoded.isEmpty <;> rfl
    case h_2 =>
      cases s.contextStack.getLast? with
      | none => rfl
      | some ctx =>
        dsimp only
        cases tree.get ctx.descriptorId with
        | error p => rfl
        | ok desc =>
          rw [orPanic_ok, ok_bind, ok_bind, ← DescriptorNode.needText]
          cases desc.needText with
          | false => rfl
          | true =>
            cases textEv.decode with
            | error e => rfl
            | ok decoded =>
              simp only [orError_ok, ok_bind]
              cases decoded.isEmpty <;> rfl

variable [Rule R]

/-- The loops of the two entry points do the same. -/
theorem sliceLoop_eq (events : List (Except XmlError Event)) (s : ParserState R) :
    sliceLoop checks tree events s = eventLoop checks tree events s := by
  induction events generalizing s with
  | nil => rfl
  | cons event events ih =>
    have hrest : sliceLoop checks tree events = eventLoop checks tree events := funext ih
    cases event with
    | error e => rfl
    | ok tok =>
      rw [eventLoop]
      cases tok with
      | start tag =>
        rw [sliceLoop, step, hrest]
        cases handleStart checks tree tag s <;> rfl
      | close => rw [sliceLoop, step, hrest]
      | empty tag =>
        rw [sliceLoop, step, hrest]
        cases handleStart checks tree tag s <;> rfl
      | leaf leaf =>
        cases leaf with
        | text textEv =>
          rw [sliceLoop, step, hrest, sliceText_eq]
          cases handleText tree textEv s <;> rfl
        | cData content => exact ih s
        | generalRef content => exact ih s
        | comment => exact ih s
        | decl => exact ih s
        | pi => exact ih s
        | docType => exact ih s

variable {read : String → List (Except XmlError Event)} {data : ByteArray}

lemma parseSlice_valid {text : String} (h : fromUtf8 data = .ok text) :
    parseSlice checks tree read data = parseFile checks tree (read text) := by
  unfold parseSlice parseFile
  rw [h]
  simp only [sliceLoop_eq]

lemma parseSlice_invalid {e : Utf8Error} (h : fromUtf8 data = .error e) :
    parseSlice checks tree read data = ⟨.error (.error (.utf8 e)), ⟨[], [], []⟩⟩ := by
  unfold parseSlice
  rw [h]

end Slice

end XmlOxydizer
