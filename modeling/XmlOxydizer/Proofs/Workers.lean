import XmlOxydizer.Library.Interleaving
import XmlOxydizer.Library.Transitions
import XmlOxydizer.Pipeline
import XmlOxydizer.Proofs.Run

/-!
# Workers

What a worker has sent and what it holds back is a beginning of what a parse of its file alone sends,
whatever the other workers do. Every step of a worker brings its file nearer to its end.
-/

namespace XmlOxydizer

open Interleaving Relation Transitions

variable {R : Type} [Rule R]

/-! ### What the parser has flushed -/

section Flushed

omit [Rule R] in
lemma sent_prefix_foldl (diags : List Diagnostic) (out : Output R) :
    out.sent <+: (diags.foldl bufferDiagnostic out).sent := by
  induction diags generalizing out with
  | nil => exact List.prefix_rfl
  | cons diag diags ih =>
    have hfirst : out.sent <+: (bufferDiagnostic out diag).sent := by
      unfold bufferDiagnostic
      dsimp only
      split
      · exact List.prefix_append _ _
      · exact List.prefix_rfl
    exact hfirst.trans (ih _)

lemma sent_prefix_record (evals : List (Evaluation R)) (out : Output R) :
    out.sent <+: (out.record evals).sent := by
  induction evals generalizing out with
  | nil => exact List.prefix_rfl
  | cons e evals ih =>
    have hfirst : out.sent <+: (out.recordOne e).sent :=
      sent_prefix_foldl e.diagnostics { out with evaluated := out.evaluated ++ [e] }
    exact hfirst.trans (ih _)

/-- A step of the parser only adds to what is sent. -/
lemma sent_prefix_step {checks : OverflowChecks} {tree : DescriptorTree R} (hwf : tree.WellFormed)
    {s : ParserState R} {before : List Event} (hrun : eventLoop checks tree (before.map .ok) .init = .next s)
    (tok : Event) : s.out.sent <+: (step checks tree tok s).out.sent := by
  have hstep := step_ok checks hwf (follows_of_run hwf hrun) tok
  generalize step checks tree tok s = r at hstep ⊢
  cases hstep with
  | next s' groups _ _ hout =>
    rw [Flow.out, hout]
    exact sent_prefix_record _ _
  | error e hfault => exact List.prefix_rfl
  | overflow p done hchecked hcause hdone => exact sent_prefix_record _ _

end Flushed

/-! ### What a worker does by itself -/

/-- The things that a worker does by itself, and where each leads. -/
inductive WorkerAdvance (checks : OverflowChecks) (file : FileInfo R) : Worker R → Worker R → Prop
  | eof (s : ParserState R) : WorkerAdvance checks file (.parsing [] s []) (.leaving (.ok ()) s.out.diagBuffer)
  | syntaxError (e : XmlError) (events : List (Except XmlError Event)) (s : ParserState R) :
      WorkerAdvance checks file (.parsing (.error e :: events) s [])
        (.leaving (.error (.error (.xmlParse e))) [])
  | token (tok : Event) (events : List (Except XmlError Event)) (s s' : ParserState R)
      (hstep : step checks file.descriptors.tree tok s = .next s') :
      WorkerAdvance checks file (.parsing (.ok tok :: events) s [])
        (.parsing events s' (s'.out.sent.drop s.out.sent.length))
  | fault (tok : Event) (events : List (Except XmlError Event)) (s : ParserState R) (why : Stop)
      (out : Output R) (hstep : step checks file.descriptors.tree tok s = .stop why out) :
      WorkerAdvance checks file (.parsing (.ok tok :: events) s [])
        (.leaving (.error why) (out.sent.drop s.out.sent.length))
  | done : WorkerAdvance checks file (.leaving (.ok ()) []) (.done none)
  | failed (e : ReaderError) : WorkerAdvance checks file (.leaving (.error (.error e)) [])
      (.done (some (.reader file.filename e)))
  | panicked (p : Panic) : WorkerAdvance checks file (.leaving (.error (.panic p)) []) .panicked

lemma Worker.advance_cases {checks : OverflowChecks} {file : FileInfo R} {w w' : Worker R}
    (h : w.advance checks file = some w') : WorkerAdvance checks file w w' := by
  unfold Worker.advance at h
  split at h
  case h_1 s => cases h; exact .eof s
  case h_2 e events s => cases h; exact .syntaxError e events s
  case h_3 tok events s =>
    split at h
    case h_1 s' hstep => cases h; exact .token tok events s s' hstep
    case h_2 why out hstep => cases h; exact .fault tok events s why out hstep
  case h_4 => cases h; exact .done
  case h_5 e => cases h; exact .failed e
  case h_6 p => cases h; exact .panicked p
  case h_7 => cases h

/-! ### The invariant of a worker -/

/-- A worker that has sent `log` is on the way to what a parse of its file alone sends. -/
inductive WorkerOk (checks : OverflowChecks) (file : FileInfo R) (log : List Diagnostic) : Worker R → Prop
  | waiting (hlog : log = []) : WorkerOk checks file log .waiting
  | parsing (before : List Event) (events : List (Except XmlError Event)) (s : ParserState R)
      (unsent : List Diagnostic) (hevents : file.streamFactory () = before.map .ok ++ events)
      (hrun : eventLoop checks file.descriptors.tree (before.map .ok) .init = .next s)
      (hlog : log ++ unsent = s.out.sent) : WorkerOk checks file log (.parsing events s unsent)
  | leaving (unsent : List Diagnostic) (hlog : log ++ unsent = (file.parse checks).out.sent) :
      WorkerOk checks file log (.leaving (file.parse checks).result unsent)
  | done (error : Option PipelineError) (hresult : processFile checks file = .ok error)
      (hlog : log = (file.parse checks).out.sent) : WorkerOk checks file log (.done error)
  | panicked (p : Panic) (hresult : processFile checks file = .error p)
      (hlog : log = (file.parse checks).out.sent) : WorkerOk checks file log .panicked

section Worker

variable {checks : OverflowChecks} {file : FileInfo R} {log : List Diagnostic} {w w' : Worker R}

lemma workerOk_start : WorkerOk checks file [] (.parsing (file.streamFactory ()) .init []) :=
  .parsing [] _ .init [] rfl rfl rfl

/-- The outcome of a parse whose loop ends so. -/
def Flow.outcome : Flow R → Outcome R
  | .next s => ⟨.ok (), flushDiagnostics s.out⟩
  | .stop why out => ⟨.error why, out⟩

omit [Rule R] in
@[simp] lemma outcome_next (s : ParserState R) :
    (Flow.next s).outcome = ⟨.ok (), flushDiagnostics s.out⟩ :=
  rfl

omit [Rule R] in
@[simp] lemma outcome_stop (why : Stop) (out : Output R) : (Flow.stop why out).outcome = ⟨.error why, out⟩ :=
  rfl

/-- The rest of the loop decides how the parse ends. -/
lemma parse_eq {before : List Event} {events : List (Except XmlError Event)} {s : ParserState R}
    (hevents : file.streamFactory () = before.map .ok ++ events)
    (hrun : eventLoop checks file.descriptors.tree (before.map .ok) .init = .next s) :
    file.parse checks = (eventLoop checks file.descriptors.tree events s).outcome := by
  unfold FileInfo.parse parseFile
  rw [hevents, eventLoop_append, hrun, Flow.bind]
  cases eventLoop checks file.descriptors.tree events s with
  | next s' => rfl
  | stop why out => rfl

/-- A worker that leaves has the result of the parse of its file. -/
lemma workerOk_leaving_iff {result : Except Stop Unit} {unsent : List Diagnostic} :
    WorkerOk checks file log (.leaving result unsent) ↔
      (file.parse checks).result = result ∧ log ++ unsent = (file.parse checks).out.sent := by
  constructor
  · intro h
    generalize hw : Worker.leaving result unsent = w at h
    cases h with
    | leaving unsent' hlog =>
      obtain ⟨rfl, rfl⟩ := Worker.leaving.inj hw
      exact ⟨rfl, hlog⟩
    | waiting => cases hw
    | parsing => cases hw
    | done => cases hw
    | panicked => cases hw
  · rintro ⟨rfl, hlog⟩
    exact .leaving unsent hlog

/-- What a worker does by itself keeps the invariant. -/
theorem WorkerOk.advance (h : WorkerOk checks file log w) (hadvance : w.advance checks file = some w') :
    WorkerOk checks file log w' := by
  have hwf := file.descriptors.wellFormed
  cases Worker.advance_cases hadvance with
  | eof s =>
    cases h with
    | parsing before _ _ _ hevents hrun hlog =>
      have hparse := parse_eq hevents hrun
      rw [eventLoop, outcome_next] at hparse
      rw [List.append_nil] at hlog
      rw [workerOk_leaving_iff, hparse, hlog]
      exact ⟨rfl, rfl⟩
  | syntaxError e events s =>
    cases h with
    | parsing before _ _ _ hevents hrun hlog =>
      have hparse := parse_eq hevents hrun
      rw [eventLoop, outcome_stop] at hparse
      rw [workerOk_leaving_iff, hparse, hlog]
      exact ⟨rfl, rfl⟩
  | token tok events s s' hstep =>
    cases h with
    | parsing before _ _ _ hevents hrun hlog =>
      have hsent := sent_prefix_step hwf hrun tok
      rw [hstep] at hsent
      rw [List.append_nil] at hlog
      refine .parsing (before ++ [tok]) events s' _ (by simp [hevents]) (run_snoc hrun hstep) ?_
      rw [hlog]
      exact (List.prefix_append_drop hsent).symm
  | fault tok events s why out hstep =>
    cases h with
    | parsing before _ _ _ hevents hrun hlog =>
      have hsent := sent_prefix_step hwf hrun tok
      have hparse := parse_eq hevents hrun
      rw [hstep] at hsent
      rw [eventLoop, hstep, Flow.bind, outcome_stop] at hparse
      rw [List.append_nil] at hlog
      rw [workerOk_leaving_iff, hparse, hlog]
      exact ⟨rfl, (List.prefix_append_drop hsent).symm⟩
  | done =>
    obtain ⟨hresult, hlog⟩ := workerOk_leaving_iff.mp h
    rw [List.append_nil] at hlog
    exact .done none (by rw [processFile, hresult]) hlog
  | failed e =>
    obtain ⟨hresult, hlog⟩ := workerOk_leaving_iff.mp h
    rw [List.append_nil] at hlog
    exact .done _ (by rw [processFile, hresult]) hlog
  | panicked p =>
    obtain ⟨hresult, hlog⟩ := workerOk_leaving_iff.mp h
    rw [List.append_nil] at hlog
    exact .panicked p (by rw [processFile, hresult]) hlog

/-- What a worker sends is logged. -/
theorem WorkerOk.send {diag : Diagnostic} (h : WorkerOk checks file log w) (hsend : w.send = some (diag, w')) :
    WorkerOk checks file (log ++ [diag]) w' := by
  cases h with
  | waiting => cases hsend
  | done => cases hsend
  | panicked => cases hsend
  | parsing before events s unsent hevents hrun hlog =>
    cases unsent with
    | nil => cases hsend
    | cons d unsent =>
      cases hsend
      refine .parsing before events s unsent hevents hrun ?_
      rw [← hlog, List.append_assoc, List.singleton_append]
  | leaving unsent hlog =>
    cases unsent with
    | nil => cases hsend
    | cons d unsent =>
      cases hsend
      exact .leaving unsent (by rw [← hlog, List.append_assoc, List.singleton_append])

/-- A worker has sent a beginning of what a parse of its file sends. -/
lemma WorkerOk.sent_begins (h : WorkerOk checks file log w) : log <+: (file.parse checks).out.sent := by
  cases h with
  | waiting hlog => rw [hlog]; exact List.nil_prefix
  | done error hresult hlog => rw [hlog]
  | panicked p hresult hlog => rw [hlog]
  | leaving unsent hlog => exact ⟨unsent, hlog⟩
  | parsing before events s unsent hevents hrun hlog =>
    have hwf := file.descriptors.wellFormed
    have hmore : s.out.sent <+: (file.parse checks).out.sent := by
      have hok := run_ok checks hwf (follows_of_run hwf hrun) events
      rw [parse_eq hevents hrun]
      generalize eventLoop checks file.descriptors.tree events s = r at hok ⊢
      cases hok with
      | next ts s' groups _ _ _ hout =>
        have hsent := sent_prefix_record groups.flatten s.out
        rw [← hout] at hsent
        exact hsent.trans (List.prefix_append _ _)
      | error e ts bad rest groups => exact sent_prefix_record _ _
      | overflow p ts tok rest done => exact sent_prefix_record _ _
    rw [← hlog] at hmore
    exact (List.prefix_append log unsent).trans hmore

/-- A worker that has something to send has not sent everything. -/
lemma WorkerOk.sent_lt {diag : Diagnostic} (h : WorkerOk checks file log w) (hsend : w.send = some (diag, w')) :
    log.length < (file.parse checks).out.sent.length := by
  have hle := (h.send hsend).sent_begins.length_le
  rwa [List.length_append, List.length_singleton] at hle

/-- When a file has been dealt with, everything is sent. -/
lemma WorkerOk.sent_ended (h : WorkerOk checks file log w) (hended : w.ended = true) :
    log = (file.parse checks).out.sent := by
  cases h with
  | waiting => cases hended
  | parsing => cases hended
  | leaving => cases hended
  | done error hresult hlog => exact hlog
  | panicked p hresult hlog => exact hlog

/-! ### Progress -/

/-- A bound on the steps that are left for a file, apart from sending. -/
def Worker.remaining (file : FileInfo R) : Worker R → ℕ
  | .waiting => (file.streamFactory ()).length + 3
  | .parsing events _ _ => events.length + 2
  | .leaving _ _ => 1
  | .done _ => 0
  | .panicked => 0

lemma Worker.remaining_advance (hadvance : w.advance checks file = some w') :
    w'.remaining file < w.remaining file := by
  cases Worker.advance_cases hadvance with
  | eof s => simp [remaining]
  | syntaxError e events s => simp [remaining]
  | token tok events s s' hstep => simp [remaining]
  | fault tok events s why out hstep => simp [remaining]
  | done => simp [remaining]
  | failed e => simp [remaining]
  | panicked p => simp [remaining]

lemma Worker.remaining_send {diag : Diagnostic} (hsend : w.send = some (diag, w')) :
    w'.remaining file = w.remaining file := by
  unfold Worker.send at hsend
  split at hsend
  case h_1 => cases hsend; rfl
  case h_2 => cases hsend; rfl
  case h_3 => cases hsend

/-- A worker that holds a thread goes on or has something to send. -/
lemma Worker.active_cases (checks : OverflowChecks) (file : FileInfo R) (h : w.active = true) :
    (∃ w', w.advance checks file = some w') ∨ ∃ diag w', w.send = some (diag, w') := by
  cases w with
  | waiting => cases h
  | done => cases h
  | panicked => cases h
  | parsing events s unsent =>
    cases unsent with
    | cons diag unsent => exact .inr ⟨diag, _, rfl⟩
    | nil =>
      refine .inl ?_
      cases events with
      | nil => exact ⟨_, rfl⟩
      | cons event events =>
        cases event with
        | error e => exact ⟨_, rfl⟩
        | ok tok =>
          rw [Worker.advance]
          cases step checks file.descriptors.tree tok s with
          | next s' => exact ⟨_, rfl⟩
          | stop why out => exact ⟨_, rfl⟩
  | leaving result unsent =>
    cases unsent with
    | cons diag unsent => exact .inr ⟨diag, _, rfl⟩
    | nil =>
      refine .inl ?_
      cases result with
      | ok => exact ⟨_, rfl⟩
      | error why => cases why <;> exact ⟨_, rfl⟩

end Worker

end XmlOxydizer
