import XmlOxydizer.Proofs.Threads

/-!
# Files that arrive during a run

The files of `run_pipeline_streaming` come from a channel that a client fills while they are processed. Such a run
is a run on all the files, with pauses while the client has nothing to offer. It does not return before the client
drops its sender, and neither a full nor an empty file channel stops it for good.
-/

namespace XmlOxydizer

open Relation Transitions

variable {R : Type} [Rule R]

/-- The files that have been taken have been sent, and the client has waited for room in the channel. -/
structure IntakeOk (checks : OverflowChecks) (env : Environment) (fileCapacity : Option ℕ)
    (files : List (FileInfo R)) (x : Intake R files.length) : Prop where
  pipeline_ok : PipelineOk checks files x.pipeline
  scheduled : Scheduled env x.pipeline
  offered_le : x.offered ≤ files.length
  taken : ∀ i ∈ x.pipeline.invoked, i.val < x.offered
  in_channel : ∀ capacity ∈ fileCapacity, x.offered ≤ x.pipeline.invoked.length + capacity + 1
  closed : x.closed = true → x.offered = files.length

section

variable {checks : OverflowChecks} {env : Environment} {fileCapacity : Option ℕ} {files : List (FileInfo R)}
  {x y : Intake R files.length} {st st' : Pipeline R files.length}

lemma intakeOk_init : IntakeOk checks env fileCapacity files .init where
  pipeline_ok := pipelineOk_init
  scheduled := scheduled_init
  offered_le := Nat.zero_le _
  taken := fun _ hi => absurd hi List.not_mem_nil
  in_channel := fun _ _ => Nat.zero_le _
  closed := nofun

lemma invoked_le (h : PipelineStep checks env files st st') : st.invoked.length ≤ st'.invoked.length := by
  cases fileStep_of_step h with
  | start i w _ _ _ _ _ hinvoked =>
    rw [hinvoked, List.length_append]
    omega
  | advance i w _ _ _ hinvoked => rw [hinvoked]
  | send i diag w _ _ _ hinvoked => rw [hinvoked]
  | receive _ hinvoked => rw [hinvoked]

lemma IntakeOk.step (h : IntakeOk checks env fileCapacity files x)
    (hstep : IntakeStep checks env fileCapacity files x y) : IntakeOk checks env fileCapacity files y := by
  cases hstep with
  | offer hmore hreturned =>
    refine ⟨h.pipeline_ok, h.scheduled, hmore, fun i hi => ?_, fun capacity hcapacity => ?_, fun hclosed => ?_⟩
    · exact (h.taken i hi).trans (Nat.lt_succ_self _)
    · exact Nat.succ_le_succ (hreturned capacity hcapacity)
    · have hall := h.closed hclosed
      omega
  | close _ hall _ => exact ⟨h.pipeline_ok, h.scheduled, h.offered_le, h.taken, h.in_channel, fun _ => hall⟩
  | pipeline st hpipeline hsent =>
    refine ⟨h.pipeline_ok.step hpipeline, h.scheduled.step (fileStep_of_step hpipeline), h.offered_le, hsent,
      fun capacity hcapacity => ?_, h.closed⟩
    have hle := invoked_le hpipeline
    have hroom := h.in_channel capacity hcapacity
    dsimp only
    omega

/-- What is left to do, for the client and for the pipeline. -/
def Intake.measure (checks : OverflowChecks) (files : List (FileInfo R)) (x : Intake R files.length) : ℕ :=
  x.pipeline.measure checks files + (files.length - x.offered) + if x.closed then 0 else 1

lemma IntakeOk.measure_lt (h : IntakeOk checks env fileCapacity files x)
    (hstep : IntakeStep checks env fileCapacity files x y) : y.measure checks files < x.measure checks files := by
  unfold Intake.measure
  cases hstep with
  | offer hmore _ =>
    dsimp only
    omega
  | close hopen _ _ => simp [hopen]
  | pipeline st hpipeline _ =>
    have hlt := measure_step h.pipeline_ok hpipeline
    dsimp only
    omega

lemma active_pipelineStep (checks : OverflowChecks) (env : Environment) {i : Fin files.length}
    (hactive : (st.workers i).active = true) :
    ∃ st', PipelineStep checks env files st st' ∧ st'.invoked = st.invoked := by
  cases hqueue : st.queue with
  | cons message queue => exact ⟨_, .receive st message queue hqueue, rfl⟩
  | nil =>
    rcases Worker.active_cases checks (files.get i) hactive with ⟨w, hadvance⟩ | ⟨diag, w, hsend⟩
    · obtain ⟨collected, hcollects⟩ := exists_collects w st.collected
      exact ⟨_, .worker _ _ (.advance st i w hadvance collected hcollects), rfl⟩
    · exact ⟨_, .handOver st i diag w hsend hqueue, rfl⟩

lemma mem_invoked_iff (hfeed : env.feed = .receiver) (h : Scheduled env st) (i : Fin files.length) :
    i ∈ st.invoked ↔ i.val < st.invoked.length := by
  rw [← mem_take_finRange, ← h.in_order hfeed]

/-- A run only stops when the client has sent all files and dropped its sender, and all files have been dealt
with. -/
lemma IntakeOk.terminal (h : IntakeOk checks env fileCapacity files x) (hfeed : env.feed = .receiver)
    (hterminal : Terminal (IntakeStep checks env fileCapacity files) x) :
    x.closed = true ∧ ∀ i, (x.pipeline.workers i).ended = true := by
  have hinactive : ∀ i, (x.pipeline.workers i).active = false := by
    intro i
    by_contra hactive
    obtain ⟨st', hstep, hinvoked⟩ := active_pipelineStep checks env (Bool.eq_true_of_not_eq_false hactive)
    apply hterminal
    exact .pipeline x st' hstep (hinvoked ▸ h.taken)
  have hzero : x.pipeline.activeCount = 0 := by
    apply List.countP_eq_zero.mpr
    intro i _
    rw [hinactive i]
    exact Bool.false_ne_true
  have htaken : x.offered ≤ x.pipeline.invoked.length := by
    by_contra hlt
    have hle := h.offered_le
    have hnext : x.pipeline.invoked.length < files.length := by omega
    have hmem := mem_invoked_iff hfeed h.scheduled
    have hwaiting : x.pipeline.workers ⟨x.pipeline.invoked.length, hnext⟩ = .waiting := by
      by_contra hstarted
      have hnot := (hmem _).mp ((h.scheduled.mem_invoked _).mpr hstarted)
      exact absurd hnot (lt_irrefl _)
    apply hterminal
    refine .pipeline x _ (.worker _ _ (.start x.pipeline _ hwaiting ?_ ?_)) ?_
    · rw [hzero]
      exact env.threads_pos
    · intro _ j hj
      exact (h.scheduled.mem_invoked j).mp ((hmem j).mpr hj)
    · intro i hi
      rcases List.mem_append.mp hi with hi | hi
      · exact h.taken i hi
      · rw [List.mem_singleton.mp hi]
        dsimp only
        omega
  have hreturned : x.SendReturned fileCapacity := fun capacity _ => htaken.trans (Nat.le_add_right _ _)
  have hall : x.offered = files.length := by
    by_contra hne
    have hle := h.offered_le
    apply hterminal
    exact .offer x (by omega) hreturned
  refine ⟨?_, fun i => ?_⟩
  · by_contra hopen
    apply hterminal
    exact .close x (Bool.eq_false_of_not_eq_true hopen) hall hreturned
  · by_contra hended
    rcases Worker.not_ended (Bool.eq_false_of_not_eq_true hended) with hwaiting | hactive
    · have hi : i ∈ x.pipeline.invoked := (mem_invoked_iff hfeed h.scheduled i).mpr (by omega)
      exact (h.scheduled.mem_invoked i).mp hi hwaiting
    · rw [hinactive i] at hactive
      cases hactive

lemma intake_run (hrun : ReflTransGen (IntakeStep checks env fileCapacity files) .init x) :
    IntakeOk checks env fileCapacity files x ∧
      ReflTransGen (PipelineStep checks env files) .init x.pipeline := by
  refine ⟨invariant (fun _ _ h hstep => h.step hstep) intakeOk_init hrun, ?_⟩
  induction hrun with
  | refl => exact .refl
  | tail _ hlast ih =>
    cases hlast with
    | offer => exact ih
    | close => exact ih
    | pipeline st hpipeline _ => exact ih.tail hpipeline

end

/-- Files may be sent while the run is under way, through a file channel of any capacity. What the pipeline does
is what it does in some run that has all files from the start, and it takes no file before it is sent. When it
returns, all files have been sent, each stream factory has been called once, and the errors are those of the files
that fail alone. Where no file panics, every run can be continued until it returns. No run goes on forever. -/
theorem arriving_files (checks : OverflowChecks) (env : Environment) (hfeed : env.feed = .receiver)
    (fileCapacity : Option ℕ) (files : List (FileInfo R)) :
    (∀ x, ReflTransGen (IntakeStep checks env fileCapacity files) .init x →
      ReflTransGen (PipelineStep checks env files) .init x.pipeline ∧
      (∀ i ∈ x.pipeline.invoked, i.val < x.offered) ∧
      (∀ capacity ∈ fileCapacity, x.offered ≤ x.pipeline.invoked.length + capacity + 1) ∧
      ∀ errors, x.Returns errors → x.offered = files.length ∧ (∀ i, x.pipeline.invoked.count i = 1) ∧
        errors.Perm (failures checks files)) ∧
    ((∀ file ∈ files, ∃ error, processFile checks file = .ok error) →
      ∀ x, ReflTransGen (IntakeStep checks env fileCapacity files) .init x →
        ∃ y errors, ReflTransGen (IntakeStep checks env fileCapacity files) x y ∧ y.Returns errors) ∧
    ∀ run : ℕ → Intake R files.length, run 0 = .init →
      ¬ ∀ n, IntakeStep checks env fileCapacity files (run n) (run (n + 1)) := by
  refine ⟨fun x hrun => ?_, fun hfiles x hrun => ?_, fun run hinit => ?_⟩
  · obtain ⟨h, hpipeline⟩ := intake_run hrun
    refine ⟨hpipeline, h.taken, h.in_channel, fun errors hreturns => ?_⟩
    obtain ⟨hclosed, hreturns⟩ := hreturns
    refine ⟨h.closed hclosed, fun i => ?_, (h.pipeline_ok.returned hreturns).1⟩
    obtain ⟨error, herror⟩ := hreturns.1 i
    rw [h.pipeline_ok.invoked_eq, herror]
    rfl
  · obtain ⟨h, -⟩ := intake_run hrun
    obtain ⟨y, hmore, hterminal⟩ := exists_terminal (Intake.measure checks files)
      (fun _ _ h hstep => IntakeOk.step h hstep) (fun _ _ h hstep => IntakeOk.measure_lt h hstep) h
    obtain ⟨h', -⟩ := intake_run (hrun.trans hmore)
    obtain ⟨hclosed, hended⟩ := h'.terminal hfeed hterminal
    obtain ⟨errors, hreturns⟩ := h'.pipeline_ok.returns hended hfiles .receiver
    exact ⟨y, errors, hmore, hclosed, hreturns⟩
  · apply no_infinite_run (Intake.measure checks files) (fun _ _ h hstep => IntakeOk.step h hstep)
      (fun _ _ h hstep => IntakeOk.measure_lt h hstep) run
    rw [hinit]
    exact intakeOk_init

/-- Two files through a channel without a buffer, to a single thread. -/
theorem arriving_files_sample : ∃ y errors,
    ReflTransGen (IntakeStep .checked singleEnvironment (some 0) sampleFiles) .init y ∧ y.Returns errors ∧
      y.offered = 2 ∧ errors.Perm (failures .checked sampleFiles) := by
  obtain ⟨hsafe, hends, -⟩ := arriving_files .checked singleEnvironment rfl (some 0) sampleFiles
  obtain ⟨y, errors, hrun, hreturns⟩ := hends sampleFiles_return .init .refl
  obtain ⟨-, -, -, hreturned⟩ := hsafe y hrun
  obtain ⟨hoffered, -, hperm⟩ := hreturned errors hreturns
  exact ⟨y, errors, hrun, hreturns, hoffered, hperm⟩

end XmlOxydizer
