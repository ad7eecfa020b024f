import XmlOxydizer.Proofs.Schedules

/-!
# A diagnostics channel that is drained at the end

The documented usage keeps the receiver of a bounded channel and reads from it when `run_pipeline` has
returned. The run gets stuck exactly when the files send more diagnostics than the channel can hold.
-/

namespace XmlOxydizer

open Relation Transitions

variable {R : Type} [Rule R]

/-- The worker of a file waits in `send` for room in the channel. -/
def Pipeline.Blocked {n : ℕ} (env : Environment) (st : Pipeline R n) (i : Fin n) : Prop :=
  (st.workers i).send.isSome = true ∧ ¬ env.HasRoom st.queue

/-- A file is unfinished, all workers are blocked, and no thread is left for a file that waits. -/
structure Pipeline.Stuck {n : ℕ} (env : Environment) (st : Pipeline R n) : Prop where
  unfinished : ∃ i, (st.workers i).ended = false
  blocked : ∀ i, (st.workers i).active = true → st.Blocked env i
  no_thread : (∃ i, st.workers i = .waiting) → env.threads ≤ st.activeCount

/-- No run whose messages are not received gets stuck. -/
def NeverStuck (checks : OverflowChecks) (env : Environment) (files : List (FileInfo R)) : Prop :=
  ∀ st, ReflTransGen (WorkerStep checks env files) .init st → ¬ st.Stuck env

/-- The diagnostics channel can hold `capacity` messages. -/
def Environment.bounded (env : Environment) (capacity : ℕ) : Environment :=
  { env with capacity := some capacity }

/-- The invariant of a run whose messages stay in the channel. -/
structure Undrained (checks : OverflowChecks) (capacity : ℕ) (files : List (FileInfo R))
    (st : Pipeline R files.length) : Prop where
  pipeline_ok : PipelineOk checks files st
  received_eq : st.received = []
  queue_le : st.queue.length ≤ capacity

section

variable {checks : OverflowChecks} {env : Environment} {capacity : ℕ} {files : List (FileInfo R)}
  {st st' : Pipeline R files.length}

lemma undrained_init : Undrained checks capacity files Pipeline.init :=
  ⟨pipelineOk_init, rfl, Nat.zero_le _⟩

lemma Undrained.step (h : Undrained checks capacity files st)
    (hstep : WorkerStep checks (env.bounded capacity) files st st') : Undrained checks capacity files st' := by
  refine ⟨h.pipeline_ok.workerStep hstep, ?_, ?_⟩
  · cases hstep with
    | start => exact h.received_eq
    | advance => exact h.received_eq
    | send => exact h.received_eq
  · cases hstep with
    | start => exact h.queue_le
    | advance => exact h.queue_le
    | send i diag w hsend hroom =>
      have hlt : st.queue.length < capacity := hroom capacity rfl
      rw [List.length_append, List.length_singleton]
      omega

/-- What is in the channel is all that was sent. -/
lemma Undrained.log_eq (h : Undrained checks capacity files st) : st.received ++ st.queue = st.queue := by
  rw [h.received_eq, List.nil_append]

/-- A stuck run has more to send than the channel can hold. -/
lemma Undrained.lt_total (h : Undrained checks capacity files st) (hstuck : st.Stuck (env.bounded capacity)) :
    capacity < totalSent checks files := by
  have hactive : ∃ i, (st.workers i).active = true := by
    by_contra hnone
    push Not at hnone
    obtain ⟨i, hi⟩ := hstuck.unfinished
    have hwaiting := (Worker.not_ended hi).resolve_right (hnone i)
    have hzero : st.activeCount = 0 := List.countP_eq_zero.mpr fun j _ => hnone j
    have hthreads := hstuck.no_thread ⟨i, hwaiting⟩
    have hpos := (env.bounded capacity).threads_pos
    omega
  obtain ⟨i, hi⟩ := hactive
  obtain ⟨hsome, hfull⟩ := hstuck.blocked i hi
  obtain ⟨⟨diag, w⟩, hsend⟩ := Option.isSome_iff_exists.mp hsome
  have hlt := h.pipeline_ok.log_lt hsend
  rw [h.log_eq] at hlt
  have hge : capacity ≤ st.queue.length := by
    by_contra hroom
    refine hfull fun c hc => ?_
    obtain rfl : capacity = c := Option.some.inj hc
    omega
  omega

/-- A run that can go no further has dealt with all files, or it is stuck. -/
lemma terminal_stuck (hterminal : Terminal (WorkerStep checks env files) st) :
    (∀ i, (st.workers i).ended = true) ∨ st.Stuck env := by
  by_cases hended : ∀ i, (st.workers i).ended = true
  · exact .inl hended
  · push Not at hended
    obtain ⟨i, hi⟩ := hended
    refine .inr ⟨⟨i, Bool.eq_false_of_not_eq_true hi⟩, fun j hj => ?_, fun hwaiting => ?_⟩
    · refine (active_step checks env hj).resolve_left ?_
      rintro ⟨st', hstep⟩
      exact hterminal st' hstep
    · by_contra hthread
      obtain ⟨st', hstep⟩ := exists_start checks hwaiting (Nat.lt_of_not_le hthread)
      exact hterminal st' hstep

variable (env) in
/-- Where the files send more than the channel can hold, every run gets stuck. -/
lemma exists_stuck (htotal : capacity < totalSent checks files) :
    ∃ st, ReflTransGen (WorkerStep checks (env.bounded capacity) files) .init st ∧
      st.Stuck (env.bounded capacity) := by
  have hstep : ∀ st st', Undrained checks capacity files st →
      WorkerStep checks (env.bounded capacity) files st st' → Undrained checks capacity files st' :=
    fun _ _ h => h.step
  have hfalls : ∀ st st', Undrained checks capacity files st →
      WorkerStep checks (env.bounded capacity) files st st' →
      st'.measure checks files < st.measure checks files := fun _ _ h => measure_workerStep h.pipeline_ok
  obtain ⟨st, hrun, hterminal⟩ := exists_terminal _ hstep hfalls undrained_init
  refine ⟨st, hrun, (terminal_stuck hterminal).resolve_left fun hended => ?_⟩
  have hundrained := invariant hstep undrained_init hrun
  have hall := hundrained.pipeline_ok.log_eq hended
  rw [hundrained.log_eq] at hall
  have hle := hundrained.queue_le
  omega

end

/-- A run whose messages are not received never gets stuck exactly when the files, parsed alone, send no
more diagnostics together than the channel can hold. -/
theorem neverStuck_iff (checks : OverflowChecks) (env : Environment) (files : List (FileInfo R))
    (capacity : ℕ) :
    NeverStuck checks (env.bounded capacity) files ↔ totalSent checks files ≤ capacity := by
  constructor
  · intro hnever
    by_contra htotal
    obtain ⟨st, hrun, hstuck⟩ := exists_stuck env (Nat.lt_of_not_le htotal)
    exact hnever st hrun hstuck
  · intro htotal st hrun hstuck
    have hundrained : Undrained checks capacity files st :=
      invariant (fun _ _ h => h.step) undrained_init hrun
    have hlt := hundrained.lt_total hstuck
    omega

/-- The sample files send two diagnostics, which do not fit into a channel for one. -/
theorem not_neverStuck : ¬ NeverStuck .checked (sampleEnvironment.bounded 1) sampleFiles := by
  have htotal : 1 < totalSent .checked sampleFiles := by decide +kernel
  obtain ⟨st, hrun, hstuck⟩ := exists_stuck sampleEnvironment htotal
  exact fun hnever => hnever st hrun hstuck

end XmlOxydizer
