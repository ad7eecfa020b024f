import XmlOxydizer.Proofs.Threads

/-!
# A receiver that is dropped

The receiver of the diagnostics channel may be dropped while a run is under way. To the workers this looks as if
it took every message: a run whose receiver is dropped is simulated by one whose receiver keeps taking messages,
with the same workers and the same errors. What was received before is a beginning of what the other run receives.
-/

namespace XmlOxydizer

open Interleaving Relation Transitions

variable {R : Type} [Rule R]

/-- The second run has taken the messages that are lost in the first one. -/
inductive Shadow {n : ℕ} : Pipeline R n × Bool → Pipeline R n → Prop
  | connected (st : Pipeline R n) : Shadow (st, true) st
  | dropped (st : Pipeline R n) (lost : List (Fin n × Diagnostic)) (hqueue : st.queue = []) :
      Shadow (st, false) { st with received := st.received ++ lost }

section

variable {checks : OverflowChecks} {env : Environment} {files : List (FileInfo R)}
  {st st' : Pipeline R files.length} {x y : Pipeline R files.length × Bool}

lemma receive_all (queue : List (Fin files.length × Diagnostic)) (hqueue : st.queue = queue) :
    ReflTransGen (PipelineStep checks env files) st { st with queue := [], received := st.received ++ queue } := by
  induction queue generalizing st with
  | nil =>
    rw [List.append_nil, ← hqueue]
  | cons message queue ih =>
    have hrest := @ih { st with queue, received := st.received ++ [message] } rfl
    dsimp only at hrest
    rw [List.append_assoc, List.singleton_append] at hrest
    exact .head (.receive st message queue hqueue) hrest

lemma WorkerStep.with_received (h : WorkerStep checks env files st st') (hsilent : st'.queue = st.queue)
    (received : List (Fin files.length × Diagnostic)) :
    WorkerStep checks env files { st with received } { st' with received } := by
  cases h with
  | start i hwaiting hthread hfirst => exact .start { st with received } i hwaiting hthread hfirst
  | advance i w hadvance collected hcollects =>
    exact .advance { st with received } i w hadvance collected hcollects
  | send i diag w hsend hroom => simp at hsilent

/-- What is left to do in the run that receives everything, and the dropping of the receiver. -/
def Shadow.measure (checks : OverflowChecks) (files : List (FileInfo R)) (x : Pipeline R files.length × Bool)
    (st : Pipeline R files.length) : ℕ := st.measure checks files + if x.2 then 1 else 0

lemma measure_run (h : PipelineOk checks files st) (hrun : ReflTransGen (PipelineStep checks env files) st st') :
    PipelineOk checks files st' ∧ st'.measure checks files ≤ st.measure checks files := by
  induction hrun with
  | refl => exact ⟨h, le_rfl⟩
  | tail _ hlast ih => exact ⟨ih.1.step hlast, (measure_step ih.1 hlast).le.trans ih.2⟩

/-- Every step is simulated, and leaves less to do. -/
lemma Shadow.step (h : Shadow x st) (hok : PipelineOk checks files st)
    (hstep : DroppingStep checks env files x y) :
    ∃ st', ReflTransGen (PipelineStep checks env files) st st' ∧ Shadow y st' ∧
      Shadow.measure checks files y st' < Shadow.measure checks files x st := by
  have hsingle : ∀ {st' : Pipeline R files.length} {b : Bool}, PipelineStep checks env files st st' →
      st'.measure checks files + (if b then 1 else 0) < st.measure checks files + if b then 1 else 0 :=
    fun hpipeline => Nat.add_lt_add_right (measure_step hok hpipeline) _
  cases hstep with
  | connected st₀ st₁ hpipeline =>
    cases h
    exact ⟨st₁, .single hpipeline, .connected st₁, hsingle hpipeline⟩
  | drop st₀ =>
    cases h
    have hall : ReflTransGen (PipelineStep checks env files) st _ := receive_all st.queue rfl
    exact ⟨_, hall, .dropped _ _ rfl, Nat.lt_succ_of_le (measure_run hok hall).2⟩
  | worker st₀ st₁ hworker hsilent =>
    cases h with
    | dropped _ lost hqueue =>
      have hreceived : st₁.received = st₀.received := by cases hworker <;> rfl
      have hpipeline := PipelineStep.worker _ _ (hworker.with_received hsilent (st₀.received ++ lost))
      refine ⟨_, .single hpipeline, ?_, hsingle hpipeline⟩
      rw [← hreceived]
      exact .dropped st₁ lost (hsilent.trans hqueue)
  | lose st₀ i diag w hsend =>
    cases h with
    | dropped _ lost hqueue =>
      have hpipeline : PipelineStep checks env files _ _ :=
        .handOver { st₀ with received := st₀.received ++ lost } i diag w hsend hqueue
      refine ⟨_, .single hpipeline, ?_, hsingle hpipeline⟩
      dsimp only
      rw [List.append_assoc]
      exact .dropped _ _ hqueue

lemma DroppingStep.of_worker (h : WorkerStep checks env files st st') :
    ∃ y, DroppingStep checks env files (st, false) y := by
  cases id h with
  | start => exact ⟨_, .worker _ _ h rfl⟩
  | advance => exact ⟨_, .worker _ _ h rfl⟩
  | send i diag w hsend => exact ⟨_, .lose st i diag w hsend⟩

/-- A run only stops when the receiver is gone and all files have been dealt with. -/
lemma dropping_terminal (hterminal : Terminal (DroppingStep checks env files) x) :
    x.2 = false ∧ ∀ i, (x.1.workers i).ended = true := by
  obtain ⟨st, connected⟩ := x
  cases connected with
  | true => exact absurd (.drop st) (hterminal _)
  | false =>
    have hnone : ∀ st', ¬ WorkerStep checks env files st st' := by
      intro st' hworker
      obtain ⟨y, hy⟩ := DroppingStep.of_worker hworker
      exact hterminal y hy
    have hinactive : ∀ i, (st.workers i).active = false := by
      intro i
      by_contra hactive
      rcases active_step checks env (Bool.eq_true_of_not_eq_false hactive) with ⟨st', hstep⟩ | ⟨hsome, -⟩
      · exact hnone st' hstep
      · obtain ⟨⟨diag, w⟩, hsend⟩ := Option.isSome_iff_exists.mp hsome
        exact hterminal _ (.lose st i diag w hsend)
    refine ⟨rfl, fun i => ?_⟩
    by_contra hended
    rcases Worker.not_ended (Bool.eq_false_of_not_eq_true hended) with hwaiting | hactive
    · have hzero : st.activeCount = 0 := by
        apply List.countP_eq_zero.mpr
        intro j _
        rw [hinactive j]
        exact Bool.false_ne_true
      obtain ⟨st', hstep⟩ := exists_start checks ⟨i, hwaiting⟩ (hzero ▸ env.threads_pos)
      exact hnone st' hstep
    · rw [hinactive i] at hactive
      cases hactive

/-- A run whose receiver may be dropped, beside the run that receives what the first one loses. -/
structure Shadowed (checks : OverflowChecks) (files : List (FileInfo R)) (x : Pipeline R files.length × Bool)
    (st : Pipeline R files.length) : Prop where
  shadow : Shadow x st
  pipeline_ok : PipelineOk checks files st

lemma shadowed_init : Shadowed checks files (.init, true) .init := ⟨.connected .init, pipelineOk_init⟩

lemma Shadowed.step (h : Shadowed checks files x st) (hstep : DroppingStep checks env files x y) :
    ∃ st', ReflTransGen (PipelineStep checks env files) st st' ∧ Shadowed checks files y st' ∧
      Shadow.measure checks files y st' < Shadow.measure checks files x st := by
  obtain ⟨st', hrun, hshadow, hlt⟩ := h.shadow.step h.pipeline_ok hstep
  exact ⟨st', hrun, ⟨hshadow, (measure_run h.pipeline_ok hrun).1⟩, hlt⟩

lemma Shadowed.run (h : Shadowed checks files x st) (hrun : ReflTransGen (DroppingStep checks env files) x y) :
    ∃ st', ReflTransGen (PipelineStep checks env files) st st' ∧ Shadowed checks files y st' := by
  refine simulation (fun x y st h hstep => ?_) h hrun
  obtain ⟨st', hmore, h', -⟩ := h.step hstep
  exact ⟨st', hmore, h'⟩

lemma Shadow.same (h : Shadow x st) : x.1.workers = st.workers ∧ x.1.invoked = st.invoked ∧
    x.1.collected = st.collected ∧ x.1.received <+: st.received := by
  cases h with
  | connected => exact ⟨rfl, rfl, rfl, List.prefix_rfl⟩
  | dropped _ lost => exact ⟨rfl, rfl, rfl, List.prefix_append _ _⟩

lemma Shadowed.received_begins (h : Shadowed checks files x st) (i : Fin files.length) :
    project i x.1.received <+: ((files.get i).parse checks).out.sent := by
  obtain ⟨-, -, -, more, hreceived⟩ := h.shadow.same
  have hlog := (h.pipeline_ok.workers_ok i).sent_begins
  rw [← hreceived, project_append, project_append, List.append_assoc] at hlog
  exact (List.prefix_append _ _).trans hlog

lemma Shadowed.returns_iff (h : Shadowed checks files x st) (feed : Feed) (errors : List PipelineError) :
    x.1.Returns feed errors ↔ st.Returns feed errors := by
  obtain ⟨hworkers, -, hcollected, -⟩ := h.shadow.same
  simp only [Pipeline.Returns, hworkers, hcollected]

end

/-- The receiver may be dropped at any time. The workers then do what they do in some run whose receiver takes
every message, and what was received of a file is a beginning of what the file sends alone. No channel blocks the
run: it goes on to its end, where all files have been dealt with, calls each stream factory once and returns the
errors of the files that fail alone. -/
theorem dropped_receiver (checks : OverflowChecks) (env : Environment) (files : List (FileInfo R)) :
    (∀ x, ReflTransGen (DroppingStep checks env files) (.init, true) x →
      (∃ st, ReflTransGen (PipelineStep checks env files) .init st ∧ x.1.workers = st.workers ∧
        x.1.invoked = st.invoked ∧ x.1.collected = st.collected ∧ x.1.received <+: st.received) ∧
      (∀ i, project i x.1.received <+: ((files.get i).parse checks).out.sent) ∧
      (∀ errors, x.1.Returns env.feed errors → (∀ i, x.1.invoked.count i = 1) ∧
        errors.Perm (failures checks files) ∧ (env.feed = .vector → errors = failures checks files)) ∧
      (Terminal (DroppingStep checks env files) x → ∀ i, (x.1.workers i).ended = true)) ∧
    ((∀ file ∈ files, ∃ error, processFile checks file = .ok error) →
      ∀ x, ReflTransGen (DroppingStep checks env files) (.init, true) x →
        ∃ y errors, ReflTransGen (DroppingStep checks env files) x y ∧ y.1.Returns env.feed errors) ∧
    ∀ run : ℕ → Pipeline R files.length × Bool, run 0 = (.init, true) →
      ¬ ∀ n, DroppingStep checks env files (run n) (run (n + 1)) := by
  have hsim : ∀ x y st, Shadowed checks files x st → DroppingStep checks env files x y →
      ∃ st', Shadowed checks files y st' ∧
        Shadow.measure checks files y st' < Shadow.measure checks files x st := by
    intro x y st h hstep
    obtain ⟨st', -, h', hlt⟩ := h.step hstep
    exact ⟨st', h', hlt⟩
  refine ⟨fun x hrun => ?_, fun hfiles x hrun => ?_, fun run hinit hforever => ?_⟩
  · obtain ⟨st, hreached, h⟩ := shadowed_init.run hrun
    refine ⟨⟨st, hreached, h.shadow.same⟩, h.received_begins, fun errors hreturns => ?_,
      fun hterminal => (dropping_terminal hterminal).2⟩
    rw [h.returns_iff] at hreturns
    obtain ⟨hperm, horder⟩ := h.pipeline_ok.returned hreturns
    refine ⟨fun i => ?_, hperm, horder⟩
    obtain ⟨error, herror⟩ := hreturns.1 i
    rw [h.shadow.same.2.1, h.pipeline_ok.invoked_eq, herror]
    rfl
  · obtain ⟨st, -, h⟩ := shadowed_init.run hrun
    obtain ⟨y, hmore, hterminal⟩ := exists_terminal_of_simulation _ hsim h
    obtain ⟨st', -, h'⟩ := h.run hmore
    have hended := (dropping_terminal hterminal).2
    rw [h'.shadow.same.1] at hended
    obtain ⟨errors, hreturns⟩ := h'.pipeline_ok.returns hended hfiles env.feed
    exact ⟨y, errors, hmore, (h'.returns_iff env.feed errors).mpr hreturns⟩
  · exact no_infinite_run_of_simulation _ hsim run (hinit ▸ shadowed_init) hforever

/-- The receiver is dropped before anything is sent. -/
theorem dropped_receiver_sample :
    ∃ y errors, ReflTransGen (DroppingStep .checked sampleEnvironment sampleFiles) (.init, false) y ∧
      y.1.Returns .vector errors ∧ errors = failures .checked sampleFiles ∧ (∀ i, y.1.invoked.count i = 1) := by
  obtain ⟨hsafe, hends, -⟩ := dropped_receiver .checked sampleEnvironment sampleFiles
  have hdrop : ReflTransGen (DroppingStep .checked sampleEnvironment sampleFiles) (.init, true) (.init, false) :=
    .single (.drop .init)
  obtain ⟨y, errors, hrun, hreturns⟩ := hends sampleFiles_return _ hdrop
  obtain ⟨-, -, hreturned, -⟩ := hsafe y (hdrop.trans hrun)
  obtain ⟨hinvoked, -, horder⟩ := hreturned errors hreturns
  exact ⟨y, errors, hrun, hreturns, horder rfl, hinvoked⟩

end XmlOxydizer
