import XmlOxydizer.Proofs.EvaluationTrace
import XmlOxydizer.Proofs.Workers

/-!
# Schedules of the pipeline

Whatever the order of the workers' steps, the received diagnostics are an interleaving of what the files
send when they are parsed alone, and the returned errors are those of the files that fail alone.
-/

namespace XmlOxydizer

open Interleaving Relation Transitions

variable {R : Type} [Rule R]

/-- Whether the stream factory of a file has been called. -/
def Worker.started : Worker R → Bool
  | .waiting => false
  | _ => true

/-- The errors of the files that fail when they are parsed alone, in the order of the files. -/
def failures (checks : OverflowChecks) (files : List (FileInfo R)) : List PipelineError :=
  files.filterMap (fun file => (processFile checks file).toOption.join)

/-- The invariant of a run. -/
structure PipelineOk (checks : OverflowChecks) (files : List (FileInfo R)) (st : Pipeline R files.length) :
    Prop where
  workers_ok : ∀ i, WorkerOk checks (files.get i) (project i (st.received ++ st.queue)) (st.workers i)
  invoked_eq : ∀ i, st.invoked.count i = if (st.workers i).started then 1 else 0
  collected_perm : st.collected.Perm ((List.finRange files.length).filterMap (fun i => (st.workers i).error))

section

variable {checks : OverflowChecks} {env : Environment} {files : List (FileInfo R)}
  {st st' : Pipeline R files.length}

lemma pipelineOk_init : PipelineOk checks files Pipeline.init := by
  constructor
  case workers_ok => exact fun i => .waiting rfl
  case invoked_eq => exact fun i => rfl
  case collected_perm =>
    have hnone : (List.finRange files.length).filterMap
        (fun i => ((Pipeline.init : Pipeline R files.length).workers i).error) = [] :=
      List.filterMap_eq_nil_iff.mpr fun i _ => rfl
    rw [hnone]
    exact .refl _

/-! ### What a step keeps -/

lemma Worker.advance_started {file : FileInfo R} {w w' : Worker R} (h : w.advance checks file = some w') :
    w.started = true ∧ w'.started = true ∧ w.error = none := by
  cases Worker.advance_cases h with
  | eof s => exact ⟨rfl, rfl, rfl⟩
  | syntaxError e events s => exact ⟨rfl, rfl, rfl⟩
  | token tok events s s' hstep => exact ⟨rfl, rfl, rfl⟩
  | fault tok events s why out hstep => exact ⟨rfl, rfl, rfl⟩
  | done => exact ⟨rfl, rfl, rfl⟩
  | failed e => exact ⟨rfl, rfl, rfl⟩
  | panicked p => exact ⟨rfl, rfl, rfl⟩

omit [Rule R] in
lemma Worker.send_started {w w' : Worker R} {diag : Diagnostic} (h : w.send = some (diag, w')) :
    w.started = true ∧ w'.started = true ∧ w.error = none ∧ w'.error = none := by
  unfold Worker.send at h
  split at h
  case h_1 => cases h; exact ⟨rfl, rfl, rfl, rfl⟩
  case h_2 => cases h; exact ⟨rfl, rfl, rfl, rfl⟩
  case h_3 => cases h

/-- A diagnostic goes on its way. -/
lemma PipelineOk.send (h : PipelineOk checks files st) {i : Fin files.length} {diag : Diagnostic} {w : Worker R}
    (hsend : (st.workers i).send = some (diag, w)) (hworkers : st'.workers = Function.update st.workers i w)
    (hlog : st'.received ++ st'.queue = st.received ++ st.queue ++ [(i, diag)])
    (hinvoked : st'.invoked = st.invoked) (hcollected : st'.collected = st.collected) :
    PipelineOk checks files st' := by
  obtain ⟨hold, hnew, holderr, hnewerr⟩ := Worker.send_started hsend
  constructor
  case workers_ok =>
    rw [hworkers, hlog]
    simp only [project_concat]
    apply (Function.forall_update_iff _ (fun j w => WorkerOk checks (files.get j) _ w)).mpr
    refine ⟨?_, fun j hj => ?_⟩
    · rw [if_pos rfl]
      exact (h.workers_ok i).send hsend
    · rw [if_neg (Ne.symm hj)]
      exact h.workers_ok j
  case invoked_eq =>
    rw [hworkers, hinvoked]
    refine (Function.forall_update_iff _ (fun j w => _ = if Worker.started w then 1 else 0)).mpr
      ⟨?_, fun j _ => h.invoked_eq j⟩
    rw [h.invoked_eq, hold, hnew]
  case collected_perm =>
    rw [hworkers, hcollected, filterMap_update_eq (hnewerr.trans holderr.symm)]
    exact h.collected_perm

/-- A file is started. -/
lemma PipelineOk.start (h : PipelineOk checks files st) {i : Fin files.length}
    (hwaiting : st.workers i = .waiting) :
    PipelineOk checks files { st with
      workers := Function.update st.workers i (.parsing ((files.get i).streamFactory ()) .init [])
      invoked := st.invoked ++ [i] } := by
  constructor
  case workers_ok =>
    refine (Function.forall_update_iff _ (fun j w => WorkerOk checks (files.get j) _ w)).mpr
      ⟨?_, fun j _ => h.workers_ok j⟩
    have hlog : project i (st.received ++ st.queue) = [] := by
      have hold := h.workers_ok i
      rw [hwaiting] at hold
      cases hold with
      | waiting hlog => exact hlog
    dsimp only
    rw [hlog]
    exact workerOk_start
  case invoked_eq =>
    refine (Function.forall_update_iff _ (fun j w => _ = if Worker.started w then 1 else 0)).mpr
      ⟨?_, fun j hj => ?_⟩
    · have hone : (st.invoked ++ [i]).count i = st.invoked.count i + 1 := by simp
      have hzero := h.invoked_eq i
      rw [hwaiting] at hzero
      rw [hone, hzero]
      rfl
    · have hsame : (st.invoked ++ [i]).count j = st.invoked.count j := by
        simp [List.count_append, Ne.symm hj]
      rw [hsame, h.invoked_eq]
  case collected_perm =>
    have hsame : (Worker.parsing ((files.get i).streamFactory ()) .init [] : Worker R).error =
        (st.workers i).error := by
      rw [hwaiting]
      rfl
    dsimp only
    rw [filterMap_update_eq hsame]
    exact h.collected_perm

/-- A worker does something by itself. -/
lemma PipelineOk.advance (h : PipelineOk checks files st) {i : Fin files.length} {w : Worker R}
    (hadvance : (st.workers i).advance checks (files.get i) = some w) {collected : List PipelineError}
    (hcollects : Collects w st.collected collected) :
    PipelineOk checks files { st with workers := Function.update st.workers i w, collected } := by
  obtain ⟨hold, hnew, holderr⟩ := Worker.advance_started hadvance
  constructor
  case workers_ok =>
    exact (Function.forall_update_iff _ (fun j w => WorkerOk checks (files.get j) _ w)).mpr
      ⟨(h.workers_ok i).advance hadvance, fun j _ => h.workers_ok j⟩
  case invoked_eq =>
    refine (Function.forall_update_iff _ (fun j w => _ = if Worker.started w then 1 else 0)).mpr
      ⟨?_, fun j _ => h.invoked_eq j⟩
    rw [h.invoked_eq, hold, hnew]
  case collected_perm =>
    dsimp only
    generalize hcollectedBefore : st.collected = before at hcollects
    cases hcollects with
    | silent _ _ hsilent =>
      rw [filterMap_update_eq (hsilent.trans holderr.symm), ← hcollectedBefore]
      exact h.collected_perm
    | error e errors more =>
      have hnow := filterMap_update_perm (b := .done (some e)) (g := Worker.error) rfl holderr
        (List.mem_finRange i) (List.nodup_finRange _)
      have hbefore := h.collected_perm
      rw [hcollectedBefore] at hbefore
      exact List.perm_middle.trans ((hbefore.cons e).trans hnow.symm)

theorem PipelineOk.workerStep (h : PipelineOk checks files st) (hstep : WorkerStep checks env files st st') :
    PipelineOk checks files st' := by
  cases hstep with
  | start i hwaiting hthread hfirst => exact h.start hwaiting
  | advance i w hadvance collected hcollects => exact h.advance hadvance hcollects
  | send i diag w hsend hroom => exact h.send hsend rfl (List.append_assoc _ _ _).symm rfl rfl

theorem PipelineOk.step (h : PipelineOk checks files st) (hstep : PipelineStep checks env files st st') :
    PipelineOk checks files st' := by
  cases hstep with
  | worker _ hworker => exact h.workerStep hworker
  | handOver i diag w hsend hqueue =>
    exact h.send hsend rfl (by rw [hqueue, List.append_nil, List.append_nil]) rfl rfl
  | receive x queue hqueue =>
    have hlog : st.received ++ [x] ++ queue = st.received ++ st.queue := by
      rw [hqueue, List.append_assoc, List.singleton_append]
    refine ⟨fun i => ?_, h.invoked_eq, h.collected_perm⟩
    dsimp only
    rw [hlog]
    exact h.workers_ok i

/-! ### Every run ends -/

/-- How much the files send together when they are parsed alone. -/
def totalSent (checks : OverflowChecks) (files : List (FileInfo R)) : ℕ :=
  (files.map (fun file => (file.parse checks).out.sent.length)).sum

lemma totalSent_eq (checks : OverflowChecks) (files : List (FileInfo R)) :
    totalSent checks files = ∑ i : Fin files.length, ((files.get i).parse checks).out.sent.length := by
  rw [totalSent, ← List.sum_ofFn]
  congr 1
  exact (List.ofFn_getElem_eq_map files (fun file => (file.parse checks).out.sent.length)).symm

/-- A bound on the steps that are left: those of the workers, two for a diagnostic that is not sent yet and
one for a diagnostic in the channel. -/
def Pipeline.measure (checks : OverflowChecks) (files : List (FileInfo R)) (st : Pipeline R files.length) : ℕ :=
  ∑ i, (st.workers i).remaining (files.get i) +
    2 * (totalSent checks files - (st.received ++ st.queue).length) + st.queue.length

/-- While a worker has something to send, less is sent than the files send alone. -/
lemma PipelineOk.log_lt (h : PipelineOk checks files st) {i : Fin files.length} {diag : Diagnostic}
    {w : Worker R} (hsend : (st.workers i).send = some (diag, w)) :
    (st.received ++ st.queue).length < totalSent checks files := by
  rw [length_eq_sum_project, totalSent_eq]
  exact Finset.sum_lt_sum (fun j _ => (h.workers_ok j).sent_begins.length_le)
    ⟨i, Finset.mem_univ i, (h.workers_ok i).sent_lt hsend⟩

/-- When all files have been dealt with, everything is sent. -/
lemma PipelineOk.log_eq (h : PipelineOk checks files st) (hended : ∀ i, (st.workers i).ended = true) :
    (st.received ++ st.queue).length = totalSent checks files := by
  rw [length_eq_sum_project, totalSent_eq]
  exact Finset.sum_congr rfl fun i _ => by rw [(h.workers_ok i).sent_ended (hended i)]

lemma measure_workerStep (h : PipelineOk checks files st) (hstep : WorkerStep checks env files st st') :
    st'.measure checks files < st.measure checks files := by
  unfold Pipeline.measure
  cases hstep with
  | start i hwaiting hthread hfirst =>
    have hlt := sum_update_lt (f := fun j => Worker.remaining (files.get j)) (g := st.workers) (i := i)
      (b := .parsing ((files.get i).streamFactory ()) .init []) (by rw [hwaiting]; exact Nat.lt_succ_self _)
    dsimp only
    omega
  | advance i w hadvance collected hcollects =>
    have hlt := sum_update_lt (f := fun j => Worker.remaining (files.get j)) (g := st.workers) (i := i)
      (b := w) (Worker.remaining_advance hadvance)
    dsimp only
    omega
  | send i diag w hsend hroom =>
    have heq := sum_update_eq (f := fun j => Worker.remaining (files.get j)) (g := st.workers) (i := i)
      (b := w) (Worker.remaining_send hsend)
    have hlt := h.log_lt hsend
    simp only [List.length_append, List.length_singleton] at hlt ⊢
    omega

lemma measure_step (h : PipelineOk checks files st) (hstep : PipelineStep checks env files st st') :
    st'.measure checks files < st.measure checks files := by
  cases hstep with
  | worker _ hworker => exact measure_workerStep h hworker
  | receive x queue hqueue =>
    unfold Pipeline.measure
    simp only [hqueue, List.length_append, List.length_cons]
    omega
  | handOver i diag w hsend hqueue =>
    have heq := sum_update_eq (f := fun j => Worker.remaining (files.get j)) (g := st.workers) (i := i)
      (b := w) (Worker.remaining_send hsend)
    have hlt := h.log_lt hsend
    unfold Pipeline.measure
    simp only [List.length_append, List.length_singleton, hqueue, List.length_nil] at hlt ⊢
    omega

/-! ### A run that can go no further -/

omit [Rule R] in
lemma exists_collects (w : Worker R) (errors : List PipelineError) :
    ∃ collected, Collects w errors collected := by
  cases h : w.error with
  | none => exact ⟨errors, .silent w errors h⟩
  | some e =>
    cases w with
    | done error =>
      obtain rfl : error = some e := h
      exact ⟨errors ++ [e], by simpa using Collects.error e errors []⟩
    | waiting => cases h
    | parsing => cases h
    | leaving => cases h
    | panicked => cases h

lemma Environment.threads_pos (env : Environment) : 0 < env.threads := by
  unfold Environment.threads buildPool
  have hpos := env.defaultThreads_pos
  split
  case h_1 threads _ =>
    by_cases hzero : threads = 0
    · rwa [if_pos hzero]
    · rw [if_neg hzero]
      exact Nat.pos_of_ne_zero hzero
  case h_2 => exact hpos

/-- Where a thread is free, the first waiting file can be started. -/
lemma exists_start (checks : OverflowChecks) (hwaiting : ∃ i, st.workers i = .waiting)
    (hthread : st.activeCount < env.threads) : ∃ st', WorkerStep checks env files st st' := by
  obtain ⟨i, hi, hfirst⟩ := WellFounded.has_min wellFounded_lt {i | st.workers i = .waiting} hwaiting
  exact ⟨_, .start st i hi hthread fun _ j hj hwait => hfirst j hwait hj⟩

omit [Rule R] in
lemma Worker.not_ended {w : Worker R} (h : w.ended = false) : w = .waiting ∨ w.active = true := by
  cases w with
  | waiting => exact .inl rfl
  | parsing => exact .inr rfl
  | leaving => exact .inr rfl
  | done => cases h
  | panicked => cases h

/-- A worker can go on, or it is waiting for room in the channel. -/
lemma active_step (checks : OverflowChecks) (env : Environment) {i : Fin files.length}
    (hactive : (st.workers i).active = true) : (∃ st', WorkerStep checks env files st st') ∨
      ((st.workers i).send.isSome = true ∧ ¬ env.HasRoom st.queue) := by
  rcases Worker.active_cases checks (files.get i) hactive with ⟨w, hadvance⟩ | ⟨diag, w, hsend⟩
  · obtain ⟨collected, hcollects⟩ := exists_collects w st.collected
    exact .inl ⟨_, .advance st i w hadvance collected hcollects⟩
  · by_cases hroom : env.HasRoom st.queue
    · exact .inl ⟨_, .send st i diag w hsend hroom⟩
    · exact .inr ⟨by rw [hsend]; rfl, hroom⟩

/-- While a receiver takes the messages, a run only stops when it has dealt with all files and the channel
is empty. -/
lemma terminal_ended (hterminal : Terminal (PipelineStep checks env files) st) :
    st.queue = [] ∧ ∀ i, (st.workers i).ended = true := by
  have hqueue : st.queue = [] := by
    cases hqueue : st.queue with
    | nil => rfl
    | cons x queue => exact absurd (.receive st x queue hqueue) (hterminal _)
  have hnone : ∀ i, (st.workers i).active = false := by
    intro i
    by_contra hactive
    rcases active_step checks env (Bool.eq_true_of_not_eq_false hactive) with ⟨st', hstep⟩ | ⟨hsome, -⟩
    · exact hterminal _ (.worker st st' hstep)
    · obtain ⟨⟨diag, w⟩, hsend⟩ := Option.isSome_iff_exists.mp hsome
      exact hterminal _ (.handOver st i diag w hsend hqueue)
  refine ⟨hqueue, fun i => ?_⟩
  by_contra hended
  rcases Worker.not_ended (Bool.eq_false_of_not_eq_true hended) with hwaiting | hactive
  · have hzero : st.activeCount = 0 := by
      apply List.countP_eq_zero.mpr
      intro j _
      rw [hnone j]
      exact Bool.false_ne_true
    obtain ⟨st', hstep⟩ := exists_start checks ⟨i, hwaiting⟩ (hzero ▸ env.threads_pos)
    exact hterminal _ (.worker st st' hstep)
  · rw [hnone i] at hactive
    cases hactive

/-! ### What a run returns -/

lemma PipelineOk.errors_eq (h : PipelineOk checks files st)
    (hdone : ∀ i, ∃ error, st.workers i = .done error) :
    (List.finRange files.length).filterMap (fun i => (st.workers i).error) = failures checks files := by
  have hfile : ∀ i, (st.workers i).error = (processFile checks (files.get i)).toOption.join := by
    intro i
    obtain ⟨error, herror⟩ := hdone i
    have hok := h.workers_ok i
    rw [herror] at hok ⊢
    cases hok with
    | done _ hresult _ =>
      rw [hresult]
      rfl
  rw [List.filterMap_congr fun i _ => hfile i, failures]
  conv_rhs => rw [← List.map_get_finRange files]
  rw [List.filterMap_map]
  rfl

/-- When all files have been dealt with, every sender has sent what its file sends alone. -/
lemma PipelineOk.interleaves (h : PipelineOk checks files st) (hended : ∀ i, (st.workers i).ended = true) :
    Interleaves (fun i => ((files.get i).parse checks).out.sent) ((st.received ++ st.queue).map Prod.snd) := by
  have hsent : (fun i => ((files.get i).parse checks).out.sent) =
      fun i => project i (st.received ++ st.queue) := by
    funext i
    exact ((h.workers_ok i).sent_ended (hended i)).symm
  rw [hsent]
  exact interleaves_project _

omit [Rule R] in
lemma Pipeline.Returns.ended {n : ℕ} {st : Pipeline R n} {feed : Feed} {errors : List PipelineError}
    (h : st.Returns feed errors) (i : Fin n) : (st.workers i).ended = true := by
  obtain ⟨error, herror⟩ := h.1 i
  rw [herror]
  rfl

lemma PipelineOk.returned (h : PipelineOk checks files st) {feed : Feed} {errors : List PipelineError}
    (hreturns : st.Returns feed errors) :
    errors.Perm (failures checks files) ∧ (feed = .vector → errors = failures checks files) := by
  have herrors := h.errors_eq hreturns.1
  obtain ⟨hdone, hvalue⟩ := hreturns
  cases feed with
  | vector =>
    rw [herrors] at hvalue
    exact ⟨hvalue ▸ .refl _, fun _ => hvalue⟩
  | receiver =>
    have hperm := h.collected_perm
    rw [herrors] at hperm
    exact ⟨hvalue ▸ hperm, nofun⟩

/-- A run in which no file panics returns when it can go no further. -/
lemma PipelineOk.returns (h : PipelineOk checks files st) (hended : ∀ i, (st.workers i).ended = true)
    (hfiles : ∀ file ∈ files, ∃ error, processFile checks file = .ok error) (feed : Feed) :
    ∃ errors, st.Returns feed errors := by
  have hdone : ∀ i, ∃ error, st.workers i = .done error := by
    intro i
    have hok := h.workers_ok i
    have hend := hended i
    generalize st.workers i = w at hok hend
    cases hok with
    | waiting => cases hend
    | parsing => cases hend
    | leaving => cases hend
    | done error => exact ⟨error, rfl⟩
    | panicked p hresult =>
      obtain ⟨error, herror⟩ := hfiles _ (List.get_mem files i)
      rw [herror] at hresult
      cases hresult
  cases feed with
  | vector => exact ⟨_, hdone, rfl⟩
  | receiver => exact ⟨_, hdone, rfl⟩

end

/-- When a run returns, every stream factory has been called once, the diagnostics are an interleaving of
what each file sends alone, and the errors are those of the files that fail alone. Every run can be brought
to its end, and no run goes on forever. -/
theorem pipeline_interleaves (checks : OverflowChecks) (env : Environment) (files : List (FileInfo R)) :
    (∀ st errors, ReflTransGen (PipelineStep checks env files) .init st → st.Returns env.feed errors →
      (∀ i, st.invoked.count i = 1) ∧
      Interleaves (fun i => ((files.get i).parse checks).out.sent) ((st.received ++ st.queue).map Prod.snd) ∧
      errors.Perm (failures checks files) ∧ (env.feed = .vector → errors = failures checks files)) ∧
    ((∀ file ∈ files, ∃ error, processFile checks file = .ok error) →
      ∀ st, ReflTransGen (PipelineStep checks env files) .init st →
        ∃ st' errors, ReflTransGen (PipelineStep checks env files) st st' ∧ st'.queue = [] ∧
          st'.Returns env.feed errors) ∧
    ∀ run : ℕ → Pipeline R files.length, run 0 = .init →
      ¬ ∀ n, PipelineStep checks env files (run n) (run (n + 1)) := by
  have hstep : ∀ st st', PipelineOk checks files st → PipelineStep checks env files st st' →
      PipelineOk checks files st' := fun _ _ h => h.step
  have hfalls : ∀ st st', PipelineOk checks files st → PipelineStep checks env files st st' →
      st'.measure checks files < st.measure checks files := fun _ _ h => measure_step h
  refine ⟨fun st errors hrun hreturns => ?_, fun hfiles st hrun => ?_, fun run hinit hforever => ?_⟩
  · have hok := invariant hstep pipelineOk_init hrun
    obtain ⟨hperm, horder⟩ := hok.returned hreturns
    refine ⟨fun i => ?_, hok.interleaves hreturns.ended, hperm, horder⟩
    obtain ⟨error, herror⟩ := hreturns.1 i
    rw [hok.invoked_eq, herror]
    rfl
  · have hok := invariant hstep pipelineOk_init hrun
    obtain ⟨st', hmore, hterminal⟩ := exists_terminal _ hstep hfalls hok
    obtain ⟨hqueue, hended⟩ := terminal_ended hterminal
    obtain ⟨errors, hreturns⟩ := (invariant hstep hok hmore).returns hended hfiles env.feed
    exact ⟨st', errors, hmore, hqueue, hreturns⟩
  · exact no_infinite_run _ hstep hfalls run (hinit ▸ pipelineOk_init) hforever

/-- The sample document, and a list that breaks off with a syntax error. -/
def sampleFiles : List (FileInfo Probe) :=
  [⟨"list.xml", sampleTree, fun _ => sampleDocument.tokens.map .ok⟩,
    ⟨"broken.xml", sampleTree, fun _ => [.ok (.start (tagNamed "list" [])), .error (.other "syntax")]⟩]

/-- Two threads and a channel for one diagnostic. -/
def sampleEnvironment : Environment where
  feed := .vector
  config := ⟨some 2⟩
  defaultThreads := 4
  defaultThreads_pos := by decide
  capacity := some 1

theorem pipeline_interleaves_sample :
    ∃ st errors, ReflTransGen (PipelineStep .checked sampleEnvironment sampleFiles) .init st ∧
      st.Returns .vector errors ∧ errors = failures .checked sampleFiles ∧
      Interleaves (fun i => ((sampleFiles.get i).parse .checked).out.sent)
        ((st.received ++ st.queue).map Prod.snd) := by
  obtain ⟨hsafe, hends, -⟩ := pipeline_interleaves .checked sampleEnvironment sampleFiles
  have hfiles : ∀ file ∈ sampleFiles, ∃ error, processFile .checked file = .ok error := by
    intro file hfile
    simp only [sampleFiles, List.mem_cons, List.not_mem_nil, or_false] at hfile
    rcases hfile with rfl | rfl
    · exact ⟨none, rfl⟩
    · exact ⟨_, rfl⟩
  obtain ⟨st, errors, hrun, -, hreturns⟩ := hends hfiles .init .refl
  obtain ⟨-, hinterleaves, -, horder⟩ := hsafe st errors hrun hreturns
  exact ⟨st, errors, hrun, hreturns, horder rfl, hinterleaves⟩

end XmlOxydizer
