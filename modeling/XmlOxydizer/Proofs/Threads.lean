import XmlOxydizer.Proofs.Schedules

/-!
# Threads

Files that come from a channel are started in their order. With a single thread a file is started when no other one
is open, and the diagnostics of a file are never mixed with those of another.
-/

namespace XmlOxydizer

open Interleaving Relation Transitions

variable {R : Type} [Rule R]

section

variable {checks : OverflowChecks} {env : Environment} {files : List (FileInfo R)}
  {st st' : Pipeline R files.length}

/-! ### What happens to the files -/

lemma Worker.advance_active {file : FileInfo R} {w w' : Worker R} (h : w.advance checks file = some w') :
    w.active = true ∧ w.ended = false ∧ (w'.active = true ∧ w'.ended = false ∨
      w'.active = false ∧ w'.ended = true) := by
  cases Worker.advance_cases h with
  | eof s => exact ⟨rfl, rfl, .inl ⟨rfl, rfl⟩⟩
  | syntaxError e events s => exact ⟨rfl, rfl, .inl ⟨rfl, rfl⟩⟩
  | token tok events s s' hstep => exact ⟨rfl, rfl, .inl ⟨rfl, rfl⟩⟩
  | fault tok events s why out hstep => exact ⟨rfl, rfl, .inl ⟨rfl, rfl⟩⟩
  | done => exact ⟨rfl, rfl, .inr ⟨rfl, rfl⟩⟩
  | failed e => exact ⟨rfl, rfl, .inr ⟨rfl, rfl⟩⟩
  | panicked p => exact ⟨rfl, rfl, .inr ⟨rfl, rfl⟩⟩

omit [Rule R] in
lemma Worker.send_active {w w' : Worker R} {diag : Diagnostic} (h : w.send = some (diag, w')) :
    w.active = true ∧ w.ended = false ∧ w'.active = true ∧ w'.ended = false := by
  unfold Worker.send at h
  split at h
  case h_1 => cases h; exact ⟨rfl, rfl, rfl, rfl⟩
  case h_2 => cases h; exact ⟨rfl, rfl, rfl, rfl⟩
  case h_3 => cases h

/-- What a step does to the files, whether it sends something or not. -/
inductive FileStep (env : Environment) {n : ℕ} (st st' : Pipeline R n) : Prop
  | start (i : Fin n) (w : Worker R) (hwaiting : st.workers i = .waiting) (hactive : w.active = true)
      (hthread : st.activeCount < env.threads)
      (hfirst : env.feed = .receiver → ∀ j, j < i → st.workers j ≠ .waiting)
      (hworkers : st'.workers = Function.update st.workers i w) (hinvoked : st'.invoked = st.invoked ++ [i])
      (hlog : st'.received ++ st'.queue = st.received ++ st.queue)
  | advance (i : Fin n) (w : Worker R) (hactive : (st.workers i).active = true)
      (hworkers : st'.workers = Function.update st.workers i w) (hnext : w.active = true ∨ w.ended = true)
      (hinvoked : st'.invoked = st.invoked) (hlog : st'.received ++ st'.queue = st.received ++ st.queue)
  | send (i : Fin n) (diag : Diagnostic) (w : Worker R) (hactive : (st.workers i).active = true)
      (hworkers : st'.workers = Function.update st.workers i w) (hnext : w.active = true)
      (hinvoked : st'.invoked = st.invoked)
      (hlog : st'.received ++ st'.queue = st.received ++ st.queue ++ [(i, diag)])
  | receive (hworkers : st'.workers = st.workers) (hinvoked : st'.invoked = st.invoked)
      (hlog : st'.received ++ st'.queue = st.received ++ st.queue)

lemma fileStep_of_step (h : PipelineStep checks env files st st') : FileStep env st st' := by
  cases h with
  | worker _ hworker =>
    cases hworker with
    | start i hwaiting hthread hfirst => exact .start i _ hwaiting rfl hthread hfirst rfl rfl rfl
    | advance i w hadvance collected hcollects =>
      obtain ⟨hactive, -, hnext⟩ := Worker.advance_active hadvance
      exact .advance i w hactive rfl (hnext.imp And.left And.right) rfl rfl
    | send i diag w hsend hroom =>
      obtain ⟨hactive, -, hnext, -⟩ := Worker.send_active hsend
      exact .send i diag w hactive rfl hnext rfl (List.append_assoc _ _ _).symm
  | receive x queue hqueue =>
    exact .receive rfl rfl (by rw [hqueue, List.append_assoc, List.singleton_append])
  | handOver i diag w hsend hqueue =>
    obtain ⟨hactive, -, hnext, -⟩ := Worker.send_active hsend
    exact .send i diag w hactive rfl hnext rfl (by rw [hqueue, List.append_nil, List.append_nil])

omit [Rule R] in
lemma Worker.ended_of_active {w : Worker R} (h : w.active = true) : w.ended = false := by
  cases w with
  | waiting => rfl
  | parsing => rfl
  | leaving => rfl
  | done => cases h
  | panicked => cases h

/-! ### Started files -/

/-- The files that a run has started, in the order of a channel. -/
structure Scheduled (env : Environment) {n : ℕ} (st : Pipeline R n) : Prop where
  mem_invoked : ∀ i, i ∈ st.invoked ↔ st.workers i ≠ .waiting
  in_order : env.feed = .receiver → st.invoked = (List.finRange n).take st.invoked.length

omit [Rule R] in
lemma scheduled_init {n : ℕ} : Scheduled env (.init : Pipeline R n) := by
  refine ⟨fun i => ?_, fun _ => rfl⟩
  simp [Pipeline.init]

lemma mem_take_finRange {n k : ℕ} {i : Fin n} : i ∈ (List.finRange n).take k ↔ i.val < k := by
  rw [List.mem_take_iff_getElem]
  constructor
  · rintro ⟨j, hj, rfl⟩
    simp only [List.length_finRange, lt_min_iff] at hj
    simpa using hj.1
  · intro hi
    exact ⟨i.val, by simpa using hi, by simp⟩

omit [Rule R] in
theorem Scheduled.step {n : ℕ} {st st' : Pipeline R n} (h : Scheduled env st) (hstep : FileStep env st st') :
    Scheduled env st' := by
  have hmem : ∀ {i w}, st.workers i ≠ .waiting → w ≠ .waiting →
      st'.workers = Function.update st.workers i w → ∀ j, st.workers j ≠ .waiting ↔ st'.workers j ≠ .waiting := by
    intro i w hold hnew hworkers j
    rw [hworkers]
    by_cases hj : j = i
    · subst hj
      rw [Function.update_self]
      exact iff_of_true hold hnew
    · rw [Function.update_of_ne hj]
  have hstarted : ∀ {w : Worker R}, w.active = true ∨ w.ended = true → w ≠ .waiting := by
    rintro w hw rfl
    rcases hw with hw | hw <;> cases hw
  cases hstep with
  | start i w hwaiting hactive hthread hfirst hworkers hinvoked hlog =>
    refine ⟨fun j => ?_, fun hfeed => ?_⟩
    · rw [hinvoked, hworkers, List.mem_append, List.mem_singleton, h.mem_invoked]
      by_cases hj : j = i
      · subst hj
        rw [Function.update_self]
        exact iff_of_true (.inr rfl) (hstarted (.inl hactive))
      · rw [Function.update_of_ne hj]
        exact or_iff_left hj
    · have horder := h.in_order hfeed
      have hstart : ∀ j, j.val < st.invoked.length ↔ st.workers j ≠ .waiting := by
        intro j
        rw [← h.mem_invoked j, horder, mem_take_finRange, ← horder]
      -- the files in front of this one have been started, and it has not
      have hi : i.val = st.invoked.length := by
        have hge := mt (hstart i).mp (not_not.mpr hwaiting)
        by_contra hne
        have hlt : st.invoked.length < n := by omega
        exact hfirst hfeed ⟨st.invoked.length, hlt⟩ (Fin.mk_lt_of_lt_val (by omega))
          (not_not.mp (mt (hstart _).mpr (lt_irrefl _)))
      have hnext : (List.finRange n)[st.invoked.length]? = some i := by
        rw [← hi]
        simp
      rw [hinvoked, List.length_append, List.length_singleton, List.take_add_one, hnext, ← horder]
      rfl
  | advance i w hactive hworkers hnext hinvoked hlog =>
    refine ⟨fun j => ?_, by rw [hinvoked]; exact h.in_order⟩
    rw [hinvoked, h.mem_invoked]
    exact hmem (hstarted (.inl hactive)) (hstarted hnext) hworkers j
  | send i diag w hactive hworkers hnext hinvoked hlog =>
    refine ⟨fun j => ?_, by rw [hinvoked]; exact h.in_order⟩
    rw [hinvoked, h.mem_invoked]
    exact hmem (hstarted (.inl hactive)) (hstarted (.inl hnext)) hworkers j
  | receive hworkers hinvoked hlog =>
    refine ⟨?_, by rw [hinvoked]; exact h.in_order⟩
    rw [hinvoked, hworkers]
    exact h.mem_invoked

/-! ### A single thread -/

/-- The invariant of a run with a single thread. -/
structure Sequential {n : ℕ} (st : Pipeline R n) : Prop where
  nodup : st.invoked.Nodup
  ended : ∀ i ∈ st.invoked.dropLast, (st.workers i).ended = true
  batched : Batched st.invoked (st.received ++ st.queue)

omit [Rule R] in
/-- A file that is open is the last one that was started. -/
lemma Sequential.concat {n : ℕ} {st : Pipeline R n} (h : Sequential st) {i : Fin n} (hmem : i ∈ st.invoked)
    (hactive : (st.workers i).active = true) : ∃ before, st.invoked = before ++ [i] ∧ i ∉ before := by
  obtain ⟨before, after, hsplit⟩ := List.append_of_mem hmem
  rcases List.eq_nil_or_concat' after with rfl | ⟨after, j, rfl⟩
  · refine ⟨before, hsplit, fun hi => ?_⟩
    have hnodup := h.nodup
    rw [hsplit] at hnodup
    exact (List.disjoint_of_nodup_append hnodup) hi (List.mem_singleton_self i)
  · have hi : i ∈ st.invoked.dropLast := by
      rw [hsplit, ← List.cons_append, ← List.append_assoc, List.dropLast_concat]
      simp
    have hended := h.ended i hi
    rw [Worker.ended_of_active hactive] at hended
    cases hended

omit [Rule R] in
theorem Sequential.step {n : ℕ} {st st' : Pipeline R n} (h : Sequential st) (hscheduled : Scheduled env st)
    (hsingle : env.threads = 1)
    (hsilent : ∀ i, st.workers i = .waiting → project i (st.received ++ st.queue) = [])
    (hstep : FileStep env st st') : Sequential st' := by
  have hstays : ∀ {i w}, (st.workers i).active = true → st'.workers = Function.update st.workers i w →
      ∀ j ∈ st.invoked.dropLast, (st'.workers j).ended = true := by
    intro i w hactive hworkers j hj
    have hended := h.ended j hj
    have hne : j ≠ i := by
      rintro rfl
      rw [Worker.ended_of_active hactive] at hended
      cases hended
    rw [hworkers, Function.update_of_ne hne, hended]
  cases hstep with
  | start i w hwaiting hactive hthread hfirst hworkers hinvoked hlog =>
    have hnew : i ∉ st.invoked := fun hmem => (hscheduled.mem_invoked i).mp hmem hwaiting
    have hidle : ∀ j, (st.workers j).active = false := by
      intro j
      have hzero : st.activeCount = 0 := by omega
      exact Bool.eq_false_of_not_eq_true (List.countP_eq_zero.mp hzero j (List.mem_finRange j))
    refine ⟨?_, fun j hj => ?_, ?_⟩
    · rw [hinvoked, List.nodup_append]
      refine ⟨h.nodup, List.nodup_singleton i, fun j hj k hk => ?_⟩
      rw [List.mem_singleton.mp hk]
      rintro rfl
      exact hnew hj
    · rw [hinvoked, List.dropLast_concat] at hj
      have hne : j ≠ i := by
        rintro rfl
        exact hnew hj
      rw [hworkers, Function.update_of_ne hne]
      by_contra hended
      rcases Worker.not_ended (Bool.eq_false_of_not_eq_true hended) with hj' | hj'
      · exact (hscheduled.mem_invoked j).mp hj hj'
      · rw [hidle j] at hj'
        cases hj'
    · rw [hinvoked, hlog]
      exact h.batched.turn (hsilent i hwaiting)
  | advance i w hactive hworkers hnext hinvoked hlog =>
    refine ⟨hinvoked ▸ h.nodup, ?_, by rw [hinvoked, hlog]; exact h.batched⟩
    rw [hinvoked]
    exact hstays hactive hworkers
  | send i diag w hactive hworkers hnext hinvoked hlog =>
    refine ⟨hinvoked ▸ h.nodup, by rw [hinvoked]; exact hstays hactive hworkers, ?_⟩
    have hmem : i ∈ st.invoked := by
      rw [hscheduled.mem_invoked]
      intro hwaiting
      rw [hwaiting] at hactive
      cases hactive
    obtain ⟨before, hsplit, hi⟩ := h.concat hmem hactive
    have hbatched := h.batched
    rw [hinvoked, hlog, hsplit]
    rw [hsplit] at hbatched
    exact hbatched.send hi diag
  | receive hworkers hinvoked hlog =>
    exact ⟨hinvoked ▸ h.nodup, by rw [hinvoked, hworkers]; exact h.ended,
      by rw [hinvoked, hlog]; exact h.batched⟩

/-! ### Runs -/

lemma PipelineOk.silent (h : PipelineOk checks files st) {i : Fin files.length}
    (hwaiting : st.workers i = .waiting) : project i (st.received ++ st.queue) = [] := by
  have hok := h.workers_ok i
  rw [hwaiting] at hok
  cases hok with
  | waiting hlog => exact hlog

lemma scheduled_run (hrun : ReflTransGen (PipelineStep checks env files) .init st) :
    PipelineOk checks files st ∧ Scheduled env st :=
  ⟨invariant (fun _ _ h => h.step) pipelineOk_init hrun,
    invariant (fun _ _ h hstep => h.step (fileStep_of_step hstep)) scheduled_init hrun⟩

lemma sequential_run (hsingle : env.threads = 1) (hrun : ReflTransGen (PipelineStep checks env files) .init st) :
    Sequential st := by
  induction hrun with
  | refl => exact ⟨List.nodup_nil, fun _ hi => absurd hi List.not_mem_nil, batched_nil⟩
  | tail hrun hlast ih =>
    obtain ⟨hok, hscheduled⟩ := scheduled_run hrun
    exact ih.step hscheduled hsingle (fun i hwaiting => hok.silent hwaiting) (fileStep_of_step hlast)

end

/-- With a single thread the diagnostics of the files come one file after the other, in the order in which the
files are opened. When the run returns, files from a channel have sent what a loop over them sends. -/
theorem single_thread (checks : OverflowChecks) (env : Environment) (hsingle : env.threads = 1)
    (files : List (FileInfo R)) (st : Pipeline R files.length)
    (hrun : ReflTransGen (PipelineStep checks env files) .init st) :
    Batched st.invoked (st.received ++ st.queue) ∧
      ∀ errors, st.Returns env.feed errors →
        st.invoked.Perm (List.finRange files.length) ∧
        (st.received ++ st.queue).map Prod.snd =
          st.invoked.flatMap (fun i => ((files.get i).parse checks).out.sent) ∧
        (env.feed = .receiver → (st.received ++ st.queue).map Prod.snd =
          files.flatMap (fun file => (file.parse checks).out.sent)) := by
  obtain ⟨hok, hscheduled⟩ := scheduled_run hrun
  have hsequential := sequential_run hsingle hrun
  refine ⟨hsequential.batched, fun errors hreturns => ?_⟩
  have hall : ∀ i, i ∈ st.invoked := by
    intro i
    rw [hscheduled.mem_invoked]
    intro hwaiting
    have hended := hreturns.ended i
    rw [hwaiting] at hended
    cases hended
  have hsent : (st.received ++ st.queue).map Prod.snd =
      st.invoked.flatMap (fun i => ((files.get i).parse checks).out.sent) := by
    rw [hsequential.batched.map_snd]
    exact List.flatMap_congr fun i _ => (hok.workers_ok i).sent_ended (hreturns.ended i)
  have hperm : st.invoked.Perm (List.finRange files.length) :=
    (List.perm_ext_iff_of_nodup hsequential.nodup (List.nodup_finRange _)).mpr
      fun i => iff_of_true (hall i) (List.mem_finRange i)
  refine ⟨hperm, hsent, fun hfeed => ?_⟩
  have horder := hscheduled.in_order hfeed
  rw [hperm.length_eq, List.take_length] at horder
  rw [hsent, horder]
  conv_rhs => rw [← List.map_get_finRange files, List.flatMap_map]

lemma exists_return (checks : OverflowChecks) (env : Environment) {files : List (FileInfo R)}
    (hfiles : ∀ file ∈ files, ∃ error, processFile checks file = .ok error) :
    ∃ st errors, ReflTransGen (PipelineStep checks env files) .init st ∧ st.Returns env.feed errors := by
  have hstep : ∀ st st', PipelineOk checks files st → PipelineStep checks env files st st' →
      PipelineOk checks files st' := fun _ _ h => h.step
  obtain ⟨st, hrun, hterminal⟩ := exists_terminal _ hstep (fun _ _ h => measure_step h) pipelineOk_init
  obtain ⟨errors, hreturns⟩ :=
    (invariant hstep pipelineOk_init hrun).returns (terminal_ended hterminal).2 hfiles env.feed
  exact ⟨st, errors, hrun, hreturns⟩

/-- One thread, and a channel of files. -/
def singleEnvironment : Environment :=
  { sampleEnvironment with feed := .receiver, config := ⟨some 1⟩, capacity := none }

lemma sampleFiles_return : ∀ file ∈ sampleFiles, ∃ error, processFile .checked file = .ok error := by
  intro file hfile
  simp only [sampleFiles, List.mem_cons, List.not_mem_nil, or_false] at hfile
  rcases hfile with rfl | rfl
  · exact ⟨none, rfl⟩
  · exact ⟨_, rfl⟩

theorem single_thread_sample :
    ∃ st errors, ReflTransGen (PipelineStep .checked singleEnvironment sampleFiles) .init st ∧
      st.Returns .receiver errors ∧
      (st.received ++ st.queue).map Prod.snd =
        sampleFiles.flatMap (fun file => (file.parse .checked).out.sent) := by
  obtain ⟨st, errors, hrun, hreturns⟩ := exists_return .checked singleEnvironment sampleFiles_return
  obtain ⟨-, hreturned⟩ := single_thread .checked singleEnvironment rfl sampleFiles st hrun
  obtain ⟨-, -, horder⟩ := hreturned errors hreturns
  exact ⟨st, errors, hrun, hreturns, horder rfl⟩

end XmlOxydizer
