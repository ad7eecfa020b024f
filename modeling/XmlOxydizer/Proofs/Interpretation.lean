import XmlOxydizer.Proofs.Interpreter
import XmlOxydizer.Proofs.Navigation
import XmlOxydizer.Proofs.Threads
import XmlOxydizer.Proofs.Verdicts

/-!
# What a parse means

A parse of a document reports what the plain interpreter reports on it, and a run of the pipeline delivers what
it reports on the documents of the files. The interpreter counts siblings by the hash of their tag, modulo
2 ^ 32, and packs the results of the rules by the shifts of the code, as the parser does.
-/

namespace XmlOxydizer

open Interleaving Markup Relation Transitions

variable {R : Type}

/-! ### Documents -/

section Documents

variable [Rule R] (checks : OverflowChecks)

variable {checks} in
lemma interpret_document {tree : DescriptorTree R} (hwf : tree.WellFormed) {document : Content}
    {ts : List Event} (hdoc : Writes document ts)
    (hok : (parseFile checks tree (ts.map .ok)).result = .ok ()) :
    interpret checks tree [] document = .ok ([], (parseFile checks tree (ts.map .ok)).out.evaluated) := by
  unfold parseFile at hok ⊢
  rw [eventLoop_tokens hdoc] at hok ⊢
  cases hrun : eventLoop checks tree (document.tokens.map .ok) .init with
  | stop why out =>
    rw [hrun] at hok
    cases hok
  | next s =>
    have hopen : ¬ Sealed tree [] := by simp [Sealed, DescriptorTree.walk, DescriptorTree.inCapture]
    obtain ⟨evals, heval, hout⟩ := content_interpreted hwf (follows_init tree) hopen hrun
    have hcontexts : s.contextStack = [] := by
      obtain ⟨levels, rest, hz, htracks⟩ := (follows_init tree).content hwf hrun
      rw [Spine.extend_nil, List.append_eq_nil_iff, List.map_eq_nil_iff] at hz
      rw [htracks.contextStack_eq, hz.1, List.map_nil]
    have hevaluated : s.out.evaluated = evals := by
      rw [hout, Output.evaluated_record]
      rfl
    rw [hcontexts, ← hevaluated] at heval
    exact heval

/-- A parse of a document that ends with `Ok` makes the evaluations of the interpreter, on the same views, and
sends what they return. -/
theorem parseFile_interprets (t : BuiltTree R) (document : Content) (ts : List Event)
    (hdoc : Writes document ts) (hok : (parseFile checks t.tree (ts.map .ok)).result = .ok ()) :
    let o := parseFile checks t.tree (ts.map .ok)
    interpret checks t.tree [] document = .ok ([], o.out.evaluated) ∧
      o.out.sent = o.out.evaluated.flatMap Evaluation.diagnostics :=
  ⟨interpret_document t.wellFormed hdoc hok, parseFile_sent t.wellFormed hok⟩

theorem parseFile_interprets_sample :
    let o := parseFile .checked sampleTree.tree (sampleDocument.tokens.map .ok)
    interpret .checked sampleTree.tree [] sampleDocument = .ok ([], o.out.evaluated) ∧
      o.out.sent = o.out.evaluated.flatMap Evaluation.diagnostics :=
  parseFile_interprets .checked sampleTree sampleDocument _ (writes_tokens _) (by decide +kernel)

/-- What the interpreter reports on a document. -/
def reportOn (tree : DescriptorTree R) (document : Content) : List Diagnostic :=
  match interpret checks tree [] document with
  | .ok (_, evals) => evals.flatMap Evaluation.diagnostics
  | .error _ => []

variable {checks} in
lemma sent_eq_reportOn {tree : DescriptorTree R} (hwf : tree.WellFormed) {document : Content}
    {ts : List Event} (hdoc : Writes document ts)
    (hok : (parseFile checks tree (ts.map .ok)).result = .ok ()) :
    (parseFile checks tree (ts.map .ok)).out.sent = reportOn checks tree document := by
  rw [parseFile_sent hwf hok, reportOn, interpret_document hwf hdoc hok]

lemma result_of_processFile {file : FileInfo R} (h : processFile checks file = .ok none) :
    (file.parse checks).result = .ok () := by
  unfold processFile at h
  split at h
  · assumption
  · cases h
  · cases h

/-- The pipeline on files that can all be processed: every run can be brought to its end, no error is returned,
and what is delivered is an interleaving of what the interpreter reports on the documents. -/
theorem pipeline_interprets (env : Environment) (files : List (FileInfo R))
    (documents : Fin files.length → Content)
    (hwritten : ∀ i, ∃ ts, Writes (documents i) ts ∧ (files.get i).streamFactory () = ts.map .ok)
    (hprocessed : ∀ i, processFile checks (files.get i) = .ok none) (st : Pipeline R files.length)
    (hrun : ReflTransGen (PipelineStep checks env files) .init st) :
    (∃ st' errors, ReflTransGen (PipelineStep checks env files) st st' ∧ st'.Returns env.feed errors) ∧
    ∀ errors, st.Returns env.feed errors → errors = [] ∧
      Interleaves (fun i => reportOn checks (files.get i).descriptors.tree (documents i))
        ((st.received ++ st.queue).map Prod.snd) := by
  have hstep : ∀ st st', PipelineOk checks files st → PipelineStep checks env files st st' →
      PipelineOk checks files st' := fun _ _ h => h.step
  have hfiles : ∀ file ∈ files, processFile checks file = .ok none := by
    intro file hfile
    obtain ⟨i, rfl⟩ := List.get_of_mem hfile
    exact hprocessed i
  have hok := invariant hstep pipelineOk_init hrun
  refine ⟨?_, fun errors hreturns => ⟨?_, ?_⟩⟩
  · obtain ⟨st', hmore, hterminal⟩ := exists_terminal _ hstep (fun _ _ h => measure_step h) hok
    obtain ⟨errors, hreturns⟩ := (invariant hstep hok hmore).returns (terminal_ended hterminal).2
      (fun file hfile => ⟨none, hfiles file hfile⟩) env.feed
    exact ⟨st', errors, hmore, hreturns⟩
  · have hfailures : failures checks files = [] := by
      rw [failures, List.filterMap_eq_nil_iff]
      intro file hfile
      rw [hfiles file hfile]
      rfl
    have hperm := (hok.returned hreturns).1
    rwa [hfailures, List.perm_nil] at hperm
  · have hsent : (fun i => reportOn checks (files.get i).descriptors.tree (documents i)) =
        fun i => ((files.get i).parse checks).out.sent := by
      funext i
      obtain ⟨ts, hdoc, hevents⟩ := hwritten i
      have hresult := result_of_processFile checks (hprocessed i)
      unfold FileInfo.parse at hresult ⊢
      rw [hevents] at hresult ⊢
      exact (sent_eq_reportOn (files.get i).descriptors.wellFormed hdoc hresult).symm
    rw [hsent]
    exact hok.interleaves hreturns.ended

end Documents

/-- Two files with the same document. -/
def soundFiles : List (FileInfo Probe) :=
  [⟨"first.xml", sampleTree, fun _ => sampleDocument.tokens.map .ok⟩,
    ⟨"second.xml", sampleTree, fun _ => sampleDocument.tokens.map .ok⟩]

theorem pipeline_interprets_sample :
    ∃ st errors, ReflTransGen (PipelineStep .checked sampleEnvironment soundFiles) .init st ∧
      st.Returns .vector errors ∧ errors = [] ∧
      Interleaves (fun _ : Fin soundFiles.length => reportOn .checked sampleTree.tree sampleDocument)
        ((st.received ++ st.queue).map Prod.snd) := by
  have hwritten : ∀ i, ∃ ts, Writes sampleDocument ts ∧ (soundFiles.get i).streamFactory () = ts.map .ok := by
    intro i
    refine ⟨sampleDocument.tokens, writes_tokens _, ?_⟩
    fin_cases i <;> rfl
  have hprocessed : ∀ i, processFile .checked (soundFiles.get i) = .ok none := by
    intro i
    fin_cases i <;> rfl
  have hmeaning := pipeline_interprets .checked sampleEnvironment soundFiles (fun _ => sampleDocument)
    hwritten hprocessed
  obtain ⟨⟨st, errors, hrun, hreturns⟩, -⟩ := hmeaning .init .refl
  obtain ⟨-, hreturned⟩ := hmeaning st hrun
  obtain ⟨hnone, hinterleaves⟩ := hreturned errors hreturns
  refine ⟨st, errors, hrun, hreturns, hnone, ?_⟩
  have htrees : (fun i : Fin soundFiles.length =>
      reportOn .checked (soundFiles.get i).descriptors.tree sampleDocument) =
      fun _ => reportOn .checked sampleTree.tree sampleDocument := by
    funext i
    fin_cases i <;> rfl
  rwa [htrees] at hinterleaves

end XmlOxydizer
