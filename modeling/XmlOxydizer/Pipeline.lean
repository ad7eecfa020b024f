import XmlOxydizer.Reader.Parser
import XmlOxydizer.Tree.Builder

/-!
# The file-parallel pipeline

`pipeline.rs`. A worker runs `process_file` on one file: it calls the stream factory, parses event by event,
and sends what the parser flushes one diagnostic at a time. Workers share the diagnostics channel, whose
receiver stays alive but for runs of `DroppingStep`. A message carries the index of its file, which the
source does not send and no definition of a step reads.

Assumed of the client and the machine: rules and stream factories do not panic, `buf_reader_capacity` is at
least 1, and a captured element is not nested so deeply that the recursion of `build_arena_node` exhausts the
stack.
-/

namespace XmlOxydizer

variable {R : Type} [Rule R]

/-- `PipelineError`. -/
inductive PipelineError
  | reader (filename : String) (source : ReaderError)
  deriving DecidableEq

/-- `FileInfo`. The factory is given with what quick-xml reads from its stream, and does not panic. -/
structure FileInfo (R : Type) [Rule R] where
  filename : String
  descriptors : BuiltTree R
  streamFactory : Unit → List (Except XmlError Event)

/-- `PipelineConfig`, without the sizes of buffers. A `buf_reader_capacity` of 0, with which nothing can be read,
is excluded. -/
structure PipelineConfig where
  threadCount : Option ℕ

/-- `build_pool`: the number of threads. Zero stands for the default of rayon, `defaultThreads`. -/
def buildPool (defaultThreads : ℕ) (config : PipelineConfig) : ℕ :=
  match config.threadCount with
  | some threads => if threads = 0 then defaultThreads else threads
  | none => defaultThreads

/-- The parse of a file alone. -/
def FileInfo.parse (checks : OverflowChecks) (file : FileInfo R) : Outcome R :=
  parseFile checks file.descriptors.tree (file.streamFactory ())

/-- The value of `process_file`. -/
def processFile (checks : OverflowChecks) (file : FileInfo R) : Except Panic (Option PipelineError) :=
  match (file.parse checks).result with
  | .ok () => .ok none
  | .error (.error e) => .ok (some (.reader file.filename e))
  | .error (.panic p) => .error p

/-! ### Workers -/

/-- What has become of a file. `unsent` holds the diagnostics that the parser has flushed and the worker
has still to send before it goes on. -/
inductive Worker (R : Type)
  | waiting
  | parsing (events : List (Except XmlError Event)) (s : ParserState R) (unsent : List Diagnostic)
  | leaving (result : Except Stop Unit) (unsent : List Diagnostic)
  | done (error : Option PipelineError)
  | panicked

/-- The next thing that a worker does by itself: one round of the loop of `parse_file`, or the return of
`process_file`. -/
def Worker.advance (checks : OverflowChecks) (file : FileInfo R) : Worker R → Option (Worker R)
  | .parsing [] s [] => some (.leaving (.ok ()) s.out.diagBuffer)
  | .parsing (.error e :: _) _ [] => some (.leaving (.error (.error (.xmlParse e))) [])
  | .parsing (.ok tok :: events) s [] =>
    match step checks file.descriptors.tree tok s with
    | .next s' => some (.parsing events s' (s'.out.sent.drop s.out.sent.length))
    | .stop why out => some (.leaving (.error why) (out.sent.drop s.out.sent.length))
  | .leaving (.ok ()) [] => some (.done none)
  | .leaving (.error (.error e)) [] => some (.done (some (.reader file.filename e)))
  | .leaving (.error (.panic _)) [] => some .panicked
  | _ => none

/-- The next diagnostic that a worker sends. -/
def Worker.send : Worker R → Option (Diagnostic × Worker R)
  | .parsing events s (diag :: unsent) => some (diag, .parsing events s unsent)
  | .leaving result (diag :: unsent) => some (diag, .leaving result unsent)
  | _ => none

/-- Whether a worker holds a thread. -/
def Worker.active : Worker R → Bool
  | .parsing _ _ _ => true
  | .leaving _ _ => true
  | _ => false

/-- Whether a file has been dealt with. -/
def Worker.ended : Worker R → Bool
  | .done _ => true
  | .panicked => true
  | _ => false

/-- The error of a file that has been dealt with. -/
def Worker.error : Worker R → Option PipelineError
  | .done error => error
  | _ => none

/-! ### Steps -/

/-- Where the files come from: the vector of `run_pipeline`, or the channel of `run_pipeline_streaming`. -/
inductive Feed
  | vector
  | receiver
  deriving DecidableEq

/-- What a run depends on beside its files. The capacity of an unbounded diagnostics channel is `none`. -/
structure Environment where
  feed : Feed
  config : PipelineConfig
  defaultThreads : ℕ
  defaultThreads_pos : 0 < defaultThreads
  capacity : Option ℕ

def Environment.threads (env : Environment) : ℕ := buildPool env.defaultThreads env.config

/-- The state of a run on `n` files: the workers, the diagnostics channel and what was received from it, the
calls of stream factories, and the errors that the streaming variant has collected so far. -/
structure Pipeline (R : Type) (n : ℕ) where
  workers : Fin n → Worker R
  queue : List (Fin n × Diagnostic)
  received : List (Fin n × Diagnostic)
  invoked : List (Fin n)
  collected : List PipelineError

/-- Before the first file is started. -/
def Pipeline.init {n : ℕ} : Pipeline R n where
  workers := fun _ => .waiting
  queue := []
  received := []
  invoked := []
  collected := []

/-- The number of threads in use. -/
def Pipeline.activeCount {n : ℕ} (st : Pipeline R n) : ℕ :=
  (List.finRange n).countP (fun i => (st.workers i).active)

/-- Whether a message can be sent without waiting. -/
def Environment.HasRoom (env : Environment) {n : ℕ} (queue : List (Fin n × Diagnostic)) : Prop :=
  ∀ capacity ∈ env.capacity, queue.length < capacity

/-- A worker that ends with an error adds it to the collected ones, in no fixed place. -/
inductive Collects : Worker R → List PipelineError → List PipelineError → Prop
  | error (e : PipelineError) (errors more : List PipelineError) :
      Collects (.done (some e)) (errors ++ more) (errors ++ e :: more)
  | silent (w : Worker R) (errors : List PipelineError) (h : w.error = none) : Collects w errors errors

/-- One step of a worker. To take a file and to call its factory is one step here, while the source calls the
factory after the lock of `par_bridge` is released: the order of the entries of `invoked` is that in which
files are taken, and nothing is claimed of the order of the calls. -/
inductive WorkerStep (checks : OverflowChecks) (env : Environment) (files : List (FileInfo R)) :
    Pipeline R files.length → Pipeline R files.length → Prop
  | start (st : Pipeline R files.length) (i : Fin files.length) (hwaiting : st.workers i = .waiting)
      (hthread : st.activeCount < env.threads)
      -- the items of a channel are taken in order
      (hfirst : env.feed = .receiver → ∀ j, j < i → st.workers j ≠ .waiting) :
      WorkerStep checks env files st { st with
        workers := Function.update st.workers i (.parsing ((files.get i).streamFactory ()) .init [])
        invoked := st.invoked ++ [i] }
  | advance (st : Pipeline R files.length) (i : Fin files.length) (w : Worker R)
      (hadvance : (st.workers i).advance checks (files.get i) = some w) (collected : List PipelineError)
      (hcollects : Collects w st.collected collected) :
      WorkerStep checks env files st { st with workers := Function.update st.workers i w, collected }
  | send (st : Pipeline R files.length) (i : Fin files.length) (diag : Diagnostic) (w : Worker R)
      (hsend : (st.workers i).send = some (diag, w)) (hroom : env.HasRoom st.queue) :
      WorkerStep checks env files st { st with
        workers := Function.update st.workers i w
        queue := st.queue ++ [(i, diag)] }

/-- One step of a run whose receiver takes messages at any time. A channel without a buffer hands them
over. -/
inductive PipelineStep (checks : OverflowChecks) (env : Environment) (files : List (FileInfo R)) :
    Pipeline R files.length → Pipeline R files.length → Prop
  | worker (st st' : Pipeline R files.length) (h : WorkerStep checks env files st st') :
      PipelineStep checks env files st st'
  | receive (st : Pipeline R files.length) (x : Fin files.length × Diagnostic)
      (queue : List (Fin files.length × Diagnostic)) (hqueue : st.queue = x :: queue) :
      PipelineStep checks env files st { st with queue, received := st.received ++ [x] }
  | handOver (st : Pipeline R files.length) (i : Fin files.length) (diag : Diagnostic) (w : Worker R)
      (hsend : (st.workers i).send = some (diag, w)) (hqueue : st.queue = []) :
      PipelineStep checks env files st { st with
        workers := Function.update st.workers i w
        received := st.received ++ [(i, diag)] }

/-- One step of a run whose receiver can be dropped at any time, which disconnects the channel. The messages in
the channel are lost with the receiver, and `flush_diagnostics` ignores the error of each later `send`. -/
inductive DroppingStep (checks : OverflowChecks) (env : Environment) (files : List (FileInfo R)) :
    Pipeline R files.length × Bool → Pipeline R files.length × Bool → Prop
  | connected (st st' : Pipeline R files.length) (h : PipelineStep checks env files st st') :
      DroppingStep checks env files (st, true) (st', true)
  | drop (st : Pipeline R files.length) :
      DroppingStep checks env files (st, true) ({ st with queue := [] }, false)
  -- a step that sends nothing
  | worker (st st' : Pipeline R files.length) (h : WorkerStep checks env files st st')
      (hsilent : st'.queue = st.queue) : DroppingStep checks env files (st, false) (st', false)
  | lose (st : Pipeline R files.length) (i : Fin files.length) (diag : Diagnostic) (w : Worker R)
      (hsend : (st.workers i).send = some (diag, w)) :
      DroppingStep checks env files (st, false) ({ st with workers := Function.update st.workers i w }, false)

/-- `run_pipeline` or `run_pipeline_streaming` returns these errors: an indexed iterator is collected in the
order of the files. -/
def Pipeline.Returns {n : ℕ} (feed : Feed) (st : Pipeline R n) (errors : List PipelineError) : Prop :=
  (∀ i, ∃ error, st.workers i = .done error) ∧
    match feed with
    | .vector => errors = (List.finRange n).filterMap (fun i => (st.workers i).error)
    | .receiver => errors = st.collected

/-- A run of `run_pipeline_streaming` beside the client that sends it the files: how many files the client has
begun to send, and whether it has dropped its sender. -/
structure Intake (R : Type) (n : ℕ) where
  pipeline : Pipeline R n
  offered : ℕ
  closed : Bool

/-- Before the first file is sent. -/
def Intake.init {n : ℕ} : Intake R n := ⟨.init, 0, false⟩

/-- The calls of `send` on the file channel have returned. A file that does not fit into the channel waits until
others have been taken. -/
def Intake.SendReturned {n : ℕ} (fileCapacity : Option ℕ) (x : Intake R n) : Prop :=
  ∀ capacity ∈ fileCapacity, x.offered ≤ x.pipeline.invoked.length + capacity

/-- One step of a run whose files are sent one after the other while it is under way. -/
inductive IntakeStep (checks : OverflowChecks) (env : Environment) (fileCapacity : Option ℕ)
    (files : List (FileInfo R)) : Intake R files.length → Intake R files.length → Prop
  | offer (x : Intake R files.length) (hmore : x.offered < files.length)
      (hreturned : x.SendReturned fileCapacity) :
      IntakeStep checks env fileCapacity files x { x with offered := x.offered + 1 }
  | close (x : Intake R files.length) (hopen : x.closed = false) (hall : x.offered = files.length)
      (hreturned : x.SendReturned fileCapacity) :
      IntakeStep checks env fileCapacity files x { x with closed := true }
  | pipeline (x : Intake R files.length) (st : Pipeline R files.length)
      (h : PipelineStep checks env files x.pipeline st)
      -- only a file that has been sent can be taken
      (hsent : ∀ i ∈ st.invoked, i.val < x.offered) :
      IntakeStep checks env fileCapacity files x { x with pipeline := st }

/-- `run_pipeline_streaming` returns these errors. The iterator over the file channel ends when the sender is
gone. -/
def Intake.Returns {n : ℕ} (x : Intake R n) (errors : List PipelineError) : Prop :=
  x.closed = true ∧ x.pipeline.Returns .receiver errors

end XmlOxydizer
