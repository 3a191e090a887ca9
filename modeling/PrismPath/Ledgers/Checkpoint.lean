import PrismPath.Kernel.Engine

/-!
This module contains durable runs: the checkpoint document a run writes, and the resume that re-enters the
engine from it.
-/

open Python

namespace Checkpoint

open Predicates Parser Engine

mutual

/-- The values `json.dumps` writes and `json.load` reads back as they were. -/
def isJson : Value → Bool
  | .none | .bool _ | .int _ | .float _ | .str _ => true
  | .fraction _ | .bytes _ | .ellipsis | .imag _ => false
  | .list vs => isJsonList vs
  | .dict kvs => isJsonDict kvs

def isJsonList : List Value → Bool
  | [] => true
  | v :: vs => isJson v && isJsonList vs

def isJsonDict : List (String × Value) → Bool
  | [] => true
  | (_, v) :: kvs => isJson v && isJsonDict kvs

end

def jsonState (state : State) : Bool :=
  (state.outcomes.all fun p => isJsonDict p.2) && isJsonDict state.other

def jsonPending : Pending → Bool
  | .violation _ _ => true
  | .human _ reason _ => isJson reason
  | .belowFloor _ _ _ _ _ => true
  | .wait _ _ timeoutS _ spawn => isJson timeoutS && isJson spawn

structure StepSummary where
  node : String
  target : String
  used : String
  deriving DecidableEq

structure Decision where
  choose : String
  decidedBy : String
  deriving DecidableEq

/-- The document; a run that has not stopped is stored with an empty `stopped`, which is `none` here. -/
structure Doc where
  flowPath : String
  flowHash : String
  pendingNode : Option String
  stopped : Option Stopped
  typeGate : Bool
  path : List String
  state : State
  pendingDecision : Option Pending
  steps : List StepSummary
  decision : Option Decision := none

inductive CheckpointError where
  | notSerializable
  | flowChanged
  | notAuthorized
  | unparseableFlow
  | unknownNode (node : Option String)
  | notAnEdgeTarget (choose : String) (valid : List String)
  | noEdgeForEvent (event : String) (awaiting : List String)
  | awaitingHuman (candidates : List String)
  | awaitingEvent (awaiting : List String)
  | finished (stopped : Stopped)
  | notResumable (node : Option String)
  | notAwaitingHuman (stopped : Option Stopped)
  | notACandidate (choose : String) (candidates : List String)
  deriving DecidableEq

/-- Which flow a document is stamped with, and whether its type gate is on. -/
structure Stamp where
  flowPath : String
  flowHash : String
  typeGate : Bool

def saveCheckpoint (stamp : Stamp) (snapshot : Snapshot) : Except CheckpointError Doc :=
  let result := snapshot.result
  if jsonState result.state && (result.pending.all jsonPending) then
    .ok {
      flowPath := stamp.flowPath
      flowHash := stamp.flowHash
      pendingNode := snapshot.pendingNode
      stopped := result.stopped
      typeGate := stamp.typeGate
      path := result.path
      state := result.state
      pendingDecision := result.pending
      steps := result.steps.map fun step => ⟨step.node, step.target, step.info.used⟩
    }
  else
    .error .notSerializable

/-- The documents written for the snapshots of a run, up to the first that cannot be written. -/
def writes (stamp : Stamp) : List Snapshot → List Doc
  | [] => []
  | snapshot :: snapshots =>
    match saveCheckpoint stamp snapshot with
    | .ok doc => doc :: writes stamp snapshots
    | .error _ => []

/-- The documents a resumed run writes: one that cannot be written is left out. -/
def writeBacks (stamp : Stamp) (snapshots : List Snapshot) : List Doc :=
  snapshots.filterMap fun snapshot => (saveCheckpoint stamp snapshot).toOption

/-- A durable run: the documents it writes, one over the other, and how it ends. -/
structure Durable where
  written : List Doc
  ending : Ending

def priorSteps (doc : Doc) : List StepLog :=
  doc.steps.map fun step => ⟨step.node, "", step.target, .restored step.used⟩

/-- Where a resume re-enters the engine, and with what. -/
structure Entry where
  start : String
  state : State
  seed : Seed

def decisionNode (doc : Doc) : Option String :=
  match doc.pendingDecision with
  | some pending => some pending.node
  | none => doc.pendingNode

def addTranscript (state : State) (entry : TranscriptEntry) : State :=
  { state with transcript := state.transcript ++ [entry] }

/-- `choose=`: the human's edge. -/
def enterChosen (graph : Graph) (doc : Doc) (choose : String) : Except CheckpointError Entry :=
  match (decisionNode doc).bind graph.get? with
  | none => .error (.unknownNode (decisionNode doc))
  | some node =>
    let valid := node.edges.map Edge.target
    if choose ∈ valid then
      .ok {
        start := choose
        state := addTranscript doc.state (.human node.name ("[human chose -> " ++ choose ++ "]"))
        seed := {
          path := doc.path
          steps := priorSteps doc ++ [⟨node.name, "[human decision]", choose, .human⟩]
        }
      }
    else
      .error (.notAnEdgeTarget choose valid)

/-- `event=`: the first edge of the waiting node for that event. -/
def enterEvent (graph : Graph) (doc : Doc) (event : String) : Except CheckpointError Entry :=
  match (decisionNode doc).bind graph.get? with
  | none => .error (.unknownNode (decisionNode doc))
  | some node =>
    match (eventEdges node).find? fun edge => eventName edge.condition = event with
    | none => .error (.noEdgeForEvent event ((eventEdges node).map fun edge => eventName edge.condition))
    | some edge =>
      let text := "[event: " ++ event ++ "]"
      .ok {
        start := edge.target
        state := addTranscript doc.state (.event node.name text event)
        seed := {
          path := doc.path
          steps := priorSteps doc ++ [⟨node.name, text, edge.target, .event⟩]
        }
      }

def candidates (doc : Doc) : List String :=
  match doc.pendingDecision with
  | some pending => pending.candidateTargets
  | none => []

def awaiting (doc : Doc) : List String :=
  match doc.pendingDecision with
  | some (.wait _ awaiting _ _ _) => awaiting
  | _ => []

/-- Neither argument: a crash, or a contract violation, is re-entered at its pending node. -/
def enterPending (graph : Graph) (doc : Doc) : Except CheckpointError Entry :=
  match doc.stopped with
  | some .needsHuman => .error (.awaitingHuman (candidates doc))
  | some .waiting => .error (.awaitingEvent (awaiting doc))
  | some .terminal => .error (.finished .terminal)
  | some .stuck => .error (.finished .stuck)
  | some .maxSteps => .error (.finished .maxSteps)
  | none | some .contractViolation =>
    match doc.pendingNode with
    | none => .error (.notResumable none)
    | some pending =>
      if graph.contains pending then
        .ok { start := pending, state := doc.state, seed := ⟨doc.path.dropLast, priorSteps doc⟩ }
      else
        .error (.notResumable (some pending))

/-- A recorded decision stands in for a `choose` that is not given. -/
def chosen (doc : Doc) (choose : Option String) : Option String :=
  choose.orElse fun _ => doc.decision.map Decision.choose

def reenter (graph : Graph) (doc : Doc) (choose event : Option String) : Except CheckpointError Entry :=
  match chosen doc choose with
  | some choose => enterChosen graph doc choose
  | none =>
    match event with
    | some event => enterEvent graph doc event
    | none => enterPending graph doc

/-- What `PRISMPATH_RESUME_ON_FLOW_CHANGE` says of a flow that changed. -/
inductive ChangePolicy where
  | refuse
  | warn
  | allow
  deriving DecidableEq

/-- The flow files as they are when a durable call is made. -/
structure Files where
  hash : String → String
  parse : String → Option Graph
  authorized : String → Bool
  onChange : ChangePolicy

def checkFlowUnchanged (files : Files) (doc : Doc) : Except CheckpointError Unit :=
  let now := files.hash doc.flowPath
  if doc.flowHash = "" || (now ≠ "" && now = doc.flowHash) || files.onChange ≠ .refuse then
    .ok ()
  else
    .error .flowChanged

def runDurable {σ : Type} (files : Files) (py : Runtime) (opts : Options) (flowPath : String)
    (parties : Parties σ) (s : σ) (maxSteps : Nat) (state : State) : Except CheckpointError Durable :=
  if !files.authorized flowPath then
    .error .notAuthorized
  else
    match files.parse flowPath with
    | none => .error .unparseableFlow
    | some graph =>
      let trace := run py opts graph parties s maxSteps graph.start state {}
      .ok ⟨writes ⟨flowPath, files.hash flowPath, opts.typeGate⟩ trace.snapshots, trace.ending⟩

/-- The arguments of one `resume` call. -/
structure Call where
  choose : Option String := none
  event : Option String := none
  typeGate : Option Bool := none
  humanFloor : Option PyFloat := none
  maxSteps : Nat := 25
  writeBack : Bool := true

def resume {σ : Type} (files : Files) (py : Runtime) (parties : Parties σ) (s : σ) (doc : Doc) (call : Call)
    : Except CheckpointError Durable := do
  checkFlowUnchanged files doc
  if !files.authorized doc.flowPath then
    throw .notAuthorized
  let graph ← (files.parse doc.flowPath).elim (throw .unparseableFlow) pure
  let entry ← reenter graph doc call.choose call.event
  let gate := call.typeGate.getD doc.typeGate
  let opts := { humanFloor := call.humanFloor, typeGate := gate }
  let trace := run py opts graph parties s call.maxSteps entry.start entry.state entry.seed
  let stamp := ⟨doc.flowPath, files.hash doc.flowPath, gate⟩
  return ⟨if call.writeBack then writeBacks stamp trace.snapshots else [], trace.ending⟩

/-- The document a sequence of writes leaves behind. -/
def stored (doc : Doc) (written : List Doc) : Doc :=
  written.getLast?.getD doc

/-- A human's decision is recorded only for a run that waits for one, and only if it is a candidate. -/
def recordDecision (doc : Doc) (choose : String) (decidedBy : String) : Except CheckpointError Doc :=
  if doc.stopped ≠ some .needsHuman then
    .error (.notAwaitingHuman doc.stopped)
  else if choose ∈ candidates doc then
    .ok { doc with decision := some ⟨choose, decidedBy⟩ }
  else
    .error (.notACandidate choose (candidates doc))

end Checkpoint
