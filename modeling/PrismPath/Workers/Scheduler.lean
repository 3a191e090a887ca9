import PrismPath.Ledgers.Checkpoint
import PrismPath.Python.Number

/-!
This module contains the scan for due timeouts: the checkpoints of a queue directory as they are read, which of them are
due, and the resume that takes the timeout edge of one.
-/

open Python

namespace Scheduler

open Predicates Parser

/-- What a step raises: the refusal of a flow that is not authorized, or any other exception by its class. -/
inductive Raised where
  | notAuthorized (causes : List String) (message : String)
  | other (errorType : String)
  deriving DecidableEq

/-- A checkpoint as `json.load` reads it; the fields can hold anything. -/
abbrev Raw : Type :=
  List (String × Value)

/-- `cp.get(key)` -/
def Raw.get (cp : Raw) (key : String) : Value :=
  (List.lookup key cp).getD .none

/-- `v or w` -/
def orElse (v w : Value) : Value :=
  if v.truthy then v else w

/-- `v.get`, of anything. -/
def asDict : Value → Except Raised Raw
  | .dict kvs => .ok kvs
  | _ => .error (.other "AttributeError")

/-- A directory entry; a content that is no JSON text is `none`. -/
structure File where
  name : String
  isFile : Bool
  content : Option Value

inductive Via where
  | timeout
  | human
  deriving DecidableEq

/-- Where a resume enters the engine. -/
structure Entry where
  via : Via
  start : String
  deriving DecidableEq

/--
What the scan meets outside the checkpoints: the flow files and their authorization as they are at the time, `float` of a
text, and the engine, which runs to an end or raises from an entry on.
-/
structure World where
  flowHash : Value → Except Raised String
  onChange : Checkpoint.ChangePolicy
  authorize : Value → Except Raised Unit
  parseFile : Value → Except Raised Graph
  float : String → Option PyFloat
  run : Graph → Entry → Raw → Except Raised Unit

/- The timer. -/

def sub : PyFloat → PyFloat → PyFloat
  | .finite x, .finite y => .ofRat (x.val - y.val)
  | .finite _, .posInf => .negInf
  | .finite _, .negInf => .posInf
  | .finite _, .nan => .nan
  | x, .finite _ => x
  | .posInf, .negInf => .posInf
  | .negInf, .posInf => .negInf
  | _, _ => .nan

/-- `float(v)` -/
def toFloat (w : World) : Value → Except Raised PyFloat
  | .bool b => .ok (.ofRat (if b then 1 else 0))
  | .int n => (intToFloat n).elim (.error (.other "OverflowError")) .ok
  | .float x => .ok x
  | .str s => (w.float s).elim (.error (.other "ValueError")) .ok
  | _ => .error (.other "TypeError")

/-- `v + x` -/
def addFloat (v : Value) (x : PyFloat) : Except Raised PyFloat :=
  match v with
  | .bool b => .ok ((PyFloat.ofRat (if b then 1 else 0)).add x)
  | .int n => (intToFloat n).elim (.error (.other "OverflowError")) fun y => .ok (y.add x)
  | .float y => .ok (y.add x)
  | _ => .error (.other "TypeError")

def secondsUntilDue (w : World) (now : PyFloat) (cp : Raw) : Except Raised (Option PyFloat) := do
  if !(cp.get "stopped").eq (.str "waiting") then
    return none
  let pending ← asDict (orElse (cp.get "pending_decision") (.dict []))
  match pending.get "timeout_s", cp.get "saved_at" with
  | .none, _ => return none
  | _, .none => return none
  | timeoutS, savedAt =>
    let seconds ← toFloat w timeoutS
    let due ← addFloat savedAt seconds
    return some (sub due now)

def isDue (w : World) (now : PyFloat) (cp : Raw) : Except Raised Bool := do
  let secondsLeft ← secondsUntilDue w now cp
  return secondsLeft.any fun x => x.num.le (.finite 0)

/- Loading. -/

/-- `load_checkpoint`, where the scan skips a file for whatever is raised. -/
def loadCheckpoint (file : File) : Option Raw :=
  match file.content with
  | some (.dict cp) => if (Raw.get cp "version").eq (.int 1) then some cp else none
  | _ => none

/- Resuming. -/

/-- `f"{old[:23]}"` -/
def sliceable : Value → Bool
  | .str _ => true
  | .list _ => true
  | _ => false

def checkFlowUnchanged (w : World) (cp : Raw) : Except Raised Unit := do
  let old := cp.get "flow_hash"
  if old.truthy then
    let now ← w.flowHash ((List.lookup "flow_path" cp).getD (.str ""))
    if now ≠ "" ∧ (Value.str now).eq old = true then
      return ()
    else if !sliceable old then
      throw (.other "TypeError")
    else if w.onChange = .refuse then
      throw (.other "CheckpointError")

def flowGraph (w : World) (cp : Raw) : Except Raised Graph :=
  match List.lookup "flow_path" cp with
  | none => .error (.other "KeyError")
  | some flowPath => w.parseFile flowPath

/-- The choice of a recorded decision; `None` is no choice. -/
def recordedChoice (cp : Raw) : Except Raised Value := do
  if (cp.get "decision").truthy then
    let decision ← asDict (cp.get "decision")
    return decision.get "choose"
  else
    return .none

/-- `graph.nodes[v]`, behind the test that `v` is in them. -/
def nodeOf (graph : Graph) : Value → Except Raised Node
  | .str name => (graph.get? name).elim (.error (.other "CheckpointError")) .ok
  | .list _ => .error (.other "TypeError")
  | .dict _ => .error (.other "TypeError")
  | _ => .error (.other "CheckpointError")

/-- `state.setdefault("transcript", []).append` -/
def checkTranscript (cp : Raw) : Except Raised Unit := do
  let state ← asDict (orElse (cp.get "state") (.dict []))
  match (List.lookup "transcript" state).getD (.list []) with
  | .list _ => return ()
  | _ => throw (.other "AttributeError")

/-- `_prior_steps` -/
def checkSteps (cp : Raw) : Except Raised Unit :=
  match (List.lookup "steps" cp).getD (.list []) with
  | .list steps => steps.forM fun step => do discard (asDict step)
  | .str s => if s = "" then .ok () else .error (.other "AttributeError")
  | .dict kvs => if kvs = [] then .ok () else .error (.other "AttributeError")
  | _ => .error (.other "TypeError")

def enterChosen (graph : Graph) (cp : Raw) (choose : Value) : Except Raised Entry := do
  let decision ← asDict (orElse (cp.get "pending_decision") (.dict []))
  let node ← nodeOf graph ((List.lookup "node" decision).getD (cp.get "pending_node"))
  match choose with
  | .str target =>
    if target ∈ node.edges.map Edge.target then
      checkTranscript cp
      checkSteps cp
      return ⟨.human, target⟩
    else
      throw (.other "CheckpointError")
  | _ => throw (.other "CheckpointError")

/-- The node a waiting run waits at. -/
def waitingNode (graph : Graph) (cp : Raw) : Except Raised Node := do
  let pending ← asDict (orElse (cp.get "pending_decision") (.dict []))
  nodeOf graph (orElse (pending.get "node") (cp.get "pending_node"))

/-- The first `on timeout` edge. -/
def timeoutTarget (node : Node) : Option String :=
  (node.edges.find? fun edge => isEvent edge.condition && (eventName edge.condition = "__timeout__")).map Edge.target

def enterTimeout (graph : Graph) (cp : Raw) : Except Raised Entry := do
  let node ← waitingNode graph cp
  match timeoutTarget node with
  | none => throw (.other "CheckpointError")
  | some target =>
    checkTranscript cp
    checkSteps cp
    return ⟨.timeout, target⟩

/-- A choice that is recorded takes the place of the event. -/
def enterBy (graph : Graph) (cp : Raw) (choose : Value) : Except Raised Entry :=
  match choose with
  | .none => enterTimeout graph cp
  | choose => enterChosen graph cp choose

/-- `resume(path, agent, event="__timeout__")` up to the call of the engine. -/
def enter (w : World) (cp : Raw) : Except Raised (Graph × Entry) := do
  checkFlowUnchanged w cp
  w.authorize ((List.lookup "flow_path" cp).getD (.str ""))
  let graph ← flowGraph w cp
  let choose ← recordedChoice cp
  let entry ← enterBy graph cp choose
  return (graph, entry)

/- The scan. -/

inductive Fired where
  | result (name : String)
  | refused (name : String) (causes : List String) (message : String)
  deriving DecidableEq

/-- A scan: the runs it entered, the records it returns, and what it raised if it did not return. -/
structure Scan where
  entered : List (String × Entry) := []
  fired : List Fired := []
  raised : Option Raised := none
  deriving DecidableEq

def Scan.enter (name : String) (entry : Entry) (scan : Scan) : Scan :=
  { scan with entered := (name, entry) :: scan.entered }

def Scan.record (fired : Fired) (scan : Scan) : Scan :=
  { scan with fired := fired :: scan.fired }

/-- What becomes of one file. -/
inductive Step where
  | skip
  | refuse (causes : List String) (message : String)
  | raise (raised : Raised)
  | resume (entry : Entry) (ending : Except Raised Unit)

def step (w : World) (now : PyFloat) (file : File) : Step :=
  if !file.isFile then
    .skip
  else
    match loadCheckpoint file with
    | none => .skip
    | some cp =>
      match isDue w now cp with
      | .error raised => .raise raised
      | .ok false => .skip
      | .ok true =>
        match enter w cp with
        | .error (.notAuthorized causes message) => .refuse causes message
        | .error raised => .raise raised
        | .ok (graph, entry) => .resume entry (w.run graph entry cp)

def scan (w : World) (now : PyFloat) : List File → Scan
  | [] => {}
  | file :: files =>
    match step w now file with
    | .skip => scan w now files
    | .refuse causes message => (scan w now files).record (.refused file.name causes message)
    | .raise raised => { raised := some raised }
    | .resume entry (.ok ()) => ((scan w now files).record (.result file.name)).enter file.name entry
    | .resume entry (.error (.notAuthorized causes message)) =>
      -- the worker met a flow of its own that is not authorized
      ((scan w now files).record (.refused file.name causes message)).enter file.name entry
    | .resume entry (.error raised) => { entered := [(file.name, entry)], raised := some raised }

/-- `*` matches no name that begins with a dot. -/
def visible (file : File) : Bool :=
  !startsWith file.name "."

/-- `fire_due_timeouts`, over the entries of a directory. -/
def fireDueTimeouts (w : World) (now : PyFloat) (dir : List File) : Scan :=
  scan w now ((dir.filter visible).mergeSort fun f g => decide (f.name ≤ g.name))

end Scheduler
