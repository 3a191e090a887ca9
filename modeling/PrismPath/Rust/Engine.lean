import PrismPath.Kernel.Parser
import PrismPath.Python.FloatRepr
import PrismPath.Rust.Condition

/-!
This module contains the Rust engine for flows without semantic edges: one pass of its loop over a node, and the run
that repeats it.
-/

namespace Rust

namespace Kernel

open Python (PyFloat)
open Parser (Edge Graph Node)

/- Texts of values. -/

section

-- the digits `{:e}` writes for a positive float
variable (lowerExp : Double → Python.Decimal)

def signText (x : Double) : String :=
  if x.val < 0 then "-" else ""

def magnitude (x : Double) : Python.Decimal :=
  match PyFloat.ofRat |x.val| with
  | .finite y => lowerExp y
  | _ => ⟨0, 0⟩

/-- `format!("{num_val:e}")` with a sign in front of the exponent; only of floats from 1e21 on. -/
def exponentText (x : Double) : String :=
  let d := magnitude lowerExp x
  let digits := Nat.toDigits 10 d.coeff
  let mantissa := digits.take 1 ++ (if digits.length = 1 then [] else '.' :: digits.drop 1)
  signText x ++ .ofList mantissa ++ "e+" ++ toString (digits.length + d.exp - 1)

/-- `format!("{num_val}")` of a float with a fraction. -/
def fractionText (x : Double) : String :=
  let d := magnitude lowerExp x
  let digits := Nat.toDigits 10 d.coeff
  let places := (-d.exp).toNat
  let padded := List.replicate (places + 1 - digits.length) '0' ++ digits
  signText x ++ .ofList (padded.take (padded.length - places) ++ '.' :: padded.drop (padded.length - places))

def jsNumberString : PyFloat → String
  | .nan => "NaN"
  | .posInf => "Infinity"
  | .negInf => "-Infinity"
  | .finite x =>
    if x.val.den = 1 ∧ |x.val| < 10 ^ 21 then
      toString x.val.num
    else if 10 ^ 21 ≤ |x.val| then
      exponentText lowerExp x
    else
      fractionText lowerExp x

mutual
def pyStr : Value → String
  | .bool b => if b then "True" else "False"
  | .null => "None"
  | .str s => s
  | .list vs => "[" ++ ", ".intercalate (pyReprItems vs) ++ "]"
  | .obj kvs => "\x7b" ++ ", ".intercalate (pyReprMembers kvs) ++ "\x7d"
  | .num x => jsNumberString lowerExp x
  | .ellipsis => "Ellipsis"

def pyRepr : Value → String
  | .str s => "'" ++ s ++ "'"
  | v => pyStr v

def pyReprItems : List Value → List String
  | [] => []
  | v :: vs => pyRepr v :: pyReprItems vs

def pyReprMembers : List (String × Value) → List String
  | [] => []
  | (k, v) :: kvs => ("'" ++ k ++ "': " ++ pyRepr v) :: pyReprMembers kvs
end

/-- The text and the fields of an outcome. -/
def normalize : Value → String × List (String × Value)
  | .obj kvs => (((Value.objGet kvs "text").map (pyStr lowerExp)).getD "", kvs)
  | v => (pyStr lowerExp v, [("text", .str (pyStr lowerExp v))])

end

def jsTruthy : Value → Bool
  | .null => false
  | .bool b => b
  | .num x => x.num ≠ .finite 0 && x ≠ .nan
  | .str s => s ≠ ""
  | .list _ => true
  | .obj _ => true
  | .ellipsis => true

/- The state of a run. -/

structure RunState where
  visits : List (String × ℤ) := []
  transcript : List Value := []
  errors : List (String × ℤ) := []
  outcomes : List (String × List (String × Value)) := []
  extra : List (String × Value) := []

/-- `num_count as i64` -/
def asI64 : PyFloat → ℤ
  | .nan => 0
  | .posInf => 2 ^ 63 - 1
  | .negInf => -2 ^ 63
  | .finite x => max (-2 ^ 63) (min (2 ^ 63 - 1) (if 0 ≤ x.val then ⌊x.val⌋ else ⌈x.val⌉))

/-- `as_num` -/
def asNum : Value → Option PyFloat
  | .num x => some x
  | .bool b => some (.ofRat (if b then 1 else 0))
  | _ => none

def countOf (counts : List (String × ℤ)) (node : String) : ℤ :=
  (counts.lookup node).getD 0

/-- `+= 1` on an `i64` -/
def increment (counts : List (String × ℤ)) (node : String) : List (String × ℤ) :=
  Dict.set counts node (Int.bmod (countOf counts node + 1) (2 ^ 64))

def ingestCounts (counts : List (String × ℤ)) (kvs : List (String × Value)) : List (String × ℤ) :=
  kvs.foldl (fun counts kv =>
    match asNum kv.2 with
    | some x => Dict.set counts kv.1 (asI64 x)
    | none => counts) counts

def ingestOutcomes (outcomes : List (String × List (String × Value))) (kvs : List (String × Value))
    : List (String × List (String × Value)) :=
  kvs.foldl (fun outcomes kv =>
    match kv.2 with
    | .obj fields => Dict.set outcomes kv.1 fields
    | _ => outcomes) outcomes

def RunState.ingest (state : RunState) : String × Value → RunState
  | ("visits", .obj kvs) => { state with visits := ingestCounts state.visits kvs }
  | ("transcript", .list items) => { state with transcript := items }
  | ("_errors", .obj kvs) => { state with errors := ingestCounts state.errors kvs }
  | ("_outcomes", .obj kvs) => { state with outcomes := ingestOutcomes state.outcomes kvs }
  | (key, v) => { state with extra := Dict.set state.extra key v }

/-- `RunState::from_v` -/
def RunState.fromV : Value → RunState
  | .obj kvs => kvs.foldl RunState.ingest {}
  | _ => {}

/- Results. -/

inductive Stopped where
  | terminal
  | stuck
  | needsHuman
  | waiting
  | maxSteps
  deriving DecidableEq

structure Pending where
  node : String
  wait : Bool
  reason : Option String := none
  awaiting : List String := []
  timeoutS : Option Value := none
  candidates : List Edge
  spawn : Option Value := none

structure Step where
  node : String
  outcome : String
  target : String
  used : String
  cond : Option String := none

structure RunResult where
  path : List String
  steps : List Step := []
  stopped : Option Stopped := none
  pending : Option Pending := none
  state : RunState := {}

structure Violation where
  node : String
  edge : Edge

inductive EngineError where
  | notPortable (violation : Violation)
  | unhandled (message : String)
  | missingNode (node : String)
  | invalidFlow (reason : String)

structure RunOpts where
  maxSteps : ℕ := 25
  start : Option String := none
  /-- A state that was saved. -/
  state : Option Value := none
  seedPath : List String := []
  seedSteps : List Step := []

/- Portability. -/

/-- The nodes on a path from the start; the fuel is one more than the number of edges. -/
def reachableFrom (graph : Graph) : ℕ → (stack seen : List String) → List String
  | fuel + 1, name :: stack, seen =>
    match graph.get? name with
    | none => reachableFrom graph fuel stack seen
    | some node =>
      if name ∈ seen then
        reachableFrom graph fuel stack seen
      else
        let seen := seen ++ [name]
        let next := (node.edges.map Edge.target).filter fun target => graph.contains target && target ∉ seen
        reachableFrom graph fuel (next.reverse ++ stack) seen
  | _, _, seen => seen

def reachable (graph : Graph) : List String :=
  reachableFrom graph ((graph.nodes.map fun node => node.edges.length).sum + 1) [graph.start] []

/-- `portability_violations` -/
def portabilityViolations (graph : Graph) : List Violation :=
  ((reachable graph).mergeSort fun a b => !decide (b < a)).flatMap fun name =>
    match graph.get? name with
    | none => []
    | some node => (node.edges.filter fun edge => isSemantic edge.condition).map fun edge => ⟨name, edge⟩

/- One pass. -/

/-- `first_deterministic` -/
def firstDeterministic (edges : List Edge) (ctx : Ctx) : Option Edge :=
  edges.find? fun edge => isDeterministic edge.condition && (evalCondition edge.condition ctx matches .ok true)

def errorContext (message : String) (count visits : ℤ) : Ctx
  | "error" => some (.bool true)
  | "error_type" => some (.str "Error")
  | "error_message" => some (.str message)
  | "error_count" => some (.num (.ofRat count))
  | "visits" => some (.num (.ofRat visits))
  | _ => none

def errorEdge (ctx : Ctx) (edge : Edge) : Bool :=
  isError edge.condition
    && (errorExpr edge.condition = "" || (evalCondition (errorExpr edge.condition) ctx matches .ok true))

/-- `error_tier`: the state after it, and the step along the error edge. -/
def errorTier (node message : String) (edges : List Edge) (state : RunState) : RunState × Except EngineError Step :=
  let state := { state with errors := increment state.errors node }
  let ctx := errorContext message (countOf state.errors node) (countOf state.visits node)
  match edges.find? (errorEdge ctx) with
  | none => (state, .error (.unhandled message))
  | some edge =>
    let text := "[error: Error: " ++ message ++ "]"
    let entry : Value := .obj [("node", .str node), ("outcome", .str text), ("error", .bool true)]
    ({ state with transcript := state.transcript ++ [entry] }, .ok ⟨node, text, edge.target, "error", none⟩)

section

variable (lowerExp : Double → Python.Decimal)

/-- `human_handoff` -/
def humanHandoff (node text : String) (fields : List (String × Value)) (edges : List Edge) : Option Pending :=
  if ((Value.objGet fields "needs_human").map Value.pyTruthy).getD false then
    let reason :=
      match Value.objGet fields "reason" with
      | some v => if jsTruthy v then pyStr lowerExp v else text
      | none => text
    some { node := node, wait := false, reason := some reason, candidates := edges }
  else
    none

def isNull : Value → Bool
  | .null => true
  | _ => false

/-- `wait_suspend` -/
def waitSuspend (node : String) (fields : List (String × Value)) (edges : List Edge) : Option Pending :=
  let spawn := (Value.objGet fields "spawn").filter fun v => !isNull v
  if ((Value.objGet fields "wait").map Value.pyTruthy).getD false || spawn.isSome then
    let events := edges.filter fun edge => isEvent edge.condition
    some {
      node := node
      wait := true
      awaiting := events.map fun edge => eventName edge.condition
      timeoutS := Value.objGet fields "timeout_s"
      candidates := events
      spawn := spawn
    }
  else
    none

/-- The fields, collected into a map, and the visits. -/
def context (fields : List (String × Value)) (visits : ℤ) : Ctx :=
  fun name => if name = "visits" then some (.num (.ofRat visits)) else fields.reverse.lookup name

/-- `route_once`; `none` is stuck. -/
def routeOnce (node text : String) (fields : List (String × Value)) (edges : List Edge) (state : RunState)
    : Option Step :=
  (firstDeterministic edges (context fields (countOf state.visits node))).map fun edge =>
    ⟨node, text, edge.target, "deterministic: " ++ edge.condition, some edge.condition⟩

/-- What a pass ends in: the next node, the end of the run with the node the observer is told, or an error. -/
inductive Next where
  | goto (node : String) (result : RunResult) (state : RunState)
  | stop (observed : Option String) (result : RunResult) (state : RunState)
  | fail (err : EngineError)

def follow (result : RunResult) (state : RunState) (step : Step) : Next :=
  .goto step.target { result with steps := result.steps ++ [step], path := result.path ++ [step.target] } state

def enter (node : String) (state : RunState) : RunState :=
  { state with visits := increment state.visits node }

/-- What the agent ends in: a value, or an error with its message. -/
abbrev Outcome : Type :=
  Except String Value

def recordOutcome (node text : String) (fields : List (String × Value)) (state : RunState) : RunState :=
  let entry : Value := .obj [("node", .str node), ("outcome", .str text)]
  { state with transcript := state.transcript ++ [entry], outcomes := Dict.set state.outcomes node fields }

/-- The loop of `run_core` from the outcome of the agent on. -/
def pass (node : Node) (result : RunResult) (state : RunState) : Outcome → Next
  | .error message =>
    match errorTier node.name message node.edges state with
    | (state, .ok step) => follow result state step
    | (_, .error err) => .fail err
  | .ok outcome =>
    let (text, fields) := normalize lowerExp outcome
    let state := recordOutcome node.name text fields state
    match humanHandoff lowerExp node.name text fields node.edges with
    | some pending => .stop (some node.name) { result with stopped := some .needsHuman, pending := some pending } state
    | none =>
      match waitSuspend node.name fields node.edges with
      | some pending => .stop (some node.name) { result with stopped := some .waiting, pending := some pending } state
      | none =>
        match routeOnce node.name text fields node.edges state with
        | some step => follow result state step
        | none => .stop none { result with stopped := some .stuck } state

/- Runs. -/

/-- What the observer sees. -/
structure Snapshot where
  result : RunResult
  state : RunState
  node : Option String

structure Trace where
  snapshots : List Snapshot
  ending : Except EngineError RunResult

def Trace.cons (snapshot : Snapshot) (trace : Trace) : Trace :=
  { trace with snapshots := snapshot :: trace.snapshots }

/-- A worker, which may keep a state of its own. -/
abbrev Agent (σ : Type) : Type :=
  σ → String → String → RunState → Outcome × σ

variable {σ : Type} (graph : Graph) (agent : Agent σ)

def runLoop : ℕ → σ → String → RunResult → RunState → Trace
  | 0, _, _, result, state => ⟨[], .ok { result with stopped := some .maxSteps, state := state }⟩
  | fuel + 1, s, name, result, state =>
    match graph.get? name with
    | none => ⟨[], .error (.missingNode name)⟩
    | some node =>
      if node.edges.isEmpty then
        let result := { result with stopped := some .terminal }
        ⟨[⟨result, state, none⟩], .ok { result with state := state }⟩
      else
        let (outcome, s) := agent s name node.instruction (enter name state)
        Trace.cons ⟨result, state, some name⟩ <|
          match pass lowerExp node result (enter name state) outcome with
          | .goto name result state => runLoop fuel s name result state
          | .stop observed result state => ⟨[⟨result, state, observed⟩], .ok { result with state := state }⟩
          | .fail err => ⟨[], .error err⟩

/-- `fieldError` is why the flow breaks its field definitions. -/
def run (fieldError : Option String) (s : σ) (opts : RunOpts) : Trace :=
  match fieldError, portabilityViolations graph with
  | some reason, _ => ⟨[], .error (.invalidFlow reason)⟩
  | none, violation :: _ => ⟨[], .error (.notPortable violation)⟩
  | none, [] =>
    let name := opts.start.getD graph.start
    let state := (opts.state.map RunState.fromV).getD {}
    runLoop lowerExp graph agent opts.maxSteps s name { path := opts.seedPath ++ [name], steps := opts.seedSteps } state

end

end Kernel

end Rust
