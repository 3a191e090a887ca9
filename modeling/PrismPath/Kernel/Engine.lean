import PrismPath.Kernel.Contract

/-!
This module contains the graph engine: one pass of its loop over a node, and the run that repeats it.
-/

open Python

namespace Engine

open Predicates Parser

/-- What a worker call ends in: a value, or an exception with its class name and text. -/
inductive Outcome where
  | returned (value : Value)
  | raised (errorType message : String)

structure RouteDecision where
  target : String
  used : String
  score : Option PyFloat
  sims : List (String × PyFloat)
  info : List (String × Value)

inductive Info where
  | deterministic (cond : String)
  | error (errorType : String) (guardErrors : Nat)
  | routed (decision : RouteDecision)
  | human
  | event
  /-- A step read back from a checkpoint, which keeps only this of its `info`. -/
  | restored (used : String)

/-- `info.get("used")`. -/
def Info.used : Info → String
  | deterministic _ => "deterministic"
  | error _ _ => "error"
  | routed decision => decision.used
  | human => "human"
  | event => "event"
  | restored used => used

structure StepLog where
  node : String
  outcome : String
  target : String
  info : Info

inductive Stopped where
  | terminal
  | stuck
  | needsHuman
  | waiting
  | maxSteps
  | contractViolation
  deriving DecidableEq

inductive Cause where
  | none
  | contractViolation
  | needsHuman
  | belowHumanFloor
  | stuck
  | maxSteps
  deriving DecidableEq

/-- The decision a suspended run waits for. -/
inductive Pending where
  | violation (node : String) (violations : List Contract.Violation)
  | human (node : String) (reason : Value) (candidates : List Edge)
  | belowFloor (node : String) (score humanFloor : PyFloat) (wouldPick : String)
      (candidates : List (Edge × Option PyFloat))
  | wait (node : String) (awaiting : List String) (timeoutS : Value) (candidates : List Edge)
      (spawn : Value)

def Pending.node : Pending → String
  | violation node _ => node
  | human node _ _ => node
  | belowFloor node _ _ _ _ => node
  | wait node _ _ _ _ => node

/-- The edge targets under `candidates`. -/
def Pending.candidateTargets : Pending → List String
  | violation _ _ => []
  | human _ _ candidates => candidates.map Edge.target
  | belowFloor _ _ _ _ candidates => candidates.map fun c => c.1.target
  | wait _ _ _ candidates _ => candidates.map Edge.target

inductive TranscriptEntry where
  | outcome (node text : String)
  | error (node text : String)
  | human (node text : String)
  | event (node text event : String)

structure GuardError where
  node : String
  guard : String
  error : PredicateError

/--
The state dictionary. Its counters and lists are empty where the source has not put the key in yet; `other`
holds the keys the engine does not touch.
-/
structure State where
  transcript : List TranscriptEntry := []
  visits : List (String × Nat) := []
  errors : List (String × Nat) := []
  guardErrors : List GuardError := []
  outcomes : List (String × List (String × Value)) := []
  stateDropped : List (String × Nat) := []
  other : List (String × Value) := []

structure RunResult where
  path : List String
  steps : List StepLog := []
  stopped : Option Stopped := none
  state : State
  pending : Option Pending := none
  cause : Cause := .none

/-- The keyword arguments of `run` that routing depends on. -/
structure Options where
  humanFloor : Option PyFloat := none
  typeGate : Bool := false
  maxTranscript : Option ℤ := none

/-- A router picks one of the edges it is given. -/
structure Router where
  route : String → List Edge → String → RouteDecision
  listed : ∀ text edges instruction, edges ≠ [] →
    ∃ edge ∈ edges, edge.target = (route text edges instruction).target

/-- A worker and a router; the worker may keep a state of its own, which the router may read. -/
structure Parties (σ : Type) where
  worker : σ → String → String → State → Outcome × σ
  router : σ → Router

def count (counts : List (String × Nat)) (key : String) : Nat :=
  (counts.lookup key).getD 0

def increment (counts : List (String × Nat)) (key : String) : List (String × Nat) :=
  Dict.set counts key (count counts key + 1)

/-- Text and fields of an outcome. -/
def normalize (py : Runtime) : Value → String × List (String × Value)
  | .dict fields => (py.str ((fields.lookup "text").getD (.str "")), fields)
  | value => (py.str value, [("text", .str (py.str value))])

/-- `fields.get(key)`. -/
def field (fields : List (String × Value)) (key : String) : Value :=
  (fields.lookup key).getD .none

/-- `{**fields, "visits": visits}`. -/
def context (fields : List (String × Value)) (visits : Nat) : Ctx :=
  fun name => if name = "visits" then .int visits else field fields name

/-- The first deterministic edge whose predicate matches, in document order. -/
def firstDeterministic (py : Runtime) (edges : List Edge) (ctx : Ctx) : Option Edge :=
  edges.find? fun edge => isDeterministic edge.condition && hit py edge.condition ctx

def errorContext (errorType message : String) (errorCount visits : Nat) : Ctx
  | "error" => .bool true
  | "error_type" => .str errorType
  | "error_message" => .str message
  | "error_count" => .int errorCount
  | "visits" => .int visits
  | _ => .none

/-- Whether an error edge handles the exception: a bare one does, a guarded one if its guard holds. -/
def guardResult (py : Runtime) (ctx : Ctx) (condition : String) : Except PredicateError Bool :=
  let expr := errorExpr condition
  if expr = "" then .ok true else evalCondition py expr ctx

/-- The error edge that handles the exception, and the guards that failed to evaluate before it. -/
def errorTarget (py : Runtime) (ctx : Ctx) : List Edge → Option String × List (String × PredicateError)
  | [] => (none, [])
  | edge :: edges =>
    let rest := errorTarget py ctx edges
    if isError edge.condition then
      match guardResult py ctx edge.condition with
      | .ok true => (some edge.target, [])
      | .ok false => rest
      | .error err => (rest.1, (errorExpr edge.condition, err) :: rest.2)
    else
      rest

/-- `int(raw)` of the first `@state_bound(transcript=raw)`; malformed bounds raise. -/
def flowStateBound (py : Runtime) (graph : Graph) : Except String (Option ℤ) :=
  match graph.nodes.findSome? fun node => node.annotations.lookup "state_bound" with
  | none => .ok none
  | some args =>
    match ((args.lookup "transcript").join).bind py.int with
    | none => .error "ValueError"
    | some keep => if keep < 1 then .error "ValueError" else .ok (some keep)

def countDrop (state : State) (key : String) (dropped : Nat) : State :=
  { state with stateDropped := Dict.set state.stateDropped key (count state.stateDropped key + dropped) }

/-- `seq[-keep:]`. -/
def lastEntries {α : Type} (keep : ℤ) (entries : List α) : List α :=
  if 0 ≤ keep then entries.drop (entries.length - keep.toNat) else entries.drop (-keep).toNat

/-- `not keep`: no bound, or a bound of zero, leaves a list as it is. -/
def bounded? (keep : Option ℤ) : Option ℤ :=
  keep.filter (· ≠ 0)

def boundTranscript (keep : Option ℤ) (state : State) : State :=
  match bounded? keep with
  | none => state
  | some keep =>
    if keep < state.transcript.length then
      let state' := countDrop state "transcript" (state.transcript.length - keep).toNat
      { state' with transcript := lastEntries keep state.transcript }
    else
      state

/-- The history a resume hands over, cut to the bound; what was dropped is counted under `key`. -/
def boundSeed {α : Type} (keep : Option ℤ) (key : String) (state : State) (seed : List α)
    : State × List α :=
  match bounded? keep with
  | none => (state, seed)
  | some keep =>
    if !seed.isEmpty && keep < seed.length then
      (countDrop state key (seed.length - keep).toNat, lastEntries keep seed)
    else
      (state, seed)

/-- What a pass of the loop ends in: the next node, the end of the run, or an exception. -/
inductive Next where
  | goto (node : String) (result : RunResult)
  | stop (pendingNode : String) (result : RunResult)
  | raise (errorType message : String)

/-- The visit is counted before the worker is called. -/
def enter (node : String) (state : State) : State :=
  { state with visits := increment state.visits node }

def visit (name : String) (result : RunResult) : RunResult :=
  { result with state := enter name result.state }

def follow (result : RunResult) (step : StepLog) : Next :=
  .goto step.target {
    result with
    steps := result.steps ++ [step]
    path := result.path ++ [step.target]
  }

def countError (node : Node) (result : RunResult) : RunResult :=
  { result with state := { result.state with errors := increment result.state.errors node.name } }

def errorText (errorType message : String) : String :=
  "[error: " ++ errorType ++ ": " ++ message ++ "]"

/-- The failed guards and the error itself go into the state. -/
def recordError (keep : Option ℤ) (node : Node) (result : RunResult) (errorType message : String)
    (errs : List (String × PredicateError)) : RunResult :=
  let guardErrors := result.state.guardErrors ++ errs.map fun (guard, err) => ⟨node.name, guard, err⟩
  let transcript := result.state.transcript ++ [.error node.name (errorText errorType message)]
  { result with state := boundTranscript keep { result.state with guardErrors, transcript } }

/-- The error tier: the worker raised. -/
def handleError (py : Runtime) (keep : Option ℤ) (node : Node) (result : RunResult)
    (errorType message : String) : Next :=
  let result := countError node result
  let ctx := errorContext errorType message (count result.state.errors node.name)
    (count result.state.visits node.name)
  match errorTarget py ctx node.edges with
  | (none, _) => .raise errorType message
  | (some target, errs) =>
    let result := recordError keep node result errorType message errs
    let guardErrors := (result.state.guardErrors.filter fun err => err.node = node.name).length
    follow result ⟨node.name, errorText errorType message, target, .error errorType guardErrors⟩

def semanticEdges (node : Node) : List Edge :=
  node.edges.filter fun edge => isSemantic edge.condition

def eventEdges (node : Node) : List Edge :=
  node.edges.filter fun edge => isEvent edge.condition

/-- The worker asks for a pause, by `wait` or by a `spawn`, which implies it. -/
def waits (fields : List (String × Value)) : Bool :=
  (field fields "wait").truthy || !((field fields "spawn") matches .none)

def suspendHuman (node : Node) (result : RunResult) (text : String) (fields : List (String × Value))
    : RunResult :=
  let reason := field fields "reason"
  {
    result with
    stopped := some .needsHuman
    cause := .needsHuman
    pending := some (.human node.name (if reason.truthy then reason else .str text) node.edges)
  }

def suspendWaiting (node : Node) (result : RunResult) (fields : List (String × Value)) : RunResult :=
  {
    result with
    stopped := some .waiting
    pending := some (.wait node.name ((eventEdges node).map fun edge => eventName edge.condition)
      (field fields "timeout_s") (eventEdges node) (field fields "spawn"))
  }

/-- Below the floor a person decides. -/
def belowFloor (opts : Options) (decision : RouteDecision) : Option (PyFloat × PyFloat) :=
  match opts.humanFloor, decision.score with
  | some floor, some score => if score.num.lt floor.num then some (score, floor) else none
  | _, _ => none

def suspendBelowFloor (node : Node) (result : RunResult) (decision : RouteDecision)
    (score floor : PyFloat) : RunResult :=
  {
    result with
    stopped := some .needsHuman
    cause := .belowHumanFloor
    pending := some (.belowFloor node.name score floor decision.target
      ((semanticEdges node).map fun edge => (edge, decision.sims.lookup edge.target)))
  }

/-- The semantic tier; a node without semantic edges is stuck. -/
def routeSemantic (opts : Options) (node : Node) (result : RunResult) (text : String)
    (router : Router) : Next :=
  if (semanticEdges node).isEmpty then
    .stop node.name { result with stopped := some .stuck, cause := .stuck }
  else
    let decision := router.route text (semanticEdges node) node.instruction
    match belowFloor opts decision with
    | some (score, floor) => .stop node.name (suspendBelowFloor node result decision score floor)
    | none => follow result ⟨node.name, text, decision.target, .routed decision⟩

def recordOutcome (py : Runtime) (keep : Option ℤ) (node : Node) (result : RunResult) (value : Value)
    : RunResult :=
  let (text, fields) := normalize py value
  let transcript := result.state.transcript ++ [.outcome node.name text]
  let state := boundTranscript keep { result.state with transcript }
  { result with state := { state with outcomes := Dict.set state.outcomes node.name fields } }

def gateViolations (py : Runtime) (opts : Options) (node : Node) (fields : List (String × Value))
    : List Contract.Violation :=
  if opts.typeGate then Contract.typeViolations (Contract.deriveContract py node) fields else []

def suspendViolation (node : Node) (result : RunResult) (violations : List Contract.Violation)
    : RunResult :=
  {
    result with
    stopped := some .contractViolation
    cause := .contractViolation
    pending := some (.violation node.name violations)
  }

/-- The routing of a returned outcome: the suspensions, the deterministic tier, the semantic tier. -/
def handleOutcome (py : Runtime) (opts : Options) (keep : Option ℤ) (node : Node) (result : RunResult)
    (value : Value) (router : Router) : Next :=
  let (text, fields) := normalize py value
  let result := recordOutcome py keep node result value
  let violations := gateViolations py opts node fields
  if !violations.isEmpty then
    .stop node.name (suspendViolation node result violations)
  else if (field fields "needs_human").truthy then
    .stop node.name (suspendHuman node result text fields)
  else if waits fields then
    .stop node.name (suspendWaiting node result fields)
  else
    match firstDeterministic py node.edges (context fields (count result.state.visits node.name)) with
    | some edge => follow result ⟨node.name, text, edge.target, .deterministic edge.condition⟩
    | none => routeSemantic opts node result text router

/-- One pass over a node that has edges, its visit counted already. -/
def step (py : Runtime) (opts : Options) (keep : Option ℤ) (node : Node) (result : RunResult)
    (outcome : Outcome) (router : Router) : Next :=
  match outcome with
  | .raised errorType message => handleError py keep node result errorType message
  | .returned value => handleOutcome py opts keep node result value router

/-- What a checkpoint is written from: the result so far, and the node a resume re-enters at. -/
structure Snapshot where
  result : RunResult
  pendingNode : Option String

inductive Ending where
  | returned (result : RunResult)
  | raised (errorType message : String)

/-- The checkpoints a run writes, in order, and how it ends. -/
structure Trace where
  snapshots : List Snapshot
  ending : Ending

def Trace.cons (snapshot : Snapshot) (trace : Trace) : Trace :=
  { trace with snapshots := snapshot :: trace.snapshots }

def loop {σ : Type} (py : Runtime) (opts : Options) (keep : Option ℤ) (graph : Graph)
    (parties : Parties σ) : Nat → σ → String → RunResult → Trace
  | 0, _, _, result => ⟨[], .returned { result with stopped := some .maxSteps, cause := .maxSteps }⟩
  | fuel + 1, s, name, result =>
    match graph.get? name with
    | none => ⟨[], .raised "KeyError" name⟩
    | some node =>
      if node.terminal then
        let result := { result with stopped := some .terminal }
        ⟨[⟨result, none⟩], .returned result⟩
      else
        let (outcome, s) := parties.worker s name node.instruction (visit name result).state
        Trace.cons ⟨result, some name⟩ <|
          match step py opts keep node (visit name result) outcome (parties.router s) with
          | .goto name result => loop py opts keep graph parties fuel s name result
          | .stop pendingNode result => ⟨[⟨result, some pendingNode⟩], .returned result⟩
          | .raise errorType message => ⟨[], .raised errorType message⟩

/-- The history a resumed run starts with. -/
structure Seed where
  path : List String := []
  steps : List StepLog := []

/-- The state and the history a run starts its loop with, both cut to the bound. -/
def begin (keep : Option ℤ) (start : String) (state : State) (seed : Seed) : RunResult :=
  let state := boundTranscript keep state
  let (state, path) := boundSeed keep "path" state seed.path
  let (state, steps) := boundSeed keep "steps" state seed.steps
  { path := path ++ [start], steps := steps, state := state }

def stateBound (py : Runtime) (opts : Options) (graph : Graph) : Except String (Option ℤ) :=
  match opts.maxTranscript with
  | some keep => .ok (some keep)
  | none => flowStateBound py graph

def run {σ : Type} (py : Runtime) (opts : Options) (graph : Graph) (parties : Parties σ) (s : σ)
    (maxSteps : Nat) (start : String) (state : State) (seed : Seed) : Trace :=
  match stateBound py opts graph with
  | .error errorType => ⟨[], .raised errorType graph.name⟩
  | .ok keep => loop py opts keep graph parties maxSteps s start (begin keep start state seed)

end Engine
