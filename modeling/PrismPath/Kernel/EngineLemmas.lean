import PrismPath.Kernel.Engine

/-!
This module contains what one pass of the engine's loop can do, and the nodes a run can stand on.
-/

open Python

namespace Engine

open Predicates Parser

/-- The result a run returns, if it does not raise. -/
def Ending.result? : Ending → Option RunResult
  | returned result => some result
  | raised _ _ => none

/-- Picks the first edge. -/
def firstRouter : Router where
  route := fun _ edges _ => ⟨(edges.head?.map Edge.target).getD "", "first", none, [], []⟩
  listed := by
    intro text edges instruction hne
    cases edges with
    | nil => contradiction
    | cons edge edges => exact ⟨edge, List.mem_cons_self, rfl⟩

@[simp]
theorem lookup_increment (counts : List (String × Nat)) (key other : String)
    : count (increment counts key) other = if key = other then count counts key + 1 else count counts other := by
  simp only [count, increment, Dict.lookup_set]
  split <;> rfl

/-- How often nodes have been entered. -/
def total (counts : List (String × Nat)) : Nat :=
  (counts.map Prod.snd).sum

theorem total_increment (counts : List (String × Nat)) (key : String)
    : total (increment counts key) = total counts + 1 := by
  unfold increment total
  induction counts with
  | nil => rfl
  | cons p counts ih =>
    rcases p with ⟨k, n⟩
    simp only [Dict.set, count, Dict.lookup_cons_eq] at ih ⊢
    split
    . simp only [List.map_cons, List.sum_cons, Option.getD_some]
      omega
    . simp only [List.map_cons, List.sum_cons, ih]
      omega

@[simp]
theorem boundTranscript_visits (keep : Option ℤ) (state : State)
    : (boundTranscript keep state).visits = state.visits := by
  unfold boundTranscript
  split
  . rfl
  . split <;> rfl

@[simp]
theorem boundTranscript_errors (keep : Option ℤ) (state : State)
    : (boundTranscript keep state).errors = state.errors := by
  unfold boundTranscript
  split
  . rfl
  . split <;> rfl

@[simp]
theorem boundSeed_visits {α : Type} (keep : Option ℤ) (key : String) (state : State) (seed : List α)
    : (boundSeed keep key state seed).1.visits = state.visits := by
  unfold boundSeed
  split
  . rfl
  . split <;> rfl

@[simp]
theorem begin_visits (keep : Option ℤ) (start : String) (state : State) (seed : Seed)
    : (begin keep start state seed).state.visits = state.visits := by
  simp [begin]

theorem mem_of_errorTarget {py : Runtime} {ctx : Ctx} {edges : List Edge} {target : String}
    (h : (errorTarget py ctx edges).1 = some target)
    : ∃ edge ∈ edges, isError edge.condition = true ∧ edge.target = target := by
  induction edges with
  | nil => simp [errorTarget] at h
  | cons edge edges ih =>
    have hrest (h : (errorTarget py ctx edges).1 = some target)
        : ∃ e ∈ edge :: edges, isError e.condition = true ∧ e.target = target := by
      rcases ih h with ⟨e, he, hrest⟩
      exact ⟨e, List.mem_cons_of_mem _ he, hrest⟩
    simp only [errorTarget] at h
    split at h
    . next herror =>
      split at h
      . exact ⟨edge, List.mem_cons_self, herror, Option.some.inj h⟩
      . exact hrest h
      . exact hrest h
    . exact hrest h

/-- The ways from a node to the next one. -/
inductive Taken (py : Runtime) (node : Node) (visits : Nat) : Outcome → Edge → Prop
  | error {errorType message : String} {edge : Edge} : edge ∈ node.edges →
      isError edge.condition = true → Taken py node visits (.raised errorType message) edge
  | deterministic {value : Value} {edge : Edge} :
      firstDeterministic py node.edges (context (normalize py value).2 visits) = some edge →
      Taken py node visits (.returned value) edge
  | semantic {value : Value} {edge : Edge} :
      firstDeterministic py node.edges (context (normalize py value).2 visits) = none →
      edge ∈ semanticEdges node → Taken py node visits (.returned value) edge

theorem Taken.mem {py : Runtime} {node : Node} {visits : Nat} {outcome : Outcome} {edge : Edge}
    (h : Taken py node visits outcome edge)
    : edge ∈ node.edges := by
  cases h with
  | error hmem _ => exact hmem
  | deterministic hfirst => exact List.mem_of_find?_eq_some hfirst
  | semantic _ hmem => exact List.mem_of_mem_filter hmem

@[simp]
theorem countError_visits (node : Node) (result : RunResult)
    : (countError node result).state.visits = result.state.visits :=
  rfl

@[simp]
theorem recordError_visits (keep : Option ℤ) (node : Node) (result : RunResult)
    (errorType message : String) (errs : List (String × PredicateError))
    : (recordError keep node result errorType message errs).state.visits = result.state.visits := by
  simp [recordError]

@[simp]
theorem recordOutcome_visits (py : Runtime) (keep : Option ℤ) (node : Node) (result : RunResult)
    (value : Value)
    : (recordOutcome py keep node result value).state.visits = result.state.visits := by
  simp [recordOutcome]

theorem routeSemantic_goto {opts : Options} {node : Node} {result result' : RunResult} {text : String}
    {router : Router} {name : String}
    (h : routeSemantic opts node result text router = .goto name result')
    : ∃ edge ∈ semanticEdges node,
        edge.target = name
          ∧ result'.path = result.path ++ [name]
          ∧ result'.state = result.state := by
  unfold routeSemantic at h
  split at h
  . contradiction
  . next hsem =>
    dsimp only at h
    split at h
    . contradiction
    . simp only [follow, Next.goto.injEq] at h
      rcases h with ⟨rfl, rfl⟩
      rcases router.listed text (semanticEdges node) node.instruction (by simpa using hsem)
        with ⟨edge, hmem, htarget⟩
      exact ⟨edge, hmem, htarget, rfl, rfl⟩

/-- A pass that goes on follows an edge, appends its target to the path and leaves the counters alone. -/
theorem step_goto {py : Runtime} {opts : Options} {keep : Option ℤ} {node : Node}
    {result result' : RunResult} {outcome : Outcome} {router : Router} {name : String}
    (h : step py opts keep node result outcome router = .goto name result')
    : ∃ edge,
        Taken py node (count result.state.visits node.name) outcome edge
          ∧ edge.target = name
          ∧ result'.path = result.path ++ [name]
          ∧ result'.state.visits = result.state.visits := by
  cases outcome with
  | raised errorType message =>
    simp only [step, handleError] at h
    split at h
    . contradiction
    . next target errs heq =>
      rcases mem_of_errorTarget (by rw [heq]) with ⟨edge, hmem, herror, htarget⟩
      simp only [follow, Next.goto.injEq] at h
      rcases h with ⟨rfl, rfl⟩
      exact ⟨edge, .error hmem herror, htarget, rfl, by simp⟩
  | returned value =>
    simp only [step, handleOutcome, recordOutcome_visits] at h
    split at h
    . contradiction
    . split at h
      . contradiction
      . split at h
        . contradiction
        . split at h
          . next edge hfirst =>
            simp only [follow, Next.goto.injEq] at h
            rcases h with ⟨rfl, rfl⟩
            exact ⟨edge, .deterministic hfirst, rfl, rfl, by simp⟩
          . next hfirst =>
            rcases routeSemantic_goto h with ⟨edge, hmem, htarget, hpath, hstate⟩
            refine ⟨edge, .semantic hfirst hmem, htarget, hpath, ?_⟩
            rw [hstate, recordOutcome_visits]

/-- A pass that goes on leaves what says that a run has stopped as it is. -/
theorem step_goto_frame {py : Runtime} {opts : Options} {keep : Option ℤ} {node : Node}
    {result result' : RunResult} {outcome : Outcome} {router : Router} {name : String}
    (h : step py opts keep node result outcome router = .goto name result')
    : result'.stopped = result.stopped ∧ result'.pending = result.pending ∧ result'.cause = result.cause := by
  cases outcome with
  | raised errorType message =>
    simp only [step, handleError] at h
    split at h
    . cases h
    . cases h
      exact ⟨rfl, rfl, rfl⟩
  | returned value =>
    simp only [step, handleOutcome, routeSemantic] at h
    repeat' split at h
    all_goals cases h
    all_goals exact ⟨rfl, rfl, rfl⟩

/-- The ways a pass over a returned outcome ends the run, `result` being what is recorded of the outcome. -/
inductive Halts (py : Runtime) (opts : Options) (node : Node) (result : RunResult) (value : Value)
    : RunResult → Prop
  | violation
      : gateViolations py opts node (normalize py value).2 ≠ [] →
        Halts py opts node result value
          (suspendViolation node result (gateViolations py opts node (normalize py value).2))
  | human
      : (field (normalize py value).2 "needs_human").truthy = true →
        Halts py opts node result value (suspendHuman node result (normalize py value).1 (normalize py value).2)
  | waiting
      : waits (normalize py value).2 = true →
        Halts py opts node result value (suspendWaiting node result (normalize py value).2)
  | stuck
      : semanticEdges node = [] →
        Halts py opts node result value { result with stopped := some .stuck, cause := .stuck }
  | belowFloor {decision : RouteDecision} {score floor : PyFloat}
      : belowFloor opts decision = some (score, floor) →
        Halts py opts node result value (suspendBelowFloor node result decision score floor)

/-- A pass that suspends or ends the run, and what it leaves behind. -/
theorem step_stop {py : Runtime} {opts : Options} {keep : Option ℤ} {node : Node}
    {result result' : RunResult} {outcome : Outcome} {router : Router} {name : String}
    (h : step py opts keep node result outcome router = .stop name result')
    : name = node.name
        ∧ ∃ value, outcome = .returned value
            ∧ Halts py opts node (recordOutcome py keep node result value) value result' := by
  cases outcome with
  | raised errorType message =>
    simp only [step, handleError] at h
    split at h <;> cases h
  | returned value =>
    simp only [step, handleOutcome] at h
    split at h
    . next hgate =>
      cases h
      exact ⟨rfl, value, rfl, .violation (by simpa using hgate)⟩
    . split at h
      . next hhuman =>
        cases h
        exact ⟨rfl, value, rfl, .human hhuman⟩
      . split at h
        . next hwaits =>
          cases h
          exact ⟨rfl, value, rfl, .waiting hwaits⟩
        . split at h
          . cases h
          . unfold routeSemantic at h
            split at h
            . next hsem =>
              cases h
              exact ⟨rfl, value, rfl, .stuck (by simpa using hsem)⟩
            . dsimp only at h
              split at h
              . next score floor hfloor =>
                cases h
                exact ⟨rfl, value, rfl, .belowFloor hfloor⟩
              . cases h

/-- A pass that ends the run leaves the counters and the path alone as well. -/
theorem Halts.frame {py : Runtime} {opts : Options} {node : Node} {result result' : RunResult} {value : Value}
    (h : Halts py opts node result value result')
    : result'.path = result.path ∧ result'.steps = result.steps ∧ result'.state = result.state := by
  cases h <;> exact ⟨rfl, rfl, rfl⟩

/-- A run that waits knows the node it waits at, and the events of that node. -/
theorem Halts.pending_of_waiting {py : Runtime} {opts : Options} {node : Node} {result result' : RunResult}
    {value : Value} (h : Halts py opts node result value result') (hwaiting : result'.stopped = some .waiting)
    : result'.pending = some (.wait node.name ((eventEdges node).map fun edge => eventName edge.condition)
        (field (normalize py value).2 "timeout_s") (eventEdges node)
        (field (normalize py value).2 "spawn")) := by
  cases h <;> first | rfl | simp_all [suspendViolation, suspendHuman, suspendBelowFloor]

/-- A pass of the loop over a node that has edges. -/
theorem loop_pass {σ : Type} {py : Runtime} {opts : Options} {keep : Option ℤ} {graph : Graph}
    {parties : Parties σ} {fuel : Nat} {s s' : σ} {name : String} {r : RunResult} {node : Node}
    {outcome : Outcome} (hnode : graph.get? name = some node) (hterminal : ¬node.terminal = true)
    (hworker : parties.worker s name node.instruction (visit name r).state = (outcome, s'))
    : loop py opts keep graph parties (fuel + 1) s name r
        = Trace.cons ⟨r, some name⟩
            (match step py opts keep node (visit name r) outcome (parties.router s') with
            | .goto name' r' => loop py opts keep graph parties fuel s' name' r'
            | .stop pendingNode r' => ⟨[⟨r', some pendingNode⟩], .returned r'⟩
            | .raise errorType message => ⟨[], .raised errorType message⟩) := by
  simp only [loop, hnode, hterminal, hworker, Bool.false_eq_true, if_false] <;> rfl

theorem loop_terminal {σ : Type} {py : Runtime} {opts : Options} {keep : Option ℤ} {graph : Graph}
    {parties : Parties σ} {fuel : Nat} {s : σ} {name : String} {r : RunResult} {node : Node}
    (hnode : graph.get? name = some node) (hterminal : node.terminal = true)
    : loop py opts keep graph parties (fuel + 1) s name r
        = ⟨[⟨{ r with stopped := some .terminal }, none⟩], .returned { r with stopped := some .terminal }⟩ := by
  simp only [loop, hnode, hterminal, if_true]

theorem loop_missing {σ : Type} {py : Runtime} {opts : Options} {keep : Option ℤ} {graph : Graph}
    {parties : Parties σ} {fuel : Nat} {s : σ} {name : String} {r : RunResult} (hnode : graph.get? name = none)
    : loop py opts keep graph parties (fuel + 1) s name r = ⟨[], .raised "KeyError" name⟩ := by
  simp only [loop, hnode]

/-! ## Worker calls -/

/-- The nodes the loop calls the worker at. -/
def workerCalls {σ : Type} (py : Runtime) (opts : Options) (keep : Option ℤ) (graph : Graph)
    (parties : Parties σ) : Nat → σ → String → RunResult → List String
  | 0, _, _, _ => []
  | fuel + 1, s, name, result =>
    match graph.get? name with
    | none => []
    | some node =>
      if node.terminal then
        []
      else
        let (outcome, s) := parties.worker s name node.instruction (visit name result).state
        name :: match step py opts keep node (visit name result) outcome (parties.router s) with
          | .goto name result => workerCalls py opts keep graph parties fuel s name result
          | .stop _ _ | .raise _ _ => []

def runCalls {σ : Type} (py : Runtime) (opts : Options) (graph : Graph) (parties : Parties σ) (s : σ)
    (maxSteps : Nat) (start : String) (state : State) (seed : Seed) : List String :=
  match stateBound py opts graph with
  | .error _ => []
  | .ok keep => workerCalls py opts keep graph parties maxSteps s start (begin keep start state seed)

section

variable {σ : Type} {py : Runtime} {opts : Options} {keep : Option ℤ} {graph : Graph} {parties : Parties σ}

theorem length_workerCalls_le (fuel : Nat) (s : σ) (name : String) (r : RunResult)
    : (workerCalls py opts keep graph parties fuel s name r).length ≤ fuel := by
  induction fuel generalizing s name r with
  | zero => exact Nat.le_refl 0
  | succ fuel ih =>
    unfold workerCalls
    split
    . apply Nat.zero_le
    . split
      . apply Nat.zero_le
      . simp only [List.length_cons, Nat.add_le_add_iff_right]
        split
        . apply ih
        . apply Nat.zero_le
        . apply Nat.zero_le

end

end Engine
