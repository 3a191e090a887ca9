import PrismPath.Kernel.EngineLemmas

/-!
This module contains what the bound on the state does to a run: two runs under any two bounds take the same
way, and what a bound drops is counted.
-/

open Python

namespace Engine

open Predicates Parser

/-! ## What the bound touches -/

/-- The state but for its window: the transcript, and the count of what has left it. -/
def hide (state : State) : State :=
  { state with transcript := [], stateDropped := [] }

theorem visits_of_hide {state state' : State} (h : hide state = hide state')
    : state.visits = state'.visits :=
  (State.mk.inj h).2.1

theorem errors_of_hide {state state' : State} (h : hide state = hide state')
    : state.errors = state'.errors :=
  (State.mk.inj h).2.2.1

theorem guardErrors_of_hide {state state' : State} (h : hide state = hide state')
    : state.guardErrors = state'.guardErrors :=
  (State.mk.inj h).2.2.2.1

theorem outcomes_of_hide {state state' : State} (h : hide state = hide state')
    : state.outcomes = state'.outcomes :=
  (State.mk.inj h).2.2.2.2.1

@[simp]
theorem hide_boundTranscript (keep : Option ℤ) (state : State)
    : hide (boundTranscript keep state) = hide state := by
  unfold boundTranscript
  split
  . rfl
  . split <;> rfl

@[simp]
theorem hide_boundSeed {α : Type} (keep : Option ℤ) (key : String) (state : State) (seed : List α)
    : hide (boundSeed keep key state seed).1 = hide state := by
  unfold boundSeed
  split
  . rfl
  . split <;> rfl

theorem hide_begin (keep : Option ℤ) (start : String) (state : State) (seed : Seed)
    : hide (begin keep start state seed).state = hide state := by
  simp [begin]

theorem hide_recordOutcome (py : Runtime) (keep : Option ℤ) (node : Node) (r : RunResult) (value : Value)
    : hide (recordOutcome py keep node r value).state
        = { hide r.state with
            outcomes := Dict.set (hide r.state).outcomes node.name (normalize py value).2 } := by
  have hbound := hide_boundTranscript keep
    { r.state with transcript := r.state.transcript ++ [.outcome node.name (normalize py value).1] }
  unfold recordOutcome
  dsimp only
  generalize boundTranscript keep _ = state at hbound ⊢
  have houtcomes : state.outcomes = r.state.outcomes := outcomes_of_hide hbound
  calc hide { state with outcomes := Dict.set state.outcomes node.name (normalize py value).2 }
      = { hide state with outcomes := Dict.set state.outcomes node.name (normalize py value).2 } := rfl
    _ = _ := by rw [hbound, houtcomes]; rfl

theorem hide_recordError (keep : Option ℤ) (node : Node) (r : RunResult) (errorType message : String)
    (errs : List (String × PredicateError))
    : hide (recordError keep node r errorType message errs).state
        = { hide r.state with
            guardErrors := (hide r.state).guardErrors ++ errs.map fun (guard, err) => ⟨node.name, guard, err⟩ } := by
  unfold recordError
  rw [hide_boundTranscript]
  rfl

/-- A node without what is annotated to it. -/
def bare (node : Node) : Node :=
  { node with annotations := [] }

/-- A pass reads nothing that is annotated. -/
theorem step_bare (py : Runtime) (opts : Options) (keep : Option ℤ) (node : Node) (r : RunResult)
    (outcome : Outcome) (router : Router)
    : step py opts keep (bare node) r outcome router = step py opts keep node r outcome router := by
  cases outcome <;> rfl

/-- A pass reads nothing of the bound that a run is given. -/
theorem step_maxTranscript (py : Runtime) (opts : Options) (bound keep : Option ℤ) (node : Node) (r : RunResult)
    (outcome : Outcome) (router : Router)
    : step py { opts with maxTranscript := bound } keep node r outcome router
        = step py opts keep node r outcome router := by
  cases outcome <;> rfl

theorem loop_maxTranscript {σ : Type} (py : Runtime) (opts : Options) (bound keep : Option ℤ) (graph : Graph)
    (parties : Parties σ) (fuel : Nat) (s : σ) (name : String) (r : RunResult)
    : loop py { opts with maxTranscript := bound } keep graph parties fuel s name r
        = loop py opts keep graph parties fuel s name r := by
  induction fuel generalizing s name r with
  | zero => rfl
  | succ fuel ih => simp only [loop, step_maxTranscript, ih]

/-- The graphs differ in their annotations only, where a bound may be declared. -/
def SameNodes (graph graph' : Graph) : Prop :=
  graph.nodes.map bare = graph'.nodes.map bare

theorem terminal_of_bare {node node' : Node} (h : bare node = bare node')
    : node.terminal = node'.terminal := by
  rw [Node.terminal, Node.terminal, (Node.mk.inj h).2.2.1]

theorem instruction_of_bare {node node' : Node} (h : bare node = bare node')
    : node.instruction = node'.instruction :=
  (Node.mk.inj h).2.1

theorem map_bare_get? (graph : Graph) (name : String)
    : (graph.get? name).map bare = (graph.nodes.map bare).find? fun node => node.name = name := by
  rw [List.find?_map]
  rfl

theorem SameNodes.get? {graph graph' : Graph} (h : SameNodes graph graph') (name : String)
    : (graph.get? name).map bare = (graph'.get? name).map bare := by
  rw [map_bare_get?, map_bare_get?, h]

/-! ## Two runs under two bounds -/

/-- The results agree in all but the window, and in what came after the history each run was handed. -/
structure Alike (seed seed' : Seed) (r r' : RunResult) : Prop where
  path : ∃ visited, r.path = seed.path ++ visited ∧ r'.path = seed'.path ++ visited
  steps : ∃ taken, r.steps = seed.steps ++ taken ∧ r'.steps = seed'.steps ++ taken
  stopped : r.stopped = r'.stopped
  state : hide r.state = hide r'.state
  pending : r.pending = r'.pending
  cause : r.cause = r'.cause

inductive AlikeNext (seed seed' : Seed) : Next → Next → Prop
  | goto {name : String} {r r' : RunResult} : Alike seed seed' r r' →
      AlikeNext seed seed' (.goto name r) (.goto name r')
  | stop {name : String} {r r' : RunResult} : Alike seed seed' r r' →
      AlikeNext seed seed' (.stop name r) (.stop name r')
  | raise (errorType message : String) :
      AlikeNext seed seed' (.raise errorType message) (.raise errorType message)

inductive AlikeEnding (seed seed' : Seed) : Ending → Ending → Prop
  | returned {r r' : RunResult} : Alike seed seed' r r' → AlikeEnding seed seed' (.returned r) (.returned r')
  | raised (errorType message : String) :
      AlikeEnding seed seed' (.raised errorType message) (.raised errorType message)

/-- The snapshots agree one by one, and so do the endings. -/
structure AlikeTrace (seed seed' : Seed) (trace trace' : Trace) : Prop where
  snapshots : List.Forall₂ (fun p p' => p.pendingNode = p'.pendingNode ∧ Alike seed seed' p.result p'.result)
    trace.snapshots trace'.snapshots
  ending : AlikeEnding seed seed' trace.ending trace'.ending

/-- The worker reads nothing of the window. -/
def Blind {σ : Type} (parties : Parties σ) : Prop :=
  ∀ s name instruction state,
    parties.worker s name instruction state = parties.worker s name instruction (hide state)

section

variable {py : Runtime} {opts : Options} {keep keep' : Option ℤ} {node : Node} {r r' : RunResult}
  {seed seed' : Seed}

theorem Alike.follow (h : Alike seed seed' r r') (step : StepLog)
    : AlikeNext seed seed' (follow r step) (follow r' step) := by
  rcases h.path with ⟨visited, hpath, hpath'⟩
  rcases h.steps with ⟨taken, hsteps, hsteps'⟩
  refine .goto ⟨⟨visited ++ [step.target], ?_, ?_⟩, ⟨taken ++ [step], ?_, ?_⟩, h.stopped, h.state, h.pending,
    h.cause⟩
  . rw [hpath, List.append_assoc]
  . rw [hpath', List.append_assoc]
  . rw [hsteps, List.append_assoc]
  . rw [hsteps', List.append_assoc]

theorem Alike.visit (h : Alike seed seed' r r') (name : String)
    : Alike seed seed' (visit name r) (visit name r') := by
  have hvisits : r.state.visits = r'.state.visits := visits_of_hide h.state
  have hstate : hide (enter name r.state) = hide (enter name r'.state) :=
    calc hide (enter name r.state)
        = { hide r.state with visits := increment r.state.visits name } := rfl
      _ = hide (enter name r'.state) := by rw [h.state, hvisits]; rfl
  exact ⟨h.path, h.steps, h.stopped, hstate, h.pending, h.cause⟩

theorem Alike.countError (h : Alike seed seed' r r') (node : Node)
    : Alike seed seed' (countError node r) (countError node r') := by
  have herrors : r.state.errors = r'.state.errors := errors_of_hide h.state
  have hstate : hide (Engine.countError node r).state = hide (Engine.countError node r').state :=
    calc hide (Engine.countError node r).state
        = { hide r.state with errors := increment r.state.errors node.name } := rfl
      _ = hide (Engine.countError node r').state := by rw [h.state, herrors]; rfl
  exact ⟨h.path, h.steps, h.stopped, hstate, h.pending, h.cause⟩

theorem Alike.recordError (h : Alike seed seed' r r') (node : Node) (errorType message : String)
    (errs : List (String × PredicateError))
    : Alike seed seed' (recordError keep node r errorType message errs)
        (recordError keep' node r' errorType message errs) := by
  refine ⟨h.path, h.steps, h.stopped, ?_, h.pending, h.cause⟩
  rw [hide_recordError, hide_recordError, h.state]

theorem Alike.recordOutcome (h : Alike seed seed' r r') (node : Node) (value : Value)
    : Alike seed seed' (recordOutcome py keep node r value) (recordOutcome py keep' node r' value) := by
  refine ⟨h.path, h.steps, h.stopped, ?_, h.pending, h.cause⟩
  rw [hide_recordOutcome, hide_recordOutcome, h.state]

theorem alike_handleError (h : Alike seed seed' r r') (errorType message : String)
    : AlikeNext seed seed' (handleError py keep node r errorType message)
        (handleError py keep' node r' errorType message) := by
  have hcount := h.countError node
  have herrors : (countError node r).state.errors = (countError node r').state.errors :=
    errors_of_hide hcount.state
  have hvisits : (countError node r).state.visits = (countError node r').state.visits :=
    visits_of_hide hcount.state
  unfold handleError
  dsimp only
  rw [herrors, hvisits]
  generalize errorTarget py _ node.edges = found
  rcases found with ⟨target, errs⟩
  cases target with
  | none => exact .raise _ _
  | some target =>
    have hrecord : Alike seed seed' (recordError keep node (countError node r) errorType message errs)
        (recordError keep' node (countError node r') errorType message errs) := hcount.recordError node _ _ _
    dsimp only
    rw [guardErrors_of_hide hrecord.state]
    exact hrecord.follow _

theorem alike_routeSemantic (h : Alike seed seed' r r') (text : String) (router : Router)
    : AlikeNext seed seed' (routeSemantic opts node r text router) (routeSemantic opts node r' text router) := by
  unfold routeSemantic
  dsimp only
  split
  . exact .stop ⟨h.path, h.steps, rfl, h.state, h.pending, rfl⟩
  . split
    . exact .stop ⟨h.path, h.steps, rfl, h.state, rfl, rfl⟩
    . exact h.follow _

theorem alike_handleOutcome (h : Alike seed seed' r r') (value : Value) (router : Router)
    : AlikeNext seed seed' (handleOutcome py opts keep node r value router)
        (handleOutcome py opts keep' node r' value router) := by
  have hrecord : Alike seed seed' (recordOutcome py keep node r value) (recordOutcome py keep' node r' value) :=
    h.recordOutcome node value
  have hvisits : (recordOutcome py keep node r value).state.visits
      = (recordOutcome py keep' node r' value).state.visits := visits_of_hide hrecord.state
  unfold handleOutcome
  dsimp only
  rw [hvisits]
  split
  . exact .stop ⟨hrecord.path, hrecord.steps, rfl, hrecord.state, rfl, rfl⟩
  . split
    . exact .stop ⟨hrecord.path, hrecord.steps, rfl, hrecord.state, rfl, rfl⟩
    . split
      . exact .stop ⟨hrecord.path, hrecord.steps, rfl, hrecord.state, rfl, hrecord.cause⟩
      . split
        . exact hrecord.follow _
        . exact alike_routeSemantic hrecord _ _

theorem alike_step (h : Alike seed seed' r r') (outcome : Outcome) (router : Router)
    : AlikeNext seed seed' (step py opts keep node r outcome router)
        (step py opts keep' node r' outcome router) := by
  cases outcome with
  | raised errorType message => exact alike_handleError h _ _
  | returned value => exact alike_handleOutcome h _ _

/-- Two loops under two bounds, over graphs that declare different ones. -/
theorem alike_loop {σ : Type} {parties : Parties σ} {graph graph' : Graph} (hgraph : SameNodes graph graph')
    (hblind : Blind parties) (h : Alike seed seed' r r') (fuel : Nat) (s : σ) (name : String)
    : AlikeTrace seed seed' (loop py opts keep graph parties fuel s name r)
        (loop py opts keep' graph' parties fuel s name r') := by
  induction fuel generalizing s name r r' with
  | zero =>
    refine ⟨.nil, .returned ?_⟩
    exact ⟨h.path, h.steps, rfl, h.state, h.pending, rfl⟩
  | succ fuel ih =>
    have hget := hgraph.get? name
    cases hnode : graph.get? name with
    | none =>
      rw [hnode] at hget
      rw [loop_missing hnode, loop_missing (Option.map_eq_none_iff.mp hget.symm)]
      exact ⟨.nil, .raised _ _⟩
    | some node =>
      rw [hnode] at hget
      rcases Option.map_eq_some_iff.mp hget.symm with ⟨node', hnode', hbare⟩
      have hterminal' : node'.terminal = node.terminal := terminal_of_bare hbare
      by_cases hterminal : node.terminal = true
      . rw [loop_terminal hnode hterminal, loop_terminal hnode' (hterminal'.trans hterminal)]
        have hended : Alike seed seed' { r with stopped := some .terminal } { r' with stopped := some .terminal } :=
          ⟨h.path, h.steps, rfl, h.state, h.pending, h.cause⟩
        exact ⟨.cons ⟨rfl, hended⟩ .nil, .returned hended⟩
      . have hvisit := h.visit name
        rcases hworker : parties.worker s name node.instruction (visit name r).state with ⟨outcome, s'⟩
        -- The other worker is shown the same state, but for the window it does not read.
        have hworker' : parties.worker s name node'.instruction (visit name r').state = (outcome, s') := by
          rw [hblind, instruction_of_bare hbare, ← hvisit.state, ← hblind, hworker]
        have hnext : AlikeNext seed seed' (step py opts keep node (visit name r) outcome (parties.router s'))
            (step py opts keep' node' (visit name r') outcome (parties.router s')) := by
          rw [← step_bare py opts keep' node', hbare, step_bare]
          exact alike_step hvisit _ _
        rw [loop_pass hnode hterminal hworker, loop_pass hnode' (by rwa [hterminal']) hworker']
        dsimp only [Trace.cons]
        generalize step py opts keep node (visit name r) outcome _ = next at hnext ⊢
        generalize step py opts keep' node' (visit name r') outcome _ = next' at hnext ⊢
        cases hnext with
        | @goto name' _ _ halike =>
          have hrest := ih halike s' name'
          exact ⟨.cons ⟨rfl, h⟩ hrest.snapshots, hrest.ending⟩
        | stop halike => exact ⟨.cons ⟨rfl, h⟩ (.cons ⟨rfl, halike⟩ .nil), .returned halike⟩
        | raise errorType message => exact ⟨.cons ⟨rfl, h⟩ .nil, .raised _ _⟩

end

/-! ## What the bound drops is counted -/

/-- The entries a transcript has had: those it holds, and those counted as dropped. -/
def logged (state : State) : Nat :=
  count state.stateDropped "transcript" + state.transcript.length

/-- Every checkpoint of a run is one entry after the one before it; a result has one for each worker call. -/
structure Counted (before calls : Nat) (trace : Trace) : Prop where
  written : ∀ i snapshot, trace.snapshots[i]? = some snapshot → logged snapshot.result.state = before + i
  returned : ∀ r, trace.ending = .returned r → logged r.state = before + calls

section

variable {py : Runtime} {opts : Options} {keep : Option ℤ} {node : Node} {r r' : RunResult}

theorem count_countDrop (state : State) (key other : String) (dropped : Nat)
    : count (countDrop state key dropped).stateDropped other
        = if key = other then count state.stateDropped key + dropped else count state.stateDropped other := by
  simp only [count, countDrop, Dict.lookup_set]
  split <;> rfl

theorem logged_countDrop {state : State} {key : String} (hkey : key ≠ "transcript") (dropped : Nat)
    : logged (countDrop state key dropped) = logged state := by
  unfold logged
  rw [count_countDrop, if_neg hkey]
  rfl

/-- What is cut off a transcript is counted, if the bound is not negative. -/
theorem logged_boundTranscript (hkeep : ∀ k ∈ keep, 0 ≤ k) (state : State)
    : logged (boundTranscript keep state) = logged state := by
  unfold boundTranscript
  split
  . rfl
  . next k hk =>
    have hnonneg : 0 ≤ k := hkeep k (Option.filter_eq_some_iff.mp hk).1
    split
    . next hlt =>
      unfold logged
      dsimp only
      rw [count_countDrop, if_pos rfl, lastEntries, if_pos hnonneg, List.length_drop]
      omega
    . rfl

theorem logged_boundSeed {α : Type} {key : String} (hkey : key ≠ "transcript") (keep : Option ℤ) (state : State)
    (entries : List α)
    : logged (boundSeed keep key state entries).1 = logged state := by
  unfold boundSeed
  split
  . rfl
  . split
    . apply logged_countDrop hkey
    . rfl

theorem logged_begin (hkeep : ∀ k ∈ keep, 0 ≤ k) (start : String) (state : State) (seed : Seed)
    : logged (begin keep start state seed).state = logged state := by
  unfold begin
  dsimp only
  rw [logged_boundSeed (by decide), logged_boundSeed (by decide), logged_boundTranscript hkeep]

theorem logged_recordOutcome (hkeep : ∀ k ∈ keep, 0 ≤ k) (value : Value)
    : logged (recordOutcome py keep node r value).state = logged r.state + 1 := by
  have hbound := logged_boundTranscript hkeep
    { r.state with transcript := r.state.transcript ++ [.outcome node.name (normalize py value).1] }
  simp only [logged, List.length_append, List.length_singleton] at hbound
  unfold recordOutcome logged
  dsimp only
  omega

theorem logged_recordError (hkeep : ∀ k ∈ keep, 0 ≤ k) (errorType message : String)
    (errs : List (String × PredicateError))
    : logged (recordError keep node r errorType message errs).state = logged r.state + 1 := by
  unfold recordError
  dsimp only
  rw [logged_boundTranscript hkeep]
  unfold logged
  dsimp only
  rw [List.length_append, List.length_singleton]
  omega

/-- A pass that goes on has appended one entry. -/
theorem logged_goto (hkeep : ∀ k ∈ keep, 0 ≤ k) {outcome : Outcome} {router : Router} {name : String}
    (h : step py opts keep node r outcome router = .goto name r')
    : logged r'.state = logged r.state + 1 := by
  cases outcome with
  | raised errorType message =>
    simp only [step, handleError] at h
    split at h
    . cases h
    . cases h
      apply logged_recordError hkeep
  | returned value =>
    simp only [step, handleOutcome] at h
    split at h
    . cases h
    . split at h
      . cases h
      . split at h
        . cases h
        . split at h
          . cases h
            apply logged_recordOutcome hkeep
          . rcases routeSemantic_goto h with ⟨-, -, -, -, hstate⟩
            rw [hstate]
            apply logged_recordOutcome hkeep

/-- A pass that ends the run has appended one as well. -/
theorem logged_stop (hkeep : ∀ k ∈ keep, 0 ≤ k) {outcome : Outcome} {router : Router} {name : String}
    (h : step py opts keep node r outcome router = .stop name r')
    : logged r'.state = logged r.state + 1 := by
  rcases step_stop h with ⟨-, value, -, hhalts⟩
  rw [hhalts.frame.2.2]
  apply logged_recordOutcome hkeep

theorem Counted.cons {before calls : Nat} {snapshot : Snapshot} {trace : Trace}
    (hsnapshot : logged snapshot.result.state = before) (h : Counted (before + 1) calls trace)
    : Counted before (calls + 1) (trace.cons snapshot) where
  written := by
    intro i snapshot' hget
    cases i with
    | zero =>
      cases hget
      exact hsnapshot
    | succ i =>
      have := h.written i snapshot' hget
      omega
  returned := by
    intro r hr
    have := h.returned r hr
    omega

theorem counted_singleton {before : Nat} {r : RunResult} (h : logged r.state = before)
    (pendingNode : Option String)
    : Counted before 0 ⟨[⟨r, pendingNode⟩], .returned r⟩ where
  written := by
    intro i snapshot hget
    cases i with
    | zero =>
      cases hget
      exact h
    | succ i => simp at hget
  returned := by
    intro r' hr'
    cases hr'
    exact h

theorem counted_raised (before calls : Nat) (errorType message : String)
    : Counted before calls ⟨[], .raised errorType message⟩ where
  written := by simp
  returned := by simp

theorem counted_loop {σ : Type} {parties : Parties σ} {graph : Graph} (hkeep : ∀ k ∈ keep, 0 ≤ k) (fuel : Nat)
    (s : σ) (name : String) (r : RunResult)
    : Counted (logged r.state) (workerCalls py opts keep graph parties fuel s name r).length
        (loop py opts keep graph parties fuel s name r) := by
  induction fuel generalizing s name r with
  | zero =>
    refine ⟨by simp [loop], ?_⟩
    intro r' hr'
    cases hr'
    rfl
  | succ fuel ih =>
    cases hnode : graph.get? name with
    | none =>
      rw [loop_missing hnode]
      apply counted_raised
    | some node =>
      by_cases hterminal : node.terminal = true
      . rw [loop_terminal hnode hterminal]
        simp only [workerCalls, hnode, hterminal, if_true]
        exact counted_singleton (r := { r with stopped := some .terminal }) rfl none
      . rcases hworker : parties.worker s name node.instruction (visit name r).state with ⟨outcome, s'⟩
        rw [loop_pass hnode hterminal hworker]
        simp only [workerCalls, hnode, hterminal, hworker, Bool.false_eq_true, if_false, List.length_cons]
        have hfirst : logged (Snapshot.mk r (some name)).result.state = logged r.state := rfl
        apply Counted.cons hfirst
        cases hstep : step py opts keep node (visit name r) outcome (parties.router s') with
        | goto name' r' =>
          have hlogged : logged r'.state = logged (visit name r).state + 1 := logged_goto hkeep hstep
          have hvisit : logged (visit name r).state = logged r.state := rfl
          rw [← hvisit, ← hlogged]
          apply ih
        | stop name' r' => exact counted_singleton (logged_stop hkeep hstep) _
        | raise errorType message => apply counted_raised

end

/-! ## Runs -/

/-- The part of a run's history that the bound leaves of what the run is handed. -/
def handed (keep : Option ℤ) (state : State) (seed : Seed) : Seed where
  path := (boundSeed keep "path" state seed.path).2
  steps := (boundSeed keep "steps" state seed.steps).2

theorem boundSeed_snd {α : Type} (keep : Option ℤ) (key : String) (state state' : State) (entries : List α)
    : (boundSeed keep key state entries).2 = (boundSeed keep key state' entries).2 := by
  unfold boundSeed
  split
  . rfl
  . split <;> rfl

theorem handed_empty (keep : Option ℤ) (state : State)
    : handed keep state {} = {} := by
  unfold handed boundSeed
  cases bounded? keep <;> rfl

theorem alike_begin (keep keep' : Option ℤ) (start : String) (state : State) (seed : Seed)
    : Alike (handed keep state seed) (handed keep' state seed) (begin keep start state seed)
        (begin keep' start state seed) where
  path := by
    refine ⟨[start], ?_, ?_⟩
    . exact congrArg (· ++ [start]) (boundSeed_snd keep "path" _ _ _)
    . exact congrArg (· ++ [start]) (boundSeed_snd keep' "path" _ _ _)
  steps := by
    refine ⟨[], ?_, ?_⟩
    . rw [List.append_nil]
      exact boundSeed_snd keep "steps" _ _ _
    . rw [List.append_nil]
      exact boundSeed_snd keep' "steps" _ _ _
  stopped := rfl
  state := by rw [hide_begin, hide_begin]
  pending := rfl
  cause := rfl

/--
Under any two bounds that a run accepts, given as an argument or declared by the flow, a worker that reads
nothing of the window makes the same run, apart from the window itself and from the history a resume hands over;
and under a bound that is not negative, what is dropped and what is retained add up at every checkpoint and at
the end.
-/
theorem window_invisible {σ : Type} {py : Runtime} {opts : Options} {bound bound' keep keep' : Option ℤ}
    {graph graph' : Graph} {parties : Parties σ} (hgraph : SameNodes graph graph') (hblind : Blind parties)
    (hkeep : stateBound py { opts with maxTranscript := bound } graph = .ok keep)
    (hkeep' : stateBound py { opts with maxTranscript := bound' } graph' = .ok keep') (s : σ) (maxSteps : Nat)
    (start : String) (state : State) (seed : Seed)
    : let trace := run py { opts with maxTranscript := bound } graph parties s maxSteps start state seed
      let trace' := run py { opts with maxTranscript := bound' } graph' parties s maxSteps start state seed
      AlikeTrace (handed keep state seed) (handed keep' state seed) trace trace'
        ∧ (seed = {} → ∀ r r', trace.ending = .returned r → trace'.ending = .returned r' →
            r.path = r'.path ∧ r.stopped = r'.stopped ∧ r.state.visits = r'.state.visits)
        ∧ ((∀ k ∈ keep, 0 ≤ k) →
            Counted (logged state)
              (runCalls py { opts with maxTranscript := bound } graph parties s maxSteps start state seed).length
              trace) := by
  intro trace trace'
  have htrace : trace = loop py opts keep graph parties maxSteps s start (begin keep start state seed) := by
    dsimp only [trace]
    rw [run, hkeep]
    dsimp only
    rw [loop_maxTranscript]
  have htrace' : trace' = loop py opts keep' graph' parties maxSteps s start (begin keep' start state seed) := by
    dsimp only [trace']
    rw [run, hkeep']
    dsimp only
    rw [loop_maxTranscript]
  have halike : AlikeTrace (handed keep state seed) (handed keep' state seed) trace trace' := by
    rw [htrace, htrace']
    exact alike_loop hgraph hblind (alike_begin keep keep' start state seed) maxSteps s start
  refine ⟨halike, ?_, ?_⟩
  . rintro rfl r r' hr hr'
    have hending := halike.ending
    rw [hr, hr', handed_empty, handed_empty] at hending
    cases hending with
    | returned h =>
      rcases h.path with ⟨visited, hpath, hpath'⟩
      exact ⟨hpath.trans hpath'.symm, h.stopped, visits_of_hide h.state⟩
  . intro hnonneg
    dsimp only [trace]
    rw [run, runCalls, hkeep, ← logged_begin hnonneg start state seed]
    apply counted_loop hnonneg

/-! ## What is not promised -/

def windowPy : Runtime where
  parse := fun _ => none
  str
    | .str s => s
    | _ => ""
  int := fun _ => none

/-- One node, whose only edge is never taken. -/
def windowGraph : Graph where
  name := "window"
  start := "a"
  nodes := [{ name := "a", edges := [⟨"b", "when x"⟩] }, { name := "b", edges := [] }]
  nodup := by decide

/-- A worker that asks for a person once entries have been dropped; it does not look at the transcript. -/
def countingParties : Parties Unit where
  worker := fun _ _ _ state =>
    (.returned (.dict [("needs_human", .bool (0 < count state.stateDropped "transcript"))]), ())
  router := fun _ => firstRouter

def blindParties : Parties Unit where
  worker := fun _ _ _ _ => (.returned (.str "done"), ())
  router := fun _ => firstRouter

def windowRun (parties : Parties Unit) (bound : Option ℤ) (transcript : List TranscriptEntry) (seed : Seed)
    : Option RunResult :=
  (run windowPy { maxTranscript := bound } windowGraph parties () 25 "a" { transcript := transcript }
    seed).ending.result?

def twoEntries : List TranscriptEntry :=
  [.outcome "x" "", .outcome "y" ""]

/-- The runs of the worker that reads nothing are alike under a bound of one and under none. -/
theorem windowRun_alike
    : (∀ r r', (run windowPy { maxTranscript := some 1 } windowGraph blindParties () 25 "a"
          { transcript := twoEntries } {}).ending = .returned r →
        (run windowPy { maxTranscript := none } windowGraph blindParties () 25 "a"
          { transcript := twoEntries } {}).ending = .returned r' →
        r.path = r'.path ∧ r.stopped = r'.stopped ∧ r.state.visits = r'.state.visits)
        ∧ Counted 2 1 (run windowPy { maxTranscript := some 1 } windowGraph blindParties () 25 "a"
            { transcript := twoEntries } {}) := by
  have hbound : stateBound windowPy { maxTranscript := none } windowGraph = .ok none := by
    with_unfolding_all decide
  have h := @window_invisible Unit windowPy {} (some 1) none (some 1) none windowGraph windowGraph blindParties rfl
    (by intro _ _ _ _; rfl) rfl hbound () 25 "a" { transcript := twoEntries } {}
  have hcalls : runCalls windowPy { maxTranscript := some 1 } windowGraph blindParties () 25 "a"
      { transcript := twoEntries } {} = ["a"] := by
    with_unfolding_all decide
  have hcounted := h.2.2 (by simp)
  rw [hcalls] at hcounted
  exact ⟨h.2.1 rfl, hcounted⟩

/--
A worker that reads what is counted of the dropped entries routes on the bound; a run that is handed a history
longer than its bound has a shorter path; and under a negative bound the count is off from the start.
-/
theorem windowRun_visible
    : [none, some 1].map (fun bound => (windowRun countingParties bound twoEntries {}).map RunResult.stopped)
          = [some (some .stuck), some (some .needsHuman)]
        ∧ [none, some 1].map (fun bound => (windowRun blindParties bound [] ⟨["x", "y"], []⟩).map RunResult.path)
          = [some ["x", "y", "a"], some ["y", "a"]]
        ∧ [none, some 1, some (-1)].map (fun bound => (windowRun blindParties bound [] {}).map fun r =>
            logged r.state) = [some 1, some 1, some 3] := by
  with_unfolding_all decide

end Engine
