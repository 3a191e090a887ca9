import PrismPath.Kernel.EngineLemmas
import PrismPath.Ledgers.CheckpointLemmas

/-!
This module contains the equivalence of a run that crashes and is resumed, any number of times, with the run
that does not crash.
-/

open Python

namespace Checkpoint

open Predicates Parser Engine

/-! ## Results that agree -/

/-- What a checkpoint keeps of a step. -/
def summary (step : StepLog) : StepSummary :=
  ⟨step.node, step.target, step.info.used⟩

/-- The same result, its steps compared by what a checkpoint keeps of them. -/
structure Same (r r' : RunResult) : Prop where
  path : r.path = r'.path
  steps : r.steps.map summary = r'.steps.map summary
  stopped : r.stopped = r'.stopped
  state : r.state = r'.state
  pending : r.pending = r'.pending
  cause : r.cause = r'.cause

theorem Same.refl (r : RunResult)
    : Same r r :=
  ⟨rfl, rfl, rfl, rfl, rfl, rfl⟩

theorem Same.trans {r r' r'' : RunResult} (h : Same r r') (h' : Same r' r'')
    : Same r r'' :=
  ⟨h.path.trans h'.path, h.steps.trans h'.steps, h.stopped.trans h'.stopped, h.state.trans h'.state,
    h.pending.trans h'.pending, h.cause.trans h'.cause⟩

/-- Results that agree differ in nothing but their steps. -/
theorem Same.eq_with_steps {r r' : RunResult} (h : Same r r')
    : r' = { r with steps := r'.steps } := by
  rcases h with ⟨hpath, -, hstopped, hstate, hpending, hcause⟩
  cases r'
  simp_all

inductive SameEnding : Ending → Ending → Prop
  | returned {r r' : RunResult} : Same r r' → SameEnding (.returned r) (.returned r')
  | raised (errorType message : String) : SameEnding (.raised errorType message) (.raised errorType message)

theorem SameEnding.refl (e : Ending)
    : SameEnding e e := by
  cases e with
  | returned r => exact .returned (.refl r)
  | raised errorType message => exact .raised errorType message

theorem SameEnding.trans {e e' e'' : Ending} (h : SameEnding e e') (h' : SameEnding e' e'')
    : SameEnding e e'' := by
  cases h with
  | returned h =>
    cases h' with
    | returned h' => exact .returned (h.trans h')
  | raised => exact h'

inductive SameNext : Next → Next → Prop
  | goto {name : String} {r r' : RunResult} : Same r r' → SameNext (.goto name r) (.goto name r')
  | stop {name : String} {r r' : RunResult} : Same r r' → SameNext (.stop name r) (.stop name r')
  | raise (errorType message : String) : SameNext (.raise errorType message) (.raise errorType message)

section

variable {py : Runtime} {opts : Options} {keep : Option ℤ} {node : Node} {r : RunResult}
  {steps : List StepLog}

theorem sameNext_follow (h : r.steps.map summary = steps.map summary) (step : StepLog)
    : SameNext (follow r step) (follow { r with steps := steps } step) := by
  refine .goto ⟨rfl, ?_, rfl, rfl, rfl, rfl⟩
  simp [h]

theorem sameNext_handleError (h : r.steps.map summary = steps.map summary) (errorType message : String)
    : SameNext (handleError py keep node r errorType message)
        (handleError py keep node { r with steps := steps } errorType message) := by
  unfold handleError
  dsimp only [countError]
  generalize errorTarget py _ node.edges = found
  rcases found with ⟨target, errs⟩
  cases target with
  | none => exact .raise _ _
  | some target => exact sameNext_follow (r := recordError keep node (countError node r) errorType message errs) h _

theorem sameNext_routeSemantic (h : r.steps.map summary = steps.map summary) (text : String)
    (router : Router)
    : SameNext (routeSemantic opts node r text router)
        (routeSemantic opts node { r with steps := steps } text router) := by
  unfold routeSemantic
  dsimp only
  split
  . exact .stop ⟨rfl, h, rfl, rfl, rfl, rfl⟩
  . split
    . exact .stop ⟨rfl, h, rfl, rfl, rfl, rfl⟩
    . exact sameNext_follow h _

theorem sameNext_handleOutcome (h : r.steps.map summary = steps.map summary) (value : Value) (router : Router)
    : SameNext (handleOutcome py opts keep node r value router)
        (handleOutcome py opts keep node { r with steps := steps } value router) := by
  have hrecord : recordOutcome py keep node { r with steps := steps } value
      = { recordOutcome py keep node r value with steps := steps } := rfl
  have hsteps : (recordOutcome py keep node r value).steps.map summary = steps.map summary := h
  unfold handleOutcome
  rw [hrecord]
  generalize recordOutcome py keep node r value = r' at hsteps ⊢
  dsimp only
  split
  . exact .stop ⟨rfl, hsteps, rfl, rfl, rfl, rfl⟩
  . split
    . exact .stop ⟨rfl, hsteps, rfl, rfl, rfl, rfl⟩
    . split
      . exact .stop ⟨rfl, hsteps, rfl, rfl, rfl, rfl⟩
      . split
        . exact sameNext_follow hsteps _
        . exact sameNext_routeSemantic hsteps _ _

/-- A pass of the loop reads nothing of the steps. -/
theorem sameNext_step {r' : RunResult} (h : Same r r') (outcome : Outcome) (router : Router)
    : SameNext (step py opts keep node r outcome router) (step py opts keep node r' outcome router) := by
  rw [h.eq_with_steps]
  cases outcome with
  | raised errorType message => exact sameNext_handleError h.steps _ _
  | returned value => exact sameNext_handleOutcome h.steps _ _

end

theorem Same.visit {r r' : RunResult} (h : Same r r') (name : String)
    : Same (visit name r) (visit name r') := by
  rcases h with ⟨hpath, hsteps, hstopped, hstate, hpending, hcause⟩
  exact ⟨hpath, hsteps, hstopped, by rw [Engine.visit, Engine.visit, hstate], hpending, hcause⟩

/-! ## A worker that is a function -/

/-- The worker and the router are functions of what they are given. -/
def pureParties (worker : String → String → State → Outcome) (router : Router) : Parties Unit where
  worker := fun _ name instruction state => (worker name instruction state, ())
  router := fun _ => router

section

variable {py : Runtime} {opts : Options} {keep : Option ℤ} {graph : Graph}
  {worker : String → String → State → Outcome} {router : Router} {budget : Nat}

/-- The run's loop from a node on, given a budget. -/
abbrev runFrom (py : Runtime) (opts : Options) (keep : Option ℤ) (graph : Graph)
    (worker : String → String → State → Outcome) (router : Router) (fuel : Nat) (name : String)
    (r : RunResult) : Trace :=
  loop py opts keep graph (pureParties worker router) fuel () name r

theorem runFrom_same {fuel : Nat} {name : String} {r r' : RunResult} (h : Same r r')
    : SameEnding (runFrom py opts keep graph worker router fuel name r).ending
        (runFrom py opts keep graph worker router fuel name r').ending := by
  induction fuel generalizing name r r' with
  | zero =>
    exact .returned ⟨h.path, h.steps, rfl, h.state, h.pending, rfl⟩
  | succ fuel ih =>
    unfold runFrom loop
    cases graph.get? name with
    | none => exact .raised _ _
    | some node =>
      dsimp only
      split
      . exact .returned ⟨h.path, h.steps, rfl, h.state, h.pending, h.cause⟩
      . dsimp only [pureParties, Trace.cons]
        have hvisit := h.visit name
        rw [← hvisit.state]
        have hnext : SameNext
            (step py opts keep node (visit name r) (worker name node.instruction (visit name r).state) router)
            (step py opts keep node (visit name r') (worker name node.instruction (visit name r).state) router) :=
          sameNext_step hvisit _ router
        cases hstep : step py opts keep node (visit name r)
          (worker name node.instruction (visit name r).state) router with
        | goto name' s =>
          rw [hstep] at hnext
          generalize step py opts keep node (visit name r') _ router = next at hnext
          cases hnext with
          | goto hsame => exact ih hsame
        | stop name' s =>
          rw [hstep] at hnext
          generalize step py opts keep node (visit name r') _ router = next at hnext
          cases hnext with
          | stop hsame => exact .returned hsame
        | raise errorType message =>
          rw [hstep] at hnext
          generalize step py opts keep node (visit name r') _ router = next at hnext
          cases hnext
          exact .raised _ _

/-! ## What a run is ahead of -/

/-- The run did not use up its budget. -/
def Settled (ending : Ending) : Prop :=
  ∀ r, ending = .returned r → r.stopped ≠ some .maxSteps

theorem SameEnding.settled {e e' : Ending} (h : SameEnding e e') (hsettled : Settled e)
    : Settled e' := by
  cases h with
  | returned h =>
    rintro r hr
    cases hr
    rw [← h.stopped]
    exact hsettled _ rfl
  | raised =>
    rintro r hr
    cases hr

/-- A larger budget does not change a run that does not use up its own. -/
theorem runFrom_of_le {fuel fuel' : Nat} (hle : fuel ≤ fuel') {name : String} {r : RunResult}
    (hsettled : Settled (runFrom py opts keep graph worker router fuel name r).ending)
    : runFrom py opts keep graph worker router fuel' name r = runFrom py opts keep graph worker router fuel name r
    := by
  induction fuel generalizing fuel' name r with
  | zero => exact absurd rfl (hsettled _ rfl)
  | succ fuel ih =>
    obtain ⟨fuel', rfl⟩ : ∃ n, fuel' = n + 1 := ⟨fuel' - 1, by omega⟩
    unfold runFrom loop at hsettled ⊢
    cases hnode : graph.get? name with
    | none => rfl
    | some node =>
      rw [hnode] at hsettled
      dsimp only at hsettled ⊢
      split
      . rfl
      . next hterminal =>
        rw [if_neg hterminal] at hsettled
        dsimp only [pureParties, Trace.cons] at hsettled ⊢
        split
        . next name' r' hstep =>
          rw [hstep] at hsettled
          have := ih (Nat.le_of_succ_le_succ hle) hsettled
          unfold runFrom at this
          dsimp only [pureParties] at this
          rw [this]
        . rfl
        . rfl

/-- From this node and result on, some part of the budget leads to the ending. -/
def Ahead (py : Runtime) (opts : Options) (keep : Option ℤ) (graph : Graph)
    (worker : String → String → State → Outcome) (router : Router) (budget : Nat) (ending : Ending)
    (name : String) (r : RunResult) : Prop :=
  ∃ fuel ≤ budget, SameEnding ending (runFrom py opts keep graph worker router fuel name r).ending

/-- A run under way: the path ends at the node, and nothing has stopped it. -/
structure Running (name : String) (r : RunResult) : Prop where
  path : r.path.getLast? = some name
  stopped : r.stopped = none
  pending : r.pending = none
  cause : r.cause = .none

/-- What a run that is ahead of its ending does next. -/
theorem Ahead.next {ending : Ending} {name : String} {r : RunResult} {node : Node}
    (h : Ahead py opts keep graph worker router budget ending name r) (hsettled : Settled ending)
    (hnode : graph.get? name = some node)
    : if node.terminal then
        SameEnding ending (.returned { r with stopped := some .terminal })
      else
        match step py opts keep node (visit name r) (worker name node.instruction (visit name r).state) router with
        | .goto name' r' => Ahead py opts keep graph worker router budget ending name' r'
        | .stop _ r' => SameEnding ending (.returned r')
        | .raise errorType message => SameEnding ending (.raised errorType message) := by
  rcases h with ⟨fuel, hle, h⟩
  cases fuel with
  | zero =>
    cases h with
    | returned h => exact absurd h.stopped (hsettled _ rfl)
  | succ fuel =>
    unfold runFrom loop at h
    rw [hnode] at h
    dsimp only at h
    split
    . next hterminal =>
      rw [if_pos hterminal] at h
      exact h
    . next hterminal =>
      rw [if_neg hterminal] at h
      dsimp only [pureParties, Trace.cons] at h
      split
      . next hstep =>
        rw [hstep] at h
        exact ⟨fuel, by omega, h⟩
      . next hstep =>
        rw [hstep] at h
        exact h
      . next hstep =>
        rw [hstep] at h
        exact h

theorem Ahead.missing {ending : Ending} {name : String} {r : RunResult}
    (h : Ahead py opts keep graph worker router budget ending name r) (hsettled : Settled ending)
    (hnode : graph.get? name = none)
    : SameEnding ending (.raised "KeyError" name) := by
  rcases h with ⟨fuel, hle, h⟩
  cases fuel with
  | zero =>
    cases h with
    | returned h => exact absurd h.stopped (hsettled _ rfl)
  | succ fuel =>
    unfold runFrom loop at h
    rw [hnode] at h
    exact h

/-- A document's snapshot is of a run under way that is ahead of the ending, or it is of the ending. -/
inductive Kept (py : Runtime) (opts : Options) (keep : Option ℤ) (graph : Graph)
    (worker : String → String → State → Outcome) (router : Router) (budget : Nat) (ending : Ending)
    : Snapshot → Prop
  | running {name : String} {r : RunResult} : graph.contains name = true → Running name r →
      Ahead py opts keep graph worker router budget ending name r →
      Kept py opts keep graph worker router budget ending ⟨r, some name⟩
  | ended {r r' : RunResult} {pendingNode : Option String} : ending = .returned r' → Same r' r →
      r.stopped ≠ none → Kept py opts keep graph worker router budget ending ⟨r, pendingNode⟩

theorem Running.goto {name name' : String} {r r' : RunResult} {node : Node} {outcome : Outcome}
    (h : Running name r) (hstep : step py opts keep node (visit name r) outcome router = .goto name' r')
    : Running name' r' := by
  rcases step_goto hstep with ⟨edge, -, -, hpath, -⟩
  rcases step_goto_frame hstep with ⟨hstopped, hpending, hcause⟩
  refine ⟨?_, hstopped.trans h.stopped, hpending.trans h.pending, hcause.trans h.cause⟩
  rw [hpath, List.getLast?_concat]

theorem stopped_of_stop {name name' : String} {r r' : RunResult} {node : Node} {outcome : Outcome}
    (hstep : step py opts keep node (visit name r) outcome router = .stop name' r')
    : r'.stopped ≠ none := by
  rcases step_stop hstep with ⟨-, value, -, hhalts⟩
  cases hhalts <;> simp [suspendViolation, suspendHuman, suspendWaiting, suspendBelowFloor]

theorem kept_ended {ending : Ending} {r : RunResult} (h : SameEnding ending (.returned r))
    (hstopped : r.stopped ≠ none) (pendingNode : Option String)
    : Kept py opts keep graph worker router budget ending ⟨r, pendingNode⟩ := by
  cases h with
  | returned h => exact .ended rfl h hstopped

/-- All that a run writes on its way is kept, and it ends as the run it is part of, if its budget lasts. -/
theorem kept_runFrom {ending : Ending} {fuel : Nat} {name : String} {r : RunResult}
    (hsettled : Settled ending) (hrunning : Running name r)
    (hahead : Ahead py opts keep graph worker router budget ending name r)
    : (∀ snapshot ∈ (runFrom py opts keep graph worker router fuel name r).snapshots,
        Kept py opts keep graph worker router budget ending snapshot)
        ∧ (Settled (runFrom py opts keep graph worker router fuel name r).ending →
            SameEnding ending (runFrom py opts keep graph worker router fuel name r).ending) := by
  induction fuel generalizing name r with
  | zero =>
    refine ⟨by simp [loop], ?_⟩
    intro h
    exact absurd rfl (h _ rfl)
  | succ fuel ih =>
    cases hnode : graph.get? name with
    | none =>
      unfold runFrom loop
      rw [hnode]
      exact ⟨by simp, fun _ => hahead.missing hsettled hnode⟩
    | some node =>
      have hnext := hahead.next hsettled hnode
      have hcontains : graph.contains name = true := by
        rw [Graph.contains, hnode]
        rfl
      unfold runFrom loop
      rw [hnode]
      dsimp only
      split
      . next hterminal =>
        rw [if_pos hterminal] at hnext
        refine ⟨?_, fun _ => hnext⟩
        rw [List.forall_mem_singleton]
        exact kept_ended hnext (by simp) none
      . next hterminal =>
        rw [if_neg hterminal] at hnext
        dsimp only [pureParties, Trace.cons]
        split
        . next name' r' hstep =>
          rw [hstep] at hnext
          rcases ih (hrunning.goto hstep) hnext with ⟨hsnapshots, hending⟩
          refine ⟨?_, hending⟩
          rw [List.forall_mem_cons]
          exact ⟨.running hcontains hrunning hahead, hsnapshots⟩
        . next name' r' hstep =>
          rw [hstep] at hnext
          refine ⟨?_, fun _ => hnext⟩
          rw [List.forall_mem_cons, List.forall_mem_singleton]
          exact ⟨.running hcontains hrunning hahead, kept_ended hnext (stopped_of_stop hstep) _⟩
        . next hstep =>
          rw [hstep] at hnext
          refine ⟨?_, fun _ => hnext⟩
          rw [List.forall_mem_singleton]
          exact .running hcontains hrunning hahead

/-- A run ahead of an ending ends so, given the budget of the whole. -/
theorem Ahead.ending {ending : Ending} {name : String} {r : RunResult}
    (h : Ahead py opts keep graph worker router budget ending name r) (hsettled : Settled ending) {fuel : Nat}
    (hfuel : budget ≤ fuel)
    : SameEnding ending (runFrom py opts keep graph worker router fuel name r).ending := by
  rcases h with ⟨needed, hneeded, h⟩
  rw [runFrom_of_le (hneeded.trans hfuel) (h.settled hsettled)]
  exact h

theorem Ahead.congr {ending : Ending} {name : String} {r r' : RunResult}
    (h : Ahead py opts keep graph worker router budget ending name r) (hsame : Same r r')
    : Ahead py opts keep graph worker router budget ending name r' := by
  rcases h with ⟨fuel, hle, h⟩
  exact ⟨fuel, hle, h.trans (runFrom_same hsame)⟩

end

/-! ## Documents -/

section

variable {files : Files} {py : Runtime} {worker : String → String → State → Outcome} {router : Router}
  {floor : Option PyFloat} {gate : Bool} {flowPath : String} {graph : Graph} {state : State}

/-- The result a resume starts its run with, from the document of a run under way. -/
def reentered (name : String) (r : RunResult) : RunResult :=
  begin none name r.state ⟨r.path.dropLast, (r.steps.map summary).map fun step =>
    ⟨step.node, "", step.target, .restored step.used⟩⟩

theorem same_reentered {name : String} {r : RunResult} (h : Running name r)
    : Same r (reentered name r) where
  path := (List.dropLast_append_getLast? name h.path).symm
  steps := by
    simp only [reentered, begin, boundSeed, bounded?, Option.filter_none, List.map_map]
    apply List.map_congr_left
    intro step _
    rfl
  stopped := h.stopped
  state := rfl
  pending := h.pending
  cause := h.cause

theorem Running.reentered {name : String} {r : RunResult} (h : Running name r)
    : Running name (reentered name r) := by
  have hsame := same_reentered h
  exact ⟨hsame.path ▸ h.path, rfl, rfl, rfl⟩

/-- How a crash is resumed: with the arguments of the run, but a budget of its own. -/
def crashCall (floor : Option PyFloat) (maxSteps : Nat) (writeBack : Bool) : Call where
  humanFloor := floor
  maxSteps := maxSteps
  writeBack := writeBack

/-- A resume that finds the flow as it was re-enters it where the document says. -/
theorem resume_docOf (hparse : files.parse flowPath = some graph) (hauth : files.authorized flowPath = true)
    (snapshot : Snapshot) (maxSteps : Nat) (writeBack : Bool)
    : resume files py (pureParties worker router) () (docOf ⟨flowPath, files.hash flowPath, gate⟩ snapshot)
          (crashCall floor maxSteps writeBack)
        = (enterPending graph (docOf ⟨flowPath, files.hash flowPath, gate⟩ snapshot)).map
            (resumed files py (pureParties worker router) ()
              (docOf ⟨flowPath, files.hash flowPath, gate⟩ snapshot) (crashCall floor maxSteps writeBack)
              graph) := by
  apply resume_eq _ hauth hparse
  unfold checkFlowUnchanged
  dsimp only [docOf]
  by_cases hempty : files.hash flowPath = "" <;> simp [hempty]

theorem resumed_reentered (hbound : flowStateBound py graph = .ok none) (name : String) (r : RunResult)
    (maxSteps : Nat) (writeBack : Bool)
    : resumed files py (pureParties worker router) ()
          (docOf ⟨flowPath, files.hash flowPath, gate⟩ ⟨r, some name⟩) (crashCall floor maxSteps writeBack) graph
          ⟨name, r.state, ⟨r.path.dropLast, priorSteps (docOf ⟨flowPath, files.hash flowPath, gate⟩
            ⟨r, some name⟩)⟩⟩
        =
      let trace := runFrom py { humanFloor := floor, typeGate := gate } none graph worker router maxSteps
        name (reentered name r)
      ⟨if writeBack then writeBacks ⟨flowPath, files.hash flowPath, gate⟩ trace.snapshots else [],
        trace.ending⟩ := by
  have hstate : stateBound py { humanFloor := floor, typeGate := gate } graph = .ok none := hbound
  unfold resumed
  dsimp only [crashCall, docOf, Option.getD_none]
  rw [run, hstate]
  rfl

theorem enterPending_docOf {stamp : Stamp} {name : String} {r : RunResult}
    (hcontains : graph.contains name = true) (hrunning : Running name r)
    : enterPending graph (docOf stamp ⟨r, some name⟩)
        = .ok ⟨name, r.state, ⟨r.path.dropLast, priorSteps (docOf stamp ⟨r, some name⟩)⟩⟩ := by
  unfold enterPending
  dsimp only [docOf]
  rw [hrunning.stopped]
  dsimp only
  rw [if_pos hcontains]

/-- A document of a run that has stopped is refused, but for a contract violation. -/
theorem enterPending_stopped (graph : Graph) {doc : Doc} (hstopped : doc.stopped ≠ none)
    (hviolation : doc.stopped ≠ some .contractViolation)
    : ∃ err, enterPending graph doc = .error err := by
  cases h : enterPending graph doc with
  | error err => exact ⟨err, rfl⟩
  | ok entry =>
    rcases (enterPending_ok h).1 with hnone | hviolated
    . exact absurd hnone hstopped
    . exact absurd hviolated hviolation

/--
The documents a crash can leave behind: one the run wrote, or one a resume wrote that started from such a
document of a run under way.
-/
inductive Crashed (files : Files) (py : Runtime) (worker : String → String → State → Outcome)
    (router : Router) (floor : Option PyFloat) (gate : Bool) (flowPath : String) (state : State) : Doc → Prop
  | run {maxSteps : Nat} {durable : Durable} {doc : Doc} :
      runDurable files py { humanFloor := floor, typeGate := gate } flowPath (pureParties worker router) ()
        maxSteps state = .ok durable →
      doc ∈ durable.written → Crashed files py worker router floor gate flowPath state doc
  | resume {maxSteps : Nat} {writeBack : Bool} {durable : Durable} {doc doc' : Doc} :
      Crashed files py worker router floor gate flowPath state doc → doc.stopped = none →
      resume files py (pureParties worker router) () doc (crashCall floor maxSteps writeBack) = .ok durable →
      doc' ∈ durable.written → Crashed files py worker router floor gate flowPath state doc'

theorem runDurable_ok {maxSteps : Nat} {durable : Durable} (hparse : files.parse flowPath = some graph)
    (hbound : flowStateBound py graph = .ok none)
    (h : runDurable files py { humanFloor := floor, typeGate := gate } flowPath (pureParties worker router) ()
      maxSteps state = .ok durable)
    : files.authorized flowPath = true
        ∧ durable = ⟨writes ⟨flowPath, files.hash flowPath, gate⟩
              (runFrom py { humanFloor := floor, typeGate := gate } none graph worker router maxSteps
                graph.start (begin none graph.start state {})).snapshots,
            (runFrom py { humanFloor := floor, typeGate := gate } none graph worker router maxSteps
              graph.start (begin none graph.start state {})).ending⟩ := by
  have hstate : stateBound py { humanFloor := floor, typeGate := gate } graph = .ok none := hbound
  unfold runDurable at h
  split at h
  . cases h
  . next hauth =>
    rw [hparse] at h
    dsimp only at h
    rw [run, hstate] at h
    cases h
    exact ⟨by simpa using hauth, rfl⟩

theorem running_begin (name : String) (state : State)
    : Running name (begin none name state {}) :=
  ⟨rfl, rfl, rfl, rfl⟩

section

variable {budget : Nat} {whole : Durable}

/-- Whatever crashes there were, the document left is kept of the whole run. -/
theorem kept_of_crashed (hparse : files.parse flowPath = some graph)
    (hbound : flowStateBound py graph = .ok none)
    (hwhole : runDurable files py { humanFloor := floor, typeGate := gate } flowPath
      (pureParties worker router) () budget state = .ok whole)
    (hsettled : Settled whole.ending) {doc : Doc}
    (h : Crashed files py worker router floor gate flowPath state doc)
    : ∃ snapshot,
        doc = docOf ⟨flowPath, files.hash flowPath, gate⟩ snapshot
          ∧ Kept py { humanFloor := floor, typeGate := gate } none graph worker router budget whole.ending
              snapshot := by
  rcases runDurable_ok hparse hbound hwhole with ⟨hauth, rfl⟩
  induction h with
  | run hrun hmem =>
    rcases runDurable_ok hparse hbound hrun with ⟨-, rfl⟩
    rcases mem_writes hmem with ⟨snapshot, hsnapshot, hdoc⟩
    refine ⟨snapshot, hdoc, ?_⟩
    refine (kept_runFrom hsettled (running_begin graph.start state) ?_).1 snapshot hsnapshot
    exact ⟨budget, le_refl _, SameEnding.refl _⟩
  | resume hcrashed hstopped hresume hmem ih =>
    next maxSteps writeBack durable doc doc' =>
    rcases ih with ⟨snapshot, rfl, hkept⟩
    cases hkept with
    | ended _ _ hne => exact absurd hstopped hne
    | running hcontains hrunning hahead =>
      next name r =>
      rw [resume_docOf hparse hauth, enterPending_docOf hcontains hrunning] at hresume
      cases hresume
      rw [resumed_reentered hbound] at hmem
      dsimp only at hmem
      split at hmem
      . rcases mem_writeBacks hmem with ⟨snapshot', hsnapshot', hdoc⟩
        refine ⟨snapshot', hdoc, ?_⟩
        exact (kept_runFrom hsettled hrunning.reentered (hahead.congr (same_reentered hrunning))).1 snapshot'
          hsnapshot'
      . simp at hmem

/--
A run that crashes any number of times, and is resumed from the last document each time, ends as the run that
does not crash. A document of the end of a run records that end, and is not resumed.
-/
theorem crash_resume (hparse : files.parse flowPath = some graph)
    (hbound : flowStateBound py graph = .ok none)
    (hwhole : runDurable files py { humanFloor := floor, typeGate := gate } flowPath
      (pureParties worker router) () budget state = .ok whole)
    (hsettled : Settled whole.ending) {doc : Doc}
    (hcrashed : Crashed files py worker router floor gate flowPath state doc)
    : (doc.stopped = none →
        ∀ maxSteps writeBack, ∃ durable,
          resume files py (pureParties worker router) () doc (crashCall floor maxSteps writeBack) = .ok durable
            ∧ (Settled durable.ending → SameEnding whole.ending durable.ending)
            ∧ (budget ≤ maxSteps → Settled durable.ending))
        ∧ (doc.stopped ≠ none → doc.stopped ≠ some .contractViolation →
            (∃ r, whole.ending = .returned r
              ∧ doc.path = r.path
              ∧ doc.steps = r.steps.map summary
              ∧ doc.state = r.state
              ∧ doc.stopped = r.stopped
              ∧ doc.pendingDecision = r.pending)
            ∧ ∀ maxSteps writeBack, ∃ err,
                resume files py (pureParties worker router) () doc (crashCall floor maxSteps writeBack)
                  = .error err) := by
  have hauth := (runDurable_ok hparse hbound hwhole).1
  rcases kept_of_crashed hparse hbound hwhole hsettled hcrashed with ⟨snapshot, rfl, hkept⟩
  constructor
  . intro hstopped maxSteps writeBack
    cases hkept with
    | ended _ _ hne => exact absurd hstopped hne
    | running hcontains hrunning hahead =>
      next name r =>
      have hahead' := hahead.congr (same_reentered hrunning)
      refine ⟨resumed files py (pureParties worker router) () _ (crashCall floor maxSteps writeBack) graph _,
        by rw [resume_docOf hparse hauth, enterPending_docOf hcontains hrunning]; rfl, ?_⟩
      rw [resumed_reentered hbound]
      constructor
      . exact (kept_runFrom hsettled hrunning.reentered hahead').2
      . intro hbudget
        exact (hahead'.ending hsettled hbudget).settled hsettled
  . intro hstopped hviolation
    cases hkept with
    | running _ hrunning _ => exact absurd hrunning.stopped hstopped
    | @ended r r' pendingNode hending hsame _ =>
      refine ⟨⟨r', hending, hsame.path.symm, hsame.steps.symm, hsame.state.symm, hsame.stopped.symm,
        hsame.pending.symm⟩, ?_⟩
      intro maxSteps writeBack
      rcases enterPending_stopped graph hstopped hviolation with ⟨err, herr⟩
      refine ⟨err, ?_⟩
      rw [resume_docOf hparse hauth, herr]
      rfl

end

end

/-! ## A contract violation is run again -/

/-- Reads the condition of the graph below. -/
def gatedPy : Runtime where
  parse
    | "n > 3" => some (.compare (.name "n") [(.gt, .constant (.int 3))])
    | _ => none
  str
    | .str s => s
    | _ => ""
  int := fun _ => none

def gatedGraph : Graph where
  name := "gated"
  start := "a"
  nodes := [{ name := "a", edges := [⟨"b", "when n > 3"⟩] }, { name := "b", edges := [] }]
  nodup := by decide

def gatedFiles : Files where
  hash := fun _ => "sha256:00"
  parse := fun _ => some gatedGraph
  authorized := fun _ => true
  onChange := .refuse

/-- A durable run whose worker always returns the same `n`. -/
def gatedRun (gate : Bool) (n : Value) : Except CheckpointError Durable :=
  runDurable gatedFiles gatedPy { typeGate := gate } "gated.md"
    (pureParties (fun _ _ _ => .returned (.dict [("n", n)])) firstRouter) () 25 {}

/-- Killed before its node has run, the run ends as it would have. -/
theorem gatedRun_resumes
    : ∃ whole doc durable,
        gatedRun true (.int 5) = .ok whole
          ∧ doc ∈ whole.written
          ∧ resume gatedFiles gatedPy
              (pureParties (fun _ _ _ => .returned (.dict [("n", .int 5)])) firstRouter) () doc
              (crashCall none 25 true) = .ok durable
          ∧ SameEnding whole.ending durable.ending := by
  have hrun : ((gatedRun true (.int 5)).toOption.map fun whole =>
      (whole.ending.result?.map RunResult.stopped, whole.written.head?.map Doc.stopped))
        = some (some (some .terminal), some none) := by
    with_unfolding_all decide
  cases hwhole : gatedRun true (.int 5) with
  | error err =>
    rw [hwhole] at hrun
    cases hrun
  | ok whole =>
    simp only [hwhole, Except.toOption, Option.map_some, Option.some.injEq, Prod.mk.injEq,
      Option.map_eq_some_iff] at hrun
    rcases hrun with ⟨⟨r, hr, hterminal⟩, doc, hdoc, hstopped⟩
    have hsettled : Settled whole.ending := by
      intro r' hr'
      rw [hr'] at hr
      cases hr
      rw [hterminal]
      decide
    have hmem : doc ∈ whole.written := List.mem_of_head? hdoc
    have hparse : gatedFiles.parse "gated.md" = some gatedGraph := rfl
    rcases (crash_resume hparse (by with_unfolding_all decide) hwhole hsettled (.run hwhole hmem)).1 hstopped 25 true with ⟨durable, hresume, hsame, hbudget⟩
    exact ⟨whole, doc, durable, rfl, hmem, hresume, hsame (hbudget (le_refl _))⟩

/-- Killed after the document of a contract violation, the run visits its node once more. -/
theorem gatedRun_violation_visits
    : ((gatedRun true (.str "five")).toOption.bind fun whole =>
        whole.written.getLast?.bind fun doc =>
          (resume gatedFiles gatedPy
              (pureParties (fun _ _ _ => .returned (.dict [("n", .str "five")])) firstRouter) () doc
              (crashCall none 25 true)).toOption.map fun durable =>
            [whole.ending, durable.ending].map fun ending => ending.result?.map fun r => r.state.visits)
        = some [some [("a", 1)], some [("a", 2)]] := by
  with_unfolding_all decide

end Checkpoint
