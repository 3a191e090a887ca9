import PrismPath.Kernel.Reachability

/-!
This module contains the witnesses of the reachability checker: their reconstruction, and the run of a worker
that returns their samples.
-/

open Python

namespace ModelCheck

open Predicates LevelM Parser Engine

/-! ## Edge paths -/

/-- Returns the given values one after the other, and then nothing of note. -/
def replay (router : Router) : Parties (List Value) where
  worker
    | [], _, _, _ => (.returned (.str ""), [])
    | value :: values, _, _, _ => (.returned value, values)
  router := fun _ => router

def Step.outcome (step : Step) : Value :=
  .dict (step.exampleCtx.getD [])

/-- The outcome pauses the run instead of being routed. -/
def suspends (fields : List (String × Value)) : Bool :=
  (field fields "needs_human").truthy || waits fields

section

variable {py : Runtime} {opts : Options} {keep : Option ℤ} {graph : Graph} {router : Router}

variable (keep router) in
/-- An outcome that does not suspend takes the first edge it matches. -/
theorem step_of_firstDeterministic (hgate : opts.typeGate = false) {node : Node} {result : RunResult}
    {a : Assignment} {edge : Edge} (hsuspends : suspends a = false)
    (hfirst : firstDeterministic py node.edges (context a (count result.state.visits node.name)) = some edge)
    : ∃ result',
        step py opts keep node result (.returned (.dict a)) router = .goto edge.target result'
          ∧ result'.path = result.path ++ [edge.target]
          ∧ result'.state.visits = result.state.visits := by
  rw [suspends, Bool.or_eq_false_iff] at hsuspends
  have hfields : (Engine.normalize py (.dict a)).2 = a := rfl
  simp only [step, handleOutcome, hfields, gateViolations, hgate, recordOutcome_visits, hfirst,
    hsuspends.1, hsuspends.2, follow, Bool.false_eq_true, if_false, List.isEmpty_nil, Bool.not_true]
  exact ⟨_, rfl, rfl, by simp⟩

end

section

variable {py : Runtime} {opts : Options} {keep : Option ℤ} {graph : Graph} {tiers : Tiers} {caps : Counts}
  {assume : Option String} {sats : List (String × NodeSat)} {router : Router}

end

/-! ## Where samples can be followed -/

end ModelCheck
