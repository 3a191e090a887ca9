import PrismPath.Hotswap.CryptoAgility
import PrismPath.Kernel.EngineLemmas
import PrismPath.Kernel.PredicatesLemmas

/-!
This module contains what a proven totality says about runs: one that gets stuck does so at a node named like a suite.
-/

open Python

namespace CryptoAgility

open Predicates Parser Engine

/- Edges that match every outcome. -/

theorem isDeterministic_of_isCatchall {condition : String} (h : isCatchall condition = true)
    : isDeterministic condition = true := by
  rw [isCatchall, decide_eq_true_eq, exprOf] at h
  rw [isDeterministic]
  split at h
  next hwhen => rw [hwhen, Bool.true_or, Bool.true_or]
  next => rw [decide_eq_true h, Bool.or_true, Bool.true_or]

theorem hit_of_isCatchall (py : Runtime) {condition : String} (h : isCatchall condition = true) (ctx : Ctx)
    : hit py condition ctx = true := by
  rw [isCatchall, decide_eq_true_eq] at h
  rw [hit, evalCondition_always h]

theorem firstDeterministic_isSome (py : Runtime) {node : Node} (h : Node.hasCatchall node = true) (ctx : Ctx)
    : firstDeterministic py node.edges ctx ≠ none := by
  rw [Node.hasCatchall, List.any_eq_true] at h
  rcases h with ⟨edge, hedge, hcatchall⟩
  intro hnone
  rw [firstDeterministic, List.find?_eq_none] at hnone
  refine hnone edge hedge ?_
  rw [isDeterministic_of_isCatchall hcatchall, hit_of_isCatchall py hcatchall, Bool.and_self]

/- One pass. -/

theorem stopped_of_catchall {py : Runtime} {opts : Options} {keep : Option ℤ} {node : Node} {result result' : RunResult}
    {outcome : Outcome} {router : Router} {name : String} (hcatchall : Node.hasCatchall node = true)
    (h : step py opts keep node result outcome router = .stop name result')
    : result'.stopped ≠ some .stuck := by
  cases outcome with
  | raised errorType message =>
    simp only [step, handleError] at h
    split at h <;> cases h
  | returned value =>
    simp only [step, handleOutcome] at h
    split at h
    next => cases h; simp [suspendViolation]
    next =>
      split at h
      next => cases h; simp [suspendHuman]
      next =>
        split at h
        next => cases h; simp [suspendWaiting]
        next =>
          split at h
          next => cases h
          next hnone => exact absurd hnone (firstDeterministic_isSome py hcatchall _)

/- Runs. -/

/-- A node with edges that is named like a suite has a catch-all edge as well. -/
def SuiteRouted (graph : Graph) (name : String) : Prop :=
  ∀ node, graph.get? name = some node → (suiteOf name).isSome = true → node.terminal = true ∨ Node.hasCatchall node = true

theorem mem_suites {graph : Graph} {name : String} {node : Node} (hnode : graph.get? name = some node)
    : name ∈ (suiteNodes graph).map Prod.fst ↔ (suiteOf name).isSome = true := by
  have hname := Graph.name_of_get? hnode
  simp only [suiteNodes, List.mem_map, List.mem_filterMap, Option.map_eq_some_iff]
  constructor
  . rintro ⟨p, ⟨other, _, sid, hsid, rfl⟩, hp⟩
    dsimp only at hp
    rw [← hp, hsid]
    rfl
  . intro hsome
    rcases Option.isSome_iff_exists.mp hsome with ⟨sid, hsid⟩
    exact ⟨(name, sid), ⟨node, Graph.mem_of_get? hnode, sid, by rw [hname]; exact hsid, by rw [hname]⟩, rfl⟩

theorem hasCatchall_of_proveTotality {graph : Graph} (hok : (proveTotality graph).ok = true) {name : String} {node : Node}
    (hname : name ∈ reachable graph) (hnode : graph.get? name = some node) (hterminal : node.terminal = false)
    (hrouted : SuiteRouted graph name)
    : Node.hasCatchall node = true := by
  by_contra hgap
  rw [proveTotality, List.isEmpty_iff, List.filter_eq_nil_iff] at hok
  have hkept := hok name (by rw [sortedIds, List.mem_insertionSort]; exact hname)
  rw [hnode] at hkept
  dsimp only at hkept
  rw [Bool.not_eq_true] at hgap
  rw [Node.terminal] at hterminal
  rw [hgap, hterminal, Bool.not_false, Bool.and_true, Bool.false_or, Bool.not_eq_true, Bool.not_eq_false',
    decide_eq_true_eq, mem_suites hnode] at hkept
  rcases hrouted node hnode hkept with hend | hcatchall
  . rw [Node.terminal, hterminal] at hend
    cases hend
  . rw [hgap] at hcatchall
    cases hcatchall

section

variable {σ : Type} {py : Runtime} {opts : Options} {keep : Option ℤ} {graph : Graph} {parties : Parties σ}

theorem loop_path {fuel : ℕ} {s : σ} {name : String} {result final : RunResult}
    (h : (loop py opts keep graph parties fuel s name result).ending = .returned final)
    : ∀ visited ∈ result.path, visited ∈ final.path := by
  induction fuel generalizing s name result with
  | zero =>
    cases h
    exact fun visited hvisited => hvisited
  | succ fuel ih =>
    rw [loop] at h
    split at h
    next => cases h
    next node hnode =>
      split at h
      next =>
        cases h
        exact fun visited hvisited => hvisited
      next =>
        dsimp only [Trace.cons] at h
        split at h
        next name' result' hstep =>
          rcases step_goto hstep with ⟨_, _, _, hpath, _⟩
          intro visited hvisited
          refine ih h visited ?_
          rw [hpath]
          exact List.mem_append_left _ hvisited
        next name' result' hstep =>
          cases h
          rcases (step_stop hstep).2 with ⟨value, _, hhalts⟩
          rw [hhalts.frame.1]
          exact fun visited hvisited => hvisited
        next => cases h

theorem loop_not_stuck (hok : (proveTotality graph).ok = true) {fuel : ℕ} {s : σ} {name : String}
    {result final : RunResult} (hknown : Known graph (reachable graph) name) (hname : name ∈ result.path)
    (h : (loop py opts keep graph parties fuel s name result).ending = .returned final)
    (hrouted : ∀ visited ∈ final.path, SuiteRouted graph visited)
    : final.stopped ≠ some .stuck := by
  induction fuel generalizing s name result with
  | zero =>
    cases h
    simp
  | succ fuel ih =>
    have hhere := hrouted name (loop_path h name hname)
    rw [loop] at h
    split at h
    next => cases h
    next node hnode =>
      -- the traversal knows the nodes that are defined
      have hreached : name ∈ reachable graph := hknown.resolve_right (by rw [hnode]; simp)
      split at h
      next =>
        cases h
        simp
      next hterminal =>
        have hcatchall := hasCatchall_of_proveTotality hok hreached hnode (by simpa using hterminal) hhere
        dsimp only [Trace.cons] at h
        split at h
        next name' result' hstep =>
          rcases step_goto hstep with ⟨edge, htaken, htarget, hpath, _⟩
          refine ih ?_ ?_ h
          . rw [← htarget]
            exact reachable_target hreached hnode htaken.mem
          . rw [hpath]
            exact List.mem_append_right _ List.mem_cons_self
        next name' result' hstep =>
          cases h
          exact stopped_of_catchall hcatchall hstep
        next => cases h

/-- A run of a flow with a proven totality never gets stuck, if the suites it visits are terminal or have a catch-all. -/
theorem run_not_stuck (hok : (proveTotality graph).ok = true) {s : σ} {maxSteps : ℕ} {start : String}
    (hstart : start = graph.start ∨ start ∈ reachable graph) {state : State} {seed : Seed} {result : RunResult}
    (h : (run py opts graph parties s maxSteps start state seed).ending = .returned result)
    (hrouted : ∀ visited ∈ result.path, SuiteRouted graph visited)
    : result.stopped ≠ some .stuck := by
  rw [run] at h
  split at h
  next => cases h
  next keep hkeep =>
    have hknown : Known graph (reachable graph) start := by
      rcases hstart with rfl | hreached
      . exact reachable_start graph
      . exact .inl hreached
    refine loop_not_stuck hok hknown ?_ h hrouted
    rw [begin]
    exact List.mem_append_right _ List.mem_cons_self

end

/- A total flow, and one whose suite has an edge of its own. -/

def totalityPy : Runtime where
  parse
    | "x > 0" => some (.compare (.name "x") [(.gt, .constant (.int 0))])
    | _ => none
  str := fun _ => ""
  int := fun _ => none

/-- A worker that never answers with a field. -/
def silent : Parties Unit where
  worker := fun _ _ _ _ => (.returned (.dict []), ())
  router := fun _ => firstRouter

def totalGraph : Graph where
  name := "total"
  start := "select"
  nodes := [
    { name := "select", edges := [⟨"suite-a", "when x > 0"⟩, ⟨"suite-b", "else"⟩] },
    { name := "suite-a", edges := [] },
    { name := "suite-b", edges := [] }
  ]
  nodup := by decide

theorem run_not_stuck_total
    : ∃ result, (run totalityPy {} totalGraph silent () 25 "select" {} {}).ending = .returned result
        ∧ result.path = ["select", "suite-b"] ∧ result.stopped ≠ some .stuck := by
  have hpath : (run totalityPy {} totalGraph silent () 25 "select" {} {}).ending.result?.map RunResult.path
      = some ["select", "suite-b"] := by with_unfolding_all decide
  cases hending : (run totalityPy {} totalGraph silent () 25 "select" {} {}).ending with
  | raised errorType message =>
    rw [hending] at hpath
    cases hpath
  | returned result =>
    rw [hending] at hpath
    have hpath : result.path = ["select", "suite-b"] := Option.some.inj hpath
    refine ⟨result, rfl, hpath, run_not_stuck (by with_unfolding_all decide) (.inl rfl) hending ?_⟩
    intro visited hvisited node hnode hsuite
    rw [hpath] at hvisited
    rcases List.mem_pair.mp hvisited with rfl | rfl
    . exact absurd hsuite (by with_unfolding_all decide)
    . cases hnode
      exact .inl rfl

def suiteGraph : Graph where
  name := "suite"
  start := "select"
  nodes := [
    { name := "select", edges := [⟨"suite-a", "always"⟩] },
    { name := "suite-a", edges := [⟨"done", "when x > 0"⟩] },
    { name := "done", edges := [] }
  ]
  nodup := by decide

/-- Totality holds of a flow whose run gets stuck at a node named like a suite. -/
theorem suite_stuck
    : (proveTotality suiteGraph).ok = true
        ∧ ((run totalityPy {} suiteGraph silent () 25 "select" {} {}).ending.result?.map fun result =>
          (result.path, result.stopped)) = some (["select", "suite-a"], some .stuck) := by
  with_unfolding_all decide

end CryptoAgility
