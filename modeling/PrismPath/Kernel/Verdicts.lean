import PrismPath.Kernel.Witness

/-!
This module contains what the verdicts of the reachability checker promise about the runs of the engine.
-/

open Python

namespace ModelCheck

open Predicates LevelM Parser Engine

/-! ## Runs of the engine stand where the relation says -/

section

variable {py : Runtime} {opts : Options} {keep : Option ℤ} {graph : Graph}
  {ok : Node → Nat → Value → Prop} {σ : Type}

/-- Every outcome the worker returns is as asked. -/
def Works (graph : Graph) (ok : Node → Nat → Value → Prop) (parties : Parties σ) : Prop :=
  ∀ s name state node value, graph.get? name = some node →
    (parties.worker s name node.instruction state).1 = .returned value →
    ok node (count state.visits name) value

/-- Every node on the path of a result is one that a run stands on. -/
def PathStands (py : Runtime) (opts : Options) (keep : Option ℤ) (graph : Graph)
    (ok : Node → Nat → Value → Prop) (result : RunResult) : Prop :=
  ∀ name ∈ result.path, ∃ result', Stands py opts keep graph ok name result'

theorem pathStands_loop {parties : Parties σ} (hworks : Works graph ok parties) {fuel : Nat} {s : σ}
    {name : String} {result : RunResult} (hstands : Stands py opts keep graph ok name result)
    (hpath : PathStands py opts keep graph ok result)
    : (∀ snapshot ∈ (loop py opts keep graph parties fuel s name result).snapshots,
        PathStands py opts keep graph ok snapshot.result)
        ∧ ∀ result', (loop py opts keep graph parties fuel s name result).ending = .returned result' →
            PathStands py opts keep graph ok result' := by
  induction fuel generalizing s name result with
  | zero =>
    refine ⟨by simp [loop], ?_⟩
    intro result' hresult
    cases hresult
    exact hpath
  | succ fuel ih =>
    unfold loop
    split
    . simp
    . next node hnode =>
      split
      . simp only [List.mem_singleton, forall_eq, Ending.returned.injEq]
        refine ⟨hpath, ?_⟩
        rintro result' rfl
        exact hpath
      . next hterminal =>
        generalize hworker : parties.worker s name node.instruction (visit name result).state = called
        rcases called with ⟨outcome, s'⟩
        dsimp only [Trace.cons]
        split
        . next name' result' hstep =>
          have hstands' : Stands py opts keep graph ok name' result' := by
            refine .goto hstands hnode (by simpa using hterminal) ?_ hstep
            rintro value rfl
            exact hworks s name _ node value hnode (by rw [hworker])
          have hpath' : PathStands py opts keep graph ok result' := by
            rcases step_goto hstep with ⟨edge, -, -, happend, -⟩
            intro other hother
            rw [happend, List.mem_append, List.mem_singleton] at hother
            rcases hother with hother | rfl
            . exact hpath other hother
            . exact ⟨result', hstands'⟩
          rcases ih hstands' hpath' (s := s') with ⟨hsnapshots, hending⟩
          refine ⟨?_, hending⟩
          rw [List.forall_mem_cons]
          exact ⟨hpath, hsnapshots⟩
        . next name' result' hstep =>
          have hpath' : PathStands py opts keep graph ok result' := by
            rcases step_stop hstep with ⟨-, value, -, hhalts⟩
            intro other hother
            rw [hhalts.frame.1] at hother
            exact hpath other hother
          simp only [List.mem_cons, List.not_mem_nil, or_false, forall_eq_or_imp, forall_eq,
            Ending.returned.injEq]
          refine ⟨⟨hpath, hpath'⟩, ?_⟩
          rintro result'' rfl
          exact hpath'
        . simpa using hpath

/-- A run from the graph's start has only nodes on its path that a run stands on. -/
theorem pathStands_run {parties : Parties σ} (hworks : Works graph ok parties) {maxSteps : Nat} {s : σ}
    {other : List (String × Value)} {result : RunResult} (hkeep : stateBound py opts graph = .ok keep)
    (h : (run py opts graph parties s maxSteps graph.start { other := other } {}).ending = .returned result)
    : PathStands py opts keep graph ok result := by
  unfold run at h
  rw [hkeep] at h
  refine (pathStands_loop hworks (.start other) ?_).2 result h
  intro name hname
  have : name = graph.start := by
    simp only [begin, boundSeed] at hname
    split at hname <;> simpa using hname
  subst this
  exact ⟨_, .start other⟩

end

/-! ## Sample graphs -/

/-- Parses the conditions of the graphs below. -/
def samplePy : Runtime where
  parse
    | "x == True" => some (.compare (.name "x") [(.eq, .constant (.bool true))])
    | "x > 0" => some (.compare (.name "x") [(.gt, .constant (.int 0))])
    | "visits == n" => some (.compare (.name "visits") [(.eq, .name "n")])
    | "visits != n" => some (.compare (.name "visits") [(.notEq, .name "n")])
    | "needs_human == True" => some (.compare (.name "needs_human") [(.eq, .constant (.bool true))])
    | _ => none
  str
    | .str s => s
    | _ => ""
  int := fun _ => none

/-- A flag is tested before the number it may be. -/
def gateNode : Node where
  name := "a"
  edges := [⟨"b", "when x == True"⟩, ⟨"c", "when x > 0"⟩]

def gateGraph : Graph where
  name := "gate"
  start := "a"
  nodes := [
    gateNode,
    { name := "b", edges := [] },
    { name := "c", edges := [] }
  ]
  nodup := by decide

/-- A loop whose length is a field of the outcome. -/
def countGraph : Graph where
  name := "count"
  start := "a"
  nodes := [
    { name := "a", edges := [⟨"b", "when visits == n"⟩, ⟨"a", "when visits != n"⟩] },
    { name := "b", edges := [] }
  ]
  nodup := by decide

/-- The path of the run of a worker that returns the given values. -/
def replayedPath (graph : Graph) (values : List Value) : Option (List String) :=
  (run samplePy {} graph (replay firstRouter) values 25 graph.start {} {}).ending.result?.map RunResult.path

/-! ## A proven `no` -/

theorem resultOf_node (progress : Progress) (target : String)
    : (resultOf progress target).node = target := by
  unfold resultOf
  dsimp only
  split <;> rfl

theorem assumesOutcome_none (py : Runtime)
    : AssumesOutcome py none := by
  simp [AssumesOutcome]

theorem assumesOutcome_normalize {py : Runtime} {assume : Option String}
    (h : ∀ a ∈ assume, ∃ tree, exprAst py (normalizeAssume a) = some tree ∧ "visits" ∉ tree.names)
    : AssumesOutcome py (assume.map normalizeAssume) := by
  rintro cond hcond
  rw [Option.mem_map] at hcond
  rcases hcond with ⟨a, ha, rfl⟩
  rcases h a ha with ⟨tree, htree, hvisits⟩
  refine ⟨(conditionTree_of_exprAst htree).2.1, ?_⟩
  intro tree' htree'
  rw [htree] at htree'
  cases htree'
  exact hvisits

section

variable {py : Runtime} {graph : Graph} {targets : List String} {bound : Nat} {opts : Options}
  {keep : Option ℤ} {assume : Option String}

theorem exists_verdict {o : Option (List ReachResult)} {name : String} {reachable : Reachable} {proven : Bool}
    (h : (o.map fun results => results.map fun verdict => (verdict.node, verdict.reachable, verdict.proven))
      = some [(name, reachable, proven)])
    : ∃ verdict, o = some [verdict] ∧ verdict.node = name ∧ verdict.reachable = reachable
        ∧ verdict.proven = proven := by
  rw [Option.map_eq_some_iff] at h
  rcases h with ⟨results, rfl, h⟩
  rw [List.map_eq_singleton_iff] at h
  rcases h with ⟨verdict, rfl, h⟩
  cases h
  exact ⟨verdict, rfl, rfl, rfl, rfl⟩

theorem AssumesOutcome.isDeterministic {assume : Option String} (h : AssumesOutcome py assume)
    : ∀ cond ∈ assume, isDeterministic cond = true :=
  fun cond hcond => (h cond hcond).1

theorem AssumesOutcome.admitted {assume : Option String} (h : AssumesOutcome py assume) {name : String}
    {result : RunResult} (hstands : Stands py opts keep graph (Fits py assume) name result)
    : Stands py opts keep graph (Admitted py assume) name result :=
  hstands.mono fun _ _ _ hfits => ⟨h.blind _, hfits⟩

theorem ne_of_proven_no {results : List ReachResult}
    (h : checkReach py graph targets assume bound {} = some results)
    (hassume : ∀ cond ∈ assume.map normalizeAssume, isDeterministic cond = true) {verdict : ReachResult}
    (hverdict : verdict ∈ results) (hno : verdict.reachable = .no) (hproven : verdict.proven = true)
    (hnode : graph.contains verdict.node = true) {name : String} {result : RunResult}
    (hstands : Stands py opts keep graph (Admitted py (assume.map normalizeAssume)) name result)
    : name ≠ verdict.node := by
  simp only [checkReach, Option.bind_eq_some_iff, Option.map_eq_some_iff] at h
  rcases h with ⟨caps, hcaps, sats, hsats, rfl⟩
  rw [List.mem_map] at hverdict
  rcases hverdict with ⟨target, -, rfl⟩
  rcases resultOf_proven hno hproven with ⟨hexhausted, hstates⟩
  rw [resultOf_node] at hnode ⊢
  rintro rfl
  rcases found_of_stands hcaps hsats hassume ⟨rfl, rfl⟩ hexhausted hstands hnode with ⟨counts, hmem, -⟩
  exact hstates _ hmem rfl

/--
No run whose outcomes are sampled at the nodes of the fragment stands on a node that the checker proves
unreachable.
-/
theorem unreachable_of_proven_no {results : List ReachResult}
    (h : checkReach py graph targets none bound {} = some results) {verdict : ReachResult}
    (hverdict : verdict ∈ results) (hno : verdict.reachable = .no) (hproven : verdict.proven = true)
    (hnode : graph.contains verdict.node = true) {name : String} {result : RunResult}
    (hstands : Stands py opts keep graph
      (fun node _ value => Sampled py none node (normalize py value).2) name result)
    : name ≠ verdict.node := by
  have hassume := assumesOutcome_none py
  apply ne_of_proven_no h hassume.isDeterministic hverdict hno hproven hnode
  exact hstands.mono fun node visits value hsampled => ⟨hassume.blind _, rfl, hsampled⟩

/-- An outcome that is sampled takes the first edge, and so misses the unreachable node. -/
theorem gateGraph_stays_off_c
    : ∃ result,
        Stands samplePy {} none gateGraph
            (fun node _ value => Sampled samplePy none node (Engine.normalize samplePy value).2) "b" result
          ∧ "b" ≠ "c" := by
  have hchecked : ((checkReach samplePy gateGraph ["c"] none 25 {}).map fun results =>
      results.map fun verdict => (verdict.node, verdict.reachable, verdict.proven))
        = some [("c", .no, true)] := by
    with_unfolding_all decide
  rcases exists_verdict hchecked with ⟨verdict, hresults, hnode, hno, hproven⟩
  have hfirst : firstDeterministic samplePy gateNode.edges (context [("x", .bool true)]
      (count (visit gateNode.name (begin none "a" {} {})).state.visits gateNode.name))
        = some ⟨"b", "when x == True"⟩ := by
    with_unfolding_all decide
  have hgate : ({} : Options).typeGate = false := rfl
  rcases step_of_firstDeterministic none firstRouter hgate (by with_unfolding_all decide) hfirst
    with ⟨result, hstep, -, -⟩
  have hstands : Stands samplePy {} none gateGraph
      (fun node _ value => Sampled samplePy none node (Engine.normalize samplePy value).2) "b" result := by
    refine .goto (.start []) rfl rfl ?_ hstep
    rintro value houtcome
    cases houtcome
    have hfields : fieldsAt samplePy gateNode none = ["x"] := by
      with_unfolding_all decide
    intro hfragment f hf
    rw [hfields, List.mem_singleton] at hf
    subst hf
    exact ⟨.bool true, .pole (by simp [poles]), fun _ _ _ _ => rfl⟩
  refine ⟨result, hstands, ?_⟩
  rw [← hnode]
  exact unreachable_of_proven_no hresults List.mem_cons_self hno hproven (hnode ▸ by with_unfolding_all decide) hstands

/-- Five is neither `True` nor like any value tried for `x`, and takes the second edge. -/
theorem gateGraph_reaches_c
    : ((checkReach samplePy gateGraph ["c"] none 25 {}).map fun results =>
        results.map fun verdict => (verdict.node, verdict.reachable, verdict.proven))
          = some [("c", .no, true)]
        ∧ replayedPath gateGraph [.dict [("x", .int 5)]] = some ["a", "c"] := by
  with_unfolding_all decide

/-! ## Saturated visit counts -/

/-- The truth of a node's conditions and of the assumption is the same under two counts. -/
structure SameTruth (py : Runtime) (assume : Option String) (node : Node) (k k' : Nat) : Prop where
  deterministic : ∀ edge ∈ node.edges, isDeterministic edge.condition = true →
    comparesLiterals py edge.condition = true → ∀ fields,
      hit py edge.condition (context fields k) = hit py edge.condition (context fields k')
  error : ∀ edge ∈ node.edges, isError edge.condition = true →
    comparesLiterals py (errorExpr edge.condition) = true → ∀ errorType message errorCount,
      handles py edge.condition (errorContext errorType message errorCount k)
        = handles py edge.condition (errorContext errorType message errorCount k')
  assumed : ∀ fields, admits py assume (context fields k) = admits py assume (context fields k')

theorem sameTruth_saturated {caps : Counts} (hcaps : visitCaps py graph = some caps) {node : Node}
    (hnode : node ∈ graph.nodes) (hassume : AssumesOutcome py assume) {visits : Nat} (hvisits : 1 ≤ visits)
    : SameTruth py assume node visits (saturated caps node.name visits) where
  deterministic := by
    intro edge hedge hdet hread fields
    rw [context_eq_withVisits, context_eq_withVisits]
    exact hit_saturated hcaps hnode hedge (guardOf_of_isDeterministic hdet) hdet hread _ hvisits
  error := by
    intro edge hedge herror hread errorType message errorCount
    rw [errorContext_eq_withVisits, errorContext_eq_withVisits _ _ _ (saturated _ _ _)]
    exact handles_saturated hcaps hnode hedge herror hread _ hvisits
  assumed := by
    intro fields
    cases assume with
    | none => rfl
    | some cond =>
      rcases hassume cond rfl with ⟨hdet, hnames⟩
      rw [context_eq_withVisits, context_eq_withVisits]
      exact hit_withVisits_of_names hdet hnames _ _ _

variable (opts keep) in
/--
Saturation is exact where `visits` is compared with literals only: the search is in the saturated counts of
every run it covers, they decide as the counts of the run do, and so a proven `no` holds of every run whose
outcomes satisfy the assumption and are sampled.
-/
theorem saturation_exact {results : List ReachResult}
    (h : checkReach py graph targets assume bound {} = some results)
    (hassume : ∀ a ∈ assume, ∃ tree, exprAst py (normalizeAssume a) = some tree ∧ "visits" ∉ tree.names)
    : ∃ caps sats,
        visitCaps py graph = some caps
          ∧ nodeSats py graph (assume.map normalizeAssume) = some sats
          ∧ (∀ node ∈ graph.nodes, ∀ visits ≥ 1,
              SameTruth py (assume.map normalizeAssume) node visits (saturated caps node.name visits))
          ∧ (∀ state ∈ Search.states (search py {} graph caps sats (assume.map normalizeAssume) bound).table,
              graph.contains state.1 = true →
              ∃ visits, Walk graph (fun _ _ _ => True) state.1 visits
                ∧ (state.2.lookup state.1).getD 1 = saturated caps state.1 (count visits state.1))
          ∧ (∀ name result,
              Stands py opts keep graph (Fits py (assume.map normalizeAssume)) name result →
              graph.contains name = true →
              (search py {} graph caps sats (assume.map normalizeAssume) bound).exhausted = true →
              Found (search py {} graph caps sats (assume.map normalizeAssume) bound) caps name
                result.state.visits)
          ∧ ∀ verdict ∈ results, verdict.reachable = .no → verdict.proven = true →
              graph.contains verdict.node = true → ∀ name result,
                Stands py opts keep graph (Fits py (assume.map normalizeAssume)) name result →
                name ≠ verdict.node := by
  have houtcome := assumesOutcome_normalize hassume
  have hchecked := h
  simp only [checkReach, Option.bind_eq_some_iff, Option.map_eq_some_iff] at hchecked
  rcases hchecked with ⟨caps, hcaps, sats, hsats, -⟩
  refine ⟨caps, sats, hcaps, hsats, ?_, ?_, ?_, ?_⟩
  . intro node hnode visits hvisits
    exact sameTruth_saturated hcaps hnode houtcome hvisits
  . rintro ⟨name, counts⟩ hstate hcontains
    rcases exists_walk hsats hstate with ⟨visits, hwalk, hsim⟩
    rcases Option.isSome_iff_exists.mp hcontains with ⟨node, hnode⟩
    have hname := Graph.name_of_get? hnode
    dsimp only at hname hwalk
    subst hname
    exact ⟨visits, hwalk, saturated_eq hsim node.name (one_le_cap hcaps (Graph.mem_of_get? hnode)) hwalk.one_le⟩
  . intro name result hstands hname hexhausted
    exact found_of_stands hcaps hsats houtcome.isDeterministic ⟨rfl, rfl⟩ hexhausted (houtcome.admitted hstands) hname
  . intro verdict hverdict hno hproven hnode name result hstands
    exact ne_of_proven_no h houtcome.isDeterministic hverdict hno hproven hnode (houtcome.admitted hstands)

theorem gateGraph_saturation_exact
    : ∃ caps,
        visitCaps samplePy gateGraph = some caps
          ∧ ∀ node ∈ gateGraph.nodes, ∀ visits ≥ 1,
              SameTruth samplePy (some "when x > 0") node visits (saturated caps node.name visits) := by
  have hsome : (checkReach samplePy gateGraph ["c"] (some "x > 0") 25 {}).isSome = true := by
    with_unfolding_all decide
  rcases Option.isSome_iff_exists.mp hsome with ⟨results, hresults⟩
  have hnormal : normalizeAssume "x > 0" = "when x > 0" := by
    with_unfolding_all decide
  have hnames : (exprAst samplePy (normalizeAssume "x > 0")).map Expr.names = some ["x"] := by
    with_unfolding_all decide
  rw [Option.map_eq_some_iff] at hnames
  rcases hnames with ⟨tree, htree, hnames⟩
  rcases saturation_exact {} none hresults (by
    rintro a ha
    cases ha
    exact ⟨tree, htree, by simp [hnames]⟩) with ⟨caps, sats, hcaps, -, hsame, -⟩
  rw [Option.map_some, hnormal] at hsame
  exact ⟨caps, hcaps, hsame⟩

/-- A count compared with a field is not seen to saturate: the search is at two when the run is at three. -/
theorem countGraph_saturates
    : visitCaps samplePy countGraph = some [("a", 2)]
        ∧ ((nodeSats samplePy countGraph none).map fun sats =>
            decide (("a", [("a", 2)])
              ∈ Search.states (search samplePy {} countGraph [("a", 2)] sats none 25).table)) = some true
        ∧ replayedPath countGraph (List.replicate 3 (.dict [("n", .int 3)])) = some ["a", "a", "a", "b"]
        ∧ hit samplePy "when visits == n" (context [("n", .int 3)] 3) = true
        ∧ hit samplePy "when visits == n" (context [("n", .int 3)] (saturated [("a", 2)] "a" 3)) = false := by
  with_unfolding_all decide

/-! ## A `yes` -/

end

end ModelCheck
