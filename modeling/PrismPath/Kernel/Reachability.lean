import PrismPath.Kernel.ModelCheckLemmas
import PrismPath.Lib.SearchDepth
import PrismPath.Ledgers.CheckpointLemmas

/-!
This module contains the soundness of the reachability checker: a run simulates the search, so that what the
search does not find no run stands on.
-/

open Python

namespace ModelCheck

open Predicates LevelM Parser Engine

/-! ## Runs -/

/--
The nodes a run from the graph's start can stand on, with the result it has there: each step takes a node's
worker's outcome, and an event resumes a run that waits. `ok` is what is asked of the outcomes that are
routed.
-/
inductive Stands (py : Runtime) (opts : Options) (keep : Option ℤ) (graph : Graph)
    (ok : Node → Nat → Value → Prop) : String → RunResult → Prop
  | start (other : List (String × Value))
      : Stands py opts keep graph ok graph.start (begin keep graph.start { other := other } {})
  | goto {name name' : String} {result result' : RunResult} {node : Node} {outcome : Outcome}
      {router : Router}
      : Stands py opts keep graph ok name result → graph.get? name = some node → node.terminal = false →
        (∀ value, outcome = .returned value → ok node (count (visit name result).state.visits name) value) →
        step py opts keep node (visit name result) outcome router = .goto name' result' →
        Stands py opts keep graph ok name' result'
  | event {name name' event : String} {result result' : RunResult} {node : Node} {outcome : Outcome}
      {router : Router} {stamp : Checkpoint.Stamp} {doc : Checkpoint.Doc} {entry : Checkpoint.Entry}
      : Stands py opts keep graph ok name result → graph.get? name = some node →
        step py opts keep node (visit name result) outcome router = .stop name' result' →
        result'.stopped = some .waiting →
        Checkpoint.saveCheckpoint stamp ⟨result', some name'⟩ = .ok doc →
        Checkpoint.reenter graph doc none (some event) = .ok entry →
        Stands py opts keep graph ok entry.start (begin keep entry.start entry.state entry.seed)

/-- What is asked of the outcomes can be asked less strictly. -/
theorem Stands.mono {py : Runtime} {opts : Options} {keep : Option ℤ} {graph : Graph}
    {ok ok' : Node → Nat → Value → Prop} (hok : ∀ node visits value, ok node visits value → ok' node visits value)
    {name : String} {result : RunResult} (h : Stands py opts keep graph ok name result)
    : Stands py opts keep graph ok' name result := by
  induction h with
  | start other => exact .start other
  | goto _ hnode hterminal hvalue hstep ih =>
    exact .goto ih hnode hterminal (fun value houtcome => hok _ _ _ (hvalue value houtcome)) hstep
  | event _ hnode hstep hwaiting hsave hentry ih => exact .event ih hnode hstep hwaiting hsave hentry

/-! ## Samples stand for outcomes -/

/-- Every field that the node's conditions read satisfies the same atoms as some sample. -/
def Sampled (py : Runtime) (assume : Option String) (node : Node) (fields : List (String × Value)) : Prop :=
  fragmentOnly py node assume = true →
    ∀ f ∈ fieldsAt py node assume, ∃ w, IsSample (constantsAt py node assume) w
      ∧ ∀ cond ∈ conditions node assume, ∀ a, (f, a) ∈ conditionAtoms py cond →
          a.holds (field fields f) = a.holds w

/-- The assumption, if there is one, is a condition that does not read `visits`. -/
def AssumesOutcome (py : Runtime) (assume : Option String) : Prop :=
  ∀ cond ∈ assume, isDeterministic cond = true ∧ ∀ tree, exprAst py cond = some tree → "visits" ∉ tree.names

theorem fragmentOnly_iff {py : Runtime} {node : Node} {assume : Option String}
    : fragmentOnly py node assume = true
        ↔
      ∀ cond ∈ conditions node assume, exprAst py cond = none ∨ isLevelM py cond = true := by
  simp [fragmentOnly]

theorem mem_fieldsAt {py : Runtime} {node : Node} {assume : Option String} {cond : String} {tree : Expr}
    {f : String} (hcond : cond ∈ conditions node assume) (htree : exprAst py cond = some tree)
    (hf : f ∈ tree.names) (hvisits : f ≠ "visits")
    : f ∈ fieldsAt py node assume := by
  simp only [fieldsAt, List.mem_insertionSort, List.mem_filter, List.mem_dedup, List.mem_flatMap]
  refine ⟨⟨tree, ?_, hf⟩, by simpa using hvisits⟩
  exact List.mem_filterMap.mpr ⟨cond, hcond, htree⟩

theorem mem_detEdges {node : Node} {p : Nat × Edge}
    : p ∈ detEdges node ↔ node.edges[p.1]? = some p.2 ∧ isDeterministic p.2.condition = true := by
  rw [detEdges, List.mem_filter, mem_indexed]

theorem mem_conditions {node : Node} {assume : Option String} {cond : String}
    : cond ∈ conditions node assume
        ↔
      (∃ edge ∈ node.edges, isDeterministic edge.condition = true ∧ edge.condition = cond)
        ∨ cond ∈ assume := by
  rw [conditions, List.mem_append, List.mem_map, Option.mem_toList]
  apply or_congr_left
  constructor
  . rintro ⟨p, hp, rfl⟩
    rw [mem_detEdges] at hp
    exact ⟨p.2, List.mem_of_getElem? hp.1, hp.2, rfl⟩
  . rintro ⟨edge, hedge, hdet, rfl⟩
    rcases List.getElem?_of_mem hedge with ⟨i, hi⟩
    exact ⟨(i, edge), mem_detEdges.mpr ⟨hi, hdet⟩, rfl⟩

theorem isDeterministic_of_mem_conditions {node : Node} {assume : Option String}
    (hassume : ∀ cond ∈ assume, isDeterministic cond = true) {cond : String} (h : cond ∈ conditions node assume)
    : isDeterministic cond = true := by
  rcases mem_conditions.mp h with ⟨edge, -, hdet, rfl⟩ | h
  . exact hdet
  . exact hassume cond h

theorem guardOf_of_isDeterministic {cond : String} (hdet : isDeterministic cond = true)
    : guardOf cond = some cond := by
  unfold guardOf
  rw [isError_eq_false hdet, if_neg Bool.false_ne_true]

/-- A condition that does not read `visits` does not depend on the count. -/
theorem hit_withVisits_of_names {py : Runtime} {cond : String} (hdet : isDeterministic cond = true)
    (hnames : ∀ tree, exprAst py cond = some tree → "visits" ∉ tree.names) (ctx : Ctx) (k k' : Nat)
    : hit py cond (withVisits ctx k) = hit py cond (withVisits ctx k') := by
  apply hit_eq_of_evalCondition
  apply evalCondition_congr_of_truth
  intro tree hverdict htree
  have hast : exprAst py cond = some tree := by
    rw [exprAst_eq, hdet, hverdict]
    exact htree
  apply congrArg truth
  apply ev_congr_names
  intro name hname
  have : name ≠ "visits" := fun h => hnames tree hast (h ▸ hname)
  simp [withVisits, this]

/-- The assumption holds of the outcome at every visit count, or at none. -/
def Blind (py : Runtime) (assume : Option String) (fields : List (String × Value)) : Prop :=
  ∀ cond ∈ assume, ∀ k k', hit py cond (context fields k) = hit py cond (context fields k')

theorem AssumesOutcome.blind {py : Runtime} {assume : Option String} (h : AssumesOutcome py assume)
    (fields : List (String × Value))
    : Blind py assume fields := by
  intro cond hcond k k'
  rw [context_eq_withVisits, context_eq_withVisits]
  exact hit_withVisits_of_names (h cond hcond).1 (h cond hcond).2 _ _ _

/-- No condition of a node whose conditions are all in the fragment sees the count saturate. -/
theorem hit_conditions_saturated {py : Runtime} {graph : Graph} {caps : Counts}
    (hcaps : visitCaps py graph = some caps) {node : Node} (hnode : node ∈ graph.nodes)
    {assume : Option String} {fields : List (String × Value)} (hblind : Blind py assume fields)
    (hfragment : fragmentOnly py node assume = true) {cond : String} (hcond : cond ∈ conditions node assume)
    {visits : Nat} (hvisits : 1 ≤ visits)
    : hit py cond (context fields visits) = hit py cond (context fields (saturated caps node.name visits)) := by
  have hlevel := fragmentOnly_iff.mp hfragment cond hcond
  rcases mem_conditions.mp hcond with ⟨edge, hedge, hdet, rfl⟩ | hcond
  . rw [context_eq_withVisits, context_eq_withVisits]
    cases hverdict : isVerdict (exprOf edge.condition) with
    | true =>
      apply hit_eq_of_evalCondition
      apply evalCondition_congr_of_truth
      intro tree hfalse
      rw [hverdict] at hfalse
      cases hfalse
    | false =>
      exact hit_saturated hcaps hnode hedge (guardOf_of_isDeterministic hdet) hdet
        (comparesLiterals_of_isLevelM hlevel hdet hverdict) _ hvisits
  . exact hblind cond hcond _ _

/-- A complete node has a context that no condition tells from the outcome. -/
theorem exists_context {py : Runtime} {graph : Graph} {caps : Counts}
    (hcaps : visitCaps py graph = some caps) {node : Node} (hnode : node ∈ graph.nodes)
    {assume : Option String} (hassume : ∀ cond ∈ assume, isDeterministic cond = true) {sat : NodeSat}
    (hsat : nodeSat py node assume = some sat) (hcomplete : sat.complete = true)
    {fields : List (String × Value)} (hblind : Blind py assume fields) (hsampled : Sampled py assume node fields)
    {visits : Nat} (hvisits : 1 ≤ visits)
    : ∃ a ∈ sat.contexts, ∀ cond ∈ conditions node assume,
        hit py cond (context fields visits)
          = hit py cond (context a (saturated caps node.name visits)) := by
  have hfragment : fragmentOnly py node assume = true := by
    simp only [nodeSat, Option.map_eq_some_iff] at hsat
    rcases hsat with ⟨cands, -, rfl⟩
    exact (Bool.and_eq_true _ _ ▸ hcomplete).1
  choose! g hg using hsampled hfragment
  refine ⟨_, mem_contexts hsat hcomplete g fun f hf => (hg f hf).1, ?_⟩
  intro cond hcond
  rw [hit_conditions_saturated hcaps hnode hblind hfragment hcond hvisits]
  apply hit_congr (isDeterministic_of_mem_conditions hassume hcond) (fragmentOnly_iff.mp hfragment cond hcond)
  rintro ⟨f, a⟩ ha
  rw [context_eq_withVisits, context_eq_withVisits]
  by_cases hf : f = "visits"
  . simp [withVisits, hf]
  . cases htree : exprAst py cond with
    | none => simp [conditionAtoms, htree] at ha
    | some tree =>
      have ha' := ha
      rw [conditionAtoms_of_exprAst htree] at ha'
      have hmem := mem_fieldsAt hcond htree (mem_names_of_mem_atomsOf ha') hf
      simp only [withVisits, hf, if_false]
      rw [(hg f hmem).2 cond hcond a ha]
      rw [field, Dict.lookup_map_mk, if_pos hmem, Option.getD_some]

/-! ## The search simulates a run -/

/-- A search state's counters are the saturated counts of the visits so far, the one under way included. -/
structure Simulates (caps counts : Counts) (visits : List (String × Nat)) : Prop where
  tracked : ∀ name cap, caps.lookup name = some cap → count counts name = min (count visits name) cap
  untracked : ∀ name, caps.lookup name = none → counts.lookup name = none

theorem simulates_nil (caps : Counts)
    : Simulates caps [] [] where
  tracked := by simp [count]
  untracked := by simp

theorem count_bump (caps counts : Counts) (name other : String)
    : count (bump caps counts name) other
        =
      match caps.lookup name with
      | none => count counts other
      | some cap => if name = other then min (count counts name + 1) cap else count counts other := by
  unfold bump
  cases caps.lookup name with
  | none => rfl
  | some cap =>
    simp only [count, Dict.lookup_setSorted]
    split <;> rfl

/-- Entering a node bumps its counter as the engine increments its visits. -/
theorem Simulates.bump {caps counts : Counts} {visits : List (String × Nat)}
    (h : Simulates caps counts visits) (name : String)
    : Simulates caps (bump caps counts name) (increment visits name) := by
  constructor
  . intro other cap hcap
    rw [count_bump, lookup_increment]
    by_cases heq : name = other
    . subst heq
      simp only [hcap, if_pos, h.tracked name cap hcap]
      rcases Nat.le_total (count visits name) cap with hle | hle
      . rw [Nat.min_eq_left hle]
      . rw [Nat.min_eq_right hle, Nat.min_eq_right (Nat.le_succ _), Nat.min_eq_right (Nat.le_succ_of_le hle)]
    . simp only [heq, if_false]
      split <;> exact h.tracked other cap hcap
  . intro other hother
    unfold ModelCheck.bump
    split
    . exact h.untracked other hother
    . next cap hcap =>
      have hne : name ≠ other := by
        rintro rfl
        rw [hcap] at hother
        cases hother
      rw [Dict.lookup_setSorted, if_neg hne]
      exact h.untracked other hother

theorem saturated_eq {caps counts : Counts} {visits : List (String × Nat)}
    (h : Simulates caps counts visits) (name : String)
    (hcaps : ∀ cap, caps.lookup name = some cap → 1 ≤ cap) (hvisits : 1 ≤ count visits name)
    : (counts.lookup name).getD 1 = saturated caps name (count visits name) := by
  unfold saturated
  cases hcap : caps.lookup name with
  | none => rw [h.untracked name hcap, Option.getD_none]
  | some cap =>
    have htracked := h.tracked name cap hcap
    have hpos := hcaps cap hcap
    unfold count at htracked
    cases hlookup : counts.lookup name with
    | none =>
      rw [hlookup, Option.getD_none] at htracked
      simp only [count] at hvisits htracked
      omega
    | some n =>
      rw [hlookup, Option.getD_some] at htracked
      simpa [count] using htracked

theorem one_le_cap {py : Runtime} {graph : Graph} {caps : Counts} (hcaps : visitCaps py graph = some caps)
    {node : Node} (hnode : node ∈ graph.nodes) (cap : Nat) (h : caps.lookup node.name = some cap)
    : 1 ≤ cap := by
  rcases lookup_visitCaps hcaps hnode with ⟨cap', hcap, hlookup⟩
  rw [h] at hlookup
  subst hlookup
  simp only [nodeCap, Option.map_eq_some_iff] at hcap
  rcases hcap with ⟨maxes, -, hcap⟩
  split at hcap
  . cases hcap
  . cases hcap
    omega

/-- Walks along the edges of the graph, with the visits on the way; `ok` is what is asked of an edge taken. -/
inductive Walk (graph : Graph) (ok : Node → Nat → Edge → Prop) : String → List (String × Nat) → Prop
  | start : Walk graph ok graph.start (increment [] graph.start)
  | step {node : Node} {visits : List (String × Nat)} {edge : Edge} : Walk graph ok node.name visits →
      graph.get? node.name = some node → edge ∈ node.edges → graph.contains edge.target = true →
      ok node (count visits node.name) edge → Walk graph ok edge.target (increment visits edge.target)

theorem Walk.one_le {graph : Graph} {ok : Node → Nat → Edge → Prop} {name : String}
    {visits : List (String × Nat)} (h : Walk graph ok name visits)
    : 1 ≤ count visits name := by
  cases h <;> simp

/-- Each state of the search has the saturated counts of a walk. -/
theorem exists_walk {py : Runtime} {tiers : Tiers} {graph : Graph} {caps : Counts} {assume : Option String}
    {sats : List (String × NodeSat)} (hsats : nodeSats py graph assume = some sats) {bound : Nat}
    {state : SearchState}
    (h : state ∈ Search.states (search py tiers graph caps sats assume bound).table)
    : ∃ visits, Walk graph (fun _ _ _ => True) state.1 visits ∧ Simulates caps state.2 visits := by
  refine (Search.Holds.loop (I := fun state : SearchState => ∃ visits,
    Walk graph (fun _ _ _ => True) state.1 visits ∧ Simulates caps state.2 visits)
    (Search.holds_init ?_) ?_ bound (searchFuel graph bound)).1 state h
  . exact ⟨_, .start, (simulates_nil caps).bump graph.start⟩
  . rintro ⟨name, counts⟩ ⟨visits, hwalk, hsim⟩ m hm
    rcases follows_of_moves hsats hm with ⟨node, sat, edge, hnode, -, hfollows, hcontains⟩
    have hname := Graph.name_of_get? hnode
    dsimp only at hname hnode hwalk
    subst hname
    rw [hfollows.target]
    exact ⟨_, .step hwalk hnode hfollows.listed hcontains trivial, hsim.bump edge.target⟩

/-- What is asked of a routed outcome: it satisfies the assumption, and samples stand for its fields. -/
def Fits (py : Runtime) (assume : Option String) (node : Node) (visits : Nat) (value : Value) : Prop :=
  admits py assume (context (normalize py value).2 visits) = true
    ∧ Sampled py assume node (normalize py value).2

/-- The visit count has no say in whether the outcome fits. -/
def Admitted (py : Runtime) (assume : Option String) (node : Node) (visits : Nat) (value : Value) : Prop :=
  Blind py assume (normalize py value).2 ∧ Fits py assume node visits value

theorem admits_congr {py : Runtime} {node : Node} {assume : Option String} {c₁ c₂ : Ctx}
    (h : ∀ cond ∈ conditions node assume, hit py cond c₁ = hit py cond c₂)
    : admits py assume c₁ = admits py assume c₂ := by
  cases assume with
  | none => rfl
  | some cond => exact h cond (mem_conditions.mpr (Or.inr rfl))

section

variable {py : Runtime} {tiers : Tiers} {graph : Graph} {caps : Counts} {assume : Option String}
  {sats : List (String × NodeSat)}

/-- Every edge a run can take is a move of the search, from a state with the saturated counts. -/
theorem exists_move_of_taken (hcaps : visitCaps py graph = some caps)
    (hsats : nodeSats py graph assume = some sats) (hassume : ∀ cond ∈ assume, isDeterministic cond = true)
    (htiers : tiers.errors = true) {node : Node} (hnode : graph.get? node.name = some node)
    {counts : Counts} {visits : List (String × Nat)} (hsim : Simulates caps counts visits)
    (hvisits : 1 ≤ count visits node.name) {outcome : Outcome} {edge : Edge}
    (htaken : Taken py node (count visits node.name) outcome edge)
    (hfits : ∀ value, outcome = .returned value → Admitted py assume node (count visits node.name) value)
    (htarget : graph.contains edge.target = true)
    : ∃ m ∈ moves py tiers graph caps sats assume (node.name, counts),
        m.target = targetOf caps counts edge := by
  have hmem := Graph.mem_of_get? hnode
  rcases lookup_nodeSats hsats hmem with ⟨sat, hsat, hlookup⟩
  have hsaturated := saturated_eq hsim node.name (one_le_cap hcaps hmem) hvisits
  apply exists_moves hnode hlookup htarget
  cases htaken with
  | error hedge herror => exact exists_nodeMoves_of_error htiers hedge herror
  | deterministic hfirst =>
    next value =>
    apply exists_nodeMoves_of_det
    rcases firstMatch_of_firstDeterministic hfirst with ⟨i, hmatch, hi, hdet⟩
    cases hcomplete : sat.complete with
    | false => exact exists_detMoves_of_incomplete hcomplete (det_nodeSat hsat ▸ hdet) hi
    | true =>
      rcases hfits value rfl with ⟨hblind, hassumed, hsampled⟩
      rcases exists_context hcaps hmem hassume hsat hcomplete hblind hsampled hvisits with ⟨a, ha, hagree⟩
      rw [hsaturated]
      rw [admits_congr hagree] at hassumed
      have hmatch' : firstMatch py sat.det (context a (saturated caps node.name (count visits node.name)))
          = some i := by
        rw [det_nodeSat hsat, ← firstMatch_congr fun p hp => hagree _ ?_, hmatch]
        rw [mem_detEdges] at hp
        exact mem_conditions.mpr (Or.inl ⟨p.2, List.mem_of_getElem? hp.1, hp.2, rfl⟩)
      rcases exists_takeable ha hassumed hmatch' with ⟨a', ha'⟩
      exact exists_detMoves_of_takeable ha' hi
  | semantic hfirst hedge =>
    next value =>
    apply exists_nodeMoves_of_semantic _ hedge
    cases hcomplete : sat.complete with
    | false => exact noneMatch_of_incomplete hcomplete
    | true =>
      rcases hfits value rfl with ⟨hblind, hassumed, hsampled⟩
      rcases exists_context hcaps hmem hassume hsat hcomplete hblind hsampled hvisits with ⟨a, ha, hagree⟩
      rw [hsaturated]
      rw [admits_congr hagree] at hassumed
      have hmatch' : firstMatch py sat.det (context a (saturated caps node.name (count visits node.name)))
          = none := by
        rw [det_nodeSat hsat, ← firstMatch_congr fun p hp => hagree _ ?_, firstMatch_eq_none_iff, hfirst]
        rw [mem_detEdges] at hp
        exact mem_conditions.mpr (Or.inl ⟨p.2, List.mem_of_getElem? hp.1, hp.2, rfl⟩)
      rcases exists_noneMatch ha hassumed hmatch' with ⟨a', ha'⟩
      rw [ha']
      simp

variable {opts : Options} {keep : Option ℤ} {bound : Nat}

/-- A node with the counters a run has there is among the states of the search. -/
def Found (progress : Progress) (caps : Counts) (name : String) (visits : List (String × Nat)) : Prop :=
  ∃ counts, (name, counts) ∈ Search.states progress.table ∧ Simulates caps counts (increment visits name)

theorem visits_event {stamp : Checkpoint.Stamp} {result : RunResult} {node : Node} {name event : String}
    {doc : Checkpoint.Doc} {entry : Checkpoint.Entry} (hnode : graph.get? name = some node) {value : Value}
    {before : RunResult} (hhalts : Halts py opts node before value result)
    (hwaiting : result.stopped = some .waiting)
    (hsave : Checkpoint.saveCheckpoint stamp ⟨result, some name⟩ = .ok doc)
    (hentry : Checkpoint.reenter graph doc none (some event) = .ok entry)
    : entry.state.visits = result.state.visits ∧ ∃ edge ∈ eventEdges node, edge.target = entry.start := by
  have hdoc := Checkpoint.eq_docOf_of_saveCheckpoint hsave
  subst hdoc
  rw [Checkpoint.reenter_event rfl] at hentry
  rcases Checkpoint.enterEvent_ok hentry with ⟨node', edge, hnode', hedge, -, hstart, hvisits, -⟩
  have hpending : Checkpoint.decisionNode (Checkpoint.docOf stamp ⟨result, some name⟩) = some node.name := by
    simp only [Checkpoint.decisionNode, Checkpoint.docOf, hhalts.pending_of_waiting hwaiting, Pending.node]
  rw [hpending, Graph.name_of_get? hnode, Option.bind_some, hnode] at hnode'
  cases hnode'
  exact ⟨hvisits, edge, hedge, hstart.symm⟩

/-- A run is a path of moves, one for each node it has entered, that ends with the saturated counts of its visits. -/
theorem reached_of_stands (hcaps : visitCaps py graph = some caps)
    (hsats : nodeSats py graph assume = some sats) (hassume : ∀ cond ∈ assume, isDeterministic cond = true)
    (htiers : tiers.errors = true ∧ tiers.events = true) {name : String} {result : RunResult}
    (h : Stands py opts keep graph (Admitted py assume) name result) (hname : graph.contains name = true)
    : ∃ counts,
        Search.Reaches (moves py tiers graph caps sats assume) (graph.start, bump caps [] graph.start)
            (total result.state.visits) (name, counts)
          ∧ Simulates caps counts (increment result.state.visits name) := by
  induction h with
  | start other =>
    rw [begin_visits]
    exact ⟨_, .start, (simulates_nil caps).bump graph.start⟩
  | goto hstands hnode hterminal hfits hstep ih =>
    next name name' result result' node outcome router =>
    have hget := Graph.name_of_get? hnode
    subst hget
    have hcontains : graph.contains node.name = true := by
      rw [Graph.contains, hnode]
      rfl
    rcases ih hcontains with ⟨counts, hreaches, hsim⟩
    rcases step_goto hstep with ⟨edge, htaken, rfl, -, hvisits⟩
    have hcount : 1 ≤ count (visit node.name result).state.visits node.name := by
      simp [visit, enter]
    have hmove : ∃ m ∈ moves py tiers graph caps sats assume (node.name, counts),
        m.target = targetOf caps counts edge :=
      exists_move_of_taken hcaps hsats hassume htiers.1 hnode hsim hcount htaken hfits hname
    rcases hmove with ⟨m, hm, htarget⟩
    have hnext := hreaches.step hm
    rw [htarget, ← total_increment _ node.name] at hnext
    rw [hvisits]
    exact ⟨_, hnext, hsim.bump edge.target⟩
  | event hstands hnode hstep hwaiting hsave hentry ih =>
    next name name' event result result' node outcome router stamp doc entry =>
    have hget := Graph.name_of_get? hnode
    subst hget
    have hcontains : graph.contains node.name = true := by
      rw [Graph.contains, hnode]
      rfl
    rcases ih hcontains with ⟨counts, hreaches, hsim⟩
    rcases step_stop hstep with ⟨rfl, value, rfl, hhalts⟩
    rcases visits_event hnode hhalts hwaiting hsave hentry with ⟨hvisits, edge, hedge, htarget⟩
    rcases lookup_nodeSats hsats (Graph.mem_of_get? hnode) with ⟨sat, -, hlookup⟩
    have hmove : ∃ m ∈ moves py tiers graph caps sats assume (node.name, counts),
        m.target = targetOf caps counts edge :=
      exists_moves hnode hlookup (htarget ▸ hname) (exists_nodeMoves_of_event htiers.2 hedge)
    rcases hmove with ⟨m, hm, hmtarget⟩
    have hnext := hreaches.step hm
    rw [targetOf, htarget] at hmtarget
    rw [hmtarget, ← total_increment _ node.name] at hnext
    rw [begin_visits, hvisits, hhalts.frame.2.2, recordOutcome_visits]
    exact ⟨_, hnext, hsim.bump entry.start⟩

/-- Wherever a run stands, a search that was not cut off has been, with the saturated counts of the run's visits. -/
theorem found_of_stands (hcaps : visitCaps py graph = some caps)
    (hsats : nodeSats py graph assume = some sats) (hassume : ∀ cond ∈ assume, isDeterministic cond = true)
    (htiers : tiers.errors = true ∧ tiers.events = true)
    (hexhausted : (search py tiers graph caps sats assume bound).exhausted = true)
    {name : String} {result : RunResult} (h : Stands py opts keep graph (Admitted py assume) name result)
    (hname : graph.contains name = true)
    : Found (search py tiers graph caps sats assume bound) caps name result.state.visits := by
  have hcovered := (Search.covered_init (moves py tiers graph caps sats assume)
    (graph.start, bump caps [] graph.start)).loop bound (searchFuel graph bound)
  rcases Search.closed_of_exhausted hcovered (search_frontier hsats bound) hexhausted with ⟨hstart, hclosed⟩
  rcases reached_of_stands hcaps hsats hassume htiers h hname with ⟨counts, hreaches, hsim⟩
  exact ⟨counts, hreaches.mem_of_closed hstart hclosed, hsim⟩

/-- Within the bound a search has been wherever a run stands, cut off or not. -/
theorem mem_states_of_reaches (hsats : nodeSats py graph assume = some sats) {n : Nat} {state : SearchState}
    (h : Search.Reaches (moves py tiers graph caps sats assume) (graph.start, bump caps [] graph.start) n state)
    (hn : n ≤ bound)
    : state ∈ Search.states (search py tiers graph caps sats assume bound).table :=
  ((Search.layered_init (moves py tiers graph caps sats assume) (graph.start, bump caps [] graph.start)
    bound).loop (searchFuel graph bound)).mem_of_reaches (search_frontier hsats bound) h hn

theorem resultOf_no {progress : Progress} {target : String} (hno : (resultOf progress target).reachable = .no)
    : (resultOf progress target).proven = progress.exhausted
        ∧ ∀ state ∈ Search.states progress.table, state.1 ≠ target := by
  unfold resultOf at hno ⊢
  dsimp only at hno ⊢
  split at hno
  . next hnone =>
    refine ⟨rfl, ?_⟩
    rintro state hstate rfl
    rw [Search.states, List.mem_map] at hstate
    rcases hstate with ⟨e, he, rfl⟩
    have hmem : e ∈ progress.table.filter fun e' => e'.state.1 = e.state.1 := by
      rw [List.mem_filter]
      exact ⟨he, by simp⟩
    cases hhits : progress.table.filter fun e' => e'.state.1 = e.state.1 with
    | nil => simp [hhits] at hmem
    | cons e' es =>
      rw [hhits] at hnone
      cases hfind : List.find? (fun e => e.certain) (e' :: es) <;> simp [hfind] at hnone
  . dsimp only at hno
    split at hno <;> cases hno

/-- A proven `no` of the search: nothing it found is the target, and it was not cut off. -/
theorem resultOf_proven {progress : Progress} {target : String}
    (hno : (resultOf progress target).reachable = .no) (hproven : (resultOf progress target).proven = true)
    : progress.exhausted = true ∧ ∀ state ∈ Search.states progress.table, state.1 ≠ target := by
  rcases resultOf_no hno with ⟨hexhausted, hstates⟩
  exact ⟨hexhausted ▸ hproven, hstates⟩

end

end ModelCheck
