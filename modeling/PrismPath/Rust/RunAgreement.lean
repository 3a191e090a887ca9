import PrismPath.Rust.EngineAgreement

/-!
This module contains that a whole run is the same in both engines: from a saved state, step by step as long as the steps
are alike.
-/

namespace Rust

namespace Kernel

open Python (PyFloat)
open Parser (Edge Graph Node)

variable {py : Predicates.Runtime} {lowerExp : Double → Python.Decimal}

/- Saved states. -/

def readCounts (counts : List (String × ℤ)) : Value → List (String × ℤ)
  | .obj kvs => ingestCounts counts kvs
  | _ => counts

theorem ingest_visits (state : RunState) (kv : String × Value)
    : (state.ingest kv).visits = if kv.1 = "visits" then readCounts state.visits kv.2 else state.visits := by
  unfold RunState.ingest
  split
  next => rfl
  next => rfl
  next => rfl
  next => rfl
  next key v hvisits _ _ _ =>
    dsimp only
    split
    next hkey =>
      cases v with
      | obj kvs => exact (hvisits kvs hkey rfl).elim
      | _ => rfl
    next => rfl

theorem ingest_errors (state : RunState) (kv : String × Value)
    : (state.ingest kv).errors = if kv.1 = "_errors" then readCounts state.errors kv.2 else state.errors := by
  unfold RunState.ingest
  split
  next => rfl
  next => rfl
  next => rfl
  next => rfl
  next key v _ _ herrors _ =>
    dsimp only
    split
    next hkey =>
      cases v with
      | obj kvs => exact (herrors kvs hkey rfl).elim
      | _ => rfl
    next => rfl

/-- What the members of an object leave of one field of the state. -/
theorem foldl_ingest {β : Type} {get : RunState → β} {key : String} {read : β → Value → β}
    (hingest : ∀ state kv, get (RunState.ingest state kv) = if kv.1 = key then read (get state) kv.2 else get state)
    {kvs : List (String × Value)} (hnodup : (kvs.map Prod.fst).Nodup) (state : RunState)
    : get (kvs.foldl RunState.ingest state) = ((kvs.lookup key).map (read (get state))).getD (get state) := by
  induction kvs generalizing state with
  | nil => rfl
  | cons kv kvs ih =>
    rcases kv with ⟨k, v⟩
    rw [List.map_cons, List.nodup_cons] at hnodup
    rw [List.foldl_cons, ih hnodup.2, hingest, Dict.lookup_cons_eq]
    by_cases hk : k = key
    . subst hk
      -- no later member has the key
      rw [if_pos rfl, if_pos rfl, Dict.lookup_eq_none hnodup.1]
      rfl
    . rw [if_neg hk, if_neg hk]

theorem countOf_ingestCounts {kvs : List (String × Value)} (hnodup : (kvs.map Prod.fst).Nodup)
    (counts : List (String × ℤ)) (name : String)
    : countOf (ingestCounts counts kvs) name
        = (((kvs.lookup name).bind asNum).map asI64).getD (countOf counts name) := by
  induction kvs generalizing counts with
  | nil => rfl
  | cons kv kvs ih =>
    rcases kv with ⟨k, v⟩
    rw [List.map_cons, List.nodup_cons] at hnodup
    rw [ingestCounts, List.foldl_cons, ← ingestCounts, ih hnodup.2, Dict.lookup_cons_eq]
    by_cases hk : k = name
    . subst hk
      rw [if_pos rfl, Dict.lookup_eq_none hnodup.1]
      cases hnum : asNum v with
      | none => simp [hnum]
      | some x => simp [hnum, countOf]
    . rw [if_neg hk]
      cases hnum : asNum v with
      | none => rfl
      | some x =>
        dsimp only
        rw [countOf, Dict.lookup_set_of_ne _ _ fun hname => hk hname.symm, ← countOf]

theorem asI64_ofRat {n : ℕ} (h : n < 2 ^ 53)
    : asI64 (.ofRat ((n : ℤ) : ℚ)) = n := by
  have hfloor : (⌊((n : ℤ) : ℚ)⌋ : ℤ) = n := Int.floor_intCast _
  have hpos : (0 : ℚ) ≤ ((n : ℤ) : ℚ) := by positivity
  rw [PyFloat.ofRat, Double.round_val ⟨_, isDouble_count h⟩, asI64, if_pos hpos, hfloor]
  omega

/-- The counters of a state, as the dictionary they are saved as. -/
def savedCounts (counts : List (String × ℕ)) : List (String × Python.Value) :=
  counts.map fun kv => (kv.1, .int kv.2)

/--
A dictionary a state is saved as. The engine puts the error counters in at the first error; the other keys are no part
of the routing.
-/
structure SavedAs (state : Engine.State) (kvs : List (String × Python.Value)) : Prop where
  keys : (kvs.map Prod.fst).Nodup
  visits : kvs.lookup "visits" = some (.dict (savedCounts state.visits)) ∨ kvs.lookup "visits" = none ∧ state.visits = []
  errors : kvs.lookup "_errors" = some (.dict (savedCounts state.errors))
    ∨ kvs.lookup "_errors" = none ∧ state.errors = []
  visited : (state.visits.map Prod.fst).Nodup
  failed : (state.errors.map Prod.fst).Nodup

/-- Counters that are exact as numbers of JSON. -/
structure ExactCounters (state : Engine.State) : Prop where
  visits : ∀ kv ∈ state.visits, kv.2 < 2 ^ 53
  errors : ∀ kv ∈ state.errors, kv.2 < 2 ^ 53

theorem sameCounts_readCounts {counts : List (String × ℕ)} (hnodup : (counts.map Prod.fst).Nodup)
    (hexact : ∀ kv ∈ counts, kv.2 < 2 ^ 53)
    : SameCounts counts (readCounts [] (fromJson (.dict (savedCounts counts)))) := by
  intro name
  have hnames : ((savedCounts counts).map Prod.fst).Nodup := by
    rw [savedCounts, List.map_map]
    exact hnodup
  have hsorted : ((OrderedMap.ofList keyLt (fromJsonMembers (savedCounts counts))).map Prod.fst).Nodup := by
    rw [((perm_fromJson hnames).map Prod.fst).nodup_iff, map_fst_fromJsonMembers]
    exact hnames
  rw [fromJson, readCounts, countOf_ingestCounts hsorted, lookup_fromJson hnames, Engine.count]
  have hlookup : (savedCounts counts).lookup name = (counts.lookup name).map fun n => .int n := by
    clear hnodup hexact hnames hsorted
    induction counts with
    | nil => rfl
    | cons kv counts ih =>
      rw [savedCounts, List.map_cons, Dict.lookup_cons_eq, ← savedCounts, ih]
      rcases kv with ⟨k, n⟩
      rw [Dict.lookup_cons_eq]
      split <;> rfl
  rw [hlookup]
  cases hfound : counts.lookup name with
  | none => rfl
  | some n =>
    exact asI64_ofRat (hexact _ (Dict.mem_of_lookup hfound))

theorem sameCounts_nil
    : SameCounts [] [] :=
  fun _ => rfl

/-- The state a run starts with is the same on both sides. -/
theorem sameState_saved {state : Engine.State} {kvs : List (String × Python.Value)} (h : SavedAs state kvs)
    (hexact : ExactCounters state)
    : SameState state (RunState.fromV (fromJson (.dict kvs))) := by
  have hsorted : ((OrderedMap.ofList keyLt (fromJsonMembers kvs)).map Prod.fst).Nodup := by
    rw [((perm_fromJson h.keys).map Prod.fst).nodup_iff, map_fst_fromJsonMembers]
    exact h.keys
  rw [fromJson, RunState.fromV]
  constructor
  . rw [@foldl_ingest _ RunState.visits _ _ ingest_visits _ hsorted, lookup_fromJson h.keys]
    rcases h.visits with hvisits | ⟨hvisits, hnone⟩
    . rw [hvisits]
      exact sameCounts_readCounts h.visited hexact.visits
    . rw [hvisits, hnone]
      exact sameCounts_nil
  . rw [@foldl_ingest _ RunState.errors _ _ ingest_errors _ hsorted, lookup_fromJson h.keys]
    rcases h.errors with herrors | ⟨herrors, hnone⟩
    . rw [herrors]
      exact sameCounts_readCounts h.failed hexact.errors
    . rw [herrors, hnone]
      exact sameCounts_nil

/- One pass. -/

def Reply.toPython : Reply → Engine.Outcome
  | .outcome v => .returned v
  | .error message => .raised "Error" message

def Reply.toRust : Reply → Outcome
  | .outcome v => .ok (fromJson v)
  | .error message => .error message

theorem step_agrees {opts : Engine.Options} {keep : Option ℤ} {node : Node} {result : Engine.RunResult}
    {result' : RunResult} {state' : RunState} {reply : Reply} {router : Engine.Router}
    (hstr : ∀ s, py.str (.str s) = s) (hgate : opts.typeGate = false) (h : SameResult result result' state')
    (halike : StepAlike py lowerExp node result.state reply) (hplain : ∀ edge ∈ node.edges, Plain edge.condition)
    (hsemantic : ∀ edge ∈ node.edges, Predicates.isSemantic edge.condition = false)
    : SameNext (Engine.step py opts keep node result reply.toPython router)
        (pass lowerExp node result' state' reply.toRust) := by
  cases reply with
  | outcome v => exact handleOutcome_agrees h hstr hgate halike hplain hsemantic
  | error message => exact handleError_agrees h halike hplain

/- Runs. -/

/-- A worker's script; what it answers may depend on the calls before. -/
abbrev Script (σ : Type) : Type :=
  σ → String → String → Reply × σ

section

variable {σ : Type} (script : Script σ) (router : σ → Engine.Router)

def parties : Engine.Parties σ where
  worker := fun s name instruction _ => ((script s name instruction).1.toPython, (script s name instruction).2)
  router := router

def agent : Agent σ :=
  fun s name instruction _ => ((script s name instruction).1.toRust, (script s name instruction).2)

/-- Every step of the run, from a node on, is alike. -/
def StepsAlike (py : Predicates.Runtime) (lowerExp : Double → Python.Decimal) (opts : Engine.Options) (keep : Option ℤ)
    (graph : Graph) : ℕ → σ → String → Engine.RunResult → Prop
  | 0, _, _, _ => True
  | fuel + 1, s, name, result =>
    ∀ node, graph.get? name = some node → node.terminal = false →
      StepAlike py lowerExp node (Engine.enter name result.state) (script s name node.instruction).1
        ∧ ∀ name' result', Engine.step py opts keep node (Engine.visit name result)
            (script s name node.instruction).1.toPython (router (script s name node.instruction).2) = .goto name' result'
          → StepsAlike py lowerExp opts keep graph fuel (script s name node.instruction).2 name' result'

end

structure SameSnapshot (snapshot : Engine.Snapshot) (snapshot' : Snapshot) : Prop where
  result : SameResult snapshot.result snapshot'.result snapshot'.state
  -- the Rust observer is not told where a run got stuck
  node : snapshot'.node = snapshot.pendingNode
    ∨ snapshot.result.stopped = some .stuck ∧ snapshot'.node = none

inductive SameEnding : Engine.Ending → Except EngineError RunResult → Prop where
  | returned {result : Engine.RunResult} {result' : RunResult} (h : SameResult result result' result'.state)
      : SameEnding (.returned result) (.ok result')
  | unhandled (message : String) : SameEnding (.raised "Error" message) (.error (.unhandled message))
  | missingNode (node : String) : SameEnding (.raised "KeyError" node) (.error (.missingNode node))

structure SameTrace (trace : Engine.Trace) (trace' : Trace) : Prop where
  snapshots : List.Forall₂ SameSnapshot trace.snapshots trace'.snapshots
  ending : SameEnding trace.ending trace'.ending

theorem SameTrace.cons {snapshot : Engine.Snapshot} {snapshot' : Snapshot} {trace : Engine.Trace} {trace' : Trace}
    (hsnapshot : SameSnapshot snapshot snapshot') (h : SameTrace trace trace')
    : SameTrace (trace.cons snapshot) (trace'.cons snapshot') :=
  ⟨.cons hsnapshot h.snapshots, h.ending⟩

theorem SameResult.enter {result : Engine.RunResult} {result' : RunResult} {state' : RunState}
    (h : SameResult result result' state') {name : String} (hcount : Engine.count result.state.visits name + 1 < 2 ^ 53)
    : SameResult (Engine.visit name result) result' (enter name state') :=
  ⟨h.path, h.steps, h.stopped, h.pending, h.state.visits.increment hcount, h.state.errors⟩

section

variable {σ : Type} {script : Script σ} {router : σ → Engine.Router} {opts : Engine.Options} {keep : Option ℤ}
  {graph : Graph}

theorem runLoop_agrees (hstr : ∀ s, py.str (.str s) = s) (hgate : opts.typeGate = false) (hgraph : GraphAlike graph)
    {fuel : ℕ} {s : σ} {name : String} {result : Engine.RunResult} {result' : RunResult} {state' : RunState}
    (h : SameResult result result' state')
    (halike : StepsAlike script router py lowerExp opts keep graph fuel s name result)
    : SameTrace (Engine.loop py opts keep graph (parties script router) fuel s name result)
        (runLoop lowerExp graph (agent script) fuel s name result' state') := by
  induction fuel generalizing s name result result' state' with
  | zero => exact ⟨.nil, .returned ⟨h.path, h.steps, rfl, h.pending, h.state⟩⟩
  | succ fuel ih =>
    rw [Engine.loop, runLoop]
    cases hnode : graph.get? name with
    | none => exact ⟨.nil, .missingNode name⟩
    | some node =>
      dsimp only
      rw [← Node.terminal]
      cases hterminal : node.terminal with
      | true =>
        rw [if_pos rfl, if_pos rfl]
        have hresult : SameResult { result with stopped := some .terminal }
            { result' with stopped := some .terminal, state := state' } state' :=
          ⟨h.path, h.steps, rfl, h.pending, h.state⟩
        exact ⟨.cons ⟨⟨h.path, h.steps, rfl, h.pending, h.state⟩, .inl rfl⟩ .nil, .returned hresult⟩
      | false =>
        rw [if_neg Bool.false_ne_true, if_neg Bool.false_ne_true]
        rcases halike node hnode hterminal with ⟨hstep, hrest⟩
        have hmem := Graph.mem_of_get? hnode
        have hname := Graph.name_of_get? hnode
        subst hname
        have hcount : Engine.count result.state.visits node.name + 1 < 2 ^ 53 := by
          have hvisits := hstep.visits
          rw [Engine.enter, Engine.lookup_increment, if_pos rfl] at hvisits
          exact hvisits
        have hnext := @step_agrees py lowerExp opts keep node _ _ _ _ (router (script s node.name node.instruction).2)
          hstr hgate (h.enter hcount) hstep (hgraph.plain node hmem) (hgraph.semantic node hmem)
        refine SameTrace.cons ⟨h, .inl rfl⟩ ?_
        change SameNext (Engine.step py opts keep node (Engine.visit node.name result)
          (script s node.name node.instruction).1.toPython (router (script s node.name node.instruction).2))
          (pass lowerExp node result' (enter node.name state') (agent script s node.name node.instruction
            (enter node.name state')).1) at hnext
        rw [agent] at hnext ⊢
        rw [parties]
        dsimp only at hnext ⊢
        generalize hpython : Engine.step py opts keep node _ _ _ = next at hnext hrest
        generalize pass lowerExp node result' _ _ = next' at hnext
        cases hnext with
        | goto name hresult => exact ih hresult (hrest _ _ rfl)
        | stop name hresult hobserved =>
          refine ⟨.cons ⟨hresult, ?_⟩ .nil, .returned ⟨hresult.path, hresult.steps, hresult.stopped, hresult.pending,
            hresult.state⟩⟩
          rw [hobserved]
          split
          next hstuck => exact .inr ⟨hstuck, rfl⟩
          next => exact .inl rfl
        | raise message => exact ⟨.nil, .unhandled message⟩

theorem portabilityViolations_eq_nil (hgraph : GraphAlike graph)
    : portabilityViolations graph = [] := by
  rw [portabilityViolations, List.flatMap_eq_nil_iff]
  intro name _
  cases hnode : graph.get? name with
  | none => rfl
  | some node =>
    have hmem := Graph.mem_of_get? hnode
    have hedges : node.edges.filter (fun edge => isSemantic edge.condition) = [] := by
      rw [List.filter_eq_nil_iff]
      intro edge hedge
      rw [isSemantic_eq (hgraph.plain node hmem edge hedge), hgraph.semantic node hmem edge hedge]
      exact Bool.false_ne_true
    dsimp only
    rw [hedges, List.map_nil]

theorem sameResult_begin (start : String) {state : Engine.State} {state' : RunState} (h : SameState state state')
    : SameResult (Engine.begin keep start state {}) { path := [start] } state' := by
  have hseed : ∀ {α : Type} (key : String) (state : Engine.State),
      Engine.boundSeed keep key state ([] : List α) = (state, []) := by
    intro α key state
    rw [Engine.boundSeed]
    split <;> rfl
  have hbegin : Engine.begin keep start state {}
      = { path := [start], steps := [], state := Engine.boundTranscript keep state } := by
    rw [Engine.begin, hseed]
    dsimp only
    rw [hseed, List.nil_append]
  rw [hbegin]
  refine ⟨rfl, .nil, rfl, .none, ?_, ?_⟩
  . rw [Engine.boundTranscript_visits]
    exact h.visits
  . rw [Engine.boundTranscript_errors]
    exact h.errors

/-- A run whose steps are all alike is the same in both engines. -/
theorem run_agrees (hstr : ∀ s, py.str (.str s) = s) (hgate : opts.typeGate = false) (hgraph : GraphAlike graph)
    (hbound : Engine.stateBound py opts graph = .ok keep) {state : Engine.State}
    {saved : Option (List (String × Python.Value))} (hsaved : SavedAs state (saved.getD [])) (hexact : ExactCounters state)
    {start : String} {maxSteps : ℕ} {s : σ}
    (halike : StepsAlike script router py lowerExp opts keep graph maxSteps s start (Engine.begin keep start state {}))
    : SameTrace (Engine.run py opts graph (parties script router) s maxSteps start state {})
        (run lowerExp graph (agent script) none s
          { maxSteps := maxSteps, start := some start, state := saved.map fun kvs => fromJson (.dict kvs) }) := by
  have hstart : SameState state (((saved.map fun kvs => fromJson (.dict kvs)).map RunState.fromV).getD {}) := by
    cases saved with
    | none =>
      -- nothing was saved: every counter is empty
      rcases hsaved.visits with hvisits | ⟨_, hvisits⟩
      . cases hvisits
      rcases hsaved.errors with herrors | ⟨_, herrors⟩
      . cases herrors
      exact ⟨hvisits ▸ sameCounts_nil, herrors ▸ sameCounts_nil⟩
    | some kvs => exact sameState_saved hsaved hexact
  have hrun : run lowerExp graph (agent script) none s
        { maxSteps := maxSteps, start := some start, state := saved.map fun kvs => fromJson (.dict kvs) }
      = runLoop lowerExp graph (agent script) maxSteps s start { path := [start] }
        (((saved.map fun kvs => fromJson (.dict kvs)).map RunState.fromV).getD {}) := by
    unfold run
    rw [portabilityViolations_eq_nil hgraph]
    rfl
  rw [Engine.run, hbound, hrun]
  exact runLoop_agrees hstr hgate hgraph (sameResult_begin start hstart) halike

end

/- A list of texts, one with an apostrophe. -/

def quotedText : String :=
  "[\"it's\"]"

/-- `str` writes a list with the `repr` of its items. -/
def quotePy : Predicates.Runtime where
  parse
    | "text == \"[\\\"it's\\\"]\"" => some (.compare (.name "text") [(.eq, .constant (.str quotedText))])
    | "ok" => some (.name "ok")
    | _ => none
  str
    | .str s => s
    | .list [.str s] => "[\"" ++ s ++ "\"]"
    | _ => ""
  int := fun _ => none

def quoteNode : Node where
  name := "ask"
  edges := [⟨"done", "when text == \"[\\\"it's\\\"]\""⟩]

def quoteGraph : Graph where
  name := "quote"
  start := "ask"
  nodes := [quoteNode, { name := "done", edges := [] }]
  nodup := by decide

def quoteScript : Script Unit :=
  fun _ _ _ => (.outcome (.list [.str "it's"]), ())

/-- A stand-in for the digits of floats, of which there are none. -/
def noDigits : Double → Python.Decimal :=
  fun _ => ⟨0, 0⟩

theorem pyStr_quoted
    : pyStr noDigits (.list [.str "it's"]) = "['it's']" := by
  simp only [pyStr, pyReprItems, pyRepr]
  rfl

theorem graphAlike_quote
    : GraphAlike quoteGraph := by
  constructor
  . decide +kernel
  . decide +kernel

theorem pass_quoted (result : RunResult) (state : RunState) (h : countOf state.visits "ask" = 1)
    : ∃ state', pass noDigits quoteNode result state (.ok (.list [.str "it's"]))
        = .stop none { result with stopped := some .stuck } state' := by
  have hnormalize : normalize noDigits (.list [.str "it's"]) = ("['it's']", [("text", .str "['it's']")]) := by
    change (pyStr noDigits (.list [.str "it's"]), [("text", Value.str (pyStr noDigits (.list [.str "it's"])))]) = _
    rw [pyStr_quoted]
  have hstuck : firstDeterministic quoteNode.edges (context [("text", .str "['it's']")] 1) = none := by
    decide +kernel
  have hroute : ∀ state' : RunState, countOf state'.visits "ask" = 1
      → routeOnce quoteNode.name "['it's']" [("text", .str "['it's']")] quoteNode.edges state' = none := by
    intro state' hvisits
    have hname : quoteNode.name = "ask" := rfl
    rw [routeOnce, hname, hvisits, hstuck]
    rfl
  refine ⟨recordOutcome quoteNode.name "['it's']" [("text", .str "['it's']")] state, ?_⟩
  rw [pass, hnormalize]
  dsimp only
  have hhuman : humanHandoff noDigits quoteNode.name "['it's']" [("text", .str "['it's']")] quoteNode.edges = none := rfl
  have hwait : waitSuspend quoteNode.name [("text", .str "['it's']")] quoteNode.edges = none := rfl
  rw [hhuman, hwait]
  dsimp only
  rw [hroute (recordOutcome quoteNode.name "['it's']" [("text", .str "['it's']")] state) h]

theorem run_quoted
    : ∃ result, (run noDigits quoteGraph (agent quoteScript) none () {}).ending = .ok result ∧ result.path = ["ask"]
        ∧ result.stopped = some .stuck := by
  rcases pass_quoted { path := ["ask"] } (enter "ask" {}) rfl with ⟨state', hpass⟩
  unfold run
  rw [portabilityViolations_eq_nil graphAlike_quote]
  have hnode : quoteGraph.get? "ask" = some quoteNode := rfl
  change ∃ result, (runLoop noDigits quoteGraph (agent quoteScript) 25 () "ask" { path := ["ask"] } {}).ending = .ok result
    ∧ _
  have hagent : agent quoteScript () "ask" quoteNode.instruction (enter "ask" {}) = (.ok (.list [.str "it's"]), ()) := rfl
  have hedges : quoteNode.edges.isEmpty = false := rfl
  rw [runLoop, hnode]
  simp only [hedges, Bool.false_eq_true, if_false, hagent, hpass, Trace.cons]
  exact ⟨_, rfl, rfl, rfl⟩

/-- The list is one text in Python and another in Rust, so only one of the runs goes on. -/
theorem quoted_list_differs
    : ((Engine.run quotePy {} quoteGraph (parties quoteScript fun _ => Engine.firstRouter) () 25 "ask" {} {}).ending.result?.map
          fun result => (result.path, result.stopped)) = some (["ask", "done"], some .terminal)
        ∧ ∃ result, (run noDigits quoteGraph (agent quoteScript) none () {}).ending = .ok result
          ∧ result.path = ["ask"] ∧ result.stopped = some .stuck :=
  ⟨by decide +kernel, run_quoted⟩

def firstVisit : Script Unit :=
  fun _ _ _ => (.outcome (.dict [("ok", .bool true)]), ())

def firstGraph : Graph where
  name := "first"
  start := "ask"
  nodes := [
    { name := "ask", edges := [⟨"done", "when ok"⟩] },
    { name := "done", edges := [] }
  ]
  nodup := by decide

theorem conditionAlike_first
    : ConditionAlike quotePy "when ok" := by
  have hexpr : Predicates.exprOf "when ok" = "ok" := by decide +kernel
  refine ⟨by decide +kernel, .inr ?_⟩
  rw [hexpr]
  exact .read (.name "ok") (.name "ok") rfl rfl (fun v hv => by cases hv) rfl

/-- The first node was entered once before. -/
def firstState : Engine.State where
  visits := [("ask", 1)]

theorem stepAlike_first (node : Node) (hedges : node.edges = [⟨"done", "when ok"⟩]) (hname : node.name = "ask")
    : StepAlike quotePy noDigits node (Engine.enter "ask" firstState) (firstVisit () "ask" "").1 := by
  constructor
  . rw [hname]
    decide +kernel
  . rw [hname]
    decide +kernel
  . intro edge hedge _
    rw [hedges, List.mem_singleton] at hedge
    rw [hedge]
    exact conditionAlike_first
  . intro edge hedge herror
    rw [hedges, List.mem_singleton] at hedge
    rw [hedge] at herror
    exact absurd herror (by decide +kernel)
  . intro v hv
    cases hv
    refine ⟨⟨?_, ?_, ?_⟩, ?_⟩
    . exact ⟨by decide, trivial, trivial⟩
    . exact ⟨trivial, trivial⟩
    . decide +kernel
    . intro t ht
      cases ht

theorem run_agrees_once
    : SameTrace (Engine.run quotePy {} firstGraph (parties firstVisit fun _ => Engine.firstRouter) () 1 "ask" firstState {})
        (run noDigits firstGraph (agent firstVisit) none () {
          maxSteps := 1
          start := some "ask"
          state := some (fromJson (.dict [("visits", .dict [("ask", .int 1)])]))
        }) := by
  refine @run_agrees quotePy noDigits Unit firstVisit (fun _ => Engine.firstRouter) {} none firstGraph (fun _ => rfl) rfl
    ⟨by decide +kernel, by decide +kernel⟩ rfl firstState (some [("visits", .dict [("ask", .int 1)])]) ?_ ⟨?_, ?_⟩ "ask"
    1 () ?_
  . exact ⟨by decide, .inl rfl, .inr ⟨rfl, rfl⟩, by decide, .nil⟩
  . decide
  . decide
  . intro node hnode _
    have hask : node = { name := "ask", edges := [⟨"done", "when ok"⟩] } := by
      cases hnode
      rfl
    subst hask
    exact ⟨stepAlike_first _ rfl rfl, fun _ _ _ => trivial⟩

end Kernel

end Rust
