import PrismPath.Hw.NodeRouting

/-!
This module contains that a serialized flow runs like the engine: on the outcomes of a script the interpreter visits the
nodes that the engine visits, and stops where the engine stops.
-/

open Python

namespace Engine

open Predicates Parser

/-- The worker of the conformance harness: a node's outcomes in order, and then the last one again and again. -/
def scriptedWorker (py : Runtime) (script : PptCompile.Script) (used : List (String × Nat)) (node : String)
    : Outcome × List (String × Nat) :=
  match script.lookup node with
  | none => (.returned (.dict [("text", .str node)]), used)
  | some seq =>
    let outcome := match seq[min (count used node) (seq.length - 1)]? with
      | none => .raised "IndexError" "list index out of range"
      | some (.dict fields) =>
        match fields.lookup "__raise__" with
        | some message => .raised "RuntimeError" (py.str message)
        | none => .returned (.dict fields)
      | some value => .returned value
    (outcome, increment used node)

def scriptedParties (py : Runtime) (script : PptCompile.Script) (router : Router) : Parties (List (String × Nat)) where
  worker used node _ _ := scriptedWorker py script used node
  router _ := router

/- What the worker says of a node. -/

theorem scriptedWorker_returns {py : Runtime} {script : PptCompile.Script} {used : List (String × Nat)} {node : String}
    {visits : Nat} (hused : (script.lookup node).isSome → count used node = visits) {value : Value}
    (hvalue : (script.outcomes node)[min visits ((script.outcomes node).length - 1)]? = some value)
    (hplain : PptCompile.Plain py value)
    : (scriptedWorker py script used node).1 = .returned value := by
  rw [scriptedWorker]
  rw [PptCompile.Script.outcomes] at hvalue
  cases hlookup : script.lookup node with
  | none =>
    rw [hlookup, Option.getD_none, List.length_singleton, Nat.sub_self, Nat.min_zero] at hvalue
    cases hvalue
    rfl
  | some seq =>
    rw [hlookup, Option.getD_some] at hvalue
    have hcount := hused (by rw [hlookup]; rfl)
    dsimp only
    rw [hcount, hvalue]
    cases value with
    | dict fields =>
      have hraise := hplain.returns fields rfl
      rw [Option.isSome_eq_false_iff, Option.isNone_iff_eq_none] at hraise
      dsimp only
      rw [hraise]
    | _ => rfl

theorem scriptedWorker_used {py : Runtime} {script : PptCompile.Script} {used : List (String × Nat)} {node : String}
    : (scriptedWorker py script used node).2
        = if (script.lookup node).isSome then increment used node else used := by
  rw [scriptedWorker]
  cases script.lookup node with
  | none => rfl
  | some seq => rfl

/-- A plain outcome is routed by the deterministic tier alone, at a node without semantic edges. -/
theorem step_plain {py : Runtime} {opts : Options} (hgate : opts.typeGate = false) (keep : Option ℤ) {node : Node}
    (hsem : ∀ edge ∈ node.edges, isSemantic edge.condition = false) (result : RunResult) {value : Value}
    (hplain : PptCompile.Plain py value) (router : Router)
    : match firstDeterministic py node.edges (context (normalize py value).2 (count result.state.visits node.name)) with
      | some edge => ∃ r, step py opts keep node result (.returned value) router = .goto edge.target r
          ∧ r.path = result.path ++ [edge.target] ∧ r.state.visits = result.state.visits
      | none => ∃ r, step py opts keep node result (.returned value) router = .stop node.name r
          ∧ r.path = result.path ∧ r.stopped = some .stuck := by
  have hvisits : (recordOutcome py keep node result value).state.visits = result.state.visits :=
    recordOutcome_visits py keep node result value
  have hviolations : gateViolations py opts node (normalize py value).2 = [] := by
    rw [gateViolations, hgate, if_neg Bool.false_ne_true]
  have hstep : step py opts keep node result (.returned value) router
      = match firstDeterministic py node.edges (context (normalize py value).2 (count result.state.visits node.name)) with
        | some edge => follow (recordOutcome py keep node result value)
            ⟨node.name, (normalize py value).1, edge.target, .deterministic edge.condition⟩
        | none => routeSemantic opts node (recordOutcome py keep node result value) (normalize py value).1 router := by
    rw [step, handleOutcome]
    dsimp only
    rw [hviolations, hplain.routes, hplain.goesOn, hvisits]
    rfl
  rw [hstep]
  cases hfirst : firstDeterministic py node.edges
      (context (normalize py value).2 (count result.state.visits node.name)) with
  | some edge => exact ⟨_, rfl, rfl, hvisits⟩
  | none =>
    have hnone : semanticEdges node = [] := by
      rw [semanticEdges, List.filter_eq_nil_iff]
      intro edge hedge
      rw [hsem edge hedge]
      exact Bool.false_ne_true
    dsimp only
    rw [routeSemantic, hnone, if_pos List.isEmpty_nil]
    exact ⟨_, rfl, rfl, rfl⟩

theorem begin_path (keep : Option ℤ) (start : String) (state : State)
    : (begin keep start state {}).path = [start] := by
  unfold begin boundSeed
  cases bounded? keep <;> rfl

end Engine

namespace PptCompile

open Bytes TableFormat
open Evaluator (Reg)
open Interp (registers scriptRows)

/- The register of the visits. -/

/-- The counter takes the place of the outcome's own field, as it does in the context. -/
theorem shows_withVisits {img : FlowImage} (hnodup : img.table.fields.Nodup) (hfew : img.table.fields.length < 2 ^ 16)
    (maxStack : Nat) {pool : List String} {fields : List (String × Value)} {regs : Nat → Reg}
    (h : Shows pool (Engine.field fields) img.table.fields regs) (visits : Nat)
    : Shows pool (Engine.context fields visits) img.table.fields
        (Interp.withVisits (img.loaded maxStack) visits regs) := by
  intro i name hname
  have hidx : (img.loaded maxStack).visitsIdx = (img.table.fields.idxOf? "visits").getD visitsNone := rfl
  rw [Interp.withVisits, hidx]
  by_cases hvisits : name = "visits"
  . subst hvisits
    have hfound : img.table.fields.idxOf? "visits" = some i := by
      rw [List.idxOf?, List.findIdx?_eq_some_iff_getElem]
      rcases List.getElem?_eq_some_iff.mp hname with ⟨hi, hget⟩
      refine ⟨hi, by rw [hget]; rfl, fun j hj => ?_⟩
      rw [beq_iff_eq]
      intro hsame
      have heq := (List.Nodup.getElem_inj_iff hnodup).mp (hsame.trans hget.symm)
      omega
    have hlt := (List.getElem?_eq_some_iff.mp hname).1
    have hsome : ¬ (some i).getD visitsNone = Interp.visitsNone := by
      have hmax : Interp.visitsNone = 65535 := rfl
      rw [Option.getD_some, hmax]
      omega
    rw [hfound, if_neg hsome, Option.getD_some, Function.update_self]
    refine ⟨(tyInt, visits), ?_, rfl⟩
    rw [Engine.context, if_pos rfl]
    rfl
  . rcases h i name hname with ⟨r, hr, hreg⟩
    refine ⟨r, ?_, ?_⟩
    . rw [Engine.context, if_neg hvisits]
      exact hr
    . split
      next => exact hreg
      next hsome =>
        cases hfound : img.table.fields.idxOf? "visits" with
        | none =>
          rw [hfound] at hsome
          exact absurd rfl hsome
        | some k =>
          have hk := getElem?_of_idxOf? hfound
          have hne : i ≠ k := by
            rintro rfl
            rw [hk, Option.some.injEq] at hname
            exact hvisits hname.symm
          rw [Option.getD_some, Function.update_of_ne hne]
          exact hreg

/- The two runs. -/

/-- How the two runs stop, at the last node of the engine's path. A node all of whose edges are the host's has none in the
table: the interpreter takes it for a terminal one, and the engine, which runs it, is stuck there. -/
inductive SameStop (graph : Parser.Graph) (last : String) : Interp.RunStop → Option Engine.Stopped → Prop
  | terminal : SameStop graph last .terminal (some .terminal)
  | stuck : SameStop graph last .stuck (some .stuck)
  | maxSteps : SameStop graph last .maxSteps (some .maxSteps)
  | host {node : Parser.Node} (hnode : graph.get? last = some node) (hne : node.edges ≠ [])
      (hhost : ∀ edge ∈ node.edges, (Predicates.isError edge.condition || Predicates.isEvent edge.condition) = true)
      : SameStop graph last .terminal (some .stuck)

/-- The nodes the interpreter prints against the path of the engine. -/
def SamePath (names : List String) (printed : List Nat) (path : List String) : Prop :=
  List.Forall₂ (fun (i : Nat) name => names[i]? = some name) printed path

/-- The counters of the two runs. -/
structure SameVisits (names : List String) (script : Script) (visits : Nat → Nat) (used counts : List (String × Nat))
    : Prop where
  counted : ∀ (i : Nat) name, names[i]? = some name → visits i = Engine.count counts name
  used : ∀ name, (script.lookup name).isSome → Engine.count used name = Engine.count counts name

theorem SameVisits.visit {names : List String} (hnodup : names.Nodup) {script : Script} {visits : Nat → Nat}
    {used counts : List (String × Nat)} (h : SameVisits names script visits used counts) {i : Nat} {name : String}
    (hname : names[i]? = some name)
    : SameVisits names script (Function.update visits i (visits i + 1))
        (if (script.lookup name).isSome then Engine.increment used name else used)
        (Engine.increment counts name) where
  counted := by
    intro j other hother
    rw [Engine.lookup_increment]
    by_cases hj : j = i
    . subst hj
      rw [hname, Option.some.injEq] at hother
      subst hother
      rw [Function.update_self, if_pos rfl, h.counted j name hname]
    . have hne : other ≠ name := by
        rintro rfl
        rcases List.getElem?_eq_some_iff.mp hname with ⟨hi, hget⟩
        rcases List.getElem?_eq_some_iff.mp hother with ⟨hj', hget'⟩
        exact hj ((List.Nodup.getElem_inj_iff hnodup).mp (hget'.trans hget.symm))
      rw [Function.update_of_ne hj, if_neg hne.symm]
      exact h.counted j other hother
  used := by
    intro other hsome
    rw [Engine.lookup_increment]
    by_cases hother : other = name
    . subst hother
      rw [if_pos hsome, Engine.lookup_increment, if_pos rfl, if_pos rfl, h.used other hsome]
    . rw [if_neg (Ne.symm hother), ← h.used other hsome]
      split
      next => rw [Engine.lookup_increment, if_neg (Ne.symm hother)]
      next => rfl

section Runs

variable {py : Predicates.Runtime} {isWord : Char → Bool} {maxSteps : Nat} {flow : Flow} {img : FlowImage}
  {data : List UInt8} {script : Script} {bytes : List UInt8} {pool : List String} {rows : List (Nat × Nat)}
  {opts : Engine.Options} {keep : Option ℤ}

/-- What the two runs share: the table, the script, and outcomes for every node. -/
structure Setup (py : Predicates.Runtime) (isWord : Char → Bool) (maxSteps : Nat) (flow : Flow) (img : FlowImage)
    (data : List UInt8) (script : Script) (bytes : List UInt8) (pool : List String) (rows : List (Nat × Nat)) : Prop where
  operands : ParsesOperands py
  compiled : compileFlow py isWord maxSteps flow = .ok img
  serialized : serialize img = some data
  strings : img.table.intern <+: pool
  holds : Holds py pool img.table.fields script bytes img.names rows
  outcomes : ∀ name seq, script.lookup name = some seq → seq ≠ []

theorem Setup.nodup (h : Setup py isWord maxSteps flow img data script bytes pool rows)
    : img.table.fields.Nodup :=
  (follows_compileFlow h.operands h.compiled).grows.nodup List.nodup_nil

theorem Setup.few (h : Setup py isWord maxSteps flow img data script bytes pool rows)
    : img.table.fields.length < 2 ^ 16 := by
  rcases headerWord_of_serialize h.serialized with ⟨maxStack, hword⟩
  exact u16?_lt (hword 1 _ rfl)

theorem Setup.outcomes_ne (h : Setup py isWord maxSteps flow img data script bytes pool rows) (name : String)
    : script.outcomes name ≠ [] := by
  rw [Script.outcomes]
  cases hlookup : script.lookup name with
  | none => simp
  | some seq => exact h.outcomes name seq hlookup

/-- A node of the image with its node of the flow. -/
theorem Setup.node (h : Setup py isWord maxSteps flow img data script bytes pool rows) {i : Nat} {name : String}
    (hname : img.names[i]? = some name)
    : ∃ node, flow.reachableNodes[i]? = some node ∧ node.name = name ∧ flow.graph.get? name = some node
        ∧ (∀ edge ∈ node.edges, Predicates.isSemantic edge.condition = false)
        ∧ ∃ off, ∀ maxStack, (img.loaded maxStack).nodes[i]? = some ⟨off, (deterministicEdges node).length⟩ := by
  have hfollows := follows_compileFlow h.operands h.compiled
  have hnames := hfollows.names
  rw [hnames, List.getElem?_map] at hname
  rcases Option.map_eq_some_iff.mp hname with ⟨node, hnode, rfl⟩
  have hmem : node ∈ flow.graph.nodes := (List.mem_filter.mp (List.mem_of_getElem? hnode)).1
  rcases List.getElem?_eq_some_iff.mp hnode with ⟨hi, rfl⟩
  have hi' : i < img.nodes.length := hfollows.nodes.length_eq ▸ hi
  have hcompiled : NodeFollows py img.names img.table flow.reachableNodes[i] img.nodes[i] :=
    List.Forall₂.get hfollows.nodes hi hi'
  rcases getElem?_nodeRecords [] (List.getElem?_eq_getElem hi') with ⟨off, hrecord, _⟩
  refine ⟨_, hnode, rfl, Parser.Graph.get?_of_mem hmem, hcompiled.semantic, off, fun maxStack => ?_⟩
  rw [hcompiled.edges.length_eq]
  exact hrecord

/-- The row of a visit, with the outcome the worker returns there. -/
theorem Setup.row (h : Setup py isWord maxSteps flow img data script bytes pool rows) {i : Nat} {name : String}
    (hname : img.names[i]? = some name) (visits : Nat)
    : ∃ off value, rows[i]? = some ((script.outcomes name).length, off)
        ∧ (script.outcomes name)[min visits ((script.outcomes name).length - 1)]? = some value
        ∧ Plain py value
        ∧ Shows pool (Engine.field (Engine.normalize py value).2) img.table.fields
            (registers bytes (off + 8 * img.table.fields.length * min visits ((script.outcomes name).length - 1))) := by
  rcases h.holds i name hname with ⟨off, hrow, houtcomes⟩
  have hpos := List.length_pos_iff.mpr (h.outcomes_ne name)
  have hlt : min visits ((script.outcomes name).length - 1) < (script.outcomes name).length := by omega
  rcases houtcomes _ _ (List.getElem?_eq_getElem hlt) with ⟨hplain, hshows⟩
  exact ⟨off, _, hrow, List.getElem?_eq_getElem hlt, hplain, hshows⟩

/-- The two runs from one node, with the same budget. -/
theorem runLoop_loop (h : Setup py isWord maxSteps flow img data script bytes pool rows) (hgate : opts.typeGate = false)
    (router : Engine.Router) (maxStack : Nat) (fuel : Nat) {i : Nat} {name : String} (hname : img.names[i]? = some name)
    {visits : Nat → Nat} {used : List (String × Nat)} {result : Engine.RunResult}
    (hvisits : SameVisits img.names script visits used result.state.visits) (hlast : result.path.getLast? = some name)
    : ∃ printed path stop result' last,
        Interp.runLoop (img.loaded maxStack) bytes rows fuel visits i = .ok (i :: printed, stop)
          ∧ (Engine.loop py opts keep flow.graph (Engine.scriptedParties py script router) fuel used name result).ending
            = .returned result'
          ∧ result'.path = result.path ++ path ∧ SamePath img.names printed path
          ∧ result'.path.getLast? = some last ∧ SameStop flow.graph last stop result'.stopped := by
  induction fuel generalizing i name visits used result with
  | zero => exact ⟨[], [], .maxSteps, _, name, rfl, rfl, (List.append_nil _).symm, .nil, hlast, .maxSteps⟩
  | succ fuel ih =>
    rcases h.node hname with ⟨node, hnode, rfl, hget, hsem, recordOff, hrecord⟩
    rw [Interp.runLoop, hrecord maxStack]
    dsimp only
    by_cases hterminal : node.terminal = true
    . -- a terminal node has no edges of either kind
      have hnil : node.edges = [] := by simpa [Parser.Node.terminal] using hterminal
      have hnone : (deterministicEdges node).length = 0 := by rw [deterministicEdges, hnil]; rfl
      rw [if_pos hnone, Engine.loop_terminal hget hterminal]
      exact ⟨[], [], .terminal, _, node.name, rfl, rfl, (List.append_nil _).symm, .nil, hlast, .terminal⟩
    . rcases h.row hname (visits i) with ⟨off, value, hrow, hvalue, hplain, hshows⟩
      -- the engine's pass
      have hcount : Engine.count result.state.visits node.name = visits i := (hvisits.counted i _ hname).symm
      have hreturns := Engine.scriptedWorker_returns (fun hsome => (hvisits.used _ hsome).trans hcount) hvalue hplain
      have hworker : (Engine.scriptedParties py script router).worker used node.name node.instruction
          (Engine.visit node.name result).state
          = (.returned value, if (script.lookup node.name).isSome then Engine.increment used node.name else used) :=
        Prod.ext hreturns Engine.scriptedWorker_used
      have hafter : Engine.count (Engine.visit node.name result).state.visits node.name = visits i + 1 := by
        show Engine.count (Engine.increment result.state.visits node.name) node.name = _
        rw [Engine.lookup_increment, if_pos rfl, hcount]
      have hstep := Engine.step_plain hgate keep hsem (Engine.visit node.name result) hplain router
      rw [hafter] at hstep
      have hrouter (used : List (String × Nat)) : (Engine.scriptedParties py script router).router used = router := rfl
      rw [Engine.loop_pass hget hterminal hworker, hrouter]
      by_cases hhost : (deterministicEdges node).length = 0
      . -- the interpreter sees no edges, and the engine none that matches
        have hnil : deterministicEdges node = [] := List.length_eq_zero_iff.mp hhost
        have hnone : Engine.firstDeterministic py node.edges
            (Engine.context (Engine.normalize py value).2 (visits i + 1)) = none := by
          rw [firstDeterministic_eq, hnil]
          rfl
        rw [hnone] at hstep
        rcases hstep with ⟨r, hstop, hpath, hstopped⟩
        rw [if_pos hhost, hstop]
        refine ⟨[], [], .terminal, r, node.name, rfl, rfl, ?_, .nil, ?_, ?_⟩
        . rw [hpath]
          exact (List.append_nil _).symm
        . rw [hpath]
          exact hlast
        . rw [hstopped]
          refine .host hget (by simpa [Parser.Node.terminal] using hterminal) fun edge hedge => ?_
          have hdet : Predicates.isDeterministic edge.condition = false := by
            rw [deterministicEdges, List.filter_eq_nil_iff] at hnil
            exact Bool.not_eq_true _ ▸ hnil edge hedge
          have hplainEdge := hsem edge hedge
          rw [Predicates.isSemantic, hdet] at hplainEdge
          cases herror : Predicates.isError edge.condition <;> cases hevent : Predicates.isEvent edge.condition
            <;> simp_all
      . -- both take the edge that matches first under the outcome of this visit
        have hpos := List.length_pos_iff.mpr (h.outcomes_ne node.name)
        have hfields : (img.loaded maxStack).fields = img.table.fields.length := rfl
        rcases matched_sameEdge h.operands h.compiled h.serialized maxStack hnode h.strings
          (shows_withVisits h.nodup h.few maxStack hshows (visits i + 1)) with ⟨taken, hmatched, hsame⟩
        rw [if_neg hhost, hrow]
        dsimp only
        rw [if_neg (Nat.ne_of_gt hpos), Function.update_self, Nat.add_sub_cancel, hfields, hmatched]
        generalize Engine.firstDeterministic py node.edges
          (Engine.context (Engine.normalize py value).2 (visits i + 1)) = first at hstep hsame
        cases hsame with
        | none =>
          rcases hstep with ⟨r, hstop, hpath, hstopped⟩
          rw [hstop]
          refine ⟨[], [], .stuck, r, node.name, rfl, rfl, ?_, .nil, ?_, ?_⟩
          . rw [hpath]
            exact (List.append_nil _).symm
          . rw [hpath]
            exact hlast
          . rw [hstopped]
            exact .stuck
        | @some index target edge hindex htarget =>
          rcases hstep with ⟨r, hgoto, hpath, hstate⟩
          have hnext : SameVisits img.names script (Function.update visits i (visits i + 1))
              (if (script.lookup node.name).isSome then Engine.increment used node.name else used) r.state.visits := by
            rw [hstate]
            exact hvisits.visit (nodup_names h.compiled) hname
          have hlast' : r.path.getLast? = some edge.target := by rw [hpath, List.getLast?_concat]
          rcases ih htarget hnext hlast' with ⟨printed, path, stop, result', last, hrun, hloop, hpath', hsamePath, hends, hstops⟩
          refine ⟨target :: printed, edge.target :: path, stop, result', last, ?_, ?_, ?_, .cons htarget hsamePath, hends,
            hstops⟩
          . dsimp only
            rw [hrun]
            rfl
          . rw [hgoto]
            exact hloop
          . rw [hpath', hpath, List.append_assoc]
            rfl

/--
A flow that compiles and is serialized, run on a script that is encoded: the interpreter prints the nodes of the engine's
path, and the two stop at the same node in the same way. The engine is the one of the worker that replays the script, with
any router, and the budget is the image's.
-/
theorem mode_run_engine (hpy : ParsesOperands py) (hcompile : compileFlow py isWord maxSteps flow = .ok img)
    (hserialize : serialize img = some data) (hscript : encodeScript py img script = .ok bytes)
    (houtcomes : ∀ name seq, script.lookup name = some seq → seq ≠ []) (hgate : opts.typeGate = false)
    (hbound : Engine.stateBound py opts flow.graph = .ok keep) (router : Engine.Router)
    : ∃ image printed stop result last,
        Interp.loadImage data = some image ∧ Interp.modeRun image bytes = .ok (printed, stop)
          ∧ (Engine.run py opts flow.graph (Engine.scriptedParties py script router) [] maxSteps flow.graph.start {} {}).ending
            = .returned result
          ∧ SamePath img.names printed result.path
          ∧ result.path.getLast? = some last ∧ SameStop flow.graph last stop result.stopped := by
  rcases loadImage_of_serialize hserialize with ⟨maxStack, hload⟩
  rcases encodeScript_spec hscript with ⟨pool, rows, hpool, hhead, hrows, hholds⟩
  have hfollows := follows_compileFlow hpy hcompile
  have hsetup : Setup py isWord maxSteps flow img data script bytes pool rows :=
    ⟨hpy, hcompile, hserialize, hpool, hholds, houtcomes⟩
  have hstart := getElem?_of_idxOf? hfollows.start
  have hpath := Engine.begin_path keep flow.graph.start {}
  have hcounts : SameVisits img.names script (fun _ => 0) [] (Engine.begin keep flow.graph.start {} {}).state.visits := by
    rw [Engine.begin_visits]
    exact ⟨fun _ _ _ => rfl, fun _ _ => rfl⟩
  have hlast : (Engine.begin keep flow.graph.start {} {}).path.getLast? = some flow.graph.start := by rw [hpath]; rfl
  rcases runLoop_loop hsetup hgate router maxStack maxSteps hstart hcounts hlast
    with ⟨printed, path, stop, result, last, hrun, hloop, hresult, hsame, hends, hstops⟩
  refine ⟨img.loaded maxStack, img.start :: printed, stop, result, last, hload, ?_, ?_, ?_, hends, hstops⟩
  . have hnodes : (img.loaded maxStack).nodes.length = img.nodes.length := length_nodeRecords 0 img.nodes
    have hfields : (img.loaded maxStack).fields = img.table.fields.length := rfl
    rw [Interp.modeRun, hhead, hnodes, hfields]
    dsimp only
    rw [if_neg (not_not.mpr rfl), hrows]
    have hbudget : (img.loaded maxStack).maxSteps = maxSteps := hfollows.maxSteps
    rw [hbudget]
    exact hrun
  . rw [Engine.run, hbound]
    exact hloop
  . rw [hresult, hpath]
    exact .cons hstart hsame

end Runs

def readyScript : Script :=
  [("run", [.dict [("ready", .bool false)], .dict [("ready", .bool true)]])]

theorem mode_run_engine_ready
    : ∃ data bytes image printed stop result last,
        serialize readyImage = some data ∧ encodeScript readyPy readyImage readyScript = .ok bytes
          ∧ Interp.loadImage data = some image ∧ Interp.modeRun image bytes = .ok (printed, stop)
          ∧ (Engine.run readyPy {} readyFlow.graph (Engine.scriptedParties readyPy readyScript Engine.firstRouter) [] 25
              readyFlow.graph.start {} {}).ending = .returned result
          ∧ SamePath readyImage.names printed result.path
          ∧ result.path.getLast? = some last ∧ SameStop readyFlow.graph last stop result.stopped := by
  have hcompile : compileFlow readyPy Char.isAlphanum 25 readyFlow = .ok readyImage := by
    with_unfolding_all rfl
  have hdata : ∃ data, serialize readyImage = some data := by
    exact ⟨_, rfl⟩
  have hbytes : ∃ bytes, encodeScript readyPy readyImage readyScript = .ok bytes := by
    exact ⟨_, by with_unfolding_all rfl⟩
  have houtcomes : ∀ name seq, readyScript.lookup name = some seq → seq ≠ [] := by
    intro name seq h
    rw [readyScript, List.lookup_cons] at h
    split at h
    next =>
      cases h
      simp
    next => cases h
  have hbound : Engine.stateBound readyPy {} readyFlow.graph = .ok none := by
    with_unfolding_all rfl
  rcases hdata with ⟨data, hdata⟩
  rcases hbytes with ⟨bytes, hbytes⟩
  rcases mode_run_engine readyPy_parsesOperands hcompile hdata hbytes houtcomes rfl hbound Engine.firstRouter
    with ⟨image, printed, stop, result, last, hload, hrun, hending, hpath, hlast, hstop⟩
  exact ⟨data, bytes, image, printed, stop, result, last, hdata, hbytes, hload, hrun, hending, hpath, hlast, hstop⟩

end PptCompile
