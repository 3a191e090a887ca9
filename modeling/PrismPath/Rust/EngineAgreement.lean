import Mathlib.Data.List.Find
import PrismPath.Kernel.EngineLemmas
import PrismPath.Rust.ConditionAgreement
import PrismPath.Rust.Engine

/-!
This module contains when a run is the same in both engines: what has to be alike at each step, and that then both go
through the same nodes and stop alike.
-/

namespace Rust

namespace Kernel

open Parser (Edge Graph Node)

variable {py : Predicates.Runtime} {lowerExp : Double → Python.Decimal}

/- The fields of an outcome. -/

/-- The same fields on both sides, none nested more than 150 deep. -/
structure SameFields (fields : List (String × Python.Value)) (fields' : List (String × Value)) : Prop where
  get : ∀ k, fields'.lookup k = (fields.lookup k).map fromJson
  last : ∀ k, fields'.reverse.lookup k = fields'.lookup k
  comparable : ∀ k v, fields.lookup k = some v → Comparable 150 v

theorem sameFields_dict {kvs : List (String × Python.Value)} (h : Comparable 151 (.dict kvs))
    : SameFields kvs (OrderedMap.ofList keyLt (fromJsonMembers kvs)) := by
  have hnodup : ((OrderedMap.ofList keyLt (fromJsonMembers kvs)).map Prod.fst).Nodup := by
    rw [((perm_fromJson h.json.1).map Prod.fst).nodup_iff, map_fst_fromJsonMembers]
    exact h.json.1
  constructor
  . exact lookup_fromJson h.json.1
  . exact fun k => Dict.lookup_reverse hnodup k
  . exact fun k v hv => (h.members (Dict.mem_of_lookup hv)).1

theorem sameFields_text (text : String)
    : SameFields [("text", .str text)] [("text", .str text)] := by
  constructor
  . intro k
    rw [Dict.lookup_cons_eq, Dict.lookup_cons_eq]
    split <;> rfl
  . exact fun k => rfl
  . intro k v hv
    rw [Dict.lookup_cons_eq] at hv
    split at hv
    next =>
      cases hv
      exact ⟨trivial, trivial, Nat.zero_le _⟩
    next => cases hv

section

variable {fields : List (String × Python.Value)} {fields' : List (String × Value)} (h : SameFields fields fields')
include h

theorem SameFields.field (k : String)
    : (fields'.lookup k).getD .null = fromJson (Engine.field fields k) ∧ Comparable 150 (Engine.field fields k) := by
  rw [h.get, Engine.field]
  cases hv : fields.lookup k with
  | none => exact ⟨rfl, trivial, trivial, Nat.zero_le _⟩
  | some v => exact ⟨rfl, h.comparable k v hv⟩

theorem SameFields.truthy (k : String)
    : ((Value.objGet fields' k).map Value.pyTruthy).getD false = (Engine.field fields k).truthy := by
  rw [Value.objGet, h.get, Engine.field]
  cases hv : fields.lookup k with
  | none => rfl
  | some v =>
    have hcomparable := h.comparable k v hv
    exact pyTruthy_fromJson hcomparable.json hcomparable.exact

omit h in
theorem fromJson_null {v : Python.Value} (hv : IsJson v)
    : isNull (fromJson v) = (v matches .none) := by
  cases v with
  | fraction | bytes | ellipsis | imag => exact hv.elim
  | _ => rfl

omit h in
theorem isDouble_count {n : ℕ} (hn : n < 2 ^ 53)
    : IsDouble ((n : ℤ) : ℚ) := by
  refine Double.isDouble_of_int ?_
  rw [abs_of_nonneg (by positivity)]
  exact_mod_cast hn

theorem SameFields.context {visits : ℕ} (hvisits : visits < 2 ^ 53)
    : SameCtx (Engine.context fields visits) (context fields' visits) := by
  intro name
  rw [Engine.context, Kernel.context]
  split
  next => exact ⟨rfl, trivial, isDouble_count hvisits, Nat.zero_le _⟩
  next =>
    rw [h.last]
    exact h.field name

end

/- What has to be alike at a step. -/

/-- What a worker answers with: a value, or an exception of the class `Error`. -/
inductive Reply where
  | outcome (v : Python.Value)
  | error (message : String)

/-- What the text of an outcome is written from. -/
def textOf : Python.Value → Option Python.Value
  | .dict fields => fields.lookup "text"
  | v => some v

/-- An outcome with the same fields and one text on both sides. -/
structure OutcomeAlike (py : Predicates.Runtime) (lowerExp : Double → Python.Decimal) (v : Python.Value) : Prop where
  comparable : Comparable 151 v
  text : ∀ t, textOf v = some t → pyStr lowerExp (fromJson t) = py.str t

/--
The counters of the node are exact, its conditions mean the same on both sides, and so does the outcome if there is
one.
-/
structure StepAlike (py : Predicates.Runtime) (lowerExp : Double → Python.Decimal) (node : Node) (state : Engine.State)
    (reply : Reply) : Prop where
  visits : Engine.count state.visits node.name < 2 ^ 53
  errors : Engine.count state.errors node.name + 1 < 2 ^ 53
  deterministic : ∀ edge ∈ node.edges, Predicates.isDeterministic edge.condition = true
    → ConditionAlike py edge.condition
  error : ∀ edge ∈ node.edges, Predicates.isError edge.condition = true → Predicates.errorExpr edge.condition = ""
    ∨ ConditionAlike py (Predicates.errorExpr edge.condition)
  outcome : ∀ v, reply = .outcome v → OutcomeAlike py lowerExp v

/-- The edges of a flow without semantic edges, whose texts are plain. -/
structure GraphAlike (graph : Graph) : Prop where
  semantic : ∀ node ∈ graph.nodes, ∀ edge ∈ node.edges, Predicates.isSemantic edge.condition = false
  plain : ∀ node ∈ graph.nodes, ∀ edge ∈ node.edges, Plain edge.condition

/- The state on both sides. -/

def SameCounts (counts : List (String × ℕ)) (counts' : List (String × ℤ)) : Prop :=
  ∀ name, countOf counts' name = Engine.count counts name

structure SameState (state : Engine.State) (state' : RunState) : Prop where
  visits : SameCounts state.visits state'.visits
  errors : SameCounts state.errors state'.errors

theorem SameCounts.increment {counts : List (String × ℕ)} {counts' : List (String × ℤ)} (h : SameCounts counts counts')
    {node : String} (hcount : Engine.count counts node + 1 < 2 ^ 53)
    : SameCounts (Engine.increment counts node) (increment counts' node) := by
  intro name
  have hexact : Int.bmod (countOf counts' node + 1) (2 ^ 64) = Engine.count counts node + 1 := by
    rw [h node]
    refine Int.bmod_eq_of_le ?_ ?_ <;> omega
  rw [Engine.lookup_increment, countOf, Kernel.increment, Dict.lookup_set, hexact]
  split
  next => rfl
  next => exact h name

/-- The same step: where it was taken and along which edge. -/
structure SameStep (step : Engine.StepLog) (step' : Step) : Prop where
  node : step.node = step'.node
  outcome : step.outcome = step'.outcome
  target : step.target = step'.target
  edge : match step.info with
    | .deterministic cond => step'.used = "deterministic: " ++ cond ∧ step'.cond = some cond
    | .error _ _ => step'.used = "error" ∧ step'.cond = none
    | _ => False

def sameStopped : Engine.Stopped → Option Stopped
  | .terminal => some .terminal
  | .stuck => some .stuck
  | .needsHuman => some .needsHuman
  | .waiting => some .waiting
  | .maxSteps => some .maxSteps
  | .contractViolation => none

/-- The same decision is waited for, at the same node and among the same edges. -/
def SamePending : Engine.Pending → Pending → Prop
  | .human node _ candidates, pending =>
    pending.node = node ∧ pending.wait = false ∧ pending.candidates = candidates
  | .wait node awaiting timeoutS candidates spawn, pending =>
    pending.node = node ∧ pending.wait = true ∧ pending.awaiting = awaiting ∧ pending.candidates = candidates
      ∧ pending.timeoutS.getD .null = fromJson timeoutS ∧ pending.spawn.getD .null = fromJson spawn
  | _, _ => False

structure SameResult (result : Engine.RunResult) (result' : RunResult) (state' : RunState) : Prop where
  path : result.path = result'.path
  steps : List.Forall₂ SameStep result.steps result'.steps
  stopped : result.stopped.map sameStopped = result'.stopped.map some
  pending : Option.Rel SamePending result.pending result'.pending
  state : SameState result.state state'

/-- Both passes go on at the same node, end alike, or raise alike. -/
inductive SameNext : Engine.Next → Next → Prop where
  | goto (node : String) {result : Engine.RunResult} {result' : RunResult} {state' : RunState}
      (h : SameResult result result' state') : SameNext (.goto node result) (.goto node result' state')
  | stop (node : String) {observed : Option String} {result : Engine.RunResult} {result' : RunResult} {state' : RunState}
      (h : SameResult result result' state')
      (hobserved : observed = if result.stopped = some .stuck then none else some node)
      : SameNext (.stop node result) (.stop observed result' state')
  | raise (message : String) : SameNext (.raise "Error" message) (.fail (.unhandled message))

theorem SameResult.follow {result : Engine.RunResult} {result' : RunResult} {state' : RunState}
    (h : SameResult result result' state') {step : Engine.StepLog} {step' : Step} (hstep : SameStep step step')
    : SameNext (Engine.follow result step) (follow result' state' step') := by
  rw [Engine.follow, Kernel.follow, ← hstep.target]
  refine .goto _ ⟨?_, ?_, h.stopped, h.pending, h.state⟩
  . rw [h.path]
  . exact List.rel_append h.steps (.cons hstep .nil)

/- The error tier. -/

theorem sameCtx_error (message : String) {errorCount visits : ℕ} (herrors : errorCount < 2 ^ 53)
    (hvisits : visits < 2 ^ 53)
    : SameCtx (Engine.errorContext "Error" message errorCount visits) (errorContext message errorCount visits) := by
  intro name
  unfold Engine.errorContext errorContext
  split
  next => exact ⟨rfl, trivial, trivial, Nat.zero_le _⟩
  next => exact ⟨rfl, trivial, trivial, Nat.zero_le _⟩
  next => exact ⟨rfl, trivial, trivial, Nat.zero_le _⟩
  next => exact ⟨rfl, trivial, isDouble_count herrors, Nat.zero_le _⟩
  next => exact ⟨rfl, trivial, isDouble_count hvisits, Nat.zero_le _⟩
  next =>
    -- no other name is in the context
    first
    | exact ⟨rfl, trivial, trivial, Nat.zero_le _⟩
    | split <;> first | contradiction | exact ⟨rfl, trivial, trivial, Nat.zero_le _⟩

theorem errorTarget_find (ctx : Predicates.Ctx) (edges : List Edge)
    : (Engine.errorTarget py ctx edges).1
        = (edges.find? fun edge => Predicates.isError edge.condition
            && (Engine.guardResult py ctx edge.condition matches .ok true)).map Edge.target := by
  induction edges with
  | nil => rfl
  | cons edge edges ih =>
    rw [Engine.errorTarget, List.find?_cons]
    cases herror : Predicates.isError edge.condition with
    | false =>
      rw [if_neg Bool.false_ne_true, Bool.false_and]
      exact ih
    | true =>
      rw [if_pos rfl, Bool.true_and]
      cases hguard : Engine.guardResult py ctx edge.condition with
      | error err => exact ih
      | ok b =>
        cases b with
        | true => rfl
        | false => exact ih

theorem errorEdge_eq {ctx : Predicates.Ctx} {ctx' : Ctx} (hctx : SameCtx ctx ctx') {edge : Edge}
    (hplain : Plain edge.condition) (halike : Predicates.isError edge.condition = true
      → Predicates.errorExpr edge.condition = "" ∨ ConditionAlike py (Predicates.errorExpr edge.condition))
    : (Predicates.isError edge.condition && (Engine.guardResult py ctx edge.condition matches .ok true))
        = errorEdge ctx' edge := by
  rw [errorEdge, isError_eq hplain, errorExpr_eq hplain]
  cases herror : Predicates.isError edge.condition with
  | false => rfl
  | true =>
    rw [Bool.true_and, Bool.true_and, Engine.guardResult]
    by_cases hempty : Predicates.errorExpr edge.condition = ""
    . simp [hempty]
    . rcases halike herror with hnil | hcondition
      . exact absurd hnil hempty
      . rw [if_neg hempty, decide_eq_false hempty, Bool.false_or]
        rcases evalCondition_agrees hcondition hctx with ⟨b, hb, hb'⟩ | ⟨err, err', herr, herr'⟩
        . rw [hb, hb']
          cases b <;> rfl
        . rw [herr, herr']

section

variable {node : Node} {result : Engine.RunResult} {result' : RunResult} {state' : RunState}
  (h : SameResult result result' state')
include h

theorem handleError_agrees {keep : Option ℤ} {message : String} (halike : StepAlike py lowerExp node result.state (.error message))
    (hplain : ∀ edge ∈ node.edges, Plain edge.condition)
    : SameNext (Engine.handleError py keep node result "Error" message)
        (pass lowerExp node result' state' (.error message)) := by
  have hvisits := h.state.visits node.name
  have herrors := h.state.errors.increment halike.errors
  have hcount := herrors node.name
  have hexact : Engine.count (Engine.increment result.state.errors node.name) node.name < 2 ^ 53 := by
    rw [Engine.lookup_increment, if_pos rfl]
    exact halike.errors
  have hctx := sameCtx_error message hexact halike.visits
  rw [← hvisits, ← hcount] at hctx
  have hfind : (Engine.errorTarget py (Engine.errorContext "Error" message
        (Engine.count (Engine.increment result.state.errors node.name) node.name)
        (Engine.count result.state.visits node.name)) node.edges).1
      = (node.edges.find? (errorEdge (errorContext message (countOf (increment state'.errors node.name) node.name)
          (countOf state'.visits node.name)))).map Edge.target := by
    rw [errorTarget_find, List.find?_congr fun edge hedge =>
      errorEdge_eq hctx (hplain edge hedge) (halike.error edge hedge)]
  rw [Engine.handleError, pass, errorTier]
  dsimp only [Engine.countError]
  generalize Engine.errorTarget py _ node.edges = found at hfind
  rcases found with ⟨target, errs⟩
  dsimp only at hfind ⊢
  generalize node.edges.find? _ = edge at hfind
  cases edge with
  | none =>
    rw [Option.map_none] at hfind
    subst hfind
    exact .raise message
  | some edge =>
    rw [Option.map_some] at hfind
    subst hfind
    have hresult : SameResult (Engine.recordError keep node (Engine.countError node result) "Error" message errs) result'
        { state' with
          errors := increment state'.errors node.name
          transcript := state'.transcript ++ [.obj [("node", .str node.name),
            ("outcome", .str ("[error: Error: " ++ message ++ "]")), ("error", .bool true)]] } := by
      refine ⟨h.path, h.steps, h.stopped, h.pending, ?_, ?_⟩
      . rw [Engine.recordError_visits]
        exact h.state.visits
      . rw [Engine.recordError]
        dsimp only
        rw [Engine.boundTranscript_errors]
        exact herrors
    exact hresult.follow ⟨rfl, rfl, rfl, rfl, rfl⟩

omit h in
/-- The deterministic tier picks the same edge. -/
theorem firstDeterministic_eq {state : Engine.State} {reply : Reply} (halike : StepAlike py lowerExp node state reply)
    (hplain : ∀ edge ∈ node.edges, Plain edge.condition) {ctx : Predicates.Ctx} {ctx' : Ctx} (hctx : SameCtx ctx ctx')
    : Engine.firstDeterministic py node.edges ctx = firstDeterministic node.edges ctx' := by
  rw [Engine.firstDeterministic, firstDeterministic]
  refine List.find?_congr fun edge hedge => ?_
  rw [isDeterministic_eq (hplain edge hedge)]
  cases hdeterministic : Predicates.isDeterministic edge.condition with
  | false => rfl
  | true =>
    rw [Bool.true_and, Bool.true_and, Predicates.hit]
    rcases evalCondition_agrees (halike.deterministic edge hedge hdeterministic) hctx with
      ⟨b, hb, hb'⟩ | ⟨err, err', herr, herr'⟩
    . rw [hb, hb']
      cases b <;> rfl
    . rw [herr, herr']

omit h in
theorem normalize_agrees {v : Python.Value} (hstr : ∀ s, py.str (.str s) = s) (h : OutcomeAlike py lowerExp v)
    : ∃ text fields fields', Engine.normalize py v = (text, fields) ∧ normalize lowerExp (fromJson v) = (text, fields')
        ∧ SameFields fields fields' := by
  have htext := h.text
  cases v with
  | dict kvs =>
    have hfields := sameFields_dict h.comparable
    refine ⟨_, kvs, _, rfl, ?_, hfields⟩
    rw [fromJson, normalize, Value.objGet, hfields.get]
    rw [textOf] at htext
    cases hfound : kvs.lookup "text" with
    | none => rw [Option.map_none, Option.map_none, Option.getD_none, Option.getD_none, hstr]
    | some t => rw [Option.map_some, Option.map_some, Option.getD_some, Option.getD_some, htext t hfound]
  | fraction | bytes | ellipsis | imag => exact h.comparable.json.elim
  | _ =>
    refine ⟨_, _, _, rfl, ?_, sameFields_text _⟩
    rw [← htext _ rfl]
    rfl

theorem recordOutcome_agrees (keep : Option ℤ) (v : Python.Value) (text : String) (fields' : List (String × Value))
    : SameResult (Engine.recordOutcome py keep node result v) result' (recordOutcome node.name text fields' state') := by
  refine ⟨h.path, h.steps, h.stopped, h.pending, ?_, ?_⟩
  . rw [Engine.recordOutcome_visits]
    exact h.state.visits
  . rw [Engine.recordOutcome]
    dsimp only
    rw [Engine.boundTranscript_errors]
    exact h.state.errors

omit h in
theorem spawn_agrees {fields : List (String × Python.Value)} {fields' : List (String × Value)}
    (hfields : SameFields fields fields')
    : (((Value.objGet fields' "wait").map Value.pyTruthy).getD false
          || ((Value.objGet fields' "spawn").filter fun v => !isNull v).isSome) = Engine.waits fields
        ∧ (((Value.objGet fields' "spawn").filter fun v => !isNull v).getD .null)
          = fromJson (Engine.field fields "spawn") := by
  rw [hfields.truthy, Engine.waits, Value.objGet, hfields.get, Engine.field, Engine.field]
  cases hfound : fields.lookup "spawn" with
  | none => exact ⟨rfl, rfl⟩
  | some v =>
    have hnull := fromJson_null (hfields.comparable "spawn" v hfound).json
    rw [Option.map_some, Option.filter_some, hnull, Option.getD_some]
    cases v with
    | none => exact ⟨rfl, rfl⟩
    | _ => exact ⟨rfl, rfl⟩

/-- Waiting for a person. -/
theorem humanHandoff_agrees {fields : List (String × Python.Value)} {fields' : List (String × Value)}
    (hfields : SameFields fields fields') (text : String)
    (hneeds : (Engine.field fields "needs_human").truthy = true)
    : ∃ pending, humanHandoff lowerExp node.name text fields' node.edges = some pending
        ∧ SameResult (Engine.suspendHuman node result text fields)
          { result' with stopped := some .needsHuman, pending := some pending } state' := by
  rw [humanHandoff, hfields.truthy, if_pos hneeds]
  exact ⟨_, rfl, h.path, h.steps, rfl, .some ⟨rfl, rfl, rfl⟩, h.state⟩

/-- Waiting for an event. -/
theorem waitSuspend_agrees {fields : List (String × Python.Value)} {fields' : List (String × Value)}
    (hfields : SameFields fields fields') (hplain : ∀ edge ∈ node.edges, Plain edge.condition)
    : if Engine.waits fields then
        ∃ pending, waitSuspend node.name fields' node.edges = some pending
          ∧ SameResult (Engine.suspendWaiting node result fields)
            { result' with stopped := some .waiting, pending := some pending } state'
      else
        waitSuspend node.name fields' node.edges = none := by
  rcases spawn_agrees hfields with ⟨hwaits, hspawn⟩
  have hevents : node.edges.filter (fun edge => isEvent edge.condition) = Engine.eventEdges node := by
    rw [Engine.eventEdges]
    exact List.filter_congr fun edge hedge => isEvent_eq (hplain edge hedge)
  have hnames : (Engine.eventEdges node).map (fun edge => eventName edge.condition)
      = (Engine.eventEdges node).map fun edge => Predicates.eventName edge.condition := by
    refine List.map_congr_left fun edge hedge => eventName_eq (hplain edge ?_)
    exact (List.mem_filter.mp hedge).1
  rw [waitSuspend]
  dsimp only
  rw [hwaits, hevents, hnames]
  by_cases hwait : Engine.waits fields = true
  . rw [if_pos hwait, if_pos hwait]
    refine ⟨_, rfl, h.path, h.steps, rfl, .some ⟨rfl, rfl, rfl, rfl, ?_, hspawn⟩, h.state⟩
    exact (hfields.field "timeout_s").1
  . rw [if_neg hwait, if_neg hwait]

theorem handleOutcome_agrees {opts : Engine.Options} {keep : Option ℤ} {v : Python.Value} {router : Engine.Router}
    (hstr : ∀ s, py.str (.str s) = s) (hgate : opts.typeGate = false)
    (halike : StepAlike py lowerExp node result.state (.outcome v)) (hplain : ∀ edge ∈ node.edges, Plain edge.condition)
    (hsemantic : ∀ edge ∈ node.edges, Predicates.isSemantic edge.condition = false)
    : SameNext (Engine.handleOutcome py opts keep node result v router)
        (pass lowerExp node result' state' (.ok (fromJson v))) := by
  rcases normalize_agrees hstr (halike.outcome v rfl) with ⟨text, fields, fields', hpython, hrust, hfields⟩
  have hviolations : Engine.gateViolations py opts node fields = [] := by
    rw [Engine.gateViolations, hgate]
    rfl
  have hvisits : Engine.count (Engine.recordOutcome py keep node result v).state.visits node.name < 2 ^ 53 := by
    rw [Engine.recordOutcome_visits]
    exact halike.visits
  have hstuck : (Engine.semanticEdges node).isEmpty = true := by
    rw [Engine.semanticEdges, List.isEmpty_iff, List.filter_eq_nil_iff]
    exact fun edge hedge => by rw [hsemantic edge hedge]; exact Bool.false_ne_true
  have hresult := @recordOutcome_agrees py node result result' state' h keep v text fields'
  rw [Engine.handleOutcome, pass, hpython, hrust]
  dsimp only
  generalize Engine.recordOutcome py keep node result v = recorded at hresult hvisits
  generalize recordOutcome node.name text fields' state' = recorded' at hresult
  rw [hviolations, List.isEmpty_nil, Bool.not_true, if_neg Bool.false_ne_true]
  by_cases hneeds : (Engine.field fields "needs_human").truthy = true
  . rcases @humanHandoff_agrees lowerExp node _ _ _ hresult fields fields' hfields text hneeds with
      ⟨pending, hpending, hsame⟩
    rw [if_pos hneeds, hpending]
    exact .stop node.name hsame rfl
  rw [if_neg hneeds]
  have hhuman : humanHandoff lowerExp node.name text fields' node.edges = none := by
    rw [humanHandoff, hfields.truthy, if_neg hneeds]
  rw [hhuman]
  have hwait := @waitSuspend_agrees node _ _ _ hresult fields fields' hfields hplain
  by_cases hwaits : Engine.waits fields = true
  . rw [if_pos hwaits] at hwait
    rcases hwait with ⟨pending, hpending, hsame⟩
    rw [if_pos hwaits, hpending]
    exact .stop node.name hsame rfl
  rw [if_neg hwaits] at hwait
  rw [if_neg hwaits, hwait]
  dsimp only
  have hctx := hfields.context hvisits
  rw [← hresult.state.visits node.name] at hctx
  rw [routeOnce, ← firstDeterministic_eq halike hplain hctx]
  cases Engine.firstDeterministic py node.edges
    (Engine.context fields (Engine.count recorded.state.visits node.name)) with
  | some edge =>
    exact hresult.follow ⟨rfl, rfl, rfl, rfl, rfl⟩
  | none =>
    show SameNext (Engine.routeSemantic opts node recorded text router) _
    rw [Engine.routeSemantic, if_pos hstuck]
    exact .stop node.name ⟨hresult.path, hresult.steps, rfl, hresult.pending, hresult.state⟩ rfl

end

end Kernel

end Rust
