import PrismPath.Kernel.Analysis
import PrismPath.Kernel.FieldSpecs
import PrismPath.Kernel.Parser
import PrismPath.Lib.Process
import PrismPath.Lib.TarjanExact
import PrismPath.Workers.JoinPolicy

/-!
This module contains the strongly connected components of a graph, the checks of the static analysis about a graph and
what its front matter and its annotations declare, the run of all the checks, and that no check but two of them can
raise.
-/

namespace Analysis

open Parser

/-- The targets of `graph.nodes[name].edges`. -/
def targets (graph : Graph) (name : String) : List String :=
  match graph.get? name with
  | some node => node.edges.map Edge.target
  | none => []

/-- `_sccs`; `none` is a missing key or a search that is not over. -/
def sccs (graph : Graph) : Option (List (List String)) :=
  Tarjan.components (graph.nodes.map Node.name) (targets graph)

/-- An edge between two defined nodes. -/
def Leads (graph : Graph) (a b : String) : Prop :=
  ∃ node, graph.get? a = some node ∧ graph.contains b = true ∧ ∃ edge ∈ node.edges, edge.target = b

def Reaches (graph : Graph) : String → String → Prop :=
  Relation.ReflTransGen (Leads graph)

theorem contains_iff {graph : Graph} {name : String}
    : graph.contains name = true ↔ name ∈ graph.nodes.map Node.name := by
  rw [Graph.contains, Option.isSome_iff_exists, List.mem_map]
  constructor
  . rintro ⟨node, hnode⟩
    exact ⟨node, Graph.mem_of_get? hnode, Graph.name_of_get? hnode⟩
  . rintro ⟨node, hnode, rfl⟩
    exact ⟨node, Graph.get?_of_mem hnode⟩

theorem edge_iff_leads {graph : Graph} {a b : String}
    : Tarjan.Edge (graph.nodes.map Node.name) (targets graph) a b ↔ Leads graph a b := by
  unfold Tarjan.Edge Leads
  rw [← contains_iff, ← contains_iff, Graph.contains, Option.isSome_iff_exists]
  constructor
  . rintro ⟨⟨node, hnode⟩, hb, hin⟩
    rw [targets, hnode] at hin
    exact ⟨node, hnode, hb, List.mem_map.mp hin⟩
  . rintro ⟨node, hnode, hb, hin⟩
    refine ⟨⟨node, hnode⟩, hb, ?_⟩
    rw [targets, hnode]
    exact List.mem_map.mpr hin

theorem mutual_iff {graph : Graph} {a b : String}
    : Tarjan.Mutual (graph.nodes.map Node.name) (targets graph) a b ↔ Reaches graph a b ∧ Reaches graph b a := by
  have hedges : Tarjan.Edge (graph.nodes.map Node.name) (targets graph) = Leads graph := by
    funext a b
    exact propext edge_iff_leads
  rw [Tarjan.Mutual, Tarjan.Reach, hedges]
  rfl

/--
The search is over for every graph. Each node stands in one component only, the components hold nothing but nodes, and
two nodes share a component exactly where each reaches the other.
-/
theorem sccs_exact (graph : Graph)
    : ∃ found, sccs graph = some found ∧
        (∀ node ∈ graph.nodes, ∃! i : ℕ, ∃ comp, found[i]? = some comp ∧ node.name ∈ comp) ∧
        (∀ comp ∈ found, ∀ name ∈ comp, graph.contains name = true) ∧
        ∀ a b, graph.contains a = true → graph.contains b = true →
          ((∃ comp ∈ found, a ∈ comp ∧ b ∈ comp) ↔ Reaches graph a b ∧ Reaches graph b a) := by
  rcases Tarjan.components_exact (graph.nodes.map Node.name) (targets graph) with ⟨found, hfound, hone, hstrong⟩
  refine ⟨found, hfound, ?_, ?_, ?_⟩
  . intro node hnode
    exact hone node.name (List.mem_map_of_mem hnode)
  . intro comp hcomp name hname
    exact contains_iff.mpr (hstrong comp hcomp name hname).1
  . intro a b ha _
    rw [← mutual_iff]
    constructor
    . rintro ⟨comp, hcomp, hain, hbin⟩
      exact ((hstrong comp hcomp a hain).2 b).mp hbin
    . intro hmutual
      rcases hone a (contains_iff.mp ha) with ⟨i, ⟨comp, hi, hain⟩, _⟩
      have hcomp := List.mem_of_getElem? hi
      exact ⟨comp, hcomp, hain, ((hstrong comp hcomp a hain).2 b).mpr hmutual⟩

end Analysis

open Python

namespace Analysis

open Predicates Parser

/-- The order in which the runtime iterates over a set of names. -/
structure SetOrder where
  list : List String → List String
  perm : ∀ names, (list names).Perm names

/-- `graph.nodes[name]` -/
def nodeAt (graph : Graph) (name : String) : Except String Node :=
  match graph.get? name with
  | some node => .ok node
  | none => .error "KeyError"

/-- `sorted(names)` -/
def sortedNames (names : List String) : List String :=
  names.insertionSort fun a b => ¬ b < a

/- The structure. -/

def structureFindings (py : Runtime) (texts : Texts) (graph : Graph) (node : Node) : List Finding :=
  node.edges.flatMap fun edge =>
    (if graph.contains edge.target then
      []
    else
      [⟨.error, "undefined-target", some node.name, "edge -> '" ++ edge.target ++ "' points at an undefined node"⟩])
    ++ (checkPredicate py edge.condition).map fun problem =>
      ⟨.error, "unsafe-predicate", some node.name, texts.problem problem⟩

/-- `_check_structure` -/
def checkStructure (py : Runtime) (texts : Texts) (graph : Graph) : List Finding :=
  (if graph.contains graph.start then
    []
  else
    [⟨.error, "undefined-start", none, "start node '" ++ graph.start ++ "' is not defined"⟩])
  ++ graph.nodes.flatMap (structureFindings py texts graph)

/-- `_check_reachability` -/
def checkReachability (graph : Graph) : Except String (List Finding) :=
  if !graph.contains graph.start then
    .ok []
  else do
    let unreachable := (graph.nodes.filter fun node => node.name ∉ reachable graph).map fun node =>
      (⟨.warning, "unreachable-node", some node.name, "node is unreachable from the start node"⟩ : Finding)
    let reached ← (reachable graph).mapM (nodeAt graph)
    if reached.any Node.terminal then
      return unreachable
    else
      return unreachable ++ [⟨.error, "no-terminal", none,
        "no terminal node is reachable from the start - the flow can only end at max_steps"⟩]

/- The nodes before a node. -/

/-- `rev_adj.get(name, [])` -/
def parents (graph : Graph) (name : String) : List String :=
  (graph.nodes.filter fun node => node.edges.any fun edge => edge.target = name).map Node.name

/-- The names seen, and those of them that are still on the stack. -/
def pushParent (p : List String × List String) (parent : String) : List String × List String :=
  if parent ∈ p.1 then p else (parent :: p.1, parent :: p.2)

/-- The names seen once the stack is empty; `none` would be a loop that is not over. -/
def upstreamLoop (graph : Graph) : (fuel : ℕ) → (seen stack : List String) → Option (List String)
  | _, seen, [] => some seen
  | 0, _, _ :: _ => none
  | fuel + 1, seen, cur :: stack =>
    let (seen, stack) := (parents graph cur).foldl pushParent (seen, stack)
    upstreamLoop graph fuel seen stack

/-- The name itself, and each node once. -/
def upstreamFuel (graph : Graph) : ℕ :=
  1 + graph.nodes.length

/-- The nodes of `_upstream_nodes`, in the order they are iterated in. -/
def upstream (order : SetOrder) (graph : Graph) (name : String) : Except String (List Node) :=
  match upstreamLoop graph (upstreamFuel graph) [] [name] with
  | none => .error "out of fuel"
  | some seen => (order.list (seen.filter fun name => name ∈ reachable graph)).mapM (nodeAt graph)

/- What the nodes declare to emit. -/

/-- `node.annotations.get("emits")` -/
def emits? (node : Node) : Option (List (String × Option String)) :=
  node.annotations.lookup "emits"

/-- `declared_emits` -/
def declaredEmits (node : Node) : Option (List String) :=
  (emits? node).map (List.map Prod.fst)

def provenanceFindings (py : Runtime) (texts : Texts) (order : SetOrder) (graph : Graph) (node : Node)
    : Except String (List Finding) :=
  match declaredEmits node with
  | none => .ok []
  | some declared => do
    let upstreamDeclared := (← upstream order graph node.name).flatMap fun node => (declaredEmits node).getD []
    let undeclared := ((Contract.fieldSpecs py node).map Prod.fst).filter fun field =>
      field ∉ declared ∧ field ∉ upstreamDeclared
    return (sortedNames undeclared).map fun field =>
      ⟨.warning, "undeclared-field", some node.name,
        "a `when` edge reads field " ++ texts.repr field
          ++ ", but neither this node's `@emits` nor any upstream node's `@emits` declares it"⟩

/-- `_check_provenance` -/
def checkProvenance (py : Runtime) (texts : Texts) (order : SetOrder) (graph : Graph)
    : Except String (List Finding) := do
  let findings ← graph.nodes.mapM (provenanceFindings py texts order graph)
  return findings.flatten

inductive TypeFamily where
  | boolean
  | string
  | number
  deriving DecidableEq

def TypeFamily.text : TypeFamily → String
  | boolean => "boolean"
  | string => "string"
  | number => "number"

/-- `_EMIT_TYPE_FAMILY` -/
def emitTypeFamily : List (String × TypeFamily) :=
  [("bool", .boolean), ("boolean", .boolean), ("str", .string), ("string", .string), ("text", .string),
    ("int", .number), ("float", .number), ("num", .number), ("number", .number)]

/-- The family a declared token names, if it names one. -/
def familyOf (token : String) : Option TypeFamily :=
  if token = "" then none else emitTypeFamily.lookup (lower (strip token))

/-- `_derived_family` -/
def derivedFamily (spec : Contract.FieldSpec) : Option TypeFamily :=
  match spec.type with
  | .boolean => some .boolean
  | .number => some .number
  | .enum =>
    let values := spec.routedValues.getD []
    if !values.isEmpty && values.all Value.isStr then
      some .string
    else if !values.isEmpty && values.all Value.isNumber then
      some .number
    else
      none
  | .unknown => none

/-- The tokens a node declares, in the order of their fields. -/
def sortedEmits (node : Node) : List (String × Option String) :=
  ((emits? node).getD []).insertionSort fun a b => ¬ b.1 < a.1

def declaredTypeFindings (py : Runtime) (texts : Texts) (node : Node) : List Finding :=
  (sortedEmits node).filterMap fun (field, declared) => do
    let token ← declared
    let want ← familyOf token
    let spec ← (Contract.fieldSpecs py node).lookup field
    let derived ← derivedFamily spec
    if derived = want then
      none
    else
      some ⟨.warning, "emits-type-mismatch", some node.name,
        "`@emits(" ++ field ++ "=" ++ token ++ ")` declares " ++ want.text ++ ", but this node's `when` edges read "
          ++ texts.repr field ++ " as " ++ derived.text
          ++ " - the declaration and the predicates disagree (the type_gate enforces the inferred " ++ derived.text
          ++ ")"⟩

/-- The family each field is declared as before the node, and by which node. -/
def upstreamEmits (upstream : List Node) : List (String × TypeFamily × String) :=
  upstream.foldl (fun declared node =>
    ((emits? node).getD []).foldl (fun declared (field, token) =>
      match token.bind familyOf with
      | some want => Dict.set declared field (want, node.name)
      | none => declared) declared) []

def upstreamTypeFindings (py : Runtime) (texts : Texts) (node : Node) (upstream : List Node) : List Finding :=
  (Contract.fieldSpecs py node).filterMap fun (field, spec) =>
    if field ∈ (declaredEmits node).getD [] then
      none
    else do
      let (want, by') ← (upstreamEmits upstream).lookup field
      let derived ← derivedFamily spec
      if derived = want then
        none
      else
        some ⟨.warning, "upstream-type-mismatch", some node.name,
          "a `when` edge reads field " ++ texts.repr field ++ " as " ++ derived.text ++ ", but upstream node '" ++ by'
            ++ "' declares it as " ++ want.text
            ++ " via `@emits` - the downstream usage and upstream declaration disagree"⟩

def emitsTypeFindings (py : Runtime) (texts : Texts) (order : SetOrder) (graph : Graph) (node : Node)
    : Except String (List Finding) := do
  let before ← upstream order graph node.name
  return declaredTypeFindings py texts node ++ upstreamTypeFindings py texts node before

/-- `_check_emits_types` -/
def checkEmitsTypes (py : Runtime) (texts : Texts) (order : SetOrder) (graph : Graph)
    : Except String (List Finding) := do
  let findings ← graph.nodes.mapM (emitsTypeFindings py texts order graph)
  return findings.flatten

/- Annotated nodes. -/

def fieldOnlyFindings (texts : Texts) (node : Node) : List Finding :=
  if (node.annotations.lookup "field_only").isNone then
    []
  else
    ((Engine.semanticEdges node).map fun edge =>
      ⟨.error, "field-only-violation", some node.name,
        "`@field_only` node routes on RAW TEXT via a semantic edge -> " ++ texts.repr edge.target ++ " ("
          ++ texts.repr edge.condition
          ++ "); field-only nodes may route only on declared structured fields (`when`/error/event edges)"⟩)
    ++ if (declaredEmits node).isNone then
        [⟨.error, "field-only-violation", some node.name,
          "`@field_only` node has no `@emits` declaration - nothing constrains what the worker may emit, so "
            ++ "'field-only' cannot be enforced"⟩]
      else
        []

/-- `_check_field_only` -/
def checkFieldOnly (texts : Texts) (graph : Graph) : List Finding :=
  graph.nodes.flatMap (fieldOnlyFindings texts)

def joinEventName : JoinEvent → String
  | .allDone => "all_done"
  | .any => "any"
  | .quorum => "quorum"

/-- `spawn.get(key) or default` -/
def argument (args : List (String × Option String)) (key default : String) : String :=
  match (args.lookup key).join with
  | some text => if text = "" then default else text
  | none => default

def spawnFindings (texts : Texts) (node : Node) : List Finding :=
  match node.annotations.lookup "spawn" with
  | none => []
  | some spawn =>
    let join := argument spawn "join" "all_done"
    let want := joinEventName (Composer.spawnJoinEvent join.toList)
    let awaited := (Engine.eventEdges node).map fun edge => eventName edge.condition
    (if argument spawn "child" "" = "" then
      [⟨.error, "spawn-no-child", some node.name,
        "`@spawn` requires `child=<flow.md>` naming the sub-flow to run per item"⟩]
    else
      [])
    ++ if want ∈ awaited then
        []
      else
        [⟨.error, "spawn-no-join-edge", some node.name,
          "`@spawn` declares join=" ++ texts.repr join ++ " but the node has no `on event " ++ want
            ++ "` edge - it would suspend forever; add `-> <next>: on event " ++ want ++ "`"⟩]

/-- `_check_spawn` -/
def checkSpawn (texts : Texts) (graph : Graph) : List Finding :=
  graph.nodes.flatMap (spawnFindings texts)

def terminalBodyFindings (node : Node) : List Finding :=
  let body := strip node.instruction
  if node.terminal && 200 < body.length then
    [⟨.warning, "terminal-with-body", some node.name,
      "terminal node has a non-trivial instruction body (" ++ toString body.length
        ++ " chars, threshold > 200 chars); terminal nodes are never executed by the engine"⟩]
  else
    []

/-- `_check_terminal_body` -/
def checkTerminalBody (graph : Graph) : List Finding :=
  graph.nodes.flatMap terminalBodyFindings

/- Profiles the front matter declares. -/

/-- `graph.meta.get(key, "").strip()` -/
def declared (frontMatter : List (String × String)) (key : String) : String :=
  strip ((frontMatter.lookup key).getD "")

def spiralFindings (py : Runtime) (node : Node) : List Finding :=
  let det := deterministicEdges node
  if det.isEmpty then
    []
  else
    let baselines := (det.zipIdx.filter fun (edge, _) => isAlwaysTrue py edge.condition).map Prod.snd
    (match baselines.getLast? with
      | none =>
        [⟨.error, "spiral-no-baseline", some node.name,
          "packing: spiral requires a baseline catch-all as this node's last deterministic edge - without one the "
            ++ "spiral's dense center is the last specific branch, not the baseline, and unrouted cells fall "
            ++ "outermost (severity order is edge order under this profile)"⟩]
      | some last =>
        if last = det.length - 1 then
          []
        else
          [⟨.error, "spiral-baseline-not-last", some node.name,
            "packing: spiral requires the baseline catch-all LAST; edge " ++ toString (last + 1) ++ " of "
              ++ toString det.length ++ " is a catch-all with specific branches after it - the layout reverses edge "
              ++ "order, so a non-final baseline puts a specific branch at the dense center"⟩])
    ++ if 1 < baselines.length then
        [⟨.warning, "spiral-multi-baseline", some node.name,
          "multiple catch-all edges: the earlier one shadows the later, and only the FINAL deterministic edge is the "
            ++ "spiral's center band"⟩]
      else
        []

/-- `_check_spiral_profile` -/
def checkSpiralProfile (py : Runtime) (graph : Graph) (frontMatter : List (String × String)) : List Finding :=
  if lower (declared frontMatter "packing") ≠ "spiral" then [] else graph.nodes.flatMap (spiralFindings py)

/-- The milliseconds under a key, or `none` for a text that is not a positive integer. -/
def milliseconds (py : Runtime) (texts : Texts) (raw : String) : Except String (Option ℤ) :=
  if !texts.isDigit raw then
    .ok none
  else
    match py.int raw with
    | none => .error "ValueError"
    | some n => .ok (if n ≤ 0 then none else some n)

def badParam (texts : Texts) (key raw : String) : Finding :=
  ⟨.error, "refresh-bad-param", none,
    key ++ " must be a positive integer (milliseconds); got " ++ texts.repr raw⟩

def missingParam (key : String) : Finding :=
  ⟨.error, "refresh-missing-param", none,
    "refresh profile declared but " ++ key
      ++ " is missing - both refresh_keyframe_ms and refresh_stale_ms are required"⟩

def refreshBounds (keyframe stale : ℤ) : List Finding :=
  if stale < keyframe then
    [⟨.error, "refresh-stale-bound", none,
      "refresh_stale_ms (" ++ toString stale ++ ") < refresh_keyframe_ms (" ++ toString keyframe
        ++ "): a lossless link would trip stale between keyframes - the bound is unsatisfiable by a conforming sender"⟩]
  else if stale < 2 * keyframe then
    [⟨.warning, "refresh-stale-tight", none,
      "refresh_stale_ms (" ++ toString stale ++ ") < 2 * refresh_keyframe_ms (" ++ toString keyframe
        ++ "): a single lost keyframe parks the consumer on the fail-safe; intended only for links where that "
        ++ "aggressiveness is the point"⟩]
  else
    []

def refreshFindings (py : Runtime) (texts : Texts) (keyframe stale : String) : Except String (List Finding) := do
  let kf ← milliseconds py texts (strip keyframe)
  let st ← milliseconds py texts (strip stale)
  match kf, st with
  | some kf, some st => return refreshBounds kf st
  | _, _ =>
    return (if kf.isNone then [badParam texts "refresh_keyframe_ms" (strip keyframe)] else [])
      ++ if st.isNone then [badParam texts "refresh_stale_ms" (strip stale)] else []

/-- `_check_refresh_profile` -/
def checkRefreshProfile (py : Runtime) (texts : Texts) (frontMatter : List (String × String))
    : Except String (List Finding) :=
  match frontMatter.lookup "refresh_keyframe_ms", frontMatter.lookup "refresh_stale_ms" with
  | none, none => .ok []
  | some _, none => .ok [missingParam "refresh_stale_ms"]
  | none, some _ => .ok [missingParam "refresh_keyframe_ms"]
  | some keyframe, some stale => refreshFindings py texts keyframe stale

/-- `text.split("=", 1)[0]` -/
def beforeEquals (text : String) : String :=
  String.ofList (text.toList.takeWhile (· ≠ '='))

/-- `_check_stateful_migration` -/
def checkStatefulMigration (frontMatter : List (String × String)) : List Finding :=
  let migration := lower (strip (beforeEquals (declared frontMatter "migration")))
  if lower (declared frontMatter "stateful") ∈ ["true", "1", "yes"] then
    if migration ∈ ["by-name", "reset-to"] then
      []
    else
      [⟨.error, "stateful-migration-undeclared", none,
        "a `stateful: true` policy must declare `migration: by-name` or `migration: reset-to` - a resident node index "
          ++ "carried across a signed hot-swap reinterprets the posture; declare how state migrates or resets"⟩]
  else if declared frontMatter "safe" ≠ "" ∨ migration ≠ "" then
    [⟨.warning, "stateless-with-resident-fields", none,
      "this policy is stateless (no `stateful: true`) but declares resident-state fields (`safe:`/`migration:`); they "
        ++ "are inert on the self-healing base - remove them, or declare `stateful: true` to opt into the resident-FSM "
        ++ "layer"⟩]
  else
    []

/- Cycles. -/

/-- `_references_visits` -/
def referencesVisits (py : Runtime) (condition : String) : Bool :=
  match exprAst py condition with
  | some tree => "visits" ∈ tree.names
  | none => false

/-- `_has_self_loop` -/
def hasSelfLoop (node : Node) : Bool :=
  node.edges.any fun edge => edge.target = node.name

def cycleFindings (py : Runtime) (graph : Graph) (comp : List String) : Except String (List Finding) := do
  let members ← comp.mapM (nodeAt graph)
  if !(1 < comp.length || members.any hasSelfLoop) then
    return []
  else if members.any fun node => node.edges.any fun edge => referencesVisits py edge.condition then
    return []
  else
    return [⟨.warning, "unbounded-cycle", (sortedNames comp).head?,
      "cycle (" ++ ", ".intercalate (sortedNames comp) ++ ") has no `visits`-based cap - it is bounded only by "
        ++ "max_steps; add e.g. `-> give_up: when visits > N`"⟩]

/-- `_check_cycles` -/
def checkCycles (py : Runtime) (graph : Graph) : Except String (List Finding) :=
  match sccs graph with
  | none => .error "KeyError"
  | some comps => do
    let findings ← comps.mapM (cycleFindings py graph)
    return findings.flatten

/- All the checks. -/

/-- The order of the sort key `(severity != "error", code, node or "")`. -/
def Finding.precedes (a b : Finding) : Bool :=
  if a.severity ≠ b.severity then
    a.severity = .error
  else if a.code ≠ b.code then
    a.code < b.code
  else
    ¬ b.node.getD "" < a.node.getD ""

def sortFindings (findings : List Finding) : List Finding :=
  findings.insertionSort fun a b => a.precedes b

/-- What the checks found, in the order they are run in. -/
def gather (py : Runtime) (texts : Texts) (graph : Graph) (frontMatter : List (String × String))
    (reachability provenance emitsTypes refresh cycles deadAndDup : List Finding) : List Finding :=
  checkStructure py texts graph ++ reachability ++ checkStuck py graph ++ checkShadowing py graph
    ++ checkEventShadowing graph ++ checkErrorShadowing graph ++ provenance ++ emitsTypes ++ checkFieldOnly texts graph
    ++ checkSpawn texts graph ++ checkSpiralProfile py graph frontMatter ++ refresh
    ++ checkStatefulMigration frontMatter ++ cycles ++ deadAndDup ++ checkTerminalBody graph

/-- `analyze` -/
def analyze (py : Runtime) (texts : Texts) (order : SetOrder) (graph : Graph) (frontMatter : List (String × String))
    : Except String (List Finding) := do
  let reachability ← checkReachability graph
  let provenance ← checkProvenance py texts order graph
  let emitsTypes ← checkEmitsTypes py texts order graph
  let refresh ← checkRefreshProfile py texts frontMatter
  let cycles ← checkCycles py graph
  let deadAndDup ← checkDeadAndDup py texts graph
  return sortFindings
    (gather py texts graph frontMatter reachability provenance emitsTypes refresh cycles deadAndDup)

/- The checks that cannot raise. -/

theorem nodeAt_eq_ok {graph : Graph} {name : String} (h : graph.contains name = true)
    : ∃ node, nodeAt graph name = .ok node := by
  rcases Option.isSome_iff_exists.mp h with ⟨node, hnode⟩
  exact ⟨node, by rw [nodeAt, hnode]⟩

theorem mapM_nodeAt {graph : Graph} {names : List String} (h : ∀ name ∈ names, graph.contains name = true)
    : ∃ nodes, names.mapM (nodeAt graph) = .ok nodes :=
  Except.mapM_isOk_iff.mpr fun name hname => nodeAt_eq_ok (h name hname)

theorem reachLoop_contains {graph : Graph} {fuel : ℕ} {seen stack result : List String}
    (h : reachLoop graph fuel seen stack = some result) (hseen : ∀ name ∈ seen, graph.contains name = true)
    : ∀ name ∈ result, graph.contains name = true := by
  induction fuel generalizing seen stack with
  | zero =>
    cases stack with
    | nil =>
      cases h
      exact hseen
    | cons cur stack => cases h
  | succ fuel ih =>
    cases stack with
    | nil =>
      cases h
      exact hseen
    | cons cur stack =>
      rw [reachLoop] at h
      split at h
      . exact ih h hseen
      . cases hcur : graph.get? cur with
        | none =>
          rw [hcur] at h
          exact ih h hseen
        | some node =>
          rw [hcur] at h
          apply ih h
          rw [List.forall_mem_cons]
          exact ⟨by rw [Graph.contains, hcur]; rfl, hseen⟩

/-- Only nodes are reachable. -/
theorem contains_of_reachable {graph : Graph}
    : ∀ name ∈ reachable graph, graph.contains name = true :=
  reachLoop_contains (reachLoop_start graph) (fun _ h => by cases h)

theorem checkReachability_isOk (graph : Graph)
    : ∃ findings, checkReachability graph = .ok findings := by
  unfold checkReachability
  split
  . exact ⟨[], rfl⟩
  . rcases @mapM_nodeAt graph (reachable graph) contains_of_reachable with ⟨nodes, hnodes⟩
    rw [hnodes]
    simp only [bind, Except.bind]
    split
    . exact ⟨_, rfl⟩
    . exact ⟨_, rfl⟩

/-- The nodes that were not seen yet. -/
def unseen (graph : Graph) (seen : List String) : ℕ :=
  ((graph.nodes.map Node.name).filter fun name => name ∉ seen).length

theorem unseen_cons_lt {graph : Graph} {seen : List String} {name : String} (hmem : name ∈ graph.nodes.map Node.name)
    (hnew : name ∉ seen)
    : unseen graph (name :: seen) < unseen graph seen := by
  have hfilter : (graph.nodes.map Node.name).filter (fun other => other ∉ name :: seen)
      = ((graph.nodes.map Node.name).filter fun other => other ∉ seen).filter fun other => other ≠ name := by
    rw [List.filter_filter]
    apply List.filter_congr
    intro other _
    simp
  unfold unseen
  rw [hfilter, List.length_filter_lt_length_iff_exists]
  exact ⟨name, List.mem_filter.mpr ⟨hmem, by simpa using hnew⟩, by simp⟩

/-- What is pushed was not seen before. -/
theorem foldl_pushParent_le {graph : Graph} {names : List String}
    (hnames : ∀ name ∈ names, name ∈ graph.nodes.map Node.name) (p : List String × List String)
    : (names.foldl pushParent p).2.length + unseen graph (names.foldl pushParent p).1
        ≤ p.2.length + unseen graph p.1 := by
  induction names generalizing p with
  | nil => exact le_refl _
  | cons name names ih =>
    rw [List.forall_mem_cons] at hnames
    rw [List.foldl_cons]
    apply (ih hnames.2 _).trans
    unfold pushParent
    split
    . exact le_refl _
    . next hnew =>
      have hlt := unseen_cons_lt hnames.1 hnew
      simp only [List.length_cons]
      omega

theorem upstreamLoop_isSome {graph : Graph} {fuel : ℕ} {seen stack : List String}
    (h : stack.length + unseen graph seen ≤ fuel)
    : ∃ result, upstreamLoop graph fuel seen stack = some result := by
  induction fuel generalizing seen stack with
  | zero =>
    cases stack with
    | nil => exact ⟨seen, by rw [upstreamLoop]⟩
    | cons cur stack => simp at h
  | succ fuel ih =>
    cases stack with
    | nil => exact ⟨seen, by rw [upstreamLoop]⟩
    | cons cur stack =>
      have hparents : ∀ name ∈ parents graph cur, name ∈ graph.nodes.map Node.name := by
        intro name hname
        rcases List.mem_map.mp hname with ⟨node, hnode, rfl⟩
        exact List.mem_map_of_mem (List.mem_of_mem_filter hnode)
      have hle := foldl_pushParent_le hparents (seen, stack)
      rw [List.length_cons] at h
      rw [upstreamLoop]
      apply ih
      simp only at hle
      omega

theorem upstream_isOk (order : SetOrder) (graph : Graph) (name : String)
    : ∃ nodes, upstream order graph name = .ok nodes := by
  have hfuel : [name].length + unseen graph [] ≤ upstreamFuel graph := by
    have hle : unseen graph [] ≤ (graph.nodes.map Node.name).length := List.length_filter_le _ _
    rw [List.length_map] at hle
    rw [upstreamFuel, List.length_singleton]
    omega
  rcases upstreamLoop_isSome hfuel with ⟨seen, hseen⟩
  unfold upstream
  rw [hseen]
  apply mapM_nodeAt
  intro other hother
  have hmem := (order.perm _).mem_iff.mp hother
  rw [List.mem_filter, decide_eq_true_eq] at hmem
  exact contains_of_reachable other hmem.2

theorem checkProvenance_isOk (py : Runtime) (texts : Texts) (order : SetOrder) (graph : Graph)
    : ∃ findings, checkProvenance py texts order graph = .ok findings := by
  have hnode : ∀ node ∈ graph.nodes, ∃ findings, provenanceFindings py texts order graph node = .ok findings := by
    intro node _
    unfold provenanceFindings
    split
    . exact ⟨[], rfl⟩
    . rcases upstream_isOk order graph node.name with ⟨before, hbefore⟩
      rw [hbefore]
      exact ⟨_, rfl⟩
  rcases Except.mapM_isOk_iff.mpr hnode with ⟨findings, hfindings⟩
  exact ⟨findings.flatten, by rw [checkProvenance, hfindings]; rfl⟩

theorem checkEmitsTypes_isOk (py : Runtime) (texts : Texts) (order : SetOrder) (graph : Graph)
    : ∃ findings, checkEmitsTypes py texts order graph = .ok findings := by
  have hnode : ∀ node ∈ graph.nodes, ∃ findings, emitsTypeFindings py texts order graph node = .ok findings := by
    intro node _
    rcases upstream_isOk order graph node.name with ⟨before, hbefore⟩
    exact ⟨_, by rw [emitsTypeFindings, hbefore]; rfl⟩
  rcases Except.mapM_isOk_iff.mpr hnode with ⟨findings, hfindings⟩
  exact ⟨findings.flatten, by rw [checkEmitsTypes, hfindings]; rfl⟩

theorem checkCycles_isOk (py : Runtime) (graph : Graph)
    : ∃ findings, checkCycles py graph = .ok findings := by
  rcases sccs_exact graph with ⟨comps, hcomps, _, hnodes, _⟩
  have hcomp : ∀ comp ∈ comps, ∃ findings, cycleFindings py graph comp = .ok findings := by
    intro comp hmem
    rcases mapM_nodeAt (hnodes comp hmem) with ⟨members, hmembers⟩
    unfold cycleFindings
    rw [hmembers]
    simp only [bind, Except.bind]
    split
    . exact ⟨_, rfl⟩
    . split
      . exact ⟨_, rfl⟩
      . exact ⟨_, rfl⟩
  rcases Except.mapM_isOk_iff.mpr hcomp with ⟨findings, hfindings⟩
  exact ⟨findings.flatten, by rw [checkCycles, hcomps]; simp only [hfindings, bind, Except.bind]; rfl⟩

/-- `int` reads a text of digits. -/
def readsDigits (py : Runtime) (texts : Texts) (raw : String) : Prop :=
  texts.isDigit (strip raw) = true → (py.int (strip raw)).isSome = true

theorem milliseconds_isOk_iff {py : Runtime} {texts : Texts} {raw : String}
    : (∃ value, milliseconds py texts (strip raw) = .ok value) ↔ readsDigits py texts raw := by
  unfold milliseconds readsDigits
  cases texts.isDigit (strip raw) with
  | false => exact ⟨fun _ h => (by cases h), fun _ => ⟨none, rfl⟩⟩
  | true =>
    cases py.int (strip raw) with
    | none =>
      constructor
      . rintro ⟨_, h⟩
        cases h
      . intro h
        cases h rfl
    | some n => exact ⟨fun _ _ => rfl, fun _ => ⟨_, rfl⟩⟩

/-- Where both keys of the refresh profile are declared, `int` reads those of the two that are digits. -/
def ReadableRefresh (py : Runtime) (texts : Texts) (frontMatter : List (String × String)) : Prop :=
  ∀ keyframe stale, frontMatter.lookup "refresh_keyframe_ms" = some keyframe →
    frontMatter.lookup "refresh_stale_ms" = some stale →
    readsDigits py texts keyframe ∧ readsDigits py texts stale

theorem refreshFindings_isOk_iff {py : Runtime} {texts : Texts} {keyframe stale : String}
    : (∃ findings, refreshFindings py texts keyframe stale = .ok findings)
        ↔ readsDigits py texts keyframe ∧ readsDigits py texts stale := by
  rw [← milliseconds_isOk_iff, ← milliseconds_isOk_iff]
  unfold refreshFindings
  constructor
  . rintro ⟨_, h⟩
    rcases Except.bind_eq_ok.mp h with ⟨kf, hkf, h⟩
    rcases Except.bind_eq_ok.mp h with ⟨st, hst, _⟩
    exact ⟨⟨kf, hkf⟩, st, hst⟩
  . rintro ⟨⟨kf, hkf⟩, st, hst⟩
    rw [hkf, hst]
    cases kf <;> cases st <;> exact ⟨_, rfl⟩

theorem checkRefreshProfile_isOk_iff {py : Runtime} {texts : Texts} {frontMatter : List (String × String)}
    : (∃ findings, checkRefreshProfile py texts frontMatter = .ok findings)
        ↔ ReadableRefresh py texts frontMatter := by
  unfold checkRefreshProfile ReadableRefresh
  cases hkeyframe : frontMatter.lookup "refresh_keyframe_ms" with
  | none =>
    refine ⟨fun _ _ _ h => (by cases h), fun _ => ?_⟩
    cases frontMatter.lookup "refresh_stale_ms" <;> exact ⟨_, rfl⟩
  | some keyframe =>
    cases hstale : frontMatter.lookup "refresh_stale_ms" with
    | none => exact ⟨fun _ _ _ _ h => (by cases h), fun _ => ⟨_, rfl⟩⟩
    | some stale =>
      simp only
      rw [refreshFindings_isOk_iff]
      constructor
      . intro h _ _ hk hs
        cases hk
        cases hs
        exact h
      . exact fun h => h keyframe stale rfl rfl

end Analysis
