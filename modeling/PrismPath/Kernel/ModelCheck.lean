import PrismPath.Kernel.Engine
import PrismPath.Kernel.LevelM
import PrismPath.Lib.Search
import PrismPath.Python.Number

/-!
This module contains the reachability checker: the candidate outcomes of a node, the edges they can take,
and the search over nodes and saturated visit counters.
-/

open Python

namespace ModelCheck

open Predicates LevelM Parser Engine

/-- A string meant to equal no authored literal. -/
def freshStr : String :=
  "\x00fresh"

/-- The type's name with the value, every NaN being the same one. -/
def sameKey (v w : Value) : Bool :=
  v.typeName = w.typeName && (v.scalarEq w || (v.isFloat && !v.scalarEq v && !w.scalarEq w))

/-- The distinct numbers among the constants, in increasing order. -/
def numbers (consts : List Value) : List Value :=
  (dedupBy Value.eq (consts.filter Value.isNumber)).insertionSort Value.numLe

def poles : List Value :=
  [.none, .bool true, .bool false, .int 0, .int 1, .str "", .str freshStr]

def neighbours (num : Value) : List Value :=
  (num.shift (-1)).toList ++ (num.shift 1).toList

/-- The candidate set of a list of constants; `none` is the `OverflowError` of a midpoint. -/
def candidates (consts : List Value) : Option (List Value) :=
  let nums := numbers consts
  ((nums.zip nums.tail).mapM fun p : Value × Value => p.1.midpoint p.2).map fun midpoints =>
    dedupBy sameKey (poles ++ consts ++ nums.flatMap neighbours ++ midpoints)

def productCap : Nat := 50000

/-- Values for some of the fields. -/
abbrev Assignment : Type := List (String × Value)

structure NodeSat where
  /-- The deterministic edges with their indices, in document order. -/
  det : List (Nat × Edge)
  fields : List String
  cands : List Value
  complete : Bool

/-- All ways to give each field one of the values, the last field varying fastest. -/
def assignments (cands : List Value) : List String → List Assignment
  | [] => [[]]
  | field :: fields =>
    cands.flatMap fun v => (assignments cands fields).map fun rest => (field, v) :: rest

def NodeSat.contexts (sat : NodeSat) : List Assignment :=
  if productCap < sat.cands.length ^ sat.fields.length then [] else assignments sat.cands sat.fields

def indexed (edges : List Edge) : List (Nat × Edge) :=
  edges.zipIdx.map Prod.swap

def detEdges (node : Node) : List (Nat × Edge) :=
  (indexed node.edges).filter fun p => isDeterministic p.2.condition

/-- The conditions a node's candidates are made for. -/
def conditions (node : Node) (assume : Option String) : List String :=
  (detEdges node).map (fun p => p.2.condition) ++ assume.toList

def trees (py : Runtime) (node : Node) (assume : Option String) : List Expr :=
  (conditions node assume).filterMap (exprAst py)

/-- All constants the conditions of a node mention. -/
def constantsAt (py : Runtime) (node : Node) (assume : Option String) : List Value :=
  (trees py node assume).flatMap Expr.constants

/-- The fields the conditions of a node read; `visits` is modelled by the search itself. -/
def fieldsAt (py : Runtime) (node : Node) (assume : Option String) : List String :=
  let names := (trees py node assume).flatMap Expr.names
  (names.dedup.filter (· ≠ "visits")).insertionSort fun a b => ¬ b < a

/-- Whether the conditions of a node that parse are in the fragment. -/
def fragmentOnly (py : Runtime) (node : Node) (assume : Option String) : Bool :=
  (conditions node assume).all fun cond => (exprAst py cond).isNone || isLevelM py cond

def nodeSat (py : Runtime) (node : Node) (assume : Option String) : Option NodeSat :=
  (candidates (constantsAt py node assume)).map fun cands =>
    let fields := fieldsAt py node assume
    {
      det := detEdges node
      fields := fields
      cands := cands
      complete := fragmentOnly py node assume && cands.length ^ fields.length ≤ productCap
    }

/-- What is known of no deterministic edge matching: it cannot happen, it may, or a sample of it. -/
inductive NoneMatch where
  | never
  | unknown
  | sample (ctx : Assignment)

structure EdgeOutcomes where
  takeable : List (Nat × Assignment)
  noneMatch : NoneMatch

def admits (py : Runtime) (assume : Option String) (ctx : Ctx) : Bool :=
  match assume with
  | none => true
  | some cond => hit py cond ctx

def firstMatch (py : Runtime) (det : List (Nat × Edge)) (ctx : Ctx) : Option Nat :=
  (det.find? fun p => hit py p.2.condition ctx).map Prod.fst

/-- Keeping the first sample of every edge. -/
def addTakeable (takeable : List (Nat × Assignment)) (sample : Nat × Assignment)
    : List (Nat × Assignment) :=
  if takeable.any fun p => p.1 = sample.1 then takeable else takeable ++ [sample]

def edgeOutcomes (py : Runtime) (sat : NodeSat) (assume : Option String) (visits : Nat) : EdgeOutcomes :=
  let admitted := sat.contexts.filter fun a => admits py assume (context a visits)
  let matchOf := fun a => firstMatch py sat.det (context a visits)
  if sat.contexts.isEmpty then
    ⟨[], .unknown⟩
  else
    {
      takeable := (admitted.filterMap fun a => (matchOf a).map fun index => (index, a)).foldl addTakeable []
      noneMatch :=
        match admitted.find? fun a => (matchOf a).isNone with
        | some a => .sample a
        | none => if sat.complete then .never else .unknown
    }

inductive Via where
  | deterministic
  | semantic
  | error
  | event
  deriving DecidableEq

structure Step where
  node : String
  target : String
  condition : String
  via : Via
  /-- A concrete outcome that takes the edge. -/
  exampleCtx : Option Assignment

/-- The condition whose reads of `visits` count for an edge; a bare error edge has none. -/
def guardOf (condition : String) : Option String :=
  if isError condition then
    let expr := errorExpr condition
    if expr = "" then
      none
    else
      some (if startsWith (lower expr) "when " then expr else "when " ++ expr)
  else
    some condition

/-- The conditions of a node that read `visits`. -/
def visitReads (py : Runtime) (node : Node) : List Expr :=
  node.edges.filterMap fun edge =>
    ((guardOf edge.condition).bind (exprAst py)).filter fun tree => "visits" ∈ tree.names

/-- `max(nums)`, or 0. -/
def maxNumber : List Value → Value
  | [] => .int 0
  | num :: nums => nums.foldl (fun best v => if v.order .gt best = some true then v else best) num

def comparedMax (tree : Expr) : Option ℤ :=
  (maxNumber (tree.constants.filter Value.isNumber)).truncate

/-- The saturation cap of a node that reads `visits`; the outer `none` is the `OverflowError`. -/
def nodeCap (py : Runtime) (node : Node) : Option (Option Nat) :=
  ((visitReads py node).mapM comparedMax).map fun maxes =>
    if maxes.isEmpty then none else some ((maxes.foldl max 0).toNat + 2)

/-- The tracked nodes with their caps. -/
def visitCaps (py : Runtime) (graph : Graph) : Option (List (String × Nat)) :=
  (graph.nodes.mapM fun node => (nodeCap py node).map fun cap => (node.name, cap)).map fun caps =>
    caps.filterMap fun (name, cap) => cap.map fun c => (name, c)

abbrev Counts : Type := List (String × Nat)

/-- A node, and the saturated visit counts of the tracked nodes, in the order of their names. -/
abbrev SearchState : Type := String × Counts

def bump (caps : Counts) (counts : Counts) (node : String) : Counts :=
  match caps.lookup node with
  | none => counts
  | some cap => Dict.setSorted counts node (min (count counts node + 1) cap)

abbrev Move : Type := Search.Move SearchState Step

def edgeMoves (caps counts : Counts) (via : Via) (node : Node) (exampleCtx : Option Assignment)
    (p : Edge → Bool) : List Move :=
  (node.edges.filter p).map fun edge => {
    target := (edge.target, bump caps counts edge.target)
    certain := false
    label := ⟨node.name, edge.target, edge.condition, via, exampleCtx⟩
  }

def detMove (caps counts : Counts) (node : Node) (exampleCtx : Option Assignment) (edge : Edge) : Move where
  target := (edge.target, bump caps counts edge.target)
  certain := exampleCtx.isSome
  label := ⟨node.name, edge.target, edge.condition, .deterministic, exampleCtx⟩

/-- The moves by deterministic edges: those with a sample, then the ones the samples may have missed. -/
def detMoves (caps counts : Counts) (node : Node) (sat : NodeSat) (takeable : List (Nat × Assignment))
    : List Move :=
  let taken := takeable.filterMap fun p => node.edges[p.1]?.map (detMove caps counts node (some p.2))
  let missed := (sat.det.filter fun p => !takeable.any fun q => q.1 = p.1).map fun p =>
    detMove caps counts node none p.2
  if sat.complete then taken else taken ++ missed

def semanticMoves (caps counts : Counts) (node : Node) : NoneMatch → List Move
  | .never => []
  | .unknown => edgeMoves caps counts .semantic node none fun edge => isSemantic edge.condition
  | .sample a => edgeMoves caps counts .semantic node (some a) fun edge => isSemantic edge.condition

/-- Which tiers the search follows besides routing. -/
structure Tiers where
  errors : Bool := true
  events : Bool := true

def nodeMoves (py : Runtime) (tiers : Tiers) (caps : Counts) (assume : Option String) (node : Node)
    (sat : NodeSat) (counts : Counts) : List Move :=
  let visits := (counts.lookup node.name).getD 1
  let outcomes := edgeOutcomes py sat assume visits
  detMoves caps counts node sat outcomes.takeable
    ++ semanticMoves caps counts node outcomes.noneMatch
    ++ (if tiers.errors then
          edgeMoves caps counts .error node none fun edge => isError edge.condition
        else [])
    ++ (if tiers.events then
          edgeMoves caps counts .event node none fun edge => isEvent edge.condition
        else [])

def moves (py : Runtime) (tiers : Tiers) (graph : Graph) (caps : Counts) (sats : List (String × NodeSat))
    (assume : Option String) (state : SearchState) : List Move :=
  match graph.get? state.1, sats.lookup state.1 with
  | some node, some sat =>
    (nodeMoves py tiers caps assume node sat state.2).filter fun m => graph.contains m.label.target
  | _, _ => []

/-- `when ` in front of an assumption that lacks it. -/
def normalizeAssume (assume : String) : String :=
  if startsWith (lower (strip assume)) "when " then assume else "when " ++ assume

inductive Reachable where
  | yes
  | may
  | no
  deriving DecidableEq

/-- `witness` is `none` if the reconstruction does not come to an end. -/
structure ReachResult where
  node : String
  reachable : Reachable
  proven : Bool
  depth : Option Nat
  witness : Option (List (Step × Bool))

/-- Enough passes of the search loop for its depth bound. -/
def searchFuel (graph : Graph) (bound : Nat) : Nat :=
  ((graph.nodes.map fun node => 5 * node.edges.length).sum + 1) ^ bound

abbrev Progress : Type := Search.Progress SearchState Step

def search (py : Runtime) (tiers : Tiers) (graph : Graph) (caps : Counts) (sats : List (String × NodeSat))
    (assume : Option String) (bound : Nat) : Progress :=
  Search.loop (moves py tiers graph caps sats assume) bound (searchFuel graph bound)
    (Search.init (graph.start, bump caps [] graph.start))

def resultOf (progress : Progress) (target : String) : ReachResult :=
  let hits := progress.table.filter fun e => e.state.1 = target
  match (hits.find? fun e => e.certain).orElse fun _ => hits.head? with
  | none => ⟨target, .no, progress.exhausted, none, some []⟩
  | some e =>
    let hops := Search.trace progress.table progress.table.length e.state
    {
      node := target
      reachable := if e.certain then .yes else .may
      proven := false
      depth := some e.depth
      witness := hops.map fun hops => hops.map fun hop => (hop.label, hop.certain)
    }

def nodeSats (py : Runtime) (graph : Graph) (assume : Option String) : Option (List (String × NodeSat)) :=
  graph.nodes.mapM fun node => (nodeSat py node assume).map fun sat => (node.name, sat)

/-- `none` is the `OverflowError` of a constant too large for a float. -/
def checkReach (py : Runtime) (graph : Graph) (targets : List String) (assume : Option String)
    (bound : Nat) (tiers : Tiers) : Option (List ReachResult) :=
  let assume := assume.map normalizeAssume
  (visitCaps py graph).bind fun caps =>
    (nodeSats py graph assume).map fun sats =>
      targets.map (resultOf (search py tiers graph caps sats assume bound))

end ModelCheck
