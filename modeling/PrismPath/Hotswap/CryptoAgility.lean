import PrismPath.Kernel.ModelCheck

/-!
This module contains the proofs a crypto agility flow has to pass: the terminal nodes it can reach name approved
suites only, and none below the floor of a data class.
-/

open Python

namespace CryptoAgility

open Predicates Parser ModelCheck

/- The registry of the suites. -/

structure Suite where
  strengthRank : ℤ

structure Registry where
  suites : List (String × Suite)
  nodup : (suites.map Prod.fst).Nodup

def suiteIds (registry : Registry) : List String :=
  registry.suites.map Prod.fst

def strengthRank (registry : Registry) (suiteId : String) : Option ℤ :=
  (registry.suites.lookup suiteId).map Suite.strengthRank

/-- `none` is the `KeyError` of a floor that is no suite of the registry. -/
def suitesBelow (registry : Registry) (floorId : String) : Option (List String) :=
  (strengthRank registry floorId).map fun floor =>
    (suiteIds registry).filter fun sid => (strengthRank registry sid).getD 0 < floor

/- What a flow may select. -/

structure Envelope where
  approvedSuites : List String := []
  minSuiteByClass : List (String × String) := []
  classField : String := "data_class"
  nodup : (minSuiteByClass.map Prod.fst).Nodup := by decide

def suiteNodePrefix : String :=
  "suite-"

-- the proofs hold of any bound
@[irreducible]
def reachBound : Nat := 25

def suiteNode (suiteId : String) : String :=
  suiteNodePrefix ++ suiteId

/-- The suite a terminal node selects. -/
def suiteOf (node : String) : Option String :=
  if startsWith node suiteNodePrefix then some (dropChars node suiteNodePrefix.length) else none

/-- `{node_name: suite_id}`. -/
def suiteNodes (graph : Graph) : List (String × String) :=
  graph.nodes.filterMap fun node => (suiteOf node.name).map fun sid => (node.name, sid)

structure SuiteReach where
  reachable : Reachable
  proven : Bool

def SuiteReach.ofResult (result : ReachResult) : SuiteReach :=
  ⟨result.reachable, result.proven⟩

/-- `{suite_id: ...}`; `none` is the `OverflowError` of the checker. -/
def reachableSuites (py : Runtime) (graph : Graph) (assume : Option String) : Option (List (String × SuiteReach)) :=
  let nodes := suiteNodes graph
  (checkReach py graph (nodes.map Prod.fst) assume reachBound {}).map fun res =>
    -- the checker answers for the nodes in the order they are asked in
    (nodes.zip res).map fun p => (p.1.2, .ofResult p.2)

def sortedIds (ids : List String) : List String :=
  ids.insertionSort fun a b => ¬ b < a

def sortedItems {V : Type} (items : List (String × V)) : List (String × V) :=
  items.insertionSort fun a b => ¬ b.1 < a.1

structure Violation where
  suite : String
  reachable : Reachable
  reason : String
  deriving DecidableEq

/-- An unproven `no` is not a pass. -/
def forbiddenReachable (reach : List (String × SuiteReach)) (forbidden : List String) : List Violation :=
  (sortedIds forbidden).filterMap fun sid =>
    match reach.lookup sid with
    | none => none
    | some entry =>
      if entry.reachable ≠ .no then
        some ⟨sid, entry.reachable, "reachable"⟩
      else if !entry.proven then
        some ⟨sid, .no, "unproven (bound hit)"⟩
      else
        none

/- The envelope's closure. -/

structure ClosureReport where
  ok : Bool
  offenders : List (String × Reachable)
  reachableSuites : List (String × Reachable)

def proveEnvelopeClosure (py : Runtime) (graph : Graph) (envelope : Envelope) : Option ClosureReport :=
  (reachableSuites py graph none).map fun reach =>
    let reached := (sortedItems reach).filter fun p => p.2.reachable ≠ .no
    let offenders := reached.filter fun p => p.1 ∉ envelope.approvedSuites
    {
      ok := offenders.isEmpty
      offenders := offenders.map fun p => (p.1, p.2.reachable)
      reachableSuites := reached.map fun p => (p.1, p.2.reachable)
    }

/- The class floors. -/

inductive Raised where
  | keyError (text : String)
  | overflowError
  deriving DecidableEq

structure ClassFailure where
  cls : String
  floor : String
  violations : List Violation
  deriving DecidableEq

structure FloorReport where
  ok : Bool
  failures : List ClassFailure

def classAssume (classField cls : String) : String :=
  "when " ++ classField ++ " == \"" ++ cls ++ "\""

def classFailure (py : Runtime) (graph : Graph) (classField : String) (registry : Registry) (item : String × String)
    : Except Raised (Option ClassFailure) :=
  let (cls, floorId) := item
  match suitesBelow registry floorId with
  | none => .error (.keyError ("unknown floor suite: " ++ floorId))
  | some below =>
    match reachableSuites py graph (some (classAssume classField cls)) with
    | none => .error .overflowError
    | some reach =>
      let bad := forbiddenReachable reach below
      .ok (if bad.isEmpty then none else some ⟨cls, floorId, bad⟩)

def proveClassFloor (py : Runtime) (graph : Graph) (envelope : Envelope) (registry : Registry)
    : Except Raised FloorReport := do
  let failures ← (sortedItems envelope.minSuiteByClass).mapM (classFailure py graph envelope.classField registry)
  let failures := failures.filterMap id
  return { ok := failures.isEmpty, failures }

/- Totality. -/

/-- `_is_catchall` -/
def isCatchall (condition : String) : Bool :=
  lower (exprOf condition) ∈ always

def Node.hasCatchall (node : Node) : Bool :=
  node.edges.any fun edge => isCatchall edge.condition

structure TotalityReport where
  ok : Bool
  nodesWithoutCatchall : List String

def proveTotality (graph : Graph) : TotalityReport :=
  let suites := (suiteNodes graph).map Prod.fst
  let gaps := (sortedIds (Parser.reachable graph)).filter fun name =>
    match graph.get? name with
    | none => false
    | some node => !(node.edges.isEmpty || name ∈ suites) && !Node.hasCatchall node
  ⟨gaps.isEmpty, gaps⟩

end CryptoAgility
