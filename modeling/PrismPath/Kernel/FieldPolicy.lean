import PrismPath.Kernel.FieldDefinitions
import PrismPath.Kernel.LevelM
import PrismPath.Kernel.Parser

/-!
This module contains what a flow that defines its fields has to obey, and the check of a value that should already be
the canonical value of its field.
-/

open Python

namespace FieldDefinitions

open Predicates LevelM Parser

/-- The integer of a number that may be held as a float. -/
def integerOf : Value → Except Reason ℤ
  | .int n => .ok n
  | .float x =>
    match x.num with
    | .finite q => if q.den = 1 then .ok q.num else .error .fractional
    | _ => .error .outOfRange
  | _ => .error .wrongType

/-- The value, or the reason it is refused. Nothing is converted but a float that is an integer. -/
def acceptCanonical (d : FieldDefinition) : Value → Except Reason Value
  | .none => if d.absentAllowed then .ok .none else .error .missing
  | value =>
    match d.kind with
    | .bool => if value.isBool then .ok value else .error .wrongType
    | .category => if value.isStr then .ok value else .error .wrongType
    | _ => do
      let n ← integerOf value
      if d.minimum ≤ n ∧ n ≤ d.maximum then return .int n else .error .outOfRange

/- The rules. -/

/-- The fields the engine supplies itself. -/
def engineCounters : List String :=
  ["visits", "error_count"]

/-- The comparisons a rounding carries exactly; `exact` carries them all. -/
def roundingOperators : Rounding → List CmpOp
  | .floor => [.gtE, .lt]
  | .ceiling => [.gt, .ltE]
  | .exact => orderOps ++ eqOps ++ membershipOps

inductive AtomProblem where
  | noneInList
  | noneOrdered
  | absenceRefused
  | boolTest
  | categoryTest
  | notNumbers
  | rounding
  | outOfRange (member : ℤ)

def isNone : Value → Bool
  | .none => true
  | _ => false

/-- An `int` that is no `bool`. -/
def plainInt : Value → Option ℤ
  | .int n => some n
  | _ => none

/-- The numbers a number field is compared with. -/
def numbersProblem (d : FieldDefinition) (op : CmpOp) (members : List Value) : Option AtomProblem :=
  match members.mapM plainInt with
  | none => some .notNumbers
  | some ns =>
    if d.kind = .fixed ∧ d.rounding.all fun rounding => op ∉ roundingOperators rounding then
      some .rounding
    else
      (ns.find? fun n => ¬ (d.minimum ≤ n ∧ n ≤ d.maximum)).map .outOfRange

/-- Why an atom breaks the definition of its field. -/
def atomProblem (d : FieldDefinition) : Atom → Option AtomProblem
  | .truthy => if d.kind = .fixed ∧ d.rounding ≠ some .exact then some .rounding else none
  | .compare op .none =>
    if op ∉ eqOps then
      some .noneOrdered
    else if d.absentAllowed then
      none
    else
      some .absenceRefused
  | .compare op const =>
    match d.kind with
    | .bool => if op ∈ eqOps ∧ const.isBool then none else some .boolTest
    | .category => if op ∈ eqOps ∧ const.isStr then none else some .categoryTest
    | _ => numbersProblem d op [const]
  | .member negated consts =>
    if consts.any isNone then
      some .noneInList
    else
      match d.kind with
      | .bool => some .boolTest
      | .category => if consts.all Value.isStr then none else some .categoryTest
      | _ => numbersProblem d (if negated then .notIn else .isIn) consts

inductive PolicyProblem where
  | outsideLevelM (node condition : String) (reason : Option LevelM.Reason)
  | undefined (node condition field : String)
  | atom (node condition : String) (problem : AtomProblem)
  | untested (field : String)

/-- The conditions a value decides, with the nodes they are at. -/
def valueConditions (graph : Graph) : List (String × String) :=
  graph.nodes.flatMap fun node =>
    (node.edges.filter fun edge => isDeterministic edge.condition && !isSemantic edge.condition).map
      fun edge => (node.name, edge.condition)

def fieldProblems (definitions : List (String × FieldDefinition)) (node condition : String)
    (asked : String × Atom) : List PolicyProblem :=
  if asked.1 ∈ engineCounters then
    []
  else
    match definitions.lookup asked.1 with
    | none => [.undefined node condition asked.1]
    | some d => ((atomProblem d asked.2).map (.atom node condition)).toList

def conditionProblems (py : Runtime) (definitions : List (String × FieldDefinition)) (at' : String × String)
    : List PolicyProblem :=
  if isLevelM py at'.2 then
    (conditionAtoms py at'.2).flatMap (fieldProblems definitions at'.1 at'.2)
  else
    [.outsideLevelM at'.1 at'.2 (reasonOf py at'.2)]

def testsAbsence : Atom → Bool
  | .compare op const => op ∈ eqOps && isNone const
  | _ => false

/-- The defined fields a condition of the fragment compares with `None`. -/
def testedForAbsence (py : Runtime) (graph : Graph) : List String :=
  (((valueConditions graph).filter fun at' => isLevelM py at'.2).flatMap fun at' =>
    (conditionAtoms py at'.2).filter fun asked => asked.1 ∉ engineCounters ∧ testsAbsence asked.2).map Prod.fst

def policyProblems (py : Runtime) (graph : Graph) (definitions : List (String × FieldDefinition))
    : List PolicyProblem :=
  (valueConditions graph).flatMap (conditionProblems py definitions)
    ++ (((definitions.insertionSort fun p q => ¬ q.1 < p.1).filter fun p =>
      p.2.absentAllowed && p.1 ∉ testedForAbsence py graph).map fun p => .untested p.1)

/-- A flow as the parser hands it on: it defines none of its fields, or it obeys the definitions it has. -/
structure Flow (py : Runtime) where
  graph : Graph
  fields : List (String × FieldDefinition)
  lawful : fields = [] ∨ policyProblems py graph fields = []

/-- No problem of any of the conditions is left in a flow that defines its fields. -/
theorem Flow.conditionProblems {py : Runtime} (flow : Flow py) (hfields : flow.fields ≠ []) {at' : String × String}
    (hmem : at' ∈ valueConditions flow.graph)
    : FieldDefinitions.conditionProblems py flow.fields at' = [] := by
  have hnone := flow.lawful.resolve_left hfields
  rw [policyProblems, List.append_eq_nil_iff, List.flatMap_eq_nil_iff] at hnone
  exact hnone.1 at' hmem

theorem Flow.isLevelM {py : Runtime} (flow : Flow py) (hfields : flow.fields ≠ []) {at' : String × String}
    (hmem : at' ∈ valueConditions flow.graph)
    : LevelM.isLevelM py at'.2 = true := by
  have hnone := flow.conditionProblems hfields hmem
  rw [FieldDefinitions.conditionProblems] at hnone
  split at hnone
  . assumption
  . cases hnone

end FieldDefinitions
