import PrismPath.Kernel.Parser
import PrismPath.Lib.Dict

/-!
This module contains the type contract a node's conditions put on the fields its worker returns. Of a field
only the inferred type is kept: the values the flow routes on never stop a run.
-/

open Python

namespace Contract

open Predicates Parser

inductive FieldType where
  | boolean
  | number
  | enum
  | unknown
  deriving DecidableEq

/-- The names the engine supplies itself. -/
def engineFields : List String :=
  ["visits", "error_count", "error", "error_type", "error_message"]

def typeOfLiteral : Value → FieldType
  | .bool _ => .boolean
  | .int _ => .number
  | .float _ => .number
  | .str _ => .enum
  | _ => .unknown

def literalType : Expr → FieldType
  | .constant v => typeOfLiteral v
  | _ => .unknown

/-- The one type of all the literals of a list, or `unknown`. -/
def eltsType : List Expr → FieldType
  | [] => .unknown
  | e :: es => if es.all fun e' => literalType e' = literalType e then literalType e else .unknown

def compareType (op : CmpOp) (other : Expr) : FieldType :=
  match op with
  | .lt | .ltE | .gt | .gtE => .number
  | .eq | .notEq => literalType other
  | .isIn | .notIn =>
    match other with
    | .list es => eltsType es
    | .tuple es => eltsType es
    | _ => .unknown
  | .is | .isNot => .unknown

/-- The type each comparison of a chain asks of the name on one of its sides. -/
def compareFields (left : Expr) : List (CmpOp × Expr) → List (String × FieldType)
  | [] => []
  | (op, right) :: rest =>
    match left, right with
    | .name f, other => (f, compareType op other) :: compareFields right rest
    | other, .name f => (f, compareType op other) :: compareFields right rest
    | _, _ => compareFields right rest

mutual

/-- The fields a condition reads, each with the type that use of it implies. -/
def walk : Expr → List (String × FieldType)
  | .boolOp _ es => walkList es
  | .unaryOp .not e => walk e
  | .compare left rest => compareFields left rest
  | .name f => [(f, .boolean)]
  | _ => []

def walkList : List Expr → List (String × FieldType)
  | [] => []
  | e :: es => walk e ++ walkList es

end

/-- The first use that implies a type decides it. -/
def add (fields : List (String × FieldType)) (use : String × FieldType) : List (String × FieldType) :=
  match fields.lookup use.1 with
  | none | some .unknown => Dict.set fields use.1 use.2
  | some _ => fields

def conditionUses (py : Runtime) (condition : String) : List (String × FieldType) :=
  if !isDeterministic condition then
    []
  else
    let expr := exprOf condition
    if isVerdict expr then
      []
    else
      match py.parse expr with
      | none => []
      | some tree => walk tree

/-- The contract of one node. -/
def deriveContract (py : Runtime) (node : Node) : List (String × FieldType) :=
  let fields := (node.edges.flatMap fun edge => conditionUses py edge.condition).foldl add []
  fields.filter fun p => p.1 ∉ engineFields

def pyTypeOk (type : FieldType) (value : Value) : Bool :=
  match value with
  | .none => true
  | value =>
    match type with
    | .boolean => value.isBool
    | .number => value.isNumber
    | .enum => value.isStr
    | .unknown => true

structure Violation where
  field : String
  expected : FieldType
  value : Value

/-- The `type:` problems of `validate_output`; its other problems are notes that stop nothing. -/
def typeViolations (contract : List (String × FieldType)) (fields : List (String × Value))
    : List Violation :=
  contract.filterMap fun (field, type) =>
    match fields.lookup field with
    | some value => if pyTypeOk type value then none else some ⟨field, type, value⟩
    | none => none

end Contract
