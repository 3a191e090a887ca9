import PrismPath.Kernel.Predicates

/-!
This module contains Level M, the match action fragment: which conditions a table can hold, and the atoms
such a condition is built from.
-/

open Python

namespace LevelM

open Predicates

inductive Reason where
  | chained
  | fieldVsField
  | substring
  | nonLiteral
  | stringOrder
  | constant
  | nested
  | disallowedOrUnparseable
  | notDeterministic
  deriving DecidableEq

def orderOps : List CmpOp :=
  [.lt, .ltE, .gt, .gtE]

def eqOps : List CmpOp :=
  [.eq, .notEq]

def membershipOps : List CmpOp :=
  [.isIn, .notIn]

/-- A float is no scalar of the fragment. -/
def scalarValue : Value → Bool
  | .none => true
  | .bool _ => true
  | .int _ => true
  | .str _ => true
  | _ => false

def scalarConst : Expr → Bool
  | .constant v => scalarValue v
  | _ => false

def eltsReason : List Expr → Option Reason
  | [] => none
  | .list _ :: _ => some .nested
  | .tuple _ :: _ => some .nested
  | e :: es => if scalarConst e then eltsReason es else some .nonLiteral

/-- The reason of `field in <right>` for the right side of a membership test. -/
def collectionReason : Expr → Option Reason
  | .constant (.str _) => some .substring
  | .list es => eltsReason es
  | .tuple es => eltsReason es
  | _ => some .nonLiteral

def orderedConstReason (op : CmpOp) : Value → Option Reason
  | .str _ => if op ∈ orderOps then some .stringOrder else none
  | _ => none

/-- `none` if `left op right` is an atom of the fragment. -/
def pairReason (left : Expr) (op : CmpOp) (right : Expr) : Option Reason :=
  if op ∉ orderOps ++ eqOps ++ membershipOps then
    some .disallowedOrUnparseable
  else if op ∈ membershipOps then
    match left with
    | .name _ => collectionReason right
    | .constant _ => some .constant
    | _ => some .fieldVsField
  else
    match left, right with
    | .name _, .constant v => if scalarValue v then orderedConstReason op v else some .disallowedOrUnparseable
    | .constant v, .name _ => if scalarValue v then orderedConstReason op v else some .disallowedOrUnparseable
    | .name _, .name _ => some .fieldVsField
    | left, right => if scalarConst left && scalarConst right then some .constant else some .disallowedOrUnparseable

def atomReason : Expr → Option Reason
  | .name _ => none
  | .constant _ => some .constant
  | .compare left [(op, right)] => pairReason left op right
  | .compare _ _ => some .chained
  | _ => some .disallowedOrUnparseable

/-- The pairwise comparisons of a chain. -/
def chainPairs (left : Expr) : List (CmpOp × Expr) → List Expr
  | [] => []
  | (op, right) :: rest => .compare left [(op, right)] :: chainPairs right rest

mutual

/-- `a < b < c` becomes `a < b and b < c`. -/
def desugarChains : Expr → Expr
  | .boolOp op es => .boolOp op (desugarChainsList es)
  | .unaryOp .not e => .unaryOp .not (desugarChains e)
  | .compare left (p :: q :: rest) => .boolOp .and (chainPairs left (p :: q :: rest))
  | e => e

def desugarChainsList : List Expr → List Expr
  | [] => []
  | e :: es => desugarChains e :: desugarChainsList es

end

mutual

/-- `none` if the expression is a boolean combination of atoms of the fragment. -/
def classify : Expr → Option Reason
  | .boolOp _ es => classifyList es
  | .unaryOp .not e => classify e
  | e => atomReason e

def classifyList : List Expr → Option Reason
  | [] => none
  | e :: es =>
    match classify e with
    | some reason => some reason
    | none => classifyList es

end

def deterministicReason (py : Runtime) (cond : String) : Option Reason :=
  let expr := exprOf cond
  if isVerdict expr then
    none
  else
    match exprAst py cond with
    | none => some .disallowedOrUnparseable
    | some node => classify (desugarChains node)

/-- The reason a condition is not in the fragment, or `none` if it is. -/
def reasonOf (py : Runtime) (cond : String) : Option Reason :=
  if isDeterministic cond then
    deterministicReason py cond
  else if isError cond then
    let expr := errorExpr cond
    if expr = "" then
      none
    else
      deterministicReason py (if startsWith (lower expr) "when " then expr else "when " ++ expr)
  else
    some .notDeterministic

def isLevelM (py : Runtime) (cond : String) : Bool :=
  reasonOf py cond = none

/-- What one field is asked for: its truthiness, a comparison with a constant, or membership. -/
inductive Atom where
  | truthy
  | compare (op : CmpOp) (const : Value)
  | member (negated : Bool) (consts : List Value)

def flip : CmpOp → CmpOp
  | .lt => .gt
  | .ltE => .gtE
  | .gt => .lt
  | .gtE => .ltE
  | op => op

def constantsOf : List Expr → Option (List Value)
  | [] => some []
  | .constant v :: es => (constantsOf es).map (v :: ·)
  | _ :: _ => none

def pairAtoms (left : Expr) (op : CmpOp) (right : Expr) : List (String × Atom) :=
  if op ∈ orderOps ++ eqOps then
    match left, right with
    | .name f, .constant v => [(f, .compare op v)]
    | .constant v, .name f => [(f, .compare (flip op) v)]
    | _, _ => []
  else if op ∈ membershipOps then
    match left, right with
    | .name f, .list es => ((constantsOf es).map fun vs => (f, .member (op = .notIn) vs)).toList
    | .name f, .tuple es => ((constantsOf es).map fun vs => (f, .member (op = .notIn) vs)).toList
    | _, _ => []
  else
    []

mutual

/-- The atoms of a folded and desugared expression, each with the field it asks. -/
def atomsOf : Expr → List (String × Atom)
  | .boolOp _ es => atomsOfList es
  | .unaryOp .not e => atomsOf e
  | .name f => [(f, .truthy)]
  | .compare left [(op, right)] => pairAtoms left op right
  | _ => []

def atomsOfList : List Expr → List (String × Atom)
  | [] => []
  | e :: es => atomsOf e ++ atomsOfList es

end

def conditionAtoms (py : Runtime) (cond : String) : List (String × Atom) :=
  match exprAst py cond with
  | none => []
  | some body => atomsOf (desugarChains body)

/-- Whether a field holding `v` satisfies the atom. -/
def Atom.holds (v : Value) : Atom → Bool
  | truthy => v.truthy
  | compare op const =>
    match Predicates.compare op v const with
    | .ok b => b
    | .error _ => false
  | member negated consts => (consts.any fun const => v.eq const) != negated

end LevelM
