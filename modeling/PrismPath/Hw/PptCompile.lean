import PrismPath.Hw.TableFormat
import PrismPath.Kernel.LevelM

/-!
This module contains the compiler from edge conditions to the programs of a table image.
-/

open Python TableFormat

namespace PptCompile

def tyNone : Nat := 0

def tyBool : Nat := 1

def tyInt : Nat := 2

def tyStr : Nat := 3

def opEq : Nat := 0

def opNe : Nat := 1

def opLt : Nat := 2

def opLe : Nat := 3

def opGt : Nat := 4

def opGe : Nat := 5

def opTruthy : Nat := 6

/-- The codes of a `SubsetError`. -/
inductive SubsetError where
  | intOutOfI32 (n : ℤ)
  | floatValue
  | nonScalarValue
  | nonDeterministicEdge (condition : String)
  | notLevelM (reason : LevelM.Reason)
  | disallowedOp (op : CmpOp)
  /-- What the classifier rules out before: an attribute another node does not have. -/
  | noAttribute

/-- The field table, the string pool and the atom pool; what is added keeps its place. -/
structure TableImage where
  fields : List String
  intern : List String
  atoms : List Atom

def TableImage.empty : TableImage where
  fields := []
  intern := [""]
  atoms := []

/-- The place of an element in a pool, which it is appended to when it is new. -/
def pooled {α : Type} [BEq α] (pool : List α) (a : α) : Nat × List α :=
  if pool.contains a then (pool.idxOf a, pool) else (pool.length, pool ++ [a])

abbrev Build : Type → Type :=
  StateT TableImage (Except SubsetError)

def field (name : String) : Build Nat := fun img =>
  let (index, fields) := pooled img.fields name
  .ok (index, { img with fields })

def atom (field op ty : Nat) (val : ℤ) : Build Nat := fun img =>
  let (index, atoms) := pooled img.atoms ⟨field, op, ty, val⟩
  .ok (index, { img with atoms })

def internString (s : String) : Build Nat := fun img =>
  let (index, intern) := pooled img.intern s
  .ok (index, { img with intern })

def inI32 (n : ℤ) : Bool :=
  -2 ^ 31 ≤ n && n ≤ 2 ^ 31 - 1

def encodeScalar : Value → Build (Nat × ℤ)
  | .none => return (tyNone, 0)
  | .bool b => return (tyBool, if b then 1 else 0)
  | .int n => if inI32 n then return (tyInt, n) else throw (.intOutOfI32 n)
  | .float _ => throw .floatValue
  | .str s => do return (tyStr, ← internString s)
  | _ => throw .nonScalarValue

/-- `_AST_OP` -/
def astOp : CmpOp → Option Nat
  | .eq => some opEq
  | .notEq => some opNe
  | .lt => some opLt
  | .ltE => some opLe
  | .gt => some opGt
  | .gtE => some opGe
  | _ => none

/-- `_FLIP` -/
def flipOp (op : Nat) : Nat :=
  if op = opLt then opGt
  else if op = opLe then opGe
  else if op = opGt then opLt
  else if op = opGe then opLe
  else op

/-- `element.value` -/
def valueOf : Expr → Build Value
  | .constant v => return v
  | _ => throw .noAttribute

/-- `node.id` -/
def idOf : Expr → Build String
  | .name id => return id
  | _ => throw .noAttribute

/-- `right.elts` -/
def eltsOf : Expr → Build (List Expr)
  | .list es => return es
  | .tuple es => return es
  | _ => throw .noAttribute

def memberAtom (fidx : Nat) (element : Expr) : Build Nat := do
  let (ty, val) ← encodeScalar (← valueOf element)
  atom fidx opEq ty val

/-- The elements after the first, each followed by its disjunction. -/
def memberRest (fidx : Nat) : List Expr → Build (List Nat)
  | [] => return []
  | element :: es => do
    let word ← memberAtom fidx element
    return word :: opOr :: (← memberRest fidx es)

def memberProg (fidx : Nat) : List Expr → Build (List Nat)
  | [] => return [opFalse]
  | element :: es => do
    let word ← memberAtom fidx element
    return word :: (← memberRest fidx es)

def compareProg (left : Expr) (op : CmpOp) (right : Expr) : Build (List Nat) := do
  if op = .isIn ∨ op = .notIn then
    let fidx ← field (← idOf left)
    let prog ← memberProg fidx (← eltsOf right)
    return if op = .notIn then prog ++ [opNot] else prog
  else
    match astOp op with
    | none => throw (.disallowedOp op)
    | some opc =>
      match left with
      | .name id =>
        let fidx ← field id
        let (ty, val) ← encodeScalar (← valueOf right)
        return [← atom fidx opc ty val]
      | left =>
        let fidx ← field (← idOf right)
        let (ty, val) ← encodeScalar (← valueOf left)
        return [← atom fidx (flipOp opc) ty val]

def opcodeOf : BoolOp → Nat
  | .and => opAnd
  | .or => opOr

mutual

/-- The program of a folded and desugared expression, in postfix order. -/
def progExpr : Expr → Build (List Nat)
  | .name id => do
    let fidx ← field id
    return [← atom fidx opTruthy tyNone 0]
  | .unaryOp .not e => do
    return (← progExpr e) ++ [opNot]
  | .boolOp _ [] => return []
  | .boolOp op (e :: es) => do
    let prog ← progExpr e
    return prog ++ (← progOperands (opcodeOf op) es)
  | .compare left ((op, right) :: _) => compareProg left op right
  | _ => throw (.notLevelM .disallowedOrUnparseable)

/-- The operands after the first, each followed by the opcode. -/
def progOperands (opc : Nat) : List Expr → Build (List Nat)
  | [] => return []
  | e :: es => do
    let prog ← progExpr e
    return prog ++ opc :: (← progOperands opc es)

end

def compileCondition (py : Predicates.Runtime) (cond : String) : Build (List Nat) :=
  if !Predicates.isDeterministic cond then
    throw (.nonDeterministicEdge cond)
  else
    let expr := Predicates.exprOf cond
    if lower expr ∈ Predicates.always then
      return [opTrue]
    else if lower expr ∈ Predicates.never then
      return [opFalse]
    -- the evaluator's own static gate first
    else if Predicates.checkPredicate py cond ≠ [] then
      throw (.notLevelM .disallowedOrUnparseable)
    else
      match py.parse expr with
      | none => throw (.notLevelM .disallowedOrUnparseable)
      | some body =>
        let tree := LevelM.desugarChains (Predicates.foldUnarySigns body)
        match LevelM.classify tree with
        | some reason => throw (.notLevelM reason)
        | none => progExpr tree

end PptCompile
