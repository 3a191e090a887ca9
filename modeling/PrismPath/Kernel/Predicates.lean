import PrismPath.Python.Ast
import PrismPath.Python.Text

/-!
This module contains the predicate language of the edge conditions: how a condition's text selects its
tier, the static check of its expression, and the evaluator.
-/

open Python

namespace Predicates

/-- What the kernel takes from the Python runtime as it is: the expression parser, `str` and `int`. -/
structure Runtime where
  /-- The body of `ast.parse(text, mode="eval")`, or `none` for a `SyntaxError` or `ValueError`. -/
  parse : String → Option Expr
  str : Value → String
  /-- `int(text)`, or `none` for a `ValueError`. -/
  int : String → Option ℤ

/-- `ctx.get`: an unknown name reads as `None`. -/
abbrev Ctx : Type := String → Value

def always : List String :=
  ["always", "true", "else", "otherwise", "default", "_"]

def never : List String :=
  ["false", "never"]

/-- The words that stand for a verdict of their own. -/
def isVerdict (expr : String) : Bool :=
  lower expr ∈ always || lower expr ∈ never

theorem isVerdict_eq_false {expr : String} (halways : lower expr ∉ always) (hnever : lower expr ∉ never)
    : isVerdict expr = false := by
  rw [isVerdict, decide_eq_false halways, decide_eq_false hnever, Bool.or_false]

def maxDepth : Nat := 50

mutual

/-- A sign on an integer literal becomes part of the literal, bottom up. -/
def foldUnarySigns : Expr → Expr
  | .constant v => .constant v
  | .name id => .name id
  | .boolOp op es => .boolOp op (foldUnarySignsList es)
  | .unaryOp op e =>
    match op, foldUnarySigns e with
    | .uSub, .constant (.int n) => .constant (.int (-n))
    | .uAdd, .constant (.int n) => .constant (.int n)
    | op, e => .unaryOp op e
  | .compare l rest => .compare (foldUnarySigns l) (foldUnarySignsRest rest)
  | .list es => .list (foldUnarySignsList es)
  | .tuple es => .tuple (foldUnarySignsList es)
  | .other k es => .other k (foldUnarySignsList es)

def foldUnarySignsList : List Expr → List Expr
  | [] => []
  | e :: es => foldUnarySigns e :: foldUnarySignsList es

def foldUnarySignsRest : List (CmpOp × Expr) → List (CmpOp × Expr)
  | [] => []
  | (op, e) :: rest => (op, foldUnarySigns e) :: foldUnarySignsRest rest

end

def isDeterministic (condition : String) : Bool :=
  let normalized := lower (strip condition)
  startsWith normalized "when " || normalized ∈ always || normalized ∈ never

def isError (condition : String) : Bool :=
  startsWith (lower (strip condition)) "on error"

def isEvent (condition : String) : Bool :=
  let normalized := lower (strip condition)
  startsWith normalized "on event" || startsWith normalized "on timeout"

def eventName (condition : String) : String :=
  let trimmed := strip condition
  if startsWith (lower trimmed) "on timeout" then
    "__timeout__"
  else
    strip (dropChars trimmed "on event".length)

def isSemantic (condition : String) : Bool :=
  !isDeterministic condition && !isError condition && !isEvent condition

def errorExpr (condition : String) : String :=
  strip (dropChars (strip condition) "on error".length)

def exprOf (condition : String) : String :=
  let trimmed := strip condition
  if startsWith (lower trimmed) "when " then strip (dropChars trimmed 5) else trimmed

def UnaryOp.disallowed : UnaryOp → List String
  | .not => []
  | .uSub => ["USub"]
  | .uAdd => ["UAdd"]
  | .invert => ["Invert"]

def CmpOp.disallowed : CmpOp → List String
  | .is => ["Is"]
  | .isNot => ["IsNot"]
  | _ => []

mutual

/-- The class names of the nodes outside the grammar, at each depth below the node. -/
def disallowedLevels : Expr → List (List String)
  | .constant _ => []
  | .name _ => []
  | .boolOp _ es => [] :: disallowedLevelsList es
  | .unaryOp op e => [] :: Expr.joinLevels [UnaryOp.disallowed op] (disallowedLevels e)
  | .compare l rest =>
    [] :: Expr.joinLevels (disallowedLevels l)
      (Expr.joinLevels [rest.flatMap fun p => CmpOp.disallowed p.1] (disallowedLevelsRest rest))
  | .list es => [] :: disallowedLevelsList es
  | .tuple es => [] :: disallowedLevelsList es
  | .other k es => [k] :: disallowedLevelsList es

def disallowedLevelsList : List Expr → List (List String)
  | [] => []
  | e :: es => Expr.joinLevels (disallowedLevels e) (disallowedLevelsList es)

def disallowedLevelsRest : List (CmpOp × Expr) → List (List String)
  | [] => []
  | (_, e) :: rest => Expr.joinLevels (disallowedLevels e) (disallowedLevelsRest rest)

end

/-- The nodes `isinstance(node, _ALLOWED_NODES)` rejects, in the order of `ast.walk`. -/
def disallowed (e : Expr) : List String :=
  (disallowedLevels e).flatten

mutual

/-- `_depth`, which also counts the operator of a node and the `Load` of a name, a list or a tuple. -/
def depth : Expr → Nat
  | .constant _ => 0
  | .name _ => 1
  | .boolOp _ es => 1 + depthList es
  | .unaryOp _ e => 1 + depth e
  | .compare l rest => 1 + max (depth l) (depthRest rest)
  | .list es => 1 + depthList es
  | .tuple es => 1 + depthList es
  | .other _ es => 1 + depthList es

def depthList : List Expr → Nat
  | [] => 0
  | e :: es => max (depth e) (depthList es)

def depthRest : List (CmpOp × Expr) → Nat
  | [] => 0
  | (_, e) :: rest => max (depth e) (depthRest rest)

end

inductive Problem where
  | empty (condition : String)
  | unparseable (condition : String)
  | disallowed (condition : String) (kind : String)
  | tooDeep (condition : String)
  deriving DecidableEq

def checkPredicate (py : Runtime) (condition : String) : List Problem :=
  if !isDeterministic condition then
    []
  else
    let expr := exprOf condition
    if isVerdict expr then
      []
    else if expr = "" then
      [.empty condition]
    else
      match py.parse expr with
      | none => [.unparseable condition]
      | some tree =>
        let tree := foldUnarySigns tree
        let problems := (disallowed tree).map (.disallowed condition)
        let problems := if maxDepth < depth tree then problems ++ [.tooDeep condition] else problems
        problems.eraseDups

inductive PredicateError where
  | unparseable (condition : String)
  | disallowed (condition : String) (kind : String)
  | operator (kind : String)
  | tooDeep
  | unsupported (kind : String)
  deriving DecidableEq

/--
One pairwise comparison, made total: an exception leaves it unsatisfied, and so leaves `not in`
satisfied.
-/
def compare (op : CmpOp) (left right : Value) : Except PredicateError Bool :=
  match op with
  | .eq => .ok (left.eq right)
  | .notEq => .ok (!left.eq right)
  | .lt => .ok ((left.order .lt right).getD false)
  | .ltE => .ok ((left.order .le right).getD false)
  | .gt => .ok ((left.order .gt right).getD false)
  | .gtE => .ok ((left.order .ge right).getD false)
  | .isIn => .ok ((right.contains left).getD false)
  | .notIn => .ok (((right.contains left).map not).getD true)
  | .is => .error (.operator "Is")
  | .isNot => .error (.operator "IsNot")

mutual

def ev (ctx : Ctx) (e : Expr) (depth : Nat) : Except PredicateError Value :=
  if maxDepth < depth then
    .error .tooDeep
  else
    match e with
    | .constant v => .ok v
    | .name id => .ok (ctx id)
    | .boolOp .and es => do
      let vals ← evList ctx es (depth + 1)
      return .bool (vals.all Value.truthy)
    | .boolOp .or es => do
      let vals ← evList ctx es (depth + 1)
      return .bool (vals.any Value.truthy)
    | .unaryOp .not e => do
      let val ← ev ctx e (depth + 1)
      return .bool (!val.truthy)
    | .unaryOp _ _ => .error (.unsupported "UnaryOp")
    | .compare l rest => do
      let left ← ev ctx l (depth + 1)
      return .bool (← evChain ctx left rest (depth + 1))
    | .list es => do
      return .list (← evList ctx es (depth + 1))
    | .tuple es => do
      return .list (← evList ctx es (depth + 1))
    | .other k _ => .error (.unsupported k)

def evList (ctx : Ctx) (es : List Expr) (depth : Nat) : Except PredicateError (List Value) :=
  match es with
  | [] => .ok []
  | e :: es => do
    let val ← ev ctx e depth
    let vals ← evList ctx es depth
    return val :: vals

def evChain (ctx : Ctx) (left : Value) (rest : List (CmpOp × Expr)) (depth : Nat)
    : Except PredicateError Bool :=
  match rest with
  | [] => .ok true
  | (op, comp) :: rest => do
    let right ← ev ctx comp depth
    if ← compare op left right then
      evChain ctx right rest depth
    else
      return false

end

def evalCondition (py : Runtime) (condition : String) (ctx : Ctx) : Except PredicateError Bool :=
  let expr := exprOf condition
  if lower expr ∈ always then
    .ok true
  else if lower expr ∈ never then
    .ok false
  else
    match py.parse expr with
    | none => .error (.unparseable condition)
    | some tree =>
      let tree := foldUnarySigns tree
      match disallowed tree with
      | kind :: _ => .error (.disallowed condition kind)
      | [] => return (← ev ctx tree 0).truthy

def exprAst (py : Runtime) (condition : String) : Option Expr :=
  if !isDeterministic condition then
    none
  else
    let expr := exprOf condition
    if isVerdict expr then
      none
    else
      (py.parse expr).map foldUnarySigns

/-- An edge matches when its condition evaluates to true; a `PredicateError` leaves it unmatched. -/
def hit (py : Runtime) (condition : String) (ctx : Ctx) : Bool :=
  match evalCondition py condition ctx with
  | .ok b => b
  | .error _ => false

end Predicates
