import PrismPath.Python.Value

/-!
This module contains the syntax trees `ast.parse(text, mode="eval")` returns.
-/

namespace Python

inductive CmpOp where
  | eq
  | notEq
  | lt
  | ltE
  | gt
  | gtE
  | isIn
  | notIn
  | is
  | isNot
  deriving DecidableEq

inductive BoolOp where
  | and
  | or
  deriving DecidableEq

inductive UnaryOp where
  | not
  | uSub
  | uAdd
  | invert
  deriving DecidableEq

/-- The comparators of `compare` are paired with the operator each of them follows. -/
inductive Expr where
  | constant (value : Value)
  | name (id : String)
  | boolOp (op : BoolOp) (values : List Expr)
  | unaryOp (op : UnaryOp) (operand : Expr)
  | compare (left : Expr) (rest : List (CmpOp × Expr))
  | list (elts : List Expr)
  | tuple (elts : List Expr)
  /-- Any other node, with its class name and the expressions below it. -/
  | other (kind : String) (children : List Expr)

namespace Expr

/-- An induction principle that reaches into the operand lists. -/
theorem induct {motive : Expr → Prop}
    (constant : ∀ v, motive (.constant v))
    (name : ∀ id, motive (.name id))
    (boolOp : ∀ op es, (∀ e ∈ es, motive e) → motive (.boolOp op es))
    (unaryOp : ∀ op e, motive e → motive (.unaryOp op e))
    (compare : ∀ l rest, motive l → (∀ p ∈ rest, motive p.2) → motive (.compare l rest))
    (list : ∀ es, (∀ e ∈ es, motive e) → motive (.list es))
    (tuple : ∀ es, (∀ e ∈ es, motive e) → motive (.tuple es))
    (other : ∀ k es, (∀ e ∈ es, motive e) → motive (.other k es))
    : ∀ e, motive e := by
  refine @Expr.rec motive (fun es => ∀ e ∈ es, motive e) (fun rest => ∀ p ∈ rest, motive p.2)
    (fun p => motive p.2) constant name boolOp unaryOp compare list tuple other ?_ ?_ ?_ ?_ ?_
  . simp
  . intro e es ihe ihes
    exact List.forall_mem_cons.mpr ⟨ihe, ihes⟩
  . simp
  . intro p rest ihp ihrest
    exact List.forall_mem_cons.mpr ⟨ihp, ihrest⟩
  . intro op e ih
    exact ih

/-- Joining two forests level by level, which is the order a breadth first walk visits them in. -/
def joinLevels {α : Type} : List (List α) → List (List α) → List (List α)
  | [], ys => ys
  | xs, [] => xs
  | x :: xs, y :: ys => (x ++ y) :: joinLevels xs ys

mutual

/-- The values of the `Constant` nodes at each depth below the node. -/
def constantLevels : Expr → List (List Value)
  | .constant v => [[v]]
  | .name _ => []
  | .boolOp _ es => [] :: constantLevelsList es
  | .unaryOp _ e => [] :: e.constantLevels
  | .compare l rest => [] :: joinLevels l.constantLevels (constantLevelsRest rest)
  | .list es => [] :: constantLevelsList es
  | .tuple es => [] :: constantLevelsList es
  | .other _ es => [] :: constantLevelsList es

def constantLevelsList : List Expr → List (List Value)
  | [] => []
  | e :: es => joinLevels e.constantLevels (constantLevelsList es)

def constantLevelsRest : List (CmpOp × Expr) → List (List Value)
  | [] => []
  | (_, e) :: rest => joinLevels e.constantLevels (constantLevelsRest rest)

end

/-- The values of the `Constant` nodes in the order of `ast.walk`, which goes breadth first. -/
def constants (e : Expr) : List Value :=
  e.constantLevels.flatten

mutual

/-- The identifiers of the `Name` nodes. -/
def names : Expr → List String
  | .constant _ => []
  | .name id => [id]
  | .boolOp _ es => namesList es
  | .unaryOp _ e => e.names
  | .compare l rest => l.names ++ namesRest rest
  | .list es => namesList es
  | .tuple es => namesList es
  | .other _ es => namesList es

def namesList : List Expr → List String
  | [] => []
  | e :: es => e.names ++ namesList es

def namesRest : List (CmpOp × Expr) → List String
  | [] => []
  | (_, e) :: rest => e.names ++ namesRest rest

end

attribute [local simp] constantLevels constantLevelsList constantLevelsRest namesList namesRest

@[simp]
theorem mem_flatten_joinLevels {α : Type} (a : α) (xs ys : List (List α))
    : a ∈ (joinLevels xs ys).flatten ↔ a ∈ xs.flatten ∨ a ∈ ys.flatten := by
  induction xs generalizing ys with
  | nil => simp [joinLevels]
  | cons x xs ih =>
    cases ys with
    | nil => simp [joinLevels]
    | cons y ys =>
      simp only [joinLevels, List.flatten_cons, List.mem_append, ih]
      tauto

theorem mem_constantLevelsList (v : Value) (es : List Expr)
    : v ∈ (constantLevelsList es).flatten ↔ ∃ e ∈ es, v ∈ e.constants := by
  induction es with
  | nil => simp
  | cons e es ih =>
    rw [constantLevelsList, mem_flatten_joinLevels, ih]
    simp only [List.mem_cons, exists_eq_or_imp, constants]

theorem mem_constantLevelsRest (v : Value) (rest : List (CmpOp × Expr))
    : v ∈ (constantLevelsRest rest).flatten ↔ ∃ p ∈ rest, v ∈ p.2.constants := by
  induction rest with
  | nil => simp
  | cons p rest ih =>
    rcases p with ⟨op, e⟩
    rw [constantLevelsRest, mem_flatten_joinLevels, ih]
    simp only [List.mem_cons, exists_eq_or_imp, constants]

@[simp]
theorem constants_constant (v : Value)
    : constants (.constant v) = [v] := by
  simp [constants]

@[simp]
theorem constants_name (id : String)
    : constants (.name id) = [] := by
  simp [constants]

@[simp]
theorem mem_constants_boolOp (v : Value) (op : BoolOp) (es : List Expr)
    : v ∈ constants (.boolOp op es) ↔ ∃ e ∈ es, v ∈ e.constants := by
  rw [← mem_constantLevelsList]
  simp [constants]

@[simp]
theorem mem_constants_unaryOp (v : Value) (op : UnaryOp) (e : Expr)
    : v ∈ constants (.unaryOp op e) ↔ v ∈ e.constants := by
  simp [constants]

@[simp]
theorem mem_constants_compare (v : Value) (l : Expr) (rest : List (CmpOp × Expr))
    : v ∈ constants (.compare l rest) ↔ v ∈ l.constants ∨ ∃ p ∈ rest, v ∈ p.2.constants := by
  rw [← mem_constantLevelsRest, constants, constants, ← mem_flatten_joinLevels]
  simp

@[simp]
theorem mem_constants_list (v : Value) (es : List Expr)
    : v ∈ constants (.list es) ↔ ∃ e ∈ es, v ∈ e.constants := by
  rw [← mem_constantLevelsList]
  simp [constants]

@[simp]
theorem mem_constants_tuple (v : Value) (es : List Expr)
    : v ∈ constants (.tuple es) ↔ ∃ e ∈ es, v ∈ e.constants := by
  rw [← mem_constantLevelsList]
  simp [constants]

theorem namesList_eq (es : List Expr)
    : namesList es = es.flatMap names := by
  induction es with
  | nil => rfl
  | cons e es ih => simp [ih]

theorem namesRest_eq (rest : List (CmpOp × Expr))
    : namesRest rest = rest.flatMap fun p => p.2.names := by
  induction rest with
  | nil => rfl
  | cons p rest ih =>
    rcases p with ⟨op, e⟩
    simp [ih]

end Expr

end Python
