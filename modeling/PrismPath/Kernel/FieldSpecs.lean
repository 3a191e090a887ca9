import PrismPath.Kernel.Contract

/-!
This module contains the whole of what a node's conditions say of a field: its type as in the contract, the literals it is
routed on, whether it is range-compared, and two types that conflict.
-/

open Python

namespace Contract

open Predicates Parser

/-- One use of a field in a condition. -/
structure Use where
  type : FieldType
  values : List Value := []
  ranged : Bool := false

/-- `FieldSpec` -/
structure FieldSpec where
  type : FieldType := .unknown
  values : List Value := []
  ranged : Bool := false
  conflict : Option (FieldType × FieldType) := none

/-- `self.values.update(values)` -/
def addValues (values : List Value) (more : List Value) : List Value :=
  more.foldl (fun values v => if values.any (v.eq ·) then values else values ++ [v]) values

namespace FieldSpec

/-- `FieldSpec.add` -/
def add (spec : FieldSpec) (use : Use) : FieldSpec :=
  let spec := { spec with values := addValues spec.values use.values, ranged := spec.ranged || use.ranged }
  if use.type = .unknown then
    spec
  else if spec.type = .unknown then
    { spec with type := use.type }
  else if spec.type ≠ use.type ∧ spec.conflict = none then
    { spec with conflict := some (spec.type, use.type) }
  else
    spec

/-- `_routed_values`, in the order the literals came in. -/
def routedValues (spec : FieldSpec) : Option (List Value) :=
  if (spec.type ≠ .enum ∧ spec.type ≠ .number) ∨ spec.ranged = true ∨ spec.values = [] then
    none
  else
    some spec.values

end FieldSpec

def constant? : Expr → Option Value
  | .constant v => some v
  | _ => none

/-- The literals a comparison routes a field on, which are kept for strings and numbers. -/
def routedLiterals (op : CmpOp) (other : Expr) : List Value :=
  if compareType op other ≠ .enum ∧ compareType op other ≠ .number then
    []
  else
    match op, other with
    | .eq, .constant v | .notEq, .constant v => [v]
    | .isIn, .list es | .notIn, .list es | .isIn, .tuple es | .notIn, .tuple es => es.filterMap constant?
    | _, _ => []

def isOrdering : CmpOp → Bool
  | .lt | .ltE | .gt | .gtE => true
  | _ => false

def compareUse (op : CmpOp) (other : Expr) : Use :=
  ⟨compareType op other, routedLiterals op other, isOrdering op⟩

/-- `_compare_fields` -/
def compareUses (left : Expr) : List (CmpOp × Expr) → List (String × Use)
  | [] => []
  | (op, right) :: rest =>
    match left, right with
    | .name f, other => (f, compareUse op other) :: compareUses right rest
    | other, .name f => (f, compareUse op other) :: compareUses right rest
    | _, _ => compareUses right rest

mutual

/-- `_walk` -/
def walkUses : Expr → List (String × Use)
  | .boolOp _ es => walkUsesList es
  | .unaryOp .not e => walkUses e
  | .compare left rest => compareUses left rest
  | .name f => [(f, { type := .boolean })]
  | _ => []

def walkUsesList : List Expr → List (String × Use)
  | [] => []
  | e :: es => walkUses e ++ walkUsesList es

end

def conditionSpecUses (py : Runtime) (condition : String) : List (String × Use) :=
  if !isDeterministic condition then
    []
  else
    let expr := exprOf condition
    if isVerdict expr then
      []
    else
      match py.parse expr with
      | none => []
      | some tree => walkUses tree

def addUse (fields : List (String × FieldSpec)) (use : String × Use) : List (String × FieldSpec) :=
  Dict.set fields use.1 (((fields.lookup use.1).getD {}).add use.2)

/-- `derive_contract(graph)[node.name]` -/
def fieldSpecs (py : Runtime) (node : Node) : List (String × FieldSpec) :=
  let fields := (node.edges.flatMap fun edge => conditionSpecUses py edge.condition).foldl addUse []
  fields.filter fun p => p.1 ∉ engineFields

/- The types are those of the contract. -/

def useType (use : String × Use) : String × FieldType :=
  (use.1, use.2.type)

def specType (spec : String × FieldSpec) : String × FieldType :=
  (spec.1, spec.2.type)

theorem compareUses_types (left : Expr) (rest : List (CmpOp × Expr))
    : (compareUses left rest).map useType = compareFields left rest := by
  induction rest generalizing left with
  | nil => rfl
  | cons p rest ih =>
    rcases p with ⟨op, right⟩
    cases left with
    | name f =>
      rw [compareUses, compareFields, List.map_cons, ih]
      rfl
    | _ =>
      cases right with
      | name f =>
        simp only [compareUses, compareFields, List.map_cons, ih]
        rfl
      | _ => simp only [compareUses, compareFields, ih]

theorem walkUsesList_types {es : List Expr} (h : ∀ e ∈ es, (walkUses e).map useType = walk e)
    : (walkUsesList es).map useType = walkList es := by
  induction es with
  | nil => rfl
  | cons e es ih =>
    rw [List.forall_mem_cons] at h
    rw [walkUsesList, walkList, List.map_append, h.1, ih h.2]

theorem walkUses_types (e : Expr)
    : (walkUses e).map useType = walk e := by
  induction e using Expr.induct with
  | constant v => rfl
  | name id => rfl
  | boolOp op es ih =>
    rw [walkUses, walk]
    exact walkUsesList_types ih
  | unaryOp op e ih =>
    cases op with
    | not =>
      rw [walkUses, walk]
      exact ih
    | _ => rfl
  | compare l rest _ _ =>
    rw [walkUses, walk]
    exact compareUses_types l rest
  | list es _ => rfl
  | tuple es _ => rfl
  | other k es _ => rfl

theorem conditionSpecUses_types (py : Runtime) (condition : String)
    : (conditionSpecUses py condition).map useType = conditionUses py condition := by
  unfold conditionSpecUses conditionUses
  split
  . rfl
  . dsimp only
    split
    . rfl
    . cases py.parse (exprOf condition) with
      | none => rfl
      | some tree => exact walkUses_types tree

theorem FieldSpec.type_add (spec : FieldSpec) (use : Use)
    : (spec.add use).type = if spec.type = .unknown then use.type else spec.type := by
  unfold FieldSpec.add
  dsimp only
  split
  . next hunknown =>
    rw [hunknown]
    split
    . next h => exact h
    . rfl
  . split
    . rfl
    . split <;> rfl

theorem lookup_specType (fields : List (String × FieldSpec)) (f : String)
    : (fields.map specType).lookup f = (fields.lookup f).map FieldSpec.type := by
  induction fields with
  | nil => rfl
  | cons p fields ih =>
    rcases p with ⟨g, spec⟩
    rw [List.map_cons, specType, Dict.lookup_cons_eq, Dict.lookup_cons_eq, ih]
    split <;> rfl

theorem specType_set (fields : List (String × FieldSpec)) (f : String) (spec : FieldSpec)
    : (Dict.set fields f spec).map specType = Dict.set (fields.map specType) f spec.type := by
  induction fields with
  | nil => rfl
  | cons p fields ih =>
    rcases p with ⟨g, spec'⟩
    simp only [Dict.set, List.map_cons, specType]
    split
    . rfl
    . rw [List.map_cons, ih]
      rfl

/-- Setting a key to the value it has changes nothing. -/
theorem set_of_lookup {fields : List (String × FieldType)} {f : String} {type : FieldType}
    (h : fields.lookup f = some type)
    : Dict.set fields f type = fields := by
  induction fields with
  | nil => cases h
  | cons p fields ih =>
    rcases p with ⟨g, type'⟩
    rw [Dict.lookup_cons_eq] at h
    rw [Dict.set]
    split at h
    . next heq =>
      cases h
      rw [if_pos heq, heq]
    . next hne => rw [if_neg hne, ih h]

theorem addUse_types (fields : List (String × FieldSpec)) (use : String × Use)
    : (addUse fields use).map specType = add (fields.map specType) (useType use) := by
  unfold addUse add
  rw [specType_set, FieldSpec.type_add, lookup_specType]
  simp only [useType]
  cases hlookup : fields.lookup use.1 with
  | none => rfl
  | some spec =>
    simp only [Option.map_some, Option.getD_some]
    have htype : (fields.map specType).lookup use.1 = some spec.type := by
      rw [lookup_specType, hlookup]
      rfl
    cases hspec : spec.type with
    | unknown => rfl
    | boolean => exact set_of_lookup (by rw [htype, hspec]; rfl)
    | number => exact set_of_lookup (by rw [htype, hspec]; rfl)
    | enum => exact set_of_lookup (by rw [htype, hspec]; rfl)

theorem foldl_addUse_types (uses : List (String × Use)) (fields : List (String × FieldSpec))
    : (uses.foldl addUse fields).map specType = (uses.map useType).foldl add (fields.map specType) := by
  induction uses generalizing fields with
  | nil => rfl
  | cons use uses ih => rw [List.foldl_cons, ih, addUse_types, List.map_cons, List.foldl_cons]

/-- The specs of a node give its contract. -/
theorem fieldSpecs_types (py : Runtime) (node : Node)
    : (fieldSpecs py node).map specType = deriveContract py node := by
  have huses : (node.edges.flatMap fun edge => conditionSpecUses py edge.condition).map useType
      = node.edges.flatMap fun edge => conditionUses py edge.condition := by
    rw [List.map_flatMap]
    simp only [conditionSpecUses_types]
  have hfold := foldl_addUse_types (node.edges.flatMap fun edge => conditionSpecUses py edge.condition) []
  rw [huses, List.map_nil] at hfold
  unfold fieldSpecs deriveContract
  dsimp only
  rw [← hfold, List.filter_map]
  rfl

end Contract
