import PrismPath.Python.Value

/-!
This module contains the lemmas about comparing numbers with one another and with other values.
-/

namespace Python

namespace Number

theorem lt_of_gt {x y : Number} {q : ℚ} (hgt : y.lt x = true) (hx : x.lt (.finite q) = true)
    : y.lt (.finite q) = true := by
  cases x <;> cases y <;> simp_all [Number.lt]
  linarith

theorem lt_of_not_gt {x z : Number} {q : ℚ} (hgt : ¬ x.lt z = true) (hnan : x ≠ .nan)
    (hx : x.lt (.finite q) = true)
    : z = .nan ∨ z.lt (.finite q) = true := by
  cases x <;> cases z <;> simp_all [Number.lt]
  linarith

end Number

namespace Value

theorem num?_of_isNumber {v : Value} (h : v.isNumber = true)
    : ∃ x, v.num? = some x := by
  cases v <;> simp_all [isNumber, num?]

theorem complex?_of_num? {v : Value} {x : Number} (h : v.num? = some x)
    : v.complex? = some (x, .finite 0) := by
  cases v <;> simp_all [complex?, num?]

theorem scalarEq_of_num? {v : Value} {x : Number} (w : Value) (h : v.num? = some x)
    : v.scalarEq w
        =
      match w.complex? with
      | some (c, d) => x.eq c && (Number.finite 0).eq d
      | Option.none => false := by
  have hcomplex := complex?_of_num? h
  cases v with
  | bool | int | float | fraction =>
    simp only [scalarEq, hcomplex]
    rcases w.complex? with _ | ⟨c, d⟩ <;> rfl
  | _ => simp [num?] at h

theorem scalarEq_num?_right {v w : Value} {y : Number} (h : w.num? = some y)
    : v.scalarEq w
        =
      match v.complex? with
      | some (a, b) => a.eq y && b.eq (.finite 0)
      | Option.none => false := by
  have hcomplex := complex?_of_num? h
  cases w with
  | bool | int | float | fraction =>
    simp only [scalarEq, hcomplex]
    rcases v.complex? with _ | ⟨a, b⟩ <;> rfl
  | _ => simp [num?] at h

theorem eq_of_num? {v w : Value} {x y : Number} (hv : v.num? = some x) (hw : w.num? = some y)
    : v.eq w = x.eq y := by
  have hscalar : v.eq w = v.scalarEq w := by
    cases v <;> simp_all [eq, num?]
  rw [hscalar, scalarEq_of_num? w hv, complex?_of_num? hw]
  simp [Number.eq]

theorem order_of_num? {v w : Value} {x y : Number} (op : OrderOp) (hv : v.num? = some x)
    (hw : w.num? = some y)
    : v.order op w = some (op.num x y) := by
  have hscalar : v.order op w = v.scalarOrder op w := by
    cases v <;> simp_all [order, num?]
  rw [hscalar]
  cases v with
  | bool | int | float | fraction => simp [scalarOrder, hv, hw]
  | _ => simp [num?] at hv

theorem contains_of_num? {w : Value} {y : Number} (v : Value) (hw : w.num? = some y)
    : w.contains v = Option.none := by
  cases w <;> simp_all [contains, num?]

/-- A number equals no value but numbers and complex numbers. -/
theorem eq_of_num?_of_complex? {v w : Value} {x : Number} (hv : v.num? = some x) (hw : w.complex? = Option.none)
    : v.eq w = false := by
  have hscalar : v.eq w = v.scalarEq w := by
    cases v <;> simp_all [eq, num?]
  rw [hscalar, scalarEq_of_num? w hv, hw]

theorem order_eq_none_of_num? {v w : Value} {x : Number} (op : OrderOp) (hv : v.num? = some x)
    (hw : w.num? = Option.none)
    : v.order op w = Option.none := by
  have hscalar : v.order op w = v.scalarOrder op w := by
    cases v <;> simp_all [order, num?]
  rw [hscalar]
  cases v with
  | bool | int | float | fraction => simp [scalarOrder, hw]
  | _ => simp [num?] at hv

theorem list_eq_of_num? {v : Value} {x : Number} (vs : List Value) (hv : v.num? = some x)
    : (list vs).eq v = false := by
  cases v <;> simp_all [eq, num?]

theorem list_order_of_num? {v : Value} {x : Number} (op : OrderOp) (vs : List Value) (hv : v.num? = some x)
    : (list vs).order op v = Option.none := by
  cases v <;> simp_all [order, num?]

@[simp]
theorem truthy_of_num? {v : Value} {x : Number} (h : v.num? = some x)
    : v.truthy = decide (x ≠ .finite 0) := by
  cases v with
  | bool b =>
    cases h
    cases b <;> decide
  | int n | fraction q =>
    cases h
    simp [Value.truthy]
  | float x =>
    cases h
    rfl
  | _ => cases h

theorem contains_list (vs : List Value) (v : Value)
    : (list vs).contains v = some (vs.any fun w => v.eq w) :=
  rfl

/-- An induction principle that reaches into the containers. -/
theorem induct {motive : Value → Prop}
    (scalar : ∀ v, (∀ vs, v ≠ .list vs) → (∀ kvs, v ≠ .dict kvs) → motive v)
    (list : ∀ vs, (∀ v ∈ vs, motive v) → motive (.list vs))
    (dict : ∀ kvs, (∀ kv ∈ kvs, motive kv.2) → motive (.dict kvs))
    : ∀ v, motive v := by
  refine @Value.rec motive (fun vs => ∀ v ∈ vs, motive v) (fun kvs => ∀ kv ∈ kvs, motive kv.2) (fun kv => motive kv.2)
    ?_ ?_ ?_ ?_ ?_ ?_ ?_ ?_ ?_ list dict ?_ ?_ ?_ ?_ ?_
  case refine_10 => simp
  case refine_11 =>
    intro v vs ihv ihvs
    exact List.forall_mem_cons.mpr ⟨ihv, ihvs⟩
  case refine_12 => simp
  case refine_13 =>
    intro kv kvs ihkv ihkvs
    exact List.forall_mem_cons.mpr ⟨ihkv, ihkvs⟩
  case refine_14 =>
    intro k v ih
    exact ih
  all_goals
    intros
    exact scalar _ (by simp) (by simp)

end Value

end Python
