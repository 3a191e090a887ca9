import Mathlib.Tactic.Linarith
import PrismPath.Python.Value

/-!
This module contains which values Python orders, and that on these every ordering operator is the negation of its opposite.
-/

namespace Python

namespace Value

def scalarComparable : Value → Value → Bool
  | str _, str _ => true
  | bytes _, bytes _ => true
  | v, w =>
    match v.num?, w.num? with
    | some x, some y => x ≠ .nan && y ≠ .nan
    | _, _ => false

mutual

/-- The values are of one ordered type, and no NaN decides between them. -/
def comparable : Value → Value → Bool
  | list vs, w =>
    match w with
    | list ws => comparableList vs ws
    | _ => false
  | v, w => scalarComparable v w

def comparableList : List Value → List Value → Bool
  | [], _ => true
  | _ :: _, [] => true
  | v :: vs, w :: ws => if eq v w then comparableList vs ws else comparable v w

end

namespace OrderOp

def opposite : OrderOp → OrderOp
  | lt => ge
  | ge => lt
  | gt => le
  | le => gt

theorem num_of_nan (op : OrderOp) {x y : Number} (h : x = .nan ∨ y = .nan)
    : op.num x y = false := by
  rcases h with rfl | rfl
  . cases op <;> cases y <;> rfl
  . cases op <;> cases x <;> rfl

theorem num_opposite (op : OrderOp) {x y : Number} (hx : x ≠ .nan) (hy : y ≠ .nan)
    : op.opposite.num x y = !op.num x y := by
  cases op <;> cases x <;> cases y <;>
    simp_all [opposite, OrderOp.num, Number.le, Number.lt, Number.eq] <;>
    grind

theorem nat_opposite (op : OrderOp) (m n : ℕ)
    : op.opposite.nat m n = !op.nat m n := by
  cases op <;> simp [opposite, OrderOp.nat] <;> grind

theorem str_opposite (op : OrderOp) (s t : String)
    : op.opposite.str s t = !op.str s t := by
  cases op <;> simp [opposite, OrderOp.str]

theorem bytes_opposite (op : OrderOp) (s t : List UInt8)
    : op.opposite.bytes s t = !op.bytes s t := by
  induction s generalizing t with
  | nil =>
    unfold OrderOp.bytes
    apply nat_opposite
  | cons x s ih =>
    cases t with
    | nil =>
      unfold OrderOp.bytes
      apply nat_opposite
    | cons y t =>
      unfold OrderOp.bytes
      split
      . apply ih
      . apply nat_opposite

end OrderOp

/-- Of values that are ordered, exactly one of two opposite orders holds; of the others, none does. -/
def Decides (comparable : Bool) (order opposite : Option Bool) : Prop :=
  if comparable then ∃ b, order = some b ∧ opposite = some (!b) else order.getD false = false

theorem scalarOrder_decides (op : OrderOp) (v w : Value)
    : Decides (scalarComparable v w) (scalarOrder op v w) (scalarOrder op.opposite v w) := by
  unfold scalarComparable
  split
  . next s t =>
    exact ⟨op.str s t, rfl, by rw [scalarOrder, OrderOp.str_opposite]⟩
  . next s t =>
    exact ⟨op.bytes s t, rfl, by rw [scalarOrder, OrderOp.bytes_opposite]⟩
  . next hstr hbytes =>
    have horder (op : OrderOp) : scalarOrder op v w = match v.num?, w.num? with
        | some x, some y => some (op.num x y)
        | _, _ => Option.none := by
      unfold scalarOrder
      split
      . next s t => exact absurd rfl (hstr s t rfl)
      . next s t => exact absurd rfl (hbytes s t rfl)
      . rfl
    rw [horder, horder]
    split
    . next x y hx hy =>
      unfold Decides
      split
      . next h =>
        simp only [ne_eq, decide_not, Bool.and_eq_true, Bool.not_eq_true', decide_eq_false_iff_not] at h
        exact ⟨op.num x y, rfl, by rw [OrderOp.num_opposite op h.1 h.2]⟩
      . next h =>
        have hnan : x = .nan ∨ y = .nan := by
          by_contra hnot
          rw [not_or] at hnot
          apply h
          simp [hnot.1, hnot.2]
        exact OrderOp.num_of_nan op hnan
    . rfl

mutual

theorem order_decides (op : OrderOp) (v w : Value)
    : Decides (comparable v w) (order op v w) (order op.opposite v w) := by
  cases v with
  | list vs =>
    cases w with
    | list ws =>
      rw [comparable, order, order]
      exact orderList_decides op vs ws
    | _ => rw [comparable, order, order] <;> first | rfl | simp
  | _ =>
    rw [comparable, order, order] <;> first | apply scalarOrder_decides | simp

theorem orderList_decides (op : OrderOp) (vs ws : List Value)
    : Decides (comparableList vs ws) (orderList op vs ws) (orderList op.opposite vs ws) := by
  cases vs with
  | nil =>
    rw [comparableList, orderList, orderList]
    exact ⟨_, rfl, by rw [OrderOp.nat_opposite]⟩
  | cons v vs =>
    cases ws with
    | nil =>
      rw [comparableList, orderList, orderList]
      exact ⟨_, rfl, by rw [OrderOp.nat_opposite]⟩
    | cons w ws =>
      rw [comparableList, orderList, orderList]
      split
      . apply orderList_decides
      . apply order_decides

end

theorem comparable_none (w : Value)
    : comparable .none w = false := by
  rw [comparable, scalarComparable] <;> simp [num?]

end Value

end Python
