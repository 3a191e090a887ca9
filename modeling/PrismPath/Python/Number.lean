import PrismPath.Python.Value
import Mathlib.Data.List.Sort

/-!
This module contains the arithmetic of `int` and `float` values, and Python's own order on them.
-/

namespace Python

namespace PyFloat

/-- The float nearest to a rational, an infinity when it is out of range. -/
def ofRat (q : ℚ) : PyFloat :=
  match Double.round q with
  | some x => .finite x
  | none => if 0 < q then .posInf else .negInf

def add : PyFloat → PyFloat → PyFloat
  | finite x, finite y => ofRat (x.val + y.val)
  | finite _, y => y
  | x, finite _ => x
  | posInf, posInf => posInf
  | negInf, negInf => negInf
  | _, _ => nan

def half : PyFloat → PyFloat
  | finite x => ofRat (x.val / 2)
  | x => x

end PyFloat

/-- `float(n)`; `none` is the `OverflowError`. -/
def intToFloat (n : ℤ) : Option PyFloat :=
  (Double.round n).map .finite

namespace Value

/-- `v + n` for a small integer `n`, which no float conversion of `n` rounds. -/
def shift (n : ℤ) : Value → Option Value
  | int k => some (.int (k + n))
  | float x => some (.float (x.add (.ofRat n)))
  | _ => Option.none

/-- `(v + w) / 2`; `none` is the `OverflowError`. -/
def midpoint : Value → Value → Option Value
  | int m, int n => (Double.round ((m + n : ℤ) / 2)).map fun x => .float (.finite x)
  | int m, float y => (intToFloat m).map fun x => .float (x.add y).half
  | float x, int n => (intToFloat n).map fun y => .float (x.add y).half
  | float x, float y => some (.float (x.add y).half)
  | _, _ => Option.none

/-- `int(v)`, which goes towards zero; `none` is the `OverflowError` of an infinity. -/
def truncate : Value → Option ℤ
  | int n => some n
  | float (.finite x) => some (if 0 ≤ x.val then ⌊x.val⌋ else ⌈x.val⌉)
  | _ => Option.none

/-- `v <= w` on two numbers. -/
def numLe (v w : Value) : Prop :=
  v.order .le w = some true

instance : DecidableRel numLe := fun v w =>
  inferInstanceAs (Decidable (v.order .le w = some true))

end Value

/-- Dropping every element that is the same as an earlier one. -/
def dedupBy {α : Type} (same : α → α → Bool) (vs : List α) : List α :=
  vs.foldl (fun out v => if out.any (same v) then out else out ++ [v]) []

theorem dedupBy_append_singleton {α : Type} (same : α → α → Bool) (vs : List α) (v : α)
    : dedupBy same (vs ++ [v])
        =
      if (dedupBy same vs).any (same v) then dedupBy same vs else dedupBy same vs ++ [v] := by
  simp [dedupBy]

/-- Every element is kept, or is the same as one that is. -/
theorem exists_mem_dedupBy {α : Type} (same : α → α → Bool) {vs : List α} {v : α} (h : v ∈ vs)
    : ∃ w ∈ dedupBy same vs, w = v ∨ same v w = true := by
  induction vs using List.reverseRecOn with
  | nil => contradiction
  | append_singleton vs u ih =>
    rw [dedupBy_append_singleton]
    split
    . next hany =>
      rcases List.mem_append.mp h with h | h
      . exact ih h
      . rw [List.mem_singleton] at h
        subst h
        rcases List.any_eq_true.mp hany with ⟨w, hw, hsame⟩
        exact ⟨w, hw, Or.inr hsame⟩
    . rcases List.mem_append.mp h with h | h
      . rcases ih h with ⟨w, hw, hsame⟩
        exact ⟨w, List.mem_append_left _ hw, hsame⟩
      . exact ⟨v, List.mem_append_right _ h, Or.inl rfl⟩

end Python
