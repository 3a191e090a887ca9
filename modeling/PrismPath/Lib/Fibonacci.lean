import Mathlib.Data.Nat.Fib.Basic
import Mathlib.Data.List.Chain

/-!
This module contains numbers written in Fibonacci digits, no two neighbouring ones: every number below the next
Fibonacci number has one such numeral of a given length, and the greedy choice finds it.
-/

namespace Fibonacci

/-- `1, 2, 3, 5, ...`, so many of them. -/
def fibs (n : ℕ) : List ℕ :=
  (List.range n).map fun i => Nat.fib (i + 2)

@[simp]
theorem length_fibs (n : ℕ)
    : (fibs n).length = n := by
  simp [fibs]

theorem fibs_succ (n : ℕ)
    : fibs (n + 1) = fibs n ++ [Nat.fib (n + 2)] := by
  simp [fibs, List.range_succ]

theorem fibs_succ_reverse (n : ℕ)
    : (fibs (n + 1)).reverse = Nat.fib (n + 2) :: (fibs n).reverse := by
  rw [fibs_succ, List.reverse_append, List.reverse_singleton, List.singleton_append]

/-- The value of digits, the highest first. -/
def weight : List Bool → ℕ
  | [] => 0
  | b :: ds => (if b then Nat.fib (ds.length + 2) else 0) + weight ds

@[simp]
theorem weight_nil
    : weight [] = 0 := rfl

@[simp]
theorem weight_false (ds : List Bool)
    : weight (false :: ds) = weight ds := by
  simp [weight]

@[simp]
theorem weight_true (ds : List Bool)
    : weight (true :: ds) = Nat.fib (ds.length + 2) + weight ds := by
  simp [weight]

/-- No two neighbouring ones. -/
def Sparse (ds : List Bool) : Prop :=
  ds.IsChain fun a b => ¬ (a = true ∧ b = true)

theorem sparse_nil
    : Sparse [] :=
  List.isChain_nil

theorem sparse_singleton (b : Bool)
    : Sparse [b] :=
  List.isChain_singleton b

theorem sparse_reverse {ds : List Bool}
    : Sparse ds.reverse ↔ Sparse ds := by
  rw [Sparse, List.isChain_reverse, Sparse]
  simp only [and_comm]

theorem Sparse.tail {b : Bool} {ds : List Bool} (h : Sparse (b :: ds))
    : Sparse ds :=
  List.IsChain.tail h

theorem Sparse.cons_false {ds : List Bool} (h : Sparse ds)
    : Sparse (false :: ds) := by
  cases ds with
  | nil => exact sparse_singleton false
  | cons b ds => exact List.isChain_cons_cons.mpr ⟨by simp, h⟩

theorem Sparse.cons_true_false {ds : List Bool} (h : Sparse ds)
    : Sparse (true :: false :: ds) :=
  List.isChain_cons_cons.mpr ⟨by simp, h.cons_false⟩

theorem not_sparse_true_true (ds : List Bool)
    : ¬ Sparse (true :: true :: ds) := by
  intro h
  exact (List.isChain_cons_cons.mp h).1 ⟨rfl, rfl⟩

/-- Digits without neighbouring ones stay below the next Fibonacci number. -/
theorem weight_lt : ∀ {ds : List Bool}, Sparse ds → weight ds < Nat.fib (ds.length + 2)
  | [], _ => by decide
  | false :: ds, h => by
    have hrest := weight_lt h.tail
    have hmono := Nat.fib_mono (show ds.length + 2 ≤ ds.length + 1 + 2 by omega)
    rw [weight_false, List.length_cons]
    omega
  | [true], _ => by decide
  | true :: false :: ds, h => by
    have hrest := weight_lt h.tail.tail
    have hfib : Nat.fib (ds.length + 4) = Nat.fib (ds.length + 2) + Nat.fib (ds.length + 3) :=
      Nat.fib_add_two
    have hweight : weight (true :: false :: ds) = Nat.fib (ds.length + 3) + weight ds := by
      rw [weight_true, weight_false, List.length_cons]
    rw [hweight]
    show _ < Nat.fib (ds.length + 4)
    omega
  | true :: true :: ds, h => absurd h (not_sparse_true_true ds)

/-- Every number below the next Fibonacci number has such digits. -/
theorem exists_weight : ∀ (n : ℕ) {rem : ℕ}, rem < Nat.fib (n + 2)
    → ∃ ds : List Bool, ds.length = n ∧ Sparse ds ∧ weight ds = rem
  | 0, rem, h => by
    have hzero : rem = 0 := by
      have : Nat.fib (0 + 2) = 1 := rfl
      omega
    exact ⟨[], rfl, sparse_nil, hzero.symm⟩
  | 1, rem, h => by
    have htwo : rem < 2 := h
    rcases Nat.lt_or_ge rem 1 with hlt | hge
    . exact ⟨[false], rfl, sparse_singleton false, by simp; omega⟩
    . exact ⟨[true], rfl, sparse_singleton true, by simp; omega⟩
  | n + 2, rem, h => by
    rcases Nat.lt_or_ge rem (Nat.fib (n + 3)) with hlt | hge
    . rcases exists_weight (n + 1) hlt with ⟨ds, hlen, hsparse, hweight⟩
      exact ⟨false :: ds, by simp [hlen], hsparse.cons_false, by simp [hweight]⟩
    . have hfib := Nat.fib_add_two (n := n + 2)
      have hless : rem - Nat.fib (n + 3) < Nat.fib (n + 2) := by
        have : Nat.fib (n + 2 + 2) = Nat.fib (n + 2) + Nat.fib (n + 3) := hfib
        omega
      rcases exists_weight n hless with ⟨ds, hlen, hsparse, hweight⟩
      refine ⟨true :: false :: ds, by simp [hlen], hsparse.cons_true_false, ?_⟩
      have hplace : Nat.fib (n + 1 + 2) = Nat.fib (n + 3) := rfl
      simp only [weight_true, weight_false, List.length_cons, hlen, hweight]
      omega

/-- From the highest digit down, a one wherever the Fibonacci number fits into what is left. -/
def greedy : List ℕ → ℕ → List Bool × ℕ
  | [], rem => ([], rem)
  | f :: fs, rem =>
    if f ≤ rem then
      let (ds, rest) := greedy fs (rem - f)
      (true :: ds, rest)
    else
      let (ds, rest) := greedy fs rem
      (false :: ds, rest)

theorem greedy_weight {ds : List Bool} (h : Sparse ds)
    : greedy (fibs ds.length).reverse (weight ds) = (ds, 0) := by
  induction ds with
  | nil => rfl
  | cons b ds ih =>
    rw [List.length_cons, fibs_succ_reverse, greedy]
    cases b with
    | true =>
      rw [if_pos (by simp), weight_true, Nat.add_sub_cancel_left, ih h.tail]
    | false =>
      have hlt := weight_lt h.tail
      rw [if_neg (by rw [weight_false]; omega), weight_false, ih h.tail]

/-- The numeral is as long as the number asks for when its highest digit is a one. -/
theorem fib_le_weight_iff {b : Bool} {ds : List Bool} (h : Sparse (b :: ds))
    : Nat.fib (ds.length + 2) ≤ weight (b :: ds) ↔ b = true := by
  cases b with
  | true => simp
  | false =>
    have hlt := weight_lt h.tail
    simp only [weight_false, Bool.false_eq_true, iff_false]
    omega

/-- The numeral of a number from one Fibonacci number to the next. -/
theorem exists_numeral {n value : ℕ} (hge : Nat.fib (n + 2) ≤ value) (hlt : value < Nat.fib (n + 3))
    : ∃ ds : List Bool, ds.length = n ∧ Sparse (true :: ds) ∧ weight (true :: ds) = value := by
  rcases exists_weight (n + 1) hlt with ⟨ds, hlen, hsparse, hweight⟩
  cases ds with
  | nil => simp at hlen
  | cons b ds =>
    have hlength : ds.length = n := by simpa using hlen
    have htop : b = true := by
      rw [← fib_le_weight_iff hsparse, hlength, hweight]
      exact hge
    subst htop
    exact ⟨ds, hlength, hsparse, hweight⟩

theorem sum_zip_fibs (ds : List Bool)
    : (((fibs ds.length).zip ds.reverse).map fun (f, b) => if b then f else 0).sum = weight ds := by
  induction ds with
  | nil => rfl
  | cons b ds ih =>
    rw [List.length_cons, fibs_succ, List.reverse_cons, List.zip_append (by simp), List.map_append,
      List.sum_append, ih, weight]
    simp [Nat.add_comm]

end Fibonacci
