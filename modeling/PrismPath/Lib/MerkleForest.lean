import Mathlib

/-!
This module contains the hash trees over a list whose odd layers repeat their last node, and the forests of perfect
trees that a list is cut into as it grows.
-/

namespace MerkleForest

variable {α : Type} (node : α → α → α)

/-- The layer above a layer. -/
def level : List α → List α
  | left :: right :: rest => node left right :: level rest
  | [last] => [node last last]
  | [] => []

/-- The top of the tree of a height over a list, where what is missing repeats what is there. -/
def top [Inhabited α] : ℕ → List α → α
  | 0, xs => xs.headD default
  | height + 1, xs =>
    if xs.length ≤ 2 ^ height then
      node (top height xs) (top height xs)
    else
      node (top height (xs.take (2 ^ height))) (top height (xs.drop (2 ^ height)))

variable {node}

theorem length_level (xs : List α) : (level node xs).length = (xs.length + 1) / 2 := by
  fun_induction level node xs with
  | case1 left right rest ih =>
    simp only [List.length_cons, ih]
    omega
  | case2 last => simp
  | case3 => simp

theorem take_level (xs : List α) (k : ℕ) : level node (xs.take (2 * k)) = (level node xs).take k := by
  induction k generalizing xs with
  | zero => simp [level]
  | succ k ih =>
    rcases xs with _ | ⟨left, _ | ⟨right, rest⟩⟩
    . simp [level]
    . rw [List.take_of_length_le (by simp; omega)]
      simp [level]
    . rw [Nat.mul_add, List.take_succ_cons, List.take_succ_cons, level, level, List.take_succ_cons]
      apply congrArg
      apply ih

theorem drop_level (xs : List α) (k : ℕ) : level node (xs.drop (2 * k)) = (level node xs).drop k := by
  induction k generalizing xs with
  | zero => simp
  | succ k ih =>
    rcases xs with _ | ⟨left, _ | ⟨right, rest⟩⟩
    . simp [level]
    . rw [List.drop_of_length_le (by simp; omega)]
      simp [level]
    . rw [Nat.mul_add, List.drop_succ_cons, List.drop_succ_cons, level, List.drop_succ_cons]
      apply ih

variable [Inhabited α]

theorem top_repeat {height : ℕ} {xs : List α} (h : xs.length ≤ 2 ^ height)
    : top node (height + 1) xs = node (top node height xs) (top node height xs) := by
  rw [top, if_pos h]

theorem top_append {height : ℕ} {xs ys : List α} (hxs : xs.length = 2 ^ height) (hys : ys ≠ [])
    : top node (height + 1) (xs ++ ys) = node (top node height xs) (top node height ys) := by
  have hpos := List.length_pos_iff.mpr hys
  rw [top, if_neg, List.take_left' hxs, List.drop_left' hxs]
  rw [List.length_append]
  omega

/-- A tree is the tree, one lower, over the layer above its leaves. -/
theorem top_level {height : ℕ} {xs : List α} (hne : xs ≠ []) (h : xs.length ≤ 2 ^ (height + 1))
    : top node (height + 1) xs = top node height (level node xs) := by
  induction height generalizing xs with
  | zero =>
    rcases xs with _ | ⟨left, _ | ⟨right, rest⟩⟩
    . exact absurd rfl hne
    . rfl
    . simp only [List.length_cons, Nat.zero_add, Nat.pow_one] at h
      have hrest : rest = [] := List.length_eq_zero_iff.mp (by omega)
      rw [hrest]
      rfl
  | succ height ih =>
    have hlevel := @length_level _ node xs
    rw [top]
    split
    . next hshort =>
      rw [ih hne hshort, top_repeat]
      rw [hlevel]
      omega
    . next hlong =>
      have hpow : 2 ^ (height + 1) = 2 * 2 ^ height := by
        rw [Nat.pow_succ, Nat.mul_comm]
      have htake : xs.take (2 ^ (height + 1)) ≠ [] := by
        apply List.ne_nil_of_length_pos
        rw [List.length_take]
        have := Nat.two_pow_pos (height + 1)
        omega
      have hdrop : xs.drop (2 ^ (height + 1)) ≠ [] := by
        apply List.ne_nil_of_length_pos
        rw [List.length_drop]
        omega
      rw [ih htake (by rw [List.length_take]; omega), ih hdrop (by rw [List.length_drop]; omega), hpow, take_level,
        drop_level, top, if_neg]
      rw [hlevel]
      omega

/-- The height of the tree over so many leaves. -/
def height (leaves : ℕ) : ℕ :=
  Nat.clog 2 leaves

theorem height_succ {leaves : ℕ} (h : 1 < leaves) : height leaves = height ((leaves + 1) / 2) + 1 := by
  apply Nat.clog_of_two_le (by decide) h

theorem length_le_height (leaves : ℕ) : leaves ≤ 2 ^ height leaves := by
  apply (Nat.clog_le_iff_le_pow (by decide)).mp
  apply Nat.le_refl

theorem height_eq {leaves k : ℕ} (hlow : 2 ^ k < leaves) (hhigh : leaves ≤ 2 ^ (k + 1)) : height leaves = k + 1 := by
  apply Nat.le_antisymm
  . apply (Nat.clog_le_iff_le_pow (by decide)).mpr hhigh
  . by_contra hnot
    have hle : Nat.clog 2 leaves ≤ k := by
      unfold height at hnot
      omega
    have := (Nat.clog_le_iff_le_pow (by decide)).mp hle
    omega

/-- The perfect trees that a list is cut into, the lowest, which holds its end, first. -/
inductive Forest (node : α → α → α) : List (ℕ × α) → List α → Prop where
  | nil : Forest node [] []
  | cons {trees : List (ℕ × α)} {xs leaves : List α} {height : ℕ} (hrest : Forest node trees xs)
      (hheight : ∀ tree ∈ trees, height < tree.1) (hleaves : leaves.length = 2 ^ height)
      : Forest node ((height, top node height leaves) :: trees) (xs ++ leaves)

end MerkleForest
