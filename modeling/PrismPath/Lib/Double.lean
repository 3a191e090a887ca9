import Mathlib.Data.Int.Log
import Mathlib.Data.Rat.Floor
import Mathlib.Algebra.Order.Ring.Rat
import Mathlib.Tactic

/-!
This module contains the finite IEEE 754 double precision numbers as the rationals they denote, and
rounding to nearest with ties to even. There is no signed zero: nothing here can tell `-0.0` from `0.0`.
-/

/-- `q` is the value of some finite double. -/
def IsDouble (q : ℚ) : Prop :=
  ∃ m e : ℤ, |m| < 2 ^ 53 ∧ -1074 ≤ e ∧ e ≤ 971 ∧ q = m * (2 : ℚ) ^ e

abbrev Double : Type := { q : ℚ // IsDouble q }

namespace Double

theorem isDouble_of_int {n : ℤ} (h : |n| < 2 ^ 53)
    : IsDouble n := by
  refine ⟨n, 0, h, by omega, by omega, ?_⟩
  simp

instance : Zero Double where
  zero := ⟨0, 0, 0, by simp, by omega, by omega, by simp⟩

@[simp]
theorem val_zero : (0 : Double).val = 0 := rfl

/-- Rounding to an integer, to the even one from halfway between two. -/
def roundHalfEven (q : ℚ) : ℤ :=
  let m := ⌊q⌋
  if q - m < 1 / 2 then
    m
  else if 1 / 2 < q - m then
    m + 1
  else if m % 2 = 0 then
    m
  else
    m + 1

@[simp]
theorem roundHalfEven_intCast (n : ℤ)
    : roundHalfEven n = n := by
  simp [roundHalfEven]

theorem abs_roundHalfEven_le {q : ℚ} {n : ℤ} (h : |q| ≤ n)
    : |roundHalfEven q| ≤ n := by
  have hfloor : ⌊q⌋ ≤ n := by
    have : q ≤ n := le_trans (le_abs_self q) h
    exact_mod_cast le_trans (Int.floor_le q) this
  have hceil : -n ≤ ⌊q⌋ := by
    rw [Int.le_floor]
    push_cast
    exact neg_le_of_abs_le h
  have hround : roundHalfEven q = ⌊q⌋ ∨ (roundHalfEven q = ⌊q⌋ + 1 ∧ (⌊q⌋ : ℚ) < q) := by
    unfold roundHalfEven
    dsimp only
    split
    . exact Or.inl rfl
    . next hge =>
      have : (⌊q⌋ : ℚ) < q := by linarith
      split
      . exact Or.inr ⟨rfl, this⟩
      . split
        . exact Or.inl rfl
        . exact Or.inr ⟨rfl, this⟩
  rw [abs_le]
  rcases hround with hround | ⟨hround, hlt⟩
  . omega
  . have : ⌊q⌋ < n := by
      have hq : q ≤ n := le_trans (le_abs_self q) h
      exact_mod_cast lt_of_lt_of_le hlt hq
    omega

theorem le_abs_roundHalfEven {q : ℚ} {n : ℤ} (hn : 0 ≤ n) (h : (n : ℚ) ≤ |q|)
    : n ≤ |roundHalfEven q| := by
  have hfloor : ⌊q⌋ ≤ roundHalfEven q ∧ roundHalfEven q ≤ ⌊q⌋ + 1 := by
    unfold roundHalfEven
    dsimp only
    split_ifs <;> omega
  rcases le_abs.mp h with h | h
  . have : n ≤ ⌊q⌋ := by
      rw [Int.le_floor]
      exact h
    exact le_trans (by omega) (le_abs_self _)
  . by_cases hint : q = ((-n : ℤ) : ℚ)
    . rw [hint, roundHalfEven_intCast, abs_neg, abs_of_nonneg hn]
    . have : ⌊q⌋ < -n := by
        rw [Int.floor_lt]
        refine lt_of_le_of_ne ?_ hint
        push_cast
        linarith
      exact le_trans (by omega) (neg_le_abs _)

/-- The first power of two out of range. -/
def overflowBound : ℚ :=
  (2 : ℚ) ^ (1024 : ℤ)

theorem pow_mul_zpow_eq_overflowBound {k : ℕ} {e : ℤ} (h : k + e = 1024)
    : (2 : ℚ) ^ k * (2 : ℚ) ^ e = overflowBound := by
  rw [← zpow_natCast, ← zpow_add₀ (by norm_num), h]
  rfl

/-- The exponent of the last mantissa bit of the doubles around `q`. -/
def ulpExp (q : ℚ) : ℤ :=
  max (Int.log 2 |q| - 52) (-1074)

/-- The integer mantissa and the value `q` rounds to, before the range check. -/
def roundedMantissa (q : ℚ) : ℤ :=
  roundHalfEven (q / (2 : ℚ) ^ ulpExp q)

theorem abs_roundedMantissa_le (q : ℚ)
    : |roundedMantissa q| ≤ 2 ^ 53 := by
  have hpos : (0 : ℚ) < (2 : ℚ) ^ ulpExp q := by positivity
  have hlog : |q| < (2 : ℚ) ^ (Int.log 2 |q| + 1) := by
    exact_mod_cast Int.lt_zpow_succ_log_self (b := 2) (by omega) |q|
  have hexp : Int.log 2 |q| + 1 ≤ 53 + ulpExp q := by
    unfold ulpExp
    omega
  have hle : |q| ≤ (2 : ℚ) ^ (53 : ℤ) * (2 : ℚ) ^ ulpExp q := by
    rw [← zpow_add₀ (by norm_num)]
    exact le_trans hlog.le (zpow_le_zpow_right₀ (by norm_num) hexp)
  apply abs_roundHalfEven_le
  rw [abs_div, abs_of_pos hpos, div_le_iff₀ hpos]
  exact_mod_cast hle

theorem isDouble_rounded {q : ℚ} (h : q ≠ 0)
    (hrange : |(roundedMantissa q : ℚ) * (2 : ℚ) ^ ulpExp q| < overflowBound)
    : IsDouble (roundedMantissa q * (2 : ℚ) ^ ulpExp q) := by
  have hm := abs_roundedMantissa_le q
  have hlow : -1074 ≤ ulpExp q := le_max_right _ _
  by_cases hzero : roundedMantissa q = 0
  . rw [hzero]
    refine ⟨0, 0, by simp, by omega, by omega, by simp⟩
  have hmpos : (1 : ℚ) ≤ |(roundedMantissa q : ℚ)| := by
    have : 1 ≤ |roundedMantissa q| := Int.one_le_abs hzero
    exact_mod_cast this
  -- The mantissa `2 ^ 53` only arises by rounding up, and is the mantissa `2 ^ 52` one exponent higher.
  by_cases htop : |roundedMantissa q| = 2 ^ 53
  . have hexp : ulpExp q < 971 := by
      by_contra hge
      have hge : (971 : ℤ) ≤ ulpExp q := by omega
      have : (2 : ℚ) ^ (971 : ℤ) ≤ (2 : ℚ) ^ ulpExp q := zpow_le_zpow_right₀ (by norm_num) hge
      have habs : |(roundedMantissa q : ℚ)| = 2 ^ 53 := by exact_mod_cast congrArg (Int.cast (R := ℚ)) htop
      rw [abs_mul, habs, abs_of_pos (by positivity)] at hrange
      have : (2 : ℚ) ^ 53 * (2 : ℚ) ^ (971 : ℤ) ≤ 2 ^ 53 * (2 : ℚ) ^ ulpExp q := by gcongr
      rw [pow_mul_zpow_eq_overflowBound (by norm_num)] at this
      exact absurd hrange (not_lt.mpr this)
    have hhalf : roundedMantissa q = 2 * (roundedMantissa q / 2) ∧ |roundedMantissa q / 2| < 2 ^ 53 := by
      rcases abs_eq (by norm_num : (0 : ℤ) ≤ 2 ^ 53) |>.mp htop with htop | htop
      . rw [htop]
        norm_num
      . rw [htop]
        norm_num
    refine ⟨roundedMantissa q / 2, ulpExp q + 1, hhalf.2, by omega, by omega, ?_⟩
    rw [zpow_add_one₀ (by norm_num)]
    have : (roundedMantissa q : ℚ) = 2 * ((roundedMantissa q / 2 : ℤ) : ℚ) := by
      exact_mod_cast congrArg (Int.cast (R := ℚ)) hhalf.1
    rw [this]
    ring
  . have hexp : ulpExp q ≤ 971 := by
      by_contra hgt
      have hgt : (972 : ℤ) ≤ ulpExp q := by omega
      have hlog : (2 : ℚ) ^ (Int.log 2 |q|) ≤ |q| := by
        exact_mod_cast Int.zpow_log_le_self (b := 2) (by omega) (abs_pos.mpr h)
      have hulp : ulpExp q = Int.log 2 |q| - 52 := by
        unfold ulpExp at hgt ⊢
        omega
      -- a normal number keeps its leading bit, so its mantissa is at least `2 ^ 52`
      have hbig : (2 ^ 52 : ℤ) ≤ |roundedMantissa q| := by
        have hpos : (0 : ℚ) < (2 : ℚ) ^ ulpExp q := by positivity
        have hq : (2 ^ 52 : ℚ) ≤ |q / (2 : ℚ) ^ ulpExp q| := by
          rw [abs_div, abs_of_pos hpos, le_div_iff₀ hpos, hulp]
          calc (2 ^ 52 : ℚ) * (2 : ℚ) ^ (Int.log 2 |q| - 52)
              = (2 : ℚ) ^ (52 : ℤ) * (2 : ℚ) ^ (Int.log 2 |q| - 52) := by norm_cast
            _ = (2 : ℚ) ^ (Int.log 2 |q|) := by rw [← zpow_add₀ (by norm_num)]; congr 1; omega
            _ ≤ |q| := hlog
        exact le_abs_roundHalfEven (by norm_num) (by exact_mod_cast hq)
      have habs : (2 ^ 52 : ℚ) ≤ |(roundedMantissa q : ℚ)| := by exact_mod_cast hbig
      rw [abs_mul, abs_of_pos (by positivity : (0 : ℚ) < (2 : ℚ) ^ ulpExp q)] at hrange
      have h1 : (2 : ℚ) ^ (972 : ℤ) ≤ (2 : ℚ) ^ ulpExp q := zpow_le_zpow_right₀ (by norm_num) hgt
      have h2 : (2 ^ 52 : ℚ) * (2 : ℚ) ^ (972 : ℤ) ≤ |(roundedMantissa q : ℚ)| * (2 : ℚ) ^ ulpExp q := by gcongr
      rw [pow_mul_zpow_eq_overflowBound (by norm_num)] at h2
      exact absurd hrange (not_lt.mpr h2)
    exact ⟨roundedMantissa q, ulpExp q, by omega, hlow, hexp, rfl⟩

/-- The double nearest to `q`, ties to even, or `none` when that is out of range. -/
def round (q : ℚ) : Option Double :=
  if h : q = 0 then
    some 0
  else if hrange : |(roundedMantissa q : ℚ) * (2 : ℚ) ^ ulpExp q| < overflowBound then
    some ⟨_, isDouble_rounded h hrange⟩
  else
    none

theorem roundHalfEven_nonneg {q : ℚ} (h : 0 ≤ q)
    : 0 ≤ roundHalfEven q := by
  have hfloor : 0 ≤ ⌊q⌋ := Int.floor_nonneg.mpr h
  unfold roundHalfEven
  dsimp only
  split_ifs <;> omega

theorem round_nonneg {q : ℚ} {x : Double} (h : 0 ≤ q) (hround : round q = some x)
    : 0 ≤ x.val := by
  unfold round at hround
  split at hround
  . cases hround
    exact le_refl _
  . split at hround
    . cases hround
      have hmantissa : 0 ≤ roundedMantissa q := roundHalfEven_nonneg (by positivity)
      have hcast : (0 : ℚ) ≤ roundedMantissa q := by exact_mod_cast hmantissa
      positivity
    . cases hround

/-- A number below a power of two in range rounds to a double that is at most that power. -/
theorem exists_round {q : ℚ} {k : ℕ} (hk : k < 1024) (h : |q| < 2 ^ k)
    : ∃ x, round q = some x ∧ |x.val| ≤ 2 ^ k := by
  by_cases hq : q = 0
  . refine ⟨0, ?_, ?_⟩
    . rw [round, dif_pos hq]
    . rw [val_zero, abs_zero]
      positivity
  . have hlog : Int.log 2 |q| < k := by
      rw [← Int.lt_zpow_iff_log_lt (by omega) (abs_pos.mpr hq)]
      exact_mod_cast h
    have hulp : ulpExp q ≤ k - 53 := by
      unfold ulpExp
      omega
    have hle : |(roundedMantissa q : ℚ) * (2 : ℚ) ^ ulpExp q| ≤ 2 ^ k := by
      have hm : |(roundedMantissa q : ℚ)| ≤ 2 ^ 53 := by exact_mod_cast abs_roundedMantissa_le q
      rw [abs_mul, abs_of_pos (by positivity : (0 : ℚ) < (2 : ℚ) ^ ulpExp q)]
      calc |(roundedMantissa q : ℚ)| * (2 : ℚ) ^ ulpExp q
        _ ≤ 2 ^ 53 * (2 : ℚ) ^ ((k : ℤ) - 53) :=
          mul_le_mul hm (zpow_le_zpow_right₀ (by norm_num) hulp) (by positivity) (by positivity)
        _ = 2 ^ k := by
          rw [← zpow_natCast, ← zpow_natCast, ← zpow_add₀ (by norm_num)]
          congr 1
          push_cast
          ring
    have hrange : |(roundedMantissa q : ℚ) * (2 : ℚ) ^ ulpExp q| < overflowBound := by
      refine lt_of_le_of_lt hle ?_
      rw [overflowBound, ← zpow_natCast]
      exact zpow_lt_zpow_right₀ (by norm_num) (by omega)
    refine ⟨⟨_, isDouble_rounded hq hrange⟩, ?_, hle⟩
    rw [round, dif_neg hq, dif_pos hrange]

theorem abs_lt_of_isDouble {q : ℚ} (h : IsDouble q)
    : |q| < overflowBound := by
  rcases h with ⟨m, e, hm, -, he, rfl⟩
  have hpow : (2 : ℚ) ^ e ≤ (2 : ℚ) ^ (971 : ℤ) := zpow_le_zpow_right₀ (by norm_num) he
  have hmq : |(m : ℚ)| < 2 ^ 53 := by exact_mod_cast hm
  rw [abs_mul, abs_of_pos (by positivity : (0 : ℚ) < (2 : ℚ) ^ e)]
  calc |(m : ℚ)| * (2 : ℚ) ^ e
      < 2 ^ 53 * (2 : ℚ) ^ e := by gcongr
    _ ≤ 2 ^ 53 * (2 : ℚ) ^ (971 : ℤ) := by gcongr
    _ = overflowBound := pow_mul_zpow_eq_overflowBound (by norm_num)

/-- A double is a whole number of units of the last place rounding works in. -/
theorem exists_eq_mul_ulp {q : ℚ} (h : IsDouble q) (hq : q ≠ 0)
    : ∃ n : ℤ, q = n * (2 : ℚ) ^ ulpExp q := by
  rcases h with ⟨m, e, hm, he, -, hval⟩
  have hm0 : m ≠ 0 := by
    rintro rfl
    simp at hval
    contradiction
  have hlog : Int.log 2 |q| < 53 + e := by
    rw [← Int.lt_zpow_iff_log_lt (by omega) (abs_pos.mpr hq)]
    have hmq : |(m : ℚ)| < 2 ^ (53 : ℤ) := by exact_mod_cast hm
    push_cast
    rw [hval, abs_mul, abs_of_pos (by positivity : (0 : ℚ) < (2 : ℚ) ^ e), zpow_add₀ (by norm_num)]
    gcongr
  have hle : ulpExp q ≤ e := by
    unfold ulpExp
    omega
  refine ⟨m * 2 ^ (e - ulpExp q).toNat, ?_⟩
  push_cast
  rw [← zpow_natCast, Int.toNat_of_nonneg (by omega), mul_assoc, ← zpow_add₀ (by norm_num)]
  rw [hval]
  congr 2
  omega

@[simp]
theorem round_val (x : Double)
    : round x.val = some x := by
  rcases x with ⟨q, hq⟩
  unfold round
  split
  . next hzero =>
    subst hzero
    rfl
  . next hzero =>
    rcases exists_eq_mul_ulp hq hzero with ⟨n, hn⟩
    have hmant : roundedMantissa q = n := by
      unfold roundedMantissa
      have hne : (2 : ℚ) ^ ulpExp q ≠ 0 := by positivity
      rw [show q / (2 : ℚ) ^ ulpExp q = n by rw [div_eq_iff hne]; exact hn]
      exact roundHalfEven_intCast n
    have hval : (roundedMantissa q : ℚ) * (2 : ℚ) ^ ulpExp q = q := by
      rw [hmant]
      exact hn.symm
    rw [dif_pos (by rw [hval]; exact abs_lt_of_isDouble hq)]
    simp [hval]

end Double
