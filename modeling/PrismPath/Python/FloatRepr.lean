import PrismPath.Lib.Json
import PrismPath.Python.Value

/-!
This module contains floats with the sign of their zeros, the shortest decimal that reads back as a float, which
`float.__repr__` writes, and that reading it back gives the float again.
-/

namespace Python

/-- A decimal `coeff * 10 ^ exp`. -/
structure Decimal where
  coeff : ℕ
  exp : ℤ

namespace Decimal

def value (d : Decimal) : ℚ :=
  d.coeff * (10 : ℚ) ^ d.exp

def roundsTo (d : Decimal) (x : Double) : Bool :=
  Double.round d.value = some x

/-- The two decimals of `n` digits around `x`, the nearer one of those that round to it. -/
def closest (x : Double) (n : ℕ) : Option Decimal :=
  let exp := Int.log 10 x.val - n + 1
  let coeff := ⌊x.val / (10 : ℚ) ^ exp⌋.toNat
  let lo : Decimal := ⟨coeff, exp⟩
  let hi : Decimal := ⟨coeff + 1, exp⟩
  if lo.roundsTo x then
    if hi.roundsTo x then
      if x.val - lo.value < hi.value - x.val then some lo
      else if hi.value - x.val < x.val - lo.value then some hi
      else if coeff % 2 = 0 then some lo else some hi
    else
      some lo
  else if hi.roundsTo x then
    some hi
  else
    none

/-- No double has more digits after its point. -/
def places : ℕ :=
  1074

/-- All the digits of `x`. -/
def exact (x : Double) : Decimal :=
  ⟨(x.val * 10 ^ places).num.toNat, -places⟩

def dropZeros : ℕ → ℕ → ℤ → Decimal
  | 0, coeff, exp => ⟨coeff, exp⟩
  | fuel + 1, coeff, exp =>
    if coeff % 10 = 0 ∧ coeff ≠ 0 then dropZeros fuel (coeff / 10) (exp + 1) else ⟨coeff, exp⟩

/-- The shortest decimal that rounds to `x`. Seventeen digits are always enough, so the exact one is not met. -/
def shortest (x : Double) : Decimal :=
  if x.val = 0 then
    ⟨0, 0⟩
  else
    let d := ((List.range 17).findSome? fun n => closest x (n + 1)).getD (exact x)
    dropZeros (Nat.toDigits 10 d.coeff).length d.coeff d.exp

end Decimal

namespace FloatRepr

theorem isDigit_padded (k m : ℕ)
    : ∀ c ∈ List.replicate (k - (Nat.toDigits 10 m).length) '0' ++ Nat.toDigits 10 m, c.isDigit = true := by
  intro c hc
  rcases List.mem_append.mp hc with hc | hc
  . rw [List.eq_of_mem_replicate hc]
    rfl
  . exact Nat.isDigit_of_mem_toDigits (by decide) (by decide) hc

/-- The digits of `m`, with zeros in front of them up to a length of `k`. -/
def padded (k m : ℕ) : Json.Digits :=
  ⟨List.replicate (k - (Nat.toDigits 10 m).length) '0' ++ Nat.toDigits 10 m, isDigit_padded k m⟩

theorem padded_ne_nil (k m : ℕ)
    : (padded k m).val ≠ [] := by
  simp [padded]

def fixed (neg : Bool) (d : Decimal) : Json.Number :=
  if 0 ≤ d.exp then
    ⟨neg, d.coeff * 10 ^ d.exp.toNat, padded 1 0, none⟩
  else
    let k := (-d.exp).toNat
    ⟨neg, d.coeff / 10 ^ k, padded k (d.coeff % 10 ^ k), none⟩

/-- The exponent part: its sign always, and two digits or more. -/
def exponentOf (e : ℤ) : Json.Exponent :=
  ⟨some (e < 0), padded 2 e.natAbs, padded_ne_nil 2 e.natAbs⟩

def scientific (neg : Bool) (d : Decimal) : Json.Number :=
  let n := (Nat.toDigits 10 d.coeff).length
  let fraction := if n = 1 then Json.noDigits else padded (n - 1) (d.coeff % 10 ^ (n - 1))
  ⟨neg, d.coeff / 10 ^ (n - 1), fraction, some (exponentOf (n + d.exp - 1))⟩

/-- The decimal point stands at most three zeros before the digits, and at most at the sixteenth place. -/
def number (neg : Bool) (d : Decimal) : Json.Number :=
  let point := (Nat.toDigits 10 d.coeff).length + d.exp
  if -4 < point ∧ point ≤ 16 then fixed neg d else scientific neg d

end FloatRepr

end Python

namespace Json

def Digits.nat (ds : Digits) : ℕ :=
  Nat.ofDigitChars 10 ds.val 0

def Exponent.value (e : Exponent) : ℤ :=
  if e.sign = some true then -(e.digits.nat : ℤ) else e.digits.nat

/-- The magnitude of a number. -/
def Number.value (n : Number) : ℚ :=
  (n.whole + n.fraction.nat / 10 ^ n.fraction.val.length) * (10 : ℚ) ^ (n.exponent.elim 0 Exponent.value)

end Json

namespace Python

open Json FloatRepr

theorem nat_padded (k m : ℕ)
    : (padded k m).nat = m := by
  rw [Digits.nat, padded, Nat.ofDigitChars_append, Nat.ofDigitChars_replicate_zero, Nat.mul_zero,
    Nat.ofDigitChars_ten_toDigits]

theorem length_padded {k m : ℕ} (hk : 0 < k) (h : m < 10 ^ k)
    : (padded k m).val.length = k := by
  have hlen := (Nat.length_toDigits_le_iff (by decide) hk).mpr h
  rw [padded, List.length_append, List.length_replicate]
  omega

theorem value_fixed (neg : Bool) (d : Decimal)
    : (fixed neg d).value = d.value := by
  unfold fixed
  split
  . next hexp =>
    have hz : (10 : ℚ) ^ d.exp = 10 ^ d.exp.toNat := by
      rw [← zpow_natCast, Int.toNat_of_nonneg hexp]
    simp [Number.value, nat_padded, Decimal.value, hz]
  . next hexp =>
    have hk : 0 < (-d.exp).toNat := by omega
    have hz : (10 : ℚ) ^ d.exp = (10 ^ (-d.exp).toNat)⁻¹ := by
      rw [← zpow_natCast, Int.toNat_of_nonneg (by omega), zpow_neg, inv_inv]
    have hdiv := Nat.div_add_mod d.coeff (10 ^ (-d.exp).toNat)
    have hcast : (d.coeff : ℚ) = 10 ^ (-d.exp).toNat * (d.coeff / 10 ^ (-d.exp).toNat : ℕ)
        + (d.coeff % 10 ^ (-d.exp).toNat : ℕ) := by
      exact_mod_cast hdiv.symm
    simp only [Number.value, nat_padded, length_padded hk (Nat.mod_lt _ (by positivity)), Decimal.value, hz,
      Option.elim_none, zpow_zero, mul_one]
    rw [hcast]
    field_simp

theorem value_exponentOf (e : ℤ)
    : (exponentOf e).value = e := by
  unfold Exponent.value exponentOf
  by_cases he : e < 0
  . simp only [he, decide_true, if_true, nat_padded]
    omega
  . simp only [he, decide_false, Option.some.injEq, Bool.false_eq_true, if_false, nat_padded]
    omega

theorem value_scientific (neg : Bool) (d : Decimal)
    : (scientific neg d).value = d.value := by
  have hlen : 0 < (Nat.toDigits 10 d.coeff).length := Nat.length_toDigits_pos
  generalize hn : (Nat.toDigits 10 d.coeff).length = n at hlen
  obtain ⟨k, rfl⟩ : ∃ k, n = k + 1 := ⟨n - 1, by omega⟩
  have hexp : (10 : ℚ) ^ ((k + 1 : ℕ) + d.exp - 1) = 10 ^ k * (10 : ℚ) ^ d.exp := by
    rw [← zpow_natCast, ← zpow_add₀ (by norm_num)]
    congr 1
    push_cast
    ring
  have hdiv := Nat.div_add_mod d.coeff (10 ^ k)
  have hcast : (d.coeff : ℚ) = 10 ^ k * (d.coeff / 10 ^ k : ℕ) + (d.coeff % 10 ^ k : ℕ) := by
    exact_mod_cast hdiv.symm
  have hfraction : ((if k + 1 = 1 then noDigits else padded k (d.coeff % 10 ^ k)).nat : ℚ)
      / 10 ^ (if k + 1 = 1 then noDigits else padded k (d.coeff % 10 ^ k)).val.length
      = (d.coeff % 10 ^ k : ℕ) / 10 ^ k := by
    split
    . next hk =>
      obtain rfl : k = 0 := by omega
      simp [Nat.mod_one, Digits.nat, noDigits]
    . next hk => rw [nat_padded, length_padded (by omega) (Nat.mod_lt _ (by positivity))]
  simp only [scientific, hn, Nat.add_sub_cancel, Number.value, Option.elim_some, value_exponentOf, hexp,
    hfraction, Decimal.value]
  rw [hcast]
  field_simp

theorem value_number (neg : Bool) (d : Decimal)
    : (number neg d).value = d.value := by
  unfold number
  dsimp only
  split
  . exact value_fixed neg d
  . exact value_scientific neg d

/-- A float's text has a point or an exponent, which an integer's text has not. -/
theorem number_isFloat (neg : Bool) (d : Decimal)
    : (number neg d).fraction.val ≠ [] ∨ (number neg d).exponent ≠ none := by
  unfold number
  dsimp only
  split
  . left
    unfold fixed
    split <;> exact padded_ne_nil _ _
  . right
    simp [scientific]

theorem neg_number (neg : Bool) (d : Decimal)
    : (number neg d).neg = neg := by
  unfold number
  dsimp only
  split
  . unfold fixed
    split <;> rfl
  . rfl

namespace Decimal

theorem value_dropZeros (fuel coeff : ℕ) (exp : ℤ)
    : (dropZeros fuel coeff exp).value = value ⟨coeff, exp⟩ := by
  induction fuel generalizing coeff exp with
  | zero => rfl
  | succ fuel ih =>
    rw [dropZeros]
    split
    . next h =>
      have hcoeff : (coeff : ℚ) = (coeff / 10 : ℕ) * 10 := by
        have : coeff = coeff / 10 * 10 := by omega
        exact_mod_cast this
      rw [ih, value, value, hcoeff, zpow_add₀ (by norm_num)]
      ring
    . rfl

theorem value_exact {x : Double} (h : 0 ≤ x.val)
    : (exact x).value = x.val := by
  rcases x with ⟨q, m, e, hm, he, he', rfl⟩
  have hplaces : 0 ≤ e + places := by
    unfold places
    omega
  have hint : (m : ℚ) * 2 ^ e * 10 ^ places = (m * 2 ^ (e + places).toNat * 5 ^ places : ℤ) := by
    push_cast
    rw [← zpow_natCast (2 : ℚ) (e + places).toNat, Int.toNat_of_nonneg hplaces, zpow_add₀ (by norm_num), zpow_natCast,
      show (10 : ℚ) = 2 * 5 by norm_num, mul_pow]
    ring
  have hnonneg : (0 : ℤ) ≤ m * 2 ^ (e + places).toNat * 5 ^ places := by
    have hscaled : (0 : ℚ) ≤ m * 2 ^ e * 10 ^ places := mul_nonneg h (by positivity)
    rw [hint] at hscaled
    exact_mod_cast hscaled
  have hcoeff : (((m * (2 : ℚ) ^ e * 10 ^ places).num.toNat : ℕ) : ℚ) = m * 2 ^ e * 10 ^ places := by
    rw [hint, Rat.num_intCast]
    exact_mod_cast Int.toNat_of_nonneg hnonneg
  rw [value, exact, hcoeff, zpow_neg, zpow_natCast]
  field_simp

theorem roundsTo_of_closest {x : Double} {n : ℕ} {d : Decimal} (h : closest x n = some d)
    : d.roundsTo x = true := by
  unfold closest at h
  dsimp only at h
  split at h
  . next hlo =>
    split at h
    . next hhi =>
      split at h
      . cases h
        exact hlo
      . split at h
        . cases h
          exact hhi
        . split at h
          . cases h
            exact hlo
          . cases h
            exact hhi
    . cases h
      exact hlo
  . split at h
    . next hhi =>
      cases h
      exact hhi
    . cases h

/-- The shortest decimal rounds to the float it was made of. -/
theorem round_shortest {x : Double} (h : 0 ≤ x.val)
    : Double.round (shortest x).value = some x := by
  unfold shortest
  split
  . next hzero =>
    have hx : x = 0 := Subtype.ext hzero
    subst hx
    simp [value, Double.round]
  . dsimp only
    rw [value_dropZeros]
    cases hfound : (List.range 17).findSome? fun n => closest x (n + 1) with
    | none =>
      rw [Option.getD_none]
      show Double.round (exact x).value = some x
      rw [value_exact h, Double.round_val]
    | some d =>
      rcases List.exists_of_findSome?_eq_some hfound with ⟨n, _, hclosest⟩
      exact of_decide_eq_true (roundsTo_of_closest hclosest)

end Decimal

/-- A float, with the sign of its zeros. -/
inductive Float64 where
  | nan
  | inf (neg : Bool)
  | finite (neg : Bool) (magnitude : { x : Double // 0 ≤ x.val })
  deriving DecidableEq

theorem value_nonneg (n : Json.Number)
    : 0 ≤ n.value := by
  unfold Number.value
  positivity

namespace Float64

def num : Float64 → Number
  | nan => .nan
  | inf neg => if neg then .negInf else .posInf
  | finite neg x => .finite (if neg then -x.val.val else x.val.val)

def tree : Float64 → Tree
  | nan => .word .nan
  | inf neg => .word (if neg then .negInfinity else .infinity)
  | finite neg x => .number (number neg (Decimal.shortest x.val))

/-- `float(text)` -/
def ofNumber (n : Json.Number) : Float64 :=
  match h : Double.round n.value with
  | some x => .finite n.neg ⟨x, Double.round_nonneg (value_nonneg n) h⟩
  | none => .inf n.neg

theorem ofNumber_number (neg : Bool) (x : { x : Double // 0 ≤ x.val })
    : ofNumber (number neg (Decimal.shortest x.val)) = .finite neg x := by
  have hround : Double.round (number neg (Decimal.shortest x.val)).value = some x.val := by
    rw [value_number, Decimal.round_shortest x.property]
  unfold ofNumber
  split
  . next y h =>
    rw [hround] at h
    cases h
    rw [neg_number]
  . next h =>
    rw [hround] at h
    cases h

end Float64

end Python
