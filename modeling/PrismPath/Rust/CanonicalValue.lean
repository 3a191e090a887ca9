import PrismPath.Rust.DecimalValue

/-!
This module contains the agreement of the two conversions to the canonical value: for which readings the 128 bit
integers settle to what the rationals settle to.
-/

open Python

namespace Rust

namespace Fields

open FieldDefinitions

/- Rounding with truncated division. -/

theorem ediv_eq_tdiv (n : ℤ) {k : ℕ} (hk : 0 < k)
    : n / k = n.tdiv k - if n.tmod k ≠ 0 ∧ n < 0 then 1 else 0 := by
  have hdvd : (k : ℤ) ∣ n ↔ n.tmod k = 0 := Int.dvd_iff_tmod_eq_zero
  have hsign : (k : ℤ).sign = 1 := Int.sign_eq_one_of_pos (by omega)
  rw [Int.tdiv_eq_ediv, hsign]
  simp only [hdvd]
  split_ifs <;> omega

theorem floor_eq_tdiv (n : ℤ) {k : ℕ} (hk : 0 < k)
    : ⌊(n / k : ℚ)⌋ = n.tdiv k - if n.tmod k ≠ 0 ∧ n < 0 then 1 else 0 := by
  rw [Rat.floor_intCast_div_natCast, ediv_eq_tdiv n hk]

theorem ceil_eq_tdiv (n : ℤ) {k : ℕ} (hk : 0 < k)
    : ⌈(n / k : ℚ)⌉ = n.tdiv k + if n.tmod k ≠ 0 ∧ 0 < n then 1 else 0 := by
  rw [Rat.ceil_intCast_div_natCast, ediv_eq_tdiv (-n) hk, Int.neg_tdiv, Int.neg_tmod]
  simp only [ne_eq, neg_eq_zero, Left.neg_neg_iff]
  split_ifs <;> omega

theorem den_eq_one_iff (n : ℤ) {k : ℕ} (hk : 0 < k)
    : (n / k : ℚ).den = 1 ↔ n.tmod k = 0 := by
  rw [← Int.dvd_iff_tmod_eq_zero, ← Rat.den_div_intCast_eq_one_iff n k (by omega), Int.cast_natCast]

theorem div_eq_tdiv {n : ℤ} {k : ℕ} (hk : 0 < k) (h : n.tmod k = 0)
    : (n / k : ℚ) = n.tdiv k := by
  have hne : (k : ℚ) ≠ 0 := by positivity
  have hmul := Int.mul_tdiv_add_tmod n k
  rw [h, add_zero] at hmul
  rw [div_eq_iff hne, mul_comm]
  exact_mod_cast hmul.symm

/- The 128 bit integers. -/

/-- The exact value settled. -/
def settled : Settle → ℚ → Except Reason ℤ
  | .floor, q => .ok ⌊q⌋
  | .ceiling, q => .ok ⌈q⌉
  | .wholeOr reason, q => if q.den = 1 then .ok q.num else .error reason

theorem settled_intCast (how : Settle) (n : ℤ)
    : settled how n = .ok n := by
  cases how with
  | floor => simp [settled]
  | ceiling => simp [settled]
  | wholeOr reason => simp [settled]

theorem settled_div (how : Settle) (n : ℤ) {k : ℕ} (hk : 0 < k)
    : settled how (n / k)
        =
      match how with
      | .floor => .ok (n.tdiv k - if n.tmod k ≠ 0 ∧ n < 0 then 1 else 0)
      | .ceiling => .ok (n.tdiv k + if n.tmod k ≠ 0 ∧ 0 < n then 1 else 0)
      | .wholeOr reason => if n.tmod k = 0 then .ok (n.tdiv k) else .error reason := by
  cases how with
  | floor => exact congrArg Except.ok (floor_eq_tdiv n hk)
  | ceiling => exact congrArg Except.ok (ceil_eq_tdiv n hk)
  | wholeOr reason =>
    simp only [settled, den_eq_one_iff n hk]
    split
    next h => rw [div_eq_tdiv hk h, Rat.num_intCast]
    next => rfl

theorem inI128_iff {n : ℤ}
    : inI128 n = true ↔ -2 ^ 127 ≤ n ∧ n < 2 ^ 127 := by
  simp only [inI128, Bool.and_eq_true, decide_eq_true_eq]

theorem i128_eq {n : ℤ} (h : inI128 n = true)
    : i128 n = (n, false) := by
  have hwrap : wrapI128 n = n := by
    rw [inI128_iff] at h
    unfold wrapI128
    omega
  rw [i128, hwrap, h]
  rfl

theorem inI128_of_natAbs {n : ℤ} (h : n.natAbs < 2 ^ 127)
    : inI128 n = true := by
  rw [inI128_iff]
  omega

theorem asU32_eq {n : ℤ} (h : 0 ≤ n) (hlt : n < 2 ^ 32)
    : asU32 n = n.toNat := by
  unfold asU32
  omega

/-- The truncated division by a power of ten, also by one that does not fit. -/
theorem divided_checked {n : ℤ} (k : ℕ) (h : n.natAbs < 2 ^ 127)
    : divided n (checked (10 ^ k)) = (n.tdiv (10 ^ k : ℕ), n.tmod (10 ^ k : ℕ)) := by
  have hcast : ((10 ^ k : ℕ) : ℤ) = 10 ^ k := by push_cast; rfl
  rw [hcast]
  by_cases hin : inI128 (10 ^ k) = true
  . rw [checked, if_pos hin, divided]
  . have hlt : n.natAbs < (10 ^ k : ℤ).natAbs := by
      by_contra hge
      exact hin (inI128_of_natAbs (lt_of_le_of_lt (not_lt.mp hge) h))
    have hzero : n.tdiv (10 ^ k) = 0 := by
      rw [← Int.natAbs_eq_zero, Int.natAbs_tdiv]
      exact Nat.div_eq_of_lt hlt
    rw [checked, if_neg hin, divided, Int.tmod_def, hzero, mul_zero, sub_zero]

theorem settle_eq {x : ExactDecimal} {scale : ℤ} (how : Settle) (h : inI128 (x.mantissa * scale) = true)
    : settle x scale how = settleNumerator (x.mantissa * scale) x.exponent how := by
  rw [settle, i128_eq h]
  rfl

/-- No operation on a numerator this small overflows. -/
theorem settleNumerator_of_neg (how : Settle) {n : ℤ} {k : ℕ} (hsmall : n.natAbs < 2 ^ 126) (hk : 0 < k)
    (hlt : k < 2 ^ 32)
    : settleNumerator n (-k) how = (settled how (n / (10 ^ k : ℕ)), false) := by
  have hquotient : (n.tdiv (10 ^ k : ℕ)).natAbs < 2 ^ 126 := by
    rw [Int.natAbs_tdiv]
    exact lt_of_le_of_lt (Nat.div_le_self _ _) hsmall
  have hfits : ∀ δ : ℤ, δ.natAbs ≤ 1 → inI128 (n.tdiv (10 ^ k : ℕ) + δ) = true := by
    intro δ hδ
    apply inI128_of_natAbs
    omega
  have hpower : asU32 (k : ℤ) = k := by
    have hlt : (k : ℤ) < 2 ^ 32 := by omega
    rw [asU32_eq (Int.natCast_nonneg k) hlt, Int.toNat_natCast]
  have hneg : ¬ (0 : ℤ) ≤ -k := by omega
  rw [settleNumerator, if_neg hneg, Int.neg_neg, hpower, divided_checked k (by omega), settled_div how _ (by positivity)]
  cases how with
  | floor =>
    simp only [rounded]
    rw [sub_eq_add_neg, i128_eq (hfits _ (by split <;> omega))]
  | ceiling =>
    simp only [rounded]
    rw [i128_eq (hfits _ (by split <;> omega))]
  | wholeOr reason => rfl

theorem settleNumerator_of_nonneg (how : Settle) (n : ℤ) {k : ℕ} (hk : k ≤ 30)
    : settleNumerator n k how = (if inI128 (n * 10 ^ k) then .ok (n * 10 ^ k) else .error .outOfRange, false) := by
  have hpower : asU32 (k : ℤ) = k := by
    have hlt : (k : ℤ) < 2 ^ 32 := by omega
    rw [asU32_eq (Int.natCast_nonneg k) hlt, Int.toNat_natCast]
  have hfits : inI128 (10 ^ k) = true := by
    have hle : 10 ^ k ≤ 10 ^ 30 := Nat.pow_le_pow_right (by norm_num) hk
    apply inI128_of_natAbs
    rw [Int.natAbs_pow]
    exact lt_of_le_of_lt hle (by norm_num)
  have hpos : (0 : ℤ) ≤ k := Int.natCast_nonneg k
  rw [settleNumerator, if_pos hpos, hpower, checked, if_pos hfits, Option.bind_some, checked]
  split
  next product heq =>
    split at heq
    next hin =>
      cases heq
      rw [if_pos hin]
    next => cases heq
  next heq =>
    split at heq
    next => cases heq
    next hout => rw [if_neg hout]

/- The range. -/

/-- What the reader of definitions leaves. -/
structure Accepted (d : FieldDefinition) : Prop where
  scale : d.kind = .fixed → ∃ scale, d.scale = some scale ∧ 1 ≤ scale ∧ scale ≤ maxScale
  minimum : -exactIntegerLimit ≤ d.minimum
  maximum : d.maximum ≤ exactIntegerLimit

theorem inRange_of_overflow {d : FieldDefinition} (hd : Accepted d) {n : ℤ} (h : ¬ inI128 n = true)
    : inRange d n = .error .outOfRange := by
  have hmin := hd.minimum
  have hmax := hd.maximum
  rw [inI128_iff] at h
  unfold exactIntegerLimit at hmin hmax
  rw [inRange, if_pos (by omega)]

/-- The settled integer in its range, for a product that fits. -/
theorem settle_bind_inRange {d : FieldDefinition} (hd : Accepted d) {x : ExactDecimal} {scale : ℤ} (how : Settle)
    (hproduct : inI128 (x.mantissa * scale) = true) (hle : x.exponent ≤ 30)
    (hneg : x.exponent < 0 → (x.mantissa * scale).natAbs < 2 ^ 126 ∧ -4330 ≤ x.exponent)
    : (settle x scale how).2 = false
        ∧ (settle x scale how).1.bind (inRange d) = (settled how (x.value * scale)).bind (inRange d) := by
  rw [settle_eq how hproduct]
  rcases x with ⟨mantissa, exponent⟩
  simp only at *
  rcases lt_or_ge exponent 0 with hexponent | hexponent
  . rcases hneg hexponent with ⟨hsmall, hge⟩
    rcases Int.eq_ofNat_of_zero_le (by omega : 0 ≤ -exponent) with ⟨k, hk⟩
    have hk : exponent = -k := by omega
    subst hk
    have hvalue : ExactDecimal.value ⟨mantissa, -k⟩ * scale = (mantissa * scale : ℤ) / (10 ^ k : ℕ) := by
      rw [ExactDecimal.value, zpow_neg, zpow_natCast]
      push_cast
      ring
    rw [settleNumerator_of_neg how hsmall (by omega) (by omega), hvalue]
    exact ⟨rfl, rfl⟩
  . rcases Int.eq_ofNat_of_zero_le hexponent with ⟨k, rfl⟩
    have hvalue : ExactDecimal.value ⟨mantissa, k⟩ * scale = (mantissa * scale * 10 ^ k : ℤ) := by
      rw [ExactDecimal.value, zpow_natCast]
      push_cast
      ring
    rw [settleNumerator_of_nonneg how _ (by omega), hvalue, settled_intCast]
    refine ⟨rfl, ?_⟩
    split
    next => rfl
    next hout =>
      show Except.error Reason.outOfRange = inRange d (mantissa * scale * 10 ^ k)
      rw [inRange_of_overflow hd hout]

/- The two conversions. -/

def howOf (d : FieldDefinition) : Settle :=
  match d.kind with
  | .fixed => settleOf d
  | _ => .wholeOr .fractional

def scaleOf (d : FieldDefinition) : ℤ :=
  match d.kind with
  | .fixed => d.scale.getD 1
  | _ => 1

theorem exactToCanonical_eq (d : FieldDefinition) (exact : ExactDecimal)
    : exactToCanonical d exact
        =
      ((settle exact (scaleOf d) (howOf d)).1.bind (inRange d), (settle exact (scaleOf d) (howOf d)).2) := by
  unfold exactToCanonical scaleOf howOf
  cases d.kind <;> rfl

def refusing {α : Type} (d : FieldDefinition) (result : Except Reason α) : Except Failure α :=
  result.mapError fun reason => .refusal ⟨d.name, reason⟩

theorem refusing_inRange (d : FieldDefinition) (n : ℤ)
    : refusing d (inRange d n)
        =
      if d.minimum ≤ n ∧ n ≤ d.maximum then .ok n else FieldDefinitions.refuse d .outOfRange := by
  rw [inRange]
  by_cases h : d.minimum ≤ n ∧ n ≤ d.maximum
  . rw [if_pos h, if_neg (by omega)]
    rfl
  . rw [if_neg h, if_pos (by omega)]
    rfl

theorem canonicalNumber_eq {d : FieldDefinition} (hd : Accepted d) (q : ℚ)
    : canonicalNumber d q = refusing d ((settled (howOf d) (q * scaleOf d)).bind (inRange d)) := by
  by_cases hkind : d.kind = .fixed
  . rcases hd.scale hkind with ⟨scale, hscale, -, -⟩
    have hscaleOf : scaleOf d = scale := by
      simp [scaleOf, hkind, hscale]
    rw [canonicalNumber, if_pos hkind, scaled, hscale, hscaleOf]
    have hwhole : (do
          let canonical ← if (q * scale).den = 1 then .ok (q * scale).num else FieldDefinitions.refuse d .offGrid
          if d.minimum ≤ canonical ∧ canonical ≤ d.maximum then .ok canonical
            else FieldDefinitions.refuse d .outOfRange)
        = refusing d ((settled (.wholeOr .offGrid) (q * scale)).bind (inRange d)) := by
      rw [settled]
      by_cases hwhole : (q * scale).den = 1
      . rw [if_pos hwhole, if_pos hwhole]
        exact (refusing_inRange d _).symm
      . rw [if_neg hwhole, if_neg hwhole]
        rfl
    simp only [howOf, hkind, settleOf]
    cases d.rounding with
    | none => exact hwhole
    | some rounding =>
      cases rounding with
      | floor => exact (refusing_inRange d _).symm
      | ceiling => exact (refusing_inRange d _).symm
      | exact => exact hwhole
  . have hscaleOf : scaleOf d = 1 := by
      unfold scaleOf
      split
      next h => exact absurd h hkind
      next => rfl
    have hhow : howOf d = .wholeOr .fractional := by
      unfold howOf
      split
      next h => exact absurd h hkind
      next => rfl
    rw [canonicalNumber, if_neg hkind, hscaleOf, hhow, Int.cast_one, mul_one, settled]
    by_cases hwhole : q.den = 1
    . rw [if_neg (not_not.mpr hwhole), if_pos hwhole]
      exact (refusing_inRange d _).symm
    . rw [if_pos hwhole, if_neg hwhole]
      rfl

/- Definitions that are accepted. -/

theorem scale_of_fixedOptions {options : Options} {scale : ℤ} {rounding : Rounding}
    (h : fixedOptions options = .ok (scale, rounding))
    : 1 ≤ scale ∧ scale ≤ maxScale := by
  unfold fixedOptions at h
  split at h
  next scaleText roundingText _ _ =>
    cases hscale : integerOption "scale".toList scaleText with
    | error e =>
      rw [hscale] at h
      cases h
    | ok n =>
      rw [hscale] at h
      dsimp only [bind, Except.bind] at h
      split at h
      next => cases h
      next hrange =>
        cases hrounding : roundingOf roundingText with
        | error e =>
          rw [hrounding] at h
          cases h
        | ok r =>
          rw [hrounding] at h
          cases h
          exact not_not.mp hrange
  next => cases h

theorem accepted_of_definitionOf {name : Text} {kind : Kind} {options : Options} {d : FieldDefinition}
    (h : definitionOf name kind options = .ok d)
    : Accepted d := by
  unfold definitionOf at h
  simp only [bind, Except.bind] at h
  split at h
  next => cases h
  next =>
    split at h
    next => cases h
    next fixed hfixed =>
      split at h
      next => cases h
      next minimum _ =>
        split at h
        next => cases h
        next maximum _ =>
          split at h
          next hrange =>
            cases h
            refine ⟨fun hkind => ?_, hrange.1, hrange.2.2⟩
            rw [fixedOf, if_pos hkind] at hfixed
            cases hoptions : fixedOptions options with
            | error e =>
              rw [hoptions] at hfixed
              cases hfixed
            | ok pair =>
              rw [hoptions] at hfixed
              cases hfixed
              exact ⟨pair.1, rfl, scale_of_fixedOptions hoptions⟩
          next => cases h

theorem accepted_of_parseDefinition {name text : Text} {d : FieldDefinition} (h : parseDefinition name text = .ok d)
    : Accepted d := by
  have hread : readDefinition name text = .ok d := by
    unfold parseDefinition at h
    cases hread : readDefinition name text with
    | error e =>
      rw [hread] at h
      cases h
    | ok d' =>
      rw [hread] at h
      cases h
      rfl
  unfold readDefinition at hread
  split at hread
  next => cases hread
  next =>
    split at hread
    next => cases hread
    next =>
      split at hread
      next => cases hread
      next kindWord words _ =>
        cases hkind : kindOf kindWord with
        | error e =>
          rw [hkind] at hread
          cases hread
        | ok kind =>
          rw [hkind] at hread
          dsimp only [bind, Except.bind] at hread
          cases hoptions : parseOptions kindWord kind.2 words [] with
          | error e =>
            rw [hoptions] at hread
            cases hread
          | ok options =>
            rw [hoptions] at hread
            exact accepted_of_definitionOf hread

/- The readings. -/

theorem num_asF64 {n : ℤ} (h : |n| < 2 ^ 53)
    : (asF64 n).num = .finite n := by
  have hvalue : (⟨n < 0, n.natAbs, Json.noDigits, none⟩ : Json.Number).value = (n.natAbs : ℤ) := by
    simp [Json.Number.value, Json.noDigits, Json.Digits.nat]
  have hdouble : IsDouble (n.natAbs : ℤ) := by
    apply Double.isDouble_of_int
    rw [Int.natCast_natAbs, abs_abs]
    exact h
  have hround : Double.round (⟨n < 0, n.natAbs, Json.noDigits, none⟩ : Json.Number).value = some ⟨_, hdouble⟩ := by
    rw [hvalue]
    exact Double.round_val ⟨_, hdouble⟩
  unfold asF64 Float64.ofNumber
  split
  next x hx =>
    rw [hround] at hx
    cases hx
    simp only [Float64.num, decide_eq_true_eq]
    split
    next hneg =>
      rw [Int.natCast_natAbs, abs_of_neg hneg, Int.cast_neg, neg_neg]
    next hpos =>
      rw [Int.natCast_natAbs, abs_of_nonneg (by omega)]
  next hx =>
    rw [hround] at hx
    cases hx

def toRaw : EngineValue → Raw
  | .null => .none
  | .bool b => .bool b
  | .num x => .float x
  | .str s => .str s
  | _ => .other

def SameValue : Canonical → EngineValue → Prop
  | .none, .null => True
  | .bool b, .bool c => b = c
  | .str s, .str t => s = t
  | .int n, .num x => x.num = .finite n
  | _, _ => False

/-- The same value, or the same refusal; an exception other than a refusal is the outcome of neither. -/
def SameOutcome : Except Failure Canonical → Except CanonicalRefusal EngineValue → Prop
  | .ok v, .ok w => SameValue v w
  | .error (.refusal r), .error r' => r = r'
  | _, _ => False

/-- The reading stays within 128 bits, and within the digits `int` reads. -/
def Settles (d : FieldDefinition) : EngineValue → Prop
  | .num x => ∀ n : ℤ, x.num = .finite n → d.kind = .fixed → d.scale = some 1 ∨ inI128 (n * d.scale.getD 1) = true
  | .str s => d.kind = .int ∨ d.kind = .fixed → ∀ t, matchDecimal s = some t → ¬ Overlong t
  | _ => True

/-- The outcome of a settled number. -/
theorem sameOutcome_number {d : FieldDefinition} (hd : Accepted d) (result : Except Reason ℤ)
    : SameOutcome ((refusing d (result.bind (inRange d))).bind fun n => .ok (.int n))
        (((result.bind (inRange d)).map fun n => EngineValue.num (asF64 n)).mapError fun reason => ⟨d.name, reason⟩) := by
  cases result with
  | error reason => rfl
  | ok n =>
    show SameOutcome ((refusing d (inRange d n)).bind _) (((inRange d n).map _).mapError _)
    have hmin := hd.minimum
    have hmax := hd.maximum
    unfold exactIntegerLimit at hmin hmax
    rw [inRange]
    split
    next => rfl
    next hrange =>
      have hlt : |n| < 2 ^ 53 := by
        rw [abs_lt]
        omega
      exact num_asF64 hlt

theorem accepted_scaleOf {d : FieldDefinition} (hd : Accepted d)
    : 1 ≤ scaleOf d ∧ scaleOf d ≤ 10 ^ 9 := by
  unfold scaleOf
  split
  next hkind =>
    rcases hd.scale hkind with ⟨scale, hscale, hrange⟩
    rw [hscale]
    exact hrange
  next => omega

theorem saturate_of_in {n : ℤ} (h : inI128 n = true)
    : saturate n = n := by
  rw [inI128_iff] at h
  unfold saturate
  omega

theorem inI128_saturate (n : ℤ)
    : inI128 (saturate n) = true := by
  rw [inI128_iff]
  unfold saturate
  omega

theorem inRange_saturate {d : FieldDefinition} (hd : Accepted d) (n : ℤ)
    : inRange d (saturate n) = inRange d n := by
  by_cases h : inI128 n = true
  . rw [saturate_of_in h]
  . have hmin := hd.minimum
    have hmax := hd.maximum
    rw [inRange_of_overflow hd h]
    rw [inI128_iff] at h
    unfold exactIntegerLimit at hmin hmax
    unfold saturate
    rw [inRange, if_pos (by omega)]

theorem inI128_of_mul {n scale : ℤ} (hscale : 1 ≤ scale) (h : inI128 (n * scale) = true)
    : inI128 n = true := by
  rw [inI128_iff] at h ⊢
  constructor
  . nlinarith
  . nlinarith

/-- An integral reading settles as long as the product fits, and by saturation where there is none. -/
theorem settle_integral {d : FieldDefinition} (hd : Accepted d) {n : ℤ}
    (h : scaleOf d = 1 ∨ inI128 (n * scaleOf d) = true)
    : (settle ⟨saturate n, 0⟩ (scaleOf d) (howOf d)).2 = false
        ∧ (settle ⟨saturate n, 0⟩ (scaleOf d) (howOf d)).1.bind (inRange d)
            = (settled (howOf d) (n * scaleOf d)).bind (inRange d) := by
  have hvalue : ExactDecimal.value ⟨saturate n, 0⟩ * scaleOf d = (saturate n * scaleOf d : ℤ) := by
    rw [ExactDecimal.value, zpow_zero, mul_one, Int.cast_mul]
  have hproduct : inI128 (saturate n * scaleOf d) = true := by
    rcases h with h | h
    . rw [h, mul_one]
      exact inI128_saturate n
    . rwa [saturate_of_in (inI128_of_mul (accepted_scaleOf hd).1 h)]
  have hsettle := settle_bind_inRange hd (x := ⟨saturate n, 0⟩) (howOf d) hproduct (by simp) (by simp)
  refine ⟨hsettle.1, ?_⟩
  rw [hsettle.2, hvalue, ← Int.cast_mul, settled_intCast, settled_intCast]
  rcases h with h | h
  . rw [h, mul_one, mul_one]
    exact inRange_saturate hd n
  . rw [saturate_of_in (inI128_of_mul (accepted_scaleOf hd).1 h)]

theorem settle_overflow {d : FieldDefinition} (hd : Accepted d) {n : ℤ}
    (h : ¬ (scaleOf d = 1 ∨ inI128 (n * scaleOf d) = true))
    : (settle ⟨saturate n, 0⟩ (scaleOf d) (howOf d)).2 = true := by
  have hproduct : inI128 (saturate n * scaleOf d) = false := by
    have hscale := (accepted_scaleOf hd).1
    rcases not_or.mp h with ⟨hne, hout⟩
    rw [← Bool.not_eq_true]
    by_cases hin : inI128 n = true
    . rwa [saturate_of_in hin]
    . rw [inI128_iff] at hin hout ⊢
      have htwo : 2 ≤ scaleOf d := by omega
      rcases lt_or_ge n 0 with hneg | hpos
      . have hlow : saturate n = -2 ^ 127 := by
          unfold saturate
          omega
        rw [hlow]
        omega
      . have hhigh : saturate n = 2 ^ 127 - 1 := by
          unfold saturate
          omega
        rw [hhigh]
        omega
  simp only [settle, i128, hproduct]
  rfl

def Numeric (d : FieldDefinition) : Prop :=
  d.kind = .int ∨ d.kind = .fixed

theorem canonicalValue_refused {d : FieldDefinition} (hkind : Numeric d) {raw : EngineValue} {reason : Reason}
    (hnull : raw ≠ .null) (h : exactOf d raw = .error reason)
    : canonicalValue d raw = (refuse d reason, false) := by
  unfold canonicalValue
  split
  next => exact absurd rfl hnull
  next =>
    rcases hkind with hkind | hkind
    . simp only [hkind, h]
    . simp only [hkind, h]

theorem canonicalValue_exact {d : FieldDefinition} (hkind : Numeric d) {raw : EngineValue} {x : ExactDecimal}
    (h : exactOf d raw = .ok x)
    : canonicalValue d raw
        = (((exactToCanonical d x).1.map fun n => .num (asF64 n)).mapError fun reason => ⟨d.name, reason⟩,
            (exactToCanonical d x).2) := by
  unfold canonicalValue
  split
  next => cases h
  next =>
    rcases hkind with hkind | hkind
    . simp only [hkind, h]
    . simp only [hkind, h]

theorem overflow_exact {d : FieldDefinition} (hkind : Numeric d) {raw : EngineValue} {x : ExactDecimal}
    (h : exactOf d raw = .ok x)
    : (canonicalValue d raw).2 = (settle x (scaleOf d) (howOf d)).2 := by
  rw [canonicalValue_exact hkind h]
  show (exactToCanonical d x).2 = _
  rw [exactToCanonical_eq]

theorem reference_refused {d : FieldDefinition} (hkind : Numeric d) {raw : Raw} {failure : Failure} (hnull : raw ≠ .none)
    (h : FieldDefinitions.exactOf d raw = .error failure)
    : FieldDefinitions.canonicalValue d raw = .error failure := by
  unfold FieldDefinitions.canonicalValue
  split
  next => exact absurd rfl hnull
  next =>
    rcases hkind with hkind | hkind
    . simp only [hkind, h]
      rfl
    . simp only [hkind, h]
      rfl

theorem reference_exact {d : FieldDefinition} (hkind : Numeric d) {raw : Raw} {q : ℚ}
    (h : FieldDefinitions.exactOf d raw = .ok q)
    : FieldDefinitions.canonicalValue d raw = (canonicalNumber d q).bind fun n => .ok (.int n) := by
  unfold FieldDefinitions.canonicalValue
  split
  next => cases h
  next =>
    rcases hkind with hkind | hkind
    . simp only [hkind, h]
      rfl
    . simp only [hkind, h]
      rfl

/-- No operation overflows, and both come to the same. -/
def Agrees (d : FieldDefinition) (raw : EngineValue) : Prop :=
  (canonicalValue d raw).2 = false
    ∧ SameOutcome (FieldDefinitions.canonicalValue d (toRaw raw)) (canonicalValue d raw).1

theorem agrees_of_refused {d : FieldDefinition} (hkind : Numeric d) {raw : EngineValue} (reason : Reason)
    (hnull : raw ≠ .null) (hnone : toRaw raw ≠ .none) (h : exactOf d raw = .error reason)
    (href : FieldDefinitions.exactOf d (toRaw raw) = FieldDefinitions.refuse d reason)
    : Agrees d raw := by
  rw [Agrees, canonicalValue_refused hkind hnull h, reference_refused hkind hnone href]
  exact ⟨rfl, rfl⟩

theorem agrees_of_settled {d : FieldDefinition} (hd : Accepted d) (hkind : Numeric d) {raw : EngineValue}
    {x : ExactDecimal} {q : ℚ} (h : exactOf d raw = .ok x) (href : FieldDefinitions.exactOf d (toRaw raw) = .ok q)
    (hsettle : (settle x (scaleOf d) (howOf d)).2 = false
        ∧ (settle x (scaleOf d) (howOf d)).1.bind (inRange d) = (settled (howOf d) (q * scaleOf d)).bind (inRange d))
    : Agrees d raw := by
  rw [Agrees, canonicalValue_exact hkind h, reference_exact hkind href, exactToCanonical_eq, canonicalNumber_eq hd,
    hsettle.2]
  exact ⟨hsettle.1, sameOutcome_number hd _⟩

/-- A text without an overlong run settles. -/
theorem agrees_str {d : FieldDefinition} (hd : Accepted d) (hkind : Numeric d) {s : Text}
    (h : ∀ t, matchDecimal s = some t → ¬ Overlong t)
    : Agrees d (.str s) := by
  rcases decimalFraction_eq_value h with ⟨hfraction, hsmall⟩
  cases hvalue : decimalValue s with
  | none =>
    rw [hvalue] at hfraction
    apply agrees_of_refused hkind .unparseableString (by simp) (by simp [toRaw])
    . rw [exactOf, hvalue]
    . rw [toRaw, FieldDefinitions.exactOf, exactText, hfraction]
      rfl
  | some x =>
    rw [hvalue] at hfraction
    have hx := hsmall x hvalue
    have hscale := accepted_scaleOf hd
    have hmul : (x.mantissa * scaleOf d).natAbs < 2 ^ 126 := by
      have hle : (scaleOf d).natAbs ≤ 10 ^ 9 := by omega
      rw [Int.natAbs_mul]
      calc x.mantissa.natAbs * (scaleOf d).natAbs
          ≤ 10 ^ 28 * 10 ^ 9 := Nat.mul_le_mul hx.mantissa.le hle
        _ < 2 ^ 126 := by norm_num
    apply agrees_of_settled hd hkind (x := x) (q := x.value)
    . rw [exactOf, hvalue]
    . rw [toRaw, FieldDefinitions.exactOf, exactText, hfraction]
      rfl
    . exact settle_bind_inRange hd _ (inI128_of_natAbs (by omega)) hx.exponent_le fun _ => ⟨hmul, hx.exponent_ge⟩

theorem agrees_num_iff {d : FieldDefinition} (hd : Accepted d) (hkind : Numeric d) {x : Float64}
    : Agrees d (.num x) ↔ ∀ n : ℤ, x.num = .finite n → scaleOf d = 1 ∨ inI128 (n * scaleOf d) = true := by
  have hrefused : ∀ reason : Reason, exactOf d (.num x) = .error reason
      → FieldDefinitions.exactOf d (toRaw (.num x)) = FieldDefinitions.refuse d reason → Agrees d (.num x) :=
    fun reason => agrees_of_refused hkind reason (by simp) (by simp [toRaw])
  cases hnum : x.num with
  | finite q =>
    by_cases hwhole : q.den = 1
    . have hq : ((q.num : ℤ) : ℚ) = q := (Rat.den_eq_one_iff q).mp hwhole
      have hexact : exactOf d (.num x) = .ok ⟨saturate q.num, 0⟩ := by
        simp only [exactOf, hnum, if_pos hwhole]
      have href : FieldDefinitions.exactOf d (toRaw (.num x)) = .ok (q.num : ℚ) := by
        simp only [toRaw, FieldDefinitions.exactOf, hnum, if_pos hwhole, hq]
      constructor
      . intro h n hn
        have hn : n = q.num := by
          rw [Python.Number.finite.injEq, ← hq] at hn
          exact_mod_cast hn.symm
        subst hn
        by_contra hnot
        have hflag := (overflow_exact hkind hexact).symm.trans h.1
        rw [settle_overflow hd hnot] at hflag
        cases hflag
      . intro h
        exact agrees_of_settled hd hkind hexact href (settle_integral hd (h q.num (by rw [hq])))
    . have hfractional : ∀ n : ℤ, (.finite q : Python.Number) ≠ .finite n := by
        intro n hn
        rw [Python.Number.finite.injEq] at hn
        exact hwhole (by rw [hn, Rat.den_intCast])
      refine ⟨fun _ n hn => absurd hn (hfractional n), fun _ => ?_⟩
      apply hrefused (if d.kind = .fixed then .binaryFloat else .fractional)
      . simp only [exactOf, hnum, if_neg hwhole]
      . simp only [toRaw, FieldDefinitions.exactOf, hnum, if_neg hwhole]
  | _ =>
    refine ⟨fun _ n hn => (by cases hn), fun _ => ?_⟩
    apply hrefused .outOfRange
    . simp only [exactOf, hnum]
    . simp only [toRaw, FieldDefinitions.exactOf, hnum]

theorem agrees_str_iff {d : FieldDefinition} (hd : Accepted d) (hkind : Numeric d) {s : Text}
    : Agrees d (.str s) ↔ ∀ t, matchDecimal s = some t → ¬ Overlong t := by
  refine ⟨fun h t hmatch hlong => ?_, agrees_str hd hkind⟩
  have hraised : FieldDefinitions.canonicalValue d (toRaw (.str s)) = .error (.raised .valueError) := by
    apply reference_refused hkind (by simp [toRaw])
    rw [toRaw, FieldDefinitions.exactOf, exactText, decimalFraction_overlong hmatch hlong]
  have hsame := h.2
  rw [hraised] at hsame
  cases hrust : (canonicalValue d (.str s)).1 with
  | ok w =>
    rw [hrust] at hsame
    exact hsame
  | error r =>
    rw [hrust] at hsame
    exact hsame

theorem agrees_null (d : FieldDefinition)
    : Agrees d .null := by
  unfold Agrees canonicalValue FieldDefinitions.canonicalValue
  refine ⟨rfl, ?_⟩
  cases habsent : d.absentAllowed with
  | true => trivial
  | false => rfl

theorem agrees_of_not_numeric {d : FieldDefinition} (hkind : ¬ Numeric d) (raw : EngineValue)
    : Agrees d raw := by
  have hkind : d.kind = .bool ∨ d.kind = .category := by
    unfold Numeric at hkind
    cases h : d.kind <;> simp_all
  rcases hkind with hkind | hkind <;> cases raw with
    | null => exact agrees_null d
    | _ =>
      simp [Agrees, canonicalValue, FieldDefinitions.canonicalValue, toRaw, hkind, SameOutcome, SameValue, refuse,
        FieldDefinitions.refuse]

/-- Only a fixed field is scaled. -/
theorem scaleOf_fits_iff {d : FieldDefinition} (hd : Accepted d) (hkind : Numeric d) (n : ℤ)
    : (scaleOf d = 1 ∨ inI128 (n * scaleOf d) = true)
        ↔
      (d.kind = .fixed → d.scale = some 1 ∨ inI128 (n * d.scale.getD 1) = true) := by
  rcases hkind with hkind | hkind
  . simp [scaleOf, hkind]
  . rcases hd.scale hkind with ⟨scale, hscale, -, -⟩
    simp [scaleOf, hkind, hscale]

theorem canonical_value_agrees_iff {name text : Text} {d : FieldDefinition} (h : parseDefinition name text = .ok d)
    (raw : EngineValue)
    : ((canonicalValue d raw).2 = false
          ∧ SameOutcome (FieldDefinitions.canonicalValue d (toRaw raw)) (canonicalValue d raw).1)
        ↔
      Settles d raw := by
  have hd := accepted_of_parseDefinition h
  show Agrees d raw ↔ Settles d raw
  by_cases hkind : Numeric d
  . have hwrong : raw ≠ .null → toRaw raw ≠ .none → exactOf d raw = .error .wrongType
        → FieldDefinitions.exactOf d (toRaw raw) = FieldDefinitions.refuse d .wrongType → Agrees d raw :=
      agrees_of_refused hkind .wrongType
    cases raw with
    | null => exact iff_of_true (agrees_null d) trivial
    | num x =>
      rw [agrees_num_iff hd hkind]
      refine forall_congr' fun n => imp_congr_right fun _ => ?_
      exact scaleOf_fits_iff hd hkind n
    | str s =>
      rw [agrees_str_iff hd hkind]
      exact ⟨fun h _ => h, fun h => h hkind⟩
    | _ => exact iff_of_true (hwrong (by simp) (by simp [toRaw]) rfl rfl) trivial
  . refine iff_of_true (agrees_of_not_numeric hkind raw) ?_
    cases raw with
    | num x => exact fun n _ hfixed => absurd (Or.inr hfixed) hkind
    | str s => exact fun hnumeric => absurd hnumeric hkind
    | _ => trivial

def hundredths : FieldDefinition :=
  ⟨"level".toList, .fixed, some 100, some .floor, none, -1000, 1000, false⟩

theorem canonical_value_agrees_hundredths
    : (canonicalValue hundredths (.str "-1.255e1".toList)).2 = false
        ∧ SameOutcome (FieldDefinitions.canonicalValue hundredths (.str "-1.255e1".toList))
            (canonicalValue hundredths (.str "-1.255e1".toList)).1 := by
  have hparse : parseDefinition "level".toList "fixed scale=100 rounding=floor min=-1000 max=1000".toList
      = .ok hundredths := by
    decide +kernel
  apply (canonical_value_agrees_iff hparse (.str "-1.255e1".toList)).mpr
  intro _ t hmatch
  have ht : matchDecimal "-1.255e1".toList = some ⟨true, ['1'], "255".toList, some (false, ['1'])⟩ := by
    with_unfolding_all decide
  rw [ht, Option.some.injEq] at hmatch
  subst hmatch
  with_unfolding_all decide

def wrapping : FieldDefinition :=
  ⟨"level".toList, .fixed, some (2 ^ 28), some .exact, none, -exactIntegerLimit, exactIntegerLimit, false⟩

/-- Two to the power of one hundred. -/
def hugeReading : Float64 :=
  .finite false ⟨⟨2 ^ 100, 1, 100, by norm_num, by norm_num, by norm_num, by norm_num⟩, by norm_num⟩

/-- The product with the scale is two to the power of 128, which is zero in 128 bits. -/
theorem hugeReading_wraps
    : parseDefinition "level".toList "fixed scale=268435456 rounding=exact".toList = .ok wrapping
        ∧ canonicalValue wrapping (.num hugeReading) = (.ok (.num (asF64 0)), true)
        ∧ FieldDefinitions.canonicalValue wrapping (.float hugeReading)
            = .error (.refusal ⟨"level".toList, .outOfRange⟩) := by
  have hnum : hugeReading.num = .finite ((2 ^ 100 : ℤ) : ℚ) := by
    simp only [hugeReading, Float64.num, Bool.false_eq_true, if_false]
    norm_num
  have hkind : Numeric wrapping := Or.inr rfl
  have hparse : parseDefinition "level".toList "fixed scale=268435456 rounding=exact".toList = .ok wrapping := by
    decide +kernel
  have hscale : scaleOf wrapping = 2 ^ 28 := rfl
  have hhow : howOf wrapping = .wholeOr .offGrid := rfl
  refine ⟨hparse, ?_, ?_⟩
  . have hexact : exactOf wrapping (.num hugeReading) = .ok ⟨saturate (2 ^ 100), 0⟩ := by
      simp only [exactOf, hnum, Rat.den_intCast, Rat.num_intCast, if_true]
    have hsettle : settle ⟨saturate (2 ^ 100), 0⟩ (2 ^ 28) (.wholeOr .offGrid) = (.ok 0, true) := by
      with_unfolding_all decide
    rw [canonicalValue_exact hkind hexact, exactToCanonical_eq, hscale, hhow, hsettle]
    rfl
  . have href : FieldDefinitions.exactOf wrapping (.float hugeReading) = .ok ((2 ^ 100 : ℤ) : ℚ) := by
      simp only [FieldDefinitions.exactOf, hnum, Rat.den_intCast, if_true]
    have hout : inRange wrapping (2 ^ 100 * 2 ^ 28) = .error .outOfRange := by
      with_unfolding_all decide
    rw [reference_exact hkind href, canonicalNumber_eq (accepted_of_parseDefinition hparse), hscale, ← Int.cast_mul,
      settled_intCast]
    show (refusing wrapping (inRange wrapping _)).bind _ = _
    rw [hout]
    rfl

end Fields

end Rust
