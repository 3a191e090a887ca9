import PrismPath.Kernel.FieldDefinitions

/-!
This module contains the form of the decimal text a conversion reads, and the number such a text denotes.
-/

open Python

namespace FieldDefinitions

/- The form of decimal text. -/

/-- The digits before the exponent: with a point, or without one and then no fraction. -/
inductive Mantissa : Text → Text → Text → Prop where
  | plain (whole : Text) : Mantissa whole whole []
  | pointed (whole fraction : Text) : Mantissa (whole ++ '.' :: fraction) whole fraction

/-- The text is a sign, the digits, and an exponent or the end. -/
structure Form (text mantissa rest : Text) (t : DecimalText) : Prop where
  unsigned : splitSign text = (t.negative, mantissa ++ rest)
  digits : Mantissa mantissa t.whole t.fraction
  whole : ∀ c ∈ t.whole, c.isDigit = true
  fraction : ∀ c ∈ t.fraction, c.isDigit = true
  nonempty : ¬ (t.whole = [] ∧ t.fraction = [])
  exponent : matchExponent rest = some t.exponent

theorem matchExponent_cons {c : Char} {cs : Text} {e : Option (Bool × Text)}
    : matchExponent (c :: cs) = some e
        ↔
      (c = 'e' ∨ c = 'E') ∧ (splitSign cs).2 ≠ [] ∧ (splitSign cs).2.all Char.isDigit = true
        ∧ e = some (splitSign cs) := by
  rw [matchExponent]
  dsimp only
  split
  next h => simp [h, eq_comm]
  next h =>
    simp only [reduceCtorEq, false_iff]
    rintro ⟨hmark, hne, hdigits, _⟩
    exact h ⟨hmark, hne, hdigits⟩

theorem takeWhile_digits {ds rest : Text} (h : ∀ c ∈ ds, c.isDigit = true)
    (hrest : ∀ c cs, rest = c :: cs → c.isDigit = false)
    : (ds ++ rest).takeWhile Char.isDigit = ds ∧ (ds ++ rest).dropWhile Char.isDigit = rest := by
  rw [List.takeWhile_append_of_pos h, List.dropWhile_append_of_pos h]
  cases rest with
  | nil => simp
  | cons c cs =>
    have := hrest c cs rfl
    simp [this]

theorem matchExponent_boundary {rest : Text} {e : Option (Bool × Text)} (h : matchExponent rest = some e)
    : ∀ c cs, rest = c :: cs → c.isDigit = false ∧ c ≠ '.' := by
  rintro c cs rfl
  rcases (matchExponent_cons.mp h).1 with rfl | rfl
  . decide
  . decide

theorem matchDecimal_of_form {text mantissa rest : Text} {t : DecimalText} (h : Form text mantissa rest t)
    : matchDecimal text = some t := by
  rcases h with ⟨hunsigned, hdigits, hwhole, hfraction, hnonempty, hexponent⟩
  rcases t with ⟨negative, whole, fraction, exponent⟩
  simp only at *
  have hboundary := matchExponent_boundary hexponent
  have hrest : ∀ c cs, rest = c :: cs → c.isDigit = false := fun c cs heq => (hboundary c cs heq).1
  rw [matchDecimal, hunsigned]
  cases hdigits with
  | plain =>
    rcases takeWhile_digits hwhole hrest with ⟨htake, hdrop⟩
    have hmatch : matchFraction rest = ([], rest) := by
      unfold matchFraction
      split
      next cs => exact absurd rfl (hboundary '.' cs rfl).2
      next => rfl
    simp only [htake, hdrop, hmatch, hexponent, Option.bind_eq_bind, Option.bind_some]
    exact if_neg (by simpa using hnonempty)
  | pointed =>
    have hpoint : ∀ c cs, '.' :: (fraction ++ rest) = c :: cs → c.isDigit = false := by
      rintro c cs heq
      cases heq
      decide
    rcases takeWhile_digits hwhole hpoint with ⟨htake, hdrop⟩
    rcases takeWhile_digits hfraction hrest with ⟨htake', hdrop'⟩
    simp only [List.append_assoc, List.cons_append, htake, hdrop, matchFraction, htake', hdrop', hexponent,
      Option.bind_eq_bind, Option.bind_some, if_neg hnonempty]

theorem form_of_matchDecimal {text : Text} {t : DecimalText} (h : matchDecimal text = some t)
    : ∃ mantissa rest, Form text mantissa rest t := by
  rw [matchDecimal] at h
  rcases hsign : splitSign text with ⟨negative, unsigned⟩
  rw [hsign] at h
  have hwhole : ∀ c ∈ unsigned.takeWhile Char.isDigit, c.isDigit = true := fun _ hc => List.mem_takeWhile_imp hc
  have hsplit : unsigned.takeWhile Char.isDigit ++ unsigned.dropWhile Char.isDigit = unsigned :=
    List.takeWhile_append_dropWhile
  dsimp only at h
  generalize unsigned.dropWhile Char.isDigit = rest at h hsplit
  unfold matchFraction at h
  split at h
  next cs =>
    simp only [Option.bind_eq_bind, Option.bind_eq_some_iff] at h
    rcases h with ⟨exponent, hexponent, h⟩
    split at h
    next => cases h
    next hnonempty =>
      cases h
      refine ⟨_, cs.dropWhile Char.isDigit, ⟨?_, .pointed _ _, hwhole, fun _ hc => List.mem_takeWhile_imp hc, hnonempty,
        hexponent⟩⟩
      rw [hsign, List.append_assoc, List.cons_append, List.takeWhile_append_dropWhile, hsplit]
  next =>
    simp only [Option.bind_eq_bind, Option.bind_eq_some_iff] at h
    rcases h with ⟨exponent, hexponent, h⟩
    split at h
    next => cases h
    next hnonempty =>
      cases h
      exact ⟨_, rest, by rw [hsign, hsplit], .plain _, hwhole, by simp, by simpa using hnonempty, hexponent⟩

/- The number of digits. -/

def significant (t : DecimalText) : Text :=
  (t.whole ++ t.fraction).dropWhile (· = '0')

theorem ofDigitChars_dropWhile (digits : Text)
    : Nat.ofDigitChars 10 (digits.dropWhile (· = '0')) 0 = Nat.ofDigitChars 10 digits 0 := by
  induction digits with
  | nil => rfl
  | cons c cs ih =>
    rw [List.dropWhile_cons]
    split
    next h =>
      have h : c = '0' := of_decide_eq_true h
      subst h
      rw [ih, Nat.ofDigitChars_cons]
      rfl
    next => rfl

theorem digit_le {c : Char} (h : c.isDigit = true)
    : c.toNat - '0'.toNat ≤ 9 := by
  simp only [Char.isDigit, Bool.and_eq_true, decide_eq_true_eq, UInt32.le_iff_toNat_le] at h
  have h9 : c.toNat ≤ 57 := h.2
  have h0 : '0'.toNat = 48 := rfl
  omega

theorem ofDigitChars_lt {digits : Text} (h : ∀ c ∈ digits, c.isDigit = true)
    : Nat.ofDigitChars 10 digits 0 < 10 ^ digits.length := by
  induction digits using List.reverseRecOn with
  | nil => simp
  | append_singleton cs c ih =>
    have hcs := ih fun d hd => h d (List.mem_append_left _ hd)
    have hc := digit_le (h c (by simp))
    rw [Nat.ofDigitChars_append, Nat.ofDigitChars_cons, Nat.ofDigitChars_nil, List.length_append, List.length_singleton,
      pow_succ]
    omega

/-- Digits that do not start with a zero are a number of that length. -/
theorem pow_le_ofDigitChars {digits : Text} (h : ∀ c ∈ digits, c.isDigit = true) {k : ℕ}
    (hlen : k < (digits.dropWhile (· = '0')).length)
    : 10 ^ k ≤ Nat.ofDigitChars 10 digits 0 := by
  rw [← ofDigitChars_dropWhile]
  have hdrop : ∀ c ∈ digits.dropWhile (· = '0'), c.isDigit = true := fun c hc => h c (List.dropWhile_subset _ hc)
  have hhead : ∀ c cs, digits.dropWhile (· = '0') = c :: cs → c ≠ '0' := by
    intro c cs heq
    have := List.dropWhile_get_zero_not (· = '0') digits (by rw [heq]; simp)
    simpa [heq] using this
  generalize digits.dropWhile (· = '0') = ds at *
  cases ds with
  | nil => simp at hlen
  | cons c cs =>
    have hne := hhead c cs rfl
    have hc := hdrop c (by simp)
    have hpos : 1 ≤ c.toNat - '0'.toNat := by
      simp only [Char.isDigit, Bool.and_eq_true, decide_eq_true_eq, UInt32.le_iff_toNat_le] at hc
      have h0 : 48 ≤ c.toNat := hc.1
      have hval : c.toNat ≠ 48 := fun heq => hne (Char.ext (UInt32.toNat_inj.mp heq))
      have : '0'.toNat = 48 := rfl
      omega
    rw [Nat.ofDigitChars_cons, Nat.ofDigitChars_eq_ofDigitChars_zero]
    have hpow : 10 ^ k ≤ 10 ^ cs.length := Nat.pow_le_pow_right (by norm_num) (by simpa using Nat.le_of_lt_succ hlen)
    have : 10 ^ cs.length * 1 ≤ 10 ^ cs.length * (10 * 0 + (c.toNat - '0'.toNat)) := Nat.mul_le_mul_left _ (by omega)
    omega

/- The number a text denotes. -/

def signed (negative : Bool) (n : ℕ) : ℤ :=
  if negative then -n else n

def exponentNumber : Option (Bool × Text) → ℤ
  | none => 0
  | some (negative, digits) => signed negative (Nat.ofDigitChars 10 digits 0)

/-- The digits as one integer, with the sign. -/
def mantissaOf (t : DecimalText) : ℤ :=
  signed t.negative (Nat.ofDigitChars 10 (significant t) 0)

/-- The power of ten of the last digit. -/
def placeOf (t : DecimalText) : ℤ :=
  exponentNumber t.exponent - t.fraction.length

def overlongExponent : Option (Bool × Text) → Prop
  | none => False
  | some (_, digits) => intMaxStrDigits < digits.length

/-- Within the bounds on the value, and too long a run of digits for `int`. -/
def Overlong (t : DecimalText) : Prop :=
  (significant t).length ≤ maxDecimalDigits
    ∧ (overlongExponent t.exponent
        ∨ (exponentNumber t.exponent).natAbs ≤ maxDecimalExponent
          ∧ (intMaxStrDigits < t.whole.length ∨ intMaxStrDigits < t.fraction.length))

instance : DecidablePred overlongExponent
  | none => inferInstanceAs (Decidable False)
  | some (_, digits) => inferInstanceAs (Decidable (intMaxStrDigits < digits.length))

instance : DecidablePred Overlong := fun _ =>
  inferInstanceAs (Decidable (_ ∧ _))

theorem intOf_eq {digits : Text} (h : ¬ intMaxStrDigits < digits.length)
    : intOf digits = .ok (Nat.ofDigitChars 10 digits 0) := by
  rw [intOf, if_neg h]

theorem exponentOf_eq {e : Option (Bool × Text)} (h : ¬ overlongExponent e)
    : exponentOf e = .ok (exponentNumber e) := by
  cases e with
  | none => rfl
  | some e =>
    rw [exponentOf, intOf_eq h]
    rfl

theorem exponentOf_overlong {e : Option (Bool × Text)} (h : overlongExponent e)
    : exponentOf e = .error .valueError := by
  cases e with
  | none => cases h
  | some e =>
    have hint : intOf e.2 = .error .valueError := if_pos h
    rw [exponentOf, hint]
    rfl

theorem ofDigitChars_significant (t : DecimalText)
    : Nat.ofDigitChars 10 (significant t) 0
        = Nat.ofDigitChars 10 t.whole 0 * 10 ^ t.fraction.length + Nat.ofDigitChars 10 t.fraction 0 := by
  rw [significant, ofDigitChars_dropWhile, Nat.ofDigitChars_append, Nat.ofDigitChars_eq_ofDigitChars_zero, Nat.mul_comm]

theorem fractionOf_eq {t : DecimalText} (hwhole : ¬ intMaxStrDigits < t.whole.length)
    (hfraction : ¬ intMaxStrDigits < t.fraction.length) (hexponent : ¬ overlongExponent t.exponent)
    : fractionOf t = .ok (mantissaOf t * (10 : ℚ) ^ placeOf t) := by
  have hplace : (10 : ℚ) ^ placeOf t = (10 : ℚ) ^ exponentNumber t.exponent / 10 ^ t.fraction.length := by
    rw [placeOf, zpow_sub₀ (by norm_num), zpow_natCast]
  rw [fractionOf, intOf_eq hwhole, intOf_eq hfraction, exponentOf_eq hexponent, hplace, mantissaOf, signed]
  refine congrArg Except.ok ?_
  rw [← ofDigitChars_significant]
  cases t.negative with
  | true =>
    simp only [if_true, Int.cast_neg, Int.cast_natCast]
    ring
  | false =>
    simp only [Bool.false_eq_true, if_false, Int.cast_natCast]
    ring

theorem decimalFraction_of_match {text : Text} {t : DecimalText} (h : matchDecimal text = some t)
    : decimalFraction text
        =
      if maxDecimalDigits < (significant t).length then
        .ok none
      else
        (exponentOf t.exponent).bind fun exponent =>
          if maxDecimalExponent < exponent.natAbs then .ok none else (fractionOf t).bind fun q => .ok (some q) := by
  rw [decimalFraction, h]
  rfl

theorem decimalFraction_eq {text : Text} {t : DecimalText} (h : matchDecimal text = some t) (hlong : ¬ Overlong t)
    : decimalFraction text
        = .ok (if maxDecimalDigits < (significant t).length ∨ maxDecimalExponent < (exponentNumber t.exponent).natAbs
            then none else some (mantissaOf t * (10 : ℚ) ^ placeOf t)) := by
  rw [decimalFraction_of_match h]
  by_cases hdigits : maxDecimalDigits < (significant t).length
  . rw [if_pos hdigits, if_pos (Or.inl hdigits)]
  . have hexponent : ¬ overlongExponent t.exponent := fun hover => hlong ⟨not_lt.mp hdigits, Or.inl hover⟩
    rw [if_neg hdigits, exponentOf_eq hexponent]
    by_cases hbound : maxDecimalExponent < (exponentNumber t.exponent).natAbs
    . rw [if_pos (Or.inr hbound)]
      exact if_pos hbound
    . have hruns : ¬ (intMaxStrDigits < t.whole.length ∨ intMaxStrDigits < t.fraction.length) :=
        fun hover => hlong ⟨not_lt.mp hdigits, Or.inr ⟨not_lt.mp hbound, hover⟩⟩
      rcases not_or.mp hruns with ⟨hwhole, hfraction⟩
      rw [if_neg (not_or.mpr ⟨hdigits, hbound⟩), fractionOf_eq hwhole hfraction hexponent]
      exact if_neg hbound

theorem decimalFraction_overlong {text : Text} {t : DecimalText} (h : matchDecimal text = some t) (hlong : Overlong t)
    : decimalFraction text = .error .valueError := by
  rcases hlong with ⟨hdigits, hlong⟩
  rw [decimalFraction_of_match h]
  rw [if_neg (not_lt.mpr hdigits)]
  by_cases hexponent : overlongExponent t.exponent
  . rw [exponentOf_overlong hexponent]
    rfl
  . rcases hlong.resolve_left hexponent with ⟨hbound, hruns⟩
    have hraise : fractionOf t = .error .valueError := by
      by_cases hwhole : intMaxStrDigits < t.whole.length
      . rw [fractionOf, intOf, if_pos hwhole]
        rfl
      . rw [fractionOf, intOf_eq hwhole, intOf, if_pos (hruns.resolve_left hwhole)]
        rfl
    rw [exponentOf_eq hexponent, hraise]
    exact if_neg (not_lt.mpr hbound)

end FieldDefinitions
