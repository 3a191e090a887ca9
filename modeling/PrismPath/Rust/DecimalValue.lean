import PrismPath.Kernel.DecimalForm
import PrismPath.Rust.FieldDefinitions

/-!
This module contains the agreement of the two readers of decimal text, and the bounds it leaves on what they read.
-/

open Python

namespace Rust

namespace Fields

open FieldDefinitions

/- Decimal text. -/

def exponentIn (exponent : Option (Bool × Text)) : Option ℤ :=
  match exponent with
  | none => some 0
  | some (negative, digits) =>
    let trimmed := digits.dropWhile (· = '0')
    if 3 < trimmed.length then
      none
    else
      let exponent := signed negative (Nat.ofDigitChars 10 trimmed 0)
      if maxDecimalExponent < exponent.natAbs then none else some exponent

def decimalOf (t : DecimalText) : Option ExactDecimal := do
  let exponent ← exponentIn t.exponent
  if maxDecimalDigits < (significant t).length then none else some ⟨mantissaOf t, exponent - t.fraction.length⟩

theorem exponentValue_eq {text : Text} (h : (splitSign text).2 ≠ [] ∧ (splitSign text).2.all Char.isDigit = true)
    : exponentValue text = exponentIn (some (splitSign text)) := by
  unfold exponentValue
  rcases hsplit : splitSign text with ⟨negative, digits⟩
  rw [hsplit] at h
  have hdigits : ¬ (digits = [] ∨ ¬ digits.all Char.isDigit = true) := by
    rintro (hnil | hnot)
    . exact h.1 hnil
    . exact hnot h.2
  dsimp only
  rw [if_neg hdigits]
  rfl

theorem exponentValue_some {text : Text} {e : ℤ} (h : exponentValue text = some e)
    : (splitSign text).2 ≠ [] ∧ (splitSign text).2.all Char.isDigit = true := by
  unfold exponentValue at h
  dsimp only at h
  split at h
  next => cases h
  next hdigits =>
    rw [not_or, not_not] at hdigits
    exact hdigits

theorem not_mark_of_isDigit {c : Char} (h : c.isDigit = true)
    : isExponentMark c = false := by
  by_contra hmark
  rw [Bool.not_eq_false, isExponentMark, Bool.or_eq_true, decide_eq_true_eq, decide_eq_true_eq] at hmark
  rcases hmark with rfl | rfl <;> cases h

theorem not_mark_of_mantissa {mantissa whole fraction : Text} (h : Mantissa mantissa whole fraction)
    (hwhole : ∀ c ∈ whole, c.isDigit = true) (hfraction : ∀ c ∈ fraction, c.isDigit = true)
    : ∀ c ∈ mantissa, isExponentMark c = false := by
  cases h with
  | plain => exact fun c hc => not_mark_of_isDigit (hwhole c hc)
  | pointed =>
    intro c hc
    rw [List.mem_append, List.mem_cons] at hc
    rcases hc with hc | rfl | hc
    . exact not_mark_of_isDigit (hwhole c hc)
    . rfl
    . exact not_mark_of_isDigit (hfraction c hc)

theorem ne_point_of_isDigit {c : Char} (h : c.isDigit = true)
    : c ≠ '.' := by
  rintro rfl
  cases h

theorem splitOnce_of_mantissa {mantissa whole fraction : Text} (h : Mantissa mantissa whole fraction)
    (hwhole : ∀ c ∈ whole, c.isDigit = true)
    : (splitOnce '.' mantissa).getD (mantissa, []) = (whole, fraction) := by
  cases h with
  | plain =>
    have : '.' ∉ mantissa := fun hmem => ne_point_of_isDigit (hwhole _ hmem) rfl
    rw [splitOnce, if_neg this]
    rfl
  | pointed =>
    have hpoint : ∀ c ∈ whole, decide (c ≠ '.') = true := fun c hc => decide_eq_true (ne_point_of_isDigit (hwhole c hc))
    rw [splitOnce, if_pos (by simp), List.takeWhile_append_of_pos hpoint, List.dropWhile_append_of_pos hpoint]
    simp

theorem dropWhile_of_any {p : Char → Bool} {text : Text} (h : text.any p = true)
    : ∃ c cs, text.dropWhile (!p ·) = c :: cs ∧ p c = true := by
  induction text with
  | nil => cases h
  | cons c cs ih =>
    cases hc : p c with
    | true => exact ⟨c, cs, by simp [hc], hc⟩
    | false =>
      have hany : cs.any p = true := by simpa [hc] using h
      simpa [hc] using ih hany

theorem mantissa_splitOnce (mantissa : Text)
    : Mantissa mantissa ((splitOnce '.' mantissa).getD (mantissa, [])).1
        ((splitOnce '.' mantissa).getD (mantissa, [])).2 := by
  unfold splitOnce
  split
  next hmem =>
    have hsplit : mantissa.takeWhile (· ≠ '.') ++ mantissa.dropWhile (· ≠ '.') = mantissa :=
      List.takeWhile_append_dropWhile
    have hhead : ∃ cs, mantissa.dropWhile (· ≠ '.') = '.' :: cs := by
      have hany : mantissa.any (· = '.') = true := List.any_eq_true.mpr ⟨'.', hmem, decide_eq_true rfl⟩
      rcases dropWhile_of_any hany with ⟨c, cs, hdrop, hc⟩
      have hc : c = '.' := of_decide_eq_true hc
      exact ⟨cs, by simpa only [ne_eq, decide_not, hc] using hdrop⟩
    rcases hhead with ⟨cs, hcs⟩
    rw [hcs] at hsplit
    simp only [Option.getD_some, hcs, List.tail_cons]
    have := Mantissa.pointed (mantissa.takeWhile (· ≠ '.')) cs
    rwa [hsplit] at this
  next => exact .plain _

/-- The part of a text after its sign, at the mark of the exponent. -/
def splitExponent (unsigned : Text) : Text × Option Text :=
  if unsigned.any isExponentMark then
    (unsigned.takeWhile (!isExponentMark ·), some (unsigned.dropWhile (!isExponentMark ·)).tail)
  else
    (unsigned, none)

theorem splitExponent_append {mantissa rest : Text} (h : ∀ c ∈ mantissa, isExponentMark c = false)
    (hrest : ∀ c cs, rest = c :: cs → isExponentMark c = true)
    : splitExponent (mantissa ++ rest) = (mantissa, if rest = [] then none else some rest.tail) := by
  have hkeep : ∀ c ∈ mantissa, (!isExponentMark c) = true := fun c hc => by rw [h c hc, Bool.not_false]
  have hany : mantissa.any isExponentMark = false := by
    rw [List.any_eq_false]
    exact fun c hc => by rw [h c hc, Bool.false_eq_true, not_false_eq_true]; trivial
  rw [splitExponent, List.any_append, hany, Bool.false_or, List.takeWhile_append_of_pos hkeep,
    List.dropWhile_append_of_pos hkeep]
  cases rest with
  | nil => simp
  | cons c cs =>
    have hc := hrest c cs rfl
    simp [hc]

theorem decimalValue_eq (text : Text)
    : decimalValue text
        =
      let (negative, unsigned) := splitSign text
      let (mantissaText, exponentText) := splitExponent unsigned
      let (integerPart, fractionPart) := (splitOnce '.' mantissaText).getD (mantissaText, [])
      if ¬ integerPart.all Char.isDigit ∨ ¬ fractionPart.all Char.isDigit ∨ (integerPart = [] ∧ fractionPart = []) then
        none
      else
        (exponentText.elim (some 0) exponentValue).bind fun exponent =>
          let significant := (integerPart ++ fractionPart).dropWhile (· = '0')
          if maxDecimalDigits < significant.length then
            none
          else
            some ⟨signed negative (Nat.ofDigitChars 10 significant 0), exponent - fractionPart.length⟩ :=
  rfl

theorem exponentText_of_match {rest : Text} {e : Option (Bool × Text)} (h : matchExponent rest = some e)
    : (if rest = [] then none else some rest.tail).elim (some 0) exponentValue = exponentIn e := by
  cases rest with
  | nil =>
    cases h
    rfl
  | cons c cs =>
    rcases matchExponent_cons.mp h with ⟨_, hne, hdigits, rfl⟩
    exact exponentValue_eq ⟨hne, hdigits⟩

theorem mark_of_match {rest : Text} {e : Option (Bool × Text)} (h : matchExponent rest = some e)
    : ∀ c cs, rest = c :: cs → isExponentMark c = true := by
  rintro c cs rfl
  rcases (matchExponent_cons.mp h).1 with rfl | rfl <;> rfl

theorem decimalValue_of_form {text mantissa rest : Text} {t : DecimalText} (h : Form text mantissa rest t)
    : decimalValue text = decimalOf t := by
  have hmark := not_mark_of_mantissa h.digits h.whole h.fraction
  have hparts : ¬ (¬ t.whole.all Char.isDigit = true ∨ ¬ t.fraction.all Char.isDigit = true
      ∨ (t.whole = [] ∧ t.fraction = [])) := by
    rintro (hnot | hnot | hnil)
    . exact hnot (List.all_eq_true.mpr h.whole)
    . exact hnot (List.all_eq_true.mpr h.fraction)
    . exact h.nonempty hnil
  rw [decimalValue_eq, h.unsigned]
  dsimp only
  rw [splitExponent_append hmark (mark_of_match h.exponent)]
  dsimp only
  rw [splitOnce_of_mantissa h.digits h.whole]
  dsimp only
  rw [if_neg hparts, exponentText_of_match h.exponent]
  rfl

theorem form_of_decimalValue {text : Text} {x : ExactDecimal} (h : decimalValue text = some x)
    : ∃ mantissa rest t, Form text mantissa rest t := by
  rw [decimalValue_eq] at h
  rcases hsign : splitSign text with ⟨negative, unsigned⟩
  rw [hsign] at h
  dsimp only at h
  split at h
  next => cases h
  next hparts =>
    rw [not_or, not_or, not_not, not_not, List.all_eq_true, List.all_eq_true] at hparts
    rcases hparts with ⟨hwhole, hfraction, hnonempty⟩
    rcases Option.bind_eq_some_iff.mp h with ⟨e, hexponent, _⟩
    have hdigits := mantissa_splitOnce (splitExponent unsigned).1
    by_cases hany : unsigned.any isExponentMark = true
    . have hsplit : splitExponent unsigned
          = (unsigned.takeWhile (!isExponentMark ·), some (unsigned.dropWhile (!isExponentMark ·)).tail) := if_pos hany
      rcases dropWhile_of_any hany with ⟨c, cs, hdrop, hmark⟩
      rw [hsplit, hdrop] at hexponent
      rw [hsplit] at hdigits hwhole hfraction hnonempty
      rcases exponentValue_some hexponent with ⟨hne, hall⟩
      have hmark : c = 'e' ∨ c = 'E' := by simpa [isExponentMark] using hmark
      have hunsigned : unsigned.takeWhile (!isExponentMark ·) ++ c :: cs = unsigned := by
        rw [← hdrop, List.takeWhile_append_dropWhile]
      exact ⟨_, c :: cs, ⟨negative, _, _, some (splitSign cs)⟩, by rw [hsign, hunsigned], hdigits, hwhole, hfraction,
        hnonempty, matchExponent_cons.mpr ⟨hmark, hne, hall, rfl⟩⟩
    . have hsplit : splitExponent unsigned = (unsigned, none) := if_neg hany
      rw [hsplit] at hdigits hwhole hfraction hnonempty
      exact ⟨unsigned, [], ⟨negative, _, _, none⟩, by rw [hsign, List.append_nil], hdigits, hwhole, hfraction, hnonempty,
        rfl⟩

/-- Both read the same texts. -/
theorem decimalValue_eq_match (text : Text)
    : decimalValue text = (matchDecimal text).bind decimalOf := by
  cases hmatch : matchDecimal text with
  | some t =>
    rcases form_of_matchDecimal hmatch with ⟨mantissa, rest, hform⟩
    exact decimalValue_of_form hform
  | none =>
    cases hvalue : decimalValue text with
    | none => rfl
    | some x =>
      rcases form_of_decimalValue hvalue with ⟨mantissa, rest, t, hform⟩
      rw [matchDecimal_of_form hform] at hmatch
      cases hmatch

/-- The trimmed digits are too many only for a number past the bound. -/
theorem exponentIn_eq {e : Option (Bool × Text)} (h : ∀ negative digits, e = some (negative, digits) → ∀ c ∈ digits, c.isDigit = true)
    : exponentIn e = if maxDecimalExponent < (exponentNumber e).natAbs then none else some (exponentNumber e) := by
  cases e with
  | none => rfl
  | some e =>
    rcases e with ⟨negative, digits⟩
    have hdigits := h negative digits rfl
    have hvalue : exponentNumber (some (negative, digits))
        = signed negative (Nat.ofDigitChars 10 (digits.dropWhile (· = '0')) 0) := by
      rw [exponentNumber, ofDigitChars_dropWhile]
    simp only [exponentIn]
    split
    next hlen =>
      have hpow := pow_le_ofDigitChars hdigits hlen
      have hpast : maxDecimalExponent < (exponentNumber (some (negative, digits))).natAbs := by
        simp only [exponentNumber, signed, maxDecimalExponent]
        split <;> omega
      rw [if_pos hpast]
    next => rw [hvalue]

theorem decimalOf_eq {text mantissa rest : Text} {t : DecimalText} (h : Form text mantissa rest t)
    : decimalOf t
        =
      if maxDecimalDigits < (significant t).length ∨ maxDecimalExponent < (exponentNumber t.exponent).natAbs then
        none
      else
        some ⟨mantissaOf t, placeOf t⟩ := by
  have hexponent : ∀ negative digits, t.exponent = some (negative, digits) → ∀ c ∈ digits, c.isDigit = true := by
    intro negative digits heq c hc
    have hmatch := h.exponent
    rw [heq] at hmatch
    cases rest with
    | nil => cases hmatch
    | cons d ds =>
      rcases matchExponent_cons.mp hmatch with ⟨_, _, hall, hsplit⟩
      rw [Option.some.injEq] at hsplit
      rw [← hsplit] at hall
      exact List.all_eq_true.mp hall c hc
  rw [decimalOf, exponentIn_eq hexponent]
  by_cases hbound : maxDecimalExponent < (exponentNumber t.exponent).natAbs
  . rw [if_pos hbound, if_pos (Or.inr hbound)]
    rfl
  . simp only [hbound, or_false]
    rfl

/- The 128 bit integers. -/

def ExactDecimal.value (x : ExactDecimal) : ℚ :=
  x.mantissa * (10 : ℚ) ^ x.exponent

/-- What the bounds on decimal text leave. -/
structure Small (x : ExactDecimal) : Prop where
  mantissa : x.mantissa.natAbs < 10 ^ 28
  exponent_ge : -4330 ≤ x.exponent
  exponent_le : x.exponent ≤ 30

theorem natAbs_signed (negative : Bool) (n : ℕ)
    : (signed negative n).natAbs = n := by
  unfold signed
  split <;> omega

theorem small_of_form {text mantissa rest : Text} {t : DecimalText} (h : Form text mantissa rest t)
    (hlong : ¬ Overlong t)
    (hbounds : ¬ (maxDecimalDigits < (significant t).length ∨ maxDecimalExponent < (exponentNumber t.exponent).natAbs))
    : Small ⟨mantissaOf t, placeOf t⟩ := by
  rcases not_or.mp hbounds with ⟨hlen, hexponent⟩
  have hdigits : ∀ c ∈ significant t, c.isDigit = true := by
    intro c hc
    rcases List.mem_append.mp (List.dropWhile_subset _ hc) with hc | hc
    . exact h.whole c hc
    . exact h.fraction c hc
  have hfraction : t.fraction.length ≤ intMaxStrDigits := by
    by_contra hover
    exact hlong ⟨not_lt.mp hlen, Or.inr ⟨not_lt.mp hexponent, Or.inr (not_le.mp hover)⟩⟩
  have hlt := ofDigitChars_lt hdigits
  have hpow : 10 ^ (significant t).length ≤ 10 ^ 28 := Nat.pow_le_pow_right (by norm_num) (not_lt.mp hlen)
  unfold maxDecimalExponent at hexponent
  unfold intMaxStrDigits at hfraction
  constructor
  . show (mantissaOf t).natAbs < 10 ^ 28
    rw [mantissaOf, natAbs_signed]
    omega
  . show -4330 ≤ placeOf t
    unfold placeOf
    omega
  . show placeOf t ≤ 30
    unfold placeOf
    omega

/-- A text that Python reads is read alike by both. -/
theorem decimalFraction_eq_value {text : Text} (h : ∀ t, matchDecimal text = some t → ¬ Overlong t)
    : decimalFraction text = .ok ((decimalValue text).map ExactDecimal.value)
        ∧ ∀ x, decimalValue text = some x → Small x := by
  rw [decimalValue_eq_match]
  cases hmatch : matchDecimal text with
  | none =>
    refine ⟨?_, fun x hx => by cases hx⟩
    rw [decimalFraction, hmatch]
    rfl
  | some t =>
    rcases form_of_matchDecimal hmatch with ⟨mantissa, rest, hform⟩
    rw [decimalFraction_eq hmatch (h t hmatch), Option.bind_some, decimalOf_eq hform]
    split
    next => exact ⟨rfl, fun x hx => by cases hx⟩
    next hbounds =>
      refine ⟨rfl, fun x hx => ?_⟩
      cases hx
      exact small_of_form hform (h t hmatch) hbounds

end Fields

end Rust
