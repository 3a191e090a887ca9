import PrismPath.Python.Object

/-!
This module contains field definitions, and the conversion of a source value to the canonical value of its field,
in exact rational arithmetic.
-/

open Python

namespace FieldDefinitions

inductive Kind where
  | int
  | fixed
  | bool
  | category
  deriving DecidableEq

inductive Rounding where
  | floor
  | ceiling
  | exact
  deriving DecidableEq

def exactIntegerLimit : ℤ :=
  2 ^ 53 - 1

def maxScale : ℤ :=
  10 ^ 9

def maxDecimalDigits : ℕ :=
  28

def maxDecimalExponent : ℕ :=
  30

structure FieldDefinition where
  name : Text
  kind : Kind
  scale : Option ℤ
  rounding : Option Rounding
  unit : Option Text
  minimum : ℤ
  maximum : ℤ
  absentAllowed : Bool
  deriving DecidableEq

/-- The reasons of a refusal. -/
inductive Reason where
  | missing
  | wrongType
  | unparseableString
  | fractional
  | outOfRange
  | offGrid
  | binaryFloat
  deriving DecidableEq

structure CanonicalRefusal where
  field : Text
  reason : Reason
  deriving DecidableEq

/- Decimal text. -/

/-- What `DECIMAL_TEXT` matches: a sign, the digits on both sides of the point, an exponent with its sign. -/
structure DecimalText where
  negative : Bool
  whole : Text
  fraction : Text
  exponent : Option (Bool × Text)
  deriving DecidableEq

def splitSign : Text → Bool × Text
  | '-' :: cs => (true, cs)
  | '+' :: cs => (false, cs)
  | cs => (false, cs)

def matchFraction : Text → Text × Text
  | '.' :: cs => (cs.takeWhile Char.isDigit, cs.dropWhile Char.isDigit)
  | cs => ([], cs)

/-- The exponent up to the end of the text, which may be absent; `none` is no match. -/
def matchExponent : Text → Option (Option (Bool × Text))
  | [] => some none
  | c :: cs =>
    let (negative, digits) := splitSign cs
    if (c = 'e' ∨ c = 'E') ∧ digits ≠ [] ∧ digits.all Char.isDigit then some (some (negative, digits)) else none

/-- `DECIMAL_TEXT.fullmatch(text)` -/
def matchDecimal (text : Text) : Option DecimalText := do
  let (negative, unsigned) := splitSign text
  let whole := unsigned.takeWhile Char.isDigit
  let (fraction, rest) := matchFraction (unsigned.dropWhile Char.isDigit)
  let exponent ← matchExponent rest
  if whole = [] ∧ fraction = [] then none else some ⟨negative, whole, fraction, exponent⟩

/-- `int(digits)` refuses to read more digits than this. -/
def intMaxStrDigits : ℕ :=
  4300

def intOf (digits : Text) : Except Error ℕ :=
  if intMaxStrDigits < digits.length then .error .valueError else .ok (Nat.ofDigitChars 10 digits 0)

def exponentOf : Option (Bool × Text) → Except Error ℤ
  | none => .ok 0
  | some (negative, digits) => do
    let n ← intOf digits
    return if negative then -n else n

/-- `Fraction(text)` -/
def fractionOf (t : DecimalText) : Except Error ℚ := do
  let whole ← intOf t.whole
  let decimal ← intOf t.fraction
  let exponent ← exponentOf t.exponent
  let magnitude : ℚ := (whole * 10 ^ t.fraction.length + decimal : ℕ) / 10 ^ t.fraction.length * (10 : ℚ) ^ exponent
  return if t.negative then -magnitude else magnitude

def decimalFraction (text : Text) : Except Error (Option ℚ) :=
  match matchDecimal text with
  | none => .ok none
  | some t => do
    let digits := (t.whole ++ t.fraction).dropWhile (· = '0')
    if maxDecimalDigits < digits.length then
      return none
    else if maxDecimalExponent < (← exponentOf t.exponent).natAbs then
      return none
    else
      return some (← fractionOf t)

/- The conversion. -/

/-- A source value. A `Decimal` comes as its text, and as `none` when it is not finite. -/
inductive Raw where
  | none
  | bool (b : Bool)
  | int (n : ℤ)
  | float (x : Float64)
  | str (s : Text)
  | fraction (q : ℚ)
  | decimal (text : Option Text)
  | other

inductive Canonical where
  | none
  | bool (b : Bool)
  | str (s : Text)
  | int (n : ℤ)

inductive Failure where
  | refusal (r : CanonicalRefusal)
  | raised (e : Error)

def refuse {α : Type} (d : FieldDefinition) (reason : Reason) : Except Failure α :=
  .error (.refusal ⟨d.name, reason⟩)

def scaled (d : FieldDefinition) (value : ℚ) : Except Failure ℤ :=
  match d.scale with
  | none => .error (.raised .typeError)
  | some scale => do
    let scaled := value * scale
    let canonical ←
      match d.rounding with
      | some .floor => .ok ⌊scaled⌋
      | some .ceiling => .ok ⌈scaled⌉
      | _ => if scaled.den = 1 then .ok scaled.num else refuse d .offGrid
    if d.minimum ≤ canonical ∧ canonical ≤ d.maximum then .ok canonical else refuse d .outOfRange

def exactText (d : FieldDefinition) (text : Text) : Except Failure ℚ :=
  match decimalFraction text with
  | .error e => .error (.raised e)
  | .ok none => refuse d .unparseableString
  | .ok (some exact) => .ok exact

def exactOf (d : FieldDefinition) : Raw → Except Failure ℚ
  | .float x =>
    match x.num with
    | .finite q =>
      if q.den = 1 then .ok q else refuse d (if d.kind = .fixed then .binaryFloat else .fractional)
    | _ => refuse d .outOfRange
  | .int n => .ok n
  | .fraction q => .ok q
  | .str s => exactText d s
  | .decimal none => refuse d .outOfRange
  | .decimal (some text) => exactText d text
  | _ => refuse d .wrongType

def canonicalNumber (d : FieldDefinition) (exact : ℚ) : Except Failure ℤ :=
  if d.kind = .fixed then
    scaled d exact
  else if exact.den ≠ 1 then
    refuse d .fractional
  else if d.minimum ≤ exact.num ∧ exact.num ≤ d.maximum then
    .ok exact.num
  else
    refuse d .outOfRange

def canonicalValue (d : FieldDefinition) (raw : Raw) : Except Failure Canonical :=
  match raw with
  | .none => if d.absentAllowed then .ok .none else refuse d .missing
  | raw =>
    match d.kind with
    | .bool =>
      match raw with
      | .bool b => .ok (.bool b)
      | _ => refuse d .wrongType
    | .category =>
      match raw with
      | .str s => .ok (.str s)
      | _ => refuse d .wrongType
    | _ => do return .int (← canonicalNumber d (← exactOf d raw))

end FieldDefinitions
