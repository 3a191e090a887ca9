import PrismPath.Kernel.FieldDefinitions

/-!
This module contains the Rust twin of the field definitions: how a definition is read, and the conversion to the
canonical value in 128 bit integers.
-/

open Python

namespace Rust

/-- `prismpath_rs::Value`, the engine's values. -/
inductive EngineValue where
  | null
  | bool (b : Bool)
  | num (x : Float64)
  | str (s : Text)
  | list (vs : List EngineValue)
  | obj (kvs : List (Text × EngineValue))
  | ellipsis

namespace Fields

open FieldDefinitions (Kind Rounding FieldDefinition Reason CanonicalRefusal splitSign exactIntegerLimit maxScale
  maxDecimalDigits maxDecimalExponent)

/- Definitions. -/

inductive Problem where
  | notAName
  | engineCounter
  | empty
  | unknownKind (word : Text)
  | notOptionValue (word : Text)
  | noSuchOption (kind option : Text)
  | givenTwice (option : Text)
  | absentWord (word : Text)
  | needsScaleAndRounding
  | notAnInteger (option text : Text)
  | scaleOutside (scale : ℤ)
  | roundingWord (word : Text)
  | badRange (minimum maximum : ℤ)
  deriving DecidableEq

structure DefinitionError where
  field : Text
  problem : Problem
  deriving DecidableEq

def isAsciiAlphabetic (c : Char) : Bool :=
  ('a' ≤ c && c ≤ 'z') || ('A' ≤ c && c ≤ 'Z')

def nameOk (name : Text) : Bool :=
  name.head?.any (fun c => isAsciiAlphabetic c || c = '_')
    && name.all fun c => isAsciiAlphabetic c || c.isDigit || c = '_'

def engineCounters : List Text :=
  ["visits".toList, "error_count".toList]

/-- The characters with the `White_Space` property. -/
def isWhitespace (c : Char) : Bool :=
  let n := c.toNat
  (9 ≤ n && n ≤ 13) || n = 0x20 || n = 0x85 || n = 0xA0 || n = 0x1680 || (0x2000 ≤ n && n ≤ 0x200A)
    || n = 0x2028 || n = 0x2029 || n = 0x202F || n = 0x205F || n = 0x3000

def splitWhitespace (text : Text) : List Text :=
  (text.splitOnP isWhitespace).filter (· ≠ [])

def splitOnce (sep : Char) (text : Text) : Option (Text × Text) :=
  if sep ∈ text then some (text.takeWhile (· ≠ sep), (text.dropWhile (· ≠ sep)).tail) else none

def inI64 (n : ℤ) : Bool :=
  -2 ^ 63 ≤ n && n < 2 ^ 63

/-- An integer too long for 64 bits reads as the nearest one. -/
def integerOption (option text : Text) : Except Problem ℤ :=
  let (negative, digits) := splitSign text
  if digits = [] ∨ ¬ digits.all Char.isDigit then
    .error (.notAnInteger option text)
  else
    let magnitude : ℤ := Nat.ofDigitChars 10 digits 0
    let n := if negative then -magnitude else magnitude
    .ok (if inI64 n then n else if negative then -2 ^ 63 else 2 ^ 63 - 1)

def kindOf (word : Text) : Except Problem (Kind × List Text) :=
  if word = "int".toList then
    .ok (.int, ["min".toList, "max".toList, "absent".toList])
  else if word = "fixed".toList then
    .ok (.fixed, ["scale".toList, "rounding".toList, "unit".toList, "min".toList, "max".toList, "absent".toList])
  else if word = "bool".toList then
    .ok (.bool, ["absent".toList])
  else if word = "category".toList then
    .ok (.category, ["absent".toList])
  else
    .error (.unknownKind word)

abbrev Options : Type := List (Text × Text)

def parseOptions (kind : Text) (allowed : List Text) : List Text → Options → Except Problem Options
  | [], options => .ok options
  | word :: words, options =>
    let (option, value) := (splitOnce '=' word).getD (word, [])
    if value = [] ∨ '=' ∉ word then
      .error (.notOptionValue word)
    else if option ∉ allowed then
      .error (.noSuchOption kind option)
    else if (options.lookup option).isSome then
      .error (.givenTwice option)
    else
      parseOptions kind allowed words (options ++ [(option, value)])

def roundingOf (word : Text) : Except Problem Rounding :=
  if word = "floor".toList then .ok .floor
  else if word = "ceiling".toList then .ok .ceiling
  else if word = "exact".toList then .ok .exact
  else .error (.roundingWord word)

def fixedOptions (options : Options) : Except Problem (ℤ × Rounding) :=
  match options.lookup "scale".toList, options.lookup "rounding".toList with
  | some scaleText, some roundingText => do
    let scale ← integerOption "scale".toList scaleText
    if ¬ (1 ≤ scale ∧ scale ≤ maxScale) then
      .error (.scaleOutside scale)
    else
      return (scale, ← roundingOf roundingText)
  | _, _ => .error .needsScaleAndRounding

def fixedOf (kind : Kind) (options : Options) : Except Problem (Option (ℤ × Rounding)) :=
  if kind = .fixed then (fixedOptions options).map some else .ok none

def bound (options : Options) (option : Text) (default : ℤ) : Except Problem ℤ :=
  match options.lookup option with
  | some text => integerOption option text
  | none => .ok default

def definitionOf (name : Text) (kind : Kind) (options : Options) : Except Problem FieldDefinition := do
  let absent := (options.lookup "absent".toList).getD "refused".toList
  if absent ≠ "refused".toList ∧ absent ≠ "allowed".toList then
    .error (.absentWord absent)
  else
    let fixed ← fixedOf kind options
    let minimum ← bound options "min".toList (-exactIntegerLimit)
    let maximum ← bound options "max".toList exactIntegerLimit
    if -exactIntegerLimit ≤ minimum ∧ minimum ≤ maximum ∧ maximum ≤ exactIntegerLimit then
      return {
        name := name
        kind := kind
        scale := fixed.map Prod.fst
        rounding := fixed.map Prod.snd
        unit := if kind = .fixed then options.lookup "unit".toList else none
        minimum := minimum
        maximum := maximum
        absentAllowed := absent = "allowed".toList
      }
    else
      .error (.badRange minimum maximum)

def readDefinition (name text : Text) : Except Problem FieldDefinition :=
  if ¬ nameOk name then
    .error .notAName
  else if name ∈ engineCounters then
    .error .engineCounter
  else
    match splitWhitespace text with
    | [] => .error .empty
    | kindWord :: words => do
      let (kind, allowed) ← kindOf kindWord
      definitionOf name kind (← parseOptions kindWord allowed words [])

def parseDefinition (name text : Text) : Except DefinitionError FieldDefinition :=
  (readDefinition name text).mapError fun problem => ⟨name, problem⟩

/- Exact decimals. -/

/-- `mantissa * 10 ^ exponent` -/
structure ExactDecimal where
  mantissa : ℤ
  exponent : ℤ

def isExponentMark (c : Char) : Bool :=
  c = 'e' || c = 'E'

/-- Leading zeros do not count towards the length, so the digits never overflow. -/
def exponentValue (text : Text) : Option ℤ :=
  let (negative, digits) := splitSign text
  if digits = [] ∨ ¬ digits.all Char.isDigit then
    none
  else
    let trimmed := digits.dropWhile (· = '0')
    if 3 < trimmed.length then
      none
    else
      let exponent : ℤ := Nat.ofDigitChars 10 trimmed 0
      let exponent := if negative then -exponent else exponent
      if maxDecimalExponent < exponent.natAbs then none else some exponent

def decimalValue (text : Text) : Option ExactDecimal := do
  let (negative, unsigned) := splitSign text
  let (mantissaText, exponentText) :=
    if unsigned.any isExponentMark then
      (unsigned.takeWhile (!isExponentMark ·), some (unsigned.dropWhile (!isExponentMark ·)).tail)
    else
      (unsigned, none)
  let (integerPart, fractionPart) := (splitOnce '.' mantissaText).getD (mantissaText, [])
  if ¬ integerPart.all Char.isDigit ∨ ¬ fractionPart.all Char.isDigit ∨ (integerPart = [] ∧ fractionPart = []) then
    none
  else
    let exponent ← exponentText.elim (some 0) exponentValue
    let significant := (integerPart ++ fractionPart).dropWhile (· = '0')
    if maxDecimalDigits < significant.length then
      none
    else
      let magnitude : ℤ := Nat.ofDigitChars 10 significant 0
      some ⟨if negative then -magnitude else magnitude, exponent - fractionPart.length⟩

/- 128 bit integers. -/

def inI128 (n : ℤ) : Bool :=
  -2 ^ 127 ≤ n && n < 2 ^ 127

/-- What an operation that overflows leaves in a release build; a debug build panics. -/
def wrapI128 (n : ℤ) : ℤ :=
  (n + 2 ^ 127) % 2 ^ 128 - 2 ^ 127

/-- The result of an operation, and whether it overflowed. -/
def i128 (n : ℤ) : ℤ × Bool :=
  (wrapI128 n, !inI128 n)

def checked (n : ℤ) : Option ℤ :=
  if inI128 n then some n else none

/-- `n as u32` -/
def asU32 (n : ℤ) : ℕ :=
  (n % 2 ^ 32).toNat

inductive Settle where
  | floor
  | ceiling
  | wholeOr (reason : Reason)

/-- The quotient and the remainder; a divisor that does not fit exceeds the numerator. -/
def divided (numerator : ℤ) : Option ℤ → ℤ × ℤ
  | some divisor => (numerator.tdiv divisor, numerator.tmod divisor)
  | none => (0, numerator)

def rounded (how : Settle) (numerator quotient remainder : ℤ) : Except Reason ℤ × Bool :=
  match how with
  | .floor =>
    let (floor, overflow) := i128 (quotient - if remainder ≠ 0 ∧ numerator < 0 then 1 else 0)
    (.ok floor, overflow)
  | .ceiling =>
    let (ceiling, overflow) := i128 (quotient + if remainder ≠ 0 ∧ 0 < numerator then 1 else 0)
    (.ok ceiling, overflow)
  | .wholeOr reason => (if remainder = 0 then .ok quotient else .error reason, false)

def settleNumerator (numerator exponent : ℤ) (how : Settle) : Except Reason ℤ × Bool :=
  if 0 ≤ exponent then
    match (checked (10 ^ asU32 exponent)).bind fun power => checked (numerator * power) with
    | some product => (.ok product, false)
    | none => (.error .outOfRange, false)
  else
    let (quotient, remainder) := divided numerator (checked (10 ^ asU32 (-exponent)))
    rounded how numerator quotient remainder

/-- The settled value or the refusal, and whether an operation overflowed on the way. -/
def settle (value : ExactDecimal) (scale : ℤ) (how : Settle) : Except Reason ℤ × Bool :=
  -- The source takes this product to fit, which it does for decimal text.
  let (numerator, overflow) := i128 (value.mantissa * scale)
  let (settled, overflow') := settleNumerator numerator value.exponent how
  (settled, overflow || overflow')

def inRange (d : FieldDefinition) (canonical : ℤ) : Except Reason ℤ :=
  if canonical < d.minimum ∨ d.maximum < canonical then .error .outOfRange else .ok canonical

def settleOf (d : FieldDefinition) : Settle :=
  match d.rounding with
  | some .floor => .floor
  | some .ceiling => .ceiling
  | _ => .wholeOr .offGrid

def exactToCanonical (d : FieldDefinition) (exact : ExactDecimal) : Except Reason ℤ × Bool :=
  let settled :=
    match d.kind with
    | .fixed => settle exact (d.scale.getD 1) (settleOf d)
    | _ => settle exact 1 (.wholeOr .fractional)
  (settled.1.bind (inRange d), settled.2)

/-- `number as i128` of an integral float, which saturates. -/
def saturate (n : ℤ) : ℤ :=
  max (-2 ^ 127) (min n (2 ^ 127 - 1))

/-- `n as f64` -/
def asF64 (n : ℤ) : Float64 :=
  .ofNumber ⟨n < 0, n.natAbs, Json.noDigits, none⟩

def exactOf (d : FieldDefinition) : EngineValue → Except Reason ExactDecimal
  | .num x =>
    match x.num with
    | .finite q =>
      if q.den = 1 then
        .ok ⟨saturate q.num, 0⟩
      else
        .error (if d.kind = .fixed then .binaryFloat else .fractional)
    | _ => .error .outOfRange
  | .str s =>
    match decimalValue s with
    | some exact => .ok exact
    | none => .error .unparseableString
  | _ => .error .wrongType

def refuse {α : Type} (d : FieldDefinition) (reason : Reason) : Except CanonicalRefusal α :=
  .error ⟨d.name, reason⟩

/-- The canonical value or the refusal, and whether a 128 bit operation overflowed on the way. -/
def canonicalValue (d : FieldDefinition) (raw : EngineValue) : Except CanonicalRefusal EngineValue × Bool :=
  match raw with
  | .null => (if d.absentAllowed then .ok .null else refuse d .missing, false)
  | raw =>
    match d.kind with
    | .bool =>
      match raw with
      | .bool b => (.ok (.bool b), false)
      | _ => (refuse d .wrongType, false)
    | .category =>
      match raw with
      | .str s => (.ok (.str s), false)
      | _ => (refuse d .wrongType, false)
    | _ =>
      match exactOf d raw with
      | .error reason => (refuse d reason, false)
      | .ok exact =>
        let settled := exactToCanonical d exact
        ((settled.1.map fun canonical => .num (asF64 canonical)).mapError fun reason => ⟨d.name, reason⟩, settled.2)

end Fields

end Rust
