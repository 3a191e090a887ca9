import PrismPath.Lib.OrderedMap
import PrismPath.Python.Object

/-!
This module contains the Rust side of the canonical JSON: the values a document is read as, and how a value is
written in the bytes of Python's `json.dumps(..., sort_keys=True)`.
-/

namespace Rust

open Json

/-- The sign and the magnitude of an `f64` that is neither infinite nor a NaN. -/
abbrev Finite : Type := Bool × { x : Double // 0 ≤ x.val }

/-- `serde_json::Number` -/
inductive Number where
  | posInt (n : { n : ℕ // n < 2 ^ 64 })
  | negInt (n : { n : ℤ // -2 ^ 63 ≤ n ∧ n < 0 })
  | float (x : Finite)

namespace Number

def asI64 : Number → Option ℤ
  | posInt n => if n.val < 2 ^ 63 then some n.val else none
  | negInt n => some n.val
  | float _ => none

def asU64 : Number → Option ℕ
  | posInt n => some n.val
  | _ => none

def asF64 : Number → Option Python.Float64
  | posInt n => some (.ofNumber ⟨false, n.val, noDigits, none⟩)
  | negInt n => some (.ofNumber ⟨true, n.val.natAbs, noDigits, none⟩)
  | float (neg, x) => some (.finite neg x)

end Number

/-- `serde_json::Value`. An object is the map that inserting its members one after the other gives. -/
inductive Value where
  | null
  | bool (b : Bool)
  | number (n : Number)
  | string (s : Str)
  | array (vs : List Value)
  | object (kvs : List (Str × Value))

/- Strings. -/

def utf8 (c : CodePoint) : List ℕ :=
  let n := c.val
  if n < 0x80 then [n]
  else if n < 0x800 then [0xC0 + n / 64, 0x80 + n % 64]
  else if n < 0x10000 then [0xE0 + n / 4096, 0x80 + n / 64 % 64, 0x80 + n % 64]
  else [0xF0 + n / 262144, 0x80 + n / 4096 % 64, 0x80 + n / 64 % 64, 0x80 + n % 64]

/-- Strings are ordered by their bytes. -/
def strLt (s t : Str) : Bool :=
  decide (s.flatMap utf8 < t.flatMap utf8)

def escapeChar (c : CodePoint) : List Char :=
  if c.val = 34 then ['\\', '"']
  else if c.val = 92 then ['\\', '\\']
  else if c.val = 10 then ['\\', 'n']
  else if c.val = 13 then ['\\', 'r']
  else if c.val = 9 then ['\\', 't']
  else if c.val = 8 then ['\\', 'b']
  else if c.val = 12 then ['\\', 'f']
  else if c.val < 0x20 then unicodeEscape c.val
  else if c.val < 0x7f then [Char.ofNat c.val]
  else if c.val ≤ 0xffff then unicodeEscape c.val
  else
    let offset := c.val - 0x10000
    unicodeEscape (0xd800 + offset / 1024) ++ unicodeEscape (0xdc00 + offset % 1024)

def pyJsonQuote (raw : Str) : List Char :=
  '"' :: raw.flatMap escapeChar ++ ['"']

section

-- the digits `{:e}` writes for a positive float
variable (lowerExp : Double → Python.Decimal)

/-- `{:e}` split at its `e`, the exponent parsed. -/
def mantissaExponent (x : Double) : List Char × ℤ :=
  let d := lowerExp x
  let digits := Nat.toDigits 10 d.coeff
  let mantissa := digits.take 1 ++ (if digits.length = 1 then [] else '.' :: digits.drop 1)
  (mantissa, digits.length + d.exp - 1)

def pyFloatRepr : Python.Float64 → List Char
  | .nan => Word.nan.text
  | .inf neg => (if neg then Word.negInfinity else Word.infinity).text
  | .finite neg x =>
    let sign := if neg then ['-'] else []
    if x.val.val = 0 then
      sign ++ ['0', '.', '0']
    else
      let (mantissa, exponent) := mantissaExponent lowerExp x.val
      let digits := mantissa.filter (· ≠ '.')
      if ¬ (-4 ≤ exponent ∧ exponent < 16) then
        let tail := digits.drop 1
        let fraction := if tail = [] then [] else '.' :: tail
        let exponentSign := if exponent < 0 then '-' else '+'
        sign ++ digits.take 1 ++ fraction ++ 'e' :: exponentSign :: (Python.FloatRepr.padded 2 exponent.natAbs).val
      else if exponent < 0 then
        sign ++ '0' :: '.' :: List.replicate (-exponent - 1).toNat '0' ++ digits
      else
        let integerLen := exponent.toNat + 1
        if digits.length ≤ integerLen then
          sign ++ digits ++ List.replicate (integerLen - digits.length) '0' ++ ['.', '0']
        else
          sign ++ digits.take integerLen ++ '.' :: digits.drop integerLen

def i64Text (n : ℤ) : List Char :=
  (if n < 0 then ['-'] else []) ++ Nat.toDigits 10 n.natAbs

def numberText (n : Number) : List Char :=
  match n.asI64 with
  | some i => i64Text i
  | none =>
    match n.asU64 with
    | some u => Nat.toDigits 10 u
    | none => pyFloatRepr lowerExp (n.asF64.getD .nan)

def itemSep (spaced : Bool) : List Char :=
  if spaced then [',', ' '] else [',']

def keySep (spaced : Bool) : List Char :=
  if spaced then [':', ' '] else [':']

variable (spaced : Bool)

mutual
def pyCanonicalString : Value → List Char
  | .null => Word.null.text
  | .bool b => (if b then Word.true else Word.false).text
  | .number n => numberText lowerExp n
  | .string s => pyJsonQuote s
  | .array vs => '[' :: (itemSep spaced).intercalate (itemTexts vs) ++ [']']
  | .object kvs =>
    let sorted := OrderedMap.ofList strLt (memberTexts kvs)
    '{' :: (itemSep spaced).intercalate (sorted.map fun (k, text) => pyJsonQuote k ++ keySep spaced ++ text) ++ ['}']

def itemTexts : List Value → List (List Char)
  | [] => []
  | v :: vs => pyCanonicalString v :: itemTexts vs

def memberTexts : List (Str × Value) → List (Str × List Char)
  | [] => []
  | (k, v) :: kvs => (k, pyCanonicalString v) :: memberTexts kvs
end

end

/- Reading a document. -/

namespace Serde

variable (readFloat : Json.Number → Option Finite)

/-- An integer of 64 bits stays one; any other number, and the integer `-0`, is read as a float. -/
def readNumber (n : Json.Number) : Option Number :=
  if n.fraction.val = [] ∧ n.exponent.isNone then
    if n.neg then
      if h : 1 ≤ n.whole ∧ n.whole ≤ 2 ^ 63 then
        some (.negInt ⟨-n.whole, by omega⟩)
      else
        (readFloat n).map .float
    else
      if h : n.whole < 2 ^ 64 then some (.posInt ⟨n.whole, h⟩) else (readFloat n).map .float
  else
    (readFloat n).map .float

def readWord : Word → Option Value
  | .null => some .null
  | .true => some (.bool true)
  | .false => some (.bool false)
  | _ => none

/-- A string of a text has no surrogates. -/
def readString (s : Str) : Option Str :=
  if s.all fun c => !isHigh c.val && !isLow c.val then some s else none

/-- So many arrays and objects the reader enters one inside the other. -/
def recursionLimit : ℕ :=
  127

mutual
def readAt : (remaining : ℕ) → Tree → Option Value
  | _, .word w => readWord w
  | _, .number n => (readNumber readFloat n).map .number
  | _, .string s => (readString s).map .string
  | 0, .array _ => none
  | remaining + 1, .array ts => (readItems remaining ts).map .array
  | 0, .object _ => none
  | remaining + 1, .object ms => (readMembers remaining ms).map .object

def readItems : (remaining : ℕ) → List Tree → Option (List Value)
  | _, [] => some []
  | remaining, t :: ts => do
    let v ← readAt remaining t
    let vs ← readItems remaining ts
    some (v :: vs)

def readMembers : (remaining : ℕ) → List (Str × Tree) → Option (List (Str × Value))
  | _, [] => some []
  | remaining, (k, t) :: ms => do
    let k ← readString k
    let v ← readAt remaining t
    let kvs ← readMembers remaining ms
    some ((k, v) :: kvs)
end

def read (t : Tree) : Option Value :=
  readAt readFloat recursionLimit t

end Serde

/- Manifests. -/

section

variable (sha256 : List UInt8 → List UInt8) (lowerExp : Double → Python.Decimal)

def manifestHashOf (manifest : Value) : Str :=
  let body : Value :=
    match manifest with
    | .object kvs => .object (kvs.filter fun kv => kv.1 ≠ Python.str "manifest_hash")
    | v => v
  Python.hex (sha256 (Python.textBytes (pyCanonicalString lowerExp true body)))

/-- `v.get(name)`: the last member of the name is the one in the map. -/
def Value.get? (v : Value) (name : String) : Option Value :=
  match v with
  | .object kvs => kvs.reverse.lookup (Python.str name)
  | _ => none

def Value.asStr : Value → Option Str
  | .string s => some s
  | _ => none

def verifyManifest (manifest : Value) : Bool :=
  (manifest.get? "manifest_hash").bind Value.asStr = some (manifestHashOf sha256 lowerExp manifest)

end

end Rust
