import PrismPath.Lib.Double

/-!
This module contains the Python values a predicate can meet, with Python's own truthiness, equality,
ordering and membership on them.
-/

namespace Python

inductive PyFloat where
  | nan
  | posInf
  | negInf
  | finite (x : Double)
  deriving DecidableEq

/--
A value of the language: the JSON values a worker returns, the further literals the expression grammar
knows (`bytes`, `ellipsis` and the imaginary `imag`), and the exact rational `fraction`, which also
stands for a `Decimal`.
-/
inductive Value where
  | none
  | bool (b : Bool)
  | int (n : ℤ)
  | float (x : PyFloat)
  | fraction (q : ℚ)
  | str (s : String)
  | bytes (bs : List UInt8)
  | ellipsis
  | imag (x : PyFloat)
  | list (vs : List Value)
  | dict (kvs : List (String × Value))

instance : Inhabited Value where
  default := .none

/-- The mathematical value of a real number, which is what Python compares numbers of any two types on. -/
inductive Number where
  | nan
  | negInf
  | finite (q : ℚ)
  | posInf
  deriving DecidableEq

namespace Number

def eq : Number → Number → Bool
  | finite p, finite q => p = q
  | posInf, posInf => true
  | negInf, negInf => true
  | _, _ => false

def lt : Number → Number → Bool
  | finite p, finite q => p < q
  | negInf, finite _ => true
  | negInf, posInf => true
  | finite _, posInf => true
  | _, _ => false

def le (x y : Number) : Bool :=
  lt x y || eq x y

end Number

def PyFloat.num : PyFloat → Number
  | nan => .nan
  | posInf => .posInf
  | negInf => .negInf
  | finite x => .finite x.val

namespace Value

/-- `bool` counts as a number, as it does in Python. -/
def num? : Value → Option Number
  | bool b => some (.finite (if b then 1 else 0))
  | int n => some (.finite n)
  | float x => some x.num
  | fraction q => some (.finite q)
  | _ => Option.none

/-- Real and imaginary part. -/
def complex? : Value → Option (Number × Number)
  | imag x => some (.finite 0, x.num)
  | v => v.num?.map fun x => (x, .finite 0)

def truthy : Value → Bool
  | none => false
  | bool b => b
  | int n => n ≠ 0
  | float x => x.num ≠ .finite 0
  | fraction q => q ≠ 0
  | str s => s ≠ ""
  | bytes bs => bs ≠ []
  | ellipsis => true
  | imag x => x.num ≠ .finite 0
  | list vs => !vs.isEmpty
  | dict kvs => !kvs.isEmpty

def scalarEq : Value → Value → Bool
  | none, none => true
  | ellipsis, ellipsis => true
  | str s, str t => s = t
  | bytes s, bytes t => s = t
  | v, w =>
    match v.complex?, w.complex? with
    | some (a, b), some (c, d) => a.eq c && b.eq d
    | _, _ => false

mutual

/--
`v == w`. Python compares the elements of containers by identity first; the one value that is not equal
to itself is a NaN, and a NaN is not a literal.
-/
def eq : Value → Value → Bool
  | list vs, w =>
    match w with
    | list ws => eqList vs ws
    | _ => false
  | dict kvs, w =>
    match w with
    | dict kws => kvs.length = kws.length && eqDict kvs kws
    | _ => false
  | v, w => scalarEq v w

def eqList : List Value → List Value → Bool
  | [], [] => true
  | v :: vs, w :: ws => eq v w && eqList vs ws
  | _, _ => false

/-- Every item of the first dict has an equal item in the second. -/
def eqDict : List (String × Value) → List (String × Value) → Bool
  | [], _ => true
  | (k, v) :: kvs, kws =>
    (match kws.lookup k with
    | some w => eq v w
    | Option.none => false) && eqDict kvs kws

end

inductive OrderOp where
  | lt
  | le
  | gt
  | ge
  deriving DecidableEq

def OrderOp.num : OrderOp → Number → Number → Bool
  | lt, x, y => x.lt y
  | le, x, y => x.le y
  | gt, x, y => y.lt x
  | ge, x, y => y.le x

def OrderOp.nat : OrderOp → Nat → Nat → Bool
  | lt, x, y => x < y
  | le, x, y => x ≤ y
  | gt, x, y => y < x
  | ge, x, y => y ≤ x

def OrderOp.str : OrderOp → String → String → Bool
  | lt, s, t => s < t
  | le, s, t => !decide (t < s)
  | gt, s, t => t < s
  | ge, s, t => !decide (s < t)

def OrderOp.bytes (op : OrderOp) : List UInt8 → List UInt8 → Bool
  | [], ys => op.nat 0 ys.length
  | xs, [] => op.nat xs.length 0
  | x :: xs, y :: ys => if x = y then op.bytes xs ys else op.nat x.toNat y.toNat

/-- Ordering two values that are not both lists; `none` is the `TypeError`. -/
def scalarOrder (op : OrderOp) : Value → Value → Option Bool
  | str s, str t => some (op.str s t)
  | bytes s, bytes t => some (op.bytes s t)
  | v, w =>
    match v.num?, w.num? with
    | some x, some y => some (op.num x y)
    | _, _ => Option.none

mutual

def order (op : OrderOp) : Value → Value → Option Bool
  | list vs, w =>
    match w with
    | list ws => orderList op vs ws
    | _ => Option.none
  | v, w => scalarOrder op v w

/-- Lists are ordered by the first pair of unequal elements, or by length when there is none. -/
def orderList (op : OrderOp) : List Value → List Value → Option Bool
  | [], ws => some (op.nat 0 ws.length)
  | v :: vs, [] => some (op.nat (v :: vs).length 0)
  | v :: vs, w :: ws => if eq v w then orderList op vs ws else order op v w

end

/-- `s in t` on strings and on bytes: `s` is a contiguous part of `t`. -/
def isInfix {α : Type} [DecidableEq α] (s : List α) : List α → Bool
  | [] => s.isEmpty
  | t@(_ :: t') => s.isPrefixOf t || isInfix s t'

/-- `v in w`; `none` is any exception the test raises. -/
def contains (w v : Value) : Option Bool :=
  match w with
  | list ws => some (ws.any fun x => eq v x)
  | str t =>
    match v with
    | str s => some (isInfix s.toList t.toList)
    | _ => Option.none
  | dict kvs =>
    match v with
    | str s => some (kvs.any fun kv => kv.1 = s)
    | list _ => Option.none
    | dict _ => Option.none
    | _ => some false
  | bytes bs =>
    match v with
    | int n => if 0 ≤ n ∧ n < 256 then some (bs.any fun b => (b.toNat : ℤ) = n) else Option.none
    | bool b => some (bs.any fun c => c.toNat = if b then 1 else 0)
    | bytes cs => some (isInfix cs bs)
    | _ => Option.none
  | _ => Option.none

/-- `isinstance(v, int)`, which a `bool` satisfies. -/
def isInt : Value → Bool
  | bool _ => true
  | int _ => true
  | _ => false

def isBool : Value → Bool
  | bool _ => true
  | _ => false

def isFloat : Value → Bool
  | float _ => true
  | _ => false

def isStr : Value → Bool
  | str _ => true
  | _ => false

/-- `isinstance(v, (int, float)) and not isinstance(v, bool)`. -/
def isNumber : Value → Bool
  | int _ => true
  | float _ => true
  | _ => false

/-- `type(v).__name__`. -/
def typeName : Value → String
  | none => "NoneType"
  | bool _ => "bool"
  | int _ => "int"
  | float _ => "float"
  | fraction _ => "Fraction"
  | str _ => "str"
  | bytes _ => "bytes"
  | ellipsis => "ellipsis"
  | imag _ => "complex"
  | list _ => "list"
  | dict _ => "dict"

end Value

end Python
