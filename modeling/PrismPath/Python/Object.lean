import PrismPath.Lib.Dict
import PrismPath.Lib.JsonPrefix
import PrismPath.Python.FloatRepr
import Mathlib.Data.List.Sort

/-!
This module contains the objects `json.dumps` takes, with the keys a `dict` can have there, how they are written,
in the order of a `dict` or sorted by its keys, and what `json.loads` makes of a text.
-/

namespace Python

open Json

abbrev Text : Type := List Char

/-- The string of an ASCII text. -/
def ofText (cs : Text) : Str :=
  cs.map fun c => Fin.ofNat _ c.toNat

inductive Key where
  | none
  | bool (b : Bool)
  | int (n : ℤ)
  | float (x : Float64)
  | str (s : Str)
  deriving DecidableEq

inductive Obj where
  | none
  | bool (b : Bool)
  | int (n : ℤ)
  | float (x : Float64)
  | str (s : Str)
  | list (vs : List Obj)
  | dict (kvs : List (Key × Obj))

def intTree (n : ℤ) : Tree :=
  .number ⟨n < 0, n.natAbs, noDigits, Option.none⟩

namespace Key

/-- The string a key becomes. -/
def text : Key → Str
  | none => ofText (Word.null).text
  | bool b => ofText (if b then Word.true else Word.false).text
  | int n => ofText (write .compact (intTree n))
  | float x => ofText (write .compact x.tree)
  | str s => s

def num? : Key → Option Number
  | bool b => some (.finite (if b then 1 else 0))
  | int n => some (.finite n)
  | float x => some x.num
  | _ => Option.none

/-- `k < l`, for keys that can be compared. -/
def lt : Key → Key → Bool
  | str s, str t => s < t
  | k, l =>
    match k.num?, l.num? with
    | some x, some y => x.lt y
    | _, _ => false

def isStr : Key → Bool
  | str _ => true
  | _ => false

end Key

/-- Sorting compares any two keys or two of different kinds, which raises a `TypeError`. -/
def sortable (ks : List Key) : Bool :=
  ks.length ≤ 1 || ks.all Key.isStr || ks.all fun k => k.num?.isSome

def sortItems {V : Type} (kvs : List (Key × V)) : List (Key × V) :=
  kvs.insertionSort fun a b => b.1.lt a.1 = false

namespace Obj

mutual
def tree : Obj → Tree
  | none => .word .null
  | bool b => .word (if b then .true else .false)
  | int n => intTree n
  | float x => x.tree
  | str s => .string s
  | list vs => .array (treeItems vs)
  | dict kvs => .object (treeMembers kvs)

def treeItems : List Obj → List Tree
  | [] => []
  | v :: vs => v.tree :: treeItems vs

def treeMembers : List (Key × Obj) → List (Str × Tree)
  | [] => []
  | (k, v) :: kvs => (k.text, v.tree) :: treeMembers kvs
end

mutual
/-- The tree with `sort_keys`; `none` is the `TypeError` of keys that cannot be compared. -/
def sortedTree : Obj → Option Tree
  | none => some (.word .null)
  | bool b => some (.word (if b then .true else .false))
  | int n => some (intTree n)
  | float x => some x.tree
  | str s => some (.string s)
  | list vs => (sortedItems vs).map .array
  | dict kvs => do
    let kts ← sortedMembers kvs
    if sortable (kvs.map Prod.fst) then
      some (.object ((sortItems kts).map fun (k, t) => (k.text, t)))
    else
      Option.none

def sortedItems : List Obj → Option (List Tree)
  | [] => some []
  | v :: vs => do
    let t ← v.sortedTree
    let ts ← sortedItems vs
    some (t :: ts)

def sortedMembers : List (Key × Obj) → Option (List (Key × Tree))
  | [] => some []
  | (k, v) :: kvs => do
    let t ← v.sortedTree
    let kts ← sortedMembers kvs
    some ((k, t) :: kts)
end

end Obj

/-- `json.dumps(v)` -/
def dumps (v : Obj) : Text :=
  write .spaced v.tree

/-- `json.dumps(v, sort_keys=True)` -/
def dumpsSorted (v : Obj) : Option Text :=
  v.sortedTree.map (write .spaced)

/-- `canon.canonical_compact(v)` -/
def canonicalCompact (v : Obj) : Option Text :=
  v.sortedTree.map (write .compact)

/-- A `dict` of members in the order of the text: a later one replaces an earlier one of its key, in its place. -/
def dictOf (kvs : List (Str × Obj)) : Obj :=
  .dict ((kvs.foldl (fun d kv => Dict.set d kv.1 kv.2) []).map fun (k, v) => (.str k, v))

def decodeNumber (n : Json.Number) : Obj :=
  if n.fraction.val = [] ∧ n.exponent.isNone then
    .int (if n.neg then -n.whole else n.whole)
  else
    .float (.ofNumber n)

def decodeWord : Word → Obj
  | .null => .none
  | .true => .bool true
  | .false => .bool false
  | .nan => .float .nan
  | .infinity => .float (.inf false)
  | .negInfinity => .float (.inf true)

mutual
def decode : Tree → Obj
  | .word w => decodeWord w
  | .number n => decodeNumber n
  | .string s => .str s
  | .array ts => .list (decodeItems ts)
  | .object ms => dictOf (decodeMembers ms)

def decodeItems : List Tree → List Obj
  | [] => []
  | t :: ts => decode t :: decodeItems ts

def decodeMembers : List (Str × Tree) → List (Str × Obj)
  | [] => []
  | (k, t) :: ms => (k, decode t) :: decodeMembers ms
end

/-- `json.loads(cs)`; `none` is its `ValueError`. -/
def loads (cs : Text) : Option Obj :=
  (parse cs).map decode

/- Strings and bytes. -/

def str (s : String) : Str :=
  ofText s.toList

/-- A `dict` literal. -/
def record (kvs : List (String × Obj)) : Obj :=
  .dict (kvs.map fun (k, v) => (.str (str k), v))

/-- The bytes of an ASCII text. -/
def textBytes (cs : Text) : List UInt8 :=
  cs.map fun c => UInt8.ofNat c.toNat

/-- `s.encode("ascii")`; `none` is the `UnicodeEncodeError`. -/
def encodeAscii (s : Str) : Option (List UInt8) :=
  if s.all fun c => c.val < 128 then some (s.map fun c => UInt8.ofNat c.val) else none

/-- `data.hex()` -/
def hex (data : List UInt8) : Str :=
  ofText (data.flatMap fun b => [Nat.digitChar (b.toNat / 16), Nat.digitChar (b.toNat % 16)])

/-- The exceptions of the modelled code. -/
inductive Error where
  | valueError
  | typeError
  | keyError
  | indexError
  | attributeError
  | unicodeEncodeError
  | assertionError
  | overflowError
  | journalCorrupt
  deriving DecidableEq

namespace Obj

/-- `v[name]` -/
def field (v : Obj) (name : String) : Except Error Obj :=
  match v with
  | dict kvs =>
    match kvs.lookup (.str (Python.str name)) with
    | some w => .ok w
    | Option.none => .error .keyError
  | _ => .error .typeError

/-- `v.get(name, default)` -/
def get (v : Obj) (name : String) (default : Obj) : Except Error Obj :=
  match v with
  | dict kvs => .ok ((kvs.lookup (.str (Python.str name))).getD default)
  | _ => .error .attributeError

def asNat : Obj → Except Error ℕ
  | int n => if 0 ≤ n then .ok n.toNat else .error .valueError
  | _ => .error .typeError

def asInt : Obj → Except Error ℤ
  | int n => .ok n
  | _ => .error .typeError

def asStr : Obj → Except Error Str
  | str s => .ok s
  | _ => .error .typeError

end Obj

end Python
