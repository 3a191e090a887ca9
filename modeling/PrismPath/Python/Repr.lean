import PrismPath.Python.ObjectLemmas

/-!
This module contains `repr` and `str` of the values a JSON text gives, and when two of them are printed alike.
-/

namespace Python

open Json

/- Strings. -/

/-- The lower case hexadecimal digits of a number, filled up to a width. -/
def hexFill (width n : ℕ) : Text :=
  (List.range width).reverse.map fun i => Nat.digitChar (n / 16 ^ i % 16)

def reprChar (printable : CodePoint → Bool) (quote c : CodePoint) : Str :=
  if c = quote ∨ c = 92 then [92, c]
  else if c = 9 then str "\\t"
  else if c = 10 then str "\\n"
  else if c = 13 then str "\\r"
  else if c.val < 32 ∨ c.val = 127 then str "\\x" ++ ofText (hexFill 2 c.val)
  else if c.val < 127 then [c]
  else if printable c then [c]
  else if c.val < 0x100 then str "\\x" ++ ofText (hexFill 2 c.val)
  else if c.val < 0x10000 then str "\\u" ++ ofText (hexFill 4 c.val)
  else str "\\U" ++ ofText (hexFill 8 c.val)

/-- The quotes are double where the string has single ones and no double ones. -/
def reprQuote (s : Str) : CodePoint :=
  if 39 ∈ s ∧ 34 ∉ s then 34 else 39

/-- `repr` of a string; `printable` is `isprintable` of a character outside ASCII. -/
def reprStr (printable : CodePoint → Bool) (s : Str) : Str :=
  reprQuote s :: s.flatMap (reprChar printable (reprQuote s)) ++ [reprQuote s]

/- Values. -/

def reprBool (b : Bool) : Str :=
  str (if b then "True" else "False")

def reprFloat : Float64 → Str
  | .nan => str "nan"
  | .inf neg => str (if neg then "-inf" else "inf")
  | .finite neg x => ofText (write .compact (Float64.finite neg x).tree)

def reprInt (n : ℤ) : Str :=
  ofText (write .compact (intTree n))

def Key.repr (printable : CodePoint → Bool) : Key → Str
  | none => Python.str "None"
  | bool b => reprBool b
  | int n => reprInt n
  | float x => reprFloat x
  | str s => reprStr printable s

namespace Obj

variable (printable : CodePoint → Bool)

mutual
def repr : Obj → Str
  | none => Python.str "None"
  | bool b => reprBool b
  | int n => reprInt n
  | float x => reprFloat x
  | str s => reprStr printable s
  | list [] => Python.str "[]"
  | list (v :: vs) => Python.str "[" ++ v.repr ++ reprItems vs
  | dict [] => Python.str "\x7b\x7d"
  | dict ((k, v) :: kvs) => Python.str "\x7b" ++ k.repr printable ++ Python.str ": " ++ v.repr ++ reprMembers kvs

/-- The items after the first, and the closing bracket. -/
def reprItems : List Obj → Str
  | [] => Python.str "]"
  | v :: vs => Python.str ", " ++ v.repr ++ reprItems vs

def reprMembers : List (Key × Obj) → Str
  | [] => Python.str "\x7d"
  | (k, v) :: kvs => Python.str ", " ++ k.repr printable ++ Python.str ": " ++ v.repr ++ reprMembers kvs
end

/-- `str(v)` -/
def print : Obj → Str
  | str s => s
  | v => v.repr printable

end Obj

/- Values that are neither a text nor a collection: what they are printed as reads back. -/

theorem ofText_injective
    : Function.Injective ofText := by
  intro cs ds h
  refine List.map_injective_iff.mpr (fun c d hcd => ?_) h
  have hval := congrArg Fin.val hcd
  simp only [Fin.ofNat_eq_cast, Fin.val_natCast] at hval
  have hc : c.toNat < 0x110000 := by
    have := c.valid
    simp only [UInt32.isValidChar, Nat.isValidChar] at this
    show c.val.toNat < _
    omega
  have hd : d.toNat < 0x110000 := by
    have := d.valid
    simp only [UInt32.isValidChar, Nat.isValidChar] at this
    show d.val.toNat < _
    omega
  rw [Nat.mod_eq_of_lt hc, Nat.mod_eq_of_lt hd] at hval
  exact Char.toNat_inj.mp hval

namespace Obj

def isPlain : Obj → Bool
  | none | bool _ | int _ | float _ => true
  | _ => false

/-- The words that are printed otherwise than a JSON text has them. -/
def printedWords : List (Text × Obj) :=
  [("None".toList, none), ("True".toList, bool true), ("False".toList, bool false), ("nan".toList, float .nan),
    ("inf".toList, float (.inf false)), ("-inf".toList, float (.inf true))]

/-- The plain value a text is the print of. -/
def readPrinted (cs : Text) : Option Obj :=
  (printedWords.lookup cs).or (loads cs)

theorem loads_write {t : Tree} (style : Style) (hjoin : t.join = t)
    : loads (write style t) = some (decode t) := by
  rw [loads, parse_write, hjoin]
  rfl

theorem readPrinted_of_loads {cs : Text} {v : Obj} (h : loads cs = some v)
    : readPrinted cs = some v := by
  have hwords : ∀ word ∈ printedWords.map Prod.fst, loads word = Option.none := by
    intro word hword
    simp only [printedWords, List.map_cons, List.map_nil, List.mem_cons, List.not_mem_nil, or_false] at hword
    rcases hword with rfl | rfl | rfl | rfl | rfl | rfl <;> rfl
  have hlookup : printedWords.lookup cs = Option.none := by
    refine List.lookup_eq_none_iff.mpr fun kv hkv => ?_
    refine bne_iff_ne.mpr fun heq => ?_
    have := hwords kv.1 (List.mem_map_of_mem hkv)
    rw [← heq, h] at this
    cases this
  rw [readPrinted, hlookup, h]
  rfl

/-- A plain value is read back from what it is printed as. -/
theorem exists_text_of_isPlain {v : Obj} (printable : CodePoint → Bool) (h : v.isPlain = true)
    : ∃ cs, v.print printable = ofText cs ∧ readPrinted cs = some v := by
  cases v with
  | none => exact ⟨"None".toList, rfl, rfl⟩
  | bool b =>
    cases b
    . exact ⟨"False".toList, rfl, rfl⟩
    . exact ⟨"True".toList, rfl, rfl⟩
  | int n =>
    refine ⟨_, rfl, readPrinted_of_loads ?_⟩
    rw [loads_write .compact rfl, decode_intTree]
  | float x =>
    cases x with
    | nan => exact ⟨"nan".toList, rfl, rfl⟩
    | inf neg =>
      cases neg
      . exact ⟨"inf".toList, rfl, rfl⟩
      . exact ⟨"-inf".toList, rfl, rfl⟩
    | finite neg x =>
      refine ⟨_, rfl, readPrinted_of_loads ?_⟩
      rw [loads_write .compact (join_floatTree _), decode_floatTree]
  | str s => cases h
  | list vs => cases h
  | dict kvs => cases h

/-- Two values that are neither texts nor collections are printed alike only when they are one value. -/
theorem eq_of_print_eq {v w : Obj} {printable : CodePoint → Bool} (hv : v.isPlain = true) (hw : w.isPlain = true)
    (h : v.print printable = w.print printable)
    : v = w := by
  rcases exists_text_of_isPlain printable hv with ⟨cs, hcs, hreadv⟩
  rcases exists_text_of_isPlain printable hw with ⟨ds, hds, hreadw⟩
  have heq : cs = ds := ofText_injective (by rw [← hcs, ← hds, h])
  rw [heq, hreadw] at hreadv
  cases hreadv
  rfl

end Obj

end Python
