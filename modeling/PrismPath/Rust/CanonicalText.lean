import PrismPath.Rust.Durable

/-!
This module contains what the canonical text of a value is: the text of a JSON tree whose members are sorted, its floats
laid out as the other side lays them out.
-/

namespace Rust

open Json Python.FloatRepr

/- Decimal digits, split at a power of ten. -/

theorem padded_succ {k : ℕ} (hk : 0 < k) (m : ℕ)
    : (padded (k + 1) m).val = (padded k (m / 10)).val ++ [Nat.digitChar (m % 10)] := by
  simp only [padded]
  by_cases hm : m < 10
  . have hzeros : List.replicate k '0' = List.replicate (k - 1) '0' ++ ['0'] := by
      rw [← List.replicate_succ', Nat.sub_add_cancel hk]
    rw [Nat.toDigits_of_lt_base hm, Nat.div_eq_of_lt hm, Nat.toDigits_zero, Nat.mod_eq_of_lt hm,
      List.length_singleton, List.length_singleton, Nat.add_sub_cancel, hzeros]
  . rw [Nat.toDigits_of_base_le (by decide) (Nat.le_of_not_lt hm), List.length_append, List.length_singleton,
      Nat.add_sub_add_right, List.append_assoc]

theorem padded_one {m : ℕ} (h : m < 10)
    : (padded 1 m).val = [Nat.digitChar m] := by
  simp [padded, Nat.toDigits_of_lt_base h]

theorem toDigits_split {c k : ℕ} (hk : 0 < k) (h : 10 ^ k ≤ c)
    : Nat.toDigits 10 c = Nat.toDigits 10 (c / 10 ^ k) ++ (padded k (c % 10 ^ k)).val := by
  induction k generalizing c with
  | zero => cases hk
  | succ k ih =>
    have hten : 10 ≤ c := le_trans (Nat.le_self_pow (Nat.succ_ne_zero k) 10) h
    rw [Nat.toDigits_of_base_le (by decide) hten]
    rcases Nat.eq_zero_or_pos k with rfl | hpos
    . rw [zero_add, pow_one, padded_one (Nat.mod_lt _ (by decide))]
    . have hless : 10 ^ k ≤ c / 10 := by
        rw [Nat.le_div_iff_mul_le (by decide), ← Nat.pow_succ]
        exact h
      have hdiv : c / 10 / 10 ^ k = c / 10 ^ (k + 1) := by
        rw [Nat.div_div_eq_div_mul, Nat.pow_succ, Nat.mul_comm]
      have hmod : c / 10 % 10 ^ k = c % 10 ^ (k + 1) / 10 := by
        rw [Nat.pow_succ, Nat.mul_comm, Nat.mod_mul_right_div_self]
      have hlast : c % 10 ^ (k + 1) % 10 = c % 10 :=
        Nat.mod_mod_of_dvd c (Dvd.intro_left (10 ^ k) rfl)
      rw [ih hpos hless, hdiv, hmod, padded_succ hpos, hlast, List.append_assoc]

theorem pow_le_of_length {c k : ℕ} (h : k < (Nat.toDigits 10 c).length) (hk : 0 < k)
    : 10 ^ k ≤ c := by
  by_contra hlt
  have := (Nat.length_toDigits_le_iff (b := 10) (by decide) hk).mpr (Nat.lt_of_not_le hlt)
  omega

theorem length_head {c k : ℕ} (hk : 0 < k) (h : k < (Nat.toDigits 10 c).length)
    : (Nat.toDigits 10 (c / 10 ^ k)).length = (Nat.toDigits 10 c).length - k := by
  have hsplit := congrArg List.length (toDigits_split hk (pow_le_of_length h hk))
  rw [List.length_append, Python.length_padded hk (Nat.mod_lt _ (by positivity))] at hsplit
  omega

theorem take_toDigits {c k : ℕ} (hk : 0 < k) (h : k < (Nat.toDigits 10 c).length)
    : (Nat.toDigits 10 c).take ((Nat.toDigits 10 c).length - k) = Nat.toDigits 10 (c / 10 ^ k) := by
  rw [← length_head hk h]
  conv_lhs => rw [toDigits_split hk (pow_le_of_length h hk)]
  exact List.take_left

theorem drop_toDigits {c k : ℕ} (hk : 0 < k) (h : k < (Nat.toDigits 10 c).length)
    : (Nat.toDigits 10 c).drop ((Nat.toDigits 10 c).length - k) = (padded k (c % 10 ^ k)).val := by
  rw [← length_head hk h]
  conv_lhs => rw [toDigits_split hk (pow_le_of_length h hk)]
  exact List.drop_left

/-- Zeros after the digits. -/
theorem toDigits_mul_pow {c : ℕ} (hc : 0 < c) (k : ℕ)
    : Nat.toDigits 10 (c * 10 ^ k) = Nat.toDigits 10 c ++ List.replicate k '0' := by
  rcases Nat.eq_zero_or_pos k with rfl | hk
  . simp
  . have hzeros : (padded k 0).val = List.replicate k '0' := by
      simp only [padded, Nat.toDigits_zero, List.length_singleton]
      rw [← List.replicate_succ', Nat.sub_add_cancel hk]
    rw [toDigits_split hk (Nat.le_mul_of_pos_left _ hc), Nat.mul_div_cancel _ (by positivity), Nat.mul_mod_left, hzeros]

theorem filter_mantissa (lowerExp : Double → Python.Decimal) (x : Double)
    : (mantissaExponent lowerExp x).1.filter (· ≠ '.') = Nat.toDigits 10 (lowerExp x).coeff := by
  have hkeep : ∀ cs : List Char, (∀ c ∈ cs, c.isDigit = true) → cs.filter (· ≠ '.') = cs := by
    intro cs h
    refine List.filter_eq_self.mpr fun c hc => decide_eq_true ?_
    rintro rfl
    exact absurd (h _ hc) (by decide)
  have hdigits : ∀ c ∈ Nat.toDigits 10 (lowerExp x).coeff, c.isDigit = true :=
    fun c hc => Nat.isDigit_of_mem_toDigits (by decide) (by decide) hc
  have hhead := hkeep ((Nat.toDigits 10 (lowerExp x).coeff).take 1) fun c hc => hdigits c (List.mem_of_mem_take hc)
  have htail := hkeep ((Nat.toDigits 10 (lowerExp x).coeff).drop 1) fun c hc => hdigits c (List.mem_of_mem_drop hc)
  simp only [mantissaExponent]
  rw [List.filter_append, hhead]
  split
  next hone =>
    rw [List.filter_nil, List.append_nil, List.take_of_length_le hone.le]
  next =>
    rw [List.filter_cons_of_neg (by decide), htail, List.take_append_drop]

/- The text. -/

/-- The decimal of a float's magnitude. -/
def decimalOf (lowerExp : Double → Python.Decimal) (x : Double) : Python.Decimal :=
  if x.val = 0 then ⟨0, 0⟩ else lowerExp x

theorem write_scientific (neg : Bool) (d : Python.Decimal)
    : (scientific neg d).write
        =
      (if neg then ['-'] else []) ++ (Nat.toDigits 10 d.coeff).take 1
        ++ (if (Nat.toDigits 10 d.coeff).drop 1 = [] then [] else '.' :: (Nat.toDigits 10 d.coeff).drop 1)
        ++ 'e' :: (if (Nat.toDigits 10 d.coeff).length + d.exp - 1 < 0 then '-' else '+')
            :: (padded 2 ((Nat.toDigits 10 d.coeff).length + d.exp - 1).natAbs).val := by
  have hpos : 0 < (Nat.toDigits 10 d.coeff).length := Nat.length_toDigits_pos
  have hexponent (e : ℤ) : writeExponent (some (exponentOf e))
      = 'e' :: (if e < 0 then '-' else '+') :: (padded 2 e.natAbs).val := by
    by_cases he : e < 0
    . simp [writeExponent, Exponent.write, exponentOf, he]
    . simp [writeExponent, Exponent.write, exponentOf, he]
  simp only [scientific, Json.Number.write, hexponent, List.append_assoc]
  congr 1
  by_cases hone : (Nat.toDigits 10 d.coeff).length = 1
  . have hdrop : (Nat.toDigits 10 d.coeff).drop 1 = [] := List.drop_of_length_le hone.le
    rw [if_pos hone, if_pos hdrop, hone, List.take_of_length_le hone.le]
    simp [writeFraction, noDigits]
  . have hlast : (Nat.toDigits 10 d.coeff).length - ((Nat.toDigits 10 d.coeff).length - 1) = 1 := by omega
    have htake := take_toDigits (c := d.coeff) (k := (Nat.toDigits 10 d.coeff).length - 1) (by omega) (by omega)
    have hdrop := drop_toDigits (c := d.coeff) (k := (Nat.toDigits 10 d.coeff).length - 1) (by omega) (by omega)
    rw [hlast] at htake hdrop
    rw [if_neg hone, htake, hdrop, if_neg (padded_ne_nil _ _), writeFraction, if_neg (padded_ne_nil _ _)]

/-- A point in front of the digits, with zeros between. -/
theorem write_fixed_small (neg : Bool) {d : Python.Decimal} (h : (Nat.toDigits 10 d.coeff).length + d.exp ≤ 0)
    : (fixed neg d).write
        =
      (if neg then ['-'] else []) ++ '0' :: '.'
        :: (List.replicate (-((Nat.toDigits 10 d.coeff).length + d.exp)).toNat '0' ++ Nat.toDigits 10 d.coeff) := by
  have hpos : 0 < (Nat.toDigits 10 d.coeff).length := Nat.length_toDigits_pos
  have hlt : d.coeff < 10 ^ (-d.exp).toNat := by
    refine (Nat.length_toDigits_le_iff (b := 10) (by decide) (by omega)).mp ?_
    omega
  have hzeros : (-((Nat.toDigits 10 d.coeff).length + d.exp)).toNat
      = (-d.exp).toNat - (Nat.toDigits 10 d.coeff).length := by omega
  rw [fixed, if_neg (by omega)]
  simp only [Json.Number.write, Nat.div_eq_of_lt hlt, Nat.mod_eq_of_lt hlt, Nat.toDigits_zero, writeFraction,
    if_neg (padded_ne_nil _ _), writeExponent, List.append_nil, hzeros]
  rfl

/-- The point after the digits and zeros. -/
theorem write_fixed_integral (neg : Bool) {d : Python.Decimal} (hc : 0 < d.coeff) (h : 0 ≤ d.exp)
    : (fixed neg d).write
        =
      (if neg then ['-'] else []) ++ (Nat.toDigits 10 d.coeff ++ (List.replicate d.exp.toNat '0' ++ ['.', '0'])) := by
  rw [fixed, if_pos h]
  simp only [Json.Number.write, toDigits_mul_pow hc, List.append_assoc]
  rfl

/-- The point between the digits. -/
theorem write_fixed_split (neg : Bool) {d : Python.Decimal} (h : d.exp < 0)
    (hpos : 0 < (Nat.toDigits 10 d.coeff).length + d.exp)
    : (fixed neg d).write
        =
      (if neg then ['-'] else [])
        ++ ((Nat.toDigits 10 d.coeff).take ((Nat.toDigits 10 d.coeff).length + d.exp).toNat
          ++ '.' :: (Nat.toDigits 10 d.coeff).drop ((Nat.toDigits 10 d.coeff).length + d.exp).toNat) := by
  have hplace : ((Nat.toDigits 10 d.coeff).length + d.exp).toNat
      = (Nat.toDigits 10 d.coeff).length - (-d.exp).toNat := by omega
  rw [hplace, take_toDigits (by omega) (by omega), drop_toDigits (by omega) (by omega), fixed, if_neg (by omega)]
  simp only [Json.Number.write, writeFraction, if_neg (padded_ne_nil _ _), writeExponent, List.append_nil]

theorem pyFloatRepr_finite {lowerExp : Double → Python.Decimal} {x : { x : Double // 0 ≤ x.val }}
    (hcoeff : x.val.val ≠ 0 → 0 < (lowerExp x.val).coeff) (neg : Bool)
    : pyFloatRepr lowerExp (.finite neg x) = (number neg (decimalOf lowerExp x.val)).write := by
  by_cases hzero : x.val.val = 0
  . rw [decimalOf, if_pos hzero, pyFloatRepr]
    simp only [hzero, if_true]
    cases neg <;> decide
  . have hpos : 0 < (Nat.toDigits 10 (lowerExp x.val).coeff).length := Nat.length_toDigits_pos
    have hexp : (mantissaExponent lowerExp x.val).2
        = (Nat.toDigits 10 (lowerExp x.val).coeff).length + (lowerExp x.val).exp - 1 := rfl
    rw [decimalOf, if_neg hzero, pyFloatRepr, number]
    simp only [hzero, if_false, filter_mantissa, hexp]
    -- the window of the fixed notation is the same on both sides
    by_cases hwindow : -4 < (Nat.toDigits 10 (lowerExp x.val).coeff).length + (lowerExp x.val).exp
        ∧ (Nat.toDigits 10 (lowerExp x.val).coeff).length + (lowerExp x.val).exp ≤ 16
    . rw [if_neg (by omega), if_pos hwindow]
      split
      next hsmall =>
        have hzeros : -((Nat.toDigits 10 (lowerExp x.val).coeff).length + (lowerExp x.val).exp - 1) - 1
            = -((Nat.toDigits 10 (lowerExp x.val).coeff).length + (lowerExp x.val).exp) := by omega
        rw [write_fixed_small neg (by omega), hzeros, List.append_assoc]
        rfl
      next hlarge =>
        have hplace : ((Nat.toDigits 10 (lowerExp x.val).coeff).length + (lowerExp x.val).exp - 1).toNat + 1
            = ((Nat.toDigits 10 (lowerExp x.val).coeff).length + (lowerExp x.val).exp).toNat := by omega
        rw [hplace]
        split
        next hintegral =>
          have hzeros : ((Nat.toDigits 10 (lowerExp x.val).coeff).length + (lowerExp x.val).exp).toNat
              - (Nat.toDigits 10 (lowerExp x.val).coeff).length = (lowerExp x.val).exp.toNat := by omega
          rw [write_fixed_integral neg (hcoeff hzero) (by omega), hzeros]
          simp only [List.append_assoc]
        next hsplit =>
          rw [write_fixed_split neg (by omega) (by omega), List.append_assoc]
    . rw [if_pos (by omega), if_neg hwindow, write_scientific]

end Rust

namespace Rust

open Json

/- Strings. -/

/-- The characters with a short escape. -/
theorem escapeChar_short {c : CodePoint} (h : c ∈ [34, 92, 10, 13, 9, 8, 12])
    : escapeChar c = escape c := by
  simp only [List.mem_cons, List.not_mem_nil, or_false] at h
  rcases h with rfl | rfl | rfl | rfl | rfl | rfl | rfl <;> rfl

theorem escapeChar_eq (c : CodePoint)
    : escapeChar c = escape c := by
  by_cases hshort : c ∈ [34, 92, 10, 13, 9, 8, 12]
  . exact escapeChar_short hshort
  . simp only [List.mem_cons, List.not_mem_nil, or_false, not_or] at hshort
    rcases hshort with ⟨h34, h92, h10, h13, h9, h8, h12⟩
    have hval {n : CodePoint} (h : c ≠ n) : c.val ≠ n.val := fun heq => h (Fin.ext heq)
    have hval34 : c.val ≠ 34 := hval h34
    have hval92 : c.val ≠ 92 := hval h92
    have hval10 : c.val ≠ 10 := hval h10
    have hval13 : c.val ≠ 13 := hval h13
    have hval9 : c.val ≠ 9 := hval h9
    have hval8 : c.val ≠ 8 := hval h8
    have hval12 : c.val ≠ 12 := hval h12
    simp only [escapeChar, escape, hval34, hval92, hval10, hval13, hval9, hval8, hval12, h34, h92, h10, h13, h9, h8,
      h12, if_false]
    -- what is left is a printable character or a unicode escape
    by_cases hcontrol : c.val < 0x20
    . rw [if_pos hcontrol, if_neg (show ¬ (32 ≤ c.val ∧ c.val ≤ 126) by omega), if_pos (by omega)]
    . rw [if_neg hcontrol]
      by_cases hprintable : c.val < 0x7f
      . rw [if_pos hprintable, if_pos (by omega)]
      . rw [if_neg hprintable, if_neg (show ¬ (32 ≤ c.val ∧ c.val ≤ 126) by omega)]
        by_cases hbmp : c.val ≤ 0xffff
        . rw [if_pos hbmp, if_pos (by omega)]
        . rw [if_neg hbmp, if_neg (by omega)]

theorem pyJsonQuote_eq (raw : Str)
    : pyJsonQuote raw = writeString raw := by
  rw [pyJsonQuote, writeString, funext escapeChar_eq]

/-- The first bytes of two characters decide already. -/
theorem utf8_append_lt {c d : CodePoint} (h : c < d) (x y : List ℕ)
    : utf8 c ++ x < utf8 d ++ y := by
  have hlt : c.val < d.val := h
  have hc := c.isLt
  have hd := d.isLt
  unfold utf8
  dsimp only
  split_ifs <;> simp only [List.cons_append, List.nil_append, List.cons_lt_cons_iff] <;> omega

theorem append_lt_append_iff (p x y : List ℕ)
    : p ++ x < p ++ y ↔ x < y := by
  induction p with
  | nil => rfl
  | cons n p ih => simp [ih]

/-- The order of the bytes is the order of the code points. -/
theorem utf8_lt_iff (s t : Str)
    : s.flatMap utf8 < t.flatMap utf8 ↔ s < t := by
  induction s generalizing t with
  | nil =>
    cases t with
    | nil => simp
    | cons d t =>
      have hne : utf8 d ≠ [] := by
        unfold utf8
        dsimp only
        split_ifs <;> simp
      rcases List.exists_cons_of_ne_nil hne with ⟨b, bs, hb⟩
      simp [hb]
  | cons c s ih =>
    cases t with
    | nil => simp
    | cons d t =>
      rw [List.flatMap_cons, List.flatMap_cons, List.cons_lt_cons_iff]
      rcases lt_trichotomy c d with hlt | rfl | hgt
      . simp [hlt, utf8_append_lt hlt]
      . rw [append_lt_append_iff, ih]
        simp
      . have hnot : ¬ utf8 c ++ s.flatMap utf8 < utf8 d ++ t.flatMap utf8 :=
          not_lt.mpr (utf8_append_lt hgt _ _).le
        simp [hnot, hgt.ne', hgt.not_gt]

theorem strLt_eq (s t : Str)
    : strLt s t = decide (s < t) := by
  simp only [strLt, utf8_lt_iff]

/- Values. -/

def style (spaced : Bool) : Style :=
  if spaced then .spaced else .compact

theorem itemSep_eq (spaced : Bool)
    : itemSep spaced = ',' :: (style spaced).gap := by
  cases spaced <;> rfl

theorem keySep_eq (spaced : Bool)
    : keySep spaced = ':' :: (style spaced).gap := by
  cases spaced <;> rfl

theorem intercalate_eq_writeTail {α : Type} (close : Char) (spaced : Bool) (text : α → List Char) (x : α) (xs : List α)
    : (itemSep spaced).intercalate ((x :: xs).map text) ++ [close]
        =
      text x ++ writeTail close (style spaced) text xs := by
  induction xs generalizing x with
  | nil => simp [writeTail]
  | cons y ys ih =>
    rw [List.map_cons, List.map_cons, List.intercalate_cons_cons, ← List.map_cons, List.append_assoc, ih, writeTail,
      itemSep_eq, List.append_assoc, List.append_assoc]

section

variable (lowerExp : Double → Python.Decimal)

def Number.tree : Number → Tree
  | posInt n => Python.intTree n.val
  | negInt n => Python.intTree n.val
  | float (neg, x) => .number (Python.FloatRepr.number neg (decimalOf lowerExp x.val))

namespace Value

mutual
def tree : Value → Tree
  | null => .word .null
  | bool b => .word (if b then .true else .false)
  | number n => n.tree lowerExp
  | string s => .string s
  | array vs => .array (treeItems vs)
  | object kvs => .object (OrderedMap.ofList strLt (treeMembers kvs))

def treeItems : List Value → List Tree
  | [] => []
  | v :: vs => v.tree :: treeItems vs

def treeMembers : List (Str × Value) → List (Str × Tree)
  | [] => []
  | (k, v) :: kvs => (k, v.tree) :: treeMembers kvs
end

end Value

theorem write_intTree (style : Style) (n : ℤ)
    : write style (Python.intTree n) = i64Text n := by
  simp only [Python.intTree, write, Json.Number.write, writeFraction, noDigits, if_true, writeExponent,
    List.append_nil, i64Text, decide_eq_true_eq]

variable {lowerExp}

theorem numberText_eq (hcoeff : ∀ x : Double, 0 < x.val → 0 < (lowerExp x).coeff) (style : Style) (n : Number)
    : numberText lowerExp n = write style (n.tree lowerExp) := by
  cases n with
  | posInt n =>
    have hnot : ¬ (n.val : ℤ) < 0 := by omega
    have htext : i64Text n.val = Nat.toDigits 10 n.val := by simp [i64Text, hnot]
    rw [Number.tree, write_intTree, htext, numberText, Number.asI64]
    split
    next i hi =>
      split at hi
      . cases hi
        exact htext
      . cases hi
    next => rfl
  | negInt n => rw [Number.tree, write_intTree]; rfl
  | float x =>
    rcases x with ⟨neg, x⟩
    rw [Number.tree, write]
    exact pyFloatRepr_finite (fun hne => hcoeff x.val (lt_of_le_of_ne x.property (Ne.symm hne))) neg

mutual
/-- The canonical text is the text of the value's tree. -/
theorem pyCanonicalString_eq (hcoeff : ∀ x : Double, 0 < x.val → 0 < (lowerExp x).coeff) (spaced : Bool) (v : Value)
    : pyCanonicalString lowerExp spaced v = write (style spaced) (v.tree lowerExp) := by
  match v with
  | .null => rfl
  | .bool b => rfl
  | .number n => exact numberText_eq hcoeff (style spaced) n
  | .string s => exact pyJsonQuote_eq s
  | .array vs =>
    rw [pyCanonicalString, itemTexts_eq hcoeff spaced vs, Value.tree]
    cases vs with
    | nil => rfl
    | cons v vs =>
      rw [Value.treeItems, write, writeItems_eq, List.cons_append, intercalate_eq_writeTail]
      rfl
  | .object kvs =>
    have hwrite (k : Str) (t : Tree)
        : pyJsonQuote k ++ keySep spaced ++ write (style spaced) t = writeMember (style spaced) (k, t) := by
      rw [writeMember, pyJsonQuote_eq, keySep_eq]
    rw [pyCanonicalString, memberTexts_eq hcoeff spaced kvs, OrderedMap.ofList_map, Value.tree]
    simp only [List.map_map, Function.comp_def, hwrite]
    cases OrderedMap.ofList strLt (Value.treeMembers lowerExp kvs) with
    | nil => rfl
    | cons kt kts =>
      rw [write, writeMembers_eq, List.cons_append, intercalate_eq_writeTail]
      rfl

theorem itemTexts_eq (hcoeff : ∀ x : Double, 0 < x.val → 0 < (lowerExp x).coeff) (spaced : Bool) (vs : List Value)
    : itemTexts lowerExp spaced vs = (Value.treeItems lowerExp vs).map (write (style spaced)) := by
  match vs with
  | [] => rfl
  | v :: vs => rw [itemTexts, pyCanonicalString_eq hcoeff spaced v, itemTexts_eq hcoeff spaced vs, Value.treeItems, List.map_cons]

theorem memberTexts_eq (hcoeff : ∀ x : Double, 0 < x.val → 0 < (lowerExp x).coeff) (spaced : Bool)
    (kvs : List (Str × Value))
    : memberTexts lowerExp spaced kvs
        =
      (Value.treeMembers lowerExp kvs).map fun kt => (kt.1, write (style spaced) kt.2) := by
  match kvs with
  | [] => rfl
  | (k, v) :: kvs =>
    rw [memberTexts, pyCanonicalString_eq hcoeff spaced v, memberTexts_eq hcoeff spaced kvs, Value.treeMembers, List.map_cons]
end

end

end Rust
