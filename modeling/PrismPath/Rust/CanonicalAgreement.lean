import PrismPath.Python.ObjectLemmas
import PrismPath.Rust.CanonicalText

/-!
This module contains the agreement of the two canonical texts: of which documents Rust writes the bytes that
Python writes.
-/

namespace Python.Decimal

/- Decimals without a zero at their end. -/

theorem dropZeros_normal {fuel coeff : ℕ} (exp : ℤ) (hpos : 0 < coeff) (hfuel : coeff < 10 ^ fuel)
    : (dropZeros fuel coeff exp).coeff % 10 ≠ 0 := by
  induction fuel generalizing coeff exp with
  | zero => simp at hfuel; omega
  | succ fuel ih =>
    rw [dropZeros]
    split
    next hzero =>
      rw [Nat.pow_succ] at hfuel
      exact ih _ (by omega) (by omega)
    next hnonzero =>
      show coeff % 10 ≠ 0
      omega

theorem coeff_pos_of_round {d : Decimal} {x : Double} (h : Double.round d.value = some x) (hx : x.val ≠ 0)
    : 0 < d.coeff := by
  by_contra hzero
  have hcoeff : d.coeff = 0 := by omega
  rw [value, hcoeff, Nat.cast_zero, zero_mul] at h
  simp only [Double.round, dif_pos, Option.some.injEq] at h
  exact hx (by rw [← h]; rfl)

theorem shortest_normal {x : Double} (h : 0 < x.val)
    : (shortest x).coeff % 10 ≠ 0 := by
  have hround := round_shortest h.le
  have hcoeff := coeff_pos_of_round hround h.ne'
  rw [shortest, if_neg h.ne'] at hround hcoeff ⊢
  dsimp only at hround hcoeff ⊢
  rw [value_dropZeros] at hround
  have hpos := coeff_pos_of_round hround h.ne'
  exact dropZeros_normal _ hpos ((Nat.length_toDigits_le_iff (by decide) Nat.length_toDigits_pos).mp le_rfl)

/-- There is one way to write a number as a decimal without a zero at its end. -/
theorem eq_of_value_eq {d d' : Decimal} (h : d.value = d'.value) (hd : d.coeff % 10 ≠ 0) (hd' : d'.coeff % 10 ≠ 0)
    : d = d' := by
  wlog hle : d.exp ≤ d'.exp generalizing d d'
  . exact (this h.symm hd' hd (by omega)).symm
  . rcases d with ⟨coeff, exp⟩
    rcases d' with ⟨coeff', exp'⟩
    simp only at hle hd hd'
    obtain ⟨k, rfl⟩ : ∃ k : ℕ, exp' = exp + k := ⟨(exp' - exp).toNat, by omega⟩
    have hten : (10 : ℚ) ^ exp ≠ 0 := by positivity
    have hcast : (coeff : ℚ) = (coeff' * 10 ^ k : ℕ) := by
      simp only [value] at h
      rw [zpow_add₀ (by norm_num), mul_comm ((10 : ℚ) ^ exp), ← mul_assoc] at h
      have := mul_right_cancel₀ hten h
      rw [this, zpow_natCast]
      push_cast
      rfl
    have hcoeff : coeff = coeff' * 10 ^ k := by exact_mod_cast hcast
    cases k with
    | zero => simp [hcoeff]
    | succ k =>
      have : coeff % 10 = 0 := by
        rw [hcoeff, Nat.pow_succ, ← Nat.mul_assoc, Nat.mul_mod_left]
      contradiction

end Python.Decimal

namespace Rust

open Json Python

/-- What `{:e}` promises: digits without a zero at their end that read back as the float. -/
structure RoundTrips (lowerExp : Double → Decimal) : Prop where
  normal : ∀ x : Double, 0 < x.val → (lowerExp x).coeff % 10 ≠ 0
  reads : ∀ x : Double, 0 < x.val → Double.round (lowerExp x).value = some x

theorem roundTrips_shortest
    : RoundTrips Decimal.shortest :=
  ⟨fun _ h => Decimal.shortest_normal h, fun _ h => Decimal.round_shortest h.le⟩

theorem RoundTrips.coeff_pos {lowerExp : Double → Decimal} (h : RoundTrips lowerExp) (x : Double) (hx : 0 < x.val)
    : 0 < (lowerExp x).coeff := by
  have := h.normal x hx
  omega

theorem round_decimalOf {lowerExp : Double → Decimal} (h : RoundTrips lowerExp) {x : Double} (hx : 0 ≤ x.val)
    : Double.round (decimalOf lowerExp x).value = some x := by
  rw [decimalOf]
  split
  next hzero =>
    have hx : x = 0 := Subtype.ext hzero
    subst hx
    simp [Decimal.value, Double.round]
  next hne => exact h.reads x (lt_of_le_of_ne hx (Ne.symm hne))

/-- The same text, the same float. -/
theorem number_eq_iff {lowerExp : Double → Decimal} (h : RoundTrips lowerExp) (neg neg' : Bool)
    (x y : { x : Double // 0 ≤ x.val })
    : FloatRepr.number neg' (decimalOf lowerExp y.val) = FloatRepr.number neg (Decimal.shortest x.val)
        ↔ neg' = neg ∧ y = x ∧ (x.val.val ≠ 0 → lowerExp x.val = Decimal.shortest x.val) := by
  constructor
  . intro heq
    have hneg := congrArg Json.Number.neg heq
    have hvalue := congrArg Json.Number.value heq
    rw [neg_number, neg_number] at hneg
    rw [value_number, value_number] at hvalue
    have hround := round_decimalOf h y.property
    rw [hvalue, Decimal.round_shortest x.property, Option.some.injEq] at hround
    have hyx : y = x := Subtype.ext hround.symm
    subst hyx
    refine ⟨hneg, rfl, fun hne => ?_⟩
    have hpos : 0 < y.val.val := lt_of_le_of_ne y.property (Ne.symm hne)
    rw [decimalOf, if_neg hne] at hvalue
    exact Decimal.eq_of_value_eq hvalue (h.normal _ hpos) (Decimal.shortest_normal hpos)
  . rintro ⟨rfl, rfl, hdigits⟩
    by_cases hzero : y.val.val = 0
    . rw [decimalOf, if_pos hzero, Decimal.shortest, if_pos hzero]
    . rw [decimalOf, if_neg hzero, hdigits hzero]

/- The document as both sides have it. -/

mutual
/-- No object has a key twice. -/
def Distinct : Tree → Prop
  | .array ts => DistinctItems ts
  | .object ms => (ms.map Prod.fst).Nodup ∧ DistinctMembers ms
  | _ => True

def DistinctItems : List Tree → Prop
  | [] => True
  | t :: ts => Distinct t ∧ DistinctItems ts

def DistinctMembers : List (Str × Tree) → Prop
  | [] => True
  | (_, t) :: ms => Distinct t ∧ DistinctMembers ms
end

def pythonNumber (n : Json.Number) : Tree :=
  if n.fraction.val = [] ∧ n.exponent.isNone then
    intTree (if n.neg then -n.whole else n.whole)
  else
    (Float64.ofNumber n).tree

mutual
/-- The tree whose text the canonical dump of the document is. -/
def pythonTree : Tree → Tree
  | .number n => pythonNumber n
  | .array ts => .array (pythonItems ts)
  | .object ms => .object (OrderedMap.ofList strLt (pythonMembers ms))
  | t => t

def pythonItems : List Tree → List Tree
  | [] => []
  | t :: ts => pythonTree t :: pythonItems ts

def pythonMembers : List (Str × Tree) → List (Str × Tree)
  | [] => []
  | (k, t) :: ms => (k, pythonTree t) :: pythonMembers ms
end

theorem strLt_trans (a b c : Str) (hab : strLt a b = true) (hbc : strLt b c = true)
    : strLt a c = true := by
  rw [strLt_eq, decide_eq_true_eq] at *
  exact lt_trans hab hbc

theorem strLt_total (a b : Str) (hne : a ≠ b) (h : strLt a b = false)
    : strLt b a = true := by
  rw [strLt_eq, decide_eq_false_iff_not] at h
  rw [strLt_eq, decide_eq_true_eq]
  exact lt_of_le_of_ne (not_lt.mp h) hne.symm

theorem strLt_irrefl (a : Str)
    : strLt a a = false := by
  rw [strLt_eq, decide_eq_false_iff_not]
  exact lt_irrefl a

theorem map_fst_pythonMembers (ms : List (Str × Tree))
    : (pythonMembers ms).map Prod.fst = ms.map Prod.fst := by
  induction ms with
  | nil => rfl
  | cons m ms ih =>
    rcases m with ⟨k, t⟩
    rw [pythonMembers, List.map_cons, List.map_cons, ih]

theorem sortedTree_number (n : Json.Number)
    : (decodeNumber n).sortedTree = some (pythonNumber n) := by
  unfold decodeNumber pythonNumber
  split <;> rfl

theorem sortedTree_word (w : Word)
    : (decodeWord w).sortedTree = some (.word w) := by
  cases w <;> rfl

/-- Sorting the members of a `dict` with text keys is what the ordered map does. -/
theorem sortItems_eq {kts : List (Str × Tree)} (h : (kts.map Prod.fst).Nodup)
    : (sortItems (kts.map fun kt => (Key.str kt.1, kt.2))).map (fun kt => (kt.1.text, kt.2))
        =
      OrderedMap.ofList strLt kts := by
  let le : Str × Tree → Str × Tree → Prop := fun a b => a.1 ≤ b.1
  have htotal : Std.Total le := ⟨fun a b => le_total a.1 b.1⟩
  have htrans : IsTrans (Str × Tree) le := ⟨fun _ _ _ hab hbc => le_trans hab hbc⟩
  have hsort : (sortItems (kts.map fun kt => (Key.str kt.1, kt.2))).map (fun kt => (kt.1.text, kt.2))
      = kts.insertionSort le := by
    rw [sortItems, List.map_insertionSort _ le, List.map_map]
    . congr 1
      exact List.map_id kts
    . intro a ha b hb
      rcases List.mem_map.mp ha with ⟨kt, _, rfl⟩
      rcases List.mem_map.mp hb with ⟨kt', _, rfl⟩
      exact decide_eq_false_iff_not.trans not_lt
  rw [hsort]
  refine (OrderedMap.ofList_eq strLt_trans strLt_total strLt_irrefl h (List.perm_insertionSort le kts) ?_).symm
  refine (List.pairwise_insertionSort le kts).imp fun hle => ?_
  rw [strLt_eq, decide_eq_false_iff_not]
  exact not_lt.mpr hle

/-- The member is sorted to the other one. -/
def SortedAs (kv : Str × Obj) (kt : Str × Tree) : Prop :=
  kv.1 = kt.1 ∧ kv.2.sortedTree = some kt.2

theorem sortedAs_set {d : List (Str × Obj)} {e : List (Str × Tree)} (h : List.Forall₂ SortedAs d e)
    {kv : Str × Obj} {kt : Str × Tree} (hkv : SortedAs kv kt)
    : List.Forall₂ SortedAs (Dict.set d kv.1 kv.2) (Dict.set e kt.1 kt.2) := by
  induction h with
  | nil => exact .cons hkv .nil
  | @cons kv' kt' d e hhead htail ih =>
    rcases kv' with ⟨k, v⟩
    rcases kt' with ⟨l, t⟩
    obtain ⟨rfl, hsorted⟩ : k = l ∧ v.sortedTree = some t := hhead
    rw [Dict.set, Dict.set, hkv.1]
    split
    . exact .cons ⟨rfl, hkv.2⟩ htail
    . refine .cons ⟨rfl, hsorted⟩ ?_
      rw [hkv.1] at ih
      exact ih

theorem sortedAs_foldl_set {kvs : List (Str × Obj)} {kts : List (Str × Tree)} (h : List.Forall₂ SortedAs kvs kts)
    {d : List (Str × Obj)} {e : List (Str × Tree)} (hd : List.Forall₂ SortedAs d e)
    : List.Forall₂ SortedAs (kvs.foldl (fun d kv => Dict.set d kv.1 kv.2) d)
        (kts.foldl (fun d kv => Dict.set d kv.1 kv.2) e) := by
  induction h generalizing d e with
  | nil => exact hd
  | cons hhead _ ih => exact ih (sortedAs_set hd hhead)

theorem sortedMembers_of_sortedAs {d : List (Str × Obj)} {e : List (Str × Tree)} (h : List.Forall₂ SortedAs d e)
    : Obj.sortedMembers (d.map fun kv => (Key.str kv.1, kv.2)) = some (e.map fun kt => (Key.str kt.1, kt.2)) := by
  induction h with
  | nil => rfl
  | cons hhead _ ih =>
    rw [List.map_cons, List.map_cons, Obj.sortedMembers, hhead.2, ih, hhead.1]
    rfl

mutual
theorem sortedTree_decode (t : Tree)
    : (decode t).sortedTree = some (pythonTree t) := by
  match t with
  | .word w => exact sortedTree_word w
  | .number n => exact sortedTree_number n
  | .string s => rfl
  | .array ts =>
    rw [decode, Obj.sortedTree, sortedItems_decode ts]
    rfl
  | .object ms =>
    have hsortable (d : List (Str × Obj)) : sortable ((d.map fun kv => (Key.str kv.1, kv.2)).map Prod.fst) = true := by
      refine Obj.sortable_of_str fun k hk => ?_
      rw [List.map_map] at hk
      rcases List.mem_map.mp hk with ⟨_, _, rfl⟩
      rfl
    have hmembers := sortedMembers_of_sortedAs (sortedAs_foldl_set (sortedAs_decode ms) .nil)
    rw [decode, dictOf, Obj.sortedTree, hmembers, Option.bind_eq_bind, Option.bind_some, if_pos (hsortable _),
      sortItems_eq (Dict.nodup_foldl_set _), OrderedMap.ofList_foldl_set strLt_trans strLt_total strLt_irrefl,
      pythonTree]

theorem sortedItems_decode (ts : List Tree)
    : Obj.sortedItems (decodeItems ts) = some (pythonItems ts) := by
  match ts with
  | [] => rfl
  | t :: ts =>
    rw [decodeItems, Obj.sortedItems, sortedTree_decode t, sortedItems_decode ts]
    rfl

theorem sortedAs_decode (ms : List (Str × Tree))
    : List.Forall₂ SortedAs (decodeMembers ms) (pythonMembers ms) := by
  match ms with
  | [] => exact .nil
  | (k, t) :: ms => exact .cons ⟨rfl, sortedTree_decode t⟩ (sortedAs_decode ms)
end

/- What Rust reads. -/

section

variable (readFloat : Json.Number → Option Finite) (lowerExp : Double → Decimal)

/-- The literal is read as the float that Python reads, and `{:e}` writes the digits that `repr` writes. -/
def SameFloat (n : Json.Number) : Prop :=
  ∃ x : { x : Double // 0 ≤ x.val }, Float64.ofNumber n = .finite n.neg x ∧ readFloat n = some (n.neg, x)
    ∧ (x.val.val ≠ 0 → lowerExp x.val = Decimal.shortest x.val)

/-- An integer of 64 bits that is not written `-0`, or a float that both sides read and write alike. -/
def FaithfulNumber (n : Json.Number) : Prop :=
  if n.fraction.val = [] ∧ n.exponent.isNone then
    if n.neg then 1 ≤ n.whole ∧ n.whole ≤ 2 ^ 63 else n.whole < 2 ^ 64
  else
    SameFloat readFloat lowerExp n

def FaithfulWord : Word → Prop
  | .null => True
  | .true => True
  | .false => True
  | _ => False

/-- No surrogate in a string. -/
def FaithfulString (s : Str) : Prop :=
  (s.all fun c => !isHigh c.val && !isLow c.val) = true

mutual
def FaithfulAt : (remaining : ℕ) → Tree → Prop
  | _, .word w => FaithfulWord w
  | _, .number n => FaithfulNumber readFloat lowerExp n
  | _, .string s => FaithfulString s
  | 0, .array _ => False
  | remaining + 1, .array ts => FaithfulItems remaining ts
  | 0, .object _ => False
  | remaining + 1, .object ms => FaithfulMembers remaining ms

def FaithfulItems : (remaining : ℕ) → List Tree → Prop
  | _, [] => True
  | remaining, t :: ts => FaithfulAt remaining t ∧ FaithfulItems remaining ts

def FaithfulMembers : (remaining : ℕ) → List (Str × Tree) → Prop
  | _, [] => True
  | remaining, (k, t) :: ms => FaithfulString k ∧ FaithfulAt remaining t ∧ FaithfulMembers remaining ms
end

def Faithful (t : Tree) : Prop :=
  FaithfulAt readFloat lowerExp Serde.recursionLimit t

end

section

variable {readFloat : Json.Number → Option Finite} {lowerExp : Double → Decimal}

theorem join_of_faithful {s : Str} (h : FaithfulString s)
    : join s = s := by
  refine join_of_plain fun c hc => ?_
  have := List.all_eq_true.mp h c hc
  simp only [Bool.and_eq_true, Bool.not_eq_true'] at this
  exact this.1

theorem readString_some {s s' : Str} (h : Serde.readString s = some s')
    : s' = s ∧ FaithfulString s := by
  unfold Serde.readString at h
  split at h
  next hall => exact ⟨(Option.some.inj h).symm, hall⟩
  next => cases h

theorem readString_of_faithful {s : Str} (h : FaithfulString s)
    : Serde.readString s = some s :=
  if_pos h

theorem intTree_ne_float (n : ℤ) (neg : Bool) (d : Decimal)
    : Tree.number (FloatRepr.number neg d) ≠ intTree n := by
  intro heq
  rw [intTree, Tree.number.injEq] at heq
  rcases number_isFloat neg d with h | h
  . exact h (by rw [heq]; rfl)
  . exact h (by rw [heq])

theorem tree_of_faithfulNumber {n : Json.Number} (h : FaithfulNumber readFloat lowerExp n)
    : ∃ m, Serde.readNumber readFloat n = some m ∧ m.tree lowerExp = pythonNumber n := by
  unfold FaithfulNumber at h
  unfold Serde.readNumber pythonNumber
  split at h
  next hint =>
    rw [if_pos hint, if_pos hint]
    split at h
    next hneg =>
      rw [if_pos hneg, if_pos hneg, dif_pos h]
      exact ⟨_, rfl, rfl⟩
    next hneg =>
      rw [if_neg hneg, if_neg hneg, dif_pos h]
      exact ⟨_, rfl, rfl⟩
  next hint =>
    rcases h with ⟨x, hpython, hread, hdigits⟩
    rw [if_neg hint, if_neg hint, hread, hpython]
    refine ⟨.float (n.neg, x), rfl, ?_⟩
    rw [Number.tree, Float64.tree]
    congr 2
    by_cases hzero : x.val.val = 0
    . rw [decimalOf, if_pos hzero, Decimal.shortest, if_pos hzero]
    . rw [decimalOf, if_neg hzero, hdigits hzero]

/-- Wherever a literal is held as a float its text has a point or an exponent. -/
theorem faithfulNumber_of_tree (hlower : RoundTrips lowerExp) {n : Json.Number} {m : Number}
    (hread : Serde.readNumber readFloat n = some m) (h : m.tree lowerExp = pythonNumber n)
    : FaithfulNumber readFloat lowerExp n := by
  have hfloat {f : Option Finite} (hf : f.map Number.float = some m) : ∃ neg x, f = some (neg, x)
      ∧ m.tree lowerExp = .number (FloatRepr.number neg (decimalOf lowerExp x.val)) := by
    rcases Option.map_eq_some_iff.mp hf with ⟨⟨neg, x⟩, hsome, rfl⟩
    exact ⟨neg, x, hsome, rfl⟩
  unfold Serde.readNumber at hread
  unfold pythonNumber at h
  unfold FaithfulNumber
  split at hread
  next hint =>
    rw [if_pos hint] at h
    rw [if_pos hint]
    have hnot (hf : (readFloat n).map Number.float = some m) : False := by
      rcases hfloat hf with ⟨neg, x, _, htree⟩
      rw [htree] at h
      exact intTree_ne_float _ _ _ h
    split at hread
    next hneg =>
      rw [if_pos hneg]
      split at hread
      next hrange => exact hrange
      next => exact (hnot hread).elim
    next hneg =>
      rw [if_neg hneg]
      split at hread
      next hrange => exact hrange
      next => exact (hnot hread).elim
  next hint =>
    rw [if_neg hint] at h
    rw [if_neg hint]
    rcases hfloat hread with ⟨neg, y, hsome, htree⟩
    rw [htree] at h
    unfold Float64.ofNumber at h
    split at h
    next x hround =>
      rw [Float64.tree, Tree.number.injEq, number_eq_iff hlower] at h
      rcases h with ⟨rfl, rfl, hdigits⟩
      refine ⟨_, ?_, hsome, hdigits⟩
      unfold Float64.ofNumber
      split
      next x' hround' =>
        rw [hround, Option.some.injEq] at hround'
        subst hround'
        rfl
      next hnone =>
        rw [hround] at hnone
        cases hnone
    next => rw [Float64.tree] at h; cases h

mutual
theorem readAt_of_faithful (remaining : ℕ) (t : Tree) (h : FaithfulAt readFloat lowerExp remaining t)
    : ∃ v, Serde.readAt readFloat remaining t = some v ∧ v.tree lowerExp = pythonTree t := by
  match remaining, t with
  | _, .word w =>
    rw [FaithfulAt] at h
    cases w with
    | null => exact ⟨.null, by rw [Serde.readAt]; rfl, rfl⟩
    | true => exact ⟨.bool true, by rw [Serde.readAt]; rfl, rfl⟩
    | false => exact ⟨.bool false, by rw [Serde.readAt]; rfl, rfl⟩
    | nan => exact h.elim
    | infinity => exact h.elim
    | negInfinity => exact h.elim
  | _, .number n =>
    rw [FaithfulAt] at h
    rcases tree_of_faithfulNumber h with ⟨m, hread, htree⟩
    exact ⟨.number m, by rw [Serde.readAt, hread]; rfl, htree⟩
  | _, .string s =>
    rw [FaithfulAt] at h
    exact ⟨.string s, by rw [Serde.readAt, readString_of_faithful h]; rfl, rfl⟩
  | 0, .array ts => exact h.elim
  | remaining + 1, .array ts =>
    rcases readItems_of_faithful remaining ts h with ⟨vs, hread, htree⟩
    exact ⟨.array vs, by rw [Serde.readAt, hread]; rfl, by rw [Value.tree, htree, pythonTree]⟩
  | 0, .object ms => exact h.elim
  | remaining + 1, .object ms =>
    rcases readMembers_of_faithful remaining ms h with ⟨kvs, hread, htree⟩
    exact ⟨.object kvs, by rw [Serde.readAt, hread]; rfl, by rw [Value.tree, htree, pythonTree]⟩

theorem readItems_of_faithful (remaining : ℕ) (ts : List Tree) (h : FaithfulItems readFloat lowerExp remaining ts)
    : ∃ vs, Serde.readItems readFloat remaining ts = some vs ∧ Value.treeItems lowerExp vs = pythonItems ts := by
  match ts with
  | [] => exact ⟨[], by rw [Serde.readItems], rfl⟩
  | t :: ts =>
    rw [FaithfulItems] at h
    rcases readAt_of_faithful remaining t h.1 with ⟨v, hv, htree⟩
    rcases readItems_of_faithful remaining ts h.2 with ⟨vs, hvs, htrees⟩
    exact ⟨v :: vs, by rw [Serde.readItems, hv, hvs]; rfl, by rw [Value.treeItems, htree, htrees, pythonItems]⟩

theorem readMembers_of_faithful (remaining : ℕ) (ms : List (Str × Tree))
    (h : FaithfulMembers readFloat lowerExp remaining ms)
    : ∃ kvs, Serde.readMembers readFloat remaining ms = some kvs
        ∧ Value.treeMembers lowerExp kvs = pythonMembers ms := by
  match ms with
  | [] => exact ⟨[], by rw [Serde.readMembers], rfl⟩
  | (k, t) :: ms =>
    rw [FaithfulMembers] at h
    rcases readAt_of_faithful remaining t h.2.1 with ⟨v, hv, htree⟩
    rcases readMembers_of_faithful remaining ms h.2.2 with ⟨kvs, hkvs, htrees⟩
    exact ⟨(k, v) :: kvs, by rw [Serde.readMembers, readString_of_faithful h.1, hv, hkvs]; rfl,
      by rw [Value.treeMembers, htree, htrees, pythonMembers]⟩
end

theorem readMembers_keys {remaining : ℕ} {ms : List (Str × Tree)} {kvs : List (Str × Value)}
    (h : Serde.readMembers readFloat remaining ms = some kvs)
    : kvs.map Prod.fst = ms.map Prod.fst ∧ ∀ m ∈ ms, FaithfulString m.1 := by
  induction ms generalizing kvs with
  | nil =>
    rw [Serde.readMembers, Option.some.injEq] at h
    subst h
    exact ⟨rfl, fun m hm => by cases hm⟩
  | cons m ms ih =>
    rcases m with ⟨k, t⟩
    simp only [Serde.readMembers, Option.bind_eq_bind, Option.bind_eq_some_iff, Option.some.injEq] at h
    rcases h with ⟨k', hk, v, _, kvs', hkvs, rfl⟩
    rcases ih hkvs with ⟨hkeys, hall⟩
    rcases readString_some hk with ⟨rfl, hfaithful⟩
    refine ⟨by rw [List.map_cons, List.map_cons, hkeys], fun m hm => ?_⟩
    rcases List.mem_cons.mp hm with rfl | hm
    . exact hfaithful
    . exact hall m hm

theorem map_fst_treeMembers (kvs : List (Str × Value))
    : (Value.treeMembers lowerExp kvs).map Prod.fst = kvs.map Prod.fst := by
  induction kvs with
  | nil => rfl
  | cons kv kvs ih =>
    rcases kv with ⟨k, v⟩
    rw [Value.treeMembers, List.map_cons, List.map_cons, ih]

/-- Members whose keys have no surrogates keep their keys, and so their order, when the strings are joined. -/
theorem joinMembers_ofList {kts : List (Str × Tree)} (hnodup : (kts.map Prod.fst).Nodup)
    (h : ∀ k ∈ kts.map Prod.fst, FaithfulString k)
    : joinMembers (OrderedMap.ofList strLt kts)
        =
      OrderedMap.ofList strLt (kts.map fun kt => (kt.1, kt.2.join)) := by
  rw [OrderedMap.ofList_map, joinMembers_eq]
  refine List.map_congr_left fun kt hkt => ?_
  have hmem := (OrderedMap.perm_ofList strLt_trans strLt_total hnodup).mem_iff.mp hkt
  rw [join_of_faithful (h kt.1 (List.mem_map_of_mem hmem))]

theorem join_numberTree (m : Number)
    : (m.tree lowerExp).join = m.tree lowerExp := by
  cases m <;> rfl

theorem join_pythonNumber (n : Json.Number)
    : (pythonNumber n).join = pythonNumber n := by
  unfold pythonNumber
  split
  . rfl
  . exact join_floatTree _

/-- Two sorted objects of the same keys are equal when their members are, and so one by one. -/
theorem treeMembers_of_ofList {remaining : ℕ} {ms : List (Str × Tree)} {kvs : List (Str × Value)}
    (hnodup : (ms.map Prod.fst).Nodup) (hread : Serde.readMembers readFloat remaining ms = some kvs)
    (h : joinMembers (OrderedMap.ofList strLt (Value.treeMembers lowerExp kvs))
      = joinMembers (OrderedMap.ofList strLt (pythonMembers ms)))
    : (Value.treeMembers lowerExp kvs).map (fun kt => (kt.1, kt.2.join))
        =
      (pythonMembers ms).map fun kt => (kt.1, kt.2.join) := by
  rcases readMembers_keys hread with ⟨hkeys, hall⟩
  have hfaithful : ∀ k ∈ ms.map Prod.fst, FaithfulString k := by
    intro k hk
    rcases List.mem_map.mp hk with ⟨m, hm, rfl⟩
    exact hall m hm
  have hleft : (Value.treeMembers lowerExp kvs).map Prod.fst = ms.map Prod.fst := by
    rw [map_fst_treeMembers, hkeys]
  have hjoin (kts : List (Str × Tree)) : (kts.map fun kt => (kt.1, kt.2.join)).map Prod.fst = kts.map Prod.fst := by
    rw [List.map_map]
    rfl
  rw [joinMembers_ofList (by rw [hleft]; exact hnodup) (by rw [hleft]; exact hfaithful),
    joinMembers_ofList (by rw [map_fst_pythonMembers]; exact hnodup) (by rw [map_fst_pythonMembers]; exact hfaithful)]
    at h
  exact OrderedMap.ofList_inj strLt_trans strLt_total (by rw [hjoin, hleft]; exact hnodup)
    (by rw [hjoin, hjoin, hleft, map_fst_pythonMembers]) h

mutual
/-- Equal texts come from equal trees, up to the joining of surrogates, and those from faithful documents. -/
theorem faithfulAt_of_tree (hlower : RoundTrips lowerExp) (remaining : ℕ) (t : Tree) (hd : Distinct t) {v : Value}
    (hread : Serde.readAt readFloat remaining t = some v) (htree : (v.tree lowerExp).join = (pythonTree t).join)
    : FaithfulAt readFloat lowerExp remaining t := by
  match remaining, t with
  | _, .word w =>
    rw [Serde.readAt] at hread
    rw [FaithfulAt]
    cases w <;> first | exact trivial | cases hread
  | _, .number n =>
    rw [Serde.readAt] at hread
    rw [FaithfulAt]
    rcases Option.map_eq_some_iff.mp hread with ⟨m, hm, rfl⟩
    refine faithfulNumber_of_tree hlower hm ?_
    rw [Value.tree, pythonTree, join_numberTree, join_pythonNumber] at htree
    exact htree
  | _, .string s =>
    rw [Serde.readAt] at hread
    rw [FaithfulAt]
    rcases Option.map_eq_some_iff.mp hread with ⟨s', hs, rfl⟩
    exact (readString_some hs).2
  | 0, .array ts => cases hread
  | remaining + 1, .array ts =>
    rcases Option.map_eq_some_iff.mp hread with ⟨vs, hvs, rfl⟩
    rw [Value.tree, pythonTree, Tree.join, Tree.join, Tree.array.injEq] at htree
    exact faithfulItems_of_tree hlower remaining ts hd hvs htree
  | 0, .object ms => cases hread
  | remaining + 1, .object ms =>
    rcases Option.map_eq_some_iff.mp hread with ⟨kvs, hkvs, rfl⟩
    rw [Value.tree, pythonTree, Tree.join, Tree.join, Tree.object.injEq] at htree
    exact faithfulMembers_of_tree hlower remaining ms hd.2 hkvs (treeMembers_of_ofList hd.1 hkvs htree)

theorem faithfulItems_of_tree (hlower : RoundTrips lowerExp) (remaining : ℕ) (ts : List Tree) (hd : DistinctItems ts)
    {vs : List Value} (hread : Serde.readItems readFloat remaining ts = some vs)
    (htree : joinItems (Value.treeItems lowerExp vs) = joinItems (pythonItems ts))
    : FaithfulItems readFloat lowerExp remaining ts := by
  match ts with
  | [] => rw [FaithfulItems]; exact trivial
  | t :: ts =>
    simp only [Serde.readItems, Option.bind_eq_bind, Option.bind_eq_some_iff, Option.some.injEq] at hread
    rcases hread with ⟨v, hv, vs', hvs, rfl⟩
    rw [Value.treeItems, pythonItems, joinItems, joinItems, List.cons.injEq] at htree
    rw [FaithfulItems]
    exact ⟨faithfulAt_of_tree hlower remaining t hd.1 hv htree.1,
      faithfulItems_of_tree hlower remaining ts hd.2 hvs htree.2⟩

theorem faithfulMembers_of_tree (hlower : RoundTrips lowerExp) (remaining : ℕ) (ms : List (Str × Tree))
    (hd : DistinctMembers ms) {kvs : List (Str × Value)} (hread : Serde.readMembers readFloat remaining ms = some kvs)
    (htree : (Value.treeMembers lowerExp kvs).map (fun kt => (kt.1, kt.2.join))
      = (pythonMembers ms).map fun kt => (kt.1, kt.2.join))
    : FaithfulMembers readFloat lowerExp remaining ms := by
  match ms with
  | [] => rw [FaithfulMembers]; exact trivial
  | (k, t) :: ms =>
    simp only [Serde.readMembers, Option.bind_eq_bind, Option.bind_eq_some_iff, Option.some.injEq] at hread
    rcases hread with ⟨k', hk, v, hv, kvs', hkvs, rfl⟩
    rw [Value.treeMembers, pythonMembers, List.map_cons, List.map_cons, List.cons.injEq, Prod.mk.injEq] at htree
    rw [FaithfulMembers]
    exact ⟨(readString_some hk).2, faithfulAt_of_tree hlower remaining t hd.1 hv htree.1.2,
      faithfulMembers_of_tree hlower remaining ms hd.2 hkvs htree.2⟩
end

end

/- The two texts. -/

/-- What Rust writes of a document; `none` when its reader refuses it. -/
def rustText (readFloat : Json.Number → Option Finite) (lowerExp : Double → Decimal) (spaced : Bool) (t : Tree)
    : Option (List Char) :=
  (Serde.read readFloat t).map (pyCanonicalString lowerExp spaced)

/-- `canonical_spaced` or `canonical_compact` of what `json.loads` makes of the document. -/
def pythonText (spaced : Bool) (t : Tree) : Option (List Char) :=
  if spaced then dumpsSorted (decode t) else canonicalCompact (decode t)

theorem pythonText_eq (spaced : Bool) (t : Tree)
    : pythonText spaced t = some (write (style spaced) (pythonTree t)) := by
  cases spaced with
  | false =>
    show canonicalCompact (decode t) = _
    rw [canonicalCompact, sortedTree_decode t]
    rfl
  | true =>
    show dumpsSorted (decode t) = _
    rw [dumpsSorted, sortedTree_decode t]
    rfl

theorem rustText_of_faithful {readFloat : Json.Number → Option Finite} {lowerExp : Double → Decimal}
    (hlower : RoundTrips lowerExp) (spaced : Bool) {t : Tree} (h : Faithful readFloat lowerExp t)
    : rustText readFloat lowerExp spaced t = some (write (style spaced) (pythonTree t)) := by
  rcases readAt_of_faithful Serde.recursionLimit t h with ⟨v, hread, htree⟩
  rw [rustText, Serde.read, hread, Option.map_some, pyCanonicalString_eq hlower.coeff_pos, htree]

end Rust
