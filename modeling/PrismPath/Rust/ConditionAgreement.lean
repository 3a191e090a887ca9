import PrismPath.Kernel.PredicatesLemmas
import PrismPath.Python.ValueLemmas
import PrismPath.Rust.Condition

/-!
This module contains when an edge condition means the same on both sides: the tier of a text without byte order marks,
and the value of an expression that both parsers read as one tree, over values both sides have.
-/

namespace Rust

namespace Kernel

open Python (PyFloat)

/- Texts. -/

/-- A text without the one character that only Rust takes for a space. -/
def Plain (text : String) : Prop :=
  ∀ c ∈ text.toList, c.toNat ≠ 0xFEFF

instance (text : String) : Decidable (Plain text) :=
  decidable_of_iff (text.toList.all fun c => c.toNat ≠ 0xFEFF) (by simp [Plain])

theorem isPyWs_eq {c : Char} (h : c.toNat ≠ 0xFEFF)
    : isPyWs c = Python.isSpace c := by
  rw [Bool.eq_iff_iff]
  simp only [isPyWs, isJsWs, Python.isSpace, Bool.or_eq_true, Bool.and_eq_true, decide_eq_true_eq]
  omega

theorem dropWhile_congr {α : Type} {p q : α → Bool} {xs : List α} (h : ∀ x ∈ xs, p x = q x)
    : xs.dropWhile p = xs.dropWhile q := by
  induction xs with
  | nil => rfl
  | cons x xs ih =>
    rw [List.dropWhile_cons, List.dropWhile_cons, h x List.mem_cons_self,
      ih fun y hy => h y (List.mem_cons_of_mem _ hy)]

theorem plain_of_sublist {text part : String} (h : Plain text) (hpart : part.toList.Sublist text.toList)
    : Plain part :=
  fun c hc => h c (hpart.subset hc)

theorem sublist_strip (text : String)
    : (Python.strip text).toList.Sublist text.toList := by
  rw [Python.strip, String.toList_ofList]
  exact (List.rdropWhile_prefix _ _).sublist.trans (List.dropWhile_sublist _)

theorem sublist_dropChars (text : String) (n : ℕ)
    : (Python.dropChars text n).toList.Sublist text.toList := by
  rw [Python.dropChars, String.toList_ofList]
  exact List.drop_sublist _ _

theorem pyTrim_eq {text : String} (h : Plain text)
    : pyTrim text = Python.strip text := by
  have hleft : text.toList.dropWhile isPyWs = text.toList.dropWhile Python.isSpace :=
    dropWhile_congr fun c hc => isPyWs_eq (h c hc)
  have hright : ∀ c ∈ (text.toList.dropWhile Python.isSpace).reverse, isPyWs c = Python.isSpace c := by
    intro c hc
    exact isPyWs_eq (h c ((List.dropWhile_sublist _).subset (List.mem_reverse.mp hc)))
  rw [pyTrim, Python.strip, Python.rstripChars, Python.lstripChars, hleft, List.rdropWhile, List.rdropWhile,
    dropWhile_congr hright]

section

variable {condition : String} (h : Plain condition)
include h

theorem isDeterministic_eq
    : isDeterministic condition = Predicates.isDeterministic condition := by
  rw [isDeterministic, pyTrim_eq h]
  rfl

theorem isError_eq
    : isError condition = Predicates.isError condition := by
  rw [isError, pyTrim_eq h]
  rfl

theorem isEvent_eq
    : isEvent condition = Predicates.isEvent condition := by
  rw [isEvent, pyTrim_eq h]
  rfl

theorem isSemantic_eq
    : isSemantic condition = Predicates.isSemantic condition := by
  rw [isSemantic, isDeterministic_eq h, isError_eq h, isEvent_eq h]
  rfl

theorem plain_tail (n : ℕ)
    : Plain (Python.dropChars (Python.strip condition) n) :=
  plain_of_sublist h ((sublist_dropChars _ n).trans (sublist_strip condition))

theorem errorExpr_eq
    : errorExpr condition = Predicates.errorExpr condition := by
  rw [errorExpr, pyTrim_eq h, pyTrim_eq (plain_tail h _)]
  rfl

theorem exprOf_eq
    : exprOf condition = Predicates.exprOf condition := by
  rw [exprOf, pyTrim_eq h, pyTrim_eq (plain_tail h _)]
  rfl

theorem eventName_eq
    : eventName condition = Predicates.eventName condition := by
  rw [eventName, pyTrim_eq h, pyTrim_eq (plain_tail h _)]
  rfl

end

/- Values both sides have. -/

/-- The keys of a `BTreeMap` are in order. -/
def keyLt (k l : String) : Bool :=
  k < l

mutual
/-- `Value::from_json` of the JSON a value is written as; what JSON does not have is nothing. -/
def fromJson : Python.Value → Value
  | .none => .null
  | .bool b => .bool b
  | .int n => .num (.ofRat n)
  | .float x => .num x
  | .str s => .str s
  | .list vs => .list (fromJsonItems vs)
  | .dict kvs => .obj (OrderedMap.ofList keyLt (fromJsonMembers kvs))
  | .fraction _ => .null
  | .bytes _ => .null
  | .ellipsis => .null
  | .imag _ => .null

def fromJsonItems : List Python.Value → List Value
  | [] => []
  | v :: vs => fromJson v :: fromJsonItems vs

def fromJsonMembers : List (String × Python.Value) → List (String × Value)
  | [] => []
  | (k, v) :: kvs => (k, fromJson v) :: fromJsonMembers kvs
end

mutual
/-- A value that JSON has. -/
def IsJson : Python.Value → Prop
  | .none => True
  | .bool _ => True
  | .int _ => True
  | .float _ => True
  | .str _ => True
  | .list vs => IsJsonItems vs
  | .dict kvs => (kvs.map Prod.fst).Nodup ∧ IsJsonMembers kvs
  | _ => False

def IsJsonItems : List Python.Value → Prop
  | [] => True
  | v :: vs => IsJson v ∧ IsJsonItems vs

def IsJsonMembers : List (String × Python.Value) → Prop
  | [] => True
  | (_, v) :: kvs => IsJson v ∧ IsJsonMembers kvs
end

mutual
/-- Every integer in the value is a double. -/
def Exact : Python.Value → Prop
  | .int n => IsDouble n
  | .list vs => ExactItems vs
  | .dict kvs => ExactMembers kvs
  | _ => True

def ExactItems : List Python.Value → Prop
  | [] => True
  | v :: vs => Exact v ∧ ExactItems vs

def ExactMembers : List (String × Python.Value) → Prop
  | [] => True
  | (_, v) :: kvs => Exact v ∧ ExactMembers kvs
end

mutual
/-- How many lists and dictionaries with something in them stand around the innermost value. -/
def nesting : Python.Value → ℕ
  | .list vs => nestingItems vs
  | .dict kvs => nestingMembers kvs
  | _ => 0

def nestingItems : List Python.Value → ℕ
  | [] => 0
  | v :: vs => max (nesting v + 1) (nestingItems vs)

def nestingMembers : List (String × Python.Value) → ℕ
  | [] => 0
  | (_, v) :: kvs => max (nesting v + 1) (nestingMembers kvs)
end

/-- A value that compares alike on both sides, `depth` lists deep at most. -/
structure Comparable (depth : ℕ) (v : Python.Value) : Prop where
  json : IsJson v
  exact : Exact v
  nesting : nesting v ≤ depth

theorem fromJsonItems_eq (vs : List Python.Value)
    : fromJsonItems vs = vs.map fromJson := by
  induction vs with
  | nil => rfl
  | cons v vs ih => rw [fromJsonItems, ih, List.map_cons]

theorem fromJsonMembers_eq (kvs : List (String × Python.Value))
    : fromJsonMembers kvs = kvs.map fun kv => (kv.1, fromJson kv.2) := by
  induction kvs with
  | nil => rfl
  | cons kv kvs ih =>
    rcases kv with ⟨k, v⟩
    rw [fromJsonMembers, ih, List.map_cons]

theorem Comparable.items {depth : ℕ} {vs : List Python.Value} (h : Comparable depth (.list vs)) {v : Python.Value}
    (hv : v ∈ vs)
    : Comparable (depth - 1) v ∧ 1 ≤ depth := by
  have hjson : IsJsonItems vs := h.json
  have hexact : ExactItems vs := h.exact
  have hnesting : nestingItems vs ≤ depth := h.nesting
  clear h
  induction vs with
  | nil => cases hv
  | cons w vs ih =>
    rw [nestingItems] at hnesting
    rcases List.mem_cons.mp hv with rfl | hv
    . exact ⟨⟨hjson.1, hexact.1, by omega⟩, by omega⟩
    . exact ih hv hjson.2 hexact.2 (by omega)

theorem Comparable.members {depth : ℕ} {kvs : List (String × Python.Value)} (h : Comparable depth (.dict kvs))
    {kv : String × Python.Value} (hkv : kv ∈ kvs)
    : Comparable (depth - 1) kv.2 ∧ 1 ≤ depth := by
  have hjson : IsJsonMembers kvs := h.json.2
  have hexact : ExactMembers kvs := h.exact
  have hnesting : nestingMembers kvs ≤ depth := h.nesting
  clear h
  induction kvs with
  | nil => cases hkv
  | cons kv' kvs ih =>
    rcases kv' with ⟨k, w⟩
    rw [nestingMembers] at hnesting
    rcases List.mem_cons.mp hkv with rfl | hkv
    . exact ⟨⟨hjson.1, hexact.1, by simpa using by omega⟩, by omega⟩
    . exact ih hkv hjson.2 hexact.2 (by omega)

/- Members of a dictionary. -/

theorem keyLt_trans (a b c : String) (hab : keyLt a b = true) (hbc : keyLt b c = true)
    : keyLt a c = true := by
  simp only [keyLt, decide_eq_true_eq] at *
  exact String.lt_trans hab hbc

theorem keyLt_total (a b : String) (hne : a ≠ b) (hab : keyLt a b = false)
    : keyLt b a = true := by
  simp only [keyLt, decide_eq_true_eq, decide_eq_false_iff_not] at *
  exact Classical.byContradiction fun hba => hne (String.le_antisymm (String.not_lt.mp hba) (String.not_lt.mp hab))

theorem map_fst_fromJsonMembers (kvs : List (String × Python.Value))
    : (fromJsonMembers kvs).map Prod.fst = kvs.map Prod.fst := by
  rw [fromJsonMembers_eq, List.map_map]
  rfl

theorem perm_fromJson {kvs : List (String × Python.Value)} (h : (kvs.map Prod.fst).Nodup)
    : (OrderedMap.ofList keyLt (fromJsonMembers kvs)).Perm (fromJsonMembers kvs) :=
  OrderedMap.perm_ofList keyLt_trans keyLt_total (by rw [map_fst_fromJsonMembers]; exact h)

theorem lookup_fromJson {kvs : List (String × Python.Value)} (h : (kvs.map Prod.fst).Nodup) (k : String)
    : (OrderedMap.ofList keyLt (fromJsonMembers kvs)).lookup k = (kvs.lookup k).map fromJson := by
  rw [OrderedMap.lookup_ofList, Dict.lookup_reverse (by rw [map_fst_fromJsonMembers]; exact h), fromJsonMembers_eq]
  clear h
  induction kvs with
  | nil => rfl
  | cons kv kvs ih =>
    rcases kv with ⟨k', v⟩
    rw [List.map_cons, Dict.lookup_cons_eq, Dict.lookup_cons_eq, ih]
    split <;> rfl

/- Numbers. -/

theorem num_ofRat {q : ℚ} (h : IsDouble q)
    : (PyFloat.ofRat q).num = .finite q := by
  rw [PyFloat.ofRat, Double.round_val ⟨q, h⟩]
  rfl

theorem asNum_fromJson {v : Python.Value} (hjson : IsJson v) (hexact : Exact v)
    : (fromJson v).asNum = v.num? := by
  cases v with
  | int n =>
    rw [fromJson, Value.asNum, num_ofRat hexact]
    rfl
  | bytes bs => exact hjson.elim
  | ellipsis => exact hjson.elim
  | imag x => exact hjson.elim
  | fraction q => exact hjson.elim
  | _ => rfl

theorem asNum_eq_none {v : Python.Value} (hjson : IsJson v) (hexact : Exact v) (h : v.num? = none)
    : (fromJson v).asNum = none := by
  rw [asNum_fromJson hjson hexact, h]

/- Equality. -/

theorem pyEqItems_fromJson {vs ws : List Python.Value} {depth : ℕ} (hlength : vs.length = ws.length)
    (h : ∀ v ∈ vs, ∀ w ∈ ws, (fromJson v).pyEq (fromJson w) depth = some (v.eq w))
    : Value.pyEqItems (fromJsonItems vs) (fromJsonItems ws) depth = some (Python.Value.eqList vs ws) := by
  induction vs generalizing ws with
  | nil =>
    cases ws with
    | nil => rfl
    | cons w ws => cases hlength
  | cons v vs ih =>
    cases ws with
    | nil => cases hlength
    | cons w ws =>
      have hrest := ih (Nat.succ.inj hlength) fun v' hv' w' hw' =>
        h v' (List.mem_cons_of_mem _ hv') w' (List.mem_cons_of_mem _ hw')
      rw [fromJsonItems, fromJsonItems, Value.pyEqItems, h v List.mem_cons_self w List.mem_cons_self, hrest,
        Python.Value.eqList]
      cases v.eq w <;> rfl

theorem eqList_of_length_ne {vs ws : List Python.Value} (hlength : vs.length ≠ ws.length)
    : Python.Value.eqList vs ws = false := by
  induction vs generalizing ws with
  | nil =>
    cases ws with
    | nil => exact absurd rfl hlength
    | cons w ws => rfl
  | cons v vs ih =>
    cases ws with
    | nil => rfl
    | cons w ws => rw [Python.Value.eqList, ih fun heq => hlength (by simp [heq]), Bool.and_false]

/-- Whether a member has an equal one in the other dictionary. -/
def memberEq (kws : List (String × Value)) (depth : ℕ) (kv : String × Value) : Option Bool :=
  match Value.objGet kws kv.1 with
  | some w => kv.2.pyEq w depth
  | none => some false

/-- Where no member is nested too deeply, the order of the members makes no difference. -/
theorem pyEqMembers_eq {kvs kws : List (String × Value)} {depth : ℕ} (h : ∀ kv ∈ kvs, (memberEq kws depth kv).isSome)
    : Value.pyEqMembers kvs kws depth = some (kvs.all fun kv => (memberEq kws depth kv).getD false) := by
  induction kvs with
  | nil => rfl
  | cons kv kvs ih =>
    rcases kv with ⟨k, v⟩
    have hrest := ih fun kv' hkv' => h kv' (List.mem_cons_of_mem _ hkv')
    rcases Option.isSome_iff_exists.mp (h (k, v) List.mem_cons_self) with ⟨b, hb⟩
    rw [List.all_cons, hb, Option.getD_some]
    rw [memberEq] at hb
    rw [Value.pyEqMembers]
    generalize Value.objGet kws k = found at hb
    cases found with
    | none =>
      cases hb
      rfl
    | some w =>
      dsimp only at hb ⊢
      rw [hb, hrest]
      cases b <;> rfl

theorem eqDict_eq (kvs kws : List (String × Python.Value))
    : Python.Value.eqDict kvs kws = kvs.all fun kv => ((kws.lookup kv.1).map fun w => kv.2.eq w).getD false := by
  induction kvs with
  | nil => rfl
  | cons kv kvs ih =>
    rcases kv with ⟨k, v⟩
    rw [Python.Value.eqDict, ih, List.all_cons]
    cases kws.lookup k <;> rfl

theorem pyEqMembers_fromJson {kvs kws : List (String × Python.Value)} {depth : ℕ} (hkvs : (kvs.map Prod.fst).Nodup)
    (hkws : (kws.map Prod.fst).Nodup)
    (h : ∀ kv ∈ kvs, ∀ kw ∈ kws, (fromJson kv.2).pyEq (fromJson kw.2) depth = some (kv.2.eq kw.2))
    : Value.pyEqMembers (OrderedMap.ofList keyLt (fromJsonMembers kvs)) (OrderedMap.ofList keyLt (fromJsonMembers kws)) depth
        = some (Python.Value.eqDict kvs kws) := by
  have hperm := perm_fromJson hkvs
  have hmember : ∀ kv ∈ kvs, memberEq (OrderedMap.ofList keyLt (fromJsonMembers kws)) depth (kv.1, fromJson kv.2)
      = some (((kws.lookup kv.1).map fun w => kv.2.eq w).getD false) := by
    intro kv hkv
    rw [memberEq, Value.objGet, lookup_fromJson hkws]
    cases hfound : kws.lookup kv.1 with
    | none => rfl
    | some w => exact h kv hkv (kv.1, w) (Dict.mem_of_lookup hfound)
  rw [pyEqMembers_eq]
  . rw [hperm.all_eq, eqDict_eq, fromJsonMembers_eq, List.all_map]
    rw [Option.some.injEq, Bool.eq_iff_iff, List.all_eq_true, List.all_eq_true]
    refine forall₂_congr fun kv hkv => ?_
    rw [Function.comp_apply, hmember kv hkv, Option.getD_some]
  . intro kv hkv
    have hkv' := hperm.mem_iff.mp hkv
    rw [fromJsonMembers_eq] at hkv'
    rcases List.mem_map.mp hkv' with ⟨kv', hmem, rfl⟩
    rw [hmember kv' hmem]
    rfl

theorem pyEq_of_asNum {v w : Value} {x y : Python.Number} {depth : ℕ} (hdepth : depth ≤ Value.cmpDepth)
    (hv : v.asNum = some x) (hw : w.asNum = some y)
    : v.pyEq w depth = some (x.eq y) := by
  unfold Value.pyEq
  rw [if_neg (by omega), hv, hw]

theorem length_fromJsonItems (vs : List Python.Value)
    : (fromJsonItems vs).length = vs.length := by
  rw [fromJsonItems_eq, List.length_map]

theorem length_fromJsonMembers {kvs : List (String × Python.Value)} (h : (kvs.map Prod.fst).Nodup)
    : (OrderedMap.ofList keyLt (fromJsonMembers kvs)).length = kvs.length := by
  rw [(perm_fromJson h).length_eq, fromJsonMembers_eq, List.length_map]

/-- A number on the left. -/
theorem pyEq_num {v w : Python.Value} {x : Python.Number} {depth : ℕ} (hv : IsJson v) (hv' : Exact v) (hw : IsJson w)
    (hw' : Exact w) (hdepth : depth ≤ Value.cmpDepth) (hx : v.num? = some x)
    : (fromJson v).pyEq (fromJson w) depth = some (v.eq w) := by
  cases hy : w.num? with
  | some y =>
    rw [Python.Value.eq_of_num? hx hy]
    exact pyEq_of_asNum hdepth (by rw [asNum_fromJson hv hv', hx]) (by rw [asNum_fromJson hw hw', hy])
  | none =>
    have hcomplex : w.complex? = none := by
      cases w with
      | imag x => exact hw.elim
      | _ => first | rfl | cases hy
    rw [Python.Value.eq_of_num?_of_complex? hx hcomplex]
    have hnum := asNum_fromJson hv hv'
    have hnone := asNum_eq_none hw hw' hy
    unfold Value.pyEq
    rw [if_neg (by omega), hnum, hx, hnone]
    cases v with
    | fraction q => exact hv.elim
    | bool | int | float => cases w <;> rfl
    | _ => cases hx

/-- Values compare equal on both sides alike, down to the depth Rust goes. -/
theorem pyEq_fromJson {v w : Python.Value} {n m depth : ℕ} (hv : Comparable n v) (hw : Comparable m w)
    (hdepth : n + depth ≤ Value.cmpDepth)
    : (fromJson v).pyEq (fromJson w) depth = some (v.eq w) := by
  induction v using Python.Value.induct generalizing w n m depth with
  | list vs ih =>
    unfold Value.pyEq
    rw [if_neg (by omega)]
    cases w with
    | list ws =>
      show (if (fromJsonItems vs).length ≠ (fromJsonItems ws).length then some false
        else Value.pyEqItems (fromJsonItems vs) (fromJsonItems ws) (depth + 1)) = some (Python.Value.eqList vs ws)
      rw [length_fromJsonItems, length_fromJsonItems]
      by_cases hlength : vs.length = ws.length
      . rw [if_neg (not_not.mpr hlength)]
        refine pyEqItems_fromJson hlength fun v hv' w hw' => ?_
        rcases hv.items hv' with ⟨hitem, hpos⟩
        exact ih v hv' hitem (hw.items hw').1 (by omega)
      . rw [if_pos hlength, eqList_of_length_ne hlength]
    | _ => rfl
  | dict kvs ih =>
    unfold Value.pyEq
    rw [if_neg (by omega)]
    cases w with
    | dict kws =>
      have hkvs := hv.json.1
      have hkws := hw.json.1
      show (if (OrderedMap.ofList keyLt (fromJsonMembers kvs)).length ≠ (OrderedMap.ofList keyLt (fromJsonMembers kws)).length
        then some false else Value.pyEqMembers _ _ (depth + 1)) = some (Python.Value.eq (.dict kvs) (.dict kws))
      rw [length_fromJsonMembers hkvs, length_fromJsonMembers hkws, Python.Value.eq]
      by_cases hlength : kvs.length = kws.length
      . rw [if_neg (not_not.mpr hlength), decide_eq_true hlength, Bool.true_and]
        refine pyEqMembers_fromJson hkvs hkws fun kv hkv kw hkw => ?_
        rcases hv.members hkv with ⟨hmember, hpos⟩
        exact ih kv hkv hmember (hw.members hkw).1 (by omega)
      . rw [if_pos hlength, decide_eq_false hlength, Bool.false_and]
    | _ => rfl
  | scalar v hlist hdict =>
    have hdepth' : depth ≤ Value.cmpDepth := by omega
    cases v with
    | bool | int | float => exact pyEq_num hv.json hv.exact hw.json hw.exact hdepth' rfl
    | none =>
      unfold Value.pyEq
      rw [if_neg (by omega)]
      cases w with
      | fraction | bytes | ellipsis | imag => exact hw.json.elim
      | _ => rfl
    | str s =>
      unfold Value.pyEq
      rw [if_neg (by omega)]
      cases w with
      | fraction | bytes | ellipsis | imag => exact hw.json.elim
      | _ => rfl
    | list vs => exact absurd rfl (hlist vs)
    | dict kvs => exact absurd rfl (hdict kvs)
    | fraction | bytes | ellipsis | imag => exact hv.json.elim

/- Order. -/

/-- What an operator asks of an order. -/
def holds (op : Python.Value.OrderOp) (order : Ordering) : Bool :=
  match op with
  | .lt => order == .lt
  | .le => order != .gt
  | .gt => order == .gt
  | .ge => order != .lt

theorem num_order (op : Python.Value.OrderOp) (x y : Python.Number)
    : ((Value.numOrder x y).map (holds op)).getD false = op.num x y := by
  cases x with
  | finite p =>
    cases y with
    | finite q =>
      rcases lt_trichotomy p q with hlt | heq | hgt
      . cases op <;> simp [Value.numOrder, Python.Value.OrderOp.num, Python.Number.lt, Python.Number.le, Python.Number.eq,
          holds, hlt, hlt.not_gt, hlt.ne, hlt.ne']
      . cases op <;> simp [Value.numOrder, Python.Value.OrderOp.num, Python.Number.lt, Python.Number.le, Python.Number.eq,
          holds, heq]
      . cases op <;> simp [Value.numOrder, Python.Value.OrderOp.num, Python.Number.lt, Python.Number.le, Python.Number.eq,
          holds, hgt, hgt.not_gt, hgt.ne, hgt.ne']
    | _ => cases op <;> rfl
  | _ => cases y <;> cases op <;> rfl

theorem charOrder_lt_iff (cs ds : List Char)
    : (Value.charOrder cs ds = .lt ↔ cs < ds) ∧ (Value.charOrder cs ds = .gt ↔ ds < cs) := by
  induction cs generalizing ds with
  | nil => cases ds <;> simp [Value.charOrder]
  | cons c cs ih =>
    cases ds with
    | nil => simp [Value.charOrder]
    | cons d ds =>
      rw [Value.charOrder, List.cons_lt_cons_iff, List.cons_lt_cons_iff]
      by_cases heq : c = d
      . subst heq
        rw [if_pos rfl]
        simpa using ih ds
      . have hval : c.toNat ≠ d.toNat := fun h => heq (Char.toNat_inj.mp h)
        have hlt : c < d ↔ c.toNat < d.toNat := Iff.rfl
        have hgt : d < c ↔ d.toNat < c.toNat := Iff.rfl
        rw [if_neg heq, hlt, hgt]
        split
        next h =>
          simp [h, heq, Ne.symm heq]
          omega
        next h =>
          simp [h, heq, Ne.symm heq]
          omega

theorem charOrder_str (op : Python.Value.OrderOp) (s t : String)
    : holds op (Value.charOrder s.toList t.toList) = op.str s t := by
  rcases charOrder_lt_iff s.toList t.toList with ⟨hlt, hgt⟩
  rw [← String.lt_iff] at hlt hgt
  cases horder : Value.charOrder s.toList t.toList with
  | lt =>
    have h := hlt.mp horder
    have h' : ¬t < s := fun hts => by rw [← hgt, horder] at hts; cases hts
    cases op <;> simp [holds, Python.Value.OrderOp.str, h, h']
  | eq =>
    have h : ¬s < t := fun hst => by rw [← hlt, horder] at hst; cases hst
    have h' : ¬t < s := fun hts => by rw [← hgt, horder] at hts; cases hts
    cases op <;> simp [holds, Python.Value.OrderOp.str, h, h']
  | gt =>
    have h := hgt.mp horder
    have h' : ¬s < t := fun hst => by rw [← hlt, horder] at hst; cases hst
    cases op <;> simp [holds, Python.Value.OrderOp.str, h, h']

/-- Lists are ordered by the first elements that are not equal. -/
theorem pyOrderItems_fromJson {op : Python.Value.OrderOp} {vs ws : List Python.Value} {depth : ℕ}
    (heq : ∀ v ∈ vs, ∀ w ∈ ws, (fromJson v).pyEq (fromJson w) depth = some (v.eq w))
    (horder : ∀ v ∈ vs, ∀ w ∈ ws,
      (((fromJson v).pyOrder (fromJson w) depth).map (holds op)).getD false = (v.order op w).getD false)
    : ((Value.pyOrderItems (fromJsonItems vs) (fromJsonItems ws) depth).map (holds op)).getD false
        = (Python.Value.orderList op vs ws).getD false := by
  induction vs generalizing ws with
  | nil =>
    cases ws <;> cases op <;> rfl
  | cons v vs ih =>
    cases ws with
    | nil => cases op <;> rfl
    | cons w ws =>
      have hrest := ih (fun v' hv' w' hw' => heq v' (List.mem_cons_of_mem _ hv') w' (List.mem_cons_of_mem _ hw'))
        fun v' hv' w' hw' => horder v' (List.mem_cons_of_mem _ hv') w' (List.mem_cons_of_mem _ hw')
      rw [fromJsonItems, fromJsonItems, Value.pyOrderItems, heq v List.mem_cons_self w List.mem_cons_self,
        Python.Value.orderList]
      cases v.eq w with
      | true => exact hrest
      | false => exact horder v List.mem_cons_self w List.mem_cons_self

theorem pyOrder_fromJson {op : Python.Value.OrderOp} {v w : Python.Value} {n m depth : ℕ} (hv : Comparable n v)
    (hw : Comparable m w) (hdepth : n + depth ≤ Value.cmpDepth)
    : (((fromJson v).pyOrder (fromJson w) depth).map (holds op)).getD false = (v.order op w).getD false := by
  induction v using Python.Value.induct generalizing w n m depth with
  | list vs ih =>
    unfold Value.pyOrder
    rw [if_neg (by omega)]
    cases w with
    | list ws =>
      show ((Value.pyOrderItems (fromJsonItems vs) (fromJsonItems ws) (depth + 1)).map (holds op)).getD false
        = (Python.Value.orderList op vs ws).getD false
      refine pyOrderItems_fromJson (fun v hv' w hw' => ?_) fun v hv' w hw' => ?_
      . rcases hv.items hv' with ⟨hitem, hpos⟩
        exact pyEq_fromJson hitem (hw.items hw').1 (by omega)
      . rcases hv.items hv' with ⟨hitem, hpos⟩
        exact ih v hv' hitem (hw.items hw').1 (by omega)
    | _ => rfl
  | dict kvs ih =>
    unfold Value.pyOrder
    rw [if_neg (by omega)]
    cases w <;> rfl
  | scalar v hlist hdict =>
    cases hx : v.num? with
    | some x =>
      have hnum := asNum_fromJson hv.json hv.exact
      unfold Value.pyOrder
      rw [if_neg (by omega), hnum, hx]
      cases hy : w.num? with
      | some y =>
        rw [asNum_fromJson hw.json hw.exact, hy, Python.Value.order_of_num? op hx hy]
        exact num_order op x y
      | none =>
        rw [asNum_eq_none hw.json hw.exact hy, Python.Value.order_eq_none_of_num? op hx hy]
        cases v with
        | fraction q => exact hv.json.elim
        | bool | int | float => cases w <;> rfl
        | _ => cases hx
    | none =>
      unfold Value.pyOrder
      rw [if_neg (by omega)]
      cases v with
      | none => cases w <;> rfl
      | str s =>
        cases w with
        | str t => exact charOrder_str op s t
        | fraction | bytes | ellipsis | imag => exact hw.json.elim
        | _ => rfl
      | bool | int | float => cases hx
      | list vs => exact absurd rfl (hlist vs)
      | dict kvs => exact absurd rfl (hdict kvs)
      | fraction | bytes | ellipsis | imag => exact hv.json.elim

/- Membership. -/

theorem pyInItems_fromJson {v : Python.Value} {ws : List Python.Value}
    (h : ∀ w ∈ ws, (fromJson v).pyEq (fromJson w) 1 = some (v.eq w))
    : Value.pyInItems (fromJson v) (fromJsonItems ws) = some (ws.any fun w => v.eq w) := by
  induction ws with
  | nil => rfl
  | cons w ws ih =>
    rw [fromJsonItems, Value.pyInItems, h w List.mem_cons_self, ih fun w' hw' => h w' (List.mem_cons_of_mem _ hw'),
      List.any_cons]
    cases v.eq w <;> rfl

theorem any_key_eq (kvs : List (String × Python.Value)) (k : String)
    : (kvs.any fun kv => kv.1 = k) = (kvs.lookup k).isSome := by
  induction kvs with
  | nil => rfl
  | cons kv kvs ih =>
    rcases kv with ⟨k', v⟩
    rw [List.any_cons, ih, Dict.lookup_cons_eq]
    by_cases hk : k' = k
    . simp [hk]
    . simp [hk]

theorem pyIn_fromJson {v w : Python.Value} {n m : ℕ} (hv : Comparable n v) (hw : Comparable m w)
    (hdepth : n + 1 ≤ Value.cmpDepth)
    : ((fromJson v).pyIn (fromJson w)).getD false = (w.contains v).getD false := by
  cases w with
  | list ws =>
    rw [Python.Value.contains_list, Option.getD_some, fromJson]
    show (Value.pyInItems (fromJson v) (fromJsonItems ws)).getD false = _
    rw [pyInItems_fromJson fun w hw' => pyEq_fromJson hv (hw.items hw').1 hdepth, Option.getD_some]
  | str t =>
    cases v with
    | fraction | bytes | ellipsis | imag => exact hv.json.elim
    | _ => rfl
  | dict kws =>
    cases v with
    | str s =>
      show (Value.objGet (OrderedMap.ofList keyLt (fromJsonMembers kws)) s).isSome = kws.any fun kw => kw.1 = s
      rw [Value.objGet, lookup_fromJson hw.json.1, Option.isSome_map, any_key_eq]
    | fraction | bytes | ellipsis | imag => exact hv.json.elim
    | _ => rfl
  | fraction | bytes | ellipsis | imag => exact hw.json.elim
  | _ => rfl

/- Comparisons. -/

/-- The operators both sides have. -/
def fromCmpOp : Python.CmpOp → Option CmpOp
  | .eq => some .eq
  | .notEq => some .ne
  | .lt => some .lt
  | .ltE => some .le
  | .gt => some .gt
  | .gtE => some .ge
  | .isIn => some .isIn
  | .notIn => some .notIn
  | .is => none
  | .isNot => none

theorem getD_map_not (b : Option Bool)
    : (b.map not).getD true = !b.getD false := by
  cases b <;> rfl

theorem compareOp_fromJson {op : Python.CmpOp} {op' : CmpOp} (hop : fromCmpOp op = some op') {v w : Python.Value} {n m : ℕ}
    (hv : Comparable n v) (hw : Comparable m w) (hdepth : n + 1 ≤ Value.cmpDepth)
    : Predicates.compare op v w = .ok (compareOp op' (fromJson v) (fromJson w)) := by
  have heq := @pyEq_fromJson v w n m 0 hv hw (by omega)
  have horder (op : Python.Value.OrderOp) := @pyOrder_fromJson op v w n m 0 hv hw (by omega)
  have hin := pyIn_fromJson hv hw hdepth
  cases op with
  | eq =>
    cases hop
    rw [compareOp, heq]
    rfl
  | notEq =>
    cases hop
    rw [compareOp, heq]
    rfl
  | lt =>
    cases hop
    exact congrArg Except.ok (horder .lt).symm
  | ltE =>
    cases hop
    exact congrArg Except.ok (horder .le).symm
  | gt =>
    cases hop
    exact congrArg Except.ok (horder .gt).symm
  | gtE =>
    cases hop
    exact congrArg Except.ok (horder .ge).symm
  | isIn =>
    cases hop
    exact congrArg Except.ok hin.symm
  | notIn =>
    cases hop
    rw [compareOp, getD_map_not, hin, Predicates.compare, getD_map_not]
  | is => cases hop
  | isNot => cases hop

theorem pyTruthy_fromJson {v : Python.Value} (hjson : IsJson v) (hexact : Exact v)
    : (fromJson v).pyTruthy = v.truthy := by
  cases v with
  | int n =>
    rw [fromJson, Value.pyTruthy, num_ofRat hexact, Python.Value.truthy]
    simp
  | list vs => cases vs <;> rfl
  | dict kvs =>
    have hlength := length_fromJsonMembers hjson.1
    show (!(OrderedMap.ofList keyLt (fromJsonMembers kvs)).isEmpty) = !kvs.isEmpty
    generalize OrderedMap.ofList keyLt (fromJsonMembers kvs) = ms at hlength
    cases ms <;> cases kvs <;> first | rfl | cases hlength
  | fraction | bytes | ellipsis | imag => exact hjson.elim
  | _ => rfl

/- Expressions that both parsers read as one tree. -/

/-- The literals both sides have; in a tree they are no containers. -/
def fromConstant : Python.Value → Option Ast
  | .none => some (.const .null false)
  | .bool b => some (.const (.bool b) false)
  | .int n => some (.const (.num (.ofRat n)) false)
  | .float x => some (.const (.num x) true)
  | .str s => some (.const (.str s) false)
  | _ => none

mutual
/-- The tree Rust has for an expression that it can read. -/
def fromExpr : Python.Expr → Option Ast
  | .constant v => fromConstant v
  | .name id => some (.name id)
  | .boolOp .and es => (fromExprs es).map .and
  | .boolOp .or es => (fromExprs es).map .or
  | .unaryOp .not e => (fromExpr e).map .not
  | .unaryOp _ _ => none
  | .compare l rest => do
    let left ← fromExpr l
    let rest ← fromComparisons rest
    return .cmp left rest
  | .list es => (fromExprs es).map .list
  | .tuple es => (fromExprs es).map .list
  | .other _ _ => none

def fromExprs : List Python.Expr → Option (List Ast)
  | [] => some []
  | e :: es => do
    let node ← fromExpr e
    let nodes ← fromExprs es
    return node :: nodes

def fromComparisons : List (Python.CmpOp × Python.Expr) → Option (List (CmpOp × Ast))
  | [] => some []
  | (op, e) :: rest => do
    let op ← fromCmpOp op
    let node ← fromExpr e
    let rest ← fromComparisons rest
    return (op, node) :: rest
end

/- Evaluation. -/

/-- Both contexts have the same fields, none nested more than 150 deep. -/
def SameCtx (ctx : Predicates.Ctx) (ctx' : Ctx) : Prop :=
  ∀ name, (ctx' name).getD .null = fromJson (ctx name) ∧ Comparable 150 (ctx name)

/-- Both sides have the value, or neither has one; it is nested no deeper than the context and the literals around it. -/
def SameValue (depth : ℕ) (r : Except Predicates.PredicateError Python.Value) (r' : Except PredicateError Value) : Prop :=
  (∃ v, r = .ok v ∧ r' = .ok (fromJson v) ∧ Comparable (150 + (50 - depth)) v ∧ depth ≤ 50)
    ∨ (∃ e e', r = .error e ∧ r' = .error e')

theorem sameValue_deep {ctx : Predicates.Ctx} {ctx' : Ctx} {e : Python.Expr} {a : Ast} {depth : ℕ} (h : 50 < depth)
    : SameValue depth (Predicates.ev ctx e depth) (evNode ctx' a depth) := by
  right
  refine ⟨.tooDeep, .tooDeep, ?_, ?_⟩
  . unfold Predicates.ev
    exact if_pos h
  . unfold evNode
    exact if_pos h

section

variable {ctx : Predicates.Ctx} {ctx' : Ctx}

/-- A list of expressions, each of which has the same value on both sides. -/
theorem evList_agrees {es : List Python.Expr} {nodes : List Ast} {depth : ℕ} (hnodes : fromExprs es = some nodes)
    (h : ∀ e ∈ es, ∀ a, fromExpr e = some a → SameValue depth (Predicates.ev ctx e depth) (evNode ctx' a depth))
    : (∃ vs, Predicates.evList ctx es depth = .ok vs ∧ evNodes ctx' nodes depth = .ok (vs.map fromJson)
        ∧ ∀ v ∈ vs, Comparable (150 + (50 - depth)) v ∧ depth ≤ 50)
      ∨ (∃ e e', Predicates.evList ctx es depth = .error e ∧ evNodes ctx' nodes depth = .error e') := by
  induction es generalizing nodes with
  | nil =>
    cases hnodes
    exact .inl ⟨[], rfl, rfl, fun v hv => by cases hv⟩
  | cons e es ih =>
    simp only [fromExprs, Option.bind_eq_bind, Option.bind_eq_some_iff] at hnodes
    rcases hnodes with ⟨node, hnode, rest, hrest, heq⟩
    cases heq
    rw [Predicates.evList, evNodes]
    rcases h e List.mem_cons_self node hnode with ⟨v, hv, hv', hcomparable, hdepth⟩ | ⟨err, err', herr, herr'⟩
    . rw [hv, hv']
      rcases ih hrest fun e' he' => h e' (List.mem_cons_of_mem _ he') with
        ⟨vs, hvs, hvs', hall⟩ | ⟨err, err', herr, herr'⟩
      . left
        refine ⟨v :: vs, ?_, ?_, ?_⟩
        . rw [hvs]
          rfl
        . rw [hvs']
          rfl
        . exact List.forall_mem_cons.mpr ⟨⟨hcomparable, hdepth⟩, hall⟩
      . right
        refine ⟨err, err', ?_, ?_⟩
        . rw [herr]
          rfl
        . rw [herr']
          rfl
    . right
      refine ⟨err, err', ?_, ?_⟩
      . rw [herr]
        rfl
      . rw [herr']
        rfl

/-- A chain of comparisons below the top of the tree. -/
theorem evChain_agrees {rest : List (Python.CmpOp × Python.Expr)} {rest' : List (CmpOp × Ast)} {left : Python.Value}
    {depth : ℕ} (hrest : fromComparisons rest = some rest') (hleft : Comparable (150 + (50 - depth)) left)
    (hdepth : 0 < depth)
    (h : ∀ p ∈ rest, ∀ a, fromExpr p.2 = some a → SameValue depth (Predicates.ev ctx p.2 depth) (evNode ctx' a depth))
    : (∃ b, Predicates.evChain ctx left rest depth = .ok b ∧ evComparisons ctx' (fromJson left) rest' depth = .ok b)
      ∨ (∃ e e', Predicates.evChain ctx left rest depth = .error e
          ∧ evComparisons ctx' (fromJson left) rest' depth = .error e') := by
  induction rest generalizing left rest' with
  | nil =>
    cases hrest
    exact .inl ⟨true, rfl, rfl⟩
  | cons p rest ih =>
    rcases p with ⟨op, e⟩
    simp only [fromComparisons, Option.bind_eq_bind, Option.bind_eq_some_iff] at hrest
    rcases hrest with ⟨op', hop, node, hnode, tail, htail, heq⟩
    cases heq
    rw [Predicates.evChain, evComparisons]
    rcases h (op, e) List.mem_cons_self node hnode with ⟨right, hv, hv', hright, hshallow⟩ | ⟨err, err', herr, herr'⟩
    . have hbound : 150 + (50 - depth) + 1 ≤ Value.cmpDepth := by
        show 150 + (50 - depth) + 1 ≤ 200
        omega
      have hcompare := compareOp_fromJson hop hleft hright hbound
      rw [hv, hv']
      have hnext := ih htail hright fun p' hp' => h p' (List.mem_cons_of_mem _ hp')
      simp only [bind, Except.bind, hcompare]
      split
      next => exact hnext
      next => exact .inl ⟨false, rfl, rfl⟩
    . right
      refine ⟨err, err', ?_, ?_⟩
      . rw [herr]
        rfl
      . rw [herr']
        rfl

theorem comparable_list {vs : List Python.Value} {n : ℕ} (h : ∀ v ∈ vs, Comparable (n - 1) v ∧ 1 ≤ n)
    : Comparable n (.list vs) := by
  induction vs with
  | nil => exact ⟨trivial, trivial, Nat.zero_le _⟩
  | cons v vs ih =>
    rcases h v List.mem_cons_self with ⟨hv, hpos⟩
    have hrest := ih fun w hw => h w (List.mem_cons_of_mem _ hw)
    refine ⟨⟨hv.json, hrest.json⟩, ⟨hv.exact, hrest.exact⟩, ?_⟩
    have hnesting : nestingItems vs ≤ n := hrest.nesting
    have hitem := hv.nesting
    show max (nesting v + 1) (nestingItems vs) ≤ n
    omega

theorem Comparable.mono {v : Python.Value} {n m : ℕ} (h : Comparable n v) (hle : n ≤ m)
    : Comparable m v :=
  ⟨h.json, h.exact, h.nesting.trans hle⟩

theorem sameValue_bool {depth : ℕ} (hdepth : depth ≤ 50) (b : Bool)
    : SameValue depth (.ok (.bool b)) (.ok (.bool b)) :=
  .inl ⟨.bool b, rfl, rfl, ⟨trivial, trivial, Nat.zero_le _⟩, hdepth⟩

theorem fromConstant_eq {v : Python.Value} {a : Ast} (h : fromConstant v = some a)
    : (∃ isFloat, a = .const (fromJson v) isFloat) ∧ IsJson v ∧ nesting v = 0 := by
  cases v <;> cases h <;> exact ⟨⟨_, rfl⟩, trivial, rfl⟩

theorem all_truthy {vs : List Python.Value} {n : ℕ} (h : ∀ v ∈ vs, Comparable n v)
    : (vs.map fromJson).all Value.pyTruthy = vs.all Python.Value.truthy := by
  rw [List.all_map, Bool.eq_iff_iff, List.all_eq_true, List.all_eq_true]
  refine forall₂_congr fun v hv => ?_
  rw [Function.comp_apply, pyTruthy_fromJson (h v hv).json (h v hv).exact]

theorem any_truthy {vs : List Python.Value} {n : ℕ} (h : ∀ v ∈ vs, Comparable n v)
    : (vs.map fromJson).any Value.pyTruthy = vs.any Python.Value.truthy := by
  rw [List.any_map, Bool.eq_iff_iff, List.any_eq_true, List.any_eq_true]
  refine exists_congr fun v => and_congr_right fun hv => ?_
  rw [Function.comp_apply, pyTruthy_fromJson (h v hv).json (h v hv).exact]

theorem sameValue_list {es : List Python.Expr} {nodes : List Ast} {depth : ℕ} (hdepth : depth ≤ 50)
    (hnodes : fromExprs es = some nodes)
    (h : ∀ e ∈ es, ∀ a, fromExpr e = some a
      → SameValue (depth + 1) (Predicates.ev ctx e (depth + 1)) (evNode ctx' a (depth + 1)))
    : SameValue depth (do return .list (← Predicates.evList ctx es (depth + 1)))
        (do return .list (← evNodes ctx' nodes (depth + 1))) := by
  rcases evList_agrees hnodes h with ⟨vs, hvs, hvs', hall⟩ | ⟨err, err', herr, herr'⟩
  . left
    refine ⟨.list vs, ?_, ?_, comparable_list fun v hv => ?_, hdepth⟩
    . rw [hvs]
      rfl
    . rw [hvs', fromJson, fromJsonItems_eq]
      rfl
    . rcases hall v hv with ⟨hcomparable, hshallow⟩
      exact ⟨hcomparable.mono (by omega), by omega⟩
  . right
    refine ⟨err, err', ?_, ?_⟩
    . rw [herr]
      rfl
    . rw [herr']
      rfl

/-- A tree that both sides have is evaluated alike. -/
theorem ev_agrees (hctx : SameCtx ctx ctx') (e : Python.Expr)
    : ∀ a depth, fromExpr e = some a → (∀ v ∈ e.constants, Exact v)
        → SameValue depth (Predicates.ev ctx e depth) (evNode ctx' a depth) := by
  induction e using Python.Expr.induct with
  | constant v =>
    intro a depth ha hexact
    by_cases hdeep : Predicates.maxDepth < depth
    . exact sameValue_deep hdeep
    have hdeep' : ¬maxDepth < depth := hdeep
    have hdepth : depth ≤ 50 := not_lt.mp hdeep
    rcases fromConstant_eq ha with ⟨⟨isFloat, rfl⟩, hjson, hnesting⟩
    unfold Predicates.ev evNode
    rw [if_neg hdeep, if_neg hdeep']
    refine .inl ⟨v, rfl, rfl, ⟨hjson, hexact v (by simp), by omega⟩, hdepth⟩
  | name id =>
    intro a depth ha hexact
    by_cases hdeep : Predicates.maxDepth < depth
    . exact sameValue_deep hdeep
    have hdeep' : ¬maxDepth < depth := hdeep
    have hdepth : depth ≤ 50 := not_lt.mp hdeep
    cases ha
    unfold Predicates.ev evNode
    rw [if_neg hdeep, if_neg hdeep']
    rcases hctx id with ⟨hval, hcomparable⟩
    refine .inl ⟨ctx id, rfl, ?_, hcomparable.mono (by omega), hdepth⟩
    dsimp only
    rw [hval]
  | boolOp op es ih =>
    intro a depth ha hexact
    by_cases hdeep : Predicates.maxDepth < depth
    . exact sameValue_deep hdeep
    have hdeep' : ¬maxDepth < depth := hdeep
    have hdepth : depth ≤ 50 := not_lt.mp hdeep
    have hes : ∀ nodes, fromExprs es = some nodes → _ := fun nodes hnodes =>
      @evList_agrees ctx ctx' es nodes (depth + 1) hnodes fun e he a ha =>
        ih e he a (depth + 1) ha fun v hv => hexact v ((Python.Expr.mem_constants_boolOp v op es).mpr ⟨e, he, hv⟩)
    cases op with
    | and =>
      rcases Option.map_eq_some_iff.mp ha with ⟨nodes, hnodes, rfl⟩
      unfold Predicates.ev evNode
      rw [if_neg hdeep, if_neg hdeep']
      rcases hes nodes hnodes with ⟨vs, hvs, hvs', hall⟩ | ⟨err, err', herr, herr'⟩
      . dsimp only
        rw [hvs, hvs']
        simp only [bind, Except.bind, pure, Except.pure]
        rw [all_truthy fun v hv => (hall v hv).1]
        exact sameValue_bool hdepth _
      . dsimp only
        rw [herr, herr']
        exact .inr ⟨err, err', rfl, rfl⟩
    | or =>
      rcases Option.map_eq_some_iff.mp ha with ⟨nodes, hnodes, rfl⟩
      unfold Predicates.ev evNode
      rw [if_neg hdeep, if_neg hdeep']
      rcases hes nodes hnodes with ⟨vs, hvs, hvs', hall⟩ | ⟨err, err', herr, herr'⟩
      . dsimp only
        rw [hvs, hvs']
        simp only [bind, Except.bind, pure, Except.pure]
        rw [any_truthy fun v hv => (hall v hv).1]
        exact sameValue_bool hdepth _
      . dsimp only
        rw [herr, herr']
        exact .inr ⟨err, err', rfl, rfl⟩
  | unaryOp op e ih =>
    intro a depth ha hexact
    by_cases hdeep : Predicates.maxDepth < depth
    . exact sameValue_deep hdeep
    have hdeep' : ¬maxDepth < depth := hdeep
    have hdepth : depth ≤ 50 := not_lt.mp hdeep
    cases op with
    | not =>
      rcases Option.map_eq_some_iff.mp ha with ⟨node, hnode, rfl⟩
      unfold Predicates.ev evNode
      rw [if_neg hdeep, if_neg hdeep']
      rcases ih node (depth + 1) hnode fun v hv => hexact v ((Python.Expr.mem_constants_unaryOp v _ e).mpr hv) with
        ⟨v, hv, hv', hcomparable, _⟩ | ⟨err, err', herr, herr'⟩
      . dsimp only
        rw [hv, hv']
        simp only [bind, Except.bind, pure, Except.pure]
        rw [pyTruthy_fromJson hcomparable.json hcomparable.exact]
        exact sameValue_bool hdepth _
      . dsimp only
        rw [herr, herr']
        exact .inr ⟨err, err', rfl, rfl⟩
    | uSub => cases ha
    | uAdd => cases ha
    | invert => cases ha
  | compare l rest ihl ihrest =>
    intro a depth ha hexact
    by_cases hdeep : Predicates.maxDepth < depth
    . exact sameValue_deep hdeep
    have hdeep' : ¬maxDepth < depth := hdeep
    have hdepth : depth ≤ 50 := not_lt.mp hdeep
    simp only [fromExpr, Option.bind_eq_bind, Option.bind_eq_some_iff] at ha
    rcases ha with ⟨left, hleft, rest', hrest, heq⟩
    cases heq
    unfold Predicates.ev evNode
    rw [if_neg hdeep, if_neg hdeep']
    rcases ihl left (depth + 1) hleft fun v hv => hexact v ((Python.Expr.mem_constants_compare v l rest).mpr (.inl hv))
      with ⟨v, hv, hv', hcomparable, _⟩ | ⟨err, err', herr, herr'⟩
    . have hchain := @evChain_agrees ctx ctx' rest rest' v (depth + 1) hrest hcomparable (Nat.succ_pos _)
        fun p hp a ha => ihrest p hp a (depth + 1) ha fun w hw =>
          hexact w ((Python.Expr.mem_constants_compare w l rest).mpr (.inr ⟨p, hp, hw⟩))
      dsimp only
      rw [hv, hv']
      simp only [bind, Except.bind, pure, Except.pure]
      rcases hchain with ⟨b, hb, hb'⟩ | ⟨err, err', herr, herr'⟩
      . rw [hb, hb']
        exact sameValue_bool hdepth _
      . rw [herr, herr']
        exact .inr ⟨err, err', rfl, rfl⟩
    . dsimp only
      rw [herr, herr']
      exact .inr ⟨err, err', rfl, rfl⟩
  | list es ih =>
    intro a depth ha hexact
    by_cases hdeep : Predicates.maxDepth < depth
    . exact sameValue_deep hdeep
    have hdeep' : ¬maxDepth < depth := hdeep
    have hdepth : depth ≤ 50 := not_lt.mp hdeep
    rcases Option.map_eq_some_iff.mp ha with ⟨nodes, hnodes, rfl⟩
    unfold Predicates.ev evNode
    rw [if_neg hdeep, if_neg hdeep']
    exact sameValue_list hdepth hnodes fun e he a ha =>
      ih e he a (depth + 1) ha fun v hv => hexact v ((Python.Expr.mem_constants_list v es).mpr ⟨e, he, hv⟩)
  | tuple es ih =>
    intro a depth ha hexact
    by_cases hdeep : Predicates.maxDepth < depth
    . exact sameValue_deep hdeep
    have hdeep' : ¬maxDepth < depth := hdeep
    have hdepth : depth ≤ 50 := not_lt.mp hdeep
    rcases Option.map_eq_some_iff.mp ha with ⟨nodes, hnodes, rfl⟩
    unfold Predicates.ev evNode
    rw [if_neg hdeep, if_neg hdeep']
    exact sameValue_list hdepth hnodes fun e he a ha =>
      ih e he a (depth + 1) ha fun v hv => hexact v ((Python.Expr.mem_constants_tuple v es).mpr ⟨e, he, hv⟩)
  | other k es ih =>
    intro a depth ha
    cases ha

end

/- Conditions. -/

theorem fromExprs_mem {es : List Python.Expr} {nodes : List Ast} (h : fromExprs es = some nodes) {e : Python.Expr}
    (he : e ∈ es)
    : ∃ a, fromExpr e = some a := by
  induction es generalizing nodes with
  | nil => cases he
  | cons e' es ih =>
    simp only [fromExprs, Option.bind_eq_bind, Option.bind_eq_some_iff] at h
    rcases h with ⟨node, hnode, rest, hrest, _⟩
    rcases List.mem_cons.mp he with rfl | he
    . exact ⟨node, hnode⟩
    . exact ih hrest he

theorem fromComparisons_mem {rest : List (Python.CmpOp × Python.Expr)} {rest' : List (CmpOp × Ast)}
    (h : fromComparisons rest = some rest') {p : Python.CmpOp × Python.Expr} (hp : p ∈ rest)
    : (∃ a, fromExpr p.2 = some a) ∧ (fromCmpOp p.1).isSome := by
  induction rest generalizing rest' with
  | nil => cases hp
  | cons q rest ih =>
    rcases q with ⟨op, e⟩
    simp only [fromComparisons, Option.bind_eq_bind, Option.bind_eq_some_iff] at h
    rcases h with ⟨op', hop, node, hnode, tail, htail, _⟩
    rcases List.mem_cons.mp hp with rfl | hp
    . exact ⟨⟨node, hnode⟩, by rw [hop]; rfl⟩
    . exact ih htail hp

theorem cmpOp_disallowed {op : Python.CmpOp} (h : (fromCmpOp op).isSome)
    : Predicates.CmpOp.disallowed op = [] := by
  cases op <;> first | rfl | cases h

/-- A tree Rust has is inside Python's sandbox. -/
theorem disallowed_eq_nil {e : Python.Expr} {a : Ast} (h : fromExpr e = some a)
    : Predicates.disallowed e = [] := by
  induction e using Python.Expr.induct generalizing a with
  | constant v => rfl
  | name id => rfl
  | boolOp op es ih =>
    have hes : ∃ nodes, fromExprs es = some nodes := by
      cases op <;> exact (Option.map_eq_some_iff.mp h).imp fun _ hnodes => hnodes.1
    rcases hes with ⟨nodes, hnodes⟩
    refine Predicates.disallowed_boolOp_eq_nil.mpr fun e he => ?_
    rcases fromExprs_mem hnodes he with ⟨node, hnode⟩
    exact ih e he hnode
  | unaryOp op e ih =>
    cases op with
    | not =>
      rcases Option.map_eq_some_iff.mp h with ⟨node, hnode, _⟩
      exact Predicates.disallowed_unaryOp_eq_nil.mpr ⟨rfl, ih hnode⟩
    | uSub => cases h
    | uAdd => cases h
    | invert => cases h
  | compare l rest ihl ihrest =>
    simp only [fromExpr, Option.bind_eq_bind, Option.bind_eq_some_iff] at h
    rcases h with ⟨left, hleft, rest', hrest, _⟩
    refine Predicates.disallowed_compare_eq_nil.mpr ⟨ihl hleft, fun p hp => ?_⟩
    rcases fromComparisons_mem hrest hp with ⟨⟨node, hnode⟩, hop⟩
    exact ⟨cmpOp_disallowed hop, ihrest p hp hnode⟩
  | list es ih =>
    rcases Option.map_eq_some_iff.mp h with ⟨nodes, hnodes, _⟩
    refine Predicates.disallowed_list_eq_nil.mpr fun e he => ?_
    rcases fromExprs_mem hnodes he with ⟨node, hnode⟩
    exact ih e he hnode
  | tuple es ih =>
    rcases Option.map_eq_some_iff.mp h with ⟨nodes, hnodes, _⟩
    refine Predicates.disallowed_tuple_eq_nil.mpr fun e he => ?_
    rcases fromExprs_mem hnodes he with ⟨node, hnode⟩
    exact ih e he hnode
  | other kind es ih => cases h

/-- Both parsers read the expression as one tree, whose integers are doubles, or both refuse it. -/
inductive SameReading (py : Predicates.Runtime) (expr : String) : Prop where
  | read (tree : Python.Expr) (node : Ast) (hpy : py.parse expr = some tree)
      (hnode : fromExpr (Predicates.foldUnarySigns tree) = some node)
      (hexact : ∀ v ∈ (Predicates.foldUnarySigns tree).constants, Exact v) (hrust : parseExpr expr = .ok node)
  | refused (err : PredicateError) (hrust : parseExpr expr = .error err)
      (hpy : ∀ tree, py.parse expr = some tree → Predicates.disallowed (Predicates.foldUnarySigns tree) ≠ [])

/-- The condition has one text and one expression on both sides. -/
structure ConditionAlike (py : Predicates.Runtime) (condition : String) : Prop where
  plain : Plain condition
  expr : Predicates.isVerdict (Predicates.exprOf condition) = true ∨ SameReading py (Predicates.exprOf condition)

theorem evalCondition_agrees {py : Predicates.Runtime} {condition : String} (h : ConditionAlike py condition)
    {ctx : Predicates.Ctx} {ctx' : Ctx} (hctx : SameCtx ctx ctx')
    : (∃ b, Predicates.evalCondition py condition ctx = .ok b ∧ evalCondition condition ctx' = .ok b)
      ∨ (∃ e e', Predicates.evalCondition py condition ctx = .error e ∧ evalCondition condition ctx' = .error e') := by
  rw [Predicates.evalCondition, evalCondition, exprOf_eq h.plain]
  by_cases halways : Python.lower (Predicates.exprOf condition) ∈ Predicates.always
  . rw [if_pos halways]
    refine .inl ⟨true, rfl, ?_⟩
    exact if_pos halways
  by_cases hnever : Python.lower (Predicates.exprOf condition) ∈ Predicates.never
  . rw [if_neg halways, if_pos hnever]
    refine .inl ⟨false, rfl, ?_⟩
    exact (if_neg halways).trans (if_pos hnever)
  have hrust : ∀ body : Except PredicateError Bool,
      (if toLowercase (Predicates.exprOf condition) ∈ always then .ok true
        else if toLowercase (Predicates.exprOf condition) ∈ never then .ok false else body) = body :=
    fun body => (if_neg halways).trans (if_neg hnever)
  dsimp only
  rw [if_neg halways, if_neg hnever, hrust]
  rcases h.expr with hverdict | hreading
  . rw [Predicates.isVerdict_eq_false halways hnever] at hverdict
    cases hverdict
  cases hreading with
  | read tree node hpy hnode hexact hparse =>
    rw [hpy, hparse]
    have hallowed : Predicates.disallowed (Predicates.foldUnarySigns tree) = [] :=
      disallowed_eq_nil hnode
    simp only [bind, Except.bind, pure, Except.pure]
    rw [hallowed]
    dsimp only
    rcases ev_agrees hctx (Predicates.foldUnarySigns tree) node 0 hnode hexact with
      ⟨v, hv, hv', hcomparable, _⟩ | ⟨err, err', herr, herr'⟩
    . rw [hv, hv']
      refine .inl ⟨v.truthy, rfl, ?_⟩
      exact congrArg Except.ok (pyTruthy_fromJson hcomparable.json hcomparable.exact)
    . rw [herr, herr']
      exact .inr ⟨err, err', rfl, rfl⟩
  | refused err hparse hpy =>
    rw [hparse]
    cases hfound : py.parse (Predicates.exprOf condition) with
    | none => exact .inr ⟨_, _, rfl, rfl⟩
    | some tree =>
      dsimp only
      cases hkinds : Predicates.disallowed (Predicates.foldUnarySigns tree) with
      | nil => exact absurd hkinds (hpy tree hfound)
      | cons kind kinds => exact .inr ⟨_, _, rfl, rfl⟩

end Kernel

end Rust
