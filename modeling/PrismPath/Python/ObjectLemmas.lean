import PrismPath.Python.Object

/-!
This module contains what an object becomes when it is written and read again, and the objects whose canonical
form that does not change.
-/

namespace Json

/- A surrogate pair is written like the code point it encodes. -/

theorem escape_joinSurrogates {high low : CodePoint} (hhigh : isHigh high.val = true) (hlow : isLow low.val = true)
    : escape (Fin.ofNat _ (joinSurrogates high.val low.val)) = escape high ++ escape low := by
  have hval : (Fin.ofNat 0x110000 (joinSurrogates high.val low.val)).val = joinSurrogates high.val low.val := by
    refine Nat.mod_eq_of_lt ?_
    simp only [isHigh, isLow, Bool.and_eq_true, decide_eq_true_eq] at hhigh hlow
    unfold joinSurrogates
    omega
  generalize Fin.ofNat 0x110000 (joinSurrogates high.val low.val) = c at hval
  rw [(escape_of_surrogate (.inl hhigh)).2, (escape_of_surrogate (.inr hlow)).2]
  simp only [isHigh, isLow, Bool.and_eq_true, decide_eq_true_eq] at hhigh hlow
  unfold joinSurrogates at hval
  rcases escape_cases c with ⟨e, _, _, _, hlt⟩ | ⟨_, hle, _⟩ | ⟨hlt, _⟩ | ⟨_, heq⟩
  . omega
  . omega
  . omega
  . have hhalves : 0xD800 + (c.val - 0x10000) / 1024 = high.val ∧ 0xDC00 + (c.val - 0x10000) % 1024 = low.val := by
      omega
    rw [heq, hhalves.1, hhalves.2]

theorem flatMap_escape_join (s : Str)
    : (join s).flatMap escape = s.flatMap escape := by
  induction s using join.induct with
  | case1 high low s hpair ih =>
    obtain ⟨hhigh, hlow⟩ := Bool.and_eq_true_iff.mp hpair
    rw [join, if_pos hpair, List.flatMap_cons, List.flatMap_cons, List.flatMap_cons, ih,
      escape_joinSurrogates hhigh hlow, List.append_assoc]
  | case2 high low s hpair ih => rw [join, if_neg hpair, List.flatMap_cons, List.flatMap_cons, ih]
  | case3 s hs =>
    rw [join]
    exact hs

theorem writeString_join (s : Str)
    : writeString (join s) = writeString s := by
  rw [writeString, writeString, flatMap_escape_join]

mutual
theorem write_join (style : Style) (t : Tree)
    : write style t.join = write style t := by
  match t with
  | .word w => rfl
  | .number n => rfl
  | .string s => rw [Tree.join, write, write, writeString_join]
  | .array [] => rfl
  | .array (t :: ts) => rw [Tree.join, joinItems, write, write, write_join style t, writeItems_join style ts]
  | .object [] => rfl
  | .object ((k, t) :: ms) =>
    rw [Tree.join, joinMembers, write, write, writeString_join, write_join style t, writeMembers_join style ms]

theorem writeItems_join (style : Style) (ts : List Tree)
    : writeItems style (joinItems ts) = writeItems style ts := by
  match ts with
  | [] => rfl
  | t :: ts => rw [joinItems, writeItems, writeItems, write_join style t, writeItems_join style ts]

theorem writeMembers_join (style : Style) (ms : List (Str × Tree))
    : writeMembers style (joinMembers ms) = writeMembers style ms := by
  match ms with
  | [] => rfl
  | (k, t) :: ms =>
    rw [joinMembers, writeMembers, writeMembers, writeString_join, write_join style t, writeMembers_join style ms]
end

/-- A string without surrogates is read back as it was. -/
theorem join_of_plain {s : Str} (h : ∀ c ∈ s, isHigh c.val = false)
    : join s = s := by
  induction s using join.induct with
  | case1 high low s hpair ih => simp [h high (List.mem_cons_self ..)] at hpair
  | case2 high low s hpair ih =>
    rw [join, if_neg hpair, ih fun c hc => h c (List.mem_cons_of_mem _ hc)]
  | case3 s hs =>
    rw [join]
    exact hs

end Json

namespace Dict

variable {K V : Type} [DecidableEq K]

theorem set_of_not_mem {d : List (K × V)} {k : K} (h : k ∉ d.map Prod.fst) (v : V)
    : set d k v = d ++ [(k, v)] := by
  induction d with
  | nil => rfl
  | cons p d ih =>
    rcases p with ⟨k', v'⟩
    simp only [List.map_cons, List.mem_cons, not_or] at h
    rw [set, if_neg (Ne.symm h.1), ih h.2, List.cons_append]

theorem foldl_set_of_nodup (d kvs : List (K × V)) (h : ((d ++ kvs).map Prod.fst).Nodup)
    : kvs.foldl (fun d kv => set d kv.1 kv.2) d = d ++ kvs := by
  induction kvs generalizing d with
  | nil => simp
  | cons kv kvs ih =>
    have hfresh : kv.1 ∉ d.map Prod.fst := by
      rw [List.map_append, List.map_cons, List.nodup_append] at h
      exact fun hmem => h.2.2 kv.1 hmem kv.1 (List.mem_cons_self ..) rfl
    rw [List.foldl_cons, set_of_not_mem hfresh, ih]
    . simp
    . simpa using h

end Dict

namespace Python

open Json

/- What writing and reading gives. -/

theorem decode_intTree (n : ℤ)
    : decode (intTree n) = .int n := by
  simp only [intTree, decode, decodeNumber, noDigits, Option.isNone_none, and_self, if_true]
  congr 1
  split
  . next h =>
    have := of_decide_eq_true h
    omega
  . next h =>
    have : ¬ n < 0 := fun hn => h (decide_eq_true hn)
    omega

theorem decode_floatTree (x : Float64)
    : decode x.tree = .float x := by
  cases x with
  | nan => rfl
  | inf neg => cases neg <;> rfl
  | finite neg x =>
    rw [Float64.tree, decode, decodeNumber, if_neg, Float64.ofNumber_number]
    rintro ⟨hfraction, hexponent⟩
    rcases number_isFloat neg (Decimal.shortest x.val) with h | h
    . exact h hfraction
    . exact h (Option.isNone_iff_eq_none.mp hexponent)

theorem join_floatTree (x : Float64)
    : x.tree.join = x.tree := by
  cases x <;> rfl

/-- What the object is after it was written and read. -/
def Obj.reload (v : Obj) : Obj :=
  decode v.tree.join

theorem loads_dumps (v : Obj)
    : loads (dumps v) = some v.reload := by
  rw [loads, dumps, parse_write]
  rfl

namespace Obj

theorem decodeItems_treeItems (vs : List Obj)
    : decodeItems (joinItems (treeItems vs)) = vs.map reload := by
  induction vs with
  | nil => rfl
  | cons v vs ih => rw [treeItems, joinItems, decodeItems, ih, List.map_cons, reload]

end Obj

theorem dictOf_of_nodup {kvs : List (Str × Obj)} (h : (kvs.map Prod.fst).Nodup)
    : dictOf kvs = .dict (kvs.map fun kv => (.str kv.1, kv.2)) := by
  rw [dictOf, Dict.foldl_set_of_nodup [] kvs (by simpa using h), List.nil_append]

/- Objects whose canonical form stays. -/

/-- The keys can be sorted, no two are written alike, and their order is the order of what they are read as. -/
def keysStable (ks : List Key) : Bool :=
  sortable ks && decide (ks.map fun k => join k.text).Nodup
    && ks.all fun k => ks.all fun l => k.lt l == decide (join k.text < join l.text)

namespace Obj

mutual
def stable : Obj → Bool
  | list vs => stableItems vs
  | dict kvs => keysStable (kvs.map Prod.fst) && stableMembers kvs
  | _ => true

def stableItems : List Obj → Bool
  | [] => true
  | v :: vs => v.stable && stableItems vs

def stableMembers : List (Key × Obj) → Bool
  | [] => true
  | (_, v) :: kvs => v.stable && stableMembers kvs
end

theorem sortedMembers_keys {kvs : List (Key × Obj)} {kts : List (Key × Tree)} (h : sortedMembers kvs = some kts)
    : kts.map Prod.fst = kvs.map Prod.fst := by
  induction kvs generalizing kts with
  | nil =>
    cases h
    rfl
  | cons kv kvs ih =>
    rcases kv with ⟨k, v⟩
    simp only [sortedMembers, Option.bind_eq_bind, Option.bind_eq_some_iff] at h
    rcases h with ⟨t, _, kts', hkts, heq⟩
    cases heq
    rw [List.map_cons, List.map_cons, ih hkts]

/-- What becomes of a key and its value's tree. -/
def reloadItem (kt : Key × Tree) : Key × Tree :=
  (.str (join kt.1.text), kt.2.join)

theorem sortItems_reload {kts : List (Key × Tree)} (h : keysStable (kts.map Prod.fst) = true)
    : sortItems (kts.map reloadItem) = (sortItems kts).map reloadItem := by
  simp only [keysStable, Bool.and_eq_true, List.all_eq_true, beq_iff_eq] at h
  refine (List.map_insertionSort _ _ reloadItem kts fun a ha b hb => ?_).symm
  have horder := h.2 b.1 (List.mem_map_of_mem hb) a.1 (List.mem_map_of_mem ha)
  rw [horder]
  rfl

theorem sortable_of_str {ks : List Key} (h : ∀ k ∈ ks, k.isStr = true)
    : sortable ks = true := by
  simp only [sortable, Bool.or_eq_true, List.all_eq_true]
  exact .inl (.inr h)

end Obj

/- The text of a digest. -/

def hexDigit (n : ℕ) : Json.CodePoint :=
  Fin.ofNat _ (Nat.digitChar n).toNat

theorem hexDigit_injective
    : ∀ m < 16, ∀ n < 16, hexDigit m = hexDigit n → m = n := by
  decide

theorem hex_cons (b : UInt8) (data : List UInt8)
    : hex (b :: data) = hexDigit (b.toNat / 16) :: hexDigit (b.toNat % 16) :: hex data := by
  simp [hex, ofText, hexDigit]

theorem hex_injective {data data' : List UInt8} (h : hex data = hex data')
    : data = data' := by
  induction data generalizing data' with
  | nil =>
    rcases data' with _ | ⟨b', data'⟩
    . rfl
    . rw [hex_cons] at h
      cases h
  | cons b data ih =>
    rcases data' with _ | ⟨b', data'⟩
    . rw [hex_cons] at h
      cases h
    . rw [hex_cons, hex_cons, List.cons.injEq, List.cons.injEq] at h
      rcases h with ⟨hhi, hlo, hrest⟩
      have hb := b.toNat_lt
      have hb' := b'.toNat_lt
      have hhi := hexDigit_injective _ (by omega) _ (by omega) hhi
      have hlo := hexDigit_injective _ (by omega) _ (by omega) hlo
      have heq : b = b' := UInt8.toNat_inj.mp (by omega)
      rw [heq, ih hrest]

end Python
