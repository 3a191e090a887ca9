import PrismPath.Python.ObjectLemmas
import PrismPath.Lib.JsonLines

/-!
This module contains what an object is after it was written with its keys sorted and read back.
-/

namespace Python

open Json

/- Sorting by strings. -/

theorem sortItems_str {V : Type} (xs : List (Str × V))
    : sortItems (xs.map fun x => (Key.str x.1, x.2))
        = (xs.insertionSort fun a b => a.1 ≤ b.1).map fun x => (Key.str x.1, x.2) := by
  rw [sortItems]
  refine (List.map_insertionSort _ _ _ xs fun a _ b _ => ?_).symm
  rw [Key.lt, decide_eq_false_iff_not, not_lt]

theorem sortItems_sortItems {V : Type} (xs : List (Str × V))
    : sortItems (sortItems (xs.map fun x => (Key.str x.1, x.2))) = sortItems (xs.map fun x => (Key.str x.1, x.2)) := by
  have htotal : Std.Total fun a b : Str × V => a.1 ≤ b.1 := ⟨fun a b => le_total a.1 b.1⟩
  have htrans : IsTrans (Str × V) fun a b => a.1 ≤ b.1 := ⟨fun _ _ _ hab hbc => le_trans hab hbc⟩
  rw [sortItems_str, sortItems_str, (List.pairwise_insertionSort _ xs).insertionSort_eq]

/- Reading back. -/

/-- What the object is after it was written with `sort_keys` and read; the object itself where it is not written. -/
def Obj.reread (v : Obj) : Obj :=
  match v.sortedTree with
  | Option.some t => decode t.join
  | Option.none => v

namespace Obj

theorem reread_of_sortedTree {v : Obj} {t : Tree} (h : v.sortedTree = some t)
    : v.reread = decode t.join := by
  rw [reread, h]

theorem loads_dumpsSorted {v : Obj} {cs : Text} (h : dumpsSorted v = some cs)
    : loads cs = some v.reread := by
  rcases Option.map_eq_some_iff.mp h with ⟨t, ht, rfl⟩
  rw [loads, parse_write, reread_of_sortedTree ht]
  rfl

theorem sortedMembers_reread {kvs : List (Key × Obj)} {kts : List (Key × Tree)} (h : sortedMembers kvs = some kts)
    : (kts.map fun kt => (Key.str (join kt.1.text), decode kt.2.join))
        = kvs.map fun kv => (Key.str (join kv.1.text), kv.2.reread) := by
  induction kvs generalizing kts with
  | nil =>
    cases h
    rfl
  | cons kv kvs ih =>
    rcases kv with ⟨k, v⟩
    simp only [sortedMembers, Option.bind_eq_bind, Option.bind_eq_some_iff] at h
    rcases h with ⟨t, ht, kts', hkts, heq⟩
    cases heq
    rw [List.map_cons, List.map_cons, ih hkts, reread_of_sortedTree ht]

theorem sortedMembers_decode {xs : List (Str × Tree)} (h : ∀ x ∈ xs, (decode x.2).sortedTree = some x.2)
    : sortedMembers (xs.map fun x => (Key.str x.1, decode x.2)) = some (xs.map fun x => (Key.str x.1, x.2)) := by
  induction xs with
  | nil => rfl
  | cons x xs ih =>
    rw [List.forall_mem_cons] at h
    simp only [List.map_cons, sortedMembers, h.1, ih h.2, Option.bind_eq_bind, Option.bind_some]

theorem decodeMembers_eq (xs : List (Str × Tree))
    : decodeMembers xs = xs.map fun x => (x.1, decode x.2) := by
  induction xs with
  | nil => rfl
  | cons x xs ih => rw [List.map_cons, decodeMembers, ih]

/-- An object whose keys are sorted and distinct is written as it is. -/
theorem sortedTree_decode_object {xs : List (Str × Tree)} (hread : ∀ x ∈ xs, (decode x.2).sortedTree = some x.2)
    (hnodup : (xs.map Prod.fst).Nodup)
    (hsorted : sortItems (xs.map fun x => (Key.str x.1, x.2)) = xs.map fun x => (Key.str x.1, x.2))
    : (decode (.object xs)).sortedTree = some (.object xs) := by
  have hkeys : ((decodeMembers xs).map Prod.fst).Nodup := by
    rw [decodeMembers_eq, List.map_map]
    exact hnodup
  have hsortable : sortable (((decodeMembers xs).map fun kv => (Key.str kv.1, kv.2)).map Prod.fst) = true := by
    refine sortable_of_str fun k hk => ?_
    rw [List.map_map, List.mem_map] at hk
    rcases hk with ⟨_, _, rfl⟩
    rfl
  have hmembers : sortedMembers ((decodeMembers xs).map fun kv => (Key.str kv.1, kv.2))
      = some (xs.map fun x => (Key.str x.1, x.2)) := by
    rw [decodeMembers_eq, List.map_map]
    exact sortedMembers_decode hread
  rw [decode, dictOf_of_nodup hkeys, sortedTree, hmembers, Option.bind_eq_bind, Option.bind_some, if_pos hsortable,
    hsorted, List.map_map]
  congr 2
  exact List.map_id xs

mutual
/-- What is read back is written sorted as it was. -/
theorem sortedTree_reread (v : Obj) (h : v.stable = true)
    : ∃ t, v.sortedTree = some t ∧ (decode t.join).sortedTree = some t.join := by
  match v with
  | none => exact ⟨_, rfl, rfl⟩
  | bool b => cases b <;> exact ⟨_, rfl, rfl⟩
  | int n =>
    refine ⟨intTree n, rfl, ?_⟩
    show (decode (intTree n)).sortedTree = some (intTree n)
    rw [decode_intTree, sortedTree]
  | float x => exact ⟨_, rfl, by rw [join_floatTree, decode_floatTree]; rfl⟩
  | str s => exact ⟨_, rfl, rfl⟩
  | list vs =>
    rw [stable] at h
    rcases sortedItems_reread vs h with ⟨ts, hts, hread⟩
    exact ⟨.array ts, by rw [sortedTree, hts]; rfl, by rw [Tree.join, decode, sortedTree, hread]; rfl⟩
  | dict kvs =>
    rw [stable, Bool.and_eq_true] at h
    rcases sortedMembers_items kvs h.2 with ⟨kts, hkts, hread⟩
    have hstable := h.1
    rw [← sortedMembers_keys hkts] at hstable
    have hkeys := h.1
    simp only [keysStable, Bool.and_eq_true, decide_eq_true_eq] at hkeys
    refine ⟨.object ((sortItems kts).map fun kt => (kt.1.text, kt.2)), ?_, ?_⟩
    . simp [sortedTree, hkts, hkeys.1.1]
    . have hitems : (kts.map reloadItem)
          = (kts.map fun kt => (join kt.1.text, kt.2.join)).map fun x => (Key.str x.1, x.2) := by
        rw [List.map_map]
        rfl
      have hsorted : sortItems (kts.map reloadItem)
          = ((sortItems kts).map fun kt => (join kt.1.text, kt.2.join)).map fun x => (Key.str x.1, x.2) := by
        rw [sortItems_reload hstable, List.map_map]
        rfl
      have hperm : (sortItems kts).Perm kts := List.perm_insertionSort _ kts
      rw [Tree.join, joinMembers_eq, List.map_map]
      refine sortedTree_decode_object (fun x hx => ?_) ?_ ?_
      . rcases List.mem_map.mp hx with ⟨kt, hkt, rfl⟩
        exact hread kt (hperm.mem_iff.mp hkt)
      . rw [List.map_map]
        refine ((hperm.map _).nodup_iff).mpr ?_
        have hnodup := hkeys.1.2
        rw [← sortedMembers_keys hkts, List.map_map] at hnodup
        exact hnodup
      . show sortItems (((sortItems kts).map fun kt => (join kt.1.text, kt.2.join)).map fun x => (Key.str x.1, x.2))
          = ((sortItems kts).map fun kt => (join kt.1.text, kt.2.join)).map fun x => (Key.str x.1, x.2)
        rw [← hsorted, hitems, sortItems_sortItems]

theorem sortedItems_reread (vs : List Obj) (h : stableItems vs = true)
    : ∃ ts, sortedItems vs = some ts ∧ sortedItems (decodeItems (joinItems ts)) = some (joinItems ts) := by
  match vs with
  | [] => exact ⟨[], rfl, rfl⟩
  | v :: vs =>
    rw [stableItems, Bool.and_eq_true] at h
    rcases sortedTree_reread v h.1 with ⟨t, ht, hread⟩
    rcases sortedItems_reread vs h.2 with ⟨ts, hts, hreads⟩
    exact ⟨t :: ts, by simp [sortedItems, ht, hts], by simp [joinItems, decodeItems, sortedItems, hread, hreads]⟩

theorem sortedMembers_items (kvs : List (Key × Obj)) (h : stableMembers kvs = true)
    : ∃ kts, sortedMembers kvs = some kts ∧ ∀ kt ∈ kts, (decode kt.2.join).sortedTree = some kt.2.join := by
  match kvs with
  | [] => exact ⟨[], rfl, fun kt hkt => by cases hkt⟩
  | (k, v) :: kvs =>
    rw [stableMembers, Bool.and_eq_true] at h
    rcases sortedTree_reread v h.1 with ⟨t, ht, hread⟩
    rcases sortedMembers_items kvs h.2 with ⟨kts, hkts, hreads⟩
    exact ⟨(k, t) :: kts, by simp [sortedMembers, ht, hkts], List.forall_mem_cons.mpr ⟨hread, hreads⟩⟩
end

/-- The canonical form of a stable object is that of what its sorted text is read as. -/
theorem canonicalCompact_reread {v : Obj} (h : v.stable = true)
    : ∃ cs, canonicalCompact v = some cs ∧ canonicalCompact v.reread = some cs := by
  rcases sortedTree_reread v h with ⟨t, ht, hread⟩
  refine ⟨write .compact t, by rw [canonicalCompact, ht]; rfl, ?_⟩
  rw [canonicalCompact, reread_of_sortedTree ht, hread, Option.map_some, write_join]

/-- A dictionary is read back with its members, in the order of their keys. -/
theorem reread_dict {kvs : List (Key × Obj)} (h : (dict kvs).stable = true)
    : ∃ d, (dict kvs).reread = dict d ∧ ∀ kv ∈ kvs, d.lookup (.str (join kv.1.text)) = some kv.2.reread := by
  rw [stable, Bool.and_eq_true] at h
  rcases sortedMembers_items kvs h.2 with ⟨kts, hkts, _⟩
  have hkeys := h.1
  simp only [keysStable, Bool.and_eq_true, decide_eq_true_eq] at hkeys
  have htree : (dict kvs).sortedTree = some (.object ((sortItems kts).map fun kt => (kt.1.text, kt.2))) := by
    simp [sortedTree, hkts, hkeys.1.1]
  have hperm : (sortItems kts).Perm kts := List.perm_insertionSort _ kts
  have hdecode : decodeMembers (joinMembers ((sortItems kts).map fun kt => (kt.1.text, kt.2)))
      = (sortItems kts).map fun kt => (join kt.1.text, decode kt.2.join) := by
    rw [joinMembers_eq, decodeMembers_eq, List.map_map, List.map_map]
    rfl
  have hnodup : (((sortItems kts).map fun kt => (join kt.1.text, decode kt.2.join)).map Prod.fst).Nodup := by
    rw [List.map_map]
    refine ((hperm.map _).nodup_iff).mpr ?_
    have hnodup := hkeys.1.2
    rw [← sortedMembers_keys hkts, List.map_map] at hnodup
    exact hnodup
  have hread : (dict kvs).reread
      = dict ((sortItems kts).map fun kt => (Key.str (join kt.1.text), decode kt.2.join)) := by
    rw [reread_of_sortedTree htree, Tree.join, decode, hdecode, dictOf_of_nodup hnodup, List.map_map]
    rfl
  refine ⟨_, hread, fun kv hkv => Dict.lookup_of_mem ?_ ?_⟩
  . rw [List.map_map] at hnodup ⊢
    have hinj : Function.Injective Key.str := fun _ _ heq => Key.str.inj heq
    have hstr := hnodup.map hinj
    rw [List.map_map] at hstr
    exact hstr
  . have hmem : (Key.str (join kv.1.text), kv.2.reread)
        ∈ kvs.map fun kv => (Key.str (join kv.1.text), kv.2.reread) :=
      List.mem_map_of_mem hkv
    rw [← sortedMembers_reread hkts] at hmem
    exact (hperm.map _).mem_iff.mpr hmem

/- Objects put together from what was read back. -/

theorem write_object_join (style : Style) (ms : List (Str × Tree))
    : write style (.object (ms.map fun m => (m.1, m.2.join))) = write style (.object ms) := by
  have hmembers : ∀ ms : List (Str × Tree),
      writeMembers style (ms.map fun m => (m.1, m.2.join)) = writeMembers style ms := by
    intro ms
    induction ms with
    | nil => rfl
    | cons m ms ih => simp only [List.map_cons, writeMembers, write_join, ih]
  cases ms with
  | nil => rfl
  | cons m ms => simp only [List.map_cons, write, write_join, hmembers]

theorem sortedMembers_read {kvs : List (Key × Obj)} (h : stableMembers kvs = true) {kts : List (Key × Tree)}
    (hkts : sortedMembers kvs = some kts)
    : sortedMembers (kvs.map fun kv => (kv.1, kv.2.reread)) = some (kts.map fun kt => (kt.1, kt.2.join)) := by
  induction kvs generalizing kts with
  | nil =>
    cases hkts
    rfl
  | cons kv kvs ih =>
    rcases kv with ⟨k, v⟩
    rw [stableMembers, Bool.and_eq_true] at h
    simp only [sortedMembers, Option.bind_eq_bind, Option.bind_eq_some_iff] at hkts
    rcases hkts with ⟨t, ht, kts', hkts', heq⟩
    cases heq
    rcases sortedTree_reread v h.1 with ⟨t', ht', hread⟩
    rw [ht] at ht'
    cases ht'
    simp only [List.map_cons, sortedMembers, reread_of_sortedTree ht, hread, ih h.2 hkts', Option.bind_eq_bind,
      Option.bind_some]

theorem canonicalCompact_dict_read {kvs : List (Key × Obj)} (h : (dict kvs).stable = true)
    : canonicalCompact (.dict (kvs.map fun kv => (kv.1, kv.2.reread))) = canonicalCompact (.dict kvs) := by
  rw [stable, Bool.and_eq_true] at h
  rcases sortedMembers_items kvs h.2 with ⟨kts, hkts, _⟩
  have hkeys := h.1
  simp only [keysStable, Bool.and_eq_true, decide_eq_true_eq] at hkeys
  have hsort : sortItems (kts.map fun kt => (kt.1, kt.2.join)) = (sortItems kts).map fun kt => (kt.1, kt.2.join) :=
    (List.map_insertionSort _ _ (fun kt : Key × Tree => (kt.1, kt.2.join)) kts fun _ _ _ _ => Iff.rfl).symm
  have hmap : ((kvs.map fun kv => (kv.1, kv.2.reread)).map Prod.fst) = kvs.map Prod.fst := by
    rw [List.map_map]
    rfl
  simp only [canonicalCompact, sortedTree, hkts, sortedMembers_read h.2 hkts, hmap, hkeys.1.1, Option.bind_eq_bind,
    Option.bind_some, if_true, Option.map_some, hsort, List.map_map]
  have hobject := write_object_join .compact ((sortItems kts).map fun kt => (kt.1.text, kt.2))
  rw [List.map_map] at hobject
  exact congrArg some hobject

/- Dictionaries as the lines of a file. -/

/-- A dictionary that is read back with its members. -/
abbrev Record : Type := {v : Obj // v.stable = true ∧ ∃ kvs, v = dict kvs}

theorem Record.tree (r : Record) : ∃ ms, r.val.sortedTree = some (.object ms) := by
  rcases r with ⟨v, hstable, kvs, rfl⟩
  rcases sortedTree_reread _ hstable with ⟨t, ht, -⟩
  have h := ht
  rw [sortedTree] at h
  cases hkts : sortedMembers kvs with
  | none => simp [hkts] at h
  | some kts =>
    simp only [hkts, Option.bind_eq_bind, Option.bind_some] at h
    split at h
    . cases h
      exact ⟨_, ht⟩
    . cases h

def Record.line (r : Record) : Text :=
  (dumpsSorted r.val).getD []

theorem Record.dumpsSorted (r : Record) : Python.dumpsSorted r.val = some r.line := by
  rcases r.tree with ⟨ms, hms⟩
  rw [Record.line, Python.dumpsSorted, hms]
  rfl

theorem Record.line_eq (r : Record)
    : ∃ ms, r.line = (Json.lineCodec .spaced).line ms ∧ r.val.reread = decode ((Json.lineCodec .spaced).value ms) := by
  rcases r.tree with ⟨ms, hms⟩
  refine ⟨ms, ?_, reread_of_sortedTree hms⟩
  rw [Record.line, Python.dumpsSorted, hms]
  rfl

/-- `json.dumps(record, sort_keys=True)` for each line. -/
def recordCodec : LineCodec Record Obj where
  line := Record.line
  value r := r.val.reread
  read := loads
  line_ne_nil r := by
    rcases r.line_eq with ⟨ms, hline, -⟩
    rw [hline]
    apply LineCodec.line_ne_nil
  no_newline r := by
    rcases r.line_eq with ⟨ms, hline, -⟩
    rw [hline]
    apply LineCodec.no_newline
  read_line r := by
    rcases r.line_eq with ⟨ms, hline, hvalue⟩
    have hread := (Json.lineCodec .spaced).read_line ms
    rw [hline, hvalue, loads, show Json.parse _ = some _ from hread]
    rfl
  read_cut r p hp hne := by
    rcases r.line_eq with ⟨ms, hline, -⟩
    rw [hline] at hp hne
    have hread := (Json.lineCodec .spaced).read_cut ms p hp hne
    rw [loads, show Json.parse p = Option.none from hread]
    rfl

end Obj

end Python
