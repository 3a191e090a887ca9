import PrismPath.Lib.JsonJoined
import PrismPath.Python.SortedReload

/-!
This module contains the objects that have one canonical text: dictionaries of one text have the same members, in
whatever order they hold them. What is read from a text has its strings as they are written.
-/

namespace Python

open Json

namespace Obj

/-- The objects have one text with `sort_keys`. -/
def Alike (v w : Obj) : Prop :=
  ∃ t u, v.sortedTree = some t ∧ w.sortedTree = some u ∧ t.join = u.join

theorem sortedMembers_iff {kvs : List (Key × Obj)} {kts : List (Key × Tree)} (h : sortedMembers kvs = some kts)
    (k : Key) (t : Tree)
    : (k, t) ∈ kts ↔ ∃ v, (k, v) ∈ kvs ∧ v.sortedTree = some t := by
  induction kvs generalizing kts with
  | nil =>
    cases h
    simp
  | cons kv kvs ih =>
    rcases kv with ⟨k', v'⟩
    simp only [sortedMembers, Option.bind_eq_bind, Option.bind_eq_some_iff] at h
    rcases h with ⟨t', ht', kts', hkts, heq⟩
    cases heq
    simp only [List.mem_cons, Prod.mk.injEq, ih hkts]
    constructor
    . rintro (⟨rfl, rfl⟩ | ⟨v, hv, ht⟩)
      . exact ⟨v', .inl ⟨rfl, rfl⟩, ht'⟩
      . exact ⟨v, .inr hv, ht⟩
    . rintro ⟨v, ⟨rfl, rfl⟩ | hv, ht⟩
      . rw [ht'] at ht
        exact .inl ⟨rfl, (Option.some.inj ht).symm⟩
      . exact .inr ⟨v, hv, ht⟩

theorem sortedTree_of_mem {kvs : List (Key × Obj)} {kts : List (Key × Tree)} (h : sortedMembers kvs = some kts)
    {k : Key} {v : Obj} (hmem : (k, v) ∈ kvs)
    : ∃ t, v.sortedTree = some t := by
  induction kvs generalizing kts with
  | nil => cases hmem
  | cons kv kvs ih =>
    rcases kv with ⟨k', v'⟩
    simp only [sortedMembers, Option.bind_eq_bind, Option.bind_eq_some_iff] at h
    rcases h with ⟨t', ht', kts', hkts, _⟩
    rcases List.mem_cons.mp hmem with heq | hmem
    . cases heq
      exact ⟨t', ht'⟩
    . exact ih hkts hmem

/-- The tree of a dictionary has a member for each of its own. -/
theorem sortedTree_dict {kvs : List (Key × Obj)} {t : Tree} (h : (dict kvs).sortedTree = some t)
    : ∃ ms, t = .object ms ∧ (∀ k v, (k, v) ∈ kvs → ∃ u, v.sortedTree = some u)
        ∧ ∀ (s : Str) (u : Tree), (s, u) ∈ ms ↔ ∃ k v, (k, v) ∈ kvs ∧ k.text = s ∧ v.sortedTree = some u := by
  simp only [sortedTree, Option.bind_eq_bind, Option.bind_eq_some_iff] at h
  rcases h with ⟨kts, hkts, h⟩
  split at h
  next =>
    cases h
    refine ⟨_, rfl, fun k v hkv => sortedTree_of_mem hkts hkv, fun s u => ?_⟩
    have hperm : (sortItems kts).Perm kts := List.perm_insertionSort _ kts
    simp only [List.mem_map, Prod.mk.injEq, Prod.exists]
    constructor
    . rintro ⟨k, u', hmem, rfl, rfl⟩
      rcases (sortedMembers_iff hkts k u').mp (hperm.mem_iff.mp hmem) with ⟨v, hv, hu⟩
      exact ⟨k, v, hv, rfl, hu⟩
    . rintro ⟨k, v, hv, rfl, hu⟩
      exact ⟨k, u, hperm.mem_iff.mpr ((sortedMembers_iff hkts k u).mpr ⟨v, hv, hu⟩), rfl, rfl⟩
  next => cases h

theorem eq_dict_of_object {w : Obj} {u : Tree} {ms : List (Str × Tree)} (hw : w.sortedTree = some u)
    (hu : u.join = .object ms)
    : ∃ kws, w = dict kws := by
  cases w with
  | dict kws => exact ⟨kws, rfl⟩
  | none =>
    cases hw
    cases hu
  | bool b =>
    cases hw
    cases b <;> cases hu
  | int n =>
    cases hw
    cases hu
  | float x =>
    cases hw
    rw [join_floatTree] at hu
    cases x <;> cases hu
  | str s =>
    cases hw
    cases hu
  | list vs =>
    rcases Option.map_eq_some_iff.mp hw with ⟨ts, _, rfl⟩
    cases hu

/-- An object that is written like a dictionary is one, and has its members. -/
theorem Alike.dict {kvs : List (Key × Obj)} {w : Obj} (h : Alike (dict kvs) w)
    : ∃ kws, w = .dict kws ∧ ∀ k v, (k, v) ∈ kvs → ∃ l u, (l, u) ∈ kws ∧ join l.text = join k.text ∧ Alike v u := by
  rcases h with ⟨t, t', ht, ht', hjoin⟩
  rcases sortedTree_dict ht with ⟨ms, rfl, htrees, hms⟩
  rw [Tree.join, joinMembers_eq] at hjoin
  rcases eq_dict_of_object ht' hjoin.symm with ⟨kws, rfl⟩
  rcases sortedTree_dict ht' with ⟨ms', rfl, _, hms'⟩
  rw [Tree.join, joinMembers_eq] at hjoin
  refine ⟨kws, rfl, fun k v hkv => ?_⟩
  rcases htrees k v hkv with ⟨u, hu⟩
  have hmem : (k.text, u) ∈ ms := (hms k.text u).mpr ⟨k, v, hkv, rfl, hu⟩
  have hmapped := List.mem_map_of_mem (f := fun m : Str × Tree => (join m.1, m.2.join)) hmem
  rw [Tree.object.inj hjoin, List.mem_map] at hmapped
  rcases hmapped with ⟨⟨s, u'⟩, hmem', heq⟩
  rcases (hms' s u').mp hmem' with ⟨l, w, hlw, rfl, hw⟩
  rw [Prod.mk.injEq] at heq
  exact ⟨l, w, hlw, heq.1, u, u', hu, hw, heq.2.symm⟩

theorem Alike.str {s : Str} {w : Obj} (h : Alike (str s) w) : ∃ s', w = .str s' ∧ join s' = join s := by
  rcases h with ⟨t, u, ht, hu, hjoin⟩
  cases ht
  cases w with
  | str s' =>
    cases hu
    exact ⟨s', rfl, (Tree.string.inj hjoin).symm⟩
  | none =>
    cases hu
    cases hjoin
  | bool b =>
    cases hu
    cases b <;> cases hjoin
  | int n =>
    cases hu
    cases hjoin
  | float x =>
    cases hu
    rw [join_floatTree] at hjoin
    cases x <;> cases hjoin
  | list vs =>
    rcases Option.map_eq_some_iff.mp hu with ⟨ts, _, rfl⟩
    cases hjoin
  | dict kws =>
    rcases sortedTree_dict hu with ⟨ms, rfl, _, _⟩
    cases hjoin

/- What is read. -/

/-- The object is one that a text is read as, the surrogate pairs of which are joined. -/
def Loaded (v : Obj) : Prop :=
  ∃ t : Tree, t.join = t ∧ v = decode t

theorem Loaded.str {s : Str} (h : Loaded (str s)) : join s = s := by
  rcases h with ⟨t, ht, hdecode⟩
  cases t with
  | string s' =>
    cases hdecode
    exact Tree.string.inj ht
  | word w => cases w <;> cases hdecode
  | number n =>
    rw [decode, decodeNumber] at hdecode
    split at hdecode <;> cases hdecode
  | array ts => cases hdecode
  | object ms =>
    rw [decode, dictOf] at hdecode
    cases hdecode

theorem mem_foldl_set {K V : Type} [DecidableEq K] (kvs d : List (K × V)) {p : K × V}
    (h : p ∈ kvs.foldl (fun d kv => Dict.set d kv.1 kv.2) d)
    : p ∈ d ∨ p ∈ kvs := by
  induction kvs generalizing d with
  | nil => exact .inl h
  | cons kv kvs ih =>
    rcases ih _ h with hset | hmem
    . rcases Dict.mem_set hset with rfl | hd
      . exact .inr (List.mem_cons_self ..)
      . exact .inl hd
    . exact .inr (List.mem_cons_of_mem _ hmem)

/-- The keys of a dictionary that is read are strings, each found with its own value. -/
theorem Loaded.dict {kws : List (Key × Obj)} (h : Loaded (dict kws)) {k : Key} {w : Obj} (hmem : (k, w) ∈ kws)
    : ∃ s, k = .str s ∧ join s = s ∧ kws.lookup (.str s) = some w ∧ Loaded w := by
  rcases h with ⟨t, ht, hdecode⟩
  cases t with
  | object ms =>
    rw [decode, dictOf, Obj.dict.injEq] at hdecode
    subst hdecode
    rcases List.mem_map.mp hmem with ⟨⟨s, w'⟩, hset, heq⟩
    rw [Prod.mk.injEq] at heq
    rcases heq with ⟨rfl, rfl⟩
    have hsource := (mem_foldl_set _ _ hset).resolve_left List.not_mem_nil
    rw [decodeMembers_eq, List.mem_map] at hsource
    rcases hsource with ⟨⟨s', u⟩, hu, heq⟩
    rw [Prod.mk.injEq] at heq
    rcases heq with ⟨rfl, rfl⟩
    have hjoin := Tree.object.inj ht
    rw [joinMembers_eq] at hjoin
    have hsame := List.map_inj_left.mp (hjoin.trans (List.map_id ms).symm) (s', u) hu
    rw [id, Prod.mk.injEq] at hsame
    refine ⟨s', rfl, hsame.1, ?_, u, hsame.2, rfl⟩
    apply Dict.lookup_of_mem ?_ hmem
    have hnodup := Dict.nodup_foldl_set (decodeMembers ms)
    rw [List.map_map]
    have hinj : Function.Injective Key.str := fun _ _ heq => Key.str.inj heq
    have hstr := hnodup.map hinj
    rw [List.map_map] at hstr
    exact hstr
  | string s' => cases hdecode
  | word w => cases w <;> cases hdecode
  | number n =>
    rw [decode, decodeNumber] at hdecode
    split at hdecode <;> cases hdecode
  | array ts => cases hdecode

end Obj

end Python
