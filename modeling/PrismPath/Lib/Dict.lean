import Mathlib.Data.List.Basic

/-!
This module contains association lists that behave like insertion ordered dictionaries: setting a key that
is there replaces its value in place, setting a new one appends it.
-/

namespace Dict

variable {K V : Type} [DecidableEq K]

def set (d : List (K × V)) (k : K) (v : V) : List (K × V) :=
  match d with
  | [] => [(k, v)]
  | (k', v') :: d => if k' = k then (k, v) :: d else (k', v') :: set d k v

theorem lookup_cons_eq [BEq K] [LawfulBEq K] (d : List (K × V)) (k k' : K) (v : V)
    : ((k', v) :: d).lookup k = if k' = k then some v else d.lookup k := by
  rw [List.lookup_cons]
  by_cases h : k' = k
  . simp [h]
  . simp [h, beq_eq_false_iff_ne.mpr (Ne.symm h)]

theorem lookup_set [BEq K] [LawfulBEq K] (d : List (K × V)) (k k' : K) (v : V)
    : (set d k v).lookup k' = if k = k' then some v else d.lookup k' := by
  induction d with
  | nil => simp [set, lookup_cons_eq]
  | cons p d ih =>
    rcases p with ⟨k'', v'⟩
    by_cases heq : k'' = k
    . simp only [set, heq, if_true, lookup_cons_eq]
      split <;> rfl
    . simp only [set, heq, if_false, lookup_cons_eq, ih]
      by_cases hk : k'' = k'
      . subst hk
        simp [Ne.symm heq]
      . simp [hk]

@[simp]
theorem lookup_set_self [BEq K] [LawfulBEq K] (d : List (K × V)) (k : K) (v : V)
    : (set d k v).lookup k = some v := by
  rw [lookup_set, if_pos rfl]

theorem lookup_set_of_ne [BEq K] [LawfulBEq K] (d : List (K × V)) {k k' : K} (v : V) (h : k' ≠ k)
    : (set d k v).lookup k' = d.lookup k' := by
  rw [lookup_set, if_neg (Ne.symm h)]

theorem lookup_eq_none [BEq K] [LawfulBEq K] {d : List (K × V)} {k : K} (h : k ∉ d.map Prod.fst)
    : d.lookup k = none := by
  induction d with
  | nil => rfl
  | cons p d ih =>
    rcases p with ⟨k', v⟩
    simp only [List.map_cons, List.mem_cons, not_or] at h
    rw [lookup_cons_eq, if_neg (Ne.symm h.1), ih h.2]

omit [DecidableEq K] in
theorem mem_of_lookup [BEq K] [LawfulBEq K] {d : List (K × V)} {k : K} {v : V} (h : d.lookup k = some v)
    : (k, v) ∈ d := by
  rcases List.lookup_eq_some_iff.mp h with ⟨before, after, rfl, _⟩
  exact List.mem_append_right _ List.mem_cons_self

omit [DecidableEq K] in
theorem lookup_of_mem [BEq K] [LawfulBEq K] {d : List (K × V)} (hnodup : (d.map Prod.fst).Nodup) {k : K} {v : V}
    (h : (k, v) ∈ d)
    : d.lookup k = some v := by
  induction d with
  | nil => cases h
  | cons p d ih =>
    rw [List.map_cons, List.nodup_cons] at hnodup
    rw [List.lookup_cons]
    rcases List.mem_cons.mp h with rfl | hmem
    . rw [beq_self_eq_true]
    . have hne : k ≠ p.1 := fun heq => hnodup.1 (heq ▸ List.mem_map_of_mem hmem)
      rw [beq_eq_false_iff_ne.mpr hne]
      exact ih hnodup.2 hmem

theorem lookup_reverse [BEq K] [LawfulBEq K] {d : List (K × V)} (h : (d.map Prod.fst).Nodup) (k : K)
    : d.reverse.lookup k = d.lookup k := by
  induction d with
  | nil => rfl
  | cons p d ih =>
    rcases p with ⟨k', v⟩
    rw [List.map_cons, List.nodup_cons] at h
    rw [List.reverse_cons, List.lookup_append, ih h.2, lookup_cons_eq, lookup_cons_eq, List.lookup_nil]
    split
    next heq =>
      subst heq
      rw [lookup_eq_none h.1]
      rfl
    next => exact Option.or_none

theorem mem_set {d : List (K × V)} {k : K} {v : V} {p : K × V} (h : p ∈ set d k v)
    : p = (k, v) ∨ p ∈ d := by
  induction d with
  | nil => exact .inl (List.mem_singleton.mp h)
  | cons q d ih =>
    rcases q with ⟨k', v'⟩
    rw [set] at h
    split at h
    . rcases List.mem_cons.mp h with h | h
      . exact .inl h
      . exact .inr (List.mem_cons_of_mem _ h)
    . rcases List.mem_cons.mp h with h | h
      . exact .inr (h ▸ List.mem_cons_self)
      . exact (ih h).imp_right (List.mem_cons_of_mem _)

theorem nodup_set {d : List (K × V)} (h : (d.map Prod.fst).Nodup) (k : K) (v : V)
    : ((set d k v).map Prod.fst).Nodup := by
  induction d with
  | nil => simp [set]
  | cons q d ih =>
    rcases q with ⟨k', v'⟩
    rw [List.map_cons, List.nodup_cons] at h
    rw [set]
    split
    . next heq =>
      rw [List.map_cons, List.nodup_cons, ← heq]
      exact h
    . next hne =>
      rw [List.map_cons, List.nodup_cons]
      refine ⟨fun hmem => ?_, ih h.2⟩
      rcases List.mem_map.mp hmem with ⟨p, hp, hfst⟩
      rcases mem_set hp with rfl | hp
      . exact hne hfst.symm
      . exact h.1 (List.mem_map.mpr ⟨p, hp, hfst⟩)

theorem nodup_foldl_set (kvs : List (K × V))
    : ((kvs.foldl (fun d kv => set d kv.1 kv.2) []).map Prod.fst).Nodup := by
  have hfold {d : List (K × V)} (hd : (d.map Prod.fst).Nodup)
      : ((kvs.foldl (fun d kv => set d kv.1 kv.2) d).map Prod.fst).Nodup := by
    induction kvs generalizing d with
    | nil => exact hd
    | cons kv kvs ih => exact ih (nodup_set hd kv.1 kv.2)
  exact hfold List.nodup_nil

/-- Of several values of a key the last one is kept. -/
theorem lookup_foldl_set [BEq K] [LawfulBEq K] (kvs : List (K × V)) (k : K)
    : (kvs.foldl (fun d kv => set d kv.1 kv.2) []).lookup k = kvs.reverse.lookup k := by
  have hfold (d : List (K × V))
      : (kvs.foldl (fun d kv => set d kv.1 kv.2) d).lookup k = (kvs.reverse.lookup k).or (d.lookup k) := by
    induction kvs generalizing d with
    | nil => rfl
    | cons kv kvs ih =>
      rw [List.foldl_cons, ih, lookup_set, List.reverse_cons, List.lookup_append, lookup_cons_eq]
      cases kvs.reverse.lookup k with
      | some v => rfl
      | none =>
        split <;> rfl
  rw [hfold]
  exact Option.or_none

/-- Setting a key of a dictionary that is kept in the order of its keys. -/
def setSorted [LT K] [DecidableLT K] (d : List (K × V)) (k : K) (v : V) : List (K × V) :=
  match d with
  | [] => [(k, v)]
  | (k', v') :: d =>
    if k' = k then
      (k, v) :: d
    else if k < k' then
      (k, v) :: (k', v') :: d
    else
      (k', v') :: setSorted d k v

theorem lookup_setSorted [LT K] [DecidableLT K] (d : List (K × V)) (k k' : K) (v : V)
    : (setSorted d k v).lookup k' = if k = k' then some v else d.lookup k' := by
  induction d with
  | nil => simp [setSorted, lookup_cons_eq]
  | cons p d ih =>
    rcases p with ⟨k'', v'⟩
    by_cases heq : k'' = k
    . simp only [setSorted, heq, if_true, lookup_cons_eq]
      split <;> rfl
    . by_cases hlt : k < k''
      . simp only [setSorted, heq, hlt, if_true, if_false, lookup_cons_eq]
      . simp only [setSorted, heq, hlt, if_false, lookup_cons_eq, ih]
        by_cases hk : k'' = k'
        . subst hk
          simp [Ne.symm heq]
        . simp [hk]

/-- A dictionary with a value for each key of a list. -/
theorem lookup_map_mk (ks : List K) (f : K → V) (k : K)
    : (ks.map fun k => (k, f k)).lookup k = if k ∈ ks then some (f k) else none := by
  induction ks with
  | nil => simp
  | cons k' ks ih =>
    rw [List.map_cons, lookup_cons_eq, ih]
    by_cases h : k' = k
    . subst h
      simp
    . simp [h, Ne.symm h]

/-- A dictionary built from a list, one entry for each element, or `none` if an entry fails. -/
theorem lookup_of_mapM {A : Type} {as : List A} {key : A → K} {f : A → Option V} {d : List (K × V)}
    (h : (as.mapM fun a => (f a).map fun v => (key a, v)) = some d) (hnodup : (as.map key).Nodup)
    {a : A} (ha : a ∈ as)
    : ∃ v, f a = some v ∧ d.lookup (key a) = some v := by
  induction as generalizing d with
  | nil => simp at ha
  | cons b as ih =>
    simp only [List.mapM_cons, Option.pure_def, Option.bind_eq_bind, Option.bind_eq_some_iff,
      Option.map_eq_some_iff] at h
    rcases h with ⟨-, ⟨v, hv, rfl⟩, d', hd', hd⟩
    cases hd
    rw [List.map_cons, List.nodup_cons] at hnodup
    rw [lookup_cons_eq]
    rcases List.mem_cons.mp ha with rfl | ha
    . exact ⟨v, hv, by simp⟩
    . have hne : key b ≠ key a := by
        intro heq
        exact hnodup.1 (heq ▸ List.mem_map_of_mem ha)
      rw [if_neg hne]
      exact ih hd' hnodup.2 ha

omit [DecidableEq K] in
theorem keys_of_mapM {A : Type} {as : List A} {key : A → K} {f : A → Option V} {d : List (K × V)}
    (h : (as.mapM fun a => (f a).map fun v => (key a, v)) = some d)
    : d.map Prod.fst = as.map key := by
  induction as generalizing d with
  | nil =>
    cases h
    rfl
  | cons b as ih =>
    simp only [List.mapM_cons, Option.pure_def, Option.bind_eq_bind, Option.bind_eq_some_iff,
      Option.map_eq_some_iff] at h
    rcases h with ⟨-, ⟨v, hv, rfl⟩, d', hd', hd⟩
    cases hd
    simp [ih hd']

/-- Dropping the keys without a value. -/
theorem lookup_filterMap_some {d : List (K × Option V)} (hnodup : (d.map Prod.fst).Nodup) (k : K)
    : (d.filterMap fun p => p.2.map fun v => (p.1, v)).lookup k = (d.lookup k).join := by
  induction d with
  | nil => rfl
  | cons p d ih =>
    rcases p with ⟨k', v⟩
    rw [List.map_cons, List.nodup_cons] at hnodup
    rw [lookup_cons_eq]
    cases v with
    | some v =>
      simp only [List.filterMap_cons, Option.map_some, lookup_cons_eq]
      split
      . rfl
      . exact ih hnodup.2
    | none =>
      simp only [List.filterMap_cons, Option.map_none]
      rw [ih hnodup.2]
      split
      . next heq =>
        subst heq
        have : d.lookup k' = none := by
          rw [List.lookup_eq_none_iff]
          intro p hp
          simp only [bne_iff_ne, ne_eq]
          intro heq
          exact hnodup.1 (List.mem_map.mpr ⟨p, hp, heq.symm⟩)
        simp [this]
      . rfl

/-- Collecting the values of each key, in order. -/
def group [BEq K] [LawfulBEq K] (kvs : List (K × V)) : List (K × List V) :=
  kvs.foldl (fun d kv => set d kv.1 ((d.lookup kv.1).getD [] ++ [kv.2])) []

section

variable [BEq K] [LawfulBEq K]

theorem nodup_group (kvs : List (K × V))
    : ((group kvs).map Prod.fst).Nodup := by
  have hfold {d : List (K × List V)} (hd : (d.map Prod.fst).Nodup)
      : ((kvs.foldl (fun d kv => set d kv.1 ((d.lookup kv.1).getD [] ++ [kv.2])) d).map Prod.fst).Nodup := by
    induction kvs generalizing d with
    | nil => exact hd
    | cons kv kvs ih => exact ih (nodup_set hd _ _)
  exact hfold (by simp)

theorem lookup_group (kvs : List (K × V)) (k : K)
    : ((group kvs).lookup k).getD [] = (kvs.filter fun kv => kv.1 = k).map Prod.snd := by
  have hfold (d : List (K × List V))
      : ((kvs.foldl (fun d kv => set d kv.1 ((d.lookup kv.1).getD [] ++ [kv.2])) d).lookup k).getD []
          = (d.lookup k).getD [] ++ (kvs.filter fun kv => kv.1 = k).map Prod.snd := by
    induction kvs generalizing d with
    | nil => exact (List.append_nil _).symm
    | cons kv kvs ih =>
      rw [List.foldl_cons, ih, lookup_set, List.filter_cons]
      by_cases heq : kv.1 = k
      . rw [if_pos heq, if_pos (decide_eq_true heq), Option.getD_some, heq, List.append_assoc]
        rfl
      . rw [if_neg heq, if_neg (by simpa using heq)]
  rw [group, hfold]
  rfl

theorem mem_group {kvs : List (K × V)} {k : K} {vs : List V} (h : (k, vs) ∈ group kvs)
    : vs = (kvs.filter fun kv => kv.1 = k).map Prod.snd := by
  rw [← lookup_group, lookup_of_mem (nodup_group kvs) h]
  rfl

theorem mem_of_mem_group {kvs : List (K × V)} {k : K} {vs : List V} (h : (k, vs) ∈ group kvs) (v : V)
    : v ∈ vs ↔ (k, v) ∈ kvs := by
  rw [mem_group h, List.mem_map]
  constructor
  . rintro ⟨⟨k', v'⟩, hmem, rfl⟩
    rw [List.mem_filter, decide_eq_true_eq] at hmem
    rcases hmem with ⟨hmem, rfl⟩
    exact hmem
  . exact fun hmem => ⟨(k, v), List.mem_filter.mpr ⟨hmem, decide_eq_true rfl⟩, rfl⟩

theorem exists_mem_group {kvs : List (K × V)} {k : K} {v : V} (h : (k, v) ∈ kvs)
    : ∃ vs, (k, vs) ∈ group kvs ∧ v ∈ vs := by
  have hvs : v ∈ ((group kvs).lookup k).getD [] := by
    rw [lookup_group]
    exact List.mem_map.mpr ⟨(k, v), List.mem_filter.mpr ⟨h, decide_eq_true rfl⟩, rfl⟩
  cases hlookup : (group kvs).lookup k with
  | none =>
    rw [hlookup] at hvs
    cases hvs
  | some vs =>
    rw [hlookup] at hvs
    exact ⟨vs, mem_of_lookup hlookup, hvs⟩

end

end Dict
