import Mathlib.Data.List.Sort
import PrismPath.Lib.Dict

/-!
This module contains maps that keep their keys in order: inserting replaces the value of a key that is there.
-/

namespace OrderedMap

variable {K V : Type} [DecidableEq K] (lt : K → K → Bool)

def insert (k : K) (v : V) : List (K × V) → List (K × V)
  | [] => [(k, v)]
  | (k', v') :: m =>
    if k = k' then
      (k', v) :: m
    else if lt k k' then
      (k, v) :: (k', v') :: m
    else
      (k', v') :: insert k v m

/-- The members one after the other. -/
def ofList (kvs : List (K × V)) : List (K × V) :=
  kvs.foldl (fun m kv => insert lt kv.1 kv.2 m) []

def Sorted (m : List (K × V)) : Prop :=
  m.Pairwise fun a b => lt a.1 b.1 = true

variable {lt}

theorem insert_map {W : Type} (f : V → W) (k : K) (v : V) (m : List (K × V))
    : insert lt k (f v) (m.map fun kv => (kv.1, f kv.2)) = (insert lt k v m).map fun kv => (kv.1, f kv.2) := by
  induction m with
  | nil => rfl
  | cons kv m ih =>
    rcases kv with ⟨k', v'⟩
    simp only [List.map_cons, insert, ih]
    split
    . rfl
    . split <;> rfl

theorem foldl_insert_map {W : Type} (f : V → W) (kvs m : List (K × V))
    : (kvs.map fun kv => (kv.1, f kv.2)).foldl (fun m kv => insert lt kv.1 kv.2 m) (m.map fun kv => (kv.1, f kv.2))
        =
      (kvs.foldl (fun m kv => insert lt kv.1 kv.2 m) m).map fun kv => (kv.1, f kv.2) := by
  induction kvs generalizing m with
  | nil => rfl
  | cons kv kvs ih => simp only [List.map_cons, List.foldl_cons, insert_map, ih]

theorem ofList_map {W : Type} (f : V → W) (kvs : List (K × V))
    : ofList lt (kvs.map fun kv => (kv.1, f kv.2)) = (ofList lt kvs).map fun kv => (kv.1, f kv.2) :=
  foldl_insert_map f kvs []

theorem perm_insert {m : List (K × V)} {k : K} (h : k ∉ m.map Prod.fst) (v : V)
    : (insert lt k v m).Perm ((k, v) :: m) := by
  induction m with
  | nil => exact .refl _
  | cons kv m ih =>
    rcases kv with ⟨k', v'⟩
    simp only [List.map_cons, List.mem_cons, not_or] at h
    rw [insert, if_neg h.1]
    split
    . exact .refl _
    . exact ((ih h.2).cons _).trans (.swap _ _ _)

section Order

variable (htrans : ∀ a b c, lt a b = true → lt b c = true → lt a c = true)
  (htotal : ∀ a b, a ≠ b → lt a b = false → lt b a = true)

include htrans htotal

theorem sorted_insert {m : List (K × V)} (hm : Sorted lt m) {k : K} (h : k ∉ m.map Prod.fst) (v : V)
    : Sorted lt (insert lt k v m) := by
  induction m with
  | nil => exact List.pairwise_singleton _ _
  | cons kv m ih =>
    rcases kv with ⟨k', v'⟩
    simp only [List.map_cons, List.mem_cons, not_or] at h
    rw [Sorted, List.pairwise_cons] at hm
    rw [insert, if_neg h.1]
    split
    next hlt =>
      refine List.pairwise_cons.mpr ⟨fun b hb => ?_, List.pairwise_cons.mpr hm⟩
      rcases List.mem_cons.mp hb with rfl | hb
      . exact hlt
      . exact htrans _ _ _ hlt (hm.1 b hb)
    next hlt =>
      refine List.pairwise_cons.mpr ⟨fun b hb => ?_, ih hm.2 h.2⟩
      rcases List.mem_cons.mp ((perm_insert h.2 v).mem_iff.mp hb) with rfl | hb
      . exact htotal _ _ h.1 (by simpa using hlt)
      . exact hm.1 b hb

theorem foldl_insert {m : List (K × V)} (hm : Sorted lt m) (kvs : List (K × V))
    (h : ((m ++ kvs).map Prod.fst).Nodup)
    : Sorted lt (kvs.foldl (fun m kv => insert lt kv.1 kv.2 m) m)
        ∧ (kvs.foldl (fun m kv => insert lt kv.1 kv.2 m) m).Perm (m ++ kvs) := by
  induction kvs generalizing m with
  | nil => exact ⟨hm, by simp⟩
  | cons kv kvs ih =>
    have hfresh : kv.1 ∉ m.map Prod.fst := by
      rw [List.map_append, List.map_cons, List.nodup_append] at h
      exact fun hmem => h.2.2 kv.1 hmem kv.1 (List.mem_cons_self ..) rfl
    have happend : (insert lt kv.1 kv.2 m ++ kvs).Perm (m ++ kv :: kvs) :=
      ((perm_insert hfresh kv.2).append_right kvs).trans List.perm_middle.symm
    rcases ih (sorted_insert htrans htotal hm hfresh kv.2) ((happend.map Prod.fst).nodup_iff.mpr h) with
      ⟨hsorted, hperm⟩
    exact ⟨hsorted, hperm.trans happend⟩

theorem perm_ofList {kvs : List (K × V)} (h : (kvs.map Prod.fst).Nodup)
    : (ofList lt kvs).Perm kvs :=
  (foldl_insert htrans htotal (m := []) List.Pairwise.nil kvs h).2

/-- The map has its members back, given the order of their keys. -/
theorem ofList_inj {kvs kvs' : List (K × V)} (h : (kvs.map Prod.fst).Nodup)
    (hkeys : kvs.map Prod.fst = kvs'.map Prod.fst) (heq : ofList lt kvs = ofList lt kvs')
    : kvs = kvs' := by
  have hperm : kvs.Perm kvs' := by
    refine (perm_ofList htrans htotal h).symm.trans ?_
    rw [heq]
    exact perm_ofList htrans htotal (hkeys ▸ h)
  have hlen : kvs.length = kvs'.length := hperm.length_eq
  refine List.ext_getElem hlen fun i hi hi' => ?_
  have hkey : kvs[i].1 = kvs'[i].1 := by
    have := congrArg (fun ks => ks[i]?) hkeys
    simpa [hi, hi'] using this
  exact List.inj_on_of_nodup_map (hkeys ▸ h) (hperm.mem_iff.mp (List.getElem_mem hi)) (List.getElem_mem hi') hkey

/-- With no key twice the map is the members sorted. -/
theorem ofList_eq (hirrefl : ∀ a, lt a a = false) {kvs sorted : List (K × V)} (hnodup : (kvs.map Prod.fst).Nodup)
    (hperm : sorted.Perm kvs) (hsorted : sorted.Pairwise fun a b => lt b.1 a.1 = false)
    : ofList lt kvs = sorted := by
  rcases foldl_insert htrans htotal (m := []) List.Pairwise.nil kvs hnodup with ⟨hstrict, hperm'⟩
  have hstrict' : Sorted lt sorted := by
    have hkeys : sorted.Pairwise fun a b => a.1 ≠ b.1 :=
      List.pairwise_map.mp ((hperm.map Prod.fst).nodup_iff.mpr hnodup)
    exact hsorted.imp₂ (fun a b hle hne => htotal _ _ hne.symm hle) hkeys
  refine (hperm'.trans hperm.symm).eq_of_pairwise (fun a b _ _ hab hba => ?_) hstrict hstrict'
  have := htrans _ _ _ hab hba
  rw [hirrefl] at this
  cases this

end Order

/- Lists in which a key is there more than once. -/

theorem lookup_insert [BEq K] [LawfulBEq K] (k k' : K) (v : V) (m : List (K × V))
    : (insert lt k v m).lookup k' = if k = k' then some v else m.lookup k' := by
  induction m with
  | nil => rw [insert, Dict.lookup_cons_eq]
  | cons kv m ih =>
    rcases kv with ⟨l, w⟩
    rw [insert]
    split
    next heq =>
      subst heq
      simp only [Dict.lookup_cons_eq]
      split <;> rfl
    next hne =>
      split
      next => simp only [Dict.lookup_cons_eq]
      next =>
        simp only [Dict.lookup_cons_eq, ih]
        by_cases hl : l = k'
        . rw [if_pos hl, if_neg (fun hk => hne (hk.trans hl.symm)), if_pos hl]
        . rw [if_neg hl, if_neg hl]

theorem lookup_ofList [BEq K] [LawfulBEq K] (kvs : List (K × V)) (k : K)
    : (ofList lt kvs).lookup k = kvs.reverse.lookup k := by
  have hfold (m : List (K × V))
      : (kvs.foldl (fun m kv => insert lt kv.1 kv.2 m) m).lookup k = (kvs.reverse.lookup k).or (m.lookup k) := by
    induction kvs generalizing m with
    | nil => rfl
    | cons kv kvs ih =>
      rw [List.foldl_cons, ih, lookup_insert, List.reverse_cons, List.lookup_append, Dict.lookup_cons_eq]
      cases kvs.reverse.lookup k with
      | some v => rfl
      | none =>
        split <;> rfl
  rw [ofList, hfold]
  exact Option.or_none

section Order

variable (htrans : ∀ a b c, lt a b = true → lt b c = true → lt a c = true)
  (htotal : ∀ a b, a ≠ b → lt a b = false → lt b a = true) (hirrefl : ∀ a, lt a a = false)

theorem mem_keys_insert {k k' : K} {v : V} {m : List (K × V)} (h : k' ∈ (insert lt k v m).map Prod.fst)
    : k' = k ∨ k' ∈ m.map Prod.fst := by
  induction m with
  | nil => exact .inl (List.mem_singleton.mp h)
  | cons kv m ih =>
    rcases kv with ⟨l, w⟩
    rw [insert] at h
    split at h
    next heq => exact .inr (heq ▸ h)
    next =>
      split at h
      next => exact List.mem_cons.mp h
      next =>
        rcases List.mem_cons.mp h with h | h
        . exact .inr (h ▸ List.mem_cons_self)
        . exact (ih h).imp_right (List.mem_cons_of_mem _)

include htotal htrans

theorem sorted_insert_any {m : List (K × V)} (hm : Sorted lt m) (k : K) (v : V)
    : Sorted lt (insert lt k v m) := by
  induction m with
  | nil => exact List.pairwise_singleton _ _
  | cons kv m ih =>
    rcases kv with ⟨l, w⟩
    rw [Sorted, List.pairwise_cons] at hm
    rw [insert]
    split
    next => exact List.pairwise_cons.mpr ⟨hm.1, hm.2⟩
    next hne =>
      split
      next hlt =>
        refine List.pairwise_cons.mpr ⟨fun b hb => ?_, List.pairwise_cons.mpr hm⟩
        rcases List.mem_cons.mp hb with rfl | hb
        . exact hlt
        . exact htrans _ _ _ hlt (hm.1 b hb)
      next hlt =>
        refine List.pairwise_cons.mpr ⟨fun b hb => ?_, ih hm.2⟩
        rcases mem_keys_insert (List.mem_map_of_mem hb) with heq | hmem
        . rw [heq]
          exact htotal _ _ hne (by simpa using hlt)
        . rcases List.mem_map.mp hmem with ⟨b', hb', heq⟩
          rw [← heq]
          exact hm.1 b' hb'

theorem sorted_ofList (kvs : List (K × V))
    : Sorted lt (ofList lt kvs) := by
  have hfold {m : List (K × V)} (hm : Sorted lt m)
      : Sorted lt (kvs.foldl (fun m kv => insert lt kv.1 kv.2 m) m) := by
    induction kvs generalizing m with
    | nil => exact hm
    | cons kv kvs ih => exact ih (sorted_insert_any htrans htotal hm kv.1 kv.2)
  exact hfold .nil

omit htotal in
include hirrefl in
/-- Two maps with the same value at every key are the same. -/
theorem eq_of_lookup [BEq K] [LawfulBEq K] {m m' : List (K × V)} (hm : Sorted lt m) (hm' : Sorted lt m')
    (h : ∀ k, m.lookup k = m'.lookup k)
    : m = m' := by
  have hbelow {k : K} {v : V} {l : List (K × V)} (hl : Sorted lt ((k, v) :: l)) : l.lookup k = none := by
    refine Dict.lookup_eq_none fun hmem => ?_
    rcases List.mem_map.mp hmem with ⟨b, hb, heq⟩
    have hlt := (List.pairwise_cons.mp hl).1 b hb
    rw [heq, hirrefl] at hlt
    cases hlt
  induction m generalizing m' with
  | nil =>
    cases m' with
    | nil => rfl
    | cons kv m' =>
      have hk := h kv.1
      rw [List.lookup_nil, Dict.lookup_cons_eq, if_pos rfl] at hk
      cases hk
  | cons kv m ih =>
    rcases kv with ⟨k, v⟩
    cases m' with
    | nil =>
      have hk := h k
      rw [List.lookup_nil, Dict.lookup_cons_eq, if_pos rfl] at hk
      cases hk
    | cons kv' m' =>
      rcases kv' with ⟨k', v'⟩
      have hkey : k = k' := by
        by_contra hne
        -- each head is found behind the other, so each is below the other
        have hk := h k
        rw [Dict.lookup_cons_eq, if_pos rfl, Dict.lookup_cons_eq, if_neg (Ne.symm hne)] at hk
        have hk' := h k'
        rw [Dict.lookup_cons_eq, if_neg hne, Dict.lookup_cons_eq, if_pos rfl] at hk'
        have hlt := (List.pairwise_cons.mp hm').1 _ (Dict.mem_of_lookup hk.symm)
        have hlt' := (List.pairwise_cons.mp hm).1 _ (Dict.mem_of_lookup hk')
        have hself := htrans _ _ _ hlt hlt'
        rw [hirrefl] at hself
        cases hself
      subst hkey
      have hvalue := h k
      rw [Dict.lookup_cons_eq, if_pos rfl, Dict.lookup_cons_eq, if_pos rfl, Option.some.injEq] at hvalue
      subst hvalue
      congr 1
      refine ih (List.pairwise_cons.mp hm).2 (List.pairwise_cons.mp hm').2 fun l => ?_
      by_cases hl : k = l
      . rw [← hl, hbelow hm, hbelow hm']
      . have hlookup := h l
        rwa [Dict.lookup_cons_eq, if_neg hl, Dict.lookup_cons_eq, if_neg hl] at hlookup

include hirrefl in
/-- Setting the members one after the other first, so that no key is there twice, makes the same map. -/
theorem ofList_foldl_set [BEq K] [LawfulBEq K] (kvs : List (K × V))
    : ofList lt (kvs.foldl (fun d kv => Dict.set d kv.1 kv.2) []) = ofList lt kvs := by
  refine eq_of_lookup htrans hirrefl (sorted_ofList htrans htotal _) (sorted_ofList htrans htotal _) fun k => ?_
  rw [lookup_ofList, lookup_ofList, Dict.lookup_reverse (Dict.nodup_foldl_set kvs), Dict.lookup_foldl_set]

end Order

end OrderedMap
