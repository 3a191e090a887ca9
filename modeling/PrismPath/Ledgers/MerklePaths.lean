import PrismPath.Ledgers.LedgerOts

/-!
This module contains that the path of each leaf leads to the root, and that a root stands for one list of leaves.
-/

namespace LedgerOts

variable {sha256 : Bytes → Bytes}

/- The path of a leaf. -/

theorem path_succ {fuel : ℕ} {layer : List Bytes} (h : 1 < layer.length) (idx : ℕ)
    : path (layers sha256 (fuel + 1) layer) idx
        =
      (if idx % 2 = 0 then (Side.right, (evened layer).getD (idx + 1) [])
        else (Side.left, (evened layer).getD (idx - 1) []))
        :: path (layers sha256 fuel (parents sha256 (evened layer))) (idx / 2) := by
  rcases @layers_eq_cons sha256 fuel (parents sha256 (evened layer)) with ⟨rest, hrest⟩
  rw [layers, if_pos h, hrest]
  rfl

theorem path_of_short {fuel : ℕ} {layer : List Bytes} (h : ¬1 < layer.length) (idx : ℕ)
    : path (layers sha256 fuel layer) idx = [] := by
  cases fuel with
  | zero => rfl
  | succ fuel =>
    rw [layers, if_neg h]
    rfl

theorem map_fst_path (sha256 : Bytes → Bytes) (fuel : ℕ) (layer : List Bytes) (idx : ℕ)
    : (path (layers sha256 fuel layer) idx).map Prod.fst = sides fuel layer.length idx := by
  induction fuel generalizing layer idx with
  | zero => rfl
  | succ fuel ih =>
    rw [sides]
    by_cases hlen : 1 < layer.length
    . rw [path_succ hlen, if_pos hlen, List.map_cons, ih, length_parents_evened]
      split <;> rfl
    . rw [path_of_short hlen, if_neg hlen]
      rfl

/-- A leaf and its neighbour are what is hashed for their parent. -/
theorem getElem?_parents {layer : List Bytes} {idx : ℕ} (hidx : idx < layer.length)
    : (parents sha256 (evened layer))[idx / 2]?
        =
      some (nodeHash sha256 (payload layer[idx]
        (if idx % 2 = 0 then (Side.right, (evened layer).getD (idx + 1) [])
          else (Side.left, (evened layer).getD (idx - 1) [])))) := by
  have hpair : 2 * (idx / 2) + 1 < (evened layer).length := by
    rw [length_evened]
    omega
  have hleaf : (evened layer).getD idx [] = layer[idx] := by
    rw [List.getD_eq_getElem?_getD, getElem?_evened hidx, List.getElem?_eq_getElem hidx, Option.getD_some]
  have hget {i : ℕ} (hi : i < (evened layer).length) : (evened layer)[i] = (evened layer).getD i [] := by
    rw [List.getD_eq_getElem?_getD, List.getElem?_eq_getElem hi, Option.getD_some]
  rw [parents_eq, List.getElem?_map, getElem?_payloads hpair, Option.map_some, nodeHash, hget, hget, ← hleaf]
  split
  . next heven =>
    have hplace : 2 * (idx / 2) = idx := by omega
    rw [hplace, payload]
  . next hodd =>
    have hplace : 2 * (idx / 2) + 1 = idx := by omega
    have hbefore : 2 * (idx / 2) = idx - 1 := by omega
    rw [hplace, hbefore, payload]

/-- The path of a leaf leads from it to the root. -/
theorem climb_path {fuel : ℕ} {layer : List Bytes} {idx : ℕ} (hidx : idx < layer.length) (hfuel : layer.length ≤ fuel)
    : treeRoot sha256 fuel layer = some (climb sha256 layer[idx] (path (layers sha256 fuel layer) idx)) := by
  induction fuel generalizing layer idx with
  | zero => omega
  | succ fuel ih =>
    by_cases hlen : 1 < layer.length
    . have hidx' : idx / 2 < (parents sha256 (evened layer)).length := by
        rw [length_parents_evened]
        omega
      have hparent := @getElem?_parents sha256 _ _ hidx
      rw [List.getElem?_eq_getElem hidx', Option.some.injEq] at hparent
      rw [treeRoot_succ hlen, ih hidx' (by rw [length_parents_evened]; omega), path_succ hlen, climb, hparent]
    . rcases layer with _ | ⟨leaf, _ | ⟨next, rest⟩⟩
      . simp at hidx
      . have hzero : idx = 0 := by simpa using hidx
        subst hzero
        rfl
      . simp at hlen

/- The list of leaves. -/

theorem payloads_inj {layer layer' : List Bytes} (hlengths : layer.map List.length = layer'.map List.length)
    (heven : layer.length % 2 = 0) (h : payloads layer = payloads layer')
    : layer = layer' := by
  induction layer using payloads.induct generalizing layer' with
  | case1 left right rest ih =>
    rcases layer' with _ | ⟨left', _ | ⟨right', rest'⟩⟩
    . simp at hlengths
    . simp at hlengths
    . simp only [List.map_cons, List.cons.injEq] at hlengths
      rw [payloads, payloads, List.cons.injEq] at h
      rcases List.append_inj h.1 hlengths.1 with ⟨hleft, hright⟩
      rw [hleft, hright, ih hlengths.2.2 (by simp only [List.length_cons] at heven; omega) h.2]
  | case2 layer hshort =>
    rcases layer with _ | ⟨left, _ | ⟨right, rest⟩⟩
    . simpa using hlengths.symm
    . simp at heven
    . exact absurd rfl (hshort left right rest)

theorem evened_inj {layer layer' : List Bytes} (hlength : layer.length = layer'.length) (h : evened layer = evened layer')
    : layer = layer' := by
  apply List.ext_getElem? fun i => ?_
  by_cases hi : i < layer.length
  . rw [← getElem?_evened hi, h, getElem?_evened (by omega)]
  . rw [List.getElem?_eq_none (by omega), List.getElem?_eq_none (by omega)]

theorem lengths_evened {layer layer' : List Bytes} (h : layer.map List.length = layer'.map List.length)
    : (evened layer).map List.length = (evened layer').map List.length := by
  have hcount : layer.length = layer'.length := by
    simpa using congrArg List.length h
  have hlast : layer.getLast?.map List.length = layer'.getLast?.map List.length := by
    rw [← List.getLast?_map, ← List.getLast?_map, h]
  unfold evened
  rw [hcount]
  split
  . rw [List.map_append, List.map_append, h]
    cases hl : layer.getLast? <;> cases hl' : layer'.getLast? <;> simp_all
  . apply h

theorem lengths_parents (hlength : ∀ x, (sha256 x).length = 32) (layer : List Bytes)
    : (parents sha256 layer).map List.length = List.replicate (parents sha256 layer).length 32 := by
  apply List.eq_replicate_iff.mpr
  refine ⟨List.length_map _, fun n hn => ?_⟩
  rcases List.mem_map.mp hn with ⟨d, hd, rfl⟩
  apply length_of_mem_parents hlength hd

theorem map_inj_of_free {inputs xs ys : List Bytes} (hfree : CollisionFree sha256 inputs) (hxs : xs ⊆ inputs)
    (hys : ys ⊆ inputs) (h : xs.map sha256 = ys.map sha256)
    : xs = ys := by
  induction xs generalizing ys with
  | nil => simpa using h.symm
  | cons x xs ih =>
    rcases ys with _ | ⟨y, ys⟩
    . simp at h
    . simp only [List.map_cons, List.cons.injEq] at h
      rw [List.cons_subset] at hxs hys
      rw [hfree x hxs.1 y hys.1 h.1, ih hxs.2 hys.2 h.2]

/-- A root of the leaves of one list, and no other of the same lengths. -/
theorem leaves_of_treeRoot (hlength : ∀ x, (sha256 x).length = 32) {fuel : ℕ} {layer layer' : List Bytes}
    (hfuel : layer.length ≤ fuel) (hlengths : layer.map List.length = layer'.map List.length)
    (hroot : treeRoot sha256 fuel layer = treeRoot sha256 fuel layer')
    (hfree : CollisionFree sha256 (treePayloads sha256 fuel layer ++ treePayloads sha256 fuel layer'))
    : layer = layer' := by
  have hcount : layer.length = layer'.length := by
    simpa using congrArg List.length hlengths
  induction fuel generalizing layer layer' with
  | zero =>
    rw [List.length_eq_zero_iff.mp (show layer.length = 0 by omega)] at hcount ⊢
    exact (List.length_eq_zero_iff.mp hcount.symm).symm
  | succ fuel ih =>
    by_cases hlen : 1 < layer.length
    . have hlen' : 1 < layer'.length := by omega
      rw [treeRoot_succ hlen, treeRoot_succ hlen'] at hroot
      rw [treePayloads, treePayloads, if_pos hlen, if_pos hlen'] at hfree
      have hcount' : (parents sha256 (evened layer)).length = (parents sha256 (evened layer')).length := by
        rw [length_parents_evened, length_parents_evened, hcount]
      have hparents : parents sha256 (evened layer) = parents sha256 (evened layer') := by
        apply ih _ _ hroot _ hcount'
        . rw [length_parents_evened]
          omega
        . rw [lengths_parents hlength, lengths_parents hlength, hcount']
        . apply hfree.mono
          intro x hx
          simp only [List.mem_append] at hx ⊢
          tauto
      rw [parents_eq, parents_eq] at hparents
      have hpayloads := by
        apply map_inj_of_free hfree _ _ hparents
        . intro x hx
          simp only [List.mem_append]
          tauto
        . intro x hx
          simp only [List.mem_append]
          tauto
      apply evened_inj hcount
      apply payloads_inj (lengths_evened hlengths) _ hpayloads
      rw [length_evened]
      omega
    . -- one leaf is its own root
      rcases layer with _ | ⟨leaf, _ | ⟨next, rest⟩⟩
      . exact (List.length_eq_zero_iff.mp hcount.symm).symm
      . rcases layer' with _ | ⟨leaf', _ | ⟨next', rest'⟩⟩
        . simp at hcount
        . have hsame : leaf = leaf' := by simpa [treeRoot, layers] using hroot
          rw [hsame]
        . simp at hcount
      . simp at hlen

/- Roots and paths of a list of leaves. -/

theorem merkleRootAndPaths_fst {leaves : List Bytes} (hne : leaves ≠ [])
    : (merkleRootAndPaths sha256 leaves).1 = treeRoot sha256 leaves.length leaves := by
  rw [merkleRootAndPaths, if_neg hne]
  rfl

theorem getElem?_paths {leaves : List Bytes} {idx : ℕ} (hidx : idx < leaves.length)
    : (merkleRootAndPaths sha256 leaves).2[idx]? = some (path (layers sha256 leaves.length leaves) idx) := by
  rw [merkleRootAndPaths, if_neg (List.ne_nil_of_length_pos (by omega))]
  simp [hidx]

/-- A path runs along the sides of a position among so many leaves. -/
def At (leaves idx : ℕ) (path : List (Side × Bytes)) : Prop :=
  path.map Prod.fst = sides leaves leaves idx

/--
The path made for each position verifies against the root. Where no two of the hashed inputs have one digest, a root
stands for one list of leaves of given lengths, and a path that verifies at a position for one leaf of the length there.
-/
theorem merkle_paths_bind (sha256 : Bytes → Bytes) (hlength : ∀ x, (sha256 x).length = 32)
    : (∀ leaves idx (hidx : idx < leaves.length), ∃ root path,
        (merkleRootAndPaths sha256 leaves).1 = some root ∧ (merkleRootAndPaths sha256 leaves).2[idx]? = some path ∧
          At leaves.length idx path ∧ verifyLeaf sha256 leaves[idx] path root = true) ∧
      (∀ leaves leaves', leaves.map List.length = leaves'.map List.length →
        CollisionFree sha256
          (treePayloads sha256 leaves.length leaves ++ treePayloads sha256 leaves'.length leaves') →
        (merkleRootAndPaths sha256 leaves).1 = (merkleRootAndPaths sha256 leaves').1 → leaves = leaves') ∧
      ∀ leaves root idx (hidx : idx < leaves.length) leaf path,
        (merkleRootAndPaths sha256 leaves).1 = some root → leaves[idx].length = leaf.length →
        At leaves.length idx path → verifyLeaf sha256 leaf path root = true →
        CollisionFree sha256 (treePayloads sha256 leaves.length leaves ++ climbPayloads sha256 leaf path) →
        leaves[idx] = leaf := by
  refine ⟨fun leaves idx hidx => ?_, fun leaves leaves' hlengths hfree hroot => ?_,
    fun leaves root idx hidx leaf path hroot hleaf hat hverify hfree => ?_⟩
  . have hne := List.ne_nil_of_length_pos (show 0 < leaves.length by omega)
    refine ⟨climb sha256 leaves[idx] (path (layers sha256 leaves.length leaves) idx),
      path (layers sha256 leaves.length leaves) idx, ?_, getElem?_paths hidx, map_fst_path sha256 _ _ _, ?_⟩
    . rw [merkleRootAndPaths_fst hne, climb_path hidx (Nat.le_refl _)]
    . simp [verifyLeaf]
  . have hcount : leaves.length = leaves'.length := by
      simpa using congrArg List.length hlengths
    by_cases hne : leaves = []
    . subst hne
      exact (List.length_eq_zero_iff.mp hcount.symm).symm
    . have hne' : leaves' ≠ [] := by
        intro heq
        rw [heq, List.length_nil] at hcount
        apply hne (List.length_eq_zero_iff.mp hcount)
      rw [merkleRootAndPaths_fst hne, merkleRootAndPaths_fst hne', ← hcount] at hroot
      rw [← hcount] at hfree
      apply leaves_of_treeRoot hlength (Nat.le_refl _) hlengths hroot hfree
  . have hne := List.ne_nil_of_length_pos (show 0 < leaves.length by omega)
    rw [merkleRootAndPaths_fst hne] at hroot
    have hclimb : climb sha256 leaf path = root := by simpa [verifyLeaf] using hverify
    rw [← hclimb] at hroot
    have htold := leaf_of_climb hlength hidx (Nat.le_refl _) hleaf hat hroot hfree
    rw [List.getElem?_eq_getElem hidx] at htold
    apply Option.some.inj htold

/-- The first bytes of what is hashed, filled up with zeros. -/
def firstBytes (data : Bytes) : Bytes :=
  (data ++ List.replicate 32 0).take 32

theorem length_firstBytes (data : Bytes) : (firstBytes data).length = 32 := by
  simp [firstBytes]

theorem merkle_paths_bind_pair
    : ∃ root path, (merkleRootAndPaths firstBytes [[1], [2], [3]]).1 = some root ∧
        (merkleRootAndPaths firstBytes [[1], [2], [3]]).2[2]? = some path ∧ At 3 2 path ∧
          verifyLeaf firstBytes [3] path root = true :=
  (merkle_paths_bind firstBytes length_firstBytes).1 [[1], [2], [3]] 2 (by decide)

/-- Two leaves of other lengths hash to the same root. -/
theorem roots_not_injective
    : ¬∀ (sha256 : Bytes → Bytes) (leaves leaves' : List Bytes), (∀ x, (sha256 x).length = 32) →
        leaves.length = leaves'.length →
        CollisionFree sha256
          (treePayloads sha256 leaves.length leaves ++ treePayloads sha256 leaves'.length leaves') →
        (merkleRootAndPaths sha256 leaves).1 = (merkleRootAndPaths sha256 leaves').1 → leaves = leaves' := by
  intro h
  have hsame := h firstBytes [[1], [2, 3]] [[1, 2], [3]] length_firstBytes rfl (by
    unfold CollisionFree
    with_unfolding_all decide) (by with_unfolding_all decide)
  simp at hsame

end LedgerOts
