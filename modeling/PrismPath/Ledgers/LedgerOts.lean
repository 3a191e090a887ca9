import Mathlib.Data.List.Basic

/-!
This module contains the Merkle tree over the digests of a list of records, and what a path of it proves: from what is
hashed for the path, one leaf of the tree can be told, and the sides of the path tell which. A digest is its bytes.
-/

namespace LedgerOts

abbrev Bytes : Type := List UInt8

variable (sha256 : Bytes → Bytes)

def nodeHash (payload : Bytes) : Bytes :=
  sha256 payload

/-- A layer with its last node repeated when their number is odd. -/
def evened (layer : List Bytes) : List Bytes :=
  if layer.length % 2 = 1 then layer ++ layer.getLast?.toList else layer

def parents : List Bytes → List Bytes
  | left :: right :: rest => nodeHash sha256 (left ++ right) :: parents rest
  | _ => []

/-- The layers from the leaves up to the root; as many rounds as there are leaves are enough. -/
def layers : ℕ → List Bytes → List (List Bytes)
  | 0, layer => [layer]
  | fuel + 1, layer =>
    if 1 < layer.length then layer :: layers fuel (parents sha256 (evened layer)) else [layer]

inductive Side where
  | left
  | right
  deriving DecidableEq

def path : List (List Bytes) → ℕ → List (Side × Bytes)
  | layer :: next :: rest, idx =>
    let layer := evened layer
    let sibling := if idx % 2 = 0 then (Side.right, layer.getD (idx + 1) []) else (Side.left, layer.getD (idx - 1) [])
    sibling :: path (next :: rest) (idx / 2)
  | _, _ => []

/-- The root, and the path of each leaf. -/
def merkleRootAndPaths (leaves : List Bytes) : Option Bytes × List (List (Side × Bytes)) :=
  if leaves = [] then
    (none, [])
  else
    let layers := layers sha256 leaves.length leaves
    ((layers.getLast?.getD []).head?, (List.range leaves.length).map (path layers))

/-- What is hashed for a node with its sibling on the given side. -/
def payload (cur : Bytes) : Side × Bytes → Bytes
  | (.right, sibling) => cur ++ sibling
  | (.left, sibling) => sibling ++ cur

/-- The root that a path leads to from a leaf. -/
def climb (cur : Bytes) : List (Side × Bytes) → Bytes
  | [] => cur
  | step :: path => climb (nodeHash sha256 (payload cur step)) path

def verifyLeaf (leaf : Bytes) (path : List (Side × Bytes)) (root : Bytes) : Bool :=
  climb sha256 leaf path = root

end LedgerOts

namespace LedgerOts

variable {sha256 : Bytes → Bytes}

/-- What is hashed for the parents of a layer. -/
def payloads : List Bytes → List Bytes
  | left :: right :: rest => (left ++ right) :: payloads rest
  | _ => []

theorem parents_eq (layer : List Bytes)
    : parents sha256 layer = (payloads layer).map sha256 := by
  fun_induction payloads layer with
  | case1 left right rest ih => rw [parents, ih, List.map_cons, nodeHash]
  | case2 layer h =>
    rcases layer with _ | ⟨left, _ | ⟨right, rest⟩⟩
    . rfl
    . rfl
    . exact absurd rfl (h left right rest)

theorem length_payloads (layer : List Bytes)
    : (payloads layer).length = layer.length / 2 := by
  fun_induction payloads layer with
  | case1 left right rest ih =>
    simp only [List.length_cons, ih]
    omega
  | case2 layer h =>
    rcases layer with _ | ⟨left, _ | ⟨right, rest⟩⟩
    . rfl
    . simp
    . exact absurd rfl (h left right rest)

theorem getElem?_payloads {layer : List Bytes} {k : ℕ} (hk : 2 * k + 1 < layer.length)
    : (payloads layer)[k]? = some (layer[2 * k] ++ layer[2 * k + 1]) := by
  induction k generalizing layer with
  | zero =>
    rcases layer with _ | ⟨left, _ | ⟨right, rest⟩⟩
    . simp at hk
    . simp at hk
    . rfl
  | succ k ih =>
    rcases layer with _ | ⟨left, _ | ⟨right, rest⟩⟩
    . simp at hk
    . simp at hk
    . rw [payloads, List.getElem?_cons_succ, ih (by simp only [List.length_cons] at hk; omega)]
      rfl

theorem length_evened (layer : List Bytes)
    : (evened layer).length = layer.length + layer.length % 2 := by
  unfold evened
  split
  . next hodd =>
    have hne : layer ≠ [] := by
      rintro rfl
      simp at hodd
    rw [List.length_append, List.getLast?_eq_some_getLast hne]
    simpa using hodd.symm
  . next heven => omega

theorem getElem?_evened {layer : List Bytes} {i : ℕ} (hi : i < layer.length)
    : (evened layer)[i]? = layer[i]? := by
  unfold evened
  split
  . rw [List.getElem?_append_left hi]
  . rfl

theorem length_parents_evened (layer : List Bytes)
    : (parents sha256 (evened layer)).length = (layer.length + 1) / 2 := by
  rw [parents_eq, List.length_map, length_payloads, length_evened]
  omega

theorem length_of_mem_parents (hlength : ∀ x, (sha256 x).length = 32) {layer : List Bytes} {d : Bytes}
    (h : d ∈ parents sha256 layer)
    : d.length = 32 := by
  rw [parents_eq] at h
  rcases List.mem_map.mp h with ⟨x, -, rfl⟩
  apply hlength

/-- The sides of the path of a leaf, for so many leaves. -/
def sides : ℕ → ℕ → ℕ → List Side
  | 0, _, _ => []
  | fuel + 1, n, idx =>
    if 1 < n then (if idx % 2 = 0 then .right else .left) :: sides fuel ((n + 1) / 2) (idx / 2) else []

/-- What is hashed for a tree over its leaves. -/
def treePayloads (sha256 : Bytes → Bytes) : ℕ → List Bytes → List Bytes
  | 0, _ => []
  | fuel + 1, layer =>
    if 1 < layer.length then
      payloads (evened layer) ++ treePayloads sha256 fuel (parents sha256 (evened layer))
    else
      []

/-- What is hashed on the way up from a leaf. -/
def climbPayloads (sha256 : Bytes → Bytes) (cur : Bytes) : List (Side × Bytes) → List Bytes
  | [] => []
  | step :: path => payload cur step :: climbPayloads sha256 (nodeHash sha256 (payload cur step)) path

/-- No two of the inputs have one digest. -/
def CollisionFree (sha256 : Bytes → Bytes) (inputs : List Bytes) : Prop :=
  ∀ x ∈ inputs, ∀ y ∈ inputs, sha256 x = sha256 y → x = y

theorem CollisionFree.mono {inputs inputs' : List Bytes} (h : CollisionFree sha256 inputs) (hsub : inputs' ⊆ inputs)
    : CollisionFree sha256 inputs' :=
  fun x hx y hy => h x (hsub hx) y (hsub hy)

theorem layers_eq_cons (fuel : ℕ) (layer : List Bytes)
    : ∃ rest, layers sha256 fuel layer = layer :: rest := by
  cases fuel with
  | zero => exact ⟨[], rfl⟩
  | succ fuel =>
    unfold layers
    split
    . exact ⟨_, rfl⟩
    . exact ⟨[], rfl⟩

/-- The node above all leaves. -/
def treeRoot (sha256 : Bytes → Bytes) (fuel : ℕ) (layer : List Bytes) : Option Bytes :=
  ((layers sha256 fuel layer).getLast?.getD []).head?

theorem treeRoot_succ {fuel : ℕ} {layer : List Bytes} (h : 1 < layer.length)
    : treeRoot sha256 (fuel + 1) layer = treeRoot sha256 fuel (parents sha256 (evened layer)) := by
  rcases @layers_eq_cons sha256 fuel (parents sha256 (evened layer)) with ⟨rest, hrest⟩
  unfold treeRoot
  rw [layers, if_pos h, hrest, List.getLast?_cons_cons]

theorem exists_treeRoot (sha256 : Bytes → Bytes) {fuel : ℕ} {layer : List Bytes} (hne : layer ≠ [])
    (hfuel : layer.length ≤ fuel)
    : ∃ root, treeRoot sha256 fuel layer = some root := by
  induction fuel generalizing layer with
  | zero => exact absurd (List.length_eq_zero_iff.mp (by omega)) hne
  | succ fuel ih =>
    by_cases hlen : 1 < layer.length
    . rw [treeRoot_succ hlen]
      have hlenParents := @length_parents_evened sha256 layer
      apply ih
      . rw [← List.length_pos_iff]
        omega
      . omega
    . rcases layer with _ | ⟨leaf, layer⟩
      . exact absurd rfl hne
      . exact ⟨leaf, by rw [treeRoot, layers, if_neg hlen]; rfl⟩

/-- From what climbs to the root along the sides of a leaf, and is as long as it, that leaf can be told. -/
theorem leaf_of_climb (hlength : ∀ x, (sha256 x).length = 32) {fuel : ℕ} {layer : List Bytes} {idx : ℕ}
    (hidx : idx < layer.length) (hfuel : layer.length ≤ fuel) {path : List (Side × Bytes)} {cur : Bytes}
    (hcur : layer[idx].length = cur.length) (hsides : path.map Prod.fst = sides fuel layer.length idx)
    (hroot : treeRoot sha256 fuel layer = some (climb sha256 cur path))
    (hfree : CollisionFree sha256 (treePayloads sha256 fuel layer ++ climbPayloads sha256 cur path))
    : layer[idx]? = some cur := by
  induction fuel generalizing layer idx path cur with
  | zero => omega
  | succ fuel ih =>
    rw [sides] at hsides
    by_cases hlen : 1 < layer.length
    . rw [if_pos hlen] at hsides
      rcases path with _ | ⟨⟨side, sibling⟩, path⟩
      . simp at hsides
      . rw [List.map_cons, List.cons.injEq] at hsides
        rcases hsides with ⟨hside, hsides⟩
        rw [treeRoot_succ hlen, climb] at hroot
        rw [treePayloads, if_pos hlen, climbPayloads] at hfree
        have hidx' : idx / 2 < (parents sha256 (evened layer)).length := by
          rw [length_parents_evened]
          omega
        have hcur' : (parents sha256 (evened layer))[idx / 2].length
            = (nodeHash sha256 (payload cur (side, sibling))).length := by
          rw [nodeHash, hlength, length_of_mem_parents hlength (List.getElem_mem hidx')]
        have hparent := ih hidx' (by rw [length_parents_evened]; omega) hcur'
          (by rw [length_parents_evened]; exact hsides) hroot (hfree.mono (by
            intro x hx
            simp only [List.mem_append, List.mem_cons] at hx ⊢
            tauto))
        -- the parent of the leaf is a hash of the leaf and its neighbour
        have hpair : 2 * (idx / 2) + 1 < (evened layer).length := by
          rw [length_evened]
          omega
        rw [parents_eq, List.getElem?_map, getElem?_payloads hpair, Option.map_some, Option.some.injEq] at hparent
        have hpayload : (evened layer)[2 * (idx / 2)] ++ (evened layer)[2 * (idx / 2) + 1]
            = payload cur (side, sibling) := by
          refine hfree _ ?_ _ ?_ hparent
          . have := List.mem_of_getElem? (getElem?_payloads hpair)
            simp only [List.mem_append]
            tauto
          . simp
        have hleaf {i : ℕ} (hi : i < (evened layer).length) (hplace : idx = i) : layer[idx] = (evened layer)[i] := by
          subst hplace
          apply Option.some.inj
          rw [← List.getElem?_eq_getElem hidx, ← List.getElem?_eq_getElem hi, getElem?_evened hidx]
        rw [List.getElem?_eq_getElem hidx]
        dsimp only at hside
        by_cases heven : idx % 2 = 0
        . rw [if_pos heven] at hside
          subst hside
          have hplace := hleaf (Nat.lt_of_succ_lt hpair) (by omega)
          rw [hplace, (List.append_inj hpayload (by rw [← hplace, hcur])).1]
        . rw [if_neg heven] at hside
          subst hside
          have hplace := hleaf hpair (by omega)
          rw [hplace, (List.append_inj' hpayload (by rw [← hplace, hcur])).2]
    . -- one leaf is its own root
      rw [if_neg hlen, List.map_eq_nil_iff] at hsides
      subst hsides
      rcases layer with _ | ⟨leaf, _ | ⟨other, layer⟩⟩
      . simp at hidx
      . have hzero : idx = 0 := by simpa using hidx
        rw [treeRoot, layers, if_neg hlen, climb] at hroot
        rw [hzero]
        simpa using hroot
      . simp at hlen

end LedgerOts
