import Mathlib
import PrismPath.Ledgers.MerklePaths

/-!
This module contains the Merkle root that the C harnesses anchor for a batch of receipts, compared with the root and
the paths that the ledger computes over the hashes of the same receipts.
-/

namespace ReceiptTrail

open LedgerOts

/-- The value of an expression of type `int`; one that overflows has no defined value. -/
def int? (value : ℕ) : Option ℕ :=
  if value < 2 ^ 31 then some value else none

variable (sha256 : Bytes → Bytes)

/-- The node over the pair at `i`; the last node of an odd layer is paired with itself. -/
def hashPair (cur : List Bytes) (cnt i : ℕ) : Option Bytes := do
  let even ← int? (2 * i)
  let odd ← int? (2 * i + 1)
  let left ← cur[even]?
  let right ← cur[if odd < cnt then odd else even]?
  return sha256 (left ++ right)

/-- Layer by layer down to one node; `none` also where the rounds do not suffice. -/
def halve : ℕ → List Bytes → ℕ → Option Bytes
  | 0, _, _ => none
  | fuel + 1, cur, cnt =>
    if 1 < cnt then do
      let half := (← int? (cnt + 1)) / 2
      let nx ← (List.range half).mapM (hashPair sha256 cur cnt)
      halve fuel nx half
    else
      cur[0]?

/-- The root over the receipts, where every layer finds memory (the harness exits where one does not). -/
def merkleRoot (receipts : List Bytes) (n : Int) : Option Bytes :=
  if n ≤ 0 then
    some (List.replicate 32 0)
  else do
    let leaves ← (List.range n.toNat).mapM fun i => receipts[i]?.map sha256
    halve sha256 n.toNat leaves n.toNat

variable {sha256 : Bytes → Bytes}

theorem int?_of_lt {value : ℕ} (h : value < 2 ^ 31)
    : int? value = some value := by
  rw [int?, if_pos h]

theorem mapM_eq_some {α β : Type} {f : α → Option β} {xs : List α} {ys : List β} (hlength : ys.length = xs.length)
    (h : ∀ (i : ℕ) x, xs[i]? = some x → f x = ys[i]?)
    : xs.mapM f = some ys := by
  induction xs generalizing ys with
  | nil =>
    rw [List.length_eq_zero_iff.mp hlength]
    rfl
  | cons x xs ih =>
    rcases ys with _ | ⟨y, ys⟩
    . simp at hlength
    . have hhead := h 0 x rfl
      have htail := ih (by simpa using hlength) fun i x hx => h (i + 1) x hx
      rw [List.mapM_cons, hhead, htail]
      rfl

theorem mapM_range_eq_some {β : Type} {f : ℕ → Option β} {ys : List β} (h : ∀ i, i < ys.length → f i = ys[i]?)
    : (List.range ys.length).mapM f = some ys := by
  apply mapM_eq_some List.length_range.symm
  intro i x hx
  rcases List.getElem?_eq_some_iff.mp hx with ⟨hi, rfl⟩
  rw [List.getElem_range]
  apply h
  simpa using hi

/- One layer. -/

/-- The repeated last node of an odd layer stands where the C code reads the node before it a second time. -/
theorem getElem?_evened_succ {cur : List Bytes} {i : ℕ} (hi : 2 * i < cur.length)
    : (evened cur)[2 * i + 1]? = cur[if 2 * i + 1 < cur.length then 2 * i + 1 else 2 * i]? := by
  split
  . next hodd => rw [getElem?_evened hodd]
  . next hlast =>
    have hlength : cur.length = 2 * i + 1 := by omega
    rw [evened, if_pos (by omega), List.getElem?_append_right (by omega), hlength, Nat.sub_self,
      List.getLast?_eq_getElem?, hlength, Nat.add_sub_cancel]
    rw [List.getElem?_eq_getElem hi]
    rfl

theorem hashPair_eq {cur : List Bytes} (hint : cur.length < 2 ^ 31) {i : ℕ} (hi : 2 * i < cur.length)
    : hashPair sha256 cur cur.length i = (parents sha256 (evened cur))[i]? := by
  have hpair : 2 * i + 1 < (evened cur).length := by
    rw [length_evened]
    omega
  have hleft := @getElem?_evened cur _ hi
  have hright := getElem?_evened_succ hi
  rw [List.getElem?_eq_getElem (by omega)] at hleft
  rw [List.getElem?_eq_getElem hpair] at hright
  rw [parents_eq, List.getElem?_map, getElem?_payloads hpair, Option.map_some, hashPair, int?_of_lt (by omega)]
  simp only [Option.bind_eq_bind, Option.bind_some, int?_of_lt (show 2 * i + 1 < 2 ^ 31 by omega), ← hleft, ← hright]
  rfl

theorem mapM_hashPair {cur : List Bytes} (hint : cur.length < 2 ^ 31)
    : (List.range ((cur.length + 1) / 2)).mapM (hashPair sha256 cur cur.length)
        =
      some (parents sha256 (evened cur)) := by
  rw [← @length_parents_evened sha256 cur]
  apply mapM_range_eq_some
  intro i hi
  rw [length_parents_evened] at hi
  apply hashPair_eq hint (by omega)

/- All layers. -/

theorem halve_eq {fuel : ℕ} {cur : List Bytes} (hne : cur ≠ []) (hfuel : cur.length ≤ fuel) (hint : cur.length < 2 ^ 31 - 1)
    : halve sha256 fuel cur cur.length = treeRoot sha256 fuel cur := by
  induction fuel generalizing cur with
  | zero => exact absurd (List.length_eq_zero_iff.mp (by omega)) hne
  | succ fuel ih =>
    by_cases hlen : 1 < cur.length
    . have hparents := @length_parents_evened sha256 cur
      have hnext := @ih (parents sha256 (evened cur)) (List.ne_nil_of_length_pos (by omega)) (by omega) (by omega)
      rw [hparents] at hnext
      rw [halve, if_pos hlen, int?_of_lt (by omega)]
      simp only [Option.bind_eq_bind, Option.bind_some]
      rw [mapM_hashPair (by omega), Option.bind_some, hnext, treeRoot_succ hlen]
    . rcases cur with _ | ⟨leaf, _ | ⟨next, rest⟩⟩
      . exact absurd rfl hne
      . rfl
      . simp at hlen

/-- At the largest `int` the first halving adds one to it. -/
theorem halve_of_largest (sha256 : Bytes → Bytes) {fuel : ℕ} {cur : List Bytes}
    : halve sha256 fuel cur (2 ^ 31 - 1) = none := by
  cases fuel with
  | zero => rfl
  | succ fuel =>
    rw [halve, if_pos (by omega), int?, if_neg (by omega)]
    rfl

theorem merkleRoot_eq_halve {receipts : List Bytes} (hne : receipts ≠ [])
    : merkleRoot sha256 receipts receipts.length
        =
      halve sha256 receipts.length (receipts.map sha256) receipts.length := by
  have hpos := List.length_pos_iff.mpr hne
  have hleaves : (List.range receipts.length).mapM (fun i => receipts[i]?.map sha256) = some (receipts.map sha256) := by
    have hlength : (receipts.map sha256).length = receipts.length := List.length_map _
    rw [← hlength]
    apply mapM_range_eq_some
    intro i _
    rw [List.getElem?_map]
  rw [merkleRoot, if_neg (by omega), Int.toNat_natCast, hleaves]
  rfl

/--
The anchored root is the ledger's, and every path of the ledger verifies against it, for each number of receipts that an
`int` holds but the largest.
-/
theorem merkleRoot_agrees_iff (sha256 : Bytes → Bytes) (receipts : List Bytes) (hne : receipts ≠ [])
    (hint : receipts.length < 2 ^ 31)
    : (∃ root, merkleRoot sha256 receipts receipts.length = some root ∧
        (merkleRootAndPaths sha256 (receipts.map sha256)).1 = some root ∧
        ∀ idx (hidx : idx < receipts.length), ∃ path,
          (merkleRootAndPaths sha256 (receipts.map sha256)).2[idx]? = some path ∧
            verifyLeaf sha256 (sha256 receipts[idx]) path root = true)
      ↔
      receipts.length ≠ 2 ^ 31 - 1 := by
  have hleaves : receipts.map sha256 ≠ [] := by simpa using hne
  have hcount : (receipts.map sha256).length = receipts.length := List.length_map _
  constructor
  . rintro ⟨root, hroot, -, -⟩ hlargest
    rw [merkleRoot_eq_halve hne, hlargest, halve_of_largest] at hroot
    cases hroot
  . intro hsmaller
    rcases exists_treeRoot sha256 hleaves (Nat.le_refl _) with ⟨root, hroot⟩
    refine ⟨root, ?_, ?_, fun idx hidx => ?_⟩
    . have hhalve := @halve_eq sha256 _ _ hleaves (Nat.le_refl _) (by omega)
      rw [hcount] at hhalve hroot
      rw [merkleRoot_eq_halve hne, hhalve, hroot]
    . rw [merkleRootAndPaths_fst hleaves, hroot]
    . have hidx' : idx < (receipts.map sha256).length := by omega
      have hclimb := @climb_path sha256 _ _ _ hidx' (Nat.le_refl _)
      rw [hroot, Option.some.injEq, List.getElem_map] at hclimb
      refine ⟨_, getElem?_paths hidx', ?_⟩
      rw [verifyLeaf, ← hclimb]
      simp

theorem merkleRoot_agrees_three
    : ∃ root, merkleRoot firstBytes [[1], [2], [3]] 3 = some root ∧
        (merkleRootAndPaths firstBytes ([[1], [2], [3]].map firstBytes)).1 = some root := by
  rcases (merkleRoot_agrees_iff firstBytes [[1], [2], [3]] (by decide) (by decide)).mpr (by decide)
    with ⟨root, hroot, hledger, -⟩
  exact ⟨root, hroot, hledger⟩

/-- As many receipts as the largest `int`. -/
theorem no_root_of_largest
    : ¬∀ (sha256 : Bytes → Bytes) (receipts : List Bytes), receipts ≠ [] → receipts.length < 2 ^ 31 →
        merkleRoot sha256 receipts receipts.length = (merkleRootAndPaths sha256 (receipts.map sha256)).1 := by
  intro h
  have hmany (n : ℕ) : ∃ receipts : List Bytes, receipts.length = n := ⟨List.replicate n [], List.length_replicate⟩
  rcases hmany (2 ^ 31 - 1) with ⟨receipts, hlength⟩
  have hne : receipts ≠ [] := List.ne_nil_of_length_pos (by omega)
  have hleaves : receipts.map firstBytes ≠ [] := by
    simpa using hne
  have hsame := h firstBytes receipts hne (by omega)
  rcases exists_treeRoot firstBytes hleaves (Nat.le_refl _) with ⟨root, hroot⟩
  rw [merkleRoot_eq_halve hne, hlength, halve_of_largest, merkleRootAndPaths_fst hleaves, hroot] at hsame
  cases hsame

end ReceiptTrail
