import PrismPath.Ledgers.LedgerOts
import PrismPath.Ledgers.RootStatement
import PrismPath.Lib.MerkleForest
import PrismPath.Lib.Process
import PrismPath.Telemetry.SelfHeal

/-!
This module contains the Merkle root of a log, computed over all its leaves and kept as they arrive, and that both are
the same.
-/

open Python

namespace RootStatement

open LedgerOts (nodeHash parents evened)
open SelfHeal (fromHex)

variable (sha256 : Bytes → Bytes)

/-- The layers up to one that is a single node; as many rounds as there are leaves are enough. -/
def lastLayer : ℕ → List Bytes → List Bytes
  | 0, layer => layer
  | fuel + 1, layer => if 1 < layer.length then lastLayer fuel (parents sha256 (evened layer)) else layer

def merkleRoot (leaves : List Json.Str) : Except Error Json.Str := do
  if leaves = [] then
    return []
  let layer ← leaves.mapM fromHex
  return hex ((lastLayer sha256 layer.length layer).headD [])

/-- The roots of the complete subtrees with their heights, the lowest, which holds the latest leaves, first. -/
structure MerkleAccumulator where
  peaks : List (ℕ × Bytes)
  count : ℕ

/-- A subtree merges with the last peak while both have the same height. -/
def mergePeaks (height : ℕ) (node : Bytes) : List (ℕ × Bytes) → List (ℕ × Bytes)
  | (peakHeight, peak) :: peaks =>
    if peakHeight = height then
      mergePeaks (height + 1) (nodeHash sha256 (peak ++ node)) peaks
    else
      (height, node) :: (peakHeight, peak) :: peaks
  | [] => [(height, node)]

/-- A short peak is hashed with itself once per level that it is missing. -/
def raiseNode : ℕ → Bytes → Bytes
  | 0, node => node
  | missing + 1, node => raiseNode missing (nodeHash sha256 (node ++ node))

/-- The peaks folded from the lowest up. -/
def foldPeaks (height : ℕ) (node : Bytes) : List (ℕ × Bytes) → Bytes
  | [] => node
  | (taller, peak) :: peaks =>
    foldPeaks (max height taller + 1) (nodeHash sha256 (peak ++ raiseNode sha256 (taller - height) node)) peaks

namespace MerkleAccumulator

def empty : MerkleAccumulator :=
  ⟨[], 0⟩

def add (acc : MerkleAccumulator) (leafHex : Json.Str) : Except Error MerkleAccumulator := do
  let node ← fromHex leafHex
  return ⟨mergePeaks sha256 0 node acc.peaks, acc.count + 1⟩

def root (acc : MerkleAccumulator) : Json.Str :=
  match acc.peaks with
  | [] => []
  | (height, node) :: peaks => hex (foldPeaks sha256 height node peaks)

/-- `MerkleAccumulator(leaves)` -/
def ofLeaves (leaves : List Json.Str) : Except Error MerkleAccumulator :=
  leaves.foldlM (add sha256) empty

/-- The next leaves of the log, so many of them. -/
def feed (leaves : List Json.Str) : ℕ → MerkleAccumulator → Except Error MerkleAccumulator
  | 0, acc => .ok acc
  | more + 1, acc =>
    match leaves[acc.count]? with
    | none => .error .indexError
    | some leaf => do feed leaves more (← acc.add sha256 leaf)

end MerkleAccumulator

/-- A count that is in a log of so many leaves. -/
def countIn (length : ℕ) : Obj → Option ℕ
  | .int count => if 0 ≤ count ∧ count ≤ length then some count.toNat else none
  | .bool count => if count.toNat ≤ length then some count.toNat else none
  | _ => none

/-- The counts that are in the log, in their order. -/
def wantedCounts (leaves : List Json.Str) (counts : List Obj) : List ℕ :=
  (counts.filterMap (countIn leaves.length)).dedup.insertionSort (· ≤ ·)

def rootsFrom (leaves : List Json.Str) : List ℕ → MerkleAccumulator → Except Error (List (ℕ × Json.Str))
  | [], _ => .ok []
  | count :: wanted, acc => do
    let acc ← acc.feed sha256 leaves (count - acc.count)
    return (count, acc.root sha256) :: (← rootsFrom leaves wanted acc)

def prefixRoots (leaves : List Json.Str) (counts : List Obj) : Except Error (List (ℕ × Json.Str)) :=
  rootsFrom sha256 leaves (wantedCounts leaves counts) .empty

/- The layers of a log are those of its padded tree. -/

/-- A node over two others. -/
def join (left right : Bytes) : Bytes :=
  nodeHash sha256 (left ++ right)

theorem evened_cons_cons (left right : Bytes) (rest : List Bytes)
    : evened (left :: right :: rest) = left :: right :: evened rest := by
  have hparity : (left :: right :: rest).length % 2 = rest.length % 2 := by
    simp only [List.length_cons]
    omega
  unfold evened
  rw [hparity]
  cases rest with
  | nil => rfl
  | cons next rest =>
    rw [List.getLast?_cons_cons, List.getLast?_cons_cons]
    split <;> rfl

theorem parents_evened (layer : List Bytes) : parents sha256 (evened layer) = MerkleForest.level (join sha256) layer := by
  fun_induction MerkleForest.level (join sha256) layer with
  | case1 left right rest ih => rw [evened_cons_cons, parents, ih, join]
  | case2 last => rfl
  | case3 => rfl

open MerkleForest (top height Forest)

theorem lastLayer_eq {fuel : ℕ} {layer : List Bytes} (hne : layer ≠ []) (hfuel : layer.length ≤ fuel)
    : lastLayer sha256 fuel layer = [top (join sha256) (height layer.length) layer] := by
  induction fuel generalizing layer with
  | zero => exact absurd (List.length_eq_zero_iff.mp (by omega)) hne
  | succ fuel ih =>
    unfold lastLayer
    split
    . next hlong =>
      have hlevel := @MerkleForest.length_level _ (join sha256) layer
      have hbound := MerkleForest.length_le_height layer.length
      rw [MerkleForest.height_succ hlong] at hbound ⊢
      rw [parents_evened, ih, hlevel, MerkleForest.top_level hne hbound]
      . apply List.ne_nil_of_length_pos
        omega
      . omega
    . next hshort =>
      rcases layer with _ | ⟨leaf, _ | ⟨next, rest⟩⟩
      . exact absurd rfl hne
      . rw [height, List.length_singleton, Nat.clog_one_right]
        rfl
      . simp at hshort

/- The peaks are the forest that the log is cut into. -/

variable {sha256}

theorem forest_mergePeaks {peaks : List (ℕ × Bytes)} {xs : List Bytes} (h : Forest (join sha256) peaks xs)
    {height : ℕ} {leaves : List Bytes} (hleaves : leaves.length = 2 ^ height) (hpeaks : ∀ peak ∈ peaks, height ≤ peak.1)
    : Forest (join sha256) (mergePeaks sha256 height (top (join sha256) height leaves) peaks) (xs ++ leaves) := by
  induction h generalizing height leaves with
  | nil => apply Forest.cons .nil (by simp) hleaves
  | @cons peaks xs earlier peakHeight hrest hheight hearlier ih =>
    unfold mergePeaks
    split
    . next hsame =>
      -- the two trees are siblings
      subst hsame
      have hne : leaves ≠ [] := by
        apply List.ne_nil_of_length_pos
        rw [hleaves]
        apply Nat.two_pow_pos
      have hpair : nodeHash sha256 (top (join sha256) peakHeight earlier ++ top (join sha256) peakHeight leaves)
          = top (join sha256) (peakHeight + 1) (earlier ++ leaves) := by
        rw [MerkleForest.top_append hearlier hne, join]
      rw [hpair, List.append_assoc]
      apply ih
      . rw [List.length_append, hearlier, hleaves, Nat.pow_succ]
        omega
      . apply hheight
    . next hdiffer =>
      apply Forest.cons _ _ hleaves
      . apply Forest.cons hrest hheight hearlier
      . have hle := hpeaks _ List.mem_cons_self
        intro peak hpeak
        rcases List.mem_cons.mp hpeak with rfl | hpeak
        . dsimp only at hle ⊢
          omega
        . have := hheight peak hpeak
          dsimp only at hle
          omega

theorem raiseNode_eq {height : ℕ} {leaves : List Bytes} (h : leaves.length ≤ 2 ^ height) (missing : ℕ)
    : raiseNode sha256 missing (top (join sha256) height leaves) = top (join sha256) (height + missing) leaves := by
  induction missing generalizing height with
  | zero => rfl
  | succ missing ih =>
    have hnext : leaves.length ≤ 2 ^ (height + 1) := by
      rw [Nat.pow_succ]
      omega
    rw [raiseNode, ← Nat.add_assoc, Nat.add_right_comm, ← ih hnext, MerkleForest.top_repeat h, join]

theorem foldPeaks_eq {peaks : List (ℕ × Bytes)} {xs : List Bytes} (h : Forest (join sha256) peaks xs)
    {leaves : List Bytes} (hne : leaves ≠ []) (hpeaks : ∀ peak ∈ peaks, height leaves.length ≤ peak.1)
    : foldPeaks sha256 (height leaves.length) (top (join sha256) (height leaves.length) leaves) peaks
        =
      top (join sha256) (height (xs ++ leaves).length) (xs ++ leaves) := by
  induction h generalizing leaves with
  | nil => rfl
  | @cons peaks xs earlier taller hrest htaller hearlier ih =>
    have hle : height leaves.length ≤ taller := hpeaks _ List.mem_cons_self
    have hbound : leaves.length ≤ 2 ^ taller := by
      apply Nat.le_trans (MerkleForest.length_le_height _)
      apply Nat.pow_le_pow_right (by decide) hle
    have hpos := List.length_pos_iff.mpr hne
    have hheight : height (earlier ++ leaves).length = taller + 1 := by
      apply MerkleForest.height_eq
      . rw [List.length_append, hearlier]
        omega
      . rw [List.length_append, hearlier, Nat.pow_succ]
        omega
    have hraised : raiseNode sha256 (taller - height leaves.length)
        (top (join sha256) (height leaves.length) leaves) = top (join sha256) taller leaves := by
      rw [raiseNode_eq (MerkleForest.length_le_height _)]
      congr 1
      omega
    have hpair : nodeHash sha256 (top (join sha256) taller earlier ++ top (join sha256) taller leaves)
        = top (join sha256) (taller + 1) (earlier ++ leaves) := by
      rw [MerkleForest.top_append hearlier hne, join]
    rw [foldPeaks, Nat.max_eq_right hle, hraised, hpair, ← hheight, ih, List.append_assoc]
    . apply List.append_ne_nil_of_right_ne_nil _ hne
    . intro peak hpeak
      rw [hheight]
      apply htaller peak hpeak

/- An accumulator of a log. -/

namespace MerkleAccumulator

/-- The accumulator holds the log of some leaves. -/
structure Holds (sha256 : Bytes → Bytes) (acc : MerkleAccumulator) (leaves : List Bytes) : Prop where
  forest : Forest (join sha256) acc.peaks leaves
  count : acc.count = leaves.length

theorem holds_empty : Holds sha256 empty [] :=
  ⟨.nil, rfl⟩

theorem add_ok (acc : MerkleAccumulator) {leafHex : Json.Str} {leaf : Bytes} (h : fromHex leafHex = .ok leaf)
    : acc.add sha256 leafHex = .ok ⟨mergePeaks sha256 0 leaf acc.peaks, acc.count + 1⟩ := by
  unfold add
  rw [h]
  rfl

theorem add_error (acc : MerkleAccumulator) {leafHex : Json.Str} {e : Error} (h : fromHex leafHex = .error e)
    : acc.add sha256 leafHex = .error e := by
  unfold add
  rw [h]
  rfl

theorem count_add {acc acc' : MerkleAccumulator} {leafHex : Json.Str} (h : acc.add sha256 leafHex = .ok acc')
    : acc'.count = acc.count + 1 := by
  rcases Except.bind_eq_ok.mp h with ⟨leaf, -, hacc⟩
  cases hacc
  rfl

theorem Holds.merge {acc : MerkleAccumulator} {leaves : List Bytes} (h : Holds sha256 acc leaves) (leaf : Bytes)
    : Holds sha256 ⟨mergePeaks sha256 0 leaf acc.peaks, acc.count + 1⟩ (leaves ++ [leaf]) := by
  constructor
  . apply @forest_mergePeaks sha256 _ _ h.forest 0 [leaf]
    . rfl
    . simp
  . simp [h.count]

theorem Holds.root {acc : MerkleAccumulator} {leaves : List Bytes} (h : Holds sha256 acc leaves)
    : acc.root sha256 = if leaves = [] then [] else hex (top (join sha256) (height leaves.length) leaves) := by
  rcases acc with ⟨peaks, count⟩
  rcases h with ⟨hforest, hcount⟩
  dsimp only at hforest
  cases hforest with
  | nil => rfl
  | @cons peaks xs latest lowest hrest hlowest hlatest =>
    have hne : latest ≠ [] := by
      apply List.ne_nil_of_length_pos
      rw [hlatest]
      apply Nat.two_pow_pos
    have hheight : height latest.length = lowest := by
      rw [height, hlatest, Nat.clog_pow _ _ (by decide)]
    have hpeaks : ∀ peak ∈ peaks, height latest.length ≤ peak.1 := by
      intro peak hpeak
      have := hlowest peak hpeak
      omega
    rw [if_neg (List.append_ne_nil_of_right_ne_nil _ hne)]
    have hfold := foldPeaks_eq hrest hne hpeaks
    rw [hheight] at hfold
    apply congrArg hex hfold

/-- Feeding some more leaves. -/
theorem Holds.foldlM {acc : MerkleAccumulator} {xs : List Bytes} (h : Holds sha256 acc xs) {leaves : List Json.Str}
    {layer : List Bytes} (hlayer : leaves.mapM fromHex = .ok layer)
    : ∃ acc', leaves.foldlM (add sha256) acc = .ok acc' ∧ Holds sha256 acc' (xs ++ layer) := by
  induction leaves generalizing acc xs layer with
  | nil =>
    cases hlayer
    exact ⟨acc, rfl, by simpa using h⟩
  | cons leafHex leaves ih =>
    rw [List.mapM_cons] at hlayer
    rcases Except.bind_eq_ok.mp hlayer with ⟨leaf, hleaf, hrest⟩
    rcases Except.bind_eq_ok.mp hrest with ⟨rest, hread, heq⟩
    cases heq
    rcases ih (h.merge leaf) hread with ⟨acc', hacc', hholds⟩
    refine ⟨acc', ?_, by simpa using hholds⟩
    rw [List.foldlM_cons, add_ok acc hleaf]
    apply hacc'

/-- A leaf that is not hexadecimal stops both. -/
theorem foldlM_error {leaves : List Json.Str} {e : Error} (h : leaves.mapM fromHex = .error e) (acc : MerkleAccumulator)
    : leaves.foldlM (add sha256) acc = .error e := by
  induction leaves generalizing acc with
  | nil => cases h
  | cons leafHex leaves ih =>
    rw [List.mapM_cons] at h
    rw [List.foldlM_cons]
    cases hleaf : fromHex leafHex with
    | error e' =>
      rw [hleaf] at h
      rw [add_error acc hleaf]
      cases h
      rfl
    | ok leaf =>
      rw [hleaf] at h
      rw [add_ok acc hleaf]
      cases hrest : leaves.mapM fromHex with
      | error e' =>
        rw [hrest] at h
        rw [show e' = e from Except.error.inj h] at hrest
        apply ih hrest
      | ok rest =>
        rw [hrest] at h
        cases h

theorem count_foldlM {leaves : List Json.Str} {acc acc' : MerkleAccumulator}
    (h : leaves.foldlM (add sha256) acc = .ok acc')
    : acc'.count = acc.count + leaves.length := by
  induction leaves generalizing acc with
  | nil =>
    cases h
    rfl
  | cons leafHex leaves ih =>
    rw [List.foldlM_cons] at h
    rcases Except.bind_eq_ok.mp h with ⟨next, hnext, hrest⟩
    rw [ih hrest, count_add hnext, List.length_cons]
    omega

end MerkleAccumulator

open MerkleAccumulator (ofLeaves)

/-- The root of a log whose leaves are read. -/
theorem merkleRoot_eq {leaves : List Json.Str} {layer : List Bytes} (h : leaves.mapM fromHex = .ok layer)
    : merkleRoot sha256 leaves
        =
      .ok (if layer = [] then [] else hex (top (join sha256) (height layer.length) layer)) := by
  have hlength := Except.length_of_mapM h
  unfold merkleRoot
  by_cases hnone : leaves = []
  . rw [hnone, List.length_nil, List.length_eq_zero_iff] at hlength
    rw [if_pos hnone, hlength]
    rfl
  . have hne : layer ≠ [] := by
      intro heq
      rw [heq, List.length_nil] at hlength
      apply hnone (List.length_eq_zero_iff.mp hlength.symm)
    rw [if_neg hnone, if_neg hne, h]
    show Except.ok (hex ((lastLayer sha256 layer.length layer).headD [])) = _
    rw [lastLayer_eq sha256 hne (Nat.le_refl _)]
    rfl

theorem merkleRoot_error {leaves : List Json.Str} {e : Error} (h : leaves.mapM fromHex = .error e)
    : merkleRoot sha256 leaves = .error e := by
  unfold merkleRoot
  rw [if_neg, h]
  . rfl
  . rintro rfl
    cases h

theorem ofLeaves_root (sha256 : Bytes → Bytes) (leaves : List Json.Str)
    : (do return (← ofLeaves sha256 leaves).root sha256) = merkleRoot sha256 leaves := by
  unfold ofLeaves
  cases hlayer : leaves.mapM fromHex with
  | error e =>
    rw [MerkleAccumulator.foldlM_error hlayer, merkleRoot_error hlayer]
    rfl
  | ok layer =>
    rcases (@MerkleAccumulator.holds_empty sha256).foldlM hlayer with ⟨acc, hacc, hholds⟩
    rw [hacc, merkleRoot_eq hlayer]
    rw [List.nil_append] at hholds
    apply congrArg Except.ok hholds.root

/- The roots of the prefixes, in one pass. -/

theorem feed_eq (sha256 : Bytes → Bytes) (leaves : List Json.Str) {more : ℕ} {acc : MerkleAccumulator}
    (h : acc.count + more ≤ leaves.length)
    : acc.feed sha256 leaves more = ((leaves.drop acc.count).take more).foldlM (MerkleAccumulator.add sha256) acc := by
  induction more generalizing acc with
  | zero => rfl
  | succ more ih =>
    have hlt : acc.count < leaves.length := by omega
    rw [MerkleAccumulator.feed, List.getElem?_eq_getElem hlt, List.drop_eq_getElem_cons hlt, List.take_succ_cons,
      List.foldlM_cons]
    dsimp only
    cases hadd : acc.add sha256 leaves[acc.count] with
    | error e => rfl
    | ok next =>
      have hcount := MerkleAccumulator.count_add hadd
      have hnext := @ih next (by omega)
      rw [hcount] at hnext
      apply hnext

/-- An accumulator of the first leaves goes on to that of more of them. -/
theorem feed_ofLeaves {leaves : List Json.Str} {acc : MerkleAccumulator} {start count : ℕ}
    (hacc : ofLeaves sha256 (leaves.take start) = .ok acc) (hle : start ≤ count) (hlength : count ≤ leaves.length)
    : acc.feed sha256 leaves (count - acc.count) = ofLeaves sha256 (leaves.take count) := by
  have hcount : acc.count = start := by
    rw [MerkleAccumulator.count_foldlM hacc, List.length_take]
    simp only [MerkleAccumulator.empty]
    omega
  have hsplit : leaves.take count = leaves.take start ++ (leaves.drop start).take (count - start) := by
    rw [← List.take_append_drop start (leaves.take count), List.take_take, Nat.min_eq_left hle, List.drop_take]
  rw [feed_eq sha256 leaves (by omega), hcount, hsplit]
  unfold ofLeaves at hacc ⊢
  rw [List.foldlM_append, hacc]
  rfl

theorem rootsFrom_eq {leaves : List Json.Str} {wanted : List ℕ} {acc : MerkleAccumulator} {start : ℕ}
    (hacc : ofLeaves sha256 (leaves.take start) = .ok acc) (hwanted : wanted.Pairwise (· ≤ ·))
    (hstart : ∀ count ∈ wanted, start ≤ count) (hlength : ∀ count ∈ wanted, count ≤ leaves.length)
    : rootsFrom sha256 leaves wanted acc
        =
      wanted.mapM fun count => do return (count, ← merkleRoot sha256 (leaves.take count)) := by
  induction wanted generalizing acc start with
  | nil => rfl
  | cons count wanted ih =>
    have hfeed := feed_ofLeaves hacc (hstart count List.mem_cons_self) (hlength count List.mem_cons_self)
    have hroot := ofLeaves_root sha256 (leaves.take count)
    rw [rootsFrom, List.mapM_cons, hfeed, ← hroot]
    cases hnext : ofLeaves sha256 (leaves.take count) with
    | error e => rfl
    | ok next =>
      have hrest := ih hnext (List.pairwise_cons.mp hwanted).2 (List.pairwise_cons.mp hwanted).1
        fun later hlater => hlength later (List.mem_cons_of_mem _ hlater)
      show (do return (count, next.root sha256) :: (← rootsFrom sha256 leaves wanted next)) = _
      rw [hrest]
      rfl

theorem mem_wantedCounts (leaves : List Json.Str) (counts : List Obj) (count : ℕ)
    : count ∈ wantedCounts leaves counts ↔ ∃ v ∈ counts, countIn leaves.length v = some count := by
  simp [wantedCounts]

theorem le_of_mem_wantedCounts {leaves : List Json.Str} {counts : List Obj} {count : ℕ}
    (h : count ∈ wantedCounts leaves counts)
    : count ≤ leaves.length := by
  rcases (mem_wantedCounts leaves counts count).mp h with ⟨v, -, hv⟩
  unfold countIn at hv
  split at hv
  . split at hv
    . cases hv
      omega
    . cases hv
  . split at hv
    . cases hv
      omega
    . cases hv
  . cases hv

theorem prefixRoots_eq (sha256 : Bytes → Bytes) (leaves : List Json.Str) (counts : List Obj)
    : prefixRoots sha256 leaves counts
        =
      (wantedCounts leaves counts).mapM fun count => do return (count, ← merkleRoot sha256 (leaves.take count)) := by
  unfold prefixRoots
  apply @rootsFrom_eq sha256 leaves _ _ 0
  . rfl
  . have htotal : Std.Total fun a b : ℕ => a ≤ b := ⟨Nat.le_total⟩
    have htrans : IsTrans ℕ fun a b => a ≤ b := ⟨fun _ _ _ => Nat.le_trans⟩
    apply List.pairwise_insertionSort
  . intro count _
    apply Nat.zero_le
  . intro count hcount
    apply le_of_mem_wantedCounts hcount

/- The root with the paths. -/

theorem getLast?_layers (sha256 : Bytes → Bytes) (fuel : ℕ) (layer : List Bytes)
    : (LedgerOts.layers sha256 fuel layer).getLast? = some (lastLayer sha256 fuel layer) := by
  induction fuel generalizing layer with
  | zero => rfl
  | succ fuel ih =>
    unfold LedgerOts.layers lastLayer
    split
    . rcases @LedgerOts.layers_eq_cons sha256 fuel (parents sha256 (evened layer)) with ⟨rest, hrest⟩
      rw [← ih, hrest, List.getLast?_cons_cons]
    . rfl

theorem merkleRoot_eq_withPaths {leaves : List Json.Str} {layer : List Bytes} (h : leaves.mapM fromHex = .ok layer)
    : merkleRoot sha256 leaves = .ok ((LedgerOts.merkleRootAndPaths sha256 layer).1.elim [] hex) := by
  rw [merkleRoot_eq h]
  unfold LedgerOts.merkleRootAndPaths
  split
  . rfl
  . next hne =>
    dsimp only
    rw [getLast?_layers, lastLayer_eq sha256 hne (Nat.le_refl _)]
    rfl

/--
For every log, the root kept as the leaves arrive is, after each prefix, the root computed over that prefix, the entry
of the prefix's count among the roots of one pass, and the root that the paths lead to.
-/
theorem incremental_root (sha256 : Bytes → Bytes) (leaves : List Json.Str)
    : (∀ count,
        (do return (← ofLeaves sha256 (leaves.take count)).root sha256) = merkleRoot sha256 (leaves.take count)) ∧
      (∀ counts,
        prefixRoots sha256 leaves counts
          =
        (wantedCounts leaves counts).mapM fun count =>
          do return (count, (← ofLeaves sha256 (leaves.take count)).root sha256)) ∧
      ∀ count layer, (leaves.take count).mapM fromHex = .ok layer →
        merkleRoot sha256 (leaves.take count)
          =
        .ok ((LedgerOts.merkleRootAndPaths sha256 layer).1.elim [] hex) := by
  refine ⟨fun count => ofLeaves_root sha256 _, fun counts => ?_, fun count layer h => merkleRoot_eq_withPaths h⟩
  rw [prefixRoots_eq]
  congr 1
  funext count
  rw [← ofLeaves_root, bind_assoc]
  rfl

end RootStatement
