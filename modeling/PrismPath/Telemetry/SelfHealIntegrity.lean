import PrismPath.Ledgers.LedgerOts
import PrismPath.Lib.Process
import PrismPath.Python.ObjectLemmas
import PrismPath.Telemetry.SelfHeal

/-!
This module contains what a receiver that is complete has put together: the stream its root was computed over, if
every block it took came with a path of its own place.
-/

open Python

namespace SelfHeal

open LedgerOts

/- Texts. -/

theorem encodeAscii_injective {s t : Json.Str} {data : Bytes} (hs : encodeAscii s = some data)
    (ht : encodeAscii t = some data)
    : s = t := by
  unfold encodeAscii at hs ht
  split at hs
  . next hascii =>
    split at ht
    . next htascii =>
      simp only [Option.some.injEq] at hs ht
      rw [← hs] at ht
      rw [List.all_eq_true] at hascii htascii
      clear hs
      induction s generalizing t with
      | nil => simpa using ht.symm
      | cons c s ih =>
        rcases t with _ | ⟨c', t⟩
        . cases ht
        . rw [List.map_cons, List.map_cons, List.cons.injEq] at ht
          have hc := hascii c List.mem_cons_self
          have hc' := htascii c' List.mem_cons_self
          simp only [decide_eq_true_eq] at hc hc'
          have hval := congrArg UInt8.toNat ht.1
          simp only [UInt8.toNat_ofNat'] at hval
          have heq : c = c' := Fin.ext (by omega)
          rw [heq, ih (fun d hd => hascii d (List.mem_cons_of_mem _ hd))
            (fun d hd => htascii d (List.mem_cons_of_mem _ hd)) ht.2]
    . cases ht
  . cases hs

/- The blocks of a stream. -/

theorem flatMap_chunks (bits : Json.Str) (size n : ℕ)
    : ((List.range n).flatMap fun i => (bits.drop (i * size)).take size) = bits.take (n * size) := by
  induction n with
  | zero => simp
  | succ n ih =>
    rw [List.range_succ, List.flatMap_append, ih, Nat.succ_mul, List.take_add]
    simp

theorem flatten_chunk {bits : Json.Str} {blockBits : ℤ} {blocks : List Json.Str}
    (h : chunk bits blockBits = .ok blocks)
    : blocks.flatten = bits ∧ blocks ≠ [] := by
  unfold chunk at h
  split at h
  . cases h
  . next hpos =>
    dsimp only at h
    have hsize : 0 < blockBits.toNat := by omega
    have hflat := flatMap_chunks bits blockBits.toNat ((bits.length + blockBits.toNat - 1) / blockBits.toNat)
    have hall : bits.length ≤ (bits.length + blockBits.toNat - 1) / blockBits.toNat * blockBits.toNat := by
      have hdiv := Nat.div_add_mod (bits.length + blockBits.toNat - 1) blockBits.toNat
      have hmod := Nat.mod_lt (bits.length + blockBits.toNat - 1) hsize
      rw [Nat.mul_comm] at hdiv
      omega
    rw [List.take_of_length_le hall, List.flatMap_def] at hflat
    rw [Except.ok.injEq] at h
    split at h
    . next hempty =>
      rw [hempty] at hflat
      rw [← h, ← hflat]
      exact ⟨rfl, by simp⟩
    . next hne =>
      rw [← h]
      exact ⟨hflat, hne⟩

/- What a sender has committed to. -/

section

variable {sha256 : Bytes → Bytes}

def leafOf (sha256 : Bytes → Bytes) (block : Json.Str) : Bytes :=
  sha256 ((encodeAscii block).getD [])

theorem asciiDigest_eq_ok {block : Json.Str} {digest : Bytes} (h : asciiDigest sha256 block = .ok digest)
    : ∃ data, encodeAscii block = some data ∧ digest = sha256 data := by
  unfold asciiDigest at h
  split at h
  . next data hdata =>
    cases h
    exact ⟨data, hdata, rfl⟩
  . cases h

/-- The inputs that are hashed for the root of a sender. -/
def Sender.hashed (sha256 : Bytes → Bytes) (sender : Sender) : List Bytes :=
  sender.blocks.map (fun block => (encodeAscii block).getD [])
    ++ treePayloads sha256 sender.nBlocks (sender.blocks.map (leafOf sha256))

theorem sender_new {bits : Json.Str} {blockBits : ℤ} {sender : Sender}
    (h : Sender.new sha256 bits blockBits = .ok sender)
    : sender.blocks.flatten = bits
        ∧ (∀ block ∈ sender.blocks, ∃ data, encodeAscii block = some data)
        ∧ ∃ root, sender.root = some (hex root)
          ∧ treeRoot sha256 sender.nBlocks (sender.blocks.map (leafOf sha256)) = some root := by
  unfold Sender.new at h
  rcases Except.bind_eq_ok.mp h with ⟨blocks, hblocks, h⟩
  rcases Except.bind_eq_ok.mp h with ⟨⟨root, proofs⟩, hcommit, h⟩
  cases h
  rcases flatten_chunk hblocks with ⟨hflat, hne⟩
  unfold commit at hcommit
  rcases Except.bind_eq_ok.mp hcommit with ⟨leaves, hleaves, hcommit⟩
  cases hcommit
  have hlen := Except.length_of_mapM hleaves
  have hdata : ∀ (i : ℕ) (block : Json.Str), blocks[i]? = some block →
      ∃ data, encodeAscii block = some data ∧ leaves[i]? = some (sha256 data) := by
    intro i block hi
    rcases Except.getElem?_of_mapM hleaves hi with ⟨digest, hdigest, hok⟩
    rcases asciiDigest_eq_ok hok with ⟨data, hdata, rfl⟩
    exact ⟨data, hdata, hdigest⟩
  have hleavesEq : leaves = blocks.map (leafOf sha256) := by
    apply List.ext_getElem?
    intro i
    rw [List.getElem?_map]
    cases hi : blocks[i]? with
    | none =>
      rw [List.getElem?_eq_none_iff] at hi
      rw [List.getElem?_eq_none (by omega), Option.map_none]
    | some block =>
      rcases hdata i block hi with ⟨data, hdata, hleaf⟩
      rw [hleaf, Option.map_some, leafOf, hdata, Option.getD_some]
  refine ⟨hflat, ?_, ?_⟩
  . intro block hblock
    rcases List.getElem?_of_mem hblock with ⟨i, hi⟩
    rcases hdata i block hi with ⟨data, hdata, -⟩
    exact ⟨data, hdata⟩
  . have hneLeaves : leaves ≠ [] := by
      rw [← List.length_pos_iff, hlen, List.length_pos_iff]
      exact hne
    have hpos : leaves.length ≤ leaves.length := le_refl _
    rcases exists_treeRoot sha256 hneLeaves hpos with ⟨root, hroot⟩
    refine ⟨root, ?_, ?_⟩
    . have hpair : (merkleRootAndPaths sha256 leaves).1 = some root := by
        unfold merkleRootAndPaths
        rw [if_neg hneLeaves]
        exact hroot
      exact congrArg (Option.map hex) hpair
    . rw [Sender.nBlocks, ← hleavesEq, ← hlen]
      exact hroot

/- The receiver. -/

structure Call where
  idx : ℤ
  block : Json.Str
  proof : Proof

def deliver (sha256 : Bytes → Bytes) (receiver : Receiver) (call : Call) : Receiver :=
  match receiver.accept sha256 call.idx call.block call.proof with
  | .ok (_, receiver) => receiver
  | .error _ => receiver

/-- The inputs that are hashed for the block of a call and its path. -/
def Call.hashed (sha256 : Bytes → Bytes) (call : Call) : List Bytes :=
  match encodeAscii call.block, readProof call.proof with
  | some data, .ok path => data :: climbPayloads sha256 (sha256 data) path
  | _, _ => []

/-- A block whose path climbs to the root comes with a path of its own place. -/
def InPlace (sha256 : Bytes → Bytes) (sender : Sender) (call : Call) : Prop :=
  0 ≤ call.idx → call.idx < sender.nBlocks → verifyBlock sha256 call.block call.proof sender.root = .ok true →
    ∀ path, readProof call.proof = .ok path →
      path.map Prod.fst = sides sender.nBlocks sender.nBlocks call.idx.toNat

theorem block_of_verified (hlength : ∀ x, (sha256 x).length = 32) {bits : Json.Str} {blockBits : ℤ} {sender : Sender}
    (hsender : Sender.new sha256 bits blockBits = .ok sender) {call : Call} (hplace : InPlace sha256 sender call)
    (hfree : CollisionFree sha256 (sender.hashed sha256 ++ call.hashed sha256)) (hpos : 0 ≤ call.idx)
    (hlt : call.idx < sender.nBlocks) (hverify : verifyBlock sha256 call.block call.proof sender.root = .ok true)
    : sender.blocks[call.idx.toNat]? = some call.block := by
  have hsides := hplace hpos hlt hverify
  rcases sender_new hsender with ⟨-, hascii, root, hroot, htree⟩
  unfold verifyBlock at hverify
  rcases Except.bind_eq_ok.mp hverify with ⟨leaf, hleaf, hverify⟩
  rcases Except.bind_eq_ok.mp hverify with ⟨path, hpath, hverify⟩
  rcases asciiDigest_eq_ok hleaf with ⟨data, hdata, rfl⟩
  rw [Call.hashed, hdata, hpath] at hfree
  have hclimb : root = climb sha256 (sha256 data) path := by
    have heq : sender.root = some (hex (climb sha256 (sha256 data) path)) := by
      simpa [pure, Except.pure] using hverify
    rw [hroot, Option.some.injEq] at heq
    exact hex_injective heq
  have hidx : call.idx.toNat < (sender.blocks.map (leafOf sha256)).length := by
    rw [List.length_map]
    rw [Sender.nBlocks] at hlt
    omega
  have hleaves : ∀ d ∈ sender.blocks.map (leafOf sha256), d.length = 32 := by
    intro d hd
    rcases List.mem_map.mp hd with ⟨block, -, rfl⟩
    exact hlength _
  have htold := leaf_of_climb hlength hidx (by rw [List.length_map, Sender.nBlocks])
    (by rw [hleaves _ (List.getElem_mem hidx), hlength]) (by rw [List.length_map]; exact hsides path hpath) (hclimb ▸ htree) (hfree.mono (by
      intro x hx
      simp only [Sender.hashed, List.mem_append, List.mem_cons] at hx ⊢
      tauto))
  rw [List.getElem?_map, Option.map_eq_some_iff] at htold
  rcases htold with ⟨block, hblock, hsame⟩
  have hmem := List.mem_of_getElem? hblock
  rcases hascii block hmem with ⟨data', hdata'⟩
  rw [leafOf, hdata', Option.getD_some] at hsame
  have heq : data' = data := by
    refine hfree _ ?_ _ ?_ hsame
    . refine List.mem_append_left _ (List.mem_append_left _ (List.mem_map.mpr ⟨block, hmem, ?_⟩))
      rw [hdata', Option.getD_some]
    . exact List.mem_append_right _ List.mem_cons_self
  have hblocks : block = call.block := encodeAscii_injective (heq ▸ hdata') hdata
  rw [hblock, hblocks]

/-- What a receiver holds, each at its place. -/
structure Kept (sender : Sender) (receiver : Receiver) : Prop where
  root : receiver.root = sender.root
  n : receiver.n = sender.nBlocks
  nodup : (receiver.blocks.map Prod.fst).Nodup
  placed : ∀ i block, (i, block) ∈ receiver.blocks → 0 ≤ i ∧ sender.blocks[i.toNat]? = some block

theorem kept_deliver (hlength : ∀ x, (sha256 x).length = 32) {bits : Json.Str} {blockBits : ℤ} {sender : Sender}
    (hsender : Sender.new sha256 bits blockBits = .ok sender) {receiver : Receiver} (hkept : Kept sender receiver)
    {call : Call} (hplace : InPlace sha256 sender call)
    (hfree : CollisionFree sha256 (sender.hashed sha256 ++ call.hashed sha256))
    : Kept sender (deliver sha256 receiver call) := by
  unfold deliver Receiver.accept
  by_cases hrange : 0 ≤ call.idx ∧ call.idx < receiver.n
  . simp only [hrange, decide_true, Bool.and_self, Bool.not_true, Bool.false_eq_true, if_false]
    rw [hkept.root]
    cases hverify : verifyBlock sha256 call.block call.proof sender.root with
    | error e => exact hkept
    | ok verified =>
      cases verified with
      | false => exact hkept
      | true =>
        refine ⟨rfl, hkept.n, Dict.nodup_set hkept.nodup _ _, ?_⟩
        intro i block hmem
        rcases Dict.mem_set hmem with heq | hmem
        . cases heq
          have hlt := hrange.2
          rw [hkept.n] at hlt
          exact ⟨hrange.1, block_of_verified hlength hsender hplace hfree hrange.1 hlt hverify⟩
        . exact hkept.placed i block hmem
  . have hout : (!(decide (0 ≤ call.idx) && decide (call.idx < receiver.n))) = true := by
      rw [← Bool.decide_and, Bool.not_eq_true', decide_eq_false_iff_not]
      exact hrange
    rw [hout]
    exact hkept

theorem kept_run (hlength : ∀ x, (sha256 x).length = 32) {bits : Json.Str} {blockBits : ℤ} {sender : Sender}
    (hsender : Sender.new sha256 bits blockBits = .ok sender) {receiver : Receiver} (hkept : Kept sender receiver)
    {calls : List Call} (hplace : ∀ call ∈ calls, InPlace sha256 sender call)
    (hfree : CollisionFree sha256 (sender.hashed sha256 ++ calls.flatMap (Call.hashed sha256)))
    : Kept sender (calls.foldl (deliver sha256) receiver) := by
  induction calls generalizing receiver with
  | nil => exact hkept
  | cons call calls ih =>
    rw [List.forall_mem_cons] at hplace
    rw [List.flatMap_cons] at hfree
    refine ih (kept_deliver hlength hsender hkept hplace.1 (hfree.mono ?_)) hplace.2 (hfree.mono ?_)
    . intro x hx
      simp only [List.mem_append] at hx ⊢
      tauto
    . intro x hx
      simp only [List.mem_append] at hx ⊢
      tauto

theorem assemble_of_kept {sender : Sender} {receiver : Receiver} (hkept : Kept sender receiver)
    (hcomplete : receiver.complete = true)
    : receiver.assemble = .ok sender.blocks.flatten := by
  have hlength : receiver.blocks.length = receiver.n := by
    simpa [Receiver.complete] using hcomplete
  have hplaces : receiver.blocks.map Prod.fst ⊆ (List.range receiver.n).map Int.ofNat := by
    intro i hi
    rcases List.mem_map.mp hi with ⟨⟨i', block⟩, hmem, rfl⟩
    rcases hkept.placed i' block hmem with ⟨hpos, hblock⟩
    have hlt := (List.getElem?_eq_some_iff.mp hblock).1
    rw [← Sender.nBlocks, ← hkept.n] at hlt
    exact List.mem_map.mpr ⟨i'.toNat, List.mem_range.mpr hlt, Int.toNat_of_nonneg hpos⟩
  -- no place is held twice, so none is missing
  have hperm := (hkept.nodup.subperm hplaces).perm_of_length_le (by simp [hlength])
  have hall : ∀ i ∈ List.range receiver.n, receiver.blockAt i = .ok ((sender.blocks[i]?).getD []) := by
    intro i hi
    have hmem : (i : ℤ) ∈ receiver.blocks.map Prod.fst := hperm.mem_iff.mpr (List.mem_map.mpr ⟨i, hi, rfl⟩)
    rcases List.mem_map.mp hmem with ⟨p, hp, hfst⟩
    have hsome : (receiver.blocks.lookup (i : ℤ)).isSome = true := by
      rw [List.lookup_isSome_iff]
      exact ⟨p, hp, by simpa using hfst.symm⟩
    rcases Option.isSome_iff_exists.mp hsome with ⟨block, hblock⟩
    rcases List.lookup_eq_some_iff.mp hblock with ⟨l₁, l₂, heq, _⟩
    have hplaced := (hkept.placed i block (by rw [heq]; simp)).2
    rw [Int.toNat_natCast] at hplaced
    simp only [Receiver.blockAt, hblock, hplaced, Option.getD_some]
  have hblocks : (List.range receiver.n).map (fun i => (sender.blocks[i]?).getD []) = sender.blocks := by
    rw [hkept.n, Sender.nBlocks]
    apply List.ext_getElem
    . simp
    . intro i h₁ h₂
      simp [List.getElem?_eq_getElem h₂]
  unfold Receiver.assemble
  rw [hcomplete, Except.mapM_eq_map hall, hblocks]
  rfl

/--
A receiver that is complete has the stream of the sender, if no two of the inputs hashed have one digest, and every
block whose path climbs to the root came with a path of its own place.
-/
theorem receiver_integrity (hlength : ∀ x, (sha256 x).length = 32) {bits : Json.Str} {blockBits : ℤ}
    {sender : Sender} (hsender : Sender.new sha256 bits blockBits = .ok sender) (calls : List Call)
    (hfree : CollisionFree sha256 (sender.hashed sha256 ++ calls.flatMap (Call.hashed sha256)))
    (hplace : ∀ call ∈ calls, InPlace sha256 sender call)
    (hcomplete : (calls.foldl (deliver sha256) { root := sender.root, n := sender.nBlocks }).complete = true)
    : (calls.foldl (deliver sha256) { root := sender.root, n := sender.nBlocks }).assemble = .ok bits := by
  have hkept : Kept sender { root := sender.root, n := sender.nBlocks } :=
    ⟨rfl, rfl, List.nodup_nil, fun i block hmem => by cases hmem⟩
  rw [assemble_of_kept (kept_run hlength hsender hkept hplace hfree) hcomplete, (sender_new hsender).1]

end

/- A stream of two blocks, with the digests that are taken for it. -/

def zeroDigest : Bytes :=
  [95, 236, 235, 102, 255, 200, 111, 56, 217, 82, 120, 108, 109, 105, 108, 121, 194, 219, 194, 57, 221, 78, 145, 180,
  103, 41, 215, 58, 39, 251, 87, 233]

def oneDigest : Bytes :=
  [107, 134, 178, 115, 255, 52, 252, 225, 157, 107, 128, 78, 255, 90, 63, 87, 71, 173, 164, 234, 162, 47, 29, 73,
  192, 30, 82, 221, 183, 135, 91, 75]

def zeroOneDigest : Bytes :=
  [185, 177, 10, 27, 199, 125, 42, 36, 29, 18, 3, 36, 219, 127, 59, 129, 178, 237, 182, 126, 184, 233, 207, 2, 175,
  156, 149, 211, 3, 41, 174, 245]

def zeroOneSha (data : Bytes) : Bytes :=
  if data = textBytes ['0'] then zeroDigest
  else if data = textBytes ['1'] then oneDigest
  else if data = zeroDigest ++ oneDigest then zeroOneDigest
  else List.replicate 32 0

def zeroOne : Sender where
  blocks := [str "0", str "1"]
  blockBits := 1
  root := some (hex zeroOneDigest)
  proofs := [[(str "R", hex oneDigest)], [(str "L", hex zeroDigest)]]

theorem zeroOne_new
    : Sender.new zeroOneSha (str "01") 1 = .ok zeroOne := by
  rfl

/-- The first block and its path are taken at the second place too. -/
theorem zeroOne_misplaced
    : CollisionFree zeroOneSha (zeroOne.hashed zeroOneSha
          ++ ([⟨0, str "0", [(str "R", hex oneDigest)]⟩, ⟨1, str "0", [(str "R", hex oneDigest)]⟩] : List Call).flatMap
            (Call.hashed zeroOneSha))
        ∧ (let receiver := ([⟨0, str "0", [(str "R", hex oneDigest)]⟩,
              ⟨1, str "0", [(str "R", hex oneDigest)]⟩] : List Call).foldl (deliver zeroOneSha)
                { root := zeroOne.root, n := zeroOne.nBlocks }
          receiver.complete = true ∧ receiver.assemble.toOption = some (str "00")) := by
  refine ⟨?_, by with_unfolding_all decide⟩
  unfold CollisionFree
  with_unfolding_all decide

theorem length_zeroOneSha (data : Bytes)
    : (zeroOneSha data).length = 32 := by
  unfold zeroOneSha
  split
  . rfl
  . split
    . rfl
    . split
      . rfl
      . rfl

theorem zeroOne_integrity
    : (([⟨1, str "1", [(str "L", hex zeroDigest)]⟩, ⟨0, str "0", [(str "R", hex oneDigest)]⟩] : List Call).foldl
        (deliver zeroOneSha) { root := zeroOne.root, n := zeroOne.nBlocks }).assemble = .ok (str "01") := by
  apply receiver_integrity length_zeroOneSha zeroOne_new
  . unfold CollisionFree
    with_unfolding_all decide
  . have hone : readProof [(str "L", hex zeroDigest)] = .ok [(.left, zeroDigest)] := by rfl
    have hzero : readProof [(str "R", hex oneDigest)] = .ok [(.right, oneDigest)] := by rfl
    simp only [List.forall_mem_cons, List.not_mem_nil, false_implies, implies_true, and_true]
    constructor
    . intro _ _ _ path hpath
      rw [hone] at hpath
      cases hpath
      decide
    . intro _ _ _ path hpath
      rw [hzero] at hpath
      cases hpath
      decide
  . with_unfolding_all decide

end SelfHeal
