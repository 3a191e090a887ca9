import PrismPath.Hw.ImageSafety

/-!
This module contains when the two C targets agree on an image both of their loaders take: the embedded one has the
deeper stack, and gives the index of the matching edge in a signed byte.
-/

open Bytes TableFormat Evaluator ImageSafety

namespace TargetAgreement

theorem tables_of_loadImage {data : List UInt8} {image : Interp.Image} (h : Interp.loadImage data = some image)
    : ∃ words, headerWords? data = some words ∧ image.tables = imageTables data words := by
  unfold Interp.loadImage at h
  rcases Option.bind_eq_some_iff.mp h with ⟨words, hread, h⟩
  refine ⟨words, hread, ?_⟩
  dsimp only at h
  split at h
  . cases h
  . rcases Option.bind_eq_some_iff.mp h with ⟨atoms, hatoms, h⟩
    rcases Option.bind_eq_some_iff.mp h with ⟨nodes, hnodes, h⟩
    rcases Option.bind_eq_some_iff.mp h with ⟨edges, hedges, h⟩
    rcases Option.bind_eq_some_iff.mp h with ⟨prog, hprog, h⟩
    cases h
    simp only [Interp.Image.tables, imageTables, nodesOff, edgesOff, progOff, getElem?_readRecords hatoms,
      getElem?_readRecords hnodes, getElem?_readRecords hedges, getElem?_readRecords hprog]

/-- Both loaders read the same records. -/
theorem tables_eq {data : List UInt8} {image : Interp.Image} {table : PptEval.Table}
    (himage : Interp.loadImage data = some image) (htable : PptEval.parseTable data = .ok table)
    : table.tables = image.tables := by
  rcases tables_of_loadImage himage with ⟨words, hread, htables⟩
  rw [htables]
  exact tables_of_parseTable hread htable

theorem int8_eq_iff (index : Nat)
    : PptEval.int8 index = index ↔ index < 2 ^ 7 := by
  unfold PptEval.int8
  have hlt : index % 2 ^ 8 < 2 ^ 8 := Nat.mod_lt _ (by decide)
  have hle : index % 2 ^ 8 ≤ index := Nat.mod_le ..
  split <;> omega

/-- The target that reads the image in place gives the result of the interpreter. -/
def Agree (image : Interp.Image) (table : PptEval.Table) (index : Nat) (regs : Nat → Reg) : Prop :=
  ∃ result, Interp.evaluate image index regs = .ok result ∧ PptEval.evaluate table index regs = .ok result

/--
Up to the first edge that is true under the registers, the edges of the node are safe on the smaller stack, and
that edge is among the 128 a signed byte can count.
-/
def AgreeSafe (t : Tables) (regs : Nat → Reg) (node : Node) : Prop :=
  ∀ i < node.edgeCnt, (∀ j < i, ¬ EdgeTrue t regs Interp.stackMax (node.edgeOff + j)) →
    EdgeSafe t Interp.stackMax (node.edgeOff + i)
      ∧ (EdgeTrue t regs Interp.stackMax (node.edgeOff + i) → i < 2 ^ 7)

theorem agreeSafe_iff (t : Tables) (regs : Nat → Reg) (node : Node)
    : AgreeSafe t regs node
        ↔ ∃ result, firstMatch t regs Interp.stackMax node.edgeOff node.edgeCnt 0 = .ok result
          ∧ ∀ i, result = some i → i < 2 ^ 7 := by
  have hok := firstMatch_isOk_iff t regs Interp.stackMax node.edgeOff node.edgeCnt 0
  simp only [Nat.zero_add] at hok
  constructor
  . intro hsafe
    rcases hok.mpr fun i hi hnone => (hsafe i hi hnone).1 with ⟨result, hresult⟩
    refine ⟨result, hresult, fun i hi => ?_⟩
    rcases firstMatch_cases hresult with ⟨hnone, _⟩ | ⟨j, hj, hsome, htrue, hbefore⟩
    . rw [hnone] at hi
      cases hi
    . simp only [Nat.zero_add] at hsome htrue hbefore
      rw [hsome, Option.some.injEq] at hi
      rw [← hi]
      exact (hsafe j hj hbefore).2 htrue
  . rintro ⟨result, hresult, hbound⟩ i hi hnone
    refine ⟨hok.mp ⟨result, hresult⟩ i hi hnone, fun htrue => ?_⟩
    rcases firstMatch_cases hresult with ⟨_, hall⟩ | ⟨j, hj, hsome, hjtrue, hbefore⟩
    . simp only [Nat.zero_add] at hall
      exact absurd htrue (hall i hi)
    . simp only [Nat.zero_add] at hsome hjtrue hbefore
      -- both are the first true edge
      have hij : i = j := by
        by_contra hne
        rcases Nat.lt_or_gt_of_ne hne with hlt | hlt
        . exact hbefore i hlt htrue
        . exact hnone j hlt hjtrue
      rw [hij]
      exact hbound j hsome

theorem evaluate_of_node {t : Tables} {index : Nat} {node : Node} (hnode : t.node index = some node)
    (regs : Nat → Reg) (stackMax : Nat)
    : Evaluator.evaluate t regs stackMax index = firstMatch t regs stackMax node.edgeOff node.edgeCnt 0 := by
  simp only [Evaluator.evaluate, hnode]

/--
The targets give the same result at a node exactly when the edges they reach are safe on the smaller stack and the
one that matches is among the first 128.
-/
theorem targets_agree_iff (data : List UInt8) (image : Interp.Image) (table : PptEval.Table)
    (himage : Interp.loadImage data = some image) (htable : PptEval.parseTable data = .ok table) (index : Nat)
    (node : Node) (hnode : image.nodes[index]? = some node) (regs : Nat → Reg)
    : Agree image table index regs ↔ AgreeSafe image.tables regs node := by
  have hread : image.tables.node index = some node := hnode
  rw [agreeSafe_iff]
  unfold Agree Interp.evaluate PptEval.evaluate
  rw [tables_eq himage htable, ← evaluate_of_node hread]
  constructor
  . rintro ⟨result, hinterp, hppt⟩
    cases hfirst : Evaluator.evaluate image.tables regs Interp.stackMax index with
    | error fault =>
      rw [hfirst] at hinterp
      cases hinterp
    | ok found =>
      rw [evaluate_mono (by decide : Interp.stackMax ≤ PptEval.stackMax) hfirst] at hppt
      rw [hfirst] at hinterp
      refine ⟨found, rfl, fun i hi => ?_⟩
      rw [hi] at hinterp hppt
      simp only [Except.map, Except.ok.injEq] at hinterp hppt
      rw [← hinterp] at hppt
      exact (int8_eq_iff i).mp hppt
  . rintro ⟨found, hfirst, hbound⟩
    rw [hfirst, evaluate_mono (by decide : Interp.stackMax ≤ PptEval.stackMax) hfirst]
    cases found with
    | none => exact ⟨-1, rfl, rfl⟩
    | some i => exact ⟨i, rfl, by simp only [Except.map, (int8_eq_iff i).mpr (hbound i rfl)]⟩

/- A node whose only true edge is its 129th. -/

def manyEdgesHead : List UInt8 :=
  [80, 80, 84, 77, 1, 0, 0, 0, 1, 0, 0, 0, 1, 0, 129, 0, 2, 0, 0, 0, 255, 255, 25, 0, 1, 0, 0, 0, 0, 0, 129, 0]

def falseEdge : List UInt8 :=
  [0, 0, 0, 0, 1, 0]

def manyEdges : List UInt8 :=
  manyEdgesHead ++ ((List.replicate 128 falseEdge).flatten ++ [0, 0, 1, 0, 1, 0, 4, 128, 3, 128])

def manyEdgesWords : HeaderWords :=
  ⟨magic, formatVersion, 0, 1, 0, 1, 129, 2, 0, 65535, 25, 1, 0⟩

theorem getElem?_flatten_replicate {α : Type} (record : List α) {n i j : Nat} (hi : i < n) (hj : j < record.length)
    : (List.replicate n record).flatten[record.length * i + j]? = record[j]? := by
  induction n generalizing i with
  | zero => omega
  | succ n ih =>
    rw [List.replicate_succ, List.flatten_cons]
    rcases i with _ | i
    . rw [Nat.mul_zero, Nat.zero_add, List.getElem?_append_left hj]
    . rw [Nat.mul_succ, List.getElem?_append_right (by omega)]
      rw [show record.length * i + record.length + j - record.length = record.length * i + j by omega]
      exact ih (by omega)

theorem getElem?_manyEdges {i j : Nat} (hi : i < 128) (hj : j < 6)
    : manyEdges[32 + 6 * i + j]? = falseEdge[j]? := by
  have hhead : manyEdgesHead.length = 32 := rfl
  have hrecord : falseEdge.length = 6 := rfl
  have hflat : (List.replicate 128 falseEdge).flatten.length = 768 := by
    rw [List.length_flatten, List.map_replicate, List.sum_replicate]
    rfl
  have hbyte := getElem?_flatten_replicate falseEdge hi (hrecord.symm ▸ hj)
  rw [hrecord] at hbyte
  rw [manyEdges, List.getElem?_append_right (by omega), hhead, List.getElem?_append_left (by omega), ← hbyte]
  congr 1
  omega

theorem edge_manyEdges {i : Nat} (hi : i < 128)
    : (imageTables manyEdges manyEdgesWords).edge i = some ⟨0, 0, 1⟩ := by
  have hbyte : ∀ j < 6, u8? manyEdges (32 + 6 * i + j) = falseEdge[j]?.map UInt8.toNat := fun j hj => by
    rw [u8?, getElem?_manyEdges hi hj]
  have hoff : edgesOff manyEdgesWords = 32 := rfl
  have hedge : edgeAt? manyEdges (32 + 6 * i) = some ⟨0, 0, 1⟩ := by
    simp only [edgeAt?, u16?, Nat.add_assoc]
    have h₀ := hbyte 0 (by omega)
    have h₁ := hbyte 1 (by omega)
    have h₂ := hbyte 2 (by omega)
    have h₃ := hbyte 3 (by omega)
    have h₄ := hbyte 4 (by omega)
    have h₅ := hbyte 5 (by omega)
    simp only [Nat.add_assoc, Nat.add_zero] at h₀ h₁ h₂ h₃ h₄ h₅
    rw [h₀, h₁, h₂, h₃, h₄, h₅]
    rfl
  have hlt : i < manyEdgesWords.edges := Nat.lt_succ_of_lt hi
  simp only [imageTables, hoff, edgeSize]
  rw [if_pos hlt, hedge]

/-- Edges that are false are passed over. -/
theorem firstMatch_of_false {t : Tables} {regs : Nat → Reg} {stackMax edgeOff index : Nat} {n : Nat} (cnt : Nat)
    (h : ∀ i < n, ∃ edge, t.edge (edgeOff + (index + i)) = some edge
      ∧ evalProg t regs stackMax edge.progOff edge.progCnt [] = .ok false)
    : firstMatch t regs stackMax edgeOff (n + cnt) index = firstMatch t regs stackMax edgeOff cnt (index + n) := by
  induction n generalizing index with
  | zero => rw [Nat.zero_add, Nat.add_zero]
  | succ n ih =>
    rcases h 0 (by omega) with ⟨edge, hedge, hfalse⟩
    rw [Nat.add_zero] at hedge
    rw [show n + 1 + cnt = n + cnt + 1 by omega, firstMatch, hedge]
    simp only [hfalse]
    rw [ih, show index + 1 + n = index + (n + 1) by omega]
    intro i hi
    rw [show index + 1 + i = index + (i + 1) by omega]
    exact h (i + 1) (by omega)

theorem evaluate_manyEdges (regs : Nat → Reg)
    : Evaluator.evaluate (imageTables manyEdges manyEdgesWords) regs Interp.stackMax 0 = .ok (some 128) := by
  have hnode : (imageTables manyEdges manyEdgesWords).node 0 = some ⟨0, 129⟩ := by with_unfolding_all decide
  have hfalse : (imageTables manyEdges manyEdgesWords).word 0 = some opFalse := by decide +kernel
  have htrue : (imageTables manyEdges manyEdgesWords).word 1 = some opTrue := by decide +kernel
  have hlast : (imageTables manyEdges manyEdgesWords).edge 128 = some ⟨0, 1, 1⟩ := by decide +kernel
  rw [evaluate_of_node hnode, @firstMatch_of_false _ _ _ 0 0 128 1 fun i hi =>
    ⟨_, by rw [Nat.zero_add, Nat.zero_add]; exact edge_manyEdges hi, by simp only [evalProg, hfalse]; rfl⟩]
  simp only [firstMatch, Nat.zero_add, hlast, evalProg, htrue]
  rfl

theorem described_manyEdges
    : Described manyEdges ⟨0, 1, 0, 1, 129, 2, 0, 65535, 25, 1, 0, 0, false, false⟩ manyEdgesWords where
  read := by with_unfolding_all decide
  magic := rfl
  version := rfl
  fields := rfl
  atoms := rfl
  nodes := rfl
  edges := rfl
  progWords := rfl
  need := by decide +kernel

/-- The interpreter gives the edge 128, the other target -128. -/
theorem targets_disagree
    : ¬ ∀ (data : List UInt8) (image : Interp.Image) (table : PptEval.Table), Interp.loadImage data = some image →
        PptEval.parseTable data = .ok table →
          ∀ index node, image.nodes[index]? = some node → ∀ regs, Agree image table index regs := by
  intro hclaim
  let regs : Nat → Reg := fun _ => ⟨0, 0⟩
  rcases loadImage_of_described described_manyEdges with ⟨image, himage, htables⟩
  have hparse : (PptEval.parseTable manyEdges).toOption.isSome = true := by decide +kernel
  cases htable : PptEval.parseTable manyEdges with
  | error rc =>
    rw [htable] at hparse
    cases hparse
  | ok table =>
    have hnode : image.tables.node 0 = some ⟨0, 129⟩ := by
      rw [htables]
      with_unfolding_all decide
    have heval := evaluate_manyEdges regs
    rcases hclaim manyEdges image table himage htable 0 _ hnode regs with ⟨result, hinterp, hppt⟩
    rw [Interp.evaluate, htables, heval] at hinterp
    rw [PptEval.evaluate, tables_of_parseTable described_manyEdges.read htable,
      evaluate_mono (by decide : Interp.stackMax ≤ PptEval.stackMax) heval] at hppt
    rw [← hinterp] at hppt
    cases hppt

theorem targets_agree_iff_oneEdge
    : ∃ image table, Interp.loadImage oneEdge = some image ∧ PptEval.parseTable oneEdge = .ok table
        ∧ ∀ regs, Agree image table 0 regs ↔ AgreeSafe image.tables regs ⟨0, 1⟩ :=
  ⟨_, _, rfl, rfl, fun regs => targets_agree_iff oneEdge _ _ rfl rfl 0 ⟨0, 1⟩ rfl regs⟩

end TargetAgreement
