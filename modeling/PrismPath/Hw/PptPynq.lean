import PrismPath.Hw.PptInterp
import PrismPath.Hw.ImageSafety
import PrismPath.Lib.Runs

/-!
This module contains the board's driver: the words it writes through the load port for an image, and that the memories
of the interpreter circuit hold the image after them.
-/

open Bytes TableFormat PptInterp Writes

namespace PptPynq

def load (sel addr : Nat) (data : BitVec 32) : LoadWord :=
  ⟨BitVec.ofNat 3 sel, BitVec.ofNat 16 addr, data⟩

def atomKind (atom : Atom) : BitVec 32 :=
  BitVec.ofNat 32 (atom.ty <<< 24 ||| atom.op <<< 16 ||| atom.field)

def nodeWord (node : Node) : BitVec 32 :=
  BitVec.ofNat 32 (node.edgeCnt <<< 16 ||| node.edgeOff)

def edgeWord (edge : Edge) : BitVec 32 :=
  BitVec.ofNat 32 (edge.progOff <<< 16 ||| edge.target)

def enumerated {α : Type} (records : List α) (f : Nat → α → List LoadWord) : List LoadWord :=
  records.zipIdx.flatMap fun (record, i) => f i record

/-- The words of `load_image`, after its soft reset. -/
def loadImage (image : Interp.Image) : List LoadWord :=
  load 0 0 (BitVec.ofNat 32 image.visitsIdx)
    :: (enumerated image.atoms (fun i atom => [load 1 i (atomKind atom), load 2 i (BitVec.ofInt 32 atom.val)])
      ++ enumerated image.nodes (fun i node => [load 3 i (nodeWord node)])
      ++ enumerated image.edges (fun i edge => [load 4 i (edgeWord edge), load 5 i (BitVec.ofNat 32 edge.progCnt)])
      ++ enumerated image.prog fun i word => [load 6 i (BitVec.ofNat 32 word)])

/-- The datum the image has for an address of a table. -/
def imageWord (image : Interp.Image) (sel addr : Nat) : Option (BitVec 32) :=
  match sel with
  | 0 => if addr = 0 then some (BitVec.ofNat 32 image.visitsIdx) else none
  | 1 => image.atoms[addr]?.map atomKind
  | 2 => image.atoms[addr]?.map fun atom => BitVec.ofInt 32 atom.val
  | 3 => image.nodes[addr]?.map nodeWord
  | 4 => image.edges[addr]?.map edgeWord
  | 5 => image.edges[addr]?.map fun edge => BitVec.ofNat 32 edge.progCnt
  | 6 => image.prog[addr]?.map (BitVec.ofNat 32)
  | _ => none

theorem mem_enumerated {α : Type} {records : List α} {f : Nat → α → List LoadWord} {w : LoadWord}
    : w ∈ enumerated records f ↔ ∃ i record, records[i]? = some record ∧ w ∈ f i record := by
  simp only [enumerated, List.mem_flatMap, Prod.exists, List.mem_zipIdx_iff_getElem?]
  exact exists_comm

/-- The driver writes what the image has, and all of it. -/
theorem mem_loadImage {image : Interp.Image} {w : LoadWord}
    : w ∈ loadImage image ↔ ∃ sel addr data, imageWord image sel addr = some data ∧ w = load sel addr data := by
  simp only [loadImage, List.mem_cons, List.mem_append, mem_enumerated, List.not_mem_nil, or_false]
  constructor
  . rintro (rfl | (((⟨i, r, hr, rfl | rfl⟩ | ⟨i, r, hr, rfl⟩) | ⟨i, r, hr, rfl | rfl⟩) | ⟨i, r, hr, rfl⟩))
    . exact ⟨0, 0, _, rfl, rfl⟩
    . exact ⟨1, i, _, by rw [imageWord, hr]; rfl, rfl⟩
    . exact ⟨2, i, _, by rw [imageWord, hr]; rfl, rfl⟩
    . exact ⟨3, i, _, by rw [imageWord, hr]; rfl, rfl⟩
    . exact ⟨4, i, _, by rw [imageWord, hr]; rfl, rfl⟩
    . exact ⟨5, i, _, by rw [imageWord, hr]; rfl, rfl⟩
    . exact ⟨6, i, _, by rw [imageWord, hr]; rfl, rfl⟩
  . rintro ⟨sel, addr, data, hdata, rfl⟩
    unfold imageWord at hdata
    split at hdata
    . split at hdata
      . next haddr =>
        cases hdata
        rw [haddr]
        exact .inl rfl
      . cases hdata
    all_goals
      first
        | (rcases Option.map_eq_some_iff.mp hdata with ⟨r, hr, rfl⟩; grind)
        | cases hdata

/-- The image has its records in the bits of its words. -/
structure Encoded (image : Interp.Image) : Prop where
  visitsIdx : image.visitsIdx < 2 ^ 16
  atom : ∀ (i : Nat) (atom : Atom), image.atoms[i]? = some atom →
    atom.field < 2 ^ 16 ∧ atom.op < 2 ^ 8 ∧ -2 ^ 31 ≤ atom.val ∧ atom.val < 2 ^ 31
  node : ∀ (i : Nat) (node : Node), image.nodes[i]? = some node → node.edgeOff < 2 ^ 16 ∧ node.edgeCnt < 2 ^ 16
  edge : ∀ (i : Nat) (edge : Edge), image.edges[i]? = some edge →
    edge.target < 2 ^ 16 ∧ edge.progOff < 2 ^ 16 ∧ edge.progCnt < 2 ^ 16
  word : ∀ (i word : Nat), image.prog[i]? = some word → word < 2 ^ 16
  atoms : image.atoms.length < 2 ^ 16
  nodes : image.nodes.length < 2 ^ 16
  edges : image.edges.length < 2 ^ 16
  prog : image.prog.length < 2 ^ 16

/-- The image fits the memories of the core. -/
structure Fits (p : Params) (image : Interp.Image) : Prop where
  fields : image.fields ≤ p.maxFields
  atoms : image.atoms.length ≤ p.maxAtoms
  nodes : image.nodes.length ≤ p.maxNodes
  edges : image.edges.length ≤ p.maxEdges
  prog : image.prog.length ≤ p.maxProg

/-- The memories of the core hold the image. -/
structure Holds (core : Core) (image : Interp.Image) : Prop where
  visitsIdx : core.visitsIdx = BitVec.ofNat 16 image.visitsIdx
  atom : ∀ (i : Nat) (atom : Atom), image.atoms[i]? = some atom →
    core.atomField i = BitVec.ofNat 16 atom.field ∧ core.atomOp i = BitVec.ofNat 8 atom.op
      ∧ core.atomTy i = BitVec.ofNat 2 atom.ty ∧ core.atomVal i = BitVec.ofInt 32 atom.val
  node : ∀ (i : Nat) (node : Node), image.nodes[i]? = some node →
    core.nodeEoff i = BitVec.ofNat 16 node.edgeOff ∧ core.nodeEcnt i = BitVec.ofNat 16 node.edgeCnt
  edge : ∀ (i : Nat) (edge : Edge), image.edges[i]? = some edge →
    core.edgeTgt i = BitVec.ofNat 16 edge.target ∧ core.edgePoff i = BitVec.ofNat 16 edge.progOff
      ∧ core.edgePcnt i = BitVec.ofNat 16 edge.progCnt
  word : ∀ (i word : Nat), image.prog[i]? = some word → core.prog i = BitVec.ofNat 16 word

theorem port_of_lt {size addr : Nat} (hsize : addr < size) (hbits : addr < 2 ^ 16)
    : port size (BitVec.ofNat 16 addr) = addr := by
  rw [port, BitVec.toNat_ofNat, Nat.mod_eq_of_lt hbits]
  exact Nat.mod_eq_of_lt (hsize.trans_le (Nat.le_pow_clog (by decide) size))

theorem toNat_load_sel {image : Interp.Image} {sel addr : Nat} {data : BitVec 32}
    (hdata : imageWord image sel addr = some data)
    : (load sel addr data).sel.toNat = sel := by
  have hlt : sel < 8 := by
    unfold imageWord at hdata
    split at hdata <;> first | omega | cases hdata
  exact (BitVec.toNat_ofNat sel 3).trans (Nat.mod_eq_of_lt hlt)

/-- A memory behind one number of the load port. -/
def Loads {β : Type} (p : Params) (sel size : Nat) (get : Core → Nat → β) (value : BitVec 32 → β) : Prop :=
  ∀ core w, get (loadWord p core w) =
    if w.sel.toNat = sel then Function.update (get core) (port size w.addr) (value w.data) else get core

/-- A memory behind the load port holds the image's data at its addresses, whatever it held. -/
theorem Loads.read {p : Params} {image : Interp.Image} {sel size : Nat} {β : Type} {get : Core → Nat → β}
    {value : BitVec 32 → β} (hload : Loads p sel size get value)
    (hfits : ∀ addr data, imageWord image sel addr = some data → addr < size ∧ addr < 2 ^ 16)
    {addr : Nat} {data : BitVec 32} (hdata : imageWord image sel addr = some data) (core : Core)
    : get ((loadImage image).foldl (loadWord p) core) addr = value data := by
  have hcell : Cell (loadWord p) (fun core => get core addr)
      (fun w => w.sel.toNat = sel ∧ port size w.addr = addr) fun w => value w.data := by
    constructor
    . rintro core w ⟨hw, hport⟩
      simp only [hload core w, if_pos hw, hport, Function.update_self]
    . intro core w hw
      simp only [hload core w]
      split
      . next heq => exact Function.update_of_ne (fun h => hw ⟨heq, h.symm⟩) ..
      . rfl
  refine hcell.holds ?_ ?_ core
  . rintro w hw ⟨hwsel, hport⟩
    rcases mem_loadImage.mp hw with ⟨sel', addr', data', hdata', rfl⟩
    rw [toNat_load_sel hdata'] at hwsel
    rw [hwsel] at hdata'
    have hlt := hfits addr' data' hdata'
    have haddr : addr' = addr := by
      rw [load, port_of_lt hlt.1 hlt.2] at hport
      exact hport
    rw [haddr, hdata] at hdata'
    cases hdata'
    rfl
  . have hlt := hfits addr data hdata
    exact ⟨_, mem_loadImage.mpr ⟨sel, addr, data, hdata, rfl⟩, toNat_load_sel hdata, port_of_lt hlt.1 hlt.2⟩

section

variable (p : Params)

theorem loads_atomField
    : Loads p 1 p.maxAtoms Core.atomField (bits 16 0) := by
  intro core w
  unfold loadWord
  dsimp only
  split <;> simp_all

theorem loads_atomOp
    : Loads p 1 p.maxAtoms Core.atomOp (bits 8 16) := by
  intro core w
  unfold loadWord
  dsimp only
  split <;> simp_all

theorem loads_atomTy
    : Loads p 1 p.maxAtoms Core.atomTy (bits 2 24) := by
  intro core w
  unfold loadWord
  dsimp only
  split <;> simp_all

theorem loads_atomVal
    : Loads p 2 p.maxAtoms Core.atomVal id := by
  intro core w
  unfold loadWord
  dsimp only
  split <;> simp_all

theorem loads_nodeEoff
    : Loads p 3 p.maxNodes Core.nodeEoff (bits 16 0) := by
  intro core w
  unfold loadWord
  dsimp only
  split <;> simp_all

theorem loads_nodeEcnt
    : Loads p 3 p.maxNodes Core.nodeEcnt (bits 16 16) := by
  intro core w
  unfold loadWord
  dsimp only
  split <;> simp_all

theorem loads_edgeTgt
    : Loads p 4 p.maxEdges Core.edgeTgt (bits 16 0) := by
  intro core w
  unfold loadWord
  dsimp only
  split <;> simp_all

theorem loads_edgePoff
    : Loads p 4 p.maxEdges Core.edgePoff (bits 16 16) := by
  intro core w
  unfold loadWord
  dsimp only
  split <;> simp_all

theorem loads_edgePcnt
    : Loads p 5 p.maxEdges Core.edgePcnt (bits 16 0) := by
  intro core w
  unfold loadWord
  dsimp only
  split <;> simp_all

theorem loads_prog
    : Loads p 6 p.maxProg Core.prog (bits 16 0) := by
  intro core w
  unfold loadWord
  dsimp only
  split <;> simp_all

end

/- The bits of a word. -/

theorem bits_ofNat {w lo : Nat} (h : lo + w ≤ 32) (n : Nat)
    : bits w lo (BitVec.ofNat 32 n) = BitVec.ofNat w (n >>> lo) := by
  apply BitVec.eq_of_getLsbD_eq
  intro i hi
  have hlow : lo + i < 32 := by omega
  simp only [bits, BitVec.getLsbD_setWidth, BitVec.getLsbD_ushiftRight, BitVec.getLsbD_ofNat, Nat.testBit_shiftRight,
    hi, hlow, decide_true, Bool.true_and]

theorem shiftRight_pack {hi lo k : Nat} (hlo : lo < 2 ^ k)
    : (hi <<< k ||| lo) >>> k = hi := by
  apply Nat.eq_of_testBit_eq
  intro i
  have hzero : lo.testBit (k + i) = false := Nat.testBit_lt_two_pow (hlo.trans_le (Nat.pow_le_pow_right (by decide) (by omega)))
  simp [Nat.testBit_shiftRight, Nat.testBit_or, Nat.testBit_shiftLeft, hzero]

theorem ofNat_pack (hi lo k : Nat)
    : BitVec.ofNat k (hi <<< k ||| lo) = BitVec.ofNat k lo := by
  apply BitVec.eq_of_getLsbD_eq
  intro i hi
  simp only [BitVec.getLsbD_ofNat, Nat.testBit_or, Nat.testBit_shiftLeft, hi, decide_true, Bool.true_and,
    decide_eq_false (Nat.not_le.mpr hi), Bool.false_and, Bool.false_or]

section

variable {p : Params} {image : Interp.Image}

theorem lt_of_map {α β : Type} {records : List α} {f : α → β} {addr size : Nat} {data : β}
    (hsize : records.length ≤ size) (hbits : records.length < 2 ^ 16) (h : records[addr]?.map f = some data)
    : addr < size ∧ addr < 2 ^ 16 := by
  rcases Option.map_eq_some_iff.mp h with ⟨record, hrecord, _⟩
  have hlt := (List.getElem?_eq_some_iff.mp hrecord).1
  omega

theorem bits_low (hi lo : Nat)
    : bits 16 0 (BitVec.ofNat 32 (hi <<< 16 ||| lo)) = BitVec.ofNat 16 lo := by
  rw [bits_ofNat (by decide), Nat.shiftRight_zero, ofNat_pack]

theorem bits_high (hi : Nat) {lo : Nat} (hlo : lo < 2 ^ 16)
    : bits 16 16 (BitVec.ofNat 32 (hi <<< 16 ||| lo)) = BitVec.ofNat 16 hi := by
  rw [bits_ofNat (by decide), shiftRight_pack hlo]

theorem bits_word (n : Nat)
    : bits 16 0 (BitVec.ofNat 32 n) = BitVec.ofNat 16 n := by
  rw [bits_ofNat (by decide), Nat.shiftRight_zero]

theorem atomKind_eq (atom : Atom)
    : atomKind atom = BitVec.ofNat 32 ((atom.ty <<< 8 ||| atom.op) <<< 16 ||| atom.field) := by
  rw [atomKind, Nat.shiftLeft_or_distrib, ← Nat.shiftLeft_add]

theorem bits_atomKind {atom : Atom} (hfield : atom.field < 2 ^ 16) (hop : atom.op < 2 ^ 8)
    : bits 16 0 (atomKind atom) = BitVec.ofNat 16 atom.field ∧ bits 8 16 (atomKind atom) = BitVec.ofNat 8 atom.op
        ∧ bits 2 24 (atomKind atom) = BitVec.ofNat 2 atom.ty := by
  rw [atomKind_eq]
  refine ⟨bits_low _ _, ?_, ?_⟩
  . rw [bits_ofNat (by decide), shiftRight_pack hfield, ofNat_pack]
  . rw [bits_ofNat (by decide), Nat.shiftRight_add _ 16 8, shiftRight_pack hfield, shiftRight_pack hop]

theorem holds_loadImage (hencoded : Encoded image) (hfits : Fits p image) (core : Core)
    : Holds ((loadImage image).foldl (loadWord p) core) image where
  visitsIdx := by
    have hcell : Cell (loadWord p) Core.visitsIdx (fun w => w.sel.toNat = 0) fun w => bits 16 0 w.data := by
      constructor
      . intro core w hw
        unfold loadWord
        simp only [hw]
      . intro core w hw
        unfold loadWord
        dsimp only
        split <;> simp_all
    refine hcell.holds ?_ ⟨_, mem_loadImage.mpr ⟨0, 0, _, rfl, rfl⟩, rfl⟩ core
    intro w hw hsel
    rcases mem_loadImage.mp hw with ⟨sel, addr, data, hdata, rfl⟩
    rw [toNat_load_sel hdata] at hsel
    rw [hsel, imageWord] at hdata
    split at hdata
    . cases hdata
      exact bits_word _
    . cases hdata
  atom i atom hatom := by
    have hkind : imageWord image 1 i = some (atomKind atom) := by rw [imageWord, hatom, Option.map_some]
    have hval : imageWord image 2 i = some (BitVec.ofInt 32 atom.val) := by rw [imageWord, hatom, Option.map_some]
    have hlt (addr : Nat) (data : BitVec 32) (h : imageWord image 1 addr = some data) :=
      lt_of_map hfits.atoms hencoded.atoms h
    rcases hencoded.atom i atom hatom with ⟨hfield, hop, _⟩
    rcases bits_atomKind hfield hop with ⟨hfieldBits, hopBits, htyBits⟩
    exact ⟨((loads_atomField p).read hlt hkind core).trans hfieldBits,
      ((loads_atomOp p).read hlt hkind core).trans hopBits,
      ((loads_atomTy p).read hlt hkind core).trans htyBits,
      (loads_atomVal p).read (fun _ _ => lt_of_map hfits.atoms hencoded.atoms) hval core⟩
  node i node hnode := by
    have hword : imageWord image 3 i = some (nodeWord node) := by rw [imageWord, hnode, Option.map_some]
    have hlt (addr : Nat) (data : BitVec 32) (h : imageWord image 3 addr = some data) :=
      lt_of_map hfits.nodes hencoded.nodes h
    exact ⟨((loads_nodeEoff p).read hlt hword core).trans (bits_low _ _),
      ((loads_nodeEcnt p).read hlt hword core).trans (bits_high _ (hencoded.node i node hnode).1)⟩
  edge i edge hedge := by
    have hword : imageWord image 4 i = some (edgeWord edge) := by rw [imageWord, hedge, Option.map_some]
    have hcnt : imageWord image 5 i = some (BitVec.ofNat 32 edge.progCnt) := by rw [imageWord, hedge, Option.map_some]
    have hlt (addr : Nat) (data : BitVec 32) (h : imageWord image 4 addr = some data) :=
      lt_of_map hfits.edges hencoded.edges h
    exact ⟨((loads_edgeTgt p).read hlt hword core).trans (bits_low _ _),
      ((loads_edgePoff p).read hlt hword core).trans (bits_high _ (hencoded.edge i edge hedge).1),
      ((loads_edgePcnt p).read (fun _ _ => lt_of_map hfits.edges hencoded.edges) hcnt core).trans
        (bits_word _)⟩
  word i word hword := by
    have hdata : imageWord image 6 i = some (BitVec.ofNat 32 word) := by rw [imageWord, hword, Option.map_some]
    exact ((loads_prog p).read (fun _ _ => lt_of_map hfits.prog hencoded.prog) hdata core).trans
      (bits_word word)

end

/- The image of a file. -/

theorem readRecords_length_le {α : Type} {at? : Nat → Option α} {off size count : Nat} {records : List α}
    (h : Interp.readRecords at? off size count = some records)
    : records.length ≤ count :=
  List.getElem?_eq_none_iff.mp ((ImageSafety.getElem?_readRecords h count).trans (if_neg (Nat.lt_irrefl _)))

theorem headerWords?_lt {data : List UInt8} {words : HeaderWords} (h : headerWords? data = some words)
    : words.atoms < 2 ^ 16 ∧ words.nodes < 2 ^ 16 ∧ words.edges < 2 ^ 16 ∧ words.progWords < 2 ^ 16
        ∧ words.visitsIdx < 2 ^ 16 := by
  unfold headerWords? at h
  rcases Option.bind_eq_some_iff.mp h with ⟨_, _, h⟩
  rcases Option.bind_eq_some_iff.mp h with ⟨_, _, h⟩
  rcases Option.bind_eq_some_iff.mp h with ⟨_, _, h⟩
  rcases Option.bind_eq_some_iff.mp h with ⟨_, _, h⟩
  rcases Option.bind_eq_some_iff.mp h with ⟨atoms, hatoms, h⟩
  rcases Option.bind_eq_some_iff.mp h with ⟨nodes, hnodes, h⟩
  rcases Option.bind_eq_some_iff.mp h with ⟨edges, hedges, h⟩
  rcases Option.bind_eq_some_iff.mp h with ⟨prog, hprog, h⟩
  rcases Option.bind_eq_some_iff.mp h with ⟨_, _, h⟩
  rcases Option.bind_eq_some_iff.mp h with ⟨visits, hvisits, h⟩
  rcases Option.bind_eq_some_iff.mp h with ⟨_, _, h⟩
  rcases Option.bind_eq_some_iff.mp h with ⟨_, _, h⟩
  rcases Option.bind_eq_some_iff.mp h with ⟨_, _, h⟩
  cases h
  exact ⟨u16?_lt hatoms, u16?_lt hnodes, u16?_lt hedges, u16?_lt hprog, u16?_lt hvisits⟩

theorem atomAt?_bounds {data : List UInt8} {off : Nat} {atom : Atom} (h : atomAt? data off = some atom)
    : atom.field < 2 ^ 16 ∧ atom.op < 2 ^ 8 ∧ -2 ^ 31 ≤ atom.val ∧ atom.val < 2 ^ 31 := by
  simp only [atomAt?, Option.bind_eq_bind, Option.bind_eq_some_iff, Option.pure_def, Option.some.injEq] at h
  rcases h with ⟨field, hfield, op, hop, ty, _, val, hval, rfl⟩
  exact ⟨u16?_lt hfield, u8?_lt hop, i32?_bounds hval⟩

theorem nodeAt?_bounds {data : List UInt8} {off : Nat} {node : Node} (h : nodeAt? data off = some node)
    : node.edgeOff < 2 ^ 16 ∧ node.edgeCnt < 2 ^ 16 := by
  simp only [nodeAt?, Option.bind_eq_bind, Option.bind_eq_some_iff, Option.pure_def, Option.some.injEq] at h
  rcases h with ⟨edgeOff, hoff, edgeCnt, hcnt, rfl⟩
  exact ⟨u16?_lt hoff, u16?_lt hcnt⟩

theorem edgeAt?_bounds {data : List UInt8} {off : Nat} {edge : Edge} (h : edgeAt? data off = some edge)
    : edge.target < 2 ^ 16 ∧ edge.progOff < 2 ^ 16 ∧ edge.progCnt < 2 ^ 16 := by
  simp only [edgeAt?, Option.bind_eq_bind, Option.bind_eq_some_iff, Option.pure_def, Option.some.injEq] at h
  rcases h with ⟨target, htarget, progOff, hoff, progCnt, hcnt, rfl⟩
  exact ⟨u16?_lt htarget, u16?_lt hoff, u16?_lt hcnt⟩

theorem of_readRecords {α : Type} {at? : Nat → Option α} {off size count : Nat} {records : List α} {P : α → Prop}
    (h : Interp.readRecords at? off size count = some records) (hP : ∀ off record, at? off = some record → P record)
    {i : Nat} {record : α} (hi : records[i]? = some record)
    : P record := by
  rw [ImageSafety.getElem?_readRecords h] at hi
  split at hi
  . exact hP _ record hi
  . cases hi

theorem encoded_of_loadImage {data : List UInt8} {image : Interp.Image} (h : Interp.loadImage data = some image)
    : Encoded image := by
  unfold Interp.loadImage at h
  rcases Option.bind_eq_some_iff.mp h with ⟨words, hread, h⟩
  rcases headerWords?_lt hread with ⟨hatomsLt, hnodesLt, hedgesLt, hprogLt, hvisitsLt⟩
  dsimp only at h
  split at h
  . cases h
  . rcases Option.bind_eq_some_iff.mp h with ⟨atoms, hatoms, h⟩
    rcases Option.bind_eq_some_iff.mp h with ⟨nodes, hnodes, h⟩
    rcases Option.bind_eq_some_iff.mp h with ⟨edges, hedges, h⟩
    rcases Option.bind_eq_some_iff.mp h with ⟨prog, hprog, h⟩
    cases h
    exact {
      visitsIdx := hvisitsLt
      atom := fun i atom => of_readRecords hatoms fun _ _ => atomAt?_bounds
      node := fun i node => of_readRecords hnodes fun _ _ => nodeAt?_bounds
      edge := fun i edge => of_readRecords hedges fun _ _ => edgeAt?_bounds
      word := fun i word => of_readRecords hprog fun _ _ => u16?_lt
      atoms := (readRecords_length_le hatoms).trans_lt hatomsLt
      nodes := (readRecords_length_le hnodes).trans_lt hnodesLt
      edges := (readRecords_length_le hedges).trans_lt hedgesLt
      prog := (readRecords_length_le hprog).trans_lt hprogLt
    }

end PptPynq
