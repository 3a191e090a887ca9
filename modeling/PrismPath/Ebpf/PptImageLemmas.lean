import PrismPath.Ebpf.PptImage
import PrismPath.Hw.EvaluatorLemmas
import PrismPath.Hw.ImageSafety

/-!
This module contains what the checks on an image give: no program of it misuses the stack or reads outside its tables,
and the host evaluator takes the first edge that is true.
-/

open Bytes TableFormat Evaluator

namespace PptImage

/-- What an image that was read meets. -/
structure Accepted (im : Image) : Prop where
  limits : checkEvaluatorLimits im = true
  atoms : im.atoms.length ≤ maxAtoms
  nodes : im.nodes.length ≤ maxNodes
  edges : im.edges.length ≤ maxEdges
  prog : im.prog.length ≤ maxProgWords
  fields : im.fields ≤ maxFieldsPerPkt
  fieldWidth : ∀ atom ∈ im.atoms, atom.field < 2 ^ 16

theorem length_of_mapM {K V : Type} {ks : List K} {f : K → Option V} {vs : List V} (h : ks.mapM f = some vs)
    : vs.length = ks.length := by
  induction ks generalizing vs with
  | nil =>
    cases h
    rfl
  | cons k ks ih =>
    rw [List.mapM_cons] at h
    rcases Option.bind_eq_some_iff.mp h with ⟨v, _, h⟩
    rcases Option.bind_eq_some_iff.mp h with ⟨vs', hvs, h⟩
    cases h
    rw [List.length_cons, List.length_cons, ih hvs]

theorem length_readRecords {α : Type} {at? : Nat → Option α} {off size count : Nat} {records : List α}
    (h : Interp.readRecords at? off size count = some records)
    : records.length = count := by
  rw [length_of_mapM h, List.length_range]

theorem u16?_lt {data : List UInt8} {off n : Nat} (h : u16? data off = some n)
    : n < 2 ^ 16 := by
  unfold u16? u8? at h
  simp only [Option.bind_eq_bind, Option.bind_eq_some_iff, Option.map_eq_some_iff, Option.pure_def,
    Option.some.injEq] at h
  rcases h with ⟨_, ⟨lo, _, rfl⟩, _, ⟨hi, _, rfl⟩, rfl⟩
  have := lo.toNat_lt
  have := hi.toNat_lt
  omega

theorem field_lt_of_atomAt? {data : List UInt8} {off : Nat} {atom : Atom} (h : atomAt? data off = some atom)
    : atom.field < 2 ^ 16 := by
  unfold atomAt? at h
  simp only [Option.bind_eq_bind, Option.bind_eq_some_iff, Option.pure_def, Option.some.injEq] at h
  rcases h with ⟨field, hfield, op, _, ty, _, val, _, rfl⟩
  exact u16?_lt hfield

/-- What `parse_image_buf` reads off an image it does not refuse. -/
theorem parseImageBuf_cases {data : List UInt8} {im : Image} (h : parseImageBuf data = some im)
    : ∃ words, headerWords? data = some words ∧ withinCapacity words = true
        ∧ im.fields = words.fields ∧ im.start = words.start ∧ im.safe = words.flags / 2 ^ 8
        ∧ im.flags = words.flags % 2 ^ 8 ∧ readNames data words = some im.nameHashes
        ∧ Interp.readRecords (atomAt? data) headerSize atomSize words.atoms = some im.atoms
        ∧ im.nodes.length = words.nodes ∧ im.edges.length = words.edges ∧ im.prog.length = words.progWords
        ∧ checkEvaluatorLimits im = true := by
  unfold parseImageBuf at h
  rcases Option.bind_eq_some_iff.mp h with ⟨words, hwords, h⟩
  dsimp only at h
  split at h
  . cases h
  next hheader =>
    rcases Option.bind_eq_some_iff.mp h with ⟨atoms, hatoms, h⟩
    rcases Option.bind_eq_some_iff.mp h with ⟨nodes, hnodes, h⟩
    rcases Option.bind_eq_some_iff.mp h with ⟨edges, hedges, h⟩
    rcases Option.bind_eq_some_iff.mp h with ⟨prog, hprog, h⟩
    split at h
    . cases h
    next hlimits =>
      rcases Option.bind_eq_some_iff.mp h with ⟨names, hnames, h⟩
      cases h
      simp only [Bool.or_eq_true, not_or, Bool.not_eq_true'] at hheader
      refine ⟨words, hwords, ?_, rfl, rfl, rfl, rfl, hnames, hatoms, length_readRecords hnodes,
        length_readRecords hedges, length_readRecords hprog, ?_⟩
      . simpa using hheader.2
      . rw [Bool.not_eq_true, Bool.not_eq_false'] at hlimits
        exact hlimits

theorem accepted_of_parse {data : List UInt8} {im : Image} (h : parseImageBuf data = some im)
    : Accepted im := by
  rcases parseImageBuf_cases h with
    ⟨words, _, hcapacity, hfields, _, _, _, _, hatoms, hnodes, hedges, hprog, hlimits⟩
  simp only [withinCapacity, Bool.and_eq_true, decide_eq_true_eq] at hcapacity
  rcases hcapacity with ⟨⟨⟨⟨capAtoms, capNodes⟩, capEdges⟩, capProg⟩, capFields⟩
  refine ⟨hlimits, ?_, by omega, by omega, by omega, by omega, ?_⟩
  . rw [length_readRecords hatoms]
    exact capAtoms
  . intro atom hatom
    rcases List.getElem?_of_mem hatom with ⟨i, hi⟩
    rw [ImageSafety.getElem?_readRecords hatoms] at hi
    split at hi
    . exact field_lt_of_atomAt? hi
    . cases hi

/- The programs. -/

/-- One word of a checked program: it is known, and the stack has room for what it leaves. -/
theorem programDepth_cons {atoms depth peak word : Nat} {words : List Nat} {result : Nat × Nat}
    (h : programDepth atoms depth peak (word :: words) = some result)
    : (word ∈ progOpcodes ∨ (word < 0x8000 ∧ word < atoms))
        ∧ ∃ after, programDepth atoms after (max peak after) words = some result
          ∧ ∀ stackMax, after ≤ stackMax → depthAfter stackMax depth word = some after := by
  rw [programDepth] at h
  split at h
  . next hatom =>
    split at h
    . cases h
    . refine ⟨.inr ⟨hatom, by omega⟩, depth + 1, h, fun stackMax hle => ?_⟩
      rw [depthAfter, if_pos (.inl hatom), if_pos (by omega)]
  . next hatom =>
    split at h
    . next hconst =>
      refine ⟨.inl ?_, depth + 1, h, fun stackMax hle => ?_⟩
      . rcases hconst with rfl | rfl <;> decide
      . rw [depthAfter, if_pos (.inr hconst), if_pos (by omega)]
    . next hconst =>
      have hpush : ¬ (word < 0x8000 ∨ word = opTrue ∨ word = opFalse) := by tauto
      split at h
      . next hnot =>
        split at h
        . cases h
        . refine ⟨.inl (by rw [hnot]; decide), depth, h, fun stackMax _ => ?_⟩
          rw [depthAfter, if_neg hpush, if_pos hnot, if_pos (by omega)]
      . next hnot =>
        split at h
        . next hbinary =>
          split at h
          . cases h
          . refine ⟨.inl ?_, depth - 1, h, fun stackMax _ => ?_⟩
            . rcases hbinary with rfl | rfl <;> decide
            . rw [depthAfter, if_neg hpush, if_neg hnot, if_pos hbinary, if_pos (by omega)]
        . cases h

theorem peak_le_of_programDepth {atoms depth peak : Nat} {words : List Nat} {result : Nat × Nat}
    (h : programDepth atoms depth peak words = some result)
    : peak ≤ result.2 := by
  induction words generalizing depth peak with
  | nil =>
    cases h
    exact le_rfl
  | cons word words ih =>
    rcases programDepth_cons h with ⟨_, after, hrest, _⟩
    exact le_trans (le_max_left _ _) (ih hrest)

theorem stackSafe_of_programDepth {atoms depth peak stackMax : Nat} {words : List Nat} {result : Nat × Nat}
    (h : programDepth atoms depth peak words = some result) (hpeak : result.2 ≤ stackMax)
    : stackSafe stackMax depth words = true := by
  induction words generalizing depth peak with
  | nil => rfl
  | cons word words ih =>
    rcases programDepth_cons h with ⟨_, after, hrest, hafter⟩
    have hle := peak_le_of_programDepth hrest
    rw [stackSafe, hafter stackMax (by omega)]
    exact ih hrest

theorem known_of_programDepth {atoms depth peak : Nat} {words : List Nat} {result : Nat × Nat}
    (h : programDepth atoms depth peak words = some result)
    : ∀ word ∈ words, word ∈ progOpcodes ∨ (word < 0x8000 ∧ word < atoms) := by
  induction words generalizing depth peak with
  | nil => simp
  | cons word words ih =>
    rcases programDepth_cons h with ⟨hword, after, hrest, _⟩
    exact List.forall_mem_cons.mpr ⟨hword, ih hrest⟩

theorem filterMap_range' {α : Type} (xs : List α) (off cnt : Nat)
    : (List.range' off cnt).filterMap (fun i => xs[i]?) = (xs.drop off).take cnt := by
  induction cnt generalizing off with
  | zero => rfl
  | succ cnt ih =>
    rw [List.range'_succ, List.filterMap_cons, ih (off + 1)]
    by_cases hoff : off < xs.length
    . rw [List.getElem?_eq_getElem hoff, List.drop_eq_getElem_cons hoff, List.take_succ_cons]
    . rw [List.getElem?_eq_none (by omega), List.drop_eq_nil_of_le (by omega), List.drop_eq_nil_of_le (by omega),
        List.take_nil, List.take_nil]

section

variable {im : Image} (him : Accepted im)
include him

theorem Accepted.node {node : Node} (h : node ∈ im.nodes)
    : node.edgeCnt ≤ maxEdgesPerNode ∧ node.edgeOff + node.edgeCnt ≤ im.edges.length := by
  have hlimits := him.limits
  rw [checkEvaluatorLimits, Bool.and_eq_true, List.all_eq_true] at hlimits
  simpa [checkNode] using hlimits.1 node h

theorem Accepted.edge {edge : Edge} (h : edge ∈ im.edges)
    : edge.progCnt ≤ maxProgPerEdge ∧ edge.progOff + edge.progCnt ≤ im.prog.length
        ∧ ∃ peak ≤ stackMax, programDepth im.atoms.length 0 0 (im.program edge) = some (1, peak) := by
  have hlimits := him.limits
  rw [checkEvaluatorLimits, Bool.and_eq_true, List.all_eq_true, List.all_eq_true] at hlimits
  have hedge := hlimits.2 edge h
  rw [checkEdge, Bool.and_eq_true, Bool.and_eq_true, decide_eq_true_eq, decide_eq_true_eq] at hedge
  rcases hedge with ⟨⟨hcnt, hoff⟩, hdepth⟩
  refine ⟨hcnt, hoff, ?_⟩
  split at hdepth
  . next depth peak hprog =>
    rw [Bool.and_eq_true, decide_eq_true_eq, decide_eq_true_eq] at hdepth
    exact ⟨peak, hdepth.1, by rw [hprog, hdepth.2]⟩
  . cases hdepth

theorem Accepted.programKnown {edge : Edge} (h : edge ∈ im.edges)
    : ProgramKnown im.tables edge.progOff edge.progCnt := by
  rcases him.edge h with ⟨_, hoff, peak, _, hprog⟩
  intro k hk
  have hlt : edge.progOff + k < im.prog.length := by omega
  refine ⟨im.prog[edge.progOff + k], List.getElem?_eq_getElem hlt, ?_⟩
  have hmem : im.prog[edge.progOff + k] ∈ im.program edge := by
    refine List.mem_iff_getElem?.mpr ⟨k, ?_⟩
    rw [Image.program, List.getElem?_take_of_lt hk, List.getElem?_drop, List.getElem?_eq_getElem hlt]
  rcases known_of_programDepth hprog _ hmem with hop | ⟨hatom, hindex⟩
  . exact .inl hop
  . refine .inr ⟨hatom, im.atoms[im.prog[edge.progOff + k]], List.getElem?_eq_getElem hindex, ?_⟩
    exact him.fieldWidth _ (List.getElem_mem hindex)

/-- A program of an accepted image is evaluated without a fault, whatever the registers are. -/
theorem Accepted.evalProg_isOk {edge : Edge} (h : edge ∈ im.edges) (view : Nat → Reg)
    : ∃ b, evalProg im.tables view stackMax edge.progOff edge.progCnt [] = .ok b := by
  rcases him.edge h with ⟨_, hoff, peak, hpeak, hprog⟩
  rw [evalProg_isOk_iff]
  refine ⟨him.programKnown h, ?_⟩
  have hwords : (List.range' edge.progOff edge.progCnt).filterMap im.tables.word = im.program edge :=
    filterMap_range' im.prog edge.progOff edge.progCnt
  rw [hwords]
  exact stackSafe_of_programDepth hprog hpeak

/-- A node of an accepted image is evaluated without a fault, whatever the registers are. -/
theorem Accepted.firstMatch_isOk {node : Node} (h : node ∈ im.nodes) (view : Nat → Reg)
    : ∃ result, firstMatch im.tables view stackMax node.edgeOff node.edgeCnt 0 = .ok result := by
  rw [firstMatch_isOk_iff]
  intro i hi _
  have hlt : node.edgeOff + (0 + i) < im.edges.length := by
    have := (him.node h).2
    omega
  rw [edgeSafe_iff im.tables view]
  exact ⟨_, List.getElem?_eq_getElem hlt, him.evalProg_isOk (List.getElem_mem hlt) view⟩

end

/- The host evaluator. -/

/-- What a register reads as to the host: a field at or past the image's count is absent. -/
def hostView (im : Image) (regs : List Reg) (field : Nat) : Reg :=
  if field < im.fields then regs[field]?.getD absent else absent

section

variable {im : Image} {regs : List Reg} (hregs : im.fields ≤ regs.length)
include hregs

theorem evalAtomHost_eq (atom : Atom)
    : evalAtomHost im.fields regs atom = .ok (compare atom (hostView im regs atom.field)) := by
  unfold evalAtomHost hostView readReg
  split
  . next hfield =>
    rw [List.getElem?_eq_getElem (by omega)]
    rfl
  . rfl

/-- Where no clamp is needed, the host clamps nothing. -/
theorem evalWordHost_of_evalWord {word : Nat} {stack stack' : List Bool}
    (h : evalWord im.tables (hostView im regs) stackMax stack word = .ok stack')
    : evalWordHost im regs stack word = .ok stack' := by
  unfold evalWord at h
  unfold evalWordHost
  split at h
  . next hatom =>
    split at h
    . cases h
    . next hfull =>
      rw [if_pos hatom, if_pos (by omega)]
      unfold Evaluator.evalAtom at h
      cases hread : im.tables.atom word with
      | none =>
        rw [hread] at h
        cases h
      | some atom =>
        rw [hread] at h
        dsimp only at h
        split at h
        . have hread' : im.atoms[word]? = some atom := hread
          rw [hread']
          simp only [evalAtomHost_eq hregs]
          exact h
        . cases h
  . next hatom =>
    rw [if_neg hatom]
    split at h
    . next hop =>
      rw [if_pos hop]
      cases stack with
      | nil => cases h
      | cons b stack => exact h
    . next hnot =>
      rw [if_neg hnot]
      split at h
      . next hop =>
        rw [if_pos hop]
        rcases stack with _ | ⟨b, _ | ⟨a, stack⟩⟩
        . cases h
        . cases h
        . exact h
      . next hand =>
        rw [if_neg hand]
        split at h
        . next hop =>
          rw [if_pos hop]
          rcases stack with _ | ⟨b, _ | ⟨a, stack⟩⟩
          . cases h
          . cases h
          . exact h
        . next hor =>
          rw [if_neg hor]
          unfold push at h
          unfold pushClamped
          split at h
          . next hop =>
            rw [if_pos hop]
            split at h
            . cases h
            . rw [if_pos (by omega)]
              exact h
          . next htrue =>
            rw [if_neg htrue]
            split at h
            . next hop =>
              rw [if_pos hop]
              split at h
              . cases h
              . rw [if_pos (by omega)]
                exact h
            . cases h

theorem evalProgHost_of_evalProg {off cnt : Nat} {stack : List Bool} {b : Bool}
    (h : evalProg im.tables (hostView im regs) stackMax off cnt stack = .ok b)
    : evalProgHost im regs off cnt stack = .ok b := by
  induction cnt generalizing off stack with
  | zero => exact h
  | succ cnt ih =>
    rw [evalProg] at h
    rw [evalProgHost]
    cases hword : im.tables.word off with
    | none =>
      rw [hword] at h
      cases h
    | some word =>
      have hword' : im.prog[off]? = some word := hword
      simp only [hword] at h
      simp only [hword']
      cases heval : evalWord im.tables (hostView im regs) stackMax stack word with
      | error fault =>
        rw [heval] at h
        cases h
      | ok stack' =>
        rw [heval] at h
        rw [evalWordHost_of_evalWord hregs heval]
        exact ih h

/-- The edge that is found, with its target. -/
def withTarget (im : Image) (edgeOff : Nat) (index : Option Nat) : Option (Nat × Nat) :=
  index.bind fun i => im.edges[edgeOff + i]?.map fun edge => (i, edge.target)

theorem firstMatchHost_of_firstMatch {edgeOff cnt index : Nat} {result : Option Nat}
    (h : firstMatch im.tables (hostView im regs) stackMax edgeOff cnt index = .ok result)
    : firstMatchHost im regs edgeOff cnt index = .ok (withTarget im edgeOff result) := by
  induction cnt generalizing index with
  | zero =>
    cases h
    rfl
  | succ cnt ih =>
    rw [firstMatch] at h
    rw [firstMatchHost]
    cases hedge : im.tables.edge (edgeOff + index) with
    | none =>
      rw [hedge] at h
      cases h
    | some edge =>
      have hedge' : im.edges[edgeOff + index]? = some edge := hedge
      simp only [hedge] at h
      simp only [hedge']
      cases heval : evalProg im.tables (hostView im regs) stackMax edge.progOff edge.progCnt [] with
      | error fault =>
        rw [heval] at h
        cases h
      | ok b =>
        rw [heval] at h
        rw [evalProgHost_of_evalProg hregs heval]
        cases b with
        | true =>
          cases h
          simp only [withTarget, Option.bind_some, hedge', Option.map_some]
          rfl
        | false => exact ih h

end

end PptImage
