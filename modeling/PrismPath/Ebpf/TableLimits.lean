import PrismPath.Ebpf.PptImageLemmas

/-!
This module contains the check of a table where the tooling builds it, and the tables on which it and the loader agree:
the check does not look at the section of node names.
-/

open Bytes TableFormat PolicyPack PptImage

namespace TableLimits

/-- The refusals of the words left of a program, from the depth of its stack and the peak so far. -/
def programRefusals (place : String) (atoms : Nat) : (depth peak : Nat) → List Nat → List String
  | depth, peak, [] =>
    reasonIf (stackMax < peak)
        s!"{place} needs stack depth {peak}, past STACK_MAX {stackMax}, so the kernel would drop operands"
      ++ reasonIf (depth ≠ 1) s!"{place} leaves {depth} results, not one"
  | depth, peak, word :: words =>
    if word < 0x8000 then
      if atoms ≤ word then
        [s!"{place} reads atom {word}, past the {atoms} atoms"]
      else
        programRefusals place atoms (depth + 1) (max peak (depth + 1)) words
    else if word = opTrue ∨ word = opFalse then
      programRefusals place atoms (depth + 1) (max peak (depth + 1)) words
    else if word = opNot then
      if depth < 1 then
        [s!"{place} negates an empty stack"]
      else
        programRefusals place atoms depth (max peak depth) words
    else if word = opAnd ∨ word = opOr then
      if depth < 2 then
        [s!"{place} combines fewer than two operands"]
      else
        programRefusals place atoms (depth - 1) (max peak (depth - 1)) words
    else
      [s!"{place} holds unknown opcode 0x" ++ String.ofList (Nat.toDigits 16 word)]

def capacityRefusals (words : HeaderWords) : List String :=
  [(words.atoms, "MAX_ATOMS", maxAtoms), (words.nodes, "MAX_NODES", maxNodes), (words.edges, "MAX_EDGES", maxEdges),
    (words.progWords, "MAX_PROG_WORDS", maxProgWords), (words.fields, "MAX_FIELDS_PER_PKT", maxFieldsPerPkt)].flatMap
    fun (count, name, bound) => reasonIf (bound < count) s!"{count} exceeds {name} {bound}"

def nodeRefusals (edges index : Nat) (node : Node) : List String :=
  reasonIf (maxEdgesPerNode < node.edgeCnt)
      (s!"node {index} has {node.edgeCnt} edges, past MAX_EDGES_PER_NODE {maxEdgesPerNode}, "
        ++ "so the kernel would never read the rest")
    ++ reasonIf (edges < node.edgeOff + node.edgeCnt)
      s!"node {index} edges {node.edgeOff}+{node.edgeCnt} run past the {edges} edges"

def edgeRefusals (words : HeaderWords) (prog : List Nat) (index : Nat) (edge : Edge) : List String :=
  let place := s!"edge {index}"
  reasonIf (maxProgPerEdge < edge.progCnt)
      (s!"{place} program is {edge.progCnt} words, past MAX_PROG_PER_EDGE {maxProgPerEdge}, "
        ++ "so the kernel would cut it short")
    ++ if words.progWords < edge.progOff + edge.progCnt then
      [s!"{place} program {edge.progOff}+{edge.progCnt} runs past the {words.progWords} words"]
    else
      programRefusals place words.atoms 0 0 ((prog.drop edge.progOff).take edge.progCnt)

/-- `table_refusals`, with the bounds of the kernel's header; `none` where an unpack would fail. -/
def tableRefusals (table : List UInt8) : Option (List String) :=
  match headerWords? table with
  | none => some [s!"table is {table.length} bytes, shorter than its {headerSize} byte header"]
  | some words =>
    if words.magic ≠ magic ∨ words.version ≠ formatVersion then
      some ["not a PPT v1 table"]
    else if table.length < need words then
      some (capacityRefusals words ++ [s!"table is {table.length} bytes, its sections need {need words}"])
    else do
      let nodesOff := headerSize + atomSize * words.atoms
      let edgesOff := nodesOff + nodeSize * words.nodes
      let progOff := edgesOff + edgeSize * words.edges
      let nodes ← Interp.readRecords (nodeAt? table) nodesOff nodeSize words.nodes
      let edges ← Interp.readRecords (edgeAt? table) edgesOff edgeSize words.edges
      let prog ← Interp.readRecords (u16? table) progOff wordSize words.progWords
      return capacityRefusals words
        ++ (nodes.zipIdx.flatMap fun (node, index) => nodeRefusals words.edges index node)
        ++ (edges.zipIdx.flatMap fun (edge, index) => edgeRefusals words prog index edge)

/-- The header and the sections of a table that every table has. -/
structure Sections (data : List UInt8) (words : HeaderWords) (im : Image) : Prop where
  header : headerWords? data = some words
  magic : words.magic = TableFormat.magic
  version : words.version = formatVersion
  length : need words ≤ data.length
  atoms : Interp.readRecords (atomAt? data) headerSize atomSize words.atoms = some im.atoms
  nodes : Interp.readRecords (nodeAt? data) (headerSize + atomSize * words.atoms) nodeSize words.nodes = some im.nodes
  edges : Interp.readRecords (edgeAt? data) (headerSize + atomSize * words.atoms + nodeSize * words.nodes) edgeSize
    words.edges = some im.edges
  prog : Interp.readRecords (u16? data)
    (headerSize + atomSize * words.atoms + nodeSize * words.nodes + edgeSize * words.edges) wordSize words.progWords
      = some im.prog

/-- Where the names of the nodes start. -/
def namesOff (words : HeaderWords) : Nat :=
  need words + if (words.flags % 2 ^ 8).testBit 0 then wordSize * words.nodes else 0

/-- A table that is right up to its names, and whose flags say that it has names, has them all. -/
def NamesWhole (data : List UInt8) : Prop :=
  ∀ words im, Sections data words im → withinCapacity words = true → checkEvaluatorLimits im = true →
    (words.flags % 2 ^ 8).testBit 2 = true → namesOff words + 4 * words.nodes ≤ data.length

/- The refusals of one part. -/

theorem reasonIf_eq_nil_iff {broken : Bool} {reason : String}
    : reasonIf broken reason = [] ↔ broken = false := by
  unfold reasonIf
  cases broken <;> simp

theorem flatMap_zipIdx_eq_nil_iff {α β : Type} {xs : List α} {f : α × Nat → List β} {p : α → Prop}
    (h : ∀ x i, f (x, i) = [] ↔ p x)
    : xs.zipIdx.flatMap f = [] ↔ ∀ x ∈ xs, p x := by
  rw [List.flatMap_eq_nil_iff]
  constructor
  . intro hall x hx
    rcases List.getElem?_of_mem hx with ⟨i, hi⟩
    apply (h x i).mp
    apply hall
    rw [List.mk_mem_zipIdx_iff_getElem?]
    exact hi
  . rintro hall ⟨x, i⟩ hx
    apply (h x i).mpr
    apply hall
    rw [List.mk_mem_zipIdx_iff_getElem?] at hx
    exact List.mem_of_getElem? hx

/-- The walk of the tooling refuses the programs that the loader's walk refuses. -/
theorem programRefusals_eq_nil_iff (place : String) (atoms depth peak : Nat) (words : List Nat)
    : programRefusals place atoms depth peak words = []
        ↔ ∃ top, programDepth atoms depth peak words = some (1, top) ∧ top ≤ stackMax := by
  induction words generalizing depth peak with
  | nil =>
    rw [programRefusals, programDepth, List.append_eq_nil_iff, reasonIf_eq_nil_iff, reasonIf_eq_nil_iff]
    simp
    omega
  | cons word words ih =>
    rw [programRefusals, programDepth]
    split
    . split
      . simp
      . exact ih _ _
    . split
      . exact ih _ _
      . split
        . split
          . simp
          . exact ih _ _
        . split
          . split
            . simp
            . exact ih _ _
          . simp

theorem capacityRefusals_eq_nil_iff (words : HeaderWords)
    : capacityRefusals words = [] ↔ withinCapacity words = true := by
  unfold capacityRefusals withinCapacity
  simp [reasonIf_eq_nil_iff]
  omega

section

variable {data : List UInt8} {words : HeaderWords} {im : Image} (h : Sections data words im)
include h

theorem nodeRefusals_eq_nil_iff (node : Node) (index : Nat)
    : nodeRefusals words.edges index node = [] ↔ checkNode im node = true := by
  unfold nodeRefusals checkNode
  rw [List.append_eq_nil_iff, reasonIf_eq_nil_iff, reasonIf_eq_nil_iff, length_readRecords h.edges]
  simp

theorem edgeRefusals_eq_nil_iff (edge : Edge) (index : Nat)
    : edgeRefusals words im.prog index edge = [] ↔ checkEdge im edge = true := by
  unfold edgeRefusals checkEdge
  rw [List.append_eq_nil_iff, reasonIf_eq_nil_iff, length_readRecords h.prog, length_readRecords h.atoms]
  split
  . next hpast => simp [hpast]
  . next hin =>
    rw [programRefusals_eq_nil_iff, Image.program]
    simp only [decide_eq_false_iff_not, not_lt, Bool.and_eq_true, decide_eq_true_eq]
    constructor
    . rintro ⟨hcnt, top, hdepth, htop⟩
      rw [hdepth]
      exact ⟨⟨hcnt, by omega⟩, by simp [htop]⟩
    . rintro ⟨⟨hcnt, _⟩, hdepth⟩
      refine ⟨hcnt, ?_⟩
      split at hdepth
      . next depth top heq =>
        simp at hdepth
        rw [heq, hdepth.2]
        exact ⟨top, rfl, hdepth.1⟩
      . cases hdepth

/-- The sections of a table are determined, and with them what the evaluator's limits say of it. -/
theorem checkEvaluatorLimits_eq {words' : HeaderWords} {im' : Image} (h' : Sections data words' im')
    : words' = words ∧ checkEvaluatorLimits im' = checkEvaluatorLimits im := by
  have hwords : words' = words := Option.some.inj (h'.header.symm.trans h.header)
  subst hwords
  have hatoms : im'.atoms = im.atoms := Option.some.inj (h'.atoms.symm.trans h.atoms)
  have hnodes : im'.nodes = im.nodes := Option.some.inj (h'.nodes.symm.trans h.nodes)
  have hedges : im'.edges = im.edges := Option.some.inj (h'.edges.symm.trans h.edges)
  have hprog : im'.prog = im.prog := Option.some.inj (h'.prog.symm.trans h.prog)
  refine ⟨rfl, ?_⟩
  unfold checkEvaluatorLimits
  have hnode : checkNode im' = checkNode im := by
    funext node
    rw [checkNode, checkNode, hedges]
  have hedge : checkEdge im' = checkEdge im := by
    funext edge
    rw [checkEdge, checkEdge, Image.program, Image.program, hatoms, hprog]
  rw [hnode, hedge, hnodes, hedges]

end

/- The whole table. -/

/-- A table whose header fits has its sections. -/
theorem exists_sections {data : List UInt8} {words : HeaderWords} (header : headerWords? data = some words)
    (hmagic : words.magic = magic) (hversion : words.version = formatVersion) (hlength : need words ≤ data.length)
    : ∃ im, Sections data words im := by
  have hneed : headerSize + atomSize * words.atoms + nodeSize * words.nodes + edgeSize * words.edges
      + wordSize * words.progWords ≤ data.length := hlength
  simp only [headerSize, atomSize, nodeSize, edgeSize, wordSize] at hneed
  have hatoms : ∃ atoms, Interp.readRecords (atomAt? data) headerSize atomSize words.atoms = some atoms := by
    apply ImageSafety.exists_readRecords
    intro i hi
    apply atomAt?_of_le
    simp only [headerSize, atomSize]
    omega
  have hnodes : ∃ nodes, Interp.readRecords (nodeAt? data) (headerSize + atomSize * words.atoms) nodeSize words.nodes
      = some nodes := by
    apply ImageSafety.exists_readRecords
    intro i hi
    apply nodeAt?_of_le
    simp only [headerSize, atomSize, nodeSize]
    omega
  have hedges : ∃ edges, Interp.readRecords (edgeAt? data)
      (headerSize + atomSize * words.atoms + nodeSize * words.nodes) edgeSize words.edges = some edges := by
    apply ImageSafety.exists_readRecords
    intro i hi
    apply edgeAt?_of_le
    simp only [headerSize, atomSize, nodeSize, edgeSize]
    omega
  have hprog : ∃ prog, Interp.readRecords (u16? data)
      (headerSize + atomSize * words.atoms + nodeSize * words.nodes + edgeSize * words.edges) wordSize words.progWords
        = some prog := by
    apply ImageSafety.exists_readRecords
    intro i hi
    rcases u16?_of_le data (headerSize + atomSize * words.atoms + nodeSize * words.nodes + edgeSize * words.edges
      + wordSize * i) (by simp only [headerSize, atomSize, nodeSize, edgeSize, wordSize]; omega) with ⟨word, hword, _⟩
    exact ⟨word, hword⟩
  rcases hatoms with ⟨atoms, hatoms⟩
  rcases hnodes with ⟨nodes, hnodes⟩
  rcases hedges with ⟨edges, hedges⟩
  rcases hprog with ⟨prog, hprog⟩
  exact ⟨⟨0, 0, 0, 0, 0, 0, 0, 0, atoms, nodes, edges, prog, none, data⟩, header, hmagic, hversion, hlength, hatoms,
    hnodes, hedges, hprog⟩

section

variable {data : List UInt8} {words : HeaderWords} {im : Image}

theorem sections_of_header (header : headerWords? data = some words)
    (hformat : ¬(words.magic ≠ magic ∨ words.version ≠ formatVersion)) (hlength : ¬ data.length < need words)
    : ∃ im, Sections data words im := by
  rw [not_or, not_not, not_not] at hformat
  exact exists_sections header hformat.1 hformat.2 (by omega)

theorem tableRefusals_eq_nil_iff (h : Sections data words im)
    : tableRefusals data = some [] ↔ withinCapacity words = true ∧ checkEvaluatorLimits im = true := by
  unfold tableRefusals
  have hlength := h.length
  simp only [h.header, h.magic, h.version, h.nodes, h.edges, h.prog, ne_eq, not_true_eq_false, or_self, if_false,
    if_neg (Nat.not_lt.mpr hlength), Option.bind_eq_bind, Option.bind_some, Option.pure_def, Option.some.injEq]
  rw [List.append_eq_nil_iff, List.append_eq_nil_iff, capacityRefusals_eq_nil_iff,
    flatMap_zipIdx_eq_nil_iff (nodeRefusals_eq_nil_iff h), flatMap_zipIdx_eq_nil_iff (edgeRefusals_eq_nil_iff h)]
  rw [checkEvaluatorLimits, Bool.and_eq_true, List.all_eq_true, List.all_eq_true, and_assoc]

/-- The tooling accepts a table if its sections are all there and within the limits. -/
theorem accepts_iff (data : List UInt8)
    : tableRefusals data = some []
        ↔ ∃ words im, Sections data words im ∧ withinCapacity words = true ∧ checkEvaluatorLimits im = true := by
  constructor
  . intro hnil
    have hsections : ∃ words im, Sections data words im := by
      unfold tableRefusals at hnil
      split at hnil
      . simp at hnil
      next words header =>
        split at hnil
        . simp at hnil
        next hformat =>
          split at hnil
          . simp at hnil
          next hlength => exact ⟨words, sections_of_header header hformat hlength⟩
    rcases hsections with ⟨words, im, h⟩
    exact ⟨words, im, h, (tableRefusals_eq_nil_iff h).mp hnil⟩
  . rintro ⟨words, im, h, hwithin⟩
    exact (tableRefusals_eq_nil_iff h).mpr hwithin

theorem length_of_u32? {off n : Nat} (h : u32? data off = some n)
    : off + 4 ≤ data.length := by
  rcases Option.bind_eq_some_iff.mp h with ⟨lo, _, h⟩
  rcases Option.bind_eq_some_iff.mp h with ⟨hi, hhi, _⟩
  rcases Option.bind_eq_some_iff.mp hhi with ⟨_, _, hhi⟩
  rcases Option.bind_eq_some_iff.mp hhi with ⟨_, hlast, _⟩
  rcases Option.map_eq_some_iff.mp hlast with ⟨_, hbyte, _⟩
  have hlt := (List.getElem?_eq_some_iff.mp hbyte).1
  omega

theorem readNames_isSome_iff (hlength : need words ≤ data.length)
    : (readNames data words).isSome
        ↔ ((words.flags % 2 ^ 8).testBit 2 = true → namesOff words + 4 * words.nodes ≤ data.length) := by
  unfold readNames
  dsimp only
  split
  . next hnames =>
    rw [Option.isSome_map, ← namesOff]
    simp only [hnames, true_implies]
    constructor
    . intro hread
      rcases Option.isSome_iff_exists.mp hread with ⟨names, hread⟩
      by_contra hcut
      rcases Nat.eq_zero_or_pos words.nodes with hzero | hpos
      . -- without nodes the names are empty, and end where the sections do
        unfold namesOff at hcut
        simp only [hzero, Nat.mul_zero, ite_self] at hcut
        omega
      . have hlast := ImageSafety.getElem?_readRecords hread (words.nodes - 1)
        rw [if_pos (by omega), List.getElem?_eq_getElem (by rw [length_readRecords hread]; omega)] at hlast
        have hfits := length_of_u32? hlast.symm
        omega
    . intro hfits
      have hread : ∃ names, Interp.readRecords (u32? data) (namesOff words) 4 words.nodes = some names := by
        apply ImageSafety.exists_readRecords
        intro i hi
        rcases @u32?_of_le data (namesOff words + 4 * i) (by omega) with ⟨name, hname, _⟩
        exact ⟨name, hname⟩
      rcases hread with ⟨names, hread⟩
      rw [hread]
      rfl
  . next hnames => exact ⟨fun _ h => absurd h hnames, fun _ => rfl⟩

/-- The loader accepts a table if the tooling does and the names are all there. -/
theorem parseImageBuf_isSome_iff (data : List UInt8)
    : (parseImageBuf data).isSome
        ↔ ∃ words im, Sections data words im ∧ withinCapacity words = true ∧ checkEvaluatorLimits im = true
          ∧ (readNames data words).isSome := by
  constructor
  . intro hsome
    rcases Option.isSome_iff_exists.mp hsome with ⟨im, himage⟩
    unfold parseImageBuf at himage
    rcases Option.bind_eq_some_iff.mp himage with ⟨words, header, himage⟩
    dsimp only at himage
    split at himage
    . cases himage
    next hheader =>
      rcases Option.bind_eq_some_iff.mp himage with ⟨atoms, hatoms, himage⟩
      rcases Option.bind_eq_some_iff.mp himage with ⟨nodes, hnodes, himage⟩
      rcases Option.bind_eq_some_iff.mp himage with ⟨edges, hedges, himage⟩
      rcases Option.bind_eq_some_iff.mp himage with ⟨prog, hprog, himage⟩
      split at himage
      . cases himage
      next hlimits =>
        rcases Option.bind_eq_some_iff.mp himage with ⟨names, hnames, _⟩
        simp only [Bool.or_eq_true, not_or, decide_eq_true_eq, ne_eq, not_not, Bool.not_eq_true', not_lt] at hheader
        rcases hheader with ⟨⟨⟨hmagic, hversion⟩, hlength⟩, hcapacity⟩
        rw [Bool.not_eq_true, Bool.not_eq_false'] at hlimits
        refine ⟨words, _, ⟨header, hmagic, hversion, hlength, hatoms, hnodes, hedges, hprog⟩, ?_, hlimits, ?_⟩
        . simpa using hcapacity
        . rw [hnames]
          rfl
  . rintro ⟨words, im, h, hcapacity, hlimits, hnames⟩
    rcases Option.isSome_iff_exists.mp hnames with ⟨names, hnames⟩
    let read : Image := {
      fields := words.fields, interns := words.interns, start := words.start, visitsIdx := words.visitsIdx
      maxSteps := words.maxSteps, maxStack := words.maxStack, safe := words.flags / 2 ^ 8, flags := words.flags % 2 ^ 8
      atoms := im.atoms, nodes := im.nodes, edges := im.edges, prog := im.prog, nameHashes := none, raw := data
    }
    have hread : Sections data words read :=
      ⟨h.header, h.magic, h.version, h.length, h.atoms, h.nodes, h.edges, h.prog⟩
    have hpass : checkEvaluatorLimits read = true := (checkEvaluatorLimits_eq h hread).2.trans hlimits
    have hheader : ¬(words.magic ≠ magic || words.version ≠ formatVersion || data.length < need words
        || !withinCapacity words) = true := by
      have hlength := h.length
      simp [h.magic, h.version, hcapacity, hlength]
    have himage : parseImageBuf data = some { read with nameHashes := names } := by
      unfold parseImageBuf
      simp only [h.header, h.atoms, h.nodes, h.edges, h.prog, hnames, Option.bind_eq_bind, Option.bind_some,
        if_neg hheader]
      apply if_neg
      change ¬(!checkEvaluatorLimits read) = true
      rw [hpass]
      decide
    rw [himage]
    rfl

end

/-- The tooling and the loader agree on a table exactly if its names are not cut short: the loader refuses one whose
names are, and the tooling does not. -/
theorem refusals_agree_iff (data : List UInt8)
    : (tableRefusals data = some [] ↔ (parseImageBuf data).isSome) ↔ NamesWhole data := by
  rw [accepts_iff, parseImageBuf_isSome_iff]
  constructor
  . intro hagree words im h hcapacity hlimits
    rcases hagree.mp ⟨words, im, h, hcapacity, hlimits⟩ with ⟨words', im', h', _, _, hnames⟩
    rcases checkEvaluatorLimits_eq h h' with ⟨rfl, _⟩
    exact (readNames_isSome_iff h.length).mp hnames
  . intro hwhole
    constructor
    . rintro ⟨words, im, h, hcapacity, hlimits⟩
      have hnames := (readNames_isSome_iff h.length).mpr (hwhole words im h hcapacity hlimits)
      exact ⟨words, im, h, hcapacity, hlimits, hnames⟩
    . rintro ⟨words, im, h, hcapacity, hlimits, _⟩
      exact ⟨words, im, h, hcapacity, hlimits⟩

/-- One node without edges, whose name the flags declare and the table does not have. -/
def cutShort : List UInt8 :=
  [0x50, 0x50, 0x54, 0x4D, 1, 0, 0, 0, 0, 0, 0, 0, 1, 0, 0, 0, 0, 0, 0, 0, 0xFF, 0xFF, 0, 0, 0, 0, 4, 0, 0, 0, 0, 0]

theorem tooling_accepts_cut_names
    : ¬ ∀ data, tableRefusals data = some [] ↔ (parseImageBuf data).isSome := by
  intro hagree
  have hloads := (hagree cutShort).mp (by decide)
  revert hloads
  decide

end TableLimits
