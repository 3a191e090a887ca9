import PrismPath.Hotswap.PolicyPackLemmas
import PrismPath.Hw.EvaluatorLemmas
import PrismPath.Hw.Evaluator

/-!
This module contains when the evaluation of a validated image is safe: validation checks the edges, the programs'
words and the atoms, but not which edges a node names nor how a program uses its stack.
-/

open Python Bytes TableFormat PolicyPack Evaluator

namespace ImageSafety

def nodesOff (words : HeaderWords) : Nat :=
  headerSize + atomSize * words.atoms

def edgesOff (words : HeaderWords) : Nat :=
  nodesOff words + nodeSize * words.nodes

def progOff (words : HeaderWords) : Nat :=
  edgesOff words + edgeSize * words.edges

/-- The tables of an image, as the format lays them out. -/
def imageTables (data : List UInt8) (words : HeaderWords) : Tables where
  node i := if i < words.nodes then nodeAt? data (nodesOff words + nodeSize * i) else none
  edge i := if i < words.edges then edgeAt? data (edgesOff words + edgeSize * i) else none
  word i := if i < words.progWords then u16? data (progOff words + wordSize * i) else none
  atom i := if i < words.atoms then atomAt? data (headerSize + atomSize * i) else none
  fields := words.fields

theorem getElem?_of_mapM {K V : Type} {ks : List K} {f : K → Option V} {vs : List V} (h : ks.mapM f = some vs)
    (i : Nat)
    : vs[i]? = ks[i]?.bind f := by
  induction ks generalizing vs i with
  | nil =>
    cases h
    rfl
  | cons k ks ih =>
    rw [List.mapM_cons] at h
    rcases Option.bind_eq_some_iff.mp h with ⟨v, hv, h⟩
    rcases Option.bind_eq_some_iff.mp h with ⟨vs', hvs, h⟩
    cases h
    cases i with
    | zero => exact hv.symm
    | succ i => exact ih hvs i

theorem exists_mapM {K V : Type} {ks : List K} {f : K → Option V} (h : ∀ k ∈ ks, ∃ v, f k = some v)
    : ∃ vs, ks.mapM f = some vs := by
  induction ks with
  | nil => exact ⟨[], rfl⟩
  | cons k ks ih =>
    rcases h k (List.mem_cons_self ..) with ⟨v, hv⟩
    rcases ih fun k hk => h k (List.mem_cons_of_mem _ hk) with ⟨vs, hvs⟩
    exact ⟨v :: vs, by rw [List.mapM_cons, hv, hvs]; rfl⟩

theorem getElem?_readRecords {α : Type} {at? : Nat → Option α} {off size count : Nat} {records : List α}
    (h : Interp.readRecords at? off size count = some records) (i : Nat)
    : records[i]? = if i < count then at? (off + size * i) else none := by
  rw [getElem?_of_mapM h]
  by_cases hi : i < count
  . rw [List.getElem?_range hi, if_pos hi]
    rfl
  . rw [List.getElem?_eq_none (by simpa using hi), if_neg hi]
    rfl

theorem exists_readRecords {α : Type} {at? : Nat → Option α} {off size count : Nat}
    (h : ∀ i < count, ∃ record, at? (off + size * i) = some record)
    : ∃ records, Interp.readRecords at? off size count = some records :=
  exists_mapM fun i hi => h i (List.mem_range.mp hi)

/-- The words of the header, and the counts they give, agree with what validation reads. -/
theorem headerWords?_of_readPptHeader {data : List UInt8} {header : Header} (hlen : headerSize ≤ data.length)
    (h : readPptHeader data = .ok header)
    : ∃ words, headerWords? data = some words ∧ words.magic = magic ∧ words.version = formatVersion
        ∧ words.fields = header.fields ∧ words.atoms = header.atoms ∧ words.nodes = header.nodes
        ∧ words.edges = header.edges ∧ words.progWords = header.progWords
        ∧ words.flags.testBit 0 = header.nodeAttr := by
  rw [headerSize] at hlen
  rcases @u32?_of_le data 0 (by omega) with ⟨w, hw, _⟩
  rcases u16?_of_le data 4 (by omega) with ⟨w₀, h₀, _⟩
  rcases u16?_of_le data 6 (by omega) with ⟨w₁, h₁, _⟩
  rcases u16?_of_le data 8 (by omega) with ⟨w₂, h₂, _⟩
  rcases u16?_of_le data 10 (by omega) with ⟨w₃, h₃, _⟩
  rcases u16?_of_le data 12 (by omega) with ⟨w₄, h₄, _⟩
  rcases u16?_of_le data 14 (by omega) with ⟨w₅, h₅, _⟩
  rcases u16?_of_le data 16 (by omega) with ⟨w₆, h₆, _⟩
  rcases u16?_of_le data 18 (by omega) with ⟨w₇, h₇, _⟩
  rcases u16?_of_le data 20 (by omega) with ⟨w₈, h₈, _⟩
  rcases u16?_of_le data 22 (by omega) with ⟨w₉, h₉, _⟩
  rcases u16?_of_le data 24 (by omega) with ⟨w₁₀, h₁₀, _⟩
  rcases u16?_of_le data 26 (by omega) with ⟨w₁₁, h₁₁, _⟩
  have hwords : headerWords data = some [w, w₀, w₁, w₂, w₃, w₄, w₅, w₆, w₇, w₈, w₉, w₁₀, w₁₁] := by
    simp [headerWords, hw, List.range_succ, h₀, h₁, h₂, h₃, h₄, h₅, h₆, h₇, h₈, h₉, h₁₀, h₁₁]
  have hstruct : headerWords? data = some ⟨w, w₀, w₁, w₂, w₃, w₄, w₅, w₆, w₇, w₈, w₉, w₁₀, w₁₁⟩ := by
    simp [headerWords?, hw, h₀, h₁, h₂, h₃, h₄, h₅, h₆, h₇, h₈, h₉, h₁₀, h₁₁]
  simp only [readPptHeader, hwords] at h
  split at h
  . cases h
  . next hmagic =>
    split at h
    . cases h
    . next hversion =>
      cases h
      refine ⟨_, hstruct, not_not.mp hmagic, not_not.mp hversion, rfl, rfl, rfl, rfl, rfl, ?_⟩
      simp [Header.nodeAttr]

theorem finding_of_walk {α : Type} {count size off : Nat} {at? : Nat → Option α} {findings : Nat → α → List String}
    (h : walk count size off at? findings = []) {i : Nat} (hi : i < count) {record : α}
    (hrecord : at? (off + size * i) = some record)
    : findings i record = [] := by
  have hnone := List.flatMap_eq_nil_iff.mp h i (List.mem_range.mpr hi)
  simpa [hrecord] using hnone

/-- What an image without findings has been checked for. -/
structure Validated (data : List UInt8) (header : Header) : Prop where
  parsed : readPptHeader data = .ok header
  length : data.length = header.need
  atoms : ∀ i < header.atoms, ∀ atom, atomAt? data (headerSize + atomSize * i) = some atom →
    atom.field < header.fields
  edges : ∀ i < header.edges, ∀ edge, edgeAt? data (header.edgesOff + edgeSize * i) = some edge →
    edge.progOff + edge.progCnt ≤ header.progWords
  words : ∀ i < header.progWords, ∀ word, u16? data (header.progOff + wordSize * i) = some word →
    word ∈ progOpcodes ∨ (word < 0x8000 ∧ word < header.atoms)

theorem validated_of_findings {data : List UInt8} {header : Header} {safeNode capped attrs : List String}
    (hparsed : readPptHeader data = .ok header) (hlength : data.length = header.need)
    (h : safeNode ++ capped
        ++ walk header.atoms atomSize headerSize (atomAt? data) (atomReasons header)
        ++ walk header.edges edgeSize header.edgesOff (edgeAt? data) (edgeReasons header)
        ++ walk header.progWords wordSize header.progOff (u16? data) (wordReasons header) ++ attrs = [])
    : Validated data header := by
  simp only [List.append_eq_nil_iff] at h
  rcases h with ⟨⟨⟨⟨_, hatoms⟩, hedges⟩, hwords⟩, _⟩
  refine ⟨hparsed, hlength, ?_, ?_, ?_⟩
  . intro i hi atom hatom
    have hreasons := finding_of_walk hatoms hi hatom
    simp only [atomReasons, List.append_eq_nil_iff] at hreasons
    simpa using eq_nil_of_reasonIf hreasons.2
  . intro i hi edge hedge
    have hreasons := finding_of_walk hedges hi hedge
    simp only [edgeReasons, List.append_eq_nil_iff] at hreasons
    simpa using eq_nil_of_reasonIf hreasons.2
  . intro i hi word hword
    have hreasons := finding_of_walk hwords hi hword
    simp only [wordReasons, List.append_eq_nil_iff] at hreasons
    have hop := eq_nil_of_reasonIf hreasons.1
    have hatom := eq_nil_of_reasonIf hreasons.2
    simp only [Bool.and_eq_false_iff, decide_eq_false_iff_not, not_le, not_not, not_lt] at hop hatom
    by_cases hlow : word < 0x8000
    . exact .inr ⟨hlow, hatom.resolve_left (by omega)⟩
    . exact .inl (hop.resolve_left hlow)

/-- An image without findings is as long as its header asks, and each of its walks is without one. -/
theorem findings_of_validateImage {data : List UInt8} {caps : Value} (h : validateImage data caps = .ok [])
    : ∃ header, readPptHeader data = .ok header ∧ data.length = header.need ∧ ∃ safeNode capped attrs : List String,
        safeNode ++ capped
          ++ walk header.atoms atomSize headerSize (atomAt? data) (atomReasons header)
          ++ walk header.edges edgeSize header.edgesOff (edgeAt? data) (edgeReasons header)
          ++ walk header.progWords wordSize header.progOff (u16? data) (wordReasons header) ++ attrs = [] := by
  unfold validateImage at h
  cases hheader : readPptHeader data with
  | error reason =>
    rw [hheader] at h
    cases h
  | ok header =>
    rw [hheader] at h
    dsimp only at h
    split at h
    . simp at h
    . next hlength =>
      refine ⟨header, rfl, not_not.mp hlength, ?_⟩
      split at h
      . exact ⟨_, _, _, Except.ok.inj h⟩
      . cases caps with
        | dict caps =>
          rcases Except.bind_eq_ok.mp h with ⟨capped, _, h⟩
          exact ⟨_, _, _, Except.ok.inj h⟩
        | _ => cases h

theorem validated_of_validateImage {data : List UInt8} {caps : Value} (h : validateImage data caps = .ok [])
    : ∃ header, Validated data header := by
  rcases findings_of_validateImage h with ⟨header, hparsed, hlength, _, _, _, hfindings⟩
  exact ⟨header, validated_of_findings hparsed hlength hfindings⟩

/-- The type of an atom is one of the format's four. -/
theorem atomTy_of_validateImage {data : List UInt8} {caps : Value} (h : validateImage data caps = .ok [])
    : ∃ header, Validated data header
        ∧ ∀ i < header.atoms, ∀ atom, atomAt? data (headerSize + atomSize * i) = some atom → atom.ty < 4 := by
  rcases findings_of_validateImage h with ⟨header, hparsed, hlength, _, _, _, hfindings⟩
  refine ⟨header, validated_of_findings hparsed hlength hfindings, fun i hi atom hatom => ?_⟩
  simp only [List.append_eq_nil_iff] at hfindings
  rcases hfindings with ⟨⟨⟨⟨_, hatoms⟩, _⟩, _⟩, _⟩
  have hreasons := finding_of_walk hatoms hi hatom
  simp only [atomReasons, List.append_eq_nil_iff] at hreasons
  simpa using eq_nil_of_reasonIf hreasons.1.2

/-- The words of a validated image's header, and that the image is as long as they ask. -/
structure Described (data : List UInt8) (header : Header) (words : HeaderWords) : Prop where
  read : headerWords? data = some words
  magic : words.magic = TableFormat.magic
  version : words.version = formatVersion
  fields : words.fields = header.fields
  atoms : words.atoms = header.atoms
  nodes : words.nodes = header.nodes
  edges : words.edges = header.edges
  progWords : words.progWords = header.progWords
  need : words.need ≤ data.length

theorem described_of_validated {data : List UInt8} {header : Header} (h : Validated data header)
    : ∃ words, Described data header words := by
  have hlen : headerSize ≤ data.length := by
    rw [h.length, Header.need, Header.attrsOff, Header.progOff, Header.edgesOff, Header.nodesOff]
    omega
  rcases headerWords?_of_readPptHeader hlen h.parsed
    with ⟨words, hread, hmagic, hversion, hfields, hatoms, hnodes, hedges, hprog, hattr⟩
  refine ⟨words, hread, hmagic, hversion, hfields, hatoms, hnodes, hedges, hprog, ?_⟩
  rw [h.length, HeaderWords.need, Header.need, Header.attrsOff, Header.progOff, Header.edgesOff, Header.nodesOff,
    hatoms, hnodes, hedges, hprog, hattr]
  omega

theorem le_need (words : HeaderWords)
    : progOff words + wordSize * words.progWords ≤ words.need := by
  rw [progOff, edgesOff, nodesOff, HeaderWords.need]
  omega

theorem atom_of_described {data : List UInt8} {words : HeaderWords} (hneed : words.need ≤ data.length) {i : Nat}
    (hi : i < words.atoms)
    : ∃ atom, atomAt? data (headerSize + atomSize * i) = some atom := by
  have hle := le_need words
  simp only [progOff, edgesOff, nodesOff, headerSize, atomSize, nodeSize, edgeSize, wordSize] at hle
  exact atomAt?_of_le (by simp only [headerSize, atomSize]; omega)

theorem node_of_described {data : List UInt8} {words : HeaderWords} (hneed : words.need ≤ data.length) {i : Nat}
    (hi : i < words.nodes)
    : ∃ node, nodeAt? data (nodesOff words + nodeSize * i) = some node := by
  have hle := le_need words
  simp only [progOff, edgesOff, nodesOff, headerSize, atomSize, nodeSize, edgeSize, wordSize] at hle
  exact nodeAt?_of_le (by simp only [nodesOff, headerSize, atomSize, nodeSize]; omega)

theorem edge_of_described {data : List UInt8} {words : HeaderWords} (hneed : words.need ≤ data.length) {i : Nat}
    (hi : i < words.edges)
    : ∃ edge, edgeAt? data (edgesOff words + edgeSize * i) = some edge := by
  have hle := le_need words
  simp only [progOff, edgesOff, nodesOff, headerSize, atomSize, nodeSize, edgeSize, wordSize] at hle
  exact edgeAt?_of_le (by simp only [edgesOff, nodesOff, headerSize, atomSize, nodeSize, edgeSize]; omega)

theorem word_of_described {data : List UInt8} {words : HeaderWords} (hneed : words.need ≤ data.length) {i : Nat}
    (hi : i < words.progWords)
    : ∃ word, u16? data (progOff words + wordSize * i) = some word := by
  have hle := le_need words
  simp only [progOff, edgesOff, nodesOff, headerSize, atomSize, nodeSize, edgeSize, wordSize] at hle
  rcases u16?_of_le data (progOff words + wordSize * i)
    (by simp only [progOff, edgesOff, nodesOff, headerSize, atomSize, nodeSize, edgeSize, wordSize]; omega)
    with ⟨word, hword, _⟩
  exact ⟨word, hword⟩

theorem offsets_of_described {data : List UInt8} {header : Header} {words : HeaderWords}
    (h : Described data header words)
    : edgesOff words = header.edgesOff ∧ progOff words = header.progOff := by
  simp only [progOff, edgesOff, nodesOff, Header.progOff, Header.edgesOff, Header.nodesOff, h.atoms, h.nodes, h.edges,
    and_self]

/-- What validation has checked of the tables. -/
theorem checked_of_validated {data : List UInt8} {header : Header} {words : HeaderWords} (h : Validated data header)
    (hwords : Described data header words)
    : Checked (imageTables data words) := by
  rcases offsets_of_described hwords with ⟨hedgesOff, hprogOff⟩
  intro index edge hedge k hk
  simp only [imageTables] at hedge ⊢
  split at hedge
  . next hindex =>
    rw [hedgesOff] at hedge
    rw [hwords.edges] at hindex
    have hprog := h.edges index hindex edge hedge
    have hin : edge.progOff + k < words.progWords := by
      rw [hwords.progWords]
      omega
    rcases word_of_described hwords.need hin with ⟨word, hword⟩
    refine ⟨word, by rw [if_pos hin]; exact hword, ?_⟩
    rw [hprogOff] at hword
    rw [hwords.progWords] at hin
    rcases h.words _ hin word hword with hop | ⟨hlow, hatom⟩
    . exact .inl hop
    . rw [← hwords.atoms] at hatom
      rcases atom_of_described hwords.need hatom with ⟨atom, hread⟩
      refine .inr ⟨hlow, atom, (if_pos hatom).trans hread, ?_⟩
      rw [hwords.atoms] at hatom
      rw [hwords.fields]
      exact h.atoms word hatom atom hread
  . cases hedge

theorem loadImage_of_described {data : List UInt8} {header : Header} {words : HeaderWords}
    (h : Described data header words)
    : ∃ image, Interp.loadImage data = some image ∧ image.tables = imageTables data words := by
  rcases exists_readRecords fun i hi => atom_of_described h.need hi with ⟨atoms, hatoms⟩
  rcases exists_readRecords fun i hi => node_of_described h.need hi with ⟨nodes, hnodes⟩
  rcases exists_readRecords fun i hi => edge_of_described h.need hi with ⟨edges, hedges⟩
  rcases exists_readRecords fun i hi => word_of_described h.need hi with ⟨prog, hprog⟩
  have hguard : (decide (words.magic ≠ magic) || decide (words.version ≠ formatVersion)
      || decide (data.length < words.need)) = false := by
    simp [h.magic, h.version, h.need]
  refine ⟨⟨words.fields, words.start, words.visitsIdx, words.maxSteps, words.maxStack, atoms, nodes, edges, prog⟩,
    ?_, ?_⟩
  . simp only [nodesOff] at hnodes
    simp only [edgesOff, nodesOff] at hedges
    simp only [progOff, edgesOff, nodesOff] at hprog
    unfold Interp.loadImage
    simp only [h.read, Option.bind_eq_bind, Option.bind_some, hguard, Bool.false_eq_true, if_false, hatoms, hnodes,
      hedges, hprog, Option.pure_def]
  . simp only [Interp.Image.tables, imageTables, getElem?_readRecords hatoms, getElem?_readRecords hnodes,
      getElem?_readRecords hedges, getElem?_readRecords hprog]

/-- An image the embedded target takes lies in its buffer, so no offset wraps. -/
theorem tables_of_parseTable {data : List UInt8} {table : PptEval.Table} {words : HeaderWords}
    (hread : headerWords? data = some words) (h : PptEval.parseTable data = .ok table)
    : table.tables = imageTables data words := by
  have hle := le_need words
  unfold PptEval.parseTable at h
  rw [hread] at h
  dsimp only at h
  split at h
  . cases h
  . split at h
    . cases h
    . next hcaps =>
      simp only [Bool.or_eq_true, decide_eq_true_eq, not_or, not_lt] at hcaps
      simp only [PptEval.tblMax] at hcaps
      split at h
      . cases h
      . split at h
        . cases h
        . cases h
          simp only [progOff, edgesOff, nodesOff, headerSize, atomSize, nodeSize, edgeSize, wordSize] at hle
          have hnodesOff : PptEval.u16 (headerSize + atomSize * words.atoms) = nodesOff words := by
            rw [PptEval.u16, nodesOff, headerSize, atomSize]
            exact Nat.mod_eq_of_lt (by omega)
          have hedgesOff : PptEval.u16 (nodesOff words + nodeSize * words.nodes) = edgesOff words := by
            rw [PptEval.u16, edgesOff, nodesOff, headerSize, atomSize, nodeSize]
            exact Nat.mod_eq_of_lt (by omega)
          have hprogOff : PptEval.u16 (edgesOff words + edgeSize * words.edges) = progOff words := by
            rw [PptEval.u16, progOff, edgesOff, nodesOff, headerSize, atomSize, nodeSize, edgeSize]
            exact Nat.mod_eq_of_lt (by omega)
          simp only [PptEval.Table.tables, imageTables, hnodesOff, hedgesOff, hprogOff]

theorem map_isOk_iff {α β : Type} (f : α → β) (x : Except Evaluator.Fault α)
    : (∃ b, x.map f = .ok b) ↔ ∃ a, x = .ok a := by
  cases x with
  | error e => simp [Except.map]
  | ok a => simp [Except.map]

/--
A validated image: each target evaluates a node without a fault exactly when the edges of the node, up to the
first that is true under the registers, lie in the edge table and their programs keep the stack in its bounds.
-/
theorem validated_image_safety (data : List UInt8) (hvalid : validateImage data (.dict defaultCaps) = .ok [])
    : ∃ words, headerWords? data = some words
        ∧ ∀ index < words.nodes, ∃ node, nodeAt? data (nodesOff words + nodeSize * index) = some node
          ∧ ∀ regs,
            (∃ image, Interp.loadImage data = some image
              ∧ ((∃ result, Interp.evaluate image index regs = .ok result)
                ↔ NodeSafe (imageTables data words) regs Interp.stackMax node))
            ∧ ∀ table, PptEval.parseTable data = .ok table →
                ((∃ result, PptEval.evaluate table index regs = .ok result)
                  ↔ NodeSafe (imageTables data words) regs PptEval.stackMax node) := by
  rcases validated_of_validateImage hvalid with ⟨header, hvalidated⟩
  rcases described_of_validated hvalidated with ⟨words, hwords⟩
  have hchecked := checked_of_validated hvalidated hwords
  refine ⟨words, hwords.read, fun index hindex => ?_⟩
  rcases node_of_described hwords.need hindex with ⟨node, hnode⟩
  have hread : (imageTables data words).node index = some node := by
    simp only [imageTables, if_pos hindex, hnode]
  refine ⟨node, hnode, fun regs => ⟨?_, fun table htable => ?_⟩⟩
  . rcases loadImage_of_described hwords with ⟨image, himage, htables⟩
    refine ⟨image, himage, ?_⟩
    rw [Interp.evaluate, map_isOk_iff, htables]
    exact evaluate_isOk_iff hchecked hread regs Interp.stackMax
  . rw [PptEval.evaluate, map_isOk_iff, tables_of_parseTable hwords.read htable]
    exact evaluate_isOk_iff hchecked hread regs PptEval.stackMax

/- An image of one node with one edge, and its node naming an edge where there is none. -/

def emptyEdgeTable : List UInt8 :=
  [80, 80, 84, 77, 1, 0, 0, 0, 1, 0, 0, 0, 1, 0, 0, 0, 0, 0, 0, 0, 255, 255, 25, 0, 1, 0, 0, 0, 0, 0, 1, 0]

def oneEdge : List UInt8 :=
  [80, 80, 84, 77, 1, 0, 0, 0, 1, 0, 0, 0, 1, 0, 1, 0, 1, 0, 0, 0, 255, 255, 25, 0, 1, 0, 0, 0, 0, 0, 1, 0,
    0, 0, 0, 0, 1, 0, 3, 128]

/-- Both targets read an edge outside the edge table of a validated image. -/
theorem empty_edge_table_read
    : ¬ ∀ (data : List UInt8), validateImage data (.dict defaultCaps) = .ok [] →
        ∀ words, headerWords? data = some words → ∀ index < words.nodes, ∀ regs,
          (∀ image, Interp.loadImage data = some image → ∃ result, Interp.evaluate image index regs = .ok result)
            ∧ ∀ table, PptEval.parseTable data = .ok table →
                ∃ result, PptEval.evaluate table index regs = .ok result := by
  intro hclaim
  have h := hclaim emptyEdgeTable (by with_unfolding_all decide) _ rfl 0 (by decide) (fun _ => ⟨0, 0⟩)
  rcases h.1 ⟨0, 0, 65535, 25, 1, [], [⟨0, 1⟩], [], []⟩ rfl with ⟨result, hresult⟩
  cases hresult

theorem validated_image_safety_oneEdge
    : ∃ words, headerWords? oneEdge = some words
        ∧ ∀ index < words.nodes, ∃ node, nodeAt? oneEdge (nodesOff words + nodeSize * index) = some node
          ∧ ∀ regs,
            (∃ image, Interp.loadImage oneEdge = some image
              ∧ ((∃ result, Interp.evaluate image index regs = .ok result)
                ↔ NodeSafe (imageTables oneEdge words) regs Interp.stackMax node))
            ∧ ∀ table, PptEval.parseTable oneEdge = .ok table →
                ((∃ result, PptEval.evaluate table index regs = .ok result)
                  ↔ NodeSafe (imageTables oneEdge words) regs PptEval.stackMax node) :=
  validated_image_safety oneEdge (by with_unfolding_all decide)

end ImageSafety
