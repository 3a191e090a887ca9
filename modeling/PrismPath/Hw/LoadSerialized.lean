import PrismPath.Hw.AtomWords
import PrismPath.Hw.Evaluator

/-!
This module contains what the reference interpreter loads from the bytes of a serialized image.
-/

open Python Bytes TableFormat

namespace PptCompile

/- Records one after the other. -/

section Sections

variable {α : Type}

/-- Each piece of the bytes is one record of the section's size. -/
def Packed (at? : List UInt8 → Nat → Option α) (size : Nat) (records : List α) (chunks : List (List UInt8)) : Prop :=
  List.Forall₂ (fun a bytes => bytes.length = size ∧ Reads at? a bytes) records chunks

theorem Packed.length {at? : List UInt8 → Nat → Option α} {size : Nat} {records : List α} {chunks : List (List UInt8)}
    (h : Packed at? size records chunks)
    : chunks.flatten.length = size * records.length := by
  induction h with
  | nil => rfl
  | cons head _ ih =>
    rw [List.flatten_cons, List.length_append, head.1, ih, List.length_cons, Nat.mul_succ, Nat.add_comm]

/-- A section is read back record by record, wherever it stands. -/
theorem Packed.readRecords {at? : List UInt8 → Nat → Option α} {size : Nat} {records : List α}
    {chunks : List (List UInt8)} (h : Packed at? size records chunks) (pre post : List UInt8)
    : Interp.readRecords (at? (pre ++ (chunks.flatten ++ post))) pre.length size records.length = some records := by
  unfold Interp.readRecords
  induction h generalizing pre with
  | nil => rfl
  | @cons record chunk records chunks head _ ih =>
    rcases head with ⟨hlength, hreads⟩
    have hfirst := hreads pre (chunks.flatten ++ post)
    have hrest := ih (pre ++ chunk)
    rw [List.append_assoc, List.length_append, hlength] at hrest
    have hshift : (fun i => at? (pre ++ (chunk ++ (chunks.flatten ++ post))) (pre.length + size * (i + 1)))
        = fun i => at? (pre ++ (chunk ++ (chunks.flatten ++ post))) (pre.length + size + size * i) := by
      funext i
      rw [Nat.mul_succ, Nat.add_comm (size * i), Nat.add_assoc]
    rw [List.flatten_cons, List.append_assoc, List.length_cons, List.range_succ_eq_map, List.mapM_cons,
      Nat.mul_zero, Nat.add_zero, hfirst, List.mapM_map]
    simp only [Function.comp_def, Nat.succ_eq_add_one, hshift, hrest]
    rfl

theorem packWords_append {words words' : List Nat} {bytes : List UInt8} (h : packWords (words ++ words') = some bytes)
    : ∃ first second, packWords words = some first ∧ packWords words' = some second ∧ bytes = first ++ second := by
  induction words generalizing bytes with
  | nil => exact ⟨[], bytes, rfl, h, rfl⟩
  | cons word words ih =>
    rw [List.cons_append, packWords] at h
    rcases Option.bind_eq_some_iff.mp h with ⟨head, hhead, h⟩
    rcases Option.bind_eq_some_iff.mp h with ⟨tail, htail, h⟩
    cases h
    rcases ih htail with ⟨first, second, hfirst, hsecond, rfl⟩
    refine ⟨head ++ first, second, ?_, hsecond, (List.append_assoc ..).symm⟩
    rw [packWords, hhead, hfirst]
    rfl

/-- Records that are packed as words. -/
theorem packed_of_packWords {at? : List UInt8 → Nat → Option α} {size : Nat} {wordsOf : α → List Nat}
    (hrecord : ∀ a bytes, packWords (wordsOf a) = some bytes → bytes.length = size ∧ Reads at? a bytes)
    {records : List α} {bytes : List UInt8} (h : packWords (records.flatMap wordsOf) = some bytes)
    : ∃ chunks, Packed at? size records chunks ∧ bytes = chunks.flatten := by
  induction records generalizing bytes with
  | nil =>
    cases h
    exact ⟨[], .nil, rfl⟩
  | cons record records ih =>
    rw [List.flatMap_cons] at h
    rcases packWords_append h with ⟨first, second, hfirst, hsecond, rfl⟩
    rcases ih hsecond with ⟨chunks, hchunks, rfl⟩
    exact ⟨first :: chunks, .cons (hrecord record first hfirst) hchunks, rfl⟩

end Sections

/- The records. -/

theorem reads_pack8 {n : Nat} {bytes : List UInt8} (h : pack8 n = some bytes)
    : bytes.length = 1 ∧ Reads u8? n bytes := by
  unfold pack8 at h
  split at h
  . next hlt =>
    cases h
    have hbyte := reads_u8 (UInt8.ofNat n)
    rw [UInt8.toNat_ofNat_of_lt' hlt] at hbyte
    exact ⟨rfl, hbyte⟩
  . cases h

theorem reads_pack16 {n : Nat} {bytes : List UInt8} (h : pack16 n = some bytes)
    : bytes.length = 2 ∧ Reads u16? n bytes := by
  unfold pack16 at h
  split at h
  . next hlt =>
    cases h
    have hword := (reads_u8 (UInt8.ofNat (n % 2 ^ 8))).u16 (reads_u8 (UInt8.ofNat (n / 2 ^ 8))) rfl
    have hlo : (UInt8.ofNat (n % 2 ^ 8)).toNat = n % 2 ^ 8 := by
      rw [UInt8.toNat_ofNat', Nat.mod_mod]
    have hhi : (UInt8.ofNat (n / 2 ^ 8)).toNat = n / 2 ^ 8 := by
      rw [UInt8.toNat_ofNat']
      omega
    rw [hlo, hhi, Nat.mod_add_div] at hword
    exact ⟨rfl, hword⟩
  . cases h

theorem signed32_toNat {n : ℤ} (h : inI32 n = true)
    : signed32 (n % 2 ^ 32).toNat = n := by
  simp only [inI32, Bool.and_eq_true, decide_eq_true_eq] at h
  unfold signed32
  split <;> omega

theorem reads_packI32 {n : ℤ} {bytes : List UInt8} (h : packI32 n = some bytes)
    : bytes.length = 4 ∧ Reads i32? n bytes := by
  unfold packI32 at h
  split at h
  . next hrange =>
    cases h
    generalize hword : (n % 2 ^ 32).toNat = word
    have hlt : word < 2 ^ 32 := by omega
    have hbyte (i : Nat) : (UInt8.ofNat (word / 2 ^ (8 * i) % 2 ^ 8)).toNat = word / 2 ^ (8 * i) % 2 ^ 8 := by
      rw [UInt8.toNat_ofNat', Nat.mod_mod]
    have hread (i : Nat) := reads_u8 (UInt8.ofNat (word / 2 ^ (8 * i) % 2 ^ 8))
    simp only [hbyte] at hread
    have hfour := (((hread 0).u16 (hread 1) rfl).u32 ((hread 2).u16 (hread 3) rfl) rfl).i32
    have hsum : word / 2 ^ (8 * 0) % 2 ^ 8 + 2 ^ 8 * (word / 2 ^ (8 * 1) % 2 ^ 8)
        + 2 ^ 16 * (word / 2 ^ (8 * 2) % 2 ^ 8 + 2 ^ 8 * (word / 2 ^ (8 * 3) % 2 ^ 8)) = word := by
      omega
    rw [hsum, ← hword, signed32_toNat hrange, hword] at hfour
    exact ⟨rfl, hfour⟩
  . cases h

theorem reads_packAtom {atom : Atom} {bytes : List UInt8} (h : packAtom atom = some bytes)
    : bytes.length = atomSize ∧ Reads atomAt? atom bytes := by
  unfold packAtom at h
  rcases Option.bind_eq_some_iff.mp h with ⟨field, hfield, h⟩
  rcases Option.bind_eq_some_iff.mp h with ⟨op, hop, h⟩
  rcases Option.bind_eq_some_iff.mp h with ⟨ty, hty, h⟩
  rcases Option.bind_eq_some_iff.mp h with ⟨val, hval, h⟩
  cases h
  rcases reads_pack16 hfield with ⟨hfieldLength, hfieldReads⟩
  rcases reads_pack8 hop with ⟨hopLength, hopReads⟩
  rcases reads_pack8 hty with ⟨htyLength, htyReads⟩
  rcases reads_packI32 hval with ⟨hvalLength, hvalReads⟩
  refine ⟨by simp only [List.length_append, hfieldLength, hopLength, htyLength, hvalLength, atomSize], ?_⟩
  intro pre post
  have hfieldAt := hfieldReads pre (op ++ (ty ++ (val ++ post)))
  have hopAt := hopReads.after pre field (ty ++ (val ++ post))
  have htyAt := htyReads.after pre (field ++ op) (val ++ post)
  have hvalAt := hvalReads.after pre (field ++ op ++ ty) post
  simp only [List.length_append, hfieldLength, hopLength, htyLength, List.append_assoc] at hopAt htyAt hvalAt
  simp only [List.append_assoc, atomAt?, hfieldAt, hopAt, htyAt, hvalAt, Option.bind_eq_bind, Option.bind_some,
    Option.pure_def]

theorem packWords_cons {word : Nat} {words : List Nat} {bytes : List UInt8} (h : packWords (word :: words) = some bytes)
    : ∃ first second, (first.length = 2 ∧ Reads u16? word first) ∧ packWords words = some second
        ∧ bytes = first ++ second := by
  rw [packWords] at h
  rcases Option.bind_eq_some_iff.mp h with ⟨first, hfirst, h⟩
  rcases Option.bind_eq_some_iff.mp h with ⟨second, hsecond, h⟩
  cases h
  exact ⟨first, second, reads_pack16 hfirst, hsecond, rfl⟩

theorem reads_word (word : Nat) (bytes : List UInt8) (h : packWords [word] = some bytes)
    : bytes.length = wordSize ∧ Reads u16? word bytes := by
  rcases packWords_cons h with ⟨first, second, hfirst, hsecond, rfl⟩
  cases hsecond
  rw [List.append_nil]
  exact hfirst

theorem reads_node (node : Node) (bytes : List UInt8) (h : packWords [node.edgeOff, node.edgeCnt] = some bytes)
    : bytes.length = nodeSize ∧ Reads nodeAt? node bytes := by
  rcases packWords_cons h with ⟨first, second, ⟨hlength, hreads⟩, hsecond, rfl⟩
  rcases reads_word _ _ hsecond with ⟨hlength', hreads'⟩
  refine ⟨by rw [List.length_append, hlength, hlength']; rfl, ?_⟩
  intro pre post
  have hfirstAt := hreads pre (second ++ post)
  have hsecondAt := hreads'.after pre first post
  rw [hlength] at hsecondAt
  simp only [List.append_assoc, nodeAt?, hfirstAt, hsecondAt, Option.bind_eq_bind, Option.bind_some, Option.pure_def]

theorem reads_edge (edge : Edge) (bytes : List UInt8)
    (h : packWords [edge.target, edge.progOff, edge.progCnt] = some bytes)
    : bytes.length = edgeSize ∧ Reads edgeAt? edge bytes := by
  rcases packWords_cons h with ⟨first, rest, ⟨hlength, hreads⟩, hrest, rfl⟩
  rcases packWords_cons hrest with ⟨second, third, ⟨hlength', hreads'⟩, hthird, rfl⟩
  rcases reads_word _ _ hthird with ⟨hlength'', hreads''⟩
  refine ⟨by rw [List.length_append, List.length_append, hlength, hlength', hlength'']; rfl, ?_⟩
  intro pre post
  have hfirstAt := hreads pre (second ++ (third ++ post))
  have hsecondAt := hreads'.after pre first (third ++ post)
  have hthirdAt := hreads''.after pre (first ++ second) post
  simp only [List.length_append, hlength, hlength', List.append_assoc] at hsecondAt hthirdAt
  simp only [List.append_assoc, edgeAt?, hfirstAt, hsecondAt, hthirdAt, Option.bind_eq_bind, Option.bind_some,
    Option.pure_def]

/- The whole image. -/

theorem length_packWords {words : List Nat} {bytes : List UInt8} (h : packWords words = some bytes)
    : bytes.length = wordSize * words.length := by
  rw [← List.flatMap_singleton' words] at h
  rcases packed_of_packWords (fun word bytes => reads_word word bytes) h with ⟨chunks, hchunks, rfl⟩
  exact hchunks.length

theorem packed_of_packAtoms {atoms : List Atom} {chunks : List (List UInt8)} (h : atoms.mapM packAtom = some chunks)
    : Packed atomAt? atomSize atoms chunks := by
  induction atoms generalizing chunks with
  | nil =>
    cases h
    exact .nil
  | cons atom atoms ih =>
    rw [List.mapM_cons] at h
    rcases Option.bind_eq_some_iff.mp h with ⟨first, hfirst, h⟩
    rcases Option.bind_eq_some_iff.mp h with ⟨others, hothers, h⟩
    cases h
    exact .cons (reads_packAtom hfirst) (ih hothers)

theorem length_edgeRecords (progOff : Nat) (edges : List (Nat × List Nat))
    : (edgeRecords progOff edges).length = edges.length := by
  induction edges generalizing progOff with
  | nil => rfl
  | cons edge edges ih => rw [edgeRecords, List.length_cons, List.length_cons, ih]

theorem length_nodeRecords (edgeOff : Nat) (nodes : List (String × List (Nat × List Nat)))
    : (nodeRecords edgeOff nodes).length = nodes.length := by
  induction nodes generalizing edgeOff with
  | nil => rfl
  | cons node nodes ih => rw [nodeRecords, List.length_cons, List.length_cons, ih]

theorem length_colors (img : FlowImage)
    : img.colors.length = img.nodes.length := by
  rw [FlowImage.colors, List.length_take, List.length_append, List.length_replicate]
  omega

theorem flags_colors (img : FlowImage)
    : img.flags.testBit 0 = img.colors.any (· ≠ 0) := by
  have hlow : img.flags % 2 = if img.colors.any (· ≠ 0) then 1 else 0 := by
    unfold FlowImage.flags flagColors flagMigrateByName flagStateful
    split <;> split <;> split <;> omega
  rw [Nat.testBit_zero, hlow]
  cases img.colors.any (· ≠ 0) <;> rfl

/-- The color section is there exactly when the flags announce it. -/
theorem length_colorSection {img : FlowImage} {bytes : List UInt8} (h : img.colorSection = some bytes)
    : bytes.length = if img.flags.testBit 0 then wordSize * img.nodes.length else 0 := by
  unfold FlowImage.colorSection at h
  rw [flags_colors]
  split at h
  . next hcolors => rw [if_pos hcolors, length_packWords h, List.length_map, length_colors]
  . next hcolors =>
    cases h
    rw [if_neg hcolors]
    rfl

theorem headerWords?_of_serialize {img : FlowImage} {data : List UInt8} (h : serialize img = some data)
    : ∃ maxStack, headerWords? data = some {
        magic, version := formatVersion, fields := img.table.fields.length, interns := img.table.intern.length
        atoms := img.table.atoms.length, nodes := img.nodes.length, edges := img.edges.length
        progWords := (img.edges.flatMap Prod.snd).length, start := img.start
        visitsIdx := (img.table.fields.idxOf? "visits").getD visitsNone, maxSteps := img.maxSteps
        maxStack, flags := img.flags } := by
  rcases headerWord_of_serialize h with ⟨maxStack, hword⟩
  refine ⟨maxStack, ?_⟩
  simp only [headerWords?, magic_of_serialize h, hword 0 _ rfl, hword 1 _ rfl, hword 2 _ rfl, hword 3 _ rfl,
    hword 4 _ rfl, hword 5 _ rfl, hword 6 _ rfl, hword 7 _ rfl, hword 8 _ rfl, hword 9 _ rfl, hword 10 _ rfl,
    hword 11 _ rfl, Option.bind_eq_bind, Option.bind_some, Option.pure_def]

/-- The interpreter loads the tables of an image as the records the serializer lays out. -/
theorem loadImage_of_serialize {img : FlowImage} {data : List UInt8} (h : serialize img = some data)
    : ∃ maxStack, Interp.loadImage data = some {
        fields := img.table.fields.length, start := img.start
        visitsIdx := (img.table.fields.idxOf? "visits").getD visitsNone, maxSteps := img.maxSteps, maxStack
        atoms := img.table.atoms, nodes := nodeRecords 0 img.nodes, edges := edgeRecords 0 img.edges
        prog := img.edges.flatMap Prod.snd } := by
  rcases headerWords?_of_serialize h with ⟨maxStack, hheaderWords⟩
  refine ⟨maxStack, ?_⟩
  rcases serialize_cases h
    with ⟨_, header, atoms, nodes, records, words, colors, _, hheader, hatoms, hnodes, hrecords, hwords, hcolors, hdata⟩
  have hatomChunks := packed_of_packAtoms hatoms
  rcases packed_of_packWords reads_node hnodes with ⟨nodeChunks, hnodeChunks, rfl⟩
  rcases packed_of_packWords reads_edge hrecords with ⟨edgeChunks, hedgeChunks, rfl⟩
  rw [← List.flatMap_singleton' (img.edges.flatMap Prod.snd)] at hwords
  rcases packed_of_packWords reads_word hwords with ⟨wordChunks, hwordChunks, rfl⟩
  -- where each section starts
  generalize hstart : [0x50, 0x50, 0x54, 0x4D] ++ header = start at *
  have hstartLength : start.length = headerSize := by
    rw [← hstart, List.length_append, length_packWords hheader]
    rfl
  have hdata : data = start ++ (atoms.flatten ++ (nodeChunks.flatten ++ (edgeChunks.flatten ++ (wordChunks.flatten
      ++ colors)))) := by
    rw [hdata, ← hstart]
    simp only [List.append_assoc]
  have hatomsLength := hatomChunks.length
  have hnodesLength := hnodeChunks.length
  have hedgesLength := hedgeChunks.length
  have hwordsLength := hwordChunks.length
  rw [length_nodeRecords] at hnodesLength
  rw [length_edgeRecords] at hedgesLength
  have hreadAtoms := hatomChunks.readRecords start (nodeChunks.flatten ++ (edgeChunks.flatten ++ (wordChunks.flatten
    ++ colors)))
  have hreadNodes := hnodeChunks.readRecords (start ++ atoms.flatten) (edgeChunks.flatten ++ (wordChunks.flatten
    ++ colors))
  have hreadEdges := hedgeChunks.readRecords (start ++ atoms.flatten ++ nodeChunks.flatten) (wordChunks.flatten
    ++ colors)
  have hreadWords := hwordChunks.readRecords (start ++ atoms.flatten ++ nodeChunks.flatten ++ edgeChunks.flatten) colors
  simp only [List.append_assoc, ← hdata, List.length_append, hstartLength, hatomsLength, hnodesLength, hedgesLength,
    length_nodeRecords, length_edgeRecords] at hreadAtoms hreadNodes hreadEdges hreadWords
  unfold Interp.loadImage
  rw [hheaderWords]
  have hneed : ¬ data.length < HeaderWords.need {
      magic, version := formatVersion, fields := img.table.fields.length, interns := img.table.intern.length
      atoms := img.table.atoms.length, nodes := img.nodes.length, edges := img.edges.length
      progWords := (img.edges.flatMap Prod.snd).length, start := img.start
      visitsIdx := (img.table.fields.idxOf? "visits").getD visitsNone, maxSteps := img.maxSteps
      maxStack, flags := img.flags } := by
    simp only [hdata, List.length_append, hstartLength, hatomsLength, hnodesLength, hedgesLength, hwordsLength,
      length_colorSection hcolors, HeaderWords.need]
    omega
  simp only [Option.bind_eq_bind, Option.bind_some, ne_eq, not_true, decide_false, Bool.false_or, hneed,
    Bool.false_eq_true, if_false, hreadAtoms, hreadNodes, hreadEdges, hreadWords, Nat.add_assoc, Option.pure_def]

/- The flow that the loaded records describe. -/

theorem programs_of_edgeRecords (pre : List Nat) (edges : List (Nat × List Nat))
    : (edgeRecords pre.length edges).map (fun edge =>
        (edge.target, ((pre ++ edges.flatMap Prod.snd).drop edge.progOff).take edge.progCnt)) = edges := by
  induction edges generalizing pre with
  | nil => rfl
  | cons edge edges ih =>
    rcases edge with ⟨target, prog⟩
    have hrest := ih (pre ++ prog)
    rw [List.length_append, List.append_assoc] at hrest
    rw [edgeRecords, List.map_cons, List.flatMap_cons, hrest, List.drop_left, List.take_left]

theorem edges_of_nodeRecords (pre : List (Nat × List Nat)) (nodes : List (String × List (Nat × List Nat)))
    : (nodeRecords pre.length nodes).map (fun node =>
        ((pre ++ nodes.flatMap Prod.snd).drop node.edgeOff).take node.edgeCnt) = nodes.map Prod.snd := by
  induction nodes generalizing pre with
  | nil => rfl
  | cons node nodes ih =>
    rcases node with ⟨name, edges⟩
    have hrest := ih (pre ++ edges)
    rw [List.length_append, List.append_assoc] at hrest
    rw [nodeRecords, List.map_cons, List.flatMap_cons, hrest, List.drop_left, List.take_left, List.map_cons]

/-- The edges of each node, with their targets and their programs, as the evaluator finds them. -/
def described (image : Interp.Image) : List (List (Nat × List Nat)) :=
  image.nodes.map fun node =>
    ((image.edges.drop node.edgeOff).take node.edgeCnt).map fun edge =>
      (edge.target, (image.prog.drop edge.progOff).take edge.progCnt)

theorem described_of_records (img : FlowImage) {image : Interp.Image} (hnodes : image.nodes = nodeRecords 0 img.nodes)
    (hedges : image.edges = edgeRecords 0 img.edges) (hprog : image.prog = img.edges.flatMap Prod.snd)
    : described image = img.nodes.map Prod.snd := by
  have hprograms := programs_of_edgeRecords [] img.edges
  have hslices := edges_of_nodeRecords [] img.nodes
  simp only [List.length_nil, List.nil_append] at hprograms hslices
  unfold described
  simp only [List.map_take, List.map_drop, hnodes, hedges, hprog, hprograms]
  exact hslices

/--
What a flow compiles to is either not serialized, or its atoms, nodes, edges and programs are the ones that are loaded,
and a word of a program is an opcode or the index of an atom, and never both.
-/
theorem serialize_faithful {py : Predicates.Runtime} {isWord : Char → Bool} {maxSteps : Nat} {flow : Flow}
    {img : FlowImage} (hcompile : compileFlow py isWord maxSteps flow = .ok img)
    : serialize img = none ∨ ∃ data image,
        serialize img = some data ∧ Interp.loadImage data = some image
          ∧ image.fields = img.table.fields.length ∧ image.start = img.start ∧ image.maxSteps = img.maxSteps
          ∧ image.atoms = img.table.atoms
          ∧ image.nodes.length = img.nodes.length
          ∧ described image = img.nodes.map Prod.snd
          ∧ (∀ edge ∈ img.edges, ∀ word ∈ edge.2, word ∈ progOpcodes ∨ word < img.table.atoms.length)
          ∧ ∀ index < img.table.atoms.length, index < 0x8000 ∧ index ∉ progOpcodes := by
  cases hserialize : serialize img with
  | none => exact .inl rfl
  | some data =>
    rcases loadImage_of_serialize hserialize with ⟨maxStack, hload⟩
    have hatoms := atoms_le_opNot hcompile hserialize
    refine .inr ⟨data, _, rfl, hload, rfl, rfl, rfl, rfl, length_nodeRecords 0 _, described_of_records img rfl rfl rfl,
      (emits_compileFlow hcompile).words, fun index hindex => ?_⟩
    have hlow : index < opNot := Nat.lt_of_lt_of_le hindex hatoms
    refine ⟨hlow, fun hop => ?_⟩
    have hhigh : ∀ op ∈ progOpcodes, opNot ≤ op := by decide
    exact absurd (hhigh index hop) (Nat.not_le.mpr hlow)

/- A flow whose one condition is a field. -/

def readyPy : Predicates.Runtime where
  parse := fun source => if source = "ready" then some (.name "ready") else none
  str := fun _ => ""
  int := fun _ => none

def readyFlow : Flow where
  graph := {
    name := "ready"
    start := "run"
    nodes := [{ name := "run", edges := [⟨"halt", "when ready"⟩] }, { name := "halt", edges := [] }]
    nodup := by decide
  }
  frontMatter := []

def readyImage : FlowImage where
  table := { fields := ["ready"], intern := [""], atoms := [⟨0, opTruthy, tyNone, 0⟩] }
  maxSteps := 25
  nodes := [("run", [(1, [0])]), ("halt", [])]
  nodeColors := [0, 0]
  stateful := false
  migrateByName := false
  safeNode := none
  start := 0

theorem serialize_faithful_ready
    : ∃ data image, serialize readyImage = some data ∧ Interp.loadImage data = some image
        ∧ image.atoms = [⟨0, opTruthy, tyNone, 0⟩] ∧ described image = [[(1, [0])], []] := by
  have hcompile : compileFlow readyPy Char.isAlphanum 25 readyFlow = .ok readyImage := by
    with_unfolding_all rfl
  have hdata : ∃ data, serialize readyImage = some data := by
    exact ⟨_, rfl⟩
  rcases hdata with ⟨data, hdata⟩
  rcases serialize_faithful hcompile with hnone | ⟨data', image, hdata', hload, _, _, _, hatoms, _, hflow, _⟩
  . rw [hdata] at hnone
    cases hnone
  . exact ⟨data', image, hdata', hload, hatoms, hflow⟩

end PptCompile
