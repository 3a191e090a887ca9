import PrismPath.Hw.PptCompile
import PrismPath.Kernel.Parser

/-!
This module contains the compiler from a workflow document to a table image, and the bytes of the image.
-/

open Python TableFormat Bytes

namespace PptCompile

/-- A graph with what its front matter says beyond the name and the start. -/
structure Flow where
  graph : Parser.Graph
  frontMatter : List (String × String)

/-- `str(meta.get(key, "")).strip()` -/
def Flow.declared (flow : Flow) (key : String) : String :=
  strip ((flow.frontMatter.lookup key).getD "")

inductive FlowError where
  | badStart (start : String)
  | semanticEdge (condition : String)
  | danglingTarget (target : String)
  | statefulSafeUndeclared (start : String)
  | danglingSafeNode (safe : String)
  | statefulMigrationUndeclared (migration : String)
  | condition (error : SubsetError)

/- The color of a node. -/

/-- Without regard to case: the long s is an s to a regular expression. -/
def sameLetter (letter c : Char) : Bool :=
  lowerChar c = letter || (letter = 's' && c = 'ſ')

/-- The text behind the letters it starts with. -/
def dropLetters : List Char → List Char → Option (List Char)
  | [], cs => some cs
  | _ :: _, [] => none
  | letter :: letters, c :: cs => if sameLetter letter c then dropLetters letters cs else none

/-- The text behind some white space it starts with. -/
def dropSpaces : List Char → Option (List Char)
  | [] => none
  | c :: cs => if isSpace c then some (lstripChars cs) else none

/-- The word of `RGB\s+LEDs?\s+(\w+)` at the start of the text; `isWord` is the `\w` of the runtime. -/
def ledWordHere (isWord : Char → Bool) (cs : List Char) : Option (List Char) := do
  let cs ← dropLetters "rgb".toList cs
  let cs ← dropSpaces cs
  let cs ← dropLetters "led".toList cs
  let cs ← dropSpaces ((dropLetters ['s'] cs).getD cs)
  match cs.takeWhile isWord with
  | [] => none
  | word => some word

def ledWord (isWord : Char → Bool) : List Char → Option (List Char)
  | [] => none
  | c :: cs =>
    match ledWordHere isWord (c :: cs) with
    | some word => some word
    | none => ledWord isWord cs

def ledColors : List (String × Nat) :=
  [("red", 0x01), ("green", 0x02), ("blue", 0x04), ("yellow", 0x03), ("amber", 0x03), ("cyan", 0x06),
    ("magenta", 0x05), ("purple", 0x05), ("white", 0x07), ("off", 0x00), ("none", 0x00)]

def parseLedColor (isWord : Char → Bool) (instruction : String) : Nat :=
  match ledWord isWord instruction.toList with
  | some word => (ledColors.lookup (lower (.ofList word))).getD 0
  | none => 0

/- The flow. -/

/-- The nodes with their edges: the index of the target and the program. -/
structure FlowImage where
  table : TableImage
  maxSteps : Nat
  nodes : List (String × List (Nat × List Nat))
  nodeColors : List Nat
  stateful : Bool
  migrateByName : Bool
  safeNode : Option Nat
  start : Nat

def FlowImage.names (img : FlowImage) : List String :=
  img.nodes.map Prod.fst

abbrev FlowBuild : Type → Type :=
  StateT TableImage (Except FlowError)

def liftCondition {α : Type} (build : Build α) : FlowBuild α := fun img =>
  match build img with
  | .ok result => .ok result
  | .error error => .error (.condition error)

/-- The edges of the table's tier; the host's tiers are skipped. -/
def compileEdges (py : Predicates.Runtime) (names : List String) : List Parser.Edge → FlowBuild (List (Nat × List Nat))
  | [] => return []
  | edge :: edges =>
    if Predicates.isError edge.condition || Predicates.isEvent edge.condition then
      compileEdges py names edges
    else if Predicates.isSemantic edge.condition then
      throw (.semanticEdge edge.condition)
    else
      match names.idxOf? edge.target with
      | none => throw (.danglingTarget edge.target)
      | some target => do
        let prog ← liftCondition (compileCondition py edge.condition)
        return (target, prog) :: (← compileEdges py names edges)

def compileNodes (py : Predicates.Runtime) (names : List String)
    : List Parser.Node → FlowBuild (List (String × List (Nat × List Nat)))
  | [] => return []
  | node :: nodes => do
    let edges ← compileEdges py names node.edges
    return (node.name, edges) :: (← compileNodes py names nodes)

/-- The declarations of a flow that keeps its state: whether it is one, whether it migrates by name, and its safe node. -/
def residentDeclarations (flow : Flow) (names : List String) : Except FlowError (Bool × Bool × Option Nat) :=
  if lower (flow.declared "stateful") ∈ ["true", "yes", "1"] then
    let safe := flow.declared "safe"
    if safe = "" then
      throw (.statefulSafeUndeclared flow.graph.start)
    else
      match names.idxOf? safe with
      | none => throw (.danglingSafeNode safe)
      | some safeNode =>
        let migration := lower (flow.declared "migration")
        if migration = "by-name" ∨ migration = "reset-to" then
          return (true, migration = "by-name", some safeNode)
        else
          throw (.statefulMigrationUndeclared migration)
  else
    return (false, false, none)

/-- The nodes that are reachable, in document order. -/
def Flow.reachableNodes (flow : Flow) : List Parser.Node :=
  let reach := Parser.reachable flow.graph
  flow.graph.nodes.filter fun node => node.name ∈ reach

def compileFlow (py : Predicates.Runtime) (isWord : Char → Bool) (maxSteps : Nat) (flow : Flow)
    : Except FlowError FlowImage := do
  let nodes := flow.reachableNodes
  let names := nodes.map Parser.Node.name
  match names.idxOf? flow.graph.start with
  | none => throw (.badStart flow.graph.start)
  | some start =>
    let (compiled, table) ← compileNodes py names nodes .empty
    let (stateful, migrateByName, safeNode) ← residentDeclarations flow names
    return {
      table, maxSteps, nodes := compiled, nodeColors := nodes.map fun node => parseLedColor isWord node.instruction
      stateful, migrateByName, safeNode, start
    }

/- The bytes. `none` is an error of the packing, or of a malformed program. -/

def visitsNone : Nat := 0xFFFF

def flagColors : Nat := 0x0001

def flagMigrateByName : Nat := 0x0002

def flagStateful : Nat := 0x0008

def pack8 (n : Nat) : Option (List UInt8) :=
  if n < 2 ^ 8 then some [UInt8.ofNat n] else none

def pack16 (n : Nat) : Option (List UInt8) :=
  if n < 2 ^ 16 then some [UInt8.ofNat (n % 2 ^ 8), UInt8.ofNat (n / 2 ^ 8)] else none

def packI32 (n : ℤ) : Option (List UInt8) :=
  if inI32 n then
    let word := (n % 2 ^ 32).toNat
    some ((List.range 4).map fun i => UInt8.ofNat (word / 2 ^ (8 * i) % 2 ^ 8))
  else
    none

def packWords : List Nat → Option (List UInt8)
  | [] => some []
  | word :: words => do
    let bytes ← pack16 word
    return bytes ++ (← packWords words)

def packAtom (atom : Atom) : Option (List UInt8) := do
  return (← pack16 atom.field) ++ (← pack8 atom.op) ++ (← pack8 atom.ty) ++ (← packI32 atom.val)

/-- The peak of a program's stack, unless what it leaves is not one result. -/
def stackDepth (prog : List Nat) : Option ℤ :=
  let (depth, peak) := prog.foldl
    (fun (depth, peak) word =>
      let depth : ℤ :=
        if word < 0x8000 ∨ word = opTrue ∨ word = opFalse then depth + 1
        else if word = opAnd ∨ word = opOr then depth - 1
        else depth
      (depth, max peak depth))
    ((0 : ℤ), (0 : ℤ))
  if depth = 1 then some peak else none

def edgeRecords : (progOff : Nat) → List (Nat × List Nat) → List Edge
  | _, [] => []
  | progOff, (target, prog) :: edges =>
    ⟨target, progOff, prog.length⟩ :: edgeRecords (progOff + prog.length) edges

def nodeRecords : (edgeOff : Nat) → List (String × List (Nat × List Nat)) → List Node
  | _, [] => []
  | edgeOff, (_, edges) :: nodes => ⟨edgeOff, edges.length⟩ :: nodeRecords (edgeOff + edges.length) nodes

def FlowImage.edges (img : FlowImage) : List (Nat × List Nat) :=
  img.nodes.flatMap Prod.snd

def FlowImage.colors (img : FlowImage) : List Nat :=
  (img.nodeColors ++ List.replicate img.nodes.length 0).take img.nodes.length

/-- Each declaration has bits of its own; the safe node is in the high byte. -/
def FlowImage.flags (img : FlowImage) : Nat :=
  (if img.colors.any (· ≠ 0) then flagColors else 0) + (if img.migrateByName then flagMigrateByName else 0)
    + (if img.stateful then flagStateful else 0) + 2 ^ 8 * (img.safeNode.getD 0 % 2 ^ 8)

/-- The colors come last, and only when a node has one. -/
def FlowImage.colorSection (img : FlowImage) : Option (List UInt8) :=
  if img.colors.any (· ≠ 0) then packWords (img.colors.map (· % 2 ^ 16)) else some []

def serialize (img : FlowImage) : Option (List UInt8) := do
  let edges := img.edges
  let prog := edges.flatMap Prod.snd
  let depths ← edges.mapM fun edge => stackDepth edge.2
  let maxStack := (depths.foldl max 1).toNat
  let visitsIdx := (img.table.fields.idxOf? "visits").getD visitsNone
  let header ← packWords [formatVersion, img.table.fields.length, img.table.intern.length, img.table.atoms.length,
    img.nodes.length, edges.length, prog.length, img.start, visitsIdx, img.maxSteps, maxStack, img.flags]
  let atoms ← img.table.atoms.mapM packAtom
  let nodes ← packWords ((nodeRecords 0 img.nodes).flatMap fun node => [node.edgeOff, node.edgeCnt])
  let records ← packWords ((edgeRecords 0 edges).flatMap fun edge => [edge.target, edge.progOff, edge.progCnt])
  let words ← packWords prog
  let colors ← img.colorSection
  return [0x50, 0x50, 0x54, 0x4D] ++ (header ++ (atoms.flatten ++ nodes ++ records ++ words ++ colors))

/- What a loader finds in the header. -/

theorem u16?_append_left {data : List UInt8} {off n : Nat} (h : u16? data off = some n) (rest : List UInt8)
    : u16? (data ++ rest) off = some n := by
  unfold u16? u8? at h ⊢
  simp only [Option.bind_eq_bind, Option.bind_eq_some_iff, Option.map_eq_some_iff, Option.pure_def] at h ⊢
  rcases h with ⟨lo, ⟨a, ha, rfl⟩, hi, ⟨b, hb, rfl⟩, heq⟩
  refine ⟨_, ⟨a, ?_, rfl⟩, _, ⟨b, ?_, rfl⟩, heq⟩
  . rw [List.getElem?_append_left (List.getElem?_eq_some_iff.mp ha).1]
    exact ha
  . rw [List.getElem?_append_left (List.getElem?_eq_some_iff.mp hb).1]
    exact hb

theorem u16?_append_right (pre data : List UInt8) (off : Nat)
    : u16? (pre ++ data) (pre.length + off) = u16? data off := by
  unfold u16? u8?
  rw [List.getElem?_append_right (by omega), List.getElem?_append_right (by omega), Nat.add_assoc,
    Nat.add_sub_cancel_left, Nat.add_sub_cancel_left]

theorem pack16_cases {n : Nat} {bytes : List UInt8} (h : pack16 n = some bytes)
    : bytes.length = 2 ∧ u16? bytes 0 = some n := by
  unfold pack16 at h
  split at h
  . next hlt =>
    cases h
    refine ⟨rfl, ?_⟩
    have hlo : (UInt8.ofNat (n % 2 ^ 8)).toNat = n % 2 ^ 8 := by
      simp
    have hhi : (UInt8.ofNat (n / 2 ^ 8)).toNat = n / 2 ^ 8 := by
      rw [UInt8.toNat_ofNat']
      omega
    simp only [u16?, u8?, List.getElem?_cons_zero, List.getElem?_cons_succ, Option.map_some, Option.bind_eq_bind,
      Option.bind_some, hlo, hhi, Option.pure_def, Option.some.injEq]
    omega
  . cases h

/-- Every word of a list is read back where it was packed. -/
theorem u16?_packWords {words : List Nat} {bytes : List UInt8} (h : packWords words = some bytes) {i word : Nat}
    (hword : words[i]? = some word)
    : u16? bytes (2 * i) = some word := by
  induction words generalizing bytes i with
  | nil => cases hword
  | cons head words ih =>
    rw [packWords] at h
    rcases Option.bind_eq_some_iff.mp h with ⟨first, hfirst, h⟩
    rcases Option.bind_eq_some_iff.mp h with ⟨others, hothers, h⟩
    cases h
    rcases pack16_cases hfirst with ⟨hlength, hread⟩
    cases i with
    | zero =>
      cases hword
      exact u16?_append_left hread others
    | succ i =>
      have hoff : 2 * (i + 1) = first.length + 2 * i := by omega
      rw [hoff, u16?_append_right]
      exact ih hothers hword

/-- The words of the header of an image, without the magic. -/
def FlowImage.header (img : FlowImage) (maxStack : Nat) : List Nat :=
  [formatVersion, img.table.fields.length, img.table.intern.length, img.table.atoms.length, img.nodes.length,
    img.edges.length, (img.edges.flatMap Prod.snd).length, img.start,
    (img.table.fields.idxOf? "visits").getD visitsNone, img.maxSteps, maxStack, img.flags]

/-- The parts of a serialized image. -/
theorem serialize_cases {img : FlowImage} {data : List UInt8} (h : serialize img = some data)
    : ∃ depths header atoms nodes records words colors,
        (img.edges.mapM fun edge => stackDepth edge.2) = some depths
          ∧ packWords (img.header (depths.foldl max 1).toNat) = some header
          ∧ img.table.atoms.mapM packAtom = some atoms
          ∧ packWords ((nodeRecords 0 img.nodes).flatMap fun node => [node.edgeOff, node.edgeCnt]) = some nodes
          ∧ packWords ((edgeRecords 0 img.edges).flatMap fun edge => [edge.target, edge.progOff, edge.progCnt]) = some records
          ∧ packWords (img.edges.flatMap Prod.snd) = some words
          ∧ img.colorSection = some colors
          ∧ data = [0x50, 0x50, 0x54, 0x4D] ++ (header ++ (atoms.flatten ++ nodes ++ records ++ words ++ colors)) := by
  unfold serialize at h
  rcases Option.bind_eq_some_iff.mp h with ⟨depths, hdepths, h⟩
  rcases Option.bind_eq_some_iff.mp h with ⟨header, hheader, h⟩
  rcases Option.bind_eq_some_iff.mp h with ⟨atoms, hatoms, h⟩
  rcases Option.bind_eq_some_iff.mp h with ⟨nodes, hnodes, h⟩
  rcases Option.bind_eq_some_iff.mp h with ⟨records, hrecords, h⟩
  rcases Option.bind_eq_some_iff.mp h with ⟨words, hwords, h⟩
  rcases Option.bind_eq_some_iff.mp h with ⟨colors, hcolors, h⟩
  cases h
  exact ⟨depths, header, atoms, nodes, records, words, colors, hdepths, hheader, hatoms, hnodes, hrecords, hwords,
    hcolors, rfl⟩

/-- Every word of the header is read back where it was packed. -/
theorem headerWord_of_serialize {img : FlowImage} {data : List UInt8} (h : serialize img = some data)
    : ∃ maxStack, ∀ i word, (img.header maxStack)[i]? = some word → u16? data (4 + 2 * i) = some word := by
  rcases serialize_cases h with ⟨depths, header, atoms, nodes, records, words, colors, _, hheader, _, _, _, _, _, rfl⟩
  refine ⟨(depths.foldl max 1).toNat, fun i word hword => ?_⟩
  exact (u16?_append_right [0x50, 0x50, 0x54, 0x4D] _ (2 * i)).trans
    (u16?_append_left (u16?_packWords hheader hword) _)

theorem magic_of_serialize {img : FlowImage} {data : List UInt8} (h : serialize img = some data)
    : u32? data 0 = some magic := by
  rcases serialize_cases h with ⟨_, _, _, _, _, _, _, _, _, _, _, _, _, _, rfl⟩
  rfl

/-- The node count and the flags of a serialized image, where a loader reads them. -/
theorem header_of_serialize {img : FlowImage} {data : List UInt8} (h : serialize img = some data)
    : u16? data 12 = some img.nodes.length ∧ u16? data 26 = some img.flags := by
  rcases headerWord_of_serialize h with ⟨maxStack, hword⟩
  exact ⟨hword 4 _ rfl, hword 11 _ rfl⟩

/- The declarations in the last word of the header. -/

theorem flags_low (img : FlowImage)
    : (if img.colors.any (· ≠ 0) then flagColors else 0) + (if img.migrateByName then flagMigrateByName else 0)
        + (if img.stateful then flagStateful else 0) < 2 ^ 8 := by
  split <;> split <;> split <;> decide

/-- The declarations of the low byte; none of them announces node names. -/
theorem flags_mod (img : FlowImage)
    : (img.flags % 2 ^ 8).testBit 2 = false := by
  unfold FlowImage.flags
  rw [Nat.add_mul_mod_self_left]
  split <;> split <;> split <;> rfl

theorem flags_div (img : FlowImage)
    : img.flags / 2 ^ 8 = img.safeNode.getD 0 % 2 ^ 8 := by
  unfold FlowImage.flags
  rw [Nat.add_mul_div_left _ _ (by decide), Nat.div_eq_of_lt (flags_low img), Nat.zero_add]

/- What the compiler makes of a flow. -/

theorem names_of_compileNodes {py : Predicates.Runtime} {names : List String} {nodes : List Parser.Node}
    {table table' : TableImage} {compiled : List (String × List (Nat × List Nat))}
    (h : compileNodes py names nodes table = .ok (compiled, table'))
    : compiled.map Prod.fst = nodes.map Parser.Node.name := by
  induction nodes generalizing table compiled with
  | nil =>
    cases h
    rfl
  | cons node nodes ih =>
    unfold compileNodes at h
    simp only [bind, StateT.bind, Except.bind] at h
    split at h
    . cases h
    . split at h
      . cases h
      next hnodes =>
        cases h
        rw [List.map_cons, List.map_cons, ih hnodes]

/-- A flow that migrates by name has a safe node. -/
theorem safeNode_of_migrateByName {flow : Flow} {names : List String} {stateful : Bool} {safeNode : Option Nat}
    (h : residentDeclarations flow names = .ok (stateful, true, safeNode))
    : ∃ index, safeNode = some index ∧ names.idxOf? (flow.declared "safe") = some index := by
  unfold residentDeclarations at h
  split at h
  . dsimp only at h
    split at h
    . cases h
    . split at h
      . cases h
      next index hindex =>
        split at h
        . simp only [pure, Except.pure, Except.ok.injEq, Prod.mk.injEq] at h
          exact ⟨index, h.2.2.symm, hindex⟩
        . cases h
  . cases h

theorem compileFlow_cases {py : Predicates.Runtime} {isWord : Char → Bool} {maxSteps : Nat} {flow : Flow}
    {img : FlowImage} (h : compileFlow py isWord maxSteps flow = .ok img)
    : img.names = flow.reachableNodes.map Parser.Node.name
        ∧ residentDeclarations flow img.names = .ok (img.stateful, img.migrateByName, img.safeNode) := by
  unfold compileFlow at h
  dsimp only at h
  split at h
  . cases h
  simp only [bind, Except.bind] at h
  split at h
  . cases h
  next compiled hcompiled =>
    split at h
    . cases h
    next declarations hdeclared =>
      cases h
      have hnames : compiled.1.map Prod.fst = _ := names_of_compileNodes hcompiled
      refine ⟨hnames, ?_⟩
      rw [FlowImage.names, hnames]
      exact hdeclared

/-- No two nodes of an image share a name. -/
theorem nodup_names {py : Predicates.Runtime} {isWord : Char → Bool} {maxSteps : Nat} {flow : Flow}
    {img : FlowImage} (h : compileFlow py isWord maxSteps flow = .ok img)
    : img.names.Nodup := by
  rw [(compileFlow_cases h).1]
  exact flow.graph.nodup.sublist (List.filter_sublist.map _)

end PptCompile
