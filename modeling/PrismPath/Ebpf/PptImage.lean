import PrismPath.Hw.Evaluator

/-!
This module contains the loader's half of the kernel target: how it reads and checks a table image, the host reference
evaluator, and the node a swap carries forward.
-/

open Bytes TableFormat

namespace PptImage

def maxAtoms : Nat := 1024

def maxNodes : Nat := 256

def maxEdges : Nat := 1024

def maxProgWords : Nat := 4096

def maxFieldsPerPkt : Nat := 32

def maxEdgesPerNode : Nat := 64

def maxProgPerEdge : Nat := 64

def stackMax : Nat := 4

def flagNodeAttr : Nat := 0x01

def flagMigrateByName : Nat := 0x02

def flagNodeNames : Nat := 0x04

/-- The counts of the header are the lengths of the tables. -/
structure Image where
  fields : Nat
  interns : Nat
  start : Nat
  visitsIdx : Nat
  maxSteps : Nat
  maxStack : Nat
  safe : Nat
  flags : Nat
  atoms : List Atom
  nodes : List Node
  edges : List Edge
  prog : List Nat
  nameHashes : Option (List Nat)
  raw : List UInt8
  deriving DecidableEq

/- The limits of the evaluator in the kernel. -/

/-- The depth of the stack and its peak after the words of a program, or `none` where a word is refused. -/
def programDepth (atoms : Nat) : (depth peak : Nat) → List Nat → Option (Nat × Nat)
  | depth, peak, [] => some (depth, peak)
  | depth, peak, word :: words =>
    if word < 0x8000 then
      if atoms ≤ word then none else programDepth atoms (depth + 1) (max peak (depth + 1)) words
    else if word = opTrue ∨ word = opFalse then
      programDepth atoms (depth + 1) (max peak (depth + 1)) words
    else if word = opNot then
      if depth < 1 then none else programDepth atoms depth (max peak depth) words
    else if word = opAnd ∨ word = opOr then
      if depth < 2 then none else programDepth atoms (depth - 1) (max peak (depth - 1)) words
    else
      none

def Image.program (im : Image) (edge : Edge) : List Nat :=
  (im.prog.drop edge.progOff).take edge.progCnt

def checkNode (im : Image) (node : Node) : Bool :=
  node.edgeCnt ≤ maxEdgesPerNode && node.edgeOff + node.edgeCnt ≤ im.edges.length

def checkEdge (im : Image) (edge : Edge) : Bool :=
  edge.progCnt ≤ maxProgPerEdge && edge.progOff + edge.progCnt ≤ im.prog.length &&
    match programDepth im.atoms.length 0 0 (im.program edge) with
    | some (depth, peak) => peak ≤ stackMax && depth = 1
    | none => false

def checkEvaluatorLimits (im : Image) : Bool :=
  im.nodes.all (checkNode im) && im.edges.all (checkEdge im)

/- Reading an image. -/

/-- What an image must hold before its optional sections. -/
def need (words : HeaderWords) : Nat :=
  headerSize + atomSize * words.atoms + nodeSize * words.nodes + edgeSize * words.edges + wordSize * words.progWords

def withinCapacity (words : HeaderWords) : Bool :=
  words.atoms ≤ maxAtoms && words.nodes ≤ maxNodes && words.edges ≤ maxEdges && words.progWords ≤ maxProgWords &&
    words.fields ≤ maxFieldsPerPkt

/-- The name section of an image that has one, behind the node attributes if it has those too. -/
def readNames (data : List UInt8) (words : HeaderWords) : Option (Option (List Nat)) :=
  let flags := words.flags % 2 ^ 8
  if flags.testBit 2 then
    let off := need words + if flags.testBit 0 then wordSize * words.nodes else 0
    (Interp.readRecords (u32? data) off 4 words.nodes).map some
  else
    some none

/-- `parse_image_buf` -/
def parseImageBuf (data : List UInt8) : Option Image := do
  let words ← headerWords? data
  if words.magic ≠ magic || words.version ≠ formatVersion || data.length < need words || !withinCapacity words then
    none
  let nodesOff := headerSize + atomSize * words.atoms
  let edgesOff := nodesOff + nodeSize * words.nodes
  let progOff := edgesOff + edgeSize * words.edges
  let atoms ← Interp.readRecords (atomAt? data) headerSize atomSize words.atoms
  let nodes ← Interp.readRecords (nodeAt? data) nodesOff nodeSize words.nodes
  let edges ← Interp.readRecords (edgeAt? data) edgesOff edgeSize words.edges
  let prog ← Interp.readRecords (u16? data) progOff wordSize words.progWords
  let im : Image := {
    fields := words.fields, interns := words.interns, start := words.start, visitsIdx := words.visitsIdx
    maxSteps := words.maxSteps, maxStack := words.maxStack, safe := words.flags / 2 ^ 8, flags := words.flags % 2 ^ 8
    atoms, nodes, edges, prog, nameHashes := none, raw := data
  }
  if !checkEvaluatorLimits im then
    none
  return { im with nameHashes := ← readNames data words }

/- The host reference evaluator. -/

open Evaluator

def absent : Reg :=
  ⟨tyNone, 0⟩

/-- A register of the array the host is given; one past the array's end is no register at all. -/
def readReg (regs : List Reg) (field : Nat) : Except Fault Reg :=
  match regs[field]? with
  | some reg => .ok reg
  | none => .error .registerRead

def evalAtomHost (fields : Nat) (regs : List Reg) (atom : Atom) : Except Fault Bool :=
  if atom.field < fields then (readReg regs atom.field).map (compare atom) else .ok (compare atom absent)

/-- A push past the top is dropped. -/
def pushClamped (b : Bool) (stack : List Bool) : List Bool :=
  if stack.length < stackMax then b :: stack else stack

/-- One word of a program, the top of the stack first. An operator without its operands does nothing. -/
def evalWordHost (im : Image) (regs : List Reg) (stack : List Bool) (word : Nat) : Except Fault (List Bool) :=
  if word < 0x8000 then
    if stack.length < stackMax then
      match im.atoms[word]? with
      | none => .error .atomRead
      | some atom => (evalAtomHost im.fields regs atom).map (· :: stack)
    else
      .ok stack
  else if word = opNot then
    match stack with
    | b :: stack => .ok ((!b) :: stack)
    | [] => .ok []
  else if word = opAnd then
    match stack with
    | b :: a :: stack => .ok ((a && b) :: stack)
    | stack => .ok stack
  else if word = opOr then
    match stack with
    | b :: a :: stack => .ok ((a || b) :: stack)
    | stack => .ok stack
  else if word = opTrue then
    .ok (pushClamped true stack)
  else if word = opFalse then
    .ok (pushClamped false stack)
  else
    .ok stack

/-- The program of `cnt` words at `off`; its result is the bottom of the stack. -/
def evalProgHost (im : Image) (regs : List Reg) : (off cnt : Nat) → List Bool → Except Fault Bool
  | _, 0, stack => .ok (stack.getLast?.getD false)
  | off, cnt + 1, stack =>
    match im.prog[off]? with
    | none => .error .wordRead
    | some word => do evalProgHost im regs (off + 1) cnt (← evalWordHost im regs stack word)

/-- The first edge that matches, with its target. -/
def firstMatchHost (im : Image) (regs : List Reg) (edgeOff : Nat)
    : (cnt index : Nat) → Except Fault (Option (Nat × Nat))
  | 0, _ => .ok none
  | cnt + 1, index =>
    match im.edges[edgeOff + index]? with
    | none => .error .edgeRead
    | some edge => do
      if ← evalProgHost im regs edge.progOff edge.progCnt [] then
        return some (index, edge.target)
      else
        firstMatchHost im regs edgeOff cnt (index + 1)

/-- The matched edge and its target; `none` is the -1 of no match. -/
def evaluateHost (im : Image) (node : Nat) (regs : List Reg) : Except Fault (Option (Nat × Nat)) :=
  match im.nodes[node]? with
  | none => .error .nodeRead
  | some node => firstMatchHost im regs node.edgeOff node.edgeCnt 0

/-- The tables of an image, to evaluate without any clamp; a field past the registers reads as absent. -/
def Image.tables (im : Image) : Tables where
  node i := im.nodes[i]?
  edge i := im.edges[i]?
  word i := im.prog[i]?
  atom i := im.atoms[i]?
  fields := 2 ^ 16

/- The node a swap carries forward. -/

inductive Cause where
  | none
  | migrationReset
  deriving DecidableEq

/-- `migrate_node` -/
def migrateNode (oldIm newIm : Image) (oldCur : Nat) : Nat × Cause :=
  match oldIm.nameHashes, newIm.nameHashes with
  | some oldHashes, some newHashes =>
    if newIm.flags.testBit 1 ∧ oldCur < oldIm.nodes.length then
      match newHashes.findIdx? fun hash => oldHashes[oldCur]? = some hash with
      | some index => (index, .none)
      | none => (newIm.safe, .migrationReset)
    else
      (newIm.safe, .migrationReset)
  | _, _ => (newIm.safe, .migrationReset)

end PptImage
