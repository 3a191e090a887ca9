import PrismPath.Hw.TableFormat

/-!
This module contains the evaluator both C targets implement: the first edge of a node whose program is true wins.
A read outside a table and a misuse of the operand stack end it. The reference interpreter loads an image into tables of
its own, and the embedded one reads the image where it lies.
-/

open Bytes

namespace TableFormat

/-- The words of a header, as they are stored. -/
structure HeaderWords where
  magic : Nat
  version : Nat
  fields : Nat
  interns : Nat
  atoms : Nat
  nodes : Nat
  edges : Nat
  progWords : Nat
  start : Nat
  visitsIdx : Nat
  maxSteps : Nat
  maxStack : Nat
  flags : Nat
  deriving DecidableEq

def headerWords? (data : List UInt8) : Option HeaderWords := do
  let magic ← u32? data 0
  let version ← u16? data 4
  let fields ← u16? data 6
  let interns ← u16? data 8
  let atoms ← u16? data 10
  let nodes ← u16? data 12
  let edges ← u16? data 14
  let progWords ← u16? data 16
  let start ← u16? data 18
  let visitsIdx ← u16? data 20
  let maxSteps ← u16? data 22
  let maxStack ← u16? data 24
  let flags ← u16? data 26
  return { magic, version, fields, interns, atoms, nodes, edges, progWords, start, visitsIdx, maxSteps, maxStack, flags }

/-- The length both targets ask of an image. -/
def HeaderWords.need (words : HeaderWords) : Nat :=
  headerSize + atomSize * words.atoms + nodeSize * words.nodes + edgeSize * words.edges + wordSize * words.progWords
    + if words.flags.testBit 0 then wordSize * words.nodes else 0

end TableFormat

namespace Evaluator

open TableFormat

structure Reg where
  ty : ℤ
  val : ℤ

/-- What an evaluator reads of an image; `none` is a read outside the table. -/
structure Tables where
  node : Nat → Option Node
  edge : Nat → Option Edge
  word : Nat → Option Nat
  atom : Nat → Option Atom
  fields : Nat

inductive Fault where
  | nodeRead
  | edgeRead
  | wordRead
  | atomRead
  | registerRead
  | underflow
  | overflow
  | badOpcode
  deriving DecidableEq

def tyNone : ℤ := 0

def tyBool : ℤ := 1

def tyInt : ℤ := 2

def tyStr : ℤ := 3

def isNumeric (ty : ℤ) : Bool :=
  ty = tyBool || ty = tyInt

def same (atom : Atom) (reg : Reg) : Bool :=
  if isNumeric reg.ty && isNumeric atom.ty then
    reg.val = atom.val
  else if reg.ty = tyStr && (atom.ty : ℤ) = tyStr then
    reg.val = atom.val
  else
    reg.ty = tyNone && (atom.ty : ℤ) = tyNone

/-- An atom against its register. An ordering of what is not a number is unsatisfied. -/
def compare (atom : Atom) (reg : Reg) : Bool :=
  let numeric := isNumeric reg.ty && isNumeric atom.ty
  match atom.op with
  | 0 => same atom reg
  | 1 => !same atom reg
  | 2 => numeric && reg.val < atom.val
  | 3 => numeric && reg.val ≤ atom.val
  | 4 => numeric && reg.val > atom.val
  | 5 => numeric && reg.val ≥ atom.val
  | 6 => reg.ty ≠ tyNone && reg.val ≠ 0
  | _ => false

def evalAtom (t : Tables) (regs : Nat → Reg) (index : Nat) : Except Fault Bool :=
  match t.atom index with
  | none => .error .atomRead
  | some atom => if atom.field < t.fields then .ok (compare atom (regs atom.field)) else .error .registerRead

def push (stackMax : Nat) (b : Bool) (stack : List Bool) : Except Fault (List Bool) :=
  if stackMax ≤ stack.length then .error .overflow else .ok (b :: stack)

/-- One word of a program, the top of the stack first. -/
def evalWord (t : Tables) (regs : Nat → Reg) (stackMax : Nat) (stack : List Bool) (word : Nat)
    : Except Fault (List Bool) :=
  if word < 0x8000 then
    -- the depth is checked before the atom is read
    if stackMax ≤ stack.length then .error .overflow else (evalAtom t regs word).map (· :: stack)
  else if word = opNot then
    match stack with
    | b :: stack => .ok ((!b) :: stack)
    | [] => .error .underflow
  else if word = opAnd then
    match stack with
    | b :: a :: stack => .ok ((a && b) :: stack)
    | _ => .error .underflow
  else if word = opOr then
    match stack with
    | b :: a :: stack => .ok ((a || b) :: stack)
    | _ => .error .underflow
  else if word = opTrue then
    push stackMax true stack
  else if word = opFalse then
    push stackMax false stack
  else
    .error .badOpcode

/-- The program of `cnt` words at `off`; its result is the bottom of the stack. -/
def evalProg (t : Tables) (regs : Nat → Reg) (stackMax : Nat) : (off cnt : Nat) → List Bool → Except Fault Bool
  | _, 0, stack => .ok (stack.getLast?.getD false)
  | off, cnt + 1, stack =>
    match t.word off with
    | none => .error .wordRead
    | some word =>
      match evalWord t regs stackMax stack word with
      | .error fault => .error fault
      | .ok stack => evalProg t regs stackMax (off + 1) cnt stack

/-- The edges of a node from its `index`-th on, `cnt` of them. -/
def firstMatch (t : Tables) (regs : Nat → Reg) (stackMax edgeOff : Nat) : (cnt index : Nat) → Except Fault (Option Nat)
  | 0, _ => .ok none
  | cnt + 1, index =>
    match t.edge (edgeOff + index) with
    | none => .error .edgeRead
    | some edge =>
      match evalProg t regs stackMax edge.progOff edge.progCnt [] with
      | .error fault => .error fault
      | .ok true => .ok (some index)
      | .ok false => firstMatch t regs stackMax edgeOff cnt (index + 1)

def evaluate (t : Tables) (regs : Nat → Reg) (stackMax node : Nat) : Except Fault (Option Nat) :=
  match t.node node with
  | none => .error .nodeRead
  | some node => firstMatch t regs stackMax node.edgeOff node.edgeCnt 0

/-- The depth of the stack after a word, when the word neither underflows nor overflows it. -/
def depthAfter (stackMax depth word : Nat) : Option Nat :=
  if word < 0x8000 ∨ word = opTrue ∨ word = opFalse then
    if depth < stackMax then some (depth + 1) else none
  else if word = opNot then
    if 1 ≤ depth then some depth else none
  else if word = opAnd ∨ word = opOr then
    if 2 ≤ depth then some (depth - 1) else none
  else
    none

/-- A program keeps its stack between empty and full. -/
def stackSafe (stackMax : Nat) : Nat → List Nat → Bool
  | _, [] => true
  | depth, word :: words =>
    match depthAfter stackMax depth word with
    | none => false
    | some depth => stackSafe stackMax depth words

/-- The depth a program leaves the stack at, when it keeps it between empty and full. -/
def finalDepth (stackMax : Nat) : Nat → List Nat → Option Nat
  | depth, [] => some depth
  | depth, word :: words =>
    match depthAfter stackMax depth word with
    | none => none
    | some depth => finalDepth stackMax depth words

/-- The words of an edge's program. -/
def program (t : Tables) (edge : Edge) : List Nat :=
  (List.range' edge.progOff edge.progCnt).filterMap t.word

/-- The program of an edge is true under the registers. -/
def EdgeTrue (t : Tables) (regs : Nat → Reg) (stackMax index : Nat) : Prop :=
  ∃ edge, t.edge index = some edge ∧ evalProg t regs stackMax edge.progOff edge.progCnt [] = .ok true

/--
The edges of a node up to the first that is true under the registers are in the edge table, and their programs
keep the stack between empty and full.
-/
def NodeSafe (t : Tables) (regs : Nat → Reg) (stackMax : Nat) (node : Node) : Prop :=
  ∀ i < node.edgeCnt, (∀ j < i, ¬ EdgeTrue t regs stackMax (node.edgeOff + j)) →
    ∃ edge, t.edge (node.edgeOff + i) = some edge ∧ stackSafe stackMax 0 (program t edge) = true

end Evaluator

open Bytes TableFormat Evaluator

namespace Interp

def stackMax : Nat := 64

structure Image where
  fields : Nat
  start : Nat
  visitsIdx : Nat
  maxSteps : Nat
  maxStack : Nat
  atoms : List Atom
  nodes : List Node
  edges : List Edge
  prog : List Nat

/-- The records of one table, read one after the other. -/
def readRecords {α : Type} (at? : Nat → Option α) (off size count : Nat) : Option (List α) :=
  (List.range count).mapM fun i => at? (off + size * i)

/-- `none` where the interpreter exits on a bad image. -/
def loadImage (data : List UInt8) : Option Image := do
  let words ← headerWords? data
  if words.magic ≠ magic || words.version ≠ formatVersion || data.length < words.need then
    none
  let nodesOff := headerSize + atomSize * words.atoms
  let edgesOff := nodesOff + nodeSize * words.nodes
  let progOff := edgesOff + edgeSize * words.edges
  let atoms ← readRecords (atomAt? data) headerSize atomSize words.atoms
  let nodes ← readRecords (nodeAt? data) nodesOff nodeSize words.nodes
  let edges ← readRecords (edgeAt? data) edgesOff edgeSize words.edges
  let prog ← readRecords (u16? data) progOff wordSize words.progWords
  return {
    fields := words.fields, start := words.start, visitsIdx := words.visitsIdx, maxSteps := words.maxSteps
    maxStack := words.maxStack, atoms, nodes, edges, prog
  }

def Image.tables (image : Image) : Tables where
  node i := image.nodes[i]?
  edge i := image.edges[i]?
  word i := image.prog[i]?
  atom i := image.atoms[i]?
  fields := image.fields

/-- The index of the matching edge, or -1. -/
def evaluate (image : Image) (node : Nat) (regs : Nat → Reg) : Except Fault ℤ :=
  (Evaluator.evaluate image.tables regs stackMax node).map fun
    | some index => index
    | none => -1

end Interp

namespace PptEval

def tblMax : Nat := 8192

def pptMaxFields : Nat := 128

def stackMax : Nat := 256

inductive ParseRc where
  | badMagic
  | short
  | caps
  deriving DecidableEq

/-- The table image as it was placed, and what its header says of it. -/
structure Table where
  tbl : List UInt8
  words : HeaderWords
  atomsOff : Nat
  nodesOff : Nat
  edgesOff : Nat
  progOffBase : Nat

def u16 (n : Nat) : Nat :=
  n % 2 ^ 16

def parseTable (tbl : List UInt8) : Except ParseRc Table :=
  match headerWords? tbl with
  | none => .error .short
  | some words =>
    if words.magic ≠ magic || words.version ≠ formatVersion then
      .error .badMagic
    else if tblMax < words.need || pptMaxFields < words.fields || stackMax < words.maxStack then
      .error .caps
    else if tbl.length < words.need then
      .error .short
    else if words.nodes = 0 || words.nodes ≤ words.start then
      .error .short
    else
      let nodesOff := u16 (headerSize + atomSize * words.atoms)
      let edgesOff := u16 (nodesOff + nodeSize * words.nodes)
      .ok { tbl, words, atomsOff := headerSize, nodesOff, edgesOff, progOffBase := u16 (edgesOff + edgeSize * words.edges) }

/-- The records of the table. A read past the records of its kind is outside, whatever bytes lie there. -/
def Table.tables (table : Table) : Tables where
  node i := if i < table.words.nodes then nodeAt? table.tbl (table.nodesOff + nodeSize * i) else none
  edge i := if i < table.words.edges then edgeAt? table.tbl (table.edgesOff + edgeSize * i) else none
  word i := if i < table.words.progWords then u16? table.tbl (table.progOffBase + wordSize * i) else none
  atom i := if i < table.words.atoms then atomAt? table.tbl (table.atomsOff + atomSize * i) else none
  fields := table.words.fields

/-- `(int8_t)`. -/
def int8 (n : Nat) : ℤ :=
  if n % 2 ^ 8 < 2 ^ 7 then (n % 2 ^ 8 : Nat) else (n % 2 ^ 8 : Nat) - 2 ^ 8

/-- The index of the matching edge as a signed byte, or -1. -/
def evaluate (table : Table) (node : Nat) (regs : Nat → Reg) : Except Fault ℤ :=
  (Evaluator.evaluate table.tables regs stackMax node).map fun
    | some index => int8 index
    | none => -1

end PptEval
