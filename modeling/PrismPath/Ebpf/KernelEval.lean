import PrismPath.Ebpf.PptImage
import PrismPath.Lib.Reading
import Mathlib.Logic.Function.Basic

/-!
This module contains the evaluator in the kernel: the maps a table image is packed into, and the bounded loops that
look the table up in them one entry at a time.
-/

open TableFormat Evaluator PptImage

namespace PptKernel

/-- `struct ppt_config` -/
structure Config where
  fields : Nat
  interns : Nat
  atoms : Nat
  nodes : Nat
  edges : Nat
  progLen : Nat
  startNode : Nat
  visitsIdx : Nat
  maxSteps : Nat
  maxStack : Nat
  safeNode : Nat
  dropMask : Nat
  policyHash : Nat
  deriving DecidableEq

/-- The place of an entry in one of the five table maps. -/
inductive Key where
  | atom (index : Nat)
  | node (index : Nat)
  | edge (index : Nat)
  | word (index : Nat)
  | config (index : Nat)
  deriving DecidableEq

def Entry : Key → Type
  | .atom _ => Atom
  | .node _ => Node
  | .edge _ => Edge
  | .word _ => Nat
  | .config _ => Config

abbrev Maps : Type :=
  (k : Key) → Entry k

/-- A program holds one bank of every table, or two. -/
def Key.inside (banks : Nat) : Key → Prop
  | .atom i => i < banks * maxAtoms
  | .node i => i < banks * maxNodes
  | .edge i => i < banks * maxEdges
  | .word i => i < banks * maxProgWords
  | .config i => i < banks

instance (banks : Nat) : DecidablePred (Key.inside banks)
  | .atom i => inferInstanceAs (Decidable (i < banks * maxAtoms))
  | .node i => inferInstanceAs (Decidable (i < banks * maxNodes))
  | .edge i => inferInstanceAs (Decidable (i < banks * maxEdges))
  | .word i => inferInstanceAs (Decidable (i < banks * maxProgWords))
  | .config i => inferInstanceAs (Decidable (i < banks))

/-- What a lookup returns: the entry, or the null pointer. -/
abbrev Row (k : Key) : Type :=
  Option (Entry k)

def Maps.lookup (banks : Nat) (m : Maps) (k : Key) : Row k :=
  if k.inside banks then some (m k) else none

/- Packing an image into the maps, one entry at a time. -/

structure Write where
  key : Key
  value : Entry key

def Maps.write (m : Maps) (w : Write) : Maps :=
  Function.update m w.key w.value

def Maps.writes (m : Maps) (ws : List Write) : Maps :=
  ws.foldl Maps.write m

/-- The config of an image; `hash` is the low 64 bits of the digest of its bytes. -/
def configOf (hash : List UInt8 → Nat) (im : Image) (dropMask : Nat) : Config where
  fields := im.fields
  interns := im.interns
  atoms := im.atoms.length
  nodes := im.nodes.length
  edges := im.edges.length
  progLen := im.prog.length
  startNode := im.start
  visitsIdx := im.visitsIdx
  maxSteps := im.maxSteps
  maxStack := im.maxStack
  safeNode := im.safe
  dropMask := dropMask
  policyHash := hash im.raw

/-- The entries of the four tables of an image, from the first entry of a bank on. -/
def tableWrites (im : Image) (bank : Nat) : List Write :=
  im.atoms.zipIdx.map (fun (atom, i) => ⟨.atom (bank * maxAtoms + i), atom⟩)
    ++ im.nodes.zipIdx.map (fun (node, i) => ⟨.node (bank * maxNodes + i), node⟩)
    ++ im.edges.zipIdx.map (fun (edge, i) => ⟨.edge (bank * maxEdges + i), edge⟩)
    ++ im.prog.zipIdx.map (fun (word, i) => ⟨.word (bank * maxProgWords + i), word⟩)

/-- `populate_maps`: the config first, then the tables, into the first bank. -/
def populateWrites (hash : List UInt8 → Nat) (im : Image) : List Write :=
  ⟨.config 0, configOf hash im 0⟩ :: tableWrites im 0

def populateMaps (hash : List UInt8 → Nat) (im : Image) (m : Maps) : Maps :=
  m.writes (populateWrites hash im)

/- The evaluator. -/

abbrev Kernel : Type → Type :=
  Reading Key Row

/-- The call stops as soon as the callback answers so, or after so many iterations. -/
def bpfLoop {σ : Type} (callback : Nat → σ → Kernel (Bool × σ)) : (count index : Nat) → σ → Kernel σ
  | 0, _, state => pure state
  | count + 1, index, state => do
    let (stop, state) ← callback index state
    if stop then return state else bpfLoop callback count (index + 1) state

def bankBase (bank span : Nat) : Nat :=
  bank % 2 * span

def evalAtom (regs : Nat → Reg) (fields : Nat) (atom : Atom) : Bool :=
  compare atom (if atom.field < maxFieldsPerPkt ∧ atom.field < fields then regs atom.field else absent)

def stGet (st : Nat → Bool) (index : Nat) : Bool :=
  if index < stackMax then st index else false

def stPut (st : Nat → Bool) (index : Nat) (value : Bool) : Nat → Bool :=
  if index < stackMax then Function.update st index value else st

structure ProgCtx where
  progOff : Nat
  progCnt : Nat
  fields : Nat
  bank : Nat
  st : Nat → Bool
  sp : Nat

def ProgCtx.push (state : ProgCtx) (value : Bool) : ProgCtx :=
  if state.sp < stackMax then { state with st := stPut state.st state.sp value, sp := state.sp + 1 } else state

def ProgCtx.binary (state : ProgCtx) (op : Bool → Bool → Bool) : ProgCtx :=
  if 2 ≤ state.sp then
    let rhs := stGet state.st (state.sp - 1)
    let lhs := stGet state.st (state.sp - 2)
    { state with st := stPut state.st (state.sp - 2) (op lhs rhs), sp := state.sp - 1 }
  else
    state

/-- The effect of an opcode; an unknown one has none. -/
def ProgCtx.operate (state : ProgCtx) (word : Nat) : ProgCtx :=
  if word = opNot then
    if 1 ≤ state.sp then
      { state with st := stPut state.st (state.sp - 1) (!stGet state.st (state.sp - 1)) }
    else
      state
  else if word = opAnd then
    state.binary and
  else if word = opOr then
    state.binary or
  else if word = opTrue then
    state.push true
  else if word = opFalse then
    state.push false
  else
    state

def lookupWord (bank index : Nat) : Kernel (Option Nat) :=
  Reading.get (Key.word (bankBase bank maxProgWords + index % maxProgWords))

def lookupAtom (bank index : Nat) : Kernel (Option Atom) :=
  Reading.get (Key.atom (bankBase bank maxAtoms + index % maxAtoms))

def lookupEdge (bank index : Nat) : Kernel (Option Edge) :=
  Reading.get (Key.edge (bankBase bank maxEdges + index % maxEdges))

def lookupNode (bank index : Nat) : Kernel (Option Node) :=
  Reading.get (Key.node (bankBase bank maxNodes + index % maxNodes))

/-- `prog_word_cb` -/
def progWordCb (regs : Nat → Reg) (wordIndex : Nat) (state : ProgCtx) : Kernel (Bool × ProgCtx) := do
  if state.progCnt ≤ wordIndex then
    return (true, state)
  match ← lookupWord state.bank (state.progOff + wordIndex) with
  | none => return (true, state)
  | some word =>
    if word < 0x8000 then
      match ← lookupAtom state.bank word with
      | none => return (false, state.push false)
      | some atom => return (false, state.push (evalAtom regs state.fields atom))
    else
      return (false, state.operate word)

def evalProg (regs : Nat → Reg) (fields bank : Nat) (edge : Edge) : Kernel Bool := do
  let state ← bpfLoop (progWordCb regs) maxProgPerEdge 0
    { progOff := edge.progOff, progCnt := min edge.progCnt maxProgPerEdge, fields, bank, st := fun _ => false, sp := 0 }
  return if 0 < state.sp then stGet state.st 0 else false

structure EvalLoopCtx where
  edgeOff : Nat
  edgeCnt : Nat
  fields : Nat
  bank : Nat
  matched : Option (Nat × Nat)

/-- `edge_loop_cb` -/
def edgeLoopCb (regs : Nat → Reg) (edgeIndex : Nat) (state : EvalLoopCtx) : Kernel (Bool × EvalLoopCtx) := do
  if state.edgeCnt ≤ edgeIndex then
    return (true, state)
  match ← lookupEdge state.bank (state.edgeOff + edgeIndex) with
  | none => return (false, state)
  | some edge =>
    if ← evalProg regs state.fields state.bank edge then
      return (true, { state with matched := some (edgeIndex, edge.target) })
    else
      return (false, state)

/-- The matched edge and its target; `none` is the -1 of both. -/
def evaluate (regs : Nat → Reg) (fields bank node : Nat) : Kernel (Option (Nat × Nat)) := do
  match ← lookupNode bank node with
  | none => return none
  | some node =>
    let state ← bpfLoop (edgeLoopCb regs) maxEdgesPerNode 0
      { edgeOff := node.edgeOff, edgeCnt := min node.edgeCnt maxEdgesPerNode, fields, bank, matched := none }
    return state.matched

/- The register file of a packet. -/

/-- The field count a packet claims, and the registers that follow within its end. -/
structure Packet where
  fields : Nat
  payload : List Reg

def Packet.fieldCount (packet : Packet) : Nat :=
  min packet.fields maxFieldsPerPkt

/-- `ppt_load_regs_from_payload` -/
def loadRegs (packet : Packet) (slot : Nat) : Reg :=
  if slot < packet.fieldCount then packet.payload[slot]?.getD absent else absent

end PptKernel
