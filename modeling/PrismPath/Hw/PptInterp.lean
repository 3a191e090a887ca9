import PrismPath.Hw.Evaluator
import Mathlib.Data.Nat.Log

/-!
This module contains the interpreter circuit: its table and register memories, the port that loads them, and the state
machine that evaluates one node, one clock at a time.
-/

open TableFormat

namespace PptInterp

structure Params where
  maxFields : Nat := 16
  maxAtoms : Nat := 64
  maxNodes : Nat := 16
  maxEdges : Nat := 48
  maxProg : Nat := 256
  stackD : Nat := 16

/-- The bits of an address that a memory of this size looks at: `[$clog2(size)-1:0]`. -/
def port (size : Nat) (addr : BitVec 16) : Nat :=
  addr.toNat % 2 ^ Nat.clog 2 size

/-- The memories. What lies beyond the size of one, within the bits of its port, is anything. -/
structure Core where
  visitsIdx : BitVec 16
  atomField : Nat → BitVec 16
  atomOp : Nat → BitVec 8
  atomTy : Nat → BitVec 2
  atomVal : Nat → BitVec 32
  nodeEoff : Nat → BitVec 16
  nodeEcnt : Nat → BitVec 16
  edgeTgt : Nat → BitVec 16
  edgePoff : Nat → BitVec 16
  edgePcnt : Nat → BitVec 16
  prog : Nat → BitVec 16
  fTy : Nat → BitVec 2
  fV : Nat → BitVec 32
  visits : Nat → BitVec 16

/- The load port. -/

/-- `data[hi:lo]` -/
def bits (w lo : Nat) (data : BitVec 32) : BitVec w :=
  (data >>> lo).setWidth w

structure LoadWord where
  sel : BitVec 3
  addr : BitVec 16
  data : BitVec 32

def loadWord (p : Params) (core : Core) (load : LoadWord) : Core :=
  let data := load.data
  match load.sel.toNat with
  | 0 => { core with visitsIdx := bits 16 0 data }
  | 1 =>
    let a := port p.maxAtoms load.addr
    { core with
      atomField := Function.update core.atomField a (bits 16 0 data)
      atomOp := Function.update core.atomOp a (bits 8 16 data)
      atomTy := Function.update core.atomTy a (bits 2 24 data) }
  | 2 => { core with atomVal := Function.update core.atomVal (port p.maxAtoms load.addr) data }
  | 3 =>
    let n := port p.maxNodes load.addr
    { core with
      nodeEoff := Function.update core.nodeEoff n (bits 16 0 data)
      nodeEcnt := Function.update core.nodeEcnt n (bits 16 16 data) }
  | 4 =>
    let e := port p.maxEdges load.addr
    { core with
      edgeTgt := Function.update core.edgeTgt e (bits 16 0 data)
      edgePoff := Function.update core.edgePoff e (bits 16 16 data) }
  | 5 => { core with edgePcnt := Function.update core.edgePcnt (port p.maxEdges load.addr) (bits 16 0 data) }
  | 6 => { core with prog := Function.update core.prog (port p.maxProg load.addr) (bits 16 0 data) }
  | _ => core

/- The comparator. -/

def tyNone : BitVec 2 := 0

def tyBool : BitVec 2 := 1

def tyInt : BitVec 2 := 2

def tyStr : BitVec 2 := 3

def visitsNone : BitVec 16 := 0xFFFF

def isNum (ty : BitVec 2) : Bool :=
  ty = tyBool || ty = tyInt

/-- The register an atom of this field is compared with; `node` is the node that is evaluated. -/
def register (p : Params) (core : Core) (useVisits : Bool) (node field : BitVec 16) : BitVec 2 × BitVec 32 :=
  if useVisits && core.visitsIdx ≠ visitsNone && field = core.visitsIdx then
    (tyInt, (core.visits (port p.maxNodes node)).setWidth 32)
  else
    (core.fTy (port p.maxFields field), core.fV (port p.maxFields field))

def atomTrue (p : Params) (core : Core) (useVisits : Bool) (node ai : BitVec 16) : Bool :=
  let a := port p.maxAtoms ai
  let (rty, rv) := register p core useVisits node (core.atomField a)
  let cty := core.atomTy a
  let cv := core.atomVal a
  let num := isNum rty && isNum cty
  let eq : Bool :=
    if num then rv = cv
    else if rty = tyStr && cty = tyStr then rv = cv
    else rty = tyNone && cty = tyNone
  match (core.atomOp a).toNat with
  | 0 => eq
  | 1 => !eq
  | 2 => num && rv.slt cv
  | 3 => num && rv.sle cv
  | 4 => num && cv.slt rv
  | 5 => num && cv.sle rv
  | 6 => rty ≠ tyNone && rv ≠ 0
  | _ => false

/- The state machine. -/

inductive State where
  | idle
  | edge
  | run
  | done
  deriving DecidableEq

structure Fsm where
  st : State
  nodeR : BitVec 16
  curEdge : BitVec 16
  pc : BitVec 16
  /-- `stk[0]` first. -/
  stk : List Bool
  ran : Bool
  busy : Bool
  done : Bool
  matched : Bool
  matchEdge : BitVec 16
  target : BitVec 16

structure Inputs where
  rst : Bool := false
  start : Bool := false
  nodeIdx : BitVec 16 := 0
  useVisits : Bool := false

section

variable (p : Params) (core : Core)

def ecnt (s : Fsm) : BitVec 16 :=
  core.nodeEcnt (port p.maxNodes s.nodeR)

def eidx (s : Fsm) : BitVec 16 :=
  core.nodeEoff (port p.maxNodes s.nodeR) + s.curEdge

def pword (s : Fsm) : BitVec 16 :=
  core.prog (port p.maxProg (core.edgePoff (port p.maxEdges (eidx p core s)) + s.pc))

/-- A shift register of `stackD` bits: what is pushed out of it is lost. -/
def pushBit (b : Bool) (stk : List Bool) : List Bool :=
  (b :: stk).take p.stackD

def foldTop (f : Bool → Bool → Bool) : List Bool → List Bool
  | b :: a :: stk => f a b :: (stk ++ [false])
  | stk => stk

def execWord (useVisits : Bool) (node word : BitVec 16) (stk : List Bool) : List Bool :=
  if word < 0x8000 then
    pushBit p (atomTrue p core useVisits node word) stk
  else
    match word.toNat with
    | 0x8000 =>
      match stk with
      | b :: stk => (!b) :: stk
      | [] => []
    | 0x8001 => foldTop and stk
    | 0x8002 => foldTop or stk
    | 0x8003 => pushBit p true stk
    | 0x8004 => pushBit p false stk
    | _ => stk

/-- One rising edge of the clock, the tables and registers standing. -/
def clock (i : Inputs) (s : Fsm) : Fsm :=
  -- `done` is a pulse
  let s := { s with done := false }
  if i.rst then
    { s with st := .idle, busy := false, matched := false, ran := false }
  else
    match s.st with
    | .idle =>
      if i.start then { s with nodeR := i.nodeIdx, curEdge := 0, busy := true, st := .edge } else s
    | .edge =>
      if ecnt p core s ≤ s.curEdge then
        { s with matched := false, st := .done, ran := false }
      else
        { s with pc := 0, stk := List.replicate p.stackD false, st := .run, ran := false }
    | .run =>
      let s' := { s with stk := execWord p core i.useVisits s.nodeR (pword p core s) s.stk, ran := true }
      if core.edgePcnt (port p.maxEdges (eidx p core s)) ≤ s.pc + 1 then
        { s' with st := .done }
      else
        { s' with pc := s.pc + 1 }
    | .done =>
      let top := s.stk.headD false
      if s.ran && !top && s.curEdge + 1 < ecnt p core s then
        { s with curEdge := s.curEdge + 1, st := .edge }
      else
        { s with
          matched := s.ran && top
          matchEdge := s.curEdge
          target := core.edgeTgt (port p.maxEdges (eidx p core s))
          busy := false
          done := true
          st := .idle }

end

end PptInterp
