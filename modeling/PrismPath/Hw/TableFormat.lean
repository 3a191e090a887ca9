import PrismPath.Lib.Bytes

/-!
This module contains the records of a table image, the binary format one interpreter circuit executes.
-/

open Bytes

namespace TableFormat

def magic : Nat := 0x4D545050

def formatVersion : Nat := 1

def headerSize : Nat := 28

def atomSize : Nat := 8

def nodeSize : Nat := 4

def edgeSize : Nat := 6

def wordSize : Nat := 2

def opNot : Nat := 0x8000

def opAnd : Nat := 0x8001

def opOr : Nat := 0x8002

def opTrue : Nat := 0x8003

def opFalse : Nat := 0x8004

def progOpcodes : List Nat :=
  [opNot, opAnd, opOr, opTrue, opFalse]

structure Atom where
  field : Nat
  op : Nat
  ty : Nat
  val : ℤ
  deriving DecidableEq

structure Node where
  edgeOff : Nat
  edgeCnt : Nat
  deriving DecidableEq

structure Edge where
  target : Nat
  progOff : Nat
  progCnt : Nat
  deriving DecidableEq

def atomAt? (data : List UInt8) (off : Nat) : Option Atom := do
  let field ← u16? data off
  let op ← u8? data (off + 2)
  let ty ← u8? data (off + 3)
  let val ← i32? data (off + 4)
  return ⟨field, op, ty, val⟩

def nodeAt? (data : List UInt8) (off : Nat) : Option Node := do
  let edgeOff ← u16? data off
  let edgeCnt ← u16? data (off + 2)
  return ⟨edgeOff, edgeCnt⟩

def edgeAt? (data : List UInt8) (off : Nat) : Option Edge := do
  let target ← u16? data off
  let progOff ← u16? data (off + 2)
  let progCnt ← u16? data (off + 4)
  return ⟨target, progOff, progCnt⟩

theorem atomAt?_of_le {data : List UInt8} {off : Nat} (h : off + atomSize ≤ data.length)
    : ∃ atom, atomAt? data off = some atom := by
  rw [atomSize] at h
  rcases u16?_of_le data off (by omega) with ⟨field, hfield, _⟩
  rcases u8?_of_lt data (off + 2) (by omega) with ⟨op, hop, _⟩
  rcases u8?_of_lt data (off + 3) (by omega) with ⟨ty, hty, _⟩
  rcases i32?_of_le data (off + 4) (by omega) with ⟨val, hval⟩
  exact ⟨⟨field, op, ty, val⟩, by simp [atomAt?, hfield, hop, hty, hval]⟩

theorem nodeAt?_of_le {data : List UInt8} {off : Nat} (h : off + nodeSize ≤ data.length)
    : ∃ node, nodeAt? data off = some node := by
  rw [nodeSize] at h
  rcases u16?_of_le data off (by omega) with ⟨edgeOff, hoff, _⟩
  rcases u16?_of_le data (off + 2) (by omega) with ⟨edgeCnt, hcnt, _⟩
  exact ⟨⟨edgeOff, edgeCnt⟩, by simp [nodeAt?, hoff, hcnt]⟩

theorem edgeAt?_of_le {data : List UInt8} {off : Nat} (h : off + edgeSize ≤ data.length)
    : ∃ edge, edgeAt? data off = some edge := by
  rw [edgeSize] at h
  rcases u16?_of_le data off (by omega) with ⟨target, htarget, _⟩
  rcases u16?_of_le data (off + 2) (by omega) with ⟨progOff, hoff, _⟩
  rcases u16?_of_le data (off + 4) (by omega) with ⟨progCnt, hcnt, _⟩
  exact ⟨⟨target, progOff, progCnt⟩, by simp [edgeAt?, htarget, hoff, hcnt]⟩

end TableFormat
