import PrismPath.Hw.UartTx
import PrismPath.Lib.Clocked

/-!
This module contains the receipt circuit: each commit that finds it free becomes a record of 18 bytes, which go out over
the serial line one after the other.
-/

open Clocked

namespace PptReceipt

def sync : BitVec 8 := 0xA5

def fnvInit : BitVec 32 := 2166136261

def fnvPrime : BitVec 32 := 16777619

def fnvNext (digest : BitVec 32) (byte : BitVec 8) : BitVec 32 :=
  (digest ^^^ byte.setWidth 32) * fnvPrime

def byteAt {n : Nat} (w : BitVec n) (k : Nat) : BitVec 8 :=
  w.extractLsb' (8 * k) 8

structure Inputs where
  rst : Bool := false
  commit : Bool := false
  field : BitVec 12 := 0
  node : BitVec 16 := 0
  policyId : BitVec 8 := 0

structure Regs where
  tstamp : BitVec 32
  txLoad : Bool
  txData : BitVec 8
  uTx : UartTx.Regs
  rSeq : BitVec 32
  rTs : BitVec 32
  rPol : BitVec 8
  rField : BitVec 12
  rNode : BitVec 16
  rDigest : BitVec 32
  idx : BitVec 5
  sending : Bool
  digest : BitVec 32
  seq : BitVec 32
  dropped : BitVec 32

/-- The byte at the current index. -/
def Regs.cur (s : Regs) : BitVec 8 :=
  match s.idx.toNat with
  | 0 => sync
  | 1 => byteAt s.rSeq 3
  | 2 => byteAt s.rSeq 2
  | 3 => byteAt s.rSeq 1
  | 4 => byteAt s.rSeq 0
  | 5 => byteAt s.rTs 3
  | 6 => byteAt s.rTs 2
  | 7 => byteAt s.rTs 1
  | 8 => byteAt s.rTs 0
  | 9 => s.rPol
  | 10 => byteAt (s.rField.setWidth 16) 1
  | 11 => byteAt (s.rField.setWidth 16) 0
  | 12 => byteAt s.rNode 1
  | 13 => byteAt s.rNode 0
  | 14 => byteAt s.rDigest 3
  | 15 => byteAt s.rDigest 2
  | 16 => byteAt s.rDigest 1
  | 17 => byteAt s.rDigest 0
  | _ => 0

/-- One rising edge of the clock. -/
def clock (p : UartTx.Params) (x : Inputs) (s : Regs) : Regs :=
  let s' := { s with
    tstamp := if x.rst then 0 else s.tstamp + 1
    uTx := UartTx.clock p x.rst s.txLoad s.txData s.uTx
    txLoad := false
  }
  if x.rst then
    { s' with seq := 0, digest := fnvInit, rDigest := fnvInit, dropped := 0, sending := false, idx := 0 }
  else if !s.sending then
    if x.commit then
      { s' with
        rSeq := s.seq, rTs := s.tstamp, rPol := x.policyId, rField := x.field, rNode := x.node
        seq := s.seq + 1, sending := true, idx := 0
      }
    else
      s'
  else
    -- a decision landed mid-receipt
    let s' := if x.commit then { s' with dropped := s.dropped + 1 } else s'
    if s.uTx.ready && !s.txLoad then
      { s' with
        txData := s.cur, txLoad := true
        digest := if 1 ≤ s.idx ∧ s.idx ≤ 13 then fnvNext s.digest s.cur else s.digest
        rDigest := if s.idx = 13 then fnvNext s.digest s.cur else s.rDigest
        sending := if s.idx = 17 then false else true
        idx := if s.idx = 17 then 0 else s.idx + 1
      }
    else
      s'

/- What a run accounts for. -/

section

variable (p : UartTx.Params) (ins : ℕ → Inputs) (s : Regs)

/-- The decisions made in the first `n` cycles. -/
def commits (n : ℕ) : ℕ :=
  (List.range n).countP fun k => (ins k).commit

/-- The cycles, of the first `n`, whose decision became a record. -/
def started (n : ℕ) : List ℕ :=
  (List.range n).filter fun k => (ins k).commit && !(state (clock p) ins s k).sending

/-- The serial line up to cycle `n`. -/
def line (n : ℕ) : List Bool :=
  (List.range (n + 1)).map fun k => (state (clock p) ins s k).uTx.tx

end

/-- The content of a record. -/
structure Receipt where
  seq : BitVec 32
  tstamp : BitVec 32
  policyId : BitVec 8
  field : BitVec 12
  node : BitVec 16

/-- The 13 bytes the digest is over. -/
def Receipt.content (r : Receipt) : List (BitVec 8) :=
  [byteAt r.seq 3, byteAt r.seq 2, byteAt r.seq 1, byteAt r.seq 0,
    byteAt r.tstamp 3, byteAt r.tstamp 2, byteAt r.tstamp 1, byteAt r.tstamp 0, r.policyId,
    byteAt (r.field.setWidth 16) 1, byteAt (r.field.setWidth 16) 0, byteAt r.node 1, byteAt r.node 0]

/-- FNV-1a, from the digest so far. -/
def fnv1a (digest : BitVec 32) (bytes : List (BitVec 8)) : BitVec 32 :=
  bytes.foldl fnvNext digest

/-- The receipt of the `i`-th record, whose decision was made in cycle `k`. -/
def receipt (ins : ℕ → Inputs) (i k : ℕ) : Receipt where
  seq := .ofNat 32 i
  tstamp := .ofNat 32 k
  policyId := (ins k).policyId
  field := (ins k).field
  node := (ins k).node

/- A passive reader of the line. -/

/-- A record off the line. -/
structure Record where
  seq : ℕ
  tstamp : ℕ
  policyId : ℕ
  field : ℕ
  node : ℕ
  digest : ℕ
  deriving DecidableEq

/-- A number, its highest byte first. -/
def number (bytes : List (BitVec 8)) : ℕ :=
  bytes.foldl (fun n byte => 256 * n + byte.toNat) 0

/-- The records of a stream of bytes, up to one that is not all there or does not start right. -/
def parse : List (BitVec 8) → List Record
  | b₀ :: s₃ :: s₂ :: s₁ :: s₀ :: t₃ :: t₂ :: t₁ :: t₀ :: pol :: f₁ :: f₀ :: n₁ :: n₀ :: d₃ :: d₂ :: d₁ :: d₀ :: rest =>
    if b₀ = sync then
      {
        seq := number [s₃, s₂, s₁, s₀]
        tstamp := number [t₃, t₂, t₁, t₀]
        policyId := pol.toNat
        field := number [f₁, f₀]
        node := number [n₁, n₀]
        digest := number [d₃, d₂, d₁, d₀]
      } :: parse rest
    else
      []
  | _ => []

/-- The records that a reader of the line has in cycle `n`, where it samples each bit `offset` clocks after its edge. -/
def decoded (p : UartTx.Params) (offset : ℕ) (ins : ℕ → Inputs) (s : Regs) (n : ℕ) : List Record :=
  parse (Serial.read (UartTx.period p) offset .idle (line p ins s n)).2

/-- The records of the decisions made in these cycles: numbered from 0, each with what was decided in its own cycle and
the digest over the contents up to its own. -/
def records (ins : ℕ → Inputs) (cycles : List ℕ) : List Record :=
  cycles.mapIdx fun i k => {
    seq := i
    tstamp := k % 2 ^ 32
    policyId := (ins k).policyId.toNat
    field := (ins k).field.toNat
    node := (ins k).node.toNat
    digest := (fnv1a fnvInit (((cycles.mapIdx (receipt ins)).take (i + 1)).flatMap Receipt.content)).toNat
  }

end PptReceipt
