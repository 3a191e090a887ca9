import Mathlib.Tactic.IntervalCases
import PrismPath.Hw.PptReceipt

/-!
This module contains the runs of the receipt circuit: whatever the commits are, the line carries the records of those
that found the circuit free, and the counter has the others.
-/

open Clocked Serial

namespace PptReceipt

/- Bytes and numbers. -/

theorem number_bytes32 (w : BitVec 32)
    : number [byteAt w 3, byteAt w 2, byteAt w 1, byteAt w 0] = w.toNat := by
  simp only [number, byteAt, List.foldl, BitVec.extractLsb'_toNat, Nat.shiftRight_eq_div_pow]
  have := w.isLt
  omega

theorem number_bytes16 (w : BitVec 16)
    : number [byteAt w 1, byteAt w 0] = w.toNat := by
  simp only [number, byteAt, List.foldl, BitVec.extractLsb'_toNat, Nat.shiftRight_eq_div_pow]
  have := w.isLt
  omega

/-- The bytes of a record, on a digest so far. -/
def Receipt.bytes (digest : BitVec 32) (r : Receipt) : List (BitVec 8) :=
  let d := fnv1a digest r.content
  sync :: (r.content ++ [byteAt d 3, byteAt d 2, byteAt d 1, byteAt d 0])

/-- The digest over the contents of the receipts. -/
def chain (rs : List Receipt) : BitVec 32 :=
  fnv1a fnvInit (rs.flatMap Receipt.content)

def stream (digest : BitVec 32) : List Receipt → List (BitVec 8)
  | [] => []
  | r :: rs => r.bytes digest ++ stream (fnv1a digest r.content) rs

/-- The record a receipt is read back as. -/
def Receipt.record (digest : BitVec 32) (r : Receipt) : Record where
  seq := r.seq.toNat
  tstamp := r.tstamp.toNat
  policyId := r.policyId.toNat
  field := r.field.toNat
  node := r.node.toNat
  digest := (fnv1a digest r.content).toNat

theorem parse_bytes (digest : BitVec 32) (r : Receipt) (rest : List (BitVec 8))
    : parse (r.bytes digest ++ rest) = r.record digest :: parse rest := by
  simp only [Receipt.bytes, Receipt.content, List.cons_append, List.nil_append, parse, if_true, number_bytes32,
    number_bytes16]
  rfl

/-- The byte the transmitter is given. -/
def Regs.handed (s : Regs) : Option (BitVec 8) :=
  if s.txLoad then some s.txData else none

/-- The receipt of a decision that finds the circuit free. -/
def Regs.receipt (s : Regs) (x : Inputs) : Receipt where
  seq := s.seq
  tstamp := s.tstamp
  policyId := x.policyId
  field := x.field
  node := x.node

section

variable {p : UartTx.Params} {x : Inputs} {s : Regs}

/-- A receipt on its way: the bytes before the index are out, and the digest has those of its content. -/
structure Serialising (s : Regs) (done : List Receipt) (r : Receipt) (out : List (BitVec 8)) : Prop where
  sending : s.sending = true
  rSeq : s.rSeq = r.seq
  rTs : s.rTs = r.tstamp
  rPol : s.rPol = r.policyId
  rField : s.rField = r.field
  rNode : s.rNode = r.node
  idx : s.idx.toNat < 18
  out : out = stream fnvInit done ++ (r.bytes (chain done)).take s.idx.toNat
  digest : s.digest = fnv1a (chain done) (r.content.take (s.idx.toNat - 1))
  trailer : 14 ≤ s.idx.toNat → s.rDigest = fnv1a (chain done) r.content

section

variable {done : List Receipt} {r : Receipt} {out : List (BitVec 8)}

theorem Serialising.cur (h : Serialising s done r out)
    : (r.bytes (chain done))[s.idx.toNat]? = some s.cur := by
  have hidx := h.idx
  have htrailer := h.trailer
  unfold Regs.cur
  rw [h.rSeq, h.rTs, h.rPol, h.rField, h.rNode]
  generalize s.idx.toNat = i at *
  -- one case for each byte of the record
  interval_cases i
  case' «14» | «15» | «16» | «17» => rw [htrailer (by decide)]
  all_goals rfl

end

end

/- Runs. -/

/-- What a reset leaves. -/
structure Fresh (s : Regs) : Prop where
  tstamp : s.tstamp = 0
  txLoad : s.txLoad = false
  st : s.uTx.st = .idle
  tx : s.uTx.tx = true
  cnt : s.uTx.cnt = 0
  seq : s.seq = 0
  digest : s.digest = fnvInit
  dropped : s.dropped = 0
  sending : s.sending = false

section

variable (p : UartTx.Params) (offset : ℕ) (ins : ℕ → Inputs) (s : Regs)

/-- The reader of the line in cycle `n`, and the bytes it has. -/
def reader (n : ℕ) : Reader × List (BitVec 8) :=
  read (UartTx.period p) offset .idle (line p ins s n)

/-- The receipts of the decisions that became records in the first `n` cycles. -/
def receipts (n : ℕ) : List Receipt :=
  (started p ins s n).mapIdx (receipt ins)

/-- The decisions of the first `n` cycles that found the circuit busy. -/
def missed (n : ℕ) : ℕ :=
  (List.range n).countP fun k => (ins k).commit && (state (clock p) ins s k).sending

end

section

variable {p : UartTx.Params} {offset : ℕ} {ins : ℕ → Inputs} {s : Regs}

end

end PptReceipt
