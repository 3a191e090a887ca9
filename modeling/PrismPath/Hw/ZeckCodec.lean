import Mathlib.Data.Nat.Fib.Basic

/-!
This module contains the two Fibonacci codec circuits: the encoder, which finds the digits of a word and then emits
them, and the decoder of a serial bit stream, each one clock at a time.
-/

namespace ZeckCodec

/-- `F2` to `F46`. -/
def rom : List (BitVec 32) :=
  [1, 2, 3, 5, 8,
    13, 21, 34, 55, 89,
    144, 233, 377, 610, 987,
    1597, 2584, 4181, 6765, 10946,
    17711, 28657, 46368, 75025, 121393,
    196418, 317811, 514229, 832040, 1346269,
    2178309, 3524578, 5702887, 9227465, 14930352,
    24157817, 39088169, 63245986, 102334155, 165580141,
    267914296, 433494437, 701408733, 1134903170, 1836311903]

def nfib : BitVec 6 := 45

/-- `fib[j]`; no place beyond the ROM is read. -/
def fib (j : BitVec 6) : BitVec 32 :=
  rom.getD j.toNat 0

theorem fib_toNat {j : BitVec 6} (h : j.toNat < 45)
    : (fib j).toNat = Nat.fib (j.toNat + 2) := by
  have hall : ∀ i < 45, (rom.getD i 0).toNat = Nat.fib (i + 2) := by decide
  exact hall j.toNat h

/- The encoder. -/

namespace Enc

inductive St where
  | idle
  | scan
  | mark
  | emit
  deriving DecidableEq

structure Regs where
  st : St
  rem : BitVec 32
  k : BitVec 6
  i : BitVec 6
  code : BitVec 45
  outValid : Bool
  outBit : Bool
  done : Bool
  err : Bool

structure Inputs where
  rst : Bool := false
  inValid : Bool := false
  inVal : BitVec 32 := 0

/-- `code[i] <= 1` -/
def setBit (code : BitVec 45) (i : BitVec 6) : BitVec 45 :=
  code ||| BitVec.twoPow 45 i.toNat

/-- One rising edge of the clock. -/
def clock (x : Inputs) (s : Regs) : Regs :=
  -- the outputs are pulses
  let s := { s with outValid := false, done := false, err := false }
  if x.rst then
    { s with st := .idle }
  else
    match s.st with
    | .idle =>
      if x.inValid then
        if x.inVal ≠ 0 then
          { s with rem := x.inVal, k := 0, code := 0, st := .scan }
        else
          { s with err := true }
      else
        s
    | .scan =>
      if s.k + 1 < nfib ∧ fib (s.k + 1) ≤ s.rem then
        { s with k := s.k + 1 }
      else
        { s with i := s.k, st := .mark }
    | .mark =>
      let s' := if fib s.i ≤ s.rem then
          { s with code := setBit s.code s.i, rem := s.rem - fib s.i }
        else
          s
      if s.i = 0 then { s' with st := .emit } else { s' with i := s.i - 1 }
    | .emit =>
      if s.i ≤ s.k then
        { s with outValid := true, outBit := s.code.getLsbD s.i.toNat, i := s.i + 1 }
      else
        { s with outValid := true, outBit := true, done := true, st := .idle }

end Enc

/- The decoder. -/

namespace Dec

structure Regs where
  acc : BitVec 32
  i : BitVec 6
  prev : Bool
  outVal : BitVec 32
  outValid : Bool
  err : Bool

/-- The serial line in one cycle. -/
structure Serial where
  inValid : Bool
  inBit : Bool

/-- One rising edge of the clock. -/
def clock (rst : Bool) (x : Serial) (s : Regs) : Regs :=
  let s := { s with outValid := false, err := false }
  if rst then
    { s with acc := 0, i := 0, prev := false }
  else if x.inValid then
    if s.prev && x.inBit then
      -- the second one of a pair is the terminator
      { s with outVal := s.acc, outValid := true, acc := 0, i := 0, prev := false }
    else
      let s' := if x.inBit then
          if s.i < nfib then { s with acc := s.acc + fib s.i } else { s with err := true }
        else
          s
      { s' with prev := x.inBit, i := s.i + 1 }
  else
    s

end Dec

end ZeckCodec
