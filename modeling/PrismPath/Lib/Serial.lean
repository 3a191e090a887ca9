import Mathlib.Data.List.Basic

/-!
This module contains a serial line with eight bits in a frame: a reader waits for the start bit of a frame and then
samples every bit at the same place.
-/

namespace Serial

/-- The byte of eight bits, the lowest first. -/
def byte (got : List Bool) : BitVec 8 :=
  BitVec.ofNat 8 (got.foldr (fun b n => b.toNat + 2 * n) 0)

/-- The lowest bits of a byte, the lowest first. -/
def bits (w : BitVec 8) (n : Nat) : List Bool :=
  (List.range n).map w.getLsbD

/-- A reader between two samples of the line; in a frame it has some of the bits, and passes over `wait` samples before
the next bit. -/
inductive Reader where
  | idle
  | frame (wait : Nat) (got : List Bool)
  deriving DecidableEq

/-- One sample of the line, at `period` samples a bit. A bit is read `offset` samples after it starts, and a byte comes
out when the stop bit is read. -/
def Reader.sample (period offset : Nat) (level : Bool) : Reader → Reader × Option (BitVec 8)
  | .idle => if level then (.idle, none) else (.frame (period + offset - 1) [], none)
  | .frame (wait + 1) got => (.frame wait got, none)
  | .frame 0 got =>
    if got.length < 8 then
      (.frame (period - 1) (got ++ [level]), none)
    else
      (.idle, if level then some (byte got) else none)

/-- The samples of a line, one after the other. -/
def read (period offset : Nat) : Reader → List Bool → Reader × List (BitVec 8)
  | reader, [] => (reader, [])
  | reader, level :: line =>
    let next := reader.sample period offset level
    let rest := read period offset next.1 line
    (rest.1, next.2.toList ++ rest.2)

variable {period offset : Nat} {got : List Bool} {level : Bool}

/-- The reader inside a bit of which `left` samples are to come: it has read the bit, or comes to it yet. -/
def inBit (period offset left : Nat) (got : List Bool) (level : Bool) : Reader :=
  if left + offset < period then .frame (left + offset) (got ++ [level]) else .frame (left + offset - period) got

/-- The reader inside the stop bit of which `left` samples are to come. -/
def inStop (period offset left : Nat) (got : List Bool) : Reader :=
  if left + offset < period then .idle else .frame (left + offset - period) got

end Serial
