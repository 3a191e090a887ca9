import PrismPath.Lib.Fibonacci
import PrismPath.Python.Object

/-!
This module contains the concentrator: records of many streams in one byte aligned frame, each a stream id and
a reading in Fibonacci codes, and the strict reader that takes a frame apart again.
-/

open Python

/- Fibonacci codes. -/

namespace Zeckendorf

/-- `while more(fibs): fibs.append(fibs[-1] + fibs[-2])`, with the last Fibonacci number first. -/
def growFibs (more : List ℕ → Bool) : ℕ → List ℕ → List ℕ
  | fuel + 1, last :: previous :: fibs =>
    if more (last :: previous :: fibs) then
      growFibs more fuel ((last + previous) :: last :: previous :: fibs)
    else
      last :: previous :: fibs
  | _, fibs => fibs

/-- `_fibs_upto`, the largest first. -/
def fibsUpto (limit : ℕ) : List ℕ :=
  match growFibs (fun fibs => fibs.head?.all (· ≤ limit)) limit [2, 1] with
  | last :: fibs => if limit < last then fibs else last :: fibs
  | [] => []

def encode (value : ℤ) : Except Error (List Bool) :=
  if value < 1 then
    .error .valueError
  else
    let (digits, rem) := Fibonacci.greedy (fibsUpto value.toNat) value.toNat
    if rem = 0 then
      .ok (digits.reverse ++ [true])
    else
      .error .assertionError

def encodeStream (values : List ℤ) : Except Error (List Bool) := do
  return (← values.mapM encode).flatten

/-- `"11" in bits` -/
def hasPair : List Bool → Bool
  | a :: b :: bits => (a && b) || hasPair (b :: bits)
  | _ => false

def decode (code : List Bool) : Except Error ℕ :=
  if code.length < 2 ∨ code.drop (code.length - 2) ≠ [true, true] then
    .error .valueError
  else
    let zeck := code.dropLast
    if hasPair zeck then
      .error .valueError
    else
      let fibs := (growFibs (fun fibs => fibs.length < zeck.length) zeck.length [2, 1]).reverse
      .ok ((fibs.zip zeck).map fun (fib, bit) => if bit then fib else 0).sum

/-- The rest of the bits, with those of the code that was begun in `code`, the last one first. -/
def decodeStreamFrom : (code bits : List Bool) → Except Error (List ℕ)
  | code, true :: true :: bits => do
    let value ← decode (code.reverse ++ [true, true])
    return value :: (← decodeStreamFrom [] bits)
  | code, bit :: bits => decodeStreamFrom (bit :: code) bits
  | _, [] => .ok []

def decodeStream (bits : List Bool) : Except Error (List ℕ) :=
  decodeStreamFrom [] bits

end Zeckendorf

/- Bits in bytes. -/

namespace Packed

/-- `acc.to_bytes(length, "big")` -/
def toBytes (length acc : ℕ) : Except Error (List UInt8) :=
  if acc < 256 ^ length then
    .ok ((List.range length).reverse.map fun i => UInt8.ofNat (acc / 256 ^ i % 256))
  else
    .error .overflowError

/-- The rest of the bits, with `count` of them already in `acc`. -/
def packFrom (wordBits : ℕ) : List Bool → (acc count : ℕ) → Except Error (List UInt8)
  | [], acc, count =>
    if count = 0 then
      .ok []
    else if wordBits < count then
      .error .valueError
    else
      toBytes (wordBits / 8) (acc * 2 ^ (wordBits - count))
  | bit :: bits, acc, count =>
    let acc := 2 * acc + bit.toNat
    if count + 1 = wordBits then do
      let word ← toBytes (wordBits / 8) acc
      return word ++ (← packFrom wordBits bits 0 0)
    else
      packFrom wordBits bits acc (count + 1)

def pack (bits : List Bool) (wordBits : ℕ) : Except Error (List UInt8) :=
  packFrom wordBits bits 0 0

/-- So many low bits of a number, the highest first. -/
def bitsOf (n acc : ℕ) : List Bool :=
  (List.range n).reverse.map acc.testBit

def unpack (data : List UInt8) : List Bool :=
  data.flatMap fun byte => bitsOf 8 byte.toNat

end Packed

namespace Concentrator

abbrev Record : Type := ℤ × List ℤ

/-- The field count of every stream. -/
abbrev Registry : Type := List (ℤ × ℤ)

inductive Cause where
  | ok
  | unknownStream
  | truncated
  deriving DecidableEq

def encodeRecord (record : Record) : Except Error (List Bool) := do
  let (streamId, wireInts) := record
  if streamId < 1 then
    .error .valueError
  else if wireInts = [] then
    .error .valueError
  else
    return (← Zeckendorf.encode streamId) ++ (← Zeckendorf.encodeStream wireInts)

def concentrate (records : List Record) : Except Error (List UInt8) := do
  Packed.pack (← records.mapM encodeRecord).flatten 8

/-- The bits up to the first pair of ones, and the bits after it. -/
def splitCode : List Bool → Option (List Bool × List Bool)
  | true :: true :: rest => some ([true, true], rest)
  | bit :: bits => (splitCode bits).map fun (code, rest) => (bit :: code, rest)
  | [] => none

/-- `take_one`; the position is the bits that follow it. -/
def takeOne (bits : List Bool) : Except Error (Option (ℤ × List Bool)) :=
  match splitCode bits with
  | none => .ok none
  | some (code, rest) => do return some ((← Zeckendorf.decode code : ℕ), rest)

def takeReading : ℕ → List Bool → Except Error (Option (List ℤ × List Bool))
  | 0, bits => .ok (some ([], bits))
  | count + 1, bits => do
    match ← takeOne bits with
    | none => return none
    | some (value, rest) =>
      match ← takeReading count rest with
      | none => return none
      | some (values, rest) => return some (value :: values, rest)

/-- Every round takes two bits at least, `fuel` is more than the rounds there can be. -/
def demuxFrom (registry : Registry) : (fuel : ℕ) → List Bool → List Record → Except Error (List Record × Cause)
  | 0, _, out => .ok (out, .ok)
  | fuel + 1, bits, out =>
    if bits.contains true then do
      match ← takeOne bits with
      | none => return ([], .truncated)
      | some (sid, rest) =>
        match registry.lookup sid with
        | none => return ([], .unknownStream)
        | some count =>
          match ← takeReading count.toNat rest with
          | none => return ([], .truncated)
          | some (wireInts, rest) => demuxFrom registry fuel rest (out ++ [(sid, wireInts)])
    else
      -- a zero pad, of any length
      .ok (out, .ok)

def demux (frame : List UInt8) (registry : Registry) : Except Error (List Record × Cause) :=
  let bits := Packed.unpack frame
  demuxFrom registry (bits.length + 1) bits []

end Concentrator
