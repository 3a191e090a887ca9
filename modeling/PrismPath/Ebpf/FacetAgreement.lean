import PrismPath.Telemetry.FibonacciWire

/-!
This module contains the decoder of Facet datagrams in the kernel: the loop over the bits of a payload, with a pair of
32-bit Fibonacci numbers, and the packet that is handed on in place of the one that came; and its agreement with the
reference: which payloads it takes, and that it hands on the values the reference decodes.
-/

open Fibonacci

namespace FacetDecode

def facetPort : BitVec 16 := 4711

def maxSyms : Nat := 16

inductive Stat where
  | decoded
  | malformed
  | badlen
  | notOurs
  deriving DecidableEq

/-- `fa` is the Fibonacci number of the next bit, `fb` the one after it. -/
structure DecodeCtx where
  plen : Nat
  n : Nat
  val : BitVec 32
  fa : BitVec 32
  fb : BitVec 32
  prev : Bool
  bad : Bool
  buf : List UInt8
  out : Nat → BitVec 16

/-- What one bit does; the flag asks the loop to stop. -/
def takeBit (bit : Bool) (c : DecodeCtx) : Bool × DecodeCtx :=
  if bit && c.prev then
    -- the terminator
    if maxSyms ≤ c.n ∨ c.val = 0 ∨ 0xFFFF < c.val then
      (true, { c with bad := true })
    else
      (false, { c with
        out := Function.update c.out (c.n % maxSyms) (c.val.setWidth 16)
        n := c.n + 1
        val := 0
        fa := 1
        fb := 2
        prev := false })
  else if bit = true ∧ (0xFFFF < c.fa ∨ 0xFFFF - c.fa < c.val) then
    (true, { c with bad := true })
  else
    (false, { c with
      val := if bit then c.val + c.fa else c.val
      fa := c.fb
      fb := c.fa + c.fb
      prev := bit })

/-- `bpf_loop`: `count` calls at most, the first with `index`. -/
def bpfLoop {σ : Type} (callback : Nat → σ → Bool × σ) : (count index : Nat) → σ → σ
  | 0, _, c => c
  | count + 1, index, c =>
    let (stop, c) := callback index c
    if stop then c else bpfLoop callback count (index + 1) c

/-- A packet with all of the three headers; the body is what follows them, with any padding of the frame. -/
structure Packet where
  hProto : BitVec 16
  ihl : BitVec 4
  protocol : BitVec 8
  totLen : BitVec 16
  dest : BitVec 16
  udpLen : BitVec 16
  body : List UInt8

inductive Action where
  | pass
  | drop
  deriving DecidableEq

structure Result where
  action : Action
  packet : Packet
  stat : Option Stat

def dropped (packet : Packet) (stat : Stat) : Result :=
  ⟨.drop, packet, some stat⟩

/-- Low byte first. -/
def littleEndian (val : BitVec 16) : List UInt8 :=
  [UInt8.ofNat (val.toNat % 256), UInt8.ofNat (val.toNat / 256)]

/-- `'F'`, the count and the values. -/
def event (c : DecodeCtx) : List UInt8 :=
  0x46 :: UInt8.ofNat c.n :: (List.range c.n).flatMap fun i => littleEndian (c.out i)

def start (payload : List UInt8) : DecodeCtx where
  plen := payload.length
  n := 0
  val := 0
  fa := 1
  fb := 2
  prev := false
  bad := false
  buf := payload
  out _ := 0

end FacetDecode

open Fibonacci Zeckendorf

namespace FacetDecode

/-- The reference takes the payload, and these are its values. -/
structure Accepts (payload : List UInt8) (values : List ℕ) : Prop where
  decoded : decodeStream (Packed.unpack payload) = .ok values
  one_le : 1 ≤ values.length
  le_maxSyms : values.length ≤ 16
  bounded : ∀ value ∈ values, value ≤ 0xFFFF
  padded : ∀ bit ∈ afterLastCode [] (Packed.unpack payload), bit = false

/- The bits of the payload. -/

/-- The decoder on a list of bits. -/
def feed : List Bool → DecodeCtx → DecodeCtx
  | [], c => c
  | bit :: bits, c =>
    let (stop, c) := takeBit bit c
    if stop then c else feed bits c

def outputs (c : DecodeCtx) : List ℕ :=
  (List.range c.n).map fun i => (c.out i).toNat

/-- What the decoder holds after the codes of some values and the bits of one that was begun, the last one first. -/
structure Reads (c : DecodeCtx) (code : List Bool) (values : List ℕ) : Prop where
  good : c.bad = false
  outputs_eq : outputs c = values
  le_maxSyms : c.n ≤ 16
  val_eq : c.val.toNat = weight code
  val_le : weight code ≤ 0xFFFF
  prev_eq : c.prev = true ↔ code.head? = some true
  fa_eq : c.fa.toNat = Nat.fib (code.length + 2) % 2 ^ 32
  fb_eq : c.fb.toNat = Nat.fib (code.length + 3) % 2 ^ 32

section

variable {c : DecodeCtx} {code : List Bool} {values : List ℕ}

theorem Reads.n_eq (h : Reads c code values)
    : c.n = values.length := by
  rw [← h.outputs_eq, outputs, List.length_map, List.length_range]

/-- The pair of Fibonacci numbers after one more bit. -/
theorem Reads.pair (h : Reads c code values)
    : (c.fa + c.fb).toNat = Nat.fib (code.length + 1 + 3) % 2 ^ 32 := by
  have hfib : Nat.fib (code.length + 1 + 3) = Nat.fib (code.length + 2) + Nat.fib (code.length + 3) :=
    Nat.fib_add_two
  rw [BitVec.toNat_add, h.fa_eq, h.fb_eq, hfib, ← Nat.add_mod]

end

/- All of the bits. -/

/-- What is left of a stream fits behind the values before it. -/
structure Fits (values : List ℕ) (code bits : List Bool) : Prop where
  le_maxSyms : values.length + (codes code bits).length ≤ 16
  bounded : ∀ value ∈ codes code bits, value ≤ 0xFFFF
  padded : ∀ bit ∈ afterLastCode code bits, bit = false

theorem accepts_iff (payload : List UInt8) (values : List ℕ)
    : Accepts payload values
        ↔ values = codes [] (Packed.unpack payload) ∧ 1 ≤ values.length ∧ Fits [] [] (Packed.unpack payload) := by
  have hdecode : decodeStream (Packed.unpack payload) = .ok (codes [] (Packed.unpack payload)) :=
    decodeStreamFrom_eq (between_nil _)
  constructor
  . rintro ⟨hdecoded, hone, hle, hbounded, hpadded⟩
    rw [hdecode, Except.ok.injEq] at hdecoded
    subst hdecoded
    refine ⟨rfl, hone, ?_, hbounded, hpadded⟩
    simpa using hle
  . rintro ⟨rfl, hone, hle, hbounded, hpadded⟩
    refine ⟨hdecode, hone, ?_, hbounded, hpadded⟩
    simpa using hle

/- The whole packet. -/

/-- A packet to the port of the decoder that carries the payload. -/
structure Carries (p : Packet) (payload : List UInt8) : Prop where
  hProto : p.hProto = 0x0800
  ihl : p.ihl = 5
  protocol : p.protocol = 17
  dest : p.dest = facetPort
  udpLen : p.udpLen.toNat = 8 + payload.length
  prefix_ : payload <+: p.body

/-- The event of some values. -/
def eventOf (values : List ℕ) : List UInt8 :=
  0x46 :: UInt8.ofNat values.length :: values.flatMap fun value => littleEndian (BitVec.ofNat 16 value)

end FacetDecode
