import PrismPath.Ledgers.LedgerOts
import PrismPath.Python.Object

/-!
This module contains the transport that heals itself: a stream cut into blocks under one Merkle root, and the
receiver that takes a block only with a path to the root.
-/

open Python

namespace SelfHeal

open LedgerOts

/-- At least one block. -/
def chunk (bits : Json.Str) (blockBits : ℤ) : Except Error (List Json.Str) :=
  if blockBits ≤ 0 then
    .error .valueError
  else
    let size := blockBits.toNat
    let blocks := (List.range ((bits.length + size - 1) / size)).map fun i => (bits.drop (i * size)).take size
    .ok (if blocks = [] then [[]] else blocks)

section

variable (sha256 : Bytes → Bytes)

/-- `hashlib.sha256(s.encode("ascii"))` -/
def asciiDigest (s : Json.Str) : Except Error Bytes :=
  match encodeAscii s with
  | some data => .ok (sha256 data)
  | none => .error .unicodeEncodeError

/-- The sides and the siblings of a path, as they are sent. -/
abbrev Proof : Type := List (Json.Str × Json.Str)

def sideText : Side → Json.Str
  | .left => str "L"
  | .right => str "R"

def Proof.ofPath (path : List (Side × Bytes)) : Proof :=
  path.map fun (side, sibling) => (sideText side, hex sibling)

def commit (blocks : List Json.Str) : Except Error (Option Json.Str × List Proof) := do
  let leaves ← blocks.mapM (asciiDigest sha256)
  let (root, paths) := merkleRootAndPaths sha256 leaves
  return (root.map hex, paths.map Proof.ofPath)

def isAsciiSpace (c : Json.CodePoint) : Bool :=
  c.val = 32 || (9 ≤ c.val && c.val ≤ 13)

/-- `bytes.fromhex(s)`; white space may stand between the bytes. -/
def fromHex : Json.Str → Except Error Bytes
  | [] => .ok []
  | [c] => if isAsciiSpace c then .ok [] else .error .valueError
  | c :: d :: rest =>
    if isAsciiSpace c then
      fromHex (d :: rest)
    else
      match Json.hexValue (Char.ofNat c.val), Json.hexValue (Char.ofNat d.val) with
      | some hi, some lo => do return UInt8.ofNat (16 * hi + lo) :: (← fromHex rest)
      | _, _ => .error .valueError

/-- Every side but `"R"` is the left one. -/
def sideOf (side : Json.Str) : Side :=
  if side = str "R" then .right else .left

def readProof (proof : Proof) : Except Error (List (Side × Bytes)) :=
  proof.mapM fun (side, sibling) => do return (sideOf side, ← fromHex sibling)

/-- The digest of the block is climbed from to a root, which is compared in hex. -/
def verifyBlock (block : Json.Str) (proof : Proof) (root : Option Json.Str) : Except Error Bool := do
  let leaf ← asciiDigest sha256 block
  let path ← readProof proof
  return root = some (hex (climb sha256 leaf path))

/- The two ends. -/

structure Sender where
  blocks : List Json.Str
  blockBits : ℤ
  root : Option Json.Str
  proofs : List Proof

def Sender.new (bits : Json.Str) (blockBits : ℤ) : Except Error Sender := do
  let blocks ← chunk bits blockBits
  let (root, proofs) ← commit sha256 blocks
  return { blocks, blockBits, root, proofs }

def Sender.nBlocks (sender : Sender) : ℕ :=
  sender.blocks.length

structure Receiver where
  root : Option Json.Str
  n : ℕ
  blocks : List (ℤ × Json.Str) := []

namespace Receiver

/-- A block that is not accepted leaves the receiver as it is, and so does an exception. -/
def accept (receiver : Receiver) (idx : ℤ) (block : Json.Str) (proof : Proof) : Except Error (Bool × Receiver) := do
  if !(0 ≤ idx && idx < receiver.n) then
    return (false, receiver)
  if !(← verifyBlock sha256 block proof receiver.root) then
    return (false, receiver)
  return (true, { receiver with blocks := Dict.set receiver.blocks idx block })

def complete (receiver : Receiver) : Bool :=
  receiver.blocks.length = receiver.n

/-- `self._blocks[i]` -/
def blockAt (receiver : Receiver) (i : ℕ) : Except Error Json.Str :=
  match receiver.blocks.lookup (i : ℤ) with
  | some block => .ok block
  | none => .error .keyError

def assemble (receiver : Receiver) : Except Error Json.Str :=
  if !receiver.complete then
    .error .valueError
  else do
    let blocks ← (List.range receiver.n).mapM receiver.blockAt
    return blocks.flatten

end Receiver

end

end SelfHeal
