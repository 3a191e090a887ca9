import Mathlib

/-!
This module contains the firmware of a mesh node: its messages as they are on the air, and what its loop does with a
command, a message, the end of an acknowledgement window and a flip that is due.
-/

namespace Mesh

/- Messages. -/

def tblMax : ℕ := 640

def le16 (n : UInt16) : List UInt8 :=
  [UInt8.ofNat n.toNat, UInt8.ofNat (n.toNat / 2 ^ 8)]

def le32 (n : UInt32) : List UInt8 :=
  [UInt8.ofNat n.toNat, UInt8.ofNat (n.toNat / 2 ^ 8), UInt8.ofNat (n.toNat / 2 ^ 16), UInt8.ofNat (n.toNat / 2 ^ 24)]

def rd16 (b₀ b₁ : UInt8) : UInt16 :=
  UInt16.ofNat (b₀.toNat + 2 ^ 8 * b₁.toNat)

def rd32 (b₀ b₁ b₂ b₃ : UInt8) : UInt32 :=
  UInt32.ofNat (b₀.toNat + 2 ^ 8 * b₁.toNat + 2 ^ 16 * b₂.toNat + 2 ^ 24 * b₃.toNat)

inductive Message where
  | prepare (seq : UInt16) (id version : UInt32) (table sig : List UInt8)
  | ack (seq : UInt16) (nid : UInt8)
  | commit (seq delay : UInt16)
  deriving DecidableEq

/-- The bytes of a broadcast. -/
def Message.bytes : Message → List UInt8
  | .prepare seq id version table sig =>
    1 :: (le16 seq ++ le32 id ++ le32 version ++ le16 (UInt16.ofNat table.length) ++ table ++ sig)
  | .ack seq nid => 2 :: (le16 seq ++ [nid])
  | .commit seq delay => 3 :: (le16 seq ++ le16 delay)

/-- What the loop reads of a message; anything else in the air is passed over. -/
def parse : List UInt8 → Option Message
  | 1 :: s₀ :: s₁ :: i₀ :: i₁ :: i₂ :: i₃ :: v₀ :: v₁ :: v₂ :: v₃ :: l₀ :: l₁ :: rest =>
    let len := (rd16 l₀ l₁).toNat
    if len ≤ tblMax ∧ len + 64 ≤ rest.length then
      some (.prepare (rd16 s₀ s₁) (rd32 i₀ i₁ i₂ i₃) (rd32 v₀ v₁ v₂ v₃) (rest.take len) ((rest.drop len).take 64))
    else
      none
  | 2 :: s₀ :: s₁ :: nid :: _ => some (.ack (rd16 s₀ s₁) nid)
  | 3 :: s₀ :: s₁ :: d₀ :: d₁ :: _ => some (.commit (rd16 s₀ s₁) (rd16 d₀ d₁))
  | _ => none

theorem rd16_le16 (n : UInt16)
    : rd16 (UInt8.ofNat n.toNat) (UInt8.ofNat (n.toNat / 2 ^ 8)) = n := by
  have hlt := n.toNat_lt
  apply UInt16.toNat_inj.mp
  simp only [rd16, UInt16.toNat_ofNat', UInt8.toNat_ofNat']
  omega

theorem rd32_le32 (n : UInt32)
    : rd32 (UInt8.ofNat n.toNat) (UInt8.ofNat (n.toNat / 2 ^ 8)) (UInt8.ofNat (n.toNat / 2 ^ 16))
        (UInt8.ofNat (n.toNat / 2 ^ 24)) = n := by
  have hlt := n.toNat_lt
  apply UInt32.toNat_inj.mp
  simp only [rd32, UInt32.toNat_ofNat', UInt8.toNat_ofNat']
  omega

/-- A message as the firmware sends it: its table fits and its signature has its length. -/
def Message.Fits : Message → Prop
  | .prepare _ _ _ table sig => table.length ≤ tblMax ∧ sig.length = 64
  | _ => True

/-- Every message that is sent is read as it was meant. -/
theorem parse_bytes {message : Message} (h : message.Fits)
    : parse message.bytes = some message := by
  cases message with
  | prepare seq id version table sig =>
    rcases h with ⟨htable, hsig⟩
    have hlen : (UInt16.ofNat table.length).toNat = table.length := by
      rw [UInt16.toNat_ofNat']
      simp only [tblMax] at htable
      omega
    simp only [Message.bytes, le16, le32, List.cons_append, List.nil_append, parse, rd16_le16, rd32_le32]
    rw [hlen, if_pos ⟨htable, by simp only [List.length_append, hsig, Nat.le_refl]⟩, List.take_left, List.drop_left,
      List.take_of_length_le (by omega)]
  | ack seq nid =>
    simp only [Message.bytes, le16, List.cons_append, List.nil_append, parse, rd16_le16]
  | commit seq delay =>
    simp only [Message.bytes, le16, List.cons_append, List.nil_append, parse, rd16_le16]

/- The node. -/

structure Pack where
  table : List UInt8
  id : UInt32
  version : UInt32
  sig : List UInt8
  fits : table.length ≤ tblMax
  sigLength : sig.length = 64

/-- What a node is built with: its two policies, the authority's key, and how a signature is checked under it. -/
structure Firmware where
  packA : Pack
  packB : Pack
  keyId : List UInt8
  check : (sig message : List UInt8) → Bool

def signedMsg (f : Firmware) (table : List UInt8) (version : UInt32) : List UInt8 :=
  "PPTM1".toUTF8.toList ++ f.keyId ++ le32 version ++ le16 (UInt16.ofNat table.length) ++ table

def verifyPack (f : Firmware) (table : List UInt8) (version : UInt32) (sig : List UInt8) : Bool :=
  f.check sig (signedMsg f table version)

structure Slot where
  table : List UInt8 := []
  id : UInt32 := 0
  seq : UInt16 := 0
  version : UInt32 := 0

structure Node where
  table : List UInt8
  activeId : UInt32
  staged : Slot := {}
  flipAt : ℕ := 0
  versionFloor : UInt32
  /-- The floor in the flash, if there is one. -/
  vfloor : Option UInt32
  coord : Bool := false
  rolloutSeq : UInt16 := 0
  ackDeadline : ℕ := 0
  acked : List UInt8 := []

def expectAcks : ℕ := 2

def ackWinMs : ℕ := 500

def flipDelay : UInt16 := 120

inductive Command where
  /-- `R` -/
  | rollout
  /-- `Z` -/
  | reset
  /-- `T` -/
  | tamper
  /-- `W` -/
  | wrongSig

variable (f : Firmware)

/-- A node as it comes up; the read of the flash may fail. -/
def boot (vfloor : Option UInt32) (read : Bool) : Node where
  table := f.packA.table
  activeId := f.packA.id
  versionFloor := if read then vfloor.getD 0 else 0
  vfloor := vfloor

def Pack.slot (pack : Pack) (seq : UInt16) : Slot where
  table := pack.table
  id := pack.id
  seq := seq
  version := pack.version

def target (node : Node) : Pack :=
  if node.activeId = f.packA.id then f.packB else f.packA

def startRollout (node : Node) (now : ℕ) : Node × List Message :=
  let pack := target f node
  let seq := node.rolloutSeq + 1
  ({ node with
      staged := pack.slot seq
      coord := true
      rolloutSeq := seq
      ackDeadline := now + ackWinMs * 1000
      acked := [] },
    [.prepare seq pack.id pack.version pack.table pack.sig])

/-- A byte of the list, inverted. -/
def flipByte (i : ℕ) (data : List UInt8) : List UInt8 :=
  data.modify i (· ^^^ 0xFF)

def command (node : Node) (now : ℕ) (written : Bool) : Command → Node × List Message
  | .rollout => startRollout f node now
  | .reset => ({ node with versionFloor := 0, vfloor := if written then none else node.vfloor }, [])
  | .tamper =>
    let seq := node.rolloutSeq + 1
    ({ node with rolloutSeq := seq },
      [.prepare seq f.packB.id f.packB.version (flipByte 10 f.packB.table) f.packB.sig])
  | .wrongSig =>
    let seq := node.rolloutSeq + 1
    ({ node with rolloutSeq := seq },
      [.prepare seq f.packB.id (f.packB.version + 10) f.packB.table (flipByte 0 f.packB.sig)])

/-- Whether a prepared pack is staged: it is signed, and newer than the floor. -/
def stages (node : Node) (table : List UInt8) (version : UInt32) (sig : List UInt8) : Bool :=
  verifyPack f table version sig && node.versionFloor < version

def handle (nid : UInt8) (node : Node) (now : ℕ) : Message → Node × List Message
  | .prepare seq id version table sig =>
    if stages f node table version sig then
      ({ node with staged := { table, id, seq, version } }, [.ack seq nid])
    else
      (node, [])
  | .ack seq sender =>
    if node.coord ∧ seq = node.rolloutSeq ∧ sender ∉ node.acked then
      ({ node with acked := sender :: node.acked }, [])
    else
      (node, [])
  | .commit seq delay =>
    if seq = node.staged.seq then ({ node with flipAt := now + delay.toNat * 1000 }, []) else (node, [])

/-- A message from the air; one longer than the buffer is dropped. -/
def received (data : List UInt8) : Option Message :=
  if data.length ≤ tblMax + 96 then parse data else none

def receive (nid : UInt8) (node : Node) (now : ℕ) (data : List UInt8) : Node × List Message :=
  match received data with
  | some message => handle f nid node now message
  | none => (node, [])

/-- Whether the acknowledgement window is over. -/
def Node.closes (node : Node) (now : ℕ) : Bool :=
  node.coord && node.ackDeadline ≠ 0 && node.ackDeadline ≤ now

def Node.committing (node : Node) (now : ℕ) : Bool :=
  node.closes now && expectAcks ≤ node.acked.length

def closeWindow (node : Node) (now time : ℕ) : Node × List Message :=
  if node.closes now then
    if expectAcks ≤ node.acked.length then
      ({ node with ackDeadline := 0, coord := false, flipAt := time + flipDelay.toNat * 1000 },
        [.commit node.rolloutSeq flipDelay])
    else
      ({ node with ackDeadline := 0, coord := false }, [])
  else
    (node, [])

def Node.flips (node : Node) (now : ℕ) : Bool :=
  node.flipAt ≠ 0 && node.flipAt ≤ now

/-- The flip of a node that is due; the write of the flash may fail. -/
def flip (node : Node) (now : ℕ) (written : Bool) : Node :=
  if node.flips now then
    { node with
      flipAt := 0
      table := node.staged.table
      activeId := node.staged.id
      versionFloor := node.staged.version
      vfloor := if written then some node.staged.version else node.vfloor }
  else
    node

/- The tables a node is built with. -/

def tableA : Pack where
  table := [80, 80, 84, 77, 1, 0, 1, 0, 1, 0, 1, 0, 4, 0, 4, 0, 4, 0, 0, 0, 255, 255, 25, 0, 1, 0, 0, 0, 0, 0, 2, 2, 44,
    1, 0, 0, 0, 0, 2, 0, 2, 0, 1, 0, 3, 0, 1, 0, 4, 0, 0, 0, 1, 0, 0, 0, 1, 0, 2, 0, 1, 0, 1, 0, 3, 0, 2, 0, 1,
    0, 3, 0, 3, 0, 1, 0, 0, 0, 3, 128, 3, 128, 3, 128]
  id := 0xb3d16ba0
  version := 1
  fits := by decide
  sigLength := rfl
  sig := [101, 166, 130, 39, 189, 138, 130, 158, 249, 1, 138, 67, 29, 159, 209, 110, 156, 133, 73, 187, 128, 149, 142,
    72, 81, 246, 95, 186, 103, 18, 191, 183, 181, 155, 189, 58, 207, 59, 39, 226, 68, 242, 208, 53, 189, 215,
    18, 71, 190, 6, 79, 64, 86, 60, 122, 32, 244, 7, 29, 139, 126, 97, 59, 1]

def tableB : Pack where
  table := [80, 80, 84, 77, 1, 0, 1, 0, 1, 0, 1, 0, 4, 0, 4, 0, 4, 0, 0, 0, 255, 255, 25, 0, 1, 0, 0, 0, 0, 0, 2, 2, 200,
    0, 0, 0, 0, 0, 2, 0, 2, 0, 1, 0, 3, 0, 1, 0, 4, 0, 0, 0, 1, 0, 0, 0, 1, 0, 2, 0, 1, 0, 1, 0, 3, 0, 2, 0, 1,
    0, 3, 0, 3, 0, 1, 0, 0, 0, 3, 128, 3, 128, 3, 128]
  id := 0xa4fdc82f
  version := 2
  fits := by decide
  sigLength := rfl
  sig := [248, 145, 108, 203, 208, 168, 97, 34, 118, 235, 253, 67, 26, 160, 163, 209, 2, 160, 179, 129, 39, 214, 133,
    227, 95, 201, 50, 115, 194, 210, 251, 241, 78, 153, 215, 182, 127, 186, 56, 61, 58, 224, 27, 43, 198, 161,
    242, 36, 231, 220, 48, 97, 182, 54, 75, 33, 243, 79, 229, 100, 53, 196, 31, 4]

/-- The tables with a check that knows the two signatures of the authority. -/
def tables : Firmware where
  packA := tableA
  packB := tableB
  keyId := [195, 177, 9, 86]
  check sig message :=
    let signed (pack : Pack) := signedMsg ⟨tableA, tableB, [195, 177, 9, 86], fun _ _ => false⟩ pack.table pack.version
    (sig = tableA.sig && message = signed tableA) || (sig = tableB.sig && message = signed tableB)

end Mesh
