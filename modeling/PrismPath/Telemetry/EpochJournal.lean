import Mathlib
import PrismPath.Ledgers.RootStatement
import PrismPath.Lib.Durable
import PrismPath.Telemetry.SelfHeal

/-!
This module contains the epochs of a telemetry stream and their durable journal: a window is cut into blocks and
committed to, and its root is chained to the one before; the journal has its files, the recovery at every start,
sealing, the retention caps and acknowledgment. Every write to a file is one at which power can be lost.
-/

open Python

namespace Epochs

open SelfHeal (chunk asciiDigest)

abbrev Bytes : Type := List UInt8

variable (sha256 : Bytes → Bytes)

/-- The Merkle root of a window's blocks; the chain cannot take the root of none. -/
def commit (blocks : List Json.Str) : Except Error Json.Str := do
  match (← SelfHeal.commit sha256 blocks).1 with
  | some root => return root
  | none => throw .typeError

def chainRoot (prevChained merkleRoot : Json.Str) : Except Error Json.Str := do
  return hex (← asciiDigest sha256 (prevChained ++ merkleRoot))

structure Epoch where
  id : ℕ
  /-- `none` once the raw data is dropped. -/
  blocks : Obj
  merkleRoot : Json.Str
  chainedRoot : Json.Str
  acked : Bool
  droppedUnderPressure : Bool

def Epoch.hasData (e : Epoch) : Bool :=
  match e.blocks with
  | .none => false
  | _ => true

end Epochs

open Python LineFile Epochs RootStatement

namespace EpochJournal

abbrev Bytes : Type := List UInt8

inductive LogFile where
  | chain
  | gaps
  | roots
  deriving DecidableEq

/-- The files under the journal directory; a log file that is missing is read like an empty one. -/
structure Disk where
  chain : Text
  gaps : Text
  roots : Text
  acks : Option Text
  /-- The data files by epoch id. -/
  data : List (ℕ × Text)
  /-- No file: text was appended to `chain.jsonl` or `gaps.jsonl` in the middle of a line. -/
  glued : Bool

def Disk.log (d : Disk) : LogFile → Text
  | .chain => d.chain
  | .gaps => d.gaps
  | .roots => d.roots

def Disk.setLog (d : Disk) (file : LogFile) (t : Text) : Disk :=
  match file with
  | .chain => { d with chain := t }
  | .gaps => { d with gaps := t }
  | .roots => { d with roots := t }

def Disk.append (d : Disk) (file : LogFile) (t : Text) : Disk :=
  { d.setLog file (d.log file ++ t) with
    glued := d.glued || (file ≠ .roots && t ≠ [] && !ended (d.log file)) }

inductive Finding where
  | interrupted (file : LogFile) (line : ℕ)
  | corruptData (id : ℕ)
  | orphanData (id : ℕ)
  | completedAck (ids : List ℕ)
  | completedGap (id : ℕ)

/-- How a journal is opened. -/
structure Config where
  blockBits : ℤ
  maxDataEpochs : ℤ
  maxBytes : Option ℤ
  instanceKey : Option InstanceKey

structure Journal where
  config : Config
  signer : Option RootSigner
  epochs : List Epoch
  lastSeq : ℤ
  ackedThrough : Option Json.Str
  recovery : List Finding

def Journal.fresh (config : Config) : Journal where
  config
  signer := none
  epochs := []
  lastSeq := -1
  ackedThrough := none
  recovery := []

abbrev Op (α : Type) : Type := Durable Disk Journal Error α

/- Files. -/

def appendLine (file : LogFile) (record : Obj) : Op Unit := do
  let line ← Durable.ofExcept ((dumpsSorted record).elim (.error .typeError) .ok)
  Durable.write (fun d => { d' | ∃ p, p <+: line ++ ['\n'] ∧ d' = d.append file p })
    fun d => d.append file (line ++ ['\n'])

def writeData (id : ℕ) (text : Text) : Op Unit :=
  Durable.writeAtomic fun d => { d with data := Dict.set d.data id text }

def removeData (id : ℕ) : Op Unit :=
  Durable.writeAtomic fun d => { d with data := d.data.filter fun entry => entry.1 ≠ id }

def writeAcks (text : Text) : Op Unit :=
  Durable.writeAtomic fun d => { d with acks := some text }

def report (finding : Finding) : Op Unit :=
  Durable.modifyMem fun j => { j with recovery := j.recovery ++ [finding] }

def setEpoch (i : ℕ) (f : Epoch → Epoch) : Op Unit :=
  Durable.modifyMem fun j => { j with epochs := j.epochs.modify i f }

def readJsonl (file : LogFile) : Op (List Obj) := do
  let lines := rawLines ((← Durable.getDisk).log file)
  match readRecords loads lines with
  | none => Durable.raise .journalCorrupt
  | some (records, cut) =>
    if cut then
      report (.interrupted file lines.length)
      Durable.writeAtomic fun d => d.setLog file (lines.dropLast.flatMap fun line => line ++ ['\n'])
    return records

/- The retention caps. -/

def gapRecord (id : ℕ) (reason : String) : Obj :=
  record [("epoch_id", .int id), ("reason", .str (str reason))]

/-- The loss is recorded before the bytes go. -/
def dropUnderPressure (i : ℕ) : Op Unit := do
  match (← Durable.getMem).epochs[i]? with
  | none => return
  | some epoch =>
    if !epoch.acked then
      appendLine .gaps (gapRecord epoch.id "pressure")
      setEpoch i fun e => { e with droppedUnderPressure := true }
    setEpoch i fun e => { e with blocks := .none }
    removeData epoch.id

def dataBytesOnDisk (j : Journal) (d : Disk) : ℕ :=
  (j.epochs.map fun e => ((d.data.lookup e.id).elim 0 List.length)).sum

/-- The positions of the epochs that hold data; the first of them go until their number is in the cap. -/
def enforceCount (maxDataEpochs : ℤ) : List ℕ → Op (List ℕ)
  | [] => if maxDataEpochs < 0 then Durable.raise .indexError else return []
  | i :: rest =>
    if maxDataEpochs < rest.length + 1 then do
      dropUnderPressure i
      enforceCount maxDataEpochs rest
    else
      return i :: rest

def enforceBytes (maxBytes : ℤ) : List ℕ → Op Unit
  | [] => return
  | i :: rest => do
    if maxBytes < dataBytesOnDisk (← Durable.getMem) (← Durable.getDisk) then
      dropUnderPressure i
      enforceBytes maxBytes rest

def withData (j : Journal) : List ℕ :=
  (List.range j.epochs.length).filter fun i => (j.epochs[i]?.map Epoch.hasData).getD false

def enforceCaps : Op Unit := do
  let j ← Durable.getMem
  let kept ← enforceCount j.config.maxDataEpochs (withData j)
  match j.config.maxBytes with
  | none => return
  | some maxBytes => enforceBytes maxBytes kept

/- Acknowledgment. -/

/-- Marks the epochs at the positions acknowledged and deletes their data; returns the ids that had any. -/
def ackEpochs : List ℕ → Op (List ℕ)
  | [] => return []
  | i :: rest => do
    match (← Durable.getMem).epochs[i]? with
    | none => ackEpochs rest
    | some epoch =>
      setEpoch i fun e => { e with acked := true }
      let onDisk := ((← Durable.getDisk).data.lookup epoch.id).isSome
      if epoch.hasData || onDisk then
        setEpoch i fun e => { e with blocks := .none }
        removeData epoch.id
        return epoch.id :: (← ackEpochs rest)
      else
        ackEpochs rest

def applyAckToFiles (chainedRoot : Json.Str) : Op (List ℕ) := do
  match (← Durable.getMem).epochs.findIdx? fun e => e.chainedRoot = chainedRoot with
  | none => return []
  | some index => ackEpochs (List.range (index + 1))

def ack (chainedRoot : Json.Str) (seq : ℤ) : Op ℕ := do
  if !(← Durable.getMem).epochs.any fun e => e.chainedRoot = chainedRoot then
    return 0
  let text ← Durable.ofExcept
    ((dumpsSorted (record [("last_seq", .int seq), ("acked_through", .str chainedRoot)])).elim (.error .typeError) .ok)
  writeAcks text
  Durable.modifyMem fun j => { j with lastSeq := seq, ackedThrough := some chainedRoot }
  return (← applyAckToFiles chainedRoot).length

/- Recovery. -/

def fileName (id : ℕ) : Text :=
  Nat.toDigits 10 id ++ ".json".toList

def removeOrphans (named : List ℕ) : List ℕ → Op Unit
  | [] => return
  | id :: rest => do
    if id ∉ named then
      report (.orphanData id)
      removeData id
    removeOrphans named rest

/-- Marks the epochs of the gap records; what data such an epoch still has is deleted. -/
def applyGaps (gaps : List ℕ) : List ℕ → Op Unit
  | [] => return
  | i :: rest => do
    match (← Durable.getMem).epochs[i]? with
    | none => applyGaps gaps rest
    | some epoch =>
      if epoch.id ∈ gaps ∧ epoch.acked = false then
        setEpoch i fun e => { e with droppedUnderPressure := true }
        if epoch.hasData then
          report (.completedGap epoch.id)
          setEpoch i fun e => { e with blocks := .none }
          removeData epoch.id
      applyGaps gaps rest

section Digest

variable (sha256 : Bytes → Bytes)

def dataDigest (text : Text) : Json.Str :=
  hex (sha256 (textBytes text))

/-- Loads the epochs the chain names; returns the gaps, with those of the data files that are corrupt. -/
def loadEpochs : Json.Str → List Obj → List ℕ → Op (List ℕ)
  | _, [], gaps => return gaps
  | expectedPrev, record :: rest, gaps => do
    let id ← Durable.ofExcept do (← record.field "epoch_id").asNat
    let merkleRoot ← Durable.ofExcept do (← record.field "merkle_root").asStr
    let expected ← Durable.ofExcept (chainRoot sha256 expectedPrev merkleRoot)
    let chained ← Durable.ofExcept do (← record.field "chained_root").asStr
    if expected ≠ chained then
      Durable.raise .journalCorrupt
    else
      let addEpoch (blocks : Obj) : Op Unit :=
        Durable.modifyMem fun j => { j with epochs := j.epochs ++ [⟨id, blocks, merkleRoot, chained, false, false⟩] }
      match (← Durable.getDisk).data.lookup id with
      | none =>
        addEpoch .none
        loadEpochs chained rest gaps
      | some text =>
        let length ← Durable.ofExcept do (← record.field "data_length").asInt
        let digest ← Durable.ofExcept do (← record.field "data_sha256").asStr
        if (text.length : ℤ) ≠ length ∨ dataDigest sha256 text ≠ digest then
          report (.corruptData id)
          appendLine .gaps (gapRecord id "corrupt_data")
          removeData id
          addEpoch .none
          loadEpochs chained rest (gaps ++ [id])
        else
          let blocks ← Durable.ofExcept ((loads text).elim (.error .valueError) .ok)
          addEpoch blocks
          loadEpochs chained rest gaps

def readAcks : Op Obj := do
  match (← Durable.getDisk).acks with
  | none => return .dict []
  | some text =>
    match loads text with
    | some acks => return acks
    | none => Durable.raise .journalCorrupt

/-- What `acks.get("acked_through")` can be. -/
def asRoot : Obj → Except Error (Option Json.Str)
  | .none => .ok none
  | .str s => .ok (some s)
  | _ => .error .typeError

def recover : Op Unit := do
  let chain ← readJsonl .chain
  let acks ← readAcks
  let gapRecords ← readJsonl .gaps
  let gaps ← Durable.ofExcept (gapRecords.mapM fun r => do (← r.field "epoch_id").asNat)
  let gaps ← loadEpochs sha256 [] chain gaps
  let named ← Durable.ofExcept (chain.mapM fun r => do (← r.field "epoch_id").asNat)
  let listed := ((← Durable.getDisk).data.map Prod.fst).insertionSort fun i k => fileName i ≤ fileName k
  removeOrphans named listed
  let lastSeq ← Durable.ofExcept do (← acks.get "last_seq" (.int (-1))).asInt
  let ackedThrough ← Durable.ofExcept do asRoot (← acks.get "acked_through" .none)
  Durable.modifyMem fun j => { j with lastSeq, ackedThrough }
  match ackedThrough with
  | none => pure ()
  | some root =>
    let completed ← applyAckToFiles root
    if completed ≠ [] then
      report (.completedAck completed)
  applyGaps gaps (List.range (← Durable.getMem).epochs.length)
  enforceCaps

/-- `EpochJournal(...)` -/
def start (config : Config) : Op Unit := do
  Durable.modifyMem fun _ => .fresh config
  recover sha256

/- Sealing. -/

def openSigner : Op RootSigner := do
  match (← Durable.getMem).signer with
  | some signer => return signer
  | none =>
    let (signer, kept) ← Durable.ofExcept (RootSigner.start sha256 (← Durable.getDisk).roots)
    match kept with
    | none => pure ()
    | some text => Durable.writeAtomic fun d => { d with roots := text }
    return signer

def sign (key : InstanceKey) (root : Json.Str) (leaves : ℕ) (now : Json.Str) : Op Unit := do
  let signer ← openSigner sha256
  Durable.modifyMem fun j => { j with signer := some signer }
  let statement ← Durable.ofExcept
    (makeStatement key logEpochChain signer.seq root leaves signer.prev now (str "seal") .none)
  appendLine .roots statement
  let hash ← Durable.ofExcept (statementHash sha256 statement)
  Durable.modifyMem fun j => { j with signer := some ⟨signer.seq + 1, hash⟩ }

def blocksObj (blocks : List Json.Str) : Obj :=
  .list (blocks.map .str)

def chainRecord (id : ℕ) (merkleRoot chainedRoot dataSha256 : Json.Str) (dataLength : ℕ) : Obj :=
  record [("epoch_id", .int id), ("merkle_root", .str merkleRoot), ("chained_root", .str chainedRoot),
    ("data_sha256", .str dataSha256), ("data_length", .int dataLength)]

/-- Data file first, chain line second, caps third. `now` is the clock's reading, for the root statement. -/
def «seal» (bits now : Json.Str) : Op Epoch := do
  let j ← Durable.getMem
  let blocks ← Durable.ofExcept (SelfHeal.chunk bits j.config.blockBits)
  let merkleRoot ← Durable.ofExcept (commit sha256 blocks)
  let prev := (j.epochs.getLast?.map Epoch.chainedRoot).getD []
  let id := j.epochs.length
  let data := dumps (blocksObj blocks)
  writeData id data
  let chained ← Durable.ofExcept (chainRoot sha256 prev merkleRoot)
  appendLine .chain (chainRecord id merkleRoot chained (dataDigest sha256 data) data.length)
  let epoch : Epoch := ⟨id, blocksObj blocks, merkleRoot, chained, false, false⟩
  Durable.modifyMem fun j => { j with epochs := j.epochs ++ [epoch] }
  match j.config.instanceKey with
  | none => pure ()
  | some key => sign sha256 key chained (id + 1) now
  enforceCaps
  return epoch

end Digest

/- The receiver. -/

inductive AckResult where
  | badTag
  | staleSeq
  | ok (dropped : ℕ)

/-- `sign_ack(secret, root, seq)` -/
def signAck (hmac : Bytes → Bytes → Bytes) (secret : Bytes) (root : Json.Str) (seq : ℤ) : Except Error Json.Str :=
  match canonicalCompact (record [("root", .str root), ("seq", .int seq)]) with
  | some text => .ok (hex (hmac secret (textBytes text)))
  | none => .error .typeError

/-- `verify_ack`: texts that are not ASCII cannot be compared. -/
def verifyAck (hmac : Bytes → Bytes → Bytes) (secret : Bytes) (root : Json.Str) (seq : ℤ) (tag : Json.Str)
    : Except Error Bool := do
  let expected ← signAck hmac secret root seq
  match encodeAscii tag with
  | none => throw .typeError
  | some _ => return expected = tag

def onAck (hmac : Bytes → Bytes → Bytes) (secret : Bytes) (root : Json.Str) (seq : ℤ) (tag : Json.Str)
    : Op AckResult := do
  if !(← Durable.ofExcept (verifyAck hmac secret root seq tag)) then
    return .badTag
  if seq ≤ (← Durable.getMem).lastSeq then
    return .staleSeq
  return .ok (← ack root seq)

end EpochJournal
