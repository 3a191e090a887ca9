import PrismPath.Hotswap.PolicyPack
import PrismPath.Lib.Process

/-!
This module contains the policy host: the files of its state directory, its start over them, the swap that
commits a checked pack in a fixed order of writes, and the rollback to the last known good policy.
-/

open Python PolicyPack Process

namespace PolicyHost

/-- The record of an active policy, without its image. -/
structure Record where
  sha256 : String
  version : Value
  keyId : Value
  envelopeId : Value
  unsigned : Bool
  overlayOf : Value
  counts : Header
  since : String
  pptPath : String

structure Policy extends Record where
  image : List UInt8

structure Intent where
  toHash : String
  version : Value

inductive PendingFile where
  | missing
  | unreadable
  | intent (intent : Intent)

def PendingFile.intent? : PendingFile → Option Intent
  | .intent pending => some pending
  | _ => none

inductive RecordFile where
  | missing
  | unreadable
  | notAnObject
  | record (record : Record)

structure Event where
  action : String
  data : List (String × Value)

/-- The state directory. Its files are replaced atomically, so each holds what was last written to it. -/
structure Disk where
  /-- The value whose text `active_version` holds. -/
  version : Option Value := none
  pending : PendingFile := .missing
  record : RecordFile := .missing
  image : Option (List UInt8) := none
  /-- The events the audit log holds. -/
  log : List Event := []

structure Host where
  active : Option Policy := none
  prev : Option Policy := none
  recoveryRecorded : Bool := false

structure World where
  disk : Disk
  host : Host

structure Config where
  lib : Library
  pubkeys : List (Option (List UInt8))
  envelope : List (String × Value)
  revoked : List String
  instanceKeyId : Option String

/-- The operations of a call on files, each of which happens at most once in it. -/
inductive Op where
  | readPending
  | readFloor
  | recoveryEvent
  | recoverySign
  | readStored
  | rejectEvent
  | rejectSign
  | writePending
  | writeVersion
  | swapEvent
  | swapSign
  | writeImage
  | writeRecord
  | removePending
  | rollbackEvent
  | rollbackSign
  | readRecord
  | readImage
  | restoreEvent
  | restoreSign
  deriving DecidableEq

abbrev Faults : Type := Op → Fault

/-- `int(text)` of the text of a value: `str` of a bool or a float is not the text of an integer. -/
def storedVersion : Option Value → ℤ
  | some (.int n) => n
  | _ => 0

def Disk.floor (disk : Disk) : ℤ :=
  storedVersion disk.version

def optStr : Option String → Value
  | some s => .str s
  | none => .none

def Host.activeHash (host : Host) : Value :=
  optStr (host.active.map fun policy => policy.sha256)

/-- The event is durable first; the root statement that covers it is signed after. -/
def append (cfg : Config) (faults : Faults) (write sign : Op) (action : String) (data : List (String × Value))
    : Process World Raised Unit := do
  attempt (faults write) .auditWriteError fun w =>
    { w with disk := { w.disk with log := w.disk.log ++ [⟨action, data⟩] } }
  if cfg.instanceKeyId.isSome then
    attempt (faults sign) .statementWriteError id

def recordRecovery (cfg : Config) (faults : Faults) (intent : Intent) : Process World Raised Unit := do
  let w ← read
  attempt (faults .readFloor) .osError id
  append cfg faults .recoveryEvent .recoverySign "swap_incomplete" [
    ("to_hash", .str intent.toHash), ("version", intent.version),
    ("stored_version", .int w.disk.floor), ("result", .str "incomplete")]
  update fun w => { w with host := { w.host with recoveryRecorded := true } }

/-- An interrupted commit is recorded, once in a process, and its intent returned. -/
def recover (cfg : Config) (faults : Faults) : Process World Raised (Option Intent) := do
  attempt (faults .readPending) .runtimeError id
  let w ← read
  match w.disk.pending with
  | .missing => return none
  | .unreadable => raise .runtimeError
  | .intent intent =>
    let _ ← (if w.host.recoveryRecorded then pure () else recordRecovery cfg faults intent)
    return some intent

structure SwapCall where
  files : Moment → PackFiles
  allowUnsigned : Bool := false
  strict : Bool := false
  /-- The error number of an image that cannot be read. -/
  errno : Nat := 2
  now : String := ""
  pptPath : String := ""

inductive Verdict where
  | reject (toHash version : Value) (reasons : List String)
  | stage (manifest : List (String × Value)) (image : List UInt8)

def unsignedManifest (cfg : Config) (toHash : String) : List (String × Value) :=
  [("image_sha256", .str toHash), ("version", .none), ("key_id", .none),
    ("envelope_id", get cfg.envelope "envelope_id"), ("unsigned", .bool true)]

/-- The swap an interrupted commit had already advanced the floor for: the same image and version. -/
def resuming (pending : Option Intent) (toHash : String) (version : Value) : Bool :=
  match pending with
  | none => false
  | some intent => intent.version.eq version && intent.toHash = toHash

/-- Whether the floor holds a version back: it is below the floor, or at it and not being resumed. -/
def heldBack (pending : Option Intent) (toHash : String) (version : Value) (stored : ℤ) : Except Raised Bool :=
  match version.order .lt (.int stored) with
  | none => .error .typeError
  | some below => .ok (below || (version.eq (.int stored) && !resuming pending toHash version))

/-- The checks of a pack before its version: the manifest they accept, or why it is refused. -/
def vetPack (cfg : Config) (call : SwapCall) (image : List UInt8)
    : Except Raised (Verdict ⊕ List (String × Value)) := do
  let toHash := cfg.lib.sha256Hex image
  match ← verifyPack cfg.lib cfg.pubkeys cfg.revoked call.files with
  | .refused reasons _ => return .inl (.reject (.str toHash) .none reasons)
  | .accepted manifest =>
    let reasons ← checkEnvelope manifest image cfg.envelope
    if reasons ≠ [] then
      return .inl (.reject (.str toHash) (get manifest "version") reasons)
    return .inr manifest

/-- The whole parse of the image, before anything is committed. -/
def stage (toHash : String) (manifest : List (String × Value)) (image : List UInt8) : Verdict :=
  match readPptHeader image with
  | .error reason => .reject (.str toHash) (get manifest "version") [reason]
  | .ok _ => .stage manifest image

/-- Every check of a swap, `stored` being what the read of the version floor gives. -/
def vet (cfg : Config) (call : SwapCall) (pending : Option Intent) (stored : Except Raised ℤ)
    : Except Raised Verdict := do
  match (call.files .image).image with
  | none => return .reject .none .none [s!"image:unreadable:{call.errno}"]
  | some image =>
    let toHash := cfg.lib.sha256Hex image
    if call.allowUnsigned then
      let reasons ← validateImage image (get cfg.envelope "caps")
      if reasons ≠ [] then
        return .reject (.str toHash) .none reasons
      return stage toHash (unsignedManifest cfg toHash) image
    match ← vetPack cfg call image with
    | .inl verdict => return verdict
    | .inr manifest =>
      match manifest.lookup "version" with
      | none => .error .keyError
      | some version =>
        let stored ← stored
        if ← heldBack pending toHash version stored then
          return .reject (.str toHash) version
            ["version:not-monotonic:" ++ cfg.lib.str version ++ "<=" ++ cfg.lib.str (.int stored)]
        return stage toHash manifest image

/-- What a call hands back: `ok` with the active policy, or the reasons of a refusal. -/
inductive Reply where
  | active (policy : Policy)
  | refused (reasons : List String)

/-- The policy of a call that returned one. -/
def active? : Exit Raised Reply → Option Policy
  | .returned (.active policy) => some policy
  | _ => none

def reject (cfg : Config) (faults : Faults) (strict : Bool) (toHash version : Value) (reasons : List String)
    : Process World Raised Reply := do
  let w ← read
  append cfg faults .rejectEvent .rejectSign "swap_rejected" [
    ("from_hash", w.host.activeHash), ("to_hash", toHash), ("version", version),
    ("reasons", .list (reasons.map .str)), ("result", .str "rejected")]
  if strict then raise (.swapRejected reasons) else return .refused reasons

/-- The image first, then the record naming its digest. -/
def persistActive (faults : Faults) (policy : Policy) : Process World Raised Unit := do
  attempt (faults .writeImage) .osError fun w =>
    { w with disk := { w.disk with image := some policy.image } }
  attempt (faults .writeRecord) .osError fun w =>
    { w with disk := { w.disk with record := .record policy.toRecord } }

def newPolicy (cfg : Config) (call : SwapCall) (manifest : List (String × Value)) (image : List UInt8)
    (counts : Header) : Policy where
  sha256 := cfg.lib.sha256Hex image
  version := get manifest "version"
  keyId := get manifest "key_id"
  envelopeId := get manifest "envelope_id"
  unsigned := (get manifest "unsigned").truthy
  overlayOf := get manifest "overlay_of"
  counts := counts
  since := call.now
  pptPath := call.pptPath
  image := image

def swapEventData (fromHash : Value) (policy : Policy) : List (String × Value) :=
  [("from_hash", fromHash), ("to_hash", .str policy.sha256), ("version", policy.version),
    ("key_id", policy.keyId), ("envelope_id", policy.envelopeId), ("unsigned", .bool policy.unsigned),
    ("overlay_of", policy.overlayOf), ("result", .str "accepted")]

/-- An unsigned swap carries no version. -/
def Policy.versioned (policy : Policy) : Bool :=
  match policy.version with
  | .none => false
  | _ => true

/-- The commit from its evidence on: the event, the active policy on disk and in memory, the intent removed. -/
def conclude (cfg : Config) (faults : Faults) (policy : Policy) : Process World Raised Reply := do
  let w ← read
  append cfg faults .swapEvent .swapSign "swap" (swapEventData w.host.activeHash policy)
  persistActive faults policy
  update fun w => { w with host := { w.host with prev := w.host.active, active := some policy } }
  attempt (faults .removePending) .osError fun w =>
    { w with disk := { w.disk with pending := .missing } }
  return .active policy

/-- The commit of a checked swap: the intent, the floor, then the evidence and what follows it. -/
def commit (cfg : Config) (faults : Faults) (policy : Policy) : Process World Raised Reply := do
  attempt (faults .writePending) .osError fun w =>
    { w with disk := { w.disk with pending := .intent ⟨policy.sha256, policy.version⟩ } }
  if policy.versioned then
    attempt (faults .writeVersion) .osError fun w =>
      { w with disk := { w.disk with version := some policy.version } }
  conclude cfg faults policy

def readStored (fault : Fault) : Process World Raised (Except Raised ℤ) := do
  let w ← read
  match fault with
  | .none => return .ok w.disk.floor
  | .error => return .error .osError
  | .kill => fun w => (.killed, w)

/-- A swap up to the verdict of its checks. -/
def prepare (cfg : Config) (faults : Faults) (call : SwapCall) : Process World Raised Verdict := do
  let pending ← recover cfg faults
  let stored ← readStored (faults .readStored)
  ofExcept (vet cfg call pending stored)

def swap (cfg : Config) (faults : Faults) (call : SwapCall) : Process World Raised Reply := do
  let verdict ← prepare cfg faults call
  match verdict with
  | .reject toHash version reasons => reject cfg faults call.strict toHash version reasons
  | .stage manifest image =>
    match readPptHeader image with
    | .error _ => raise .valueError
    | .ok counts => commit cfg faults (newPolicy cfg call manifest image counts)

/-- Restores the last known good policy, one deep. -/
def rollback (cfg : Config) (faults : Faults) : Process World Raised Reply := do
  let w ← read
  match w.host.prev with
  | none => return .refused ["rollback:no-previous"]
  | some prev =>
    persistActive faults prev
    update fun w => { w with host := { w.host with active := some prev, prev := none } }
    append cfg faults .rollbackEvent .rollbackSign "rollback" [
      ("to_hash", .str prev.sha256), ("version", prev.version), ("result", .str "rolled_back")]
    return .active prev

structure StartCall where
  /-- The text of the error when the record cannot be read. -/
  detail : String := ""
  errno : Nat := 2

def notRestored (cfg : Config) (faults : Faults) (data : List (String × Value))
    : Process World Raised Unit :=
  append cfg faults .restoreEvent .restoreSign "active_unreadable" (data ++ [("result", .str "not_restored")])

/-- The policy a record and an image name: the image must have the digest the record names. -/
def restored (cfg : Config) (record : Record) (image : List UInt8) : Option Policy :=
  if cfg.lib.sha256Hex image = record.sha256 then some { record with image } else none

/-- What a fresh host over the directory holds as its active policy. -/
def Disk.restore (cfg : Config) (disk : Disk) : Option Policy :=
  match disk.record, disk.image with
  | .record record, some image => restored cfg record image
  | _, _ => none

def loadImage (cfg : Config) (faults : Faults) (call : StartCall) (record : Record) : Process World Raised Unit := do
  let w ← read
  match faults .readImage, w.disk.image with
  | .none, some image =>
    match restored cfg record image with
    | some policy => update fun w => { w with host := { w.host with active := some policy } }
    | none =>
      notRestored cfg faults [("to_hash", .str record.sha256), ("reason", .str "image:digest-mismatch")]
  | .none, none | .error, _ =>
    notRestored cfg faults [("to_hash", .str record.sha256), ("reason", .str s!"image:unreadable:{call.errno}")]
  | .kill, _ => fun w => (.killed, w)

/-- Restores the policy a previous process committed; what cannot be restored is written to the log. -/
def loadActive (cfg : Config) (faults : Faults) (call : StartCall) : Process World Raised Unit := do
  let w ← read
  match faults .readRecord, w.disk.record with
  | .none, .missing => return
  | .none, .notAnObject => notRestored cfg faults [("reason", .str "record:not-an-object")]
  | .none, .record record => loadImage cfg faults call record
  | .none, .unreadable | .error, _ =>
    notRestored cfg faults [("reason", .str ("record:unreadable:" ++ call.detail))]
  | .kill, _ => fun w => (.killed, w)

/-- The ids of the authority keys that can be read. -/
def authorityKeyIds (cfg : Config) : List String :=
  cfg.pubkeys.filterMap fun file => file.map cfg.lib.sha256Hex

/-- A host over a state directory. The instance key must not be one of the authority keys. -/
def start (cfg : Config) (faults : Faults) (call : StartCall) : Process World Raised Unit := do
  match cfg.instanceKeyId with
  | some keyId => if keyId ∈ authorityKeyIds cfg then raise .valueError
  | none => pure ()
  let _ ← recover cfg faults
  loadActive cfg faults call

/-- A state directory and the process over it, if one is running. -/
structure Machine where
  disk : Disk
  host : Option Host

inductive Call where
  | start (call : StartCall)
  | swap (call : SwapCall)
  | rollback

structure Step where
  call : Call
  faults : Faults

/-- A host survives the calls it raises from; a killed process leaves only its files. -/
def settle {α : Type} : Exit Raised α × World → Machine
  | (.killed, w) => ⟨w.disk, none⟩
  | (_, w) => ⟨w.disk, some w.host⟩

/-- A start that raises leaves no host. -/
def settleStart {α : Type} : Exit Raised α × World → Machine
  | (.returned _, w) => ⟨w.disk, some w.host⟩
  | (_, w) => ⟨w.disk, none⟩

def next (cfg : Config) (m : Machine) (step : Step) : Machine :=
  match step.call, m.host with
  | .start call, _ => settleStart (start cfg step.faults call ⟨m.disk, {}⟩)
  | .swap call, some host => settle (swap cfg step.faults call ⟨m.disk, host⟩)
  | .rollback, some host => settle (rollback cfg step.faults ⟨m.disk, host⟩)
  -- without a process nothing is called
  | _, none => m

def runSteps (cfg : Config) (m : Machine) (steps : List Step) : Machine :=
  steps.foldl (next cfg) m

end PolicyHost
