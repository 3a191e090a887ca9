import PrismPath.Lib.LineFile
import PrismPath.Rust.FieldDefinitions
import PrismPath.Rust.Pack

/-!
This module contains the Rust policy host: its audit log, the files of its state directory, and the swap and the
rollback with the file operations they make, each of which can fail.
-/

namespace Rust

open Json Python LineFile Pack

namespace Host

/- The audit log. -/

/-- `json!` of an integer of the machine. -/
def ofInt (n : ℤ) : Value :=
  if h : 0 ≤ n ∧ n < 2 ^ 64 then
    .number (.posInt ⟨n.toNat, by omega⟩)
  else if h : -2 ^ 63 ≤ n ∧ n < 0 then
    .number (.negInt ⟨n, h⟩)
  else
    .null

def ofOption {α : Type} (value : α → Value) : Option α → Value
  | some a => value a
  | none => .null

/-- `json!` of a literal object. -/
def jsonObject (kvs : List (String × Value)) : Value :=
  .object (kvs.map fun (k, v) => (str k, v))

structure AuditLog where
  events : List Value := []
  leaves : List Str := []

def leafHex (lib : Library) (ev : Value) : Str :=
  sha256Hex lib (canonicalBytes lib ev)

def AuditLog.push (lib : Library) (log : AuditLog) (ev : Value) : AuditLog where
  events := log.events ++ [ev]
  leaves := log.leaves ++ [leafHex lib ev]

/-- `text.lines()` -/
def lines (text : List Char) : List (List Char) :=
  (rawLines text).map fun line => if line.getLast? = some '\r' then line.dropLast else line

/-- `AuditLog::open`: a file that cannot be read is an empty one, and a line that cannot be read is left out. -/
def openLog (lib : Library) (file : Option (List Char)) : AuditLog :=
  match file with
  | none => {}
  | some text =>
    ((lines text).filter fun line => !line.all Fields.isWhitespace).foldl
      (fun log line =>
        match lib.fromStr line with
        | some ev => log.push lib ev
        | none => log)
      {}

/- The state directory. -/

/-- The files of the state directory; a log that is not there reads as an empty one. -/
structure Disk where
  version : Option (List Char) := none
  versionTmp : Option (List Char) := none
  log : List Char := []

/-- What becomes of the file operations of a call: whether each succeeds, and after how many characters a write stops. -/
structure Faults where
  readVersion : Bool := true
  createTmp : Bool := true
  writeTmp : Option ℕ := none
  renameTmp : Bool := true
  openLog : Bool := true
  writeLog : Option ℕ := none
  readLog : Bool := true

def written (stop : Option ℕ) (text : List Char) : List Char :=
  match stop with
  | none => text
  | some n => text.take n

def trim (text : List Char) : List Char :=
  ((text.dropWhile Fields.isWhitespace).reverse.dropWhile Fields.isWhitespace).reverse

def digitsOf : List Char → Bool × List Char
  | '-' :: digits => (true, digits)
  | '+' :: digits => (false, digits)
  | digits => (false, digits)

/-- `text.parse::<i64>()` -/
def parseI64 (text : List Char) : Option ℤ :=
  let (neg, digits) := digitsOf text
  if digits ≠ [] ∧ digits.all Char.isDigit = true then
    let n : ℤ := Nat.ofDigitChars 10 digits 0
    let n := if neg then -n else n
    if -2 ^ 63 ≤ n ∧ n < 2 ^ 63 then some n else none
  else
    none

/-- What the file of the version floor says; one that is missing or says nothing is at 0. -/
def Disk.floor (disk : Disk) : ℤ :=
  (disk.version.bind fun text => parseI64 (trim text)).getD 0

def storedVersion (faults : Faults) (disk : Disk) : ℤ :=
  if faults.readVersion then disk.floor else 0

/-- The rename is tried whatever became of the file it moves, an older one included. -/
def persistVersion (faults : Faults) (version : ℤ) (disk : Disk) : Disk :=
  let disk :=
    if faults.createTmp then
      { disk with versionTmp := some (written faults.writeTmp (i64Text version)) }
    else
      disk
  match faults.renameTmp, disk.versionTmp with
  | true, some text => { disk with version := some text, versionTmp := none }
  | _, _ => disk

/- The host. -/

structure ActivePolicy where
  sha256 : Str
  version : Option ℤ
  keyId : Option Str
  envelopeId : Option Str
  unsigned : Bool
  image : List UInt8
  since : Str
  deriving DecidableEq

structure PolicyHost where
  audit : AuditLog := {}
  active : Option ActivePolicy := none
  prev : Option ActivePolicy := none

structure Config where
  lib : Library
  envelope : Value
  revoked : List Str

structure World where
  disk : Disk
  host : PolicyHost

structure Clock where
  epoch : Finite
  iso : Str

inductive Reply where
  | active (policy : ActivePolicy)
  | refused (reasons : List Str)

def newHost (lib : Library) (faults : Faults) (disk : Disk) : PolicyHost where
  audit := openLog lib (if faults.readLog then some disk.log else none)

def eventOf (idx : ℕ) (clock : Clock) (action : String) (data : Value) : Value :=
  jsonObject [("idx", ofInt idx), ("id", .string (ofText (Nat.toDigits 10 idx))), ("ts", .number (.float clock.epoch)),
    ("actor", .string (str "policy_host")), ("action", .string (str action)), ("data", data)]

/-- The event is in the log of the process whatever becomes of its line in the file. -/
def append (lib : Library) (faults : Faults) (clock : Clock) (action : String) (data : Value) (w : World) : World :=
  let ev := eventOf w.host.audit.events.length clock action data
  let log :=
    if faults.openLog then w.disk.log ++ written faults.writeLog (lib.toText ev ++ ['\n']) else w.disk.log
  { disk := { w.disk with log }, host := { w.host with audit := w.host.audit.push lib ev } }

structure SwapCall where
  files : PackFiles
  /-- The error number of an image that cannot be read. -/
  errno : ℕ := 2
  allowUnsigned : Bool := false
  clock : Clock

def reject (cfg : Config) (faults : Faults) (call : SwapCall) (toHash : Option Str) (version : Option ℤ)
    (reasons : List Str) (w : World) : Reply × World :=
  let data := jsonObject [("from_hash", ofOption .string (w.host.active.map ActivePolicy.sha256)),
    ("to_hash", ofOption .string toHash), ("version", ofOption ofInt version),
    ("reasons", .array (reasons.map .string)), ("result", .string (str "rejected"))]
  (.refused reasons, append cfg.lib faults call.clock "swap_rejected" data w)

def unsignedManifest (cfg : Config) (toHash : Str) : Value :=
  jsonObject [("image_sha256", .string toHash), ("version", .null), ("key_id", .null),
    ("envelope_id", (cfg.envelope.get? "envelope_id").getD .null), ("unsigned", .bool true)]

def versionOf (manifest : Value) : Option ℤ :=
  (manifest.get? "version").bind Value.asI64

inductive Verdict where
  | reject (toHash : Option Str) (version : Option ℤ) (reasons : List Str)
  | stage (manifest : Value) (image : List UInt8)

/-- The whole parse of the image, before the flip. -/
def stage (toHash : Str) (manifest : Value) (image : List UInt8) : Verdict :=
  match readPptHeader image with
  | .error error => .reject (some toHash) (versionOf manifest) [str error]
  | .ok _ => .stage manifest image

/-- The checks of a signed pack. -/
def vetSigned (cfg : Config) (call : SwapCall) (stored : ℤ) (toHash : Str) (image : List UInt8) : Verdict :=
  match verifyPack cfg.lib cfg.revoked call.files with
  | .refused reasons _ => .reject (some toHash) none (reasons.map str)
  | .accepted manifest =>
    match checkEnvelope manifest image cfg.envelope with
    | [] =>
      let version := (versionOf manifest).getD 0
      if version ≤ stored then
        .reject (some toHash) (some version)
          [ofText ("version:not-monotonic:".toList ++ i64Text version ++ "<=".toList ++ i64Text stored)]
      else
        stage toHash manifest image
    | reasons => .reject (some toHash) (versionOf manifest) reasons

/-- Every check of a swap, `stored` being what the read of the version floor gives. -/
def vet (cfg : Config) (call : SwapCall) (stored : ℤ) : Verdict :=
  match call.files.image with
  | none => .reject none none [ofText ("image:unreadable:".toList ++ Nat.toDigits 10 call.errno)]
  | some image =>
    let toHash := sha256Hex cfg.lib image
    if call.allowUnsigned then
      match validateImage image (capsOf cfg.envelope) with
      | [] => stage toHash (unsignedManifest cfg toHash) image
      | reasons => .reject (some toHash) none (reasons.map str)
    else
      vetSigned cfg call stored toHash image

def newPolicy (cfg : Config) (call : SwapCall) (manifest : Value) (image : List UInt8) : ActivePolicy where
  sha256 := sha256Hex cfg.lib image
  version := versionOf manifest
  keyId := (manifest.get? "key_id").bind Value.asStr
  envelopeId := (manifest.get? "envelope_id").bind Value.asStr
  unsigned := ((manifest.get? "unsigned").bind Value.asBool).getD false
  image := image
  since := call.clock.iso

def flip (policy : ActivePolicy) (w : World) : World :=
  { w with host := { w.host with prev := w.host.active, active := some policy } }

def keepVersion (faults : Faults) (manifest : Value) (w : World) : World :=
  match versionOf manifest with
  | some version => { w with disk := persistVersion faults version w.disk }
  | none => w

def swapEvent (fromHash : Option Str) (manifest : Value) (policy : ActivePolicy) : Value :=
  jsonObject [("from_hash", ofOption .string fromHash), ("to_hash", .string policy.sha256),
    ("version", (manifest.get? "version").getD .null), ("key_id", (manifest.get? "key_id").getD .null),
    ("envelope_id", (manifest.get? "envelope_id").getD .null), ("unsigned", .bool policy.unsigned),
    ("result", .string (str "accepted"))]

/-- The event of a swap whose policy is active already. -/
def logSwap (cfg : Config) (faults : Faults) (call : SwapCall) (manifest : Value) (policy : ActivePolicy) (w : World)
    : World :=
  append cfg.lib faults call.clock "swap"
    (swapEvent (w.host.prev.map ActivePolicy.sha256) manifest policy) w

def swap (cfg : Config) (faults : Faults) (call : SwapCall) (w : World) : Reply × World :=
  match vet cfg call (storedVersion faults w.disk) with
  | .reject toHash version reasons => reject cfg faults call toHash version reasons w
  | .stage manifest image =>
    let policy := newPolicy cfg call manifest image
    -- the flip, the floor and the event, in this order
    (.active policy, logSwap cfg faults call manifest policy (keepVersion faults manifest (flip policy w)))

def restore (policy : ActivePolicy) (w : World) : World :=
  { w with host := { w.host with prev := none, active := some policy } }

def logRollback (cfg : Config) (faults : Faults) (clock : Clock) (policy : ActivePolicy) (w : World) : World :=
  append cfg.lib faults clock "rollback"
    (jsonObject [("to_hash", .string policy.sha256), ("version", ofOption ofInt policy.version),
      ("result", .string (str "rolled_back"))]) w

/-- Restores the last known good policy, one deep. -/
def rollback (cfg : Config) (faults : Faults) (clock : Clock) (w : World) : Reply × World :=
  match w.host.prev with
  | none => (.refused [str "rollback:no-previous"], w)
  | some prev => (.active prev, logRollback cfg faults clock prev (restore prev w))

inductive Call where
  | swap (call : SwapCall)
  | rollback (clock : Clock)
  | restart

structure Step where
  call : Call
  faults : Faults := {}

/-- A restarted host has the files of its directory, and no active policy. -/
def next (cfg : Config) (w : World) (step : Step) : World :=
  match step.call with
  | .swap call => (swap cfg step.faults call w).2
  | .rollback clock => (rollback cfg step.faults clock w).2
  | .restart => ⟨w.disk, newHost cfg.lib step.faults w.disk⟩

end Host

end Rust
