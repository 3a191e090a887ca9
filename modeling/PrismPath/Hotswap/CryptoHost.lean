import PrismPath.Hotswap.PolicyHost
import PrismPath.Python.Text

/-!
This module contains the governor of the suite selection policy: its checks of a pack, up to the providers of this
machine, and the swap that flips the policy, advances the version floor and logs the event.
-/

open Python PolicyPack Process

namespace CryptoHost

open PolicyHost (Event storedVersion optStr)

structure Config where
  lib : Library
  pubkeys : List (Option (List UInt8))
  envelope : List (String × Value)
  registry : List (String × Value)
  revoked : List String
  /-- Whether there is an instance key to sign the roots of the log with. -/
  signs : Bool
  /-- Whether the provider has the authenticated ciphers, and the post-quantum exchange. -/
  hasCiphers : Bool
  hasMlkem : Bool

def registryHash (cfg : Config) : String :=
  cfg.lib.sha256Hex (cfg.lib.canonicalBytes cfg.registry).toUTF8.data.toList

/- Sets of the values of a manifest. -/

/-- `iter(v)`; `none` is the `TypeError`. -/
def elements : Value → Option (List Value)
  | .list vs => some vs
  | .str s => some (s.toList.map fun c => .str (.singleton c))
  | .dict kvs => some (kvs.map fun kv => .str kv.1)
  | .bytes bs => some (bs.map fun b => .int b.toNat)
  | _ => none

def hashable : Value → Bool
  | .list _ => false
  | .dict _ => false
  | _ => true

def addTo (seen : List Value) (v : Value) : List Value :=
  if seen.any (·.eq v) then seen else seen ++ [v]

/-- `set(v)` -/
def setOf (v : Value) : Except Raised (List Value) :=
  match elements v with
  | none => .error .typeError
  | some vs => if vs.all hashable then .ok (vs.foldl addTo []) else .error .typeError

def comparable (v w : Value) : Bool :=
  (v.order .lt w).isSome

/-- `sorted` of a set: two elements that cannot be ordered are compared at some point. -/
def sorted (vs : List Value) : Except Raised (List Value) :=
  if vs.Pairwise fun v w => comparable v w = true then
    .ok (vs.insertionSort fun v w => w.order .lt v ≠ some true)
  else
    .error .typeError

def suites (manifest : List (String × Value)) : Value :=
  (manifest.lookup "suites").getD (.list [])

def checkCryptoEnvelope (cfg : Config) (manifest : List (String × Value)) : Except Raised (List String) := do
  let mismatch := reasonIf (!(get manifest "registry_hash").eq (.str (registryHash cfg)))
    "crypto:registry-hash-mismatch"
  let approved ← setOf ((cfg.envelope.lookup "approved_suites").getD (.list []))
  let declared ← setOf (suites manifest)
  let unapproved ← sorted (declared.filter fun suite => !approved.any (·.eq suite))
  return mismatch ++ unapproved.map fun suite => "crypto:unapproved-suite:" ++ cfg.lib.str suite

/- The providers. -/

def pqKemTokens : List String :=
  ["ml-kem", "kyber"]

/-- `spec.get(key, "").lower()` -/
def specText (spec : List (String × Value)) (key : String) : Except Raised String :=
  match (spec.lookup key).getD (.str "") with
  | .str s => .ok (lower s)
  | _ => .error .attributeError

def splitPlus (s : String) : List String :=
  (s.toList.splitOn '+').map .ofList

def kemReason (cfg : Config) (token : String) : Option String :=
  let token := strip token
  if pqKemTokens.any fun pq => Value.isInfix pq.toList token.toList then
    if cfg.hasMlkem then none else some ("provider:pqc-kem-unavailable:" ++ token)
  else if ["x25519", "x448", "ecdh", "p-"].any (startsWith token ·) then
    none
  else
    some ("provider:unknown-kem:" ++ token)

/-- Why the provider cannot perform the suite, if it cannot. -/
def resolveProvider (cfg : Config) (spec : Value) : Except Raised (Option String) :=
  if !cfg.hasCiphers then
    .ok (some "provider:cryptography-absent")
  else
    match spec with
    | .dict spec => do
      let aead ← specText spec "aead"
      if !(Value.isInfix "chacha20".toList aead.toList || aead = "aes-256-gcm" || aead = "aes-128-gcm") then
        return some ("provider:unknown-aead:" ++ aead)
      let kem ← specText spec "kem"
      return (splitPlus kem).findSome? (kemReason cfg)
    | _ => .error .attributeError

/-- `self.registry.get("suites", {}).get(sid)` -/
def suiteSpec (cfg : Config) (sid : Value) : Except Raised (Option Value) :=
  match (cfg.registry.lookup "suites").getD (.dict []) with
  | .dict specs =>
    match sid with
    | .str sid => .ok (specs.lookup sid)
    | _ => .ok none
  | _ => .error .attributeError

def resolveSuite (cfg : Config) (sid : Value) : Except Raised (List String) := do
  match ← suiteSpec cfg sid with
  | none | some .none => return ["crypto:suite-not-in-registry:" ++ cfg.lib.str sid]
  | some spec =>
    match ← resolveProvider cfg spec with
    | none => return []
    | some reason => return [reason ++ "::" ++ cfg.lib.str sid]

def resolveAll (cfg : Config) (suites : Value) : Except Raised (List String) := do
  let sids ← sorted (← setOf suites)
  return (← sids.mapM (resolveSuite cfg)).flatten

/- The swap. -/

/-- The active policy of a host. -/
structure Policy where
  sha256 : String
  version : Value
  keyId : Value
  envelopeId : Value
  suites : Value
  registryHash : Value
  image : List UInt8
  since : String
  pptPath : String

/-- The active policy is in memory only. -/
structure Disk where
  /-- The value whose text `active_crypto_version` holds. -/
  version : Option Value := none
  log : List Event := []

structure Host where
  active : Option Policy := none
  prev : Option Policy := none

structure World where
  disk : Disk
  host : Host

/-- The operations of a swap on files, each of which happens at most once in it. -/
inductive Op where
  | readFloor
  | readFloorAgain
  | writeVersion
  | event
  | sign
  deriving DecidableEq

abbrev Faults : Type := Op → Fault

structure SwapCall where
  files : Moment → PackFiles
  strict : Bool := false
  /-- The error number of an image that cannot be read. -/
  errno : Nat := 2
  now : String := ""
  pptPath : String := ""

inductive Verdict where
  | reject (toHash version : Value) (reasons : List String)
  | accept (policy : Policy)

inductive Reply where
  | active (policy : Policy)
  | refused (reasons : List String)

def Host.activeHash (host : Host) : Value :=
  optStr (host.active.map Policy.sha256)

def readStored (fault : Fault) : Process World Raised ℤ := do
  attempt fault .osError id
  let w ← read
  return storedVersion w.disk.version

/-- The event is durable first; the root statement that covers it is signed after. -/
def append (cfg : Config) (faults : Faults) (event : Event) : Process World Raised Unit := do
  attempt (faults .event) .auditWriteError fun w => { w with disk := { w.disk with log := w.disk.log ++ [event] } }
  if cfg.signs then
    attempt (faults .sign) .statementWriteError id

def reject (cfg : Config) (faults : Faults) (strict : Bool) (toHash version : Value) (reasons : List String)
    : Process World Raised Reply := do
  let w ← read
  append cfg faults ⟨"swap_rejected", [
    ("from_hash", w.host.activeHash), ("to_hash", toHash), ("version", version),
    ("reasons", .list (reasons.map .str)), ("result", .str "rejected")]⟩
  if strict then raise (.swapRejected reasons) else return .refused reasons

def newPolicy (cfg : Config) (call : SwapCall) (manifest : List (String × Value)) (image : List UInt8) : Policy where
  sha256 := cfg.lib.sha256Hex image
  version := get manifest "version"
  keyId := get manifest "key_id"
  envelopeId := get manifest "envelope_id"
  suites := suites manifest
  registryHash := get manifest "registry_hash"
  image := image
  since := call.now
  pptPath := call.pptPath

/-- The checks before the version: the manifest they accept, or why the pack is refused. -/
def vetPack (cfg : Config) (call : SwapCall) (image : List UInt8)
    : Except Raised (Verdict ⊕ List (String × Value)) := do
  let toHash := Value.str (cfg.lib.sha256Hex image)
  match ← verifyPack cfg.lib cfg.pubkeys cfg.revoked call.files with
  | .refused reasons _ => return .inl (.reject toHash .none reasons)
  | .accepted manifest =>
    let reasons ← checkEnvelope manifest image cfg.envelope
    if reasons ≠ [] then
      return .inl (.reject toHash (get manifest "version") reasons)
    let reasons ← checkCryptoEnvelope cfg manifest
    if reasons ≠ [] then
      return .inl (.reject toHash (get manifest "version") reasons)
    return .inr manifest

/-- The version against the floor, and the providers of the suites. -/
def vetVersion (cfg : Config) (faults : Faults) (policy : Policy) : Process World Raised Verdict := do
  let toHash := Value.str policy.sha256
  let stored ← readStored (faults .readFloor)
  match policy.version.order .le (.int stored) with
  | none => raise .typeError
  | some true =>
    let stored ← readStored (faults .readFloorAgain)
    return .reject toHash policy.version
      ["version:not-monotonic:" ++ cfg.lib.str policy.version ++ "<=" ++ cfg.lib.str (.int stored)]
  | some false =>
    let reasons ← ofExcept (resolveAll cfg policy.suites)
    if reasons ≠ [] then
      return .reject toHash policy.version reasons
    return .accept policy

/-- Every check of a swap, in the order they are made. -/
def vet (cfg : Config) (faults : Faults) (call : SwapCall) : Process World Raised Verdict := do
  match (call.files .image).image with
  | none => return .reject .none .none [s!"image:unreadable:{call.errno}"]
  | some image =>
    match ← ofExcept (vetPack cfg call image) with
    | .inl verdict => return verdict
    | .inr manifest =>
      if (manifest.lookup "version").isNone then
        raise .keyError
      else
        vetVersion cfg faults (newPolicy cfg call manifest image)

def swapEvent (fromHash : Value) (policy : Policy) : Event :=
  ⟨"swap", [("from_hash", fromHash), ("to_hash", .str policy.sha256), ("version", policy.version),
    ("key_id", policy.keyId), ("envelope_id", policy.envelopeId), ("suites", policy.suites),
    ("registry_hash", policy.registryHash), ("result", .str "accepted")]⟩

/-- The flip in memory comes before the floor, and the floor before the event. -/
def commit (cfg : Config) (faults : Faults) (policy : Policy) : Process World Raised Reply := do
  update fun w => { w with host := { prev := w.host.active, active := some policy } }
  attempt (faults .writeVersion) .osError fun w => { w with disk := { w.disk with version := some policy.version } }
  let w ← read
  append cfg faults (swapEvent (optStr (w.host.prev.map Policy.sha256)) policy)
  return .active policy

def swap (cfg : Config) (faults : Faults) (call : SwapCall) : Process World Raised Reply := do
  match ← vet cfg faults call with
  | .reject toHash version reasons => reject cfg faults call.strict toHash version reasons
  | .accept policy => commit cfg faults policy

end CryptoHost
