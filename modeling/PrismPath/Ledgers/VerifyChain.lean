import PrismPath.Ledgers.RootStatement
import PrismPath.Telemetry.SelfHeal

/-!
This module contains the check of a chain of root statements against the log it covers.
-/

open Python

namespace RootStatement

def bodyFields : List String :=
  ["format", "log", "seq", "root", "leaves", "prev", "time", "trigger", "key_id", "public_key", "policy"]

inductive Finding where
  | interruptedStatement (line : ℕ)
  | badLine (line : ℕ)
  | badFormat (statement : ℕ)
  | keyIdMismatch (seq : ℤ)
  | badSignature (seq : ℤ)
  | unpinnedKey (seq : ℤ) (key : Json.Str)
  | authorityKey (seq : ℤ) (key : Json.Str)
  | chainBroken (seq : ℤ) (position : ℕ)
  | leafCountRegressed (seq leaves before : ℤ)
  | logTruncated (seq signedLeaves logLeaves : ℤ)
  | rootMismatch (seq first last : ℤ)
  | noStatements
  deriving DecidableEq

/-- A write that a crash cut short is the one finding that leaves the chain valid. -/
def Finding.fatal : Finding → Bool
  | .interruptedStatement _ => false
  | _ => true

/-- The findings of `read_statements`. -/
def readFindings (text : Text) : List Finding :=
  let (_, interrupted, bad) := readStatements text
  bad.map .badLine ++ if interrupted then [.interruptedStatement (LineFile.rawLines text).length] else []

structure Verifier where
  sha256 : Bytes → Bytes
  /-- Whether the key verifies the signature of the message. -/
  verify : Bytes → Bytes → Bytes → Bool
  log : Json.Str
  pinned : List Bytes
  authority : List Json.Str
  rootAt : ℤ → Json.Str
  totalLeaves : ℤ

def keyIdOf (sha256 : Bytes → Bytes) (publicRaw : Bytes) : Json.Str :=
  hex (sha256 publicRaw)

def fingerprint (keyId : Json.Str) : Json.Str :=
  keyId.take 16

/-- `isinstance(v, int)`, which a `bool` is. -/
def intOf : Obj → Option ℤ
  | .int n => some n
  | .bool b => some (if b then 1 else 0)
  | _ => none

def strOf : Obj → Option Json.Str
  | .str s => some s
  | _ => none

def bytesOf : Obj → Option (List UInt8)
  | .str s => (SelfHeal.fromHex s).toOption
  | _ => none

/-- What is read of a statement of the right form. -/
structure Fields where
  seq : ℤ
  leaves : ℤ
  root : Json.Str
  prev : Json.Str
  keyId : Json.Str
  publicKey : Bytes
  sig : Bytes

def member (statement : List (Key × Obj)) (name : String) : Option Obj :=
  statement.lookup (.str (str name))

/-- `_well_formed` -/
def wellFormed (log : Json.Str) (statement : List (Key × Obj)) : Option Fields := do
  let format ← strOf (← member statement "format")
  let statementLog ← strOf (← member statement "log")
  guard (format = str "prismpath-root-statement/1" ∧ statementLog = log)
  guard (bodyFields.all fun name => (member statement name).isSome)
  let seq ← intOf (← member statement "seq")
  let leaves ← intOf (← member statement "leaves")
  let root ← strOf (← member statement "root")
  let prev ← strOf (← member statement "prev")
  let keyId ← strOf (← member statement "key_id")
  let publicKey ← bytesOf (← member statement "public_key")
  let sig ← bytesOf (← member statement "sig")
  guard (publicKey.length = 32 ∧ sig.length = 64)
  return { seq, leaves, root, prev, keyId, publicKey, sig }

/-- The bytes the signature covers, of a statement that has every field. -/
def signedBytes (statement : List (Key × Obj)) : Except Error Bytes :=
  match canonicalCompact (record (bodyFields.map fun name => (name, (member statement name).getD .none))) with
  | some text => .ok (signingDomain ++ textBytes text)
  | none => .error .typeError

structure Walk where
  findings : List Finding
  prevHash : Json.Str := []
  prevLeaves : ℤ := 0
  mismatchFrom : Option ℤ := none
  keyIds : List Json.Str := []

namespace Verifier

variable (v : Verifier)

def pinnedIds : List Json.Str :=
  v.pinned.map (keyIdOf v.sha256)

/-- The finding about the key and the signature; the signature is checked under a key whose id is right. -/
def keyFindings (statement : List (Key × Obj)) (fields : Fields) : Except Error (List Finding) :=
  if keyIdOf v.sha256 fields.publicKey ≠ fields.keyId then
    .ok [.keyIdMismatch fields.seq]
  else do
    let message ← signedBytes statement
    return if v.verify fields.publicKey message fields.sig then [] else [.badSignature fields.seq]

def rootIsWrong (fields : Fields) : Bool :=
  fields.leaves ≤ v.totalLeaves && v.rootAt fields.leaves ≠ fields.root

/-- Where the range of the first root that is wrong begins. -/
def mismatchFrom (walk : Walk) (fields : Fields) : Option ℤ :=
  if v.rootIsWrong fields then some (walk.mismatchFrom.getD (min walk.prevLeaves fields.leaves)) else walk.mismatchFrom

/-- The findings about a statement's place in the chain and in the log. -/
def placeFindings (walk : Walk) (index : ℕ) (fields : Fields) : List Finding :=
  (if v.pinnedIds ≠ [] ∧ fields.keyId ∉ v.pinnedIds then [.unpinnedKey fields.seq (fingerprint fields.keyId)] else [])
    ++ (if fields.keyId ∈ v.authority then [.authorityKey fields.seq (fingerprint fields.keyId)] else [])
    ++ (if fields.seq ≠ index ∨ fields.prev ≠ walk.prevHash then [.chainBroken fields.seq index] else [])
    ++ (if fields.leaves < walk.prevLeaves then [.leafCountRegressed fields.seq fields.leaves walk.prevLeaves] else [])
    ++ (if v.totalLeaves < fields.leaves then [.logTruncated fields.seq fields.leaves v.totalLeaves] else [])
    ++ (if v.rootIsWrong fields then
        [.rootMismatch fields.seq ((v.mismatchFrom walk fields).getD 0) (fields.leaves - 1)] else [])

/-- One statement; a line that could not be read stands in the chain as an empty one. -/
def check (walk : Walk) (index : ℕ) (statement : Obj) : Except Error Walk :=
  match statement with
  | .dict [] => .ok { walk with prevHash := [] }
  | .dict d => do
    let hash ← statementHash v.sha256 statement
    match wellFormed v.log d with
    | none => return { walk with findings := walk.findings ++ [.badFormat index], prevHash := hash }
    | some fields =>
      let keys ← v.keyFindings d fields
      return {
        findings := walk.findings ++ (keys ++ v.placeFindings walk index fields)
        prevHash := hash
        prevLeaves := fields.leaves
        mismatchFrom := v.mismatchFrom walk fields
        keyIds := if fields.keyId ∈ walk.keyIds then walk.keyIds else walk.keyIds ++ [fields.keyId]
      }
  | _ => .error .attributeError

def walkFrom (walk : Walk) (index : ℕ) : List Obj → Except Error Walk
  | [] => .ok walk
  | statement :: statements => do
    let walk ← v.check walk index statement
    walkFrom walk (index + 1) statements

end Verifier

inductive Status where
  | signed
  | signedUnpinned
  | unsigned
  | invalid
  deriving DecidableEq

structure Report where
  status : Status
  statements : ℕ
  signedLeaves : Obj
  logLeaves : ℤ
  /-- `none` where the leaves of the last statement are a float. -/
  unsignedTail : Option ℤ
  keys : List Json.Str
  pinned : Bool
  lastStatement : Option Json.Str
  findings : List Finding

def Report.accepted (report : Report) : Bool :=
  report.status = .signed || report.status = .signedUnpinned

def isEmptyDict : Obj → Bool
  | .dict [] => true
  | _ => false

/-- `max(0, total - leaves)` -/
def unsignedTail (total : ℤ) (leaves : Obj) : Except Error (Option ℤ) :=
  match intOf leaves, leaves with
  | some n, _ => .ok (some (max 0 (total - n)))
  | none, .float _ => .ok none
  | none, _ => .error .typeError

def Verifier.verifyChain (v : Verifier) (statements : List Obj) (readFindings : List Finding)
    : Except Error Report := do
  let walk ← v.walkFrom { findings := readFindings } 0 statements
  let findings := walk.findings ++ if v.pinnedIds ≠ [] ∧ statements = [] then [.noStatements] else []
  let status : Status :=
    if findings.any Finding.fatal then .invalid
    else if statements.isEmpty then .unsigned
    else if v.pinnedIds ≠ [] then .signed
    else .signedUnpinned
  let last := (statements.filter fun statement => !isEmptyDict statement).getLast?
  let signedLeaves ← match last with
    | some statement => statement.get "leaves" (.int 0)
    | none => pure (.int 0)
  let tail ← if statements.isEmpty then pure (some v.totalLeaves) else unsignedTail v.totalLeaves signedLeaves
  let hash ← match last with
    | some statement => some <$> statementHash v.sha256 statement
    | none => pure none
  return {
    status
    statements := statements.length
    signedLeaves
    logLeaves := v.totalLeaves
    unsignedTail := tail
    keys := walk.keyIds.map fingerprint
    pinned := v.pinnedIds ≠ []
    lastStatement := hash
    findings
  }

end RootStatement
