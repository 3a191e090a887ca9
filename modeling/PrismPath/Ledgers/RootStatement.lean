import PrismPath.Lib.LineFile
import PrismPath.Python.Object

/-!
This module contains root statements: how one is made and written, and how a signer continues the chain of those a
file holds.
-/

open Python LineFile

namespace RootStatement

abbrev Bytes : Type := List UInt8

def logEpochChain : Json.Str :=
  str "epoch-chain"

structure InstanceKey where
  keyId : Json.Str
  publicRaw : Bytes
  sign : Bytes → Bytes

/-- `prismpath-root-statement/1`, and a zero byte. -/
def signingDomain : Bytes :=
  textBytes "prismpath-root-statement/1".toList ++ [0]

/-- The fields of a statement in the order of the signature, without it. -/
def body (key : InstanceKey) (log : Json.Str) (seq : ℕ) (root : Json.Str) (leaves : ℕ) (prev time trigger : Json.Str)
    (policy : Obj) : List (String × Obj) :=
  [("format", .str (str "prismpath-root-statement/1")), ("log", .str log), ("seq", .int seq), ("root", .str root),
    ("leaves", .int leaves), ("prev", .str prev), ("time", .str time), ("trigger", .str trigger),
    ("key_id", .str key.keyId), ("public_key", .str (hex key.publicRaw)), ("policy", policy)]

def makeStatement (key : InstanceKey) (log : Json.Str) (seq : ℕ) (root : Json.Str) (leaves : ℕ)
    (prev time trigger : Json.Str) (policy : Obj) : Except Error Obj :=
  let body := body key log seq root leaves prev time trigger policy
  match canonicalCompact (record body) with
  | some text => .ok (record (body ++ [("sig", .str (hex (key.sign (signingDomain ++ textBytes text))))]))
  | none => .error .typeError

def statementHash (sha256 : Bytes → Bytes) (statement : Obj) : Except Error Json.Str :=
  match canonicalCompact statement with
  | some text => .ok (hex (sha256 (textBytes text)))
  | none => .error .typeError

def isDict : Obj → Bool
  | .dict _ => true
  | _ => false

/-- The statements, whether the last line is a write cut short, and the numbers of the other bad lines. -/
def readStatements (text : Text) : List Obj × Bool × List ℕ :=
  let lines := rawLines text
  let read := lines.map fun line => (loads line).filter isDict
  let interrupted := match read.getLast? with
    | some none => true
    | _ => false
  let statements := (if interrupted then read.dropLast else read).map fun r => r.getD (.dict [])
  let bad := (List.range (lines.length - 1)).filter fun i => read.getD i none |>.isNone
  (statements, interrupted, bad.map (· + 1))

/-- What is kept of a file whose last line was cut short. -/
def keptText (text : Text) : Text :=
  let lines := splitLines text
  let kept := if lines.getLast? = some [] then lines.dropLast.filter (· ≠ []) else lines.dropLast
  kept.flatMap fun line => line ++ ['\n']

structure RootSigner where
  seq : ℕ
  prev : Json.Str

/-- Opens a statements file: the signer, and the text the file is replaced by when its last line was cut short. -/
def RootSigner.start (sha256 : Bytes → Bytes) (text : Text) : Except Error (RootSigner × Option Text) := do
  let (statements, interrupted, _) := readStatements text
  let prev ← match statements.getLast? with
    | some last => statementHash sha256 last
    | none => pure []
  return (⟨statements.length, prev⟩, if interrupted then some (keptText text) else none)

end RootStatement
