import PrismPath.Hotswap.PolicyPack
import PrismPath.Lib.Dict

/-!
This module contains the authorization of flows: the check of a signed flow manifest and of the version floor,
and the calls that check a flow and then load it.
-/

open Python PolicyPack

namespace FlowAuthority

/-- The files of a flow, as they are at one moment; `none` is a file that does not exist. -/
structure Files where
  flow : Option (List UInt8)
  manifest : Option String
  sig : Option (List UInt8)

/-- The moments at which a call looks at the files of a flow, in their order. -/
inductive Moment where
  | manifestPresent
  | sigPresent
  | manifestExists
  | sigExists
  | manifest
  | sig
  | flowHash
  | flowSize
  | flowText
  deriving DecidableEq

/-- Text mode reads every line ending as LF. -/
def universalNewlines : List Char → List Char
  | '\r' :: '\n' :: cs => '\n' :: universalNewlines cs
  | '\r' :: cs => '\n' :: universalNewlines cs
  | c :: cs => c :: universalNewlines cs
  | [] => []

/-- `open(path, encoding="utf-8").read()`. -/
def readText (file : Option (List UInt8)) : Except Raised String := do
  let data ← openFile file
  match String.fromUTF8? ⟨data.toArray⟩ with
  | none => .error .valueError
  | some text => return String.ofList (universalNewlines text.toList)

def textSha256 (lib : Library) (text : String) : String :=
  lib.sha256Hex text.toUTF8.data.toList

def flowSha256 (lib : Library) (file : Option (List UInt8)) : Except Raised String := do
  let text ← readText file
  return textSha256 lib text

def flowManifestFormat : String :=
  "prismpath-flow-manifest/1"

structure Entry where
  version : ℤ
  flowSha256 : Value
  manifestSha256 : String

/-- The floor file: the accepted version of each flow. -/
abbrev Entries : Type := List (String × Entry)

/-- A version is an integer, of which a bool is one. -/
def version? : Value → Option ℤ
  | .int n => some n
  | .bool b => some (if b then 1 else 0)
  | _ => none

/-- `str(manifest.get("flow"))`. -/
def flowName (lib : Library) (manifest : List (String × Value)) : String :=
  lib.str (get manifest "flow")

def admits (lib : Library) (entries : Entries) (manifest : List (String × Value)) (version : ℤ) : Bool :=
  match entries.lookup (flowName lib manifest) with
  | none => true
  | some entry =>
    entry.version < version
      || (version = entry.version && (get manifest "flow_sha256").eq entry.flowSha256)

def newEntry (lib : Library) (manifest : List (String × Value)) (version : ℤ) : Entry where
  version := version
  flowSha256 := get manifest "flow_sha256"
  manifestSha256 := textSha256 lib (lib.canonicalBytes manifest)

/-- The entries to store, or none when the floor is there already. -/
def accept (lib : Library) (entries : Entries) (manifest : List (String × Value)) (version : ℤ) : Option Entries :=
  let raised := Dict.set entries (flowName lib manifest) (newEntry lib manifest version)
  match entries.lookup (flowName lib manifest) with
  | none => some raised
  | some entry => if version ≤ entry.version then none else some raised

inductive Verified where
  | refused (causes : List String) (manifest : Option (List (String × Value)))
  | accepted (manifest : List (String × Value)) (version : ℤ)

/-- The checks of a manifest whose format is right: its signature, the flow it names, and the floor. -/
def verifyManifest (lib : Library) (pubs : List (Option (List UInt8))) (revoked : List String)
    (files : Moment → Files) (entries : Entries) (sig : List UInt8) (manifest : List (String × Value))
    (version : ℤ) : Except Raised Verified := do
  let signature ← checkSignature lib pubs revoked sig manifest
  if signature ≠ [] then
    return .refused signature (some manifest)
  let sha256 ← flowSha256 lib (files .flowHash).flow
  if !(Value.str sha256).eq (get manifest "flow_sha256") then
    return .refused ["flow:sha256-mismatch"] (some manifest)
  if !admits lib entries manifest version then
    return .refused ["flow:version-replay"] (some manifest)
  return .accepted manifest version

def verifyFlow (lib : Library) (pubs : List (Option (List UInt8))) (revoked : List String)
    (files : Moment → Files) (entries : Entries) : Except Raised Verified := do
  if (files .manifestExists).manifest.isNone || (files .sigExists).sig.isNone then
    return .refused ["sig:missing"] none
  let text ← openFile (files .manifest).manifest
  match lib.loads text with
  | none => return .refused ["manifest:bad-format"] none
  | some loaded =>
    let sig ← openFile (files .sig).sig
    match loaded with
    | .dict manifest =>
      if !(get manifest "format").eq (.str flowManifestFormat) then
        return .refused ["manifest:bad-format"] (some manifest)
      match version? (get manifest "version") with
      | none => return .refused ["manifest:bad-format"] (some manifest)
      | some version => verifyManifest lib pubs revoked files entries sig manifest version
    | _ => return .refused ["manifest:bad-format"] none

inductive Status where
  | none
  | unchecked
  | verified
  | failed
  deriving DecidableEq

structure Authorization where
  status : Status
  required : Bool := false
  reasons : List String := []
  manifest : Option (List (String × Value)) := .none

structure AuthorizationPolicy where
  required : Bool
  pubs : List (Option (List UInt8))
  revoked : List String

inductive Error where
  | raised (error : Raised)
  | config
  | notAuthorized (causes : List String) (manifest : Option (List (String × Value)))
  | parse

def raising {α : Type} : Except Raised α → Except Error α
  | .ok a => .ok a
  | .error e => .error (.raised e)

/-- `read_manifest`: no manifest where there is none or it is not JSON. -/
def readManifest (lib : Library) (files : Files) : Option (List (String × Value)) :=
  match files.manifest.bind lib.loads with
  | some (.dict manifest) => some manifest
  | _ => none

/-- An instance key is none of the authority keys. -/
def checkSeparation (lib : Library) (pubs : List (Option (List UInt8))) (instanceKeyId : Option String)
    : Except Error Unit :=
  match instanceKeyId with
  | none => .ok ()
  | some keyId => do
    let authorityIds ← pubs.mapM fun pub => raising ((openFile pub).map lib.sha256Hex)
    if keyId ∈ authorityIds then .error .config else .ok ()

/-- An instance key never authorizes a flow. -/
def instanceSigned (instanceKeyId : Option String) (manifest : List (String × Value)) : Bool :=
  match instanceKeyId with
  | none => false
  | some keyId => (get manifest "key_id").eq (.str keyId)

/-- What a check that ran comes to, with the entries its floor has to store. -/
def conclude (lib : Library) (policy : AuthorizationPolicy) (instanceKeyId : Option String) (entries : Entries)
    : Verified → Except Error (Authorization × Option Entries)
  | .refused causes manifest =>
    if policy.required then
      .error (.notAuthorized causes manifest)
    else
      .ok (⟨.failed, policy.required, causes, manifest⟩, none)
  | .accepted manifest version =>
    if instanceSigned instanceKeyId manifest then
      if policy.required then
        .error (.notAuthorized ["sig:invalid"] (some manifest))
      else
        .ok (⟨.failed, policy.required, ["sig:invalid"], some manifest⟩, none)
    else
      .ok (⟨.verified, policy.required, [], some manifest⟩,
        if policy.required then accept lib entries manifest version else none)

/-- The check of a flow. `floor` is what reading the floor file gives. -/
def authorizeFlow (lib : Library) (policy : AuthorizationPolicy) (instanceKeyId : Option String)
    (floor : Except Raised Entries) (files : Moment → Files) : Except Error (Authorization × Option Entries) := do
  let present := (files .manifestPresent).manifest.isSome || (files .sigPresent).sig.isSome
  if !policy.required && !present then
    return ({ status := .none }, none)
  if policy.pubs.isEmpty then
    if policy.required then
      .error .config
    else
      return ({ status := .unchecked, manifest := readManifest lib (files .manifest) }, none)
  else do
    checkSeparation lib policy.pubs instanceKeyId
    let entries ← raising floor
    let verified ← raising (verifyFlow lib policy.pubs policy.revoked files entries)
    conclude lib policy instanceKeyId entries verified

/-- `parse_file`: the size of the file, then its text. -/
def parseFile {γ : Type} (maxFlowBytes : Nat) (parse : String → Except Error γ) (files : Moment → Files)
    : Except Error γ := do
  let sized ← raising (openFile (files .flowSize).flow)
  if maxFlowBytes < sized.length then
    .error .parse
  let text ← raising (readText (files .flowText).flow)
  parse text

/-- The flow's graph and the authorization it is loaded under. `stored` is what storing the floor gives. -/
def loadAuthorized {γ : Type} (lib : Library) (policy : AuthorizationPolicy) (instanceKeyId : Option String)
    (floor : Except Raised Entries) (stored : Except Raised Unit) (maxFlowBytes : Nat)
    (parse : String → Except Error γ) (files : Moment → Files) : Except Error (γ × Authorization) := do
  let (authorization, entries) ← authorizeFlow lib policy instanceKeyId floor files
  if entries.isSome then
    raising stored
  let graph ← parseFile maxFlowBytes parse files
  return (graph, authorization)

/-- A durable run: the authorization of its flow is checked without an instance key, and the graph run. -/
def runDurable {γ ρ : Type} (lib : Library) (policy : AuthorizationPolicy) (floor : Except Raised Entries)
    (stored : Except Raised Unit) (maxFlowBytes : Nat) (parse : String → Except Error γ)
    (run : γ → Except Error ρ) (files : Moment → Files) : Except Error ρ := do
  let (graph, _) ← loadAuthorized lib policy none floor stored maxFlowBytes parse files
  run graph

end FlowAuthority
