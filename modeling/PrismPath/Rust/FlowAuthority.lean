import PrismPath.Hotswap.FlowAuthority
import PrismPath.Python.Object
import PrismPath.Rust.Host

/-!
This module contains the check of a flow manifest and of its version floor over the JSON documents they are, whatever a
document holds: that of the reference, and the Rust side's.
-/

open Python Json

namespace Python.Obj

def num? : Obj → Option Python.Number
  | bool b => some (.finite (if b then 1 else 0))
  | int n => some (.finite n)
  | float x => some x.num
  | _ => Option.none

mutual
/-- `v == w` -/
def eq : Obj → Obj → Bool
  | none, none => true
  | str s, str t => s = t
  | list vs, list ws => eqItems vs ws
  | dict kvs, dict kws =>
    -- the dictionaries have the same keys and at each of them the same value
    kvs.length = kws.length && (eqMembers kvs).all fun (k, test) => (kws.lookup k).any test
  | v, w =>
    match v.num?, w.num? with
    | some x, some y => x.eq y
    | _, _ => false

def eqItems : List Obj → List Obj → Bool
  | [], [] => true
  | v :: vs, w :: ws => eq v w && eqItems vs ws
  | _, _ => false

def eqMembers : List (Key × Obj) → List (Key × (Obj → Bool))
  | [] => []
  | (k, v) :: kvs => (k, fun w => eq v w) :: eqMembers kvs
end

end Python.Obj

namespace FlowDocuments

/-- What the check takes from its libraries as it is. -/
structure Library where
  sha256 : List UInt8 → List UInt8
  /-- Whether the raw key verifies the signature of the payload. -/
  verify : List UInt8 → List UInt8 → List UInt8 → Bool
  /-- `str` of a `list` or a `dict`. -/
  repr : Obj → Str

variable (lib : Library)

def sha256Hex (data : List UInt8) : Str :=
  hex (lib.sha256 data)

/-- `str(v)` -/
def pyStr : Obj → Str
  | .none => str "None"
  | .bool b => str (if b then "True" else "False")
  | .int n => ofText (write .compact (intTree n))
  | .float .nan => str "nan"
  | .float (.inf neg) => str (if neg then "-inf" else "inf")
  | .float (.finite neg x) => ofText (write .compact (Float64.finite neg x).tree)
  | .str s => s
  | v => lib.repr v

/-- `canonical_bytes` -/
def canonicalBytes (v : Obj) : Except Error (List UInt8) :=
  match canonicalCompact v with
  | some cs => .ok (textBytes cs)
  | none => .error .typeError

def manifestSha256 (manifest : Obj) : Except Error Str := do
  return sha256Hex lib (← canonicalBytes manifest)

/-- `flow_sha256` -/
def flowSha256 (flow : List UInt8) : Except Error Str :=
  match String.fromUTF8? ⟨flow.toArray⟩ with
  | none => .error .valueError
  | some text =>
    .ok (sha256Hex lib (String.ofList (FlowAuthority.universalNewlines text.toList)).toUTF8.data.toList)

/-- A version is an integer, of which a bool is one. -/
def version? : Obj → Option ℤ
  | .int n => some n
  | .bool b => some (if b then 1 else 0)
  | _ => none

/- The version floor. -/

/-- The floor file: a `dict` with the entry of each flow. -/
abbrev Entries : Type :=
  List (Key × Obj)

/-- `VersionFloor(path)`, of the text of a file that may not exist. -/
def loadFloor : Option Text → Except Error Entries
  | none => .ok []
  | some text =>
    match loads text with
    | some (.dict entries) => .ok entries
    | _ => .error .valueError

/-- `str(manifest.get("flow"))` -/
def flowName (manifest : Obj) : Except Error Key := do
  return .str (pyStr lib (← manifest.get "flow" .none))

/-- `entries.get(name)`, in which a `null` is no entry. -/
def entry? (entries : Entries) (name : Key) : Option Obj :=
  match entries.lookup name with
  | some .none => none
  | entry => entry

/-- The version of an entry, to be compared with an integer. -/
def storedVersion (entry : Obj) : Except Error Python.Number := do
  match (← entry.field "version").num? with
  | some x => return x
  | none => .error .typeError

/-- `manifest["version"]`, which was checked to be an integer. -/
def manifestVersion (manifest : Obj) : Except Error ℤ := do
  match version? (← manifest.field "version") with
  | some version => return version
  | none => .error .typeError

def admits (entries : Entries) (manifest : Obj) : Except Error Bool := do
  match entry? entries (← flowName lib manifest) with
  | none => return true
  | some entry =>
    let version ← manifestVersion manifest
    let stored ← storedVersion entry
    if stored.lt (.finite version) then
      return true
    if stored.eq (.finite version) then
      let hash ← manifest.get "flow_sha256" .none
      return hash.eq (← entry.field "flow_sha256")
    return false

/-- The entries with the one of a manifest set. -/
def raise (entries : Entries) (manifest : Obj) : Except Error Entries := do
  let name ← flowName lib manifest
  let version ← manifest.field "version"
  let hash ← manifest.field "flow_sha256"
  let digest ← manifestSha256 lib manifest
  return Dict.set entries name
    (record [("version", version), ("flow_sha256", hash), ("manifest_sha256", .str digest)])

/-- The entries after a manifest was accepted: the floor only rises. -/
def accept (entries : Entries) (manifest : Obj) : Except Error Entries := do
  match entry? entries (← flowName lib manifest) with
  | none => raise lib entries manifest
  | some entry =>
    let stored ← storedVersion entry
    let version ← manifestVersion manifest
    if (Python.Number.finite version).le stored then return entries else raise lib entries manifest

/- The check. -/

structure Verdict where
  ok : Bool
  causes : List String
  manifest : Option Obj

def refuse (cause : String) (manifest : Option Obj) : Verdict where
  ok := false
  causes := [cause]
  manifest := manifest

/-- The id of the first key that verifies the signature; the file of a key has 32 bytes. -/
def findSigner (payload sig : List UInt8) : List (List UInt8) → Except Error (Option Str)
  | [] => .ok none
  | key :: keys =>
    if key.length ≠ 32 then
      .error .valueError
    else if lib.verify key payload sig then
      .ok (some (sha256Hex lib key))
    else
      findSigner payload sig keys

/-- The checks of a manifest whose format is right. -/
def verifyManifest (flow sig : List UInt8) (trusted : List (List UInt8)) (revoked : List Str) (floor : Option Entries)
    (manifest : Obj) : Except Error Verdict := do
  let payload ← canonicalBytes manifest
  match ← findSigner lib payload sig trusted with
  | none => return refuse "sig:invalid" (some manifest)
  | some signerId =>
    if signerId ∈ revoked then
      return refuse "sig:revoked-key" (some manifest)
    if !(← manifest.get "key_id" .none).eq (.str signerId) then
      return refuse "manifest:key-id-mismatch" (some manifest)
    let flowHash ← flowSha256 lib flow
    if !(Obj.str flowHash).eq (← manifest.get "flow_sha256" .none) then
      return refuse "flow:sha256-mismatch" (some manifest)
    match floor with
    | none => return ⟨true, [], some manifest⟩
    | some entries =>
      if ← admits lib entries manifest then
        return ⟨true, [], some manifest⟩
      else
        return refuse "flow:version-replay" (some manifest)

/-- The format is the one of flow manifests, and the version an integer. -/
def wellFormed (manifest : Obj) : Bool :=
  match manifest.get "format" .none, manifest.get "version" .none with
  | .ok format, .ok version => format.eq (.str (str FlowAuthority.flowManifestFormat)) && (version? version).isSome
  | _, _ => false

def isDict : Obj → Bool
  | .dict _ => true
  | _ => false

/-- `verify_flow` -/
def verifyFlow (flow : List UInt8) (manifest : Option Text) (sig : Option (List UInt8)) (trusted : List (List UInt8))
    (revoked : List Str) (floor : Option Entries) : Except Error Verdict :=
  match manifest, sig with
  | some text, some sig =>
    match loads text with
    | none => .ok (refuse "manifest:bad-format" none)
    | some manifest =>
      if wellFormed manifest then
        verifyManifest lib flow sig trusted revoked floor manifest
      else
        .ok (refuse "manifest:bad-format" (if isDict manifest then some manifest else none))
  | _, _ => .ok (refuse "sig:missing" none)

/-- A flow to be run under a floor, with the two files beside it. -/
structure Call where
  flow : List UInt8
  manifest : Option Text
  sig : Option (List UInt8)
  trusted : List (List UInt8)
  revoked : List Str

/-- The check of a call, and the floor after it: a manifest that verified is accepted. -/
def authorize (entries : Entries) (call : Call) : Except Error (Verdict × Entries) := do
  let verdict ← verifyFlow lib call.flow call.manifest call.sig call.trusted call.revoked (some entries)
  match verdict.ok, verdict.manifest with
  | true, some manifest => return (verdict, ← accept lib entries manifest)
  | _, _ => return (verdict, entries)

/-- The verdicts of calls made one after the other, and the floor after them. -/
def authorizeAll : Entries → List Call → Except Error (List Verdict × Entries)
  | entries, [] => .ok ([], entries)
  | entries, call :: calls => do
    let (verdict, entries) ← authorize lib entries call
    let (verdicts, entries) ← authorizeAll entries calls
    return (verdict :: verdicts, entries)

end FlowDocuments

namespace Rust

open Json Python

namespace Flow

/-- The libraries of the packs, with the strict check of a signature. -/
structure Library extends Pack.Library where
  /-- `VerifyingKey::verify_strict` -/
  verifyStrict : List UInt8 → List UInt8 → List UInt8 → Bool

variable (lib : Library)

def sha256Hex (data : List UInt8) : Str :=
  Pack.sha256Hex lib.toLibrary data

def canonicalBytes (v : Value) : List UInt8 :=
  Pack.canonicalBytes lib.toLibrary v

/-- `verify_ed25519` -/
def verifyEd25519 (key message sig : List UInt8) : Bool :=
  key.length = 32 && sig.length = 64 && lib.isKey key && lib.verifyStrict key message sig

/- Reading values as Python does. -/

def replaceCrLf : List Char → List Char
  | '\r' :: '\n' :: cs => '\n' :: replaceCrLf cs
  | c :: cs => c :: replaceCrLf cs
  | [] => []

def universalNewlines (text : List Char) : List Char :=
  (replaceCrLf text).map fun c => if c = '\r' then '\n' else c

/-- `py_int` -/
def pyInt (v : Value) : Option ℤ :=
  v.asI64

/-- `py_str` -/
def pyStr : Option Value → Str
  | none => str "None"
  | some .null => str "None"
  | some (.bool true) => str "True"
  | some (.bool false) => str "False"
  | some (.string s) => s
  | some (.number n) => ofText (numberText lib.lowerExp n)
  | some v => ofText (pyCanonicalString lib.lowerExp true v)

/-- `flow_sha256` -/
def flowSha256 (flow : List UInt8) : Option Str :=
  match String.fromUTF8? ⟨flow.toArray⟩ with
  | none => none
  | some text => some (sha256Hex lib (String.ofList (universalNewlines text.toList)).toUTF8.data.toList)

def manifestSha256 (manifest : Value) : Str :=
  sha256Hex lib (canonicalBytes lib manifest)

/- The version floor. -/

/-- The entries as they were inserted: of a name the last one is the one in the map. -/
structure VersionFloor where
  entries : List (Str × Value) := []

def VersionFloor.get (floor : VersionFloor) (name : Str) : Option Value :=
  floor.entries.reverse.lookup name

/-- `VersionFloor::from_json_str` -/
def VersionFloor.fromJsonStr (text : List Char) : Option VersionFloor :=
  match lib.fromStr text with
  | some (.object entries) => some ⟨entries⟩
  | _ => none

def VersionFloor.admits (floor : VersionFloor) (manifest : Value) : Bool :=
  match floor.get (pyStr lib (manifest.get? "flow")) with
  | none => true
  | some entry =>
    match (entry.get? "version").bind pyInt, entry.get? "flow_sha256", (manifest.get? "version").bind pyInt with
    | some floorVersion, some floorHash, some version =>
      floorVersion < version
        || (version = floorVersion && Value.sameOpt (manifest.get? "flow_sha256") (some floorHash))
    | _, _, _ => false

/-- The entry of an accepted manifest; `none` is the error of one without a hash. -/
def newEntry (manifest : Value) (version : ℤ) : Option Value :=
  (manifest.get? "flow_sha256").map fun hash =>
    Host.jsonObject [("version", Host.ofInt version), ("flow_sha256", hash),
      ("manifest_sha256", .string (manifestSha256 lib manifest))]

def VersionFloor.accept (floor : VersionFloor) (manifest : Value) : Option VersionFloor := do
  let name := pyStr lib (manifest.get? "flow")
  let version ← (manifest.get? "version").bind pyInt
  let raised : Option VersionFloor := do
    let entry ← newEntry lib manifest version
    return ⟨floor.entries ++ [(name, entry)]⟩
  match ((floor.get name).bind fun entry => entry.get? "version").bind pyInt with
  | some floorVersion => if version ≤ floorVersion then return floor else raised
  | none => raised

/- The check. -/

structure FlowVerdict where
  ok : Bool
  causes : List String
  manifest : Option Value

def refuse (cause : String) (manifest : Option Value) : FlowVerdict where
  ok := false
  causes := [cause]
  manifest := manifest

def isObject : Value → Bool
  | .object _ => true
  | _ => false

/-- The checks of a manifest whose format is right. -/
def verifyManifest (flow sig : List UInt8) (trusted : List (List UInt8)) (revoked : List Str)
    (floor : Option VersionFloor) (manifest : Value) : FlowVerdict :=
  let payload := canonicalBytes lib manifest
  match trusted.find? fun key => verifyEd25519 lib key payload sig with
  | none => refuse "sig:invalid" (some manifest)
  | some key =>
    let signerId := sha256Hex lib key
    if signerId ∈ revoked then
      refuse "sig:revoked-key" (some manifest)
    else if (manifest.get? "key_id").bind Value.asStr ≠ some signerId then
      refuse "manifest:key-id-mismatch" (some manifest)
    else
      let flowHash := flowSha256 lib flow
      if flowHash.isNone || flowHash ≠ (manifest.get? "flow_sha256").bind Value.asStr then
        refuse "flow:sha256-mismatch" (some manifest)
      else if (floor.map fun floor => !floor.admits lib manifest).getD false then
        refuse "flow:version-replay" (some manifest)
      else
        ⟨true, [], some manifest⟩

/-- `verify_flow` -/
def verifyFlow (flow : List UInt8) (manifestText : Option (List Char)) (sig : Option (List UInt8))
    (trusted : List (List UInt8)) (revoked : List Str) (floor : Option VersionFloor) : FlowVerdict :=
  match manifestText, sig with
  | some text, some sig =>
    match lib.fromStr text with
    | none => refuse "manifest:bad-format" none
    | some manifest =>
      if !isObject manifest || (manifest.get? "format").bind Value.asStr ≠ some (str "prismpath-flow-manifest/1")
          || ((manifest.get? "version").bind pyInt).isNone then
        refuse "manifest:bad-format" (if isObject manifest then some manifest else none)
      else
        verifyManifest lib flow sig trusted revoked floor manifest
  | _, _ => refuse "sig:missing" none

/-- The check of a call, and the floor after it: a manifest that verified is accepted. -/
def authorize (floor : VersionFloor) (call : FlowDocuments.Call) : Option (FlowVerdict × VersionFloor) :=
  let verdict := verifyFlow lib call.flow call.manifest call.sig call.trusted call.revoked (some floor)
  match verdict.ok, verdict.manifest with
  | true, some manifest => (floor.accept lib manifest).map fun floor => (verdict, floor)
  | _, _ => some (verdict, floor)

/-- The verdicts of calls made one after the other, and the floor after them. -/
def authorizeAll : VersionFloor → List FlowDocuments.Call → Option (List FlowVerdict × VersionFloor)
  | floor, [] => some ([], floor)
  | floor, call :: calls => do
    let (verdict, floor) ← authorize lib floor call
    let (verdicts, floor) ← authorizeAll floor calls
    return (verdict :: verdicts, floor)

end Flow

end Rust
