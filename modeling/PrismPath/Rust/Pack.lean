import PrismPath.Hw.TableFormat
import PrismPath.Rust.Durable

/-!
This module contains the Rust side of the signed policy packs: the checks of a table image, of a pack and of a
manifest under an envelope.
-/

namespace Rust

open Json Python Bytes TableFormat

/- Values. -/

/-- Numbers of different kinds are different, and the two zeros of the floats are equal. -/
def Number.same : Number → Number → Bool
  | .posInt m, .posInt n => m.val = n.val
  | .negInt m, .negInt n => m.val = n.val
  | .float (neg, x), .float (neg', y) => x.val.val = y.val.val && (neg = neg' || x.val.val = 0)
  | _, _ => false

namespace Value

def asBool : Value → Option Bool
  | .bool b => some b
  | _ => none

def asI64 : Value → Option ℤ
  | .number n => n.asI64
  | _ => none

def asU64 : Value → Option ℕ
  | .number n => n.asU64
  | _ => none

def asObject : Value → Option (List (Str × Value))
  | .object kvs => some (OrderedMap.ofList strLt kvs)
  | _ => none

mutual
/-- `v == w` -/
def same : Value → Value → Bool
  | .null, .null => true
  | .bool b, .bool c => b = c
  | .number m, .number n => m.same n
  | .string s, .string t => s = t
  | .array vs, .array ws => sameItems vs ws
  | .object kvs, .object kws =>
    -- the maps have the same keys and at each of them the same value
    let tests := sameMembers kvs
    (kvs.map Prod.fst ++ kws.map Prod.fst).all fun k =>
      match tests.reverse.lookup k, kws.reverse.lookup k with
      | some test, some w => test w
      | _, _ => false
  | _, _ => false

def sameItems : List Value → List Value → Bool
  | [], [] => true
  | v :: vs, w :: ws => same v w && sameItems vs ws
  | _, _ => false

def sameMembers : List (Str × Value) → List (Str × (Value → Bool))
  | [] => []
  | (k, v) :: kvs => (k, fun w => same v w) :: sameMembers kvs
end

/-- `Option<&Value>` on both sides. -/
def sameOpt : Option Value → Option Value → Bool
  | none, none => true
  | some v, some w => v.same w
  | _, _ => false

end Value

namespace Pack

/-- What the packs take from their libraries as it is: the hash, the signatures and the JSON texts. -/
structure Library where
  sha256 : List UInt8 → List UInt8
  /-- Whether 32 bytes are a point of the curve. -/
  isKey : List UInt8 → Bool
  /-- Whether the key verifies the signature of the message. -/
  verify : List UInt8 → List UInt8 → List UInt8 → Bool
  /-- `serde_json::from_str` -/
  fromStr : List Char → Option Value
  /-- The JSON text a value is printed as. -/
  toText : Value → List Char
  lowerExp : Double → Decimal

def sha256Hex (lib : Library) (data : List UInt8) : Str :=
  hex (lib.sha256 data)

def canonicalBytes (lib : Library) (v : Value) : List UInt8 :=
  textBytes (pyCanonicalString lib.lowerExp false v)

/- Images. -/

structure PptHeader where
  fields : ℕ
  interns : ℕ
  atoms : ℕ
  nodes : ℕ
  edges : ℕ
  progWords : ℕ
  start : ℕ
  visitsIdx : ℕ
  maxSteps : ℕ
  maxStack : ℕ
  deriving DecidableEq

def countNames : List String :=
  ["atoms", "nodes", "edges", "prog_words", "max_steps", "max_stack"]

def PptHeader.count (header : PptHeader) : String → ℕ
  | "atoms" => header.atoms
  | "nodes" => header.nodes
  | "edges" => header.edges
  | "prog_words" => header.progWords
  | "max_steps" => header.maxSteps
  | "max_stack" => header.maxStack
  | _ => 0

-- the offsets are below the length wherever these are called

def u8 (data : List UInt8) (off : ℕ) : ℕ :=
  (u8? data off).getD 0

def u16le (data : List UInt8) (off : ℕ) : ℕ :=
  (u16? data off).getD 0

def u32le (data : List UInt8) (off : ℕ) : ℕ :=
  (u32? data off).getD 0

def readPptHeader (data : List UInt8) : Except String PptHeader :=
  if data.length < headerSize then
    .error "image:truncated-header"
  else if u32le data 0 ≠ magic then
    .error "image:bad-magic"
  else if u16le data 4 ≠ formatVersion then
    .error "image:bad-version"
  else
    .ok {
      fields := u16le data 6
      interns := u16le data 8
      atoms := u16le data 10
      nodes := u16le data 12
      edges := u16le data 14
      progWords := u16le data 16
      start := u16le data 18
      visitsIdx := u16le data 20
      maxSteps := u16le data 22
      maxStack := u16le data 24
    }

namespace PptHeader

variable (header : PptHeader)

def nodesOff : ℕ :=
  headerSize + atomSize * header.atoms

def edgesOff : ℕ :=
  header.nodesOff + nodeSize * header.nodes

def progOff : ℕ :=
  header.edgesOff + edgeSize * header.edges

def need : ℕ :=
  header.progOff + wordSize * header.progWords

end PptHeader

def defaultCaps : List (Str × ℕ) :=
  [(str "atoms", 1024), (str "nodes", 256), (str "edges", 1024), (str "prog_words", 4096), (str "max_steps", 25),
    (str "max_stack", 16)]

def capReasons (header : PptHeader) (caps : List (Str × ℕ)) : List String :=
  countNames.flatMap fun key =>
    let cap := (caps.lookup (str key)).getD ((defaultCaps.lookup (str key)).getD 0)
    if cap < header.count key then ["image:caps-exceeded:" ++ key] else []

def atomReasons (header : PptHeader) (data : List UInt8) (index : ℕ) : List String :=
  let off := headerSize + atomSize * index
  let fidx := u16le data off
  let op := u8 data (off + 2)
  let ty := u8 data (off + 3)
  (if 6 < op then [s!"image:unknown-op:atom{index}"] else [])
    ++ (if 3 < ty then [s!"image:unknown-type:atom{index}"] else [])
    ++ (if header.fields ≤ fidx then [s!"image:field-index-oob:atom{index}"] else [])

def edgeReasons (header : PptHeader) (data : List UInt8) (index : ℕ) : List String :=
  let off := header.edgesOff + edgeSize * index
  (if header.nodes ≤ u16le data off then [s!"image:edge-target-oob:edge{index}"] else [])
    ++ (if header.progWords < u16le data (off + 2) + u16le data (off + 4) then
        [s!"image:edge-prog-oob:edge{index}"] else [])

def wordReasons (header : PptHeader) (data : List UInt8) (index : ℕ) : List String :=
  let word := u16le data (header.progOff + wordSize * index)
  (if 0x8000 ≤ word ∧ word ∉ progOpcodes then [s!"image:unknown-opcode:word{index}"] else [])
    ++ (if word < 0x8000 ∧ header.atoms ≤ word then [s!"image:atom-index-oob:word{index}"] else [])

/-- The reasons to refuse an image; it is accepted when there are none. -/
def validateImage (data : List UInt8) (caps : Option (List (Str × ℕ))) : List String :=
  match readPptHeader data with
  | .error error => [error]
  | .ok header =>
    if data.length ≠ header.need then
      ["image:length-mismatch"]
    else
      (match caps with
        | some caps => capReasons header caps
        | none => [])
        ++ (List.range header.atoms).flatMap (atomReasons header data)
        ++ (List.range header.edges).flatMap (edgeReasons header data)
        ++ (List.range header.progWords).flatMap (wordReasons header data)

/- Packs. -/

def packFormat : String :=
  "ppt-pack/1"

/-- The files of a pack as a swap finds them; `none` is a file that cannot be read. -/
structure PackFiles where
  image : Option (List UInt8)
  /-- The text of the file, which has to be UTF-8. -/
  manifest : Option (List Char)
  sig : Option (List UInt8)
  /-- The image as `verify_pack` reads it. -/
  imageAgain : Option (List UInt8)
  pubkeys : List (Option (List UInt8))

/-- `load_public` -/
def loadPublic (lib : Library) (file : Option (List UInt8)) : Option (List UInt8 × Str) :=
  match file with
  | some raw => if raw.length = 32 && lib.isKey raw then some (raw, sha256Hex lib raw) else none
  | none => none

/-- The id of the first key that verifies the signature; a key that cannot be loaded is passed over. -/
def findSigner (lib : Library) (payload sig : List UInt8) (pubkeys : List (Option (List UInt8))) : Option Str :=
  pubkeys.findSome? fun file =>
    match loadPublic lib file with
    | some (key, keyId) => if lib.verify key payload sig then some keyId else none
    | none => none

inductive Verified where
  | refused (reasons : List String) (manifest : Option Value)
  | accepted (manifest : Value)

/-- The first count that is not the header's. -/
def countMismatch (manifest : Value) (header : PptHeader) : Option String :=
  countNames.find? fun key =>
    ((manifest.get? "counts").bind fun counts => (counts.get? key).bind Value.asU64) ≠ some (header.count key)

/-- The image against the manifest: the reason to refuse it, if there is one. -/
def checkImage (lib : Library) (manifest : Value) (file : Option (List UInt8)) : Option String :=
  match file with
  | none => some "image:sha256-mismatch"
  | some image =>
    if (manifest.get? "image_sha256").bind Value.asStr ≠ some (sha256Hex lib image) then
      some "image:sha256-mismatch"
    else
      match readPptHeader image with
      | .error error => some error
      | .ok header => (countMismatch manifest header).map fun key => "manifest:count-mismatch:" ++ key

/-- The signature over the manifest: the reason to refuse it, if there is one. -/
def checkSignature (lib : Library) (revoked : List Str) (manifest : Value) (sig : List UInt8)
    (pubkeys : List (Option (List UInt8))) : Option String :=
  if sig.length ≠ 64 then
    some "sig:invalid"
  else
    match findSigner lib (canonicalBytes lib manifest) sig pubkeys with
    | none => some "sig:invalid"
    | some signerId =>
      if signerId ∈ revoked then
        some "sig:revoked-key"
      else if (manifest.get? "key_id").bind Value.asStr ≠ some signerId then
        some "manifest:key-id-mismatch"
      else
        none

def verifyPack (lib : Library) (revoked : List Str) (files : PackFiles) : Verified :=
  match files.manifest, files.sig with
  | some text, some sig =>
    match lib.fromStr text with
    | none => .refused ["sig:missing"] none
    | some manifest =>
      if (manifest.get? "format").bind Value.asStr ≠ some (str packFormat) then
        .refused ["manifest:bad-format"] (some manifest)
      else
        match checkSignature lib revoked manifest sig files.pubkeys with
        | some reason => .refused [reason] (some manifest)
        | none =>
          match checkImage lib manifest files.imageAgain with
          | some reason => .refused [reason] (some manifest)
          | none => .accepted manifest
  | _, _ => .refused ["sig:missing"] none

/- Envelopes. -/

/-- The caps of an envelope: what is no 64 bit integer is left out. -/
def capsOf (envelope : Value) : Option (List (Str × ℕ)) :=
  ((envelope.get? "caps").bind Value.asObject).map fun caps =>
    caps.filterMap fun (name, v) => v.asU64.map fun limit => (name, limit)

/-- The finding about one field of the manifest, its name in the reason. -/
def fieldReason (envFields : List (Str × Value)) (name : Str) (kind : Value) : Option (String × Str) :=
  match envFields.lookup name with
  | none => some ("envelope:unknown-field:", name)
  | some envKind => if envKind.same kind then none else some ("envelope:field-kind-mismatch:", name)

/-- A reason as it is printed. -/
def reasonText (reason : String × Str) : Str :=
  str reason.1 ++ reason.2

/-- The reasons to refuse a manifest and its image under an envelope. -/
def checkEnvelope (manifest : Value) (image : List UInt8) (envelope : Value) : List Str :=
  let id := if Value.sameOpt (manifest.get? "envelope_id") (envelope.get? "envelope_id") then []
    else [str "envelope:id-mismatch"]
  let envFields := ((envelope.get? "fields").bind Value.asObject).getD []
  let fields := ((manifest.get? "fields").bind Value.asObject).getD []
  let kinds := (fields.filterMap fun (name, kind) => fieldReason envFields name kind).map reasonText
  id ++ kinds ++ (validateImage image (some ((capsOf envelope).getD defaultCaps))).map str

end Pack

end Rust
