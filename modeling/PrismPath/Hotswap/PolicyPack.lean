import PrismPath.Hw.TableFormat
import PrismPath.Python.Value

/-!
This module contains signed policy packs: the check of a table image against the format and the caps, the
check of a pack against the trusted keys, and the check of a manifest against the envelope.
-/

open Python Bytes TableFormat

namespace PolicyPack

inductive Raised where
  | attributeError
  | keyError
  | typeError
  | valueError
  | osError
  | structError
  | runtimeError
  | auditWriteError
  | statementWriteError
  | swapRejected (reasons : List String)
  deriving DecidableEq

/-- What the packs take from their libraries as it is: the hash, the signatures and the JSON texts. -/
structure Library where
  sha256Hex : List UInt8 → String
  /-- Whether the raw public key verifies the signature of the payload. -/
  verify : List UInt8 → List UInt8 → String → Bool
  /-- `json.load` of a file's text, or `none` for a `ValueError`. -/
  loads : String → Option Value
  /-- The canonical JSON text, which is ASCII. -/
  canonicalBytes : List (String × Value) → String
  str : Value → String

structure Header where
  fields : Nat
  interns : Nat
  atoms : Nat
  nodes : Nat
  edges : Nat
  progWords : Nat
  start : Nat
  visitsIdx : Nat
  maxSteps : Nat
  maxStack : Nat
  flags : Nat
  safeNode : Nat
  migrateByName : Bool
  stateful : Bool
  deriving DecidableEq

/-- The fields of the header in the order they are stored, the magic first. -/
def headerWords (data : List UInt8) : Option (List Nat) := do
  let word ← u32? data 0
  let words ← (List.range 12).mapM fun i => u16? data (4 + 2 * i)
  return word :: words

def readPptHeader (data : List UInt8) : Except String Header :=
  match headerWords data with
  | some [word, version, fields, interns, atoms, nodes, edges, progWords, start, visitsIdx, maxSteps,
      maxStack, flagword] =>
    if word ≠ magic then
      .error "image:bad-magic"
    else if version ≠ formatVersion then
      .error "image:bad-version"
    else
      -- the low byte of the last word holds the flags, the high byte the safe node
      .ok {
        fields, interns, atoms, nodes, edges, progWords, start, visitsIdx, maxSteps, maxStack
        flags := flagword % 2 ^ 8
        safeNode := flagword / 2 ^ 8
        migrateByName := flagword.testBit 1
        stateful := flagword.testBit 3
      }
  | _ => .error "image:truncated-header"

def Header.nodeAttr (header : Header) : Bool :=
  header.flags.testBit 0

def Header.nodeNames (header : Header) : Bool :=
  header.flags.testBit 2

def Header.nodesOff (header : Header) : Nat :=
  headerSize + atomSize * header.atoms

def Header.edgesOff (header : Header) : Nat :=
  header.nodesOff + nodeSize * header.nodes

def Header.progOff (header : Header) : Nat :=
  header.edgesOff + edgeSize * header.edges

def Header.attrsOff (header : Header) : Nat :=
  header.progOff + wordSize * header.progWords

def Header.need (header : Header) : Nat :=
  header.attrsOff
    + (if header.nodeAttr then wordSize * header.nodes else 0)
    + (if header.nodeNames then 4 * header.nodes else 0)

/-- The counts of a header the caps bound, each with its key. -/
def Header.capped (header : Header) : List (String × Nat) :=
  [("atoms", header.atoms), ("nodes", header.nodes), ("edges", header.edges),
    ("prog_words", header.progWords), ("max_steps", header.maxSteps), ("max_stack", header.maxStack)]

def defaultCaps : List (String × Value) :=
  [("atoms", .int 1024), ("nodes", .int 256), ("edges", .int 1024), ("prog_words", .int 4096),
    ("max_steps", .int 25), ("max_stack", .int 16)]

def capReasons (header : Header) (caps : List (String × Value)) : Except Raised (List String) := do
  let reasons ← header.capped.mapM fun (key, count) =>
    let cap := (caps.lookup key).getD ((defaultCaps.lookup key).getD .none)
    match (Value.int count).order .gt cap with
    | some true => .ok ["image:caps-exceeded:" ++ key]
    | some false => .ok []
    | none => .error .typeError
  return reasons.flatten

def reasonIf (broken : Bool) (reason : String) : List String :=
  if broken then [reason] else []

/-- The findings of a loop over `count` records of one size; the length check leaves no record unread. -/
def walk {α : Type} (count size off : Nat) (at? : Nat → Option α) (findings : Nat → α → List String)
    : List String :=
  (List.range count).flatMap fun i => ((at? (off + size * i)).map (findings i)).getD []

def atomReasons (header : Header) (index : Nat) (atom : Atom) : List String :=
  reasonIf (7 ≤ atom.op) s!"image:unknown-op:atom{index}"
    ++ reasonIf (4 ≤ atom.ty) s!"image:unknown-type:atom{index}"
    ++ reasonIf (header.fields ≤ atom.field) s!"image:field-index-oob:atom{index}"

def edgeReasons (header : Header) (index : Nat) (edge : Edge) : List String :=
  reasonIf (header.nodes ≤ edge.target) s!"image:edge-target-oob:edge{index}"
    ++ reasonIf (header.progWords < edge.progOff + edge.progCnt) s!"image:edge-prog-oob:edge{index}"

def wordReasons (header : Header) (index : Nat) (word : Nat) : List String :=
  reasonIf (0x8000 ≤ word && word ∉ progOpcodes) s!"image:unknown-opcode:word{index}"
    ++ reasonIf (word < 0x8000 && header.atoms ≤ word) s!"image:atom-index-oob:word{index}"

def attrReasons (index : Nat) (attr : Nat) : List String :=
  reasonIf (0x3F < attr) s!"image:node-attr-oob:node{index}"

/-- The reasons to refuse an image; it is accepted when there are none. The node records are not read. -/
def validateImage (data : List UInt8) (caps : Value) : Except Raised (List String) :=
  match readPptHeader data with
  | .error reason => .ok [reason]
  | .ok header =>
    let safeNode := reasonIf (header.safeNode ≠ 0 && header.nodes ≤ header.safeNode) "image:safe-node-oob"
    if data.length ≠ header.need then
      .ok (safeNode ++ ["image:length-mismatch"])
    else do
      let capped ←
        if !caps.truthy then
          .ok []
        else
          match caps with
          | .dict caps => capReasons header caps
          | _ => .error .attributeError
      return safeNode ++ capped
        ++ walk header.atoms atomSize headerSize (atomAt? data) (atomReasons header)
        ++ walk header.edges edgeSize header.edgesOff (edgeAt? data) (edgeReasons header)
        ++ walk header.progWords wordSize header.progOff (u16? data) (wordReasons header)
        ++ if header.nodeAttr then walk header.nodes wordSize header.attrsOff (u16? data) attrReasons else []

/-- The cycles of an evaluation: two an edge and one a word, a program without words counting as one word. -/
def edgeCycles (progCnts : List Nat) : Nat :=
  (progCnts.map fun progCnt => 2 + max progCnt 1).sum + 2

def wcetCycles (data : List UInt8) : Except Raised Nat :=
  match readPptHeader data with
  | .error _ => .error .valueError
  | .ok header =>
    let nodes? := (List.range header.nodes).mapM fun i => nodeAt? data (header.nodesOff + nodeSize * i)
    let edges? := (List.range header.edges).mapM fun i => edgeAt? data (header.edgesOff + edgeSize * i)
    match nodes?, edges? with
    | some nodes, some edges =>
      let progCnts := edges.map Edge.progCnt
      .ok <| (nodes.map fun node => edgeCycles ((progCnts.drop node.edgeOff).take node.edgeCnt)).foldl max 0
    | _, _ => .error .structError

/-- The files of a pack, as they are at one moment; `none` is a file that cannot be opened. -/
structure PackFiles where
  image : Option (List UInt8)
  /-- The text of the file, or `none` where its bytes are no text. -/
  manifest : Option (Option String)
  sig : Option (List UInt8)
  spiral : Option (List UInt8)

/-- The moments at which a swap looks at a pack's files, in their order. -/
inductive Moment where
  | image
  | manifestExists
  | sigExists
  | manifest
  | sig
  | imageAgain
  | spiralExists
  | spiral
  deriving DecidableEq

inductive Verified where
  | refused (reasons : List String) (manifest : Option (List (String × Value)))
  | accepted (manifest : List (String × Value))

/-- `manifest.get(key)`. -/
def get (manifest : List (String × Value)) (key : String) : Value :=
  (manifest.lookup key).getD .none

def openFile {α : Type} (file : Option α) : Except Raised α :=
  match file with
  | some data => .ok data
  | none => .error .osError

def readManifestText (file : Option (Option String)) : Except Raised String :=
  match file with
  | some (some text) => .ok text
  | some none => .error .valueError
  | none => .error .osError

/-- `load_public`. A key file that is not a raw key of 32 bytes raises. -/
def loadPublic (lib : Library) (file : Option (List UInt8)) : Except Raised (List UInt8 × String) := do
  let raw ← openFile file
  if raw.length ≠ 32 then .error .valueError else return (raw, lib.sha256Hex raw)

/-- The id of the first key that verifies the signature. -/
def findSigner (lib : Library) (sig : List UInt8) (payload : String)
    : List (Option (List UInt8)) → Except Raised (Option String)
  | [] => .ok none
  | file :: files => do
    let (pub, keyId) ← loadPublic lib file
    if lib.verify pub sig payload then return some keyId else findSigner lib sig payload files

/-- `counts.get(key) != header[key]` for the first key it holds of. -/
def countMismatch (header : Header) (counts : List (String × Value)) : Option String :=
  (header.capped.find? fun (key, count) => !(get counts key).eq (.int count)).map Prod.fst

def checkCounts (manifest : List (String × Value)) (header : Header) : Except Raised (List String) :=
  match (manifest.lookup "counts").getD (.dict []) with
  | .dict counts => .ok ((countMismatch header counts).map fun key => "manifest:count-mismatch:" ++ key).toList
  | _ => .error .attributeError

def checkWcet (manifest : List (String × Value)) (image : List UInt8) : Except Raised (List String) :=
  match manifest.lookup "wcet_cycles" with
  | none => .ok []
  | some wcet => do
    let cycles ← wcetCycles image
    return reasonIf (!wcet.eq (.int cycles)) "manifest:wcet-mismatch"

def checkPacking (lib : Library) (files : Moment → PackFiles) (manifest : List (String × Value))
    : Except Raised (List String) :=
  match manifest.lookup "packing" with
  | none => .ok []
  | some (.dict packing) =>
    if !(get packing "profile").eq (.str "spiral") then
      .ok ["packing:unknown-profile"]
    else if (files .spiralExists).spiral.isNone then
      .ok ["spiral:sidecar-missing"]
    else do
      let sidecar ← openFile (files .spiral).spiral
      return reasonIf (!(Value.str (lib.sha256Hex sidecar)).eq (get packing "sidecar_sha256"))
        "spiral:sidecar-hash-mismatch"
  | some _ => .error .attributeError

/-- The image against the manifest; the first reason found is the one returned. -/
def checkImage (lib : Library) (files : Moment → PackFiles) (manifest : List (String × Value))
    : Except Raised (List String) := do
  let image ← openFile (files .imageAgain).image
  if !(Value.str (lib.sha256Hex image)).eq (get manifest "image_sha256") then
    return ["image:sha256-mismatch"]
  match readPptHeader image with
  | .error _ => .error .valueError
  | .ok header =>
    let counts ← checkCounts manifest header
    if counts ≠ [] then
      return counts
    let wcet ← checkWcet manifest image
    if wcet ≠ [] then
      return wcet
    checkPacking lib files manifest

/-- The signature over the manifest: the reason to refuse it, or none. -/
def checkSignature (lib : Library) (pubkeys : List (Option (List UInt8))) (revoked : List String)
    (sig : List UInt8) (manifest : List (String × Value)) : Except Raised (List String) := do
  match ← findSigner lib sig (lib.canonicalBytes manifest) pubkeys with
  | none => return ["sig:invalid"]
  | some signerId =>
    if signerId ∈ revoked then
      return ["sig:revoked-key"]
    else
      return reasonIf (!(get manifest "key_id").eq (.str signerId)) "manifest:key-id-mismatch"

def verifyPack (lib : Library) (pubkeys : List (Option (List UInt8))) (revoked : List String)
    (files : Moment → PackFiles) : Except Raised Verified := do
  if (files .manifestExists).manifest.isNone || (files .sigExists).sig.isNone then
    return .refused ["sig:missing"] none
  let text ← readManifestText (files .manifest).manifest
  match lib.loads text with
  | none => .error .valueError
  | some loaded =>
    let sig ← openFile (files .sig).sig
    match loaded with
    | .dict manifest =>
      if !(get manifest "format").eq (.str "ppt-pack/1") then
        return .refused ["manifest:bad-format"] (some manifest)
      let signature ← checkSignature lib pubkeys revoked sig manifest
      if signature ≠ [] then
        return .refused signature (some manifest)
      let image ← checkImage lib files manifest
      if image ≠ [] then
        return .refused image (some manifest)
      return .accepted manifest
    | _ => .error .attributeError

/-- The finding about one field of the manifest. -/
def fieldReason (envFields : Value) (name : String) (kind : Value) : Except Raised (List String) :=
  match envFields.contains (.str name) with
  | none => .error .typeError
  | some false => .ok ["envelope:unknown-field:" ++ name]
  | some true =>
    match envFields with
    | .dict fields => .ok (reasonIf (!(get fields name).eq kind) ("envelope:field-kind-mismatch:" ++ name))
    | _ => .error .typeError

/-- The reasons to refuse a manifest and its image under an envelope. -/
def checkEnvelope (manifest : List (String × Value)) (image : List UInt8) (envelope : List (String × Value))
    : Except Raised (List String) := do
  let id := reasonIf (!(get manifest "envelope_id").eq (get envelope "envelope_id")) "envelope:id-mismatch"
  let envFields := (envelope.lookup "fields").getD (.dict [])
  match (manifest.lookup "fields").getD (.dict []) with
  | .dict fields =>
    let kinds ← fields.mapM fun (name, kind) => fieldReason envFields name kind
    let image ← validateImage image ((envelope.lookup "caps").getD (.dict defaultCaps))
    return id ++ kinds.flatten ++ image
  | _ => .error .attributeError

end PolicyPack
