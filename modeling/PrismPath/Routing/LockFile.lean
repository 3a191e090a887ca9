import PrismPath.Kernel.Parser
import PrismPath.Lib.JsonIndent
import PrismPath.Python.Alike
import PrismPath.Workers.ChildPaths

/-!
This module contains the routing lock of one flow: what a lock commits, how it is saved and loaded, and the check that
the embedder still is the one it was made with.
-/

open Python Json

namespace LockFile

abbrev Bytes : Type := List UInt8

/-- What a `LockError` is about. -/
inductive Detail where
  | version
  | embedderDrift
  | cyclicComposition
  | childNotFound
  | childLockMissing
  | childLockChanged
  | childFlowChanged

inductive Error where
  | lockError (detail : Detail)
  | osError
  | parseError
  | recursionError
  | embedderError
  | python (e : Python.Error)

def ofPython {α : Type} : Except Python.Error α → Except Error α
  | .ok a => .ok a
  | .error e => .error (.python e)

/- Files. -/

inductive Entry where
  | file (data : Bytes)
  | directory

/-- What there is at an absolute path. -/
abbrev Files : Type := Str → Option Entry

/-- `os.path.dirname(path)` -/
def dirname (path : Str) : Str :=
  let head := (path.reverse.dropWhile fun c => c ≠ 47).reverse
  if head.all fun c => c = 47 then head else (head.reverse.dropWhile fun c => c = 47).reverse

/-- `os.path.isabs(path)` -/
def isabs (path : Str) : Bool :=
  path.head? = some 47

/-- The components that stay, the last one first. -/
def normComponents (absolute : Bool) : List Str → List Str → List Str
  | kept, [] => kept
  | kept, comp :: comps =>
    if comp = [] ∨ comp = str "." then
      normComponents absolute kept comps
    else if comp ≠ str ".." ∨ (absolute = false ∧ kept = []) ∨ kept.head? = some (str "..") then
      normComponents absolute (comp :: kept) comps
    else
      normComponents absolute kept.tail comps

/-- `os.path.normpath(path)` -/
def normpath (path : Str) : Str :=
  let slashes := path.takeWhile fun c => c = 47
  let root := if slashes.length = 2 then slashes else slashes.take 1
  let comps := (normComponents (isabs path) [] (path.splitOn 47)).reverse
  let result := root ++ (str "/").intercalate comps
  if result = [] then str "." else result

variable {C : Type}

/-- What a lock takes from its libraries as it is. -/
structure Embedder (C : Type) where
  modelName : Option Str
  device : Option Str
  provider : Option Str
  precision : Option Str
  dim : ℕ
  /-- The vectors of the texts, each encoded. -/
  embed : List Str → Except Error (List Str)
  /-- The vector of a condition blended with the centroid of so many outcomes, encoded. -/
  blend : Float64 → Str → ℤ → C → Str
  /-- Whether the vector of a text and the encoded vector have a cosine of at least `LOCK_COSINE_MIN`. -/
  reproduces : Obj → Obj → Except Error Bool

structure Library (C : Type) where
  sha256 : Bytes → Bytes
  /-- `parse_file` on a file of these bytes. -/
  parseFile : Bytes → Except Error Parser.Graph
  embedder : Embedder C
  /-- The working directory. -/
  cwd : Str

variable (lib : Library C)

/-- `os.path.abspath(path)` -/
def abspath (path : Str) : Str :=
  normpath (if isabs path then path else Composer.pathJoin lib.cwd path)

def Files.exist (fs : Files) (path : Str) : Bool :=
  (fs (abspath lib path)).isSome

def Files.read (fs : Files) (path : Str) : Except Error Bytes :=
  match fs (abspath lib path) with
  | some (.file data) => .ok data
  | _ => .error .osError

/-- `canon.atomic_write` -/
def Files.write (fs : Files) (path : Str) (data : Bytes) : Except Error Files :=
  match fs (abspath lib path) with
  | some .directory => .error .osError
  | _ => .ok fun q => if q = abspath lib path then some (.file data) else fs q

def utf8 (cs : Text) : Bytes :=
  (String.ofList cs).toUTF8.data.toList

def decodeUtf8 (data : Bytes) : Option Text :=
  (String.fromUTF8? ⟨data.toArray⟩).map String.toList

/- Hashes. -/

def sha256Prefixed (data : Bytes) : Str :=
  str "sha256:" ++ hex (lib.sha256 data)

def flowHash (fs : Files) (flowPath : Str) : Except Error Str := do
  return sha256Prefixed lib (← fs.read lib flowPath)

/-- `_lock_hash` -/
def lockHash (lock : Obj) : Except Error Str :=
  match dumpsSorted lock with
  | some cs => .ok (sha256Prefixed lib (utf8 cs))
  | none => .error (.python .typeError)

def lockPath (flowPath : Str) : Str :=
  Composer.splitextRoot flowPath ++ str ".lock"

/- Building a lock. -/

def semanticConditions (graph : Parser.Graph) : List String :=
  let conds := (graph.nodes.flatMap fun node => node.edges.map Parser.Edge.condition).filter Predicates.isSemantic
  conds.dedup.mergeSort fun a b => decide (a ≤ b)

def probe : Str :=
  str "prismpath routing lockfile embedder fingerprint probe sentence"

def defaultDelta : Float64 :=
  .ofNumber ⟨false, 0, ⟨['0', '5'], List.all_eq_true.mp rfl⟩, none⟩

def embedderObj (name device provider precision : Str) (dim : ℕ) (probeVec : Str) : Obj :=
  record [
    ("name", .str name),
    ("device", .str device),
    ("provider", .str provider),
    ("precision", .str precision),
    ("dim", .int dim),
    ("probe", .str probe),
    ("probe_vec", .str probeVec)]

def Embedder.obj (e : Embedder C) (probeVec : Str) : Obj :=
  embedderObj (e.modelName.getD (str "unknown")) (e.device.getD (str "unknown"))
    (e.provider.getD (str "sentence-transformers")) (e.precision.getD (str "fp32")) e.dim probeVec

/-- Without an embedder: 384 zeros. -/
def noEmbedder : Obj :=
  embedderObj (str "none") (str "none") (str "none") (str "fp32") 384 (ofText (List.replicate 2048 'A'))

/-- `embedder.embed([text])[0]` -/
def Embedder.embedOne (e : Embedder C) (text : Str) : Except Error Str := do
  match ← e.embed [text] with
  | vec :: _ => return vec
  | [] => throw (.python .indexError)

/-- The embedder as the lock commits it, and the vectors of the conditions. -/
def embedConditions (conds : List String) : Except Error (Obj × List Str) :=
  match conds with
  | [] =>
    match lib.embedder.embedOne probe with
    | .ok probeVec => .ok (lib.embedder.obj probeVec, [])
    | .error _ => .ok (noEmbedder, [])
  | _ => do
    let vecs ← lib.embedder.embed (conds.map str)
    let probeVec ← lib.embedder.embedOne probe
    return (lib.embedder.obj probeVec, vecs)

/-- The learned routing that a lock pins: centroids by condition, and of how many outcomes each is the mean. -/
structure Learned (C : Type) where
  centroids : List (String × C)
  counts : List (String × ℤ)
  priorWeight : Float64

def Learned.none : Learned C :=
  ⟨[], [], .ofNumber ⟨false, 4, noDigits, Option.none⟩⟩

def pinned (learned : Learned C) (conds : List String) : List (String × Obj) :=
  conds.filterMap fun cond =>
    (learned.centroids.lookup cond).map fun centroid =>
      let count := (learned.counts.lookup cond).getD 1
      (cond, record [
        ("vec", .str (lib.embedder.blend learned.priorWeight (str cond) count centroid)),
        ("n", .int count)])

/-- `build_lock` -/
def buildLock (fs : Files) (flowPath : Str) (delta : Option Float64) (learned : Learned C)
    : Except Error (List (String × Obj)) := do
  let graph ← lib.parseFile (← fs.read lib flowPath)
  let conds := semanticConditions graph
  let (embedder, vecs) ← embedConditions lib conds
  let lock := [
    ("version", .int 1),
    ("flow", .str (str graph.name)),
    ("flow_hash", .str (← flowHash lib fs flowPath)),
    ("embedder", embedder),
    ("delta", .float (delta.getD defaultDelta)),
    ("conditions", record (conds.zip (vecs.map .str)))]
  let pins := pinned lib learned conds
  if pins = [] then
    return lock
  else
    return lock ++ [("centroids", record pins), ("centroid_prior_weight", .float learned.priorWeight)]

/- Saving and loading. -/

/-- `save_lock` -/
def saveLock (fs : Files) (flowPath : Str) (lock : Obj) : Except Error Files :=
  match lock.sortedTree with
  | some t => fs.write lib (lockPath flowPath) (utf8 (writeIndented 0 t))
  | none => .error (.python .typeError)

/-- `v == 1` -/
def isOne : Obj → Bool
  | .int n => n = 1
  | .bool b => b
  | .float x => x.num.eq (.finite 1)
  | _ => false

/-- `load_lock`. A reader of JSON takes any line ending for a space, so that they stay as they are. -/
def loadLock (fs : Files) (path : Str) : Except Error Obj := do
  let data ← fs.read lib path
  match (decodeUtf8 data).bind loads with
  | none => throw (.python .valueError)
  | some lock =>
    if isOne (← ofPython (lock.get "version" .none)) then
      return lock
    else
      throw (.lockError .version)

/- Verifying. -/

/-- `bool(v)` -/
def isTrue : Obj → Bool
  | .none => false
  | .bool b => b
  | .int n => n ≠ 0
  | .float x => !x.num.eq (.finite 0)
  | .str s => s ≠ []
  | .list vs => !vs.isEmpty
  | .dict kvs => !kvs.isEmpty

def isStr (v : Obj) (s : Str) : Bool :=
  match v with
  | .str t => t = s
  | _ => false

/-- What a policy is spelled like that is neither of the first two, refuses. -/
inductive Policy where
  | allow
  | warn
  | refuse

/-- There are no conditions, and the lock was made without an embedder. -/
def isBare (lock : Obj) : Except Error Bool := do
  if isTrue (← ofPython (lock.get "conditions" .none)) then
    return false
  else
    let embedder ← ofPython (lock.get "embedder" (.dict []))
    return isStr (← ofPython (embedder.get "name" .none)) (str "none")

/-- Whether `v[name]` is the value, if there is any. -/
def agrees (v : Obj) (name : String) (value : Str) : Except Error Bool :=
  match ofPython (v.field name) with
  | .ok w => .ok (isStr w value)
  | .error (.python .keyError) => .ok true
  | .error e => .error e

/-- The probe is embedded as it was; without conditions it need not be embedded at all. -/
def probeHolds (lock embedder : Obj) : Except Error Bool := do
  let found := do
    let locked ← ofPython (embedder.field "probe_vec")
    let text ← ofPython (embedder.get "probe" (.str probe))
    lib.embedder.reproduces locked text
  match found with
  | .ok holds => return holds
  | .error e => if isTrue (← ofPython (lock.get "conditions" .none)) then throw e else return true

/-- `verify_lock` -/
def verifyLock (policy : Policy) (lock : Obj) : Except Error Bool := do
  if ← isBare lock then
    return true
  else
    let embedder ← ofPython (lock.field "embedder")
    let name ← ofPython (embedder.field "name")
    let nameOk := match lib.embedder.modelName with
      | some modelName => isStr name modelName
      | none => name matches .none
    let providerOk ← agrees embedder "provider" (lib.embedder.provider.getD (str "sentence-transformers"))
    let precisionOk ← agrees embedder "precision" (lib.embedder.precision.getD (str "fp32"))
    let probeOk ← probeHolds lib lock embedder
    if nameOk && providerOk && precisionOk && probeOk then
      return true
    else
      match policy with
      | .allow | .warn => return false
      | .refuse => throw (.lockError .embedderDrift)

end LockFile
