import PrismPath.Lib.Dict
import PrismPath.Lib.Process
import PrismPath.Routing.LockFile

/-!
This module contains the locks of a composition tree: locking the flows that a flow spawns before it and pinning them in
its lock, and the check of a tree against its pins. What the check promises about the files is compared with what was
locked.
-/

open Python Json

namespace LockFile

variable {C : Type} (lib : Library C)

/- The edges of the tree. -/

/-- `cref if os.path.isabs(cref) else os.path.normpath(os.path.join(base, cref))` -/
def childPath (flowPath cref : Str) : Str :=
  if isabs cref then cref else normpath (Composer.pathJoin (dirname (abspath lib flowPath)) cref)

/-- `spawn.get("child")` of the node's spawn, where both are there. -/
def spawned (node : Parser.Node) : Option Str :=
  match node.annotations.lookup "spawn" with
  | none => none
  | some spawn =>
    match spawn.lookup "child" with
    | some (some child) => if child = "" then none else some (str child)
    | _ => none

/-- `_spawn_children` -/
def spawnChildren (fs : Files) (flowPath : Str) : Except Error (List (Str × Str)) := do
  let graph ← lib.parseFile (← fs.read lib flowPath)
  return (graph.nodes.filterMap spawned).map fun cref => (childPath lib flowPath cref, cref)

/- Locking. -/

/-- A flow as it was locked. -/
structure Visit where
  path : Str
  text : Bytes
  lock : Obj

/-- The `children` of a lock, with the visits below each of them. -/
abbrev Children : Type := List (Str × Obj × List Visit)

def Children.obj (children : Children) : Obj :=
  .dict (children.map fun (cref, pin, _) => (.str cref, pin))

def Children.visits (children : Children) : List Visit :=
  children.flatMap fun (_, _, visits) => visits

def pinOf (flowHash : Obj) (lockHash : Str) : Obj :=
  record [("flow_hash", flowHash), ("lock_hash", .str lockHash)]

/-- One turn of the loop over the children; `lockTree` locks the child itself. -/
def lockChild (lockTree : Files → Str → Except Error (Files × Visit × List Visit)) (state : Files × Children)
    (child : Str × Str)
    : Except Error (Files × Children) :=
  if !state.1.exist lib child.1 then
    .error (.lockError .childNotFound)
  else do
    let (fs, visit, below) ← lockTree state.1 child.1
    let fs ← saveLock lib fs child.1 visit.lock
    let flowHash ← ofPython (visit.lock.field "flow_hash")
    let pin := pinOf flowHash (← lockHash lib visit.lock)
    return (fs, Dict.set state.2 child.2 (pin, visit :: below))

/--
`lock_tree`, which saves the locks of the children, with the visit of the flow and those below it. `limit` is the number
of calls inside each other that the recursion limit leaves.
-/
def lockTree (delta : Option Float64)
    : ℕ → Learned C → List Str → Files → Str → Except Error (Files × Visit × List Visit)
  | 0, _, _, _, _ => .error .recursionError
  | limit + 1, learned, seen, fs, flowPath =>
    let path := abspath lib flowPath
    if path ∈ seen then
      .error (.lockError .cyclicComposition)
    else do
      let kids ← spawnChildren lib fs flowPath
      let (fs, children) ← kids.foldlM (lockChild lib (lockTree delta limit .none (path :: seen))) (fs, [])
      let text ← fs.read lib flowPath
      let lock ← buildLock lib fs flowPath delta learned
      let lock := if children = [] then lock else lock ++ [("children", children.obj)]
      return (fs, ⟨flowPath, text, record lock⟩, children.visits)

/-- `_tree_fail`, and the check goes on without success. -/
def treeFail (policy : Policy) (detail : Detail) : Except Error Bool :=
  match policy with
  | .allow | .warn => .ok false
  | .refuse => .error (.lockError detail)

/-- `(lock.get("children") or {}).items()` -/
def childrenOf (lock : Obj) : Except Error (List (Key × Obj)) := do
  let children ← ofPython (lock.get "children" .none)
  if isTrue children then
    match children with
    | .dict kvs => return kvs
    | _ => throw (.python .attributeError)
  else
    return []

def checkLock (policy : Policy) (childLock pin : Obj) (ok : Bool) : Except Error Bool := do
  let hash ← lockHash lib childLock
  if isStr (← ofPython (pin.get "lock_hash" .none)) hash then
    return ok
  else
    treeFail policy .childLockChanged

def checkFlow (policy : Policy) (fs : Files) (cpath : Str) (pin : Obj) (ok : Bool) : Except Error Bool :=
  if fs.exist lib cpath then do
    let hash ← flowHash lib fs cpath
    if isStr (← ofPython (pin.get "flow_hash" .none)) hash then
      return ok
    else
      treeFail policy .childFlowChanged
  else
    .ok ok

/-- One turn of the loop over the pins; `verifyTree` verifies the child itself. -/
def verifyChild (verifyTree : Str → Except Error Bool) (policy : Policy) (fs : Files) (flowPath : Str) (ok : Bool)
    (child : Key × Obj)
    : Except Error Bool :=
  match child.1 with
  | .str cref =>
    let cpath := childPath lib flowPath cref
    if !fs.exist lib (lockPath cpath) then
      treeFail policy .childLockMissing
    else do
      let childLock ← loadLock lib fs (lockPath cpath)
      let ok ← checkLock lib policy childLock child.2 ok
      let ok ← checkFlow lib policy fs cpath child.2 ok
      return (← verifyTree cpath) && ok
  | _ => .error (.python .typeError)

def verifyTree (policy : Policy) (fs : Files) : ℕ → Str → Except Error Bool
  | 0, _ => .error .recursionError
  | limit + 1, flowPath => do
    let lock ← loadLock lib fs (lockPath flowPath)
    let ok ← verifyLock lib policy lock
    let children ← childrenOf lock
    children.foldlM (verifyChild lib (verifyTree policy fs limit) policy fs flowPath) ok

/- What verifying finds where it refuses. -/

variable {lib}

/-- What the lock of a flow has to be for the check to go on to the children, and what it pins then. -/
def Accepted (lib : Library C) (fs : Files) (flowPath : Str) (children : List (Key × Obj)) : Prop :=
  ∃ lock, loadLock lib fs (lockPath flowPath) = .ok lock ∧ verifyLock lib .refuse lock = .ok true
    ∧ childrenOf lock = .ok children

/-- The pins lead from one flow to the other in so many steps, as the files are. -/
inductive Reaches (lib : Library C) (fs : Files) : ℕ → Str → Str → Prop where
  | refl (flowPath : Str) : Reaches lib fs 0 flowPath flowPath
  | child {flowPath p cref : Str} {pin : Obj} {children : List (Key × Obj)} {n : ℕ}
      (haccepted : Accepted lib fs flowPath children) (hmem : (.str cref, pin) ∈ children)
      (hrest : Reaches lib fs n (childPath lib flowPath cref) p)
      : Reaches lib fs (n + 1) flowPath p

/-- The locks have one text with sorted keys, the one that is hashed. -/
def SameLock (v w : Obj) : Prop :=
  ∃ cs, dumpsSorted v = some cs ∧ dumpsSorted w = some cs

/-- The text and the lock of the flow are what they were when it was locked. -/
structure Kept (lib : Library C) (fs : Files) (visit : Visit) : Prop where
  text : fs.read lib visit.path = .ok visit.text
  lock : ∃ lock, loadLock lib fs (lockPath visit.path) = .ok lock ∧ SameLock lock visit.lock

end LockFile
