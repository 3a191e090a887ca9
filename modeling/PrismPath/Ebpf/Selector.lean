import PrismPath.Ebpf.KernelAgreement

/-!
This module contains the resident selector: packet handlers that advance one shared word by compare and swap, and the
swaps that move the word to another policy while they run.
-/

open Evaluator PptImage PptKernel

namespace PptSelect

def selMaxRetry : Nat := 4

/-- An image a loader accepted. -/
abbrev Policy : Type :=
  { im : Image // ∃ data, parseImageBuf data = some im }

/-- `struct ppt_sel_state`; every access of it is under its lock. -/
structure SelState where
  cur : Nat
  inited : Bool
  gen : BitVec 32
  deriving DecidableEq

def SelState.resident (word : SelState) (failsafe : Nat) : Nat :=
  if word.inited then word.cur else failsafe

/-- The declared safe node, or else the last one. -/
def failsafeNode (safe nodes : Nat) : Nat :=
  if safe ≠ 0 then safe else nodes - 1

def failsafe (policy : Policy) : Nat :=
  failsafeNode policy.1.safe policy.1.nodes.length

/-- Where the handler of a packet stands; `object` is the loaded program that runs it. -/
inductive Handler where
  | waiting
  | ready (object failsafe attempt : Nat)
  | evaluating (object failsafe attempt cur : Nat) (gen : BitVec 32) (rest : Kernel (Option (Nat × Nat)))
  | done

/-- Where a swap stands: `word` is the word it read, `migrated` the node it will write back. -/
inductive Swap where
  | idle
  | writing (object : Nat) (new : Policy) (word : SelState) (cur migrated : Nat) (pending : List Write)
  | placed (object : Nat)

/-- What the shared word went through. -/
inductive Event where
  | commit (packet : Nat) (seq : BitVec 32) (prev next : Nat)
  | migration (gen : BitVec 32) (new : Policy) (prev next : Nat)
  deriving DecidableEq

/-- Every program has tables of its own and the word is shared; `inForce` is the policy the word was last written for. -/
structure System where
  maps : Nat → Maps
  attached : Nat
  sel : SelState
  handlers : Nat → Handler
  swaps : Nat → Swap
  inForce : Policy
  /-- The latest first. -/
  log : List Event

def System.setHandler (s : System) (i : Nat) (h : Handler) : System :=
  { s with handlers := Function.update s.handlers i h }

def System.setSwap (s : System) (j : Nat) (swap : Swap) : System :=
  { s with swaps := Function.update s.swaps j swap }

section

variable (hash : List UInt8 → Nat) (packets : Nat → Packet)

/-- The next step of the handler of one packet. -/
def handle (s : System) (i : Nat) : System :=
  match s.handlers i with
  | .waiting =>
    let config := s.maps s.attached (.config 0)
    s.setHandler i (.ready s.attached (failsafeNode config.safeNode config.nodes) 0)
  | .ready object failsafe attempt =>
    if attempt < selMaxRetry then
      -- the snapshot under the lock; the evaluation after it is not
      let cur := s.sel.resident failsafe
      let rest := evaluate (loadRegs (packets i)) (packets i).fieldCount 0 cur
      s.setHandler i (.evaluating object failsafe attempt cur s.sel.gen rest)
    else
      s.setHandler i .done
  | .evaluating object failsafe attempt cur gen rest =>
    match rest with
    | .read k next => s.setHandler i (.evaluating object failsafe attempt cur gen (next ((s.maps object).lookup 1 k)))
    | .done none => s.setHandler i .done
    | .done (some (_, target)) =>
      if s.sel.gen = gen then
        { s.setHandler i .done with
          sel := { cur := target, inited := true, gen := gen + 1 }
          log := .commit i (gen + 1) cur target :: s.log }
      else
        s.setHandler i (.ready object failsafe (attempt + 1))
  | .done => s

/-- What a swap takes the resident node to be. -/
def resident (old : Policy) (word : SelState) : Nat :=
  word.resident old.1.safe

/-- `selector_hotswap`, up to its first write. -/
def beginSwap (s : System) (j object : Nat) (old new : Policy) : System :=
  match s.swaps j with
  | .idle =>
    let cur := resident old s.sel
    s.setSwap j (.writing object new s.sel cur (migrateNode old.1 new.1 cur).1 (populateWrites hash new.1))
  | _ => s

/-- The next write of a swap: a table entry, or when none is left the word. -/
def writeNext (s : System) (j : Nat) : System :=
  match s.swaps j with
  | .writing object new word cur migrated (w :: pending) =>
    { s.setSwap j (.writing object new word cur migrated pending) with
      maps := Function.update s.maps object ((s.maps object).write w) }
  | .writing object new word cur migrated [] =>
    { s.setSwap j (if object = s.attached then .idle else .placed object) with
      sel := { word with cur := migrated, inited := true }
      inForce := new
      log := .migration word.gen new cur migrated :: s.log }
  | _ => s

/-- The program whose tables were filled replaces the one that is attached. -/
def attach (s : System) (j : Nat) : System :=
  match s.swaps j with
  | .placed object => { s.setSwap j .idle with attached := object }
  | _ => s

inductive Action where
  | packet (i : Nat)
  | swap (j object : Nat) (old new : Policy)
  | put (j : Nat)
  | attach (j : Nat)

def step (s : System) : Action → System
  | .packet i => handle packets s i
  | .swap j object old new => beginSwap hash s j object old new
  | .put j => writeNext s j
  | .attach j => PptSelect.attach s j

end

/-- A policy was loaded, and no packet has arrived since. -/
structure Initial (hash : List UInt8 → Nat) (s : System) : Prop where
  tables : ∃ m, s.maps s.attached = populateMaps hash s.inForce.1 m
  handlers : ∀ i, s.handlers i = .waiting
  swaps : ∀ j, s.swaps j = .idle
  log : s.log = []

/-- The edge is the first of the node that is true for the packet, and leads to `next`. -/
def FirstMatch (policy : Policy) (packet : Packet) (prev next : Nat) : Prop :=
  ∃ index, Unclamped policy.1 (loadRegs packet) packet.fieldCount prev (some (index, next))

/--
What one selector that did everything at once would make of the word: every event starts from where the one before it
left the word, a commit follows the policy in force and counts the generation up, and a migration keeps it.
-/
inductive Serial (packets : Nat → Packet) (policy : Policy) (word : SelState)
    : List Event → Policy → SelState → Prop where
  | start : Serial packets policy word [] policy word
  | commit {log : List Event} {inForce : Policy} {sel : SelState} (h : Serial packets policy word log inForce sel)
      (packet next : Nat)
      (hmatch : sel.resident (failsafe inForce) < inForce.1.nodes.length →
        FirstMatch inForce (packets packet) (sel.resident (failsafe inForce)) next)
      : Serial packets policy word
          (.commit packet (sel.gen + 1) (sel.resident (failsafe inForce)) next :: log) inForce
          { cur := next, inited := true, gen := sel.gen + 1 }
  | migration {log : List Event} {inForce : Policy} {sel : SelState} (h : Serial packets policy word log inForce sel)
      (new : Policy)
      : Serial packets policy word
          (.migration sel.gen new (resident inForce sel) (migrateNode inForce.1 new.1 (resident inForce sel)).1 :: log)
          new
          { cur := (migrateNode inForce.1 new.1 (resident inForce sel)).1, inited := true, gen := sel.gen }

def Event.isCommit : Event → Bool
  | .commit .. => true
  | .migration .. => false

def commits (log : List Event) : Nat :=
  log.countP Event.isCommit

end PptSelect
