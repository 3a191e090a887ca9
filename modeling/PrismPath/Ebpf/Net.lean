import PrismPath.Ebpf.Selector
import PrismPath.Lib.Runs

/-!
This module contains the program on network packets: two banks of every table, a packet that picks the bank in force
once, and updates that write the other bank and then flip. A packet reads nothing outside the bank it picked, and over a
bank that holds a policy it has the verdict of that policy.
-/

open Evaluator PptImage PptKernel PptSelect

namespace PptNet

/-- The length of the register file a network packet is turned into. -/
def netFields : Nat := 8

/-- The matched edge and its target, and whether the packet is dropped. -/
structure Verdict where
  answer : Option (Nat × Nat)
  drop : Bool
  deriving DecidableEq

/-- Only the first 64 nodes have a bit. -/
def dropped (dropMask : Nat) : Option (Nat × Nat) → Bool
  | some (_, target) => target < 64 && dropMask.testBit target
  | none => false

def lookupConfig (bank : Nat) : Kernel (Option Config) :=
  Reading.get (Key.config bank)

/-- `ppt_net_prog`, from its read of the bank on. -/
def netVerdict (regs : Nat → Reg) (bank : Nat) : Kernel Verdict := do
  let config ← lookupConfig bank
  let startNode := match config with
    | some config => config.startNode
    | none => 0
  let answer ← evaluate regs netFields bank startNode
  -- the mask is read through the same pointer, after the evaluation
  match ← lookupConfig bank with
  | some config => return { answer, drop := dropped config.dropMask answer }
  | none => return { answer, drop := false }

/- One update at a time. -/

/-- `write_bank`: the tables, and then the config with the mask of the other bank. -/
def writeBank (hash : List UInt8 → Nat) (m : Maps) (bank : Nat) (im : Image) : Maps :=
  let m := m.writes (tableWrites im bank)
  m.write ⟨.config bank, configOf hash im (m (.config (1 - bank))).dropMask⟩

/-- `net_update`: what becomes of the maps, and the bank it flips to. -/
def netUpdate (hash : List UInt8 → Nat) (m : Maps) (active : Nat) (im : Image) : Maps × Nat :=
  let target := 1 - active % 2
  (writeBank hash m target im, target)

/- Any number of packets and updates at once. -/

inductive PacketState where
  | waiting
  | reading (bank : Nat) (rest : Kernel Verdict)
  | done (verdict : Verdict)

def PacketState.verdict? : PacketState → Option Verdict
  | .done verdict => some verdict
  | _ => none

/-- Where an update stands: writing the tables, writing the config with the mask it read, flipping. -/
inductive Update where
  | idle
  | writing (policy : Policy) (target : Nat) (pending : List Write)
  | stamping (policy : Policy) (target dropMask : Nat)
  | flipping (policy : Policy) (target dropMask : Nat)

/-- `installed` holds the policies that were flipped to with the masks they carry, the latest first. -/
structure System where
  maps : Maps
  bank : Nat
  packets : Nat → PacketState
  updates : Nat → Update
  installed : List (Policy × Nat)

inductive Action where
  | packet (i : Nat)
  | update (j : Nat) (policy : Policy)
  | put (j : Nat)

section

variable (hash : List UInt8 → Nat) (regs : Nat → Nat → Reg)

def System.setPacket (s : System) (i : Nat) (packet : PacketState) : System :=
  { s with packets := Function.update s.packets i packet }

def System.setUpdate (s : System) (j : Nat) (update : Update) : System :=
  { s with updates := Function.update s.updates j update }

/-- The next lookup of a packet. -/
def handle (s : System) (i : Nat) : System :=
  match s.packets i with
  | .waiting => s.setPacket i (.reading (s.bank % 2) (netVerdict (regs i) (s.bank % 2)))
  | .reading bank (.read k next) => s.setPacket i (.reading bank (next (s.maps.lookup 2 k)))
  | .reading _ (.done verdict) => s.setPacket i (.done verdict)
  | .done _ => s

def beginUpdate (s : System) (j : Nat) (policy : Policy) : System :=
  match s.updates j with
  | .idle =>
    let target := 1 - s.bank % 2
    s.setUpdate j (.writing policy target (tableWrites policy.1 target))
  | _ => s

/-- The next write of an update. -/
def writeNext (s : System) (j : Nat) : System :=
  match s.updates j with
  | .idle => s
  | .writing policy target (w :: pending) =>
    { s.setUpdate j (.writing policy target pending) with maps := s.maps.write w }
  | .writing policy target [] => s.setUpdate j (.stamping policy target (s.maps (.config (1 - target))).dropMask)
  | .stamping policy target dropMask =>
    { s.setUpdate j (.flipping policy target dropMask) with
      maps := s.maps.write ⟨.config target, configOf hash policy.1 dropMask⟩ }
  | .flipping policy target dropMask =>
    { s.setUpdate j .idle with bank := target, installed := (policy, dropMask) :: s.installed }

def step (s : System) : Action → System
  | .packet i => handle regs s i
  | .update j policy => beginUpdate s j policy
  | .put j => writeNext hash s j

end

/-- What a policy and a mask make of a packet. -/
def PolicyVerdict (regs : Nat → Reg) (installed : Policy × Nat) (verdict : Verdict) : Prop :=
  Unclamped installed.1.1 regs netFields installed.1.1.start verdict.answer
    ∧ verdict.drop = dropped installed.2 verdict.answer

/-- A policy was written into a bank and is in force. -/
structure Initial (hash : List UInt8 → Nat) (policy : Policy) (dropMask : Nat) (s : System) : Prop where
  bank : s.bank < 2
  tables : Holds s.maps s.bank policy.1
  config : s.maps (.config s.bank) = configOf hash policy.1 dropMask
  packets : ∀ i, s.packets i = .waiting
  updates : ∀ j, s.updates j = .idle
  installed : s.installed = [(policy, dropMask)]

end PptNet

open TableFormat Evaluator PptImage PptKernel PptSelect

namespace PptNet

/-- The entries of one bank. -/
def ofBank (bank : Nat) : Key → Prop
  | .atom i => i / maxAtoms = bank
  | .node i => i / maxNodes = bank
  | .edge i => i / maxEdges = bank
  | .word i => i / maxProgWords = bank
  | .config i => i = bank

theorem ofBank_unique {bank bank' : Nat} {k : Key} (h : ofBank bank k) (h' : ofBank bank' k)
    : bank = bank' := by
  cases k <;> exact h.symm.trans h'

theorem div_span {bank span i : Nat} (hi : i < span)
    : (bank * span + i) / span = bank := by
  rw [Nat.mul_comm, Nat.mul_add_div (by omega), Nat.div_eq_of_lt hi, Nat.add_zero]

theorem div_bankBase {bank span i : Nat} (hbank : bank < 2) (hspan : 0 < span)
    : (bankBase bank span + i % span) / span = bank := by
  rw [bankBase, Nat.mod_eq_of_lt hbank, div_span (Nat.mod_lt i hspan)]

/- The keys that are looked up. -/

section

variable {bank : Nat} (hbank : bank < 2)
include hbank

theorem within_lookupWord (index : Nat)
    : Reading.Within (ofBank bank) (fun _ => True) (lookupWord bank index) :=
  Reading.within_get (div_bankBase hbank (by decide))

theorem within_lookupAtom (index : Nat)
    : Reading.Within (ofBank bank) (fun _ => True) (lookupAtom bank index) :=
  Reading.within_get (div_bankBase hbank (by decide))

theorem within_lookupEdge (index : Nat)
    : Reading.Within (ofBank bank) (fun _ => True) (lookupEdge bank index) :=
  Reading.within_get (div_bankBase hbank (by decide))

theorem within_lookupNode (index : Nat)
    : Reading.Within (ofBank bank) (fun _ => True) (lookupNode bank index) :=
  Reading.within_get (div_bankBase hbank (by decide))

omit hbank in
theorem within_bpfLoop {σ : Type} {P : Key → Prop} {I : σ → Prop} {callback : Nat → σ → Kernel (Bool × σ)}
    (hcallback : ∀ index state, I state → Reading.Within P (fun r => I r.2) (callback index state)) (count index : Nat)
    {state : σ} (hstate : I state)
    : Reading.Within P I (bpfLoop callback count index state) := by
  induction count generalizing index state with
  | zero => exact Reading.within_pure hstate
  | succ count ih =>
    refine (hcallback index state hstate).bind fun r hr => ?_
    rcases r with ⟨stop, state⟩
    dsimp only
    split
    . exact Reading.within_pure hr
    . exact ih (index + 1) hr

theorem within_progWordCb (regs : Nat → Reg) (index : Nat) (state : ProgCtx) (hstate : state.bank = bank)
    : Reading.Within (ofBank bank) (fun r => r.2.bank = bank) (progWordCb regs index state) := by
  subst hstate
  unfold progWordCb
  split
  . exact Reading.within_pure rfl
  . refine (within_lookupWord hbank _).bind fun word _ => ?_
    cases word with
    | none => exact Reading.within_pure rfl
    | some word =>
      dsimp only
      split
      . refine (within_lookupAtom hbank word).bind fun atom _ => ?_
        cases atom with
        | none => exact Reading.within_pure (sameProgram_push state false).bank
        | some atom => exact Reading.within_pure (sameProgram_push state _).bank
      . exact Reading.within_pure (sameProgram_operate state word).bank

theorem within_evalProg (regs : Nat → Reg) (fields : Nat) (edge : Edge)
    : Reading.Within (ofBank bank) (fun _ => True) (evalProg regs fields bank edge) :=
  (within_bpfLoop (within_progWordCb hbank regs) maxProgPerEdge 0 rfl).bind fun _ _ => Reading.within_pure trivial

theorem within_edgeLoopCb (regs : Nat → Reg) (index : Nat) (state : EvalLoopCtx) (hstate : state.bank = bank)
    : Reading.Within (ofBank bank) (fun r => r.2.bank = bank) (edgeLoopCb regs index state) := by
  subst hstate
  unfold edgeLoopCb
  split
  . exact Reading.within_pure rfl
  . refine (within_lookupEdge hbank _).bind fun edge _ => ?_
    cases edge with
    | none => exact Reading.within_pure rfl
    | some edge =>
      refine (within_evalProg hbank regs state.fields edge).bind fun b _ => ?_
      split <;> exact Reading.within_pure rfl

theorem within_evaluate (regs : Nat → Reg) (fields node : Nat)
    : Reading.Within (ofBank bank) (fun _ => True) (evaluate regs fields bank node) := by
  refine (within_lookupNode hbank node).bind fun node _ => ?_
  cases node with
  | none => exact Reading.within_pure trivial
  | some node =>
    exact (within_bpfLoop (within_edgeLoopCb hbank regs) maxEdgesPerNode 0 rfl).bind fun _ _ =>
      Reading.within_pure trivial

/-- A packet looks up nothing outside the bank it picked. -/
theorem within_netVerdict (regs : Nat → Reg)
    : Reading.Within (ofBank bank) (fun _ => True) (netVerdict regs bank) := by
  have hconfig : Reading.Within (ofBank bank) (fun _ => True) (lookupConfig bank) := Reading.within_get rfl
  refine hconfig.bind fun config _ => (within_evaluate hbank regs netFields _).bind fun answer _ => ?_
  refine hconfig.bind fun config' _ => ?_
  cases config' <;> exact Reading.within_pure trivial

end

/- A bank that holds a policy. -/

theorem lookup_congr {m m' : Maps} {bank : Nat} (h : ∀ k, ofBank bank k → m k = m' k)
    : ∀ k, ofBank bank k → m.lookup 2 k = m'.lookup 2 k := by
  intro k hk
  unfold Maps.lookup
  rw [h k hk]

/-- The tables of a bank depend on nothing outside it. -/
theorem holds_congr {m m' : Maps} {bank : Nat} {im : Image} (him : Accepted im)
    (hsame : ∀ k, ofBank bank k → m k = m' k) (h : Holds m bank im)
    : Holds m' bank im := by
  have hspan {α : Type} {xs : List α} {span i : Nat} {x : α} (hle : xs.length ≤ span) (hget : xs[i]? = some x)
      : (bank * span + i) / span = bank := by
    rcases List.getElem?_eq_some_iff.mp hget with ⟨hi, _⟩
    exact div_span (by omega)
  constructor
  . intro i atom hget
    exact (hsame (.atom _) (hspan him.atoms hget)).symm.trans (h.atom i atom hget)
  . intro i node hget
    exact (hsame (.node _) (hspan him.nodes hget)).symm.trans (h.node i node hget)
  . intro i edge hget
    exact (hsame (.edge _) (hspan him.edges hget)).symm.trans (h.edge i edge hget)
  . intro i word hget
    exact (hsame (.word _) (hspan him.prog hget)).symm.trans (h.word i word hget)

theorem ofBank_of_mem_tableWrites {im : Image} (him : Accepted im) {bank : Nat} {w : Write}
    (h : w ∈ tableWrites im bank)
    : ofBank bank w.key := by
  have hspan {α : Type} {xs : List α} {span i : Nat} {x : α} (hle : xs.length ≤ span) (hget : xs[i]? = some x)
      : (bank * span + i) / span = bank := by
    rcases List.getElem?_eq_some_iff.mp hget with ⟨hi, _⟩
    exact div_span (by omega)
  rcases mem_tableWrites.mp h with ⟨i, _, hget, rfl⟩ | ⟨i, _, hget, rfl⟩ | ⟨i, _, hget, rfl⟩ | ⟨i, _, hget, rfl⟩
  . exact hspan him.atoms hget
  . exact hspan him.nodes hget
  . exact hspan him.edges hget
  . exact hspan him.prog hget

/-- A config is no entry of the tables. -/
theorem holds_write_config {m : Maps} {bank : Nat} {im : Image} (h : Holds m bank im) (bank' : Nat) (config : Config)
    : Holds (m.write ⟨.config bank', config⟩) bank im := by
  have hother {k : Key} (hk : k ≠ .config bank') : m.write ⟨.config bank', config⟩ k = m k := write_of_ne hk.symm
  constructor
  . exact fun i atom hget => (hother (by simp)).trans (h.atom i atom hget)
  . exact fun i node hget => (hother (by simp)).trans (h.node i node hget)
  . exact fun i edge hget => (hother (by simp)).trans (h.edge i edge hget)
  . exact fun i word hget => (hother (by simp)).trans (h.word i word hget)

theorem run_lookupConfig (m : Maps) {bank : Nat} (hbank : bank < 2)
    : Reading.run (m.lookup 2) (lookupConfig bank) = some (m (.config bank)) := by
  have hinside : Key.inside 2 (.config bank) := hbank
  exact run_get_of_inside hinside

/-- The verdict is what the start node decides, under the mask beside the start node. -/
theorem run_netVerdict {m : Maps} {bank : Nat} {config : Config} (hbank : bank < 2) (hconfig : m (.config bank) = config)
    (regs : Nat → Reg) {answer : Option (Nat × Nat)}
    (hanswer : Reading.run (m.lookup 2) (evaluate regs netFields bank config.startNode) = answer)
    : Reading.run (m.lookup 2) (netVerdict regs bank) = { answer, drop := dropped config.dropMask answer } := by
  unfold netVerdict
  rw [Reading.run_bind, run_lookupConfig m hbank, hconfig]
  dsimp only
  rw [Reading.run_bind, hanswer, Reading.run_bind, run_lookupConfig m hbank, hconfig]
  rfl

/-- Over a bank that holds a policy, a packet gets the verdict of that policy and of the mask beside it. -/
theorem policyVerdict_of_holds {hash : List UInt8 → Nat} {m : Maps} {bank dropMask : Nat} {policy : Policy}
    (hbank : bank < 2) (hholds : Holds m bank policy.1)
    (hconfig : m (.config bank) = configOf hash policy.1 dropMask)
    (hstart : policy.1.start < policy.1.nodes.length) (regs : Nat → Reg)
    : PolicyVerdict regs (policy, dropMask) (Reading.run (m.lookup 2) (netVerdict regs bank)) := by
  rcases policy.2 with ⟨data, hparse⟩
  rw [run_netVerdict hbank hconfig regs rfl]
  exact ⟨unclamped_run (accepted_of_parse hparse) (List.getElem?_eq_getElem hstart) regs netFields hholds hbank le_rfl,
    rfl⟩

end PptNet
