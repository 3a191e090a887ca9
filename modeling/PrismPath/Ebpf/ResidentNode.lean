import PrismPath.Ebpf.KernelAgreement
import PrismPath.Ebpf.Migration

/-!
This module contains one policy loaded after another under a resident selector, and what keeps its node and its reads
within the policy that is loaded: no image is refused for an edge, a start or a safe node past its table.
-/

open Evaluator PptImage PptKernel

namespace PptSelect

/- Loading a policy while no packet is handled. -/

section

variable (hash : List UInt8 → Nat) (packets : Nat → Packet)

/-- `populate_maps`; the word stays as it is. -/
def populate (s : System) (object : Nat) (new : Policy) : System :=
  { s with
    maps := Function.update s.maps object (populateMaps hash new.1 (s.maps object))
    attached := object
    inForce := new }

/-- The clean start an attach gives the word. -/
def seedWord (s : System) : System :=
  { s with sel := { cur := s.inForce.1.start, inited := true, gen := 0 } }

/-- `selector_hotswap` -/
def selectorHotswap (s : System) (object : Nat) (old new : Policy) : System :=
  let cur := resident old s.sel
  let migrated := (migrateNode old.1 new.1 cur).1
  { populate hash s object new with
    sel := { s.sel with cur := migrated, inited := true }
    log := .migration s.sel.gen new cur migrated :: s.log }

inductive LoadAction where
  | packet (i : Nat)
  | populate (object : Nat) (new : Policy)
  | seed
  | hotswap (object : Nat) (old new : Policy)

def loadStep (s : System) : LoadAction → System
  | .packet i => handle packets s i
  | .populate object new => populate hash s object new
  | .seed => seedWord s
  | .hotswap object old new => selectorHotswap hash s object old new

end

/-- No packet is being handled. -/
def System.Quiet (s : System) : Prop :=
  ∀ i, s.handlers i = .waiting ∨ s.handlers i = .done

def QuietLoad (s : System) : LoadAction → Prop
  | .packet _ => True
  | _ => s.Quiet

/-- The table has a node to fall back to, and no packet's first true edge leads past its last node. -/
structure Inward (policy : Policy) : Prop where
  failsafe : PptSelect.failsafe policy < policy.1.nodes.length
  next : ∀ packet prev next, FirstMatch policy packet prev next → next < policy.1.nodes.length

/-- What the loader leaves unchecked. -/
def SoundLoad (s : System) : LoadAction → Prop
  | .packet _ => True
  | .populate _ new => s.Quiet ∧ Inward new ∧ s.sel.resident (failsafe new) < new.1.nodes.length
  | .seed => s.Quiet ∧ s.inForce.1.start < s.inForce.1.nodes.length
  | .hotswap _ _ new => s.Quiet ∧ Inward new

/-- The resident node is one of the policy's, and the next entry of every evaluation is one that the policy wrote. -/
structure Inside (hash : List UInt8 → Nat) (s : System) : Prop where
  resident : s.sel.resident (failsafe s.inForce) < s.inForce.1.nodes.length
  reads : ∀ i object failsafe attempt cur gen k next,
    s.handlers i = .evaluating object failsafe attempt cur gen (.read k next) →
      Wrote hash s.inForce.1 (s.maps object) k

/- The invariant. -/

section

variable (hash : List UInt8 → Nat)

def HandlerInside (s : System) : Handler → Prop
  | .ready object failsafe _ => object = s.attached ∧ failsafe = PptSelect.failsafe s.inForce
  | .evaluating object failsafe _ _ _ rest =>
    object = s.attached ∧ failsafe = PptSelect.failsafe s.inForce
      ∧ Reading.ReadsOnly ((s.maps object).lookup 1) (Wrote hash s.inForce.1 (s.maps object)) rest
      ∧ ∀ edge target, Reading.run ((s.maps object).lookup 1) rest = some (edge, target) →
          target < s.inForce.1.nodes.length
  | _ => True

structure Keeps (s : System) : Prop where
  inward : Inward s.inForce
  tables : ∃ m, s.maps s.attached = populateMaps hash s.inForce.1 m
  resident : s.sel.resident (failsafe s.inForce) < s.inForce.1.nodes.length
  handlers : ∀ i, HandlerInside hash s (s.handlers i)

end

variable {hash : List UInt8 → Nat} {packets : Nat → Packet} {s : System}

theorem Keeps.inside (h : Keeps hash s)
    : Inside hash s where
  resident := h.resident
  reads i object failsafe attempt cur gen k next hhandler := by
    have hin := h.handlers i
    rw [hhandler] at hin
    exact hin.2.2.1.1

theorem System.Quiet.handlers {s' : System} (h : s.Quiet) (hsame : s'.handlers = s.handlers) (i : Nat)
    : HandlerInside hash s' (s'.handlers i) := by
  rw [hsame]
  rcases h i with hi | hi <;> rw [hi] <;> trivial

theorem Keeps.setHandler (h : Keeps hash s) (i : Nat) {handler : Handler} (hin : HandlerInside hash s handler)
    : Keeps hash (s.setHandler i handler) where
  inward := h.inward
  tables := h.tables
  resident := h.resident
  handlers i' := by
    by_cases heq : i' = i
    . subst heq
      simp only [System.setHandler, Function.update_self]
      exact hin
    . simp only [System.setHandler, Function.update_of_ne heq]
      exact h.handlers i'

/-- The node a packet is evaluated at is in the table, so it reads the table and ends in it. -/
theorem Keeps.evaluating (h : Keeps hash s) (packet : Packet) (attempt cur : Nat) (gen : BitVec 32)
    (hcur : cur < s.inForce.1.nodes.length)
    : HandlerInside hash s
        (.evaluating s.attached (failsafe s.inForce) attempt cur gen
          (evaluate (loadRegs packet) packet.fieldCount 0 cur)) := by
  rcases s.inForce.2 with ⟨data, hparse⟩
  have him := accepted_of_parse hparse
  rcases h.tables with ⟨m, hm⟩
  have hholds : Holds (s.maps s.attached) 0 s.inForce.1 := by
    rw [hm]
    exact holds_of_populateMaps hash s.inForce.1 m
  refine ⟨rfl, rfl, readsOnly_evaluate hash hholds him _ _ hcur, fun edge target hrun => ?_⟩
  apply h.inward.next packet cur target
  refine ⟨edge, ?_⟩
  rw [← hrun]
  exact unclamped_run him (List.getElem?_eq_getElem hcur) _ _ hholds Nat.zero_lt_one one_le_two

/- What a packet does. -/

theorem Keeps.handle (h : Keeps hash s) (i : Nat)
    : Keeps hash (handle packets s i) := by
  have hin := h.handlers i
  unfold PptSelect.handle
  split
  . apply h.setHandler
    rcases h.tables with ⟨m, hm⟩
    refine ⟨rfl, ?_⟩
    rw [hm, config_populateMaps]
    rfl
  . next object failsafe attempt hhandler =>
    rw [hhandler] at hin
    rcases hin with ⟨rfl, rfl⟩
    split
    . exact h.setHandler i (h.evaluating (packets i) attempt _ _ h.resident)
    . exact h.setHandler i trivial
  . next object failsafe attempt cur gen rest hhandler =>
    rw [hhandler] at hin
    rcases hin with ⟨rfl, rfl, hreads, hends⟩
    split
    . exact h.setHandler i ⟨rfl, rfl, hreads.2, hends⟩
    . exact h.setHandler i trivial
    . next edge target =>
      split
      . have hdone : Keeps hash (s.setHandler i .done) := h.setHandler i trivial
        exact ⟨hdone.inward, hdone.tables, hends edge target rfl, hdone.handlers⟩
      . exact h.setHandler i ⟨rfl, rfl⟩
  . exact h

/- What a load does. -/

theorem length_nameHashes (policy : Policy) {hashes : List Nat} (h : policy.1.nameHashes = some hashes)
    : hashes.length = policy.1.nodes.length := by
  rcases policy.2 with ⟨data, hparse⟩
  rcases parseImageBuf_cases hparse with ⟨words, _, _, _, _, _, _, hnames, _, hnodes, _⟩
  rw [h, readNames] at hnames
  dsimp only at hnames
  split at hnames
  . rcases Option.map_eq_some_iff.mp hnames with ⟨_, hrecords, heq⟩
    cases heq
    rw [length_readRecords hrecords, hnodes]
  . cases hnames

theorem Inward.safe_lt {policy : Policy} (h : Inward policy)
    : policy.1.safe < policy.1.nodes.length := by
  have hfailsafe := h.failsafe
  rw [PptSelect.failsafe, failsafeNode] at hfailsafe
  split at hfailsafe <;> omega

/-- Whatever a swap is told of the policy before, it ends at a node of the new one. -/
theorem migrateNode_lt {new : Policy} (hnew : Inward new) (old : Image) (cur : Nat)
    : (migrateNode old new.1 cur).1 < new.1.nodes.length := by
  unfold migrateNode
  split
  . next oldHashes newHashes _ hhashes =>
    split
    . split
      . next index hfound =>
        rw [← length_nameHashes new hhashes]
        exact (List.findIdx?_eq_some_iff_findIdx_eq.mp hfound).1
      . exact hnew.safe_lt
    . exact hnew.safe_lt
  . exact hnew.safe_lt

theorem Keeps.loadStep (h : Keeps hash s) {a : LoadAction} (hsound : SoundLoad s a)
    : Keeps hash (loadStep hash packets s a) := by
  cases a with
  | packet i => exact h.handle i
  | populate object new =>
    rcases hsound with ⟨hquiet, hinward, hresident⟩
    exact ⟨hinward, ⟨s.maps object, Function.update_self ..⟩, hresident, hquiet.handlers rfl⟩
  | seed =>
    rcases hsound with ⟨hquiet, hstart⟩
    exact ⟨h.inward, h.tables, hstart, hquiet.handlers rfl⟩
  | hotswap object old new =>
    rcases hsound with ⟨hquiet, hinward⟩
    exact ⟨hinward, ⟨s.maps object, Function.update_self ..⟩, migrateNode_lt hinward .., hquiet.handlers rfl⟩

theorem Initial.keeps (h : Initial hash s) (hfresh : s.sel.inited = false) (hfirst : Inward s.inForce)
    : Keeps hash s where
  inward := hfirst
  tables := h.tables
  resident := by
    rw [SelState.resident, hfresh]
    exact hfirst.failsafe
  handlers i := by
    rw [h.handlers i]
    trivial

/--
Through every series of loads between which any packets are handled in any interleaving, the selector stays inside
policies that only lead inward.
-/
theorem selector_stays_inside (hash : List UInt8 → Nat) (packets : Nat → Packet) (s₀ s : System)
    (hinitial : Initial hash s₀) (hfresh : s₀.sel.inited = false) (hfirst : Inward s₀.inForce)
    (hrun : Runs (loadStep hash packets) SoundLoad s₀ s)
    : Inside hash s :=
  (hrun.invariant (hinitial.keeps hfresh hfirst) fun _ _ h => h.loadStep).inside

/-- A policy just loaded into a program that nothing was ever loaded into. -/
def unseeded (policy : Policy) : System :=
  { seeded policy with sel := { cur := 0, inited := false, gen := 0 } }

theorem initial_unseeded (policy : Policy)
    : Initial (fun _ => 0) (unseeded policy) where
  tables := ⟨noMaps, rfl⟩
  handlers _ := rfl
  swaps _ := rfl
  log := rfl

theorem selector_leaves_table
    : ¬ ∀ (hash : List UInt8 → Nat) (packets : Nat → Packet) (s₀ s : System), Initial hash s₀ →
        s₀.sel.inited = false → Runs (loadStep hash packets) QuietLoad s₀ s → Inside hash s := by
  intro hclaim
  have hrun
      : Runs (loadStep (fun _ => 0) emptyPacket) QuietLoad (unseeded phantomPolicy)
          ((List.replicate 6 (.packet 0)).foldl (loadStep (fun _ => 0) emptyPacket) (unseeded phantomPolicy)) := by
    refine Runs.foldl _ _ fun pre a post heq => ?_
    have hmem : a ∈ List.replicate 6 (LoadAction.packet 0) := by
      rw [heq]
      simp
    cases List.eq_of_mem_replicate hmem
    trivial
  have hinside := hclaim (fun _ => 0) emptyPacket (unseeded phantomPolicy) _ (initial_unseeded phantomPolicy) rfl hrun
  have hresident := hinside.resident
  revert hresident
  with_unfolding_all decide

theorem Closed.inward {policy : Policy} (h : Closed policy)
    : Inward policy where
  failsafe := h.failsafe
  next _ _ _ hmatch := h.next_lt hmatch

/-- A policy that always loops, swapped in for itself. -/
theorem loopPolicy_stays
    : Inside (fun _ => 0)
        ((LoadAction.hotswap 0 loopPolicy loopPolicy :: List.replicate 6 (.packet 0)).foldl
          (loadStep (fun _ => 0) emptyPacket) (unseeded loopPolicy)) := by
  have hclosed : Closed loopPolicy := ⟨by with_unfolding_all decide, by with_unfolding_all decide⟩
  refine selector_stays_inside (fun _ => 0) emptyPacket (unseeded loopPolicy) _ (initial_unseeded loopPolicy) rfl
    hclosed.inward (Runs.foldl _ _ fun pre a post heq => ?_)
  cases pre with
  | nil =>
    cases (List.cons.inj heq).1
    exact ⟨fun _ => .inl rfl, hclosed.inward⟩
  | cons b pre =>
    have hmem : a ∈ List.replicate 6 (LoadAction.packet 0) := by
      have htail : _ = pre ++ a :: post := (List.cons.inj heq).2
      rw [htail]
      simp
    cases List.eq_of_mem_replicate hmem
    trivial

/- The swap of the interleaved model, when nothing comes between its writes. -/

theorem foldl_puts (hash : List UInt8 → Nat) (packets : Nat → Packet) {j : Nat} {new : Policy} {word : SelState}
    {cur migrated : Nat} (pending : List Write) {s : System}
    (h : s.swaps j = .writing s.attached new word cur migrated pending)
    : (List.replicate (pending.length + 1) (Action.put j)).foldl (step hash packets) s =
        { s with
          maps := Function.update s.maps s.attached ((s.maps s.attached).writes pending)
          swaps := Function.update s.swaps j .idle
          sel := { word with cur := migrated, inited := true }
          inForce := new
          log := .migration word.gen new cur migrated :: s.log } := by
  induction pending generalizing s with
  | nil => simp [step, writeNext, h, System.setSwap, Maps.writes]
  | cons w pending ih =>
    rw [List.length_cons, List.replicate_succ, List.foldl_cons]
    have hstep
        : step hash packets s (.put j) =
            { s.setSwap j (.writing s.attached new word cur migrated pending) with
              maps := Function.update s.maps s.attached ((s.maps s.attached).write w) } := by
      simp only [step, writeNext, h]
    rw [hstep, ih (by simp [System.setSwap])]
    simp [System.setSwap, Maps.writes]

theorem hotswap_eq_selectorHotswap {j : Nat} (hidle : s.swaps j = .idle) (old new : Policy)
    : hotswap hash packets s j s.attached old new = selectorHotswap hash s s.attached old new := by
  unfold hotswap hotswapActions
  rw [List.foldl_cons]
  have hbegin
      : step hash packets s (.swap j s.attached old new) =
          s.setSwap j (.writing s.attached new s.sel (resident old s.sel)
            (migrateNode old.1 new.1 (resident old s.sel)).1 (populateWrites hash new.1)) := by
    simp only [step, beginSwap, hidle]
  rw [hbegin, foldl_puts hash packets _ (Function.update_self ..)]
  simp [selectorHotswap, populate, populateMaps, System.setSwap, ← hidle]

end PptSelect
