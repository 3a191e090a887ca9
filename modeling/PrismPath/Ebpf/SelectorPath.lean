import PrismPath.Ebpf.Selector
import PrismPath.Lib.Runs

/-!
This module contains the invariant of the resident selector: while no packet is evaluated across a swap, the shared word
goes through one series of events, each starting from where the one before it left the word. A packet that commits while
a swap is under way shows what a swap needs to take its place among the packets.
-/

open Evaluator PptImage PptKernel

namespace PptSelect

def System.Idle (s : System) : Prop :=
  ∀ j, s.swaps j = .idle

def Handler.Open : Handler → Prop
  | .evaluating .. => True
  | _ => False

/--
A snapshot is taken only while no swap is under way, and by the program that is attached; a swap begins only when none
is under way, no snapshot is still evaluated, and the policy it is told to replace is the one in force.
-/
def Quiesced (s : System) : Action → Prop
  | .packet i => ∀ object failsafe attempt, s.handlers i = .ready object failsafe attempt → attempt < selMaxRetry →
      s.Idle ∧ object = s.attached
  | .swap _ _ old _ => s.Idle ∧ (∀ i, ¬ (s.handlers i).Open) ∧ old = s.inForce
  | _ => True

def Event.packet? : Event → Option Nat
  | .commit packet .. => some packet
  | .migration .. => none

def committed (log : List Event) : List Nat :=
  log.filterMap Event.packet?

section

variable (hash : List UInt8 → Nat) (packets : Nat → Packet)

def HandlerOk (gen₀ : BitVec 32) (s : System) (i : Nat) : Handler → Prop
  | .ready object failsafe _ =>
    object = s.attached → s.Idle → s.sel.inited = false → failsafe = PptSelect.failsafe s.inForce
  | .evaluating object failsafe _ cur gen rest =>
    s.Idle ∧ object = s.attached ∧ (s.sel.inited = false → failsafe = PptSelect.failsafe s.inForce) ∧
      ∃ k ≤ commits s.log, gen = gen₀ + BitVec.ofNat 32 k ∧
        -- nothing was committed since the snapshot, so it still stands
        (k = commits s.log →
          cur = s.sel.resident (PptSelect.failsafe s.inForce) ∧
            Reading.run ((s.maps object).lookup 1) rest =
              Reading.run ((s.maps object).lookup 1)
                (evaluate (loadRegs (packets i)) (packets i).fieldCount 0 cur))
  | _ => True

def SwapOk (s : System) : Swap → Prop
  | .idle => True
  | .writing object new word cur migrated pending =>
    word = s.sel ∧ cur = resident s.inForce s.sel ∧ migrated = (migrateNode s.inForce.1 new.1 cur).1 ∧
      ∃ m, (s.maps object).writes pending = populateMaps hash new.1 m
  | .placed object => s.sel.inited = true ∧ ∃ m, s.maps object = populateMaps hash s.inForce.1 m

structure Inv (s₀ s : System) : Prop where
  serial : Serial packets s₀.inForce s₀.sel s.log s.inForce s.sel
  once : (committed s.log).Nodup
  retired : ∀ i ∈ committed s.log, s.handlers i = .done
  handlers : ∀ i, HandlerOk packets s₀.sel.gen s i (s.handlers i)
  swaps : ∀ j, SwapOk hash s (s.swaps j)
  alone : ∀ j j', s.swaps j ≠ .idle → s.swaps j' ≠ .idle → j = j'
  tables : s.Idle → ∃ m, s.maps s.attached = populateMaps hash s.inForce.1 m

end

variable {hash : List UInt8 → Nat} {packets : Nat → Packet}

theorem Initial.inv {s : System} (h : Initial hash s)
    : Inv hash packets s s where
  serial := by
    rw [h.log]
    exact .start
  once := by simp [h.log, committed]
  retired := by simp [h.log, committed]
  handlers i := by
    rw [h.handlers i]
    trivial
  swaps j := by
    rw [h.swaps j]
    trivial
  alone j := by simp [h.swaps j]
  tables _ := h.tables

/-- The generation counts the commits. -/
theorem Serial.gen_eq {policy inForce : Policy} {word sel : SelState} {log : List Event}
    (h : Serial packets policy word log inForce sel)
    : sel.gen = word.gen + BitVec.ofNat 32 (commits log) := by
  induction h with
  | start => simp [commits]
  | commit h packet next hmatch ih =>
    simp only [commits, List.countP_cons, Event.isCommit, if_true, BitVec.ofNat_add, ← BitVec.add_assoc] at ih ⊢
    rw [ih]
    rfl
  | migration h new ih => simpa [commits, List.countP_cons, Event.isCommit] using ih

/-- Fewer than 2^32 commits are told apart by the generation. -/
theorem eq_of_gen_eq {gen : BitVec 32} {k n : Nat} (hk : k ≤ n) (hn : n < 2 ^ 32)
    (h : gen + BitVec.ofNat 32 k = gen + BitVec.ofNat 32 n)
    : k = n := by
  have hsame := congrArg BitVec.toNat ((BitVec.add_right_inj gen).mp h)
  rwa [BitVec.toNat_ofNat, BitVec.toNat_ofNat, Nat.mod_eq_of_lt (by omega), Nat.mod_eq_of_lt hn] at hsame

/-- A handler that is not evaluating keeps its place when only swaps and tables change. -/
theorem HandlerOk.of_closed {gen₀ : BitVec 32} {s s' : System} {i : Nat} {handler : Handler} (hclosed : ¬ handler.Open)
    (hinited : ∀ object, s'.Idle → s'.sel.inited = false → object = s'.attached →
      object = s.attached ∧ s.Idle ∧ s.sel.inited = false ∧ s'.inForce = s.inForce)
    (hok : HandlerOk packets gen₀ s i handler)
    : HandlerOk packets gen₀ s' i handler := by
  cases handler with
  | waiting => trivial
  | ready object failsafe attempt =>
    intro hobject hidle huninited
    rcases hinited object hidle huninited hobject with ⟨hobject', hidle', huninited', hforce⟩
    rw [hforce]
    exact hok hobject' hidle' huninited'
  | evaluating => exact absurd trivial hclosed
  | done => trivial

/-- Only the swap that moved on can be under way. -/
theorem alone_setSwap {s : System} {j : Nat} (hothers : ∀ k ≠ j, s.swaps k = .idle) (swap : Swap)
    : ∀ k k', (s.setSwap j swap).swaps k ≠ .idle → (s.setSwap j swap).swaps k' ≠ .idle → k = k' := by
  have honly : ∀ k, (s.setSwap j swap).swaps k ≠ .idle → k = j := by
    intro k hk
    by_contra hne
    exact hk ((Function.update_of_ne hne ..).trans (hothers k hne))
  intro k k' hk hk'
  exact (honly k hk).trans (honly k' hk').symm

section

variable {s₀ s : System} (h : Inv hash packets s₀ s)
include h

theorem Inv.not_committed {i : Nat} (hlive : s.handlers i ≠ .done)
    : i ∉ committed s.log :=
  fun hmem => hlive (h.retired i hmem)

/-- A step that only moves a handler on. -/
theorem Inv.setHandler {i : Nat} {handler : Handler} (hlive : s.handlers i ≠ .done)
    (hok : HandlerOk packets s₀.sel.gen s i handler)
    : Inv hash packets s₀ (s.setHandler i handler) where
  serial := h.serial
  once := h.once
  retired i' hmem := by
    have hne : i' ≠ i := fun heq => h.not_committed hlive (heq ▸ hmem)
    exact (Function.update_of_ne hne ..).trans (h.retired i' hmem)
  handlers i' := by
    by_cases heq : i' = i
    . subst heq
      simp only [System.setHandler, Function.update_self]
      exact hok
    . simp only [System.setHandler, Function.update_of_ne heq]
      exact h.handlers i'
  swaps := h.swaps
  alone := h.alone
  tables := h.tables

/-- A snapshot whose generation is still the word's was taken of the word as it is, and evaluated as the policy says. -/
theorem Inv.stands {i object failsafe attempt cur edge target : Nat} {gen : BitVec 32}
    (hhandler : s.handlers i = .evaluating object failsafe attempt cur gen (.done (some (edge, target))))
    (hgen : s.sel.gen = gen) (hbound : commits s.log < 2 ^ 32)
    : s.Idle ∧ cur = s.sel.resident (PptSelect.failsafe s.inForce)
        ∧ (cur < s.inForce.1.nodes.length → FirstMatch s.inForce (packets i) cur target) := by
  have hok := h.handlers i
  rw [hhandler] at hok
  rcases hok with ⟨hidle, hobject, _, k, hk, hgen', hstands⟩
  have hlast : k = commits s.log := by
    have hsame := h.serial.gen_eq
    rw [hgen, hgen'] at hsame
    exact eq_of_gen_eq hk hbound hsame
  rcases hstands hlast with ⟨hcur, hrun⟩
  refine ⟨hidle, hcur, fun hlt => ⟨edge, ?_⟩⟩
  rcases h.tables hidle with ⟨m, hm⟩
  rcases s.inForce.2 with ⟨data, hparse⟩
  rw [hobject, hm] at hrun
  have hanswer := unclamped_kernelAnswer (accepted_of_parse hparse) (List.getElem?_eq_getElem hlt)
    (loadRegs (packets i)) (packets i).fieldCount hash m
  rw [kernelAnswer, ← hrun] at hanswer
  exact hanswer

theorem Inv.commit {i object failsafe attempt cur edge target : Nat} {gen : BitVec 32}
    (hhandler : s.handlers i = .evaluating object failsafe attempt cur gen (.done (some (edge, target))))
    (hgen : s.sel.gen = gen) (hbound : commits s.log < 2 ^ 32)
    : Inv hash packets s₀
        { s.setHandler i .done with
          sel := { cur := target, inited := true, gen := gen + 1 }
          log := .commit i (gen + 1) cur target :: s.log } := by
  rcases h.stands hhandler hgen hbound with ⟨hidle, hcur, hmatch⟩
  have hlive : s.handlers i ≠ .done := by simp [hhandler]
  refine ⟨?_, ?_, ?_, fun i' => ?_, fun j => ?_, h.alone, h.tables⟩
  . subst hgen hcur
    exact .commit h.serial i target hmatch
  . exact List.nodup_cons.mpr ⟨h.not_committed hlive, h.once⟩
  . intro i' hmem
    by_cases heq : i' = i
    . subst heq
      exact Function.update_self ..
    . have hmem' : i' ∈ committed s.log := by
        rcases List.mem_cons.mp hmem with rfl | hmem
        . contradiction
        . exact hmem
      exact (Function.update_of_ne heq ..).trans (h.retired i' hmem')
  . by_cases heq : i' = i
    . subst heq
      simp only [System.setHandler, Function.update_self]
      trivial
    . simp only [System.setHandler, Function.update_of_ne heq]
      have hok' := h.handlers i'
      revert hok'
      cases s.handlers i' with
      | waiting => exact id
      | ready object' failsafe' attempt' => exact fun _ _ _ hinited => by cases hinited
      | evaluating object' failsafe' attempt' cur' gen' rest' =>
        rintro ⟨hidle', hobject', _, k', hk', hgen', _⟩
        -- a snapshot taken before this commit no longer stands
        have hmore : commits (.commit i (gen + 1) cur target :: s.log) = commits s.log + 1 := by
          simp [commits, List.countP_cons, Event.isCommit]
        refine ⟨hidle', hobject', ?_, k', ?_, hgen', fun hlast' => ?_⟩
        . intro hinited
          cases hinited
        . show k' ≤ commits (_ :: s.log)
          omega
        . have : k' = commits (Event.commit i (gen + 1) cur target :: s.log) := hlast'
          omega
      | done => exact id
  . have hswap : s.swaps j = .idle := hidle j
    show SwapOk hash _ (s.swaps j)
    rw [hswap]
    trivial

/-- One step of a packet. -/
theorem Inv.handle {i : Nat} (hquiesced : Quiesced s (.packet i)) (hbound : commits s.log < 2 ^ 32)
    : Inv hash packets s₀ (handle packets s i) := by
  have hok := h.handlers i
  unfold PptSelect.handle
  split
  . next hhandler =>
    refine h.setHandler (by simp [hhandler]) fun _ hidle _ => ?_
    rcases h.tables hidle with ⟨m, hm⟩
    have hconfig : populateMaps hash s.inForce.1 m (.config 0) = configOf hash s.inForce.1 0 :=
      config_populateMaps hash s.inForce.1 m
    rw [hm, hconfig]
    rfl
  . next object failsafe attempt hhandler =>
    rw [hhandler] at hok
    split
    . next hattempt =>
      rcases hquiesced object failsafe attempt hhandler hattempt with ⟨hidle, hobject⟩
      have hfailsafe := hok hobject hidle
      refine h.setHandler (by simp [hhandler])
        ⟨hidle, hobject, hfailsafe, commits s.log, le_rfl, h.serial.gen_eq, fun _ => ⟨?_, rfl⟩⟩
      unfold SelState.resident
      split
      . rfl
      . next hinited => exact hfailsafe (by simpa using hinited)
    . exact h.setHandler (by simp [hhandler]) trivial
  . next object failsafe attempt cur gen rest hhandler =>
    rw [hhandler] at hok
    have hlive : s.handlers i ≠ .done := by simp [hhandler]
    rcases hok with ⟨hidle, hobject, hfailsafe, k, hk, hgen, hstands⟩
    split
    . next key next =>
      refine h.setHandler hlive ⟨hidle, hobject, hfailsafe, k, hk, hgen, fun hlast => ?_⟩
      rcases hstands hlast with ⟨hcur, hrun⟩
      exact ⟨hcur, hrun⟩
    . exact h.setHandler hlive trivial
    . next edge target =>
      split
      . next hsame => exact h.commit hhandler hsame hbound
      . exact h.setHandler hlive fun _ _ hinited => hfailsafe hinited
  . exact h

/-- While a swap is under way no snapshot is being evaluated. -/
theorem Inv.closed {j : Nat} (hj : s.swaps j ≠ .idle) (i : Nat)
    : ¬ (s.handlers i).Open := by
  have hok := h.handlers i
  cases hhandler : s.handlers i with
  | evaluating =>
    rw [hhandler] at hok
    exact absurd (hok.1 j) hj
  | _ => exact id

theorem Inv.others_idle {j j' : Nat} (hj : s.swaps j ≠ .idle) (hne : j' ≠ j)
    : s.swaps j' = .idle := by
  by_contra hj'
  exact hne (h.alone j' j hj' hj)

theorem Inv.beginSwap {j object : Nat} {old new : Policy} (hquiesced : Quiesced s (.swap j object old new))
    : Inv hash packets s₀ (beginSwap hash s j object old new) := by
  rcases hquiesced with ⟨hidle, hclosed, rfl⟩
  unfold PptSelect.beginSwap
  rw [hidle j]
  refine ⟨h.serial, h.once, h.retired, fun i => ?_, fun j' => ?_, alone_setSwap (fun k _ => hidle k) _,
    fun hidle' => ?_⟩
  . refine HandlerOk.of_closed (hclosed i) (fun object hidle' => ?_) (h.handlers i)
    have := hidle' j
    simp [System.setSwap] at this
  . by_cases heq : j' = j
    . subst heq
      simp only [System.setSwap, Function.update_self]
      exact ⟨rfl, rfl, rfl, s.maps object, rfl⟩
    . simp only [System.setSwap, Function.update_of_ne heq, hidle j']
      trivial
  . have := hidle' j
    simp [System.setSwap] at this

theorem Inv.writeNext (j : Nat)
    : Inv hash packets s₀ (writeNext s j) := by
  have hok := h.swaps j
  unfold PptSelect.writeNext
  split
  . next object new word cur migrated w pending hswap =>
    rw [hswap] at hok
    rcases hok with ⟨hword, hcur, hmigrated, m, hm⟩
    have hbusy : s.swaps j ≠ .idle := by simp [hswap]
    refine ⟨h.serial, h.once, h.retired, fun i => ?_, fun k => ?_, alone_setSwap (fun k => h.others_idle hbusy) _,
      fun hidle => ?_⟩
    . refine HandlerOk.of_closed (h.closed hbusy i) (fun object hidle => ?_) (h.handlers i)
      have := hidle j
      simp [System.setSwap] at this
    . by_cases heq : k = j
      . subst heq
        simp only [System.setSwap, Function.update_self]
        refine ⟨hword, hcur, hmigrated, m, ?_⟩
        dsimp only
        rw [Function.update_self]
        exact hm
      . simp only [System.setSwap, Function.update_of_ne heq, h.others_idle hbusy heq]
        trivial
    . have := hidle j
      simp [System.setSwap] at this
  . next object new word cur migrated hswap =>
    rw [hswap] at hok
    rcases hok with ⟨rfl, rfl, rfl, m, hm⟩
    have hbusy : s.swaps j ≠ .idle := by simp [hswap]
    refine ⟨.migration h.serial new, h.once, h.retired, fun i => ?_, fun k => ?_,
      alone_setSwap (fun k => h.others_idle hbusy) _, fun hidle => ⟨m, ?_⟩⟩
    . refine HandlerOk.of_closed (h.closed hbusy i) (fun object _ huninited => ?_) (h.handlers i)
      cases huninited
    . by_cases heq : k = j
      . subst heq
        simp only [System.setSwap, Function.update_self]
        split
        . trivial
        . exact ⟨rfl, m, hm⟩
      . simp only [System.setSwap, Function.update_of_ne heq, h.others_idle hbusy heq]
        trivial
    . have hplaced := hidle j
      simp only [System.setSwap, Function.update_self] at hplaced
      split at hplaced
      . next hattached =>
        subst hattached
        exact hm
      . cases hplaced
  . exact h

theorem Inv.attach (j : Nat)
    : Inv hash packets s₀ (attach s j) := by
  have hok := h.swaps j
  unfold PptSelect.attach
  split
  . next object hswap =>
    rw [hswap] at hok
    rcases hok with ⟨hinited, hmaps⟩
    have hbusy : s.swaps j ≠ .idle := by simp [hswap]
    refine ⟨h.serial, h.once, h.retired, fun i => ?_, fun k => ?_, alone_setSwap (fun k => h.others_idle hbusy) _,
      fun _ => hmaps⟩
    . refine HandlerOk.of_closed (h.closed hbusy i) (fun object _ huninited => ?_) (h.handlers i)
      rw [show s.sel.inited = false from huninited] at hinited
      cases hinited
    . by_cases heq : k = j
      . subst heq
        simp only [System.setSwap, Function.update_self]
        trivial
      . simp only [System.setSwap, Function.update_of_ne heq, h.others_idle hbusy heq]
        trivial
  . exact h

/-- One step of anything. -/
theorem Inv.step {a : Action} (hquiesced : Quiesced s a) (hbound : commits s.log < 2 ^ 32)
    : Inv hash packets s₀ (step hash packets s a) := by
  cases a with
  | packet i => exact h.handle hquiesced hbound
  | swap j object old new => exact h.beginSwap hquiesced
  | put j => exact h.writeNext j
  | attach j => exact h.attach j

end

/- Runs. -/

theorem commits_le_cons (e : Event) (log : List Event)
    : commits log ≤ commits (e :: log) :=
  (List.sublist_cons_self e log).countP_le ..

theorem commits_le_handle (s : System) (i : Nat)
    : commits s.log ≤ commits (handle packets s i).log := by
  unfold handle
  split
  . exact le_rfl
  . split <;> exact le_rfl
  . split
    . exact le_rfl
    . exact le_rfl
    . split
      . exact commits_le_cons ..
      . exact le_rfl
  . exact le_rfl

theorem commits_le_step (s : System) (a : Action)
    : commits s.log ≤ commits (step hash packets s a).log := by
  cases a with
  | packet i => exact commits_le_handle s i
  | swap j object old new =>
    show _ ≤ commits (beginSwap hash s j object old new).log
    unfold beginSwap
    split <;> exact le_rfl
  | put j =>
    show _ ≤ commits (writeNext s j).log
    unfold writeNext
    split
    . exact le_rfl
    . exact commits_le_cons ..
    . exact le_rfl
  | attach j =>
    show _ ≤ commits (attach s j).log
    unfold attach
    split <;> exact le_rfl

theorem inv_of_run {P : System → Action → Prop} (hP : ∀ s a, P s a → Quiesced s a) {s₀ s : System}
    (hinitial : Initial hash s₀) (hrun : Runs (step hash packets) P s₀ s) (hbound : commits s.log < 2 ^ 32)
    : Inv hash packets s₀ s :=
  Runs.invariant_below (μ := fun s => commits s.log) commits_le_step hrun hbound hinitial.inv
    fun s a hinv ha hlt => hinv.step (hP s a ha) hlt

/- One policy. -/

/-- A path through the table of a policy, the latest step first: the node and the generation it starts from and ends in. -/
inductive Path (packets : Nat → Packet) (policy : Policy) (node : Nat) (gen : BitVec 32)
    : List Event → Nat → BitVec 32 → Prop where
  | start : Path packets policy node gen [] node gen
  | commit {log : List Event} {node' : Nat} {gen' : BitVec 32} (h : Path packets policy node gen log node' gen')
      {packet next : Nat} (hmatch : FirstMatch policy (packets packet) node' next)
      : Path packets policy node gen (.commit packet (gen' + 1) node' next :: log) next (gen' + 1)

def Event.seq? : Event → Option (BitVec 32)
  | .commit _ seq .. => some seq
  | .migration .. => none

/-- The sequence numbers, the first commit first. -/
def numbers (log : List Event) : List (BitVec 32) :=
  log.reverse.filterMap Event.seq?

structure OnePath (packets : Nat → Packet) (s₀ s : System) : Prop where
  path : ∃ node gen,
    Path packets s₀.inForce (s₀.sel.resident (failsafe s₀.inForce)) s₀.sel.gen s.log node gen
  once : (committed s.log).Nodup
  noGap : numbers s.log = (List.range s.log.length).map fun i => s₀.sel.gen + BitVec.ofNat 32 (i + 1)
  noDuplicate : (numbers s.log).Nodup

/-- No handler is evaluating a node past the table. -/
def OnTable (s : System) : Prop :=
  ∀ i object failsafe attempt cur gen rest, s.handlers i = .evaluating object failsafe attempt cur gen rest →
    cur < s.inForce.1.nodes.length

def IsPacket (_ : System) (a : Action) : Prop :=
  ∃ i, a = .packet i

/-- What stays as it is while there are only packets. -/
structure Steady (s₀ s : System) : Prop where
  idle : s.Idle
  attached : ∀ i object failsafe attempt, s.handlers i = .ready object failsafe attempt → object = s.attached
  inForce : s.inForce = s₀.inForce

theorem Initial.steady {s : System} (h : Initial hash s)
    : Steady s s where
  idle := h.swaps
  attached i := by simp [h.handlers i]
  inForce := rfl

section

variable {s₀ s : System} (hsteady : Steady s₀ s) (hinv : Inv hash packets s₀ s)
include hsteady

theorem Steady.quiesced (i : Nat)
    : Quiesced s (.packet i) :=
  fun _ _ _ hhandler _ => ⟨hsteady.idle, hsteady.attached i _ _ _ hhandler⟩

theorem Steady.setHandler {i : Nat} {handler : Handler}
    (hobject : ∀ object failsafe attempt, handler = .ready object failsafe attempt → object = s.attached)
    : Steady s₀ (s.setHandler i handler) where
  idle := hsteady.idle
  attached i' object failsafe attempt hhandler := by
    by_cases heq : i' = i
    . subst heq
      simp only [System.setHandler, Function.update_self] at hhandler
      exact hobject object failsafe attempt hhandler
    . simp only [System.setHandler, Function.update_of_ne heq] at hhandler
      exact hsteady.attached i' object failsafe attempt hhandler
  inForce := hsteady.inForce

include hinv

theorem Steady.handle (i : Nat)
    : Steady s₀ (handle packets s i) := by
  have hok := hinv.handlers i
  unfold PptSelect.handle
  split
  . refine hsteady.setHandler fun object failsafe attempt heq => ?_
    cases heq
    rfl
  . split <;> exact hsteady.setHandler (by simp)
  . next hhandler =>
    rw [hhandler] at hok
    split
    . exact hsteady.setHandler (by simp)
    . exact hsteady.setHandler (by simp)
    . split
      . have hdone : Steady s₀ (s.setHandler i .done) := hsteady.setHandler (by simp)
        exact ⟨hdone.idle, hdone.attached, hdone.inForce⟩
      . refine hsteady.setHandler fun object failsafe attempt heq => ?_
        cases heq
        exact hok.2.1
  . exact hsteady

end

/-- Every event is a commit that started at a node of the table. -/
def StartsOnTable (policy : Policy) (log : List Event) : Prop :=
  ∀ e ∈ log, ∃ packet seq prev next, e = .commit packet seq prev next ∧ prev < policy.1.nodes.length

theorem inForce_handle (s : System) (i : Nat)
    : (handle packets s i).inForce = s.inForce := by
  unfold handle
  split
  . rfl
  . split <;> rfl
  . split
    . rfl
    . rfl
    . split <;> rfl
  . rfl

theorem startsOnTable_handle {s : System} (hlog : StartsOnTable s.inForce s.log) (hon : OnTable s) (i : Nat)
    : StartsOnTable s.inForce (handle packets s i).log := by
  unfold handle
  split
  . exact hlog
  . split <;> exact hlog
  . next object failsafe attempt cur gen rest hhandler =>
    split
    . exact hlog
    . exact hlog
    . split
      . intro e he
        rcases List.mem_cons.mp he with rfl | he
        . exact ⟨_, _, _, _, rfl, hon i object failsafe attempt cur gen _ hhandler⟩
        . exact hlog e he
      . exact hlog
  . exact hlog

/-- Where every commit starts at a node of the table, the serial history is a path through it. -/
theorem Serial.path {policy inForce : Policy} {word sel : SelState} {log : List Event}
    (h : Serial packets policy word log inForce sel) (hlog : StartsOnTable policy log)
    : inForce = policy
        ∧ Path packets policy (word.resident (failsafe policy)) word.gen log (sel.resident (failsafe policy)) sel.gen := by
  induction h with
  | start => exact ⟨rfl, .start⟩
  | commit h packet next hmatch ih =>
    rcases List.forall_mem_cons.mp hlog with ⟨⟨_, _, _, _, hevent, hlt⟩, hrest⟩
    rcases ih hrest with ⟨rfl, hpath⟩
    cases hevent
    exact ⟨rfl, .commit hpath (hmatch hlt)⟩
  | migration h new ih =>
    rcases hlog _ List.mem_cons_self with ⟨_, _, _, _, hevent, _⟩
    cases hevent

theorem Path.numbers {policy : Policy} {node node' : Nat} {gen gen' : BitVec 32} {log : List Event}
    (h : Path packets policy node gen log node' gen')
    : gen' = gen + BitVec.ofNat 32 log.length
        ∧ numbers log = (List.range log.length).map fun i => gen + BitVec.ofNat 32 (i + 1) := by
  induction h with
  | start => simp [PptSelect.numbers]
  | @commit log node' gen' h packet next hmatch ih =>
    rcases ih with ⟨hgen, hnumbers⟩
    have hnext : gen' + 1 = gen + BitVec.ofNat 32 (log.length + 1) := by
      rw [hgen, BitVec.ofNat_add, ← BitVec.add_assoc]
      rfl
    refine ⟨hnext, ?_⟩
    have hlast
        : PptSelect.numbers (.commit packet (gen' + 1) node' next :: log) = PptSelect.numbers log ++ [gen' + 1] := by
      simp [PptSelect.numbers, Event.seq?, List.filterMap_append]
    rw [hlast, List.length_cons, List.range_succ, List.map_append, hnumbers, hnext]
    rfl

theorem Path.commits_eq {policy : Policy} {node node' : Nat} {gen gen' : BitVec 32} {log : List Event}
    (h : Path packets policy node gen log node' gen')
    : commits log = log.length := by
  induction h with
  | start => rfl
  | commit h hmatch ih =>
    simp only [commits, List.countP_cons, Event.isCommit, if_true, List.length_cons] at ih ⊢
    rw [ih]

theorem Path.firstMatch {policy : Policy} {node node' : Nat} {gen gen' : BitVec 32} {log : List Event}
    (h : Path packets policy node gen log node' gen')
    : ∀ packet seq prev next, Event.commit packet seq prev next ∈ log →
        FirstMatch policy (packets packet) prev next := by
  induction h with
  | start => simp
  | commit h hmatch ih =>
    intro packet seq prev next hmem
    rcases List.mem_cons.mp hmem with heq | hmem
    . cases heq
      exact hmatch
    . exact ih packet seq prev next hmem

/-- Fewer than 2^32 numbers in a row are all different. -/
theorem nodup_numbers (gen : BitVec 32) {n : Nat} (hn : n < 2 ^ 32)
    : ((List.range n).map fun i => gen + BitVec.ofNat 32 (i + 1)).Nodup := by
  refine List.Nodup.map_on (fun i hi j hj heq => ?_) List.nodup_range
  rw [List.mem_range] at hi hj
  rcases Nat.le_total i j with hle | hle
  . have := eq_of_gen_eq (by omega) (by omega) heq
    omega
  . have := eq_of_gen_eq (by omega) (by omega) heq.symm
    omega

theorem steady_of_run {P : System → Action → Prop} (hP : ∀ s a, P s a → IsPacket s a) {s₀ s : System}
    (hinitial : Initial hash s₀) (hrun : Runs (step hash packets) P s₀ s) (hbound : commits s.log < 2 ^ 32)
    : Inv hash packets s₀ s ∧ Steady s₀ s := by
  refine Runs.invariant_below (I := fun s => Inv hash packets s₀ s ∧ Steady s₀ s) (μ := fun s => commits s.log)
    commits_le_step hrun hbound ⟨hinitial.inv, hinitial.steady⟩ fun s a hboth ha hlt => ?_
  rcases hP s a ha with ⟨i, rfl⟩
  exact ⟨hboth.1.handle (hboth.2.quiesced i) hlt, hboth.2.handle hboth.1 i⟩

/-- In every run of packets none of which is evaluated at a node past the table, the commits form one path through it. -/
theorem selector_path (hash : List UInt8 → Nat) (packets : Nat → Packet) (s₀ s : System) (hinitial : Initial hash s₀)
    (hrun : Runs (step hash packets) (fun s a => IsPacket s a ∧ OnTable s) s₀ s) (hbound : commits s.log < 2 ^ 32)
    : OnePath packets s₀ s := by
  rcases steady_of_run (fun _ _ h => h.1) hinitial hrun hbound with ⟨hinv, hsteady⟩
  have hlog : StartsOnTable s.inForce s.log := by
    refine Runs.invariant (I := fun s => StartsOnTable s.inForce s.log) hrun ?_ fun s a hlog ha => ?_
    . rw [hinitial.log]
      exact fun e he => nomatch he
    . rcases ha with ⟨⟨i, rfl⟩, hon⟩
      have hforce : (step hash packets s (.packet i)).inForce = s.inForce := inForce_handle s i
      rw [hforce]
      exact startsOnTable_handle hlog hon i
  rw [hsteady.inForce] at hlog
  rcases hinv.serial.path hlog with ⟨_, hpath⟩
  have hlength : s.log.length < 2 ^ 32 := by
    rw [← hpath.commits_eq]
    exact hbound
  refine ⟨⟨_, _, hpath⟩, hinv.once, hpath.numbers.2, ?_⟩
  rw [hpath.numbers.2]
  exact nodup_numbers s₀.sel.gen hlength

/- A table that leads nowhere else. -/

structure Closed (policy : Policy) : Prop where
  failsafe : PptSelect.failsafe policy < policy.1.nodes.length
  target : ∀ edge ∈ policy.1.edges, edge.target < policy.1.nodes.length

theorem Closed.next_lt {policy : Policy} (hclosed : Closed policy) {packet : Packet} {prev next : Nat}
    (h : FirstMatch policy packet prev next)
    : next < policy.1.nodes.length := by
  rcases h with ⟨index, node, result, _, _, hanswer⟩
  unfold withTarget at hanswer
  rcases Option.bind_eq_some_iff.mp hanswer.symm with ⟨i, _, hedge⟩
  rcases Option.map_eq_some_iff.mp hedge with ⟨edge, hget, heq⟩
  cases heq
  exact hclosed.target edge (List.mem_of_getElem? hget)

theorem onTable_setHandler {s : System} (hon : OnTable s) {i : Nat} {handler : Handler}
    (hcur : ∀ object failsafe attempt cur gen rest, handler = .evaluating object failsafe attempt cur gen rest →
      cur < s.inForce.1.nodes.length)
    : OnTable (s.setHandler i handler) := by
  intro i' object failsafe attempt cur gen rest hhandler
  by_cases heq : i' = i
  . subst heq
    simp only [System.setHandler, Function.update_self] at hhandler
    exact hcur object failsafe attempt cur gen rest hhandler
  . simp only [System.setHandler, Function.update_of_ne heq] at hhandler
    exact hon i' object failsafe attempt cur gen rest hhandler

section

variable {s₀ s : System} (hclosed : Closed s.inForce) (hinv : Inv hash packets s₀ s)
  (hsteady : Steady s₀ s) (hresident : s.sel.resident (failsafe s.inForce) < s.inForce.1.nodes.length)
  (hon : OnTable s)
include hclosed hinv hsteady hresident hon

theorem onTable_handle (i : Nat) (hbound : commits s.log < 2 ^ 32)
    : OnTable (handle packets s i)
        ∧ (handle packets s i).sel.resident (failsafe s.inForce) < s.inForce.1.nodes.length := by
  have hok := hinv.handlers i
  unfold PptSelect.handle
  split
  . exact ⟨onTable_setHandler hon (by simp), hresident⟩
  . next object failsafe attempt hhandler =>
    rw [hhandler] at hok
    split
    . refine ⟨onTable_setHandler hon fun _ _ _ cur _ _ heq => ?_, hresident⟩
      cases heq
      have hfailsafe := hok (hsteady.attached i object failsafe attempt hhandler) hsteady.idle
      unfold SelState.resident at hresident ⊢
      split
      . next hinited =>
        rwa [if_pos hinited] at hresident
      . next hinited =>
        rwa [if_neg hinited, ← hfailsafe (by simpa using hinited)] at hresident
    . exact ⟨onTable_setHandler hon (by simp), hresident⟩
  . next object failsafe attempt cur gen rest hhandler =>
    have hcur := hon i object failsafe attempt cur gen rest hhandler
    split
    . refine ⟨onTable_setHandler hon fun _ _ _ _ _ _ heq => ?_, hresident⟩
      cases heq
      exact hcur
    . exact ⟨onTable_setHandler hon (by simp), hresident⟩
    . split
      . next hgen =>
        rcases hinv.stands hhandler hgen hbound with ⟨_, _, hmatch⟩
        exact ⟨onTable_setHandler hon (by simp),
          hclosed.next_lt (hmatch hcur)⟩
      . exact ⟨onTable_setHandler hon (by simp), hresident⟩
  . exact ⟨hon, hresident⟩

end

/-- Over a closed table, a selector that starts at a node of it never leaves it. -/
theorem onTable_of_closed {s₀ s : System} (hinitial : Initial hash s₀) (hclosed : Closed s₀.inForce)
    (hstart : s₀.sel.resident (failsafe s₀.inForce) < s₀.inForce.1.nodes.length)
    (hrun : Runs (step hash packets) IsPacket s₀ s) (hbound : commits s.log < 2 ^ 32)
    : OnTable s ∧ s.sel.resident (failsafe s.inForce) < s.inForce.1.nodes.length := by
  induction hrun with
  | refl =>
    refine ⟨fun i _ _ _ _ _ _ hhandler => ?_, hstart⟩
    rw [hinitial.handlers i] at hhandler
    cases hhandler
  | @tail s s' hrun hstep ih =>
    rcases hstep with ⟨a, ⟨i, rfl⟩, rfl⟩
    have hmono : commits s.log ≤ commits (step hash packets s (.packet i)).log := commits_le_step s _
    have hbefore : commits s.log < 2 ^ 32 := by omega
    rcases ih hbefore with ⟨hon, hresident⟩
    rcases steady_of_run (fun _ _ h => h) hinitial hrun hbefore with ⟨hinv, hsteady⟩
    rw [← hsteady.inForce] at hclosed
    have hforce : (step hash packets s (.packet i)).inForce = s.inForce := inForce_handle s i
    rw [hforce]
    exact onTable_handle hclosed hinv hsteady hresident hon i hbefore

theorem run_onTable {s₀ s : System} (hinitial : Initial hash s₀) (hclosed : Closed s₀.inForce)
    (hstart : s₀.sel.resident (failsafe s₀.inForce) < s₀.inForce.1.nodes.length)
    (hrun : Runs (step hash packets) IsPacket s₀ s) (hbound : commits s.log < 2 ^ 32)
    : Runs (step hash packets) (fun s a => IsPacket s a ∧ OnTable s) s₀ s :=
  Runs.of_reached (μ := fun s => commits s.log) commits_le_step
    (fun _ hrun hlt _ ha => ⟨ha, (onTable_of_closed hinitial hclosed hstart hrun hlt).1⟩) hrun hbound

theorem run_packets (s : System) (l : List Nat)
    : Runs (step hash packets) IsPacket s ((l.map Action.packet).foldl (step hash packets) s) := by
  refine Runs.foldl s _ fun pre a post heq => ?_
  have hmem : a ∈ l.map Action.packet := by
    rw [heq]
    simp
  rcases List.mem_map.mp hmem with ⟨i, _, rfl⟩
  exact ⟨i, rfl⟩

/-- One node with one edge that is always taken. -/
def alwaysTo (target : UInt8 × UInt8) : List UInt8 :=
  [0x50, 0x50, 0x54, 0x4D, 1, 0, 0, 0, 0, 0, 0, 0, 1, 0, 1, 0, 1, 0, 0, 0, 0xFF, 0xFF, 4, 0, 1, 0, 0, 0]
    ++ [0, 0, 1, 0] ++ [target.1, target.2, 0, 0, 1, 0] ++ [0x03, 0x80]

/-- Its edge leads to node 0. -/
def loopPolicy : Policy :=
  ⟨(parseImageBuf (alwaysTo (0, 0))).get (by with_unfolding_all decide), _, (Option.some_get _).symm⟩

/-- Its edge leads to node 256, of a table of one node. -/
def phantomPolicy : Policy :=
  ⟨(parseImageBuf (alwaysTo (0, 1))).get (by with_unfolding_all decide), _, (Option.some_get _).symm⟩

/-- A policy just attached, seeded with node 0. -/
def seeded (policy : Policy) : System where
  maps _ := populateMaps (fun _ => 0) policy.1 noMaps
  attached := 0
  sel := { cur := 0, inited := true, gen := 0 }
  handlers _ := .waiting
  swaps _ := .idle
  inForce := policy
  log := []

theorem initial_seeded (policy : Policy)
    : Initial (fun _ => 0) (seeded policy) where
  tables := ⟨noMaps, rfl⟩
  handlers _ := rfl
  swaps _ := rfl
  log := rfl

def emptyPacket (_ : Nat) : Packet where
  fields := 0
  payload := []

/-- The steps of two handlers, one after the other. -/
def twoPackets : List Nat :=
  List.replicate 6 0 ++ List.replicate 6 1

theorem selector_takes_phantom_edge
    : ¬ ∀ (hash : List UInt8 → Nat) (packets : Nat → Packet) (s₀ s : System), Initial hash s₀ →
        Runs (step hash packets) IsPacket s₀ s → commits s.log < 2 ^ 32 → OnePath packets s₀ s := by
  intro hclaim
  have hlog
      : ((twoPackets.map Action.packet).foldl (step (fun _ => 0) emptyPacket) (seeded phantomPolicy)).log =
          [.commit 1 2 256 256, .commit 0 1 0 256] := by
    with_unfolding_all decide
  have honePath := hclaim (fun _ => 0) emptyPacket (seeded phantomPolicy) _ (initial_seeded phantomPolicy)
    (run_packets _ twoPackets) (by rw [hlog]; decide)
  rcases honePath.path with ⟨_, _, hpath⟩
  rcases hpath.firstMatch 1 2 256 256 (by rw [hlog]; exact List.mem_cons_self) with ⟨_, node, _, hnode, _⟩
  have hnone : phantomPolicy.1.nodes[256]? = none := by with_unfolding_all decide
  have hnode' : phantomPolicy.1.nodes[256]? = some node := hnode
  rw [hnone] at hnode'
  cases hnode'

theorem loopPolicy_path
    : OnePath emptyPacket (seeded loopPolicy) ((twoPackets.map Action.packet).foldl (step (fun _ => 0) emptyPacket) (seeded loopPolicy)) := by
  have hclosed : Closed loopPolicy := ⟨by with_unfolding_all decide, by with_unfolding_all decide⟩
  have hbound : commits ((twoPackets.map Action.packet).foldl (step (fun _ => 0) emptyPacket) (seeded loopPolicy)).log < 2 ^ 32 := by with_unfolding_all decide
  exact selector_path (fun _ => 0) emptyPacket (seeded loopPolicy) _ (initial_seeded loopPolicy)
    (run_onTable (initial_seeded loopPolicy) hclosed (by with_unfolding_all decide) (run_packets _ twoPackets) hbound) hbound

end PptSelect

open Evaluator PptImage PptKernel

namespace PptSelect

end PptSelect
