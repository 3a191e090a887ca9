import PrismPath.Hotswap.SignedImage

/-!
This module contains the version floor over runs of a policy host: it never falls, it admits a signed swap
above it or the very one that was interrupted, and an interrupted swap can be completed by retrying it.
-/

open Python PolicyPack Process

namespace PolicyHost

def Step.signed (step : Step) : Bool :=
  match step.call with
  | .swap call => !call.allowUnsigned
  | _ => false

/-- The policy of the pack a swap is given, when every check accepts it on the files as they stand. -/
def offered (cfg : Config) (m : Machine) (step : Step) : Option Policy :=
  match step.call, m.host with
  | .swap call, some _ =>
    match vet cfg call m.disk.pending.intent? (.ok m.disk.floor) with
    | .ok (.stage manifest image) =>
      match readPptHeader image with
      | .ok counts => some (newPolicy cfg call manifest image counts)
      | .error _ => none
    | _ => none
  | _, _ => none

/-- The policy a step gets to commit: its swap came through its checks. -/
def passing (cfg : Config) (m : Machine) (step : Step) : Option Policy :=
  match step.call, m.host with
  | .swap call, some host =>
    match (prepare cfg step.faults call ⟨m.disk, host⟩).1 with
    | .returned (.stage manifest image) =>
      match readPptHeader image with
      | .ok counts => some (newPolicy cfg call manifest image counts)
      | .error _ => none
    | _ => none
  | _, _ => none

/-- The policy a step makes active, its swap having returned. -/
def completing (cfg : Config) (m : Machine) (step : Step) : Option Policy :=
  match step.call, m.host with
  | .swap call, some host => active? (swap cfg step.faults call ⟨m.disk, host⟩).1
  | _, _ => none

def Policy.intent (policy : Policy) : Intent :=
  ⟨policy.sha256, policy.version⟩

/-- The signed swap a step interrupts, at whatever point: its pack is good, and it has not returned. -/
def interrupting (cfg : Config) (m : Machine) (step : Step) : Option Intent :=
  match offered cfg m step, completing cfg m step with
  | some policy, none => if step.signed then some policy.intent else none
  | _, _ => none

/-- A step accepts a version when its swap gets to append its audit event. -/
def accepting (cfg : Config) (m : Machine) (step : Step) : Option ℤ :=
  match passing cfg m step with
  | some policy =>
    match policy.version with
    | .int n =>
      if step.faults .writePending = .none && step.faults .writeVersion = .none
          && step.faults .swapEvent = .none then some n else none
    | _ => none
  | none => none

def Intent.same (intent other : Intent) : Bool :=
  intent.toHash = other.toHash && intent.version.eq other.version

/-- An interrupted swap is done with when it is completed, or a higher version accepted. -/
def settles (cfg : Config) (m : Machine) (step : Step) (intent : Intent) : Bool :=
  (completing cfg m step).any (fun policy => policy.intent.same intent) ||
    match accepting cfg m step, intent.version with
    | some n, .int v => v < n
    | _, _ => false

/-- The interrupted signed swaps that stand after a step. -/
def stillOpen (cfg : Config) (m : Machine) (opened : List Intent) (step : Step) : List Intent :=
  (opened.filter fun intent => !settles cfg m step intent) ++ (interrupting cfg m step).toList

/-- The runs from an empty state directory whose steps all meet `Ok`, with the swaps that stand interrupted. -/
inductive Run (cfg : Config) (Ok : Machine → List Intent → Step → Prop) : Machine → List Intent → Prop
  | fresh : Run cfg Ok ⟨{}, none⟩ []
  | step {m : Machine} {opened : List Intent} (step : Step) : Run cfg Ok m opened → Ok m opened step →
      Run cfg Ok (next cfg m step) (stillOpen cfg m opened step)

/--
A swap of another pack leaves an interrupted swap of version `v` its way to completion: it does not get to
write its intent record, or it is accepted at a higher version, or it leaves the floor below `v`.
-/
def Spares (floor : ℤ) (faults : Faults) (policy : Policy) (v : ℤ) : Prop :=
  faults .writePending ≠ .none
    ∨ (∃ n, policy.version = .int n ∧ v < n ∧ faults .writeVersion = .none ∧ faults .swapEvent = .none)
    ∨ (floor < v ∧ (policy.version = .none ∨ faults .writeVersion ≠ .none ∨ ∃ n, policy.version = .int n ∧ n < v))

structure StepOk (cfg : Config) (m : Machine) (opened : List Intent) (step : Step) : Prop where
  /-- The manifest of a signed pack gives its version as an integer. -/
  version : step.signed = true → ∀ policy, offered cfg m step = some policy → ∃ n, policy.version = .int n
  spares : ∀ policy, passing cfg m step = some policy → ∀ intent ∈ opened, ∀ v, intent.version = .int v →
    policy.intent ≠ intent → Spares m.disk.floor step.faults policy v

theorem settle_disk {α : Type} (r : Exit Raised α × World)
    : (settle r).disk = r.2.disk := by
  rcases r with ⟨x, w⟩
  cases x <;> rfl

theorem settleStart_disk {α : Type} (r : Exit Raised α × World)
    : (settleStart r).disk = r.2.disk := by
  rcases r with ⟨x, w⟩
  cases x <;> rfl

theorem offered_of_staged {cfg : Config} {disk : Disk} {host : Host} {call : SwapCall} {faults : Faults}
    {manifest : List (String × Value)} {image : List UInt8} {counts : Header}
    (hstaged : Staged cfg call disk manifest image) (hcounts : readPptHeader image = .ok counts)
    : offered cfg ⟨disk, some host⟩ ⟨.swap call, faults⟩ = some (newPolicy cfg call manifest image counts) := by
  unfold offered
  simp only [vet_of_staged hstaged hcounts, hcounts]

theorem staged_of_offered {cfg : Config} {m : Machine} {step : Step} {policy : Policy}
    (h : offered cfg m step = some policy)
    : ∃ call manifest image counts, step.call = .swap call ∧ m.host.isSome ∧ Staged cfg call m.disk manifest image
        ∧ readPptHeader image = .ok counts ∧ policy = newPolicy cfg call manifest image counts := by
  unfold offered at h
  split at h
  . next call host hcall hhost =>
    split at h
    . next manifest image hvet =>
      split at h
      . next counts hcounts =>
        cases h
        refine ⟨call, manifest, image, counts, hcall, by rw [hhost]; rfl, ?_, hcounts, rfl⟩
        exact (staged_of_vet (fun n hn => (Except.ok.inj hn).symm) hvet).1
      . cases h
    . cases h
  . cases h

/-- What a step does to the floor and to the record of the intent. -/
inductive Stepped (cfg : Config) (m : Machine) (step : Step) : Prop
  | keeps
      : (next cfg m step).disk.version = m.disk.version → (next cfg m step).disk.pending = m.disk.pending →
        passing cfg m step = none → completing cfg m step = none → Stepped cfg m step
  | commits {policy : Policy}
      : passing cfg m step = some policy → offered cfg m step = some policy →
        FloorEffect step.faults policy m.disk (completing cfg m step) (next cfg m step).disk →
        Stepped cfg m step

theorem stepped (cfg : Config) (m : Machine) (step : Step)
    : Stepped cfg m step := by
  rcases m with ⟨disk, host⟩
  rcases step with ⟨call, faults⟩
  cases call with
  | start call =>
    have h := (moves_sameFiles_start cfg faults call ⟨disk, {}⟩)
    refine .keeps ?_ ?_ rfl rfl
    . simp only [next, settleStart_disk]
      exact h.version
    . simp only [next, settleStart_disk]
      exact h.pending
  | rollback =>
    cases host with
    | none => exact .keeps rfl rfl rfl rfl
    | some host =>
      have h := moves_sameFloor_rollback cfg faults ⟨disk, host⟩
      refine .keeps ?_ ?_ rfl rfl
      . simp only [next, settle_disk]
        exact h.version
      . simp only [next, settle_disk]
        exact h.pending
  | swap call =>
    cases host with
    | none => exact .keeps rfl rfl rfl rfl
    | some host =>
      have hdisk : (next cfg ⟨disk, some host⟩ ⟨.swap call, faults⟩).disk
          = (swap cfg faults call ⟨disk, host⟩).2.disk := settle_disk _
      have hcases := swapped cfg faults call ⟨disk, host⟩
      cases hcases with
      | quiet hquiet hactive hpassing =>
        refine .keeps ?_ ?_ ?_ ?_
        . rw [hdisk]
          exact hquiet.version
        . rw [hdisk]
          exact hquiet.pending
        . -- no prepared stage, by hpassing
          simp only [passing]
        . simp only [completing]
          unfold active?
          split
          . next policy h => exact absurd h (hactive policy)
          . rfl
      | @committed manifest image counts w₁ _ _ hprepare hquiet hstaged hcounts hcommitted =>
        have hpassing : passing cfg ⟨disk, some host⟩ ⟨.swap call, faults⟩
            = some (newPolicy cfg call manifest image counts) := by
          simp only [passing, hprepare, hcounts]
        refine .commits hpassing (offered_of_staged hstaged hcounts) ?_
        rw [hdisk]
        exact (floorEffect_of_committed hcommitted).of_quiet hquiet

theorem order_int (n floor : ℤ)
    : (Value.int n).order .lt (.int floor) = some (decide (n < floor)) := by
  simp [Value.order, Value.scalarOrder, Value.num?, Value.OrderOp.num, Number.lt]

theorem eq_int (n floor : ℤ)
    : (Value.int n).eq (.int floor) = decide (n = floor) := by
  simp [Value.eq, Value.scalarEq, Value.complex?, Value.num?, Number.eq]

theorem heldBack_int {pending : Option Intent} {toHash : String} {n floor : ℤ}
    (h : heldBack pending toHash (.int n) floor = .ok false)
    : floor < n ∨ (floor = n ∧ resuming pending toHash (.int n) = true) := by
  simp only [heldBack, order_int, eq_int, Except.ok.injEq, Bool.or_eq_false_iff, decide_eq_false_iff_not,
    Bool.and_eq_false_iff, Bool.not_eq_false'] at h
  rcases h with ⟨hlt, hne | hresuming⟩
  . omega
  . rcases Int.lt_or_eq_of_le (Int.not_lt.mp hlt) with h | h
    . exact .inl h
    . exact .inr ⟨h, hresuming⟩

theorem heldBack_of_lt (pending : Option Intent) (toHash : String) {n floor : ℤ} (h : floor < n)
    : heldBack pending toHash (.int n) floor = .ok false := by
  simp only [heldBack, order_int, eq_int, decide_eq_false (show ¬ n < floor by omega),
    decide_eq_false (show ¬ n = floor by omega), Bool.false_and, Bool.or_false]

theorem heldBack_of_resuming {pending : Option Intent} {toHash : String} {n : ℤ}
    (h : resuming pending toHash (.int n) = true)
    : heldBack pending toHash (.int n) n = .ok false := by
  simp only [heldBack, order_int, eq_int, h, decide_eq_false (show ¬ n < n by omega), Bool.not_true,
    Bool.and_false, Bool.or_false]

theorem resuming_int {intent : Intent} {toHash : String} {n : ℤ}
    (h : resuming (some intent) toHash (.int n) = true)
    (hplain : intent.version = .none ∨ ∃ v, intent.version = .int v)
    : intent = ⟨toHash, .int n⟩ := by
  rcases intent with ⟨hash, version⟩
  simp only [resuming, Bool.and_eq_true, decide_eq_true_eq] at h
  rcases h with ⟨hsame, rfl⟩
  rcases hplain with hnone | ⟨v, hint⟩
  . dsimp only at hnone
    subst hnone
    simp [Value.eq, Value.scalarEq, Value.complex?, Value.num?] at hsame
  . dsimp only at hint
    subst hint
    rw [eq_int, decide_eq_true_eq] at hsame
    rw [hsame]

theorem resuming_self (toHash : String) (n : ℤ)
    : resuming (some ⟨toHash, .int n⟩) toHash (.int n) = true := by
  simp [resuming, eq_int]

/-- The swap of an intent can be completed: its version is above the floor, or it is the one being resumed. -/
def Stands (disk : Disk) (intent : Intent) : Prop :=
  ∃ v, intent.version = .int v ∧ (disk.floor < v ∨ (disk.floor = v ∧ disk.pending = .intent intent))

structure Inv (cfg : Config) (m : Machine) (opened : List Intent) : Prop where
  readable : m.disk.pending ≠ .unreadable
  plain : ∀ intent, m.disk.pending = .intent intent → intent.version = .none ∨ ∃ n, intent.version = .int n
  standing : ∀ intent ∈ opened, Stands m.disk intent
  owned : ∀ intent n, m.disk.pending = .intent intent → intent.version = .int n → intent ∈ opened
  separated : m.host.isSome = true ∨ opened ≠ [] → Separated cfg

/-- A signed pack whose version is an integer is above the floor, or resumes the swap of the record. -/
theorem stands_of_offered {cfg : Config} {m : Machine} {opened : List Intent} {step : Step} {policy : Policy}
    (hinv : Inv cfg m opened) (hsigned : step.signed = true) (hoffered : offered cfg m step = some policy)
    {n : ℤ} (hversion : policy.version = .int n)
    : m.disk.floor < n ∨ (m.disk.floor = n ∧ m.disk.pending = .intent policy.intent) := by
  rcases staged_of_offered hoffered with ⟨call, manifest, image, counts, hcall, _, hstaged, _, rfl⟩
  cases hstaged with
  | unsigned hunsigned => simp [Step.signed, hcall, hunsigned] at hsigned
  | @signed _ _ version _ _ _ _ hlookup hheld =>
    have hv : version = .int n := by
      rw [← hversion]
      simp [newPolicy, PolicyPack.get, hlookup]
    subst hv
    rcases heldBack_int hheld with hlt | ⟨heq, hresuming⟩
    . exact .inl hlt
    . refine .inr ⟨heq, ?_⟩
      cases hp : m.disk.pending with
      | missing => rw [hp] at hresuming; cases hresuming
      | unreadable => exact absurd hp hinv.readable
      | intent intent =>
        rw [hp] at hresuming
        rcases resuming_int hresuming (hinv.plain intent hp) with rfl
        simp only [Policy.intent, hversion]
        rfl

theorem unversioned_of_unsigned {cfg : Config} {m : Machine} {step : Step} {policy : Policy}
    (hunsigned : step.signed = false) (hoffered : offered cfg m step = some policy)
    : policy.version = .none := by
  rcases staged_of_offered hoffered with ⟨call, manifest, image, counts, hcall, _, hstaged, _, rfl⟩
  cases hstaged with
  | unsigned => rfl
  | signed hsigned => simp [Step.signed, hcall, hsigned] at hunsigned

theorem version_of_offered {cfg : Config} {m : Machine} {opened : List Intent} {step : Step} {policy : Policy}
    (hok : StepOk cfg m opened step) (hoffered : offered cfg m step = some policy)
    : (step.signed = false ∧ policy.version = .none) ∨ (step.signed = true ∧ ∃ n, policy.version = .int n) := by
  cases hsigned : step.signed with
  | false => exact .inl ⟨rfl, unversioned_of_unsigned hsigned hoffered⟩
  | true => exact .inr ⟨rfl, hok.version hsigned policy hoffered⟩

theorem interrupting_eq {cfg : Config} {m : Machine} {step : Step} {intent : Intent}
    (h : interrupting cfg m step = some intent)
    : ∃ policy, offered cfg m step = some policy ∧ completing cfg m step = none ∧ step.signed = true
        ∧ intent = policy.intent := by
  unfold interrupting at h
  split at h
  . next policy hoffered hcompleting =>
    split at h
    . next hsigned => exact ⟨policy, hoffered, hcompleting, hsigned, (Option.some.inj h).symm⟩
    . cases h
  . cases h

theorem mem_stillOpen {cfg : Config} {m : Machine} {opened : List Intent} {step : Step} {intent : Intent}
    : intent ∈ stillOpen cfg m opened step
        ↔ (intent ∈ opened ∧ settles cfg m step intent = false) ∨ interrupting cfg m step = some intent := by
  simp [stillOpen]

theorem settles_of_keeps {cfg : Config} {m : Machine} {step : Step} (hpassing : passing cfg m step = none)
    (hcompleting : completing cfg m step = none) (intent : Intent)
    : settles cfg m step intent = false := by
  simp [settles, accepting, hpassing, hcompleting]

theorem floor_of_version {disk disk' : Disk} (h : disk'.version = disk.version)
    : disk'.floor = disk.floor := by
  rw [Disk.floor, Disk.floor, h]

theorem floor_of_int {disk : Disk} {n : ℤ} (h : disk.version = some (.int n))
    : disk.floor = n := by
  rw [Disk.floor, h]
  rfl

theorem versioned_of_int {policy : Policy} {n : ℤ} (h : policy.version = .int n)
    : policy.versioned = true := by
  simp [Policy.versioned, h]

theorem not_versioned {policy : Policy} (h : policy.version = .none)
    : policy.versioned = false := by
  simp [Policy.versioned, h]

/-- A step that spares the interrupted swaps leaves each of them standing, unless it settles it. -/
theorem stands_commits {cfg : Config} {m : Machine} {opened : List Intent} {step : Step} {policy : Policy}
    (hok : StepOk cfg m opened step) (hinv : Inv cfg m opened) (hpassing : passing cfg m step = some policy)
    (hoffered : offered cfg m step = some policy)
    (heffect : FloorEffect step.faults policy m.disk (completing cfg m step) (next cfg m step).disk)
    {intent : Intent} (hopened : intent ∈ opened) (hsettles : settles cfg m step intent = false)
    : Stands (next cfg m step).disk intent := by
  rcases hinv.standing intent hopened with ⟨v, hv, hstands⟩
  have hversion := version_of_offered hok hoffered
  have hfloor {n : ℤ} (hn : policy.version = .int n) : m.disk.floor ≤ n := by
    rcases hversion with ⟨_, hnone⟩ | ⟨hsigned, _⟩
    . rw [hnone] at hn
      cases hn
    . rcases stands_of_offered hinv hsigned hoffered hn with h | h <;> omega
  by_cases hsame : policy.intent = intent
  . -- the swap of this very intent: completed, or its record is the one that stands
    subst hsame
    have hn : policy.version = .int v := hv
    refine ⟨v, hv, ?_⟩
    generalize hactive : completing cfg m step = active at heffect
    cases heffect with
    | nothing _ hdisk hpending =>
      rw [floor_of_version hdisk, hpending]
      exact hstands
    | intent _ _ hdisk hpending =>
      rw [floor_of_version hdisk]
      rcases hstands with h | h
      . exact .inl h
      . exact .inr ⟨h.1, hpending⟩
    | floor _ _ _ hdisk hpending =>
      rw [hn] at hdisk
      exact .inr ⟨floor_of_int hdisk, hpending⟩
    | done =>
      simp [settles, hactive, Intent.same, Policy.intent, hn, eq_int] at hsettles
  . have hspares := hok.spares policy hpassing intent hopened v hv hsame
    refine ⟨v, hv, ?_⟩
    -- an accepted higher version settles the swap
    have hnot : ¬ ∃ n, policy.version = .int n ∧ v < n ∧ step.faults .writePending = .none
        ∧ step.faults .writeVersion = .none ∧ step.faults .swapEvent = .none := by
      rintro ⟨n, hn, hlt, hpending, hwrite, hevent⟩
      simp [settles, accepting, hpassing, hn, hv, hpending, hwrite, hevent, hlt] at hsettles
    generalize hactive : completing cfg m step = active at heffect
    cases heffect with
    | nothing _ hdisk hpending =>
      rw [floor_of_version hdisk, hpending]
      exact hstands
    | intent hpending _ hdisk _ =>
      rw [floor_of_version hdisk]
      rcases hspares with h | ⟨n, hn, hlt, hwrite, hevent⟩ | ⟨hbelow, _⟩
      . exact absurd hpending h
      . exact absurd ⟨n, hn, hlt, hpending, hwrite, hevent⟩ hnot
      . exact .inl hbelow
    | floor hpending hversioned hwrite hdisk _ =>
      rcases hspares with h | ⟨n, hn, hlt, _, hevent⟩ | ⟨_, hnone | h | ⟨n, hn, hlt⟩⟩
      . exact absurd hpending h
      . exact absurd ⟨n, hn, hlt, hpending, hwrite, hevent⟩ hnot
      . rw [not_versioned hnone] at hversioned
        cases hversioned
      . exact absurd hwrite h
      . rw [hn] at hdisk
        rw [floor_of_int hdisk]
        exact .inl hlt
    | done hpending hwrite hevent hdisk _ =>
      rcases hspares with h | ⟨n, hn, hlt, hw, _⟩ | ⟨hbelow, hnone | h | ⟨n, hn, hlt⟩⟩
      . exact absurd hpending h
      . exact absurd ⟨n, hn, hlt, hpending, hw, hevent⟩ hnot
      . rw [not_versioned hnone] at hdisk
        rw [floor_of_version hdisk]
        exact .inl hbelow
      . rcases hversion with ⟨_, hnone⟩ | ⟨_, n, hn⟩
        . rw [not_versioned hnone] at hdisk
          rw [floor_of_version hdisk]
          exact .inl hbelow
        . exact absurd (hwrite (versioned_of_int hn)) h
      . rw [versioned_of_int hn, hn] at hdisk
        rw [floor_of_int hdisk]
        exact .inl hlt

theorem host_of_start {cfg : Config} {faults : Faults} {call : StartCall} {disk : Disk}
    (h : (settleStart (start cfg faults call ⟨disk, {}⟩)).host.isSome = true)
    : Separated cfg := by
  cases hstart : start cfg faults call ⟨disk, {}⟩ with
  | mk x w =>
    rw [hstart] at h
    cases x with
    | returned => exact (start_cases hstart).2 rfl
    | raised => cases h
    | killed => cases h

theorem separated_next {cfg : Config} {m : Machine} {step : Step} (h : m.host.isSome = true → Separated cfg)
    (hnext : (next cfg m step).host.isSome = true)
    : Separated cfg := by
  rcases m with ⟨disk, host⟩
  rcases step with ⟨call, faults⟩
  cases call with
  | start call => exact host_of_start hnext
  | swap call =>
    cases host with
    | none => exact h hnext
    | some host => exact h rfl
  | rollback =>
    cases host with
    | none => exact h hnext
    | some host => exact h rfl

theorem separated_stillOpen {cfg : Config} {m : Machine} {opened : List Intent} {step : Step}
    (hinv : Inv cfg m opened) (h : stillOpen cfg m opened step ≠ [])
    : Separated cfg := by
  rcases List.exists_mem_of_ne_nil _ h with ⟨intent, hmem⟩
  rcases mem_stillOpen.mp hmem with ⟨hopened, _⟩ | hnew
  . exact hinv.separated (.inr (List.ne_nil_of_mem hopened))
  . rcases interrupting_eq hnew with ⟨policy, hoffered, _⟩
    rcases staged_of_offered hoffered with ⟨_, _, _, _, _, hhost, _⟩
    exact hinv.separated (.inl hhost)

/-- The swap a step interrupts stands after it. -/
theorem stands_interrupting {cfg : Config} {m : Machine} {opened : List Intent} {step : Step} {intent : Intent}
    (hok : StepOk cfg m opened step) (hinv : Inv cfg m opened) (h : interrupting cfg m step = some intent)
    : Stands (next cfg m step).disk intent := by
  rcases interrupting_eq h with ⟨policy, hoffered, hcompleting, hsigned, rfl⟩
  rcases hok.version hsigned policy hoffered with ⟨n, hn⟩
  have hstands := stands_of_offered hinv hsigned hoffered hn
  refine ⟨n, hn, ?_⟩
  cases stepped cfg m step with
  | keeps hdisk hpending =>
    rw [floor_of_version hdisk, hpending]
    exact hstands
  | commits hpassing hoffered' heffect =>
    rw [hoffered] at hoffered'
    cases hoffered'
    rw [hcompleting] at heffect
    cases heffect with
    | nothing _ hdisk hpending =>
      rw [floor_of_version hdisk, hpending]
      exact hstands
    | intent _ _ hdisk hpending =>
      rw [floor_of_version hdisk]
      rcases hstands with h | h
      . exact .inl h
      . exact .inr ⟨h.1, hpending⟩
    | floor _ _ _ hdisk hpending =>
      rw [hn] at hdisk
      exact .inr ⟨floor_of_int hdisk, hpending⟩

/-- The record after a step: as it was, gone, or that of the pack the step interrupted. -/
theorem pending_next {cfg : Config} {m : Machine} {opened : List Intent} {step : Step}
    (hok : StepOk cfg m opened step)
    : ((next cfg m step).disk.pending = m.disk.pending ∧ ∀ intent, settles cfg m step intent = false)
        ∨ (next cfg m step).disk.pending = .missing
        ∨ ∃ policy : Policy, (next cfg m step).disk.pending = .intent policy.intent
            ∧ (policy.version = .none
              ∨ ((∃ n, policy.version = .int n) ∧ interrupting cfg m step = some policy.intent)) := by
  cases stepped cfg m step with
  | keeps _ hpending hpassing hcompleting =>
    exact .inl ⟨hpending, settles_of_keeps hpassing hcompleting⟩
  | @commits policy hpassing hoffered heffect =>
    have hrecord (hactive : completing cfg m step = none)
        : policy.version = .none
          ∨ ((∃ n, policy.version = .int n) ∧ interrupting cfg m step = some policy.intent) := by
      rcases version_of_offered hok hoffered with ⟨_, hnone⟩ | ⟨hsigned, hint⟩
      . exact .inl hnone
      . refine .inr ⟨hint, ?_⟩
        simp only [interrupting, hoffered, hactive, hsigned, if_true]
    generalize hactive : completing cfg m step = active at heffect
    cases heffect with
    | nothing hfault _ hpending =>
      refine .inl ⟨hpending, fun intent => ?_⟩
      have haccepting : accepting cfg m step = none := by
        unfold accepting
        rw [hpassing]
        dsimp only
        split
        . rw [if_neg (by simp [hfault])]
        . rfl
      simp [settles, hactive, haccepting]
    | intent _ _ _ hpending => exact .inr (.inr ⟨policy, hpending, hrecord hactive⟩)
    | floor _ _ _ _ hpending => exact .inr (.inr ⟨policy, hpending, hrecord hactive⟩)
    | done _ _ _ _ hpending => exact .inr (.inl hpending)

theorem inv_next {cfg : Config} {m : Machine} {opened : List Intent} {step : Step} (hinv : Inv cfg m opened)
    (hok : StepOk cfg m opened step)
    : Inv cfg (next cfg m step) (stillOpen cfg m opened step) where
  readable := by
    rcases pending_next hok with ⟨h, _⟩ | h | ⟨policy, h, _⟩
    . rw [h]
      exact hinv.readable
    . rw [h]
      simp
    . rw [h]
      simp
  plain := by
    intro intent hintent
    rcases pending_next hok with ⟨h, _⟩ | h | ⟨policy, h, hversion⟩
    . rw [h] at hintent
      exact hinv.plain intent hintent
    . rw [h] at hintent
      cases hintent
    . rw [h] at hintent
      cases hintent
      rcases hversion with hnone | ⟨hint, _⟩
      . exact .inl hnone
      . exact .inr hint
  standing := by
    intro intent hmem
    rcases mem_stillOpen.mp hmem with ⟨hopened, hsettles⟩ | hnew
    . cases stepped cfg m step with
      | keeps hdisk hpending =>
        rcases hinv.standing intent hopened with ⟨v, hv, hstands⟩
        refine ⟨v, hv, ?_⟩
        rw [floor_of_version hdisk, hpending]
        exact hstands
      | commits hpassing hoffered heffect =>
        exact stands_commits hok hinv hpassing hoffered heffect hopened hsettles
    . exact stands_interrupting hok hinv hnew
  owned := by
    intro intent n hintent hn
    rw [mem_stillOpen]
    rcases pending_next hok with ⟨h, hsettles⟩ | h | ⟨policy, h, hversion⟩
    . rw [h] at hintent
      exact .inl ⟨hinv.owned intent n hintent hn, hsettles intent⟩
    . rw [h] at hintent
      cases hintent
    . rw [h] at hintent
      cases hintent
      rcases hversion with hnone | ⟨_, hnew⟩
      . exact absurd (hnone.symm.trans hn) (by simp)
      . exact .inr hnew
  separated := by
    rintro (hhost | hopened)
    . exact separated_next (fun h => hinv.separated (.inl h)) hhost
    . exact separated_stillOpen hinv hopened

theorem inv_fresh (cfg : Config)
    : Inv cfg ⟨{}, none⟩ [] where
  readable := by simp
  plain := by simp
  standing := by simp
  owned := by simp
  separated := by simp

theorem inv_of_run {cfg : Config} {m : Machine} {opened : List Intent} (h : Run cfg (StepOk cfg) m opened)
    : Inv cfg m opened := by
  induction h with
  | fresh => exact inv_fresh cfg
  | step step _ hok ih => exact inv_next ih hok

theorem floor_le_next {cfg : Config} {m : Machine} {opened : List Intent} {step : Step} (hinv : Inv cfg m opened)
    (hok : StepOk cfg m opened step)
    : m.disk.floor ≤ (next cfg m step).disk.floor := by
  cases stepped cfg m step with
  | keeps hdisk => rw [floor_of_version hdisk]
  | @commits policy _ hoffered heffect =>
    have hversion := version_of_offered hok hoffered
    have hfloor {n : ℤ} (hsigned : step.signed = true) (hn : policy.version = .int n) : m.disk.floor ≤ n := by
      rcases stands_of_offered hinv hsigned hoffered hn with h | h <;> omega
    generalize completing cfg m step = active at heffect
    cases heffect with
    | nothing _ hdisk => rw [floor_of_version hdisk]
    | intent _ _ hdisk => rw [floor_of_version hdisk]
    | floor _ hversioned _ hdisk =>
      rcases hversion with ⟨_, hnone⟩ | ⟨hsigned, n, hn⟩
      . rw [not_versioned hnone] at hversioned
        cases hversioned
      . rw [hn] at hdisk
        rw [floor_of_int hdisk]
        exact hfloor hsigned hn
    | done _ _ _ hdisk =>
      rcases hversion with ⟨_, hnone⟩ | ⟨hsigned, n, hn⟩
      . rw [not_versioned hnone] at hdisk
        rw [floor_of_version hdisk]
      . rw [versioned_of_int hn, hn] at hdisk
        rw [floor_of_int hdisk]
        exact hfloor hsigned hn

/-- A signed swap of the pack of an intent: it comes through every check that does not read the floor. -/
structure Retries (cfg : Config) (intent : Intent) (call : SwapCall) (manifest : List (String × Value))
    (image : List UInt8) (counts : Header) : Prop where
  signed : call.allowUnsigned = false
  read : (call.files .image).image = some image
  verified : verifyPack cfg.lib cfg.pubkeys cfg.revoked call.files = .ok (.accepted manifest)
  envelope : checkEnvelope manifest image cfg.envelope = .ok []
  header : readPptHeader image = .ok counts
  version : manifest.lookup "version" = some intent.version
  digest : cfg.lib.sha256Hex image = intent.toHash

theorem staged_of_retries {cfg : Config} {disk : Disk} {intent : Intent} {call : SwapCall}
    {manifest : List (String × Value)} {image : List UInt8} {counts : Header} (hstands : Stands disk intent)
    (h : Retries cfg intent call manifest image counts)
    : Staged cfg call disk manifest image := by
  rcases intent with ⟨toHash, version⟩
  rcases hstands with ⟨v, hv, hfloor⟩
  dsimp only at hv
  subst hv
  refine .signed h.signed h.read h.verified h.envelope h.version ?_
  rw [h.digest]
  rcases hfloor with hlt | ⟨hfloor, hpending⟩
  . exact heldBack_of_lt _ _ hlt
  . rw [hfloor, hpending]
    exact heldBack_of_resuming (resuming_self toHash v)

/-- The version floor of a host, with the signed swaps that stand interrupted. -/
structure FloorKept (cfg : Config) (m : Machine) (opened : List Intent) : Prop where
  /-- No step lowers the floor. -/
  rises : ∀ step, StepOk cfg m opened step → m.disk.floor ≤ (next cfg m step).disk.floor
  /-- A signed swap gets through above the floor only, or when it is the one that was interrupted. -/
  above : ∀ step policy, StepOk cfg m opened step → step.signed = true → passing cfg m step = some policy →
    ∃ n, policy.version = .int n ∧ (m.disk.floor < n ∨ (m.disk.floor = n ∧ policy.intent ∈ opened))
  /-- What a signed swap is interrupted at can be retried as the same pack. -/
  retried : ∀ step intent, interrupting cfg m step = some intent →
    ∃ call manifest image counts, step.call = .swap call ∧ Retries cfg intent call manifest image counts
  /-- An interrupted swap completes when it is retried, by this process or by one started anew. -/
  completes : ∀ intent ∈ opened, ∀ faults, (∀ op, faults op = .none) →
    (∀ call, (start cfg faults call ⟨m.disk, {}⟩).1 = .returned ())
      ∧ ∀ host call manifest image counts, Retries cfg intent call manifest image counts →
        (swap cfg faults call ⟨m.disk, host⟩).1 = .returned (.active (newPolicy cfg call manifest image counts))

theorem retries_of_staged {cfg : Config} {call : SwapCall} {disk : Disk} {manifest : List (String × Value)}
    {image : List UInt8} {counts : Header} (hsigned : call.allowUnsigned = false)
    (hstaged : Staged cfg call disk manifest image) (hcounts : readPptHeader image = .ok counts)
    : Retries cfg (newPolicy cfg call manifest image counts).intent call manifest image counts := by
  cases hstaged with
  | unsigned hunsigned => rw [hsigned] at hunsigned; cases hunsigned
  | signed _ hread hverified henvelope hlookup =>
    refine ⟨hsigned, hread, hverified, henvelope, hcounts, ?_, rfl⟩
    simp [newPolicy, Policy.intent, PolicyPack.get, hlookup]

theorem retries_of_interrupting {cfg : Config} {m : Machine} {step : Step} {intent : Intent}
    (h : interrupting cfg m step = some intent)
    : ∃ call manifest image counts, step.call = .swap call ∧ Retries cfg intent call manifest image counts := by
  rcases interrupting_eq h with ⟨policy, hoffered, _, hsigned, rfl⟩
  rcases staged_of_offered hoffered with ⟨call, manifest, image, counts, hcall, _, hstaged, hcounts, rfl⟩
  rw [Step.signed, hcall, Bool.not_eq_true'] at hsigned
  exact ⟨call, manifest, image, counts, hcall, retries_of_staged hsigned hstaged hcounts⟩

theorem floor_kept (cfg : Config) (m : Machine) (opened : List Intent) (hrun : Run cfg (StepOk cfg) m opened)
    : FloorKept cfg m opened := by
  have hinv := inv_of_run hrun
  refine ⟨fun step hok => floor_le_next hinv hok, ?_, fun step intent => retries_of_interrupting, ?_⟩
  . intro step policy hok hsigned hpassing
    have hoffered : offered cfg m step = some policy := by
      cases stepped cfg m step with
      | keeps _ _ hnone => rw [hpassing] at hnone; cases hnone
      | commits hpassing' hoffered =>
        rw [hpassing] at hpassing'
        cases hpassing'
        exact hoffered
    rcases hok.version hsigned policy hoffered with ⟨n, hn⟩
    refine ⟨n, hn, ?_⟩
    rcases stands_of_offered hinv hsigned hoffered hn with hlt | ⟨heq, hpending⟩
    . exact .inl hlt
    . exact .inr ⟨heq, hinv.owned policy.intent n hpending hn⟩
  . intro intent hopened faults hfaults
    refine ⟨fun call => ?_, fun host call manifest image counts hretries => ?_⟩
    . exact start_noFaults call _ hfaults (hinv.separated (.inr (List.ne_nil_of_mem hopened))) hinv.readable
    . exact swap_of_staged _ hfaults hinv.readable (staged_of_retries (hinv.standing intent hopened) hretries)
        hretries.header

/- The pack of version 1 is interrupted once its floor is written, and the process started again. -/

def startStep : Step :=
  ⟨.start {}, noFaults⟩

def killedStep : Step :=
  ⟨.swap { files := fun _ => packOne }, fun op => if op = .swapEvent then .kill else .none⟩

def unsignedStep : Step :=
  ⟨.swap { files := replacedPack, allowUnsigned := true }, noFaults⟩

def intentOne : Intent :=
  ⟨digestOne, .int 1⟩

def started : Machine :=
  next demoConfig ⟨{}, none⟩ startStep

def interrupted : Machine :=
  next demoConfig started killedStep

def restarted : Machine :=
  next demoConfig interrupted startStep

/-- A checked pack gets to its commit when the operations before it do not fail. -/
theorem passing_of_staged {cfg : Config} {disk : Disk} {call : SwapCall} (host : Host) (faults : Faults)
    {manifest : List (String × Value)} {image : List UInt8} {counts : Header}
    (hfaults : ∀ op ∈ checking, faults op = .none) (hreadable : disk.pending ≠ .unreadable)
    (hstaged : Staged cfg call disk manifest image) (hcounts : readPptHeader image = .ok counts)
    : passing cfg ⟨disk, some host⟩ ⟨.swap call, faults⟩ = some (newPolicy cfg call manifest image counts) := by
  rcases prepare_of_staged ⟨disk, host⟩ hfaults hreadable hstaged hcounts with ⟨t, hprepare⟩
  simp only [passing, hprepare, hcounts]

theorem stagedOne
    : Staged demoConfig { files := fun _ => packOne } {} manifestOne imageOne :=
  staged_one (fun _ => packOne) (fun _ _ => rfl) rfl (by with_unfolding_all decide)

theorem intent_one (counts : Header)
    : (newPolicy demoConfig { files := fun _ => packOne } manifestOne imageOne counts).intent = intentOne :=
  congrArg₂ Intent.mk (show demoLibrary.sha256Hex imageOne = digestOne by with_unfolding_all decide) rfl

/-- A start that meets no fault leaves a host, and the floor and the record as they were. -/
theorem start_step {cfg : Config} (m : Machine) (call : StartCall) {faults : Faults}
    (hfaults : ∀ op, faults op = .none) (hseparated : Separated cfg) (hreadable : m.disk.pending ≠ .unreadable)
    : ∃ host, next cfg m ⟨.start call, faults⟩ = ⟨(next cfg m ⟨.start call, faults⟩).disk, some host⟩
        ∧ (next cfg m ⟨.start call, faults⟩).disk.version = m.disk.version
        ∧ (next cfg m ⟨.start call, faults⟩).disk.pending = m.disk.pending := by
  cases hstart : start cfg faults call ⟨m.disk, {}⟩ with
  | mk x w =>
    have hreturned := start_noFaults call ⟨m.disk, {}⟩ hfaults hseparated hreadable
    rw [hstart] at hreturned
    dsimp only at hreturned
    subst hreturned
    have hsame := (start_cases hstart).1
    have hnext : next cfg m ⟨.start call, faults⟩ = ⟨w.disk, some w.host⟩ := by
      simp only [next, hstart, settleStart]
    rw [hnext]
    exact ⟨w.host, rfl, hsame.version, hsame.pending⟩

/-- The killed swap has written its intent and its floor, and nothing after. -/
theorem killed_step
    : interrupting demoConfig started killedStep = some intentOne
        ∧ interrupted.disk.floor = 1 ∧ interrupted.disk.pending = .intent intentOne := by
  rcases exists_header imageOne (by with_unfolding_all decide) with ⟨counts, hcounts⟩
  have hpassing := passing_of_staged {} killedStep.faults (by decide) (by simp) stagedOne hcounts
  cases stepped demoConfig started killedStep with
  | keeps _ _ hnone => exact absurd (hpassing.symm.trans hnone) (by simp)
  | commits hpassing' hoffered heffect =>
    cases hpassing.symm.trans hpassing'
    generalize hactive : completing demoConfig started killedStep = active at heffect
    cases heffect with
    | nothing hfault => exact absurd rfl hfault
    | intent _ hfault => exact absurd rfl (hfault rfl)
    | done _ _ hfault => cases hfault
    | floor _ _ _ hdisk hpending =>
      refine ⟨?_, floor_of_int hdisk, ?_⟩
      . simp only [interrupting, hoffered, hactive, show killedStep.signed = true from rfl, if_true, intent_one]
      . rw [← intent_one counts]
        exact hpending

theorem restarted_of_start
    : restarted.disk.floor = 1 ∧ restarted.disk.pending = .intent intentOne
        ∧ ∃ host, restarted = ⟨restarted.disk, some host⟩ := by
  rcases killed_step with ⟨_, hfloor, hpending⟩
  have hseparated : Separated demoConfig := fun keyId hkey => by cases hkey
  rcases start_step interrupted {} noFaults_none hseparated (by simp [hpending]) with ⟨host, hnext, hversion, hrecord⟩
  exact ⟨(floor_of_version hversion).trans hfloor, hrecord.trans hpending, host, hnext⟩

/-- The unsigned swap leaves the floor, takes the record of the interrupted swap, and settles nothing. -/
theorem unsigned_step
    : settles demoConfig restarted unsignedStep intentOne = false
        ∧ (next demoConfig restarted unsignedStep).disk.floor = 1
        ∧ (next demoConfig restarted unsignedStep).disk.pending = .missing := by
  rcases restarted_of_start with ⟨hfloor, hpending, host, heq⟩
  have hstaged : Staged demoConfig { files := replacedPack, allowUnsigned := true } restarted.disk
      (unsignedManifest demoConfig (demoLibrary.sha256Hex imageTwo)) imageTwo :=
    .unsigned rfl rfl (by with_unfolding_all decide)
  rcases exists_header imageTwo (by with_unfolding_all decide) with ⟨counts, hcounts⟩
  have hreadable : restarted.disk.pending ≠ .unreadable := by simp [hpending]
  have hpassing := passing_of_staged host noFaults (fun _ _ => rfl) hreadable hstaged hcounts
  have hactive : completing demoConfig ⟨restarted.disk, some host⟩ unsignedStep
      = some (newPolicy demoConfig { files := replacedPack, allowUnsigned := true }
          (unsignedManifest demoConfig (demoLibrary.sha256Hex imageTwo)) imageTwo counts) :=
    congrArg active? (swap_of_staged ⟨restarted.disk, host⟩ noFaults_none hreadable hstaged hcounts)
  rw [← heq] at hpassing hactive
  have hnone : (newPolicy demoConfig { files := replacedPack, allowUnsigned := true }
      (unsignedManifest demoConfig (demoLibrary.sha256Hex imageTwo)) imageTwo counts).version = .none := rfl
  refine ⟨?_, ?_⟩
  . have haccepting : accepting demoConfig restarted unsignedStep = none := by
      unfold accepting
      rw [show passing demoConfig restarted unsignedStep = _ from hpassing]
      rfl
    simp only [settles, hactive, haccepting, Option.any_some, Bool.or_false, Intent.same, Policy.intent, hnone,
      intentOne]
    simp [Value.eq, Value.scalarEq, Value.complex?, Value.num?]
  . cases stepped demoConfig restarted unsignedStep with
    | keeps _ _ hnone => exact absurd (hpassing.symm.trans hnone) (by simp)
    | commits hpassing' _ heffect =>
      cases hpassing.symm.trans hpassing'
      rw [hactive] at heffect
      cases heffect with
      | done _ _ _ hdisk hpending' =>
        rw [not_versioned hnone] at hdisk
        rw [floor_of_version hdisk]
        exact ⟨hfloor, hpending'⟩

theorem retries_one
    : ∃ counts, Retries demoConfig intentOne { files := fun _ => packOne } manifestOne imageOne counts := by
  rcases exists_header imageOne (by with_unfolding_all decide) with ⟨counts, hcounts⟩
  refine ⟨counts, ?_⟩
  rw [← intent_one counts]
  exact retries_of_staged rfl stagedOne hcounts

/-- An unsigned swap takes the way to completion from an interrupted signed one. -/
theorem interrupted_swap_stuck
    : ¬ ∀ (cfg : Config) (m : Machine) (opened : List Intent), Run cfg (fun _ _ _ => True) m opened →
        ∀ intent ∈ opened, ∀ faults host call manifest image counts, (∀ op, faults op = .none) →
          Retries cfg intent call manifest image counts →
          (swap cfg faults call ⟨m.disk, host⟩).1 = .returned (.active (newPolicy cfg call manifest image counts)) := by
  intro hclaim
  rcases killed_step with ⟨hinterrupting, _, _⟩
  rcases unsigned_step with ⟨hsettles, hfloor, hpending⟩
  rcases retries_one with ⟨counts, hretries⟩
  have hfresh : Run demoConfig (fun _ _ _ => True) ⟨{}, none⟩ [] := .fresh
  have hrun := (((hfresh.step startStep trivial).step killedStep trivial).step startStep trivial).step
    unsignedStep trivial
  have hopened : intentOne ∈ stillOpen demoConfig started (stillOpen demoConfig ⟨{}, none⟩ [] startStep) killedStep :=
    mem_stillOpen.mpr (.inr hinterrupting)
  have hkept : settles demoConfig interrupted startStep intentOne = false := settles_of_keeps rfl rfl intentOne
  have hok := hclaim demoConfig _ _ hrun intentOne
    (mem_stillOpen.mpr (.inl ⟨mem_stillOpen.mpr (.inl ⟨hopened, hkept⟩), hsettles⟩))
    noFaults {} { files := fun _ => packOne } manifestOne imageOne counts (fun _ => rfl) hretries
  -- at the floor without the record, the version is held back
  have hcases := swap_cases (Prod.ext hok rfl)
  cases hcases with
  | quiet _ hactive _ => exact hactive _ rfl
  | @committed manifest _ _ _ _ _ _ _ hstaged _ _ =>
    cases hstaged with
    | unsigned hunsigned => cases hunsigned
    | signed _ hread hverified _ hlookup hheld =>
      cases hread
      rw [hretries.verified] at hverified
      cases hverified
      change heldBack (next demoConfig restarted unsignedStep).disk.pending.intent? _ _
        (next demoConfig restarted unsignedStep).disk.floor = _ at hheld
      rw [hfloor, hpending] at hheld
      have hversion := Option.some.inj (hretries.version.symm.trans hlookup)
      rw [← hversion] at hheld
      rcases heldBack_int hheld with h | ⟨_, h⟩
      . omega
      . cases h

/-- The interrupted pack of version 1 still has its way to completion. -/
theorem floor_kept_one
    : ∃ m opened, intentOne ∈ opened ∧ FloorKept demoConfig m opened := by
  have hstart : StepOk demoConfig ⟨{}, none⟩ [] startStep := ⟨fun h => (by cases h), fun policy h => (by cases h)⟩
  have hkilled : StepOk demoConfig started (stillOpen demoConfig ⟨{}, none⟩ [] startStep) killedStep := by
    refine ⟨fun _ policy hoffered => ?_, fun policy _ intent hintent => (by cases hintent)⟩
    rcases staged_of_offered hoffered with ⟨call, manifest, image, counts, hcall, _, hstaged, _, rfl⟩
    cases hcall
    cases hstaged with
    | unsigned hunsigned => cases hunsigned
    | signed _ _ hverified =>
      rw [show demoConfig.lib = demoLibrary from rfl, show demoConfig.pubkeys = [some authorityKey] from rfl,
        show demoConfig.revoked = [] from rfl, verifyPack_one (fun _ _ => rfl)] at hverified
      cases hverified
      exact ⟨1, rfl⟩
  have hfresh : Run demoConfig (StepOk demoConfig) ⟨{}, none⟩ [] := .fresh
  have hrun := (hfresh.step startStep hstart).step killedStep hkilled
  refine ⟨interrupted, _, ?_, floor_kept demoConfig interrupted _ hrun⟩
  exact mem_stillOpen.mpr (.inr killed_step.1)

end PolicyHost
