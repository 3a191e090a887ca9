import PrismPath.Hotswap.FloorRuns
import PrismPath.Hotswap.SignedImage

/-!
This module contains the order of evidence and effect in the calls of a policy host: a swap changes the active policy
only after its event is in the log, a rollback before; and what a fresh host restores after a swap that stopped
anywhere: the policy that was active or the one the swap commits, unless the swap stopped between the image and its
record.
-/

open Python PolicyPack Process

namespace PolicyHost

/-- What a call of a running host leaves, whether it returned, raised or was killed. -/
def called (cfg : Config) (faults : Faults) (call : Call) (w : World) : World :=
  match call with
  | .swap call => (swap cfg faults call w).2
  | .rollback => (rollback cfg faults w).2
  | .start call => (start cfg faults call w).2

/-- The active policy, in memory and in its two files. -/
structure SameActive (w w' : World) : Prop where
  active : w'.host.active = w.host.active
  image : w'.disk.image = w.disk.image
  record : w'.disk.record = w.disk.record

/-- The events a call may append for the change to a policy. -/
def changeEvent (policy : Policy) (w : World) : Call → Event
  | .rollback => rollbackEvent policy
  | _ => swapEvent policy w

/-- The active policy and its files are as they were, or they are those of one policy whose event was appended. -/
def EvidenceFirst (call : Call) (w w' : World) : Prop :=
  ∃ events, w'.disk.log = w.disk.log ++ events
    ∧ (SameActive w w'
      ∨ ∃ policy, changeEvent policy w call ∈ events
        ∧ (w'.host.active = w.host.active ∨ w'.host.active = some policy)
        ∧ (w'.disk.image = w.disk.image ∨ w'.disk.image = some policy.image)
        ∧ (w'.disk.record = w.disk.record ∨ w'.disk.record = .record policy.toRecord))

/--
A rollback does not get to its first write, or it gets its event appended; where it fails in between, what it
had written by then was there already.
-/
def RollbackOk (faults : Faults) (w : World) : Prop :=
  ∀ prev, w.host.prev = some prev → faults .writeImage = .none →
    (faults .writeRecord ≠ .none → w.disk.image = some prev.image)
      ∧ (faults .writeRecord = .none → faults .rollbackEvent ≠ .none →
          w.disk.image = some prev.image ∧ w.disk.record = .record prev.toRecord ∧ w.host.active = some prev)

theorem SameActive.of_quiet {w w' : World} (h : Quiet w w')
    : SameActive w w' :=
  ⟨h.active, h.image, h.record⟩

theorem floored_active (policy : Policy) (w : World)
    : SameActive w (floored policy (intended policy w)) := by
  unfold floored
  split <;> exact ⟨rfl, rfl, rfl⟩

theorem floored_log (policy : Policy) (w : World)
    : (floored policy (intended policy w)).disk.log = w.disk.log := by
  unfold floored
  split <;> rfl

theorem swapEvent_of_quiet {w w₁ : World} (h : Quiet w w₁) (policy : Policy)
    : swapEvent policy w₁ = swapEvent policy w := by
  simp only [swapEvent, Host.activeHash, h.active]

/-- A commit that got past its event has logged it, and has touched nothing but the active policy since. -/
theorem evidenceFirst_of_committed {cfg : Config} {faults : Faults} {call : SwapCall} {policy : Policy}
    {w w₁ w' : World} {x : Exit Raised Reply} (hquiet : Quiet w w₁) (h : Committed cfg faults policy w₁ x w')
    : EvidenceFirst (.swap call) w w' := by
  rcases hquiet.log with ⟨events, hlog, _⟩
  have hsame : SameActive w w₁ := .of_quiet hquiet
  have hfloored := floored_active policy w₁
  have hevidence {w' : World} (hlog' : w'.disk.log = (evidenced policy w₁).disk.log)
      (hactive : w'.host.active = w₁.host.active ∨ w'.host.active = some policy)
      (himage : w'.disk.image = w₁.disk.image ∨ w'.disk.image = some policy.image)
      (hrecord : w'.disk.record = w₁.disk.record ∨ w'.disk.record = .record policy.toRecord)
      : EvidenceFirst (.swap call) w w' := by
    refine ⟨events ++ [swapEvent policy w₁], ?_, .inr ⟨policy, ?_, ?_, ?_, ?_⟩⟩
    . rw [hlog', evidenced, logged, floored_log, hlog, List.append_assoc]
    . rw [swapEvent_of_quiet hquiet]
      simp [changeEvent]
    . rwa [hsame.active] at hactive
    . rwa [hsame.image] at himage
    . rwa [hsame.record] at hrecord
  have hbefore {w' : World} (hlog' : w'.disk.log = w₁.disk.log) (hactive : SameActive w₁ w')
      : EvidenceFirst (.swap call) w w' := by
    refine ⟨events, hlog'.trans hlog, .inl ⟨?_, ?_, ?_⟩⟩
    . rw [hactive.active, hsame.active]
    . rw [hactive.image, hsame.image]
    . rw [hactive.record, hsame.record]
  cases h with
  | atIntent => exact hbefore rfl ⟨rfl, rfl, rfl⟩
  | atFloor => exact hbefore rfl ⟨rfl, rfl, rfl⟩
  | atEvent => exact hbefore (floored_log policy w₁) hfloored
  | atEvidence => exact hevidence rfl (.inl hfloored.active) (.inl hfloored.image) (.inl hfloored.record)
  | atRecord => exact hevidence rfl (.inl hfloored.active) (.inr rfl) (.inl hfloored.record)
  | atRemove => exact hevidence rfl (.inr rfl) (.inr rfl) (.inr rfl)
  | done => exact hevidence rfl (.inr rfl) (.inr rfl) (.inr rfl)

theorem evidenceFirst_swap (cfg : Config) (faults : Faults) (call : SwapCall) (w : World)
    : EvidenceFirst (.swap call) w (swap cfg faults call w).2 := by
  cases h : swap cfg faults call w with
  | mk x w' =>
    cases swap_cases h with
    | quiet hquiet =>
      rcases hquiet.log with ⟨events, hlog, _⟩
      exact ⟨events, hlog, .inl (.of_quiet hquiet)⟩
    | committed _ hquiet _ _ hcommitted => exact evidenceFirst_of_committed hquiet hcommitted

theorem evidenceFirst_rollback_iff (cfg : Config) (faults : Faults) (w : World)
    : EvidenceFirst .rollback w (rollback cfg faults w).2 ↔ RollbackOk faults w := by
  have hunlogged {w' : World} (hlog : w'.disk.log = w.disk.log)
      : EvidenceFirst .rollback w w' ↔ SameActive w w' := by
    constructor
    . rintro ⟨events, hevents, hsame | ⟨policy, hmem, _⟩⟩
      . exact hsame
      . rw [hlog] at hevents
        rw [List.append_right_eq_self.mp hevents.symm] at hmem
        cases hmem
    . intro hsame
      exact ⟨[], by rw [hlog, List.append_nil], .inl hsame⟩
  have hcases : RolledBack cfg faults w (rollback cfg faults w).1 (rollback cfg faults w).2 := rollback_cases rfl
  generalize (rollback cfg faults w).1 = x, (rollback cfg faults w).2 = w' at hcases
  cases hcases with
  | noPrevious hprev =>
    rw [hunlogged rfl]
    constructor
    . intro _ prev hsome
      rw [hprev] at hsome
      cases hsome
    . intro _
      exact ⟨rfl, rfl, rfl⟩
  | @atImage prev _ hprev himage =>
    rw [hunlogged rfl]
    exact ⟨fun _ _ _ hnone => absurd hnone himage, fun _ => ⟨rfl, rfl, rfl⟩⟩
  | @atRecord prev _ hprev himage hrecord =>
    rw [show EvidenceFirst .rollback w (imaged prev w) ↔ _ from hunlogged rfl]
    constructor
    . intro hsame prev' hprev' _
      cases Option.some.inj (hprev.symm.trans hprev')
      exact ⟨fun _ => hsame.image.symm, fun hnone => absurd hnone hrecord⟩
    . intro hok
      exact ⟨rfl, ((hok prev hprev himage).1 hrecord).symm, rfl⟩
  | @atEvent prev _ hprev himage hrecord hevent =>
    rw [show EvidenceFirst .rollback w (unrolled prev (recorded prev (imaged prev w))) ↔ _ from hunlogged rfl]
    constructor
    . intro hsame prev' hprev' _
      cases Option.some.inj (hprev.symm.trans hprev')
      exact ⟨fun hfails => absurd hrecord hfails,
        fun _ _ => ⟨hsame.image.symm, hsame.record.symm, hsame.active.symm⟩⟩
    . intro hok
      rcases (hok prev hprev himage).2 hrecord hevent with ⟨h₁, h₂, h₃⟩
      exact ⟨h₃.symm, h₁.symm, h₂.symm⟩
  | @logged prev _ hprev himage hrecord hevent =>
    constructor
    . intro _ _ _ _
      exact ⟨fun hfails => absurd hrecord hfails, fun _ hfails => absurd hevent hfails⟩
    . intro _
      exact ⟨[rollbackEvent prev], rfl,
        .inr ⟨prev, List.mem_singleton_self _, .inr rfl, .inr rfl, .inr rfl⟩⟩

/-- `P` holds at each step of a sequence of calls. -/
def Along (cfg : Config) (P : Machine → Step → Prop) : Machine → List Step → Prop
  | _, [] => True
  | m, step :: steps => P m step ∧ Along cfg P (next cfg m step) steps

/-- A step that is a swap or a rollback of a running host puts its evidence before its effect. -/
def Evident (cfg : Config) (m : Machine) (step : Step) : Prop :=
  match step.call, m.host with
  | .start _, _ => True
  | call, some host => EvidenceFirst call ⟨m.disk, host⟩ (called cfg step.faults call ⟨m.disk, host⟩)
  | _, none => True

/-- A step that is a rollback of a running host gets its event appended before it fails, or changes nothing. -/
def RollbackSound (m : Machine) (step : Step) : Prop :=
  match step.call, m.host with
  | .rollback, some host => RollbackOk step.faults ⟨m.disk, host⟩
  | _, _ => True

theorem evident_iff (cfg : Config) (m : Machine) (step : Step)
    : Evident cfg m step ↔ RollbackSound m step := by
  rcases m with ⟨disk, host⟩
  rcases step with ⟨call, faults⟩
  cases call with
  | start call => exact Iff.rfl
  | swap call =>
    cases host with
    | none => exact Iff.rfl
    | some host => exact iff_true_intro (evidenceFirst_swap cfg faults call ⟨disk, host⟩)
  | rollback =>
    cases host with
    | none => exact Iff.rfl
    | some host => exact evidenceFirst_rollback_iff cfg faults ⟨disk, host⟩

theorem evidence_before_effect (cfg : Config) (m : Machine) (steps : List Step)
    : Along cfg (Evident cfg) m steps ↔ Along cfg RollbackSound m steps := by
  induction steps generalizing m with
  | nil => exact Iff.rfl
  | cons step steps ih => exact and_congr (evident_iff cfg m step) (ih (next cfg m step))

/- Two images swapped in, and a rollback whose event cannot be appended. -/

def unsignedCall (image : List UInt8) : SwapCall where
  files _ := { packOne with image := some image }
  allowUnsigned := true

def unloggedRollback : Step :=
  ⟨.rollback, fun op => if op = .rollbackEvent then .error else .none⟩

theorem staged_unsigned (disk : Disk) (image : List UInt8) (h : validateImage image .none = .ok [])
    : Staged demoConfig (unsignedCall image) disk (unsignedManifest demoConfig (demoLibrary.sha256Hex image)) image :=
  .unsigned rfl rfl h

/-- A rollback changes the active policy although its event is not appended. -/
theorem rollback_unlogged
    : ¬ ∀ (cfg : Config) (steps : List Step), Along cfg (Evident cfg) ⟨{}, none⟩ steps := by
  intro hclaim
  rcases exists_header imageOne (by with_unfolding_all decide) with ⟨countsOne, hcountsOne⟩
  rcases exists_header imageTwo (by with_unfolding_all decide) with ⟨countsTwo, hcountsTwo⟩
  have hstart : next demoConfig ⟨{}, none⟩ ⟨.start {}, noFaults⟩ = ⟨{}, some {}⟩ := rfl
  have hstagedOne := staged_unsigned {} imageOne (by with_unfolding_all decide)
  rcases swap_step {} noFaults_none (by simp) hstagedOne hcountsOne
    with ⟨disk₁, host₁, hfirst, hactive₁, _, _, _, hpending₁⟩
  have hstagedTwo := staged_unsigned disk₁ imageTwo (by with_unfolding_all decide)
  rcases swap_step host₁ noFaults_none (by simp [hpending₁]) hstagedTwo hcountsTwo
    with ⟨disk₂, host₂, hsecond, _, hprev₂, himage₂, _⟩
  have halong := hclaim demoConfig [⟨.start {}, noFaults⟩, ⟨.swap (unsignedCall imageOne), noFaults⟩,
    ⟨.swap (unsignedCall imageTwo), noFaults⟩, unloggedRollback]
  simp only [Along, hstart, hfirst, hsecond] at halong
  have hsound := (evident_iff _ _ _).mp halong.2.2.2.1
  rcases (hsound _ (hprev₂.trans hactive₁) rfl).2 rfl (by decide) with ⟨himage, _⟩
  have hsame : imageTwo = imageOne := Option.some.inj (himage₂.symm.trans himage)
  revert hsame
  decide

end PolicyHost

open Python PolicyPack Process

namespace PolicyHost

theorem restored_eq {cfg : Config} {record : Record} {image : List UInt8} {policy : Policy}
    (h : restored cfg record image = some policy)
    : cfg.lib.sha256Hex image = record.sha256 ∧ policy = { record with image } := by
  unfold restored at h
  split at h
  . next hdigest => exact ⟨hdigest, (Option.some.inj h).symm⟩
  . cases h

theorem restored_self {cfg : Config} {policy : Policy} (h : cfg.lib.sha256Hex policy.image = policy.sha256)
    : restored cfg policy.toRecord policy.image = some policy := by
  unfold restored
  rw [if_pos h]

theorem restore_congr {cfg : Config} {disk disk' : Disk} (hrecord : disk'.record = disk.record)
    (himage : disk'.image = disk.image)
    : disk'.restore cfg = disk.restore cfg := by
  simp only [Disk.restore, hrecord, himage]

theorem restore_self {cfg : Config} {disk : Disk} {policy : Policy} (hrecord : disk.record = .record policy.toRecord)
    (himage : disk.image = some policy.image) (h : cfg.lib.sha256Hex policy.image = policy.sha256)
    : disk.restore cfg = some policy := by
  simp only [Disk.restore, hrecord, himage, restored_self h]

theorem digest_of_restore {cfg : Config} {disk : Disk} {policy : Policy} (h : disk.restore cfg = some policy)
    : cfg.lib.sha256Hex policy.image = policy.sha256 := by
  unfold Disk.restore at h
  split at h
  . rcases restored_eq h with ⟨hdigest, rfl⟩
    exact hdigest
  . cases h

theorem notRestored_active (cfg : Config) (faults : Faults) (data : List (String × Value)) (w : World)
    : (notRestored cfg faults data w).2.host.active = w.host.active :=
  (moves_quiet_append (by decide) (by decide) w).active

/-- What a host holds active after reading the directory: what it held, or what the directory gives. -/
theorem loadImage_active {cfg : Config} {faults : Faults} {call : StartCall} {w : World} {record : Record}
    (hrecord : w.disk.record = .record record)
    : (loadImage cfg faults call record w).2.host.active = w.host.active
        ∨ (loadImage cfg faults call record w).2.host.active = w.disk.restore cfg := by
  unfold loadImage
  rw [read_bind]
  cases hread : faults .readImage with
  | kill => exact .inl rfl
  | error => exact .inl (notRestored_active cfg faults _ w)
  | none =>
    cases himage : w.disk.image with
    | none => exact .inl (notRestored_active cfg faults _ w)
    | some image =>
      have hrestore : w.disk.restore cfg = restored cfg record image := by
        simp only [Disk.restore, hrecord, himage]
      rw [hrestore]
      dsimp only
      cases restored cfg record image with
      | none => exact .inl (notRestored_active cfg faults _ w)
      | some policy => exact .inr rfl

theorem loadActive_active (cfg : Config) (faults : Faults) (call : StartCall) (w : World)
    : (loadActive cfg faults call w).2.host.active = w.host.active
        ∨ (loadActive cfg faults call w).2.host.active = w.disk.restore cfg := by
  unfold loadActive
  rw [read_bind]
  cases hread : faults .readRecord with
  | kill => exact .inl rfl
  | error => exact .inl (notRestored_active cfg faults _ w)
  | none =>
    cases hrecord : w.disk.record with
    | missing => exact .inl rfl
    | unreadable => exact .inl (notRestored_active cfg faults _ w)
    | notAnObject => exact .inl (notRestored_active cfg faults _ w)
    | record record => exact loadImage_active hrecord

theorem loadActive_restores {cfg : Config} {faults : Faults} (call : StartCall) (hfaults : ∀ op, faults op = .none)
    (w : World) (hnone : w.host.active = none)
    : (loadActive cfg faults call w).2.host.active = w.disk.restore cfg := by
  unfold loadActive
  rw [read_bind, hfaults]
  cases hrecord : w.disk.record with
  | missing => simp [Disk.restore, hrecord, hnone]
  | unreadable =>
    rw [show Disk.restore cfg w.disk = none by simp [Disk.restore, hrecord]]
    exact (notRestored_active cfg faults _ w).trans hnone
  | notAnObject =>
    rw [show Disk.restore cfg w.disk = none by simp [Disk.restore, hrecord]]
    exact (notRestored_active cfg faults _ w).trans hnone
  | record record =>
    dsimp only
    unfold loadImage
    rw [read_bind, hfaults]
    cases himage : w.disk.image with
    | none =>
      rw [show Disk.restore cfg w.disk = none by simp [Disk.restore, hrecord, himage]]
      exact (notRestored_active cfg faults _ w).trans hnone
    | some image =>
      have hrestore : w.disk.restore cfg = restored cfg record image := by
        simp only [Disk.restore, hrecord, himage]
      rw [hrestore]
      dsimp only
      cases restored cfg record image with
      | none => exact (notRestored_active cfg faults _ w).trans hnone
      | some policy => rfl

/-- A fresh host that meets no fault holds what the directory gives. -/
theorem start_restores {cfg : Config} (faults : Faults) (call : StartCall) (disk : Disk)
    (hfaults : ∀ op, faults op = .none) (hseparated : Separated cfg) (hreadable : disk.pending ≠ .unreadable)
    : ∃ w, start cfg faults call ⟨disk, {}⟩ = (.returned (), w) ∧ w.host.active = disk.restore cfg := by
  rcases recover_noFaults cfg (w := ⟨disk, {}⟩) (fun op _ => hfaults op) hreadable with ⟨t, ht⟩
  have hquiet : Quiet ⟨disk, {}⟩ t := by
    have := moves_quiet_recover cfg faults ⟨disk, {}⟩
    rwa [ht] at this
  have hstart : start cfg faults call ⟨disk, {}⟩ = loadActive cfg faults call t := by
    unfold start
    cases hkey : cfg.instanceKeyId with
    | none =>
      change (recover cfg faults >>= fun _ => loadActive cfg faults call) _ = _
      rw [bind_apply, ht]
    | some keyId =>
      simp only [hseparated keyId hkey, if_false]
      change (recover cfg faults >>= fun _ => loadActive cfg faults call) _ = _
      rw [bind_apply, ht]
  refine ⟨(loadActive cfg faults call t).2, ?_, ?_⟩
  . rw [hstart]
    exact Prod.ext (loadActive_noFaults hfaults t) rfl
  . rw [loadActive_restores call hfaults t hquiet.active]
    exact restore_congr hquiet.record hquiet.image

/-- A commit stops at the write of the record, the image of its policy written. -/
structure Torn (cfg : Config) (faults : Faults) (policy : Policy) : Prop where
  pending : faults .writePending = .none
  version : policy.versioned = true → faults .writeVersion = .none
  event : faults .swapEvent = .none
  sign : Signs cfg (faults .swapSign)
  image : faults .writeImage = .none
  record : faults .writeRecord ≠ .none

/-- A step stops at the write of the record, the image of its policy written. -/
def Tears (cfg : Config) (m : Machine) (step : Step) : Prop :=
  match step.call, m.host with
  | .swap _, some _ => ∃ policy, passing cfg m step = some policy ∧ Torn cfg step.faults policy
  | .rollback, some host =>
    host.prev.isSome = true ∧ step.faults .writeImage = .none ∧ step.faults .writeRecord ≠ .none
  | _, _ => False

/--
The image of a policy alone does no harm to what the directory gives: there is no record, or the record names
its digest and is the policy's own or already has that image, or it names another digest than both images have.
-/
def Harmless (cfg : Config) (disk : Disk) (policy : Policy) : Prop :=
  ∀ record, disk.record = .record record →
    if cfg.lib.sha256Hex policy.image = record.sha256 then
      disk.image = some policy.image ∨ record = policy.toRecord
    else
      ∀ image, disk.image = some image → cfg.lib.sha256Hex image ≠ record.sha256

/-- A fresh host over what a step leaves restores what the directory gave before, or the policy of the step. -/
def Atomic (cfg : Config) (m : Machine) (step : Step) : Prop :=
  ∀ fresh : StartCall, ∃ w, start cfg (fun _ => .none) fresh ⟨(next cfg m step).disk, {}⟩ = (.returned (), w)
    ∧ (w.host.active = m.disk.restore cfg
      ∨ ∃ policy, passing cfg m step = some policy ∧ w.host.active = some policy)

def Disk.withImage (disk : Disk) (policy : Policy) : Disk :=
  { disk with image := some policy.image }

theorem harmless_iff (cfg : Config) (disk : Disk) (policy : Policy)
    : Harmless cfg disk policy
        ↔ (disk.withImage policy).restore cfg = disk.restore cfg
          ∨ (disk.withImage policy).restore cfg = some policy := by
  unfold Harmless
  cases hrecord : disk.record with
  | missing => simp [Disk.restore, Disk.withImage, hrecord]
  | unreadable => simp [Disk.restore, Disk.withImage, hrecord]
  | notAnObject => simp [Disk.restore, Disk.withImage, hrecord]
  | record record =>
    simp only [RecordFile.record.injEq, forall_eq', Disk.restore, Disk.withImage, hrecord]
    by_cases hdigest : cfg.lib.sha256Hex policy.image = record.sha256
    . rw [if_pos hdigest]
      have hnew : restored cfg record policy.image = some { record with image := policy.image } := by
        rw [restored, if_pos hdigest]
      rw [hnew]
      constructor
      . rintro (himage | rfl)
        . rw [himage]
          exact .inl hnew.symm
        . exact .inr rfl
      . rintro (h | h)
        . cases himage : disk.image with
          | none => rw [himage] at h; cases h
          | some image =>
            rw [himage] at h
            rcases restored_eq h.symm with ⟨_, hpolicy⟩
            exact .inl (congrArg some (congrArg Policy.image hpolicy).symm)
        . exact .inr (congrArg Policy.toRecord (Option.some.inj h))
    . rw [if_neg hdigest]
      have hnew : restored cfg record policy.image = none := by
        rw [restored, if_neg hdigest]
      rw [hnew]
      constructor
      . intro hother
        cases himage : disk.image with
        | none => exact .inl rfl
        | some image => exact .inl (if_neg (hother image himage)).symm
      . rintro (h | h) image himage hsame
        . rw [himage] at h
          simp [restored, hsame] at h
        . cases h

/-- What a host and its directory hold after a call. -/
structure Held (cfg : Config) (w : World) : Prop where
  digest : ∀ policy, w.host.active = some policy ∨ w.host.prev = some policy →
    cfg.lib.sha256Hex policy.image = policy.sha256
  held : ∀ policy, w.host.active = some policy → w.disk.restore cfg = some policy

theorem Held.same {cfg : Config} {w w' : World} (h : Held cfg w) (hsame : SameActive w w')
    (hprev : w'.host.prev = w.host.prev)
    : Held cfg w' where
  digest := by
    rw [hsame.active, hprev]
    exact h.digest
  held := by
    rw [hsame.active, restore_congr hsame.record hsame.image]
    exact h.held

/-- A policy made active and written to both files, the one before it kept as the previous one or dropped. -/
theorem Held.change {cfg : Config} {w w' : World} {policy : Policy} (h : Held cfg w)
    (hdigest : cfg.lib.sha256Hex policy.image = policy.sha256) (hactive : w'.host.active = some policy)
    (hprev : w'.host.prev = w.host.active ∨ w'.host.prev = none)
    (hrecord : w'.disk.record = .record policy.toRecord) (himage : w'.disk.image = some policy.image)
    : Held cfg w' where
  digest := by
    intro other hother
    rcases hother with hother | hother
    . cases Option.some.inj (hactive.symm.trans hother)
      exact hdigest
    . rcases hprev with hprev | hprev
      . exact h.digest other (.inl (hprev.symm.trans hother))
      . rw [hprev] at hother
        cases hother
  held := by
    intro other hother
    cases Option.some.inj (hactive.symm.trans hother)
    exact restore_self hrecord himage hdigest

theorem floored_prev (policy : Policy) (w : World)
    : (floored policy (intended policy w)).host.prev = w.host.prev :=
  congrArg Host.prev (floored_host policy w)

theorem held_of_committed {cfg : Config} {faults : Faults} {policy : Policy} {w w' : World}
    {x : Exit Raised Reply} (h : Committed cfg faults policy w x w')
    (hdigest : cfg.lib.sha256Hex policy.image = policy.sha256) (hw : Held cfg w)
    (hwhole : ¬ Torn cfg faults policy)
    : Held cfg w' := by
  have hfloored := floored_active policy w
  have hflipped {w' : World} (hactive : w'.host.active = some policy)
      (hprev : w'.host.prev = (floored policy (intended policy w)).host.active)
      (hrecord : w'.disk.record = .record policy.toRecord) (himage : w'.disk.image = some policy.image)
      : Held cfg w' :=
    hw.change hdigest hactive (.inl (hprev.trans hfloored.active)) hrecord himage
  cases h with
  | atIntent => exact hw
  | atFloor => exact hw.same ⟨rfl, rfl, rfl⟩ rfl
  | atEvent => exact hw.same hfloored (floored_prev policy w)
  | atEvidence => exact hw.same ⟨hfloored.active, hfloored.image, hfloored.record⟩ (floored_prev policy w)
  | atRecord hpending hversion hevent hsign himage hrecord =>
    exact absurd ⟨hpending, hversion, hevent, hsign, himage, hrecord⟩ hwhole
  | atRemove => exact hflipped rfl rfl rfl rfl
  | done => exact hflipped rfl rfl rfl rfl

theorem held_of_rolledBack {cfg : Config} {faults : Faults} {w w' : World} {x : Exit Raised Reply}
    (h : RolledBack cfg faults w x w') (hw : Held cfg w)
    (hwhole : w.host.prev.isSome = true → faults .writeImage = .none → faults .writeRecord = .none)
    : Held cfg w' := by
  cases h with
  | noPrevious => exact hw
  | atImage => exact hw
  | atRecord hprev himage hrecord => exact absurd (hwhole (by rw [hprev]; rfl) himage) hrecord
  | atEvent hprev => exact hw.change (hw.digest _ (.inr hprev)) rfl (.inr rfl) rfl rfl
  | logged hprev => exact hw.change (hw.digest _ (.inr hprev)) rfl (.inr rfl) rfl rfl

structure Sound (cfg : Config) (m : Machine) : Prop where
  readable : m.disk.pending ≠ .unreadable
  separated : m.host.isSome = true → Separated cfg
  held : ∀ host, m.host = some host → Held cfg ⟨m.disk, host⟩

theorem readable_next {cfg : Config} {m : Machine} {step : Step} (h : m.disk.pending ≠ .unreadable)
    : (next cfg m step).disk.pending ≠ .unreadable := by
  cases stepped cfg m step with
  | keeps _ hpending =>
    rw [hpending]
    exact h
  | commits _ _ heffect =>
    generalize completing cfg m step = active at heffect
    cases heffect with
    | nothing _ _ hpending => rw [hpending]; exact h
    | intent _ _ _ hpending => rw [hpending]; simp
    | floor _ _ _ _ hpending => rw [hpending]; simp
    | done _ _ _ _ hpending => rw [hpending]; simp

theorem settle_host {α : Type} {r : Exit Raised α × World} {host : Host} (h : (settle r).host = some host)
    : ⟨(settle r).disk, host⟩ = r.2 := by
  rcases r with ⟨x, w⟩
  cases x with
  | returned => cases h; rfl
  | raised => cases h; rfl
  | killed => cases h

theorem start_active (cfg : Config) (faults : Faults) (call : StartCall) (w : World)
    : (start cfg faults call w).2.host.active = w.host.active
        ∨ (start cfg faults call w).2.host.active = w.disk.restore cfg := by
  have hload : (recover cfg faults >>= fun _ => loadActive cfg faults call) w = start cfg faults call w
      ∨ (start cfg faults call w).2 = w := by
    unfold start
    cases hkey : cfg.instanceKeyId with
    | none => exact .inl rfl
    | some keyId =>
      by_cases hmem : keyId ∈ authorityKeyIds cfg
      . refine .inr ?_
        simp only [hmem, if_true]
        rfl
      . simp only [hmem, if_false, true_or]
  rcases hload with hload | hsame
  . rw [← hload, bind_apply]
    have hquiet := moves_quiet_recover cfg faults w
    cases hrecover : recover cfg faults w with
    | mk x t =>
      rw [hrecover] at hquiet
      cases x with
      | returned pending =>
        rcases loadActive_active cfg faults call t with h | h
        . exact .inl (h.trans hquiet.active)
        . exact .inr (h.trans (restore_congr hquiet.record hquiet.image))
      | raised e => exact .inl hquiet.active
      | killed => exact .inl hquiet.active
  . rw [hsame]
    exact .inl rfl

theorem held_of_start (cfg : Config) (faults : Faults) (call : StartCall) (disk : Disk)
    : Held cfg (start cfg faults call ⟨disk, {}⟩).2 := by
  have hfiles := moves_sameFiles_start cfg faults call ⟨disk, {}⟩
  have hheld (policy : Policy) (hactive : (start cfg faults call ⟨disk, {}⟩).2.host.active = some policy)
      : (start cfg faults call ⟨disk, {}⟩).2.disk.restore cfg = some policy := by
    rw [restore_congr hfiles.record hfiles.image]
    rcases start_active cfg faults call ⟨disk, {}⟩ with h | h
    . rw [hactive] at h
      cases h
    . rw [hactive] at h
      exact h.symm
  refine ⟨?_, hheld⟩
  rintro policy (hactive | hprev)
  . exact digest_of_restore (hheld policy hactive)
  . rw [hfiles.prev] at hprev
    cases hprev

theorem settleStart_host {α : Type} {r : Exit Raised α × World} {host : Host}
    (h : (settleStart r).host = some host)
    : ⟨(settleStart r).disk, host⟩ = r.2 := by
  rcases r with ⟨x, w⟩
  cases x with
  | returned => cases h; rfl
  | raised => cases h
  | killed => cases h

theorem sound_next {cfg : Config} {m : Machine} {step : Step} (hm : Sound cfg m) (hwhole : ¬ Tears cfg m step)
    : Sound cfg (next cfg m step) where
  readable := readable_next hm.readable
  separated := separated_next hm.separated
  held := by
    intro host hhost
    rcases m with ⟨disk, running⟩
    rcases step with ⟨call, faults⟩
    cases call with
    | start call =>
      rw [show ⟨(next cfg ⟨disk, running⟩ ⟨.start call, faults⟩).disk, host⟩
        = (start cfg faults call ⟨disk, {}⟩).2 from settleStart_host hhost]
      exact held_of_start cfg faults call disk
    | swap call =>
      cases running with
      | none => exact hm.held host hhost
      | some running =>
        rw [show ⟨(next cfg ⟨disk, some running⟩ ⟨.swap call, faults⟩).disk, host⟩
          = (swap cfg faults call ⟨disk, running⟩).2 from settle_host hhost]
        have hheld := hm.held running rfl
        cases swapped cfg faults call ⟨disk, running⟩ with
        | quiet hquiet => exact hheld.same (.of_quiet hquiet) hquiet.prev
        | @committed manifest image counts _ _ _ hprepare hquiet _ hcounts hcommitted =>
          refine held_of_committed hcommitted rfl (hheld.same (.of_quiet hquiet) hquiet.prev) ?_
          intro htorn
          have hpassing : passing cfg ⟨disk, some running⟩ ⟨.swap call, faults⟩
              = some (newPolicy cfg call manifest image counts) := by
            simp only [passing, hprepare, hcounts]
          exact hwhole ⟨_, hpassing, htorn⟩
    | rollback =>
      cases running with
      | none => exact hm.held host hhost
      | some running =>
        rw [show ⟨(next cfg ⟨disk, some running⟩ ⟨.rollback, faults⟩).disk, host⟩
          = (rollback cfg faults ⟨disk, running⟩).2 from settle_host hhost]
        refine held_of_rolledBack (rollback_cases rfl) (hm.held running rfl) fun hprev himage => ?_
        by_contra hrecord
        exact hwhole ⟨hprev, himage, hrecord⟩

theorem sound_fresh (cfg : Config)
    : Sound cfg ⟨{}, none⟩ where
  readable := by simp
  separated := by simp
  held := by simp

theorem sound_run {cfg : Config} {m : Machine} {steps : List Step} (hm : Sound cfg m)
    (hsteps : Along cfg (fun m step => ¬ Tears cfg m step) m steps)
    : Sound cfg (runSteps cfg m steps) := by
  induction steps generalizing m with
  | nil => exact hm
  | cons step steps ih => exact ih (sound_next hm hsteps.1) hsteps.2

/-- What the directory gives after a commit that stopped anywhere. -/
theorem restore_of_committed {cfg : Config} {faults : Faults} {policy : Policy} {w w' : World}
    {x : Exit Raised Reply} (h : Committed cfg faults policy w x w')
    (hdigest : cfg.lib.sha256Hex policy.image = policy.sha256)
    : (¬ Torn cfg faults policy → w'.disk.restore cfg = w.disk.restore cfg ∨ w'.disk.restore cfg = some policy)
        ∧ (Torn cfg faults policy → w'.disk.restore cfg = (w.disk.withImage policy).restore cfg) := by
  have hfloored := floored_active policy w
  cases h with
  | atIntent hfault => exact ⟨fun _ => .inl rfl, fun htorn => absurd htorn.pending hfault⟩
  | atFloor _ hversioned hfault => exact ⟨fun _ => .inl rfl, fun htorn => absurd (htorn.version hversioned) hfault⟩
  | atEvent _ _ hfault =>
    exact ⟨fun _ => .inl (restore_congr hfloored.record hfloored.image), fun htorn => absurd htorn.event hfault⟩
  | atEvidence _ _ _ hfault =>
    refine ⟨fun _ => .inl (restore_congr hfloored.record hfloored.image), fun htorn => ?_⟩
    rcases hfault with ⟨hkey, hfault⟩ | hfault
    . exact absurd (htorn.sign hkey) hfault
    . exact absurd htorn.image hfault
  | atRecord hpending hversion hevent hsign himage hrecord =>
    exact ⟨fun hwhole => absurd ⟨hpending, hversion, hevent, hsign, himage, hrecord⟩ hwhole,
      fun _ => restore_congr hfloored.record rfl⟩
  | atRemove _ _ _ _ _ hrecord =>
    exact ⟨fun _ => .inr (restore_self rfl rfl hdigest), fun htorn => absurd hrecord htorn.record⟩
  | done _ _ _ _ _ hrecord =>
    exact ⟨fun _ => .inr (restore_self rfl rfl hdigest), fun htorn => absurd hrecord htorn.record⟩

theorem atomic_iff {cfg : Config} {m : Machine} (hm : Sound cfg m) {host : Host} (hhost : m.host = some host)
    (call : SwapCall) (faults : Faults)
    : Atomic cfg m ⟨.swap call, faults⟩
        ↔ (Tears cfg m ⟨.swap call, faults⟩ →
            ∀ policy, passing cfg m ⟨.swap call, faults⟩ = some policy → Harmless cfg m.disk policy) := by
  have hseparated := hm.separated (by rw [hhost]; rfl)
  have hatomic : Atomic cfg m ⟨.swap call, faults⟩
      ↔ (next cfg m ⟨.swap call, faults⟩).disk.restore cfg = m.disk.restore cfg
        ∨ ∃ policy, passing cfg m ⟨.swap call, faults⟩ = some policy
          ∧ (next cfg m ⟨.swap call, faults⟩).disk.restore cfg = some policy := by
    have hstart (fresh : StartCall) := start_restores (fun _ => .none) fresh
      (next cfg m ⟨.swap call, faults⟩).disk (fun _ => rfl) hseparated (readable_next hm.readable)
    constructor
    . intro h
      rcases hstart {} with ⟨w, hw, hactive⟩
      rcases h {} with ⟨w', hw', h⟩
      cases hw.symm.trans hw'
      rwa [hactive] at h
    . intro h fresh
      rcases hstart fresh with ⟨w, hw, hactive⟩
      exact ⟨w, hw, by rwa [hactive]⟩
  rw [hatomic]
  rcases m with ⟨disk, running⟩
  cases hhost
  have hdisk : (next cfg ⟨disk, some host⟩ ⟨.swap call, faults⟩).disk = (swap cfg faults call ⟨disk, host⟩).2.disk :=
    settle_disk _
  rw [hdisk]
  cases swapped cfg faults call ⟨disk, host⟩ with
  | quiet hquiet _ hnot =>
    refine iff_of_true (.inl (restore_congr hquiet.record hquiet.image)) fun htears => ?_
    rcases htears with ⟨policy, hpassing, _⟩
    simp only [passing] at hpassing
    cases hpassing
  | @committed manifest image counts w₁ _ _ hprepare hquiet _ hcounts hcommitted =>
    have hpassing : passing cfg ⟨disk, some host⟩ ⟨.swap call, faults⟩
        = some (newPolicy cfg call manifest image counts) := by
      simp only [passing, hprepare, hcounts]
    have hbefore : w₁.disk.restore cfg = disk.restore cfg := restore_congr hquiet.record hquiet.image
    have hharmless := harmless_iff cfg disk (newPolicy cfg call manifest image counts)
    rcases restore_of_committed hcommitted rfl with ⟨hwhole, htorn⟩
    rw [hbefore] at hwhole
    simp only [Tears, hpassing, Option.some.injEq, exists_eq_left', forall_eq']
    by_cases h : Torn cfg faults (newPolicy cfg call manifest image counts)
    . rw [htorn h, hharmless]
      have hsame : (w₁.disk.withImage (newPolicy cfg call manifest image counts)).restore cfg
          = (disk.withImage (newPolicy cfg call manifest image counts)).restore cfg :=
        restore_congr hquiet.record rfl
      rw [hsame]
      exact ⟨fun hrestore _ => hrestore, fun hrestore => hrestore h⟩
    . exact iff_of_true (hwhole h) fun htorn => absurd htorn h

/--
After a run in which no call stopped between an image and its record: the directory gives the active policy of
the host, and whatever a swap stops at, a fresh host restores that policy or the new one, exactly when the swap
does not stop there either, or does no harm by it.
-/
theorem restore_after_swap (cfg : Config) (steps : List Step)
    (hsteps : Along cfg (fun m step => ¬ Tears cfg m step) ⟨{}, none⟩ steps) (host : Host)
    (hhost : (runSteps cfg ⟨{}, none⟩ steps).host = some host)
    : (∀ policy, host.active = some policy → (runSteps cfg ⟨{}, none⟩ steps).disk.restore cfg = some policy)
        ∧ ∀ call faults,
            (Atomic cfg (runSteps cfg ⟨{}, none⟩ steps) ⟨.swap call, faults⟩
              ↔ (Tears cfg (runSteps cfg ⟨{}, none⟩ steps) ⟨.swap call, faults⟩ →
                  ∀ policy, passing cfg (runSteps cfg ⟨{}, none⟩ steps) ⟨.swap call, faults⟩ = some policy →
                    Harmless cfg (runSteps cfg ⟨{}, none⟩ steps).disk policy)) := by
  have hsound := sound_run (sound_fresh cfg) hsteps
  exact ⟨(hsound.held host hhost).held, atomic_iff hsound hhost⟩

/- One image swapped in, and a second whose record cannot be written. -/

def swapOne : Step :=
  ⟨.swap (unsignedCall imageOne), noFaults⟩

def failRecord : Faults :=
  fun op => if op = .writeRecord then .error else .none

theorem whole_noFaults (m : Machine) (call : Call)
    : ¬ Tears demoConfig m ⟨call, noFaults⟩ := by
  unfold Tears
  split
  . rintro ⟨policy, _, htorn⟩
    exact htorn.record rfl
  . rintro ⟨_, _, hrecord⟩
    exact hrecord rfl
  . exact id

theorem swapped_one
    : ∃ disk host, runSteps demoConfig ⟨{}, none⟩ [startStep, swapOne] = ⟨disk, some host⟩
        ∧ disk.image = some imageOne ∧ disk.pending = .missing
        ∧ ∃ record, disk.record = .record record ∧ record.sha256 = digestOne := by
  rcases exists_header imageOne (by with_unfolding_all decide) with ⟨counts, hcounts⟩
  rcases swap_step {} noFaults_none (by simp) (staged_unsigned {} imageOne (by with_unfolding_all decide)) hcounts
    with ⟨disk, host, hnext, _, _, himage, hrecord, hpending⟩
  refine ⟨disk, host, ?_, himage, hpending, _, hrecord, ?_⟩
  . rw [← hnext]
    rfl
  . show demoLibrary.sha256Hex imageOne = digestOne
    with_unfolding_all decide

/-- A swap that cannot write its record leaves a directory from which nothing is restored. -/
theorem torn_swap_restores_none
    : ¬ ∀ (cfg : Config) (steps : List Step) (host : Host), (runSteps cfg ⟨{}, none⟩ steps).host = some host →
        ∀ call faults, Atomic cfg (runSteps cfg ⟨{}, none⟩ steps) ⟨.swap call, faults⟩ := by
  intro hclaim
  rcases swapped_one with ⟨disk, host, hrun, himage, hpending, record, hrecord, hdigest⟩
  have hatomic := hclaim demoConfig [startStep, swapOne] host (by rw [hrun]) (unsignedCall imageTwo) failRecord
  have hsound : Sound demoConfig (runSteps demoConfig ⟨{}, none⟩ [startStep, swapOne]) :=
    sound_run (sound_fresh demoConfig) ⟨whole_noFaults _ _, whole_noFaults _ _, trivial⟩
  rw [hrun] at hatomic hsound
  rcases exists_header imageTwo (by with_unfolding_all decide) with ⟨counts, hcounts⟩
  have hstaged := staged_unsigned disk imageTwo (by with_unfolding_all decide)
  have hpassing := passing_of_staged host failRecord (by decide) (by simp [hpending]) hstaged hcounts
  have htorn : Torn demoConfig failRecord (newPolicy demoConfig (unsignedCall imageTwo)
      (unsignedManifest demoConfig (demoLibrary.sha256Hex imageTwo)) imageTwo counts) :=
    ⟨rfl, fun _ => rfl, rfl, fun _ => rfl, rfl, by decide⟩
  have hharmless := (atomic_iff hsound rfl _ _).mp hatomic ⟨_, hpassing, htorn⟩ _ hpassing record hrecord
  -- the record names neither image now on disk nor lets the old one go
  have hother : demoLibrary.sha256Hex imageTwo ≠ record.sha256 := by
    rw [hdigest]
    with_unfolding_all decide
  have hold : demoLibrary.sha256Hex imageOne = record.sha256 := by
    rw [hdigest]
    with_unfolding_all decide
  split at hharmless
  . next hnamed => exact hother hnamed
  . exact hharmless imageOne himage hold

theorem restore_after_swap_one
    : ∃ disk host, runSteps demoConfig ⟨{}, none⟩ [startStep, swapOne] = ⟨disk, some host⟩
        ∧ (∀ policy, host.active = some policy → disk.restore demoConfig = some policy)
        ∧ Atomic demoConfig ⟨disk, some host⟩ ⟨.swap (unsignedCall imageTwo), noFaults⟩ := by
  rcases swapped_one with ⟨disk, host, hrun, _⟩
  have h := restore_after_swap demoConfig [startStep, swapOne] ⟨whole_noFaults _ _, whole_noFaults _ _, trivial⟩
    host (by rw [hrun])
  rw [hrun] at h
  refine ⟨disk, host, hrun, h.1, (h.2 _ _).mpr fun htears => ?_⟩
  exact absurd htears (whole_noFaults _ _)

end PolicyHost
