import PrismPath.Hotswap.PolicyHost
import PrismPath.Hotswap.PolicyPackLemmas

/-!
This module contains what one call of the policy host can do: the checks a committed pack has passed, and
the points at which a commit or a rollback can stop.
-/

open Python PolicyPack Process

namespace PolicyHost

/-- The effects of a commit, in their order. -/
def intended (policy : Policy) (w : World) : World :=
  { w with disk := { w.disk with pending := .intent ⟨policy.sha256, policy.version⟩ } }

def floored (policy : Policy) (w : World) : World :=
  if policy.versioned then
    { w with disk := { w.disk with version := some policy.version } }
  else
    w

def logged (event : Event) (w : World) : World :=
  { w with disk := { w.disk with log := w.disk.log ++ [event] } }

def imaged (policy : Policy) (w : World) : World :=
  { w with disk := { w.disk with image := some policy.image } }

def recorded (policy : Policy) (w : World) : World :=
  { w with disk := { w.disk with record := .record policy.toRecord } }

def flipped (policy : Policy) (w : World) : World :=
  { w with host := { w.host with prev := w.host.active, active := some policy } }

def cleared (w : World) : World :=
  { w with disk := { w.disk with pending := .missing } }

def swapEvent (policy : Policy) (w : World) : Event :=
  ⟨"swap", swapEventData w.host.activeHash policy⟩

def rollbackEvent (policy : Policy) : Event :=
  ⟨"rollback", [("to_hash", .str policy.sha256), ("version", policy.version), ("result", .str "rolled_back")]⟩

/-- The commit up to its evidence. -/
def evidenced (policy : Policy) (w : World) : World :=
  logged (swapEvent policy w) (floored policy (intended policy w))

/-- A process has stopped at the root statement that should follow an event. -/
def SignFails (cfg : Config) (fault : Fault) : Prop :=
  cfg.instanceKeyId.isSome ∧ fault ≠ .none

def Signs (cfg : Config) (fault : Fault) : Prop :=
  cfg.instanceKeyId.isSome → fault = .none

theorem append_bind_cases {β : Type} {cfg : Config} {faults : Faults} {write sign : Op} {action : String}
    {data : List (String × Value)} {f : Unit → Process World Raised β} {w w' : World} {x : Exit Raised β}
    (h : (append cfg faults write sign action data >>= f) w = (x, w'))
    : (faults write ≠ .none ∧ x.Stopped ∧ w' = w)
        ∨ (faults write = .none ∧ SignFails cfg (faults sign) ∧ x.Stopped ∧ w' = logged ⟨action, data⟩ w)
        ∨ (faults write = .none ∧ Signs cfg (faults sign) ∧ f () (logged ⟨action, data⟩ w) = (x, w')) := by
  unfold append at h
  rw [Process.bind_assoc] at h
  rcases attempt_bind_cases h with ⟨hfault, hx, hw⟩ | ⟨hfault, h⟩
  . exact .inl ⟨hfault, hx, hw⟩
  . by_cases hsigns : cfg.instanceKeyId.isSome
    . rw [if_pos hsigns] at h
      rcases attempt_bind_cases h with ⟨hsign, hx, hw⟩ | ⟨hsign, h⟩
      . exact .inr (.inl ⟨hfault, ⟨hsigns, hsign⟩, hx, hw⟩)
      . exact .inr (.inr ⟨hfault, fun _ => hsign, h⟩)
    . rw [if_neg hsigns] at h
      exact .inr (.inr ⟨hfault, fun hs => absurd hs hsigns, h⟩)

/-- Where a commit can stop, with the operation it stopped at and what it has done by then. -/
inductive Committed (cfg : Config) (faults : Faults) (policy : Policy) (w : World)
    : Exit Raised Reply → World → Prop
  | atIntent {x : Exit Raised Reply}
      : faults .writePending ≠ .none → x.Stopped → Committed cfg faults policy w x w
  | atFloor {x : Exit Raised Reply}
      : faults .writePending = .none → policy.versioned = true → faults .writeVersion ≠ .none → x.Stopped →
        Committed cfg faults policy w x (intended policy w)
  | atEvent {x : Exit Raised Reply}
      : faults .writePending = .none → (policy.versioned = true → faults .writeVersion = .none) →
        faults .swapEvent ≠ .none → x.Stopped →
        Committed cfg faults policy w x (floored policy (intended policy w))
  | atEvidence {x : Exit Raised Reply}
      : faults .writePending = .none → (policy.versioned = true → faults .writeVersion = .none) →
        faults .swapEvent = .none → SignFails cfg (faults .swapSign) ∨ faults .writeImage ≠ .none → x.Stopped →
        Committed cfg faults policy w x (evidenced policy w)
  | atRecord {x : Exit Raised Reply}
      : faults .writePending = .none → (policy.versioned = true → faults .writeVersion = .none) →
        faults .swapEvent = .none → Signs cfg (faults .swapSign) → faults .writeImage = .none →
        faults .writeRecord ≠ .none → x.Stopped →
        Committed cfg faults policy w x (imaged policy (evidenced policy w))
  | atRemove {x : Exit Raised Reply}
      : faults .writePending = .none → (policy.versioned = true → faults .writeVersion = .none) →
        faults .swapEvent = .none → Signs cfg (faults .swapSign) → faults .writeImage = .none →
        faults .writeRecord = .none → faults .removePending ≠ .none → x.Stopped →
        Committed cfg faults policy w x (flipped policy (recorded policy (imaged policy (evidenced policy w))))
  | done
      : faults .writePending = .none → (policy.versioned = true → faults .writeVersion = .none) →
        faults .swapEvent = .none → Signs cfg (faults .swapSign) → faults .writeImage = .none →
        faults .writeRecord = .none → faults .removePending = .none →
        Committed cfg faults policy w (.returned (.active policy))
          (cleared (flipped policy (recorded policy (imaged policy (evidenced policy w)))))

theorem persistActive_bind_cases {β : Type} {faults : Faults} {policy : Policy}
    {f : Unit → Process World Raised β} {w w' : World} {x : Exit Raised β}
    (h : (persistActive faults policy >>= f) w = (x, w'))
    : (faults .writeImage ≠ .none ∧ x.Stopped ∧ w' = w)
        ∨ (faults .writeImage = .none ∧ faults .writeRecord ≠ .none ∧ x.Stopped ∧ w' = imaged policy w)
        ∨ (faults .writeImage = .none ∧ faults .writeRecord = .none
            ∧ f () (recorded policy (imaged policy w)) = (x, w')) := by
  unfold persistActive at h
  rw [Process.bind_assoc] at h
  rcases attempt_bind_cases h with ⟨himage, hx, hw⟩ | ⟨himage, h⟩
  . exact .inl ⟨himage, hx, hw⟩
  . rcases attempt_bind_cases h with ⟨hrecord, hx, hw⟩ | ⟨hrecord, h⟩
    . exact .inr (.inl ⟨himage, hrecord, hx, hw⟩)
    . exact .inr (.inr ⟨himage, hrecord, h⟩)

theorem conclude_cases {cfg : Config} {faults : Faults} {policy : Policy} {w w' : World}
    {x : Exit Raised Reply} (hpending : faults .writePending = .none)
    (hversion : policy.versioned = true → faults .writeVersion = .none)
    (h : conclude cfg faults policy (floored policy (intended policy w)) = (x, w'))
    : Committed cfg faults policy w x w' := by
  have hhost : (floored policy (intended policy w)).host = w.host := by
    unfold floored
    split <;> rfl
  unfold conclude at h
  rw [read_bind, hhost] at h
  rcases append_bind_cases h with ⟨hevent, hx, rfl⟩ | ⟨hevent, hsign, hx, rfl⟩ | ⟨hevent, hsign, h⟩
  . exact .atEvent hpending hversion hevent hx
  . exact .atEvidence hpending hversion hevent (.inl hsign) hx
  . rcases persistActive_bind_cases h with ⟨himage, hx, rfl⟩ | ⟨himage, hrecord, hx, rfl⟩ | ⟨himage, hrecord, h⟩
    . exact .atEvidence hpending hversion hevent (.inr himage) hx
    . exact .atRecord hpending hversion hevent hsign himage hrecord hx
    . rw [update_bind] at h
      rcases attempt_bind_cases h with ⟨hremove, hx, rfl⟩ | ⟨hremove, h⟩
      . exact .atRemove hpending hversion hevent hsign himage hrecord hremove hx
      . cases h
        exact .done hpending hversion hevent hsign himage hrecord hremove

theorem commit_cases {cfg : Config} {faults : Faults} {policy : Policy} {w w' : World}
    {x : Exit Raised Reply} (h : commit cfg faults policy w = (x, w'))
    : Committed cfg faults policy w x w' := by
  unfold commit at h
  rcases attempt_bind_cases h with ⟨hpending, hx, rfl⟩ | ⟨hpending, h⟩
  . exact .atIntent hpending hx
  . by_cases hversion : policy.versioned = true
    . rw [if_pos hversion] at h
      rcases attempt_bind_cases h with ⟨hfloor, hx, rfl⟩ | ⟨hfloor, h⟩
      . exact .atFloor hpending hversion hfloor hx
      . refine conclude_cases hpending (fun _ => hfloor) ?_
        rw [floored, if_pos hversion]
        exact h
    . rw [if_neg hversion] at h
      refine conclude_cases hpending (fun hv => absurd hv hversion) ?_
      rw [floored, if_neg hversion]
      exact h

/-- What a call does before it commits anything, and all a refused one does: it adds to the log. -/
structure Quiet (w w' : World) : Prop where
  version : w'.disk.version = w.disk.version
  pending : w'.disk.pending = w.disk.pending
  record : w'.disk.record = w.disk.record
  image : w'.disk.image = w.disk.image
  active : w'.host.active = w.host.active
  prev : w'.host.prev = w.host.prev
  log : ∃ events, w'.disk.log = w.disk.log ++ events
    ∧ ∀ event ∈ events, event.action ≠ "swap" ∧ event.action ≠ "rollback"

instance : Std.Refl Quiet where
  refl w := ⟨rfl, rfl, rfl, rfl, rfl, rfl, [], by simp, by simp⟩

instance : IsTrans World Quiet where
  trans w₁ w₂ w₃ h₁ h₂ := by
    rcases h₁.log with ⟨events₁, hlog₁, hother₁⟩
    rcases h₂.log with ⟨events₂, hlog₂, hother₂⟩
    refine ⟨?_, ?_, ?_, ?_, ?_, ?_, events₁ ++ events₂, ?_, ?_⟩
    . rw [h₂.version, h₁.version]
    . rw [h₂.pending, h₁.pending]
    . rw [h₂.record, h₁.record]
    . rw [h₂.image, h₁.image]
    . rw [h₂.active, h₁.active]
    . rw [h₂.prev, h₁.prev]
    . rw [hlog₂, hlog₁, List.append_assoc]
    . intro event hevent
      rcases List.mem_append.mp hevent with h | h
      . exact hother₁ event h
      . exact hother₂ event h

theorem moves_quiet_append {cfg : Config} {faults : Faults} {write sign : Op} {action : String}
    {data : List (String × Value)} (hswap : action ≠ "swap") (hrollback : action ≠ "rollback")
    : Moves Quiet (append cfg faults write sign action data) := by
  unfold append
  refine Moves.bind (Moves.attempt ?_) fun _ => ?_
  . intro w
    exact ⟨rfl, rfl, rfl, rfl, rfl, rfl, [⟨action, data⟩], rfl, by simp [hswap, hrollback]⟩
  . split
    . exact Moves.attempt fun w => refl_of Quiet w
    . exact Moves.pure ()

theorem moves_quiet_recordRecovery (cfg : Config) (faults : Faults) (intent : Intent)
    : Moves Quiet (recordRecovery cfg faults intent) := by
  unfold recordRecovery
  refine Moves.bind Moves.read fun w => ?_
  refine Moves.bind (Moves.attempt fun w => refl_of Quiet w) fun _ => ?_
  refine Moves.bind (moves_quiet_append (by decide) (by decide)) fun _ => Moves.update fun w => ?_
  exact ⟨rfl, rfl, rfl, rfl, rfl, rfl, [], by simp, by simp⟩

theorem moves_quiet_recover (cfg : Config) (faults : Faults)
    : Moves Quiet (recover cfg faults) := by
  unfold recover
  refine Moves.bind (Moves.attempt fun w => refl_of Quiet w) fun _ => Moves.bind Moves.read fun w => ?_
  split
  . exact Moves.pure none
  . exact Moves.raise _
  . next intent _ =>
    have hrecord : Moves Quiet (if w.host.recoveryRecorded then pure () else recordRecovery cfg faults intent) := by
      split
      . exact Moves.pure ()
      . exact moves_quiet_recordRecovery cfg faults intent
    exact Moves.bind hrecord fun _ => Moves.pure (some intent)

theorem moves_quiet_reject (cfg : Config) (faults : Faults) (strict : Bool) (toHash version : Value)
    (reasons : List String)
    : Moves Quiet (reject cfg faults strict toHash version reasons) := by
  unfold reject
  refine Moves.bind Moves.read fun w => ?_
  refine Moves.bind (moves_quiet_append (by decide) (by decide)) fun _ => ?_
  split
  . exact Moves.raise _
  . exact Moves.pure _

theorem recover_returned {cfg : Config} {faults : Faults} {w w' : World} {pending : Option Intent}
    (h : recover cfg faults w = (.returned pending, w'))
    : pending = w.disk.pending.intent? := by
  unfold recover at h
  rcases attempt_bind_cases h with ⟨_, hx, _⟩ | ⟨_, hrest⟩
  . exact absurd rfl (hx pending)
  rw [id_eq, read_bind] at hrest
  cases hp : w.disk.pending with
  | missing =>
    rw [hp] at hrest
    cases hrest
    rfl
  | unreadable =>
    rw [hp] at hrest
    cases hrest
  | intent intent =>
    rw [hp] at hrest
    rcases returned_of_bind hrest with ⟨_, t, _, hret⟩
    cases hret
    rfl

/-- The packs a swap lets through to its commit, and what has been checked of them. -/
inductive Staged (cfg : Config) (call : SwapCall) (disk : Disk) : List (String × Value) → List UInt8 → Prop
  | signed {manifest : List (String × Value)} {image : List UInt8} {version : Value}
      : call.allowUnsigned = false → (call.files .image).image = some image →
        verifyPack cfg.lib cfg.pubkeys cfg.revoked call.files = .ok (.accepted manifest) →
        checkEnvelope manifest image cfg.envelope = .ok [] → manifest.lookup "version" = some version →
        heldBack disk.pending.intent? (cfg.lib.sha256Hex image) version disk.floor = .ok false →
        Staged cfg call disk manifest image
  | unsigned {image : List UInt8}
      : call.allowUnsigned = true → (call.files .image).image = some image →
        validateImage image (get cfg.envelope "caps") = .ok [] →
        Staged cfg call disk (unsignedManifest cfg (cfg.lib.sha256Hex image)) image

theorem stage_eq {toHash : String} {manifest manifest' : List (String × Value)} {image image' : List UInt8}
    (h : stage toHash manifest image = .stage manifest' image')
    : manifest = manifest' ∧ image = image' ∧ ∃ counts, readPptHeader image = .ok counts := by
  unfold stage at h
  split at h
  . cases h
  . next counts hcounts =>
    cases h
    exact ⟨rfl, rfl, counts, hcounts⟩

theorem accepted_of_vetPack {cfg : Config} {call : SwapCall} {image : List UInt8}
    {manifest : List (String × Value)} (h : vetPack cfg call image = .ok (.inr manifest))
    : verifyPack cfg.lib cfg.pubkeys cfg.revoked call.files = .ok (.accepted manifest)
        ∧ checkEnvelope manifest image cfg.envelope = .ok [] := by
  unfold vetPack at h
  rcases Except.bind_eq_ok.mp h with ⟨verified, hverified, h⟩
  cases verified with
  | refused reasons manifest' => cases h
  | accepted manifest' =>
    rcases Except.bind_eq_ok.mp h with ⟨reasons, hreasons, h⟩
    by_cases hnone : reasons = []
    . subst hnone
      cases h
      exact ⟨hverified, hreasons⟩
    . rw [if_pos hnone] at h
      cases h

theorem staged_of_vet {cfg : Config} {call : SwapCall} {disk : Disk} {stored : Except Raised ℤ}
    {manifest : List (String × Value)} {image : List UInt8}
    (hstored : ∀ n, stored = .ok n → n = disk.floor)
    (h : vet cfg call disk.pending.intent? stored = .ok (.stage manifest image))
    : Staged cfg call disk manifest image ∧ ∃ counts, readPptHeader image = .ok counts := by
  unfold vet at h
  split at h
  . cases h
  . next read hread =>
    by_cases hunsigned : call.allowUnsigned = true
    . rw [if_pos hunsigned] at h
      rcases Except.bind_eq_ok.mp h with ⟨reasons, hreasons, h⟩
      by_cases hnone : reasons = []
      . subst hnone
        rcases stage_eq (Except.ok.inj h) with ⟨rfl, rfl, hcounts⟩
        exact ⟨.unsigned hunsigned hread hreasons, hcounts⟩
      . rw [if_pos hnone] at h
        cases h
    . rw [if_neg hunsigned] at h
      rcases Except.bind_eq_ok.mp h with ⟨vetted, hvetted, h⟩
      cases vetted with
      | inl verdict =>
        -- a refusal before the version check is no stage
        cases h
        unfold vetPack at hvetted
        rcases Except.bind_eq_ok.mp hvetted with ⟨verified, _, hvetted⟩
        cases verified with
        | refused reasons manifest' => cases hvetted
        | accepted manifest' =>
          rcases Except.bind_eq_ok.mp hvetted with ⟨reasons, _, hvetted⟩
          split at hvetted <;> cases hvetted
      | inr manifest' =>
        rcases accepted_of_vetPack hvetted with ⟨haccepted, henvelope⟩
        dsimp only at h
        split at h
        . cases h
        . next version hversion =>
          rcases Except.bind_eq_ok.mp h with ⟨n, hn, h⟩
          rcases Except.bind_eq_ok.mp h with ⟨held, hheld, h⟩
          cases held with
          | true => cases h
          | false =>
            rcases stage_eq (Except.ok.inj h) with ⟨rfl, rfl, hcounts⟩
            rw [hstored n hn] at hheld
            exact ⟨.signed (Bool.eq_false_iff.mpr hunsigned) hread haccepted henvelope hversion hheld, hcounts⟩

/-- Everything a swap can do: refuse, raise or be killed before its commit, or commit a checked pack. -/
inductive Swapped (cfg : Config) (faults : Faults) (call : SwapCall) (w : World)
    : Exit Raised Reply → World → Prop
  | quiet {x : Exit Raised Reply} {w' : World}
      : Quiet w w' → (∀ policy, x ≠ .returned (.active policy)) →
        (∀ manifest image, (prepare cfg faults call w).1 ≠ .returned (.stage manifest image)) →
        Swapped cfg faults call w x w'
  | committed {manifest : List (String × Value)} {image : List UInt8} {counts : Header} {w₁ w' : World}
      {x : Exit Raised Reply}
      : (prepare cfg faults call w).1 = .returned (.stage manifest image) →
        Quiet w w₁ → Staged cfg call w.disk manifest image → readPptHeader image = .ok counts →
        Committed cfg faults (newPolicy cfg call manifest image counts) w₁ x w' →
        Swapped cfg faults call w x w'

theorem not_active_of_stopped {x : Exit Raised Reply} (h : x.Stopped) (policy : Policy)
    : x ≠ .returned (.active policy) :=
  h _

theorem reject_not_active {cfg : Config} {faults : Faults} {strict : Bool} {toHash version : Value}
    {reasons : List String} {w w' : World} {x : Exit Raised Reply}
    (h : reject cfg faults strict toHash version reasons w = (x, w')) (policy : Policy)
    : x ≠ .returned (.active policy) := by
  unfold reject at h
  rw [read_bind] at h
  rcases append_bind_cases h with ⟨_, hx, _⟩ | ⟨_, _, hx, _⟩ | ⟨_, _, h⟩
  . exact not_active_of_stopped hx policy
  . exact not_active_of_stopped hx policy
  . split at h
    . cases h
      exact not_active_of_stopped (Exit.stopped_raised _) policy
    . cases h
      intro hx
      cases hx

theorem readStored_cases {fault : Fault} {w w' : World} {x : Exit Raised (Except Raised ℤ)}
    (h : readStored fault w = (x, w'))
    : w' = w
        ∧ ((∃ stored, x = .returned stored ∧ ∀ n, stored = .ok n → n = w.disk.floor) ∨ x = .killed) := by
  unfold readStored at h
  rw [read_bind] at h
  cases fault with
  | none =>
    cases h
    exact ⟨rfl, .inl ⟨_, rfl, fun n hn => (Except.ok.inj hn).symm⟩⟩
  | error =>
    cases h
    exact ⟨rfl, .inl ⟨_, rfl, fun n hn => by cases hn⟩⟩
  | kill =>
    cases h
    exact ⟨rfl, .inr rfl⟩

theorem moves_quiet_prepare (cfg : Config) (faults : Faults) (call : SwapCall)
    : Moves Quiet (prepare cfg faults call) := by
  unfold prepare
  refine Moves.bind (moves_quiet_recover cfg faults) fun pending => Moves.bind ?_ fun stored => ?_
  . intro w
    cases hread : readStored (faults .readStored) w with
    | mk x t =>
      rw [(readStored_cases hread).1]
      exact refl_of Quiet w
  . cases vet cfg call pending stored with
    | error e => exact Moves.raise e
    | ok verdict => exact Moves.pure verdict

/-- The checks read the pending record and the floor the call found. -/
theorem staged_of_prepare {cfg : Config} {faults : Faults} {call : SwapCall} {w w' : World}
    {manifest : List (String × Value)} {image : List UInt8}
    (h : prepare cfg faults call w = (.returned (.stage manifest image), w'))
    : Staged cfg call w.disk manifest image ∧ ∃ counts, readPptHeader image = .ok counts := by
  unfold prepare at h
  have hquiet := moves_quiet_recover cfg faults w
  rcases returned_of_bind h with ⟨pending, t, hrecover, hrest⟩
  rw [hrecover] at hquiet
  dsimp only at hquiet
  rw [recover_returned hrecover] at hrest
  have hfloor : t.disk.floor = w.disk.floor := by
    rw [Disk.floor, Disk.floor, hquiet.version]
  rcases returned_of_bind hrest with ⟨stored, t', hread, hvet⟩
  rcases readStored_cases hread with ⟨_, ⟨_, hret, hstored⟩ | hkilled⟩
  . cases hret
    have hok : vet cfg call w.disk.pending.intent? stored = .ok (.stage manifest image) := by
      cases hv : vet cfg call w.disk.pending.intent? stored with
      | error e => rw [hv] at hvet; cases hvet
      | ok verdict => rw [hv] at hvet; cases hvet; rfl
    exact staged_of_vet (fun n hn => by rw [hstored n hn, hfloor]) hok
  . cases hkilled

theorem swap_cases {cfg : Config} {faults : Faults} {call : SwapCall} {w w' : World}
    {x : Exit Raised Reply} (h : swap cfg faults call w = (x, w'))
    : Swapped cfg faults call w x w' := by
  unfold swap at h
  have hquiet := moves_quiet_prepare cfg faults call w
  rcases bind_cases h with ⟨verdict, t, hprepare, hrest⟩ | ⟨e, hprepare, rfl⟩ | ⟨hprepare, rfl⟩
  . rw [hprepare] at hquiet
    cases verdict with
    | reject toHash version reasons =>
      have hreject := moves_quiet_reject cfg faults call.strict toHash version reasons t
      dsimp only at hrest
      rw [hrest] at hreject
      refine .quiet (trans_of Quiet hquiet hreject) (reject_not_active hrest) fun manifest image => ?_
      rw [hprepare]
      intro hstage
      cases hstage
    | stage manifest image =>
      rcases staged_of_prepare hprepare with ⟨hstaged, counts, hcounts⟩
      dsimp only at hrest
      rw [hcounts] at hrest
      exact .committed (by rw [hprepare]) hquiet hstaged hcounts (commit_cases hrest)
  . rw [hprepare] at hquiet
    refine .quiet hquiet (not_active_of_stopped (Exit.stopped_raised e)) fun manifest image => ?_
    rw [hprepare]
    intro hstage
    cases hstage
  . rw [hprepare] at hquiet
    refine .quiet hquiet (not_active_of_stopped Exit.stopped_killed) fun manifest image => ?_
    rw [hprepare]
    intro hstage
    cases hstage

theorem stage_of_header {toHash : String} {manifest : List (String × Value)} {image : List UInt8}
    {counts : Header} (h : readPptHeader image = .ok counts)
    : stage toHash manifest image = .stage manifest image := by
  unfold stage
  rw [h]

theorem vet_of_staged {cfg : Config} {call : SwapCall} {disk : Disk} {manifest : List (String × Value)}
    {image : List UInt8} {counts : Header} (h : Staged cfg call disk manifest image)
    (hcounts : readPptHeader image = .ok counts)
    : vet cfg call disk.pending.intent? (.ok disk.floor) = .ok (.stage manifest image) := by
  unfold vet
  cases h with
  | signed hsigned hread haccepted henvelope hversion hheld =>
    have hvetted : vetPack cfg call image = .ok (.inr manifest) := by
      simp only [vetPack, haccepted, henvelope, bind, Except.bind, ne_eq, not_true_eq_false, if_false, pure,
        Except.pure]
    simp only [hread, hsigned, Bool.false_eq_true, if_false, hvetted, hversion, hheld, bind, Except.bind,
      stage_of_header hcounts, pure, Except.pure]
  | unsigned hunsigned hread hvalid =>
    simp only [hread, hunsigned, if_true, hvalid, bind, Except.bind, ne_eq, not_true_eq_false, if_false,
      stage_of_header hcounts, pure, Except.pure]

theorem append_noFaults {cfg : Config} {faults : Faults} {write sign : Op} (hwrite : faults write = .none)
    (hsign : faults sign = .none) (action : String) (data : List (String × Value)) (w : World)
    : append cfg faults write sign action data w = (.returned (), logged ⟨action, data⟩ w) := by
  unfold append
  rw [hwrite, hsign, attempt_none_bind]
  split <;> rfl

/-- The operations of a swap before its commit. -/
def checking : List Op :=
  [.readPending, .readFloor, .recoveryEvent, .recoverySign, .readStored]

theorem recover_noFaults (cfg : Config) {faults : Faults} {w : World} (hfaults : ∀ op ∈ checking, faults op = .none)
    (hreadable : w.disk.pending ≠ .unreadable)
    : ∃ t, recover cfg faults w = (.returned w.disk.pending.intent?, t) := by
  unfold recover
  rw [hfaults .readPending (by decide), attempt_none_bind, id_eq, read_bind]
  cases hp : w.disk.pending with
  | missing => exact ⟨w, rfl⟩
  | unreadable => exact absurd hp hreadable
  | intent intent =>
    have hrecord : ∃ t, (if w.host.recoveryRecorded then pure () else recordRecovery cfg faults intent) w
        = (.returned (), t) := by
      split
      . exact ⟨w, rfl⟩
      . unfold recordRecovery
        rw [read_bind, hfaults .readFloor (by decide), attempt_none_bind, id_eq, bind_apply,
          append_noFaults (hfaults .recoveryEvent (by decide)) (hfaults .recoverySign (by decide))]
        exact ⟨_, rfl⟩
    rcases hrecord with ⟨t, ht⟩
    refine ⟨t, ?_⟩
    dsimp only
    rw [bind_apply, ht]
    rfl

theorem commit_noFaults {cfg : Config} {faults : Faults} (hfaults : ∀ op, faults op = .none) (policy : Policy)
    (w : World)
    : (commit cfg faults policy w).1 = .returned (.active policy) := by
  have hconclude (t : World) : (conclude cfg faults policy t).1 = .returned (.active policy) := by
    unfold conclude persistActive
    rw [read_bind, bind_apply, append_noFaults (hfaults _) (hfaults _), hfaults, hfaults, hfaults]
    rfl
  unfold commit
  rw [hfaults, hfaults, attempt_none_bind]
  split
  . exact hconclude _
  . exact hconclude _

theorem prepare_of_staged {cfg : Config} {faults : Faults} {call : SwapCall} (w : World)
    {manifest : List (String × Value)} {image : List UInt8} {counts : Header}
    (hfaults : ∀ op ∈ checking, faults op = .none) (hreadable : w.disk.pending ≠ .unreadable)
    (hstaged : Staged cfg call w.disk manifest image) (hcounts : readPptHeader image = .ok counts)
    : ∃ t, prepare cfg faults call w = (.returned (.stage manifest image), t) := by
  rcases recover_noFaults cfg hfaults hreadable with ⟨t, ht⟩
  have hquiet : Quiet w t := by
    have := moves_quiet_recover cfg faults w
    rwa [ht] at this
  have hfloor : t.disk.floor = w.disk.floor := by
    rw [Disk.floor, Disk.floor, hquiet.version]
  have hstored : readStored (faults .readStored) t = (.returned (.ok w.disk.floor), t) := by
    unfold readStored
    rw [read_bind, hfaults .readStored (by decide)]
    dsimp only
    rw [hfloor]
    rfl
  refine ⟨t, ?_⟩
  unfold prepare
  rw [bind_apply, ht]
  dsimp only
  rw [bind_apply, hstored]
  dsimp only
  rw [vet_of_staged hstaged hcounts]
  rfl

/-- A pack that passes every check is made active when no operation of the swap fails. -/
theorem swap_of_staged {cfg : Config} {faults : Faults} {call : SwapCall} (w : World)
    {manifest : List (String × Value)} {image : List UInt8} {counts : Header}
    (hfaults : ∀ op, faults op = .none) (hreadable : w.disk.pending ≠ .unreadable)
    (hstaged : Staged cfg call w.disk manifest image) (hcounts : readPptHeader image = .ok counts)
    : (swap cfg faults call w).1 = .returned (.active (newPolicy cfg call manifest image counts)) := by
  rcases prepare_of_staged w (fun op _ => hfaults op) hreadable hstaged hcounts with ⟨t, hprepare⟩
  unfold swap
  rw [bind_apply, hprepare]
  dsimp only
  rw [hcounts]
  exact commit_noFaults hfaults _ t

def unrolled (policy : Policy) (w : World) : World :=
  { w with host := { w.host with active := some policy, prev := none } }

/-- Where a rollback can stop, and what it has done by then. -/
inductive RolledBack (cfg : Config) (faults : Faults) (w : World) : Exit Raised Reply → World → Prop
  | noPrevious {reasons : List String}
      : w.host.prev = none → RolledBack cfg faults w (.returned (.refused reasons)) w
  | atImage {prev : Policy} {x : Exit Raised Reply}
      : w.host.prev = some prev → faults .writeImage ≠ .none → x.Stopped → RolledBack cfg faults w x w
  | atRecord {prev : Policy} {x : Exit Raised Reply}
      : w.host.prev = some prev → faults .writeImage = .none → faults .writeRecord ≠ .none → x.Stopped →
        RolledBack cfg faults w x (imaged prev w)
  | atEvent {prev : Policy} {x : Exit Raised Reply}
      : w.host.prev = some prev → faults .writeImage = .none → faults .writeRecord = .none →
        faults .rollbackEvent ≠ .none → x.Stopped →
        RolledBack cfg faults w x (unrolled prev (recorded prev (imaged prev w)))
  | logged {prev : Policy} {x : Exit Raised Reply}
      : w.host.prev = some prev → faults .writeImage = .none → faults .writeRecord = .none →
        faults .rollbackEvent = .none →
        RolledBack cfg faults w x
          (logged (rollbackEvent prev) (unrolled prev (recorded prev (imaged prev w))))

theorem rollback_cases {cfg : Config} {faults : Faults} {w w' : World} {x : Exit Raised Reply}
    (h : rollback cfg faults w = (x, w'))
    : RolledBack cfg faults w x w' := by
  unfold rollback at h
  rw [read_bind] at h
  cases hprev : w.host.prev with
  | none =>
    rw [hprev] at h
    cases h
    exact .noPrevious hprev
  | some prev =>
    rw [hprev] at h
    rcases persistActive_bind_cases h with ⟨himage, hx, rfl⟩ | ⟨himage, hrecord, hx, rfl⟩ | ⟨himage, hrecord, h⟩
    . exact .atImage hprev himage hx
    . exact .atRecord hprev himage hrecord hx
    . rw [update_bind] at h
      rcases append_bind_cases h with ⟨hevent, hx, rfl⟩ | ⟨hevent, _, _, rfl⟩ | ⟨hevent, _, h⟩
      . exact .atEvent hprev himage hrecord hevent hx
      . exact .logged hprev himage hrecord hevent
      . cases h
        exact .logged hprev himage hrecord hevent

/-- What the floor is read from, and the record of an interrupted swap, stay as they are. -/
structure SameFloor (w w' : World) : Prop where
  version : w'.disk.version = w.disk.version
  pending : w'.disk.pending = w.disk.pending

instance : Std.Refl SameFloor where
  refl _ := ⟨rfl, rfl⟩

instance : IsTrans World SameFloor where
  trans _ _ _ h₁ h₂ := ⟨h₂.version.trans h₁.version, h₂.pending.trans h₁.pending⟩

theorem Quiet.sameFloor {w w' : World} (h : Quiet w w')
    : SameFloor w w' :=
  ⟨h.version, h.pending⟩

theorem moves_sameFloor_append (cfg : Config) (faults : Faults) (write sign : Op) (action : String)
    (data : List (String × Value))
    : Moves SameFloor (append cfg faults write sign action data) := by
  unfold append
  refine Moves.bind (Moves.attempt fun w => ⟨rfl, rfl⟩) fun _ => ?_
  split
  . exact Moves.attempt fun w => ⟨rfl, rfl⟩
  . exact Moves.pure ()

theorem moves_sameFloor_persistActive (faults : Faults) (policy : Policy)
    : Moves SameFloor (persistActive faults policy) := by
  unfold persistActive
  exact Moves.bind (Moves.attempt fun w => ⟨rfl, rfl⟩) fun _ => Moves.attempt fun w => ⟨rfl, rfl⟩

theorem moves_sameFloor_rollback (cfg : Config) (faults : Faults)
    : Moves SameFloor (rollback cfg faults) := by
  unfold rollback
  refine Moves.bind Moves.read fun w => ?_
  split
  . exact Moves.pure _
  . refine Moves.bind (moves_sameFloor_persistActive faults _) fun _ => ?_
    refine Moves.bind (Moves.update fun w => ⟨rfl, rfl⟩) fun _ => ?_
    exact Moves.bind (moves_sameFloor_append cfg faults _ _ _ _) fun _ => Moves.pure _

/-- A start leaves every file but the log as it is. -/
structure SameFiles (w w' : World) : Prop extends SameFloor w w' where
  record : w'.disk.record = w.disk.record
  image : w'.disk.image = w.disk.image
  prev : w'.host.prev = w.host.prev

instance : Std.Refl SameFiles where
  refl w := { refl_of SameFloor w with record := rfl, image := rfl, prev := rfl }

instance : IsTrans World SameFiles where
  trans _ _ _ h₁ h₂ := {
    trans_of SameFloor h₁.toSameFloor h₂.toSameFloor with
    record := h₂.record.trans h₁.record
    image := h₂.image.trans h₁.image
    prev := h₂.prev.trans h₁.prev
  }

theorem Quiet.sameFiles {w w' : World} (h : Quiet w w')
    : SameFiles w w' :=
  { h.sameFloor with record := h.record, image := h.image, prev := h.prev }

theorem moves_sameFiles_notRestored (cfg : Config) (faults : Faults) (data : List (String × Value))
    : Moves SameFiles (notRestored cfg faults data) :=
  fun w => (moves_quiet_append (by decide) (by decide) w).sameFiles

theorem moves_sameFiles_killed {α : Type}
    : Moves SameFiles (fun w => (.killed, w) : Process World Raised α) :=
  fun w => refl_of SameFiles w

theorem moves_sameFiles_loadImage (cfg : Config) (faults : Faults) (call : StartCall) (record : Record)
    : Moves SameFiles (loadImage cfg faults call record) := by
  unfold loadImage
  refine Moves.bind Moves.read fun w => ?_
  cases faults .readImage with
  | none =>
    cases w.disk.image with
    | none => exact moves_sameFiles_notRestored cfg faults _
    | some image =>
      dsimp only
      split
      . exact Moves.update fun w => { refl_of SameFiles w with }
      . exact moves_sameFiles_notRestored cfg faults _
  | error => exact moves_sameFiles_notRestored cfg faults _
  | kill => exact moves_sameFiles_killed

theorem moves_sameFiles_loadActive (cfg : Config) (faults : Faults) (call : StartCall)
    : Moves SameFiles (loadActive cfg faults call) := by
  unfold loadActive
  refine Moves.bind Moves.read fun w => ?_
  cases faults .readRecord with
  | none =>
    cases w.disk.record with
    | missing => exact Moves.pure ()
    | unreadable => exact moves_sameFiles_notRestored cfg faults _
    | notAnObject => exact moves_sameFiles_notRestored cfg faults _
    | record record => exact moves_sameFiles_loadImage cfg faults call record
  | error => exact moves_sameFiles_notRestored cfg faults _
  | kill => exact moves_sameFiles_killed

/-- The instance key is none of the authority keys. -/
def Separated (cfg : Config) : Prop :=
  ∀ keyId, cfg.instanceKeyId = some keyId → keyId ∉ authorityKeyIds cfg

theorem start_cases {cfg : Config} {faults : Faults} {call : StartCall} {w w' : World} {x : Exit Raised Unit}
    (h : start cfg faults call w = (x, w'))
    : SameFiles w w' ∧ (x = .returned () → Separated cfg) := by
  have hrest : Moves SameFiles (recover cfg faults >>= fun _ => loadActive cfg faults call) :=
    Moves.bind (fun w => (moves_quiet_recover cfg faults w).sameFiles) fun _ =>
      moves_sameFiles_loadActive cfg faults call
  have hmoves {p : Process World Raised Unit} (hp : Moves SameFiles p) (h : p w = (x, w')) : SameFiles w w' := by
    have := hp w
    rwa [h] at this
  unfold start at h
  cases hkey : cfg.instanceKeyId with
  | none =>
    rw [hkey] at h
    exact ⟨hmoves hrest h, fun _ keyId hk => by rw [hkey] at hk; cases hk⟩
  | some keyId =>
    rw [hkey] at h
    by_cases hmem : keyId ∈ authorityKeyIds cfg
    . simp only [hmem, if_true] at h
      cases h
      exact ⟨refl_of SameFiles w, fun hx => by cases hx⟩
    . simp only [hmem, if_false] at h
      exact ⟨hmoves hrest h, fun _ keyId' hk => by rw [hkey] at hk; cases hk; exact hmem⟩

theorem notRestored_noFaults {cfg : Config} {faults : Faults} (hfaults : ∀ op, faults op = .none)
    (data : List (String × Value)) (w : World)
    : (notRestored cfg faults data w).1 = .returned () := by
  unfold notRestored
  rw [append_noFaults (hfaults _) (hfaults _)]

theorem loadActive_noFaults {cfg : Config} {faults : Faults} {call : StartCall}
    (hfaults : ∀ op, faults op = .none) (w : World)
    : (loadActive cfg faults call w).1 = .returned () := by
  have hload (record : Record) : (loadImage cfg faults call record w).1 = .returned () := by
    unfold loadImage
    rw [read_bind, hfaults]
    cases w.disk.image with
    | none => exact notRestored_noFaults hfaults _ w
    | some image =>
      dsimp only
      cases restored cfg record image with
      | some policy => rfl
      | none => exact notRestored_noFaults hfaults _ w
  unfold loadActive
  rw [read_bind, hfaults]
  cases w.disk.record with
  | missing => rfl
  | unreadable => exact notRestored_noFaults hfaults _ w
  | notAnObject => exact notRestored_noFaults hfaults _ w
  | record record => exact hload record

theorem start_noFaults {cfg : Config} {faults : Faults} (call : StartCall) (w : World)
    (hfaults : ∀ op, faults op = .none) (hseparated : Separated cfg) (hreadable : w.disk.pending ≠ .unreadable)
    : (start cfg faults call w).1 = .returned () := by
  rcases recover_noFaults cfg (fun op _ => hfaults op) hreadable with ⟨t, ht⟩
  have hrest : ((recover cfg faults >>= fun _ => loadActive cfg faults call) w).1 = .returned () := by
    rw [bind_apply, ht]
    exact loadActive_noFaults hfaults t
  unfold start
  cases hkey : cfg.instanceKeyId with
  | none => exact hrest
  | some keyId =>
    simp only [hseparated keyId hkey, if_false]
    exact hrest

theorem swapped (cfg : Config) (faults : Faults) (call : SwapCall) (w : World)
    : Swapped cfg faults call w (swap cfg faults call w).1 (swap cfg faults call w).2 :=
  swap_cases rfl

theorem moves_sameFiles_start (cfg : Config) (faults : Faults) (call : StartCall)
    : Moves SameFiles (start cfg faults call) :=
  fun _ => (start_cases rfl).1

/-- What a commit has done to the floor and to the record of its intent, wherever it stopped. -/
inductive FloorEffect (faults : Faults) (policy : Policy) (disk : Disk) : Option Policy → Disk → Prop
  | nothing {disk' : Disk}
      : faults .writePending ≠ .none → disk'.version = disk.version → disk'.pending = disk.pending →
        FloorEffect faults policy disk none disk'
  | intent {disk' : Disk}
      : faults .writePending = .none → (policy.versioned = true → faults .writeVersion ≠ .none) →
        disk'.version = disk.version → disk'.pending = .intent ⟨policy.sha256, policy.version⟩ →
        FloorEffect faults policy disk none disk'
  | floor {disk' : Disk}
      : faults .writePending = .none → policy.versioned = true → faults .writeVersion = .none →
        disk'.version = some policy.version → disk'.pending = .intent ⟨policy.sha256, policy.version⟩ →
        FloorEffect faults policy disk none disk'
  | done {disk' : Disk}
      : faults .writePending = .none → (policy.versioned = true → faults .writeVersion = .none) →
        faults .swapEvent = .none →
        disk'.version = (if policy.versioned = true then some policy.version else disk.version) →
        disk'.pending = .missing → FloorEffect faults policy disk (some policy) disk'

theorem active?_of_stopped {x : Exit Raised Reply} (h : x.Stopped)
    : active? x = none := by
  cases x with
  | returned reply => exact absurd rfl (h reply)
  | raised e => rfl
  | killed => rfl

theorem floored_pending (policy : Policy) (w : World)
    : (floored policy (intended policy w)).disk.pending = .intent ⟨policy.sha256, policy.version⟩ := by
  unfold floored
  split <;> rfl

theorem floored_version (policy : Policy) (w : World)
    : (floored policy (intended policy w)).disk.version
        = if policy.versioned = true then some policy.version else w.disk.version := by
  unfold floored
  split <;> rfl

theorem floored_host (policy : Policy) (w : World)
    : (floored policy (intended policy w)).host = w.host := by
  unfold floored
  split <;> rfl

theorem floorEffect_of_committed {cfg : Config} {faults : Faults} {policy : Policy} {w w' : World}
    {x : Exit Raised Reply} (h : Committed cfg faults policy w x w')
    : FloorEffect faults policy w.disk (active? x) w'.disk := by
  -- once the intent is written and the floor has had its turn, only the record of the intent is touched again
  have hmid {w' : World} (hpending : faults .writePending = .none)
      (hversion : policy.versioned = true → faults .writeVersion = .none)
      (hv : w'.disk.version = (floored policy (intended policy w)).disk.version)
      (hp : w'.disk.pending = (floored policy (intended policy w)).disk.pending)
      : FloorEffect faults policy w.disk none w'.disk := by
    rw [floored_version] at hv
    rw [floored_pending] at hp
    by_cases hversioned : policy.versioned = true
    . rw [if_pos hversioned] at hv
      exact .floor hpending hversioned (hversion hversioned) hv hp
    . rw [if_neg hversioned] at hv
      exact .intent hpending (fun h => absurd h hversioned) hv hp
  cases h with
  | atIntent hpending hx =>
    rw [active?_of_stopped hx]
    exact .nothing hpending rfl rfl
  | atFloor hpending _ hfloor hx =>
    rw [active?_of_stopped hx]
    exact .intent hpending (fun _ => hfloor) rfl rfl
  | atEvent hpending hversion _ hx =>
    rw [active?_of_stopped hx]
    exact hmid hpending hversion rfl rfl
  | atEvidence hpending hversion _ _ hx =>
    rw [active?_of_stopped hx]
    exact hmid hpending hversion rfl rfl
  | atRecord hpending hversion _ _ _ _ hx =>
    rw [active?_of_stopped hx]
    exact hmid hpending hversion rfl rfl
  | atRemove hpending hversion _ _ _ _ _ hx =>
    rw [active?_of_stopped hx]
    exact hmid hpending hversion rfl rfl
  | done hpending hversion hevent _ _ _ _ =>
    exact .done hpending hversion hevent (floored_version policy w) rfl

/-- Before its commit a swap leaves the floor and the record of an intent as they are. -/
theorem FloorEffect.of_quiet {faults : Faults} {policy : Policy} {w w₁ : World} {active : Option Policy}
    {disk' : Disk} (hquiet : Quiet w w₁) (h : FloorEffect faults policy w₁.disk active disk')
    : FloorEffect faults policy w.disk active disk' := by
  cases h with
  | nothing hp hv hpend => exact .nothing hp (hv.trans hquiet.version) (hpend.trans hquiet.pending)
  | intent hp hf hv hpend => exact .intent hp hf (hv.trans hquiet.version) hpend
  | floor hp hvers hf hv hpend => exact .floor hp hvers hf hv hpend
  | done hp hf he hv hpend =>
    rw [hquiet.version] at hv
    exact .done hp hf he hv hpend

end PolicyHost
