import PrismPath.Hotswap.RestoreAfterCrash

/-!
This module contains what the swap log says over runs of a policy host: that its last accepted event names the active
policy, and that an event of a swap that did not come to anything is corrected by a later one.
-/

open Python PolicyPack Process

namespace PolicyHost

def Event.names (event : Event) (action : String) (intent : Intent) : Prop :=
  event.action = action ∧ get event.data "to_hash" = .str intent.toHash ∧ get event.data "version" = intent.version

def Event.accepts (event : Event) : Bool :=
  event.action = "swap" || event.action = "rollback"

def lastAccepted (log : List Event) : Option Event :=
  (log.filter Event.accepts).getLast?

/-- What the host holds, or a fresh one over the directory would. -/
def Machine.active (cfg : Config) (m : Machine) : Option Policy :=
  match m.host with
  | some host => host.active
  | none => m.disk.restore cfg

def Holds (active : Option Policy) (intent : Intent) : Prop :=
  ∃ policy, active = some policy ∧ policy.intent = intent

/-- From its `n`-th event on, the log has one that says the swap of the intent is incomplete. -/
def Corrected (log : List Event) (n : Nat) (intent : Intent) : Prop :=
  ∃ event ∈ log.drop n, event.names "swap_incomplete" intent

/-- An accepted event of the intent stands in the log, and none after it says that it is incomplete. -/
def Uncorrected (log : List Event) (intent : Intent) : Prop :=
  ∃ before event after, log = before ++ event :: after ∧ event.names "swap" intent
    ∧ ∀ later ∈ after, ¬ later.names "swap_incomplete" intent

/-- The swap of the intent is the last that was accepted, and its policy is active: all but the record was removed. -/
def InForce (host : Host) (log : List Event) (intent : Intent) : Prop :=
  Holds host.active intent ∧ ∃ event, lastAccepted log = some event ∧ event.names "swap" intent

/--
A swap writes its intent over one whose accepted event stands uncorrected, in a process that has recorded a recovery
already.
-/
def Overwrites (cfg : Config) (m : Machine) (step : Step) : Prop :=
  ∃ host intent, m.host = some host ∧ host.recoveryRecorded = true ∧ m.disk.pending = .intent intent
    ∧ Uncorrected m.disk.log intent ∧ ¬ InForce host m.disk.log intent ∧ (passing cfg m step).isSome = true
    ∧ step.faults .writePending = .none

structure Telling (cfg : Config) (m : Machine) (step : Step) : Prop where
  rollback : RollbackSound m step
  swap : ¬ Overwrites cfg m step
  /-- A start over a directory that gives a policy reads it, when no intent is pending. -/
  start : ∀ call, step.call = .start call → m.disk.pending = .missing → (m.disk.restore cfg).isSome = true →
    step.faults .readRecord ≠ .error ∧ step.faults .readImage ≠ .error

/- The recovery that comes before a swap's checks, and before a start's. -/

theorem recover_corrects {cfg : Config} {faults : Faults} {w w' : World} {pending : Option Intent}
    (h : recover cfg faults w = (.returned pending, w')) {intent : Intent} (hpending : w.disk.pending = .intent intent)
    (hfirst : w.host.recoveryRecorded = false)
    : ∃ event, w'.disk.log = w.disk.log ++ [event] ∧ event.names "swap_incomplete" intent := by
  unfold recover at h
  rcases attempt_bind_cases h with ⟨_, hx, _⟩ | ⟨_, h⟩
  . exact absurd rfl (hx pending)
  . rw [id_eq, read_bind, hpending] at h
    simp only [hfirst, Bool.false_eq_true, if_false] at h
    rcases returned_of_bind h with ⟨_, t, hrecord, hret⟩
    cases hret
    unfold recordRecovery at hrecord
    rw [read_bind] at hrecord
    rcases attempt_bind_cases hrecord with ⟨_, hx, _⟩ | ⟨_, hrecord⟩
    . exact absurd rfl (hx ())
    . rcases append_bind_cases hrecord with ⟨_, hx, _⟩ | ⟨_, _, hx, _⟩ | ⟨_, _, hrecord⟩
      . exact absurd rfl (hx ())
      . exact absurd rfl (hx ())
      . cases hrecord
        exact ⟨_, rfl, rfl, rfl, rfl⟩

/-- A swap that comes through its checks has corrected the pending intent, or its process had recorded one before. -/
theorem prepare_corrects {cfg : Config} {faults : Faults} {call : SwapCall} {w w' : World} {verdict : Verdict}
    (h : prepare cfg faults call w = (.returned verdict, w')) {intent : Intent}
    (hpending : w.disk.pending = .intent intent) (hfirst : w.host.recoveryRecorded = false)
    : ∃ event, w'.disk.log = w.disk.log ++ [event] ∧ event.names "swap_incomplete" intent := by
  unfold prepare at h
  rcases returned_of_bind h with ⟨pending, t, hrecover, h⟩
  rcases returned_of_bind h with ⟨stored, t', hread, h⟩
  have hsame : t' = t := (readStored_cases hread).1
  have hlast : w' = t' := by
    cases hvet : vet cfg call pending stored with
    | error e => rw [hvet] at h; cases h
    | ok verdict' => rw [hvet] at h; cases h; rfl
  rw [hlast, hsame]
  exact recover_corrects hrecover hpending hfirst

theorem swap_staged {cfg : Config} {faults : Faults} {call : SwapCall} {w : World} {manifest : List (String × Value)}
    {image : List UInt8} (h : (prepare cfg faults call w).1 = .returned (.stage manifest image))
    : ∃ counts, readPptHeader image = .ok counts
        ∧ Committed cfg faults (newPolicy cfg call manifest image counts) (prepare cfg faults call w).2
          (swap cfg faults call w).1 (swap cfg faults call w).2 := by
  cases hprepare : prepare cfg faults call w with
  | mk x t =>
    rw [hprepare] at h
    dsimp only at h
    rw [h] at hprepare
    rcases staged_of_prepare hprepare with ⟨_, counts, hcounts⟩
    refine ⟨counts, hcounts, commit_cases ?_⟩
    unfold swap
    rw [bind_apply, hprepare]
    dsimp only
    rw [hcounts]

/- What is added to the log by calls that accept nothing. -/

def Adds (w w' : World) : Prop :=
  ∃ events, w'.disk.log = w.disk.log ++ events ∧ ∀ event ∈ events, event.accepts = false

instance : Std.Refl Adds where
  refl w := ⟨[], (List.append_nil _).symm, fun _ h => by cases h⟩

instance : IsTrans World Adds where
  trans w₁ w₂ w₃ h₁ h₂ := by
    rcases h₁ with ⟨events₁, hlog₁, hother₁⟩
    rcases h₂ with ⟨events₂, hlog₂, hother₂⟩
    refine ⟨events₁ ++ events₂, by rw [hlog₂, hlog₁, List.append_assoc], fun event hevent => ?_⟩
    rcases List.mem_append.mp hevent with h | h
    . exact hother₁ event h
    . exact hother₂ event h

theorem accepts_eq_false {event : Event}
    : event.accepts = false ↔ event.action ≠ "swap" ∧ event.action ≠ "rollback" := by
  simp [Event.accepts]

theorem Quiet.adds {w w' : World} (h : Quiet w w')
    : Adds w w' := by
  rcases h.log with ⟨events, hlog, hother⟩
  exact ⟨events, hlog, fun event hevent => accepts_eq_false.mpr (hother event hevent)⟩

theorem moves_adds_notRestored (cfg : Config) (faults : Faults) (data : List (String × Value))
    : Moves Adds (notRestored cfg faults data) :=
  fun w => (moves_quiet_append (by decide) (by decide) w).adds

theorem moves_adds_loadImage (cfg : Config) (faults : Faults) (call : StartCall) (record : Record)
    : Moves Adds (loadImage cfg faults call record) := by
  unfold loadImage
  refine Moves.bind Moves.read fun w => ?_
  cases faults .readImage with
  | none =>
    cases w.disk.image with
    | none => exact moves_adds_notRestored cfg faults _
    | some image =>
      dsimp only
      split
      . exact Moves.update fun w => refl_of Adds w
      . exact moves_adds_notRestored cfg faults _
  | error => exact moves_adds_notRestored cfg faults _
  | kill => exact fun w => refl_of Adds w

theorem moves_adds_loadActive (cfg : Config) (faults : Faults) (call : StartCall)
    : Moves Adds (loadActive cfg faults call) := by
  unfold loadActive
  refine Moves.bind Moves.read fun w => ?_
  cases faults .readRecord with
  | none =>
    cases w.disk.record with
    | missing => exact Moves.pure ()
    | unreadable => exact moves_adds_notRestored cfg faults _
    | notAnObject => exact moves_adds_notRestored cfg faults _
    | record record => exact moves_adds_loadImage cfg faults call record
  | error => exact moves_adds_notRestored cfg faults _
  | kill => exact fun w => refl_of Adds w

/-- A start past its key check. -/
theorem start_eq (cfg : Config) (faults : Faults) (call : StartCall) (w : World)
    : start cfg faults call w = (recover cfg faults >>= fun _ => loadActive cfg faults call) w
        ∨ start cfg faults call w = (.raised .valueError, w) := by
  unfold start
  cases hkey : cfg.instanceKeyId with
  | none => exact .inl rfl
  | some keyId =>
    by_cases hmem : keyId ∈ authorityKeyIds cfg
    . refine .inr ?_
      simp only [hmem, if_true]
      rfl
    . simp only [hmem, if_false, true_or]

theorem moves_adds_start (cfg : Config) (faults : Faults) (call : StartCall)
    : Moves Adds (start cfg faults call) := by
  intro w
  rcases start_eq cfg faults call w with h | h
  . rw [h]
    exact Moves.bind (fun w => (moves_quiet_recover cfg faults w).adds)
      (fun _ => moves_adds_loadActive cfg faults call) w
  . rw [h]
    exact refl_of Adds w

/-- A host that has started has corrected the pending intent. -/
theorem start_corrects {cfg : Config} {faults : Faults} {call : StartCall} {disk : Disk} {w' : World}
    (h : start cfg faults call ⟨disk, {}⟩ = (.returned (), w')) {intent : Intent}
    (hpending : disk.pending = .intent intent)
    : ∃ events, w'.disk.log = disk.log ++ events ∧ (∀ event ∈ events, event.accepts = false)
        ∧ ∃ event ∈ events, event.names "swap_incomplete" intent := by
  rcases start_eq cfg faults call ⟨disk, {}⟩ with hstart | hstart
  . rw [hstart] at h
    rcases returned_of_bind h with ⟨pending, t, hrecover, hload⟩
    rcases recover_corrects hrecover hpending rfl with ⟨event, hlog, hnames⟩
    have hadds := moves_adds_loadActive cfg faults call t
    rw [hload] at hadds
    rcases hadds with ⟨events, hlog', hother⟩
    refine ⟨event :: events, ?_, ?_, event, List.mem_cons_self .., hnames⟩
    . rw [hlog', hlog, List.append_assoc]
      rfl
    . intro later hlater
      rcases List.mem_cons.mp hlater with rfl | hmem
      . rw [accepts_eq_false, hnames.1]
        decide
      . exact hother later hmem
  . rw [hstart] at h
    cases h

theorem loadActive_reads {cfg : Config} {faults : Faults} {call : StartCall} {w w' : World} {policy : Policy}
    (h : loadActive cfg faults call w = (.returned (), w')) (hrestore : w.disk.restore cfg = some policy)
    (hrecord : faults .readRecord ≠ .error) (himage : faults .readImage ≠ .error)
    : w'.host.active = some policy := by
  unfold Disk.restore at hrestore
  split at hrestore
  . next record image hdiskRecord hdiskImage =>
    unfold loadActive at h
    rw [read_bind, hdiskRecord] at h
    cases hr : faults .readRecord with
    | error => exact absurd hr hrecord
    | kill => rw [hr] at h; cases h
    | none =>
      rw [hr] at h
      dsimp only at h
      unfold loadImage at h
      rw [read_bind, hdiskImage] at h
      cases hi : faults .readImage with
      | error => exact absurd hi himage
      | kill => rw [hi] at h; cases h
      | none =>
        rw [hi] at h
        dsimp only at h
        rw [hrestore] at h
        cases h
        rfl
  . cases hrestore

/-- A host that has started with its reads done holds what the directory gives. -/
theorem start_reads {cfg : Config} {faults : Faults} {call : StartCall} {disk : Disk} {w' : World}
    (h : start cfg faults call ⟨disk, {}⟩ = (.returned (), w'))
    (hreads : (disk.restore cfg).isSome = true → faults .readRecord ≠ .error ∧ faults .readImage ≠ .error)
    : w'.host.active = disk.restore cfg := by
  have hactive := start_active cfg faults call ⟨disk, {}⟩
  cases hrestore : disk.restore cfg with
  | none =>
    rw [h] at hactive
    rcases hactive with hnone | hsame
    . exact hnone
    . exact hsame.trans hrestore
  | some policy =>
    rcases hreads (by rw [hrestore]; rfl) with ⟨hrecord, himage⟩
    rcases start_eq cfg faults call ⟨disk, {}⟩ with hstart | hstart
    . rw [hstart] at h
      rcases returned_of_bind h with ⟨pending, t, hrecover, hload⟩
      have hquiet := moves_quiet_recover cfg faults ⟨disk, {}⟩
      rw [hrecover] at hquiet
      have hsame : t.disk.restore cfg = some policy :=
        (restore_congr hquiet.record hquiet.image).trans hrestore
      exact loadActive_reads hload hsame hrecord himage
    . rw [hstart] at h
      cases h

/- What a step does to the log and to the active policy. -/

def Digests (cfg : Config) (m : Machine) : Prop :=
  ∀ host, m.host = some host → ∀ policy, host.active = some policy ∨ host.prev = some policy →
    cfg.lib.sha256Hex policy.image = policy.sha256

/-- The pending intent is corrected by the events, or its swap is in force, or no event of it stands. -/
def Covered (m : Machine) (events : List Event) : Prop :=
  ∀ intent, m.disk.pending = .intent intent → Uncorrected m.disk.log intent →
    (∃ event ∈ events, event.names "swap_incomplete" intent)
      ∨ ∃ host, m.host = some host ∧ InForce host m.disk.log intent

/-- The log has grown by events that accept nothing, and then by those given. -/
structure Grows (m m' : Machine) (events accepted : List Event) : Prop where
  log : m'.disk.log = m.disk.log ++ events ++ accepted
  other : ∀ event ∈ events, event.accepts = false

theorem grows_nothing {m m' : Machine} (h : m'.disk.log = m.disk.log)
    : Grows m m' [] [] where
  log := by rw [h, List.append_nil, List.append_nil]
  other := by simp

/-- A host that is there after a step has the active policy it had. -/
def SameHost (m m' : Machine) : Prop :=
  ∀ host', m'.host = some host' → ∃ host, m.host = some host ∧ host'.active = host.active

inductive Turned (cfg : Config) (m m' : Machine) : Prop
  | still {events : List Event}
      : Grows m m' events [] → m'.disk.pending = m.disk.pending → m'.disk.restore cfg = m.disk.restore cfg →
        SameHost m m' → Turned cfg m m'
  | started {events : List Event}
      : Grows m m' events [] → m'.disk.pending = m.disk.pending → m'.disk.restore cfg = m.disk.restore cfg →
        (∀ host', m'.host = some host' →
          (∀ intent, m.disk.pending = .intent intent → ∃ event ∈ events, event.names "swap_incomplete" intent)
            ∧ (m.disk.pending = .missing → host'.active = m.disk.restore cfg)) →
        Turned cfg m m'
  | begun {policy : Policy} {events : List Event}
      : Grows m m' events [] → m'.disk.pending = .intent policy.intent → Covered m events → SameHost m m' →
        Turned cfg m m'
  | evidenced {policy : Policy} {events : List Event} {event : Event}
      : Grows m m' events [event] → event.names "swap" policy.intent → m'.disk.pending = .intent policy.intent →
        Covered m events → SameHost m m' → Turned cfg m m'
  | effective {policy : Policy} {events : List Event} {event : Event}
      : Grows m m' events [event] → event.names "swap" policy.intent →
        (m'.disk.pending = .intent policy.intent ∨ m'.disk.pending = .missing) → Covered m events →
        m'.disk.restore cfg = some policy → (∀ host', m'.host = some host' → host'.active = some policy) →
        Turned cfg m m'
  | rolledBack {policy : Policy} {event : Event}
      : Grows m m' [] [event] → event.names "rollback" policy.intent → m'.disk.pending = m.disk.pending →
        m'.disk.restore cfg = some policy → (∀ host', m'.host = some host' → host'.active = some policy) →
        Turned cfg m m'

theorem settle_some {α : Type} {r : Exit Raised α × World} {host : Host} (h : (settle r).host = some host)
    : host = r.2.host := by
  have hw := settle_host h
  rw [← hw]

theorem turned_start (cfg : Config) (m : Machine) (call : StartCall) (faults : Faults)
    (htelling : Telling cfg m ⟨.start call, faults⟩)
    : Turned cfg m (next cfg m ⟨.start call, faults⟩) := by
  have hfiles := moves_sameFiles_start cfg faults call ⟨m.disk, {}⟩
  rcases moves_adds_start cfg faults call ⟨m.disk, {}⟩ with ⟨events, hlog, hother⟩
  have hdisk : (next cfg m ⟨.start call, faults⟩).disk = (start cfg faults call ⟨m.disk, {}⟩).2.disk :=
    settleStart_disk _
  refine .started ⟨by rw [hdisk, hlog, List.append_nil], hother⟩ (by rw [hdisk]; exact hfiles.pending)
    (by rw [hdisk]; exact restore_congr hfiles.record hfiles.image) fun host' hhost => ?_
  cases hstart : start cfg faults call ⟨m.disk, {}⟩ with
  | mk x w' =>
    rw [hstart] at hlog
    have hhost' : (settleStart (x, w')).host = some host' := by
      rw [← hstart]
      exact hhost
    cases x with
    | raised => cases hhost'
    | killed => cases hhost'
    | returned =>
      cases hhost'
      refine ⟨fun intent hpending => ?_, fun hmissing => ?_⟩
      . rcases start_corrects hstart hpending with ⟨events', hlog', _, hcorrects⟩
        rw [hlog] at hlog'
        rwa [List.append_cancel_left hlog']
      . exact start_reads hstart fun hsome => htelling.start call rfl hmissing hsome

theorem turned_rollback (cfg : Config) (m : Machine) (faults : Faults) (hdigests : Digests cfg m)
    (htelling : Telling cfg m ⟨.rollback, faults⟩)
    : Turned cfg m (next cfg m ⟨.rollback, faults⟩) := by
  rcases m with ⟨disk, running⟩
  cases running with
  | none => exact .still (grows_nothing rfl) rfl rfl fun host' hhost => by cases hhost
  | some host =>
    have hdisk : (next cfg ⟨disk, some host⟩ ⟨.rollback, faults⟩).disk = (rollback cfg faults ⟨disk, host⟩).2.disk :=
      settle_disk _
    have hhost (host' : Host) (h : (next cfg ⟨disk, some host⟩ ⟨.rollback, faults⟩).host = some host')
        : host' = (rollback cfg faults ⟨disk, host⟩).2.host :=
      settle_some h
    have hsound : RollbackOk faults ⟨disk, host⟩ := htelling.rollback
    have hcases : RolledBack cfg faults ⟨disk, host⟩ (rollback cfg faults ⟨disk, host⟩).1
      (rollback cfg faults ⟨disk, host⟩).2 := rollback_cases rfl
    generalize (rollback cfg faults ⟨disk, host⟩).1 = x, (rollback cfg faults ⟨disk, host⟩).2 = w' at hcases hdisk hhost
    -- nothing but what was there already
    have hstill (hlog : w'.disk.log = disk.log) (hpending : w'.disk.pending = disk.pending)
        (hrecord : w'.disk.record = disk.record) (himage : w'.disk.image = disk.image)
        (hactive : w'.host.active = host.active)
        : Turned cfg ⟨disk, some host⟩ (next cfg ⟨disk, some host⟩ ⟨.rollback, faults⟩) := by
      refine .still (grows_nothing ?_) ?_ ?_ fun host' h => ⟨host, rfl, ?_⟩
      . rw [hdisk, hlog]
      . rw [hdisk, hpending]
      . rw [hdisk]
        exact restore_congr hrecord himage
      . rw [hhost host' h, hactive]
    cases hcases with
    | noPrevious => exact hstill rfl rfl rfl rfl rfl
    | atImage => exact hstill rfl rfl rfl rfl rfl
    | @atRecord prev _ hprev himage hrecord =>
      exact hstill rfl rfl rfl ((hsound prev hprev himage).1 hrecord).symm rfl
    | @atEvent prev _ hprev himage hrecord hevent =>
      rcases (hsound prev hprev himage).2 hrecord hevent with ⟨h₁, h₂, h₃⟩
      exact hstill rfl rfl h₂.symm h₁.symm h₃.symm
    | @logged prev _ hprev himage hrecord hevent =>
      have hgrows : Grows ⟨disk, some host⟩ (next cfg ⟨disk, some host⟩ ⟨.rollback, faults⟩) [] [rollbackEvent prev] := by
        refine ⟨?_, by simp⟩
        rw [hdisk, List.append_nil]
        rfl
      have hnames : (rollbackEvent prev).names "rollback" prev.intent := ⟨rfl, rfl, rfl⟩
      refine .rolledBack hgrows hnames ?_ ?_ ?_
      . rw [hdisk]
        rfl
      . rw [hdisk]
        exact restore_self rfl rfl (hdigests host rfl prev (.inr hprev))
      . intro host' h
        rw [hhost host' h]
        rfl

theorem turned_of_quiet {cfg : Config} {disk : Disk} {host : Host} {m' : Machine} {w' : World}
    (hquiet : Quiet ⟨disk, host⟩ w') (hdisk : m'.disk = w'.disk) (hhost : ∀ host', m'.host = some host' → host' = w'.host)
    : Turned cfg ⟨disk, some host⟩ m' := by
  rcases hquiet.adds with ⟨events, hlog, hother⟩
  refine .still ⟨by rw [hdisk, hlog, List.append_nil], hother⟩ (by rw [hdisk]; exact hquiet.pending)
    (by rw [hdisk]; exact restore_congr hquiet.record hquiet.image) fun host' h => ⟨host, rfl, ?_⟩
  rw [hhost host' h]
  exact hquiet.active

/-- The events before a commit cover the intent it writes over. -/
theorem covered_of_prepare {cfg : Config} {disk : Disk} {host : Host} {call : SwapCall} {faults : Faults}
    {manifest : List (String × Value)} {image : List UInt8} {counts : Header} {events : List Event}
    (hprepare : (prepare cfg faults call ⟨disk, host⟩).1 = .returned (.stage manifest image))
    (hcounts : readPptHeader image = .ok counts) (hwrites : faults .writePending = .none)
    (hlog : (prepare cfg faults call ⟨disk, host⟩).2.disk.log = disk.log ++ events)
    (hover : ¬ Overwrites cfg ⟨disk, some host⟩ ⟨.swap call, faults⟩)
    : Covered ⟨disk, some host⟩ events := by
  intro intent hpending huncorrected
  cases hrecorded : host.recoveryRecorded with
  | false =>
    rcases prepare_corrects (Prod.ext hprepare rfl) hpending hrecorded with ⟨event, hlog', hnames⟩
    rw [hlog, List.append_cancel_left_eq] at hlog'
    exact .inl ⟨event, by rw [hlog']; exact List.mem_singleton_self _, hnames⟩
  | true =>
    refine .inr ⟨host, rfl, ?_⟩
    by_contra hforce
    refine hover ⟨host, intent, rfl, hrecorded, hpending, huncorrected, hforce, ?_, hwrites⟩
    simp only [passing, hprepare, hcounts, Option.isSome_some]

theorem evidenced_log (policy : Policy) (w : World)
    : (evidenced policy w).disk.log = w.disk.log ++ [swapEvent policy w] := by
  rw [evidenced, logged, floored_log]

theorem evidenced_pending (policy : Policy) (w : World)
    : (evidenced policy w).disk.pending = .intent policy.intent :=
  floored_pending policy w

theorem swapEvent_names (policy : Policy) (w : World)
    : (swapEvent policy w).names "swap" policy.intent :=
  ⟨rfl, rfl, rfl⟩

theorem turned_swap (cfg : Config) (m : Machine) (call : SwapCall) (faults : Faults)
    (htelling : Telling cfg m ⟨.swap call, faults⟩)
    : Turned cfg m (next cfg m ⟨.swap call, faults⟩) := by
  rcases m with ⟨disk, running⟩
  cases running with
  | none => exact .still (grows_nothing rfl) rfl rfl fun host' hhost => by cases hhost
  | some host =>
    have hdisk : (next cfg ⟨disk, some host⟩ ⟨.swap call, faults⟩).disk = (swap cfg faults call ⟨disk, host⟩).2.disk :=
      settle_disk _
    have hhost (host' : Host) (h : (next cfg ⟨disk, some host⟩ ⟨.swap call, faults⟩).host = some host')
        : host' = (swap cfg faults call ⟨disk, host⟩).2.host :=
      settle_some h
    by_cases hstaged : ∃ manifest image, (prepare cfg faults call ⟨disk, host⟩).1 = .returned (.stage manifest image)
    . rcases hstaged with ⟨manifest, image, hprepare⟩
      rcases swap_staged hprepare with ⟨counts, hcounts, hcommitted⟩
      have hquiet := moves_quiet_prepare cfg faults call ⟨disk, host⟩
      rcases hquiet.adds with ⟨events, hlog, hother⟩
      have hcovered (hwrites : faults .writePending = .none) : Covered ⟨disk, some host⟩ events :=
        covered_of_prepare hprepare hcounts hwrites hlog htelling.swap
      have hevent := swapEvent_names (newPolicy cfg call manifest image counts)
        (prepare cfg faults call ⟨disk, host⟩).2
      have hfloored := floored_active (newPolicy cfg call manifest image counts)
        (prepare cfg faults call ⟨disk, host⟩).2
      generalize (prepare cfg faults call ⟨disk, host⟩).2 = w₁ at hcommitted hquiet hlog hevent hfloored
      generalize (swap cfg faults call ⟨disk, host⟩).1 = x, (swap cfg faults call ⟨disk, host⟩).2 = w'
        at hcommitted hdisk hhost
      have hgrows {accepted : List Event} (h : w'.disk.log = w₁.disk.log ++ accepted)
          : Grows ⟨disk, some host⟩ (next cfg ⟨disk, some host⟩ ⟨.swap call, faults⟩) events accepted :=
        ⟨by rw [hdisk, h, hlog], hother⟩
      have hsame (h : w'.host.active = w₁.host.active)
          : SameHost ⟨disk, some host⟩ (next cfg ⟨disk, some host⟩ ⟨.swap call, faults⟩) :=
        fun host' h' => ⟨host, rfl, by rw [hhost host' h', h, hquiet.active]⟩
      cases hcommitted with
      | atIntent => exact turned_of_quiet hquiet hdisk hhost
      | atFloor hwrites =>
        exact .begun (hgrows (by rw [List.append_nil]; rfl)) (by rw [hdisk]; rfl) (hcovered hwrites) (hsame rfl)
      | atEvent hwrites =>
        exact .begun (hgrows (by rw [floored_log, List.append_nil])) (by rw [hdisk]; exact floored_pending _ _)
          (hcovered hwrites) (hsame hfloored.active)
      | atEvidence hwrites =>
        exact .evidenced (hgrows (evidenced_log _ _)) hevent (by rw [hdisk, evidenced_pending])
          (hcovered hwrites) (hsame hfloored.active)
      | atRecord hwrites =>
        exact .evidenced (hgrows (evidenced_log _ _)) hevent
          (by rw [hdisk]; exact evidenced_pending _ _) (hcovered hwrites) (hsame hfloored.active)
      | atRemove hwrites =>
        exact .effective (hgrows (evidenced_log _ _)) hevent
          (.inl (by rw [hdisk]; exact evidenced_pending _ _)) (hcovered hwrites)
          (by rw [hdisk]; exact restore_self rfl rfl rfl) fun host' h => by rw [hhost host' h]; rfl
      | done hwrites =>
        exact .effective (hgrows (evidenced_log _ _)) hevent (.inr (by rw [hdisk]; rfl)) (hcovered hwrites)
          (by rw [hdisk]; exact restore_self rfl rfl rfl) fun host' h => by rw [hhost host' h]; rfl
    . cases swapped cfg faults call ⟨disk, host⟩ with
      | quiet hquiet => exact turned_of_quiet hquiet hdisk hhost
      | committed hprepare => exact absurd ⟨_, _, hprepare⟩ hstaged

theorem turned (cfg : Config) (m : Machine) (step : Step) (hdigests : Digests cfg m) (htelling : Telling cfg m step)
    : Turned cfg m (next cfg m step) := by
  rcases step with ⟨call, faults⟩
  cases call with
  | start call => exact turned_start cfg m call faults htelling
  | swap call => exact turned_swap cfg m call faults htelling
  | rollback => exact turned_rollback cfg m faults hdigests htelling

/-- Where something was accepted in the end of a log, the last accepted event is there. -/
theorem lastAccepted_mem {log events : List Event} {event : Event} (h : lastAccepted (log ++ events) = some event)
    (hsome : ∃ later ∈ events, later.accepts = true)
    : event ∈ events := by
  have hne : events.filter Event.accepts ≠ [] := by
    rcases hsome with ⟨later, hmem, haccepts⟩
    exact List.ne_nil_of_mem (List.mem_filter.mpr ⟨hmem, haccepts⟩)
  rw [lastAccepted, List.filter_append, List.getLast?_append_of_ne_nil _ hne] at h
  exact (List.mem_filter.mp (List.mem_of_getLast? h)).1

/-- Its intent is pending, no swap has been accepted since, and its policy is not active unless one was rolled back to. -/
structure Open (m : Machine) (n : Nat) (intent : Intent) : Prop where
  pending : m.disk.pending = .intent intent
  since : ∃ before event after, m.disk.log = before ++ event :: after ∧ before.length + 1 = n
    ∧ event.names "swap" intent ∧ (∀ later ∈ after, later.action ≠ "swap")
    ∧ ∀ host, m.host = some host → (∀ later ∈ after, later.action ≠ "rollback") → ¬ Holds host.active intent

theorem Corrected.grow {log : List Event} {n : Nat} {intent : Intent} (h : Corrected log n intent) (events : List Event)
    : Corrected (log ++ events) n intent := by
  rcases h with ⟨event, hmem, hnames⟩
  refine ⟨event, ?_, hnames⟩
  rw [List.drop_append]
  exact List.mem_append_left _ hmem

/-- An event that is added to the log corrects what stands open in it. -/
theorem Open.corrected {m m' : Machine} {n : Nat} {intent : Intent} (h : Open m n intent) {events accepted : List Event}
    (hgrows : Grows m m' events accepted) (hcorrects : ∃ event ∈ events, event.names "swap_incomplete" intent)
    : Corrected m'.disk.log n intent := by
  rcases h.since with ⟨before, event, after, hlog, hn, _⟩
  rcases hcorrects with ⟨later, hmem, hnames⟩
  refine ⟨later, ?_, hnames⟩
  have hle : n ≤ m.disk.log.length := by
    rw [hlog, List.length_append, List.length_cons]
    omega
  rw [hgrows.log, List.append_assoc, List.drop_append_of_le_length hle]
  exact List.mem_append_right _ (List.mem_append_left _ hmem)

/-- While nothing corrects it, an open event stays open, or a swap comes over it. -/
theorem Open.uncorrected {m : Machine} {n : Nat} {intent : Intent} (h : Open m n intent)
    (hnot : ¬ Corrected m.disk.log n intent)
    : Uncorrected m.disk.log intent := by
  rcases h.since with ⟨before, event, after, hlog, hn, hnames, _⟩
  refine ⟨before, event, after, hlog, hnames, fun later hlater hincomplete => hnot ⟨later, ?_, hincomplete⟩⟩
  rw [hlog, ← hn, List.drop_append, List.drop_of_length_le (by omega), Nat.add_sub_cancel_left]
  exact hlater

theorem Open.not_inForce {m : Machine} {n : Nat} {intent : Intent} (h : Open m n intent) {host : Host}
    (hhost : m.host = some host)
    : ¬ InForce host m.disk.log intent := by
  rintro ⟨hactive, event', hlast, hnames'⟩
  rcases h.since with ⟨before, event, after, hlog, _, hnames, hswap, hopen⟩
  by_cases hrollback : ∃ later ∈ after, later.action = "rollback"
  . rcases hrollback with ⟨later, hmem, haction⟩
    rw [hlog, List.append_cons] at hlast
    have hmem' := lastAccepted_mem hlast ⟨later, hmem, by rw [Event.accepts, haction]; decide⟩
    exact hswap event' hmem' hnames'.1
  . exact hopen host hhost (fun later hmem haction => hrollback ⟨later, hmem, haction⟩) hactive

/-- A commit over an open event has corrected it. -/
theorem Open.covered {m m' : Machine} {n : Nat} {intent : Intent} (h : Open m n intent)
    {events accepted : List Event} (hgrows : Grows m m' events accepted) (hcovered : Covered m events)
    : Corrected m'.disk.log n intent := by
  by_cases hcorrected : Corrected m.disk.log n intent
  . rw [hgrows.log, List.append_assoc]
    exact hcorrected.grow _
  . rcases hcovered intent h.pending (h.uncorrected hcorrected) with hevents | ⟨host, hhost, hforce⟩
    . exact h.corrected hgrows hevents
    . exact absurd hforce (h.not_inForce hhost)

end PolicyHost
