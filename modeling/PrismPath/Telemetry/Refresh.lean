import Mathlib.Data.Int.Notation
import Mathlib.Data.List.Induction
import Mathlib.Data.Nat.Notation

/-!
This module contains the refresh profile: the schedule of the source's frames, the staleness of the sink, and that
under any loss the sink acts on nothing older than it may.
-/

namespace Refresh

/-- Sender half: emit on change, and at least every `keyframeMs` regardless. -/
structure KeyframeScheduler where
  keyframeMs : Option ℤ
  lastEmitMs : Option ℤ

namespace KeyframeScheduler

def new : Option ℤ → Except String KeyframeScheduler
  | some keyframeMs =>
    if keyframeMs ≤ 0 then
      .error s!"keyframe_ms must be a positive integer or None; got {keyframeMs}"
    else
      .ok ⟨some keyframeMs, none⟩
  | none => .ok ⟨none, none⟩

def shouldEmit (sched : KeyframeScheduler) (nowMs : ℤ) (changed : Bool) : Bool :=
  if changed then
    true
  else
    match sched.lastEmitMs, sched.keyframeMs with
    | none, _ => true
    | some _, none => false
    | some lastEmitMs, some keyframeMs => keyframeMs ≤ nowMs - lastEmitMs

def noteEmit (sched : KeyframeScheduler) (nowMs : ℤ) : KeyframeScheduler :=
  { sched with lastEmitMs := some nowMs }

end KeyframeScheduler

variable {α : Type}

/-- Consumer half: hold the last received state while it is fresh, and act on the safe state past `staleMs`. -/
structure StalenessTracker (α : Type) where
  staleMs : ℤ
  safeState : α
  state : Option α
  lastFrameMs : Option ℤ
  stale : Bool
  transitions : List (ℤ × String)

namespace StalenessTracker

def new (staleMs : ℤ) (safeState : α) : Except String (StalenessTracker α) :=
  if staleMs ≤ 0 then
    .error s!"stale_ms must be a positive integer; got {staleMs}"
  else
    -- no frame yet: born stale
    .ok ⟨staleMs, safeState, none, none, true, []⟩

def onFrame (tracker : StalenessTracker α) (nowMs : ℤ) (state : α) : StalenessTracker α :=
  let tracker := { tracker with state := some state, lastFrameMs := some nowMs }
  if tracker.stale then
    { tracker with stale := false, transitions := tracker.transitions ++ [(nowMs, "recovered")] }
  else
    tracker

/-- Whether the last frame is as old as `staleMs`, or there was none. -/
def outdated (tracker : StalenessTracker α) (nowMs : ℤ) : Bool :=
  match tracker.lastFrameMs with
  | none => true
  | some lastFrameMs => tracker.staleMs ≤ nowMs - lastFrameMs

/-- The state to act on right now and whether it is fresh, and the tracker after it. -/
def actingState (tracker : StalenessTracker α) (nowMs : ℤ) : (Option α × Bool) × StalenessTracker α :=
  if tracker.outdated nowMs then
    let noted :=
      if tracker.stale then
        tracker
      else
        { tracker with stale := true, transitions := tracker.transitions ++ [(nowMs, "stale")] }
    ((some tracker.safeState, false), noted)
  else
    ((tracker.state, true), tracker)

end StalenessTracker

/- Asking for the state only notes that it went stale; a frame changes the state and the time. -/

namespace StalenessTracker

theorem actingState_kept (tracker : StalenessTracker α) (nowMs : ℤ)
    : ∃ stale transitions,
        (tracker.actingState nowMs).2 = { tracker with stale := stale, transitions := transitions } := by
  unfold actingState
  split
  . dsimp only
    split
    . exact ⟨tracker.stale, tracker.transitions, rfl⟩
    . exact ⟨true, _, rfl⟩
  . exact ⟨tracker.stale, tracker.transitions, rfl⟩

theorem onFrame_held (tracker : StalenessTracker α) (nowMs : ℤ) (state : α)
    : ∃ transitions,
        tracker.onFrame nowMs state
          =
        { tracker with
          state := some state, lastFrameMs := some nowMs, stale := false, transitions := transitions } := by
  unfold onFrame
  dsimp only
  split
  . exact ⟨_, rfl⟩
  . next hstale =>
    rw [Bool.not_eq_true] at hstale
    refine ⟨tracker.transitions, ?_⟩
    rw [← hstale]

end StalenessTracker

/- A source and a sink, each with its own clock, and a link between them that may lose any frame. -/

structure World (α : Type) where
  sched : KeyframeScheduler
  source : α
  sourceMs : ℤ
  tracker : StalenessTracker α
  sinkMs : ℤ

inductive Event (α : Type) where
  /-- The state of the source changes. -/
  | change (state : α)
  /-- Time passes, on both clocks. -/
  | wait (sourceMs sinkMs : ℕ)
  /-- The source asks its schedule, and emits its state where it is told to. -/
  | poll (changed lost : Bool)
  /-- The sink asks for the state to act on. -/
  | act

namespace World

/-- The state that the source emits at an event. -/
def emission (world : World α) : Event α → Option α
  | .poll changed _ => if world.sched.shouldEmit world.sourceMs changed then some world.source else none
  | _ => none

/-- The state that arrives at the sink at an event. -/
def delivery (world : World α) : Event α → Option α
  | .poll changed false => world.emission (.poll changed false)
  | _ => none

def next (world : World α) : Event α → World α
  | .change state => { world with source := state }
  | .wait sourceMs sinkMs =>
    { world with sourceMs := world.sourceMs + sourceMs, sinkMs := world.sinkMs + sinkMs }
  | .poll changed lost =>
    match world.emission (.poll changed lost) with
    | none => world
    | some state =>
      let world := { world with sched := world.sched.noteEmit world.sourceMs }
      if lost then
        world
      else
        { world with tracker := world.tracker.onFrame world.sinkMs state }
  | .act => { world with tracker := (world.tracker.actingState world.sinkMs).2 }

def run (world : World α) (events : List (Event α)) : World α :=
  events.foldl next world

def acting (world : World α) : Option α × Bool :=
  (world.tracker.actingState world.sinkMs).1

end World

/- What the sink holds, along a run. -/

namespace World

/-- The sink holds what arrived last, with the reading of its clock at that moment; or nothing has arrived. -/
inductive Holds (start : World α) (events : List (Event α)) : Prop where
  | silent (hframe : (start.run events).tracker.lastFrameMs = none)
      (hnone : ∀ pre event post, events = pre ++ event :: post → (start.run pre).delivery event = none)
  | heard (pre : List (Event α)) (event : Event α) (post : List (Event α)) (state : α)
      (hevents : events = pre ++ event :: post)
      (hdelivery : (start.run pre).delivery event = some state)
      (hstate : (start.run events).tracker.state = some state)
      (hframe : (start.run events).tracker.lastFrameMs = some (start.run pre).sinkMs)
      (hclock : (start.run pre).sinkMs ≤ (start.run events).sinkMs)

@[simp]
theorem run_append (world : World α) (pre post : List (Event α)) : world.run (pre ++ post) = (world.run pre).run post := by
  apply List.foldl_append

@[simp]
theorem run_singleton (world : World α) (event : Event α) : world.run [event] = world.next event := by
  rfl

theorem next_of_delivery {world : World α} {event : Event α} {state : α} (h : world.delivery event = some state)
    : (world.next event).tracker = world.tracker.onFrame world.sinkMs state ∧
        (world.next event).sinkMs = world.sinkMs := by
  unfold delivery at h
  split at h
  . simp [next, h]
  . cases h

theorem emission_of_delivery {world : World α} {event : Event α} {state : α} (h : world.delivery event = some state)
    : world.emission event = some state := by
  unfold delivery at h
  split at h
  . apply h
  . cases h

/-- Where nothing arrives, the sink keeps the frame that it has, and its clock does not go back. -/
theorem next_of_no_delivery {world : World α} {event : Event α} (h : world.delivery event = none)
    : (world.next event).tracker.lastFrameMs = world.tracker.lastFrameMs ∧
        (world.next event).tracker.state = world.tracker.state ∧ world.sinkMs ≤ (world.next event).sinkMs := by
  cases event with
  | change state => simp [next]
  | wait sourceMs sinkMs =>
    simp only [next, true_and]
    omega
  | act =>
    rcases world.tracker.actingState_kept world.sinkMs with ⟨stale, transitions, heq⟩
    simp [next, heq]
  | poll changed lost =>
    cases lost with
    | true =>
      simp only [next]
      split <;> simp
    | false =>
      have hnone : world.emission (.poll changed false) = none := h
      simp [next, hnone]

theorem settings_next (world : World α) (event : Event α)
    : (world.next event).tracker.staleMs = world.tracker.staleMs ∧
        (world.next event).tracker.safeState = world.tracker.safeState := by
  cases event with
  | change state => simp [next]
  | wait sourceMs sinkMs => simp [next]
  | act =>
    rcases world.tracker.actingState_kept world.sinkMs with ⟨stale, transitions, heq⟩
    simp [next, heq]
  | poll changed lost =>
    simp only [next]
    split
    . simp
    . next state _ =>
      rcases world.tracker.onFrame_held world.sinkMs state with ⟨transitions, heq⟩
      split <;> simp [heq]

theorem settings_run (world : World α) (events : List (Event α))
    : (world.run events).tracker.staleMs = world.tracker.staleMs ∧
        (world.run events).tracker.safeState = world.tracker.safeState := by
  induction events generalizing world with
  | nil => simp [run]
  | cons event events ih =>
    have hnext := settings_next world event
    have hrest := ih (world.next event)
    rw [hnext.1, hnext.2] at hrest
    apply hrest

theorem Holds.step {start : World α} {events : List (Event α)} (h : Holds start events) (event : Event α)
    : Holds start (events ++ [event]) := by
  cases hdelivery : (start.run events).delivery event with
  | some state =>
    have hnext := next_of_delivery hdelivery
    have ⟨transitions, hheld⟩ := (start.run events).tracker.onFrame_held (start.run events).sinkMs state
    apply Holds.heard events event [] state rfl hdelivery
    . rw [run_append, run_singleton, hnext.1, hheld]
    . rw [run_append, run_singleton, hnext.1, hheld]
    . apply Int.le_of_eq
      rw [run_append, run_singleton, hnext.2]
  | none =>
    have ⟨hframe, hstate, hclock⟩ := next_of_no_delivery hdelivery
    cases h with
    | silent hold hnone =>
      apply Holds.silent
      . rw [run_append, run_singleton, hframe, hold]
      . intro pre later post heq
        -- the event is one of those before, or the new one
        rcases List.append_eq_append_iff.mp heq with ⟨rest, hpre, hlast⟩ | ⟨rest, hpre, hlast⟩
        . cases rest with
          | nil =>
            simp only [List.append_nil, List.nil_append, List.cons.injEq] at hpre hlast
            rw [hpre, ← hlast.1]
            apply hdelivery
          | cons first rest => simp at hlast
        . cases rest with
          | nil =>
            simp only [List.append_nil, List.nil_append, List.cons.injEq] at hpre hlast
            rw [← hpre, hlast.1]
            apply hdelivery
          | cons first rest =>
            simp only [List.cons_append, List.cons.injEq] at hlast
            rw [hlast.1]
            apply hnone pre first rest hpre
    | heard pre earlier post state hevents hgot hheld hold hbefore =>
      apply Holds.heard pre earlier (post ++ [event]) state
      . rw [hevents]
        simp
      . apply hgot
      . rw [run_append, run_singleton, hstate, hheld]
      . rw [run_append, run_singleton, hframe, hold]
      . rw [run_append, run_singleton]
        omega

theorem source_of_emission {world : World α} {event : Event α} {state : α} (h : world.emission event = some state)
    : world.source = state := by
  unfold emission at h
  split at h
  . split at h
    . apply Option.some.inj h
    . cases h
  . cases h

theorem Holds.run {start : World α} (hstart : start.tracker.lastFrameMs = none) (events : List (Event α))
    : Holds start events := by
  induction events using List.reverseRecOn with
  | nil =>
    apply Holds.silent
    . apply hstart
    intro pre event post heq
    simp at heq
  | append_singleton events event ih => apply ih.step

end World

def World.start (sched : KeyframeScheduler) (tracker : StalenessTracker α) (source : α) (sourceMs sinkMs : ℤ)
    : World α :=
  ⟨sched, source, sourceMs, tracker, sinkMs⟩

/-- What the sink acts on is the safe state, or what the source emitted less than `staleMs` ago by the sink's clock. -/
theorem acting_fresh {staleMs : ℤ} {safeState : α} {tracker : StalenessTracker α}
    (htracker : StalenessTracker.new staleMs safeState = .ok tracker) (sched : KeyframeScheduler) (source : α)
    (sourceMs sinkMs : ℤ) (events : List (Event α))
    : let start := World.start sched tracker source sourceMs sinkMs
      let now := (start.run events).sinkMs
      ((start.run events).acting.1 ≠ some safeState →
        ∃ pre event post state,
          events = pre ++ event :: post ∧ (start.run events).acting.1 = some state ∧
            (start.run pre).emission event = some state ∧ (start.run pre).source = state ∧
            (start.run pre).sinkMs ≤ now ∧ now - (start.run pre).sinkMs < staleMs) ∧
      ((∀ pre event post, events = pre ++ event :: post → (start.run pre).delivery event = none) →
        (start.run events).acting = (some safeState, false)) := by
  intro start now
  have hnew : tracker = ⟨staleMs, safeState, none, none, true, []⟩ := by
    unfold StalenessTracker.new at htracker
    split at htracker
    . cases htracker
    . cases htracker
      rfl
  have hsettings := World.settings_run start events
  have hstale : (start.run events).tracker.staleMs = staleMs := by
    rw [hsettings.1]
    simp [start, World.start, hnew]
  have hsafe : (start.run events).tracker.safeState = safeState := by
    rw [hsettings.2]
    simp [start, World.start, hnew]
  have hholds : World.Holds start events := by
    apply World.Holds.run
    simp [start, World.start, hnew]
  unfold World.acting StalenessTracker.actingState
  constructor
  . intro hacting
    split at hacting
    . rw [hsafe] at hacting
      exact absurd rfl hacting
    . next hfresh =>
      cases hholds with
      | silent hframe hnone => simp [StalenessTracker.outdated, hframe] at hfresh
      | heard pre event post state hevents hdelivery hstate hframe hclock =>
        have hemission := World.emission_of_delivery hdelivery
        refine ⟨pre, event, post, state, hevents, ?_, hemission, World.source_of_emission hemission, hclock, ?_⟩
        . rw [if_neg hfresh]
          apply hstate
        . simp only [StalenessTracker.outdated, hframe, hstale, decide_eq_true_eq] at hfresh
          omega
  . intro hsilent
    cases hholds with
    | silent hframe hnone =>
      rw [if_pos (by simp [StalenessTracker.outdated, hframe]), hsafe]
    | heard pre event post state hevents hdelivery hstate hframe hclock =>
      rw [hsilent pre event post hevents] at hdelivery
      cases hdelivery

theorem acting_fresh_band
    : ∃ (sched : KeyframeScheduler) (tracker : StalenessTracker String),
        KeyframeScheduler.new (some 500) = .ok sched ∧ StalenessTracker.new 1500 "SAFE" = .ok tracker ∧
          let start := World.start sched tracker "LOW" 0 0
          let events := [.poll true false, .wait 100 100, .change "HIGH", .poll true true, .wait 900 900]
          let now := (start.run events).sinkMs
          (start.run events).acting = (some "LOW", true) ∧
            ∃ pre event post state,
              events = pre ++ event :: post ∧ (start.run events).acting.1 = some state ∧
                (start.run pre).emission event = some state ∧ (start.run pre).source = state ∧
                (start.run pre).sinkMs ≤ now ∧ now - (start.run pre).sinkMs < 1500 :=
  ⟨⟨some 500, none⟩, ⟨1500, "SAFE", none, none, true, []⟩, rfl, rfl, by decide,
    (acting_fresh rfl ⟨some 500, none⟩ "LOW" 0 0 _).1 (by decide)⟩

end Refresh
