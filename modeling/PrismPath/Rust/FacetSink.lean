import Mathlib.Data.List.Count
import Mathlib.Data.List.Range
import Mathlib.Logic.Relation

/-!
This module contains the backpressure of the Facet sink: the thread that seals batches and the thread that consumes
them share a bounded channel, whose receiving end sits behind a mutex that either of them takes.
-/

namespace Rust

/- The epochs. `B` is the data of an epoch. -/

structure Epoch (B : Type) where
  id : ℕ
  blocks : Option B
  acked : Bool
  droppedUnderPressure : Bool

namespace Epoch

variable {B : Type}

def hasData (e : Epoch B) : Bool :=
  e.blocks.isSome

/-- What becomes of the victim of the cap. -/
def dropData (e : Epoch B) : Epoch B :=
  { e with blocks := none, droppedUnderPressure := e.droppedUnderPressure || !e.acked }

def markDropped (e : Epoch B) : Epoch B :=
  { e with droppedUnderPressure := true }

end Epoch

structure EpochStore (B : Type) where
  maxDataEpochs : ℕ
  epochs : List (Epoch B)

namespace EpochStore

variable {B : Type}

def new (maxDataEpochs : ℕ) : EpochStore B :=
  ⟨maxDataEpochs, []⟩

def dataCount (epochs : List (Epoch B)) : ℕ :=
  epochs.countP Epoch.hasData

/-- Takes the data of the first epoch that has any. -/
def dropFirst : List (Epoch B) → List (Epoch B)
  | [] => []
  | e :: epochs => if e.hasData then e.dropData :: epochs else e :: dropFirst epochs

theorem dataCount_dropFirst (epochs : List (Epoch B)) : dataCount (dropFirst epochs) = dataCount epochs - 1 := by
  induction epochs with
  | nil => rfl
  | cons e epochs ih =>
    unfold dataCount at ih ⊢
    rw [dropFirst]
    split
    next hdata =>
      rw [List.countP_cons_of_neg (by simp [Epoch.dropData, Epoch.hasData]), List.countP_cons_of_pos hdata]
      omega
    next hdata => rw [List.countP_cons_of_neg hdata, List.countP_cons_of_neg hdata, ih]

def enforceCap (maxDataEpochs : ℕ) (epochs : List (Epoch B)) : List (Epoch B) :=
  if maxDataEpochs < dataCount epochs then enforceCap maxDataEpochs (dropFirst epochs) else epochs
termination_by dataCount epochs
decreasing_by
  rw [dataCount_dropFirst]
  omega

/-- `seal`. Returns the store and the epoch that was sealed. -/
def sealBatch (s : EpochStore B) (blocks : B) : EpochStore B × Epoch B :=
  let e : Epoch B := ⟨s.epochs.length, some blocks, false, false⟩
  let epochs := enforceCap s.maxDataEpochs (s.epochs ++ [e])
  -- there is a last one: the cap takes data away and never an epoch
  ({ s with epochs }, epochs.getLastD e)

/-- `if let Some(epoch) = epoch_store.epochs.get_mut(id) { epoch.dropped_under_pressure = true; }` -/
def mark (s : EpochStore B) (id : ℕ) : EpochStore B :=
  { s with epochs := s.epochs.modify id Epoch.markDropped }

/-- The epoch is in the store and marked as a gap. -/
def Marked (s : EpochStore B) (id : ℕ) : Prop :=
  ∃ e, s.epochs[id]? = some e ∧ e.droppedUnderPressure = true

/-- The epochs keep their ids and their marks. -/
structure Keeps (epochs epochs' : List (Epoch B)) : Prop where
  ids : epochs'.map Epoch.id = epochs.map Epoch.id
  marks : ∀ (i : ℕ) (e : Epoch B), epochs[i]? = some e → e.droppedUnderPressure = true →
    ∃ e', epochs'[i]? = some e' ∧ e'.droppedUnderPressure = true

theorem Keeps.refl (epochs : List (Epoch B)) : Keeps epochs epochs :=
  ⟨rfl, fun _ e he hmark => ⟨e, he, hmark⟩⟩

theorem Keeps.trans {epochs epochs' epochs'' : List (Epoch B)} (h : Keeps epochs epochs') (h' : Keeps epochs' epochs'')
    : Keeps epochs epochs'' := by
  refine ⟨h'.ids.trans h.ids, fun i e he hmark => ?_⟩
  rcases h.marks i e he hmark with ⟨e', he', hmark'⟩
  exact h'.marks i e' he' hmark'

theorem Keeps.length_eq {epochs epochs' : List (Epoch B)} (h : Keeps epochs epochs')
    : epochs'.length = epochs.length := by
  have := congrArg List.length h.ids
  rwa [List.length_map, List.length_map] at this

theorem keeps_dropFirst (epochs : List (Epoch B)) : Keeps epochs (dropFirst epochs) := by
  induction epochs with
  | nil => exact .refl []
  | cons e epochs ih =>
    rw [dropFirst]
    split
    . refine ⟨rfl, fun i e' he' hmark => ?_⟩
      cases i with
      | zero =>
        cases he'
        exact ⟨e.dropData, rfl, by simp only [Epoch.dropData, hmark, Bool.true_or]⟩
      | succ i => exact ⟨e', he', hmark⟩
    . refine ⟨by rw [List.map_cons, List.map_cons, ih.ids], fun i e' he' hmark => ?_⟩
      cases i with
      | zero => exact ⟨e', he', hmark⟩
      | succ i => exact ih.marks i e' he' hmark

theorem keeps_enforceCap (maxDataEpochs : ℕ) (epochs : List (Epoch B))
    : Keeps epochs (enforceCap maxDataEpochs epochs) := by
  fun_induction enforceCap maxDataEpochs epochs with
  | case1 epochs _ ih => exact (keeps_dropFirst epochs).trans ih
  | case2 epochs => exact .refl epochs

/-- A mark, too, only adds to what is there. -/
theorem keeps_mark (s : EpochStore B) (id : ℕ) : Keeps s.epochs (s.mark id).epochs := by
  constructor
  . apply List.ext_getElem?
    intro i
    simp only [mark, List.getElem?_map, List.getElem?_modify]
    cases s.epochs[i]? with
    | none => rfl
    | some e =>
      simp only [Option.map_some]
      split <;> rfl
  . intro i e he hmark
    simp only [mark, List.getElem?_modify, he]
    refine ⟨_, rfl, ?_⟩
    split
    . rfl
    . exact hmark

theorem marked_mark {s : EpochStore B} {id : ℕ} (h : id < s.epochs.length) : (s.mark id).Marked id := by
  refine ⟨s.epochs[id].markDropped, ?_, rfl⟩
  simp [mark, List.getElem?_eq_getElem h]

theorem Marked.keeps {s s' : EpochStore B} {id : ℕ} (h : s.Marked id) (hkeeps : Keeps s.epochs s'.epochs)
    : s'.Marked id := by
  rcases h with ⟨e, he, hmark⟩
  exact hkeeps.marks id e he hmark

theorem keeps_sealBatch (s : EpochStore B) (blocks : B)
    : Keeps (s.epochs ++ [⟨s.epochs.length, some blocks, false, false⟩]) (s.sealBatch blocks).1.epochs := by
  apply keeps_enforceCap

theorem length_sealBatch (s : EpochStore B) (blocks : B)
    : (s.sealBatch blocks).1.epochs.length = s.epochs.length + 1 := by
  rw [(keeps_sealBatch s blocks).length_eq, List.length_append, List.length_singleton]

/-- The id of the epoch that is returned is its place in the store. -/
theorem id_sealBatch (s : EpochStore B) (blocks : B) : (s.sealBatch blocks).2.id = s.epochs.length := by
  have hids := (keeps_enforceCap s.maxDataEpochs (s.epochs ++ [⟨s.epochs.length, some blocks, false, false⟩])).ids
  unfold sealBatch
  dsimp only
  generalize enforceCap _ _ = epochs at hids ⊢
  have hlast := congrArg List.getLast? hids
  rw [List.getLast?_map, List.map_append, List.map_singleton, List.getLast?_append, List.getLast?_singleton,
    Option.some_or, Option.map_eq_some_iff] at hlast
  rcases hlast with ⟨e, he, hid⟩
  rw [List.getLastD_eq_getLast?, he]
  exact hid

theorem Marked.sealBatch {s : EpochStore B} {id : ℕ} (h : s.Marked id) (blocks : B)
    : (s.sealBatch blocks).1.Marked id := by
  rcases h with ⟨e, he, hmark⟩
  apply (keeps_sealBatch s blocks).marks id e ?_ hmark
  rw [List.getElem?_append_left (List.getElem?_eq_some_iff.mp he).1, he]

end EpochStore

namespace FacetSink

/- The two threads. -/

inductive Thread where
  | producer
  | consumer
  deriving DecidableEq

/-- Where the thread of the input is; the number is that of the epoch whose batch `enqueue_batch` was called with. -/
inductive Producer where
  /-- Not in `enqueue_batch`. -/
  | reading
  | trySend (id : ℕ)
  /-- The channel was full; at `receiver_arc.lock()`. -/
  | lock (id : ℕ)
  | tryRecv (id : ℕ)
  | unlock (id : ℕ)
  | trySendAgain (id : ℕ)
  /-- The input is over and the sending end of the channel dropped. -/
  | finished

inductive Consumer where
  | lock
  /-- Holds the lock, at `guard.recv()`. -/
  | recv
  | unlock
  /-- The lock is free again, a batch is being worked on. -/
  | working
  /-- Holds the lock and was told that there will be no further batch. -/
  | unlockLast
  | finished

structure State (B : Type) where
  store : EpochStore B
  channel : List ℕ
  owner : Option Thread
  producer : Producer
  consumer : Consumer
  batchesDroppedBackpressure : ℕ
  /-- What the consumer has received so far. -/
  consumed : List ℕ
  /-- What the producer has taken out of the channel so far. -/
  discarded : List ℕ

def State.start (B : Type) : State B where
  store := .new 10000
  channel := []
  owner := none
  producer := .reading
  consumer := .lock
  batchesDroppedBackpressure := 0
  consumed := []
  discarded := []

variable {B : Type}

/-- The steps of both threads over a channel of the given capacity. -/
inductive Step (capacity : ℕ) (s : State B) : State B → Prop where
  | sealBatch (blocks : B) (h : s.producer = .reading)
      : Step capacity s
          { s with store := (s.store.sealBatch blocks).1, producer := .trySend (s.store.sealBatch blocks).2.id }
  | trySend {id : ℕ} (h : s.producer = .trySend id) (hroom : s.channel.length < capacity)
      : Step capacity s { s with channel := s.channel ++ [id], producer := .reading }
  -- the receiving end is never dropped before the sending end, so that a failed send is one that found no room
  | trySendFull {id : ℕ} (h : s.producer = .trySend id) (hfull : ¬ s.channel.length < capacity)
      : Step capacity s { s with producer := .lock id }
  | lock {id : ℕ} (h : s.producer = .lock id) (hfree : s.owner = none)
      : Step capacity s { s with owner := some .producer, producer := .tryRecv id }
  | tryRecv {id oldest : ℕ} {rest : List ℕ} (h : s.producer = .tryRecv id) (hchannel : s.channel = oldest :: rest)
      : Step capacity s
          { s with
            store := s.store.mark oldest
            channel := rest
            producer := .unlock id
            batchesDroppedBackpressure := s.batchesDroppedBackpressure + 1
            discarded := s.discarded ++ [oldest] }
  | tryRecvEmpty {id : ℕ} (h : s.producer = .tryRecv id) (hchannel : s.channel = [])
      : Step capacity s { s with producer := .unlock id }
  | unlock {id : ℕ} (h : s.producer = .unlock id)
      : Step capacity s { s with owner := none, producer := .trySendAgain id }
  | trySendAgain {id : ℕ} (h : s.producer = .trySendAgain id) (hroom : s.channel.length < capacity)
      : Step capacity s { s with channel := s.channel ++ [id], producer := .reading }
  -- `let _ =`: the batch is gone
  | trySendAgainFull {id : ℕ} (h : s.producer = .trySendAgain id) (hfull : ¬ s.channel.length < capacity)
      : Step capacity s { s with producer := .reading }
  | finish (h : s.producer = .reading)
      : Step capacity s { s with producer := .finished }
  | consumerLock (h : s.consumer = .lock) (hfree : s.owner = none)
      : Step capacity s { s with owner := some .consumer, consumer := .recv }
  -- on an empty channel `recv` waits as long as there is a sending end
  | recv {id : ℕ} {rest : List ℕ} (h : s.consumer = .recv) (hchannel : s.channel = id :: rest)
      : Step capacity s { s with channel := rest, consumer := .unlock, consumed := s.consumed ++ [id] }
  | recvDisconnected (h : s.consumer = .recv) (hchannel : s.channel = []) (hsender : s.producer = .finished)
      : Step capacity s { s with consumer := .unlockLast }
  | consumerUnlock (h : s.consumer = .unlock)
      : Step capacity s { s with owner := none, consumer := .working }
  | consumerUnlockLast (h : s.consumer = .unlockLast)
      : Step capacity s { s with owner := none, consumer := .finished }
  | worked (h : s.consumer = .working)
      : Step capacity s { s with consumer := .lock }

/-- The epoch whose batch the producer is about to send. -/
def Producer.inHand : Producer → List ℕ
  | .trySend id | .lock id | .tryRecv id | .unlock id | .trySendAgain id => [id]
  | .reading | .finished => []

/-- The producer waits for the lock, which the consumer holds while it waits for a batch. -/
def Stuck (s : State B) : Prop :=
  (∃ id, s.producer = .lock id) ∧ s.owner = some .consumer ∧ s.consumer = .recv ∧ s.channel = []

/-- The consumer does not go for an empty channel while the producer is at the lock. -/
def Careful (s s' : State B) : Prop :=
  s.consumer = .lock → s'.consumer = .recv → ¬ ((∃ id, s.producer = .lock id) ∧ s.channel = [])

/--
Every epoch that was sealed is in exactly one place: consumed, in the channel, discarded and then marked as a gap, or
in the hand of the producer while it is in `enqueue_batch`.
-/
structure Conserved (s : State B) : Prop where
  once : (List.range s.store.epochs.length).Perm (s.consumed ++ s.channel ++ s.discarded ++ s.producer.inHand)
  marked : ∀ id ∈ s.discarded, s.store.Marked id
  counted : s.batchesDroppedBackpressure = s.discarded.length

/-- The channel is never over its capacity, and has room for the batch once the producer has taken the oldest. -/
structure Inv (capacity : ℕ) (s : State B) : Prop where
  conserved : Conserved s
  within : s.channel.length ≤ capacity
  room : ∀ id, s.producer = .unlock id ∨ s.producer = .trySendAgain id → s.channel.length < capacity

theorem inv_start (capacity : ℕ) : Inv capacity (State.start B) where
  conserved := ⟨.nil, (fun _ h => by cases h), rfl⟩
  within := Nat.zero_le capacity
  room := fun _ h => by rcases h with h | h <;> cases h

/-- A step that moves no epoch keeps every epoch where it is. -/
theorem Conserved.of_same {s s' : State B} (h : Conserved s) (hstore : s'.store = s.store)
    (hconsumed : s'.consumed = s.consumed) (hchannel : s'.channel = s.channel) (hdiscarded : s'.discarded = s.discarded)
    (hhand : s'.producer.inHand = s.producer.inHand)
    (hdropped : s'.batchesDroppedBackpressure = s.batchesDroppedBackpressure)
    : Conserved s' := by
  constructor
  . rw [hstore, hconsumed, hchannel, hdiscarded, hhand]
    exact h.once
  . rw [hstore, hdiscarded]
    exact h.marked
  . rw [hdropped, hdiscarded]
    exact h.counted

/-- Every number of an epoch is that of an epoch in the store. -/
theorem Conserved.lt_of_mem {s : State B} (h : Conserved s) {id : ℕ} (hmem : id ∈ s.channel)
    : id < s.store.epochs.length := by
  rw [← List.mem_range, h.once.mem_iff]
  simp only [List.mem_append, hmem, or_true, true_or]

theorem conserved_step {capacity : ℕ} {s s' : State B} (hinv : Inv capacity s) (hstep : Step capacity s s')
    : Conserved s' := by
  have h := hinv.conserved
  cases hstep with
  | sealBatch blocks hp =>
    refine ⟨?_, fun id hid => (h.marked id hid).sealBatch blocks, h.counted⟩
    have honce := h.once
    rw [hp] at honce
    rw [EpochStore.length_sealBatch, EpochStore.id_sealBatch, List.range_succ]
    apply List.Perm.append_right [s.store.epochs.length]
    simpa only [Producer.inHand, List.append_nil] using honce
  | trySend hp hroom | trySendAgain hp hroom =>
    refine ⟨?_, h.marked, h.counted⟩
    have honce := h.once
    rw [hp] at honce
    apply honce.trans
    apply List.perm_iff_count.mpr
    intro id
    simp only [Producer.inHand, List.count_append, List.count_nil]
    omega
  | tryRecv hp hchannel =>
    have hlt := h.lt_of_mem (by rw [hchannel]; apply List.mem_cons_self)
    refine ⟨?_, fun id hid => ?_, ?_⟩
    . have honce := h.once
      rw [hp, hchannel] at honce
      rw [(EpochStore.keeps_mark _ _).length_eq]
      apply honce.trans
      apply List.perm_iff_count.mpr
      intro id
      simp only [Producer.inHand, List.count_append, List.count_cons, List.count_nil]
      omega
    . rcases List.mem_append.mp hid with hid | hid
      . exact (h.marked id hid).keeps (EpochStore.keeps_mark _ _)
      . rw [List.mem_singleton.mp hid]
        apply EpochStore.marked_mark hlt
    . rw [List.length_append, List.length_singleton, h.counted]
  | trySendAgainFull hp hfull => exact absurd (hinv.room _ (.inr hp)) hfull
  | recv hc hchannel =>
    refine ⟨?_, h.marked, h.counted⟩
    have honce := h.once
    rw [hchannel] at honce
    apply honce.trans
    apply List.perm_iff_count.mpr
    intro id
    simp only [List.count_append, List.count_cons, List.count_nil]
    omega
  | trySendFull hp | lock hp | tryRecvEmpty hp | unlock hp | finish hp =>
    exact h.of_same rfl rfl rfl rfl (by rw [hp]; rfl) rfl
  | consumerLock | recvDisconnected | consumerUnlock | consumerUnlockLast | worked =>
    exact h.of_same rfl rfl rfl rfl rfl rfl

theorem inv_step {capacity : ℕ} {s s' : State B} (hcapacity : 0 < capacity) (hinv : Inv capacity s)
    (hstep : Step capacity s s')
    : Inv capacity s' := by
  refine ⟨conserved_step hinv hstep, ?_, ?_⟩
  . have hwithin := hinv.within
    cases hstep with
    | trySend hp hroom | trySendAgain hp hroom =>
      rw [List.length_append, List.length_singleton]
      omega
    | tryRecv hp hchannel | recv hc hchannel =>
      rw [hchannel, List.length_cons] at hwithin
      dsimp only
      omega
    | _ => exact hwithin
  . intro id hproducer
    have hwithin := hinv.within
    cases hstep with
    | tryRecv hp hchannel =>
      rw [hchannel, List.length_cons] at hwithin
      dsimp only
      omega
    | tryRecvEmpty hp hchannel =>
      dsimp only
      rw [hchannel]
      exact hcapacity
    | unlock hp => exact hinv.room _ (.inl hp)
    | recv hc hchannel =>
      have := hinv.room id hproducer
      rw [hchannel, List.length_cons] at this
      dsimp only
      omega
    | consumerLock | recvDisconnected | consumerUnlock | consumerUnlockLast | worked =>
      exact hinv.room id hproducer
    | _ => rcases hproducer with h | h <;> cases h

theorem inv_of_run {capacity : ℕ} (hcapacity : 0 < capacity) {s : State B}
    (hrun : Relation.ReflTransGen (Step capacity) (State.start B) s)
    : Inv capacity s := by
  induction hrun with
  | refl => apply inv_start
  | tail _ hstep ih => exact inv_step hcapacity ih hstep

/- Waiting for each other. -/

theorem Careful.of_consumer {s s' : State B} (h : s'.consumer = s.consumer) : Careful s s' := by
  intro hlock hrecv
  rw [h, hlock] at hrecv
  cases hrecv

/-- A step gets the two threads stuck exactly if the consumer goes for an empty channel while the producer waits. -/
theorem stuck_step_iff {capacity : ℕ} (hcapacity : 0 < capacity) {s s' : State B} (hstep : Step capacity s s')
    : ¬ Stuck s' ↔ Careful s s' := by
  cases hstep with
  | trySendFull hp hfull =>
    apply iff_of_true
    . rintro ⟨_, _, _, hempty⟩
      rw [hempty] at hfull
      exact hfull hcapacity
    . exact .of_consumer rfl
  | sealBatch | trySend | lock | tryRecv | tryRecvEmpty | unlock | trySendAgain | trySendAgainFull | finish =>
    apply iff_of_true
    . rintro ⟨⟨_, hproducer⟩, _⟩
      cases hproducer
    . exact .of_consumer rfl
  | recv hc | recvDisconnected hc =>
    apply iff_of_true
    . rintro ⟨_, _, hconsumer, _⟩
      cases hconsumer
    . intro hlock
      rw [hc] at hlock
      cases hlock
  | consumerUnlock hc | consumerUnlockLast hc | worked hc =>
    apply iff_of_true
    . rintro ⟨_, _, hconsumer, _⟩
      cases hconsumer
    . intro hlock
      rw [hc] at hlock
      cases hlock
  | consumerLock hc hfree =>
    constructor
    . intro h _ _ hwaits
      exact h ⟨hwaits.1, rfl, rfl, hwaits.2⟩
    . intro h hstuck
      exact h hc rfl ⟨hstuck.1, hstuck.2.2.2⟩

/-- From there no step leads on: the producer waits for the lock and the consumer for the producer. -/
theorem no_step_of_stuck {capacity : ℕ} {s s' : State B} (h : Stuck s) : ¬ Step capacity s s' := by
  rcases h with ⟨⟨id, hproducer⟩, howner, hconsumer, hchannel⟩
  intro hstep
  cases hstep with
  | sealBatch _ hp | trySend hp | trySendFull hp | tryRecv hp | tryRecvEmpty hp | unlock hp | trySendAgain hp
  | trySendAgainFull hp | finish hp | recvDisconnected _ _ hp =>
    rw [hproducer] at hp
    cases hp
  | lock _ hfree =>
    rw [howner] at hfree
    cases hfree
  | recv _ hchannel' =>
    rw [hchannel] at hchannel'
    cases hchannel'
  | consumerLock hc | consumerUnlock hc | consumerUnlockLast hc | worked hc =>
    rw [hconsumer] at hc
    cases hc

/--
Whatever the order of the steps, every sealed epoch is in exactly one place. In every run in which the consumer does
not go for an empty channel while the producer is at the lock, the two are not stuck, and there the next step gets them
stuck if and only if it is that one.
-/
theorem backpressure_iff {capacity : ℕ} (hcapacity : 0 < capacity)
    : (∀ s : State B, Relation.ReflTransGen (Step capacity) (.start B) s → Conserved s)
        ∧ ∀ s : State B,
            Relation.ReflTransGen (fun s s' => Step capacity s s' ∧ Careful s s') (.start B) s →
              ¬ Stuck s ∧ ∀ s', Step capacity s s' → (¬ Stuck s' ↔ Careful s s') := by
  refine ⟨fun s hrun => (inv_of_run hcapacity hrun).conserved, fun s hrun => ?_⟩
  have hnot : ¬ Stuck s := by
    induction hrun with
    | refl =>
      rintro ⟨⟨_, hproducer⟩, _⟩
      cases hproducer
    | tail _ hstep ih => exact (stuck_step_iff hcapacity hstep.1).mpr hstep.2
  exact ⟨hnot, fun s' hstep => stuck_step_iff hcapacity hstep⟩

/-- The first batch is in the channel. -/
def State.queued : State Unit where
  store := ((State.start Unit).store.sealBatch ()).1
  channel := [((State.start Unit).store.sealBatch ()).2.id]
  owner := none
  producer := .reading
  consumer := .lock
  batchesDroppedBackpressure := 0
  consumed := []
  discarded := []

theorem run_queued : Relation.ReflTransGen (Step 1) (.start Unit) .queued :=
  .tail (.single (.sealBatch () rfl)) (.trySend rfl Nat.one_pos)

theorem backpressure_queued : Conserved State.queued :=
  ((backpressure_iff (B := Unit) Nat.one_pos).1 _ run_queued)

/--
The channel is full when the second batch is sent; until the producer is at the lock the consumer takes the first batch,
works on it, and takes the lock again.
-/
theorem sink_gets_stuck
    : ¬ ∀ (capacity : ℕ) (s : State Unit),
        0 < capacity → Relation.ReflTransGen (Step capacity) (.start Unit) s → Conserved s ∧ ¬ Stuck s := by
  intro h
  have hfull := (run_queued.tail (.sealBatch () rfl)).tail (.trySendFull rfl (Nat.lt_irrefl 1))
  have hworked := (((hfull.tail (.consumerLock rfl rfl)).tail (.recv rfl rfl)).tail (.consumerUnlock rfl)).tail
    (.worked rfl)
  have hstuck := hworked.tail (.consumerLock rfl rfl)
  exact (h 1 _ Nat.one_pos hstuck).2 ⟨⟨_, rfl⟩, rfl, rfl, rfl⟩

end FacetSink

end Rust
