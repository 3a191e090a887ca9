import PrismPath.Ledgers.SignerRuns
import PrismPath.Python.SortedReload
import PrismPath.Telemetry.EpochJournal

/-!
This module contains the runs of a journal and of the acknowledgments it receives: frames, sealing, restarts and losses
of power in any order.
-/

open Python LineFile Epochs RootStatement

namespace EpochJournal

/- The acknowledged state is written by an acknowledgment only. -/

abbrev KeepsAck {α : Type} (p : Op α) : Prop :=
  Durable.Frames Disk.acks Journal.lastSeq p

theorem keeps_getDisk : KeepsAck Durable.getDisk :=
  .getDisk

theorem acks_setLog (d : Disk) (file : LogFile) (t : Text) : (d.setLog file t).acks = d.acks := by
  cases file <;> rfl

theorem keeps_appendLine (file : LogFile) (record : Obj) : KeepsAck (appendLine file record) := by
  unfold appendLine
  apply Durable.Frames.bind (.ofExcept _)
  intro line
  apply Durable.Frames.write
  . intro d
    apply acks_setLog
  . rintro d x ⟨p, -, rfl⟩
    apply acks_setLog

theorem keeps_removeData (id : ℕ) : KeepsAck (removeData id) := by
  apply Durable.Frames.writeAtomic
  intro d
  rfl

theorem keeps_report (finding : Finding) : KeepsAck (report finding) := by
  apply Durable.Frames.modifyMem
  intro j
  rfl

theorem keeps_setEpoch (i : ℕ) (f : Epoch → Epoch) : KeepsAck (setEpoch i f) := by
  apply Durable.Frames.modifyMem
  intro j
  rfl

theorem keeps_readJsonl (file : LogFile) : KeepsAck (readJsonl file) := by
  unfold readJsonl
  apply Durable.Frames.bind .getDisk
  intro d
  dsimp only
  split
  . apply Durable.Frames.raise
  . split
    . apply Durable.Frames.bind (keeps_report _)
      intro _
      apply Durable.Frames.bind _ fun _ => .pure _
      apply Durable.Frames.writeAtomic
      intro d
      apply acks_setLog
    . apply Durable.Frames.pure

theorem keeps_dropUnderPressure (i : ℕ) : KeepsAck (dropUnderPressure i) := by
  unfold dropUnderPressure
  apply Durable.Frames.bind .getMem
  intro j
  split
  . apply Durable.Frames.pure
  . next epoch _ =>
    have hdrop : KeepsAck (do setEpoch i fun e => { e with blocks := .none }; removeData epoch.id) :=
      .bind (keeps_setEpoch _ _) fun _ => keeps_removeData _
    split
    . apply Durable.Frames.bind (keeps_appendLine _ _)
      intro _
      apply Durable.Frames.bind (keeps_setEpoch _ _)
      intro _
      apply hdrop
    . apply hdrop

theorem keeps_enforceCount (maxDataEpochs : ℤ) (positions : List ℕ) : KeepsAck (enforceCount maxDataEpochs positions) := by
  induction positions with
  | nil =>
    unfold enforceCount
    split
    . apply Durable.Frames.raise
    . apply Durable.Frames.pure
  | cons i rest ih =>
    unfold enforceCount
    split
    . apply Durable.Frames.bind (keeps_dropUnderPressure i) fun _ => ih
    . apply Durable.Frames.pure

theorem keeps_enforceBytes (maxBytes : ℤ) (positions : List ℕ) : KeepsAck (enforceBytes maxBytes positions) := by
  induction positions with
  | nil => apply Durable.Frames.pure
  | cons i rest ih =>
    unfold enforceBytes
    apply Durable.Frames.bind .getMem
    intro j
    apply Durable.Frames.bind .getDisk
    intro d
    split
    . apply Durable.Frames.bind (keeps_dropUnderPressure i) fun _ => ih
    . apply Durable.Frames.pure

theorem keeps_enforceCaps : KeepsAck enforceCaps := by
  unfold enforceCaps
  apply Durable.Frames.bind .getMem
  intro j
  apply Durable.Frames.bind (keeps_enforceCount _ _)
  intro kept
  split
  . apply Durable.Frames.pure
  . apply keeps_enforceBytes

theorem keeps_ackEpochs (positions : List ℕ) : KeepsAck (ackEpochs positions) := by
  induction positions with
  | nil => apply Durable.Frames.pure
  | cons i rest ih =>
    unfold ackEpochs
    apply Durable.Frames.bind .getMem
    intro j
    split
    . apply ih
    . apply Durable.Frames.bind (keeps_setEpoch _ _)
      intro _
      apply Durable.Frames.bind .getDisk
      intro d
      dsimp only
      split
      . apply Durable.Frames.bind (keeps_setEpoch _ _)
        intro _
        apply Durable.Frames.bind (keeps_removeData _)
        intro _
        apply Durable.Frames.bind ih fun _ => .pure _
      . apply ih

theorem keeps_applyAckToFiles (chainedRoot : Json.Str) : KeepsAck (applyAckToFiles chainedRoot) := by
  unfold applyAckToFiles
  apply Durable.Frames.bind .getMem
  intro j
  split
  . apply Durable.Frames.pure
  . apply keeps_ackEpochs

theorem keeps_removeOrphans (named ids : List ℕ) : KeepsAck (removeOrphans named ids) := by
  induction ids with
  | nil => apply Durable.Frames.pure
  | cons id rest ih =>
    unfold removeOrphans
    split
    . apply Durable.Frames.bind (keeps_report _)
      intro _
      apply Durable.Frames.bind (keeps_removeData _) fun _ => ih
    . apply ih

theorem keeps_applyGaps (gaps positions : List ℕ) : KeepsAck (applyGaps gaps positions) := by
  induction positions with
  | nil => apply Durable.Frames.pure
  | cons i rest ih =>
    unfold applyGaps
    apply Durable.Frames.bind .getMem
    intro j
    split
    . apply ih
    . split
      . apply Durable.Frames.bind (keeps_setEpoch _ _)
        intro _
        split
        . apply Durable.Frames.bind (keeps_report _)
          intro _
          apply Durable.Frames.bind (keeps_setEpoch _ _)
          intro _
          apply Durable.Frames.bind (keeps_removeData _) fun _ => ih
        . apply ih
      . apply ih

variable (sha256 : Bytes → Bytes)

theorem keeps_addEpoch (epoch : Epoch) (f : Journal → List Epoch)
    : KeepsAck (Durable.modifyMem fun j => { j with epochs := f j ++ [epoch] }) := by
  apply Durable.Frames.modifyMem
  intro j
  rfl

theorem keeps_loadEpochs (expectedPrev : Json.Str) (chain : List Obj) (gaps : List ℕ)
    : KeepsAck (loadEpochs sha256 expectedPrev chain gaps) := by
  induction chain generalizing expectedPrev gaps with
  | nil => apply Durable.Frames.pure
  | cons record rest ih =>
    unfold loadEpochs
    apply Durable.Frames.bind (.ofExcept _)
    intro id
    apply Durable.Frames.bind (.ofExcept _)
    intro merkleRoot
    apply Durable.Frames.bind (.ofExcept _)
    intro expected
    apply Durable.Frames.bind (.ofExcept _)
    intro chained
    split
    . apply Durable.Frames.raise
    . apply Durable.Frames.bind .getDisk
      intro d
      dsimp only
      split
      . apply Durable.Frames.bind (keeps_addEpoch _ _) fun _ => ih _ _
      . apply Durable.Frames.bind (.ofExcept _)
        intro length
        apply Durable.Frames.bind (.ofExcept _)
        intro digest
        split
        . apply Durable.Frames.bind (keeps_report _)
          intro _
          apply Durable.Frames.bind (keeps_appendLine _ _)
          intro _
          apply Durable.Frames.bind (keeps_removeData _)
          intro _
          apply Durable.Frames.bind (keeps_addEpoch _ _) fun _ => ih _ _
        . apply Durable.Frames.bind (.ofExcept _)
          intro blocks
          apply Durable.Frames.bind (keeps_addEpoch _ _) fun _ => ih _ _

theorem keeps_readAcks : KeepsAck readAcks := by
  unfold readAcks
  apply Durable.Frames.bind .getDisk
  intro d
  split
  . apply Durable.Frames.pure
  . split
    . apply Durable.Frames.pure
    . apply Durable.Frames.raise

/-- The end of a recovery, after the acknowledged state was read. -/
theorem keeps_recoverEpochs (ackedThrough : Option Json.Str) (gaps : List ℕ)
    : KeepsAck (do
        match ackedThrough with
        | none => pure ()
        | some root =>
          let completed ← applyAckToFiles root
          if completed ≠ [] then
            report (.completedAck completed)
        applyGaps gaps (List.range (← Durable.getMem).epochs.length)
        enforceCaps) := by
  have hend : KeepsAck (do applyGaps gaps (List.range (← Durable.getMem).epochs.length); enforceCaps) := by
    apply Durable.Frames.bind .getMem
    intro j
    apply Durable.Frames.bind (keeps_applyGaps _ _) fun _ => keeps_enforceCaps
  split
  . apply hend
  . apply Durable.Frames.bind (keeps_applyAckToFiles _)
    intro completed
    split
    . apply Durable.Frames.bind (keeps_report _) fun _ => hend
    . apply hend

theorem acks_start (config : Config) : Durable.Frames Disk.acks (fun _ => ()) (start sha256 config) := by
  unfold start recover
  apply Durable.Frames.bind
  . apply Durable.Frames.modifyMem
    intro j
    rfl
  intro _
  apply Durable.Frames.bind (keeps_readJsonl _).disk
  intro chain
  apply Durable.Frames.bind keeps_readAcks.disk
  intro acks
  apply Durable.Frames.bind (keeps_readJsonl _).disk
  intro gapRecords
  apply Durable.Frames.bind (.ofExcept _)
  intro gaps
  apply Durable.Frames.bind (keeps_loadEpochs _ _ _ _).disk
  intro gaps
  apply Durable.Frames.bind (.ofExcept _)
  intro named
  apply Durable.Frames.bind .getDisk
  intro d
  apply Durable.Frames.bind (keeps_removeOrphans _ _).disk
  intro _
  apply Durable.Frames.bind (.ofExcept _)
  intro lastSeq
  apply Durable.Frames.bind (.ofExcept _)
  intro ackedThrough
  apply Durable.Frames.bind
  . apply Durable.Frames.modifyMem
    intro j
    rfl
  intro _
  apply (keeps_recoverEpochs _ _).disk

/-- The acknowledged state on disk reads as a sequence number. -/
def Stored (acks : Option Text) (n : ℤ) : Prop :=
  ∃ text obj, acks = some text ∧ loads text = some obj ∧ obj.get "last_seq" (.int (-1)) = .ok (.int n)

/-- A journal that opens has the sequence number of the acknowledged state. -/
theorem lastSeq_start (config : Config) {d : Disk} {n : ℤ} (h : Stored d.acks n) (j : Journal)
    : Durable.Returns (start sha256 config) (fun _ _ j => j.lastSeq = n) d j := by
  rcases h with ⟨text, acks, htext, hacks, hseq⟩
  unfold start recover
  apply Durable.Returns.bind
  apply Durable.Returns.modifyMem
  refine .bind_frames (keeps_readJsonl _) fun chain d₁ j₁ hd₁ _ => ?_
  have hread : readAcks d₁ j₁ = ⟨∅, .ok acks, d₁, j₁⟩ := by
    unfold readAcks
    rw [Durable.bind_of_ok (a := d₁) rfl, hd₁, htext]
    simp only [hacks, Durable.getDisk, Set.empty_union]
    simp [pure]
  apply Durable.Returns.bind
  intro acks' hacks'
  rw [hread] at hacks' ⊢
  cases hacks'
  refine .bind_frames (keeps_readJsonl _) fun gapRecords d₂ j₂ _ _ => ?_
  apply Durable.Returns.bind
  refine .ofExcept fun gaps _ => ?_
  refine .bind_frames (keeps_loadEpochs sha256 _ _ _) fun gaps d₃ j₃ _ _ => ?_
  apply Durable.Returns.bind
  refine .ofExcept fun named _ => ?_
  refine .bind_frames keeps_getDisk fun listed d₄ j₄ _ _ => ?_
  refine .bind_frames (keeps_removeOrphans _ _) fun _ d₅ j₅ _ _ => ?_
  apply Durable.Returns.bind
  refine .ofExcept fun lastSeq hlastSeq => ?_
  have hn : lastSeq = n := by
    rw [hseq] at hlastSeq
    cases hlastSeq
    rfl
  apply Durable.Returns.bind
  refine .ofExcept fun ackedThrough _ => ?_
  apply Durable.Returns.bind
  apply Durable.Returns.modifyMem
  intro _ _
  apply (keeps_recoverEpochs ackedThrough gaps d₅ _).2.2.trans hn

theorem keeps_openSigner : KeepsAck (openSigner sha256) := by
  unfold openSigner
  apply Durable.Frames.bind .getMem
  intro j
  split
  . apply Durable.Frames.pure
  . apply Durable.Frames.bind .getDisk
    intro d
    apply Durable.Frames.bind (.ofExcept _)
    intro opened
    dsimp only
    split
    . apply Durable.Frames.pure
    . apply Durable.Frames.bind _ fun _ => .pure _
      apply Durable.Frames.writeAtomic
      intro d
      rfl

theorem keeps_signer (signer : Option RootSigner) : KeepsAck (Durable.modifyMem fun j => { j with signer := signer }) := by
  apply Durable.Frames.modifyMem
  intro j
  rfl

theorem keeps_sign (key : InstanceKey) (root : Json.Str) (leaves : ℕ) (now : Json.Str)
    : KeepsAck (sign sha256 key root leaves now) := by
  unfold sign
  apply Durable.Frames.bind (keeps_openSigner sha256)
  intro signer
  apply Durable.Frames.bind (keeps_signer _)
  intro _
  apply Durable.Frames.bind (.ofExcept _)
  intro statement
  apply Durable.Frames.bind (keeps_appendLine _ _)
  intro _
  apply Durable.Frames.bind (.ofExcept _) fun _ => keeps_signer _

theorem keeps_seal (bits now : Json.Str) : KeepsAck («seal» sha256 bits now) := by
  have hend (epoch : Epoch) : KeepsAck (do enforceCaps; return epoch) :=
    .bind keeps_enforceCaps fun _ => .pure _
  unfold «seal»
  apply Durable.Frames.bind .getMem
  intro j
  apply Durable.Frames.bind (.ofExcept _)
  intro blocks
  apply Durable.Frames.bind (.ofExcept _)
  intro merkleRoot
  apply Durable.Frames.bind
  . apply Durable.Frames.writeAtomic
    intro d
    rfl
  intro _
  apply Durable.Frames.bind (.ofExcept _)
  intro chained
  apply Durable.Frames.bind (keeps_appendLine _ _)
  intro _
  apply Durable.Frames.bind (keeps_addEpoch _ _)
  intro _
  dsimp only
  split
  . apply hend
  . apply Durable.Frames.bind (keeps_sign sha256 _ _ _ _) fun _ => hend _

/- What an acknowledgment leaves. -/

theorem stored_ack (root : Json.Str) (seq : ℤ)
    : ∃ text,
        dumpsSorted (record [("last_seq", .int seq), ("acked_through", .str root)]) = some text ∧
          Stored (some text) seq := by
  have hstable : (record [("last_seq", .int seq), ("acked_through", .str root)]).stable = true := by
    apply stable_record
    . show keysStable [Key.str (str "last_seq"), Key.str (str "acked_through")] = true
      with_unfolding_all decide
    . simp [Obj.stable]
  rcases Obj.sortedTree_reread _ hstable with ⟨tree, htree, -⟩
  have hdump : dumpsSorted (record [("last_seq", .int seq), ("acked_through", .str root)])
      = some (Json.write .spaced tree) := by
    rw [dumpsSorted, htree]
    rfl
  rcases Obj.reread_dict hstable with ⟨d, hread, hmembers⟩
  refine ⟨_, hdump, _, _, rfl, Obj.loads_dumpsSorted hdump, ?_⟩
  have hseq := hmembers (.str (str "last_seq"), .int seq) List.mem_cons_self
  have hint : (Obj.int seq).reread = .int seq := by
    rw [Obj.reread_of_sortedTree rfl]
    apply decode_intTree
  have hname : Json.join (str "last_seq") = str "last_seq" := by
    with_unfolding_all decide
  rw [hint] at hseq
  rw [show (record [("last_seq", .int seq), ("acked_through", .str root)]).reread = .dict d from hread]
  simp only [Key.text, hname] at hseq
  simp [Obj.get, hseq]

/-- The journal has sealed an epoch with this root. -/
def Names (j : Journal) (root : Json.Str) : Prop :=
  ∃ e ∈ j.epochs, e.chainedRoot = root

theorem names_iff (j : Journal) (root : Json.Str)
    : Names j root ↔ (j.epochs.any fun e => decide (e.chainedRoot = root)) = true := by
  simp [Names]

theorem ack_of_not_names {d : Disk} {j : Journal} {root : Json.Str} (h : ¬Names j root) (seq : ℤ)
    : ack root seq d j = ⟨∅, .ok 0, d, j⟩ := by
  rw [names_iff, Bool.not_eq_true] at h
  unfold ack
  rw [Durable.bind_of_ok (a := j) rfl]
  simp [Durable.getMem, h, pure]

/-- What is left of an acknowledgment once its state is written. -/
def finishAck (root : Json.Str) : Op ℕ := do
  return (← applyAckToFiles root).length

theorem ack_of_names {d : Disk} {j : Journal} {root : Json.Str} (h : Names j root) (seq : ℤ)
    : (∀ x ∈ (ack root seq d j).cuts, x.acks = d.acks ∨ Stored x.acks seq) ∧
        Stored (ack root seq d j).disk.acks seq ∧ (ack root seq d j).mem.lastSeq = seq := by
  rcases stored_ack root seq with ⟨text, htext, hstored⟩
  let d' : Disk := { d with acks := some text }
  let j' : Journal := { j with lastSeq := seq, ackedThrough := some root }
  have hfinish : KeepsAck (finishAck root) := .bind (keeps_applyAckToFiles root) fun _ => .pure _
  have ⟨hcuts, hdisk, hmem⟩ := hfinish d' j'
  rw [names_iff] at h
  have hack : ack root seq d j =
      ⟨∅ ∪ (∅ ∪ (({d, d'} ∪ ∅) ∪ (∅ ∪ (finishAck root d' j').cuts))), (finishAck root d' j').exit,
        (finishAck root d' j').disk, (finishAck root d' j').mem⟩ := by
    unfold ack
    rw [Durable.bind_of_ok (a := j) rfl]
    simp only [Durable.getMem, h, Bool.not_true, Bool.false_eq_true, if_false]
    rw [Durable.bind_of_ok (a := text) (by rw [htext]; rfl), htext]
    rfl
  rw [hack]
  refine ⟨fun x hx => ?_, ?_, hmem⟩
  . rcases hx with hx | hx | ((rfl | rfl) | hx) | hx | hx
    . exact hx.elim
    . exact hx.elim
    . left
      rfl
    . right
      apply hstored
    . exact hx.elim
    . exact hx.elim
    . right
      rw [hcuts x hx]
      apply hstored
  . rw [hdisk]
    apply hstored

section Receiver

variable (hmac : Bytes → Bytes → Bytes) (secret : Bytes)

/-- A frame that is authentic and whose sequence number advances. -/
def Fresh (j : Journal) (root : Json.Str) (seq : ℤ) (tag : Json.Str) : Prop :=
  verifyAck hmac secret root seq tag = .ok true ∧ j.lastSeq < seq

/-- The sequence number of an accepted frame. -/
def acceptedSeq (seq : ℤ) : Except Error AckResult → List ℤ
  | .ok (.ok _) => [seq]
  | _ => []

theorem onAck_of_fresh {d : Disk} {j : Journal} {root : Json.Str} {seq : ℤ} {tag : Json.Str}
    (h : Fresh hmac secret j root seq tag)
    : onAck hmac secret root seq tag d j = (do return .ok (← ack root seq) : Op AckResult) d j := by
  have hnot : ¬seq ≤ j.lastSeq := by
    have := h.2
    omega
  unfold onAck
  rw [Durable.bind_of_ok (a := true) (by rw [h.1]; rfl), h.1]
  simp only [Bool.not_true, Bool.false_eq_true, if_false]
  rw [Durable.bind_of_ok (a := j) rfl]
  simp only [Durable.getMem, hnot, if_false]
  simp [Durable.ofExcept, pure]

theorem onAck_of_names {d : Disk} {j : Journal} {root : Json.Str} {seq : ℤ} {tag : Json.Str}
    (h : Fresh hmac secret j root seq tag) (hnames : Names j root)
    : (∀ x ∈ (onAck hmac secret root seq tag d j).cuts, x.acks = d.acks ∨ Stored x.acks seq) ∧
        Stored (onAck hmac secret root seq tag d j).disk.acks seq ∧
        (onAck hmac secret root seq tag d j).mem.lastSeq = seq := by
  have ⟨hcuts, hdisk, hmem⟩ := ack_of_names (d := d) hnames seq
  rw [onAck_of_fresh hmac secret h]
  cases hexit : (ack root seq d j).exit with
  | error e =>
    rw [Durable.bind_of_error hexit]
    exact ⟨hcuts, hdisk, hmem⟩
  | ok dropped =>
    rw [Durable.bind_of_ok hexit]
    refine ⟨fun x hx => ?_, hdisk, hmem⟩
    rcases hx with hx | hx
    . apply hcuts x hx
    . exact hx.elim

/-- A fresh frame of an unknown root is accepted, and changes nothing. -/
theorem onAck_of_not_names {d : Disk} {j : Journal} {root : Json.Str} {seq : ℤ} {tag : Json.Str}
    (h : Fresh hmac secret j root seq tag) (hnames : ¬Names j root)
    : onAck hmac secret root seq tag d j = ⟨∅, .ok (.ok 0), d, j⟩ := by
  rw [onAck_of_fresh hmac secret h]
  have hack := ack_of_not_names (d := d) hnames seq
  rw [Durable.bind_of_ok (a := 0) (by rw [hack]), hack]
  simp [pure]

theorem acceptedSeq_cases (seq : ℤ) (exit : Except Error AckResult)
    : acceptedSeq seq exit = [] ∨ acceptedSeq seq exit = [seq] := by
  unfold acceptedSeq
  split
  . right
    rfl
  . left
    rfl

theorem onAck_of_not_fresh {d : Disk} {j : Journal} {root : Json.Str} {seq : ℤ} {tag : Json.Str}
    (h : ¬Fresh hmac secret j root seq tag)
    : (onAck hmac secret root seq tag d j).cuts = ∅ ∧ (onAck hmac secret root seq tag d j).disk = d ∧
        (onAck hmac secret root seq tag d j).mem = j ∧
        acceptedSeq seq (onAck hmac secret root seq tag d j).exit = [] := by
  unfold onAck
  cases hverify : verifyAck hmac secret root seq tag with
  | error e =>
    rw [Durable.bind_of_error (e := e) rfl]
    simp [Durable.ofExcept, Durable.raise, acceptedSeq]
  | ok authentic =>
    rw [Durable.bind_of_ok (a := authentic) rfl]
    cases authentic with
    | false => simp [Durable.ofExcept, pure, acceptedSeq]
    | true =>
      have hstale : seq ≤ j.lastSeq := by
        by_contra hnot
        apply h ⟨hverify, by omega⟩
      simp only [Bool.not_true, Bool.false_eq_true, if_false]
      rw [Durable.bind_of_ok (a := j) rfl]
      simp [Durable.getMem, Durable.ofExcept, hstale, pure, acceptedSeq]

/- A disk, the process over it while there is one, and the frames it accepted. -/

structure World where
  disk : Disk
  process : Option Journal
  /-- The sequence numbers of the accepted frames, in their order. -/
  accepted : List ℤ

inductive Event where
  | start (config : Config)
  | «seal» (bits now : Json.Str)
  | ack (root : Json.Str) (seq : ℤ) (tag : Json.Str)

/-- What can happen: an event runs to its end, or power is lost on the way. -/
inductive Next : World → Event → World → Prop where
  | start (w : World) (config : Config) {o : Outcome Disk Journal Error Unit}
      (ho : EpochJournal.start sha256 config w.disk (.fresh config) = o)
      : Next w (.start config) ⟨o.disk, match o.exit with | .ok _ => some o.mem | .error _ => none, w.accepted⟩
  | startCut (w : World) (config : Config) {x : Disk}
      (hx : x ∈ (EpochJournal.start sha256 config w.disk (.fresh config)).cuts)
      : Next w (.start config) ⟨x, none, w.accepted⟩
  | «seal» (w : World) {j : Journal} (hj : w.process = some j) (bits now : Json.Str)
      {o : Outcome Disk Journal Error Epoch} (ho : EpochJournal.seal sha256 bits now w.disk j = o)
      : Next w (.seal bits now) ⟨o.disk, some o.mem, w.accepted⟩
  | sealCut (w : World) {j : Journal} (hj : w.process = some j) (bits now : Json.Str) {x : Disk}
      (hx : x ∈ (EpochJournal.seal sha256 bits now w.disk j).cuts)
      : Next w (.seal bits now) ⟨x, none, w.accepted⟩
  | ack (w : World) {j : Journal} (hj : w.process = some j) (root : Json.Str) (seq : ℤ) (tag : Json.Str)
      {o : Outcome Disk Journal Error AckResult} (ho : onAck hmac secret root seq tag w.disk j = o)
      : Next w (.ack root seq tag) ⟨o.disk, some o.mem, w.accepted ++ acceptedSeq seq o.exit⟩
  | ackCut (w : World) {j : Journal} (hj : w.process = some j) (root : Json.Str) (seq : ℤ) (tag : Json.Str) {x : Disk}
      (hx : x ∈ (onAck hmac secret root seq tag w.disk j).cuts)
      : Next w (.ack root seq tag) ⟨x, none, w.accepted⟩

/-- No fresh frame names a root that the journal has not sealed. -/
def Known (w : World) : Event → Prop
  | .ack root seq tag => ∀ j, w.process = some j → Fresh hmac secret j root seq tag → Names j root
  | _ => True

/-- The runs over a disk, from before its first process on. -/
def Run (P : World → Event → Prop) (d : Disk) : World → Prop :=
  Relation.ReflTransGen (fun w w' => ∃ event, P w event ∧ Next sha256 hmac secret w event w') ⟨d, none, []⟩

structure World.Holds (w : World) : Prop where
  increasing : w.accepted.Pairwise (· < ·)
  stored : w.accepted = [] ∨ ∃ n, Stored w.disk.acks n ∧ ∀ a ∈ w.accepted, a ≤ n
  below : ∀ j, w.process = some j → ∀ a ∈ w.accepted, a ≤ j.lastSeq

theorem World.Holds.stopped {w : World} (h : w.Holds) {x : Disk} (hx : x.acks = w.disk.acks)
    : World.Holds ⟨x, none, w.accepted⟩ := by
  constructor
  . apply h.increasing
  . rw [hx]
    apply h.stored
  . intro j hj
    cases hj

theorem World.Holds.running {w : World} (h : w.Holds) {x : Disk} {j j' : Journal} (hx : x.acks = w.disk.acks)
    (hj : w.process = some j) (hj' : j'.lastSeq = j.lastSeq)
    : World.Holds ⟨x, some j', w.accepted⟩ := by
  constructor
  . apply h.increasing
  . rw [hx]
    apply h.stored
  . intro j'' hj''
    cases hj''
    rw [hj']
    apply h.below j hj

theorem World.Holds.start {w : World} (h : w.Holds) (config : Config) {o : Outcome Disk Journal Error Unit}
    (ho : EpochJournal.start sha256 config w.disk (.fresh config) = o)
    : World.Holds ⟨o.disk, match o.exit with | .ok _ => some o.mem | .error _ => none, w.accepted⟩ := by
  have ⟨_, hdisk, _⟩ := acks_start sha256 config w.disk (.fresh config)
  rw [ho] at hdisk
  have hstopped := h.stopped hdisk
  refine ⟨hstopped.increasing, hstopped.stored, fun j hj a ha => ?_⟩
  rcases h.stored with hnone | ⟨n, hn, hbelow⟩
  . rw [hnone] at ha
    cases ha
  . have hreturns := lastSeq_start sha256 config hn (.fresh config)
    unfold Durable.Returns at hreturns
    rw [ho] at hreturns
    cases hexit : o.exit with
    | error e =>
      rw [hexit] at hj
      cases hj
    | ok u =>
      rw [hexit] at hj
      cases hj
      rw [hreturns u hexit]
      apply hbelow a ha

/-- An accepted frame lies above those before it, and so does what is kept of it. -/
theorem World.Holds.accept {w : World} (h : w.Holds) {j j' : Journal} {x : Disk} {seq : ℤ} {seqs : List ℤ}
    (hj : w.process = some j) (hlt : j.lastSeq < seq) (hx : Stored x.acks seq) (hj' : j'.lastSeq = seq)
    (hseqs : seqs = [] ∨ seqs = [seq])
    : World.Holds ⟨x, some j', w.accepted ++ seqs⟩ := by
  have hall : ∀ a ∈ w.accepted, a < seq := by
    intro a ha
    have := h.below j hj a ha
    omega
  have hle : ∀ a ∈ w.accepted ++ seqs, a ≤ seq := by
    intro a ha
    rcases List.mem_append.mp ha with ha | ha
    . have := hall a ha
      omega
    . rcases hseqs with rfl | rfl
      . cases ha
      . rw [List.mem_singleton.mp ha]
  constructor
  . apply List.pairwise_append.mpr
    refine ⟨h.increasing, ?_, fun a ha b hb => ?_⟩
    . rcases hseqs with rfl | rfl <;> simp
    . rcases hseqs with rfl | rfl
      . cases hb
      . rw [List.mem_singleton.mp hb]
        apply hall a ha
  . right
    exact ⟨seq, hx, hle⟩
  . intro j'' hj''
    cases hj''
    rw [hj']
    apply hle

theorem World.Holds.next {w w' : World} {event : Event} (h : w.Holds) (hknown : Known hmac secret w event)
    (hnext : Next sha256 hmac secret w event w')
    : w'.Holds := by
  cases hnext with
  | start config ho => apply h.start sha256 config ho
  | startCut config hx => apply h.stopped ((acks_start sha256 config _ _).1 _ hx)
  | @«seal» j hj bits now o ho =>
    have ⟨_, hdisk, hmem⟩ := keeps_seal sha256 bits now w.disk j
    rw [ho] at hdisk hmem
    apply h.running hdisk hj hmem
  | sealCut hj bits now hx => apply h.stopped ((keeps_seal sha256 bits now _ _).1 _ hx)
  | @ack j hj root seq tag o ho =>
    by_cases hfresh : Fresh hmac secret j root seq tag
    . have ⟨_, hdisk, hmem⟩ := onAck_of_names hmac secret (d := w.disk) hfresh (hknown j hj hfresh)
      rw [ho] at hdisk hmem
      apply h.accept hj hfresh.2 hdisk hmem (acceptedSeq_cases seq o.exit)
    . have ⟨_, hdisk, hmem, hexit⟩ := onAck_of_not_fresh hmac secret (d := w.disk) hfresh
      rw [ho] at hdisk hmem hexit
      rw [hexit, List.append_nil]
      apply h.running (congrArg Disk.acks hdisk) hj (congrArg Journal.lastSeq hmem)
  | @ackCut j hj root seq tag x hx =>
    by_cases hfresh : Fresh hmac secret j root seq tag
    . rcases (onAck_of_names hmac secret (d := w.disk) hfresh (hknown j hj hfresh)).1 x hx with hold | hnew
      . apply h.stopped hold
      . -- the state was written, and the frame not answered
        refine ⟨h.increasing, .inr ⟨seq, hnew, fun a ha => ?_⟩, fun j' hj' => by cases hj'⟩
        have hbelow := h.below j hj a ha
        have hlt := hfresh.2
        omega
    . rw [(onAck_of_not_fresh hmac secret (d := w.disk) hfresh).1] at hx
      exact hx.elim

/--
Where no fresh frame names an unknown root, the sequence numbers of the accepted frames increase, over all restarts and
losses of power; where one does, it is accepted as often as it is sent.
-/
theorem acks_increase
    : (∀ d w, Run sha256 hmac secret (Known hmac secret) d w → w.accepted.Pairwise (· < ·)) ∧
        ∀ w event, ¬Known hmac secret w event →
          ∃ w₁ w₂, Next sha256 hmac secret w event w₁ ∧ Next sha256 hmac secret w₁ event w₂ ∧
            ¬w₂.accepted.Pairwise (· < ·) := by
  constructor
  . intro d w hrun
    have hholds : w.Holds := by
      induction hrun with
      | refl => exact ⟨List.Pairwise.nil, .inl rfl, fun j hj => by cases hj⟩
      | tail _ hstep ih =>
        rcases hstep with ⟨event, hknown, hnext⟩
        apply ih.next sha256 hmac secret hknown hnext
    apply hholds.increasing
  . intro w event hunknown
    cases event with
    | start config => exact absurd trivial hunknown
    | «seal» bits now => exact absurd trivial hunknown
    | ack root seq tag =>
      simp only [Known, not_forall] at hunknown
      rcases hunknown with ⟨j, hj, hfresh, hnames⟩
      have haccept := onAck_of_not_names hmac secret (d := w.disk) hfresh hnames
      refine ⟨_, _, .ack w hj root seq tag haccept, .ack ⟨w.disk, some j, _⟩ rfl root seq tag haccept, ?_⟩
      simp [acceptedSeq, List.pairwise_append]

end Receiver

/- One frame twice, before anything is sealed. -/

def emptyDisk : Disk :=
  ⟨[], [], [], none, [], false⟩

def demoConfig : Config :=
  ⟨8, 3, none, none⟩

def demoSha256 (data : Bytes) : Bytes :=
  data.take 4

def demoHmac (secret data : Bytes) : Bytes :=
  secret ++ data

def demoTag : Json.Str :=
  hex (textBytes "\x7b\"root\":\"ab\",\"seq\":5\x7d".toList)

def demoJournal : Journal :=
  (start demoSha256 demoConfig emptyDisk (.fresh demoConfig)).mem

theorem demoJournal_opens (w : World) (hdisk : w.disk = emptyDisk)
    : Next demoSha256 demoHmac [] w (.start demoConfig) ⟨emptyDisk, some demoJournal, w.accepted⟩ := by
  have hexit : (start demoSha256 demoConfig emptyDisk (.fresh demoConfig)).exit = .ok () := by
    with_unfolding_all rfl
  have hkept : (start demoSha256 demoConfig emptyDisk (.fresh demoConfig)).disk = emptyDisk := by
    with_unfolding_all rfl
  have hnext := @Next.start demoSha256 demoHmac [] w demoConfig _ rfl
  rw [hdisk, hexit, hkept] at hnext
  apply hnext

theorem demoFrame_fresh : Fresh demoHmac [] demoJournal (str "ab") 5 demoTag := by
  constructor
  . with_unfolding_all rfl
  . have hlast : demoJournal.lastSeq = -1 := by
      with_unfolding_all rfl
    rw [hlast]
    decide

theorem frame_accepted_twice
    : ¬∀ w, Run demoSha256 demoHmac [] (fun _ _ => True) emptyDisk w → w.accepted.Pairwise (· < ·) := by
  intro h
  have hnames : ¬Names demoJournal (str "ab") := by
    have hepochs : demoJournal.epochs = [] := by
      with_unfolding_all rfl
    simp [Names, hepochs]
  have haccept := onAck_of_not_names demoHmac [] (d := emptyDisk) demoFrame_fresh hnames
  have hrun : Run demoSha256 demoHmac [] (fun _ _ => True) emptyDisk ⟨emptyDisk, some demoJournal, [5, 5]⟩ := by
    apply Relation.ReflTransGen.tail
    . apply Relation.ReflTransGen.tail
      . apply Relation.ReflTransGen.single
        exact ⟨_, trivial, demoJournal_opens ⟨emptyDisk, none, []⟩ rfl⟩
      . exact ⟨_, trivial, .ack ⟨emptyDisk, some demoJournal, []⟩ rfl (str "ab") 5 demoTag haccept⟩
    . exact ⟨_, trivial, .ack ⟨emptyDisk, some demoJournal, [5]⟩ rfl (str "ab") 5 demoTag haccept⟩
  have hincreasing := h _ hrun
  simp at hincreasing

end EpochJournal
