import PrismPath.Telemetry.JournalDisk

/-!
This module contains the runs of a journal over losses of power: it opens again, with every epoch whose sealing returned,
and every epoch is held, acknowledged or recorded as lost.
-/

open Python LineFile Epochs RootStatement

namespace EpochJournal

open Obj (recordCodec)

variable {sha256 : Bytes → Bytes} {Strict : Prop} {d : Disk} {j : Journal} {es : List Sealed} {lost : List ℕ} {n : ℕ}

/- Opening. -/

theorem Kept.setLog_chain (h : Kept sha256 Strict d es lost n)
    : Kept sha256 Strict (d.setLog .chain (text recordCodec (chainLines sha256 0 es))) es lost n :=
  ⟨h.linked, torn_text _, h.gaps, h.acks, h.within, h.data⟩

theorem Kept.setLog_gaps (h : Kept sha256 Strict d es lost n)
    : Kept sha256 Strict (d.setLog .gaps (text recordCodec (lost.map gapLine))) es lost n :=
  ⟨h.linked, h.chain, torn_text _, h.acks, h.within, h.data⟩

/-- What is read of the acknowledged state. -/
theorem wp_readAcks {C : Disk → Prop} (h : AckedTo d.acks es n)
    : Durable.Wp readAcks C
        (fun acks d' j' => d' = d ∧ j' = j ∧ (∃ seq : ℤ, (do (← acks.get "last_seq" (.int (-1))).asInt) = .ok seq) ∧
          ∃ root, (do asRoot (← acks.get "acked_through" .none)) = .ok root ∧
            (root = none ∧ n = 0 ∨
              ∃ r i, root = some r ∧ (es.findIdx? fun s => s.chainedRoot = r) = some i ∧ n = i + 1)) d j := by
  unfold readAcks
  apply Durable.Wp.bind
  apply Durable.Wp.getDisk
  rcases h with ⟨hnone, hn⟩ | ⟨text, obj, seq, root, i, htext, hloads, hseq, hroot, hfind, hn⟩
  . simp only [hnone]
    apply Durable.Wp.pure
    exact ⟨rfl, rfl, ⟨-1, rfl⟩, none, rfl, .inl ⟨rfl, hn⟩⟩
  . simp only [htext, hloads]
    apply Durable.Wp.pure
    refine ⟨rfl, rfl, ⟨seq, ?_⟩, some root, ?_, .inr ⟨root, i, rfl, hfind, hn⟩⟩
    . rw [hseq]
      rfl
    . rw [hroot]
      rfl

/-- The epochs that were loaded are those the disk keeps. -/
theorem Kept.holds_loaded (h : Kept sha256 Strict d es lost n) {d' : Disk}
    (hkept : Kept sha256 Strict d' es lost n) (hchain : d'.chain = text recordCodec (chainLines sha256 0 es))
    (hgaps : d'.gaps = text recordCodec (lost.map gapLine))
    (hlookup : ∀ i < es.length, d'.data.lookup i = d.data.lookup i) (hj : j.epochs = loaded d.data 0 es)
    : Holds sha256 Strict d' j es lost n := by
  refine ⟨hkept, hchain, hgaps, ?_, fun i e s he hs => ?_⟩
  . rw [hj, length_loaded]
  . rw [hj] at he
    rcases getElem?_loaded he with ⟨s', hs', rfl⟩
    rw [hs] at hs'
    cases hs'
    rw [Nat.zero_add]
    refine ⟨rfl, rfl, rfl, ?_⟩
    have hi := (List.getElem?_eq_some_iff.mp hs).1
    rcases h.data i s hs with hdata | ⟨hnone, hwhy⟩
    . refine .inl ⟨?_, ?_⟩
      . simp [hdata]
      . rw [hlookup i hi, hdata]
    . refine .inr ⟨?_, hwhy⟩
      simp [hnone]

theorem acked_loaded (data : List (ℕ × Text)) (id : ℕ) (es : List Sealed)
    : ∀ (i : ℕ) (e : Epoch), (loaded data id es)[i]? = some e → e.acked = false := by
  intro i e he
  rcases getElem?_loaded he with ⟨s, hs, rfl⟩
  rfl

/-- The end of a recovery, after the acknowledged state was read. -/
theorem Holds.spec_recoverEpochs (h : Holds sha256 Strict d j es lost n) {root : Option Json.Str}
    (hroot : root = none ∧ n = 0 ∨
      ∃ r i, root = some r ∧ (es.findIdx? fun s => s.chainedRoot = r) = some i ∧ n = i + 1)
    (hunacked : ∀ (i : ℕ) (e : Epoch), j.epochs[i]? = some e → e.acked = false)
    : Durable.Spec
        (do
          match root with
          | none => pure ()
          | some root =>
            let completed ← applyAckToFiles root
            if completed ≠ [] then
              report (.completedAck completed)
          applyGaps lost (List.range (← Durable.getMem).epochs.length)
          enforceCaps)
        (Keeps sha256 Strict es) (fun _ d' j' => ∃ lost', Running sha256 Strict d' j' es lost' n)
        (fun d' _ => j.config.maxDataEpochs < 0 ∧ ∃ lost', Kept sha256 Strict d' es lost' n) d j := by
  have hdropped : Dropped Strict j (List.range es.length) lost := by
    intro _ i e he _
    rcases h.sealed he with ⟨_, -, hi⟩
    exact .inr (.inr (List.mem_range.mpr hi))
  -- what is left once the acknowledged epochs are marked
  have hend : ∀ d₁ j₁, Holds sha256 Strict d₁ j₁ es lost n → Acked Strict j₁ [] n →
      Dropped Strict j₁ (List.range es.length) lost → j₁.config = j.config →
      Durable.Spec (do applyGaps lost (List.range (← Durable.getMem).epochs.length); enforceCaps)
        (Keeps sha256 Strict es) (fun _ d' j' => ∃ lost', Running sha256 Strict d' j' es lost' n)
        (fun d' _ => j.config.maxDataEpochs < 0 ∧ ∃ lost', Kept sha256 Strict d' es lost' n) d₁ j₁ := by
    intro d₁ j₁ hholds hacked hdropped hconfig
    apply Durable.Spec.bind
    apply Durable.Spec.of_wp
    apply Durable.Wp.getMem
    apply Durable.Spec.bind
    apply Durable.Spec.of_wp
    rw [hholds.length]
    refine (wp_applyGaps hholds hacked hdropped).mono (fun _ hx => hx) fun _ d₂ j₂ ⟨hrunning, hconfig'⟩ => ?_
    refine hrunning.spec_enforceCaps.mono (fun _ d' j' ⟨lost', hrunning', _⟩ => ⟨lost', hrunning'⟩)
      fun d' j' ⟨hneg, lost', hrunning'⟩ => ?_
    rw [hconfig', hconfig] at hneg
    exact ⟨hneg, lost', hrunning'.kept⟩
  rcases hroot with ⟨rfl, rfl⟩ | ⟨r, i, rfl, hfind, hn⟩
  . apply hend d j h _ hdropped rfl
    intro _ i e he
    have hfalse := hunacked i e he
    refine ⟨fun hacked => ?_, fun hi => absurd hi (Nat.not_lt_zero i)⟩
    rw [hfalse] at hacked
    cases hacked
  . apply Durable.Spec.bind
    apply Durable.Spec.of_wp
    refine (wp_applyAckToFiles h hfind hn (fun _ k e he => ⟨fun hacked => ?_, fun hk => ?_⟩) hdropped).mono
      (fun _ hx => hx) fun completed d₁ j₁ ⟨hholds, hacked, hdropped', hconfig⟩ => ?_
    . have hfalse := hunacked k e he
      rw [hfalse] at hacked
      cases hacked
    . exact .inr (List.mem_range.mpr hk)
    . split
      . apply Durable.Spec.bind
        apply Durable.Spec.of_wp
        apply Durable.Wp.modifyMem
        exact hend _ _ (hholds.congr rfl rfl) hacked hdropped' hconfig
      . exact hend _ _ hholds hacked hdropped' hconfig

/-- A journal opens over a disk that keeps its epochs, unless fewer than none of them may hold data. -/
theorem Kept.spec_start (h : Kept sha256 Strict d es lost n) (config : Config)
    : Durable.Spec (start sha256 config) (Keeps sha256 Strict es)
        (fun _ d' j' => ∃ lost', Running sha256 Strict d' j' es lost' n)
        (fun d' _ => config.maxDataEpochs < 0 ∧ ∃ lost', Kept sha256 Strict d' es lost' n) d j := by
  unfold start recover
  apply Durable.Spec.bind
  apply Durable.Spec.of_wp
  apply Durable.Wp.modifyMem
  apply Durable.Spec.bind
  apply Durable.Spec.of_wp
  refine (wp_readJsonl .chain h.chain h.keeps h.setLog_chain.keeps).mono (fun _ hx => hx)
    fun chain d₁ j₁ ⟨hchain, hd₁, _, hj₁⟩ => ?_
  have hkept₁ : Kept sha256 Strict d₁ es lost n := hd₁ ▸ h.setLog_chain
  apply Durable.Spec.bind
  apply Durable.Spec.of_wp
  refine (wp_readAcks hkept₁.acks).mono (fun _ hx => hx) fun acks d₂ j₂ ⟨hd₂, hj₂, ⟨seq, hseq⟩, root, hroot, hn⟩ => ?_
  subst hd₂
  apply Durable.Spec.bind
  apply Durable.Spec.of_wp
  refine (wp_readJsonl .gaps hkept₁.gaps hkept₁.keeps hkept₁.setLog_gaps.keeps).mono (fun _ hx => hx)
    fun gapRecords d₃ j₃ ⟨hgaps, hd₃, _, hj₃⟩ => ?_
  have hkept₃ : Kept sha256 Strict d₃ es lost n := hd₃ ▸ hkept₁.setLog_gaps
  apply Durable.Spec.bind
  apply Durable.Spec.of_wp
  apply Durable.Wp.ofExcept (a := lost)
  . rw [hgaps]
    apply ids_gapLines
  apply Durable.Spec.bind
  apply Durable.Spec.of_wp
  rw [hchain]
  have hdata : ∀ i s, es[i]? = some s → d₃.data.lookup (0 + i) = some s.data ∨ d₃.data.lookup (0 + i) = none := by
    intro i s hs
    rw [Nat.zero_add]
    rcases hkept₃.data i s hs with hsome | ⟨hnone, -⟩
    . exact .inl hsome
    . exact .inr hnone
  refine (wp_loadEpochs hkept₃.linked hdata lost).mono (fun _ hx => hx) fun gaps d₄ j₄ ⟨hgaps', hd₄, hj₄⟩ => ?_
  rw [hgaps', hd₄]
  apply Durable.Spec.bind
  apply Durable.Spec.of_wp
  apply Durable.Wp.ofExcept (ids_chainLines 0 es)
  apply Durable.Spec.bind
  apply Durable.Spec.of_wp
  apply Durable.Wp.getDisk
  apply Durable.Spec.bind
  apply Durable.Spec.of_wp
  refine (wp_removeOrphans hkept₃ (fun id hid => ?_) _).mono (fun _ hx => hx)
    fun _ d₅ j₅ ⟨hkept₅, hchain₅, hgaps₅, hacks₅, hlookup, _, hj₅⟩ => ?_
  . rw [List.mem_range'_1]
    omega
  have hepochs : j₅.epochs = loaded d₃.data 0 es := by
    rw [hj₅, hj₄]
    show j₃.epochs ++ _ = _
    rw [hj₃]
    show j₂.epochs ++ _ = _
    rw [hj₂, hj₁]
    rfl
  have hconfig : j₅.config = config := by
    rw [hj₅, hj₄]
    show j₃.config = _
    rw [hj₃]
    show j₂.config = _
    rw [hj₂, hj₁]
    rfl
  have hholds : Holds sha256 Strict d₅ j₅ es lost n := by
    refine hkept₃.holds_loaded hkept₅ ?_ ?_ hlookup hepochs
    . rw [hchain₅, hd₃, hd₁]
      rfl
    . rw [hgaps₅, hd₃]
      rfl
  apply Durable.Spec.bind
  apply Durable.Spec.of_wp
  apply Durable.Wp.ofExcept hseq
  apply Durable.Spec.bind
  apply Durable.Spec.of_wp
  apply Durable.Wp.ofExcept hroot
  apply Durable.Spec.bind
  apply Durable.Spec.of_wp
  apply Durable.Wp.modifyMem
  have hholds₆ : Holds sha256 Strict d₅ { j₅ with lastSeq := seq, ackedThrough := root } es lost n := hholds.congr rfl rfl
  have hrecover := hholds₆.spec_recoverEpochs hn fun i e he => ?_
  . refine hrecover.mono (fun _ _ _ hrunning => hrunning) fun d' _ ⟨hneg, hkept⟩ => ⟨?_, hkept⟩
    rw [← hconfig]
    exact hneg
  . rw [show ({ j₅ with lastSeq := seq, ackedThrough := root } : Journal).epochs = _ from hepochs] at he
    apply acked_loaded _ _ _ _ _ he

/- Sealing. -/

/-- Root statements leave the chain, the gaps, the acknowledged state and the data alone. -/
abbrev KeepsEpochs {α : Type} (p : Op α) : Prop :=
  Durable.Frames (fun d : Disk => (d.chain, d.gaps, d.acks, d.data)) (fun j : Journal => (j.config, j.epochs)) p

theorem keepsEpochs_signer (signer : Option RootSigner)
    : KeepsEpochs (Durable.modifyMem fun j => { j with signer := signer }) := by
  apply Durable.Frames.modifyMem
  intro j
  rfl

theorem keepsEpochs_sign (key : InstanceKey) (root : Json.Str) (leaves : ℕ) (now : Json.Str)
    : KeepsEpochs (sign sha256 key root leaves now) := by
  have hopen : KeepsEpochs (openSigner sha256) := by
    unfold openSigner
    apply Durable.Frames.bind .getMem
    intro j
    split
    . apply Durable.Frames.pure
    . apply Durable.Frames.bind .getDisk
      intro d
      apply Durable.Frames.bind (.ofExcept _)
      intro opened
      dsimp only
      split
      . apply Durable.Frames.pure
      . apply Durable.Frames.bind _ fun _ => .pure _
        apply Durable.Frames.writeAtomic
        intro d
        rfl
  have happend (statement : Obj) : KeepsEpochs (appendLine .roots statement) := by
    unfold appendLine
    apply Durable.Frames.bind (.ofExcept _)
    intro line
    apply Durable.Frames.write
    . intro d
      rfl
    . rintro d x ⟨p, -, rfl⟩
      rfl
  unfold sign
  apply Durable.Frames.bind hopen
  intro signer
  apply Durable.Frames.bind (keepsEpochs_signer _)
  intro _
  apply Durable.Frames.bind (.ofExcept _)
  intro statement
  apply Durable.Frames.bind (happend _)
  intro _
  apply Durable.Frames.bind (.ofExcept _) fun _ => keepsEpochs_signer _

theorem Running.congr (h : Running sha256 Strict d j es lost n) {d' : Disk} {j' : Journal}
    (hd : (d'.chain, d'.gaps, d'.acks, d'.data) = (d.chain, d.gaps, d.acks, d.data)) (hj : j'.epochs = j.epochs)
    : Running sha256 Strict d' j' es lost n := by
  refine ⟨h.toHolds.congr hd hj, ?_, ?_⟩
  . unfold Acked
    rw [hj]
    exact h.acked
  . unfold Dropped
    rw [hj]
    exact h.dropped

/-- The epoch that a journal seals next. -/
def Sealed.toEpoch (s : Sealed) (id : ℕ) : Epoch :=
  ⟨id, blocksObj s.blocks, s.merkleRoot, s.chainedRoot, false, false⟩

/-- The disk once the data of the next epoch is written. -/
theorem Kept.write (h : Kept sha256 Strict d es lost n) (t : Text)
    : Kept sha256 Strict { d with data := Dict.set d.data es.length t } es lost n := by
  refine ⟨h.linked, h.chain, h.gaps, h.acks, h.within, fun i s hs => ?_⟩
  have hi := (List.getElem?_eq_some_iff.mp hs).1
  rw [Dict.lookup_set_of_ne _ _ (by omega)]
  apply h.data i s hs

theorem Kept.seal (h : Kept sha256 Strict d es lost n) {s : Sealed} (hcommit : commit sha256 s.blocks = .ok s.merkleRoot)
    (hchained : chainRoot sha256 (lastRoot [] es) s.merkleRoot = .ok s.chainedRoot) {t : Text}
    (ht : Torn recordCodec t (chainLines sha256 0 (es ++ [s])))
    : Kept sha256 Strict { d with data := Dict.set d.data es.length s.data, chain := t } (es ++ [s]) lost n := by
  refine ⟨(linked_append sha256 _ _ _).mpr ⟨h.linked, hcommit, hchained⟩, ht, h.gaps, h.acks.append s, fun i hi => ?_,
    fun i s' hs' => ?_⟩
  . have := h.within i hi
    rw [List.length_append, List.length_singleton]
    omega
  . rcases Nat.lt_trichotomy i es.length with hlt | rfl | hgt
    . rw [List.getElem?_append_left hlt] at hs'
      rw [Dict.lookup_set_of_ne _ _ (by omega)]
      apply h.data i s' hs'
    . rw [List.getElem?_concat_length] at hs'
      cases hs'
      exact .inl (Dict.lookup_set_self _ _ _)
    . have hlength := (List.getElem?_eq_some_iff.mp hs').1
      rw [List.length_append, List.length_singleton] at hlength
      omega

theorem Running.seal (h : Running sha256 Strict d j es lost n) {s : Sealed}
    (hcommit : commit sha256 s.blocks = .ok s.merkleRoot)
    (hchained : chainRoot sha256 (lastRoot [] es) s.merkleRoot = .ok s.chainedRoot)
    : Running sha256 Strict
        { d with data := Dict.set d.data es.length s.data, chain := text recordCodec (chainLines sha256 0 (es ++ [s])) }
        { j with epochs := j.epochs ++ [s.toEpoch es.length] } (es ++ [s]) lost n := by
  have hepoch {i : ℕ} {e : Epoch} (he : (j.epochs ++ [s.toEpoch es.length])[i]? = some e)
      : j.epochs[i]? = some e ∨ i = es.length ∧ e = s.toEpoch es.length := by
    rcases Nat.lt_trichotomy i j.epochs.length with hlt | heq | hgt
    . rw [List.getElem?_append_left hlt] at he
      exact .inl he
    . rw [heq, List.getElem?_concat_length] at he
      exact .inr ⟨heq.trans h.length, (Option.some.inj he).symm⟩
    . have hlength := (List.getElem?_eq_some_iff.mp he).1
      rw [List.length_append, List.length_singleton] at hlength
      omega
  refine ⟨⟨h.kept.seal hcommit hchained (torn_text _), rfl, h.gaps, ?_, fun i e s' he hs' => ?_⟩, fun hstrict i e he => ?_,
    fun hstrict i e he hi => ?_⟩
  . rw [List.length_append, List.length_append, h.length]
    rfl
  . rcases hepoch he with he | ⟨rfl, rfl⟩
    . rcases h.sealed he with ⟨_, -, hi⟩
      rw [List.getElem?_append_left hi] at hs'
      have hback := h.backs i e s' he hs'
      refine ⟨hback.id, hback.merkleRoot, hback.chainedRoot, ?_⟩
      rw [Dict.lookup_set_of_ne _ _ (by omega)]
      exact hback.blocks
    . rw [List.getElem?_concat_length] at hs'
      cases hs'
      exact ⟨rfl, rfl, rfl, .inl ⟨rfl, Dict.lookup_set_self _ _ _⟩⟩
  . rcases hepoch he with he | ⟨rfl, rfl⟩
    . apply h.acked hstrict i e he
    . refine ⟨fun hacked => ?_, fun hlt => ?_⟩
      . cases hacked
      . have := h.kept.acks.le_length
        omega
  . rcases hepoch he with he | ⟨rfl, rfl⟩
    . apply h.dropped hstrict i e he hi
    . exact absurd (h.kept.within _ hi) (Nat.lt_irrefl _)

theorem lastRoot_hex {prev : Json.Str} (hprev : ∃ data, prev = hex data) (h : Linked sha256 prev es)
    : ∃ data, lastRoot prev es = hex data := by
  cases hlast : es.getLast? with
  | none =>
    rw [lastRoot, hlast]
    exact hprev
  | some s =>
    rw [lastRoot, hlast]
    apply linked_hex h s (List.mem_of_getLast? hlast)

theorem Holds.lastRoot (h : Holds sha256 Strict d j es lost n)
    : (j.epochs.getLast?.map Epoch.chainedRoot).getD [] = EpochJournal.lastRoot [] es := by
  have hroots := congrArg List.getLast? h.roots
  rw [List.getLast?_map, List.getLast?_map] at hroots
  rw [hroots, EpochJournal.lastRoot]

/-- The line of the chain: wherever power is lost, it is there whole or not at all, or the disk is not clean. -/
theorem Running.wp_chainLine (h : Running sha256 Strict d j es lost n) {s : Sealed}
    (hcommit : commit sha256 s.blocks = .ok s.merkleRoot)
    (hchained : chainRoot sha256 (EpochJournal.lastRoot [] es) s.merkleRoot = .ok s.chainedRoot)
    : Durable.Wp
        (appendLine .chain (chainRecord es.length s.merkleRoot s.chainedRoot (dataDigest sha256 s.data) s.data.length))
        (Keeps sha256 Strict es)
        (fun _ d' j' => Running sha256 Strict d' { j with epochs := j.epochs ++ [s.toEpoch es.length] } (es ++ [s]) lost n ∧
          j' = j) { d with data := Dict.set d.data es.length s.data } j := by
  have hwritten := h.kept.write s.data
  have hnew : d.chain ++ (recordCodec.line (s.line sha256 es.length) ++ ['\n'])
      = text recordCodec (chainLines sha256 0 (es ++ [s])) := by
    rw [h.chain, chainLines_append, text_append, text_singleton, Nat.zero_add]
  have hafter := h.seal hcommit hchained
  unfold appendLine
  apply Durable.Wp.bind
  apply Durable.Wp.ofExcept (a := recordCodec.line (s.line sha256 es.length))
  . rw [show dumpsSorted (chainRecord es.length _ _ _ _) = some _ from (s.line sha256 es.length).dumpsSorted]
    rfl
  have hsealed : Running sha256 Strict
      (({ d with data := Dict.set d.data es.length s.data } : Disk).append .chain
        (recordCodec.line (s.line sha256 es.length) ++ ['\n']))
      { j with epochs := j.epochs ++ [s.toEpoch es.length] } (es ++ [s]) lost n := by
    refine hafter.congr ?_ rfl
    show (d.chain ++ _, _, _, _) = _
    rw [hnew]
    rfl
  apply Durable.Wp.write hwritten.keeps
  . intro _
    exact ⟨es ++ [s], lost, n, List.prefix_append _ _, hsealed.kept⟩
  . rintro x ⟨p, hp, rfl⟩ hclean
    have hchain := hclean.1
    change Clean loads (d.chain ++ p) at hchain
    rw [h.chain] at hchain
    rcases @torn_append _ _ recordCodec _ _ (s.line sha256 es.length) hp hchain with htorn | hwhole
    . refine ⟨es, lost, n, List.prefix_rfl, ⟨hwritten.linked, ?_, hwritten.gaps, hwritten.acks, hwritten.within,
        hwritten.data⟩⟩
      show Torn recordCodec (d.chain ++ p) _
      rw [h.chain]
      exact htorn
    . have hkept := h.kept.seal hcommit hchained (torn_text _)
      refine ⟨es ++ [s], lost, n, List.prefix_append _ _, ⟨hkept.linked, ?_, hkept.gaps, hkept.acks, hkept.within,
        hkept.data⟩⟩
      show Torn recordCodec (d.chain ++ p) _
      rw [h.chain, hwhole, chainLines_append, Nat.zero_add]
      apply torn_text
  . exact ⟨hsealed, rfl⟩

/-- The caps, behind the sealing of an epoch. -/
theorem Running.spec_sealed {es' : List Sealed} (h : Running sha256 Strict d j es' lost n) (hes : es <+: es') (epoch : Epoch)
    : Durable.Spec (do enforceCaps; return epoch) (Keeps sha256 Strict es)
        (fun e d' j' => e = epoch ∧ ∃ lost', Running sha256 Strict d' j' es' lost' n)
        (fun d' j' => ∃ es' lost', es <+: es' ∧ Running sha256 Strict d' j' es' lost' n) d j := by
  apply Durable.Spec.bind
  refine (h.spec_enforceCaps.weaken fun x hx hclean => ?_).mono (fun _ d' j' ⟨lost', hrunning, _⟩ => ?_)
    fun d' j' ⟨_, lost', hrunning⟩ => ⟨es', lost', hes, hrunning⟩
  . rcases hx hclean with ⟨es'', lost', n', hprefix, hkept⟩
    exact ⟨es'', lost', n', hes.trans hprefix, hkept⟩
  . apply Durable.Spec.pure
    exact ⟨rfl, lost', hrunning⟩

/-- Sealing puts one epoch behind those there are, or none. -/
theorem Running.spec_seal (h : Running sha256 Strict d j es lost n) (bits now : Json.Str)
    : Durable.Spec (EpochJournal.seal sha256 bits now) (Keeps sha256 Strict es)
        (fun e d' j' => ∃ s lost', e = s.toEpoch es.length ∧ Running sha256 Strict d' j' (es ++ [s]) lost' n)
        (fun d' j' => ∃ es' lost', es <+: es' ∧ Running sha256 Strict d' j' es' lost' n) d j := by
  unfold EpochJournal.seal
  apply Durable.Spec.bind
  apply Durable.Spec.of_wp
  apply Durable.Wp.getMem
  apply Durable.Spec.bind
  refine .ofExcept (fun blocks _ => ?_) ⟨es, lost, List.prefix_rfl, h⟩
  apply Durable.Spec.bind
  refine .ofExcept (fun merkleRoot hcommit => ?_) ⟨es, lost, List.prefix_rfl, h⟩
  rcases chainRoot_ok sha256 (lastRoot_hex ⟨[], rfl⟩ h.kept.linked) (commit_cases sha256 hcommit).2 with ⟨data, hchained⟩
  let s : Sealed := ⟨blocks, merkleRoot, hex data⟩
  have hwritten := h.kept.write s.data
  simp only [h.length, h.lastRoot]
  apply Durable.Spec.bind
  apply Durable.Spec.of_wp
  apply Durable.Wp.writeAtomic h.kept.keeps hwritten.keeps
  apply Durable.Spec.bind
  apply Durable.Spec.of_wp
  apply Durable.Wp.ofExcept hchained
  apply Durable.Spec.bind
  apply Durable.Spec.of_wp
  refine (h.wp_chainLine (s := s) hcommit hchained).mono (fun _ hx => hx) fun _ d₁ j₁ ⟨hrunning, hj₁⟩ => ?_
  subst hj₁
  apply Durable.Spec.bind
  apply Durable.Spec.of_wp
  apply Durable.Wp.modifyMem
  have hprefix : es <+: es ++ [s] := List.prefix_append _ _
  have hdone : ∀ d₂ j₂, Running sha256 Strict d₂ j₂ (es ++ [s]) lost n →
      Durable.Spec (do enforceCaps; return s.toEpoch es.length) (Keeps sha256 Strict es)
        (fun e d' j' => ∃ s lost', e = s.toEpoch es.length ∧ Running sha256 Strict d' j' (es ++ [s]) lost' n)
        (fun d' j' => ∃ es' lost', es <+: es' ∧ Running sha256 Strict d' j' es' lost' n) d₂ j₂ := by
    intro d₂ j₂ hrunning₂
    refine (hrunning₂.spec_sealed hprefix (s.toEpoch es.length)).mono (fun e d' j' ⟨he, lost', hrunning'⟩ => ?_)
      fun _ _ hraised => hraised
    exact ⟨s, lost', he, hrunning'⟩
  split
  . apply hdone _ _ hrunning
  . apply Durable.Spec.bind
    refine Durable.Spec.of_frames (keepsEpochs_sign _ _ _ _) (fun x hx _ => ?_) (fun _ d' j' hd hj => ?_) fun d' j' hd hj => ?_
    . refine ⟨es ++ [s], lost, n, hprefix, (hrunning.congr hx rfl).kept⟩
    . apply hdone _ _ (hrunning.congr hd (congrArg Prod.snd hj))
    . exact ⟨es ++ [s], lost, hprefix, hrunning.congr hd (congrArg Prod.snd hj)⟩

/- The chain that a journal shows. -/

/-- `chain()` -/
def Journal.chain (j : Journal) : List Json.Str :=
  j.epochs.map Epoch.chainedRoot

def verifyFrom (sha256 : Bytes → Bytes) : Json.Str → List Epoch → Except Error Bool
  | _, [] => .ok true
  | prev, e :: rest => do
    if e.chainedRoot ≠ (← chainRoot sha256 prev e.merkleRoot) then
      return false
    else
      verifyFrom sha256 e.chainedRoot rest

/-- `verify_chain()` -/
def Journal.verifyChain (sha256 : Bytes → Bytes) (j : Journal) : Except Error Bool :=
  verifyFrom sha256 [] j.epochs

section Receiver

variable (hmac : Bytes → Bytes → Bytes) (secret : Bytes)

theorem Running.spec_onAck (h : Running sha256 Strict d j es lost n) {root : Json.Str} {seq : ℤ} {tag : Json.Str}
    (hforward : Strict → Fresh hmac secret j root seq tag → Forward j root)
    : Durable.Spec (onAck hmac secret root seq tag) (Keeps sha256 Strict es)
        (fun _ d' j' => ∃ n', Running sha256 Strict d' j' es lost n') (fun d' j' => Running sha256 Strict d' j' es lost n)
        d j := by
  by_cases hfresh : Fresh hmac secret j root seq tag
  . have hack : Durable.Spec (do return .ok (← ack root seq) : Op AckResult) (Keeps sha256 Strict es)
        (fun _ d' j' => ∃ n', Running sha256 Strict d' j' es lost n') (fun d' j' => Running sha256 Strict d' j' es lost n)
        d j := by
      apply Durable.Spec.bind
      apply Durable.Spec.of_wp
      refine (h.wp_ack (fun hstrict => hforward hstrict hfresh) seq).mono (fun _ hx => hx) ?_
      rintro _ d' j' ⟨n', hrunning, _⟩
      apply Durable.Spec.pure
      exact ⟨n', hrunning⟩
    rw [Durable.Spec, onAck_of_fresh hmac secret hfresh]
    exact hack
  . rcases onAck_of_not_fresh hmac secret (d := d) hfresh with ⟨hcuts, hdisk, hmem, _⟩
    rw [Durable.Spec, hcuts, hdisk, hmem]
    refine ⟨fun _ hx => hx.elim, ?_⟩
    split
    . exact ⟨n, h⟩
    . exact h

/- Runs. -/

/-- No frame that is accepted names an epoch in front of one that is already acknowledged. -/
def Advances (w : World) : Event → Prop
  | .ack root seq tag => ∀ j, w.process = some j → Fresh hmac secret j root seq tag → Forward j root
  | _ => True

/-- An event, or a loss of power that leaves no record at the end of a file without its newline. -/
def Leads (sha256 : Bytes → Bytes) (P : World → Event → Prop) (w w' : World) : Prop :=
  ∃ event, P w event ∧ Next sha256 hmac secret w event w' ∧ CleanDisk w'.disk

abbrev Runs (sha256 : Bytes → Bytes) (P : World → Event → Prop) : World → World → Prop :=
  Relation.ReflTransGen (Leads hmac secret sha256 P)

/-- The disk, and the journal where one runs, keep the epochs. -/
def World.Keeps (sha256 : Bytes → Bytes) (Strict : Prop) (w : World) (es : List Sealed) : Prop :=
  ∃ lost n, match w.process with
    | none => Kept sha256 Strict w.disk es lost n
    | some j => Running sha256 Strict w.disk j es lost n

theorem World.Keeps.kept {w : World} (h : w.Keeps sha256 Strict es) : ∃ lost n, Kept sha256 Strict w.disk es lost n := by
  rcases h with ⟨lost, n, h⟩
  split at h
  . exact ⟨lost, n, h⟩
  . exact ⟨lost, n, h.kept⟩

theorem World.Keeps.running {w : World} (h : w.Keeps sha256 Strict es) (hj : w.process = some j)
    : ∃ lost n, Running sha256 Strict w.disk j es lost n := by
  rcases h with ⟨lost, n, h⟩
  rw [hj] at h
  exact ⟨lost, n, h⟩

theorem keeps_stopped {x : Disk} {accepted : List ℤ} (hclean : CleanDisk x)
    (hx : Keeps sha256 Strict es x)
    : ∃ es', es <+: es' ∧ World.Keeps sha256 Strict ⟨x, none, accepted⟩ es' := by
  rcases hx hclean with ⟨es', lost, n, hprefix, hkept⟩
  exact ⟨es', hprefix, lost, n, hkept⟩

/-- The chain only grows. -/
theorem World.Keeps.next {P : World → Event → Prop} (hP : Strict → P = Advances hmac secret) {w w' : World}
    (h : w.Keeps sha256 Strict es) (hnext : Leads hmac secret sha256 P w w')
    : ∃ es', es <+: es' ∧ w'.Keeps sha256 Strict es' := by
  rcases hnext with ⟨event, hevent, hnext, hclean⟩
  have hadvances : Strict → Advances hmac secret w event := by
    intro hstrict
    rw [hP hstrict] at hevent
    exact hevent
  cases hnext with
  | start config ho =>
    rcases h.kept with ⟨lost, n, hkept⟩
    have ⟨_, hpost⟩ := hkept.spec_start (j := .fresh config) config
    rw [ho] at hpost
    split at hpost
    . next u hexit =>
      rcases hpost with ⟨lost', hrunning⟩
      refine ⟨es, List.prefix_rfl, lost', n, ?_⟩
      rw [hexit]
      exact hrunning
    . next e hexit =>
      rcases hpost with ⟨_, lost', hkept'⟩
      refine ⟨es, List.prefix_rfl, lost', n, ?_⟩
      rw [hexit]
      exact hkept'
  | startCut config hx =>
    rcases h.kept with ⟨lost, n, hkept⟩
    have ⟨hcuts, _⟩ := hkept.spec_start (j := .fresh config) config
    exact keeps_stopped hclean (hcuts _ hx)
  | @«seal» j hj bits now o ho =>
    rcases h.running hj with ⟨lost, n, hrunning⟩
    have ⟨_, hpost⟩ := hrunning.spec_seal bits now
    rw [ho] at hpost
    split at hpost
    . rcases hpost with ⟨s, lost', -, hrunning'⟩
      exact ⟨es ++ [s], List.prefix_append _ _, lost', n, hrunning'⟩
    . rcases hpost with ⟨es', lost', hprefix, hrunning'⟩
      exact ⟨es', hprefix, lost', n, hrunning'⟩
  | sealCut hj bits now hx =>
    rcases h.running hj with ⟨lost, n, hrunning⟩
    have ⟨hcuts, _⟩ := hrunning.spec_seal bits now
    exact keeps_stopped hclean (hcuts _ hx)
  | @ack j hj root seq tag o ho =>
    rcases h.running hj with ⟨lost, n, hrunning⟩
    have ⟨_, hpost⟩ := hrunning.spec_onAck hmac secret fun hstrict hfresh => hadvances hstrict j hj hfresh
    rw [ho] at hpost
    split at hpost
    . rcases hpost with ⟨n', hrunning'⟩
      exact ⟨es, List.prefix_rfl, lost, n', hrunning'⟩
    . exact ⟨es, List.prefix_rfl, lost, n, hpost⟩
  | @ackCut j hj root seq tag x hx =>
    rcases h.running hj with ⟨lost, n, hrunning⟩
    have ⟨hcuts, _⟩ := hrunning.spec_onAck hmac secret fun hstrict hfresh => hadvances hstrict j hj hfresh
    exact keeps_stopped hclean (hcuts _ hx)

theorem World.Keeps.run {P : World → Event → Prop} (hP : Strict → P = Advances hmac secret) {w w' : World}
    (h : w.Keeps sha256 Strict es) (hrun : Runs hmac secret sha256 P w w')
    : ∃ es', es <+: es' ∧ w'.Keeps sha256 Strict es' := by
  induction hrun with
  | refl => exact ⟨es, List.prefix_rfl, h⟩
  | tail _ hstep ih =>
    rcases ih with ⟨es₁, hprefix, hkeeps⟩
    rcases hkeeps.next hmac secret hP hstep with ⟨es₂, hprefix', hkeeps'⟩
    exact ⟨es₂, hprefix.trans hprefix', hkeeps'⟩

end Receiver

/- One epoch is sealed. -/

variable (hmac : Bytes → Bytes → Bytes) (secret : Bytes)

end EpochJournal
