import PrismPath.Telemetry.AckRuns

/-!
This module contains what the disk of a journal keeps of the epochs that were sealed, and that a recovery, the retention
caps and an acknowledgment read it back and leave it so, wherever power is lost on the way.
-/

open Python LineFile Epochs RootStatement

namespace EpochJournal

open Obj (recordCodec)

/- Records. -/

/-- A field of a record that was written and read. -/
theorem field_reread {kvs : List (String × Obj)} (hstable : (record kvs).stable = true) {name : String} {v : Obj}
    (hmem : (name, v) ∈ kvs) (hname : Json.join (str name) = str name)
    : (record kvs).reread.field name = .ok v.reread := by
  rcases Obj.reread_dict hstable with ⟨d, hread, hmembers⟩
  have hlookup := hmembers (.str (str name), v) (List.mem_map_of_mem hmem)
  simp only [Key.text, hname] at hlookup
  rw [show (record kvs).reread = .dict d from hread, Obj.field, hlookup]

theorem get_reread {kvs : List (String × Obj)} (hstable : (record kvs).stable = true) {name : String} {v : Obj}
    (hmem : (name, v) ∈ kvs) (hname : Json.join (str name) = str name) (default : Obj)
    : (record kvs).reread.get name default = .ok v.reread := by
  rcases Obj.reread_dict hstable with ⟨d, hread, hmembers⟩
  have hlookup := hmembers (.str (str name), v) (List.mem_map_of_mem hmem)
  simp only [Key.text, hname] at hlookup
  rw [show (record kvs).reread = .dict d from hread, Obj.get, hlookup]
  rfl

theorem reread_int (n : ℤ) : (Obj.int n).reread = .int n := by
  rw [Obj.reread_of_sortedTree rfl]
  apply decode_intTree

theorem reread_str (s : Json.Str) : (Obj.str s).reread = .str (Json.join s) := by
  rw [Obj.reread_of_sortedTree rfl]
  rfl

theorem stable_chainRecord (id : ℕ) (merkleRoot chainedRoot dataSha256 : Json.Str) (dataLength : ℕ)
    : (chainRecord id merkleRoot chainedRoot dataSha256 dataLength).stable = true := by
  apply stable_record
  . show keysStable [Key.str (str "epoch_id"), Key.str (str "merkle_root"), Key.str (str "chained_root"),
      Key.str (str "data_sha256"), Key.str (str "data_length")] = true
    with_unfolding_all decide
  . simp [Obj.stable]

theorem stable_gapRecord (id : ℕ) (reason : String) : (gapRecord id reason).stable = true := by
  apply stable_record
  . show keysStable [Key.str (str "epoch_id"), Key.str (str "reason")] = true
    with_unfolding_all decide
  . simp [Obj.stable]

/- Epochs. -/

/-- An epoch as it was sealed. -/
structure Sealed where
  blocks : List Json.Str
  merkleRoot : Json.Str
  chainedRoot : Json.Str

/-- The text of the epoch's data file. -/
def Sealed.data (s : Sealed) : Text :=
  dumps (blocksObj s.blocks)

variable (sha256 : Bytes → Bytes)

/-- The epoch's line in `chain.jsonl`. -/
def Sealed.line (id : ℕ) (s : Sealed) : Obj.Record :=
  ⟨chainRecord id s.merkleRoot s.chainedRoot (dataDigest sha256 s.data) s.data.length, stable_chainRecord _ _ _ _ _, _, rfl⟩

/-- The line of a lost epoch in `gaps.jsonl`. -/
def gapLine (id : ℕ) : Obj.Record :=
  ⟨gapRecord id "pressure", stable_gapRecord _ _, _, rfl⟩

/-- The lines of epochs, of which the first has the given id. -/
def chainLines : ℕ → List Sealed → List Obj.Record
  | _, [] => []
  | id, s :: rest => s.line sha256 id :: chainLines (id + 1) rest

theorem chainLines_append (id : ℕ) (es : List Sealed) (s : Sealed)
    : chainLines sha256 id (es ++ [s]) = chainLines sha256 id es ++ [s.line sha256 (id + es.length)] := by
  induction es generalizing id with
  | nil => rfl
  | cons e es ih =>
    rw [List.cons_append, chainLines, ih, chainLines, List.cons_append, List.length_cons, Nat.add_right_comm, Nat.add_assoc]

/-- Every epoch is chained to the one before it. -/
def Linked : Json.Str → List Sealed → Prop
  | _, [] => True
  | prev, s :: rest =>
    commit sha256 s.blocks = .ok s.merkleRoot ∧ chainRoot sha256 prev s.merkleRoot = .ok s.chainedRoot ∧
      Linked s.chainedRoot rest

def lastRoot (prev : Json.Str) (es : List Sealed) : Json.Str :=
  (es.getLast?.map Sealed.chainedRoot).getD prev

theorem linked_append (prev : Json.Str) (es : List Sealed) (s : Sealed)
    : Linked sha256 prev (es ++ [s]) ↔
        Linked sha256 prev es ∧ commit sha256 s.blocks = .ok s.merkleRoot ∧
          chainRoot sha256 (lastRoot prev es) s.merkleRoot = .ok s.chainedRoot := by
  induction es generalizing prev with
  | nil => simp [Linked, lastRoot]
  | cons e es ih =>
    have hlast : lastRoot e.chainedRoot es = lastRoot prev (e :: es) := by
      cases es with
      | nil => rfl
      | cons e' es => simp [lastRoot, List.getLast?_cons]
    simp only [List.cons_append, Linked, ih, hlast, and_assoc]

theorem commit_cases {blocks : List Json.Str} {root : Json.Str} (h : commit sha256 blocks = .ok root)
    : (∃ leaves, blocks.mapM (SelfHeal.asciiDigest sha256) = .ok leaves) ∧ ∃ data, root = hex data := by
  unfold commit SelfHeal.commit at h
  cases hleaves : blocks.mapM (SelfHeal.asciiDigest sha256) with
  | error e =>
    rw [hleaves] at h
    cases h
  | ok leaves =>
    refine ⟨⟨leaves, rfl⟩, ?_⟩
    rw [hleaves] at h
    cases hmerkle : LedgerOts.merkleRootAndPaths sha256 leaves with
    | mk data paths =>
      cases data with
      | none =>
        simp only [bind, Except.bind, hmerkle] at h
        cases h
      | some data =>
        simp only [bind, Except.bind, hmerkle] at h
        cases h
        exact ⟨data, rfl⟩

theorem chainRoot_hex {prev merkleRoot root : Json.Str} (h : chainRoot sha256 prev merkleRoot = .ok root)
    : ∃ data, root = hex data := by
  unfold chainRoot at h
  cases hdigest : SelfHeal.asciiDigest sha256 (prev ++ merkleRoot) with
  | error e =>
    rw [hdigest] at h
    cases h
  | ok data =>
    rw [hdigest] at h
    cases h
    exact ⟨data, rfl⟩

/- What is sealed is ASCII. -/

theorem ascii_of_encode {s : Json.Str} {data : Bytes} (h : encodeAscii s = some data) : ∀ c ∈ s, c.val < 128 := by
  intro c hc
  unfold encodeAscii at h
  split at h
  . next hall => simpa using List.all_eq_true.mp hall c hc
  . cases h

theorem ascii_hex (data : Bytes) : ∀ c ∈ hex data, c.val < 128 := by
  have hdigit : ∀ n < 16, (hexDigit n).val < 128 := by decide
  induction data with
  | nil => simp [hex, ofText]
  | cons b data ih =>
    intro c hc
    have hb := b.toNat_lt
    rw [hex_cons, List.mem_cons, List.mem_cons] at hc
    rcases hc with rfl | rfl | hc
    . apply hdigit _ (by omega)
    . apply hdigit _ (by omega)
    . apply ih c hc

theorem join_of_ascii {s : Json.Str} (h : ∀ c ∈ s, c.val < 128) : Json.join s = s := by
  refine Json.join_of_plain fun c hc => ?_
  have := h c hc
  simp only [Json.isHigh, Bool.and_eq_false_iff, decide_eq_false_iff_not]
  omega

/-- The chained root of an epoch behind a root. -/
theorem chainRoot_ok {prev merkleRoot : Json.Str} (hprev : ∃ data, prev = hex data) (hroot : ∃ data, merkleRoot = hex data)
    : ∃ data, chainRoot sha256 prev merkleRoot = .ok (hex data) := by
  rcases hprev with ⟨data, rfl⟩
  rcases hroot with ⟨data', rfl⟩
  have hall : ((hex data ++ hex data').all fun c => c.val < 128) = true := by
    rw [List.all_eq_true]
    intro c hc
    rcases List.mem_append.mp hc with hc | hc
    . simpa using ascii_hex data c hc
    . simpa using ascii_hex data' c hc
  unfold chainRoot SelfHeal.asciiDigest encodeAscii
  rw [if_pos hall]
  exact ⟨_, rfl⟩

theorem blocks_ascii {blocks : List Json.Str} {leaves : List Bytes}
    (h : blocks.mapM (SelfHeal.asciiDigest sha256) = .ok leaves)
    : ∀ b ∈ blocks, Json.join b = b := by
  induction blocks generalizing leaves with
  | nil => simp
  | cons b blocks ih =>
    rw [List.mapM_cons] at h
    cases hdigest : SelfHeal.asciiDigest sha256 b with
    | error e =>
      rw [hdigest] at h
      cases h
    | ok data =>
      cases hrest : blocks.mapM (SelfHeal.asciiDigest sha256) with
      | error e =>
        rw [hdigest, hrest] at h
        cases h
      | ok rest =>
        intro b' hb'
        rcases List.mem_cons.mp hb' with rfl | hb'
        . unfold SelfHeal.asciiDigest at hdigest
          split at hdigest
          . next data hencode => apply join_of_ascii (ascii_of_encode hencode)
          . cases hdigest
        . apply ih hrest b' hb'

/-- The data file of an epoch reads as its blocks. -/
theorem loads_data {s : Sealed} (h : commit sha256 s.blocks = .ok s.merkleRoot)
    : loads s.data = some (blocksObj s.blocks) := by
  rcases (commit_cases sha256 h).1 with ⟨leaves, hleaves⟩
  have hjoin := blocks_ascii sha256 hleaves
  have hread : ∀ bs : List Json.Str, (∀ b ∈ bs, Json.join b = b) → (bs.map Obj.str).map Obj.reload = bs.map Obj.str := by
    intro bs hbs
    rw [List.map_map]
    refine List.map_congr_left fun b hb => ?_
    show Obj.str (Json.join b) = Obj.str b
    rw [hbs b hb]
  rw [Sealed.data, loads_dumps, blocksObj]
  show some (Obj.list (decodeItems (Json.joinItems (Obj.treeItems _)))) = _
  rw [Obj.decodeItems_treeItems, hread _ hjoin]

/- The disk. -/

/-- The acknowledged state names the last of the first `n` epochs. -/
def AckedTo (acks : Option Text) (es : List Sealed) (n : ℕ) : Prop :=
  (acks = none ∧ n = 0) ∨
    ∃ text obj seq root i, acks = some text ∧ loads text = some obj ∧ obj.get "last_seq" (.int (-1)) = .ok (.int seq) ∧
      obj.get "acked_through" .none = .ok (.str root) ∧ (es.findIdx? fun s => s.chainedRoot = root) = some i ∧ n = i + 1

/--
The disk keeps the epochs, of which the first `n` are acknowledged and those at `lost` recorded as lost. Where `Strict`,
an epoch without data is one of these.
-/
structure Kept (Strict : Prop) (d : Disk) (es : List Sealed) (lost : List ℕ) (n : ℕ) : Prop where
  linked : Linked sha256 [] es
  chain : Torn recordCodec d.chain (chainLines sha256 0 es)
  gaps : Torn recordCodec d.gaps (lost.map gapLine)
  acks : AckedTo d.acks es n
  within : ∀ i ∈ lost, i < es.length
  data : ∀ i s, es[i]? = some s →
    d.data.lookup i = some s.data ∨ d.data.lookup i = none ∧ (Strict → i < n ∨ i ∈ lost)

/-- No record stands at the end of `chain.jsonl` or `gaps.jsonl` without its newline. -/
def CleanDisk (d : Disk) : Prop :=
  Clean loads d.chain ∧ Clean loads d.gaps

/-- If it is clean, the disk keeps the epochs, and perhaps more behind them. -/
def Keeps (Strict : Prop) (es : List Sealed) (d : Disk) : Prop :=
  CleanDisk d → ∃ es' lost n, es <+: es' ∧ Kept sha256 Strict d es' lost n

variable {sha256} {Strict : Prop} {d : Disk} {j : Journal} {es : List Sealed} {lost : List ℕ} {n : ℕ}

theorem Kept.keeps (h : Kept sha256 Strict d es lost n) : Keeps sha256 Strict es d :=
  fun _ => ⟨es, lost, n, List.prefix_rfl, h⟩

theorem AckedTo.le_length {acks : Option Text} (h : AckedTo acks es n) : n ≤ es.length := by
  rcases h with ⟨-, rfl⟩ | ⟨_, _, _, _, i, _, _, _, _, hfind, rfl⟩
  . omega
  . have := (List.findIdx?_eq_some_iff_getElem.mp hfind).1
    omega

theorem AckedTo.append {acks : Option Text} (h : AckedTo acks es n) (s : Sealed) : AckedTo acks (es ++ [s]) n := by
  rcases h with h | ⟨text, obj, seq, root, i, htext, hloads, hseq, hroot, hfind, hn⟩
  . exact .inl h
  . refine .inr ⟨text, obj, seq, root, i, htext, hloads, hseq, hroot, ?_, hn⟩
    rw [List.findIdx?_append, hfind]
    rfl

theorem lookup_filter_ne (data : List (ℕ × Text)) (id i : ℕ)
    : (data.filter fun entry => entry.1 ≠ id).lookup i = if i = id then none else data.lookup i := by
  induction data with
  | nil => simp
  | cons entry data ih =>
    rcases entry with ⟨k, text⟩
    by_cases hk : k = id
    . rw [List.filter_cons_of_neg (by simpa using hk), ih, Dict.lookup_cons_eq]
      split
      . rfl
      . next hi => rw [if_neg (by omega)]
    . rw [List.filter_cons_of_pos (by simpa using hk), Dict.lookup_cons_eq, Dict.lookup_cons_eq, ih]
      split
      . next heq => rw [if_neg (by omega)]
      . rfl

/-- The data of an epoch may go that is acknowledged or recorded as lost, and data that is of none. -/
theorem Kept.remove (h : Kept sha256 Strict d es lost n) (id : ℕ) (hwhy : Strict → id < es.length → id < n ∨ id ∈ lost)
    : Kept sha256 Strict { d with data := d.data.filter fun entry => entry.1 ≠ id } es lost n := by
  refine ⟨h.linked, h.chain, h.gaps, h.acks, h.within, fun i s hs => ?_⟩
  have hi := (List.getElem?_eq_some_iff.mp hs).1
  simp only [lookup_filter_ne]
  by_cases heq : i = id
  . right
    rw [if_pos heq]
    exact ⟨rfl, fun hstrict => heq ▸ hwhy hstrict (heq ▸ hi)⟩
  . rw [if_neg heq]
    apply h.data i s hs

/- Reading the log files. -/

theorem setLog_log (d : Disk) (file : LogFile) : d.setLog file (d.log file) = d := by
  cases file <;> rfl

theorem wp_readJsonl {C : Disk → Prop} (file : LogFile) {rs : List Obj.Record} (h : Torn recordCodec (d.log file) rs)
    (hold : C d) (hnew : C (d.setLog file (text recordCodec rs)))
    : Durable.Wp (readJsonl file) C
        (fun records d' j' => records = rs.map (fun r => r.val.reread) ∧ d' = d.setLog file (text recordCodec rs) ∧
          ∃ recovery, j' = { j with recovery }) d j := by
  unfold readJsonl
  apply Durable.Wp.bind
  apply Durable.Wp.getDisk
  rcases h with htext | ⟨r, p, hp, hne, hnil, htext⟩
  . have hread : readRecords loads (rawLines (d.log file)) = some (rs.map fun r => r.val.reread, false) := by
      rw [htext]
      exact @readRecords_whole _ _ recordCodec _ rs (whole_text rs)
    simp only [hread, Bool.false_eq_true, if_false]
    apply Durable.Wp.pure
    refine ⟨rfl, ?_, _, rfl⟩
    rw [← htext, setLog_log]
  . have hcut := readRecords_cut rs hp hne hnil
    rw [← htext] at hcut
    have hread : readRecords loads (rawLines (d.log file)) = some (rs.map fun r => r.val.reread, true) := hcut.1
    simp only [hread, if_true, hcut.2]
    apply Durable.Wp.bind
    apply Durable.Wp.modifyMem
    apply Durable.Wp.bind
    apply Durable.Wp.writeAtomic hold hnew
    apply Durable.Wp.pure
    exact ⟨rfl, rfl, _, rfl⟩

theorem asNat_natCast (id : ℕ) : (Obj.int (id : ℤ)).asNat = .ok id := by
  simp [Obj.asNat]

theorem reread_gapLine (id : ℕ) : (do (← (gapLine id).val.reread.field "epoch_id").asNat) = .ok id := by
  have hfield := field_reread (stable_gapRecord id "pressure") List.mem_cons_self (by with_unfolding_all decide)
  rw [show (gapLine id).val.reread.field "epoch_id" = _ from hfield, reread_int]
  apply asNat_natCast

theorem ids_gapLines (gaps : List ℕ)
    : ((gaps.map gapLine).map fun r => r.val.reread).mapM (fun r => do (← r.field "epoch_id").asNat) = .ok gaps := by
  induction gaps with
  | nil => rfl
  | cons id gaps ih =>
    rw [List.map_cons, List.map_cons, List.mapM_cons, ih, reread_gapLine]
    rfl

/-- The fields of a chain line, as they are read. -/
theorem reread_chainLine (id : ℕ) (s : Sealed)
    : (do (← (s.line sha256 id).val.reread.field "epoch_id").asNat) = .ok id ∧
        (do (← (s.line sha256 id).val.reread.field "merkle_root").asStr) = .ok (Json.join s.merkleRoot) ∧
        (do (← (s.line sha256 id).val.reread.field "chained_root").asStr) = .ok (Json.join s.chainedRoot) ∧
        (do (← (s.line sha256 id).val.reread.field "data_sha256").asStr) = .ok (dataDigest sha256 s.data) ∧
        (do (← (s.line sha256 id).val.reread.field "data_length").asInt) = .ok (s.data.length : ℤ) := by
  have hfield {name : String} {v : Obj}
      (hmem : (name, v) ∈ [("epoch_id", .int id), ("merkle_root", .str s.merkleRoot), ("chained_root", .str s.chainedRoot),
        ("data_sha256", .str (dataDigest sha256 s.data)), ("data_length", .int s.data.length)])
      (hname : Json.join (str name) = str name)
      : (s.line sha256 id).val.reread.field name = .ok v.reread :=
    field_reread (stable_chainRecord _ _ _ _ _) hmem hname
  refine ⟨?_, ?_, ?_, ?_, ?_⟩
  . rw [hfield (.head _) (by with_unfolding_all decide), reread_int]
    apply asNat_natCast
  . rw [hfield (.tail _ (.head _)) (by with_unfolding_all decide), reread_str]
    rfl
  . rw [hfield (.tail _ (.tail _ (.head _))) (by with_unfolding_all decide), reread_str]
    rfl
  . rw [hfield (.tail _ (.tail _ (.tail _ (.head _)))) (by with_unfolding_all decide), reread_str, dataDigest, join_hex]
    rfl
  . rw [hfield (.tail _ (.tail _ (.tail _ (.tail _ (.head _))))) (by with_unfolding_all decide), reread_int]
    rfl

theorem ids_chainLines (id : ℕ) (es : List Sealed)
    : ((chainLines sha256 id es).map fun r => r.val.reread).mapM (fun r => do (← r.field "epoch_id").asNat)
        = .ok (List.range' id es.length) := by
  induction es generalizing id with
  | nil => rfl
  | cons s es ih =>
    rw [chainLines, List.map_cons, List.mapM_cons, ih, (reread_chainLine id s).1]
    rfl

/- Loading the epochs. -/

/-- The epochs as they are loaded, of which the first has the given id. -/
def loaded (data : List (ℕ × Text)) : ℕ → List Sealed → List Epoch
  | _, [] => []
  | id, s :: rest =>
    ⟨id, if (data.lookup id).isSome then blocksObj s.blocks else .none, s.merkleRoot, s.chainedRoot, false, false⟩
      :: loaded data (id + 1) rest

theorem length_loaded (data : List (ℕ × Text)) (id : ℕ) (es : List Sealed) : (loaded data id es).length = es.length := by
  induction es generalizing id with
  | nil => rfl
  | cons s es ih => rw [loaded, List.length_cons, ih, List.length_cons]

theorem getElem?_loaded {data : List (ℕ × Text)} {id : ℕ} {es : List Sealed} {i : ℕ} {e : Epoch}
    (h : (loaded data id es)[i]? = some e)
    : ∃ s, es[i]? = some s ∧
        e = ⟨id + i, if (data.lookup (id + i)).isSome then blocksObj s.blocks else .none, s.merkleRoot, s.chainedRoot, false,
          false⟩ := by
  induction es generalizing id i with
  | nil => cases h
  | cons s es ih =>
    cases i with
    | zero =>
      cases h
      exact ⟨s, rfl, rfl⟩
    | succ i =>
      rcases ih h with ⟨s', hs', he⟩
      refine ⟨s', hs', ?_⟩
      rw [he, Nat.add_right_comm, Nat.add_assoc]

/-- Where the data files are those of the epochs, loading writes nothing. -/
theorem wp_loadEpochs {C : Disk → Prop} {prev : Json.Str} {id : ℕ} (hlinked : Linked sha256 prev es)
    (hdata : ∀ i s, es[i]? = some s → d.data.lookup (id + i) = some s.data ∨ d.data.lookup (id + i) = none) (gaps : List ℕ)
    : Durable.Wp (loadEpochs sha256 prev ((chainLines sha256 id es).map fun r => r.val.reread) gaps) C
        (fun gaps' d' j' => gaps' = gaps ∧ d' = d ∧ j' = { j with epochs := j.epochs ++ loaded d.data id es }) d j := by
  induction es generalizing prev id j with
  | nil =>
    unfold chainLines loadEpochs
    apply Durable.Wp.pure
    refine ⟨rfl, rfl, ?_⟩
    rw [loaded, List.append_nil]
  | cons s es ih =>
    rcases hlinked with ⟨hcommit, hchained, hrest⟩
    rcases @reread_chainLine sha256 id s with ⟨hid, hmerkle, hroot, hdigest, hlength⟩
    rcases (commit_cases sha256 hcommit).2 with ⟨data, hhex⟩
    rcases chainRoot_hex sha256 hchained with ⟨data', hhex'⟩
    rw [hhex, join_hex, ← hhex] at hmerkle
    rw [hhex', join_hex, ← hhex'] at hroot
    have hafter : ∀ i s', es[i]? = some s' →
        d.data.lookup (id + 1 + i) = some s'.data ∨ d.data.lookup (id + 1 + i) = none := by
      intro i s' hs'
      rw [Nat.add_assoc, Nat.add_comm 1 i]
      apply hdata (i + 1) s' hs'
    unfold chainLines
    rw [List.map_cons, loadEpochs]
    apply Durable.Wp.bind
    apply Durable.Wp.ofExcept hid
    apply Durable.Wp.bind
    apply Durable.Wp.ofExcept hmerkle
    apply Durable.Wp.bind
    apply Durable.Wp.ofExcept hchained
    apply Durable.Wp.bind
    apply Durable.Wp.ofExcept hroot
    rw [if_neg (by simp)]
    apply Durable.Wp.bind
    apply Durable.Wp.getDisk
    rcases hdata 0 s rfl with hsome | hnone
    . rw [Nat.add_zero] at hsome
      simp only [hsome]
      apply Durable.Wp.bind
      apply Durable.Wp.ofExcept hlength
      apply Durable.Wp.bind
      apply Durable.Wp.ofExcept hdigest
      rw [if_neg (by simp)]
      apply Durable.Wp.bind
      apply Durable.Wp.ofExcept (a := blocksObj s.blocks)
      . rw [loads_data sha256 hcommit]
        rfl
      apply Durable.Wp.bind
      apply Durable.Wp.modifyMem
      refine (ih hrest hafter).mono (fun _ hx => hx) ?_
      rintro gaps' d' j' ⟨hgaps, hd, hj⟩
      refine ⟨hgaps, hd, ?_⟩
      rw [hj, loaded, hsome]
      simp
    . rw [Nat.add_zero] at hnone
      simp only [hnone]
      apply Durable.Wp.bind
      apply Durable.Wp.modifyMem
      refine (ih hrest hafter).mono (fun _ hx => hx) ?_
      rintro gaps' d' j' ⟨hgaps, hd, hj⟩
      refine ⟨hgaps, hd, ?_⟩
      rw [hj, loaded, hnone]
      simp

/-- Only data goes that is of none of the epochs. -/
theorem wp_removeOrphans (h : Kept sha256 Strict d es lost n) {named : List ℕ} (hnamed : ∀ id < es.length, id ∈ named)
    (ids : List ℕ)
    : Durable.Wp (removeOrphans named ids) (Keeps sha256 Strict es)
        (fun _ d' j' => Kept sha256 Strict d' es lost n ∧ d'.chain = d.chain ∧ d'.gaps = d.gaps ∧ d'.acks = d.acks ∧
          (∀ i < es.length, d'.data.lookup i = d.data.lookup i) ∧ ∃ recovery, j' = { j with recovery }) d j := by
  induction ids generalizing d j with
  | nil =>
    apply Durable.Wp.pure
    exact ⟨h, rfl, rfl, rfl, fun _ _ => rfl, _, rfl⟩
  | cons id ids ih =>
    unfold removeOrphans
    split
    . next hid =>
      have hlarge : ¬id < es.length := fun hlt => hid (hnamed id hlt)
      have hremoved := h.remove id (fun _ hlt => absurd hlt hlarge)
      apply Durable.Wp.bind
      apply Durable.Wp.modifyMem
      apply Durable.Wp.bind
      apply Durable.Wp.writeAtomic h.keeps hremoved.keeps
      refine (ih hremoved).mono (fun _ hx => hx) ?_
      rintro _ d' j' ⟨hkept, hchain, hgaps, hacks, hlookup, hj⟩
      refine ⟨hkept, hchain, hgaps, hacks, fun i hi => ?_, hj⟩
      rw [hlookup i hi, lookup_filter_ne, if_neg (by omega)]
    . apply ih h

/- The epochs of a running journal. -/

/-- An epoch in memory: its data is that on the disk, or it has none. -/
structure Backs (Strict : Prop) (d : Disk) (lost : List ℕ) (n i : ℕ) (s : Sealed) (e : Epoch) : Prop where
  id : e.id = i
  merkleRoot : e.merkleRoot = s.merkleRoot
  chainedRoot : e.chainedRoot = s.chainedRoot
  blocks : e.blocks = blocksObj s.blocks ∧ d.data.lookup i = some s.data ∨ e.blocks = .none ∧ (Strict → i < n ∨ i ∈ lost)

/-- What holds of the disk and the memory of a journal while it runs. -/
structure Holds (sha256 : Bytes → Bytes) (Strict : Prop) (d : Disk) (j : Journal) (es : List Sealed) (lost : List ℕ) (n : ℕ)
    : Prop where
  kept : Kept sha256 Strict d es lost n
  chain : d.chain = text recordCodec (chainLines sha256 0 es)
  gaps : d.gaps = text recordCodec (lost.map gapLine)
  length : j.epochs.length = es.length
  backs : ∀ i e s, j.epochs[i]? = some e → es[i]? = some s → Backs Strict d lost n i s e

/-- The first `n` epochs are marked acknowledged, up to those at the positions that are still to come. -/
def Acked (Strict : Prop) (j : Journal) (positions : List ℕ) (n : ℕ) : Prop :=
  Strict → ∀ i e, j.epochs[i]? = some e → (e.acked = true → i < n) ∧ (i < n → e.acked = true ∨ i ∈ positions)

/-- The lost epochs are marked as dropped where they are not acknowledged, up to those that are still to come. -/
def Dropped (Strict : Prop) (j : Journal) (positions lost : List ℕ) : Prop :=
  Strict → ∀ i e, j.epochs[i]? = some e → i ∈ lost →
    e.acked = true ∨ e.droppedUnderPressure = true ∨ i ∈ positions

theorem Holds.sealed (h : Holds sha256 Strict d j es lost n) {i : ℕ} {e : Epoch} (he : j.epochs[i]? = some e)
    : ∃ s, es[i]? = some s ∧ i < es.length := by
  have hi := (List.getElem?_eq_some_iff.mp he).1
  rw [h.length] at hi
  exact ⟨es[i], List.getElem?_eq_getElem hi, hi⟩

theorem Holds.id_eq (h : Holds sha256 Strict d j es lost n) {i : ℕ} {e : Epoch} (he : j.epochs[i]? = some e) : e.id = i := by
  rcases h.sealed he with ⟨s, hs, -⟩
  apply (h.backs i e s he hs).id

/-- What does not concern the disk and the epochs can change. -/
theorem Holds.congr (h : Holds sha256 Strict d j es lost n) {d' : Disk} {j' : Journal}
    (hd : (d'.chain, d'.gaps, d'.acks, d'.data) = (d.chain, d.gaps, d.acks, d.data)) (hj : j'.epochs = j.epochs)
    : Holds sha256 Strict d' j' es lost n := by
  simp only [Prod.mk.injEq] at hd
  rcases hd with ⟨hchain, hgaps, hacks, hdata⟩
  refine ⟨⟨h.kept.linked, hchain ▸ h.kept.chain, hgaps ▸ h.kept.gaps, hacks ▸ h.kept.acks, h.kept.within,
    hdata ▸ h.kept.data⟩,
    hchain ▸ h.chain, hgaps ▸ h.gaps, hj ▸ h.length, fun i e s he hs => ?_⟩
  rw [hj] at he
  have hback := h.backs i e s he hs
  refine ⟨hback.id, hback.merkleRoot, hback.chainedRoot, ?_⟩
  rw [hdata]
  exact hback.blocks

theorem getElem?_modify {α : Type} (l : List α) (i k : ℕ) (f : α → α) {b : α} (h : (l.modify i f)[k]? = some b)
    : ∃ a, l[k]? = some a ∧ b = if i = k then f a else a := by
  rw [List.getElem?_modify] at h
  cases ha : l[k]? with
  | none =>
    rw [ha] at h
    cases h
  | some a =>
    rw [ha] at h
    refine ⟨a, rfl, ?_⟩
    have hb := Option.some.inj h
    rw [← hb]

/-- Marking an epoch leaves what the disk keeps of it. -/
theorem Holds.mark (h : Holds sha256 Strict d j es lost n) (i : ℕ) {f : Epoch → Epoch}
    (hf : ∀ e, (f e).id = e.id ∧ (f e).merkleRoot = e.merkleRoot ∧ (f e).chainedRoot = e.chainedRoot ∧
      (f e).blocks = e.blocks)
    : Holds sha256 Strict d { j with epochs := j.epochs.modify i f } es lost n := by
  refine ⟨h.kept, h.chain, h.gaps, ?_, fun k e s he hs => ?_⟩
  . rw [List.length_modify]
    apply h.length
  . rcases getElem?_modify _ _ _ _ he with ⟨e', he', rfl⟩
    have hback := h.backs k e' s he' hs
    split
    . have ⟨hid, hmerkle, hroot, hblocks⟩ := hf e'
      refine ⟨hid.trans hback.id, hmerkle.trans hback.merkleRoot, hroot.trans hback.chainedRoot, ?_⟩
      rw [hblocks]
      apply hback.blocks
    . exact hback

def dropBlocks (e : Epoch) : Epoch :=
  { e with blocks := .none }

/-- The data of an epoch that is acknowledged or recorded as lost goes from the memory and then from the disk. -/
theorem Holds.wp_drop (h : Holds sha256 Strict d j es lost n) {i : ℕ} {e : Epoch} (he : j.epochs[i]? = some e)
    (hwhy : Strict → i < n ∨ i ∈ lost)
    : Durable.Wp (do setEpoch i dropBlocks; removeData e.id) (Keeps sha256 Strict es)
        (fun _ d' j' => Holds sha256 Strict d' j' es lost n ∧ j' = { j with epochs := j.epochs.modify i dropBlocks })
        d j := by
  have hremoved := h.kept.remove i (fun hstrict _ => hwhy hstrict)
  rw [h.id_eq he]
  apply Durable.Wp.bind
  apply Durable.Wp.modifyMem
  apply Durable.Wp.writeAtomic h.kept.keeps hremoved.keeps
  refine ⟨⟨hremoved, h.chain, h.gaps, ?_, fun k e' s he' hs => ?_⟩, rfl⟩
  . rw [List.length_modify]
    apply h.length
  . rcases getElem?_modify _ _ _ _ he' with ⟨old, hold, rfl⟩
    have hback := h.backs k old s hold hs
    split
    . next heq =>
      refine ⟨hback.id, hback.merkleRoot, hback.chainedRoot, .inr ⟨rfl, ?_⟩⟩
      rw [← heq]
      exact hwhy
    . next hne =>
      refine ⟨hback.id, hback.merkleRoot, hback.chainedRoot, ?_⟩
      rw [lookup_filter_ne, if_neg (by omega)]
      apply hback.blocks

theorem Acked.mark {positions : List ℕ} (h : Acked Strict j positions n) (i : ℕ) {f : Epoch → Epoch}
    (hf : ∀ e, (f e).acked = e.acked)
    : Acked Strict { j with epochs := j.epochs.modify i f } positions n := by
  intro hstrict k e he
  rcases getElem?_modify _ _ _ _ he with ⟨old, hold, rfl⟩
  have hacked := h hstrict k old hold
  split
  . rw [hf]
    exact hacked
  . exact hacked

theorem Dropped.mark {positions : List ℕ} (h : Dropped Strict j positions lost) (i : ℕ) {f : Epoch → Epoch}
    (hf : ∀ e, (e.acked = true → (f e).acked = true) ∧
      (e.droppedUnderPressure = true → (f e).droppedUnderPressure = true))
    : Dropped Strict { j with epochs := j.epochs.modify i f } positions lost := by
  intro hstrict k e he hk
  rcases getElem?_modify _ _ _ _ he with ⟨old, hold, rfl⟩
  have hdropped := h hstrict k old hold hk
  split
  . rcases hdropped with hacked | hmarked | hlater
    . exact .inl ((hf old).1 hacked)
    . exact .inr (.inl ((hf old).2 hmarked))
    . exact .inr (.inr hlater)
  . exact hdropped

/- The retention caps. -/

theorem dumps_gapRecord (id : ℕ) : dumpsSorted (gapRecord id "pressure") = some (recordCodec.line (gapLine id)) :=
  (gapLine id).dumpsSorted

/-- A loss that is recorded before its data goes. -/
theorem Kept.lose (h : Kept sha256 Strict d es lost n) {id : ℕ} (hid : id < es.length) {t : Text}
    (ht : Torn recordCodec t ((lost ++ [id]).map gapLine))
    : Kept sha256 Strict { d with gaps := t } es (lost ++ [id]) n := by
  refine ⟨h.linked, h.chain, ht, h.acks, fun i hi => ?_, fun i s hs => ?_⟩
  . rcases List.mem_append.mp hi with hi | hi
    . apply h.within i hi
    . rw [List.mem_singleton.mp hi]
      exact hid
  rcases h.data i s hs with hdata | ⟨hnone, hwhy⟩
  . exact .inl hdata
  . refine .inr ⟨hnone, fun hstrict => ?_⟩
    rcases hwhy hstrict with hlt | hmem
    . exact .inl hlt
    . exact .inr (List.mem_append_left _ hmem)

/-- Recording a loss: wherever power is lost, the line is there whole or not at all, or the disk is not clean. -/
theorem Holds.wp_lose (h : Holds sha256 Strict d j es lost n) {i : ℕ} (hi : i < es.length)
    : Durable.Wp (appendLine .gaps (gapRecord i "pressure")) (Keeps sha256 Strict es)
        (fun _ d' j' => Holds sha256 Strict d' j es (lost ++ [i]) n ∧ j' = j) d j := by
  have hnew : d.gaps ++ (recordCodec.line (gapLine i) ++ ['\n']) = text recordCodec ((lost ++ [i]).map gapLine) := by
    rw [h.gaps, List.map_append, text_append, List.map_singleton, text_singleton]
  have hafter : Holds sha256 Strict (d.append .gaps (recordCodec.line (gapLine i) ++ ['\n'])) j es (lost ++ [i]) n := by
    have hkept := h.kept.lose hi (@torn_text _ _ recordCodec ((lost ++ [i]).map gapLine))
    rw [← hnew] at hkept
    refine ⟨⟨hkept.linked, hkept.chain, hkept.gaps, hkept.acks, hkept.within, hkept.data⟩, h.chain, hnew, h.length,
      fun k e s he hs => ?_⟩
    have hback := h.backs k e s he hs
    refine ⟨hback.id, hback.merkleRoot, hback.chainedRoot, ?_⟩
    rcases hback.blocks with hdata | ⟨hnone, hwhy⟩
    . exact .inl hdata
    . refine .inr ⟨hnone, fun hstrict => ?_⟩
      rcases hwhy hstrict with hlt | hmem
      . exact .inl hlt
      . exact .inr (List.mem_append_left _ hmem)
  unfold appendLine
  apply Durable.Wp.bind
  apply Durable.Wp.ofExcept (a := recordCodec.line (gapLine i))
  . rw [dumps_gapRecord]
    rfl
  apply Durable.Wp.write h.kept.keeps hafter.kept.keeps
  . rintro x ⟨p, hp, rfl⟩ hclean
    have hgaps := hclean.2
    change Clean loads (d.gaps ++ p) at hgaps
    rw [h.gaps] at hgaps
    rcases @torn_append _ _ recordCodec _ _ (gapLine i) hp hgaps with htorn | hwhole
    . refine ⟨es, lost, n, List.prefix_rfl, ⟨h.kept.linked, h.kept.chain, ?_, h.kept.acks, h.kept.within, h.kept.data⟩⟩
      show Torn recordCodec (d.gaps ++ p) _
      rw [h.gaps]
      exact htorn
    . have hkept := h.kept.lose hi (@torn_text _ _ recordCodec ((lost ++ [i]).map gapLine))
      refine ⟨es, lost ++ [i], n, List.prefix_rfl, ⟨hkept.linked, hkept.chain, ?_, hkept.acks, hkept.within, hkept.data⟩⟩
      show Torn recordCodec (d.gaps ++ p) _
      rw [h.gaps, hwhole, List.map_append]
      apply torn_text
  . exact ⟨hafter, rfl⟩

/-- What holds between the calls of a running journal. -/
structure Running (sha256 : Bytes → Bytes) (Strict : Prop) (d : Disk) (j : Journal) (es : List Sealed) (lost : List ℕ)
    (n : ℕ) : Prop extends Holds sha256 Strict d j es lost n where
  acked : Acked Strict j [] n
  dropped : Dropped Strict j [] lost

def markDropped (e : Epoch) : Epoch :=
  { e with droppedUnderPressure := true }

theorem Running.wp_drop (h : Running sha256 Strict d j es lost n) {i : ℕ} {e : Epoch} (he : j.epochs[i]? = some e)
    (hwhy : Strict → i < n ∨ i ∈ lost)
    : Durable.Wp (do setEpoch i dropBlocks; removeData e.id) (Keeps sha256 Strict es)
        (fun _ d' j' => Running sha256 Strict d' j' es lost n ∧ j'.config = j.config) d j := by
  refine (h.toHolds.wp_drop he hwhy).mono (fun _ hx => hx) fun _ d' j' ⟨hholds, hj⟩ => ?_
  rw [hj] at hholds ⊢
  exact ⟨⟨hholds, h.acked.mark i fun _ => rfl, h.dropped.mark i fun _ => ⟨id, id⟩⟩, rfl⟩

theorem Running.wp_dropUnderPressure (h : Running sha256 Strict d j es lost n) (i : ℕ)
    : Durable.Wp (dropUnderPressure i) (Keeps sha256 Strict es)
        (fun _ d' j' => ∃ lost', Running sha256 Strict d' j' es lost' n ∧ j'.config = j.config) d j := by
  unfold dropUnderPressure
  apply Durable.Wp.bind
  apply Durable.Wp.getMem
  split
  . apply Durable.Wp.pure
    exact ⟨lost, h, rfl⟩
  . next e he =>
    have hid := h.id_eq he
    split
    . rw [hid]
      apply Durable.Wp.bind
      rcases h.sealed he with ⟨_, -, hi⟩
      refine (h.wp_lose hi).mono (fun _ hx => hx) fun _ d₁ j₁ ⟨hlose, hj₁⟩ => ?_
      subst hj₁
      apply Durable.Wp.bind
      apply Durable.Wp.modifyMem
      have hmarked : Running sha256 Strict d₁ { j₁ with epochs := j₁.epochs.modify i markDropped } es (lost ++ [i]) n := by
        refine ⟨hlose.mark i fun _ => ⟨rfl, rfl, rfl, rfl⟩, h.acked.mark i fun _ => rfl, fun hstrict k e' he' hk => ?_⟩
        rcases getElem?_modify _ _ _ _ he' with ⟨old, hold, rfl⟩
        split
        . exact .inr (.inl rfl)
        . next hne =>
          rcases List.mem_append.mp hk with hk | hk
          . apply h.dropped hstrict k old hold hk
          . rw [List.mem_singleton] at hk
            omega
      have he' : (j₁.epochs.modify i markDropped)[i]? = some (markDropped e) := by
        rw [List.getElem?_modify, he]
        simp
      have hdrop := hmarked.wp_drop he' fun _ => .inr (by simp)
      rw [show (markDropped e).id = i from hid] at hdrop
      refine hdrop.mono (fun _ hx => hx) fun _ d' j' ⟨hrunning, hj'⟩ => ⟨lost ++ [i], hrunning, hj'⟩
    . next hacked =>
      rw [Bool.not_eq_true', Bool.not_eq_false] at hacked
      refine (h.wp_drop he fun hstrict => ?_).mono (fun _ hx => hx) fun _ d' j' ⟨hrunning, hj'⟩ => ⟨lost, hrunning, hj'⟩
      exact .inl ((h.acked hstrict i e he).1 hacked)

theorem Running.spec_enforceCount (h : Running sha256 Strict d j es lost n) (maxDataEpochs : ℤ) (positions : List ℕ)
    : Durable.Spec (enforceCount maxDataEpochs positions) (Keeps sha256 Strict es)
        (fun _ d' j' => ∃ lost', Running sha256 Strict d' j' es lost' n ∧ j'.config = j.config)
        (fun d' j' => maxDataEpochs < 0 ∧ ∃ lost', Running sha256 Strict d' j' es lost' n) d j := by
  induction positions generalizing d j lost with
  | nil =>
    unfold enforceCount
    split
    . next hneg =>
      apply Durable.Spec.raise
      exact ⟨hneg, lost, h⟩
    . apply Durable.Spec.pure
      exact ⟨lost, h, rfl⟩
  | cons i rest ih =>
    unfold enforceCount
    split
    . apply Durable.Spec.bind
      apply Durable.Spec.of_wp
      refine (h.wp_dropUnderPressure i).mono (fun _ hx => hx) ?_
      rintro _ d₁ j₁ ⟨lost₁, hrunning, hj₁⟩
      refine (ih hrunning).mono ?_ fun _ _ hraised => hraised
      rintro _ d' j' ⟨lost', hrunning', hj'⟩
      exact ⟨lost', hrunning', hj'.trans hj₁⟩
    . apply Durable.Spec.pure
      exact ⟨lost, h, rfl⟩

theorem Running.wp_enforceBytes (h : Running sha256 Strict d j es lost n) (maxBytes : ℤ) (positions : List ℕ)
    : Durable.Wp (enforceBytes maxBytes positions) (Keeps sha256 Strict es)
        (fun _ d' j' => ∃ lost', Running sha256 Strict d' j' es lost' n ∧ j'.config = j.config) d j := by
  induction positions generalizing d j lost with
  | nil =>
    apply Durable.Wp.pure
    exact ⟨lost, h, rfl⟩
  | cons i rest ih =>
    unfold enforceBytes
    apply Durable.Wp.bind
    apply Durable.Wp.getMem
    apply Durable.Wp.bind
    apply Durable.Wp.getDisk
    split
    . apply Durable.Wp.bind
      refine (h.wp_dropUnderPressure i).mono (fun _ hx => hx) ?_
      rintro _ d₁ j₁ ⟨lost₁, hrunning, hj₁⟩
      refine (ih hrunning).mono (fun _ hx => hx) ?_
      rintro _ d' j' ⟨lost', hrunning', hj'⟩
      exact ⟨lost', hrunning', hj'.trans hj₁⟩
    . apply Durable.Wp.pure
      exact ⟨lost, h, rfl⟩

/-- The caps raise only where fewer than no epochs may hold data. -/
theorem Running.spec_enforceCaps (h : Running sha256 Strict d j es lost n)
    : Durable.Spec enforceCaps (Keeps sha256 Strict es)
        (fun _ d' j' => ∃ lost', Running sha256 Strict d' j' es lost' n ∧ j'.config = j.config)
        (fun d' j' => j.config.maxDataEpochs < 0 ∧ ∃ lost', Running sha256 Strict d' j' es lost' n) d j := by
  unfold enforceCaps
  apply Durable.Spec.bind
  apply Durable.Spec.of_wp
  apply Durable.Wp.getMem
  apply Durable.Spec.bind
  refine (h.spec_enforceCount _ _).mono (fun kept d₁ j₁ ⟨lost₁, hrunning, hj₁⟩ => ?_) fun _ _ hraised => hraised
  split
  . apply Durable.Spec.pure
    exact ⟨lost₁, hrunning, hj₁⟩
  . apply Durable.Spec.of_wp
    refine (hrunning.wp_enforceBytes _ _).mono (fun _ hx => hx) fun _ d' j' ⟨lost', hrunning', hj'⟩ =>
      ⟨lost', hrunning', hj'.trans hj₁⟩

/- Acknowledgment. -/

theorem wp_ackEpochs (h : Holds sha256 Strict d j es lost n) {positions later : List ℕ} (hpositions : ∀ i ∈ positions, i < n)
    (hacked : Acked Strict j positions n) (hdropped : Dropped Strict j later lost)
    : Durable.Wp (ackEpochs positions) (Keeps sha256 Strict es)
        (fun _ d' j' => Holds sha256 Strict d' j' es lost n ∧ Acked Strict j' [] n ∧ Dropped Strict j' later lost ∧
          j'.config = j.config) d j := by
  induction positions generalizing d j with
  | nil =>
    apply Durable.Wp.pure
    exact ⟨h, hacked, hdropped, rfl⟩
  | cons i rest ih =>
    have hrest : ∀ k ∈ rest, k < n := fun k hk => hpositions k (List.mem_cons_of_mem _ hk)
    unfold ackEpochs
    apply Durable.Wp.bind
    apply Durable.Wp.getMem
    split
    . next hnone =>
      refine ih h hrest (fun hstrict k e he => ⟨(hacked hstrict k e he).1, fun hk => ?_⟩) hdropped
      rcases (hacked hstrict k e he).2 hk with hdone | hmem
      . exact .inl hdone
      . rcases List.mem_cons.mp hmem with rfl | hmem
        . rw [hnone] at he
          cases he
        . exact .inr hmem
    . next e he =>
      let markAcked (e : Epoch) : Epoch := { e with acked := true }
      have hmarked := h.mark i (f := markAcked) fun _ => ⟨rfl, rfl, rfl, rfl⟩
      have hdropped' := hdropped.mark i (f := markAcked) fun _ => ⟨fun _ => rfl, id⟩
      have hacked' : Acked Strict { j with epochs := j.epochs.modify i markAcked } rest n := by
        intro hstrict k e' he'
        rcases getElem?_modify _ _ _ _ he' with ⟨old, hold, rfl⟩
        split
        . next heq =>
          refine ⟨fun _ => ?_, fun _ => .inl rfl⟩
          rw [← heq]
          apply hpositions i List.mem_cons_self
        . next hne =>
          refine ⟨(hacked hstrict k old hold).1, fun hk => ?_⟩
          rcases (hacked hstrict k old hold).2 hk with hdone | hmem
          . exact .inl hdone
          . rcases List.mem_cons.mp hmem with heq | hmem
            . exact absurd heq.symm hne
            . exact .inr hmem
      have he' : (j.epochs.modify i markAcked)[i]? = some (markAcked e) := by
        rw [List.getElem?_modify, he]
        simp
      apply Durable.Wp.bind
      apply Durable.Wp.modifyMem
      apply Durable.Wp.bind
      apply Durable.Wp.getDisk
      dsimp only
      split
      . have hdrop := hmarked.wp_drop he' fun _ => .inl (hpositions i List.mem_cons_self)
        have hdone : Durable.Wp
            (do setEpoch i dropBlocks; removeData (markAcked e).id; return e.id :: (← ackEpochs rest) : Op (List ℕ))
            (Keeps sha256 Strict es)
            (fun _ d' j' => Holds sha256 Strict d' j' es lost n ∧ Acked Strict j' [] n ∧ Dropped Strict j' later lost ∧
              j'.config = j.config) d { j with epochs := j.epochs.modify i markAcked } := by
          have hassoc :
              (do setEpoch i dropBlocks; removeData (markAcked e).id; return e.id :: (← ackEpochs rest) : Op (List ℕ))
              = ((do setEpoch i dropBlocks; removeData (markAcked e).id : Op Unit) >>= fun _ => do
                return e.id :: (← ackEpochs rest)) := (Durable.bind_assoc _ _ _).symm
          rw [hassoc]
          apply Durable.Wp.bind
          refine hdrop.mono (fun _ hx => hx) fun _ d₁ j₁ ⟨hholds, hj₁⟩ => ?_
          subst hj₁
          apply Durable.Wp.bind
          refine (ih hholds hrest (hacked'.mark i fun _ => rfl) (hdropped'.mark i fun _ => ⟨id, id⟩)).mono
            (fun _ hx => hx) fun _ d' j' hpost => ?_
          apply Durable.Wp.pure
          exact hpost
        exact hdone
      . refine (ih hmarked hrest hacked' hdropped').mono (fun _ hx => hx) fun _ d' j' hpost => hpost

theorem Holds.roots (h : Holds sha256 Strict d j es lost n)
    : j.epochs.map Epoch.chainedRoot = es.map Sealed.chainedRoot := by
  apply List.ext_getElem?
  intro i
  rw [List.getElem?_map, List.getElem?_map]
  cases he : j.epochs[i]? with
  | none =>
    have hi := List.getElem?_eq_none_iff.mp he
    rw [h.length] at hi
    rw [List.getElem?_eq_none_iff.mpr hi]
    rfl
  | some e =>
    rcases h.sealed he with ⟨s, hs, -⟩
    rw [hs, Option.map_some, Option.map_some, (h.backs i e s he hs).chainedRoot]

/-- A root is found at the same place in the memory as in the chain. -/
theorem Holds.findIdx (h : Holds sha256 Strict d j es lost n) (root : Json.Str)
    : (j.epochs.findIdx? fun e => e.chainedRoot = root) = es.findIdx? fun s => s.chainedRoot = root := by
  have hroots := congrArg (fun roots => roots.findIdx? fun r => decide (r = root)) h.roots
  simpa only [List.findIdx?_map, Function.comp_def] using hroots

theorem wp_applyAckToFiles (h : Holds sha256 Strict d j es lost n) {root : Json.Str} {i : ℕ}
    (hroot : (es.findIdx? fun s => s.chainedRoot = root) = some i) (hn : n = i + 1) {later : List ℕ}
    (hacked : Acked Strict j (List.range n) n) (hdropped : Dropped Strict j later lost)
    : Durable.Wp (applyAckToFiles root) (Keeps sha256 Strict es)
        (fun _ d' j' => Holds sha256 Strict d' j' es lost n ∧ Acked Strict j' [] n ∧ Dropped Strict j' later lost ∧
          j'.config = j.config) d j := by
  unfold applyAckToFiles
  apply Durable.Wp.bind
  apply Durable.Wp.getMem
  rw [h.findIdx, hroot]
  subst hn
  exact wp_ackEpochs h (fun k hk => List.mem_range.mp hk) hacked hdropped

theorem linked_hex {prev : Json.Str} (h : Linked sha256 prev es) : ∀ s ∈ es, ∃ data, s.chainedRoot = hex data := by
  induction es generalizing prev with
  | nil => simp
  | cons s es ih =>
    rw [List.forall_mem_cons]
    exact ⟨chainRoot_hex sha256 h.2.1, ih h.2.2⟩

/-- What is written of an acknowledgment. -/
def ackRecord (root : Json.Str) (seq : ℤ) : Obj :=
  record [("last_seq", .int seq), ("acked_through", .str root)]

theorem stable_ackRecord (root : Json.Str) (seq : ℤ) : (ackRecord root seq).stable = true := by
  apply stable_record
  . show keysStable [Key.str (str "last_seq"), Key.str (str "acked_through")] = true
    with_unfolding_all decide
  . simp [Obj.stable]

theorem ackedTo_ackRecord (hlinked : Linked sha256 [] es) {root : Json.Str} {i : ℕ}
    (hroot : (es.findIdx? fun s => s.chainedRoot = root) = some i) (seq : ℤ)
    : ∃ text, dumpsSorted (ackRecord root seq) = some text ∧ AckedTo (some text) es (i + 1) := by
  have hstable := stable_ackRecord root seq
  rcases List.findIdx?_eq_some_iff_getElem.mp hroot with ⟨hi, hname, -⟩
  rcases linked_hex hlinked es[i] (List.getElem_mem hi) with ⟨data, hhex⟩
  have hjoin : Json.join root = root := by
    rw [← of_decide_eq_true hname, hhex, join_hex]
  let line : Obj.Record := ⟨ackRecord root seq, hstable, _, rfl⟩
  refine ⟨line.line, line.dumpsSorted, .inr ⟨line.line, (ackRecord root seq).reread, seq, root, i, rfl, ?_, ?_, ?_, hroot,
    rfl⟩⟩
  . apply Obj.loads_dumpsSorted line.dumpsSorted
  . have hget := get_reread hstable List.mem_cons_self (by with_unfolding_all decide) (.int (-1))
    rw [reread_int] at hget
    exact hget
  . have hget := get_reread hstable (.tail _ (.head _)) (by with_unfolding_all decide) .none
    rw [reread_str, hjoin] at hget
    exact hget

/-- An acknowledgment that does not go back. -/
def Forward (j : Journal) (root : Json.Str) : Prop :=
  ∀ k, (j.epochs.findIdx? fun e => e.chainedRoot = root) = some k →
    ∀ i e, j.epochs[i]? = some e → e.acked = true → i ≤ k

theorem Running.forward (h : Running sha256 Strict d j es lost n) {root : Json.Str} (hforward : Forward j root) {k : ℕ}
    (hroot : (j.epochs.findIdx? fun e => e.chainedRoot = root) = some k) (hstrict : Strict)
    : n ≤ k + 1 := by
  rcases n with _ | m
  . omega
  . have hm : m < j.epochs.length := by
      have := h.kept.acks.le_length
      have := h.length
      omega
    have hget := List.getElem?_eq_getElem hm
    rcases (h.acked hstrict m _ hget).2 (by omega) with hacked | hmem
    . have := hforward k hroot m _ hget hacked
      omega
    . cases hmem

theorem Running.wp_ack (h : Running sha256 Strict d j es lost n) {root : Json.Str} (hforward : Strict → Forward j root)
    (seq : ℤ)
    : Durable.Wp (ack root seq) (Keeps sha256 Strict es)
        (fun _ d' j' => ∃ n', Running sha256 Strict d' j' es lost n' ∧ j'.config = j.config) d j := by
  unfold ack
  apply Durable.Wp.bind
  apply Durable.Wp.getMem
  cases hfind : j.epochs.findIdx? fun e => e.chainedRoot = root with
  | none =>
    have hany : (j.epochs.any fun e => e.chainedRoot = root) = false := by
      rw [List.findIdx?_eq_none_iff] at hfind
      rw [List.any_eq_false]
      intro e he
      rw [hfind e he]
      simp
    simp only [hany, Bool.not_false, if_true]
    apply Durable.Wp.pure
    exact ⟨n, h, rfl⟩
  | some k =>
    have hany : (j.epochs.any fun e => e.chainedRoot = root) = true := by
      rcases List.findIdx?_eq_some_iff_getElem.mp hfind with ⟨hk, hname, -⟩
      exact List.any_eq_true.mpr ⟨_, List.getElem_mem hk, hname⟩
    have hroot := hfind
    rw [h.findIdx] at hroot
    have hn : Strict → n ≤ k + 1 := fun hstrict => h.forward (hforward hstrict) hfind hstrict
    rcases ackedTo_ackRecord h.kept.linked hroot seq with ⟨text, htext, hacks⟩
    simp only [hany, Bool.not_true, Bool.false_eq_true, if_false]
    apply Durable.Wp.bind
    apply Durable.Wp.ofExcept (a := text)
    . rw [show dumpsSorted (record [("last_seq", .int seq), ("acked_through", .str root)]) = some text from htext]
      rfl
    have hwhy {i : ℕ} (hwhy : Strict → i < n ∨ i ∈ lost) (hstrict : Strict) : i < k + 1 ∨ i ∈ lost := by
      rcases hwhy hstrict with hlt | hmem
      . have := hn hstrict
        exact .inl (by omega)
      . exact .inr hmem
    have hkept : Kept sha256 Strict { d with acks := some text } es lost (k + 1) := by
      refine ⟨h.kept.linked, h.kept.chain, h.kept.gaps, hacks, h.kept.within, fun i s hs => ?_⟩
      rcases h.kept.data i s hs with hdata | ⟨hnone, hlost⟩
      . exact .inl hdata
      . exact .inr ⟨hnone, hwhy hlost⟩
    have hholds : Holds sha256 Strict { d with acks := some text }
        { j with lastSeq := seq, ackedThrough := some root } es lost (k + 1) := by
      refine ⟨hkept, h.chain, h.gaps, h.length, fun i e s he hs => ?_⟩
      have hback := h.backs i e s he hs
      refine ⟨hback.id, hback.merkleRoot, hback.chainedRoot, ?_⟩
      rcases hback.blocks with hdata | ⟨hnone, hlost⟩
      . exact .inl hdata
      . exact .inr ⟨hnone, hwhy hlost⟩
    apply Durable.Wp.bind
    apply Durable.Wp.writeAtomic h.kept.keeps hkept.keeps
    apply Durable.Wp.bind
    apply Durable.Wp.modifyMem
    apply Durable.Wp.bind
    refine (wp_applyAckToFiles hholds hroot rfl (fun hstrict i e he => ⟨fun hacked => ?_, fun hi => ?_⟩)
      h.dropped).mono (fun _ hx => hx) fun _ d' j' ⟨hholds', hacked', hdropped', hconfig⟩ => ?_
    . have hlt := (h.acked hstrict i e he).1 hacked
      have := hn hstrict
      omega
    . exact .inr (List.mem_range.mpr hi)
    . apply Durable.Wp.pure
      exact ⟨k + 1, ⟨hholds', hacked', hdropped'⟩, hconfig⟩

/- Recovery. -/

theorem wp_applyGaps (h : Holds sha256 Strict d j es lost n) {positions : List ℕ} (hacked : Acked Strict j [] n)
    (hdropped : Dropped Strict j positions lost)
    : Durable.Wp (applyGaps lost positions) (Keeps sha256 Strict es)
        (fun _ d' j' => Running sha256 Strict d' j' es lost n ∧ j'.config = j.config) d j := by
  induction positions generalizing d j with
  | nil =>
    apply Durable.Wp.pure
    exact ⟨⟨h, hacked, hdropped⟩, rfl⟩
  | cons i rest ih =>
    unfold applyGaps
    apply Durable.Wp.bind
    apply Durable.Wp.getMem
    split
    . next hnone =>
      refine ih h hacked fun hstrict k e he hk => ?_
      rcases hdropped hstrict k e he hk with hdone | hdone | hmem
      . exact .inl hdone
      . exact .inr (.inl hdone)
      . rcases List.mem_cons.mp hmem with rfl | hmem
        . rw [hnone] at he
          cases he
        . exact .inr (.inr hmem)
    . next e he =>
      have hid := h.id_eq he
      split
      . next hlost =>
        rw [hid] at hlost
        have hmarked := h.mark i (f := markDropped) fun _ => ⟨rfl, rfl, rfl, rfl⟩
        have hacked' := hacked.mark i (f := markDropped) fun _ => rfl
        have hdropped' : Dropped Strict { j with epochs := j.epochs.modify i markDropped } rest lost := by
          intro hstrict k e' he' hk
          rcases getElem?_modify _ _ _ _ he' with ⟨old, hold, rfl⟩
          split
          . exact .inr (.inl rfl)
          . next hne =>
            rcases hdropped hstrict k old hold hk with hdone | hdone | hmem
            . exact .inl hdone
            . exact .inr (.inl hdone)
            . rcases List.mem_cons.mp hmem with heq | hmem
              . exact absurd heq.symm hne
              . exact .inr (.inr hmem)
        have he' : (j.epochs.modify i markDropped)[i]? = some (markDropped e) := by
          rw [List.getElem?_modify, he]
          simp
        apply Durable.Wp.bind
        apply Durable.Wp.modifyMem
        split
        . apply Durable.Wp.bind
          apply Durable.Wp.modifyMem
          let reported : Journal :=
            { j with epochs := j.epochs.modify i markDropped, recovery := j.recovery ++ [.completedGap e.id] }
          have hreported : Holds sha256 Strict d reported es lost n := hmarked.congr rfl rfl
          have hdrop := hreported.wp_drop he' fun _ => .inr hlost.1
          have hassoc : (do setEpoch i dropBlocks; removeData (markDropped e).id; applyGaps lost rest : Op Unit)
              = ((do setEpoch i dropBlocks; removeData (markDropped e).id : Op Unit) >>= fun _ => applyGaps lost rest) :=
            (Durable.bind_assoc _ _ _).symm
          show Durable.Wp (do setEpoch i dropBlocks; removeData (markDropped e).id; applyGaps lost rest : Op Unit) _ _ _ _
          rw [hassoc]
          apply Durable.Wp.bind
          refine hdrop.mono (fun _ hx => hx) fun _ d₁ j₁ ⟨hholds, hj₁⟩ => ?_
          subst hj₁
          exact ih hholds (hacked'.mark i (f := dropBlocks) fun _ => rfl)
            (hdropped'.mark i (f := dropBlocks) fun _ => ⟨id, id⟩)
        . exact ih hmarked hacked' hdropped'
      . next hnot =>
        rw [hid] at hnot
        refine ih h hacked fun hstrict k e' he' hk => ?_
        rcases hdropped hstrict k e' he' hk with hdone | hdone | hmem
        . exact .inl hdone
        . exact .inr (.inl hdone)
        . rcases List.mem_cons.mp hmem with rfl | hmem
          . rw [he] at he'
            cases he'
            left
            by_contra hacked'
            exact hnot ⟨hk, by simpa using hacked'⟩
          . exact .inr (.inr hmem)

end EpochJournal
