import Mathlib.Algebra.Order.BigOperators.Group.List
import PrismPath.Ledgers.FlowLedger

/-!
This module contains which units of work the log and the set of done units give back as they were committed.
-/

open Python

namespace FlowLedger

/-- What is written of an entry gives it back. -/
def Entry.Plain : Entry → Prop
  | text s => OneLine s
  | seq _ => True
  | list ds => OneLine (commas ds) ∧ ∀ d ∈ ds, d ≠ [] ∧ ',' ∉ d

instance : DecidablePred Entry.Plain := fun entry =>
  match entry with
  | .text s => inferInstanceAs (Decidable (OneLine s))
  | .seq _ => inferInstanceAs (Decidable True)
  | .list ds => inferInstanceAs (Decidable (OneLine (commas ds) ∧ ∀ d ∈ ds, d ≠ [] ∧ ',' ∉ d))

/-- An entry is under a key that is read as what it is. -/
def Entry.Under (key : List Char) : Entry → Prop
  | text _ => key ≠ "seq".toList ∧ key ≠ "depends".toList
  | seq _ => key = "seq".toList
  | list ds => key = "depends".toList ∧ ds ≠ []

variable (hexdigest : Ledger.Bytes → String) (ledger : Ledger) (call : Call) (seq : ℤ)

/-- The record of a unit that was committed. -/
def recordOf (sha : List Char) : Record :=
  ("commit".toList, .text sha) :: (trailers hexdigest ledger call seq).map fun (name, entry) => (keyOf name, entry)

/-- Two records hold the same under every key. -/
def SameRecord (rec rec' : Record) : Prop :=
  ∀ key, rec.lookup key = rec'.lookup key

def keys : List (List Char) :=
  (trailers hexdigest ledger call seq).map fun trailer => keyOf trailer.1

/--
The texts of a unit are plain: each is of one line that begins and ends with no white space, the dependencies are not empty
and have no comma, and of the summary nothing is read that no trailer has a later value for, but for the commit itself.
-/
structure Plain (sha : List Char) : Prop where
  entries : ∀ trailer ∈ trailers hexdigest ledger call seq, trailer.2.Plain
  summary : ∀ key value, (trailersIn (stripChars call.summary)).reverse.lookup key = some value
    → key ∈ keys hexdigest ledger call seq ∨ (key = "commit".toList ∧ value = sha)

/- Names and entries. -/

def names : List (List Char) :=
  ["Flow".toList, "Run".toList, "Unit".toList, "Node".toList, "Seq".toList, "Gate".toList, "Gate-Name".toList,
    "Output-Hash".toList, "Wallclock".toList, "Input-Hash".toList, "Edge".toList, "Depends".toList]

theorem names_sublist
    : ((trailers hexdigest ledger call seq).map Prod.fst).Sublist names := by
  have hoptional (name : String) (value : List Char)
      : ((optional name value).map Prod.fst).Sublist [name.toList] := by
    unfold optional
    split
    . exact List.nil_sublist _
    . exact List.Sublist.refl _
  have hdepends
      : ((if call.depends = [] then [] else [("Depends".toList, Entry.list call.depends)]).map Prod.fst).Sublist
          ["Depends".toList] := by
    split
    . exact List.nil_sublist _
    . exact List.Sublist.refl _
  unfold trailers
  simp only [List.map_append]
  refine (((((List.Sublist.refl _).append (hoptional _ _)).append (List.Sublist.refl _)).append
    (hoptional _ _)).append (hoptional _ _)).append hdepends

theorem nodup_keys
    : (keys hexdigest ledger call seq).Nodup := by
  have hall : (names.map keyOf).Nodup := by decide
  unfold keys
  rw [← Function.comp_def keyOf Prod.fst, ← List.map_map]
  exact ((names_sublist hexdigest ledger call seq).map keyOf).nodup hall

variable {hexdigest ledger call seq}

theorem name_of_mem {name : List Char} {entry : Entry} (h : (name, entry) ∈ trailers hexdigest ledger call seq)
    : name ≠ [] ∧ name.all isKeyChar = true ∧ keyOf name ≠ "commit".toList := by
  have hall : ∀ name ∈ names, name ≠ [] ∧ name.all isKeyChar = true ∧ keyOf name ≠ "commit".toList := by decide
  exact hall name ((names_sublist hexdigest ledger call seq).subset (List.mem_map_of_mem h))

theorem under_of_mem {name : List Char} {entry : Entry} (h : (name, entry) ∈ trailers hexdigest ledger call seq)
    : entry.Under (keyOf name) := by
  have hoptional (name : String) (value : List Char)
      (hname : keyOf name.toList ≠ "seq".toList ∧ keyOf name.toList ≠ "depends".toList)
      : ∀ trailer ∈ optional name value, trailer.2.Under (keyOf trailer.1) := by
    unfold optional
    split
    . exact List.forall_mem_nil _
    . exact List.forall_mem_cons.mpr ⟨hname, List.forall_mem_nil _⟩
  have hdepends
      : ∀ trailer ∈ if call.depends = [] then [] else [("Depends".toList, Entry.list call.depends)],
          trailer.2.Under (keyOf trailer.1) := by
    split
    . exact List.forall_mem_nil _
    . next hne =>
      have hkey : keyOf "Depends".toList = "depends".toList := by decide
      exact List.forall_mem_cons.mpr ⟨⟨hkey, hne⟩, List.forall_mem_nil _⟩
  have hall : ∀ trailer ∈ trailers hexdigest ledger call seq, trailer.2.Under (keyOf trailer.1) := by
    unfold trailers
    simp only [List.forall_mem_append, List.forall_mem_cons]
    refine ⟨⟨⟨⟨⟨⟨?_, ?_, ?_, ?_, ?_, ?_, ?_⟩, ?_⟩, ?_, ?_, ?_⟩, ?_⟩, ?_⟩, hdepends⟩
    case refine_5 => exact (by decide : keyOf "Seq".toList = "seq".toList)
    case refine_7 => exact List.forall_mem_nil _
    case refine_11 => exact List.forall_mem_nil _
    case refine_8 => exact hoptional _ _ (by decide)
    case refine_12 => exact hoptional _ _ (by decide)
    case refine_13 => exact hoptional _ _ (by decide)
    all_goals
      dsimp only [Entry.Under]
      exact ⟨by decide, by decide⟩
  exact hall _ h

theorem isSpace_decimal (n : ℤ)
    : ∀ c ∈ decimal n, isSpace c = false := by
  have hdigits : ∀ c ∈ Nat.toDigits 10 n.natAbs, isSpace c = false := by
    intro c hc
    apply isSpace_of_isHex
    unfold isHex
    rw [Nat.isDigit_of_mem_toDigits (by decide) (by decide) hc, Bool.true_or]
  unfold decimal
  split
  . intro c hc
    rcases List.mem_cons.mp hc with rfl | hc
    . decide
    . exact hdigits c hc
  . exact hdigits

theorem isLineBreak_of_isSpace {c : Char} (h : isSpace c = false)
    : isLineBreak c = false := by
  by_contra hbreak
  rw [isSpace_of_isLineBreak (by simpa using hbreak)] at h
  cases h

/-- The entries that are not texts are read back as they were. -/
theorem entryOf_written {int : List Char → Option ℤ} (hint : ∀ n, int (decimal n) = some n) {key : List Char}
    {entry : Entry} (hunder : entry.Under key) (hplain : entry.Plain)
    : entryOf int key (stripChars entry.written) = entry := by
  unfold entryOf
  cases entry with
  | text s =>
    rw [if_neg hunder.1, if_neg hunder.2]
    exact congrArg Entry.text hplain.stripped
  | seq n =>
    have hkey : key = "seq".toList := hunder
    rw [if_pos hkey]
    dsimp only [Entry.written]
    rw [stripChars_of_no_space (isSpace_decimal n), hint]
  | list ds =>
    have hkey : key ≠ "seq".toList := by
      rw [hunder.1]
      decide
    have hsplit : (commas ds).splitOn ',' = ds := List.splitOn_intercalate ',' (fun d hd => (hplain.2 d hd).2) hunder.2
    rw [if_neg hkey, if_pos hunder.1]
    dsimp only [Entry.written]
    rw [hplain.1.stripped, hsplit]
    apply congrArg Entry.list
    rw [List.filter_eq_self]
    intro d hd
    exact decide_eq_true (hplain.2 d hd).1

theorem isLineBreak_written {entry : Entry} (hplain : entry.Plain)
    : ∀ c ∈ entry.written, isLineBreak c = false := by
  cases entry with
  | text s => exact hplain.unbroken
  | seq n =>
    intro c hc
    exact isLineBreak_of_isSpace (isSpace_decimal n c hc)
  | list ds => exact hplain.1.unbroken

/- What is read of a body. -/

theorem isLineBreak_of_isKeyChar {c : Char} (h : isKeyChar c = true)
    : isLineBreak c = false := by
  unfold isKeyChar Char.isAlpha Char.isUpper Char.isLower at h
  have hval : c.toNat = c.val.toNat := rfl
  simp only [Bool.or_eq_true, Bool.and_eq_true, decide_eq_true_eq, UInt32.le_iff_toNat_le] at h
  unfold isLineBreak
  simp only [Bool.or_eq_false_iff, Bool.and_eq_false_iff, decide_eq_false_iff_not]
  rcases h with h | rfl
  . simp at h
    omega
  . decide

theorem isLineBreak_trailerLine {name : List Char} {entry : Entry} (hname : name.all isKeyChar = true)
    (hentry : ∀ c ∈ entry.written, isLineBreak c = false)
    : ∀ c ∈ trailerLine (name, entry), isLineBreak c = false := by
  have hstart : ∀ c ∈ trailerPrefix, isLineBreak c = false := (unbroken_iff _).mp (by decide)
  have hcolon : ∀ c ∈ ": ".toList, isLineBreak c = false := (unbroken_iff _).mp (by decide)
  intro c hc
  unfold trailerLine at hc
  rcases List.mem_append.mp hc with hc | hc
  . rcases List.mem_append.mp hc with hc | hc
    . rcases List.mem_append.mp hc with hc | hc
      . exact hstart c hc
      . exact isLineBreak_of_isKeyChar (List.all_eq_true.mp hname c hc)
    . exact hcolon c hc
  . exact hentry c hc

/-- What the log reads of a trailer that is written on a line. -/
def read (trailer : List Char × Entry) : List Char × List Char :=
  (keyOf trailer.1, stripChars trailer.2.written)

theorem mem_trailers {trailer : List Char × Entry}
    (h : trailer ∈ [("Flow".toList, Entry.text ledger.flow), ("Run".toList, .text ledger.runId),
      ("Unit".toList, .text call.unit), ("Node".toList, .text (if call.node = [] then call.unit else call.node)),
      ("Seq".toList, .seq seq), ("Gate".toList, .text call.gate)])
    : trailer ∈ trailers hexdigest ledger call seq := by
  unfold trailers
  simp only [List.append_assoc]
  exact List.mem_append_left _ h

theorem unit_mem
    : ("Unit".toList, .text call.unit) ∈ trailers hexdigest ledger call seq :=
  mem_trailers (.tail _ (.tail _ (.head _)))

theorem gate_mem
    : ("Gate".toList, .text call.gate) ∈ trailers hexdigest ledger call seq :=
  mem_trailers (.tail _ (.tail _ (.tail _ (.tail _ (.tail _ (.head _))))))

theorem trailersIn_subject (hunbroken : ∀ trailer ∈ trailers hexdigest ledger call seq,
      ∀ c ∈ trailer.2.written, isLineBreak c = false)
    : trailersIn (subject ledger call) = [] := by
  have hunit : ∀ c ∈ call.unit, isLineBreak c = false := hunbroken _ unit_mem
  have hgate : ∀ c ∈ call.gate, isLineBreak c = false := hunbroken _ gate_mem
  have hflow : ∀ c ∈ ledger.flow, isLineBreak c = false :=
    hunbroken ("Flow".toList, .text ledger.flow) (mem_trailers (.head _))
  have hrun : ∀ c ∈ ledger.runId, isLineBreak c = false :=
    hunbroken ("Run".toList, .text ledger.runId) (mem_trailers (.tail _ (.head _)))
  have hrunId : ∀ c ∈ ledger.runId.take 8, isLineBreak c = false := by
    intro c hc
    exact hrun c (List.mem_of_mem_take hc)
  have hsubject : ∀ c ∈ subject ledger call, isLineBreak c = false := by
    unfold subject
    simp only [List.forall_mem_append]
    refine ⟨⟨⟨⟨⟨⟨⟨⟨?_, hunit⟩, ?_⟩, hgate⟩, ?_⟩, hflow⟩, ?_⟩, hrunId⟩, ?_⟩
    all_goals
      rw [← unbroken_iff]
      decide
  rw [trailersIn_line hsubject]
  rfl

/-- Of a body all of whose entries are of one line what was written is read, after what the summary gives. -/
theorem trailersIn_body (hunbroken : ∀ trailer ∈ trailers hexdigest ledger call seq,
      ∀ c ∈ trailer.2.written, isLineBreak c = false)
    : trailersIn (body hexdigest ledger call seq)
        = trailersIn (stripChars call.summary) ++ (trailers hexdigest ledger call seq).map read := by
  have hlines (ts : Record) (hts : ts ⊆ trailers hexdigest ledger call seq)
      : (ts.map trailerLine).flatMap trailersIn = ts.map read := by
    induction ts with
    | nil => rfl
    | cons trailer ts ih =>
      rcases trailer with ⟨name, entry⟩
      have hmem := hts List.mem_cons_self
      rcases name_of_mem hmem with ⟨hne, hchars, _⟩
      rw [List.map_cons, List.flatMap_cons, ih (List.subset_of_cons_subset hts),
        trailersIn_line (isLineBreak_trailerLine hchars (hunbroken _ hmem)), trailerOf_trailerLine hne hchars]
      rfl
  have hne : trailers hexdigest ledger call seq ≠ [] := List.ne_nil_of_mem unit_mem
  have htrailers
      : trailersIn (['
'].intercalate ((trailers hexdigest ledger call seq).map trailerLine))
          = (trailers hexdigest ledger call seq).map read := by
    rw [← hlines _ (List.Subset.refl _)]
    rcases List.exists_cons_of_ne_nil hne with ⟨trailer, ts, heq⟩
    rw [heq, List.map_cons, trailersIn_intercalate]
  have hnewline (text : List Char) : trailersIn ('\n' :: text) = trailersIn text :=
    trailersIn_append (c := '\n') (by decide) [] text
  have hempty : trailersIn [] = [] := rfl
  have hsplit (before after : List Char) : trailersIn (before ++ '\n' :: after) = trailersIn before ++ trailersIn after :=
    trailersIn_append (by decide) before after
  have htwo : "\n\n".toList = ['\n', '\n'] := rfl
  unfold body
  rw [htwo]
  split
  . next hsummary =>
    rw [hsummary]
    simp only [List.append_assoc, List.cons_append, List.nil_append]
    rw [hsplit, hnewline, hsplit, trailersIn_subject hunbroken, htrailers, hempty, List.append_nil]
    rfl
  . simp only [List.append_assoc, List.cons_append, List.nil_append]
    rw [hsplit, hnewline, hsplit, hnewline, hsplit, trailersIn_subject hunbroken, htrailers, hempty, List.append_nil,
      List.nil_append]

/- What a record gives back. -/

theorem lookup_read (key : List Char)
    : ((trailers hexdigest ledger call seq).map read).reverse.lookup key
        = ((trailers hexdigest ledger call seq).map read).lookup key := by
  apply Dict.lookup_reverse
  rw [List.map_map]
  exact nodup_keys hexdigest ledger call seq

/-- The record that is read of a commit of a unit all of whose entries are of one line. -/
theorem lookup_record (int : List Char → Option ℤ) {sha : List Char} (hsha : ShaLike sha)
    (hunbroken : ∀ trailer ∈ trailers hexdigest ledger call seq, ∀ c ∈ trailer.2.written, isLineBreak c = false)
    (key : List Char)
    : (readRecord int (stripChar '\n' (sha ++ '\n' :: body hexdigest ledger call seq))).lookup key
        = ((((trailers hexdigest ledger call seq).map read).lookup key).or
            (((trailersIn (stripChars call.summary)).reverse.lookup key).or
              (if "commit".toList = key then some sha else none))).map (entryOf int key) := by
  rw [lookup_readRecord int hsha, trailersIn_body hunbroken, List.reverse_append, List.lookup_append, lookup_read,
    Option.or_assoc]

theorem lookup_recordOf {name : List Char} {entry : Entry} (h : (name, entry) ∈ trailers hexdigest ledger call seq)
    (sha : List Char)
    : (recordOf hexdigest ledger call seq sha).lookup (keyOf name) = some entry := by
  unfold recordOf
  rw [Dict.lookup_cons_eq, if_neg (name_of_mem h).2.2.symm]
  apply Dict.lookup_of_mem
  . rw [List.map_map]
    exact nodup_keys hexdigest ledger call seq
  . exact List.mem_map_of_mem (f := fun trailer : List Char × Entry => (keyOf trailer.1, trailer.2)) h

theorem lookup_read_of_mem {name : List Char} {entry : Entry} (h : (name, entry) ∈ trailers hexdigest ledger call seq)
    : ((trailers hexdigest ledger call seq).map read).lookup (keyOf name) = some (stripChars entry.written) := by
  apply Dict.lookup_of_mem
  . rw [List.map_map]
    exact nodup_keys hexdigest ledger call seq
  . exact List.mem_map_of_mem (f := read) h

theorem lookup_of_not_mem_keys {key : List Char} (h : key ∉ keys hexdigest ledger call seq) (sha : List Char)
    : ((trailers hexdigest ledger call seq).map read).lookup key = none
        ∧ (recordOf hexdigest ledger call seq sha).lookup key
          = if "commit".toList = key then some (.text sha) else none := by
  refine ⟨?_, ?_⟩
  . apply Dict.lookup_eq_none
    rw [List.map_map]
    exact h
  . unfold recordOf
    rw [Dict.lookup_cons_eq, Dict.lookup_eq_none]
    rw [List.map_map]
    exact h

theorem entryOf_commit (int : List Char → Option ℤ) (value : List Char)
    : entryOf int "commit".toList value = .text value := by
  unfold entryOf
  rw [if_neg (by decide), if_neg (by decide)]

theorem sameRecord_of_plain {int : List Char → Option ℤ} (hint : ∀ n, int (decimal n) = some n) {sha : List Char}
    (hsha : ShaLike sha) (h : Plain hexdigest ledger call seq sha)
    : SameRecord (readRecord int (stripChar '\n' (sha ++ '\n' :: body hexdigest ledger call seq)))
        (recordOf hexdigest ledger call seq sha) := by
  intro key
  rw [lookup_record int hsha fun trailer hmem => isLineBreak_written (h.entries trailer hmem)]
  by_cases hkey : key ∈ keys hexdigest ledger call seq
  . rcases List.mem_map.mp hkey with ⟨⟨name, entry⟩, hmem, rfl⟩
    rw [lookup_read_of_mem hmem, lookup_recordOf hmem]
    exact congrArg some (entryOf_written hint (under_of_mem hmem) (h.entries _ hmem))
  . rcases lookup_of_not_mem_keys hkey sha with ⟨hread, hrecord⟩
    rw [hread, hrecord, Option.none_or]
    cases hsummary : (trailersIn (stripChars call.summary)).reverse.lookup key with
    | none =>
      rw [Option.none_or]
      split
      . next heq =>
        rw [← heq]
        exact congrArg some (entryOf_commit int sha)
      . rfl
    | some value =>
      rcases h.summary key value hsummary with hmem | ⟨rfl, rfl⟩
      . exact absurd hmem hkey
      . rw [if_pos rfl]
        exact congrArg some (entryOf_commit int value)

/- What is given back is plain. -/

theorem exists_value {int : List Char → Option ℤ} {sha : List Char} (hsha : ShaLike sha)
    (h : SameRecord (readRecord int (stripChar '\n' (sha ++ '\n' :: body hexdigest ledger call seq)))
      (recordOf hexdigest ledger call seq sha))
    {name : List Char} {entry : Entry} (hmem : (name, entry) ∈ trailers hexdigest ledger call seq)
    : ∃ value, OneLine value ∧ entryOf int (keyOf name) value = entry := by
  have hlookup := h (keyOf name)
  rw [lookup_readRecord int hsha, lookup_recordOf hmem, if_neg (name_of_mem hmem).2.2.symm, Option.or_none,
    Option.map_eq_some_iff] at hlookup
  rcases hlookup with ⟨value, hvalue, hentry⟩
  have hread := List.mem_reverse.mp (Dict.mem_of_lookup hvalue)
  exact ⟨value, oneLine_of_mem hread, hentry⟩

theorem entryOf_depends (int : List Char → Option ℤ) (value : List Char)
    : entryOf int "depends".toList value = .list ((value.splitOn ',').filter fun d => d ≠ []) := by
  unfold entryOf
  rw [if_neg (by decide), if_pos rfl]

theorem mem_of_mem_splitOn {value d : List Char} (h : d ∈ value.splitOn ',')
    : ',' ∉ d ∧ d ⊆ value := by
  rcases mem_of_mem_splitOnP h with ⟨hcomma, hsub⟩
  refine ⟨?_, hsub⟩
  intro hmem
  have := hcomma _ hmem
  simp at this

theorem isLineBreak_commas {ds : List (List Char)} (h : ∀ d ∈ ds, ∀ c ∈ d, isLineBreak c = false)
    : ∀ c ∈ commas ds, isLineBreak c = false := by
  unfold commas
  induction ds with
  | nil => exact List.forall_mem_nil _
  | cons d ds ih =>
    cases ds with
    | nil =>
      rw [List.intercalate_singleton]
      exact h d List.mem_cons_self
    | cons next ds =>
      rw [List.intercalate_cons_cons]
      simp only [List.forall_mem_append]
      refine ⟨⟨h d List.mem_cons_self, (unbroken_iff _).mp (by decide)⟩, ih fun d hd => h d (List.mem_cons_of_mem _ hd)⟩

theorem length_commas (ds : List (List Char))
    : (commas ds).length = (ds.map List.length).sum + (ds.length - 1) := by
  unfold commas
  induction ds with
  | nil => rfl
  | cons d ds ih =>
    cases ds with
    | nil => simp
    | cons next ds =>
      rw [List.intercalate_cons_cons, List.length_append, List.length_append, ih]
      simp only [List.map_cons, List.sum_cons, List.length_cons, List.length_nil]
      omega

theorem length_commas_filter_le (p : List Char → Bool) (ds : List (List Char))
    : (commas (ds.filter p)).length ≤ (commas ds).length := by
  rw [length_commas, length_commas]
  have hsub : (ds.filter p).Sublist ds := List.filter_sublist
  have hsum : ((ds.filter p).map List.length).sum ≤ (ds.map List.length).sum :=
    (hsub.map List.length).sum_le_sum fun _ _ => Nat.zero_le _
  have hlength := hsub.length_le
  omega

/-- Where the dependencies are what is left of the pieces of the stripped text, there was nothing to strip. -/
theorem stripChars_commas {ds : List (List Char)}
    (h : ((stripChars (commas ds)).splitOn ',').filter (fun d => d ≠ []) = ds)
    : stripChars (commas ds) = commas ds := by
  apply (infix_stripChars (commas ds)).eq_of_length_le
  calc (commas ds).length
    _ = (commas (((stripChars (commas ds)).splitOn ',').filter fun d => d ≠ [])).length := by rw [h]
    _ ≤ (commas ((stripChars (commas ds)).splitOn ',')).length := length_commas_filter_le _ _
    _ = (stripChars (commas ds)).length := by
      unfold commas
      rw [List.intercalate_splitOn]

theorem plain_of_sameRecord {int : List Char → Option ℤ} {sha : List Char} (hsha : ShaLike sha)
    (h : SameRecord (readRecord int (stripChar '\n' (sha ++ '\n' :: body hexdigest ledger call seq)))
      (recordOf hexdigest ledger call seq sha))
    : Plain hexdigest ledger call seq sha := by
  have htext {name s : List Char} (hmem : (name, .text s) ∈ trailers hexdigest ledger call seq) : OneLine s := by
    rcases exists_value hsha h hmem with ⟨value, hvalue, hentry⟩
    have hunder := under_of_mem hmem
    unfold entryOf at hentry
    rw [if_neg hunder.1, if_neg hunder.2] at hentry
    cases hentry
    exact hvalue
  have hlist {name : List Char} {ds : List (List Char)} (hmem : (name, .list ds) ∈ trailers hexdigest ledger call seq)
      : ∀ d ∈ ds, (d ≠ [] ∧ ',' ∉ d) ∧ ∀ c ∈ d, isLineBreak c = false := by
    rcases exists_value hsha h hmem with ⟨value, hvalue, hentry⟩
    rw [(under_of_mem hmem).1, entryOf_depends] at hentry
    cases hentry
    intro d hd
    rcases List.mem_filter.mp hd with ⟨hpiece, hne⟩
    rcases mem_of_mem_splitOn hpiece with ⟨hcomma, hsub⟩
    refine ⟨⟨of_decide_eq_true hne, hcomma⟩, ?_⟩
    intro c hc
    exact hvalue.unbroken c (hsub hc)
  -- No entry has a line break, so what is read of the body is what was written.
  have hunbroken : ∀ trailer ∈ trailers hexdigest ledger call seq, ∀ c ∈ trailer.2.written, isLineBreak c = false := by
    rintro ⟨name, entry⟩ hmem
    cases entry with
    | text s => exact (htext hmem).unbroken
    | seq n =>
      intro c hc
      exact isLineBreak_of_isSpace (isSpace_decimal n c hc)
    | list ds => exact isLineBreak_commas fun d hd => (hlist hmem d hd).2
  refine ⟨?_, ?_⟩
  . rintro ⟨name, entry⟩ hmem
    cases entry with
    | text s => exact htext hmem
    | seq n => trivial
    | list ds =>
      have hlookup := h (keyOf name)
      rw [lookup_record int hsha hunbroken, lookup_read_of_mem hmem, lookup_recordOf hmem, Option.some_or,
        (under_of_mem hmem).1, Option.map_some, entryOf_depends] at hlookup
      have hfilter : ((stripChars (commas ds)).splitOn ',').filter (fun d => d ≠ []) = ds := by
        injection Option.some.inj hlookup
      exact ⟨⟨hunbroken _ hmem, stripChars_commas hfilter⟩, fun d hd => (hlist hmem d hd).1⟩
  . intro key value hsummary
    by_cases hkey : key ∈ keys hexdigest ledger call seq
    . exact .inl hkey
    . rcases lookup_of_not_mem_keys hkey sha with ⟨hread, hrecord⟩
      have hlookup := h key
      rw [lookup_record int hsha hunbroken, hread, hrecord, hsummary, Option.none_or, Option.some_or,
        Option.map_some] at hlookup
      split at hlookup
      . next heq =>
        rw [← heq, entryOf_commit] at hlookup
        cases hlookup
        exact .inr ⟨heq.symm, rfl⟩
      . cases hlookup

/- Histories. -/

/-- A unit that was committed, with the number and the commit it got. -/
structure Entered where
  call : Call
  seq : ℤ
  commit : Commit

/-- The units a ledger committed on its ref, oldest first. -/
inductive Written (host : Host) (ledger : Ledger) : List Entered → Prop
  | nil : Written host ledger []
  | commit {entries : List Entered} {call : Call} {seq : ℤ} {commit : Commit} (hentries : Written host ledger entries)
      (hcommit : commitUnit host ledger (entries.map Entered.commit) call = some (seq, commit))
      : Written host ledger (entries ++ [⟨call, seq, commit⟩])

/-- What the log reads of the commits of some units. -/
def logOf (host : Host) (entries : List Entered) : List Record :=
  log host.int (gitLog (entries.map Entered.commit))

section Histories

variable {host : Host} {ledger : Ledger} {entries : List Entered}

theorem commit_of_written (h : Written host ledger entries)
    : ∀ e ∈ entries, ShaLike e.commit.sha ∧ '\x00' ∉ e.commit.message
        ∧ e.commit.message = body host.hexdigest ledger e.call e.seq := by
  induction h with
  | nil => exact List.forall_mem_nil _
  | commit _ hcommit ih =>
    unfold commitUnit at hcommit
    rcases Option.map_eq_some_iff.mp hcommit with ⟨sha, hsha, heq⟩
    cases heq
    rw [List.forall_mem_append]
    refine ⟨ih, ?_⟩
    rw [List.forall_mem_singleton]
    exact ⟨host.sha_hex hsha, host.refuses_nul hsha, rfl⟩

/-- The log reads a record of each commit, oldest first. -/
theorem logOf_of_written (h : Written host ledger entries)
    : logOf host entries
        = entries.map fun e => readRecord host.int
            (stripChar '\n' (e.commit.sha ++ '\n' :: body host.hexdigest ledger e.call e.seq)) := by
  have hcommits := commit_of_written h
  unfold logOf
  rw [log_gitLog, List.map_map]
  . apply List.map_congr_left
    intro e he
    dsimp only [Function.comp_apply]
    rw [(hcommits e he).2.2]
  . intro c hc
    rcases List.mem_map.mp hc with ⟨e, he, rfl⟩
    exact (hcommits e he).1
  . intro c hc
    rcases List.mem_map.mp hc with ⟨e, he, rfl⟩
    exact (hcommits e he).2.1

/-- The log gives every unit back as the record that was written of it. -/
def ReadsBack (host : Host) (ledger : Ledger) (entries : List Entered) : Prop :=
  List.Forall₂ SameRecord (logOf host entries)
    (entries.map fun e => recordOf host.hexdigest ledger e.call e.seq e.commit.sha)

theorem readsBack_iff (h : Written host ledger entries)
    : ReadsBack host ledger entries ↔ ∀ e ∈ entries, Plain host.hexdigest ledger e.call e.seq e.commit.sha := by
  have hcommits := commit_of_written h
  unfold ReadsBack
  rw [logOf_of_written h, List.forall₂_map_left_iff, List.forall₂_map_right_iff, List.forall₂_same]
  constructor
  . intro hsame e he
    exact plain_of_sameRecord (hcommits e he).1 (hsame e he)
  . intro hplain e he
    exact sameRecord_of_plain host.int_decimal (hcommits e he).1 (hplain e he)

/-- Of a record with these two texts under its keys the unit is done. -/
def Green (unit : List Char) (rec : Record) : Prop :=
  rec.lookup "gate".toList = some (.text "green".toList) ∧ rec.lookup "unit".toList = some (.text unit) ∧ unit ≠ []

theorem isSome_lookup_doneSet (records : List Record) (unit : List Char)
    : ((doneSet records).lookup unit).isSome ↔ ∃ rec ∈ records, Green unit rec := by
  unfold doneSet
  induction records using List.reverseRecOn with
  | nil => simp
  | append_singleton records rec ih =>
    rw [List.foldl_append, List.foldl_cons, List.foldl_nil]
    simp only [List.mem_append, List.mem_singleton, or_and_right, exists_or, exists_eq_left, ← ih]
    split
    . next gate unit' hgate hunit =>
      unfold Green
      rw [hgate, hunit]
      split
      . next hgreen =>
        rw [Dict.lookup_set]
        split
        . next heq =>
          subst heq
          simp [hgreen]
        . next hne => simp [hne]
      . next hgreen =>
        rw [not_and] at hgreen
        rw [iff_self_or]
        rintro ⟨heq, hunit', hne⟩
        cases heq
        cases hunit'
        exact absurd hne (hgreen rfl)
    . next hother =>
      rw [iff_self_or]
      rintro ⟨hgate, hunit, _⟩
      exact (hother _ _ hgate hunit).elim

theorem green_recordOf (hexdigest : Ledger.Bytes → String) (call : Call) (seq : ℤ) (sha unit : List Char)
    : Green unit (recordOf hexdigest ledger call seq sha)
        ↔ call.gate = "green".toList ∧ call.unit = unit ∧ unit ≠ [] := by
  have hgate : (recordOf hexdigest ledger call seq sha).lookup "gate".toList = some (.text call.gate) :=
    lookup_recordOf gate_mem sha
  have hunit : (recordOf hexdigest ledger call seq sha).lookup "unit".toList = some (.text call.unit) :=
    lookup_recordOf unit_mem sha
  unfold Green
  rw [hgate, hunit]
  simp

theorem SameRecord.green_iff {rec rec' : Record} (h : SameRecord rec rec') (unit : List Char)
    : Green unit rec ↔ Green unit rec' := by
  unfold Green
  rw [h, h]

/-- The done units are those that were committed as green. -/
def DoneExactly (host : Host) (entries : List Entered) : Prop :=
  ∀ unit, ((doneSet (logOf host entries)).lookup unit).isSome
    ↔ ∃ e ∈ entries, e.call.gate = "green".toList ∧ e.call.unit = unit

theorem isSome_lookup_of_readsBack (h : ReadsBack host ledger entries) (unit : List Char)
    : ((doneSet (logOf host entries)).lookup unit).isSome
        ↔ ∃ e ∈ entries, e.call.gate = "green".toList ∧ e.call.unit = unit ∧ unit ≠ [] := by
  rw [isSome_lookup_doneSet]
  unfold ReadsBack at h
  rw [List.forall₂_map_right_iff] at h
  generalize logOf host entries = records at h ⊢
  induction h with
  | nil => simp
  | cons hhead _ ih =>
    rw [List.exists_mem_cons_iff, List.exists_mem_cons_iff, ih, hhead.green_iff, green_recordOf]

theorem round_trips_iff (h : Written host ledger entries)
    : ReadsBack host ledger entries ∧ DoneExactly host entries
        ↔ ∀ e ∈ entries, Plain host.hexdigest ledger e.call e.seq e.commit.sha
          ∧ (e.call.gate = "green".toList → e.call.unit ≠ []) := by
  constructor
  . rintro ⟨hreads, hdone⟩ e he
    refine ⟨(readsBack_iff h).mp hreads e he, ?_⟩
    intro hgreen
    have hisSome := (hdone e.call.unit).mpr ⟨e, he, hgreen, rfl⟩
    rcases (isSome_lookup_of_readsBack hreads _).mp hisSome with ⟨_, _, _, _, hne⟩
    exact hne
  . intro hall
    have hreads : ReadsBack host ledger entries := (readsBack_iff h).mpr fun e he => (hall e he).1
    refine ⟨hreads, ?_⟩
    intro unit
    rw [isSome_lookup_of_readsBack hreads]
    constructor
    . rintro ⟨e, he, hgreen, hunit, _⟩
      exact ⟨e, he, hgreen, hunit⟩
    . rintro ⟨e, he, hgreen, rfl⟩
      exact ⟨e, he, hgreen, rfl, (hall e he).2 hgreen⟩

end Histories

/- A run of two units. -/

/-- `int`, of a text of ASCII digits with or without a sign. -/
def asciiInt : List Char → Option ℤ
  | '-' :: ds => if ds ≠ [] ∧ ds.all Char.isDigit = true then some (-Nat.ofDigitChars 10 ds 0) else none
  | ds => if ds ≠ [] ∧ ds.all Char.isDigit = true then some (Nat.ofDigitChars 10 ds 0) else none

theorem asciiInt_decimal (n : ℤ)
    : asciiInt (decimal n) = some n := by
  have hdigits : (Nat.toDigits 10 n.natAbs).all Char.isDigit = true := by
    rw [List.all_eq_true]
    intro c hc
    exact Nat.isDigit_of_mem_toDigits (by decide) (by decide) hc
  have hne : Nat.toDigits 10 n.natAbs ≠ [] := by
    rw [← List.length_pos_iff]
    exact Nat.length_toDigits_pos
  unfold decimal
  split
  . next hneg =>
    rw [asciiInt, if_pos ⟨hne, hdigits⟩, Nat.ofDigitChars_ten_toDigits]
    congr 1
    omega
  . next hneg =>
    unfold asciiInt
    split
    . next ds heq =>
      rw [heq] at hdigits
      cases hdigits
    . rw [if_pos ⟨hne, hdigits⟩, Nat.ofDigitChars_ten_toDigits]
      congr 1
      omega

/-- A host of which every commit has the same id. -/
def oneIdHost : Host where
  hexdigest _ := ""
  commitTree _ _ message := if '\x00' ∈ message then none else some (List.replicate 40 'a')
  int := asciiInt
  sha_hex h := by
    split at h
    . cases h
    . cases h
      exact ⟨by decide, by decide⟩
  refuses_nul h := by
    split at h
    . cases h
    . assumption
  int_decimal := asciiInt_decimal

def buildLedger : Ledger where
  flow := "build".toList
  runId := "r1".toList

def buildCall (unit edge : String) (depends : List String) : Call where
  unit := unit.toList
  files := ⟨[], List.nodup_nil⟩
  edge := edge.toList
  depends := depends.map String.toList
  summary := "built".toList
  wallclock := "now".toList

def buildUnit (unit edge : String) (depends : List String) (seq : ℤ) : Entered where
  call := buildCall unit edge depends
  seq := seq
  commit := ⟨List.replicate 40 'a', body oneIdHost.hexdigest buildLedger (buildCall unit edge depends) seq⟩

def buildRun : List Entered :=
  [buildUnit "a" "go" [] 1, buildUnit "b" "go on" ["a"] 2]

theorem written_buildRun
    : Written oneIdHost buildLedger buildRun := by
  have hfirst : Written oneIdHost buildLedger [buildUnit "a" "go" [] 1] :=
    Written.nil.commit (by decide +kernel)
  exact hfirst.commit (by decide +kernel)

theorem buildRun_round_trips
    : ReadsBack oneIdHost buildLedger buildRun ∧ DoneExactly oneIdHost buildRun := by
  apply (round_trips_iff written_buildRun).mpr
  have hunit {unit edge : String} {depends : List String} {seq : ℤ} {sha : List Char}
      (hentries : ∀ trailer ∈ trailers oneIdHost.hexdigest buildLedger (buildCall unit edge depends) seq, trailer.2.Plain)
      : Plain oneIdHost.hexdigest buildLedger (buildCall unit edge depends) seq sha := by
    refine ⟨hentries, ?_⟩
    intro key value hsummary
    have hnone : trailersIn (stripChars "built".toList) = [] := by decide +kernel
    rw [show (buildCall unit edge depends).summary = "built".toList from rfl, hnone] at hsummary
    cases hsummary
  intro e he
  unfold buildRun at he
  rw [List.mem_cons, List.mem_singleton] at he
  rcases he with rfl | rfl
  . exact ⟨hunit (by decide +kernel), fun _ => by decide +kernel⟩
  . exact ⟨hunit (by decide +kernel), fun _ => by decide +kernel⟩

/-- The unit "a" is committed and "b" is done. -/
theorem edge_forges_unit
    : Written oneIdHost buildLedger [buildUnit "a" "go\nPrismPath-Unit: b" [] 1]
        ∧ (doneSet (logOf oneIdHost [buildUnit "a" "go\nPrismPath-Unit: b" [] 1])).map Prod.fst = ["b".toList]
        ∧ ¬(ReadsBack oneIdHost buildLedger [buildUnit "a" "go\nPrismPath-Unit: b" [] 1]
          ∧ DoneExactly oneIdHost [buildUnit "a" "go\nPrismPath-Unit: b" [] 1]) := by
  refine ⟨Written.nil.commit (by decide +kernel), by decide +kernel, ?_⟩
  rintro ⟨_, hdone⟩
  have hisSome
      : ((doneSet (logOf oneIdHost [buildUnit "a" "go\nPrismPath-Unit: b" [] 1])).lookup "b".toList).isSome := by
    decide +kernel
  rcases (hdone "b".toList).mp hisSome with ⟨e, he, _, hunit⟩
  rw [List.mem_singleton] at he
  subst he
  exact absurd hunit (by decide +kernel)

end FlowLedger
