import Mathlib
import PrismPath.Lib.OrderedMap
import PrismPath.Lib.Terminated

/-!
This module contains the digest of the files of a work unit, and which files it pins.
-/

namespace Ledger

abbrev Bytes : Type := List UInt8

def encode (text : List Char) : Bytes :=
  text.flatMap String.utf8EncodeChar

/-- What a mapping holds for a file: its bytes, or something else with its text. -/
inductive Content where
  | bytes (data : Bytes)
  | text (written : List Char)

def Content.fileBytes : Content → Bytes
  | .bytes data => data
  | .text written => encode written

/-- A mapping from file names to contents. -/
structure Files where
  mapping : List (List Char × Content)
  nodup : (mapping.map Prod.fst).Nodup

/-- The fields that are hashed, one after the other. -/
def join (fields : List (List Char × Bytes)) : Bytes :=
  fields.flatMap fun field => (encode field.1 ++ [0]) ++ (field.2 ++ [0])

namespace Files

/-- The names in their order, each with its bytes. -/
def fields (files : Files) : List (List Char × Bytes) :=
  (files.mapping.insertionSort fun a b => a.1 ≤ b.1).map fun entry => (entry.1, entry.2.fileBytes)

def preimage (files : Files) : Bytes :=
  join files.fields

/-- The bytes of a file, where there is one of the name. -/
def get (files : Files) (path : List Char) : Option Bytes :=
  (files.mapping.lookup path).map Content.fileBytes

end Files

def sha256Files (hexdigest : Bytes → String) (files : Files) : String :=
  "sha256:" ++ hexdigest files.preimage

/-- Two mappings are equal. -/
def Same (files files' : Files) : Prop :=
  ∀ path, files.get path = files'.get path

/- The fields are the mapping in order. -/

theorem sorted_fields (files : Files) : files.fields.Pairwise fun a b => a.1 < b.1 := by
  have htotal : Std.Total fun a b : List Char × Content => a.1 ≤ b.1 := ⟨fun a b => le_total a.1 b.1⟩
  have htrans : IsTrans (List Char × Content) fun a b => a.1 ≤ b.1 := ⟨fun _ _ _ hab hbc => le_trans hab hbc⟩
  have hperm := List.perm_insertionSort (fun a b : List Char × Content => a.1 ≤ b.1) files.mapping
  have hne : (files.mapping.insertionSort fun a b => a.1 ≤ b.1).Pairwise fun a b => a.1 ≠ b.1 := by
    apply List.pairwise_map.mp
    apply (hperm.map Prod.fst).nodup_iff.mpr files.nodup
  have hle := List.pairwise_insertionSort (fun a b : List Char × Content => a.1 ≤ b.1) files.mapping
  apply List.pairwise_map.mpr
  apply hle.imp₂ _ hne
  intro a b hab hne
  apply lt_of_le_of_ne hab hne

theorem nodup_fields (files : Files) : (files.fields.map Prod.fst).Nodup := by
  apply List.pairwise_map.mpr
  apply (sorted_fields files).imp
  intro a b hlt
  apply hlt.ne

theorem mem_fields (files : Files) (path : List Char) (data : Bytes)
    : (path, data) ∈ files.fields ↔ ∃ content, (path, content) ∈ files.mapping ∧ content.fileBytes = data := by
  simp only [Files.fields, List.mem_map, List.mem_insertionSort, Prod.mk.injEq, Prod.exists]
  constructor
  . rintro ⟨path', content, hmem, rfl, hdata⟩
    exact ⟨content, hmem, hdata⟩
  . rintro ⟨content, hmem, hdata⟩
    exact ⟨path, content, hmem, rfl, hdata⟩

theorem get_eq (files : Files) (path : List Char) : files.get path = files.fields.lookup path := by
  apply Option.ext
  intro data
  constructor
  . intro hget
    rcases Option.map_eq_some_iff.mp hget with ⟨content, hlookup, hdata⟩
    apply Dict.lookup_of_mem (nodup_fields files)
    apply (mem_fields files path data).mpr ⟨content, Dict.mem_of_lookup hlookup, hdata⟩
  . intro hlookup
    rcases (mem_fields files path data).mp (Dict.mem_of_lookup hlookup) with ⟨content, hmem, hdata⟩
    rw [Files.get, Dict.lookup_of_mem files.nodup hmem, ← hdata]
    rfl

theorem same_iff (files files' : Files) : Same files files' ↔ files.fields = files'.fields := by
  unfold Same
  simp only [get_eq]
  constructor
  . intro h
    apply @OrderedMap.eq_of_lookup _ _ _ (fun a b => decide (a < b)) _ _ _ _ _ _ _ _ h
    . intro a b c hab hbc
      simp only [decide_eq_true_eq] at hab hbc ⊢
      apply lt_trans hab hbc
    . simp
    . simpa [OrderedMap.Sorted] using sorted_fields files
    . simpa [OrderedMap.Sorted] using sorted_fields files'
  . intro h path
    rw [h]

/-- The mapping of some fields in order. -/
def filesOf (fields : List (List Char × Bytes)) (h : fields.Pairwise fun a b => a.1 < b.1) : Files where
  mapping := fields.map fun field => (field.1, .bytes field.2)
  nodup := by
    rw [List.map_map]
    apply List.pairwise_map.mpr
    apply h.imp
    intro a b hlt
    apply hlt.ne

@[simp]
theorem fields_filesOf {fields : List (List Char × Bytes)} (h : fields.Pairwise fun a b => a.1 < b.1)
    : (filesOf fields h).fields = fields := by
  have hsorted : (fields.map fun field => (field.1, Content.bytes field.2)).Pairwise fun a b => a.1 ≤ b.1 := by
    apply List.pairwise_map.mpr
    apply h.imp
    intro a b hlt
    apply hlt.le
  rw [Files.fields, filesOf, hsorted.insertionSort_eq, List.map_map]
  simp [Function.comp_def, Content.fileBytes]

/- Zero bytes of a text. -/

theorem encode_append (s t : List Char) : encode (s ++ t) = encode s ++ encode t := by
  apply List.flatMap_append

theorem encode_zero : encode ['\x00'] = [0] := by
  decide

theorem encode_nul (s t : List Char) : encode (s ++ '\x00' :: t) = encode s ++ 0 :: encode t := by
  rw [← List.singleton_append, encode_append, encode_append, encode_zero, List.singleton_append]

theorem zero_mem_utf8EncodeChar {c : Char} (h : 0 ∈ String.utf8EncodeChar c) : c = '\x00' := by
  have hzero {n : ℕ} (hn : (0 : UInt8) = UInt8.ofNat n) : n % 256 = 0 := by
    have := congrArg UInt8.toNat hn
    simpa using this.symm
  unfold String.utf8EncodeChar at h
  dsimp only at h
  split at h
  . next hsmall =>
    rw [List.mem_singleton] at h
    have hval := hzero h
    apply Char.ext
    apply UInt32.toNat_inj.mp
    change c.val.toNat = 0
    omega
  . -- the bytes of a longer code all have their high bit set
    split at h
    . simp only [List.mem_cons, List.not_mem_nil, or_false] at h
      rcases h with h | h <;> have := hzero h <;> omega
    . split at h
      . simp only [List.mem_cons, List.not_mem_nil, or_false] at h
        rcases h with h | h | h <;> have := hzero h <;> omega
      . simp only [List.mem_cons, List.not_mem_nil, or_false] at h
        rcases h with h | h | h | h <;> have := hzero h <;> omega

theorem zero_mem_encode {text : List Char} (h : 0 ∈ encode text) : '\x00' ∈ text := by
  rcases List.mem_flatMap.mp h with ⟨c, hc, hzero⟩
  rw [← zero_mem_utf8EncodeChar hzero]
  apply hc

theorem encode_injective {s t : List Char} (h : encode s = encode t) : s = t := by
  have hbytes : s.utf8Encode = t.utf8Encode := congrArg List.toByteArray h
  apply String.ofList_injective
  apply String.toByteArray_inj.mp
  simpa using hbytes

/-- Two readings of what begins with a name that has no NUL: the same name, or a longer one. -/
theorem name_cases {path path' : List Char} {x y : Bytes} (hpath : '\x00' ∉ path)
    (h : encode path' ++ 0 :: y = encode path ++ 0 :: x)
    : (path' = path ∧ y = x) ∨ ∃ text, x = encode text ++ 0 :: y := by
  have hzero : 0 ∉ encode path := fun hmem => hpath (zero_mem_encode hmem)
  by_cases hpath' : '\x00' ∈ path'
  . right
    rcases List.eq_append_cons_of_mem hpath' with ⟨front, text, heq, hfront⟩
    rw [heq, encode_nul, List.append_assoc, List.cons_append] at h
    have hfront : 0 ∉ encode front := fun hmem => hfront (zero_mem_encode hmem)
    exact ⟨text, (Terminated.append_inj hfront hzero h).2.symm⟩
  . left
    have hzero' : 0 ∉ encode path' := fun hmem => hpath' (zero_mem_encode hmem)
    rcases Terminated.append_inj hzero' hzero h with ⟨hname, hrest⟩
    exact ⟨encode_injective hname, hrest⟩

/- The readings of a preimage. -/

@[simp]
theorem join_cons (path : List Char) (data : Bytes) (fields : List (List Char × Bytes))
    : join ((path, data) :: fields) = encode path ++ 0 :: (data ++ 0 :: join fields) := by
  simp [join]

theorem join_eq_nil {fields : List (List Char × Bytes)} (h : join fields = []) : fields = [] := by
  cases fields with
  | nil => rfl
  | cons field fields =>
    rw [join_cons] at h
    simp at h

/-- What follows a name in a preimage ends in a zero byte. -/
theorem exists_tail (data : Bytes) (fields : List (List Char × Bytes))
    : ∃ tail, data ++ 0 :: join fields = tail ++ [0] := by
  induction fields generalizing data with
  | nil => exact ⟨data, rfl⟩
  | cons field fields ih =>
    rcases ih field.2 with ⟨tail, htail⟩
    refine ⟨data ++ 0 :: (encode field.1 ++ 0 :: tail), ?_⟩
    rw [join_cons, htail]
    simp

/-- The fields whose preimage has no other reading. -/
def OneReading : List (List Char × Bytes) → Prop
  | [] => True
  | [(path, data)] =>
    '\x00' ∉ path ∧ (∀ text rest, data ≠ encode text ++ 0 :: rest) ∧
      ∀ first later rest, path < later → data ≠ first ++ 0 :: (encode later ++ 0 :: rest)
  | _ :: _ :: _ => False

theorem OneReading.unique {fields other : List (List Char × Bytes)} (h : OneReading fields)
    (hother : other.Pairwise fun a b => a.1 < b.1) (hjoin : join other = join fields)
    : other = fields := by
  match fields with
  | [] => apply join_eq_nil hjoin
  | [(path, data)] =>
    rcases h with ⟨hpath, htext, hlater⟩
    cases other with
    | nil => simp [join] at hjoin
    | cons field rest =>
      rcases field with ⟨path', data'⟩
      rw [join_cons, join_cons] at hjoin
      rcases name_cases hpath hjoin with ⟨hname, hdata⟩ | ⟨text, hdata⟩
      . cases rest with
        | nil =>
          have hdata := List.append_inj_left' hdata rfl
          rw [hname, hdata]
        | cons next rest =>
          -- a second file lies in the content of the first
          rcases next with ⟨later, data''⟩
          have hlt : path < later := hname ▸ (List.pairwise_cons.mp hother).1 _ List.mem_cons_self
          rcases exists_tail data'' rest with ⟨tail, htail⟩
          rw [join_cons, htail] at hdata
          refine absurd ?_ (hlater data' later tail hlt)
          apply (List.append_left_inj [0]).mp
          apply hdata.symm.trans
          simp
      . -- the name goes on into the content
        rcases exists_tail data' rest with ⟨tail, htail⟩
        rw [htail] at hdata
        refine absurd ?_ (htext text tail)
        apply (List.append_left_inj [0]).mp
        apply hdata.trans
        simp
  | _ :: _ :: _ => cases h

/-- Every other preimage is also that of one file, or of two. -/
theorem exists_other {fields : List (List Char × Bytes)} (hsorted : fields.Pairwise fun a b => a.1 < b.1)
    (h : ¬ OneReading fields)
    : ∃ other, other.Pairwise (fun a b => a.1 < b.1) ∧ other ≠ fields ∧ join other = join fields := by
  match fields with
  | [] => exact absurd trivial h
  | (path, data) :: next :: rest =>
    rcases next with ⟨path', data'⟩
    rcases exists_tail data' rest with ⟨tail, htail⟩
    refine ⟨[(path, data ++ 0 :: (encode path' ++ 0 :: tail))], List.pairwise_singleton _ _, by simp, ?_⟩
    rw [join_cons, join_cons, join_cons, htail]
    simp [join]
  | [(path, data)] =>
    simp only [OneReading, not_and_or, not_not, not_forall] at h
    rcases h with hpath | ⟨text, rest, hdata⟩ | ⟨first, later, rest, hlt, hdata⟩
    . rcases List.append_of_mem hpath with ⟨front, back, heq⟩
      refine ⟨[(front, encode back ++ 0 :: data)], List.pairwise_singleton _ _, ?_, ?_⟩
      . intro hsame
        have hlength := congrArg (fun fields => (fields.map fun field => field.1.length).sum) hsame
        simp [heq] at hlength
      . rw [join_cons, join_cons, heq, encode_nul]
        simp
    . refine ⟨[(path ++ '\x00' :: text, rest)], List.pairwise_singleton _ _, ?_, ?_⟩
      . intro hsame
        have hlength := congrArg (fun fields => (fields.map fun field => field.1.length).sum) hsame
        simp at hlength
      . rw [join_cons, join_cons, encode_nul, hdata]
        simp
    . refine ⟨[(path, first), (later, rest)], by simpa using hlt, by simp, ?_⟩
      rw [join_cons, join_cons, join_cons, hdata]
      simp

/-- How many zero bytes there are in each name and content, in the order of the names. -/
def zeroBytes (fields : List (List Char × Bytes)) : List (ℕ × ℕ) :=
  fields.map fun field => ((encode field.1).count 0, field.2.count 0)

theorem join_injective {fields fields' : List (List Char × Bytes)} (hzero : zeroBytes fields = zeroBytes fields')
    (hjoin : join fields = join fields')
    : fields = fields' := by
  induction fields generalizing fields' with
  | nil => exact (join_eq_nil hjoin.symm).symm
  | cons field fields ih =>
    cases fields' with
    | nil => simp [zeroBytes] at hzero
    | cons field' fields' =>
      simp only [zeroBytes, List.map_cons, List.cons.injEq, Prod.mk.injEq] at hzero
      rw [join_cons, join_cons] at hjoin
      rcases Terminated.append_inj_of_count hzero.1.1 hjoin with ⟨hname, hrest⟩
      rcases Terminated.append_inj_of_count hzero.1.2 hrest with ⟨hdata, hrest⟩
      rw [ih hzero.2 hrest, Prod.ext (encode_injective hname) hdata]

/-- The preimage pins the files of a mapping if and only if it has one reading, and tells any two mappings apart that
hold equally many zero bytes field by field. -/
theorem preimage_pins (files : Files)
    : ((∀ files', files'.preimage = files.preimage → Same files' files) ↔ OneReading files.fields) ∧
        ∀ files' : Files,
          zeroBytes files.fields = zeroBytes files'.fields → files.preimage = files'.preimage →
            Same files files' := by
  refine ⟨⟨?_, ?_⟩, ?_⟩
  . intro hpins
    by_contra hnot
    rcases exists_other (sorted_fields files) hnot with ⟨other, hother, hne, hjoin⟩
    have hsame := hpins (filesOf other hother) (by rw [Files.preimage, fields_filesOf, hjoin, Files.preimage])
    rw [same_iff, fields_filesOf] at hsame
    apply hne hsame
  . intro hone files' hpreimage
    apply (same_iff files' files).mpr
    apply hone.unique (sorted_fields files') hpreimage
  . intro files' hzero hpreimage
    apply (same_iff files files').mpr
    apply join_injective hzero hpreimage

/-- One file whose content holds zero bytes, and two files. -/
theorem preimage_not_injective
    : ¬ ∀ files files' : Files, files.preimage = files'.preimage → Same files files' := by
  intro h
  have hsame :=
    h ⟨[(['a'], .bytes [120, 0, 98, 0, 121])], by decide⟩
      ⟨[(['a'], .bytes [120]), (['b'], .bytes [121])], by decide⟩ (by decide) ['b']
  simp [Files.get, Content.fileBytes, List.lookup] at hsame

end Ledger
