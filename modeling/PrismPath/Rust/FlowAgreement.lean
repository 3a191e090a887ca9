import PrismPath.Rust.CanonicalAgreement
import PrismPath.Rust.FlowAuthority
import PrismPath.Rust.ManifestDigest

/-!
This module contains when flow authorization gives one verdict: for which manifests and floors the Rust check and the
reference find the same, and that their floors then stay the same over any calls.
-/

namespace Rust

open Json Python

namespace Flow

variable {readFloat : Json.Number → Option Finite} {pylib : FlowDocuments.Library} {lib : Library}

/-- The hash, the reader and the float digits are the same on both sides. -/
structure SameLibraries (readFloat : Json.Number → Option Finite) (pylib : FlowDocuments.Library) (lib : Library)
    : Prop where
  sha256 : lib.sha256 = pylib.sha256
  fromStr : ∀ cs, lib.fromStr cs = (Json.parse cs).bind (Serde.read readFloat)
  lowerExp : RoundTrips lib.lowerExp

/- The members of a document. -/

theorem reads_lookup {remaining : ℕ} {ms : List (Str × Tree)} {kvs : List (Str × Value)}
    (h : Serde.readMembers readFloat remaining ms = some kvs) (name : Str)
    : Option.Rel (fun t v => Serde.readAt readFloat remaining t = some v) (ms.reverse.lookup name)
        (kvs.reverse.lookup name) := by
  induction ms generalizing kvs with
  | nil =>
    rw [Serde.readMembers, Option.some.injEq] at h
    subst h
    exact .none
  | cons m ms ih =>
    rcases m with ⟨k, t⟩
    simp only [Serde.readMembers, Option.bind_eq_bind, Option.bind_eq_some_iff, Option.some.injEq] at h
    rcases h with ⟨k', hk, v, hv, kvs', hkvs, rfl⟩
    rcases readString_some hk with ⟨rfl, _⟩
    rw [List.reverse_cons, List.reverse_cons, List.lookup_append, List.lookup_append, Dict.lookup_cons_eq,
      Dict.lookup_cons_eq]
    have hrest := ih hkvs
    generalize ms.reverse.lookup name = found, kvs'.reverse.lookup name = found' at hrest
    cases hrest with
    | some hrel => exact .some hrel
    | none =>
      rw [Option.none_or, Option.none_or]
      split
      . exact .some hv
      . exact .none

theorem lookup_map_str (d : List (Str × Obj)) (k : Str)
    : (d.map fun kv => (Key.str kv.1, kv.2)).lookup (.str k) = d.lookup k := by
  induction d with
  | nil => rfl
  | cons kv d ih =>
    rw [List.map_cons, Dict.lookup_cons_eq, Dict.lookup_cons_eq, ih]
    simp only [Key.str.injEq]

theorem lookup_decodeMembers_reverse (ms : List (Str × Tree)) (k : Str)
    : (decodeMembers ms).reverse.lookup k = (ms.reverse.lookup k).map decode := by
  induction ms with
  | nil => rfl
  | cons m ms ih =>
    rcases m with ⟨k', t⟩
    rw [decodeMembers, List.reverse_cons, List.reverse_cons, List.lookup_append, List.lookup_append, ih,
      Dict.lookup_cons_eq, Dict.lookup_cons_eq]
    cases ms.reverse.lookup k with
    | some t' => rfl
    | none =>
      rw [Option.map_none, Option.none_or, Option.none_or]
      split <;> rfl

theorem lookup_decode {ms : List (Str × Tree)} {d : List (Key × Obj)} (h : decode (.object ms) = .dict d) (k : Str)
    : d.lookup (.str k) = (ms.reverse.lookup k).map decode := by
  rw [decode, dictOf, Obj.dict.injEq] at h
  rw [← h, lookup_map_str, Dict.lookup_foldl_set, lookup_decodeMembers_reverse]

theorem get_decode (ms : List (Str × Tree)) (name : String) (default : Obj)
    : (decode (.object ms)).get name default = .ok (((ms.reverse.lookup (str name)).map decode).getD default) := by
  cases hdict : decode (.object ms) with
  | dict d => rw [Obj.get, lookup_decode hdict]
  | _ => cases hdict

theorem field_decode {ms : List (Str × Tree)} {name : String} {t : Tree} (h : ms.reverse.lookup (str name) = some t)
    : (decode (.object ms)).field name = .ok (decode t) := by
  cases hdict : decode (.object ms) with
  | dict d =>
    have hlookup := lookup_decode hdict (str name)
    rw [h, Option.map_some] at hlookup
    simp only [Obj.field, hlookup]
  | _ => cases hdict

/- What a member is on both sides. -/

theorem eq_str_iff (v : Obj) (s : Str)
    : v.eq (.str s) = true ↔ v = .str s := by
  cases v <;> simp [Obj.eq, Obj.num?]

theorem str_eq_iff (s : Str) (v : Obj)
    : (Obj.str s).eq v = true ↔ v = .str s := by
  cases v <;> simp [Obj.eq, Obj.num?, eq_comm]

theorem eq_str_iff_asStr {remaining : ℕ} {t : Tree} {v : Value} (h : Serde.readAt readFloat remaining t = some v)
    (s : Str)
    : (decode t).eq (.str s) = true ↔ v.asStr = some s := by
  rw [eq_str_iff, decode_eq_str_iff, asStr_read h]

theorem same_string_iff (s : Str) (v : Value)
    : (Value.string s).same v = true ↔ v.asStr = some s := by
  cases v <;> simp [Value.same, Value.asStr, eq_comm]

/-- A member that is a string, or is not there, on both sides. -/
theorem get_eq_str_iff {remaining : ℕ} {ms : List (Str × Tree)} {kvs : List (Str × Value)}
    (h : Serde.readMembers readFloat remaining ms = some kvs) (name : String) (s : Str)
    : (((ms.reverse.lookup (str name)).map decode).getD .none).eq (.str s) = true
        ↔ ((Value.object kvs).get? name).bind Value.asStr = some s := by
  have hrel := reads_lookup h (str name)
  rw [Value.get?]
  generalize ms.reverse.lookup (str name) = found, kvs.reverse.lookup (str name) = found' at hrel
  cases hrel with
  | some hread => exact eq_str_iff_asStr hread s
  | none => simp [Obj.eq, Obj.num?]

theorem number_of_pyInt {remaining : ℕ} {t : Tree} {v : Value} {n : ℤ} (h : Serde.readAt readFloat remaining t = some v)
    (hn : pyInt v = some n)
    : ∃ literal m, t = .number literal ∧ Serde.readNumber readFloat literal = some m ∧ m.asI64 = some n := by
  match remaining, t with
  | _, .number literal =>
    rw [Serde.readAt] at h
    rcases Option.map_eq_some_iff.mp h with ⟨m, hm, rfl⟩
    exact ⟨literal, m, rfl, hm, hn⟩
  | _, .word w =>
    rw [Serde.readAt] at h
    cases w <;> first | cases h; cases hn | cases h
  | _, .string s =>
    rw [Serde.readAt] at h
    rcases Option.map_eq_some_iff.mp h with ⟨_, _, rfl⟩
    cases hn
  | 0, .array ts => cases h
  | remaining + 1, .array ts =>
    rcases Option.map_eq_some_iff.mp h with ⟨_, _, rfl⟩
    cases hn
  | 0, .object ms => cases h
  | remaining + 1, .object ms =>
    rcases Option.map_eq_some_iff.mp h with ⟨_, _, rfl⟩
    cases hn

theorem asI64_of_float {literal : Json.Number} {m : Number} {n : ℤ} (h : (readFloat literal).map Number.float = some m)
    : m.asI64 ≠ some n := by
  rcases Option.map_eq_some_iff.mp h with ⟨_, _, rfl⟩
  exact fun heq => by cases heq

/-- What Rust takes for an integer is the integer Python reads. -/
theorem decode_of_pyInt {remaining : ℕ} {t : Tree} {v : Value} {n : ℤ} (h : Serde.readAt readFloat remaining t = some v)
    (hn : pyInt v = some n)
    : decode t = .int n ∧ -2 ^ 63 ≤ n ∧ n < 2 ^ 63 := by
  rcases number_of_pyInt h hn with ⟨literal, m, rfl, hm, hasI64⟩
  unfold Serde.readNumber at hm
  split at hm
  next hint =>
    rw [decode, decodeNumber, if_pos hint]
    split at hm
    next hneg =>
      split at hm
      next hwhole =>
        cases hm
        cases hasI64
        rw [if_pos hneg]
        refine ⟨rfl, ?_, ?_⟩
        . show -2 ^ 63 ≤ -(literal.whole : ℤ)
          omega
        . show -(literal.whole : ℤ) < 2 ^ 63
          omega
      next => exact absurd hasI64 (asI64_of_float hm)
    next hpos =>
      split at hm
      next hwhole =>
        cases hm
        rw [Number.asI64] at hasI64
        split at hasI64
        next hlt =>
          cases hasI64
          rw [if_neg hpos]
          exact ⟨rfl, by omega, by exact_mod_cast hlt⟩
        next => cases hasI64
      next => exact absurd hasI64 (asI64_of_float hm)
  next => exact absurd hasI64 (asI64_of_float hm)

theorem literal_of_decode {t : Tree} {n : ℤ} (h : decode t = .int n)
    : ∃ literal : Json.Number, t = .number literal ∧ (literal.fraction.val = [] ∧ literal.exponent.isNone = true)
        ∧ n = if literal.neg then -(literal.whole : ℤ) else literal.whole := by
  cases t with
  | number literal =>
    rw [decode, decodeNumber] at h
    split at h
    next hint =>
      cases h
      exact ⟨literal, rfl, hint, rfl⟩
    next => cases h
  | word w => cases w <;> cases h
  | string s => cases h
  | array ts => cases h
  | object ms => cases h

/-- An integer of 64 bits that Python reads of a faithful number is what Rust takes it for. -/
theorem pyInt_of_decode {lowerExp : Double → Decimal} {remaining : ℕ} {t : Tree} {v : Value} {n : ℤ}
    (h : Serde.readAt readFloat remaining t = some v) (hfaithful : FaithfulAt readFloat lowerExp remaining t)
    (hn : decode t = .int n) (hrange : n < 2 ^ 63)
    : pyInt v = some n := by
  rcases literal_of_decode hn with ⟨literal, rfl, hint, rfl⟩
  rw [FaithfulAt, FaithfulNumber, if_pos hint] at hfaithful
  rw [Serde.readAt] at h
  rcases Option.map_eq_some_iff.mp h with ⟨m, hm, rfl⟩
  rw [Serde.readNumber, if_pos hint] at hm
  split at hm
  next hneg =>
    rw [if_pos hneg] at hfaithful
    rw [dif_pos hfaithful] at hm
    cases hm
    rw [if_pos hneg]
    rfl
  next hpos =>
    rw [if_neg hpos] at hfaithful hrange
    rw [dif_pos hfaithful] at hm
    cases hm
    have hlt : literal.whole < 2 ^ 63 := by exact_mod_cast hrange
    rw [if_neg hpos]
    exact if_pos hlt

/-- A version that is no bool and no integer past 64 bits is the same on both sides. -/
theorem version_agrees {lowerExp : Double → Decimal} {remaining : ℕ} {t : Tree} {v : Value}
    (h : Serde.readAt readFloat remaining t = some v) (hfaithful : FaithfulAt readFloat lowerExp remaining t)
    (hbool : ∀ b, decode t ≠ .bool b) (hrange : ∀ n, decode t = .int n → n < 2 ^ 63)
    : FlowDocuments.version? (decode t) = pyInt v := by
  cases hv : pyInt v with
  | some n => rw [(decode_of_pyInt h hv).1, FlowDocuments.version?]
  | none =>
    cases hdecode : decode t with
    | int n =>
      rw [pyInt_of_decode h hfaithful hdecode (hrange n hdecode)] at hv
      cases hv
    | bool b => exact absurd hdecode (hbool b)
    | none => rfl
    | float x => rfl
    | str s => rfl
    | list vs => rfl
    | dict kvs => rfl

/- Names. -/

/-- A document that is no list and no object. -/
def Scalar : Tree → Prop
  | .array _ => False
  | .object _ => False
  | _ => True

theorem numberText_of_faithful (hlower : RoundTrips lib.lowerExp) {literal : Json.Number} {m : Number}
    (hfaithful : FaithfulNumber readFloat lib.lowerExp literal) (hm : Serde.readNumber readFloat literal = some m)
    : numberText lib.lowerExp m = write .compact (pythonNumber literal) := by
  rcases tree_of_faithfulNumber hfaithful with ⟨m', hm', htree⟩
  rw [hm, Option.some.injEq] at hm'
  subst hm'
  have htext := pyCanonicalString_eq hlower.coeff_pos false (.number m)
  rw [Value.tree, htree] at htext
  exact htext

/-- What is neither a list nor an object has one name. -/
theorem pyStr_agrees (hlower : RoundTrips lib.lowerExp) {remaining : ℕ} {t : Tree} {v : Value}
    (h : Serde.readAt readFloat remaining t = some v) (hfaithful : FaithfulAt readFloat lib.lowerExp remaining t)
    (hscalar : Scalar t)
    : FlowDocuments.pyStr pylib (decode t) = pyStr lib (some v) := by
  cases t with
  | word w =>
    rw [Serde.readAt] at h
    cases w <;> first | (cases h; rfl) | cases h
  | number literal =>
    rw [FaithfulAt] at hfaithful
    rw [Serde.readAt] at h
    rcases Option.map_eq_some_iff.mp h with ⟨m, hm, rfl⟩
    have htext := numberText_of_faithful hlower hfaithful hm
    rw [pyStr, htext, pythonNumber, decode, decodeNumber]
    split
    next => rfl
    next hint =>
      rw [FaithfulNumber, if_neg hint] at hfaithful
      rcases hfaithful with ⟨x, hfinite, _, _⟩
      rw [hfinite]
      rfl
  | string s =>
    rw [Serde.readAt] at h
    rcases Option.map_eq_some_iff.mp h with ⟨s', hs, rfl⟩
    rw [(readString_some hs).1]
    rfl
  | array ts => exact hscalar.elim
  | object ms => exact hscalar.elim

theorem faithfulAt_of_mem {lowerExp : Double → Decimal} {remaining : ℕ} {ms : List (Str × Tree)}
    (h : FaithfulMembers readFloat lowerExp remaining ms) {m : Str × Tree} (hm : m ∈ ms)
    : FaithfulAt readFloat lowerExp remaining m.2 := by
  induction ms with
  | nil => cases hm
  | cons m' ms ih =>
    rcases m' with ⟨k, t⟩
    rw [FaithfulMembers] at h
    rcases List.mem_cons.mp hm with rfl | hm
    . exact h.2.1
    . exact ih h.2.2 hm

theorem faithfulAt_of_lookup {lowerExp : Double → Decimal} {remaining : ℕ} {ms : List (Str × Tree)}
    (h : FaithfulMembers readFloat lowerExp remaining ms) {k : Str} {t : Tree} (ht : ms.reverse.lookup k = some t)
    : FaithfulAt readFloat lowerExp remaining t :=
  faithfulAt_of_mem h (List.mem_reverse.mp (Dict.mem_of_lookup ht))

/- Manifests that both sides read alike. -/

/--
The document is one that both sides write alike, its version is no bool and no integer past 64 bits, and its flow is
named by a scalar.
-/
structure Alike (readFloat : Json.Number → Option Finite) (lowerExp : Double → Decimal) (ms : List (Str × Tree))
    : Prop where
  faithful : Faithful readFloat lowerExp (.object ms)
  version : ∀ t, ms.reverse.lookup (str "version") = some t → (∀ b, decode t ≠ .bool b) ∧ ∀ n, decode t = .int n → n < 2 ^ 63
  flow : ∀ t, ms.reverse.lookup (str "flow") = some t → Scalar t

/-- A document that both sides have read, and that is alike. -/
structure Both (readFloat : Json.Number → Option Finite) (lowerExp : Double → Decimal) (ms : List (Str × Tree))
    (kvs : List (Str × Value)) : Prop where
  alike : Alike readFloat lowerExp ms
  read : Serde.readMembers readFloat 126 ms = some kvs

section

variable {ms : List (Str × Tree)} {kvs : List (Str × Value)}

theorem Alike.both {lowerExp : Double → Decimal} (h : Alike readFloat lowerExp ms)
    : ∃ kvs, Both readFloat lowerExp ms kvs ∧ Serde.read readFloat (.object ms) = some (.object kvs) := by
  have hmembers : FaithfulMembers readFloat lowerExp 126 ms := h.faithful
  rcases readMembers_of_faithful 126 ms hmembers with ⟨kvs, hread, _⟩
  have hlimit : Serde.recursionLimit = 126 + 1 := rfl
  exact ⟨kvs, ⟨h, hread⟩, by rw [Serde.read, hlimit, Serde.readAt, hread]; rfl⟩

variable (hlibs : SameLibraries readFloat pylib lib) (h : Both readFloat lib.lowerExp ms kvs)
include hlibs h

theorem Both.flowName
    : FlowDocuments.flowName pylib (decode (.object ms)) = .ok (.str (pyStr lib ((Value.object kvs).get? "flow"))) := by
  have hrel := reads_lookup h.read (str "flow")
  have hflow := h.alike.flow
  have hfaithful : ∀ t, ms.reverse.lookup (str "flow") = some t → FaithfulAt readFloat lib.lowerExp 126 t :=
    fun t ht => faithfulAt_of_lookup h.alike.faithful ht
  rw [FlowDocuments.flowName, get_decode, Value.get?]
  generalize ms.reverse.lookup (str "flow") = found, kvs.reverse.lookup (str "flow") = found' at hrel hflow hfaithful
  cases hrel with
  | none => rfl
  | some hread =>
    have hname := @pyStr_agrees _ pylib lib hlibs.lowerExp _ _ _ hread (hfaithful _ rfl) (hflow _ rfl)
    exact congrArg (fun name => Except.ok (Key.str name)) hname

omit hlibs in
theorem Both.serde
    : Serde.read readFloat (.object ms) = some (.object kvs) := by
  have hlimit : Serde.recursionLimit = 126 + 1 := rfl
  rw [Serde.read, hlimit, Serde.readAt, h.read]
  rfl

theorem Both.canonicalBytes
    : FlowDocuments.canonicalBytes (decode (.object ms)) = .ok (canonicalBytes lib (.object kvs)) := by
  have hrust := rustText_of_faithful hlibs.lowerExp false h.alike.faithful
  have hpython := pythonText_eq false (.object ms)
  rw [rustText, h.serde, Option.map_some] at hrust
  rw [← hrust, pythonText, if_neg Bool.false_ne_true] at hpython
  rw [FlowDocuments.canonicalBytes, hpython]
  rfl

omit hlibs in
theorem Both.member {name : String} {v : Value} (hv : (Value.object kvs).get? name = some v)
    : ∃ t, ms.reverse.lookup (str name) = some t ∧ Serde.readAt readFloat 126 t = some v := by
  have hrel := reads_lookup h.read (str name)
  rw [Value.get?] at hv
  rw [hv] at hrel
  generalize ms.reverse.lookup (str name) = found at hrel
  cases hrel with
  | some hread => exact ⟨_, rfl, hread⟩

omit hlibs in
theorem Both.field {name : String} {v : Value} (hv : (Value.object kvs).get? name = some v)
    : ∃ t, (decode (.object ms)).field name = .ok (decode t) ∧ (decode (.object ms)).get name .none = .ok (decode t)
        ∧ Serde.readAt readFloat 126 t = some v := by
  rcases h.member hv with ⟨t, ht, hread⟩
  refine ⟨t, field_decode ht, ?_, hread⟩
  rw [get_decode, ht]
  rfl

omit hlibs in
theorem Both.version
    : FlowDocuments.version? (((ms.reverse.lookup (str "version")).map decode).getD .none)
        = ((Value.object kvs).get? "version").bind pyInt := by
  have hrel := reads_lookup h.read (str "version")
  have hversions := h.alike.version
  have hfaithful : ∀ t, ms.reverse.lookup (str "version") = some t → FaithfulAt readFloat lib.lowerExp 126 t :=
    fun t ht => faithfulAt_of_lookup h.alike.faithful ht
  rw [Value.get?]
  generalize ms.reverse.lookup (str "version") = found, kvs.reverse.lookup (str "version") = found' at hrel hversions hfaithful
  cases hrel with
  | none => rfl
  | some hread => exact version_agrees hread (hfaithful _ rfl) (hversions _ rfl).1 (hversions _ rfl).2

omit hlibs in
theorem Both.versionField {n : ℤ} (hn : ((Value.object kvs).get? "version").bind pyInt = some n)
    : (decode (.object ms)).field "version" = .ok (.int n) ∧ -2 ^ 63 ≤ n ∧ n < 2 ^ 63 := by
  rcases Option.bind_eq_some_iff.mp hn with ⟨v, hv, hvn⟩
  rcases h.field hv with ⟨t, hfield, _, hread⟩
  rcases decode_of_pyInt hread hvn with ⟨hdecode, hrange⟩
  rw [hfield, hdecode]
  exact ⟨rfl, hrange⟩

omit hlibs in
theorem Both.manifestVersion {n : ℤ} (hn : ((Value.object kvs).get? "version").bind pyInt = some n)
    : FlowDocuments.manifestVersion (decode (.object ms)) = .ok n := by
  rw [FlowDocuments.manifestVersion, (h.versionField hn).1]
  rfl

omit hlibs in
/-- A hash that is a string. -/
theorem Both.hashField {hash : Str} (hhash : ((Value.object kvs).get? "flow_sha256").bind Value.asStr = some hash)
    : (decode (.object ms)).field "flow_sha256" = .ok (.str hash)
        ∧ (decode (.object ms)).get "flow_sha256" .none = .ok (.str hash)
        ∧ (Value.object kvs).get? "flow_sha256" = some (.string hash) := by
  rcases Option.bind_eq_some_iff.mp hhash with ⟨v, hv, hvs⟩
  rcases h.field hv with ⟨t, hfield, hget, hread⟩
  rw [asStr_read hread] at hvs
  rw [hfield, hget, (decode_eq_str_iff t hash).mpr hvs, hv]
  rw [← asStr_read hread] at hvs
  refine ⟨rfl, rfl, ?_⟩
  cases v with
  | string s =>
    cases hvs
    rfl
  | _ => cases hvs

theorem Both.manifestSha256
    : FlowDocuments.manifestSha256 pylib (decode (.object ms)) = .ok (manifestSha256 lib (.object kvs)) := by
  rw [FlowDocuments.manifestSha256, h.canonicalBytes hlibs]
  show Except.ok (FlowDocuments.sha256Hex pylib _) = _
  rw [FlowDocuments.sha256Hex, ← hlibs.sha256]
  rfl

end

/- Floors. -/

/-- An entry with one version, and a hash that compares alike with every string. -/
structure SameEntry (entry : Obj) (entry' : Value) : Prop where
  version : ∃ n : ℤ, FlowDocuments.storedVersion entry = .ok (.finite n) ∧ (entry'.get? "version").bind pyInt = some n
  hash : ∃ hash hash', entry.field "flow_sha256" = .ok hash ∧ entry'.get? "flow_sha256" = some hash'
    ∧ ∀ s, (Obj.str s).eq hash = (Value.string s).same hash'

/-- Two floors with the same entry for each flow. -/
def SameFloor (entries : FlowDocuments.Entries) (floor : VersionFloor) : Prop :=
  ∀ name, Option.Rel SameEntry (FlowDocuments.entry? entries (.str name)) (floor.get name)

theorem sameFloor_empty
    : SameFloor [] {} := by
  intro name
  exact .none

theorem storedVersion_lt (n m : ℤ)
    : (Python.Number.finite n).lt (.finite m) = decide (n < m) := by
  simp [Python.Number.lt]

theorem storedVersion_eq (n m : ℤ)
    : (Python.Number.finite n).eq (.finite m) = decide (n = m) := by
  simp [Python.Number.eq]

section

variable {ms : List (Str × Tree)} {kvs : List (Str × Value)}
variable (hlibs : SameLibraries readFloat pylib lib) (h : Both readFloat lib.lowerExp ms kvs)
include hlibs h

/-- Of a manifest whose hash is a string. -/
theorem SameFloor.admits {entries : FlowDocuments.Entries} {floor : VersionFloor} (hfloor : SameFloor entries floor)
    {n : ℤ} (hn : ((Value.object kvs).get? "version").bind pyInt = some n) {hash : Str}
    (hhash : ((Value.object kvs).get? "flow_sha256").bind Value.asStr = some hash)
    : FlowDocuments.admits pylib entries (decode (.object ms)) = .ok (floor.admits lib (.object kvs)) := by
  have hrel := hfloor (pyStr lib ((Value.object kvs).get? "flow"))
  rw [FlowDocuments.admits, h.flowName hlibs, VersionFloor.admits, hn]
  dsimp only [bind, Except.bind]
  generalize FlowDocuments.entry? entries (.str (pyStr lib ((Value.object kvs).get? "flow"))) = entry,
    floor.get (pyStr lib ((Value.object kvs).get? "flow")) = entry' at hrel
  cases hrel with
  | none => rfl
  | some hentry =>
    rcases hentry.version with ⟨m, hstored, hversion⟩
    rcases hentry.hash with ⟨found, found', hfield, hget, hsame⟩
    rcases h.hashField hhash with ⟨_, hgetHash, hv⟩
    simp only [h.manifestVersion hn, hstored, hfield, hgetHash, hversion, hget, hv, Value.sameOpt, pure, Except.pure,
      storedVersion_lt, storedVersion_eq, hsame]
    by_cases hlt : m < n
    . simp [hlt]
    . by_cases heq : m = n
      . simp [heq]
      . simp [hlt, heq, Ne.symm heq]

end

theorem SameFloor.set {entries : FlowDocuments.Entries} {floor : VersionFloor} (hfloor : SameFloor entries floor)
    {name : Str} {entry : Obj} {entry' : Value} (hentry : SameEntry entry entry')
    : SameFloor (Dict.set entries (.str name) entry) ⟨floor.entries ++ [(name, entry')]⟩ := by
  intro name'
  have hrel := hfloor name'
  rw [FlowDocuments.entry?, Dict.lookup_set, VersionFloor.get, List.reverse_append, List.reverse_singleton,
    List.singleton_append, Dict.lookup_cons_eq]
  by_cases hname : name = name'
  . subst hname
    rw [if_pos rfl, if_pos rfl]
    cases entry with
    | none => rcases hentry.version with ⟨n, hstored, _⟩; cases hstored
    | _ => exact .some hentry
  . rw [if_neg hname, if_neg (by simpa using hname)]
    exact hrel

theorem asI64_ofInt {n : ℤ} (hlow : -2 ^ 63 ≤ n) (hhigh : n < 2 ^ 63)
    : pyInt (Host.ofInt n) = some n := by
  rw [Host.ofInt]
  split
  next h =>
    rw [pyInt, Value.asI64, Number.asI64, if_pos (by simpa using (by omega : n.toNat < 2 ^ 63))]
    rw [Int.toNat_of_nonneg h.1]
  next h =>
    rw [dif_pos ⟨hlow, by omega⟩]
    rfl

theorem sameEntry_new {n : ℤ} (hlow : -2 ^ 63 ≤ n) (hhigh : n < 2 ^ 63) (hash digest : Str)
    : SameEntry (record [("version", .int n), ("flow_sha256", .str hash), ("manifest_sha256", .str digest)])
        (Host.jsonObject [("version", Host.ofInt n), ("flow_sha256", .string hash), ("manifest_sha256", .string digest)])
        where
  version := ⟨n, rfl, asI64_ofInt hlow hhigh⟩
  hash := ⟨.str hash, .string hash, rfl, rfl, fun _ => rfl⟩

section

variable {ms : List (Str × Tree)} {kvs : List (Str × Value)}
variable (hlibs : SameLibraries readFloat pylib lib) (h : Both readFloat lib.lowerExp ms kvs)
include hlibs h

/-- Of a manifest whose hash is a string. -/
theorem SameFloor.accept {entries : FlowDocuments.Entries} {floor : VersionFloor} (hfloor : SameFloor entries floor)
    {n : ℤ} (hn : ((Value.object kvs).get? "version").bind pyInt = some n) {hash : Str}
    (hhash : ((Value.object kvs).get? "flow_sha256").bind Value.asStr = some hash)
    : ∃ entries' floor', FlowDocuments.accept pylib entries (decode (.object ms)) = .ok entries'
        ∧ floor.accept lib (.object kvs) = some floor' ∧ SameFloor entries' floor' := by
  rcases h.hashField hhash with ⟨hfield, _, hget⟩
  rcases h.versionField hn with ⟨hversion, hlow, hhigh⟩
  generalize hname : pyStr lib ((Value.object kvs).get? "flow") = name
  have hflow : FlowDocuments.flowName pylib (decode (.object ms)) = .ok (.str name) := by
    rw [h.flowName hlibs, hname]
  have hraise : FlowDocuments.raise pylib entries (decode (.object ms))
      = .ok (Dict.set entries (.str name) (record [("version", .int n), ("flow_sha256", .str hash),
          ("manifest_sha256", .str (manifestSha256 lib (.object kvs)))])) := by
    rw [FlowDocuments.raise, hflow, hversion, hfield, h.manifestSha256 hlibs]
    rfl
  have hnew : newEntry lib (.object kvs) n = some (Host.jsonObject [("version", Host.ofInt n),
      ("flow_sha256", .string hash), ("manifest_sha256", .string (manifestSha256 lib (.object kvs)))]) := by
    rw [newEntry, hget]
    rfl
  have hraised := @SameFloor.set _ _ hfloor name _ _ (@sameEntry_new n hlow hhigh hash (manifestSha256 lib (.object kvs)))
  have hrel := hfloor name
  rw [FlowDocuments.accept, hflow, VersionFloor.accept, hname, hn, Option.bind_eq_bind, Option.bind_some, hnew, hraise]
  simp only [bind, Except.bind]
  generalize FlowDocuments.entry? entries (.str name) = entry, floor.get name = entry' at hrel
  cases hrel with
  | none => exact ⟨_, _, rfl, rfl, hraised⟩
  | some hentry =>
    rcases hentry.version with ⟨m, hstored, hentryVersion⟩
    simp only [hstored, h.manifestVersion hn, Option.bind_some, hentryVersion, pure, Except.pure,
      Python.Number.le, storedVersion_lt, storedVersion_eq]
    by_cases hle : n ≤ m
    . have hle' : (decide (n < m) || decide (n = m)) = true := by
        simpa using lt_or_eq_of_le hle
      rw [if_pos hle', if_pos hle]
      exact ⟨_, _, rfl, rfl, hfloor⟩
    . have hle' : ¬(decide (n < m) || decide (n = m)) = true := by
        simp only [Bool.or_eq_true, decide_eq_true_eq]
        omega
      rw [if_neg hle', if_neg hle]
      exact ⟨_, _, rfl, rfl, hraised⟩

end

/- Floor files that both sides read alike. -/

/-- An entry with an integer version of 64 bits and a hash. -/
def EntryAlike (readFloat : Json.Number → Option Finite) (lowerExp : Double → Decimal) (t : Tree) : Prop :=
  ∃ es literal n, t = .object es ∧ es.reverse.lookup (str "version") = some (.number literal)
    ∧ FaithfulNumber readFloat lowerExp literal ∧ decode (.number literal) = .int n ∧ n < 2 ^ 63
    ∧ (es.reverse.lookup (str "flow_sha256")).isSome

/-- A floor file in which each entry is alike; a file that does not exist is one. -/
def FloorAlike (readFloat : Json.Number → Option Finite) (lowerExp : Double → Decimal) : Option (List Char) → Prop
  | none => True
  | some text =>
    ∃ ms kvs, parse text = some (.object ms) ∧ Serde.read readFloat (.object ms) = some (.object kvs)
      ∧ ∀ name t, ms.reverse.lookup name = some t → EntryAlike readFloat lowerExp t

/-- `VersionFloor::default()` where there is no file. -/
def loadFloor (lib : Library) : Option (List Char) → Option VersionFloor
  | none => some {}
  | some text => VersionFloor.fromJsonStr lib text

theorem sameEntry_of_alike {lowerExp : Double → Decimal} {remaining : ℕ} {t : Tree} {v : Value}
    (h : Serde.readAt readFloat remaining t = some v) (halike : EntryAlike readFloat lowerExp t)
    : SameEntry (decode t) v := by
  rcases halike with ⟨es, literal, n, rfl, hversion, hfaithful, hn, hrange, hhash⟩
  cases remaining with
  | zero => cases h
  | succ remaining =>
    rcases Option.map_eq_some_iff.mp h with ⟨kvs, hread, rfl⟩
    have hfaithfulAt : FaithfulAt readFloat lowerExp remaining (.number literal) := by
      rw [FaithfulAt]
      exact hfaithful
    have hversions := reads_lookup hread (str "version")
    have hhashes := reads_lookup hread (str "flow_sha256")
    rcases Option.isSome_iff_exists.mp hhash with ⟨t, ht⟩
    rw [hversion] at hversions
    rw [ht] at hhashes
    generalize hfound : kvs.reverse.lookup (str "version") = found at hversions
    generalize hfound' : kvs.reverse.lookup (str "flow_sha256") = found' at hhashes
    cases hversions with
    | some hreadVersion =>
      cases hhashes with
      | some hreadHash =>
        constructor
        . refine ⟨n, ?_, ?_⟩
          . rw [FlowDocuments.storedVersion, field_decode hversion, hn]
            rfl
          . rw [Value.get?, hfound, Option.bind_some]
            exact pyInt_of_decode hreadVersion hfaithfulAt hn hrange
        . refine ⟨_, _, field_decode ht, hfound', fun s => ?_⟩
          rw [Bool.eq_iff_iff, str_eq_iff, ← eq_str_iff, eq_str_iff_asStr hreadHash, same_string_iff]

theorem sameFloor_load (hlibs : SameLibraries readFloat pylib lib) {file : Option (List Char)}
    (h : FloorAlike readFloat lib.lowerExp file)
    : ∃ entries floor, FlowDocuments.loadFloor file = .ok entries ∧ loadFloor lib file = some floor
        ∧ SameFloor entries floor := by
  cases file with
  | none => exact ⟨[], {}, rfl, rfl, sameFloor_empty⟩
  | some text =>
    rcases h with ⟨ms, kvs, hparse, hread, hentries⟩
    have hlimit : Serde.recursionLimit = 126 + 1 := rfl
    have hmembers : Serde.readMembers readFloat 126 ms = some kvs := by
      rw [Serde.read, hlimit, Serde.readAt] at hread
      rcases Option.map_eq_some_iff.mp hread with ⟨kvs', hkvs, heq⟩
      cases heq
      exact hkvs
    cases hdict : decode (.object ms) with
    | dict d =>
      refine ⟨d, ⟨kvs⟩, ?_, ?_, fun name => ?_⟩
      . rw [FlowDocuments.loadFloor, loads, hparse, Option.map_some, hdict]
      . rw [loadFloor, VersionFloor.fromJsonStr, hlibs.fromStr, hparse, Option.bind_some, hread]
      . have hrel := reads_lookup hmembers name
        have halike := hentries name
        rw [FlowDocuments.entry?, lookup_decode hdict, VersionFloor.get]
        generalize ms.reverse.lookup name = found, kvs.reverse.lookup name = found' at hrel halike
        cases hrel with
        | none => exact .none
        | @some t v hreadEntry =>
          have hsame := sameEntry_of_alike hreadEntry (halike t rfl)
          rw [Option.map_some]
          split
          next hnone =>
            rw [Option.some.injEq] at hnone
            rw [hnone] at hsame
            rcases hsame.version with ⟨n, hstored, _⟩
            cases hstored
          next => exact .some hsame
    | _ => cases hdict

/- The check. -/

theorem universalNewlines_agree (cs : List Char)
    : universalNewlines cs = FlowAuthority.universalNewlines cs := by
  fun_induction FlowAuthority.universalNewlines cs with
  | case1 cs ih => rw [← ih]; rfl
  | case2 cs hnext ih =>
    rw [← ih, universalNewlines, universalNewlines, replaceCrLf]
    . rfl
    . exact fun cs' _ heq => hnext cs' heq
  | case3 c cs hcrlf hcr ih =>
    rw [← ih, universalNewlines, universalNewlines, replaceCrLf]
    . rw [List.map_cons, if_neg hcr]
    . exact fun cs' hc heq => hcr hc
  | case4 => rfl

theorem flowSha256_agrees (hlibs : SameLibraries readFloat pylib lib) {flow : List UInt8}
    (h : (String.fromUTF8? ⟨flow.toArray⟩).isSome)
    : ∃ hash, FlowDocuments.flowSha256 pylib flow = .ok hash ∧ flowSha256 lib flow = some hash := by
  rcases Option.isSome_iff_exists.mp h with ⟨text, htext⟩
  refine ⟨sha256Hex lib (String.ofList (universalNewlines text.toList)).toUTF8.data.toList, ?_, by rw [flowSha256, htext]⟩
  rw [FlowDocuments.flowSha256, htext, universalNewlines_agree, sha256Hex, Pack.sha256Hex, hlibs.sha256]
  rfl

theorem findSigner_agrees (hlibs : SameLibraries readFloat pylib lib) {payload sig : List UInt8}
    {trusted : List (List UInt8)}
    (h : ∀ key ∈ trusted, key.length = 32 ∧ pylib.verify key payload sig = verifyEd25519 lib key payload sig)
    : FlowDocuments.findSigner pylib payload sig trusted
        = .ok ((trusted.find? fun key => verifyEd25519 lib key payload sig).map (sha256Hex lib)) := by
  induction trusted with
  | nil => rfl
  | cons key keys ih =>
    rcases h key List.mem_cons_self with ⟨hlength, hverify⟩
    rw [FlowDocuments.findSigner, if_neg (not_not.mpr hlength), hverify, List.find?_cons]
    split
    next hok =>
      rw [hok, FlowDocuments.sha256Hex, ← hlibs.sha256]
      rfl
    next hok =>
      rw [Bool.not_eq_true] at hok
      rw [hok]
      exact ih fun key' hkey' => h key' (List.mem_cons_of_mem _ hkey')

/-- The two answers are the same. -/
structure SameVerdict (verdict : FlowDocuments.Verdict) (verdict' : FlowVerdict) : Prop where
  ok : verdict.ok = verdict'.ok
  causes : verdict.causes = verdict'.causes

/-- Both sides verified one manifest, with one integer version and a hash that is a string. -/
structure BothVerified (readFloat : Json.Number → Option Finite) (lib : Library) (verdict : FlowDocuments.Verdict)
    (verdict' : FlowVerdict) (ms : List (Str × Tree)) (kvs : List (Str × Value)) (n : ℤ) (hash : Str) : Prop where
  both : Both readFloat lib.lowerExp ms kvs
  manifest : verdict.manifest = some (decode (.object ms))
  manifest' : verdict'.manifest = some (.object kvs)
  version : ((Value.object kvs).get? "version").bind pyInt = some n
  hash : ((Value.object kvs).get? "flow_sha256").bind Value.asStr = some hash

section

variable {ms : List (Str × Tree)} {kvs : List (Str × Value)}
variable (hlibs : SameLibraries readFloat pylib lib) (h : Both readFloat lib.lowerExp ms kvs)
include hlibs h

theorem verifyManifest_agrees {flow sig : List UInt8} {trusted : List (List UInt8)} {revoked : List Str}
    {entries : Option FlowDocuments.Entries} {floor : Option VersionFloor} (hfloor : Option.Rel SameFloor entries floor)
    {n : ℤ} (hn : ((Value.object kvs).get? "version").bind pyInt = some n)
    (hkeys : ∀ key ∈ trusted, key.length = 32
      ∧ ∀ payload, pylib.verify key payload sig = verifyEd25519 lib key payload sig)
    (hflow : (String.fromUTF8? ⟨flow.toArray⟩).isSome)
    : ∃ verdict, FlowDocuments.verifyManifest pylib flow sig trusted revoked entries (decode (.object ms)) = .ok verdict
        ∧ SameVerdict verdict (verifyManifest lib flow sig trusted revoked floor (.object kvs))
        ∧ (verdict.ok = true → ∃ hash, BothVerified readFloat lib verdict
            (verifyManifest lib flow sig trusted revoked floor (.object kvs)) ms kvs n hash) := by
  have hrefused : ∀ cause manifest manifest', SameVerdict (FlowDocuments.refuse cause manifest) (refuse cause manifest')
      ∧ ((FlowDocuments.refuse cause manifest).ok = true → ∃ hash, BothVerified readFloat lib
          (FlowDocuments.refuse cause manifest) (refuse cause manifest') ms kvs n hash) :=
    fun cause manifest manifest' => ⟨⟨rfl, rfl⟩, fun hok => by cases hok⟩
  unfold FlowDocuments.verifyManifest verifyManifest
  rw [h.canonicalBytes hlibs]
  simp only [bind, Except.bind, pure, Except.pure]
  rw [findSigner_agrees hlibs fun key hkey => ⟨(hkeys key hkey).1, (hkeys key hkey).2 _⟩]
  cases trusted.find? fun key => verifyEd25519 lib key (canonicalBytes lib (.object kvs)) sig with
  | none => exact ⟨_, rfl, hrefused _ _ _⟩
  | some key =>
    simp only [Option.map_some]
    by_cases hrevoked : sha256Hex lib key ∈ revoked
    . rw [if_pos hrevoked, if_pos hrevoked]
      exact ⟨_, rfl, hrefused _ _ _⟩
    rw [if_neg hrevoked, if_neg hrevoked]
    have hkeyId := get_eq_str_iff h.read "key_id" (sha256Hex lib key)
    rw [get_decode]
    dsimp only
    by_cases hid : ((Value.object kvs).get? "key_id").bind Value.asStr = some (sha256Hex lib key)
    . rw [hkeyId.mpr hid, Bool.not_true, if_neg Bool.false_ne_true, if_neg (not_not.mpr hid)]
      rcases flowSha256_agrees hlibs hflow with ⟨hash, hpython, hrust⟩
      have hhash := get_eq_str_iff h.read "flow_sha256" hash
      rw [hpython, hrust, get_decode, Option.isNone_some, Bool.false_or]
      dsimp only
      rw [eq_str_iff, ← str_eq_iff] at hhash
      by_cases hequal : ((Value.object kvs).get? "flow_sha256").bind Value.asStr = some hash
      . rw [hhash.mpr hequal, Bool.not_true, if_neg Bool.false_ne_true,
          if_neg (by simpa using hequal.symm)]
        have haccepted : ∃ hash, BothVerified readFloat lib ⟨true, [], some (decode (.object ms))⟩
            ⟨true, [], some (.object kvs)⟩ ms kvs n hash := ⟨hash, h, rfl, rfl, hn, hequal⟩
        cases hfloor with
        | none => exact ⟨_, rfl, ⟨rfl, rfl⟩, fun _ => haccepted⟩
        | some hsame =>
          dsimp only
          rw [hsame.admits hlibs h hn hequal, Option.map_some, Option.getD_some]
          dsimp only
          split
          next hadmits =>
            rw [hadmits, Bool.not_true, if_neg Bool.false_ne_true]
            exact ⟨_, rfl, ⟨rfl, rfl⟩, fun _ => haccepted⟩
          next hadmits =>
            rw [Bool.not_eq_true] at hadmits
            rw [hadmits, Bool.not_false, if_pos rfl]
            exact ⟨_, rfl, hrefused _ _ _⟩
      . rw [Bool.eq_false_iff.mpr fun hcontra => hequal (hhash.mp hcontra), Bool.not_false, if_pos rfl,
          if_pos (by simpa using fun hcontra => hequal hcontra.symm)]
        exact ⟨_, rfl, hrefused _ _ _⟩
    . rw [Bool.eq_false_iff.mpr fun hcontra => hid (hkeyId.mp hcontra), Bool.not_false, if_pos rfl, if_pos hid]
      exact ⟨_, rfl, hrefused _ _ _⟩

end

theorem wellFormed_iff (ms : List (Str × Tree))
    : FlowDocuments.wellFormed (decode (.object ms)) = true
        ↔ (((ms.reverse.lookup (str "format")).map decode).getD .none).eq (.str (str FlowAuthority.flowManifestFormat)) = true
          ∧ (FlowDocuments.version? (((ms.reverse.lookup (str "version")).map decode).getD .none)).isSome := by
  rw [FlowDocuments.wellFormed, get_decode, get_decode]
  exact Bool.and_eq_true_iff

theorem wellFormed_object {t : Tree} (h : FlowDocuments.wellFormed (decode t) = true)
    : ∃ ms, t = .object ms := by
  cases t with
  | object ms => exact ⟨ms, rfl⟩
  | word w => cases w <;> cases h
  | number literal =>
    rw [decode, decodeNumber] at h
    split at h <;> cases h
  | string s => cases h
  | array ts => cases h

/-- What Rust takes for a manifest has the right format for Python as well. -/
theorem wellFormed_of_read {ms : List (Str × Tree)} {kvs : List (Str × Value)}
    (h : Serde.readMembers readFloat 126 ms = some kvs)
    (hformat : ((Value.object kvs).get? "format").bind Value.asStr = some (str FlowAuthority.flowManifestFormat))
    {n : ℤ} (hn : ((Value.object kvs).get? "version").bind pyInt = some n)
    : FlowDocuments.wellFormed (decode (.object ms)) = true := by
  rw [wellFormed_iff]
  refine ⟨(get_eq_str_iff h "format" _).mpr hformat, ?_⟩
  have hrel := reads_lookup h (str "version")
  rw [Value.get?] at hn
  generalize ms.reverse.lookup (str "version") = found, kvs.reverse.lookup (str "version") = found' at hrel hn
  cases hrel with
  | none => cases hn
  | some hread =>
    rw [Option.map_some, Option.getD_some, (decode_of_pyInt hread hn).1]
    rfl

theorem read_object {t : Tree} {kvs : List (Str × Value)} (h : Serde.read readFloat t = some (.object kvs))
    : ∃ ms, t = .object ms ∧ Serde.readMembers readFloat 126 ms = some kvs := by
  have hlimit : Serde.recursionLimit = 126 + 1 := rfl
  rw [Serde.read, hlimit] at h
  cases t with
  | object ms =>
    rw [Serde.readAt] at h
    rcases Option.map_eq_some_iff.mp h with ⟨kvs', hkvs, heq⟩
    cases heq
    exact ⟨ms, rfl, hkvs⟩
  | word w =>
    rw [Serde.readAt] at h
    cases w <;> cases h
  | number literal =>
    rw [Serde.readAt] at h
    rcases Option.map_eq_some_iff.mp h with ⟨_, _, heq⟩
    cases heq
  | string s =>
    rw [Serde.readAt] at h
    rcases Option.map_eq_some_iff.mp h with ⟨_, _, heq⟩
    cases heq
  | array ts =>
    rw [Serde.readAt] at h
    rcases Option.map_eq_some_iff.mp h with ⟨_, _, heq⟩
    cases heq

/--
The manifest is alike where its format is right, the keys have 32 bytes and verify alike, and the flow is UTF-8.
-/
structure CallAlike (readFloat : Json.Number → Option Finite) (pylib : FlowDocuments.Library) (lib : Library)
    (call : FlowDocuments.Call) : Prop where
  manifest : ∀ text ms, call.manifest = some text → parse text = some (.object ms)
    → FlowDocuments.wellFormed (decode (.object ms)) = true → Alike readFloat lib.lowerExp ms
  keys : ∀ sig, call.sig = some sig → ∀ key ∈ call.trusted, key.length = 32
    ∧ ∀ payload, pylib.verify key payload sig = verifyEd25519 lib key payload sig
  flow : (String.fromUTF8? ⟨call.flow.toArray⟩).isSome

theorem verifyFlow_agrees (hlibs : SameLibraries readFloat pylib lib) {call : FlowDocuments.Call}
    (h : CallAlike readFloat pylib lib call) {entries : Option FlowDocuments.Entries} {floor : Option VersionFloor}
    (hfloor : Option.Rel SameFloor entries floor)
    : ∃ verdict, FlowDocuments.verifyFlow pylib call.flow call.manifest call.sig call.trusted call.revoked entries
          = .ok verdict
        ∧ SameVerdict verdict (verifyFlow lib call.flow call.manifest call.sig call.trusted call.revoked floor)
        ∧ (verdict.ok = true → ∃ ms kvs n hash, BothVerified readFloat lib verdict
            (verifyFlow lib call.flow call.manifest call.sig call.trusted call.revoked floor) ms kvs n hash) := by
  have hrefused : ∀ cause manifest manifest', SameVerdict (FlowDocuments.refuse cause manifest) (refuse cause manifest')
      ∧ ((FlowDocuments.refuse cause manifest).ok = true → ∃ ms kvs n hash, BothVerified readFloat lib
          (FlowDocuments.refuse cause manifest) (refuse cause manifest') ms kvs n hash) :=
    fun cause manifest manifest' => ⟨⟨rfl, rfl⟩, fun hok => by cases hok⟩
  rcases call with ⟨flow, manifest, sig, trusted, revoked⟩
  cases manifest with
  | none => exact ⟨_, rfl, hrefused _ _ _⟩
  | some text =>
    cases sig with
    | none => exact ⟨_, rfl, hrefused _ _ _⟩
    | some sig =>
      rw [FlowDocuments.verifyFlow, verifyFlow, hlibs.fromStr, loads]
      dsimp only
      cases hparse : parse text with
      | none => exact ⟨_, rfl, hrefused _ _ _⟩
      | some t =>
        rw [Option.map_some, Option.bind_some]
        dsimp only
        by_cases hwell : FlowDocuments.wellFormed (decode t) = true
        . rw [if_pos hwell]
          rcases wellFormed_object hwell with ⟨ms, rfl⟩
          rcases (h.manifest text ms rfl hparse hwell).both with ⟨kvs, hboth, hread⟩
          rcases (wellFormed_iff ms).mp hwell with ⟨hformat, hversion⟩
          rw [hboth.version] at hversion
          rcases Option.isSome_iff_exists.mp hversion with ⟨n, hn⟩
          have hformat' : ((Value.object kvs).get? "format").bind Value.asStr = some (str "prismpath-flow-manifest/1") :=
            (get_eq_str_iff hboth.read "format" _).mp hformat
          rw [hread]
          dsimp only
          rw [hn, hformat', isObject, Option.isNone_some, if_neg (by simp)]
          rcases verifyManifest_agrees hlibs hboth hfloor hn (h.keys sig rfl) h.flow with ⟨verdict, hok, hsame, haccepted⟩
          exact ⟨verdict, hok, hsame, fun hverified => ⟨ms, kvs, n, haccepted hverified⟩⟩
        . rw [if_neg hwell]
          cases hread : Serde.read readFloat t with
          | none => exact ⟨_, rfl, hrefused _ _ _⟩
          | some v =>
            dsimp only
            by_cases hright : isObject v = true
                ∧ (v.get? "format").bind Value.asStr = some (str "prismpath-flow-manifest/1")
                ∧ ((v.get? "version").bind pyInt).isSome
            . rcases hright with ⟨hobject, hformat, hversion⟩
              cases v with
              | object kvs =>
                rcases read_object hread with ⟨ms, rfl, hmembers⟩
                rcases Option.isSome_iff_exists.mp hversion with ⟨n, hn⟩
                exact absurd (wellFormed_of_read hmembers hformat hn) hwell
              | _ => cases hobject
            . have hwrong : (!isObject v || decide ((v.get? "format").bind Value.asStr ≠ some (str "prismpath-flow-manifest/1"))
                  || ((v.get? "version").bind pyInt).isNone) = true := by
                simp only [Bool.or_eq_true, Bool.not_eq_true', Bool.eq_false_iff, ne_eq, decide_eq_true_eq,
                  Option.isNone_iff_eq_none, ← Option.not_isSome_iff_eq_none]
                tauto
              rw [if_pos hwrong]
              exact ⟨_, rfl, hrefused _ _ _⟩

/- Calls made one after the other. -/

theorem authorize_agrees (hlibs : SameLibraries readFloat pylib lib) {call : FlowDocuments.Call}
    (h : CallAlike readFloat pylib lib call) {entries : FlowDocuments.Entries} {floor : VersionFloor}
    (hfloor : SameFloor entries floor)
    : ∃ verdict entries' verdict' floor', FlowDocuments.authorize pylib entries call = .ok (verdict, entries')
        ∧ authorize lib floor call = some (verdict', floor') ∧ SameVerdict verdict verdict' ∧ SameFloor entries' floor' := by
  rcases verifyFlow_agrees hlibs h (.some hfloor) with ⟨verdict, hpython, hsame, haccepted⟩
  rw [FlowDocuments.authorize, authorize, hpython]
  generalize verifyFlow lib call.flow call.manifest call.sig call.trusted call.revoked (some floor) = verdict' at *
  cases hok : verdict.ok with
  | false =>
    have hok' : verdict'.ok = false := by rw [← hsame.ok, hok]
    simp only [bind, Except.bind, hok, hok']
    exact ⟨_, _, _, _, rfl, rfl, hsame, hfloor⟩
  | true =>
    have hok' : verdict'.ok = true := by rw [← hsame.ok, hok]
    rcases haccepted hok with ⟨ms, kvs, n, hash, hverified⟩
    rcases hfloor.accept hlibs hverified.both hverified.version hverified.hash with
      ⟨entries', floor', haccept, haccept', hfloor'⟩
    simp only [bind, Except.bind, hok, hok', hverified.manifest, hverified.manifest', haccept, haccept']
    exact ⟨_, _, _, _, rfl, rfl, hsame, hfloor'⟩

theorem authorizeAll_agrees (hlibs : SameLibraries readFloat pylib lib) {calls : List FlowDocuments.Call}
    (h : ∀ call ∈ calls, CallAlike readFloat pylib lib call) {entries : FlowDocuments.Entries} {floor : VersionFloor}
    (hfloor : SameFloor entries floor)
    : ∃ verdicts entries' verdicts' floor', FlowDocuments.authorizeAll pylib entries calls = .ok (verdicts, entries')
        ∧ authorizeAll lib floor calls = some (verdicts', floor') ∧ List.Forall₂ SameVerdict verdicts verdicts'
        ∧ SameFloor entries' floor' := by
  induction calls generalizing entries floor with
  | nil => exact ⟨_, _, _, _, rfl, rfl, .nil, hfloor⟩
  | cons call calls ih =>
    rcases authorize_agrees hlibs (h call List.mem_cons_self) hfloor with
      ⟨verdict, entries₁, verdict', floor₁, hpython, hrust, hsame, hfloor₁⟩
    rcases ih (fun call' hcall' => h call' (List.mem_cons_of_mem _ hcall')) hfloor₁ with
      ⟨verdicts, entries₂, verdicts', floor₂, hpythonAll, hrustAll, hsameAll, hfloor₂⟩
    refine ⟨verdict :: verdicts, entries₂, verdict' :: verdicts', floor₂, ?_, ?_, .cons hsame hsameAll, hfloor₂⟩
    . rw [FlowDocuments.authorizeAll, hpython]
      simp only [bind, Except.bind, hpythonAll]
      rfl
    . rw [authorizeAll, hrust, Option.bind_eq_bind, Option.bind_some]
      simp only [hrustAll]
      rfl

/--
Over a floor file that is alike, calls that are alike get the same verdicts, and the two floors left admit the same
manifests: both in the next check of a call, and asked of a manifest whose format is right and whose hash is a string.
-/
theorem flow_authorization_agrees (hlibs : SameLibraries readFloat pylib lib) {file : Option (List Char)}
    (hfile : FloorAlike readFloat lib.lowerExp file) {calls : List FlowDocuments.Call}
    (hcalls : ∀ call ∈ calls, CallAlike readFloat pylib lib call)
    : ∃ entries floor verdicts entries' verdicts' floor',
        FlowDocuments.loadFloor file = .ok entries ∧ loadFloor lib file = some floor
        ∧ FlowDocuments.authorizeAll pylib entries calls = .ok (verdicts, entries')
        ∧ authorizeAll lib floor calls = some (verdicts', floor')
        ∧ List.Forall₂ SameVerdict verdicts verdicts'
        ∧ (∀ call, CallAlike readFloat pylib lib call →
            ∀ floors ∈ [(none, none), (some entries, some floor), (some entries', some floor')], ∃ verdict,
              FlowDocuments.verifyFlow pylib call.flow call.manifest call.sig call.trusted call.revoked floors.1
                = .ok verdict
              ∧ SameVerdict verdict
                  (verifyFlow lib call.flow call.manifest call.sig call.trusted call.revoked floors.2))
        ∧ ∀ ms hash, Alike readFloat lib.lowerExp ms → FlowDocuments.wellFormed (decode (.object ms)) = true
            → (decode (.object ms)).get "flow_sha256" .none = .ok (.str hash)
            → ∃ kvs, Serde.read readFloat (.object ms) = some (.object kvs)
              ∧ FlowDocuments.admits pylib entries' (decode (.object ms)) = .ok (floor'.admits lib (.object kvs)) := by
  rcases sameFloor_load hlibs hfile with ⟨entries, floor, hload, hload', hfloor⟩
  rcases authorizeAll_agrees hlibs hcalls hfloor with ⟨verdicts, entries', verdicts', floor', hpython, hrust, hsame, hfloor'⟩
  refine ⟨entries, floor, verdicts, entries', verdicts', floor', hload, hload', hpython, hrust, hsame, ?_, ?_⟩
  . intro call hcall floors hfloors
    have hrel : Option.Rel SameFloor floors.1 floors.2 := by
      simp only [List.mem_cons, List.not_mem_nil, or_false] at hfloors
      rcases hfloors with rfl | rfl | rfl
      . exact .none
      . exact .some hfloor
      . exact .some hfloor'
    rcases verifyFlow_agrees hlibs hcall hrel with ⟨verdict, hok, hverdict, _⟩
    exact ⟨verdict, hok, hverdict⟩
  . intro ms hash halike hwell hhash
    rcases halike.both with ⟨kvs, hboth, hread⟩
    rcases (wellFormed_iff ms).mp hwell with ⟨_, hversion⟩
    rw [hboth.version] at hversion
    rcases Option.isSome_iff_exists.mp hversion with ⟨n, hn⟩
    rw [get_decode, Except.ok.injEq, ← eq_str_iff, get_eq_str_iff hboth.read] at hhash
    exact ⟨kvs, hread, hfloor'.admits hlibs hboth hn hhash⟩

/- A flow of one authority. -/

def authorityKey : List UInt8 :=
  [234, 74, 108, 99, 226, 156, 82, 10, 190, 245, 80, 123, 19, 46, 197, 249, 149, 71, 118, 174, 190, 190,
    123, 146, 66, 30, 234, 105, 20, 70, 210, 44]

def authorityKeyDigest : List UInt8 :=
  [254, 129, 44, 18, 243, 171, 76, 230, 172, 93, 182, 154, 195, 82, 249, 6, 203, 27, 17, 239, 67, 251,
    51, 226, 82, 239, 127, 245, 82, 38, 56, 137]

def demoFlow : List UInt8 :=
  [35, 32, 100, 101, 109, 111, 10]

def demoFlowDigest : List UInt8 :=
  [188, 112, 226, 111, 64, 184, 129, 110, 177, 119, 129, 61, 218, 31, 95, 82, 154, 39, 164, 100, 29, 69,
    170, 25, 202, 226, 52, 138, 140, 106, 95, 233]

def demoSig : List UInt8 :=
  [85, 10, 96, 194, 252, 36, 78, 171, 220, 166, 166, 188, 175, 114, 89, 78, 69, 16, 39, 177, 161, 138,
    116, 30, 120, 213, 24, 38, 21, 101, 90, 11, 217, 35, 88, 10, 52, 31, 225, 136, 143, 95, 99, 139,
    240, 7, 246, 23, 110, 106, 238, 68, 19, 61, 245, 55, 3, 180, 74, 141, 207, 49, 190, 11]

def demoManifestDigest : List UInt8 :=
  [83, 94, 132, 54, 23, 62, 49, 75, 45, 237, 26, 137, 213, 180, 159, 189, 146, 95, 56, 106, 166, 168,
    173, 234, 98, 139, 253, 239, 189, 129, 237, 20]

def demoMembers : List (Str × Tree) :=
  [(str "flow", .string (str "demo")), (str "flow_sha256", .string (hex demoFlowDigest)),
    (str "format", .string (str "prismpath-flow-manifest/1")), (str "key_id", .string (hex authorityKeyDigest)),
    (str "version", intTree 1)]

def demoManifest : List Char :=
  write .compact (.object demoMembers)

def demoSha256 (data : List UInt8) : List UInt8 :=
  if data = demoFlow then
    demoFlowDigest
  else if data = authorityKey then
    authorityKeyDigest
  else if data = textBytes demoManifest then
    demoManifestDigest
  else
    []

def demoVerify (key payload sig : List UInt8) : Bool :=
  key = authorityKey && payload = textBytes demoManifest && sig = demoSig

def demoReference : FlowDocuments.Library where
  sha256 := demoSha256
  verify := demoVerify
  repr _ := []

def demoLib : Library where
  sha256 := demoSha256
  isKey key := key = authorityKey
  verify := demoVerify
  verifyStrict := demoVerify
  fromStr text := (parse text).bind (Serde.read readNearest)
  toText := pyCanonicalString Decimal.shortest false
  lowerExp := Decimal.shortest

theorem sameLibraries_demo
    : SameLibraries readNearest demoReference demoLib where
  sha256 := rfl
  fromStr _ := rfl
  lowerExp := roundTrips_shortest

def demoCall : FlowDocuments.Call where
  flow := demoFlow
  manifest := some demoManifest
  sig := some demoSig
  trusted := [authorityKey]
  revoked := []

theorem parse_demoManifest
    : parse demoManifest = some (.object demoMembers) := by
  rw [demoManifest, parse_write]
  rfl

theorem callAlike_demo
    : CallAlike readNearest demoReference demoLib demoCall where
  manifest text ms htext hparse _ := by
    cases htext
    rw [parse_demoManifest, Option.some.injEq, Tree.object.injEq] at hparse
    subst hparse
    have hversion : demoMembers.reverse.lookup (str "version") = some (intTree 1) := by rfl
    have hflow : demoMembers.reverse.lookup (str "flow") = some (.string (str "demo")) := by rfl
    constructor
    . refine ⟨rfl, rfl, rfl, rfl, rfl, rfl, rfl, rfl, rfl, ?_, trivial⟩
      show 1 < 2 ^ 64
      decide
    . intro t ht
      rw [hversion, Option.some.injEq] at ht
      subst ht
      constructor
      . intro b hb
        cases hb
      . intro n hn
        cases hn
        decide
    . intro t ht
      rw [hflow, Option.some.injEq] at ht
      subst ht
      trivial
  keys sig hsig key hkey := by
    cases hsig
    cases List.mem_singleton.mp hkey
    exact ⟨rfl, fun payload => rfl⟩
  flow := by decide +kernel

theorem flow_authorization_agrees_once
    : ((FlowDocuments.authorizeAll demoReference [] [demoCall]).toOption.map fun out => out.1.map fun verdict => verdict.ok)
        = some [true]
      ∧ ∃ entries floor verdicts entries' verdicts' floor',
        FlowDocuments.loadFloor none = .ok entries ∧ loadFloor demoLib none = some floor
        ∧ FlowDocuments.authorizeAll demoReference entries [demoCall] = .ok (verdicts, entries')
        ∧ authorizeAll demoLib floor [demoCall] = some (verdicts', floor')
        ∧ List.Forall₂ SameVerdict verdicts verdicts' := by
  refine ⟨by decide +kernel, ?_⟩
  rcases @flow_authorization_agrees readNearest demoReference demoLib sameLibraries_demo none trivial [demoCall]
    (fun call hcall => by cases List.mem_singleton.mp hcall; exact callAlike_demo) with
    ⟨entries, floor, verdicts, entries', verdicts', floor', hload, hload', hpython, hrust, hsame, _⟩
  exact ⟨entries, floor, verdicts, entries', verdicts', floor', hload, hload', hpython, hrust, hsame⟩

/-- A version that has no place in 64 bits. -/
def bigVersion : List Char :=
  write .compact (.object [(str "format", .string (str "prismpath-flow-manifest/1")), (str "version", intTree (2 ^ 63))])

theorem big_version_differs
    : SameLibraries readNearest demoReference demoLib
        ∧ ((FlowDocuments.verifyFlow demoReference demoFlow (some bigVersion) (some demoSig) [] [] none).toOption.map
          fun verdict => verdict.causes) = some ["sig:invalid"]
        ∧ (verifyFlow demoLib demoFlow (some bigVersion) (some demoSig) [] [] none).causes = ["manifest:bad-format"] := by
  refine ⟨sameLibraries_demo, ?_⟩
  decide +kernel

end Flow

end Rust
