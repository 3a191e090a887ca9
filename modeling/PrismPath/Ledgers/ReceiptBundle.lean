import PrismPath.Ledgers.SignerRuns
import PrismPath.Lib.Process
import PrismPath.Rust.CanonicalAgreement

/-!
This module contains the offline check of one receipt, and which of the untrusted documents that the checks of this
and of the chain of statements are handed they report on.
-/

open Python LineFile

namespace RootStatement

open LedgerOts (Side climb)
open SelfHeal (fromHex sideOf)

def logAudit : Json.Str :=
  str "audit-log"

/- The shape of a bundle. -/

/-- The fields of a document shaped like a bundle, its hex decoded. -/
structure Bundle where
  receipt : List (Key × Obj)
  index : ℤ
  leafText : Json.Str
  leaf : Bytes
  path : List (Side × Bytes)
  statement : List (Key × Obj)

def malformed (name : String) : String :=
  "missing or malformed field '" ++ name ++ "'"

def notHex : String :=
  "the leaf and the inclusion path are hex hashes"

def notPath : String :=
  "malformed inclusion path"

/-- The field of that name, if it has the kind it should have. -/
def fieldOf {α : Type} (kind : Obj → Option α) (bundle : List (Key × Obj)) (name : String) : Except String α :=
  match (member bundle name).bind kind with
  | some value => .ok value
  | none => .error (malformed name)

def dictKind : Obj → Option (List (Key × Obj))
  | .dict d => some d
  | _ => none

/-- An integer that is no `bool`. -/
def intKind : Obj → Option ℤ
  | .int n => some n
  | _ => none

def listKind : Obj → Option (List Obj)
  | .list vs => some vs
  | _ => none

def readStep : Obj → Except String (Side × Bytes)
  | .list [.str side, sibling] =>
    if side = str "L" ∨ side = str "R" then
      match bytesOf sibling with
      | some data => .ok (sideOf side, data)
      | none => .error notHex
    else
      .error notPath
  | _ => .error notPath

/-- `bundle_problem`; a document that has none is read. -/
def readBundle : Obj → Except String Bundle
  | .dict d => do
    let receipt ← fieldOf dictKind d "receipt"
    let index ← fieldOf intKind d "index"
    let leafText ← fieldOf strOf d "leaf"
    let path ← fieldOf listKind d "path"
    let statement ← fieldOf dictKind d "statement"
    let leaf ← (fromHex leafText).mapError fun _ => notHex
    let path ← path.mapM readStep
    return { receipt, index, leafText, leaf, path, statement }
  | _ => .error "a bundle is a JSON object"

/- The check. -/

structure Checks where
  leaf : Bool
  index : Bool
  inclusion : Bool
  wellFormed : Bool
  covered : Bool
  keyId : Bool
  signature : Bool
  pinned : Option Bool

def Checks.ok (checks : Checks) : Bool :=
  checks.leaf && checks.index && checks.inclusion && checks.wellFormed && checks.covered && checks.keyId
    && checks.signature && checks.pinned != some false

/-- The report; `checks` is `none` where only the shape was looked at. -/
structure BundleReport where
  ok : Bool
  status : Status
  pinned : Bool
  checks : Option Checks
  problem : Option String
  index : Obj
  statement : Obj
  statementSha256 : Option Json.Str
  key : Obj

/-- `v == n` -/
def equalsInt (n : ℤ) : Obj → Bool
  | .int m => m = n
  | .bool b => (if b then 1 else 0) = n
  | .float x => x.num.eq (.finite n)
  | _ => false

/-- `v == s` -/
def equalsStr (s : Json.Str) : Obj → Bool
  | .str t => t = s
  | _ => false

/-- `v in ids`, of a `set`: a value that has no hash raises. -/
def inSet (ids : List Json.Str) : Obj → Except Error Bool
  | .str s => .ok (s ∈ ids)
  | .list _ => .error .typeError
  | .dict _ => .error .typeError
  | _ => .ok false

/-- `fingerprint` of what stands for a key id, `v[:16]`. -/
def fingerprintOf : Obj → Except Error Obj
  | .str s => .ok (.str (fingerprint s))
  | .list vs => .ok (.list (vs.take 16))
  | _ => .error .typeError

variable (sha256 : Bytes → Bytes) (verify : Bytes → Bytes → Bytes → Bool) (pinned : List Bytes)

/-- `_verify_signature`, of a statement whose key id is that of its key. -/
def signatureHolds (statement : List (Key × Obj)) (fields : Option Fields) : Except Error Bool :=
  match fields with
  | none => .ok false
  | some fields =>
    if keyIdOf sha256 fields.publicKey = fields.keyId then do
      let message ← signedBytes statement
      return verify fields.publicKey message fields.sig
    else
      .ok false

/-- `None` where no key is pinned. -/
def pinnedCheck (statement : List (Key × Obj)) : Except Error (Option Bool) :=
  if pinned = [] then
    .ok none
  else
    some <$> inSet (pinned.map (keyIdOf sha256)) ((member statement "key_id").getD .none)

def bundleChecks (bundle : Bundle) : Except Error Checks := do
  let leaf ← statementHash sha256 (.dict bundle.receipt)
  let fields := wellFormed logAudit bundle.statement
  let signature ← signatureHolds sha256 verify bundle.statement fields
  let pinned ← pinnedCheck sha256 pinned bundle.statement
  return {
    leaf := leaf = bundle.leafText
    index := equalsInt bundle.index ((member bundle.receipt "idx").getD .none)
    inclusion := equalsStr (hex (climb sha256 bundle.leaf bundle.path)) ((member bundle.statement "root").getD (.str []))
    wellFormed := fields.isSome
    covered := fields.any fun fields => 0 ≤ bundle.index ∧ bundle.index < fields.leaves
    keyId := fields.any fun fields => keyIdOf sha256 fields.publicKey = fields.keyId
    signature
    pinned
  }

def verifyReceiptBundle (document : Obj) : Except Error BundleReport :=
  match readBundle document with
  | .error problem =>
    .ok {
      ok := false
      status := .invalid
      pinned := pinned ≠ []
      checks := none
      problem := some problem
      index := .none
      statement := .none
      statementSha256 := none
      key := .str []
    }
  | .ok bundle => do
    let checks ← bundleChecks sha256 verify pinned bundle
    let hash ← statementHash sha256 (.dict bundle.statement)
    let key ← fingerprintOf ((member bundle.statement "key_id").getD (.str []))
    return {
      ok := checks.ok
      status := if checks.ok then (if pinned = [] then .signedUnpinned else .signed) else .invalid
      pinned := pinned ≠ []
      checks := some checks
      problem := none
      index := .int bundle.index
      statement := (member bundle.statement "seq").getD .none
      statementSha256 := some hash
      key
    }

/- Documents that `json.dumps` writes with their keys sorted. -/

def Writable (v : Obj) : Prop :=
  ∃ t, v.sortedTree = some t

theorem writable_decode (t : Json.Tree)
    : Writable (decode t) :=
  ⟨_, Rust.sortedTree_decode t⟩

theorem writable_of_loads {text : Text} {v : Obj} (h : loads text = some v)
    : Writable v := by
  unfold loads at h
  rcases Option.map_eq_some_iff.mp h with ⟨t, -, rfl⟩
  apply writable_decode

theorem writable_of_sortedMembers {d : List (Key × Obj)} {kts : List (Key × Json.Tree)}
    (h : Obj.sortedMembers d = some kts) {kv : Key × Obj} (hmem : kv ∈ d)
    : Writable kv.2 := by
  induction d generalizing kts with
  | nil => simp at hmem
  | cons head d ih =>
    rcases head with ⟨k, v⟩
    simp only [Obj.sortedMembers, bind, Option.bind_eq_some_iff] at h
    rcases h with ⟨t, ht, kts', hkts, -⟩
    rcases List.mem_cons.mp hmem with rfl | hmem
    . exact ⟨t, ht⟩
    . exact ih hkts hmem

theorem writable_of_mem {d : List (Key × Obj)} (h : Writable (.dict d)) {kv : Key × Obj} (hmem : kv ∈ d)
    : Writable kv.2 := by
  rcases h with ⟨t, ht⟩
  simp only [Obj.sortedTree, bind, Option.bind_eq_some_iff] at ht
  rcases ht with ⟨kts, hkts, -⟩
  exact writable_of_sortedMembers hkts hmem

theorem writable_member {d : List (Key × Obj)} (h : Writable (.dict d)) {name : String} {v : Obj}
    (hmember : member d name = some v)
    : Writable v := by
  exact writable_of_mem h (Dict.mem_of_lookup hmember)

theorem sortedMembers_of_writable {d : List (Key × Obj)} (h : ∀ kv ∈ d, Writable kv.2)
    : ∃ kts, Obj.sortedMembers d = some kts := by
  induction d with
  | nil => exact ⟨[], rfl⟩
  | cons head d ih =>
    rcases head with ⟨k, v⟩
    rcases h (k, v) List.mem_cons_self with ⟨t, ht⟩
    rcases ih fun kv hmem => h kv (List.mem_cons_of_mem _ hmem) with ⟨kts, hkts⟩
    refine ⟨(k, t) :: kts, ?_⟩
    rw [Obj.sortedMembers, ht, hkts]
    rfl

theorem writable_record {kvs : List (String × Obj)} (h : ∀ kv ∈ kvs, Writable kv.2)
    : Writable (record kvs) := by
  have hmembers : ∃ kts, Obj.sortedMembers (kvs.map fun kv => (Key.str (str kv.1), kv.2)) = some kts := by
    apply sortedMembers_of_writable
    intro kv hmem
    rcases List.mem_map.mp hmem with ⟨kv', hmem', rfl⟩
    exact h kv' hmem'
  rcases hmembers with ⟨kts, hkts⟩
  have hsortable : sortable ((kvs.map fun kv => (Key.str (str kv.1), kv.2)).map Prod.fst) = true := by
    apply Obj.sortable_of_str
    intro k hk
    rw [List.map_map] at hk
    rcases List.mem_map.mp hk with ⟨_, _, rfl⟩
    rfl
  show ∃ t, (Obj.dict (kvs.map fun kv => (Key.str (str kv.1), kv.2))).sortedTree = some t
  rw [Obj.sortedTree, hkts, Option.bind_eq_bind, Option.bind_some, if_pos hsortable]
  exact ⟨_, rfl⟩

theorem statementHash_of_writable {v : Obj} (h : Writable v)
    : ∃ hash, statementHash sha256 v = .ok hash := by
  rcases h with ⟨t, ht⟩
  unfold statementHash canonicalCompact
  rw [ht]
  exact ⟨_, rfl⟩

theorem signedBytes_of_writable {d : List (Key × Obj)} (h : Writable (.dict d))
    : ∃ message, signedBytes d = .ok message := by
  have hrecord : Writable (record (bodyFields.map fun name => (name, (member d name).getD .none))) := by
    apply writable_record
    intro kv hmem
    rcases List.mem_map.mp hmem with ⟨name, -, rfl⟩
    dsimp only
    cases hmember : member d name with
    | none => exact ⟨_, rfl⟩
    | some v => exact writable_member h hmember
  rcases hrecord with ⟨t, ht⟩
  unfold signedBytes canonicalCompact
  rw [ht]
  exact ⟨_, rfl⟩

/- The chain. -/

theorem keyFindings_of_writable (v : Verifier) {d : List (Key × Obj)} (h : Writable (.dict d)) (fields : Fields)
    : ∃ findings, v.keyFindings d fields = .ok findings := by
  unfold Verifier.keyFindings
  split
  . exact ⟨_, rfl⟩
  . rcases signedBytes_of_writable h with ⟨message, hmessage⟩
    rw [hmessage]
    exact ⟨_, rfl⟩

theorem check_of_writable (v : Verifier) (walk : Walk) (index : ℕ) {d : List (Key × Obj)} (h : Writable (.dict d))
    : ∃ walk', v.check walk index (.dict d) = .ok walk' := by
  unfold Verifier.check
  split
  . exact ⟨_, rfl⟩
  . next heq =>
    cases heq
    rcases statementHash_of_writable v.sha256 h with ⟨hash, hhash⟩
    rw [hhash]
    dsimp only [bind, Except.bind]
    split
    . exact ⟨_, rfl⟩
    . next fields _ =>
      rcases keyFindings_of_writable v h fields with ⟨findings, hfindings⟩
      rw [hfindings]
      exact ⟨_, rfl⟩
  . next _ hne => exact absurd rfl (hne d)

/-- What stands for a statement: a `dict` whose values `json.dumps` writes. -/
def IsStatement (statement : Obj) : Prop :=
  isDict statement = true ∧ Writable statement

theorem walkFrom_of_writable (v : Verifier) {statements : List Obj} (h : ∀ s ∈ statements, IsStatement s)
    (walk : Walk) (index : ℕ)
    : ∃ walk', v.walkFrom walk index statements = .ok walk' := by
  induction statements generalizing walk index with
  | nil => exact ⟨walk, rfl⟩
  | cons statement statements ih =>
    rcases h statement List.mem_cons_self with ⟨hdict, hwritable⟩
    cases statement with
    | dict d =>
      rcases check_of_writable v walk index hwritable with ⟨walk', hwalk'⟩
      rcases ih (fun s hs => h s (List.mem_cons_of_mem _ hs)) walk' (index + 1) with ⟨walk'', hwalk''⟩
      refine ⟨walk'', ?_⟩
      rw [Verifier.walkFrom, hwalk']
      exact hwalk''
    | _ => cases hdict

/-- The statements of any file at all. -/
theorem isStatement_of_mem_readStatements {text : Text} {s : Obj} (h : s ∈ (readStatements text).1)
    : IsStatement s := by
  unfold readStatements at h
  dsimp only at h
  rcases List.mem_map.mp h with ⟨read, hread, rfl⟩
  cases read with
  | none => exact ⟨rfl, _, rfl⟩
  | some statement =>
    have hline : some statement ∈ (rawLines text).map fun line => (loads line).filter isDict := by
      split at hread
      . exact List.dropLast_subset _ hread
      . exact hread
    rcases List.mem_map.mp hline with ⟨line, -, hstatement⟩
    rcases Option.filter_eq_some_iff.mp hstatement with ⟨hloads, hdict⟩
    exact ⟨hdict, writable_of_loads hloads⟩

def isNumber : Obj → Bool
  | .int _ => true
  | .bool _ => true
  | .float _ => true
  | _ => false

/-- The leaves that the last statement names; a line that could not be read names none. -/
def lastLeaves (statements : List Obj) : Obj :=
  match (statements.filter fun statement => !isEmptyDict statement).getLast? with
  | some (.dict d) => (member d "leaves").getD (.int 0)
  | _ => .int 0

theorem unsignedTail_ok_iff (total : ℤ) (leaves : Obj)
    : (∃ tail, unsignedTail total leaves = .ok tail) ↔ isNumber leaves = true := by
  cases leaves <;> simp [unsignedTail, intOf, isNumber]

/-- The chain is reported on if and only if the leaves of its last statement can be subtracted. -/
theorem verifyChain_ok_iff (v : Verifier) {statements : List Obj} (h : ∀ s ∈ statements, IsStatement s)
    (findings : List Finding)
    : (∃ report, v.verifyChain statements findings = .ok report) ↔ isNumber (lastLeaves statements) = true := by
  rcases walkFrom_of_writable v h { findings := findings } 0 with ⟨walk, hwalk⟩
  unfold Verifier.verifyChain lastLeaves
  simp only [hwalk, bind, Except.bind, pure, Except.pure]
  cases hlast : (statements.filter fun statement => !isEmptyDict statement).getLast? with
  | none =>
    dsimp only
    split
    . simp [isNumber]
    . simp [isNumber, unsignedTail, intOf]
  | some last =>
    have hmem := List.mem_of_mem_filter (List.mem_of_getLast? hlast)
    have hne : statements.isEmpty = false := by
      cases statements with
      | nil => simp at hmem
      | cons _ _ => rfl
    rcases h last hmem with ⟨hdict, hwritable⟩
    cases last with
    | dict d =>
      rcases statementHash_of_writable v.sha256 hwritable with ⟨hash, hhash⟩
      have hget : Obj.get (.dict d) "leaves" (.int 0) = .ok ((member d "leaves").getD (.int 0)) := rfl
      simp only [hget, hne, hhash, Bool.false_eq_true, if_false, Functor.map, Except.map]
      rw [← unsignedTail_ok_iff v.totalLeaves]
      cases unsignedTail v.totalLeaves ((member d "leaves").getD (.int 0)) <;> simp
    | _ => cases hdict

/- The bundle. -/

/-- Where a bundle is a document that `json.dumps` writes, its parts are. -/
theorem member_of_fieldOf {α : Type} {kind : Obj → Option α} {d : List (Key × Obj)} {name : String} {value : α}
    (h : fieldOf kind d name = .ok value)
    : ∃ v, member d name = some v ∧ kind v = some value := by
  unfold fieldOf at h
  split at h
  . next value' hvalue =>
    cases h
    exact Option.bind_eq_some_iff.mp hvalue
  . cases h

theorem eq_dict_of_dictKind {v : Obj} {d : List (Key × Obj)} (h : dictKind v = some d)
    : v = .dict d := by
  cases v <;> simp_all [dictKind]

theorem writable_of_readBundle {document : Obj} (h : Writable document) {bundle : Bundle}
    (hread : readBundle document = .ok bundle)
    : Writable (.dict bundle.receipt) ∧ Writable (.dict bundle.statement) := by
  cases document with
  | dict d =>
    unfold readBundle at hread
    simp only [Except.bind_eq_ok] at hread
    rcases hread with ⟨receipt, hreceipt, index, -, leafText, -, path, -, statement, hstatement, leaf, -, steps, -,
      hbundle⟩
    cases hbundle
    rcases member_of_fieldOf hreceipt with ⟨v, hv, hkind⟩
    rcases member_of_fieldOf hstatement with ⟨w, hw, hkind'⟩
    rw [eq_dict_of_dictKind hkind] at hv
    rw [eq_dict_of_dictKind hkind'] at hw
    exact ⟨writable_member h hv, writable_member h hw⟩
  | _ => cases hread

theorem signatureHolds_of_writable {d : List (Key × Obj)} (h : Writable (.dict d)) (fields : Option Fields)
    : ∃ holds, signatureHolds sha256 verify d fields = .ok holds := by
  unfold signatureHolds
  split
  . exact ⟨_, rfl⟩
  . split
    . rcases signedBytes_of_writable h with ⟨message, hmessage⟩
      rw [hmessage]
      exact ⟨_, rfl⟩
    . exact ⟨_, rfl⟩

/-- The key id of a statement can be shown, and be looked up among the pinned ones. -/
def keyShown (statement : List (Key × Obj)) : Bool :=
  match (member statement "key_id").getD (.str []) with
  | .str _ => true
  | .list _ => pinned.isEmpty
  | _ => false

/-- The condition on a document: one that is not shaped like a bundle is reported as such. -/
def bundleShown (document : Obj) : Bool :=
  match readBundle document with
  | .error _ => true
  | .ok bundle => keyShown pinned bundle.statement

theorem pinnedCheck_fingerprint_iff (statement : List (Key × Obj))
    : ((∃ check, pinnedCheck sha256 pinned statement = .ok check)
          ∧ ∃ key, fingerprintOf ((member statement "key_id").getD (.str [])) = .ok key)
        ↔
      keyShown pinned statement = true := by
  unfold pinnedCheck keyShown
  cases member statement "key_id" with
  | none => cases pinned <;> simp [inSet, fingerprintOf, Functor.map, Except.map]
  | some keyId => cases keyId <;> cases pinned <;> simp [inSet, fingerprintOf, Functor.map, Except.map]

theorem verifyReceiptBundle_ok_iff {document : Obj} (h : Writable document)
    : (∃ report, verifyReceiptBundle sha256 verify pinned document = .ok report)
        ↔ bundleShown pinned document = true := by
  unfold verifyReceiptBundle bundleShown
  cases hread : readBundle document with
  | error problem => simp
  | ok bundle =>
    rcases writable_of_readBundle h hread with ⟨hreceipt, hstatement⟩
    rcases statementHash_of_writable sha256 hreceipt with ⟨leaf, hleaf⟩
    rcases statementHash_of_writable sha256 hstatement with ⟨hash, hhash⟩
    rcases signatureHolds_of_writable sha256 verify hstatement (wellFormed logAudit bundle.statement)
      with ⟨holds, hholds⟩
    dsimp only
    rw [← pinnedCheck_fingerprint_iff sha256]
    unfold bundleChecks
    simp only [hleaf, hholds, hhash, bind, Except.bind, pure, Except.pure]
    cases pinnedCheck sha256 pinned bundle.statement with
    | error e => simp
    | ok check => cases fingerprintOf ((member bundle.statement "key_id").getD (.str [])) <;> simp

/- What an accepted bundle shows. -/

theorem members_of_wellFormed {log : Json.Str} {d : List (Key × Obj)} {fields : Fields}
    (h : wellFormed log d = some fields)
    : member d "root" = some (.str fields.root) ∧ member d "key_id" = some (.str fields.keyId) := by
  have strOf_eq {v : Obj} {s : Json.Str} (hv : strOf v = some s) : v = .str s := by
    cases v <;> simp_all [strOf]
  unfold wellFormed at h
  simp only [bind, Option.bind_eq_some_iff, pure, Option.some.injEq] at h
  rcases h with ⟨_, -, _, -, _, -, _, -, _, -, _, -, _, -, _, -, _, -, _, -, rootObj, hroot, root, hroot', _, -, _, -,
    keyObj, hkey, keyId, hkey', _, -, _, -, _, -, _, -, _, -, rfl⟩
  rw [strOf_eq hroot'] at hroot
  rw [strOf_eq hkey'] at hkey
  exact ⟨hroot, hkey⟩

/-- Every link from the receipt to the key holds. -/
structure Attests (bundle : Bundle) (fields : Fields) : Prop where
  leaf : statementHash sha256 (.dict bundle.receipt) = .ok bundle.leafText
  index : ∃ idx, member bundle.receipt "idx" = some idx ∧ equalsInt bundle.index idx = true
  inclusion : hex (climb sha256 bundle.leaf bundle.path) = fields.root
  covered : 0 ≤ bundle.index ∧ bundle.index < fields.leaves
  keyId : keyIdOf sha256 fields.publicKey = fields.keyId
  signature : ∃ message, signedBytes bundle.statement = .ok message
    ∧ verify fields.publicKey message fields.sig = true
  pinned : pinned ≠ [] → ∃ raw ∈ pinned, keyIdOf sha256 raw = keyIdOf sha256 fields.publicKey

theorem attests_of_checks {bundle : Bundle} {checks : Checks}
    (h : bundleChecks sha256 verify pinned bundle = .ok checks) (hok : checks.ok = true)
    : ∃ fields, wellFormed logAudit bundle.statement = some fields ∧ Attests sha256 verify pinned bundle fields := by
  unfold bundleChecks at h
  simp only [Except.bind_eq_ok] at h
  rcases h with ⟨leaf, hleaf, holds, hholds, check, hcheck, hchecks⟩
  cases hchecks
  unfold Checks.ok at hok
  simp only [Bool.and_eq_true, bne_iff_ne, ne_eq, decide_eq_true_eq] at hok
  rcases hok with ⟨⟨⟨⟨⟨⟨⟨hleaf', hindex⟩, hinclusion⟩, hform⟩, hcovered⟩, hkeyId⟩, hsignature⟩, hpinned⟩
  rcases Option.isSome_iff_exists.mp hform with ⟨fields, hfields⟩
  rcases members_of_wellFormed hfields with ⟨hroot, hkey⟩
  simp only [hfields, Option.any_some, decide_eq_true_eq] at hcovered hkeyId
  refine ⟨fields, hfields, ⟨?_, ?_, ?_, hcovered, hkeyId, ?_, ?_⟩⟩
  . rw [hleaf, hleaf']
  . cases hidx : member bundle.receipt "idx" with
    | none => simp [hidx, equalsInt] at hindex
    | some idx =>
      rw [hidx] at hindex
      exact ⟨idx, rfl, hindex⟩
  . rw [hroot] at hinclusion
    simp only [Option.getD_some, equalsStr, decide_eq_true_eq] at hinclusion
    exact hinclusion.symm
  . unfold signatureHolds at hholds
    rw [hfields] at hholds
    dsimp only at hholds
    rw [if_pos hkeyId] at hholds
    rcases Except.bind_eq_ok.mp hholds with ⟨message, hmessage, hverify⟩
    cases hverify
    exact ⟨message, hmessage, hsignature⟩
  . intro hne
    unfold pinnedCheck at hcheck
    rw [if_neg hne, hkey] at hcheck
    cases hcheck
    simp only [Option.some.injEq, decide_eq_false_iff_not, not_not, List.mem_map] at hpinned
    rcases hpinned with ⟨raw, hraw, hid⟩
    exact ⟨raw, hraw, hid.trans hkeyId.symm⟩

/--
The chain in a file of any text is reported on if and only if the leaves its last statement names are a number,
whatever the log; any document in place of a bundle is if and only if it is not shaped like one or its statement's key
id can be shown; and a bundle that is accepted holds link by link, under a pinned key where one is pinned.
-/
theorem verification_reports_iff (v : Verifier) (text : Text) (findings : List Finding) (document : Json.Tree)
    : ((∃ report, v.verifyChain (readStatements text).1 findings = .ok report)
          ↔ isNumber (lastLeaves (readStatements text).1) = true)
        ∧ ((∃ report, verifyReceiptBundle v.sha256 v.verify v.pinned (decode document) = .ok report)
          ↔ bundleShown v.pinned (decode document) = true)
        ∧ ∀ report, verifyReceiptBundle v.sha256 v.verify v.pinned (decode document) = .ok report →
            report.ok = true →
            ∃ bundle fields, readBundle (decode document) = .ok bundle
              ∧ wellFormed logAudit bundle.statement = some fields
              ∧ Attests v.sha256 v.verify v.pinned bundle fields := by
  refine ⟨?_, ?_, ?_⟩
  . apply verifyChain_ok_iff
    intro s hs
    exact isStatement_of_mem_readStatements hs
  . apply verifyReceiptBundle_ok_iff
    apply writable_decode
  . intro report hreport hok
    unfold verifyReceiptBundle at hreport
    split at hreport
    . cases hreport
      cases hok
    . next bundle hread =>
      rcases Except.bind_eq_ok.mp hreport with ⟨checks, hchecks, hrest⟩
      simp only [Except.bind_eq_ok] at hrest
      rcases hrest with ⟨hash, -, key, -, hreport⟩
      cases hreport
      rcases attests_of_checks v.sha256 v.verify v.pinned hchecks hok with ⟨fields, hfields, hholds⟩
      exact ⟨bundle, fields, hread, hfields, hholds⟩

/- Two documents that are not reported on. -/

/-- A verifier that pins no key, of an empty log. -/
def openVerifier : Verifier where
  sha256 := fun _ => []
  verify := fun _ _ _ => false
  log := logAudit
  pinned := []
  authority := []
  rootAt := fun _ => []
  totalLeaves := 0

/-- A statement whose leaves are a text. -/
def textLeaves : List (Json.Str × Json.Tree) :=
  [(str "leaves", .string (str "all"))]

/-- A bundle whose statement has a number for its key id. -/
def numberedKey : Json.Tree :=
  .object [(str "receipt", .object []), (str "index", intTree 0), (str "leaf", .string []), (str "path", .array []),
    (str "statement", .object [(str "key_id", intTree 7)])]

/-- Neither the file of that one statement nor the bundle is reported on. -/
theorem untrusted_not_reported
    : (readStatements (codec.line textLeaves)).1 = [statementOf textLeaves]
        ∧ (∀ report, openVerifier.verifyChain [statementOf textLeaves] [] ≠ .ok report)
        ∧ ∀ report,
            verifyReceiptBundle openVerifier.sha256 openVerifier.verify [] (decode numberedKey) ≠ .ok report := by
  refine ⟨?_, ?_, ?_⟩
  . have hlines : rawLines (codec.line textLeaves) = [textLeaves].map codec.line := by
      rw [rawLines, splitLines_of_no_newline (codec.no_newline textLeaves)]
      simp [codec.line_ne_nil]
    rw [readStatements_lines hlines]
    rfl
  . have hchain : (openVerifier.verifyChain [statementOf textLeaves] []).toOption.isNone = true := by
      with_unfolding_all decide
    intro report hreport
    rw [hreport] at hchain
    cases hchain
  . have hbundle : (verifyReceiptBundle openVerifier.sha256 openVerifier.verify [] (decode numberedKey)).toOption.isNone
        = true := by
      with_unfolding_all decide
    intro report hreport
    rw [hreport] at hbundle
    cases hbundle

end RootStatement
