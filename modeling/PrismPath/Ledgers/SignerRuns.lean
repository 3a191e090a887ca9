import PrismPath.Ledgers.VerifyChain
import PrismPath.Lib.JsonLines
import PrismPath.Lib.Runs
import PrismPath.Python.SortedReload
import PrismPath.Telemetry.SelfHealIntegrity

/-!
This module contains a root signer over signing calls, crashes in the middle of a statement's line, and restarts: the
chain its file holds, and which statements it keeps.
-/

open Python LineFile

namespace RootStatement

structure SignCall where
  root : Json.Str
  leaves : ℕ
  trigger : Json.Str
  policy : Obj := .none
  time : Json.Str

/-- A signer's own parameters. -/
structure Signing where
  sha256 : Bytes → Bytes
  key : InstanceKey
  log : Json.Str

/-- The statement, its line, and the signer after it. -/
def RootSigner.sign (d : Signing) (signer : RootSigner) (call : SignCall) : Except Error (Obj × Text × RootSigner) := do
  let statement ← makeStatement d.key d.log signer.seq call.root call.leaves signer.prev call.time call.trigger call.policy
  let line ← (dumpsSorted statement).elim (.error .typeError) .ok
  let hash ← statementHash d.sha256 statement
  return (statement, line, ⟨signer.seq + 1, hash⟩)

/-- The statements file and the process over it, with what its signing calls returned and the most leaves they covered. -/
structure State where
  text : Text := []
  signer : Option RootSigner := none
  returned : List Obj := []
  leaves : ℕ := 0

inductive Step where
  | start
  /-- A signing call that returns, or whose process dies when so many characters of the line are written. -/
  | sign (call : SignCall) (written : Option ℕ)

def Signing.next (d : Signing) (s : State) : Step → State
  | .start =>
    match RootSigner.start d.sha256 s.text with
    | .ok (signer, kept) => { s with text := kept.getD s.text, signer := some signer }
    | .error _ => { s with signer := none }
  | .sign call written =>
    match s.signer with
    | none => s
    | some signer =>
      match signer.sign d call, written with
      | .error _, _ => s
      | .ok (statement, line, signer'), none =>
        { text := s.text ++ (line ++ ['\n']), signer := some signer', returned := s.returned ++ [statement],
          leaves := call.leaves }
      | .ok (_, line, _), some n =>
        { s with text := s.text ++ (line ++ ['\n']).take n, signer := none, leaves := call.leaves }

/- Conditions. -/

/-- What holds of the key of a signer and of the name of its log. -/
structure Signing.WellFormed (d : Signing) : Prop where
  keyId : d.key.keyId = keyIdOf d.sha256 d.key.publicRaw
  publicLength : d.key.publicRaw.length = 32
  sigLength : ∀ message, (d.key.sign message).length = 64
  log : Json.join d.log = d.log

/-- The verifier of a signer's file. -/
structure Verifier.Trusts (v : Verifier) (d : Signing) : Prop where
  sha256 : v.sha256 = d.sha256
  log : v.log = d.log
  verifies : ∀ message, v.verify d.key.publicRaw message (d.key.sign message) = true
  pinned : v.pinned = [] ∨ d.key.publicRaw ∈ v.pinned
  authority : d.key.keyId ∉ v.authority
  roots : ∀ n, Json.join (v.rootAt n) = v.rootAt n

/-- The caller signs the root of a log that only grows, and a policy whose JSON is read as it was written. -/
structure Promised (rootAt : ℤ → Json.Str) (s : State) (step : Step) : Prop where
  root : ∀ call written, step = .sign call written → call.root = rootAt call.leaves
  leaves : ∀ call written, step = .sign call written → s.leaves ≤ call.leaves
  policy : ∀ call written, step = .sign call written → call.policy.stable = true

/-- A line that gets its newline begins at the start of a line. -/
def LineBegins (d : Signing) (s : State) (step : Step) : Prop :=
  ∀ call written signer statement line signer', step = .sign call written → s.signer = some signer →
    signer.sign d call = .ok (statement, line, signer') →
      ended s.text = true ∨ ∃ n, written = some n ∧ n ≤ line.length

/- The statement of a call. -/

theorem join_hex (data : Bytes)
    : Json.join (hex data) = hex data := by
  refine Json.join_of_plain fun c hc => ?_
  induction data with
  | nil => cases hc
  | cons b data ih =>
    have hdigit : ∀ n < 16, Json.isHigh (hexDigit n).val = false := by decide
    have hb := b.toNat_lt
    rw [hex_cons, List.mem_cons, List.mem_cons] at hc
    rcases hc with rfl | rfl | hc
    . exact hdigit _ (by omega)
    . exact hdigit _ (by omega)
    . exact ih hc

theorem fromHex_hex (data : Bytes)
    : SelfHeal.fromHex (hex data) = .ok data := by
  induction data with
  | nil => rfl
  | cons b data ih =>
    have hspace : ∀ n < 16, SelfHeal.isAsciiSpace (hexDigit n) = false := by decide
    have hvalue : ∀ n < 16, Json.hexValue (Char.ofNat (hexDigit n).val) = some n := by decide
    have hb := b.toNat_lt
    rw [hex_cons, SelfHeal.fromHex, hspace _ (by omega), hvalue _ (by omega), hvalue _ (by omega), ih]
    have hbyte : UInt8.ofNat (16 * (b.toNat / 16) + b.toNat % 16) = b := by
      rw [Nat.div_add_mod]
      exact UInt8.ofNat_toNat
    simp only [Bool.false_eq_true, if_false, bind, Except.bind, hbyte]
    rfl

/-- The fields of the call's statement, without the signature. -/
def RootSigner.body (d : Signing) (signer : RootSigner) (call : SignCall) : List (String × Obj) :=
  RootStatement.body d.key d.log signer.seq call.root call.leaves signer.prev call.time call.trigger call.policy

theorem stable_field {d : Signing} {signer : RootSigner} {call : SignCall} (h : call.policy.stable = true)
    : ∀ field ∈ signer.body d call, field.2.stable = true := by
  intro field hfield
  simp only [RootSigner.body, body, List.mem_cons, List.not_mem_nil, or_false] at hfield
  rcases hfield with rfl | rfl | rfl | rfl | rfl | rfl | rfl | rfl | rfl | rfl | rfl
  all_goals first | rfl | exact h

theorem stable_record {kvs : List (String × Obj)} (hkeys : keysStable (kvs.map fun kv => Key.str (str kv.1)) = true)
    (h : ∀ kv ∈ kvs, kv.2.stable = true)
    : (record kvs).stable = true := by
  rw [record, Obj.stable, List.map_map, Bool.and_eq_true]
  refine ⟨hkeys, ?_⟩
  clear hkeys
  induction kvs with
  | nil => rfl
  | cons kv kvs ih =>
    rw [List.forall_mem_cons] at h
    rw [List.map_cons, Obj.stableMembers, h.1, ih h.2]
    rfl

theorem stable_body {d : Signing} {signer : RootSigner} {call : SignCall} (h : call.policy.stable = true)
    : (record (signer.body d call)).stable = true := by
  have hkeys : (signer.body d call).map (fun kv => Key.str (str kv.1))
      = bodyFields.map fun name => Key.str (str name) := rfl
  refine stable_record ?_ (stable_field h)
  rw [hkeys]
  with_unfolding_all decide

def RootSigner.signed (d : Signing) (signer : RootSigner) (call : SignCall) (text : Text) : Obj :=
  record (signer.body d call ++ [("sig", .str (hex (d.key.sign (signingDomain ++ textBytes text))))])

theorem stable_signed {d : Signing} {signer : RootSigner} {call : SignCall} (h : call.policy.stable = true) (text : Text)
    : (signer.signed d call text).stable = true := by
  have hkeys : ∀ sig : Json.Str, (signer.body d call ++ [("sig", Obj.str sig)]).map (fun kv => Key.str (str kv.1))
      = (bodyFields ++ ["sig"]).map fun name => Key.str (str name) := fun _ => rfl
  refine stable_record ?_ fun field hfield => ?_
  . rw [hkeys]
    with_unfolding_all decide
  . rcases List.mem_append.mp hfield with hbody | hsig
    . exact stable_field h field hbody
    . rw [List.mem_singleton] at hsig
      rw [hsig]
      rfl

theorem sortedTree_record {kvs : List (String × Obj)} (h : (record kvs).stable = true)
    : ∃ ms, (record kvs).sortedTree = some (.object ms) := by
  rcases Obj.sortedTree_reread _ h with ⟨t, ht, _⟩
  have ht' := ht
  rw [record, Obj.sortedTree] at ht'
  simp only [Option.bind_eq_bind, Option.bind_eq_some_iff] at ht'
  rcases ht' with ⟨kts, _, hite⟩
  split at hite
  next =>
    cases hite
    exact ⟨_, ht⟩
  next => cases hite

/-- The statement a call makes, and what is written of it. -/
structure Made (d : Signing) (signer : RootSigner) (call : SignCall) (statement : Obj)
    (ms : List (Json.Str × Json.Tree)) (signer' : RootSigner) : Prop where
  signs : signer.sign d call = .ok (statement, Json.write .spaced (.object ms), signer')
  tree : statement.sortedTree = some (.object ms)
  stable : call.policy.stable = true
  text : ∃ text, canonicalCompact (record (signer.body d call)) = some text ∧ statement = signer.signed d call text
  hash : statementHash d.sha256 statement = .ok signer'.prev
  seq : signer'.seq = signer.seq + 1

theorem exists_made {d : Signing} {call : SignCall} (h : call.policy.stable = true) (signer : RootSigner)
    : ∃ statement ms signer', Made d signer call statement ms signer' := by
  rcases Obj.canonicalCompact_reread (stable_body h : (record (signer.body d call)).stable = true) with ⟨text, htext, _⟩
  have hstable : (signer.signed d call text).stable = true := stable_signed h text
  rcases sortedTree_record hstable with ⟨ms, hms⟩
  rcases Obj.canonicalCompact_reread hstable with ⟨cs, hcs, _⟩
  have hhash : statementHash d.sha256 (signer.signed d call text) = .ok (hex (d.sha256 (textBytes cs))) := by
    rw [statementHash, hcs]
  have hmake : makeStatement d.key d.log signer.seq call.root call.leaves signer.prev call.time call.trigger call.policy
      = .ok (signer.signed d call text) := by
    rw [RootSigner.body] at htext
    unfold makeStatement
    dsimp only
    rw [htext]
    rfl
  have hline : dumpsSorted (signer.signed d call text) = some (Json.write .spaced (.object ms)) := by
    rw [dumpsSorted, RootSigner.signed, hms]
    rfl
  refine ⟨_, ms, ⟨signer.seq + 1, hex (d.sha256 (textBytes cs))⟩, ?_, hms, h, ⟨text, htext, rfl⟩, hhash, rfl⟩
  rw [RootSigner.sign, hmake]
  simp only [bind, Except.bind, hline, hhash, Option.elim]
  rfl

/-- The sorted members of a statement, as they are read back. -/
def statementOf (ms : List (Json.Str × Json.Tree)) : Obj :=
  decode (Json.Tree.object ms).join

section

variable {d : Signing} {signer signer' : RootSigner} {call : SignCall} {statement : Obj}
  {ms : List (Json.Str × Json.Tree)}

theorem Made.reread (h : Made d signer call statement ms signer')
    : statement.reread = statementOf ms :=
  Obj.reread_of_sortedTree h.tree

theorem Made.rehash (h : Made d signer call statement ms signer')
    : statementHash d.sha256 (statementOf ms) = .ok signer'.prev := by
  rcases h.text with ⟨text, _, hstatement⟩
  have hstable : statement.stable = true := hstatement ▸ stable_signed h.stable text
  rcases Obj.canonicalCompact_reread hstable with ⟨cs, hcs, hread⟩
  have hhash := h.hash
  rw [statementHash, hcs] at hhash
  rw [statementHash, ← h.reread, hread]
  exact hhash

theorem join_name
    : ∀ name ∈ bodyFields ++ ["sig"], Json.join (str name) = str name := by
  with_unfolding_all decide

/-- What is read of a statement's line has its fields. -/
theorem Made.members (h : Made d signer call statement ms signer')
    : ∃ m text, statementOf ms = .dict m ∧ canonicalCompact (record (signer.body d call)) = some text
        ∧ (∀ name v, (name, v) ∈ signer.body d call → member m name = some v.reread)
        ∧ member m "sig" = some (.str (hex (d.key.sign (signingDomain ++ textBytes text)))) := by
  rcases h.text with ⟨text, htext, hstatement⟩
  have hstable : (signer.signed d call text).stable = true := stable_signed h.stable text
  rcases Obj.reread_dict hstable with ⟨m, hread, hlookup⟩
  have hmember : ∀ name v, (name, v) ∈ signer.body d call
      ++ [("sig", Obj.str (hex (d.key.sign (signingDomain ++ textBytes text))))] → member m name = some v.reread := by
    intro name v hmem
    have hname : name ∈ bodyFields ++ ["sig"] := by
      have hnames : bodyFields ++ ["sig"] = (signer.body d call
          ++ [("sig", Obj.str (hex (d.key.sign (signingDomain ++ textBytes text))))]).map Prod.fst := rfl
      rw [hnames]
      exact List.mem_map.mpr ⟨_, hmem, rfl⟩
    have hkey := hlookup (.str (str name), v)
      (List.mem_map_of_mem hmem)
    rw [Key.text, join_name name hname] at hkey
    exact hkey
  refine ⟨m, text, ?_, htext, fun name v hmem => hmember name v (List.mem_append_left _ hmem), ?_⟩
  . rw [← h.reread, hstatement]
    exact hread
  . rw [hmember "sig" _ (List.mem_append_right _ (List.mem_singleton_self _)), Obj.reread_of_sortedTree rfl]
    exact congrArg (fun s => some (Obj.str s)) (join_hex _)

variable {m : List (Key × Obj)} {text : Text}

theorem member_str {name : String} {s : Json.Str} (hs : Json.join s = s)
    (hm : ∀ name v, (name, v) ∈ signer.body d call → member m name = some v.reread)
    (hmem : (name, .str s) ∈ signer.body d call)
    : member m name = some (.str s) := by
  rw [hm name _ hmem, Obj.reread_of_sortedTree rfl]
  exact congrArg (fun s => some (Obj.str s)) hs

theorem member_int {name : String} {n : ℤ}
    (hm : ∀ name v, (name, v) ∈ signer.body d call → member m name = some v.reread)
    (hmem : (name, .int n) ∈ signer.body d call)
    : member m name = some (.int n) := by
  rw [hm name _ hmem, Obj.reread_of_sortedTree rfl]
  exact congrArg some (decode_intTree n)

/-- The statement of a call is well formed, with the call's own fields. -/
theorem wellFormed_member (hd : d.WellFormed) (hroot : Json.join call.root = call.root)
    (hprev : Json.join signer.prev = signer.prev)
    (hm : ∀ name v, (name, v) ∈ signer.body d call → member m name = some v.reread)
    (hsig : member m "sig" = some (.str (hex (d.key.sign (signingDomain ++ textBytes text)))))
    : wellFormed d.log m = some {
        seq := signer.seq
        leaves := call.leaves
        root := call.root
        prev := signer.prev
        keyId := d.key.keyId
        publicKey := d.key.publicRaw
        sig := d.key.sign (signingDomain ++ textBytes text)
      } := by
  have hformat : member m "format" = some (.str (str "prismpath-root-statement/1")) :=
    member_str (by with_unfolding_all decide) hm (List.mem_of_getElem? (i := 0) rfl)
  have hlog : member m "log" = some (.str d.log) := member_str hd.log hm (List.mem_of_getElem? (i := 1) rfl)
  have hseq : member m "seq" = some (.int signer.seq) := member_int hm (List.mem_of_getElem? (i := 2) rfl)
  have hleaves : member m "leaves" = some (.int call.leaves) := member_int hm (List.mem_of_getElem? (i := 4) rfl)
  have hroot' : member m "root" = some (.str call.root) := member_str hroot hm (List.mem_of_getElem? (i := 3) rfl)
  have hprev' : member m "prev" = some (.str signer.prev) := member_str hprev hm (List.mem_of_getElem? (i := 5) rfl)
  have hkeyId : Json.join d.key.keyId = d.key.keyId := by
    rw [hd.keyId]
    exact join_hex _
  have hkeyId' : member m "key_id" = some (.str d.key.keyId) := member_str hkeyId hm (List.mem_of_getElem? (i := 8) rfl)
  have hpublic : member m "public_key" = some (.str (hex d.key.publicRaw)) :=
    member_str (join_hex _) hm (List.mem_of_getElem? (i := 9) rfl)
  have hall : bodyFields.all (fun name => (member m name).isSome) = true := by
    rw [List.all_eq_true]
    intro name hname
    have hfields : bodyFields = (signer.body d call).map Prod.fst := rfl
    rw [hfields, List.mem_map] at hname
    rcases hname with ⟨kv, hkv, rfl⟩
    rw [hm kv.1 kv.2 hkv]
    rfl
  unfold wellFormed
  simp only [hformat, hlog, hseq, hleaves, hroot', hprev', hkeyId', hpublic, hsig, hall, strOf, intOf, bytesOf,
    fromHex_hex, Except.toOption, hd.publicLength, hd.sigLength, and_self, guard, if_true, Option.bind_eq_bind,
    Option.bind_some, Option.pure_def]

theorem signedBytes_member (h : call.policy.stable = true)
    (hm : ∀ name v, (name, v) ∈ signer.body d call → member m name = some v.reread)
    (htext : canonicalCompact (record (signer.body d call)) = some text)
    : signedBytes m = .ok (signingDomain ++ textBytes text) := by
  have hfields : (bodyFields.map fun name => (name, (member m name).getD .none))
      = (signer.body d call).map fun kv => (kv.1, kv.2.reread) := by
    have hnames : bodyFields = (signer.body d call).map Prod.fst := rfl
    rw [hnames, List.map_map]
    refine List.map_congr_left fun kv hkv => ?_
    rw [Function.comp_apply, hm kv.1 kv.2 hkv, Option.getD_some]
  have hrecord : record ((signer.body d call).map fun kv => (kv.1, kv.2.reread))
      = .dict (((signer.body d call).map fun kv => (Key.str (str kv.1), kv.2)).map fun kv => (kv.1, kv.2.reread)) := by
    rw [record, List.map_map, List.map_map]
    rfl
  have hstable : (record (signer.body d call)).stable = true := stable_body h
  rw [signedBytes, hfields, hrecord, Obj.canonicalCompact_dict_read hstable]
  rw [record] at htext
  rw [htext]

end

/- The chain. -/

/-- The statements of a chain as they are written, the signer that goes on with it, and the leaves it covers. -/
inductive Chain (d : Signing) (rootAt : ℤ → Json.Str) : List (List (Json.Str × Json.Tree)) → RootSigner → ℕ → Prop
  | nil : Chain d rootAt [] ⟨0, []⟩ 0
  | sign {rs : List (List (Json.Str × Json.Tree))} {signer signer' : RootSigner} {leaves : ℕ} {call : SignCall}
      {statement : Obj} {ms : List (Json.Str × Json.Tree)} (hchain : Chain d rootAt rs signer leaves)
      (hroot : call.root = rootAt call.leaves) (hleaves : leaves ≤ call.leaves)
      (hmade : Made d signer call statement ms signer') : Chain d rootAt (rs ++ [ms]) signer' call.leaves

section

variable {d : Signing} {rootAt : ℤ → Json.Str} {rs : List (List (Json.Str × Json.Tree))} {signer : RootSigner}
  {leaves : ℕ}

theorem Chain.seq (h : Chain d rootAt rs signer leaves)
    : signer.seq = rs.length := by
  induction h with
  | nil => rfl
  | sign _ _ _ hmade ih => rw [hmade.seq, ih, List.length_append, List.length_singleton]

theorem join_statementHash {sha256 : Bytes → Bytes} {statement : Obj} {hash : Json.Str}
    (h : statementHash sha256 statement = .ok hash)
    : Json.join hash = hash := by
  unfold statementHash at h
  split at h
  next =>
    cases h
    exact join_hex _
  next => cases h

theorem Chain.prev (h : Chain d rootAt rs signer leaves)
    : Json.join signer.prev = signer.prev := by
  cases h with
  | nil => rfl
  | sign _ _ _ hmade => exact join_statementHash hmade.hash

/-- The digest the next statement names is that of the last statement in the file. -/
theorem Chain.last (h : Chain d rootAt rs signer leaves)
    : (rs.map statementOf).getLast?.elim (.ok []) (statementHash d.sha256) = .ok signer.prev := by
  cases h with
  | nil => rfl
  | sign _ _ _ hmade =>
    rw [List.map_append, List.map_singleton, List.getLast?_concat]
    exact hmade.rehash

end

/- The verification of a chain. -/

theorem Verifier.walkFrom_append (v : Verifier) (walk : Walk) (index : ℕ) (statements statements' : List Obj)
    : v.walkFrom walk index (statements ++ statements')
        = v.walkFrom walk index statements >>= fun walk => v.walkFrom walk (index + statements.length) statements' := by
  induction statements generalizing walk index with
  | nil => rfl
  | cons statement statements ih =>
    rw [List.cons_append, Verifier.walkFrom, Verifier.walkFrom]
    cases v.check walk index statement with
    | error e => rfl
    | ok walk' =>
      show v.walkFrom walk' (index + 1) (statements ++ statements') = _
      rw [ih, List.length_cons, Nat.add_assoc, Nat.add_comm 1]
      rfl

/-- A statement in its place adds no finding. -/
theorem check_made {v : Verifier} {d : Signing} (hd : d.WellFormed) (hv : v.Trusts d) {signer signer' : RootSigner}
    {call : SignCall} {statement : Obj} {ms : List (Json.Str × Json.Tree)}
    (hmade : Made d signer call statement ms signer') (hroot : call.root = v.rootAt call.leaves)
    (hprev : Json.join signer.prev = signer.prev) (walk : Walk) (hhash : walk.prevHash = signer.prev)
    (hleaves : walk.prevLeaves ≤ call.leaves) (htotal : (call.leaves : ℤ) ≤ v.totalLeaves)
    : v.check walk signer.seq (statementOf ms) = .ok {
        findings := walk.findings
        prevHash := signer'.prev
        prevLeaves := call.leaves
        mismatchFrom := walk.mismatchFrom
        keyIds := if d.key.keyId ∈ walk.keyIds then walk.keyIds else walk.keyIds ++ [d.key.keyId]
      } := by
  rcases hmade.members with ⟨m, text, hread, htext, hm, hsig⟩
  have hjoin : Json.join call.root = call.root := by
    rw [hroot]
    exact hv.roots _
  have hfields := wellFormed_member hd hjoin hprev hm hsig
  have hbytes := signedBytes_member hmade.stable hm htext
  have hrehash := hmade.rehash
  rw [← hv.sha256] at hrehash
  rw [← hv.log] at hfields
  have hkeyId : keyIdOf v.sha256 d.key.publicRaw = d.key.keyId := by rw [hv.sha256, hd.keyId]
  have hpinned : ¬ (v.pinnedIds ≠ [] ∧ d.key.keyId ∉ v.pinnedIds) := by
    rintro ⟨hne, hmem⟩
    rcases hv.pinned with hnil | hpin
    . exact hne (by rw [Verifier.pinnedIds, hnil]; rfl)
    . exact hmem (by rw [← hkeyId]; exact List.mem_map_of_mem hpin)
  have hwrong : ∀ fields : Fields, fields.leaves = call.leaves → fields.root = call.root →
      v.rootIsWrong fields = false := by
    intro fields hl hr
    rw [Verifier.rootIsWrong, hl, hr, hroot]
    simp
  have hm' : ∃ kv rest, m = kv :: rest := by
    cases m with
    | nil => cases hsig
    | cons kv rest => exact ⟨kv, rest, rfl⟩
  rcases hm' with ⟨kv, rest, rfl⟩
  rw [hread] at hrehash ⊢
  have hlog : ¬ v.totalLeaves < (call.leaves : ℤ) := not_lt.mpr htotal
  have hregressed : ¬ (call.leaves : ℤ) < walk.prevLeaves := not_lt.mpr hleaves
  simp only [Verifier.check, hrehash, hfields, bind, Except.bind, pure, Except.pure, Verifier.keyFindings, hkeyId,
    hbytes, hv.verifies, ne_eq, not_true_eq_false, if_false, if_true, Verifier.placeFindings, hpinned, hv.authority,
    hhash, or_self, hregressed, hlog, Verifier.mismatchFrom]
  rw [hwrong _ rfl rfl]
  simp

section

variable {v : Verifier} {d : Signing} (hd : d.WellFormed) (hv : v.Trusts d)
  {rs : List (List (Json.Str × Json.Tree))} {signer : RootSigner} {leaves : ℕ}

include hd hv

theorem walk_chain (h : Chain d v.rootAt rs signer leaves) (htotal : (leaves : ℤ) ≤ v.totalLeaves)
    (findings : List Finding)
    : ∃ keyIds, (keyIds = [] ∨ keyIds = [d.key.keyId])
        ∧ v.walkFrom { findings } 0 (rs.map statementOf) = .ok {
          findings
          prevHash := signer.prev
          prevLeaves := leaves
          keyIds
        } := by
  induction h with
  | nil => exact ⟨[], .inl rfl, rfl⟩
  | @sign rs signer signer' leaves call statement ms hchain hroot hleaves hmade ih =>
    rcases ih (le_trans (Int.ofNat_le.mpr hleaves) htotal) with ⟨keyIds, hkeyIds, hwalk⟩
    refine ⟨[d.key.keyId], .inr rfl, ?_⟩
    have hcheck := check_made hd hv hmade hroot hchain.prev { findings, prevHash := signer.prev, prevLeaves := leaves, keyIds }
      rfl (Int.ofNat_le.mpr hleaves) htotal
    rw [List.map_append, Verifier.walkFrom_append, hwalk, List.length_map, Nat.zero_add, ← hchain.seq]
    simp only [bind, Except.bind, List.map_cons, List.map_nil, Verifier.walkFrom, hcheck]
    rcases hkeyIds with rfl | rfl
    . rfl
    . simp

omit hd hv in
theorem member_of_made {signer' : RootSigner} {call : SignCall} {statement : Obj} {ms : List (Json.Str × Json.Tree)}
    (h : Made d signer call statement ms signer')
    : isEmptyDict (statementOf ms) = false ∧ (statementOf ms).get "leaves" (.int 0) = .ok (.int call.leaves) := by
  rcases h.members with ⟨m, text, hread, _, hm, hsig⟩
  have hleaves : member m "leaves" = some (.int call.leaves) := member_int hm (List.mem_of_getElem? (i := 4) rfl)
  rw [hread]
  constructor
  . cases m with
    | nil => cases hsig
    | cons kv rest => rfl
  . rw [member] at hleaves
    rw [Obj.get, hleaves]
    rfl

/-- A chain is accepted, also when a line after it was cut short. -/
theorem accepted_chain (h : Chain d v.rootAt rs signer leaves) (hne : rs ≠ []) (htotal : (leaves : ℤ) ≤ v.totalLeaves)
    {findings : List Finding} (hfindings : findings.any Finding.fatal = false)
    : ∃ report, v.verifyChain (rs.map statementOf) findings = .ok report ∧ report.accepted = true := by
  rcases walk_chain hd hv h htotal findings with ⟨keyIds, _, hwalk⟩
  cases h with
  | nil => exact absurd rfl hne
  | @sign rs signer _ leaves' call statement ms hchain hroot hleaves hmade =>
    rcases member_of_made hmade with ⟨hfull, hget⟩
    have hlast : (((rs ++ [ms]).map statementOf).filter fun statement => !isEmptyDict statement).getLast?
        = some (statementOf ms) := by
      rw [List.map_append, List.map_singleton, List.filter_append]
      simp [hfull]
    have hempty : ((rs ++ [ms]).map statementOf).isEmpty = false := by simp
    have hnil : ¬ (v.pinnedIds ≠ [] ∧ (rs ++ [ms]).map statementOf = []) := by simp
    have hhash := hmade.rehash
    rw [← hv.sha256] at hhash
    unfold Verifier.verifyChain
    simp only [hwalk, bind, Except.bind, pure, Except.pure, hlast, hget, hempty, hnil, if_false, List.append_nil,
      Bool.false_eq_true, hfindings, unsignedTail, intOf, hhash, Functor.map, Except.map]
    refine ⟨_, rfl, ?_⟩
    rw [Report.accepted]
    split <;> rfl

end

/- The file. -/

/-- Statements, one in a line. -/
abbrev codec : LineCodec (List (Json.Str × Json.Tree)) Json.Tree :=
  Json.lineCodec .spaced

def readLine (line : Text) : Option Obj :=
  (loads line).filter isDict

theorem readLine_line (ms : List (Json.Str × Json.Tree))
    : readLine (codec.line ms) = some (statementOf ms) := by
  have hparse : Json.parse (codec.line ms) = some (Json.Tree.object ms).join := codec.read_line ms
  rw [readLine, loads, hparse]
  rfl

theorem readLine_of_parse {line : Text} (h : Json.parse line = none)
    : readLine line = none := by
  rw [readLine, loads, h]
  rfl

/-- A file of whole lines holds its statements, and nothing else is found in it. -/
theorem readStatements_lines {text : Text} {rs : List (List (Json.Str × Json.Tree))}
    (h : rawLines text = rs.map codec.line)
    : readStatements text = (rs.map statementOf, false, []) := by
  have hread : (rs.map codec.line).map readLine = rs.map fun ms => some (statementOf ms) := by
    rw [List.map_map]
    exact List.map_congr_left fun ms _ => readLine_line ms
  have hbad : ((List.range ((rs.map codec.line).length - 1)).filter fun i =>
      ((rs.map fun ms => some (statementOf ms)).getD i none).isNone) = [] := by
    rw [List.filter_eq_nil_iff]
    intro i hi
    rw [List.mem_range, List.length_map] at hi
    have hlt : i < rs.length := by omega
    simp [hlt]
  unfold readStatements
  simp only [h]
  rw [show (fun line => Option.filter isDict (loads line)) = readLine from rfl, hread]
  rw [hbad]
  rcases List.eq_nil_or_concat rs with rfl | ⟨rs', ms, rfl⟩
  . rfl
  . simp

/-- A last line that cannot be read is reported, and is no statement. -/
theorem readStatements_cut {text p : Text} {rs : List (List (Json.Str × Json.Tree))}
    (h : rawLines text = rs.map codec.line ++ [p]) (hp : Json.parse p = none)
    : readStatements text = (rs.map statementOf, true, []) := by
  have hread : (rs.map codec.line ++ [p]).map readLine = (rs.map fun ms => some (statementOf ms)) ++ [none] := by
    rw [List.map_append, List.map_map, List.map_singleton, readLine_of_parse hp]
    congr 1
    exact List.map_congr_left fun ms _ => readLine_line ms
  have hbad : ((List.range ((rs.map codec.line ++ [p]).length - 1)).filter fun i =>
      (((rs.map fun ms => some (statementOf ms)) ++ [none]).getD i none).isNone) = [] := by
    rw [List.filter_eq_nil_iff]
    intro i hi
    rw [List.mem_range, List.length_append, List.length_map, List.length_singleton, Nat.add_sub_cancel] at hi
    simp [List.getElem?_append_left, hi]
  unfold readStatements
  simp only [h]
  rw [show (fun line => Option.filter isDict (loads line)) = readLine from rfl, hread]
  simp only [List.getLast?_concat, hbad, if_true, List.dropLast_concat, List.map_map, List.map_nil]
  rfl

theorem keptText_cut {p : Text} (rs : List (List (Json.Str × Json.Tree))) (hp : '\n' ∉ p) (hne : p ≠ [])
    : keptText (text codec rs ++ p) = text codec rs := by
  unfold keptText
  simp only [splitLines_text rs hp, List.getLast?_concat, Option.some.injEq, hne, if_false, List.dropLast_concat,
    List.flatMap_map]
  rfl

end RootStatement
