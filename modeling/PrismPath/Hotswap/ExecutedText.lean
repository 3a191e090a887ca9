import PrismPath.Hotswap.FlowAuthority
import PrismPath.Hotswap.PolicyPackLemmas
import PrismPath.Hotswap.SignedImage
import PrismPath.Lib.Process

/-!
This module contains which text of a flow is executed: the one read when it is parsed, which has the signed
digest when the file did not change after it was hashed.
-/

open Python PolicyPack

namespace FlowAuthority

theorem raising_eq_ok {α : Type} {x : Except Raised α} {a : α} (h : raising x = .ok a)
    : x = .ok a := by
  cases x with
  | error e => cases h
  | ok b => cases h; rfl

/-- What an accepted manifest has been checked for. -/
structure Authorized (lib : Library) (pubs : List (Option (List UInt8))) (revoked : List String)
    (files : Moment → Files) (entries : Entries) (manifest : List (String × Value)) (version : ℤ) : Prop where
  signed : ∃ sig, (files .sig).sig = some sig ∧ checkSignature lib pubs revoked sig manifest = .ok []
  versioned : version? (get manifest "version") = some version
  hashed : ∃ text, readText (files .flowHash).flow = .ok text
    ∧ get manifest "flow_sha256" = .str (textSha256 lib text)
  admitted : admits lib entries manifest version = true

theorem authorized_of_verifyManifest {lib : Library} {pubs : List (Option (List UInt8))} {revoked : List String}
    {files : Moment → Files} {entries : Entries} {sig : List UInt8} {manifest manifest' : List (String × Value)}
    {version version' : ℤ} (hsig : (files .sig).sig = some sig) (hversion : version? (get manifest "version") = some version)
    (h : verifyManifest lib pubs revoked files entries sig manifest version = .ok (.accepted manifest' version'))
    : manifest' = manifest ∧ version' = version ∧ Authorized lib pubs revoked files entries manifest version := by
  unfold verifyManifest at h
  rcases Except.bind_eq_ok.mp h with ⟨causes, hsigned, h⟩
  by_cases hnone : causes = []
  . subst hnone
    rcases Except.bind_eq_ok.mp h with ⟨sha256, hsha, h⟩
    cases hflow : (Value.str sha256).eq (get manifest "flow_sha256") with
    | false =>
      rw [hflow] at h
      cases h
    | true =>
      cases hadmits : admits lib entries manifest version with
      | false =>
        rw [hflow, hadmits] at h
        cases h
      | true =>
        rw [hflow, hadmits] at h
        cases h
        rcases Except.bind_eq_ok.mp hsha with ⟨text, htext, hret⟩
        cases hret
        refine ⟨rfl, rfl, ⟨sig, hsig, hsigned⟩, hversion, ⟨text, htext, ?_⟩, hadmits⟩
        exact (eq_str_iff _ _).mp hflow
  . rw [if_pos hnone] at h
    cases h

theorem authorized_of_verifyFlow {lib : Library} {pubs : List (Option (List UInt8))} {revoked : List String}
    {files : Moment → Files} {entries : Entries} {manifest : List (String × Value)} {version : ℤ}
    (h : verifyFlow lib pubs revoked files entries = .ok (.accepted manifest version))
    : Authorized lib pubs revoked files entries manifest version := by
  unfold verifyFlow at h
  split at h
  . cases h
  . rcases Except.bind_eq_ok.mp h with ⟨text, _, h⟩
    split at h
    . cases h
    . rcases Except.bind_eq_ok.mp h with ⟨sig, hsig, h⟩
      split at h
      . next manifest' =>
        split at h
        . cases h
        . split at h
          . cases h
          . next version' hversion =>
            have hread : (files .sig).sig = some sig := by
              revert hsig
              cases (files .sig).sig with
              | none => intro hopen; cases hopen
              | some data => intro hopen; cases hopen; rfl
            rcases authorized_of_verifyManifest hread hversion h with ⟨rfl, rfl, hauthorized⟩
            exact hauthorized
      . cases h

/-- What a verified authorization rests on, with the entries it has to store. -/
theorem verified_of_authorizeFlow {lib : Library} {policy : AuthorizationPolicy} {instanceKeyId : Option String}
    {floor : Except Raised Entries} {files : Moment → Files} {authorization : Authorization}
    {written : Option Entries} (h : authorizeFlow lib policy instanceKeyId floor files = .ok (authorization, written))
    (hverified : authorization.status = .verified)
    : ∃ entries manifest version, floor = .ok entries
        ∧ verifyFlow lib policy.pubs policy.revoked files entries = .ok (.accepted manifest version)
        ∧ authorization.manifest = some manifest
        ∧ written = if policy.required then accept lib entries manifest version else none := by
  unfold authorizeFlow at h
  dsimp only at h
  split at h
  . cases h
    cases hverified
  . split at h
    . split at h
      . cases h
      . cases h
        cases hverified
    . rcases Except.bind_eq_ok.mp h with ⟨_, _, h⟩
      rcases Except.bind_eq_ok.mp h with ⟨entries, hentries, h⟩
      rcases Except.bind_eq_ok.mp h with ⟨verified, hcheck, h⟩
      refine ⟨entries, ?_⟩
      unfold conclude at h
      split at h
      . split at h
        . cases h
        . cases h
          cases hverified
      . next manifest version =>
        split at h
        . split at h
          . cases h
          . cases h
            cases hverified
        . cases h
          exact ⟨manifest, version, raising_eq_ok hentries, raising_eq_ok hcheck, rfl, rfl⟩

/-- The graph is the parse of the text the file held when it was parsed; the signed manifest names the text it
held when it was hashed. -/
structure Executes {γ : Type} (lib : Library) (policy : AuthorizationPolicy) (parse : String → Except Error γ)
    (files : Moment → Files) (manifest : List (String × Value)) (graph : γ) : Prop where
  signed : ∃ sig, (files .sig).sig = some sig
    ∧ checkSignature lib policy.pubs policy.revoked sig manifest = .ok []
  executed : ∃ text hashed, readText (files .flowText).flow = .ok text ∧ parse text = .ok graph
    ∧ readText (files .flowHash).flow = .ok hashed
    ∧ (get manifest "flow_sha256" = .str (textSha256 lib text) ↔ textSha256 lib text = textSha256 lib hashed)

theorem text_of_parseFile {γ : Type} {maxFlowBytes : Nat} {parse : String → Except Error γ}
    {files : Moment → Files} {graph : γ} (h : parseFile maxFlowBytes parse files = .ok graph)
    : ∃ text, readText (files .flowText).flow = .ok text ∧ parse text = .ok graph := by
  unfold parseFile at h
  rcases Except.bind_eq_ok.mp h with ⟨sized, _, h⟩
  split at h
  . cases h
  . rcases Except.bind_eq_ok.mp h with ⟨text, htext, h⟩
    exact ⟨text, raising_eq_ok htext, h⟩

theorem loaded_cases {γ : Type} {lib : Library} {policy : AuthorizationPolicy} {instanceKeyId : Option String}
    {floor : Except Raised Entries} {stored : Except Raised Unit} {maxFlowBytes : Nat}
    {parse : String → Except Error γ} {files : Moment → Files} {graph : γ} {authorization : Authorization}
    (h : loadAuthorized lib policy instanceKeyId floor stored maxFlowBytes parse files = .ok (graph, authorization))
    : (∃ written, authorizeFlow lib policy instanceKeyId floor files = .ok (authorization, written))
        ∧ parseFile maxFlowBytes parse files = .ok graph := by
  unfold loadAuthorized at h
  rcases Except.bind_eq_ok.mp h with ⟨⟨authorization', written⟩, hauthorize, h⟩
  have hrest {x : Except Error γ} (hx : (do let graph ← x; return (graph, authorization'))
      = (.ok (graph, authorization) : Except Error (γ × Authorization)))
      : x = .ok graph ∧ authorization' = authorization := by
    rcases Except.bind_eq_ok.mp hx with ⟨graph', hgraph, hret⟩
    cases hret
    exact ⟨hgraph, rfl⟩
  dsimp only at h
  split at h
  . rcases Except.bind_eq_ok.mp h with ⟨_, _, h⟩
    rcases hrest h with ⟨hparse, rfl⟩
    exact ⟨⟨written, hauthorize⟩, hparse⟩
  . rcases hrest h with ⟨hparse, rfl⟩
    exact ⟨⟨written, hauthorize⟩, hparse⟩

theorem executes_of_loaded {γ : Type} {lib : Library} {policy : AuthorizationPolicy} {instanceKeyId : Option String}
    {floor : Except Raised Entries} {stored : Except Raised Unit} {maxFlowBytes : Nat}
    {parse : String → Except Error γ} {files : Moment → Files} {graph : γ} {authorization : Authorization}
    (h : loadAuthorized lib policy instanceKeyId floor stored maxFlowBytes parse files = .ok (graph, authorization))
    (hverified : authorization.status = .verified)
    : ∃ manifest, authorization.manifest = some manifest ∧ Executes lib policy parse files manifest graph := by
  rcases loaded_cases h with ⟨⟨written, hauthorize⟩, hparse⟩
  rcases verified_of_authorizeFlow hauthorize hverified with ⟨entries, manifest, version, _, hcheck, hmanifest, _⟩
  have hauthorized := authorized_of_verifyFlow hcheck
  rcases text_of_parseFile hparse with ⟨text, htext, hgraph⟩
  rcases hauthorized.hashed with ⟨hashed, hhashed, hdigest⟩
  refine ⟨manifest, hmanifest, hauthorized.signed, text, hashed, htext, hgraph, hhashed, ?_⟩
  rw [hdigest, Value.str.injEq]
  exact eq_comm

/-- A verified flow executes the signed text exactly when the file has one digest at its two reads. -/
theorem executed_text {γ ρ : Type} (lib : Library) (policy : AuthorizationPolicy) (floor : Except Raised Entries)
    (stored : Except Raised Unit) (maxFlowBytes : Nat) (parse : String → Except Error γ)
    (files : Moment → Files)
    : (∀ instanceKeyId graph authorization,
          loadAuthorized lib policy instanceKeyId floor stored maxFlowBytes parse files = .ok (graph, authorization) →
          authorization.status = .verified →
          ∃ manifest, authorization.manifest = some manifest ∧ Executes lib policy parse files manifest graph)
        ∧ ∀ (run : γ → Except Error ρ) (result : ρ) (authorization : Authorization) (written : Option Entries),
            runDurable lib policy floor stored maxFlowBytes parse run files = .ok result →
            authorizeFlow lib policy none floor files = .ok (authorization, written) →
            authorization.status = .verified →
            ∃ manifest graph, authorization.manifest = some manifest ∧ run graph = .ok result
              ∧ Executes lib policy parse files manifest graph := by
  refine ⟨fun instanceKeyId graph authorization h hverified => executes_of_loaded h hverified, ?_⟩
  intro run result authorization written h hauthorize hverified
  unfold runDurable at h
  rcases Except.bind_eq_ok.mp h with ⟨⟨graph, authorization'⟩, hload, hrun⟩
  rcases (loaded_cases hload).1 with ⟨written', hauthorize'⟩
  cases hauthorize.symm.trans hauthorize'
  rcases executes_of_loaded hload hverified with ⟨manifest, hmanifest, hexecutes⟩
  exact ⟨manifest, graph, hmanifest, hrun, hexecutes⟩

/- A flow the authority signed at version 1, again at version 10, and a flow it did not sign. -/

def flowOne : String :=
  "# one\n"

def flowTwo : String :=
  "# two\n"

def flowDigestOne : String :=
  "54c592ac3a26758bdc4232b5a2f32eed508b2b3c48bc3b177eae44a5b47bd0c8"

def flowDigestTwo : String :=
  "e398205404a3f18fda77a94d33e70f73a1b3dafeba62cd65ffba135aa238baf7"

def flowManifest (version : ℤ) : List (String × Value) :=
  [("created", .str "2026-11-04T12:00:00+00:00"), ("flow", .str "one"), ("flow_sha256", .str flowDigestOne),
    ("format", .str flowManifestFormat), ("key_id", .str PolicyHost.authorityId), ("version", .int version)]

def manifestHead : String :=
  "\x7b\"created\":\"2026-11-04T12:00:00+00:00\",\"flow\":\"one\","
    ++ "\"flow_sha256\":\"54c592ac3a26758bdc4232b5a2f32eed508b2b3c48bc3b177eae44a5b47bd0c8\","
    ++ "\"format\":\"prismpath-flow-manifest/1\","
    ++ "\"key_id\":\"85670917a76712b5aed5ebe779fd15a65750beebb3106dc0a67edf4277297826\",\"version\":"

def manifestText (version : String) : String :=
  manifestHead ++ version ++ "\x7d"

def flowSigOne : List UInt8 :=
  [78, 217, 204, 197, 235, 119, 145, 77, 223, 133, 157, 203, 253, 232, 174, 231, 41, 11, 91, 136, 25, 88, 187,
    171, 189, 35, 45, 25, 128, 82, 72, 188, 40, 228, 145, 0, 42, 253, 176, 133, 14, 200, 17, 72, 66, 74, 147,
    150, 187, 85, 194, 253, 222, 81, 180, 54, 117, 50, 172, 234, 14, 248, 163, 14]

def flowSigTen : List UInt8 :=
  [184, 186, 146, 1, 28, 206, 98, 24, 74, 47, 111, 87, 188, 108, 180, 27, 129, 205, 228, 7, 155, 94, 250, 216,
    82, 146, 254, 101, 54, 92, 223, 134, 246, 219, 11, 18, 240, 100, 182, 141, 132, 162, 31, 79, 129, 171, 239,
    75, 166, 228, 243, 230, 243, 91, 121, 144, 243, 154, 63, 105, 8, 221, 112, 10]

def flowLibrary : Library where
  sha256Hex data :=
    if data = flowOne.toUTF8.data.toList then flowDigestOne
    else if data = flowTwo.toUTF8.data.toList then flowDigestTwo
    else if data = PolicyHost.authorityKey then PolicyHost.authorityId
    else ""
  verify pub sig _ := pub = PolicyHost.authorityKey && (sig = flowSigOne || sig = flowSigTen)
  loads text :=
    if text = manifestText "1" then some (.dict (flowManifest 1))
    else if text = manifestText "10" then some (.dict (flowManifest 10))
    else none
  canonicalBytes manifest := if (get manifest "version").eq (.int 1) then manifestText "1" else manifestText "10"
  str
    | .str s => s
    | _ => ""

def flowFiles (text manifest : String) (sig : List UInt8) : Files where
  flow := some text.toUTF8.data.toList
  manifest := some manifest
  sig := some sig

def flowPolicy : AuthorizationPolicy where
  required := true
  pubs := [some PolicyHost.authorityKey]
  revoked := []

/-- The signed flow, replaced by the other one when it is parsed. -/
def replacedFlow : Moment → Files
  | .flowText => flowFiles flowTwo (manifestText "1") flowSigOne
  | _ => flowFiles flowOne (manifestText "1") flowSigOne

theorem fromUTF8?_toUTF8 (text : String)
    : String.fromUTF8? ⟨text.toUTF8.data.toList.toArray⟩ = some text := by
  have hbytes : (⟨text.toUTF8.data.toList.toArray⟩ : ByteArray) = text.toUTF8 := by simp
  rw [hbytes]
  exact dif_pos text.isValidUTF8

theorem readText_utf8 (text : String)
    : readText (some text.toUTF8.data.toList) = .ok (String.ofList (universalNewlines text.toList)) := by
  simp only [readText, openFile, bind, Except.bind, fromUTF8?_toUTF8, pure, Except.pure]

theorem flowSha256_one
    : flowSha256 flowLibrary (some flowOne.toUTF8.data.toList) = .ok flowDigestOne := by
  have htext : String.ofList (universalNewlines flowOne.toList) = flowOne := by with_unfolding_all decide
  have hsha : flowLibrary.sha256Hex flowOne.toUTF8.data.toList = flowDigestOne := by simp only [flowLibrary, if_true]
  simp only [flowSha256, readText_utf8, htext, bind, Except.bind, textSha256, hsha, pure, Except.pure]

theorem verifyFlow_signed (files : Moment → Files) (entries : Entries) {text : String} {sig : List UInt8} {version : ℤ}
    (hfiles : ∀ moment, moment ≠ .flowText → files moment = flowFiles flowOne text sig)
    (hloads : flowLibrary.loads text = some (.dict (flowManifest version)))
    (hsig : sig = flowSigOne ∨ sig = flowSigTen)
    (hadmits : admits flowLibrary entries (flowManifest version) version = true)
    : verifyFlow flowLibrary [some PolicyHost.authorityKey] [] files entries
        = .ok (.accepted (flowManifest version) version) := by
  have hverify (payload : String) : flowLibrary.verify PolicyHost.authorityKey sig payload = true := by
    rcases hsig with rfl | rfl <;> simp [flowLibrary]
  have hkey : loadPublic flowLibrary (some PolicyHost.authorityKey)
      = .ok (PolicyHost.authorityKey, PolicyHost.authorityId) := by
    with_unfolding_all decide
  have hkeyId : (get (flowManifest version) "key_id").eq (.str PolicyHost.authorityId) = true :=
    (eq_str_iff _ _).mpr rfl
  have hsignature : checkSignature flowLibrary [some PolicyHost.authorityKey] [] sig (flowManifest version) = .ok [] := by
    simp only [checkSignature, findSigner, hkey, bind, Except.bind, hverify, if_true, pure, Except.pure,
      List.not_mem_nil, if_false, hkeyId, Bool.not_true, reasonIf, Bool.false_eq_true]
  have hformat : (get (flowManifest version) "format").eq (.str flowManifestFormat) = true :=
    (eq_str_iff _ _).mpr rfl
  have hflow : (Value.str flowDigestOne).eq (get (flowManifest version) "flow_sha256") = true :=
    (eq_str_iff _ _).mpr rfl
  have hversion : version? (get (flowManifest version) "version") = some version := rfl
  have hmanifest : verifyManifest flowLibrary [some PolicyHost.authorityKey] [] files entries sig
      (flowManifest version) version = .ok (.accepted (flowManifest version) version) := by
    unfold verifyManifest
    rw [hsignature, hfiles .flowHash (by decide)]
    simp only [flowFiles, flowSha256_one, bind, Except.bind, ne_eq, not_true_eq_false, if_false, hflow, hadmits,
      Bool.not_true, Bool.false_eq_true, pure, Except.pure]
  unfold verifyFlow
  rw [hfiles .manifestExists (by decide), hfiles .sigExists (by decide), hfiles .manifest (by decide),
    hfiles .sig (by decide)]
  simp only [flowFiles, Option.isNone_some, Bool.or_false, Bool.false_eq_true, if_false, openFile, bind, Except.bind,
    hloads, hformat, Bool.not_true, hversion, hmanifest]

theorem loads_one
    : flowLibrary.loads (manifestText "1") = some (.dict (flowManifest 1)) := by
  simp only [flowLibrary, if_true]

/-- A required check of the signed flow over an empty floor. -/
theorem authorize_one {files : Moment → Files}
    (hfiles : ∀ moment, moment ≠ .flowText → files moment = flowFiles flowOne (manifestText "1") flowSigOne)
    : ∃ written, authorizeFlow flowLibrary flowPolicy none (.ok []) files
        = .ok (⟨.verified, true, [], some (flowManifest 1)⟩, written) := by
  have hverified := verifyFlow_signed files [] hfiles loads_one (.inl rfl) rfl
  unfold authorizeFlow
  simp only [flowPolicy, Bool.not_true, Bool.false_and, Bool.false_eq_true, if_false, List.isEmpty_cons,
    checkSeparation, bind, Except.bind, raising, hverified, conclude, instanceSigned, if_true]
  exact ⟨_, rfl⟩

theorem load_one {files : Moment → Files}
    (hfiles : ∀ moment, moment ≠ .flowText → files moment = flowFiles flowOne (manifestText "1") flowSigOne)
    (text : String) (htext : (files .flowText).flow = some text.toUTF8.data.toList)
    (hlf : String.ofList (universalNewlines text.toList) = text)
    : loadAuthorized flowLibrary flowPolicy none (.ok []) (.ok ()) 65536 (fun text => .ok text) files
        = .ok (text, ⟨.verified, true, [], some (flowManifest 1)⟩) := by
  rcases authorize_one hfiles with ⟨written, hauthorize⟩
  have hparse : parseFile 65536 (fun text => .ok text) files = (.ok text : Except Error String) := by
    have hsize : ¬ 65536 < flowOne.toUTF8.data.toList.length := by with_unfolding_all decide
    unfold parseFile
    rw [hfiles .flowSize (by decide), htext]
    simp only [flowFiles, openFile, raising, bind, Except.bind, hsize, if_false, readText_utf8, hlf]
  unfold loadAuthorized
  rw [hauthorize]
  simp only [bind, Except.bind, hparse, raising, pure, Except.pure, ite_self]

/-- The signed manifest names another text than the one that is loaded. -/
theorem replaced_text_loaded
    : ¬ ∀ (γ : Type) (lib : Library) (policy : AuthorizationPolicy) (floor : Except Raised Entries)
        (stored : Except Raised Unit) (maxFlowBytes : Nat) (parse : String → Except Error γ)
        (files : Moment → Files) (graph : γ) (authorization : Authorization),
        loadAuthorized lib policy none floor stored maxFlowBytes parse files = .ok (graph, authorization) →
          authorization.status = .verified →
          ∃ manifest text, authorization.manifest = some manifest ∧ parse text = .ok graph
            ∧ get manifest "flow_sha256" = .str (textSha256 lib text) := by
  intro hclaim
  have hfiles : ∀ moment, moment ≠ .flowText → replacedFlow moment = flowFiles flowOne (manifestText "1") flowSigOne := by
    intro moment hne
    cases moment <;> first | rfl | contradiction
  have hload := load_one hfiles flowTwo rfl (by with_unfolding_all decide)
  rcases hclaim _ _ _ _ _ _ _ _ _ _ hload rfl with ⟨manifest, text, hmanifest, hparse, hdigest⟩
  cases hmanifest
  cases hparse
  have hsame : flowDigestOne = textSha256 flowLibrary flowTwo := Value.str.inj hdigest
  revert hsame
  with_unfolding_all decide

/-- The signed flow, loaded while its file stays as it is. -/
theorem executed_text_one
    : ∃ manifest, (⟨.verified, true, [], some (flowManifest 1)⟩ : Authorization).manifest = some manifest
        ∧ Executes flowLibrary flowPolicy (fun text => .ok text)
            (fun _ => flowFiles flowOne (manifestText "1") flowSigOne) manifest flowOne :=
  (executed_text flowLibrary flowPolicy (.ok []) (.ok ()) 65536 (fun text => .ok text)
    (fun _ => flowFiles flowOne (manifestText "1") flowSigOne) (ρ := String)).1 none flowOne _
    (load_one (fun _ _ => rfl) flowOne rfl (by with_unfolding_all decide)) rfl

end FlowAuthority
