import PrismPath.Hotswap.CryptoHost
import PrismPath.Hotswap.SignedImage

/-!
This module contains what a swap of the suite selection policy leaves behind when one of its steps fails.
-/

open Python PolicyPack Process

namespace CryptoHost

open PolicyHost (Event optStr)

/-- The active policy and the version floor are as before. -/
structure Unchanged (w w' : World) : Prop where
  active : w'.host.active = w.host.active
  version : w'.disk.version = w.disk.version

instance : Std.Refl Unchanged where
  refl _ := ⟨rfl, rfl⟩

instance : IsTrans World Unchanged where
  trans _ _ _ h₁ h₂ := ⟨h₂.active.trans h₁.active, h₂.version.trans h₁.version⟩

/-- The active policy and the floor are those of one policy, and its event is in the log. -/
def Logged (w w' : World) : Prop :=
  ∃ policy, w'.host.active = some policy ∧ w'.disk.version = some policy.version
    ∧ w'.disk.log = w.disk.log ++ [swapEvent w.host.activeHash policy]

structure AllOrNothing (w : World) (x : Exit Raised Reply) (w' : World) : Prop where
  raised : ∀ e, x = .raised e → Unchanged w w'
  returned : ∀ reply, x = .returned reply → Unchanged w w' ∨ Logged w w'

def AppendRaises (cfg : Config) (faults : Faults) : Prop :=
  faults .event = .error ∨ (faults .event = .none ∧ cfg.signs = true ∧ faults .sign = .error)

/-- No step of a commit fails, unless what it had changed by then was so already. -/
structure CommitOk (cfg : Config) (faults : Faults) (w : World) (policy : Policy) : Prop where
  atFloor : faults .writeVersion = .error → w.host.active = some policy
  atEvent : faults .writeVersion = .none → AppendRaises cfg faults →
    w.host.active = some policy ∧ w.disk.version = some policy.version

/- The checks change nothing. -/

theorem moves_eq_readStored (fault : Fault)
    : Moves Eq (readStored fault) :=
  Moves.bind (Moves.attempt fun _ => rfl) fun _ => Moves.bind Moves.read fun _ => Moves.pure _

theorem moves_eq_ofExcept {α : Type} (x : Except Raised α)
    : Moves Eq (ofExcept x : Process World Raised α) := by
  cases x with
  | ok a => exact Moves.pure a
  | error e => exact Moves.raise e

theorem moves_eq_vetVersion (cfg : Config) (faults : Faults) (policy : Policy)
    : Moves Eq (vetVersion cfg faults policy) := by
  unfold vetVersion
  refine Moves.bind (moves_eq_readStored _) fun stored => ?_
  split
  . exact Moves.raise _
  . exact Moves.bind (moves_eq_readStored _) fun _ => Moves.pure _
  . refine Moves.bind (moves_eq_ofExcept _) fun reasons => ?_
    split
    . exact Moves.pure _
    . exact Moves.pure _

theorem moves_eq_vet (cfg : Config) (faults : Faults) (call : SwapCall)
    : Moves Eq (vet cfg faults call) := by
  unfold vet
  split
  . exact Moves.pure _
  . refine Moves.bind (moves_eq_ofExcept _) fun result => ?_
    split
    . exact Moves.pure _
    . split
      . exact Moves.raise _
      . exact moves_eq_vetVersion cfg faults _

/- The log. -/

def logged (event : Event) (w : World) : World :=
  { w with disk := { w.disk with log := w.disk.log ++ [event] } }

/-- An append raises, with the event in the log or without it, or it is killed, or what follows it runs. -/
theorem append_bind_cases {β : Type} {cfg : Config} {faults : Faults} {event : Event}
    {f : Unit → Process World Raised β} {w w' : World} {x : Exit Raised β}
    (h : (append cfg faults event >>= f) w = (x, w'))
    : (AppendRaises cfg faults ∧ (∃ e, x = .raised e) ∧ (w' = w ∨ w' = logged event w))
        ∨ (¬ AppendRaises cfg faults ∧ (x = .killed ∨ f () (logged event w) = (x, w'))) := by
  unfold append at h
  rw [Process.bind_assoc] at h
  unfold AppendRaises
  cases hevent : faults .event with
  | error =>
    rw [hevent, attempt_error_bind] at h
    cases h
    exact .inl ⟨.inl rfl, ⟨_, rfl⟩, .inl rfl⟩
  | kill =>
    rw [hevent, attempt_kill_bind] at h
    cases h
    exact .inr ⟨by simp, .inl rfl⟩
  | none =>
    rw [hevent, attempt_none_bind] at h
    by_cases hsigns : cfg.signs = true
    . rw [if_pos hsigns] at h
      cases hsign : faults .sign with
      | error =>
        rw [hsign, attempt_error_bind] at h
        cases h
        exact .inl ⟨.inr ⟨rfl, hsigns, rfl⟩, ⟨_, rfl⟩, .inr rfl⟩
      | kill =>
        rw [hsign, attempt_kill_bind] at h
        cases h
        exact .inr ⟨by simp, .inl rfl⟩
      | none =>
        rw [hsign, attempt_none_bind] at h
        exact .inr ⟨by simp, .inr h⟩
    . rw [if_neg hsigns] at h
      exact .inr ⟨by simp [hsigns], .inr h⟩

theorem moves_unchanged_reject (cfg : Config) (faults : Faults) (strict : Bool) (toHash version : Value)
    (reasons : List String)
    : Moves Unchanged (reject cfg faults strict toHash version reasons) := by
  have hkept (w : World) : Unchanged w w := refl_of Unchanged w
  unfold reject append
  refine Moves.bind Moves.read fun w => Moves.bind (Moves.bind (Moves.attempt fun _ => ⟨rfl, rfl⟩) fun _ => ?_) fun _ => ?_
  . split
    . exact Moves.attempt hkept
    . exact Moves.pure _
  . split
    . exact Moves.raise _
    . exact Moves.pure _

/-- The world when the event of a commit is about to be written. -/
def flipped (policy : Policy) (w : World) : World where
  disk := { w.disk with version := some policy.version }
  host := { prev := w.host.active, active := some policy }

theorem unchanged_flipped_iff {policy : Policy} {w w' : World} (h : w' = flipped policy w ∨ ∃ event, w' = logged event (flipped policy w))
    : Unchanged w w' ↔ w.host.active = some policy ∧ w.disk.version = some policy.version := by
  have hactive : w'.host.active = some policy := by
    rcases h with rfl | ⟨_, rfl⟩ <;> rfl
  have hversion : w'.disk.version = some policy.version := by
    rcases h with rfl | ⟨_, rfl⟩ <;> rfl
  constructor
  . rintro ⟨ha, hv⟩
    exact ⟨ha.symm.trans hactive, hv.symm.trans hversion⟩
  . rintro ⟨ha, hv⟩
    exact ⟨hactive.trans ha.symm, hversion.trans hv.symm⟩

/-- A commit fails as a whole exactly when nothing fails between its first effect and its last. -/
theorem commit_iff {cfg : Config} {faults : Faults} {policy : Policy} {w w' : World} {x : Exit Raised Reply}
    (h : commit cfg faults policy w = (x, w'))
    : AllOrNothing w x w' ↔ CommitOk cfg faults w policy := by
  unfold commit at h
  rw [update_bind] at h
  cases hversion : faults .writeVersion with
  | error =>
    rw [hversion, attempt_error_bind] at h
    cases h
    constructor
    . intro hall
      exact ⟨fun _ => (hall.raised _ rfl).active.symm, by simp [hversion]⟩
    . intro hok
      exact ⟨fun _ _ => ⟨(hok.atFloor hversion).symm, rfl⟩, by simp⟩
  | kill =>
    rw [hversion, attempt_kill_bind] at h
    cases h
    exact iff_of_true ⟨by simp, by simp⟩ ⟨by simp [hversion], by simp [hversion]⟩
  | none =>
    rw [hversion, attempt_none_bind, read_bind] at h
    rcases append_bind_cases h with ⟨hraises, ⟨e, rfl⟩, hw'⟩ | ⟨hkept, rfl | h⟩
    . have hunchanged : Unchanged w w' ↔ _ := unchanged_flipped_iff (hw'.imp id fun hlogged => ⟨_, hlogged⟩)
      constructor
      . intro hall
        exact ⟨by simp [hversion], fun _ _ => hunchanged.mp (hall.raised e rfl)⟩
      . intro hok
        exact ⟨fun _ _ => hunchanged.mpr (hok.atEvent hversion hraises), by simp⟩
    . exact iff_of_true ⟨by simp, by simp⟩ ⟨by simp [hversion], fun _ hraises => absurd hraises hkept⟩
    . cases h
      refine iff_of_true ⟨by simp, fun _ _ => .inr ⟨policy, rfl, rfl, ?_⟩⟩
        ⟨by simp [hversion], fun _ hraises => absurd hraises hkept⟩
      simp only [logged, PolicyHost.optStr, Host.activeHash]

theorem swap_all_or_nothing_iff (cfg : Config) (faults : Faults) (call : SwapCall) (w : World)
    : AllOrNothing w (swap cfg faults call w).1 (swap cfg faults call w).2
        ↔ ∀ policy, (vet cfg faults call w).1 = .returned (.accept policy) → CommitOk cfg faults w policy := by
  have hvetted : w = (vet cfg faults call w).2 := moves_eq_vet cfg faults call w
  cases hvet : vet cfg faults call w with
  | mk verdict w₁ =>
    rw [hvet] at hvetted
    subst hvetted
    cases hswap : swap cfg faults call w with
    | mk x w' =>
      unfold swap at hswap
      rw [Process.bind_apply, hvet] at hswap
      cases verdict with
      | raised e =>
        cases hswap
        exact iff_of_true ⟨fun _ _ => refl_of Unchanged _, by simp⟩ (by simp)
      | killed =>
        cases hswap
        exact iff_of_true ⟨by simp, by simp⟩ (by simp)
      | returned verdict =>
        cases verdict with
        | reject toHash version reasons =>
          have hunchanged := moves_unchanged_reject cfg faults call.strict toHash version reasons w
          rw [show reject cfg faults call.strict toHash version reasons w = (x, w') from hswap] at hunchanged
          exact iff_of_true ⟨fun _ _ => hunchanged, fun _ _ => .inl hunchanged⟩ (by simp)
        | accept policy =>
          rw [commit_iff (show commit cfg faults policy w = (x, w') from hswap)]
          simp

/- A host with one classical suite, and a pack signed for it. -/

def suiteKey : List UInt8 :=
  [138, 136, 227, 221, 116, 9, 241, 149, 253, 82, 219, 45, 60, 186, 93, 114, 202, 103, 9, 191, 29, 148, 18, 27,
    243, 116, 136, 1, 180, 15, 111, 92]

def suiteKeyId : String :=
  "34750f98bd59fcfc946da45aaabe933be154a4b5094e1c4abf42866505f3c97e"

def suiteSig : List UInt8 :=
  [192, 168, 60, 51, 113, 163, 225, 231, 103, 9, 92, 177, 148, 91, 125, 10, 178, 62, 137, 62, 151, 130, 214, 235,
    71, 121, 228, 247, 132, 41, 204, 90, 212, 242, 24, 184, 112, 12, 138, 83, 15, 169, 110, 135, 2, 86, 125, 217,
    43, 67, 48, 217, 133, 182, 152, 40, 143, 116, 69, 167, 30, 55, 244, 5]

def registryOne : List (String × Value) :=
  [("format", .str "ppt-suite-registry/1"), ("key_id", .str suiteKeyId),
    ("suites", .dict [("classical", .dict [("aead", .str "aes-256-gcm"), ("kem", .str "x25519"),
      ("provider", .str "cryptography"), ("sig", .str "ed25519"), ("strength_rank", .int 1)])])]

def registryText : String :=
  "\x7b\"format\":\"ppt-suite-registry/1\","
    ++ "\"key_id\":\"34750f98bd59fcfc946da45aaabe933be154a4b5094e1c4abf42866505f3c97e\","
    ++ "\"suites\":\x7b\"classical\":\x7b\"aead\":\"aes-256-gcm\",\"kem\":\"x25519\","
    ++ "\"provider\":\"cryptography\",\"sig\":\"ed25519\",\"strength_rank\":1\x7d\x7d\x7d"

def registryDigest : String :=
  "05ab90593b20bcef9ccead94468ab34b61a24cbd2386c1a3b74f7d752d504795"

def suiteManifest : List (String × Value) :=
  [("counts", .dict [("atoms", .int 0), ("edges", .int 0), ("max_stack", .int 1), ("max_steps", .int 25),
      ("nodes", .int 1), ("prog_words", .int 0)]),
    ("format", .str "ppt-pack/1"), ("image_sha256", .str PolicyHost.digestOne), ("key_id", .str suiteKeyId),
    ("registry_hash", .str registryDigest), ("suites", .list [.str "classical"]), ("version", .int 1)]

def suiteText : String :=
  "\x7b\"counts\":\x7b\"atoms\":0,\"edges\":0,\"max_stack\":1,\"max_steps\":25,\"nodes\":1,\"prog_words\":0\x7d,"
    ++ "\"format\":\"ppt-pack/1\","
    ++ "\"image_sha256\":\"1cb37abb4ab1a50a264c93e6d3791c8d1bfa05d4c9471806682d713bbe0200e8\","
    ++ "\"key_id\":\"34750f98bd59fcfc946da45aaabe933be154a4b5094e1c4abf42866505f3c97e\","
    ++ "\"registry_hash\":\"05ab90593b20bcef9ccead94468ab34b61a24cbd2386c1a3b74f7d752d504795\","
    ++ "\"suites\":[\"classical\"],\"version\":1\x7d"

def suiteLibrary : Library where
  sha256Hex data :=
    if data = PolicyHost.imageOne then PolicyHost.digestOne
    else if data = suiteKey then suiteKeyId
    else registryDigest
  verify pub sig _ := pub = suiteKey && sig = suiteSig
  loads _ := some (.dict suiteManifest)
  canonicalBytes members := if (get members "format").eq (.str "ppt-pack/1") then suiteText else registryText
  str
    | .int 1 => "1"
    | .str s => s
    | _ => "0"

def suiteConfig : Config where
  lib := suiteLibrary
  pubkeys := [some suiteKey]
  envelope := [("fields", .dict []), ("approved_suites", .list [.str "classical"])]
  registry := registryOne
  revoked := []
  signs := false
  hasCiphers := true
  hasMlkem := false

def suitePack : PackFiles where
  image := some PolicyHost.imageOne
  manifest := some (some suiteText)
  sig := some suiteSig
  spiral := none

def suiteCall : SwapCall where
  files _ := suitePack

theorem registryHash_one
    : registryHash suiteConfig = registryDigest := by
  have hcanonical : suiteLibrary.canonicalBytes registryOne = registryText := by
    have hformat : (get registryOne "format").eq (.str "ppt-pack/1") = false := by with_unfolding_all decide
    simp only [suiteLibrary, hformat, Bool.false_eq_true, if_false]
  have hlength : 32 < registryText.toUTF8.data.toList.length := by decide +kernel
  have himage : registryText.toUTF8.data.toList ≠ PolicyHost.imageOne := by
    intro heq
    rw [heq] at hlength
    exact absurd hlength (by decide)
  have hkey : registryText.toUTF8.data.toList ≠ suiteKey := by
    intro heq
    rw [heq] at hlength
    exact absurd hlength (by decide)
  show suiteLibrary.sha256Hex (suiteLibrary.canonicalBytes registryOne).toUTF8.data.toList = registryDigest
  rw [hcanonical]
  simp only [suiteLibrary, himage, hkey, if_false]

theorem verifyPack_suite
    : verifyPack suiteLibrary [some suiteKey] [] suiteCall.files = .ok (.accepted suiteManifest) := by
  have hsignature : checkSignature suiteLibrary [some suiteKey] [] suiteSig suiteManifest = .ok [] := by
    with_unfolding_all decide
  have himage : checkImage suiteLibrary suiteCall.files suiteManifest = .ok [] := by
    have hpacking : checkPacking suiteLibrary suiteCall.files suiteManifest = .ok [] := rfl
    unfold checkImage
    rw [hpacking]
    with_unfolding_all decide
  have hloads : suiteLibrary.loads suiteText = some (.dict suiteManifest) := rfl
  have hformat : (get suiteManifest "format").eq (.str "ppt-pack/1") = true := by
    with_unfolding_all decide
  have hfiles (moment : Moment) : suiteCall.files moment = suitePack := rfl
  unfold verifyPack
  rw [hfiles .manifestExists, hfiles .sigExists, hfiles .manifest, hfiles .sig]
  simp only [suitePack, Option.isNone_some, Bool.or_false, Bool.false_eq_true, if_false, readManifestText,
    openFile, hloads, bind, Except.bind, hsignature, himage, hformat, Bool.not_true, ne_eq, not_true_eq_false, pure,
    Except.pure]

/-- The swap of the pack is accepted over an empty directory. -/
theorem vet_suite (faults : Faults) (hfloor : faults .readFloor = .none)
    : vet suiteConfig faults suiteCall ⟨{}, {}⟩
        = (.returned (.accept (newPolicy suiteConfig suiteCall suiteManifest PolicyHost.imageOne)), ⟨{}, {}⟩) := by
  have henvelope : checkEnvelope suiteManifest PolicyHost.imageOne suiteConfig.envelope = .ok [] := by with_unfolding_all decide
  have hcrypto : checkCryptoEnvelope suiteConfig suiteManifest = .ok [] := by
    unfold checkCryptoEnvelope
    rw [registryHash_one]
    with_unfolding_all decide
  have hproviders : resolveAll suiteConfig (suites suiteManifest) = .ok [] := by with_unfolding_all decide
  have horder : (get suiteManifest "version").order .le (.int 0) = some false := by with_unfolding_all decide
  have hvetted : vetPack suiteConfig suiteCall PolicyHost.imageOne = .ok (.inr suiteManifest) := by
    have hverified : verifyPack suiteConfig.lib suiteConfig.pubkeys suiteConfig.revoked suiteCall.files = _ :=
      verifyPack_suite
    simp only [vetPack, hverified, henvelope, hcrypto, bind, Except.bind, ne_eq, not_true_eq_false, if_false, pure,
      Except.pure]
  have hversion : (suiteManifest.lookup "version").isNone = false := by decide
  have hread : readStored (faults .readFloor) ⟨{}, {}⟩ = (.returned 0, ⟨{}, {}⟩) := by
    rw [hfloor]
    rfl
  have hvetVersion : vetVersion suiteConfig faults (newPolicy suiteConfig suiteCall suiteManifest PolicyHost.imageOne)
      ⟨{}, {}⟩ = (.returned (.accept (newPolicy suiteConfig suiteCall suiteManifest PolicyHost.imageOne)), ⟨{}, {}⟩) := by
    unfold vetVersion
    rw [Process.bind_apply, hread]
    simp only [newPolicy, horder, hproviders, ofExcept_ok_bind, ne_eq, not_true_eq_false, if_false]
    rfl
  have himage : (suiteCall.files .image).image = some PolicyHost.imageOne := rfl
  unfold vet
  simp only [himage, hvetted, ofExcept_ok_bind, hversion, Bool.false_eq_true, if_false, hvetVersion]

/-- The floor cannot be written, and the policy is active all the same. -/
def floorFault : Faults
  | .writeVersion => .error
  | _ => .none

theorem failed_swap_active
    : ¬ ∀ (cfg : Config) (faults : Faults) (call : SwapCall) (w : World),
        AllOrNothing w (swap cfg faults call w).1 (swap cfg faults call w).2 := by
  intro hclaim
  have hall := hclaim suiteConfig floorFault suiteCall ⟨{}, {}⟩
  have hswap : swap suiteConfig floorFault suiteCall ⟨{}, {}⟩ = (.raised .osError,
      ⟨{}, { active := some (newPolicy suiteConfig suiteCall suiteManifest PolicyHost.imageOne) }⟩) := by
    unfold swap
    rw [Process.bind_apply, vet_suite floorFault rfl]
    rfl
  rw [hswap] at hall
  have hactive := (hall.raised _ rfl).active
  cases hactive

end CryptoHost
