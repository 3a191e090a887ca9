import PrismPath.Hotswap.PolicyHostLemmas

/-!
This module contains what a signed swap makes active: the image the swap itself read, whose digest is the
signed one when the image did not change before the pack was verified.
-/

open Python PolicyPack Process

namespace PolicyHost

theorem done_of_committed {cfg : Config} {faults : Faults} {policy active : Policy} {w w' : World}
    (h : Committed cfg faults policy w (.returned (.active active)) w')
    : active = policy ∧ w' = cleared (flipped policy (recorded policy (imaged policy (evidenced policy w)))) := by
  cases h with
  | done => exact ⟨rfl, rfl⟩
  | _ => exact absurd rfl (Exit.Stopped.ne_returned (by assumption) _)

/-- A swap of a checked pack that meets no fault leaves its policy active, in memory and on disk. -/
theorem swap_step {cfg : Config} {disk : Disk} (host : Host) {call : SwapCall} {faults : Faults}
    {manifest : List (String × Value)} {image : List UInt8} {counts : Header} (hfaults : ∀ op, faults op = .none)
    (hreadable : disk.pending ≠ .unreadable) (hstaged : Staged cfg call disk manifest image)
    (hcounts : readPptHeader image = .ok counts)
    : ∃ disk' host', next cfg ⟨disk, some host⟩ ⟨.swap call, faults⟩ = ⟨disk', some host'⟩
        ∧ host'.active = some (newPolicy cfg call manifest image counts) ∧ host'.prev = host.active
        ∧ disk'.image = some image ∧ disk'.record = .record (newPolicy cfg call manifest image counts).toRecord
        ∧ disk'.pending = .missing := by
  have hok := swap_of_staged ⟨disk, host⟩ hfaults hreadable hstaged hcounts
  have hcases := swapped cfg faults call ⟨disk, host⟩
  have hnext : next cfg ⟨disk, some host⟩ ⟨.swap call, faults⟩ = settle (swap cfg faults call ⟨disk, host⟩) := rfl
  rw [hnext]
  generalize swap cfg faults call ⟨disk, host⟩ = result at hok hcases
  rcases result with ⟨x, w'⟩
  dsimp only at hok
  subst hok
  cases hcases with
  | quiet _ hnot => exact absurd rfl (hnot _)
  | committed _ hquiet _ _ hcommitted =>
    rcases done_of_committed hcommitted with ⟨hpolicy, rfl⟩
    rw [← hpolicy]
    refine ⟨_, _, rfl, rfl, ?_, rfl, rfl, rfl⟩
    rw [← hquiet.active]
    exact congrArg Host.active (floored_host _ _)

/-- A signed swap makes active the image of its own read; the manifest names the image of the later read. -/
theorem signed_swap_image (cfg : Config) (faults : Faults) (call : SwapCall) (w : World) (policy : Policy)
    (hsigned : call.allowUnsigned = false)
    (hok : (swap cfg faults call w).1 = .returned (.active policy))
    : ∃ manifest first again,
        verifyPack cfg.lib cfg.pubkeys cfg.revoked call.files = .ok (.accepted manifest)
          ∧ (call.files .image).image = some first
          ∧ (call.files .imageAgain).image = some again
          ∧ (swap cfg faults call w).2.host.active = some policy
          ∧ (get manifest "image_sha256" = .str (cfg.lib.sha256Hex policy.image)
              ↔ cfg.lib.sha256Hex first = cfg.lib.sha256Hex again) := by
  have hcases : Swapped cfg faults call w (.returned (.active policy)) (swap cfg faults call w).2 :=
    swap_cases (Prod.ext hok rfl)
  cases hcases with
  | quiet _ hnot _ => exact absurd rfl (hnot policy)
  | @committed manifest image counts w₁ _ _ _ _ hstaged _ hcommitted =>
    rcases done_of_committed hcommitted with ⟨rfl, hw⟩
    cases hstaged with
    | unsigned hunsigned => rw [hsigned] at hunsigned; cases hunsigned
    | signed _ hread haccepted =>
      rcases (signed_of_verifyPack haccepted).image with ⟨again, hagain, hdigest⟩
      refine ⟨manifest, image, again, haccepted, hread, hagain, ?_, ?_⟩
      . rw [hw]
        rfl
      . rw [hdigest]
        simp only [newPolicy, Value.str.injEq, eq_comm]

/- A deployment with one authority key, a pack it signed at version 1, and an image it did not sign. -/

def imageOne : List UInt8 :=
  [80, 80, 84, 77, 1, 0, 0, 0, 1, 0, 0, 0, 1, 0, 0, 0, 0, 0, 0, 0, 255, 255, 25, 0, 1, 0, 0, 0, 0, 0, 0, 0]

def imageTwo : List UInt8 :=
  [80, 80, 84, 77, 1, 0, 0, 0, 2, 0, 0, 0, 1, 0, 0, 0, 0, 0, 0, 0, 255, 255, 25, 0, 1, 0, 0, 0, 0, 0, 0, 0]

def digestOne : String :=
  "1cb37abb4ab1a50a264c93e6d3791c8d1bfa05d4c9471806682d713bbe0200e8"

def digestTwo : String :=
  "4102ec51306458f8d3e82c14ac0913128d49d5ed1401a2db0d46a18cdf70ce66"

def authorityKey : List UInt8 :=
  [118, 40, 255, 89, 145, 244, 106, 43, 182, 159, 14, 117, 62, 247, 230, 1, 112, 226, 162, 126, 188, 206, 241,
    34, 79, 87, 244, 132, 0, 26, 160, 74]

def authorityId : String :=
  "85670917a76712b5aed5ebe779fd15a65750beebb3106dc0a67edf4277297826"

def sigOne : List UInt8 :=
  [174, 110, 137, 119, 67, 178, 87, 195, 3, 113, 174, 188, 142, 180, 70, 186, 64, 215, 254, 211, 227, 145, 223,
    141, 188, 232, 65, 55, 166, 17, 153, 94, 109, 199, 202, 234, 50, 213, 219, 98, 64, 161, 70, 169, 217, 222,
    157, 223, 253, 174, 193, 33, 189, 176, 237, 172, 41, 158, 249, 35, 7, 116, 116, 2]

def manifestOne : List (String × Value) :=
  [("counts", .dict [("atoms", .int 0), ("edges", .int 0), ("max_stack", .int 1), ("max_steps", .int 25),
      ("nodes", .int 1), ("prog_words", .int 0)]),
    ("format", .str "ppt-pack/1"), ("image_sha256", .str digestOne), ("key_id", .str authorityId), ("version", .int 1)]

def textOne : String :=
  "\x7b\"counts\":\x7b\"atoms\":0,\"edges\":0,\"max_stack\":1,\"max_steps\":25,\"nodes\":1,\"prog_words\":0\x7d,"
    ++ "\"format\":\"ppt-pack/1\","
    ++ "\"image_sha256\":\"1cb37abb4ab1a50a264c93e6d3791c8d1bfa05d4c9471806682d713bbe0200e8\","
    ++ "\"key_id\":\"85670917a76712b5aed5ebe779fd15a65750beebb3106dc0a67edf4277297826\",\"version\":1\x7d"

def demoLibrary : Library where
  sha256Hex data :=
    if data = imageOne then digestOne
    else if data = imageTwo then digestTwo
    else if data = authorityKey then authorityId
    else ""
  verify pub sig _ := pub = authorityKey && sig = sigOne
  loads _ := some (.dict manifestOne)
  canonicalBytes _ := textOne
  str
    | .int 1 => "1"
    | _ => "0"

def demoConfig : Config where
  lib := demoLibrary
  pubkeys := [some authorityKey]
  envelope := [("fields", .dict [])]
  revoked := []
  instanceKeyId := none

def packOne : PackFiles where
  image := some imageOne
  manifest := some (some textOne)
  sig := some sigOne
  spiral := none

/-- The pack, its image replaced by the other one when the swap reads it for itself. -/
def replacedPack : Moment → PackFiles
  | .image => { packOne with image := some imageTwo }
  | _ => packOne

def noFaults : Faults :=
  fun _ => .none

theorem noFaults_none (op : Op)
    : noFaults op = .none :=
  rfl

theorem exists_header (image : List UInt8) (h : (readPptHeader image).isOk = true)
    : ∃ counts, readPptHeader image = .ok counts := by
  cases hread : readPptHeader image with
  | error e => rw [hread] at h; cases h
  | ok counts => exact ⟨counts, rfl⟩

theorem verifyPack_one {files : Moment → PackFiles} (h : ∀ moment, moment ≠ .image → files moment = packOne)
    : verifyPack demoLibrary [some authorityKey] [] files = .ok (.accepted manifestOne) := by
  have hsignature : checkSignature demoLibrary [some authorityKey] [] sigOne manifestOne = .ok [] := by
    with_unfolding_all decide
  have himage : checkImage demoLibrary files manifestOne = .ok [] := by
    have hpacking : checkPacking demoLibrary files manifestOne = .ok [] := rfl
    unfold checkImage
    rw [h .imageAgain (by decide), hpacking]
    with_unfolding_all decide
  have hloads : demoLibrary.loads textOne = some (.dict manifestOne) := rfl
  have hformat : (get manifestOne "format").eq (.str "ppt-pack/1") = true := by
    with_unfolding_all decide
  unfold verifyPack
  rw [h _ (by decide), h _ (by decide), h _ (by decide), h _ (by decide)]
  simp only [packOne, Option.isNone_some, Bool.or_false, Bool.false_eq_true, if_false, readManifestText, openFile, hloads, bind,
    Except.bind, hsignature, himage, ne_eq, not_true_eq_false, hformat, Bool.not_true, pure, Except.pure]

/-- The pack passes every check of a host at version 0. -/
theorem staged_one (files : Moment → PackFiles) {image : List UInt8}
    (h : ∀ moment, moment ≠ .image → files moment = packOne) (himage : (files .image).image = some image)
    (hvalid : validateImage image (.dict defaultCaps) = .ok [])
    : Staged demoConfig { files } {} manifestOne image := by
  have henvelope : checkEnvelope manifestOne image demoConfig.envelope = .ok [] := by
    have hcaps : (demoConfig.envelope.lookup "caps").getD (.dict defaultCaps) = .dict defaultCaps := rfl
    unfold checkEnvelope
    rw [hcaps, hvalid]
    with_unfolding_all decide
  have hheld : heldBack none (demoLibrary.sha256Hex image) (.int 1) 0 = .ok false := by
    have horder : (Value.int 1).order .lt (.int 0) = some false := by with_unfolding_all decide
    have heq : (Value.int 1).eq (.int 0) = false := by with_unfolding_all decide
    simp only [heldBack, horder, heq, Bool.false_and, Bool.or_false]
  exact .signed rfl himage (verifyPack_one h) henvelope (by rfl) hheld

/-- The signed pack names another image than the one its swap makes active. -/
theorem replaced_image_active
    : ¬ ∀ (cfg : Config) (faults : Faults) (call : SwapCall) (w : World) (policy : Policy),
        call.allowUnsigned = false → (swap cfg faults call w).1 = .returned (.active policy) →
          ∃ manifest, verifyPack cfg.lib cfg.pubkeys cfg.revoked call.files = .ok (.accepted manifest)
            ∧ get manifest "image_sha256" = .str (cfg.lib.sha256Hex policy.image) := by
  intro hclaim
  have hfiles : ∀ moment, moment ≠ .image → replacedPack moment = packOne := by
    intro moment hne
    cases moment <;> first | rfl | contradiction
  have hstaged := staged_one replacedPack hfiles rfl (show validateImage imageTwo (.dict defaultCaps) = .ok [] by with_unfolding_all decide)
  have hcounts : ∃ counts, readPptHeader imageTwo = .ok counts := ⟨_, rfl⟩
  rcases hcounts with ⟨counts, hcounts⟩
  have hok := swap_of_staged ⟨{}, {}⟩ noFaults_none (by simp) hstaged hcounts
  rcases hclaim demoConfig noFaults _ _ _ rfl hok with ⟨manifest, haccepted, hdigest⟩
  have haccepted' : verifyPack demoLibrary [some authorityKey] [] replacedPack = .ok (.accepted manifest) := haccepted
  rw [verifyPack_one hfiles] at haccepted'
  cases haccepted'
  have hactive : (get manifestOne "image_sha256").eq (.str digestTwo) = true := by
    rw [hdigest, eq_str_iff]
    rfl
  revert hactive
  with_unfolding_all decide

/-- The pack swapped in while its files stay as they are. -/
theorem signed_swap_image_one
    : ∃ manifest first again policy,
        verifyPack demoLibrary [some authorityKey] [] (fun _ => packOne) = .ok (.accepted manifest)
          ∧ packOne.image = some first
          ∧ packOne.image = some again
          ∧ (swap demoConfig noFaults { files := fun _ => packOne } ⟨{}, {}⟩).2.host.active = some policy
          ∧ (get manifest "image_sha256" = .str (demoLibrary.sha256Hex policy.image)
              ↔ demoLibrary.sha256Hex first = demoLibrary.sha256Hex again) := by
  have hstaged := staged_one (fun _ => packOne) (fun _ _ => rfl) rfl
    (show validateImage imageOne (.dict defaultCaps) = .ok [] by with_unfolding_all decide)
  have hcounts : ∃ counts, readPptHeader imageOne = .ok counts := ⟨_, rfl⟩
  rcases hcounts with ⟨counts, hcounts⟩
  have hok := swap_of_staged ⟨{}, {}⟩ noFaults_none (by simp) hstaged hcounts
  rcases signed_swap_image demoConfig noFaults { files := fun _ => packOne } ⟨{}, {}⟩ _ rfl hok
    with ⟨manifest, first, again, h⟩
  exact ⟨manifest, first, again, _, h⟩

end PolicyHost
