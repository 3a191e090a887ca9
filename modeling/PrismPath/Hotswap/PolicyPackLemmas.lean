import PrismPath.Hotswap.PolicyPack
import PrismPath.Lib.Process
import PrismPath.Python.ValueLemmas

/-!
This module contains what the checks of a pack establish of the pack they accept.
-/

open Python Bytes TableFormat

namespace PolicyPack

theorem eq_str_iff (s : String) (v : Value)
    : (Value.str s).eq v = true ↔ v = .str s := by
  cases v <;> simp [Value.eq, Value.scalarEq, Value.complex?, Value.num?, eq_comm]

theorem eq_nil_of_reasonIf {broken : Bool} {reason : String} (h : reasonIf broken reason = [])
    : broken = false := by
  cases broken with
  | false => rfl
  | true => simp [reasonIf] at h

/-- What an accepted pack has passed: a trusted key signed the manifest, which names the digest of the image
read after the signature was checked. -/
structure Signed (lib : Library) (pubkeys : List (Option (List UInt8))) (revoked : List String)
    (files : Moment → PackFiles) (manifest : List (String × Value)) : Prop where
  loaded : ∃ text, (files .manifest).manifest = some (some text) ∧ lib.loads text = some (.dict manifest)
  signed : ∃ sig signerId, (files .sig).sig = some sig
    ∧ findSigner lib sig (lib.canonicalBytes manifest) pubkeys = .ok (some signerId)
    ∧ signerId ∉ revoked
  image : ∃ image, (files .imageAgain).image = some image
    ∧ get manifest "image_sha256" = .str (lib.sha256Hex image)

theorem openFile_eq_ok {α : Type} {file : Option α} {data : α}
    : openFile file = .ok data ↔ file = some data := by
  cases file <;> simp [openFile]

theorem readManifestText_eq_ok {file : Option (Option String)} {text : String}
    : readManifestText file = .ok text ↔ file = some (some text) := by
  unfold readManifestText
  split <;> simp

theorem signer_of_checkSignature {lib : Library} {pubkeys : List (Option (List UInt8))}
    {revoked : List String} {sig : List UInt8} {manifest : List (String × Value)}
    (h : checkSignature lib pubkeys revoked sig manifest = .ok [])
    : ∃ signerId, findSigner lib sig (lib.canonicalBytes manifest) pubkeys = .ok (some signerId)
        ∧ signerId ∉ revoked := by
  unfold checkSignature at h
  rcases Except.bind_eq_ok.mp h with ⟨signer, hsigner, h⟩
  cases signer with
  | none => cases h
  | some signerId =>
    by_cases hrevoked : signerId ∈ revoked
    . simp only [hrevoked, if_true] at h
      cases h
    . exact ⟨signerId, hsigner, hrevoked⟩

theorem digest_of_checkImage {lib : Library} {files : Moment → PackFiles} {manifest : List (String × Value)}
    (h : checkImage lib files manifest = .ok [])
    : ∃ image, (files .imageAgain).image = some image
        ∧ get manifest "image_sha256" = .str (lib.sha256Hex image) := by
  unfold checkImage at h
  rcases Except.bind_eq_ok.mp h with ⟨image, himage, h⟩
  refine ⟨image, openFile_eq_ok.mp himage, ?_⟩
  split at h
  . cases h
  . next hdigest =>
    rw [Bool.not_eq_true', Bool.not_eq_false] at hdigest
    exact (eq_str_iff _ _).mp hdigest

theorem signed_of_verifyPack {lib : Library} {pubkeys : List (Option (List UInt8))} {revoked : List String}
    {files : Moment → PackFiles} {manifest : List (String × Value)}
    (h : verifyPack lib pubkeys revoked files = .ok (.accepted manifest))
    : Signed lib pubkeys revoked files manifest := by
  unfold verifyPack at h
  split at h
  . cases h
  . rcases Except.bind_eq_ok.mp h with ⟨text, htext, h⟩
    split at h
    . cases h
    . next loaded hloaded =>
      rcases Except.bind_eq_ok.mp h with ⟨sig, hsig, h⟩
      split at h
      . split at h
        . cases h
        . rcases Except.bind_eq_ok.mp h with ⟨signature, hsignature, h⟩
          split at h
          . cases h
          . next hnone =>
            rw [not_not] at hnone
            rcases Except.bind_eq_ok.mp h with ⟨image, himage, h⟩
            split at h
            . cases h
            . next hnone' =>
              rw [not_not] at hnone'
              cases h
              rw [hnone] at hsignature
              rw [hnone'] at himage
              rcases signer_of_checkSignature hsignature with ⟨signerId, hsigner, hrevoked⟩
              exact {
                loaded := ⟨text, readManifestText_eq_ok.mp htext, hloaded⟩
                signed := ⟨sig, signerId, openFile_eq_ok.mp hsig, hsigner, hrevoked⟩
                image := digest_of_checkImage himage
              }
      . cases h

/- The errors of the checks. -/

/-- The errors of the language and of a file, none of which is about the audit log. -/
def Raised.plain : Raised → Bool
  | .attributeError => true
  | .keyError => true
  | .typeError => true
  | .valueError => true
  | .osError => true
  | .structError => true
  | _ => false

abbrev Plain {α : Type} (x : Except Raised α) : Prop :=
  x.Raises fun e => e.plain = true

section

variable {lib : Library}

end

end PolicyPack
