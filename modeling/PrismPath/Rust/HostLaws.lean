import PrismPath.Lib.Runs
import PrismPath.Rust.Host

/-!
This module contains the laws of the Rust policy host over its runs: the version floor, the event of every change,
and the hash of the active image.
-/

namespace Rust

open Json Python LineFile Pack

namespace Host

def Step.signed (step : Step) : Bool :=
  match step.call with
  | .swap call => !call.allowUnsigned
  | _ => false

/-- The manifest and the policy of a swap that comes through its checks. -/
def accepting (cfg : Config) (w : World) (step : Step) : Option (Value × ActivePolicy) :=
  match step.call with
  | .swap call =>
    match vet cfg call (storedVersion step.faults w.disk) with
    | .stage manifest image => some (manifest, newPolicy cfg call manifest image)
    | .reject .. => none
  | _ => none

def admitting (cfg : Config) (w : World) (step : Step) : Option ℤ :=
  if step.signed then (accepting cfg w step).map fun accepted => (versionOf accepted.1).getD 0 else none

/-- The policy a step puts in the place of the active one. -/
def flipping (cfg : Config) (w : World) (step : Step) : Option ActivePolicy :=
  match step.call with
  | .swap _ => (accepting cfg w step).map Prod.snd
  | .rollback _ => w.host.prev
  | .restart => none

/-- A run so far: where it is, and the versions of the signed packs it admitted. -/
structure Trail where
  world : World
  admitted : List ℤ := []

def Trail.next (cfg : Config) (t : Trail) (step : Step) : Trail where
  world := Host.next cfg t.world step
  admitted := t.admitted ++ (admitting cfg t.world step).toList

def Trail.begin (cfg : Config) (faults : Faults) (disk : Disk) : Trail where
  world := ⟨disk, newHost cfg.lib faults disk⟩

/- The laws. -/

/-- The event says that the policy was made active. -/
def Names (ev : Value) (policy : ActivePolicy) : Prop :=
  ((ev.get? "action").bind Value.asStr = some (str "swap") ∨ (ev.get? "action").bind Value.asStr = some (str "rollback"))
    ∧ ((ev.get? "data").bind fun data => (data.get? "to_hash").bind Value.asStr) = some policy.sha256

/-- The event stands in the file on a line of its own, the last. -/
def Added (lib : Library) (ev : Value) (before after : List Char) : Prop :=
  ended before = true ∧ after = before ++ (lib.toText ev ++ ['\n'])

/-- The policy is not active, or its event has been added to the log. -/
def Evidenced (cfg : Config) (w w' : World) : Prop :=
  ∀ policy, w'.host.active = some policy → w.host.active ≠ some policy →
    ∃ ev, Names ev policy ∧ Added cfg.lib ev w.disk.log w'.disk.log

/-- What a step may do after a run that admitted the versions `older`. -/
structure Lawful (cfg : Config) (older : List ℤ) (w : World) (step : Step) : Prop where
  floor : w.disk.floor ≤ (next cfg w step).disk.floor
  admits : ∀ v, admitting cfg w step = some v → w.disk.floor < v ∧ ∀ u ∈ older, u < v
  evidenced : Evidenced cfg w (next cfg w step)
  kept : w.disk.log <+: (next cfg w step).disk.log
  image : ∀ manifest policy, accepting cfg w step = some (manifest, policy) →
    (next cfg w step).host.active = some policy
      ∧ (manifest.get? "image_sha256").bind Value.asStr = some (sha256Hex cfg.lib policy.image)

/-- The states a step goes through, one after each of its effects. -/
def moments (cfg : Config) (w : World) (step : Step) : List World :=
  match step.call with
  | .swap _ =>
    match accepting cfg w step with
    | some (manifest, policy) =>
      [flip policy w, keepVersion step.faults manifest (flip policy w), next cfg w step]
    | none => [next cfg w step]
  | .rollback _ =>
    match w.host.prev with
    | some prev => [restore prev w, next cfg w step]
    | none => [next cfg w step]
  | .restart => [next cfg w step]

/-- Within the step no change comes before its event. -/
def Ordered (cfg : Config) (w : World) (step : Step) : Prop :=
  ∀ w' ∈ moments cfg w step, Evidenced cfg w w'

def Unchanged (w w' : World) : Prop :=
  ∀ policy, w'.host.active = some policy → w.host.active = some policy

/- What a step may not do. -/

def Faults.keepsVersion (faults : Faults) : Bool :=
  faults.createTmp && faults.writeTmp = none && faults.renameTmp

def Faults.keepsEvent (faults : Faults) : Bool :=
  faults.openLog && faults.writeLog = none

structure Sound (cfg : Config) (w : World) (step : Step) : Prop where
  /-- A floor that cannot be read would not have held the pack back. -/
  read : ∀ manifest policy, accepting cfg w step = some (manifest, policy) → step.signed = true →
    step.faults.readVersion = true ∨ w.disk.floor < (versionOf manifest).getD 0
  version : ∀ manifest policy, accepting cfg w step = some (manifest, policy) → step.signed = true →
    (versionOf manifest).isSome = true ∨ 0 ≤ w.disk.floor
  written : ∀ manifest policy, accepting cfg w step = some (manifest, policy) → (versionOf manifest).isSome = true →
    step.faults.keepsVersion = true
  images : ∀ call, step.call = .swap call → call.allowUnsigned = false → (accepting cfg w step).isSome = true →
    call.files.imageAgain.map (sha256Hex cfg.lib) = call.files.image.map (sha256Hex cfg.lib)
  logged : (flipping cfg w step).isSome = true → ended w.disk.log = true ∧ step.faults.keepsEvent = true

/- The floor's file. -/

theorem trim_of_plain {text : List Char} (h : ∀ c ∈ text, Fields.isWhitespace c = false)
    : trim text = text := by
  have hdrop : ∀ cs : List Char, (∀ c ∈ cs, Fields.isWhitespace c = false) → cs.dropWhile Fields.isWhitespace = cs := by
    intro cs hcs
    cases cs with
    | nil => rfl
    | cons c cs => rw [List.dropWhile_cons_of_neg (by simp [hcs c (List.mem_cons_self ..)])]
  rw [trim, hdrop text h, hdrop text.reverse (fun c hc => h c (List.mem_reverse.mp hc)), List.reverse_reverse]

theorem isWhitespace_of_isDigit {c : Char} (h : c.isDigit = true)
    : Fields.isWhitespace c = false := by
  simp only [Char.isDigit, Bool.and_eq_true, decide_eq_true_eq] at h
  have hlo : 48 ≤ c.toNat := h.1
  have hhi : c.toNat ≤ 57 := h.2
  simp only [Fields.isWhitespace, Bool.or_eq_false_iff, Bool.and_eq_false_iff, decide_eq_false_iff_not]
  omega

theorem digitsOf_toDigits (n : ℕ)
    : digitsOf (Nat.toDigits 10 n) = (false, Nat.toDigits 10 n) := by
  rcases isDigit_toDigits n with ⟨c, cs, heq, hc⟩
  rw [heq]
  unfold digitsOf
  split
  next heq' =>
    cases heq'
    cases hc
  next heq' =>
    cases heq'
    cases hc
  next => rfl

theorem parseI64_i64Text {n : ℤ} (hlo : -2 ^ 63 ≤ n) (hhi : n < 2 ^ 63)
    : parseI64 (trim (i64Text n)) = some n := by
  have hdigits : ∀ c ∈ Nat.toDigits 10 n.natAbs, c.isDigit = true := fun c hc =>
    Nat.isDigit_of_mem_toDigits (by decide) (by decide) hc
  have hplain : ∀ c ∈ i64Text n, Fields.isWhitespace c = false := by
    intro c hc
    unfold i64Text at hc
    rcases List.mem_append.mp hc with hsign | hdigit
    . split at hsign
      next =>
        rw [List.mem_singleton] at hsign
        subst hsign
        decide
      next => cases hsign
    . exact isWhitespace_of_isDigit (hdigits c hdigit)
  have hsplit : digitsOf (i64Text n) = (decide (n < 0), Nat.toDigits 10 n.natAbs) := by
    unfold i64Text
    split
    next hneg => rw [decide_eq_true hneg]; rfl
    next hneg => rw [decide_eq_false hneg, List.nil_append, digitsOf_toDigits]
  have hall : (Nat.toDigits 10 n.natAbs).all Char.isDigit = true := List.all_eq_true.mpr hdigits
  have hvalue : (if decide (n < 0) = true then -(n.natAbs : ℤ) else n.natAbs) = n := by
    split
    next hneg =>
      rw [decide_eq_true_eq] at hneg
      omega
    next hneg =>
      rw [decide_eq_true_eq] at hneg
      omega
  rw [trim_of_plain hplain]
  unfold parseI64
  simp only [hsplit, Nat.ofDigitChars_ten_toDigits, hvalue]
  rw [if_pos ⟨Nat.toDigits_ne_nil, hall⟩, if_pos ⟨hlo, hhi⟩]

theorem asI64_bounds {v : Value} {n : ℤ} (h : v.asI64 = some n)
    : -2 ^ 63 ≤ n ∧ n < 2 ^ 63 := by
  cases v with
  | number m =>
    cases m with
    | posInt m =>
      simp only [Value.asI64, Number.asI64] at h
      split at h
      next hlt =>
        cases h
        omega
      next => cases h
    | negInt m =>
      cases h
      have := m.property
      omega
    | float x => cases h
  | null => cases h
  | bool b => cases h
  | string s => cases h
  | array vs => cases h
  | object kvs => cases h

theorem versionOf_bounds {manifest : Value} {version : ℤ} (h : versionOf manifest = some version)
    : -2 ^ 63 ≤ version ∧ version < 2 ^ 63 := by
  rcases Option.bind_eq_some_iff.mp h with ⟨v, _, hv⟩
  exact asI64_bounds hv

theorem floor_persistVersion {faults : Faults} (h : faults.keepsVersion = true) {version : ℤ}
    (hlo : -2 ^ 63 ≤ version) (hhi : version < 2 ^ 63) (disk : Disk)
    : (persistVersion faults version disk).floor = version := by
  simp only [Faults.keepsVersion, Bool.and_eq_true, decide_eq_true_eq] at h
  rcases h with ⟨⟨hcreate, hwrite⟩, hrename⟩
  simp only [persistVersion, hcreate, hwrite, hrename, if_true, written, Disk.floor, Option.bind_some,
    parseI64_i64Text hlo hhi, Option.getD_some]

theorem log_persistVersion (faults : Faults) (version : ℤ) (disk : Disk)
    : (persistVersion faults version disk).log = disk.log := by
  unfold persistVersion
  cases faults.createTmp <;> simp only [Bool.false_eq_true, if_true, if_false] <;> split <;> rfl

/- The effects of a step. -/

section

variable (lib : Library) (faults : Faults) (clock : Clock) (action : String) (data : Value) (w : World)

@[simp]
theorem append_active : (append lib faults clock action data w).host.active = w.host.active :=
  rfl

@[simp]
theorem append_version : (append lib faults clock action data w).disk.version = w.disk.version :=
  rfl

theorem append_grows : w.disk.log <+: (append lib faults clock action data w).disk.log := by
  unfold append
  simp only
  split
  next => exact List.prefix_append _ _
  next => exact List.prefix_refl _

theorem append_log (h : faults.keepsEvent = true)
    : (append lib faults clock action data w).disk.log
        = w.disk.log ++ (lib.toText (eventOf w.host.audit.events.length clock action data) ++ ['\n']) := by
  simp only [Faults.keepsEvent, Bool.and_eq_true, decide_eq_true_eq] at h
  simp only [append, h.1, h.2, if_true, written]

end

theorem keepVersion_host (faults : Faults) (manifest : Value) (w : World)
    : (keepVersion faults manifest w).host = w.host := by
  unfold keepVersion
  split <;> rfl

theorem keepVersion_log (faults : Faults) (manifest : Value) (w : World)
    : (keepVersion faults manifest w).disk.log = w.disk.log := by
  unfold keepVersion
  split
  next => exact log_persistVersion ..
  next => rfl

/- What the checks say of a swap that comes through them. -/

theorem image_of_checkImage {lib : Library} {manifest : Value} {file : Option (List UInt8)}
    (h : checkImage lib manifest file = none)
    : (manifest.get? "image_sha256").bind Value.asStr = file.map (sha256Hex lib) := by
  unfold checkImage at h
  split at h
  next => cases h
  next image =>
    split at h
    next => cases h
    next hhash => rw [Option.map_some, not_not.mp hhash]

theorem image_of_verifyPack {lib : Library} {revoked : List Str} {files : PackFiles} {manifest : Value}
    (h : verifyPack lib revoked files = .accepted manifest)
    : (manifest.get? "image_sha256").bind Value.asStr = files.imageAgain.map (sha256Hex lib) := by
  unfold verifyPack at h
  split at h
  next =>
    split at h
    next => cases h
    next =>
      split at h
      next => cases h
      next =>
        split at h
        next => cases h
        next =>
          split at h
          next => cases h
          next himage =>
            cases h
            exact image_of_checkImage himage
  next => cases h

theorem stage_eq_stage {toHash : Str} {manifest manifest' : Value} {image image' : List UInt8}
    (h : stage toHash manifest image = .stage manifest' image')
    : manifest = manifest' ∧ image = image' := by
  unfold stage at h
  split at h
  next => cases h
  next =>
    cases h
    exact ⟨rfl, rfl⟩

theorem signed_of_vetSigned {cfg : Config} {call : SwapCall} {stored : ℤ} {toHash : Str} {image image' : List UInt8}
    {manifest : Value} (h : vetSigned cfg call stored toHash image = .stage manifest image')
    : image = image' ∧ verifyPack cfg.lib cfg.revoked call.files = .accepted manifest
        ∧ stored < (versionOf manifest).getD 0 := by
  unfold vetSigned at h
  split at h
  next => cases h
  next manifest' hverified =>
    split at h
    next =>
      simp only at h
      split at h
      next => cases h
      next hversion =>
        rcases stage_eq_stage h with ⟨rfl, rfl⟩
        exact ⟨rfl, hverified, lt_of_not_ge hversion⟩
    next => cases h

/-- A swap comes through with its image, and its manifest is its own or a verified one above the floor it read. -/
theorem staged_of_vet {cfg : Config} {call : SwapCall} {stored : ℤ} {manifest : Value} {image : List UInt8}
    (h : vet cfg call stored = .stage manifest image)
    : call.files.image = some image
        ∧ ((call.allowUnsigned = true ∧ manifest = unsignedManifest cfg (sha256Hex cfg.lib image))
          ∨ (call.allowUnsigned = false ∧ verifyPack cfg.lib cfg.revoked call.files = .accepted manifest
            ∧ stored < (versionOf manifest).getD 0)) := by
  unfold vet at h
  split at h
  next => cases h
  next image' himage =>
    simp only at h
    split at h
    next hunsigned =>
      split at h
      next =>
        rcases stage_eq_stage h with ⟨rfl, rfl⟩
        exact ⟨himage, .inl ⟨hunsigned, rfl⟩⟩
      next => cases h
    next hsigned =>
      rcases signed_of_vetSigned h with ⟨rfl, hverified, hversion⟩
      exact ⟨himage, .inr ⟨Bool.eq_false_of_not_eq_true hsigned, hverified, hversion⟩⟩

/-- What a swap that comes through its checks was: the policy it makes active, and the state it leaves. -/
structure Accepted (cfg : Config) (w : World) (step : Step) (manifest : Value) (policy : ActivePolicy) (call : SwapCall)
    : Prop where
  calls : step.call = .swap call
  leaves : next cfg w step
    = logSwap cfg step.faults call manifest policy (keepVersion step.faults manifest (flip policy w))
  hash : policy.sha256 = sha256Hex cfg.lib policy.image
  image : call.files.image = some policy.image
  origin : (step.signed = false ∧ manifest = unsignedManifest cfg policy.sha256)
    ∨ (step.signed = true ∧ verifyPack cfg.lib cfg.revoked call.files = .accepted manifest
      ∧ storedVersion step.faults w.disk < (versionOf manifest).getD 0)

theorem accepted_of_accepting {cfg : Config} {w : World} {step : Step} {manifest : Value} {policy : ActivePolicy}
    (h : accepting cfg w step = some (manifest, policy))
    : ∃ call, Accepted cfg w step manifest policy call := by
  unfold accepting at h
  split at h
  next call hcall =>
    split at h
    next manifest' image hvet =>
      rw [Option.some.injEq, Prod.mk.injEq] at h
      rcases h with ⟨rfl, rfl⟩
      rcases staged_of_vet hvet with ⟨himage, horigin⟩
      refine ⟨call, hcall, ?_, rfl, himage, ?_⟩
      . unfold Host.next swap
        simp only [hcall, hvet]
      . unfold Step.signed
        simp only [hcall]
        rcases horigin with ⟨hunsigned, hmanifest⟩ | ⟨hsigned, hverified, hversion⟩
        . exact .inl ⟨by rw [hunsigned]; rfl, hmanifest⟩
        . exact .inr ⟨by rw [hsigned]; rfl, hverified, hversion⟩
    next => cases h
  next => cases h

/-- What a step does: it makes the policy of a swap active, or the one before it again, or only writes to the log. -/
inductive Stepped (cfg : Config) (w : World) (step : Step) : Prop
  | accepts (manifest : Value) (policy : ActivePolicy) (call : SwapCall)
      (haccepting : accepting cfg w step = some (manifest, policy)) (h : Accepted cfg w step manifest policy call)
  | rollsBack (clock : Clock) (prev : ActivePolicy) (hcall : step.call = .rollback clock)
      (hprev : w.host.prev = some prev) (hnext : next cfg w step = logRollback cfg step.faults clock prev (restore prev w))
  | keeps (haccepting : accepting cfg w step = none) (hversion : (next cfg w step).disk.version = w.disk.version)
      (hactive : (next cfg w step).host.active = w.host.active ∨ (next cfg w step).host.active = none)
      (hlog : w.disk.log <+: (next cfg w step).disk.log) (hmoments : moments cfg w step = [next cfg w step])

theorem step_cases (cfg : Config) (w : World) (step : Step)
    : Stepped cfg w step := by
  cases haccepting : accepting cfg w step with
  | some accepted =>
    rcases accepted with ⟨manifest, policy⟩
    rcases accepted_of_accepting haccepting with ⟨call, h⟩
    exact .accepts manifest policy call haccepting h
  | none =>
    cases hcall : step.call with
    | swap call =>
      have hnext : ∃ toHash version reasons, next cfg w step = (reject cfg step.faults call toHash version reasons w).2 := by
        unfold accepting at haccepting
        unfold Host.next swap
        simp only [hcall] at haccepting ⊢
        split at haccepting
        next => cases haccepting
        next hvet =>
          simp only [hvet]
          exact ⟨_, _, _, rfl⟩
      rcases hnext with ⟨toHash, version, reasons, hnext⟩
      refine .keeps haccepting ?_ (.inl ?_) ?_ ?_
      . rw [hnext]
        rfl
      . rw [hnext]
        rfl
      . rw [hnext]
        exact append_grows ..
      . unfold moments
        simp only [hcall, haccepting]
    | rollback clock =>
      cases hprev : w.host.prev with
      | some prev =>
        refine .rollsBack clock prev hcall hprev ?_
        unfold Host.next rollback
        simp only [hcall, hprev]
      | none =>
        have hnext : next cfg w step = w := by
          unfold Host.next rollback
          simp only [hcall, hprev]
        refine .keeps haccepting ?_ (.inl ?_) ?_ ?_
        . rw [hnext]
        . rw [hnext]
        . rw [hnext]
        . unfold moments
          simp only [hcall, hprev]
    | restart =>
      have hnext : next cfg w step = ⟨w.disk, newHost cfg.lib step.faults w.disk⟩ := by
        unfold Host.next
        simp only [hcall]
      refine .keeps haccepting ?_ (.inr ?_) ?_ ?_
      . rw [hnext]
      . rw [hnext]
        rfl
      . rw [hnext]
      . unfold moments
        simp only [hcall]

/- The events. -/

theorem names_swap (idx : ℕ) (clock : Clock) (fromHash : Option Str) (manifest : Value) (policy : ActivePolicy)
    : Names (eventOf idx clock "swap" (swapEvent fromHash manifest policy)) policy :=
  ⟨.inl rfl, rfl⟩

theorem names_rollback (idx : ℕ) (clock : Clock) (version result : Value) (policy : ActivePolicy)
    : Names
        (eventOf idx clock "rollback"
          (jsonObject [("to_hash", .string policy.sha256), ("version", version), ("result", result)]))
        policy :=
  ⟨.inr rfl, rfl⟩

section

variable {cfg : Config} {w : World} {step : Step} {manifest : Value} {policy : ActivePolicy} {call : SwapCall}

theorem Accepted.active (h : Accepted cfg w step manifest policy call)
    : (next cfg w step).host.active = some policy := by
  rw [h.leaves, logSwap, append_active, keepVersion_host]
  rfl

theorem Accepted.log (h : Accepted cfg w step manifest policy call) (hkeeps : step.faults.keepsEvent = true)
    : ∃ ev, Names ev policy ∧ (next cfg w step).disk.log = w.disk.log ++ (cfg.lib.toText ev ++ ['\n']) := by
  rw [h.leaves, logSwap, append_log _ _ _ _ _ _ hkeeps, keepVersion_log]
  exact ⟨_, names_swap _ call.clock _ manifest policy, rfl⟩

theorem Accepted.grows (h : Accepted cfg w step manifest policy call)
    : w.disk.log <+: (next cfg w step).disk.log := by
  have hgrows := append_grows cfg.lib step.faults call.clock "swap"
    (swapEvent (w.host.active.map ActivePolicy.sha256) manifest policy)
    (keepVersion step.faults manifest (flip policy w))
  rw [keepVersion_log] at hgrows
  rw [h.leaves, logSwap, keepVersion_host]
  exact hgrows

theorem Accepted.version (h : Accepted cfg w step manifest policy call)
    : (next cfg w step).disk.version = (keepVersion step.faults manifest (flip policy w)).disk.version := by
  rw [h.leaves, logSwap, append_version]

/-- An unsigned manifest has no version. -/
theorem Accepted.signed (h : Accepted cfg w step manifest policy call) {version : ℤ}
    (hversion : versionOf manifest = some version)
    : step.signed = true := by
  rcases h.origin with ⟨_, hmanifest⟩ | ⟨hsigned, _⟩
  . rw [hmanifest] at hversion
    cases hversion
  . exact hsigned

end

/- The laws hold. -/

section

variable {cfg : Config} {w : World} {step : Step} {manifest : Value} {policy : ActivePolicy} {call : SwapCall}

theorem Sound.above (hsound : Sound cfg w step) (haccepting : accepting cfg w step = some (manifest, policy))
    (h : Accepted cfg w step manifest policy call) (hsigned : step.signed = true)
    : w.disk.floor < (versionOf manifest).getD 0 := by
  rcases h.origin with ⟨hunsigned, _⟩ | ⟨_, _, hversion⟩
  . rw [hunsigned] at hsigned
    cases hsigned
  . rcases hsound.read manifest policy haccepting hsigned with hread | hless
    . rw [storedVersion, hread, if_pos rfl] at hversion
      exact hversion
    . exact hless

/-- An admitted version is the floor after the step. -/
theorem Sound.raises (hsound : Sound cfg w step) (haccepting : accepting cfg w step = some (manifest, policy))
    (h : Accepted cfg w step manifest policy call)
    : (step.signed = false ∧ (next cfg w step).disk.floor = w.disk.floor)
        ∨ (step.signed = true ∧ (next cfg w step).disk.floor = (versionOf manifest).getD 0) := by
  have hfloor : (next cfg w step).disk.floor = (keepVersion step.faults manifest (flip policy w)).disk.floor := by
    rw [Disk.floor, Disk.floor, h.version]
  cases hversion : versionOf manifest with
  | some version =>
    have hwritten := hsound.written manifest policy haccepting (by rw [hversion]; rfl)
    rcases versionOf_bounds hversion with ⟨hlo, hhi⟩
    refine .inr ⟨h.signed hversion, ?_⟩
    rw [hfloor, keepVersion, hversion, Option.getD_some]
    exact floor_persistVersion hwritten hlo hhi _
  | none =>
    left
    refine ⟨?_, by rw [hfloor, keepVersion, hversion]; rfl⟩
    by_contra hsigned
    rw [Bool.not_eq_false] at hsigned
    -- a pack without a version counts as one of version 0, and the floor is not below that
    have habove := hsound.above haccepting h hsigned
    rcases hsound.version manifest policy haccepting hsigned with hsome | hnonneg
    . rw [hversion] at hsome
      cases hsome
    . rw [hversion, Option.getD_none] at habove
      omega

theorem Sound.imageHash (hsound : Sound cfg w step) (haccepting : accepting cfg w step = some (manifest, policy))
    (h : Accepted cfg w step manifest policy call)
    : (manifest.get? "image_sha256").bind Value.asStr = some (sha256Hex cfg.lib policy.image) := by
  rcases h.origin with ⟨_, hmanifest⟩ | ⟨hsigned, hverified, _⟩
  . rw [hmanifest, ← h.hash]
    rfl
  . have hcall : call.allowUnsigned = false := by
      unfold Step.signed at hsigned
      simpa only [h.calls, Bool.not_eq_true'] using hsigned
    rw [image_of_verifyPack hverified, hsound.images call h.calls hcall (by rw [haccepting]; rfl), h.image]
    rfl

end

theorem admitting_eq_some {cfg : Config} {w : World} {step : Step} {v : ℤ} (h : admitting cfg w step = some v)
    : step.signed = true ∧ ∃ manifest policy, accepting cfg w step = some (manifest, policy)
        ∧ v = (versionOf manifest).getD 0 := by
  unfold admitting at h
  split at h
  next hsigned =>
    rcases Option.map_eq_some_iff.mp h with ⟨⟨manifest, policy⟩, haccepting, rfl⟩
    exact ⟨hsigned, manifest, policy, haccepting, rfl⟩
  next => cases h

theorem floor_of_logRollback (cfg : Config) (faults : Faults) (clock : Clock) (prev : ActivePolicy) (w : World)
    : (logRollback cfg faults clock prev (restore prev w)).disk.floor = w.disk.floor :=
  rfl

/-- The step of a run whose floor covers what it admitted keeps the laws, and covers what it admits. -/
theorem lawful_step {cfg : Config} {older : List ℤ} {w : World} {step : Step} (hsound : Sound cfg w step)
    (hcovers : ∀ u ∈ older, u ≤ w.disk.floor)
    : Lawful cfg older w step ∧ ∀ v, admitting cfg w step = some v → v = (next cfg w step).disk.floor := by
  cases step_cases cfg w step with
  | accepts manifest policy call haccepting h =>
    have hraises := hsound.raises haccepting h
    have hflips : (flipping cfg w step).isSome = true := by
      unfold flipping
      simp only [h.calls, haccepting]
      rfl
    rcases hsound.logged hflips with ⟨hended, hkeeps⟩
    refine ⟨⟨?_, ?_, ?_, h.grows, ?_⟩, ?_⟩
    . rcases hraises with ⟨_, hsame⟩ | ⟨hsigned, hfloor⟩
      . exact hsame.ge
      . rw [hfloor]
        exact (hsound.above haccepting h hsigned).le
    . intro v hv
      rcases admitting_eq_some hv with ⟨hsigned, manifest', policy', haccepting', rfl⟩
      rw [haccepting, Option.some.injEq, Prod.mk.injEq] at haccepting'
      rcases haccepting' with ⟨rfl, rfl⟩
      have habove := hsound.above haccepting h hsigned
      exact ⟨habove, fun u hu => lt_of_le_of_lt (hcovers u hu) habove⟩
    . intro policy' hpolicy' _
      rw [h.active, Option.some.injEq] at hpolicy'
      subst hpolicy'
      rcases h.log hkeeps with ⟨ev, hnames, hlog⟩
      exact ⟨ev, hnames, hended, hlog⟩
    . intro manifest' policy' haccepting'
      rw [haccepting, Option.some.injEq, Prod.mk.injEq] at haccepting'
      rcases haccepting' with ⟨rfl, rfl⟩
      exact ⟨h.active, hsound.imageHash haccepting h⟩
    . intro v hv
      rcases admitting_eq_some hv with ⟨hsigned, manifest', policy', haccepting', rfl⟩
      rw [haccepting, Option.some.injEq, Prod.mk.injEq] at haccepting'
      rcases haccepting' with ⟨rfl, rfl⟩
      rcases hraises with ⟨hunsigned, _⟩ | ⟨_, hfloor⟩
      . rw [hunsigned] at hsigned
        cases hsigned
      . exact hfloor.symm
  | rollsBack clock prev hcall hprev hnext =>
    have haccepting : accepting cfg w step = none := by
      unfold accepting
      simp only [hcall]
    have hadmitting : admitting cfg w step = none := by
      unfold admitting
      rw [haccepting]
      split <;> rfl
    have hflips : (flipping cfg w step).isSome = true := by
      unfold flipping
      simp only [hcall, hprev]
      rfl
    rcases hsound.logged hflips with ⟨hended, hkeeps⟩
    refine ⟨⟨?_, ?_, ?_, ?_, ?_⟩, ?_⟩
    . rw [hnext, floor_of_logRollback]
    . intro v hv
      rw [hadmitting] at hv
      cases hv
    . intro policy hpolicy _
      have hlog := append_log cfg.lib step.faults clock "rollback"
        (jsonObject [("to_hash", .string prev.sha256), ("version", ofOption ofInt prev.version),
          ("result", .string (str "rolled_back"))]) (restore prev w) hkeeps
      rw [hnext] at hpolicy ⊢
      cases hpolicy
      exact ⟨_, names_rollback _ clock _ _ _, hended, hlog⟩
    . rw [hnext]
      exact append_grows ..
    . intro manifest policy h
      rw [haccepting] at h
      cases h
    . intro v hv
      rw [hadmitting] at hv
      cases hv
  | keeps haccepting hversion hactive hlog _ =>
    have hadmitting : admitting cfg w step = none := by
      unfold admitting
      rw [haccepting]
      split <;> rfl
    refine ⟨⟨?_, ?_, ?_, hlog, ?_⟩, ?_⟩
    . rw [Disk.floor, Disk.floor, hversion]
    . intro v hv
      rw [hadmitting] at hv
      cases hv
    . intro policy hpolicy hchanged
      rcases hactive with hsame | hnone
      . rw [hsame] at hpolicy
        exact absurd hpolicy hchanged
      . rw [hnone] at hpolicy
        cases hpolicy
    . intro manifest policy h
      rw [haccepting] at h
      cases h
    . intro v hv
      rw [hadmitting] at hv
      cases hv

/- The order within a step. -/

theorem not_added_same {lib : Library} {ev : Value} {log : List Char} (h : Added lib ev log log)
    : False := by
  have hlength := congrArg List.length h.2
  simp only [List.length_append, List.length_singleton] at hlength
  omega

theorem evidenced_of_unchanged {cfg : Config} {w w' : World} (h : Unchanged w w')
    : Evidenced cfg w w' :=
  fun policy hpolicy hchanged => absurd (h policy hpolicy) hchanged

/-- The active policy changes before anything is written: only a step that leaves it as it is keeps the order. -/
theorem ordered_iff (cfg : Config) (w : World) (step : Step)
    : Ordered cfg w step ↔ Unchanged w (next cfg w step) := by
  have hfirst : ∀ (first : World) (policy : ActivePolicy), first ∈ moments cfg w step → first.disk.log = w.disk.log →
      first.host.active = some policy → Ordered cfg w step → w.host.active = some policy := by
    intro first policy hmem hlog hactive hordered
    by_contra hchanged
    rcases hordered first hmem policy hactive hchanged with ⟨ev, _, hadded⟩
    rw [hlog] at hadded
    exact not_added_same hadded
  cases step_cases cfg w step with
  | accepts manifest policy call haccepting h =>
    have hmoments : moments cfg w step
        = [flip policy w, keepVersion step.faults manifest (flip policy w), next cfg w step] := by
      unfold moments
      simp only [h.calls, haccepting]
    constructor
    . intro hordered policy' hpolicy'
      rw [h.active, Option.some.injEq] at hpolicy'
      subst hpolicy'
      exact hfirst (flip policy w) policy (by rw [hmoments]; exact List.mem_cons_self ..) rfl rfl hordered
    . intro hunchanged w' hw'
      have hsame := hunchanged policy h.active
      refine evidenced_of_unchanged fun policy' hpolicy' => ?_
      rw [hmoments] at hw'
      have hactive : w'.host.active = some policy := by
        simp only [List.mem_cons, List.not_mem_nil, or_false] at hw'
        rcases hw' with rfl | rfl | rfl
        . rfl
        . rw [keepVersion_host]
          rfl
        . exact h.active
      rw [hsame, ← hactive]
      exact hpolicy'
  | rollsBack clock prev hcall hprev hnext =>
    have hmoments : moments cfg w step = [restore prev w, next cfg w step] := by
      unfold moments
      simp only [hcall, hprev]
    have hactive : (next cfg w step).host.active = some prev := by
      rw [hnext]
      rfl
    constructor
    . intro hordered policy' hpolicy'
      rw [hactive, Option.some.injEq] at hpolicy'
      subst hpolicy'
      exact hfirst (restore prev w) prev (by rw [hmoments]; exact List.mem_cons_self ..) rfl rfl hordered
    . intro hunchanged w' hw'
      have hsame := hunchanged prev hactive
      refine evidenced_of_unchanged fun policy' hpolicy' => ?_
      rw [hmoments] at hw'
      have hactive' : w'.host.active = some prev := by
        simp only [List.mem_cons, List.not_mem_nil, or_false] at hw'
        rcases hw' with rfl | rfl
        . rfl
        . exact hactive
      rw [hsame, ← hactive']
      exact hpolicy'
  | keeps _ _ hactive _ hmoments =>
    have hunchanged : Unchanged w (next cfg w step) := by
      intro policy hpolicy
      rcases hactive with hsame | hnone
      . rw [← hsame]
        exact hpolicy
      . rw [hnone] at hpolicy
        cases hpolicy
    constructor
    . exact fun _ => hunchanged
    . intro _ w' hw'
      rw [hmoments, List.mem_singleton] at hw'
      subst hw'
      exact evidenced_of_unchanged hunchanged

/- Runs. -/

/-- The floor covers what was admitted. -/
def Covers (t : Trail) : Prop :=
  ∀ u ∈ t.admitted, u ≤ t.world.disk.floor

theorem covers_next {cfg : Config} {t : Trail} {step : Step} (hcovers : Covers t) (hsound : Sound cfg t.world step)
    : Covers (t.next cfg step) := by
  rcases lawful_step hsound hcovers with ⟨hlawful, hadmits⟩
  intro u hu
  rcases List.mem_append.mp hu with hold | hnew
  . exact (hcovers u hold).trans hlawful.floor
  . exact (hadmits u (Option.mem_toList.mp hnew)).le

theorem host_laws {cfg : Config} {faults : Faults} {disk : Disk} {t : Trail}
    (hrun : Runs (Trail.next cfg) (fun t step => Sound cfg t.world step) (Trail.begin cfg faults disk) t) (step : Step)
    : (Sound cfg t.world step → Lawful cfg t.admitted t.world step)
        ∧ (Ordered cfg t.world step ↔ Unchanged t.world (next cfg t.world step)) := by
  have hcovers : Covers t :=
    hrun.invariant (fun u hu => by cases hu) fun _ _ hcovers hsound => covers_next hcovers hsound
  exact ⟨fun hsound => (lawful_step hsound hcovers).1, ordered_iff cfg t.world step⟩

/- A host of one key. -/

def demoKey : List UInt8 :=
  [138, 136, 227, 221, 116, 9, 241, 149, 253, 82, 219, 45, 60, 186, 93, 114, 202, 103, 9, 191, 29, 148, 18,
    27, 243, 116, 136, 1, 180, 15, 111, 92]

def demoKeyDigest : List UInt8 :=
  [52, 117, 15, 152, 189, 89, 252, 252, 148, 109, 164, 90, 170, 190, 147, 59, 225, 84, 164, 181, 9, 78, 28,
    74, 191, 66, 134, 101, 5, 243, 201, 126]

/-- A table of one node. -/
def demoImage : List UInt8 :=
  [80, 80, 84, 77, 1, 0, 0, 0, 1, 0, 0, 0, 1, 0, 0, 0, 0, 0, 0, 0, 255, 255, 25, 0, 1, 0, 0, 0, 0, 0, 0, 0]

def demoImageDigest : List UInt8 :=
  [28, 179, 122, 187, 74, 177, 165, 10, 38, 76, 147, 230, 211, 121, 28, 141, 27, 250, 5, 212, 201, 71, 24, 6,
    104, 45, 113, 59, 190, 2, 0, 232]

def demoManifest : Value :=
  jsonObject [
    ("counts", jsonObject [("atoms", ofInt 0), ("edges", ofInt 0), ("max_stack", ofInt 1), ("max_steps", ofInt 25),
      ("nodes", ofInt 1), ("prog_words", ofInt 0)]),
    ("created", .string []), ("envelope_id", .string (str "lab")), ("fields", .object []),
    ("format", .string (str "ppt-pack/1")), ("image_sha256", .string (hex demoImageDigest)),
    ("key_id", .string (hex demoKeyDigest)), ("version", ofInt 1)]

def demoText : List Char :=
  pyCanonicalString Decimal.shortest false demoManifest

/-- The signature of the manifest by the key. -/
def demoSig : List UInt8 :=
  [166, 251, 21, 114, 109, 12, 215, 219, 137, 29, 76, 243, 10, 28, 70, 8, 186, 222, 115, 36, 16, 240, 206,
    26, 167, 215, 25, 32, 46, 25, 111, 21, 88, 39, 216, 69, 60, 196, 44, 64, 61, 80, 192, 83, 130, 99, 76,
    244, 233, 210, 3, 184, 195, 124, 117, 155, 62, 195, 226, 210, 241, 136, 205, 10]

def demoLib : Library where
  sha256 data := if data = demoImage then demoImageDigest else if data = demoKey then demoKeyDigest else []
  isKey raw := raw = demoKey
  verify key message sig := key = demoKey && message = textBytes demoText && sig = demoSig
  fromStr text := if text = demoText then some demoManifest else none
  toText := pyCanonicalString Decimal.shortest false
  lowerExp := Decimal.shortest

def demoConfig : Config where
  lib := demoLib
  envelope := jsonObject [("envelope_id", .string (str "lab")), ("fields", .object [])]
  revoked := []

def demoClock : Clock where
  epoch := (false, ⟨0, le_rfl⟩)
  iso := str "1970-01-01T00:00:00+00:00"

def demoSwap (allowUnsigned : Bool) : SwapCall where
  files := {
    image := some demoImage
    manifest := some demoText
    sig := some demoSig
    imageAgain := some demoImage
    pubkeys := [some demoKey]
  }
  allowUnsigned := allowUnsigned
  clock := demoClock

/-- A swap whose event does not get to the file is active all the same. -/
theorem unlogged_swap_unlawful
    : ¬ ∀ (cfg : Config) (faults : Faults) (disk : Disk) (t : Trail),
        Runs (Trail.next cfg) (fun _ _ => True) (Trail.begin cfg faults disk) t →
          ∀ step, Lawful cfg t.admitted t.world step := by
  intro hclaim
  have hlawful := hclaim demoConfig {} {} _ .refl ⟨.swap (demoSwap true), { openLog := false }⟩
  cases haccepting : accepting demoConfig (Trail.begin demoConfig {} {}).world
      ⟨.swap (demoSwap true), { openLog := false }⟩ with
  | none =>
    have hsome : (accepting demoConfig (Trail.begin demoConfig {} {}).world
        ⟨.swap (demoSwap true), { openLog := false }⟩).isSome = true := by
      with_unfolding_all decide
    rw [haccepting] at hsome
    cases hsome
  | some accepted =>
    have hactive := (hlawful.image _ _ haccepting).1
    rcases hlawful.evidenced _ hactive (by simp [Trail.begin, newHost]) with ⟨ev, _, hadded⟩
    rcases accepted_of_accepting haccepting with ⟨call, h⟩
    have hlog : (next demoConfig (Trail.begin demoConfig {} {}).world
        ⟨.swap (demoSwap true), { openLog := false }⟩).disk.log = (Trail.begin demoConfig {} {}).world.disk.log := by
      rw [h.leaves, logSwap]
      exact keepVersion_log ..
    rw [hlog] at hadded
    exact not_added_same hadded

theorem ended_added {lib : Library} {ev : Value} {before after : List Char} (h : Added lib ev before after)
    : ended after = true := by
  rw [h.2, ← List.append_assoc]
  simp [ended]

theorem sound_of_unfailing {cfg : Config} {w : World} {call : SwapCall} (hended : ended w.disk.log = true)
    (hfloor : 0 ≤ w.disk.floor)
    (himages : call.files.imageAgain.map (sha256Hex cfg.lib) = call.files.image.map (sha256Hex cfg.lib))
    : Sound cfg w ⟨.swap call, {}⟩ where
  read _ _ _ _ := .inl rfl
  version _ _ _ _ := .inr hfloor
  written _ _ _ _ := rfl
  images call' hcall _ _ := by
    cases hcall
    exact himages
  logged _ := ⟨hended, rfl⟩

/-- The image swapped in unsigned. -/
def demoTrail : Trail :=
  (Trail.begin demoConfig {} {}).next demoConfig ⟨.swap (demoSwap true), {}⟩

theorem ended_demoTrail
    : ended demoTrail.world.disk.log = true := by
  have hsome : (accepting demoConfig (Trail.begin demoConfig {} {}).world ⟨.swap (demoSwap true), {}⟩).isSome = true := by
    with_unfolding_all decide
  rcases Option.isSome_iff_exists.mp hsome with ⟨⟨manifest, policy⟩, haccepting⟩
  rcases accepted_of_accepting haccepting with ⟨call, h⟩
  rcases h.log rfl with ⟨ev, _, hlog⟩
  exact ended_added ⟨rfl, hlog⟩

theorem host_laws_two
    : admitting demoConfig demoTrail.world ⟨.swap (demoSwap false), {}⟩ = some 1
        ∧ Lawful demoConfig demoTrail.admitted demoTrail.world ⟨.swap (demoSwap false), {}⟩ := by
  have hfirst : Sound demoConfig (Trail.begin demoConfig {} {}).world ⟨.swap (demoSwap true), {}⟩ :=
    sound_of_unfailing rfl (by decide) rfl
  have hrun : Runs (Trail.next demoConfig) (fun t step => Sound demoConfig t.world step)
      (Trail.begin demoConfig {} {}) demoTrail :=
    .tail .refl ⟨_, hfirst, rfl⟩
  have hsecond : Sound demoConfig demoTrail.world ⟨.swap (demoSwap false), {}⟩ :=
    sound_of_unfailing ended_demoTrail (by with_unfolding_all decide) rfl
  exact ⟨by decide +kernel, (host_laws hrun _).1 hsecond⟩

end Host

end Rust
