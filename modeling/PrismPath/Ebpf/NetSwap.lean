import PrismPath.Ebpf.PptImage
import PrismPath.Hotswap.SignedImage
import PrismPath.Lib.Runs

/-!
This module contains the gate in front of the live network policy: the calls that verify a pack and then run the
loader, and what is loaded and audited while other processes replace files and calls stop anywhere; and when the kernel
runs what the gate verified: what has to hold of a call that gets as far as a flip.
-/

open Python PolicyPack Process

namespace NetSwap

/-- A file that is opened: it may not exist, or not be the process's to read. -/
inductive File (α : Type) where
  | missing
  | denied
  | content (a : α)

/-- A file that is not found is `none`; other errors are raised. -/
def File.open {α : Type} : File α → Except Raised (Option α)
  | .missing => .ok none
  | .denied => .error .osError
  | .content a => .ok (some a)

/-- The content of `active_version`, as `int` reads it, or `none` for a `ValueError`. -/
abbrev VersionFile : Type :=
  File (Option ℤ)

structure Config where
  lib : Library
  pubkeys : List (Option (List UInt8))
  /-- The canonical JSON text of any value. -/
  canonicalText : Value → String

/-- The two files of an envelope; the text is `none` where its bytes are no text. -/
structure EnvelopeFiles where
  json : File (Option String)
  sig : File (List UInt8)

/-- What the loader gets to: it fails before the flip, or flips and returns, or is killed behind the flip. -/
inductive LoaderEnd where
  | fails
  | flips
  | dies
  deriving DecidableEq

structure SwapCall where
  files : Moment → PackFiles
  /-- The image file when the loader opens it. -/
  loaderImage : Option (List UInt8)
  envelope : Option EnvelopeFiles
  /-- What reading the revocation list gives. -/
  revoked : Except Raised (List String)
  loader : LoaderEnd
  errno : Nat
  iface : String
  stderr : String

/-- What the loader made the kernel route by, and the manifest its call had verified. -/
structure Loaded where
  image : List UInt8
  manifest : List (String × Value)

def Loaded.version (l : Loaded) : Value :=
  get l.manifest "version"

/-- The state directory, and the changes of the kernel, the first one first. -/
structure World where
  version : VersionFile
  log : List PolicyHost.Event
  kernel : List Loaded

/-- The operations of a call that change something, each of which happens at most once in it. -/
inductive Op where
  | rejectEvent
  | load
  | failedEvent
  | writeVersion
  | swapEvent
  deriving DecidableEq

abbrev Faults : Type := Op → Fault

/-- `_read_version` -/
def readVersion (file : VersionFile) : Except Raised ℤ := do
  let content ← file.open
  return (content.bind id).getD 0

/-- The text of the version; only that of an integer is read back. -/
def writtenVersion : Value → VersionFile
  | .int n => .content (some n)
  | _ => .content none

/-- `load_envelope`: the envelope, or the reasons there is none. -/
def loadEnvelope (cfg : Config) (files : EnvelopeFiles) : Except Raised (List String ⊕ Value) := do
  match ← files.json.open with
  | none => return .inl ["envelope:missing"]
  | some none => .error .valueError
  | some (some text) =>
    match cfg.lib.loads text with
    | none => .error .valueError
    | some env =>
      match ← files.sig.open with
      | none => return .inl ["envelope:missing"]
      | some sig =>
        match ← findSigner cfg.lib sig (cfg.canonicalText env) cfg.pubkeys with
        | some _ => return .inr env
        | none => return .inl ["envelope:sig-invalid"]

/-- The envelope of a call that was given one; a signed `null` is no envelope either. -/
def envelopeOf (cfg : Config) (call : SwapCall) : Except Raised (List String ⊕ Option Value) :=
  match call.envelope with
  | none => .ok (.inr none)
  | some files => do
    match ← loadEnvelope cfg files with
    | .inl reasons => return .inl reasons
    | .inr .none => return .inl []
    | .inr env => return .inr (some env)

inductive Verdict where
  | reject (toHash : Value) (reasons : List String)
  | pass (toHash : String) (manifest : List (String × Value)) (version : Value)

/-- The checks of a verified manifest: its envelope, and the version floor. -/
def vetManifest (cfg : Config) (image : List UInt8) (env : Option Value) (stored : Except Raised ℤ)
    (manifest : List (String × Value)) : Except Raised Verdict := do
  let toHash := cfg.lib.sha256Hex image
  match env with
  | none => return .reject (.str toHash) ["envelope:missing"]
  | some (.dict env) =>
    let reasons ← checkEnvelope manifest image env
    if reasons ≠ [] then
      return .reject (.str toHash) reasons
    match manifest.lookup "version" with
    | none => .error .keyError
    | some version =>
      let stored ← stored
      match version.order .le (.int stored) with
      | none => .error .typeError
      | some true =>
        return .reject (.str toHash)
          ["version:not-monotonic:" ++ cfg.lib.str version ++ "<=" ++ cfg.lib.str (.int stored)]
      | some false => return .pass toHash manifest version
  | some _ => .error .attributeError

/-- Every check of a call, in front of the kernel. -/
def vet (cfg : Config) (call : SwapCall) (stored : Except Raised ℤ) : Except Raised Verdict := do
  match (call.files .image).image with
  | none => return .reject .none [s!"image:unreadable:{call.errno}"]
  | some image =>
    let toHash := cfg.lib.sha256Hex image
    match ← envelopeOf cfg call with
    | .inl reasons => return .reject (.str toHash) reasons
    | .inr env =>
      let revoked ← call.revoked
      match ← verifyPack cfg.lib cfg.pubkeys revoked call.files with
      | .refused reasons _ => return .reject (.str toHash) reasons
      | .accepted manifest => vetManifest cfg image env stored manifest

/-- The image the loader puts into the kernel, which must parse. -/
def flipped (call : SwapCall) : Option (List UInt8) :=
  match call.loaderImage, call.loader with
  | some image, .flips => if (PptImage.parseImageBuf image).isSome then some image else none
  | some image, .dies => if (PptImage.parseImageBuf image).isSome then some image else none
  | _, _ => none

/-- The exit code is zero. -/
def succeeded (call : SwapCall) : Bool :=
  call.loader = .flips && (flipped call).isSome

/-- What a call hands back. -/
inductive Reply where
  | active (toHash : String) (version : Value)
  | refused (reasons : List String)

def append (fault : Fault) (action : String) (data : List (String × Value)) : Process World Raised Unit :=
  attempt fault .auditWriteError fun w => { w with log := w.log ++ [⟨action, data⟩] }

/-- `_reject` -/
def reject (faults : Faults) (toHash : Value) (reasons : List String) : Process World Raised Reply := do
  append (faults .rejectEvent) "swap_rejected" [
    ("to_hash", toHash), ("reasons", .list (reasons.map .str)), ("result", .str "rejected")]
  return .refused reasons

def swapEventData (call : SwapCall) (toHash : String) (manifest : List (String × Value)) (version : Value)
    : List (String × Value) :=
  [("to_hash", .str toHash), ("version", version), ("key_id", get manifest "key_id"), ("unsigned", .bool false),
    ("iface", .str call.iface), ("result", .str "accepted")]

/-- The loader is run; then the floor is written, and after it the audit row. -/
def load (faults : Faults) (call : SwapCall) (toHash : String) (manifest : List (String × Value)) (version : Value)
    : Process World Raised Reply := do
  attempt (faults .load) .osError fun w =>
    { w with kernel := w.kernel ++ ((flipped call).map fun image => ⟨image, manifest⟩).toList }
  if !succeeded call then
    append (faults .failedEvent) "loader_failed" [
      ("to_hash", .str toHash), ("iface", .str call.iface), ("stderr", .str call.stderr)]
    return .refused ["loader:failed"]
  else
    attempt (faults .writeVersion) .osError fun w => { w with version := writtenVersion version }
    append (faults .swapEvent) "swap" (swapEventData call toHash manifest version)
    return .active toHash version

/-- `preload_swap` of a signed pack. -/
def preloadSwap (cfg : Config) (faults : Faults) (call : SwapCall) : Process World Raised Reply := do
  let w ← read
  let verdict ← ofExcept (vet cfg call (readVersion w.version))
  match verdict with
  | .reject toHash reasons => reject faults toHash reasons
  | .pass toHash manifest version => load faults call toHash manifest version

/-- A call, which a fault may stop anywhere, or another process that replaces the version file. -/
inductive Action where
  | call (call : SwapCall) (faults : Faults)
  | replace (file : VersionFile)

def next (cfg : Config) (w : World) : Action → World
  | .call call faults => (preloadSwap cfg faults call w).2
  | .replace file => { w with version := file }

end NetSwap

open Python PolicyPack Process

namespace NetSwap

/-- The audit row of a change names its image and its version. -/
structure Names (cfg : Config) (event : PolicyHost.Event) (l : Loaded) : Prop where
  toHash : get event.data "to_hash" = .str (cfg.lib.sha256Hex l.image)
  version : get event.data "version" = l.version

def isSwap (event : PolicyHost.Event) : Bool :=
  event.action = "swap"

/-- A call verified the manifest, and it names the digest of the image. -/
def VerifiedImage (cfg : Config) (l : Loaded) : Prop :=
  (∃ files revoked, verifyPack cfg.lib cfg.pubkeys revoked files = .ok (.accepted l.manifest))
    ∧ get l.manifest "image_sha256" = .str (cfg.lib.sha256Hex l.image)

structure Laws (cfg : Config) (w : World) : Prop where
  verified : ∀ l ∈ w.kernel, VerifiedImage cfg l
  audited : List.Forall₂ (Names cfg) (w.log.filter isSwap) w.kernel
  rising : w.kernel.Pairwise fun earlier later => later.version.order .le earlier.version ≠ some true

/-- Nothing was ever loaded with this directory, whose version file may hold anything. -/
def Fresh (w : World) : Prop :=
  w.log = [] ∧ w.kernel = []

/-- The gate lets the call through, and the loader flips. -/
def Flips (cfg : Config) (w : World) (call : SwapCall) (faults : Faults) (version : Value) : Prop :=
  (∃ toHash manifest, vet cfg call (readVersion w.version) = .ok (.pass toHash manifest version))
    ∧ faults .load = .none ∧ (flipped call).isSome = true

/-- The file of the image stays as it is, and nothing stops the call between the flip and the audit row. -/
structure Unbroken (call : SwapCall) (faults : Faults) : Prop where
  first : (call.files .image).image = (call.files .imageAgain).image
  loader : call.loaderImage = (call.files .imageAgain).image
  returns : call.loader ≠ .dies
  floor : faults .writeVersion = .none
  audit : faults .swapEvent = .none

/-- A call that flips is unbroken and its version an integer, and no other process lowers the floor. -/
def Sound (cfg : Config) (w : World) : Action → Prop
  | .call call faults => ∀ version, Flips cfg w call faults version → Unbroken call faults ∧ ∃ n, version = .int n
  | .replace file => ∀ l ∈ w.kernel, ∀ n, readVersion file = .ok n → l.version.order .le (.int n) = some true

/- The gate. -/

/-- What a call has passed whose pack is admitted. -/
structure Admitted (cfg : Config) (call : SwapCall) (stored : Except Raised ℤ) (toHash : String)
    (manifest : List (String × Value)) (version : Value) : Prop where
  read : ∃ image, (call.files .image).image = some image ∧ toHash = cfg.lib.sha256Hex image
  verified : ∃ revoked, verifyPack cfg.lib cfg.pubkeys revoked call.files = .ok (.accepted manifest)
  named : get manifest "version" = version
  newer : ∃ n, stored = .ok n ∧ version.order .le (.int n) = some false

theorem admitted_of_vetManifest {cfg : Config} {image : List UInt8} {env : Option Value} {stored : Except Raised ℤ}
    {manifest manifest' : List (String × Value)} {toHash : String} {version : Value}
    (h : vetManifest cfg image env stored manifest = .ok (.pass toHash manifest' version))
    : toHash = cfg.lib.sha256Hex image ∧ manifest' = manifest ∧ get manifest "version" = version
        ∧ ∃ n, stored = .ok n ∧ version.order .le (.int n) = some false := by
  unfold vetManifest at h
  split at h
  . cases h
  . rcases Except.bind_eq_ok.mp h with ⟨reasons, _, h⟩
    split at h
    . cases h
    . split at h
      . cases h
      . next version' hversion =>
        rcases Except.bind_eq_ok.mp h with ⟨n, hstored, h⟩
        split at h
        . cases h
        . cases h
        . next hnewer =>
          cases h
          have hget : get manifest "version" = version := congrArg (·.getD .none) hversion
          exact ⟨rfl, rfl, hget, n, hstored, hnewer⟩
  . cases h

theorem admitted_of_vet {cfg : Config} {call : SwapCall} {stored : Except Raised ℤ} {toHash : String}
    {manifest : List (String × Value)} {version : Value}
    (h : vet cfg call stored = .ok (.pass toHash manifest version))
    : Admitted cfg call stored toHash manifest version := by
  unfold vet at h
  split at h
  . cases h
  . next image himage =>
    rcases Except.bind_eq_ok.mp h with ⟨env, _, h⟩
    split at h
    . cases h
    . rcases Except.bind_eq_ok.mp h with ⟨revoked, _, h⟩
      rcases Except.bind_eq_ok.mp h with ⟨verified, hverified, h⟩
      split at h
      . cases h
      . rcases admitted_of_vetManifest h with ⟨rfl, rfl, hversion, hnewer⟩
        exact ⟨⟨image, himage, rfl⟩, ⟨revoked, hverified⟩, hversion, hnewer⟩

/- The invariant. -/

/-- The laws, and no version that was loaded is above what the floor is read as. -/
structure Invariant (cfg : Config) (w : World) : Prop where
  laws : Laws cfg w
  floor : ∀ l ∈ w.kernel, ∃ k, l.version = .int k ∧ ∀ n, readVersion w.version = .ok n → k ≤ n

theorem order_le_int (k n : ℤ)
    : (Value.int k).order .le (.int n) = some (decide (k ≤ n)) := by
  simp [Value.order, Value.scalarOrder, Value.num?, Value.OrderOp.num, Number.le, Number.lt, Number.eq, le_iff_lt_or_eq]

theorem Fresh.invariant {cfg : Config} {w : World} (h : Fresh w)
    : Invariant cfg w := by
  rcases h with ⟨hlog, hkernel⟩
  refine ⟨⟨?_, ?_, ?_⟩, ?_⟩
  . simp [hkernel]
  . rw [hlog, hkernel]
    exact .nil
  . rw [hkernel]
    exact .nil
  . simp [hkernel]

/-- A call that changes nothing but the rows of the log that are not about swaps. -/
theorem Invariant.quiet {cfg : Config} {w w' : World} (h : Invariant cfg w) (hversion : w'.version = w.version)
    (hkernel : w'.kernel = w.kernel) (hlog : w'.log.filter isSwap = w.log.filter isSwap)
    : Invariant cfg w' := by
  refine ⟨⟨?_, ?_, ?_⟩, ?_⟩
  . rw [hkernel]
    exact h.laws.verified
  . rw [hkernel, hlog]
    exact h.laws.audited
  . rw [hkernel]
    exact h.laws.rising
  . rw [hkernel, hversion]
    exact h.floor

theorem Invariant.append {cfg : Config} {w : World} (h : Invariant cfg w) (fault : Fault) {action : String}
    (haction : action ≠ "swap") (data : List (String × Value))
    : Invariant cfg (append fault action data w).2 := by
  cases fault with
  | none =>
    refine h.quiet rfl rfl ?_
    show (w.log ++ [(⟨action, data⟩ : PolicyHost.Event)]).filter isSwap = _
    simp [isSwap, haction]
  | error => exact h
  | kill => exact h

/-- The world behind a call that flipped and was audited. -/
def World.swapped (w : World) (call : SwapCall) (toHash : String) (manifest : List (String × Value)) (version : Value)
    (image : List UInt8) : World where
  version := writtenVersion version
  log := w.log ++ [⟨"swap", swapEventData call toHash manifest version⟩]
  kernel := w.kernel ++ [⟨image, manifest⟩]

theorem Invariant.swapped {cfg : Config} {w : World} (h : Invariant cfg w) {call : SwapCall} {toHash : String}
    {manifest : List (String × Value)} {k : ℤ} {image : List UInt8}
    (hadmitted : Admitted cfg call (readVersion w.version) toHash manifest (.int k))
    (hfirst : (call.files .image).image = (call.files .imageAgain).image)
    (hloader : (call.files .imageAgain).image = some image)
    : Invariant cfg (w.swapped call toHash manifest (.int k) image) := by
  rcases hadmitted.read with ⟨read, hread, rfl⟩
  rcases hadmitted.verified with ⟨revoked, hverified⟩
  rcases hadmitted.newer with ⟨n, hstored, hnewer⟩
  have hsame : read = image := by
    rw [hfirst, hloader] at hread
    cases hread
    rfl
  subst hsame
  have habove : n < k := by
    rw [order_le_int] at hnewer
    simpa using hnewer
  have hbelow : ∀ l ∈ w.kernel, ∃ k', l.version = .int k' ∧ k' < k := by
    intro l hl
    rcases h.floor l hl with ⟨k', hk', hfloor⟩
    have hle := hfloor n hstored
    exact ⟨k', hk', by omega⟩
  refine ⟨⟨?_, ?_, ?_⟩, ?_⟩
  . intro l hl
    rcases List.mem_append.mp hl with hl | hl
    . exact h.laws.verified l hl
    . cases List.mem_singleton.mp hl
      rcases (signed_of_verifyPack hverified).image with ⟨again, hagain, hdigest⟩
      rw [hloader] at hagain
      cases hagain
      exact ⟨⟨call.files, revoked, hverified⟩, hdigest⟩
  . show List.Forall₂ _ ((w.log ++ [_]).filter isSwap) (w.kernel ++ [_])
    rw [List.filter_append]
    refine List.rel_append h.laws.audited (.cons ⟨rfl, ?_⟩ .nil)
    exact hadmitted.named.symm
  . refine List.pairwise_append.mpr ⟨h.laws.rising, List.pairwise_singleton .., ?_⟩
    intro l hl l' hl'
    cases List.mem_singleton.mp hl'
    rcases hbelow l hl with ⟨k', hk', hlt⟩
    have hversion : Loaded.version ⟨read, manifest⟩ = .int k := hadmitted.named
    rw [hversion, hk', order_le_int]
    simpa using hlt
  . intro l hl
    have hwritten : ∀ n', readVersion (writtenVersion (.int k)) = .ok n' → n' = k := by
      rintro n' ⟨⟩
      rfl
    rcases List.mem_append.mp hl with hl | hl
    . rcases hbelow l hl with ⟨k', hk', hlt⟩
      refine ⟨k', hk', fun n' hn' => ?_⟩
      rw [hwritten n' hn']
      omega
    . cases List.mem_singleton.mp hl
      refine ⟨k, hadmitted.named, fun n' hn' => ?_⟩
      rw [hwritten n' hn']

/- What a call does. -/

/-- A loader that does not flip changes nothing but the log. -/
theorem load_of_not_flipped {call : SwapCall} (hflipped : flipped call = none) (faults : Faults) (toHash : String)
    (manifest : List (String × Value)) (version : Value) (w : World)
    : (load faults call toHash manifest version w).2 = w
        ∨ (load faults call toHash manifest version w).2 =
            (append (faults .failedEvent) "loader_failed" [
              ("to_hash", .str toHash), ("iface", .str call.iface), ("stderr", .str call.stderr)] w).2 := by
  have hfailed : (!succeeded call) = true := by
    rw [succeeded, hflipped, Option.isSome_none, Bool.and_false, Bool.not_false]
  have hsame : { w with kernel := w.kernel ++ ((flipped call).map fun image => ⟨image, manifest⟩).toList } = w := by
    rw [hflipped]
    simp
  unfold load
  cases faults .load with
  | error => exact .inl rfl
  | kill => exact .inl rfl
  | none =>
    rw [attempt_none_bind, hsame, if_pos hfailed, snd_bind_pure]
    exact .inr rfl

/-- A loader that flips and returns, in a call that nothing stops behind it. -/
theorem load_of_flipped {call : SwapCall} {faults : Faults} {image : List UInt8} (hflipped : flipped call = some image)
    (hunbroken : Unbroken call faults) (hload : faults .load = .none) (toHash : String)
    (manifest : List (String × Value)) (version : Value) (w : World)
    : (load faults call toHash manifest version w).2 = w.swapped call toHash manifest version image := by
  have hflips : call.loader = .flips := by
    unfold flipped at hflipped
    split at hflipped
    . next hend => exact hend
    . next hend => exact absurd hend hunbroken.returns
    . cases hflipped
  have hsucceeded : (!succeeded call) = false := by
    rw [succeeded, hflipped, hflips]
    rfl
  unfold load append
  rw [hload, attempt_none_bind, hsucceeded, if_neg Bool.false_ne_true, hunbroken.floor, attempt_none_bind,
    hunbroken.audit, attempt_none_bind, hflipped]
  rfl

theorem Invariant.load {cfg : Config} {w : World} (h : Invariant cfg w) {call : SwapCall} {faults : Faults}
    {toHash : String} {manifest : List (String × Value)} {version : Value}
    (hvet : vet cfg call (readVersion w.version) = .ok (.pass toHash manifest version))
    (hsound : Sound cfg w (.call call faults))
    : Invariant cfg (load faults call toHash manifest version w).2 := by
  cases hflipped : flipped call with
  | none =>
    rcases load_of_not_flipped hflipped faults toHash manifest version w with heq | heq
    . rw [heq]
      exact h
    . rw [heq]
      exact h.append _ (by decide) _
  | some image =>
    cases hload : faults .load with
    | error =>
      unfold NetSwap.load
      rw [hload]
      exact h
    | kill =>
      unfold NetSwap.load
      rw [hload]
      exact h
    | none =>
      have hflips : Flips cfg w call faults version := ⟨⟨toHash, manifest, hvet⟩, hload, by rw [hflipped]; rfl⟩
      rcases hsound version hflips with ⟨hunbroken, k, rfl⟩
      have himage : call.loaderImage = some image := by
        unfold flipped at hflipped
        split at hflipped
        . next read hread _ =>
          rw [hread]
          exact (Option.ite_none_right_eq_some.mp hflipped).2
        . next read hread _ =>
          rw [hread]
          exact (Option.ite_none_right_eq_some.mp hflipped).2
        . cases hflipped
      rw [load_of_flipped hflipped hunbroken hload]
      exact h.swapped (admitted_of_vet hvet) hunbroken.first (hunbroken.loader.symm.trans himage)

theorem Invariant.next {cfg : Config} {w : World} (h : Invariant cfg w) {a : Action} (hsound : Sound cfg w a)
    : Invariant cfg (next cfg w a) := by
  cases a with
  | call call faults =>
    show Invariant cfg (preloadSwap cfg faults call w).2
    unfold preloadSwap
    rw [read_bind]
    cases hvet : vet cfg call (readVersion w.version) with
    | error e =>
      rw [ofExcept_error_bind]
      exact h
    | ok verdict =>
      rw [ofExcept_ok_bind]
      cases verdict with
      | reject toHash reasons =>
        dsimp only
        unfold reject
        rw [snd_bind_pure]
        exact h.append _ (by decide) _
      | pass toHash manifest version => exact h.load hvet hsound
  | replace file =>
    refine ⟨⟨h.laws.verified, h.laws.audited, h.laws.rising⟩, fun l hl => ?_⟩
    rcases h.floor l hl with ⟨k, hk, _⟩
    refine ⟨k, hk, fun n hn => ?_⟩
    have hle := hsound l hl n hn
    rw [hk, order_le_int] at hle
    simpa using hle

end NetSwap
