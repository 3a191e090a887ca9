import PrismPath.Hotswap.ExecutedText
import Mathlib.Logic.Function.Basic

/-!
This module contains the version floor of flows over calls of several processes: each call reads the floor file,
checks its flow against what it read, and stores the whole file.
-/

open Python PolicyPack

namespace FlowAuthority

/-- Where a call of `authorize_flow` stands. -/
inductive Local where
  | idle
  | loaded (entries : Entries)
  | passed (entries : Entries) (manifest : List (String × Value)) (version : ℤ) (required : Bool)

/-- The floor file, empty when it does not exist, and the calls of the processes that share it. -/
structure Shared (P : Type) where
  file : Entries
  calls : P → Local

/-- A flow name and a version. -/
abbrev Release : Type := String × ℤ

def release (lib : Library) (manifest : List (String × Value)) (version : ℤ) : Release :=
  (flowName lib manifest, version)

variable {P : Type} [DecidableEq P]

/-- The file after a call is done: a required check stores the entries it raised. -/
def storedFile (lib : Library) (file entries : Entries) (manifest : List (String × Value)) (version : ℤ)
    (required : Bool) : Entries :=
  if required then (accept lib entries manifest version).getD file else file

/-- One step of one process, with the release it authorizes and whether it accepts it. -/
inductive Step (lib : Library) (s : Shared P) : P → Option (Release × Bool) → Shared P → Prop
  | load {p : P}
      : s.calls p = .idle → Step lib s p none { s with calls := Function.update s.calls p (.loaded s.file) }
  | check {p : P} {entries : Entries} (policy : AuthorizationPolicy) {files : Moment → Files}
      {manifest : List (String × Value)} {version : ℤ}
      : s.calls p = .loaded entries →
        verifyFlow lib policy.pubs policy.revoked files entries = .ok (.accepted manifest version) →
        Step lib s p none
          { s with calls := Function.update s.calls p (.passed entries manifest version policy.required) }
  | store {p : P} {entries : Entries} {manifest : List (String × Value)} {version : ℤ} {required : Bool}
      : s.calls p = .passed entries manifest version required →
        Step lib s p (some (release lib manifest version, required)) {
          file := storedFile lib s.file entries manifest version required
          calls := Function.update s.calls p .idle
        }
  /-- A call that is refused, raises, or is killed. -/
  | quit {p : P}
      : Step lib s p none { s with calls := Function.update s.calls p .idle }

/-- The accepted releases after a step. -/
def acceptedAfter (accepted : List Release) : Option (Release × Bool) → List Release
  | some (r, true) => r :: accepted
  | _ => accepted

def floor? (entries : Entries) (name : String) : Option ℤ :=
  (entries.lookup name).map Entry.version

/-- The releases a floor file holds. -/
def releases (entries : Entries) : List Release :=
  entries.filterMap fun p => (floor? entries p.1).map fun version => (p.1, version)

/-- The runs from any floor file whose steps all meet `Ok`, with the releases accepted so far. -/
inductive Runs (lib : Library) (Ok : Shared P → P → Option (Release × Bool) → Prop)
    : Shared P → List Release → Prop
  | fresh (file : Entries) : Runs lib Ok ⟨file, fun _ => .idle⟩ (releases file)
  | step {s s' : Shared P} {accepted : List Release} {p : P} {label : Option (Release × Bool)}
      : Runs lib Ok s accepted → Step lib s p label s' → Ok s p label → Runs lib Ok s' (acceptedAfter accepted label)

def Below (entries file : Entries) : Prop :=
  ∀ name version, floor? entries name = some version → ∃ floor, floor? file name = some floor ∧ version ≤ floor

/--
What a step has to keep: no floor of the file falls, every accepted release stays at or below the floor, and
what is authorized is not below a release of its flow that was accepted before.
-/
structure Kept (s s' : Shared P) (accepted : List Release) (label : Option (Release × Bool)) : Prop where
  rises : Below s.file s'.file
  kept : ∀ r ∈ acceptedAfter accepted label, ∃ floor, floor? s'.file r.1 = some floor ∧ r.2 ≤ floor
  above : ∀ r required, label = some (r, required) → ∀ other ∈ accepted, other.1 = r.1 → other.2 ≤ r.2

/--
A call ends on a file that moved on no further than it may: the floor of its own flow is not above its version,
and, when it stores, the floor of no other flow is above what it had read.
-/
def Fresh (lib : Library) (s : Shared P) (p : P) (label : Option (Release × Bool)) : Prop :=
  match s.calls p, label with
  | .passed entries manifest version required, some _ =>
    (∀ floor, floor? s.file (flowName lib manifest) = some floor → floor ≤ version)
      ∧ (required = true → (accept lib entries manifest version).isSome = true →
          ∀ name, name ≠ flowName lib manifest → ∀ floor, floor? s.file name = some floor →
            ∃ version, floor? entries name = some version ∧ floor ≤ version)
  | _, _ => True

/-- A call that is not disturbed is `authorizeFlow` on the file it finds. -/
theorem steps_of_authorizeFlow {lib : Library} {policy : AuthorizationPolicy} {instanceKeyId : Option String}
    {files : Moment → Files} {s : Shared P} {p : P} {authorization : Authorization} {written : Option Entries}
    (hidle : s.calls p = .idle)
    (h : authorizeFlow lib policy instanceKeyId (.ok s.file) files = .ok (authorization, written))
    (hverified : authorization.status = .verified)
    : ∃ s₁ s₂ s₃ r, Step lib s p none s₁ ∧ Step lib s₁ p none s₂ ∧ Step lib s₂ p (some (r, policy.required)) s₃
        ∧ s₃.file = written.getD s.file := by
  rcases verified_of_authorizeFlow h hverified with ⟨entries, manifest, version, hfloor, hcheck, _, rfl⟩
  cases hfloor
  refine ⟨_, _, _, _, .load hidle, .check policy (Function.update_self p _ _) hcheck, .store (Function.update_self p _ _), ?_⟩
  simp only [storedFile]
  split <;> rfl

theorem mem_releases {file : Entries} {r : Release}
    : r ∈ releases file ↔ floor? file r.1 = some r.2 := by
  rcases r with ⟨name, version⟩
  simp only [releases, List.mem_filterMap, Option.map_eq_some_iff, Prod.mk.injEq]
  constructor
  . rintro ⟨⟨key, entry⟩, _, floor, hfloor, rfl, rfl⟩
    exact hfloor
  . intro hfloor
    rcases Option.map_eq_some_iff.mp hfloor with ⟨entry, hentry, _⟩
    rcases List.lookup_eq_some_iff.mp hentry with ⟨before, after, rfl, _⟩
    exact ⟨(name, entry), by simp, version, hfloor, rfl, rfl⟩

theorem Below.refl (file : Entries)
    : Below file file :=
  fun _ version h => ⟨version, h, le_refl version⟩

theorem Below.trans {entries file file' : Entries} (h : Below entries file) (h' : Below file file')
    : Below entries file' := by
  intro name version hversion
  rcases h name version hversion with ⟨floor, hfloor, hle⟩
  rcases h' name floor hfloor with ⟨floor', hfloor', hle'⟩
  exact ⟨floor', hfloor', hle.trans hle'⟩

/-- The entries a call works on. -/
def Local.entries? : Local → Option Entries
  | .idle => none
  | .loaded entries => some entries
  | .passed entries _ _ _ => some entries

structure Inv (s : Shared P) (accepted : List Release) : Prop where
  kept : ∀ r ∈ accepted, ∃ floor, floor? s.file r.1 = some floor ∧ r.2 ≤ floor
  held : ∀ name floor, floor? s.file name = some floor → (name, floor) ∈ accepted
  read : ∀ p entries, (s.calls p).entries? = some entries → Below entries s.file

/-- Storing raises the floor of the flow to its version, and leaves the other floors as they were read. -/
theorem floor?_accept {lib : Library} {entries raised : Entries} {manifest : List (String × Value)} {version : ℤ}
    (h : accept lib entries manifest version = some raised)
    : floor? raised (flowName lib manifest) = some version
        ∧ ∀ name, name ≠ flowName lib manifest → floor? raised name = floor? entries name := by
  have hraised : raised = Dict.set entries (flowName lib manifest) (newEntry lib manifest version) := by
    unfold accept at h
    split at h
    . cases h; rfl
    . split at h
      . cases h
      . cases h; rfl
  subst hraised
  refine ⟨?_, fun name hne => ?_⟩
  . simp only [floor?, Dict.lookup_set_self, Option.map_some, newEntry]
  . simp only [floor?, Dict.lookup_set_of_ne entries _ hne]

/-- Nothing is stored when the floor that was read is there already. -/
theorem le_of_accept_none {lib : Library} {entries : Entries} {manifest : List (String × Value)} {version : ℤ}
    (h : accept lib entries manifest version = none)
    : ∃ floor, floor? entries (flowName lib manifest) = some floor ∧ version ≤ floor := by
  unfold accept at h
  split at h
  . cases h
  . next entry hentry =>
    split at h
    . next hle => exact ⟨entry.version, by rw [floor?, hentry]; rfl, hle⟩
    . cases h

theorem below_of_fresh {lib : Library} {file entries : Entries} {manifest : List (String × Value)}
    {version : ℤ} {required : Bool}
    (hown : ∀ floor, floor? file (flowName lib manifest) = some floor → floor ≤ version)
    (hother : required = true → (accept lib entries manifest version).isSome = true →
      ∀ name, name ≠ flowName lib manifest → ∀ floor, floor? file name = some floor →
        ∃ version, floor? entries name = some version ∧ floor ≤ version)
    : Below file (storedFile lib file entries manifest version required) := by
  unfold storedFile
  cases hrequired : required with
  | false => exact .refl file
  | true =>
    cases haccept : accept lib entries manifest version with
    | none => exact .refl file
    | some raised =>
      rcases floor?_accept haccept with ⟨hself, hothers⟩
      intro name floor hfloor
      by_cases hname : name = flowName lib manifest
      . subst hname
        exact ⟨version, hself, hown floor hfloor⟩
      . rcases hother hrequired (by rw [haccept]; rfl) name hname floor hfloor with ⟨read, hread, hle⟩
        exact ⟨read, (hothers name hname).trans hread, hle⟩

theorem kept_of_below {accepted : List Release} {file file' : Entries}
    (hkept : ∀ r ∈ accepted, ∃ floor, floor? file r.1 = some floor ∧ r.2 ≤ floor) (hbelow : Below file file')
    : ∀ r ∈ accepted, ∃ floor, floor? file' r.1 = some floor ∧ r.2 ≤ floor := by
  intro r hr
  rcases hkept r hr with ⟨floor, hfloor, hle⟩
  rcases hbelow r.1 floor hfloor with ⟨floor', hfloor', hle'⟩
  exact ⟨floor', hfloor', hle.trans hle'⟩

theorem kept_iff {lib : Library} {s s' : Shared P} {accepted : List Release} {p : P}
    {label : Option (Release × Bool)} (hinv : Inv s accepted) (hstep : Step lib s p label s')
    : Kept s s' accepted label ↔ Fresh lib s p label := by
  have hsilent {s' : Shared P} (hfile : s'.file = s.file) : Kept s s' accepted none := by
    refine ⟨by rw [hfile]; exact .refl s.file, ?_, by simp⟩
    rw [hfile]
    exact hinv.kept
  cases hstep with
  | load hidle => exact iff_of_true (hsilent rfl) (by simp [Fresh])
  | check _ hloaded => exact iff_of_true (hsilent rfl) (by simp [Fresh])
  | quit => exact iff_of_true (hsilent rfl) (by simp [Fresh])
  | @store entries manifest version required hpassed =>
    have hread : Below entries s.file := hinv.read p entries (by rw [hpassed]; rfl)
    simp only [Fresh, hpassed]
    constructor
    . intro hkept
      refine ⟨fun floor hfloor => ?_, fun hrequired haccept name hname floor hfloor => ?_⟩
      . exact hkept.above _ _ rfl (flowName lib manifest, floor) (hinv.held _ _ hfloor) rfl
      . rcases Option.isSome_iff_exists.mp haccept with ⟨raised, hraised⟩
        rcases hkept.rises name floor hfloor with ⟨floor', hfloor', hle⟩
        rw [storedFile, if_pos hrequired, hraised, Option.getD_some, (floor?_accept hraised).2 name hname] at hfloor'
        exact ⟨floor', hfloor', hle⟩
    . rintro ⟨hown, hother⟩
      have hbelow := below_of_fresh hown hother
      have hold := kept_of_below hinv.kept hbelow
      refine ⟨hbelow, ?_, ?_⟩
      . intro r hr
        cases hrequired : required with
        | false =>
          rw [hrequired] at hr hold
          exact hold r hr
        | true =>
          rw [hrequired] at hr hold
          rcases List.mem_cons.mp hr with rfl | hr
          . -- the release just accepted: stored, or read at its floor
            cases haccept : accept lib entries manifest version with
            | some raised =>
              refine ⟨version, ?_, le_refl version⟩
              rw [storedFile, if_pos rfl, haccept]
              exact (floor?_accept haccept).1
            | none =>
              rcases le_of_accept_none haccept with ⟨floor, hfloor, hle⟩
              rcases hread _ _ hfloor with ⟨floor', hfloor', hle'⟩
              refine ⟨floor', ?_, hle.trans hle'⟩
              rw [storedFile, if_pos rfl, haccept]
              exact hfloor'
          . exact hold r hr
      . intro r required' hlabel other hother' hname
        cases hlabel
        rcases hinv.kept other hother' with ⟨floor, hfloor, hle⟩
        rw [hname] at hfloor
        exact hle.trans (hown floor hfloor)

theorem read_update {s : Shared P} {p q : P} {call : Local} {file : Entries} (hbelow : Below s.file file)
    (hread : ∀ q entries, (s.calls q).entries? = some entries → Below entries s.file)
    (hcall : ∀ entries, call.entries? = some entries → Below entries s.file) {entries : Entries}
    (h : (Function.update s.calls p call q).entries? = some entries)
    : Below entries file := by
  by_cases hq : q = p
  . subst hq
    rw [Function.update_self] at h
    exact (hcall entries h).trans hbelow
  . rw [Function.update_of_ne hq] at h
    exact (hread q entries h).trans hbelow

theorem inv_step {lib : Library} {s s' : Shared P} {accepted : List Release} {p : P}
    {label : Option (Release × Bool)} (hinv : Inv s accepted) (hstep : Step lib s p label s')
    (hfresh : Fresh lib s p label)
    : Inv s' (acceptedAfter accepted label) := by
  have hkept := (kept_iff hinv hstep).mpr hfresh
  refine ⟨hkept.kept, ?_, ?_⟩
  . cases hstep with
    | load => exact hinv.held
    | check => exact hinv.held
    | quit => exact hinv.held
    | @store entries manifest version required hpassed =>
      simp only [Fresh, hpassed] at hfresh
      intro name floor hfloor
      cases hrequired : required with
      | false =>
        simp only [storedFile, hrequired, Bool.false_eq_true, if_false] at hfloor
        exact hinv.held name floor hfloor
      | true =>
        simp only [acceptedAfter, List.mem_cons]
        cases haccept : accept lib entries manifest version with
        | none =>
          simp only [storedFile, hrequired, if_true, haccept, Option.getD_none] at hfloor
          exact .inr (hinv.held name floor hfloor)
        | some raised =>
          simp only [storedFile, hrequired, if_true, haccept, Option.getD_some] at hfloor
          rcases floor?_accept haccept with ⟨hself, hothers⟩
          by_cases hname : name = flowName lib manifest
          . subst hname
            rw [hself] at hfloor
            exact .inl (congrArg (Prod.mk _) (Option.some.inj hfloor).symm)
          . -- what was read of the other flows is what the file holds of them
            rw [hothers name hname] at hfloor
            rcases hinv.read p entries (by rw [hpassed]; rfl) name floor hfloor with ⟨floor', hfloor', hle⟩
            rcases hfresh.2 hrequired (by rw [haccept]; rfl) name hname floor' hfloor' with ⟨read, hread, hle'⟩
            cases hfloor.symm.trans hread
            rw [le_antisymm hle hle']
            exact .inr (hinv.held name floor' hfloor')
  . intro q entries hq
    cases hstep with
    | load => exact read_update (.refl s.file) hinv.read (fun _ h => by cases h; exact .refl s.file) hq
    | check _ hloaded =>
      exact read_update (.refl s.file) hinv.read (fun _ h => hinv.read p _ (by rw [hloaded]; exact h)) hq
    | quit => exact read_update (.refl s.file) hinv.read (fun _ h => by cases h) hq
    | store => exact read_update hkept.rises hinv.read (fun _ h => by cases h) hq

theorem inv_runs {lib : Library} {s : Shared P} {accepted : List Release}
    (h : Runs lib (Fresh lib) s accepted)
    : Inv s accepted := by
  induction h with
  | fresh file =>
    refine ⟨fun r hr => ⟨r.2, mem_releases.mp hr, le_refl _⟩, fun name floor hfloor => mem_releases.mpr hfloor,
      fun p entries h => (by cases h)⟩
  | step _ hstep hfresh ih => exact inv_step ih hstep hfresh

/--
Floors across processes: in a run whose calls all end on a file that has not moved past them, every accepted
release stays at or below the floor of its flow, and a step keeps this exactly when its call ends so too.
-/
theorem floors_kept (lib : Library) (s : Shared P) (accepted : List Release) (hrun : Runs lib (Fresh lib) s accepted)
    : (∀ r ∈ accepted, ∃ floor, floor? s.file r.1 = some floor ∧ r.2 ≤ floor)
        ∧ ∀ p label s', Step lib s p label s' → (Kept s s' accepted label ↔ Fresh lib s p label) :=
  ⟨(inv_runs hrun).kept, fun _ _ _ => kept_iff (inv_runs hrun)⟩

/- Two processes read an empty floor file, and accept the flow at version 10 and then at version 1. -/

theorem append_ne (head tail : String)
    : head ++ "10" ++ tail ≠ head ++ "1" ++ tail := by
  intro h
  have hlength := congrArg String.length h
  simp only [String.length_append] at hlength
  have hten : "10".length = 2 := rfl
  have hone : "1".length = 1 := rfl
  omega

theorem loads_ten
    : flowLibrary.loads (manifestText "10") = some (.dict (flowManifest 10)) := by
  have hne : manifestText "10" ≠ manifestText "1" := append_ne manifestHead "\x7d"
  simp only [flowLibrary, hne, if_false, if_true]

/-- An undisturbed call of one process that accepts a version over the file it has read. -/
theorem store_run {Ok : Shared Bool → Bool → Option (Release × Bool) → Prop} {s : Shared Bool}
    {accepted : List Release} {p : Bool} {text : String} {sig : List UInt8} {version : ℤ}
    (hrun : Runs flowLibrary Ok s accepted) (hloaded : s.calls p = .loaded [])
    (hloads : flowLibrary.loads text = some (.dict (flowManifest version)))
    (hsig : sig = flowSigOne ∨ sig = flowSigTen) (hcheck : Ok s p none)
    (hstore : Ok { s with calls := Function.update s.calls p (.passed [] (flowManifest version) version true) } p
      (some (("one", version), true)))
    : ∃ entries, floor? entries "one" = some version
        ∧ Runs flowLibrary Ok ⟨entries, Function.update s.calls p .idle⟩ (("one", version) :: accepted) := by
  have hverified := verifyFlow_signed (fun _ => flowFiles flowOne text sig) [] (fun _ _ => rfl) hloads hsig rfl
  have hchecked := Runs.step hrun (.check flowPolicy hloaded hverified) hcheck
  have hstored := Runs.step hchecked (.store (Function.update_self p _ _)) hstore
  rw [Function.update_idem] at hstored
  have haccept : accept flowLibrary [] (flowManifest version) version
      = some (Dict.set [] "one" (newEntry flowLibrary (flowManifest version) version)) := rfl
  refine ⟨_, ?_, hstored⟩
  simp only [storedFile, flowPolicy, if_true, haccept, Option.getD_some]
  exact (floor?_accept haccept).1

theorem accepted_release_lost
    : ¬ ∀ (P : Type) (_ : DecidableEq P) (lib : Library) (s : Shared P) (accepted : List Release),
        Runs lib (fun _ _ _ => True) s accepted →
          ∀ r ∈ accepted, ∃ floor, floor? s.file r.1 = some floor ∧ r.2 ≤ floor := by
  intro hclaim
  have hfresh : Runs flowLibrary (fun _ _ _ => True) ⟨[], fun _ : Bool => .idle⟩ [] := .fresh []
  have hfirst := Runs.step hfresh (.load (p := false) rfl) trivial
  have hsecond := Runs.step hfirst (.load (p := true) rfl) trivial
  rcases store_run (p := false) hsecond rfl loads_ten (.inr rfl) trivial trivial with ⟨entries, _, hten⟩
  rcases store_run (p := true) hten rfl loads_one (.inl rfl) trivial trivial with ⟨entries', hone, hrun⟩
  rcases hclaim Bool _ _ _ _ hrun ("one", 10) (by simp) with ⟨floor, hfloor, hle⟩
  cases hone.symm.trans hfloor
  revert hle
  decide

/-- One process accepts the flow at version 1. -/
theorem floors_kept_one
    : ∃ (s : Shared Bool) (accepted : List Release), ("one", 1) ∈ accepted
        ∧ (∀ r ∈ accepted, ∃ floor, floor? s.file r.1 = some floor ∧ r.2 ≤ floor)
        ∧ ∀ p label s', Step flowLibrary s p label s' → (Kept s s' accepted label ↔ Fresh flowLibrary s p label) := by
  have hfresh : Runs flowLibrary (Fresh flowLibrary) ⟨[], fun _ : Bool => .idle⟩ [] := .fresh []
  have hloaded := Runs.step hfresh (.load (p := true) rfl) trivial
  have hstore : Fresh flowLibrary ⟨[], Function.update (Function.update (fun _ : Bool => Local.idle) true (.loaded []))
      true (.passed [] (flowManifest 1) 1 true)⟩ true (some (("one", 1), true)) := by
    simp [Fresh, floor?]
  rcases store_run (p := true) hloaded rfl loads_one (.inl rfl) trivial hstore with ⟨entries, _, hrun⟩
  exact ⟨_, _, by simp, floors_kept flowLibrary _ _ hrun⟩

end FlowAuthority
