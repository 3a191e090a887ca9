import PrismPath.Lib.Runs
import PrismPath.Mesh.Firmware

/-!
This module contains the version floor of a mesh node over whole runs: when it never falls, and when every table the
node flips to has had its signature checked and is newer than the floor.
-/

namespace Mesh

namespace Floor

/-- A table that was flipped to. -/
structure Activation where
  table : List UInt8
  version : UInt32
  /-- The floor in force at the flip. -/
  floor : UInt32
  /-- Whether the node had verified the table's signature. -/
  checked : Bool

/-- A node with its history. -/
structure Trail where
  node : Node
  /-- The packs whose signature the node has verified. -/
  verified : List (List UInt8 × UInt32) := []
  /-- Whether the staging slot holds a pack that was accepted from a message and not flipped to yet. -/
  fresh : Bool := false
  activations : List Activation := []

inductive Event where
  | reboot (read : Bool)
  | command (command : Command) (now : ℕ) (written : Bool)
  | receive (data : List UInt8) (now : ℕ)
  | closeWindow (now time : ℕ)
  | flip (now : ℕ) (written : Bool)

variable (f : Firmware) (nid : UInt8)

/-- The pack of a message whose signature holds. -/
def verifiedBy : Message → List (List UInt8 × UInt32)
  | .prepare _ _ version table sig => if verifyPack f table version sig then [(table, version)] else []
  | _ => []

def accepts (node : Node) : Message → Bool
  | .prepare _ _ version table sig => stages f node table version sig
  | _ => false

def Trail.flipped (t : Trail) (now : ℕ) (written : Bool) : Trail :=
  let staged := t.node.staged
  { t with
    node := flip t.node now written
    fresh := false
    activations := t.activations
      ++ [⟨staged.table, staged.version, t.node.versionFloor, decide ((staged.table, staged.version) ∈ t.verified)⟩] }

def Trail.next (t : Trail) : Event → Trail
  | .reboot read => { t with node := boot f t.node.vfloor read, fresh := false }
  | .command .rollout now written => { t with node := (command f t.node now written .rollout).1, fresh := false }
  | .command c now written => { t with node := (command f t.node now written c).1 }
  | .receive data now =>
    match received data with
    | some message =>
      { t with
        node := (handle f nid t.node now message).1
        verified := t.verified ++ verifiedBy f message
        fresh := t.fresh || accepts f t.node message }
    | none => t
  | .closeWindow now time => { t with node := (closeWindow t.node now time).1 }
  | .flip now written => if t.node.flips now then t.flipped now written else t

/-- A node that comes up with some floor in its flash. -/
def Trail.begin (vfloor : Option UInt32) : Trail where
  node := boot f vfloor true

/-- The floor in the flash. -/
def Trail.stored (t : Trail) : UInt32 :=
  t.node.vfloor.getD 0

/-- The floor is not reset, no read of it fails, and what is flipped to was accepted from a message since the last boot,
rollout and flip. -/
def Sound (t : Trail) : Event → Prop
  | .reboot read => read = true ∨ t.stored = 0
  | .command .reset _ _ => False
  | .flip now _ => t.node.flips now = true → t.fresh = true
  | _ => True

/-- Every table that was flipped to was verified, and newer than the floor. -/
def Guarded (t : Trail) : Prop :=
  ∀ a ∈ t.activations, a.checked = true ∧ a.floor < a.version

structure Invariant (t : Trail) : Prop where
  stored : t.stored ≤ t.node.versionFloor
  fresh : t.fresh = true → t.node.versionFloor < t.node.staged.version
    ∧ (t.node.staged.table, t.node.staged.version) ∈ t.verified
  guarded : Guarded t

variable {f nid}

theorem Invariant.begin (vfloor : Option UInt32)
    : Invariant (Trail.begin f vfloor) where
  stored := UInt32.le_refl _
  fresh h := by cases h
  guarded a ha := by cases ha

/- What a message does. -/

theorem floor_handle (node : Node) (now : ℕ) (message : Message)
    : (handle f nid node now message).1.versionFloor = node.versionFloor
        ∧ (handle f nid node now message).1.vfloor = node.vfloor := by
  cases message with
  | prepare seq id version table sig =>
    rw [handle]
    split <;> exact ⟨rfl, rfl⟩
  | ack seq sender =>
    rw [handle]
    split <;> exact ⟨rfl, rfl⟩
  | commit seq delay =>
    rw [handle]
    split <;> exact ⟨rfl, rfl⟩

/-- An accepted message fills the slot, and every other one leaves it as it is. -/
theorem staged_handle (node : Node) (now : ℕ) (message : Message)
    : (accepts f node message = true → node.versionFloor < (handle f nid node now message).1.staged.version
          ∧ ((handle f nid node now message).1.staged.table, (handle f nid node now message).1.staged.version)
            ∈ verifiedBy f message)
        ∧ (accepts f node message = false → (handle f nid node now message).1.staged = node.staged) := by
  cases message with
  | prepare seq id version table sig =>
    rw [accepts, handle]
    split
    . next haccepted =>
      refine ⟨fun _ => ?_, fun h => by rw [haccepted] at h; cases h⟩
      simp only [stages, Bool.and_eq_true, decide_eq_true_eq] at haccepted
      refine ⟨haccepted.2, ?_⟩
      rw [verifiedBy, if_pos haccepted.1]
      exact List.mem_singleton_self _
    . next hrefused => exact ⟨fun h => absurd h hrefused, fun _ => rfl⟩
  | ack seq sender =>
    refine ⟨fun h => absurd h Bool.false_ne_true, fun _ => ?_⟩
    rw [handle]
    split <;> rfl
  | commit seq delay =>
    refine ⟨fun h => absurd h Bool.false_ne_true, fun _ => ?_⟩
    rw [handle]
    split <;> rfl

theorem Invariant.handle {t : Trail} (h : Invariant t) (now : ℕ) (message : Message)
    : Invariant { t with
        node := (handle f nid t.node now message).1
        verified := t.verified ++ verifiedBy f message
        fresh := t.fresh || accepts f t.node message } := by
  rcases @floor_handle f nid t.node now message with ⟨hfloor, hvfloor⟩
  rcases @staged_handle f nid t.node now message with ⟨hfilled, hkept⟩
  refine ⟨?_, fun hfresh => ?_, h.guarded⟩
  . rw [Trail.stored, hfloor, hvfloor]
    exact h.stored
  . dsimp only at hfresh ⊢
    rw [hfloor]
    cases haccepts : accepts f t.node message with
    | true =>
      rcases hfilled haccepts with ⟨hnewer, hmem⟩
      exact ⟨hnewer, List.mem_append_right _ hmem⟩
    | false =>
      rw [haccepts, Bool.or_false] at hfresh
      rcases h.fresh hfresh with ⟨hnewer, hmem⟩
      rw [hkept haccepts]
      exact ⟨hnewer, List.mem_append_left _ hmem⟩

/- The other steps. -/

theorem floor_closeWindow (node : Node) (now time : ℕ)
    : (closeWindow node now time).1.versionFloor = node.versionFloor
        ∧ (closeWindow node now time).1.vfloor = node.vfloor ∧ (closeWindow node now time).1.staged = node.staged := by
  rw [closeWindow]
  split
  . split <;> exact ⟨rfl, rfl, rfl⟩
  . exact ⟨rfl, rfl, rfl⟩

/-- The flip of a pack that was accepted raises the floor to it. -/
theorem Invariant.flipped {t : Trail} (h : Invariant t) {now : ℕ} (written : Bool) (hflips : t.node.flips now = true)
    (hfresh : t.fresh = true)
    : Invariant (t.flipped now written) ∧ t.stored ≤ (t.flipped now written).stored := by
  rcases h.fresh hfresh with ⟨hnewer, hmem⟩
  have hflip : (t.flipped now written).node = flip t.node now written := rfl
  have hnode := hflip
  rw [flip, if_pos hflips] at hnode
  have hle : t.stored ≤ t.node.staged.version := UInt32.le_trans h.stored (UInt32.le_of_lt hnewer)
  have hstored : (t.flipped now written).stored = if written then t.node.staged.version else t.stored := by
    rw [Trail.stored, hnode]
    cases written <;> rfl
  refine ⟨⟨?_, fun h => absurd h Bool.false_ne_true, ?_⟩, ?_⟩
  . rw [hstored, hnode]
    split
    . exact UInt32.le_refl _
    . exact hle
  . intro a ha
    rw [Trail.flipped] at ha
    rcases List.mem_append.mp ha with hbefore | hlast
    . exact h.guarded a hbefore
    . rw [List.mem_singleton] at hlast
      rw [hlast]
      exact ⟨decide_eq_true hmem, hnewer⟩
  . rw [hstored]
    split
    . exact hle
    . exact UInt32.le_refl _

theorem Invariant.next {t : Trail} (h : Invariant t) {event : Event} (hsound : Sound t event)
    : Invariant (t.next f nid event) ∧ t.stored ≤ (t.next f nid event).stored := by
  cases event with
  | reboot read =>
    refine ⟨⟨?_, fun h => absurd h Bool.false_ne_true, h.guarded⟩, UInt32.le_refl _⟩
    show t.stored ≤ if read then t.node.vfloor.getD 0 else 0
    rcases hsound with rfl | hzero
    . exact UInt32.le_refl _
    . rw [hzero]
      exact UInt32.zero_le
  | command c now written =>
    cases c with
    | rollout => exact ⟨⟨h.stored, fun h => absurd h Bool.false_ne_true, h.guarded⟩, UInt32.le_refl _⟩
    | reset => cases hsound
    | tamper => exact ⟨⟨h.stored, h.fresh, h.guarded⟩, UInt32.le_refl _⟩
    | wrongSig => exact ⟨⟨h.stored, h.fresh, h.guarded⟩, UInt32.le_refl _⟩
  | receive data now =>
    rw [Trail.next]
    split
    . next message _ =>
      refine ⟨h.handle now message, ?_⟩
      rw [Trail.stored, Trail.stored, (floor_handle t.node now message).2]
      exact UInt32.le_refl _
    . exact ⟨h, UInt32.le_refl _⟩
  | closeWindow now time =>
    rcases floor_closeWindow t.node now time with ⟨hfloor, hvfloor, hstaged⟩
    refine ⟨⟨?_, ?_, h.guarded⟩, ?_⟩
    . rw [Trail.stored, Trail.next, hfloor, hvfloor]
      exact h.stored
    . rw [Trail.next, hfloor, hstaged]
      exact h.fresh
    . rw [Trail.stored, Trail.stored, Trail.next, hvfloor]
      exact UInt32.le_refl _
  | flip now written =>
    rw [Trail.next]
    split
    . next hflips => exact h.flipped written hflips (hsound hflips)
    . exact ⟨h, UInt32.le_refl _⟩

theorem Invariant.run {vfloor : Option UInt32} {t : Trail} (hrun : Runs (Trail.next f nid) Sound (.begin f vfloor) t)
    : Invariant t :=
  Runs.invariant hrun (.begin vfloor) fun _ _ h hsound => (h.next hsound).1

/-- The floor in the flash never falls, and every table flipped to was verified and newer than the floor. -/
theorem floor_never_falls {vfloor : Option UInt32} {s t : Trail}
    (hs : Runs (Trail.next f nid) Sound (.begin f vfloor) s) (ht : Runs (Trail.next f nid) Sound s t)
    : s.stored ≤ t.stored ∧ Guarded t := by
  have hinvariant : Invariant t ∧ s.stored ≤ t.stored := by
    refine Runs.invariant (I := fun t => Invariant t ∧ s.stored ≤ t.stored) ht ⟨.run hs, UInt32.le_refl _⟩ ?_
    intro t event ⟨h, hle⟩ hsound
    rcases h.next hsound with ⟨hnext, hnextLe⟩
    exact ⟨hnext, UInt32.le_trans hle hnextLe⟩
  exact ⟨hinvariant.2, hinvariant.1.guarded⟩

/-- A node that stages the second policy at another's word, flips to it and comes up again. -/
def pushed : List Event :=
  [.receive (Message.prepare 1 tableB.id tableB.version tableB.table tableB.sig).bytes 0,
    .receive (Message.commit 1 120).bytes 1000, .flip 200000 true, .reboot true]

theorem floor_never_falls_pushed
    : (Trail.begin tables none).stored ≤ (pushed.foldl (Trail.next tables 7) (.begin tables none)).stored
        ∧ Guarded (pushed.foldl (Trail.next tables 7) (.begin tables none)) := by
  refine floor_never_falls .refl (Runs.foldl _ _ fun pre event post heq => ?_)
  rcases pre with _ | ⟨a, _ | ⟨b, _ | ⟨c, _ | ⟨e, pre⟩⟩⟩⟩
  . cases heq
    exact trivial
  . cases heq
    exact trivial
  . cases heq
    intro _
    decide +kernel
  . cases heq
    exact .inl rfl
  . simp [pushed] at heq

/-- A node leads a rollout of the second policy, and then one back to the first. -/
def ledTwice : List Event :=
  [.command .rollout 0 true, .receive (Message.ack 1 1).bytes 1000, .receive (Message.ack 1 2).bytes 1000,
    .closeWindow 500000 500000, .flip 620000 true,
    .command .rollout 700000 true, .receive (Message.ack 2 1).bytes 701000, .receive (Message.ack 2 2).bytes 701000,
    .closeWindow 1200000 1200000, .flip 1320000 true]

/-- The coordinator checks neither the signature nor the version of what it rolls out itself. -/
theorem floor_falls
    : ((ledTwice.take 5).foldl (Trail.next tables 7) (.begin tables none)).stored = 2
        ∧ (ledTwice.foldl (Trail.next tables 7) (.begin tables none)).stored = 1
        ∧ ¬ Guarded (ledTwice.foldl (Trail.next tables 7) (.begin tables none)) := by
  refine ⟨by with_unfolding_all decide, by with_unfolding_all decide, fun h => ?_⟩
  have hunchecked : (ledTwice.foldl (Trail.next tables 7) (.begin tables none)).activations.any (fun a => !a.checked) = true := by
    with_unfolding_all decide
  rcases List.any_eq_true.mp hunchecked with ⟨a, ha, hchecked⟩
  rw [(h a ha).1] at hchecked
  cases hchecked

end Floor

end Mesh
