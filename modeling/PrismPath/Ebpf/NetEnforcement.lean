import PrismPath.Ebpf.NetWhole

/-!
This module contains inline enforcement on network packets: the mask is computed from the names of one policy, and an
update carries it over to the indices of the next.
-/

open TableFormat Evaluator PptImage PptKernel PptSelect

namespace PptNet

def isDropName (name : String) : Bool :=
  name = "drop" || name = "block"

/-- The bits of the first 64 names that say so. -/
def namesMask (names : List String) : Nat :=
  (names.take 64).zipIdx.foldl (fun mask (name, index) => if isDropName name then mask ||| 2 ^ index else mask) 0

/-- `config_set_drop_mask` -/
def configSetDropMask (m : Maps) (names : List String) : Maps :=
  let config : Config := m (.config 0)
  m.write ⟨.config 0, { config with dropMask := namesMask names }⟩

/-- `net_attach`, with the names of the policy: into the first bank of maps that start out zeroed. -/
def netAttach (hash : List UInt8 → Nat) (im : Image) (names : List String) : Maps :=
  configSetDropMask (populateMaps hash im noMaps) names

/-- The verdict on a packet after a policy was attached and then updated to another. -/
def verdictAfterUpdate (hash : List UInt8 → Nat) (old new : Policy) (names : List String) (regs : Nat → Reg) : Verdict :=
  let (maps, bank) := netUpdate hash (netAttach hash old.1 names) 0 new.1
  Reading.run (maps.lookup 2) (netVerdict regs bank)

/-- The node with this index has a name that asks for a drop. -/
def Named (names : List String) (index : Nat) : Prop :=
  ∃ name, names[index]? = some name ∧ isDropName name = true

/-- The policy routes the packet to this node. -/
def Routes (policy : Policy) (regs : Nat → Reg) (target : Nat) : Prop :=
  ∃ edge, Unclamped policy.1 regs netFields policy.1.start (some (edge, target))

/-- The packet is dropped exactly when the new policy routes it to a node that its own names say to drop. -/
def EnforcedByName (hash : List UInt8 → Nat) (old new : Policy) (names newNames : List String) (regs : Nat → Reg)
    : Prop :=
  (verdictAfterUpdate hash old new names regs).drop = true ↔ ∃ target, Routes new regs target ∧ Named newNames target

/--
Wherever the row at the start index leads (the index is cut to the size of the table), the old names and the new ones
agree on that index.
-/
def SameDrop (new : Policy) (names newNames : List String) (regs : Nat → Reg) : Prop :=
  ∀ edge target, Unclamped new.1 regs netFields (new.1.start % maxNodes) (some (edge, target)) →
    ((target < 64 ∧ Named names target) ↔ (new.1.start < new.1.nodes.length ∧ Named newNames target))

@[simp]
theorem named_cons_zero (name : String) (names : List String)
    : Named (name :: names) 0 ↔ isDropName name = true := by
  simp [Named]

@[simp]
theorem named_cons_succ (name : String) (names : List String) (index : Nat)
    : Named (name :: names) (index + 1) ↔ Named names index := by
  simp [Named]

theorem testBit_foldl_names (names : List String) (index mask bit : Nat)
    : ((names.zipIdx index).foldl
          (fun mask (name, index) => if isDropName name then mask ||| 2 ^ index else mask) mask).testBit bit = true
        ↔ mask.testBit bit = true ∨ (index ≤ bit ∧ Named names (bit - index)) := by
  induction names generalizing index mask with
  | nil => simp [Named]
  | cons name names ih =>
    rw [List.zipIdx_cons, List.foldl_cons, ih]
    dsimp only
    rcases Nat.lt_trichotomy bit index with hlt | rfl | hgt
    . have hbit : (2 ^ index).testBit bit = false := Nat.testBit_two_pow_of_ne (by omega)
      have hsame : (if isDropName name then mask ||| 2 ^ index else mask).testBit bit = mask.testBit bit := by
        split
        . rw [Nat.testBit_or, hbit, Bool.or_false]
        . rfl
      rw [hsame]
      simp only [show ¬ index + 1 ≤ bit by omega, show ¬ index ≤ bit by omega, false_and]
    . rw [Nat.sub_self, named_cons_zero]
      split
      . next hname => simp [hname]
      . next hname => simp [hname]
    . have hbit : (2 ^ index).testBit bit = false := Nat.testBit_two_pow_of_ne (by omega)
      have hsame : (if isDropName name then mask ||| 2 ^ index else mask).testBit bit = mask.testBit bit := by
        split
        . rw [Nat.testBit_or, hbit, Bool.or_false]
        . rfl
      obtain ⟨k, rfl⟩ : ∃ k, bit = index + (k + 1) := ⟨bit - index - 1, by omega⟩
      rw [hsame, show index + (k + 1) - (index + 1) = k by omega, show index + (k + 1) - index = k + 1 by omega,
        named_cons_succ]
      simp only [show index + 1 ≤ index + (k + 1) by omega, show index ≤ index + (k + 1) by omega, true_and]

theorem testBit_namesMask (names : List String) (bit : Nat)
    : (namesMask names).testBit bit = true ↔ bit < 64 ∧ Named names bit := by
  unfold namesMask
  rw [testBit_foldl_names]
  simp only [Nat.zero_testBit, Bool.false_eq_true, false_or, Nat.zero_le, true_and, Nat.sub_zero, Named,
    List.getElem?_take]
  split
  . next hlt => simp [hlt]
  . next hge => simp [hge]

/- The banks after an update. -/

section

variable (hash : List UInt8 → Nat) (old new : Policy) (names : List String)

/-- The maps after the update, whose second bank is in force. -/
def updatedMaps : Maps :=
  writeBank hash (netAttach hash old.1 names) 1 new.1

theorem config_netAttach
    : netAttach hash old.1 names (.config 0) = configOf hash old.1 (namesMask names) := by
  have hattached := config_populateMaps hash old.1 noMaps
  unfold netAttach configSetDropMask
  rw [hattached]
  exact Function.update_self ..

/-- The update carries the mask of the old names over. -/
theorem config_updatedMaps
    : updatedMaps hash old new names (.config 1) = configOf hash new.1 (namesMask names) := by
  rcases new.2 with ⟨data, hparse⟩
  have hkeep
      : (netAttach hash old.1 names).writes (tableWrites new.1 1) (.config 0) = configOf hash old.1 (namesMask names) := by
    rw [← config_netAttach]
    refine writes_of_ne fun w hw heq => ?_
    have hbank := ofBank_of_mem_tableWrites (accepted_of_parse hparse) hw
    rw [heq] at hbank
    cases hbank
  unfold updatedMaps writeBank
  rw [hkeep]
  exact Function.update_self ..

theorem holds_updatedMaps
    : Holds (updatedMaps hash old new names) 1 new.1 :=
  holds_write_config (holds_of_tableWrites _ 1 new.1) 1 _

/-- A row of the second bank past the table is still zero. -/
theorem node_updatedMaps {index : Nat} (hindex : index < maxNodes) (hpast : new.1.nodes.length ≤ index)
    : updatedMaps hash old new names (.node (1 * maxNodes + index)) = (⟨0, 0⟩ : Node) := by
  rcases old.2 with ⟨data, hparse⟩
  have hnew : ∀ w ∈ tableWrites new.1 1, w.key ≠ .node (1 * maxNodes + index) := by
    intro w hw heq
    rcases mem_tableWrites.mp hw with ⟨i, _, _, rfl⟩ | ⟨i, _, hget, rfl⟩ | ⟨i, _, _, rfl⟩ | ⟨i, _, _, rfl⟩
    . cases heq
    . have hi : i < new.1.nodes.length := (List.getElem?_eq_some_iff.mp hget).1
      have hindices : 1 * maxNodes + i = 1 * maxNodes + index := Key.node.inj heq
      omega
    . cases heq
    . cases heq
  have hold : ∀ w ∈ tableWrites old.1 0, w.key ≠ .node (1 * maxNodes + index) := by
    intro w hw heq
    have hbank := ofBank_of_mem_tableWrites (accepted_of_parse hparse) hw
    have hother : ofBank 1 w.key := by
      rw [heq]
      exact div_span hindex
    cases ofBank_unique hbank hother
  have hconfig (m : Maps) (bank : Nat) (config : Config)
      : m.write ⟨.config bank, config⟩ (.node (1 * maxNodes + index)) = m (.node (1 * maxNodes + index)) :=
    write_of_ne (by simp)
  unfold updatedMaps writeBank netAttach configSetDropMask populateMaps populateWrites
  rw [hconfig, writes_of_ne hnew, hconfig]
  exact (writes_of_ne hold).trans (hconfig noMaps 0 _)

end

/- The verdict. -/

/-- The mask of the index is where the index is used. -/
theorem lookupNode_mod (bank index : Nat)
    : lookupNode bank (index % maxNodes) = lookupNode bank index := by
  rw [lookupNode, Nat.mod_mod, ← lookupNode]

section

variable (hash : List UInt8 → Nat) (old new : Policy) (names : List String) (regs : Nat → Reg)

/-- The answer of the updated program: that of the row its start index is cut to, if the table has that row. -/
theorem evaluate_updatedMaps
    : ∃ answer, Reading.run ((updatedMaps hash old new names).lookup 2) (evaluate regs netFields 1 new.1.start) = answer
        ∧ ∀ edge target, answer = some (edge, target) ↔
            Unclamped new.1 regs netFields (new.1.start % maxNodes) (some (edge, target)) := by
  rcases new.2 with ⟨data, hparse⟩
  have him := accepted_of_parse hparse
  have hcut
      : evaluate regs netFields 1 new.1.start = evaluate regs netFields 1 (new.1.start % maxNodes) := by
    unfold PptKernel.evaluate
    rw [lookupNode_mod]
  rw [hcut]
  by_cases hrow : new.1.start % maxNodes < new.1.nodes.length
  . have hunclamped := unclamped_run him (List.getElem?_eq_getElem hrow) regs netFields
      (holds_updatedMaps hash old new names) one_lt_two le_rfl
    refine ⟨_, rfl, fun edge target => ⟨fun heq => heq ▸ hunclamped, fun h => ?_⟩⟩
    exact unclamped_unique hunclamped h
  . refine ⟨none, ?_, fun edge target => iff_of_false (by simp) ?_⟩
    . have hlookup
          : Reading.run ((updatedMaps hash old new names).lookup 2) (lookupNode 1 (new.1.start % maxNodes)) =
              some ⟨0, 0⟩ := by
        have hlt : new.1.start % maxNodes < maxNodes := Nat.mod_lt _ (by decide)
        have hinside : Key.inside 2 (.node (1 * maxNodes + new.1.start % maxNodes)) := lt_span one_lt_two hlt
        rw [lookupNode, bankBase_add one_lt_two le_rfl hlt]
        exact (run_get_of_inside hinside).trans (congrArg some (node_updatedMaps hash old new names hlt (by omega)))
      unfold PptKernel.evaluate
      rw [Reading.run_bind, hlookup]
      rfl
    . rintro ⟨node, _, hnode, _⟩
      rw [List.getElem?_eq_none (by omega)] at hnode
      cases hnode

end

theorem verdictAfterUpdate_drop (hash : List UInt8 → Nat) (old new : Policy) (names : List String) (regs : Nat → Reg)
    : (verdictAfterUpdate hash old new names regs).drop = true ↔
        ∃ edge target, Unclamped new.1 regs netFields (new.1.start % maxNodes) (some (edge, target))
          ∧ target < 64 ∧ Named names target := by
  rcases evaluate_updatedMaps hash old new names regs with ⟨answer, hrun, hanswer⟩
  have hverdict := run_netVerdict one_lt_two (config_updatedMaps hash old new names) regs hrun
  have hmaps : verdictAfterUpdate hash old new names regs =
      Reading.run ((updatedMaps hash old new names).lookup 2) (netVerdict regs 1) := rfl
  rw [hmaps, hverdict]
  cases answer with
  | none =>
    refine iff_of_false (by simp [dropped]) ?_
    rintro ⟨edge, target, hunclamped, _⟩
    cases (hanswer edge target).mpr hunclamped
  | some answer =>
    rcases answer with ⟨edge, target⟩
    have hdrop
        : dropped (namesMask names) (some (edge, target)) = true ↔ target < 64 ∧ Named names target := by
      rw [dropped, Bool.and_eq_true, decide_eq_true_eq, testBit_namesMask]
      tauto
    refine hdrop.trans ⟨fun h => ⟨edge, target, (hanswer edge target).mp rfl, h⟩, ?_⟩
    rintro ⟨edge', target', hunclamped, h⟩
    cases (hanswer edge' target').mpr hunclamped
    exact h

/-- Enforcement follows the names across an update exactly where the old indices say the same as the new names. -/
theorem enforcedByName_iff_sameDrop (hash : List UInt8 → Nat) (old new : Policy) (names newNames : List String)
    (regs : Nat → Reg)
    : EnforcedByName hash old new names newNames regs ↔ SameDrop new names newNames regs := by
  unfold EnforcedByName SameDrop
  rw [verdictAfterUpdate_drop]
  have hroutes {target : Nat}
      : Routes new regs target ↔ new.1.start < new.1.nodes.length
          ∧ ∃ edge, Unclamped new.1 regs netFields (new.1.start % maxNodes) (some (edge, target)) := by
    rcases new.2 with ⟨data, hparse⟩
    have hnodes := (accepted_of_parse hparse).nodes
    unfold Routes
    constructor
    . rintro ⟨edge, hunclamped⟩
      have hlt : new.1.start < new.1.nodes.length := by
        rcases hunclamped with ⟨node, _, hnode, _⟩
        exact (List.getElem?_eq_some_iff.mp hnode).1
      rw [Nat.mod_eq_of_lt (by omega)]
      exact ⟨hlt, edge, hunclamped⟩
    . rintro ⟨hlt, edge, hunclamped⟩
      rw [Nat.mod_eq_of_lt (by omega)] at hunclamped
      exact ⟨edge, hunclamped⟩
  simp only [hroutes]
  constructor
  . intro h edge target hunclamped
    have honly {edge' target' : Nat}
        (h' : Unclamped new.1 regs netFields (new.1.start % maxNodes) (some (edge', target'))) : target' = target := by
      cases unclamped_unique h' hunclamped
      rfl
    constructor
    . intro hold
      rcases h.mp ⟨edge, target, hunclamped, hold⟩ with ⟨target', ⟨hlt, edge', h'⟩, hnamed⟩
      rw [honly h'] at hnamed
      exact ⟨hlt, hnamed⟩
    . rintro ⟨hlt, hnamed⟩
      rcases h.mpr ⟨target, ⟨hlt, edge, hunclamped⟩, hnamed⟩ with ⟨edge', target', h', hold⟩
      rwa [honly h'] at hold
  . intro h
    constructor
    . rintro ⟨edge, target, hunclamped, hold⟩
      rcases (h edge target hunclamped).mp hold with ⟨hlt, hnamed⟩
      exact ⟨target, ⟨hlt, edge, hunclamped⟩, hnamed⟩
    . rintro ⟨target, ⟨hlt, edge, hunclamped⟩, hnamed⟩
      exact ⟨edge, target, hunclamped, (h edge target hunclamped).mpr ⟨hlt, hnamed⟩⟩

/-- The new policy drops by its first node, whose index the old one gave another name. -/
theorem enforcement_keeps_old_index
    : ¬ ∀ (hash : List UInt8 → Nat) (old new : Policy) (names newNames : List String) (regs : Nat → Reg),
        EnforcedByName hash old new names newNames regs := by
  intro hclaim
  have henforced := hclaim (fun _ => 0) beforePolicy afterPolicy ["pass", "watch", "drop"] ["drop", "watch", "pass"]
    (noRegs 0)
  have hverdict
      : (verdictAfterUpdate (fun _ => 0) beforePolicy afterPolicy ["pass", "watch", "drop"] (noRegs 0)).drop
          = false := by
    with_unfolding_all decide
  have hroutes : Routes afterPolicy (noRegs 0) 0 :=
    ⟨0, ⟨0, 1⟩, some 0, by with_unfolding_all decide, rfl, by with_unfolding_all decide⟩
  rw [EnforcedByName, hverdict] at henforced
  cases henforced.mpr ⟨0, hroutes, "drop", rfl, rfl⟩

end PptNet
