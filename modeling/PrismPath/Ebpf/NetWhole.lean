import PrismPath.Ebpf.Net

/-!
This module contains when a packet sees one whole policy: while updates come one after another and none writes to a bank
that a packet still reads.
-/

open TableFormat Evaluator PptImage PptKernel PptSelect

namespace PptNet

/-- The bank that the next write of an update goes to. -/
def Update.bank? : Update → Option Nat
  | .writing _ target (_ :: _) => some target
  | .stamping _ target _ => some target
  | _ => none

/--
An update begins only when no other is under way, a write goes only to a bank that no packet is reading, and a packet
arrives only under a policy whose start is a node of it.
-/
def Undisturbed (s : System) : Action → Prop
  | .packet i => s.packets i = .waiting → ∀ e, s.installed.head? = some e → e.1.1.start < e.1.1.nodes.length
  | .update _ _ => ∀ j, s.updates j = .idle
  | .put j => ∀ target, (s.updates j).bank? = some target → ∀ i bank rest, s.packets i = .reading bank rest →
      bank ≠ target

section

variable (hash : List UInt8 → Nat) (regs : Nat → Nat → Reg)

def PacketOk (s : System) (i : Nat) : PacketState → Prop
  | .waiting => True
  | .reading bank rest =>
    Reading.Within (ofBank bank) (fun _ => True) rest ∧
      ∃ e ∈ s.installed, PolicyVerdict (regs i) e (Reading.run (s.maps.lookup 2) rest)
  | .done verdict => ∃ e ∈ s.installed, PolicyVerdict (regs i) e verdict

def UpdateOk (s : System) : Update → Prop
  | .idle => True
  | .writing policy target pending =>
    target = 1 - s.bank ∧ (∀ w ∈ pending, ofBank target w.key) ∧
      ∃ m : Maps, s.maps.writes pending = m.writes (tableWrites policy.1 target)
  | .stamping policy target _ => target = 1 - s.bank ∧ Holds s.maps target policy.1
  | .flipping policy target dropMask =>
    target = 1 - s.bank ∧ Holds s.maps target policy.1 ∧ s.maps (.config target) = configOf hash policy.1 dropMask

/-- The bank in force holds the policy that was flipped to last. -/
def InForce (s : System) : Prop :=
  ∃ policy dropMask rest, s.installed = (policy, dropMask) :: rest ∧ Holds s.maps s.bank policy.1
    ∧ s.maps (.config s.bank) = configOf hash policy.1 dropMask

structure Inv (s : System) : Prop where
  bank : s.bank < 2
  inForce : InForce hash s
  packets : ∀ i, PacketOk regs s i (s.packets i)
  updates : ∀ j, UpdateOk hash s (s.updates j)
  alone : ∀ j j', s.updates j ≠ .idle → s.updates j' ≠ .idle → j = j'

end

variable {hash : List UInt8 → Nat} {regs : Nat → Nat → Reg}

theorem Initial.inv {policy : Policy} {dropMask : Nat} {s : System} (h : Initial hash policy dropMask s)
    : Inv hash regs s where
  bank := h.bank
  inForce := ⟨policy, dropMask, [], h.installed, h.tables, h.config⟩
  packets i := by
    rw [h.packets i]
    trivial
  updates j := by
    rw [h.updates j]
    trivial
  alone j := by simp [h.updates j]

/-- A packet keeps its verdict when nothing it will still look up changes. -/
theorem PacketOk.of_same {s s' : System} {i : Nat} {packet : PacketState}
    (hinstalled : ∀ e ∈ s.installed, e ∈ s'.installed)
    (hsame : ∀ bank rest, packet = .reading bank rest → ∀ k, ofBank bank k → s.maps k = s'.maps k)
    (h : PacketOk regs s i packet)
    : PacketOk regs s' i packet := by
  cases packet with
  | waiting => trivial
  | reading bank rest =>
    rcases h with ⟨hwithin, e, he, hverdict⟩
    rw [hwithin.run_congr (lookup_congr (hsame bank rest rfl))] at hverdict
    exact ⟨hwithin, e, hinstalled e he, hverdict⟩
  | done verdict =>
    rcases h with ⟨e, he, hverdict⟩
    exact ⟨e, hinstalled e he, hverdict⟩

theorem alone_setUpdate {s : System} {j : Nat} (hothers : ∀ k ≠ j, s.updates k = .idle) (update : Update)
    : ∀ k k', (s.setUpdate j update).updates k ≠ .idle → (s.setUpdate j update).updates k' ≠ .idle → k = k' := by
  have honly : ∀ k, (s.setUpdate j update).updates k ≠ .idle → k = j := by
    intro k hk
    by_contra hne
    exact hk ((Function.update_of_ne hne ..).trans (hothers k hne))
  intro k k' hk hk'
  exact (honly k hk).trans (honly k' hk').symm

/-- A write to the other bank changes nothing in this one. -/
theorem write_same {m : Maps} {w : Write} {bank target : Nat} (hw : ofBank target w.key) (hne : bank ≠ target)
    : ∀ k, ofBank bank k → m k = m.write w k := by
  intro k hk
  refine (write_of_ne fun heq => hne ?_).symm
  exact ofBank_unique hk (heq ▸ hw)

section

variable {s : System} (h : Inv hash regs s)
include h

theorem Inv.setPacket {i : Nat} {packet : PacketState} (hok : PacketOk regs s i packet)
    : Inv hash regs (s.setPacket i packet) where
  bank := h.bank
  inForce := h.inForce
  packets i' := by
    by_cases heq : i' = i
    . subst heq
      simp only [System.setPacket, Function.update_self]
      exact hok
    . simp only [System.setPacket, Function.update_of_ne heq]
      exact h.packets i'
  updates := h.updates
  alone := h.alone

theorem Inv.handle {i : Nat} (hundisturbed : Undisturbed s (.packet i))
    : Inv hash regs (handle regs s i) := by
  have hok := h.packets i
  unfold PptNet.handle
  split
  . next hwaiting =>
    rcases h.inForce with ⟨policy, dropMask, rest, hinstalled, hholds, hconfig⟩
    have hstart := hundisturbed hwaiting (policy, dropMask) (by rw [hinstalled]; rfl)
    rw [Nat.mod_eq_of_lt h.bank]
    refine h.setPacket ⟨within_netVerdict h.bank (regs i), (policy, dropMask), ?_, ?_⟩
    . rw [hinstalled]
      exact List.mem_cons_self
    . exact policyVerdict_of_holds h.bank hholds hconfig hstart (regs i)
  . next bank k next hreading =>
    rw [hreading] at hok
    rcases hok with ⟨hwithin, hverdict⟩
    exact h.setPacket ⟨hwithin.2 _, hverdict⟩
  . next bank verdict hreading =>
    rw [hreading] at hok
    exact h.setPacket hok.2
  . exact h

theorem Inv.others_idle {j j' : Nat} (hj : s.updates j ≠ .idle) (hne : j' ≠ j)
    : s.updates j' = .idle := by
  by_contra hj'
  exact hne (h.alone j' j hj' hj)

theorem Inv.beginUpdate {j : Nat} {policy : Policy} (hundisturbed : Undisturbed s (.update j policy))
    : Inv hash regs (beginUpdate s j policy) := by
  rcases policy.2 with ⟨data, hparse⟩
  unfold PptNet.beginUpdate
  rw [hundisturbed j, Nat.mod_eq_of_lt h.bank]
  refine ⟨h.bank, h.inForce, h.packets, fun j' => ?_, alone_setUpdate (fun k _ => hundisturbed k) _⟩
  by_cases heq : j' = j
  . subst heq
    simp only [System.setUpdate, Function.update_self]
    exact ⟨rfl, fun w hw => ofBank_of_mem_tableWrites (accepted_of_parse hparse) hw, s.maps, rfl⟩
  . simp only [System.setUpdate, Function.update_of_ne heq, hundisturbed j']
    trivial

/-- An update writes to the bank that is not in force, so what is in force stays. -/
theorem Inv.inForce_write {w : Write} {target : Nat} (htarget : target = 1 - s.bank) (hw : ofBank target w.key)
    {s' : System} (hmaps : s'.maps = s.maps.write w) (hbank : s'.bank = s.bank) (hinstalled : s'.installed = s.installed)
    : InForce hash s' := by
  rcases h.inForce with ⟨policy, dropMask, rest, hhead, hholds, hconfig⟩
  rcases policy.2 with ⟨data, hparse⟩
  have hlt := h.bank
  have hsame := write_same (m := s.maps) hw (show s.bank ≠ target by omega)
  rw [InForce, hmaps, hbank, hinstalled]
  refine ⟨policy, dropMask, rest, hhead, holds_congr (accepted_of_parse hparse) hsame hholds, ?_⟩
  exact (hsame (.config s.bank) rfl).symm.trans hconfig

theorem Inv.writeNext {j : Nat} (hundisturbed : Undisturbed s (.put j))
    : Inv hash regs (writeNext hash s j) := by
  have hok := h.updates j
  have hlt := h.bank
  unfold PptNet.writeNext
  split
  . exact h
  . next policy target w pending hupdate =>
    rw [hupdate] at hok
    rcases hok with ⟨htarget, hkeys, m, hm⟩
    rw [List.forall_mem_cons] at hkeys
    have hbusy : s.updates j ≠ .idle := by simp [hupdate]
    have hfree := hundisturbed target (by rw [hupdate]; rfl)
    refine ⟨hlt, h.inForce_write htarget hkeys.1 rfl rfl rfl, fun i => ?_, fun k => ?_,
      alone_setUpdate (fun k => h.others_idle hbusy) _⟩
    . refine PacketOk.of_same (s := s) (fun _ he => he) (fun bank rest hreading => ?_) (h.packets i)
      exact write_same hkeys.1 (hfree i bank rest hreading)
    . by_cases heq : k = j
      . subst heq
        simp only [System.setUpdate, Function.update_self]
        exact ⟨htarget, hkeys.2, m, hm⟩
      . simp only [System.setUpdate, Function.update_of_ne heq, h.others_idle hbusy heq]
        trivial
  . next policy target hupdate =>
    rw [hupdate] at hok
    rcases hok with ⟨htarget, _, m, hm⟩
    have hmaps : s.maps = m.writes (tableWrites policy.1 target) := hm
    have hbusy : s.updates j ≠ .idle := by simp [hupdate]
    refine ⟨hlt, h.inForce, h.packets, fun k => ?_, alone_setUpdate (fun k => h.others_idle hbusy) _⟩
    by_cases heq : k = j
    . subst heq
      simp only [System.setUpdate, Function.update_self]
      refine ⟨htarget, ?_⟩
      show Holds s.maps target policy.1
      rw [hmaps]
      exact holds_of_tableWrites m target policy.1
    . simp only [System.setUpdate, Function.update_of_ne heq, h.others_idle hbusy heq]
      trivial
  . next policy target dropMask hupdate =>
    rw [hupdate] at hok
    rcases hok with ⟨htarget, hholds⟩
    have hbusy : s.updates j ≠ .idle := by simp [hupdate]
    have hfree := hundisturbed target (by rw [hupdate]; rfl)
    have hkey : ofBank target (Write.key ⟨.config target, configOf hash policy.1 dropMask⟩) := rfl
    refine ⟨hlt, h.inForce_write htarget hkey rfl rfl rfl, fun i => ?_, fun k => ?_,
      alone_setUpdate (fun k => h.others_idle hbusy) _⟩
    . refine PacketOk.of_same (s := s) (fun _ he => he) (fun bank rest hreading => ?_) (h.packets i)
      exact write_same hkey (hfree i bank rest hreading)
    . by_cases heq : k = j
      . subst heq
        simp only [System.setUpdate, Function.update_self]
        exact ⟨htarget, holds_write_config hholds _ _, Function.update_self ..⟩
      . simp only [System.setUpdate, Function.update_of_ne heq, h.others_idle hbusy heq]
        trivial
  . next policy target dropMask hupdate =>
    rw [hupdate] at hok
    rcases hok with ⟨htarget, hholds, hconfig⟩
    have hbusy : s.updates j ≠ .idle := by simp [hupdate]
    refine ⟨?_, ⟨policy, dropMask, s.installed, rfl, hholds, hconfig⟩, fun i => ?_, fun k => ?_,
      alone_setUpdate (fun k => h.others_idle hbusy) _⟩
    . show target < 2
      omega
    . exact PacketOk.of_same (s := s) (fun _ he => List.mem_cons_of_mem _ he) (fun _ _ _ _ _ => rfl) (h.packets i)
    . by_cases heq : k = j
      . subst heq
        simp only [System.setUpdate, Function.update_self]
        trivial
      . simp only [System.setUpdate, Function.update_of_ne heq, h.others_idle hbusy heq]
        trivial

theorem Inv.step {a : Action} (hundisturbed : Undisturbed s a)
    : Inv hash regs (step hash regs s a) := by
  cases a with
  | packet i => exact h.handle hundisturbed
  | update j policy => exact h.beginUpdate hundisturbed
  | put j => exact h.writeNext hundisturbed

end

/-- While updates are undisturbed, every packet gets the verdict of one policy that was written completely. -/
theorem packet_sees_one_policy (hash : List UInt8 → Nat) (regs : Nat → Nat → Reg) (policy : Policy) (dropMask : Nat)
    (s₀ s : System) (hinitial : Initial hash policy dropMask s₀) (hrun : Runs (step hash regs) Undisturbed s₀ s)
    : ∀ i verdict, (s.packets i).verdict? = some verdict → ∃ e ∈ s.installed, PolicyVerdict (regs i) e verdict := by
  have hinv : Inv hash regs s := Runs.invariant hrun hinitial.inv fun s a hinv ha => hinv.step ha
  intro i verdict hverdict
  have hok := hinv.packets i
  cases hpacket : s.packets i with
  | done verdict' =>
    rw [hpacket] at hok hverdict
    cases hverdict
    exact hok
  | _ =>
    rw [hpacket] at hverdict
    cases hverdict

/-- Three nodes; the first has one edge, that at `off` of two which are always taken. -/
def twoEdges (off first second : UInt8) : List UInt8 :=
  [0x50, 0x50, 0x54, 0x4D, 1, 0, 0, 0, 0, 0, 0, 0, 3, 0, 2, 0, 1, 0, 0, 0, 0xFF, 0xFF, 4, 0, 1, 0, 0, 0]
    ++ [off, 0, 1, 0, 0, 0, 0, 0, 0, 0, 0, 0] ++ [first, 0, 0, 0, 1, 0, second, 0, 0, 0, 1, 0] ++ [0x03, 0x80]

/-- Routes everything to node 2, by its second edge. -/
def beforePolicy : Policy :=
  ⟨(parseImageBuf (twoEdges 1 1 2)).get (by with_unfolding_all decide), _, (Option.some_get _).symm⟩

/-- Routes everything to node 0, by its first edge. -/
def afterPolicy : Policy :=
  ⟨(parseImageBuf (twoEdges 0 0 1)).get (by with_unfolding_all decide), _, (Option.some_get _).symm⟩

def attached (policy : Policy) : System where
  maps := populateMaps (fun _ => 0) policy.1 noMaps
  bank := 0
  packets _ := .waiting
  updates _ := .idle
  installed := [(policy, 0)]

theorem initial_attached (policy : Policy)
    : Initial (fun _ => 0) policy 0 (attached policy) where
  bank := Nat.zero_lt_two
  tables := holds_of_populateMaps (fun _ => 0) policy.1 noMaps
  config := config_populateMaps (fun _ => 0) policy.1 noMaps
  packets _ := rfl
  updates _ := rfl
  installed := rfl

def noRegs (_ _ : Nat) : Reg :=
  absent

def wholeUpdate (policy : Policy) : List Action :=
  .update 0 policy :: List.replicate 9 (.put 0)

/-- Two updates complete between the packet's read of its node and its read of the edge. -/
def twoUpdates : List Action :=
  List.replicate 3 (.packet 0) ++ (wholeUpdate afterPolicy ++ (wholeUpdate afterPolicy ++ List.replicate 4 (.packet 0)))

theorem packet_sees_torn_policy
    : ¬ ∀ (hash : List UInt8 → Nat) (regs : Nat → Nat → Reg) (policy : Policy) (dropMask : Nat) (s₀ s : System),
        Initial hash policy dropMask s₀ → Runs (step hash regs) (fun _ _ => True) s₀ s →
          ∀ i verdict, (s.packets i).verdict? = some verdict →
            ∃ e ∈ s.installed, PolicyVerdict (regs i) e verdict := by
  intro hclaim
  have hverdict
      : ((twoUpdates.foldl (step (fun _ => 0) noRegs) (attached beforePolicy)).packets 0).verdict? =
          some { answer := some (0, 1), drop := false } := by
    with_unfolding_all decide
  have hinstalled
      : (twoUpdates.foldl (step (fun _ => 0) noRegs) (attached beforePolicy)).installed =
          [(afterPolicy, 0), (afterPolicy, 0), (beforePolicy, 0)] := by
    with_unfolding_all decide
  rcases hclaim (fun _ => 0) noRegs beforePolicy 0 (attached beforePolicy) _ (initial_attached beforePolicy)
    (Runs.foldl _ twoUpdates fun _ _ _ _ => trivial) 0 _ hverdict with ⟨e, he, hpolicy, _⟩
  have hbefore : Unclamped beforePolicy.1 (noRegs 0) netFields 0 (some (0, 2)) :=
    ⟨⟨1, 1⟩, some 0, by with_unfolding_all decide, rfl, by with_unfolding_all decide⟩
  have hafter : Unclamped afterPolicy.1 (noRegs 0) netFields 0 (some (0, 0)) :=
    ⟨⟨0, 1⟩, some 0, by with_unfolding_all decide, rfl, by with_unfolding_all decide⟩
  rw [hinstalled] at he
  simp only [List.mem_cons, List.not_mem_nil, or_false] at he
  rcases he with rfl | rfl | rfl
  . cases unclamped_unique hpolicy hafter
  . cases unclamped_unique hpolicy hafter
  . cases unclamped_unique hpolicy hbefore

theorem packets_foldl_puts (s : System) (l : List Action) (hl : ∀ a ∈ l, ∃ j, a = .put j)
    : (l.foldl (step hash regs) s).packets = s.packets := by
  induction l generalizing s with
  | nil => rfl
  | cons a l ih =>
    rw [List.forall_mem_cons] at hl
    rcases hl.1 with ⟨j, rfl⟩
    rw [List.foldl_cons, ih _ hl.2]
    show (writeNext hash s j).packets = _
    unfold writeNext
    split <;> rfl

theorem installed_foldl_packets (s : System) (l : List Action) (hl : ∀ a ∈ l, ∃ i, a = .packet i)
    : (l.foldl (step hash regs) s).installed = s.installed := by
  induction l generalizing s with
  | nil => rfl
  | cons a l ih =>
    rw [List.forall_mem_cons] at hl
    rcases hl.1 with ⟨i, rfl⟩
    rw [List.foldl_cons, ih _ hl.2]
    show (handle regs s i).installed = _
    unfold handle
    split <;> rfl

/-- An update that no packet sees. -/
theorem run_wholeUpdate {s : System} (hidle : ∀ j, s.updates j = .idle) (hwaiting : ∀ i, s.packets i = .waiting)
    (policy : Policy)
    : Runs (step hash regs) Undisturbed s ((wholeUpdate policy).foldl (step hash regs) s) := by
  refine Runs.foldl s _ fun pre a post heq => ?_
  cases pre with
  | nil =>
    cases (List.cons.inj heq).1
    exact hidle
  | cons b pre =>
    have htail : List.replicate 9 (Action.put 0) = pre ++ a :: post := (List.cons.inj heq).2
    have hputs : ∀ c ∈ pre, ∃ j, c = .put j := fun c hc =>
      ⟨0, List.eq_of_mem_replicate (htail ▸ List.mem_append_left _ hc)⟩
    have ha : a = .put 0 := List.eq_of_mem_replicate (htail ▸ List.mem_append_right _ List.mem_cons_self)
    cases (List.cons.inj heq).1
    subst ha
    intro target _ i bank rest hreading
    have hkeep : (beginUpdate s 0 policy).packets = s.packets := by
      unfold beginUpdate
      split <;> rfl
    rw [List.foldl_cons, packets_foldl_puts _ pre hputs] at hreading
    exact absurd (hreading.symm.trans ((congrFun hkeep i).trans (hwaiting i))) (by simp)

theorem run_packet {s : System} (hstart : ∀ e, s.installed.head? = some e → e.1.1.start < e.1.1.nodes.length)
    (n i : Nat)
    : Runs (step hash regs) Undisturbed s ((List.replicate n (.packet i)).foldl (step hash regs) s) := by
  refine Runs.foldl s _ fun pre a post heq => ?_
  have hpackets : ∀ c ∈ pre, ∃ k, c = .packet k := fun c hc =>
    ⟨i, List.eq_of_mem_replicate (heq ▸ List.mem_append_left _ hc)⟩
  have ha : a = .packet i := List.eq_of_mem_replicate (heq ▸ List.mem_append_right _ List.mem_cons_self)
  subst ha
  intro _ e he
  rw [installed_foldl_packets s pre hpackets] at he
  exact hstart e he

/-- The bank in force after an update from one policy to another. -/
def updated : System :=
  (wholeUpdate afterPolicy).foldl (step (fun _ => 0) noRegs) (attached beforePolicy)

theorem packet_sees_updated_policy
    : ∃ e ∈ ((List.replicate 7 (.packet 0)).foldl (step (fun _ => 0) noRegs) updated).installed,
        PolicyVerdict (noRegs 0) e { answer := some (0, 0), drop := false } := by
  have hupdate : Runs (step (fun _ => 0) noRegs) Undisturbed (attached beforePolicy) updated :=
    run_wholeUpdate (fun _ => rfl) (fun _ => rfl) afterPolicy
  have hinstalled : updated.installed = [(afterPolicy, 0), (beforePolicy, 0)] := by with_unfolding_all decide
  have hstart : ∀ e, updated.installed.head? = some e → e.1.1.start < e.1.1.nodes.length := by
    intro e he
    rw [hinstalled] at he
    cases he
    with_unfolding_all decide
  have hverdict
      : (((List.replicate 7 (.packet 0)).foldl (step (fun _ => 0) noRegs) updated).packets 0).verdict? =
          some { answer := some (0, 0), drop := false } := by
    with_unfolding_all decide
  exact packet_sees_one_policy (fun _ => 0) noRegs beforePolicy 0 (attached beforePolicy) _
    (initial_attached beforePolicy) (hupdate.trans (run_packet hstart 7 0)) 0 _ hverdict

end PptNet
