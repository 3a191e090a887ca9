import Mathlib.Data.List.Nodup
import Mathlib.Logic.Function.Basic
import PrismPath.Lib.Runs
import PrismPath.Mesh.Firmware

/-!
This module contains rollouts over a mesh of nodes, any of which may lead one, and in which what is sent may be lost,
duplicated, delayed and reordered; and when a flip is the one its coordinator committed: the invariant of a mesh, what
each step keeps of it, and the runs in which it holds.
-/

namespace Mesh

namespace Rollout

/-- What has happened in a mesh. -/
structure History (ι : Type) where
  /-- Everything that was broadcast, with its sender. -/
  sent : List (ι × Message) := []
  /-- What a node verified and staged. -/
  stagings : List (ι × Slot) := []
  /-- The acknowledgements a coordinator counted: the number of its rollout, and whose they were. -/
  heard : List (ι × UInt16 × ι) := []

structure World (ι : Type) where
  node : ι → Node
  /-- The commit a flip is due to: its coordinator and the number of the rollout. -/
  order : ι → Option (ι × UInt16)
  history : History ι

inductive Step (ι : Type) where
  | reboot (i : ι) (read : Bool)
  | command (i : ι) (command : Command) (now : ℕ) (written : Bool)
  | deliver (i : ι) (packet : ι × Message) (now : ℕ)
  | closeWindow (i : ι) (now time : ℕ)
  | flip (i : ι) (now : ℕ) (written : Bool)

def History.send {ι : Type} (history : History ι) (i : ι) (messages : List Message) : History ι :=
  { history with sent := history.sent ++ messages.map fun message => (i, message) }

variable {ι : Type} [DecidableEq ι] (f : Firmware) (nid : ι → UInt8)

def World.begin (vfloor : ι → Option UInt32) : World ι where
  node i := boot f (vfloor i) true
  order _ := none
  history := {}

def World.update (w : World ι) (i : ι) (node : Node) (order : Option (ι × UInt16)) (history : History ι) : World ι where
  node := Function.update w.node i node
  order := Function.update w.order i order
  history := history

/-- What one node does with a message, and what is remembered of it. -/
def World.hear (w : World ι) (i from' : ι) (now : ℕ) (message : Message) : World ι :=
  let node := w.node i
  let (node', messages) := handle f (nid i) node now message
  let history := w.history.send i messages
  match message with
  | .prepare _ _ version table sig =>
    if stages f node table version sig then
      w.update i node' (w.order i) { history with stagings := history.stagings ++ [(i, node'.staged)] }
    else
      w
  | .ack seq sender =>
    if node.coord ∧ seq = node.rolloutSeq ∧ sender ∉ node.acked then
      w.update i node' (w.order i) { history with heard := history.heard ++ [(i, seq, from')] }
    else
      w
  | .commit seq _ =>
    if seq = node.staged.seq then w.update i node' (some (from', seq)) history else w

def World.next (w : World ι) : Step ι → World ι
  | .reboot i read => w.update i (boot f (w.node i).vfloor read) none w.history
  | .command i c now written =>
    let (node, messages) := command f (w.node i) now written c
    w.update i node (w.order i) (w.history.send i messages)
  | .deliver i (sender, message) now =>
    -- a node never hears its own broadcast
    if (sender, message) ∈ w.history.sent ∧ sender ≠ i then
      match received message.bytes with
      | some message => w.hear f nid i sender now message
      | none => w
    else
      w
  | .closeWindow i now time =>
    let (node, messages) := closeWindow (w.node i) now time
    let order := if (w.node i).committing now then some (i, (w.node i).rolloutSeq) else w.order i
    w.update i node order (w.history.send i messages)
  | .flip i now written =>
    w.update i (flip (w.node i) now written) (if (w.node i).flips now then none else w.order i) w.history

/- The claim of a rollout. -/

/-- The pack in a slot is one that the node prepared. -/
def History.Prepared (history : History ι) (c : ι) (slot : Slot) : Prop :=
  ∃ sig, (c, Message.prepare slot.seq slot.id slot.version slot.table sig) ∈ history.sent

/-- The coordinator counted the required acknowledgements, each of a node that had verified and staged the pack. -/
def History.Acknowledged (history : History ι) (c : ι) (slot : Slot) : Prop :=
  ∃ nodes : List ι, nodes.Nodup ∧ expectAcks ≤ nodes.length
    ∧ ∀ n ∈ nodes, (c, slot.seq, n) ∈ history.heard ∧ (n, slot) ∈ history.stagings
      ∧ ∃ sig, verifyPack f slot.table slot.version sig = true

/-- The flip of a node is the one its coordinator committed. -/
def World.Committed (w : World ι) (i : ι) : Prop :=
  ∃ c, w.order i = some (c, (w.node i).staged.seq) ∧ w.history.Prepared c (w.node i).staged
    ∧ w.history.Acknowledged f c (w.node i).staged

/- The condition. -/

/-- No rollout has the number, which is not that of an empty slot either. -/
def History.Unused (history : History ι) (seq : UInt16) : Prop :=
  seq ≠ 0 ∧ ∀ c id version table sig, (c, Message.prepare seq id version table sig) ∉ history.sent

/-- Rollouts have numbers of their own, a slot is not filled again while its flip is due, and a coordinator that commits
still has its own pack in its slot. -/
def Sound (w : World ι) : Step ι → Prop
  | .command i .rollout _ _ => w.history.Unused ((w.node i).rolloutSeq + 1) ∧ (w.node i).flipAt = 0
  | .command i .tamper _ _ => w.history.Unused ((w.node i).rolloutSeq + 1) ∧ (w.node i).coord = false
  | .command i .wrongSig _ _ => w.history.Unused ((w.node i).rolloutSeq + 1) ∧ (w.node i).coord = false
  | .deliver i (_, .prepare _ _ version table sig) _ =>
    stages f (w.node i) table version sig = true → (w.node i).flipAt = 0
  | .closeWindow i now _ => (w.node i).committing now = true → (w.node i).staged.seq = (w.node i).rolloutSeq
  | _ => True

end Rollout

end Mesh

namespace Mesh

namespace Rollout

variable {ι : Type} {f : Firmware} {nid : ι → UInt8}

/- What is sent fits and is received. -/

theorem length_le16 (n : UInt16)
    : (le16 n).length = 2 := rfl

theorem length_le32 (n : UInt32)
    : (le32 n).length = 4 := rfl

theorem received_bytes {message : Message} (h : message.Fits)
    : received message.bytes = some message := by
  have hlength : message.bytes.length ≤ tblMax + 96 := by
    cases message with
    | prepare seq id version table sig =>
      rcases h with ⟨htable, hsig⟩
      simp only [Message.bytes, List.length_cons, List.length_append, length_le16, length_le32, hsig]
      omega
    | ack seq nid => simp [Message.bytes, le16]
    | commit seq delay => simp [Message.bytes, le16]
  rw [received, if_pos hlength, parse_bytes h]

theorem length_flipByte (i : ℕ) (data : List UInt8)
    : (flipByte i data).length = data.length :=
  List.length_modify ..

/- Histories. -/

namespace History

/-- A commit of a rollout that was prepared and acknowledged. -/
def Backed (history : History ι) (f : Firmware) (c : ι) (seq : UInt16) : Prop :=
  ∃ slot : Slot, slot.seq = seq ∧ history.Prepared c slot ∧ history.Acknowledged f c slot

structure Grows (history history' : History ι) : Prop where
  sent : history.sent ⊆ history'.sent
  stagings : history.stagings ⊆ history'.stagings
  heard : history.heard ⊆ history'.heard

variable {history history' : History ι}

theorem Grows.refl (history : History ι)
    : Grows history history :=
  ⟨fun _ h => h, fun _ h => h, fun _ h => h⟩

theorem grows_send (history : History ι) (i : ι) (messages : List Message)
    : Grows history (history.send i messages) :=
  ⟨fun _ h => List.mem_append_left _ h, fun _ h => h, fun _ h => h⟩

theorem mem_send {i : ι} {messages : List Message} {k : ι × Message}
    : k ∈ (history.send i messages).sent ↔ k ∈ history.sent ∨ k.1 = i ∧ k.2 ∈ messages := by
  rcases k with ⟨c, message⟩
  rw [send, List.mem_append, List.mem_map]
  constructor
  . rintro (h | ⟨message', h, heq⟩)
    . exact .inl h
    . cases heq
      exact .inr ⟨rfl, h⟩
  . rintro (h | ⟨rfl, h⟩)
    . exact .inl h
    . exact .inr ⟨message, h, rfl⟩

theorem send_nil (history : History ι) (i : ι)
    : history.send i [] = history := by
  rw [send, List.map_nil, List.append_nil]

theorem Prepared.mono {c : ι} {slot : Slot} (h : history.Prepared c slot) (hgrows : Grows history history')
    : history'.Prepared c slot := by
  rcases h with ⟨sig, h⟩
  exact ⟨sig, hgrows.sent h⟩

theorem Acknowledged.mono {c : ι} {slot : Slot} (h : history.Acknowledged f c slot) (hgrows : Grows history history')
    : history'.Acknowledged f c slot := by
  rcases h with ⟨nodes, hnodup, hlength, h⟩
  refine ⟨nodes, hnodup, hlength, fun n hn => ?_⟩
  rcases h n hn with ⟨hheard, hstaged, hverified⟩
  exact ⟨hgrows.heard hheard, hgrows.stagings hstaged, hverified⟩

theorem Backed.mono {c : ι} {seq : UInt16} (h : history.Backed f c seq) (hgrows : Grows history history')
    : history'.Backed f c seq := by
  rcases h with ⟨slot, hseq, hprepared, hacknowledged⟩
  exact ⟨slot, hseq, hprepared.mono hgrows, hacknowledged.mono hgrows⟩

/-- What holds of the messages and the memories of a mesh. -/
structure Lawful (history : History ι) (f : Firmware) (nid : ι → UInt8) : Prop where
  fits : ∀ k ∈ history.sent, k.2.Fits
  unique : ∀ c c' slot slot', history.Prepared c slot → history.Prepared c' slot' → slot.seq = slot'.seq →
    c = c' ∧ slot = slot'
  numbered : ∀ c slot, history.Prepared c slot → slot.seq ≠ 0
  stagings : ∀ n slot, (n, slot) ∈ history.stagings →
    (∃ c, history.Prepared c slot) ∧ ∃ sig, verifyPack f slot.table slot.version sig = true
  acks : ∀ n seq sender, (n, Message.ack seq sender) ∈ history.sent →
    sender = nid n ∧ ∃ slot : Slot, slot.seq = seq ∧ (n, slot) ∈ history.stagings
  heard : ∀ c seq n, (c, seq, n) ∈ history.heard → ∃ slot : Slot, slot.seq = seq ∧ (n, slot) ∈ history.stagings
  commits : ∀ c seq delay, (c, Message.commit seq delay) ∈ history.sent → history.Backed f c seq

theorem Lawful.empty
    : ({} : History ι).Lawful f nid where
  fits _ h := by cases h
  unique _ _ _ _ h := by
    rcases h with ⟨_, h⟩
    cases h
  numbered _ _ h := by
    rcases h with ⟨_, h⟩
    cases h
  stagings _ _ h := by cases h
  acks _ _ _ h := by cases h
  heard _ _ _ h := by cases h
  commits _ _ _ h := by cases h

/-- Only a rollout prepares a slot. -/
theorem prepared_send {i c : ι} {message : Message} {slot : Slot} (h : (history.send i [message]).Prepared c slot)
    : history.Prepared c slot ∨ c = i ∧ ∃ sig, message = .prepare slot.seq slot.id slot.version slot.table sig := by
  rcases h with ⟨sig, h⟩
  rcases mem_send.mp h with hbefore | ⟨hi, hmessage⟩
  . exact .inl ⟨sig, hbefore⟩
  . exact .inr ⟨hi, sig, (List.mem_singleton.mp hmessage).symm⟩

/-- A rollout under a number of its own. -/
theorem Lawful.send_prepare (h : history.Lawful f nid) {i : ι} {seq : UInt16} (hunused : history.Unused seq)
    {id version : UInt32} {table sig : List UInt8} (hfits : (Message.prepare seq id version table sig).Fits)
    : (history.send i [.prepare seq id version table sig]).Lawful f nid := by
  have hgrows := grows_send history i [.prepare seq id version table sig]
  have hfresh : ∀ c slot, history.Prepared c slot → slot.seq ≠ seq := by
    rintro c slot ⟨sig, hmem⟩ rfl
    exact hunused.2 _ _ _ _ _ hmem
  constructor
  . intro k hk
    rcases mem_send.mp hk with hbefore | ⟨_, hmessage⟩
    . exact h.fits k hbefore
    . rw [List.mem_singleton.mp hmessage]
      exact hfits
  . intro c c' slot slot' hc hc' hseq
    rcases prepared_send hc with hold | ⟨hi, _, hmessage⟩
    . rcases prepared_send hc' with hold' | ⟨hi', _, hmessage'⟩
      . exact h.unique c c' slot slot' hold hold' hseq
      . cases hmessage'
        exact absurd hseq (hfresh c slot hold)
    . rcases prepared_send hc' with hold' | ⟨hi', _, hmessage'⟩
      . cases hmessage
        exact absurd hseq.symm (hfresh c' slot' hold')
      . cases hmessage
        rcases slot' with ⟨table', id', seq', version'⟩
        cases hmessage'
        exact ⟨hi.trans hi'.symm, rfl⟩
  . intro c slot hc
    rcases prepared_send hc with hold | ⟨_, _, hmessage⟩
    . exact h.numbered c slot hold
    . cases hmessage
      exact hunused.1
  . intro n slot hmem
    rcases h.stagings n slot hmem with ⟨⟨c, hprepared⟩, hverified⟩
    exact ⟨⟨c, hprepared.mono hgrows⟩, hverified⟩
  . intro n seq' sender hmem
    rcases mem_send.mp hmem with hbefore | ⟨_, hmessage⟩
    . exact h.acks n seq' sender hbefore
    . cases List.mem_singleton.mp hmessage
  . exact h.heard
  . intro c seq' delay hmem
    rcases mem_send.mp hmem with hbefore | ⟨_, hmessage⟩
    . exact (h.commits c seq' delay hbefore).mono hgrows
    . cases List.mem_singleton.mp hmessage

/-- A node stages a pack that was prepared, and acknowledges it. -/
theorem Lawful.stage (h : history.Lawful f nid) {i c : ι} {slot : Slot} (hprepared : history.Prepared c slot)
    {sig : List UInt8} (hverified : verifyPack f slot.table slot.version sig = true)
    : ({ history.send i [.ack slot.seq (nid i)] with stagings := history.stagings ++ [(i, slot)] } : History ι).Lawful f
        nid := by
  have hgrows : Grows history
      { history.send i [.ack slot.seq (nid i)] with stagings := history.stagings ++ [(i, slot)] } :=
    ⟨fun _ h => List.mem_append_left _ h, fun _ h => List.mem_append_left _ h, fun _ h => h⟩
  have hold : ∀ c slot', (history.send i [.ack slot.seq (nid i)]).Prepared c slot' → history.Prepared c slot' := by
    intro c slot' h
    rcases prepared_send h with hold | ⟨_, _, hmessage⟩
    . exact hold
    . cases hmessage
  constructor
  . intro k hk
    rcases mem_send.mp hk with hbefore | ⟨_, hmessage⟩
    . exact h.fits k hbefore
    . rw [List.mem_singleton.mp hmessage]
      exact trivial
  . intro c c' slot₁ slot₂ hc hc' hseq
    exact h.unique c c' slot₁ slot₂ (hold c slot₁ hc) (hold c' slot₂ hc') hseq
  . intro c slot' hc
    exact h.numbered c slot' (hold c slot' hc)
  . intro n slot' hmem
    rcases List.mem_append.mp hmem with hbefore | hlast
    . rcases h.stagings n slot' hbefore with ⟨⟨c, hc⟩, hv⟩
      exact ⟨⟨c, hc.mono hgrows⟩, hv⟩
    . cases List.mem_singleton.mp hlast
      exact ⟨⟨c, hprepared.mono hgrows⟩, sig, hverified⟩
  . intro n seq sender hmem
    rcases mem_send.mp hmem with hbefore | ⟨hi, hmessage⟩
    . rcases h.acks n seq sender hbefore with ⟨hsender, slot', hseq, hstaged⟩
      exact ⟨hsender, slot', hseq, hgrows.stagings hstaged⟩
    . cases List.mem_singleton.mp hmessage
      rw [show n = i from hi]
      exact ⟨rfl, slot, rfl, List.mem_append_right _ (List.mem_singleton_self _)⟩
  . intro c seq n hmem
    rcases h.heard c seq n hmem with ⟨slot', hseq, hstaged⟩
    exact ⟨slot', hseq, hgrows.stagings hstaged⟩
  . intro c seq delay hmem
    rcases mem_send.mp hmem with hbefore | ⟨_, hmessage⟩
    . exact (h.commits c seq delay hbefore).mono hgrows
    . cases List.mem_singleton.mp hmessage

/-- A coordinator counts an acknowledgement. -/
theorem Lawful.count (h : history.Lawful f nid) {i n : ι} {seq : UInt16} {sender : UInt8}
    (hack : (n, Message.ack seq sender) ∈ history.sent)
    : ({ history with heard := history.heard ++ [(i, seq, n)] } : History ι).Lawful f nid := by
  have hgrows : Grows history { history with heard := history.heard ++ [(i, seq, n)] } :=
    ⟨fun _ h => h, fun _ h => h, fun _ h => List.mem_append_left _ h⟩
  refine ⟨h.fits, h.unique, h.numbered, h.stagings, h.acks, ?_, ?_⟩
  . intro c seq' n' hmem
    rcases List.mem_append.mp hmem with hbefore | hlast
    . exact h.heard c seq' n' hbefore
    . cases List.mem_singleton.mp hlast
      exact (h.acks n seq sender hack).2
  . intro c seq' delay hmem
    exact (h.commits c seq' delay hmem).mono hgrows

theorem Lawful.send_commit (h : history.Lawful f nid) {i : ι} {seq delay : UInt16} (hbacked : history.Backed f i seq)
    : (history.send i [.commit seq delay]).Lawful f nid := by
  have hgrows := grows_send history i [.commit seq delay]
  have hold : ∀ c slot', (history.send i [.commit seq delay]).Prepared c slot' → history.Prepared c slot' := by
    intro c slot' h
    rcases prepared_send h with hold | ⟨_, _, hmessage⟩
    . exact hold
    . cases hmessage
  constructor
  . intro k hk
    rcases mem_send.mp hk with hbefore | ⟨_, hmessage⟩
    . exact h.fits k hbefore
    . rw [List.mem_singleton.mp hmessage]
      exact trivial
  . intro c c' slot₁ slot₂ hc hc' hseq
    exact h.unique c c' slot₁ slot₂ (hold c slot₁ hc) (hold c' slot₂ hc') hseq
  . intro c slot' hc
    exact h.numbered c slot' (hold c slot' hc)
  . intro n slot' hmem
    rcases h.stagings n slot' hmem with ⟨⟨c, hc⟩, hv⟩
    exact ⟨⟨c, hc.mono hgrows⟩, hv⟩
  . intro n seq' sender hmem
    rcases mem_send.mp hmem with hbefore | ⟨_, hmessage⟩
    . exact h.acks n seq' sender hbefore
    . cases List.mem_singleton.mp hmessage
  . exact h.heard
  . intro c seq' delay' hmem
    rcases mem_send.mp hmem with hbefore | ⟨hi, hmessage⟩
    . exact (h.commits c seq' delay' hbefore).mono hgrows
    . cases List.mem_singleton.mp hmessage
      rw [show c = i from hi]
      exact hbacked.mono hgrows

end History

/- Nodes. -/

/-- What holds of a node in a mesh. -/
structure NodeOk (history : History ι) (f : Firmware) (nid : ι → UInt8) (i : ι) (node : Node)
    (order : Option (ι × UInt16)) : Prop where
  slot : node.staged.seq = 0 ∨ ∃ c, history.Prepared c node.staged
  leads : node.coord = true → ∃ slot : Slot, slot.seq = node.rolloutSeq ∧ history.Prepared i slot
    ∧ ∃ nodes : List ι, nodes.map nid = node.acked ∧ node.acked.Nodup
      ∧ ∀ n ∈ nodes, (i, node.rolloutSeq, n) ∈ history.heard
  obeys : node.flipAt ≠ 0 → ∃ c, order = some (c, node.staged.seq) ∧ history.Backed f c node.staged.seq

section

variable {history history' : History ι} {i : ι} {node : Node} {order : Option (ι × UInt16)}

theorem NodeOk.mono (h : NodeOk history f nid i node order) (hgrows : history.Grows history')
    : NodeOk history' f nid i node order := by
  refine ⟨?_, fun hcoord => ?_, fun hflip => ?_⟩
  . rcases h.slot with hempty | ⟨c, hprepared⟩
    . exact .inl hempty
    . exact .inr ⟨c, hprepared.mono hgrows⟩
  . rcases h.leads hcoord with ⟨slot, hseq, hprepared, nodes, hacked, hnodup, hheard⟩
    exact ⟨slot, hseq, hprepared.mono hgrows, nodes, hacked, hnodup, fun n hn => hgrows.heard (hheard n hn)⟩
  . rcases h.obeys hflip with ⟨c, horder, hbacked⟩
    exact ⟨c, horder, hbacked.mono hgrows⟩

/-- A coordinator with the acknowledgements it needs can commit. -/
theorem NodeOk.backed (h : NodeOk history f nid i node order) (hlawful : history.Lawful f nid)
    (hcoord : node.coord = true) (hacks : expectAcks ≤ node.acked.length)
    : history.Backed f i node.rolloutSeq := by
  rcases h.leads hcoord with ⟨slot, hseq, hprepared, nodes, hacked, hnodup, hheard⟩
  have hnodes : nodes.Nodup := by
    rw [← hacked] at hnodup
    exact List.Nodup.of_map nid hnodup
  refine ⟨slot, hseq, hprepared, nodes, hnodes, ?_, fun n hn => ?_⟩
  . rw [← hacked, List.length_map] at hacks
    exact hacks
  . have hheard' := hheard n hn
    rcases hlawful.heard i node.rolloutSeq n hheard' with ⟨staged, hstagedSeq, hstaged⟩
    rcases hlawful.stagings n staged hstaged with ⟨⟨c, hstagedPrepared⟩, hverified⟩
    -- one number, one rollout
    have hsame := (hlawful.unique c i staged slot hstagedPrepared hprepared (hstagedSeq.trans hseq.symm)).2
    rw [hsame] at hstaged hverified
    rw [hseq]
    exact ⟨hheard', hstaged, hverified⟩

theorem NodeOk.committed (h : NodeOk history f nid i node order) (hlawful : history.Lawful f nid)
    (hflip : node.flipAt ≠ 0)
    : ∃ c, order = some (c, node.staged.seq) ∧ history.Prepared c node.staged
        ∧ history.Acknowledged f c node.staged := by
  rcases h.obeys hflip with ⟨c, horder, slot, hseq, hprepared, hacknowledged⟩
  rcases h.slot with hempty | ⟨c', hstaged⟩
  . exact absurd (hseq.trans hempty) (hlawful.numbered c slot hprepared)
  . have hsame := (hlawful.unique c c' slot node.staged hprepared hstaged hseq).2
    rw [hsame] at hprepared hacknowledged
    exact ⟨c, horder, hprepared, hacknowledged⟩

end

/- Worlds. -/

structure Invariant (w : World ι) (f : Firmware) (nid : ι → UInt8) : Prop where
  lawful : w.history.Lawful f nid
  node : ∀ i, NodeOk w.history f nid i (w.node i) (w.order i)

theorem nodeOk_boot (history : History ι) (i : ι) (vfloor : Option UInt32) (read : Bool)
    (order : Option (ι × UInt16))
    : NodeOk history f nid i (boot f vfloor read) order :=
  ⟨.inl rfl, fun h => absurd h Bool.false_ne_true, fun h => absurd rfl h⟩

theorem Invariant.begin (vfloor : ι → Option UInt32)
    : Invariant (World.begin f vfloor) f nid :=
  ⟨.empty, fun i => nodeOk_boot _ i (vfloor i) true _⟩

variable [DecidableEq ι]

theorem Invariant.update {w : World ι} (h : Invariant w f nid) {i : ι} {node : Node} {order : Option (ι × UInt16)}
    {history : History ι} (hlawful : history.Lawful f nid) (hgrows : w.history.Grows history)
    (hnode : NodeOk history f nid i node order)
    : Invariant (w.update i node order history) f nid := by
  refine ⟨hlawful, fun j => ?_⟩
  by_cases hj : j = i
  . subst hj
    simp only [World.update, Function.update_self]
    exact hnode
  . simp only [World.update, Function.update_of_ne hj]
    exact (h.node j).mono hgrows

section

variable {w : World ι}

theorem Invariant.rollout (h : Invariant w f nid) {i : ι} (hunused : w.history.Unused ((w.node i).rolloutSeq + 1))
    (hflip : (w.node i).flipAt = 0) (now : ℕ)
    : Invariant (w.update i (startRollout f (w.node i) now).1 (w.order i)
        (w.history.send i (startRollout f (w.node i) now).2)) f nid := by
  let pack := target f (w.node i)
  let seq := (w.node i).rolloutSeq + 1
  have hfits : (Message.prepare seq pack.id pack.version pack.table pack.sig).Fits := ⟨pack.fits, pack.sigLength⟩
  have hprepared : (w.history.send i (startRollout f (w.node i) now).2).Prepared i (pack.slot seq) :=
    ⟨pack.sig, History.mem_send.mpr (.inr ⟨rfl, List.mem_singleton_self _⟩)⟩
  refine h.update (h.lawful.send_prepare hunused hfits) (History.grows_send _ _ _) ⟨?_, fun _ => ?_, fun hne => ?_⟩
  . exact .inr ⟨i, hprepared⟩
  . exact ⟨pack.slot seq, rfl, hprepared, [], rfl, List.nodup_nil, fun n hn => by cases hn⟩
  . exact absurd hflip hne

/-- A test command prepares what is never its own. -/
theorem Invariant.inject (h : Invariant w f nid) {i : ι} (hunused : w.history.Unused ((w.node i).rolloutSeq + 1))
    (hcoord : (w.node i).coord = false) {id version : UInt32} {table sig : List UInt8}
    (hfits : (Message.prepare ((w.node i).rolloutSeq + 1) id version table sig).Fits)
    : Invariant (w.update i { w.node i with rolloutSeq := (w.node i).rolloutSeq + 1 } (w.order i)
        (w.history.send i [.prepare ((w.node i).rolloutSeq + 1) id version table sig])) f nid := by
  have hgrows := History.grows_send w.history i [.prepare ((w.node i).rolloutSeq + 1) id version table sig]
  have hnode := (h.node i).mono hgrows
  refine h.update (h.lawful.send_prepare hunused hfits) hgrows ⟨hnode.slot, fun hlead => ?_, hnode.obeys⟩
  rw [hcoord] at hlead
  cases hlead

theorem Invariant.command (h : Invariant w f nid) {i : ι} {c : Command} {now : ℕ} {written : Bool}
    (hsound : Sound f w (.command i c now written))
    : Invariant (w.next f nid (.command i c now written)) f nid := by
  cases c with
  | rollout => exact h.rollout hsound.1 hsound.2 now
  | reset =>
    simp only [World.next, Mesh.command, History.send_nil]
    have hnode := h.node i
    exact h.update h.lawful (.refl _) ⟨hnode.slot, hnode.leads, hnode.obeys⟩
  | tamper =>
    have hlength : (flipByte 10 f.packB.table).length ≤ tblMax := by
      rw [length_flipByte]
      exact f.packB.fits
    exact h.inject hsound.1 hsound.2 ⟨hlength, f.packB.sigLength⟩
  | wrongSig =>
    have hlength : (flipByte 0 f.packB.sig).length = 64 := by
      rw [length_flipByte]
      exact f.packB.sigLength
    exact h.inject hsound.1 hsound.2 ⟨f.packB.fits, hlength⟩

theorem Invariant.hear (h : Invariant w f nid) {i c : ι} {now : ℕ} {message : Message}
    (hsent : (c, message) ∈ w.history.sent) (hsound : Sound f w (.deliver i (c, message) now))
    : Invariant (w.hear f nid i c now message) f nid := by
  have hnode := h.node i
  cases message with
  | prepare seq id version table sig =>
    by_cases hstages : stages f (w.node i) table version sig = true
    . have hverified : verifyPack f table version sig = true := by
        simp only [stages, Bool.and_eq_true] at hstages
        exact hstages.1
      have hprepared : w.history.Prepared c ⟨table, id, seq, version⟩ := ⟨sig, hsent⟩
      have hlawful := h.lawful.stage (i := i) hprepared hverified
      have hgrows : w.history.Grows { w.history.send i [.ack seq (nid i)] with
          stagings := w.history.stagings ++ [(i, ⟨table, id, seq, version⟩)] } :=
        ⟨fun _ h => List.mem_append_left _ h, fun _ h => List.mem_append_left _ h, fun _ h => h⟩
      simp only [World.hear, handle, if_pos hstages]
      refine h.update hlawful hgrows ⟨.inr ⟨c, hprepared.mono hgrows⟩, (hnode.mono hgrows).leads, fun hflip => ?_⟩
      exact absurd (hsound hstages) hflip
    . simp only [World.hear, handle, if_neg hstages]
      exact h
  | ack seq sender =>
    by_cases hcounts : (w.node i).coord ∧ seq = (w.node i).rolloutSeq ∧ sender ∉ (w.node i).acked
    . have hlawful := h.lawful.count (i := i) hsent
      have hgrows : w.history.Grows { w.history with heard := w.history.heard ++ [(i, seq, c)] } :=
        ⟨fun _ h => h, fun _ h => h, fun _ h => List.mem_append_left _ h⟩
      have hmono := hnode.mono hgrows
      simp only [World.hear, handle, if_pos hcounts, History.send_nil]
      refine h.update hlawful hgrows ⟨hmono.slot, fun hlead => ?_, hmono.obeys⟩
      rcases hmono.leads hlead with ⟨slot, hseq, hprepared, nodes, hacked, hnodup, hheard⟩
      refine ⟨slot, hseq, hprepared, c :: nodes, ?_, List.nodup_cons.mpr ⟨hcounts.2.2, hnodup⟩, fun n hn => ?_⟩
      . rw [List.map_cons, hacked, (h.lawful.acks c seq sender hsent).1]
      . rcases List.mem_cons.mp hn with rfl | hn
        . rw [hcounts.2.1]
          exact List.mem_append_right _ (List.mem_singleton_self _)
        . exact hheard n hn
    . simp only [World.hear, handle, if_neg hcounts]
      exact h
  | commit seq delay =>
    by_cases hobeys : seq = (w.node i).staged.seq
    . simp only [World.hear, handle, if_pos hobeys, History.send_nil]
      refine h.update h.lawful (.refl _) ⟨hnode.slot, hnode.leads, fun _ => ⟨c, ?_, ?_⟩⟩
      . rw [hobeys]
      . rw [← hobeys]
        exact h.lawful.commits c seq delay hsent
    . simp only [World.hear, handle, if_neg hobeys]
      exact h

theorem Invariant.closeWindow (h : Invariant w f nid) {i : ι} {now time : ℕ}
    (hsound : Sound f w (.closeWindow i now time))
    : Invariant (w.next f nid (.closeWindow i now time)) f nid := by
  have hnode := h.node i
  by_cases hcloses : (w.node i).closes now = true
  . by_cases hacks : expectAcks ≤ (w.node i).acked.length
    . have hcommitting : (w.node i).committing now = true := by
        rw [Node.committing, hcloses, Bool.true_and, decide_eq_true hacks]
      have hcoord : (w.node i).coord = true := by
        simp only [Node.closes, Bool.and_eq_true] at hcloses
        exact hcloses.1.1
      have hbacked := hnode.backed h.lawful hcoord hacks
      have hgrows := History.grows_send w.history i [.commit (w.node i).rolloutSeq flipDelay]
      have hseq : (w.node i).staged.seq = (w.node i).rolloutSeq := hsound hcommitting
      simp only [World.next, Mesh.closeWindow, if_pos hcloses, if_pos hacks, if_pos hcommitting]
      refine h.update (h.lawful.send_commit hbacked) hgrows
        ⟨(hnode.mono hgrows).slot, fun hlead => absurd hlead Bool.false_ne_true, fun _ => ⟨i, ?_, ?_⟩⟩
      . rw [hseq]
      . rw [hseq]
        exact hbacked.mono hgrows
    . have hcommitting : ¬ (w.node i).committing now = true := by
        rw [Node.committing, hcloses, Bool.true_and, decide_eq_true_eq]
        exact hacks
      simp only [World.next, Mesh.closeWindow, if_pos hcloses, if_neg hacks, if_neg hcommitting, History.send_nil]
      exact h.update h.lawful (.refl _) ⟨hnode.slot, fun hlead => absurd hlead Bool.false_ne_true, hnode.obeys⟩
  . have hcommitting : ¬ (w.node i).committing now = true := by
      rw [Node.committing, Bool.and_eq_true]
      exact fun h => hcloses h.1
    simp only [World.next, Mesh.closeWindow, if_neg hcloses, if_neg hcommitting, History.send_nil]
    exact h.update h.lawful (.refl _) hnode

theorem Invariant.flip (h : Invariant w f nid) (i : ι) (now : ℕ) (written : Bool)
    : Invariant (w.next f nid (.flip i now written)) f nid := by
  have hnode := h.node i
  by_cases hflips : (w.node i).flips now = true
  . simp only [World.next, Mesh.flip, if_pos hflips]
    exact h.update h.lawful (.refl _) ⟨hnode.slot, hnode.leads, fun hne => absurd rfl hne⟩
  . simp only [World.next, Mesh.flip, if_neg hflips]
    exact h.update h.lawful (.refl _) hnode

theorem Invariant.next (h : Invariant w f nid) {step : Step ι} (hsound : Sound f w step)
    : Invariant (w.next f nid step) f nid := by
  cases step with
  | reboot i read => exact h.update h.lawful (.refl _) (nodeOk_boot _ i _ read _)
  | command i c now written => exact h.command hsound
  | deliver i packet now =>
    rcases packet with ⟨sender, message⟩
    rw [World.next]
    split
    . next hsent =>
      rw [received_bytes (h.lawful.fits _ hsent.1)]
      exact h.hear hsent.1 hsound
    . exact h
  | closeWindow i now time => exact h.closeWindow hsound
  | flip i now written => exact h.flip i now written

end

theorem Invariant.run {vfloor : ι → Option UInt32} {w : World ι}
    (hrun : Runs (World.next f nid) (Sound f) (.begin f vfloor) w)
    : Invariant w f nid :=
  Runs.invariant (I := fun w => Invariant w f nid) hrun (.begin vfloor) fun _ _ h hsound => h.next hsound

/-- A node flips to what its coordinator prepared, and the coordinator had heard of enough nodes that staged it. -/
theorem flip_committed {vfloor : ι → Option UInt32} {w : World ι}
    (hrun : Runs (World.next f nid) (Sound f) (.begin f vfloor) w) {i : ι} {now : ℕ}
    (hflips : (w.node i).flips now = true)
    : w.Committed f i := by
  have h := Invariant.run hrun
  have hflip : (w.node i).flipAt ≠ 0 := by
    simp only [Node.flips, Bool.and_eq_true, decide_eq_true_eq] at hflips
    exact hflips.1
  exact (h.node i).committed h.lawful hflip

/- A mesh of three nodes. -/

def meshId (i : Fin 3) : UInt8 :=
  UInt8.ofNat (i.val + 1)

def prepareB : Message :=
  .prepare 1 tableB.id tableB.version tableB.table tableB.sig

/-- The first node rolls out the second policy, and commits it. -/
def led : List (Step (Fin 3)) :=
  [.command 0 .rollout 0 true, .deliver 1 (0, prepareB) 1000, .deliver 2 (0, prepareB) 1000,
    .deliver 0 (1, .ack 1 2) 2000, .deliver 0 (2, .ack 1 3) 2000, .closeWindow 0 500000 500000]

def mesh (steps : List (Step (Fin 3))) : World (Fin 3) :=
  steps.foldl (World.next tables meshId) (.begin tables fun _ => none)

theorem runs_led
    : Runs (World.next tables meshId) (Sound tables) (.begin tables fun _ => none)
        (mesh (led ++ [Step.deliver 2 (0, .commit 1 120) 501000])) := by
  refine Runs.foldl _ _ fun pre step post heq => ?_
  rcases pre with _ | ⟨a, _ | ⟨b, _ | ⟨c, _ | ⟨d, _ | ⟨e, _ | ⟨g, _ | ⟨k, pre⟩⟩⟩⟩⟩⟩⟩
  . cases heq
    exact ⟨⟨by decide, fun _ _ _ _ _ h => by cases h⟩, rfl⟩
  . cases heq
    exact fun _ => by with_unfolding_all decide
  . cases heq
    exact fun _ => by decide +kernel
  . cases heq
    exact trivial
  . cases heq
    exact trivial
  . cases heq
    exact fun _ => by decide +kernel
  . cases heq
    exact trivial
  . simp [led] at heq

theorem flip_committed_led
    : (mesh (led ++ [Step.deliver 2 (0, .commit 1 120) 501000])).Committed tables 2 := by
  have hflips : ((mesh (led ++ [Step.deliver 2 (0, .commit 1 120) 501000])).node 2).flips 621000 = true := by
    decide +kernel
  exact flip_committed runs_led hflips

/-- The commit reaches the third node late, and the next rollout of its coordinator overtakes the flip. -/
def overtaken : List (Step (Fin 3)) :=
  led ++ [.flip 0 620000 true, .command 0 .rollout 700000 true, .deliver 2 (0, .commit 1 120) 701000,
    .deliver 2 (0, .prepare 2 tableA.id tableA.version tableA.table tableA.sig) 702000]

/-- The third node flips to a pack that was never committed. -/
theorem flip_uncommitted
    : ((mesh overtaken).node 2).flips 821000 = true ∧ ((mesh overtaken).node 2).staged.table = tableA.table
        ∧ (mesh overtaken).order 2 = some (0, 1) ∧ ¬ (mesh overtaken).Committed tables 2 := by
  have horder : (mesh overtaken).order 2 = some (0, 1) := by decide +kernel
  have hseq : ((mesh overtaken).node 2).staged.seq = 2 := by decide +kernel
  refine ⟨by decide +kernel, by decide +kernel, horder, ?_⟩
  rintro ⟨c, hc, _⟩
  rw [horder, hseq] at hc
  cases hc

end Rollout

end Mesh
