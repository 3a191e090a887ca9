import PrismPath.Ebpf.KernelEval
import PrismPath.Ebpf.PptImageLemmas

/-!
This module contains the proof that the evaluator in the kernel, run over maps that hold an accepted image, takes the
first edge that is true: no loop bound, index mask or stack guard of it is ever reached.
-/

open TableFormat Evaluator PptImage

namespace PptKernel

/- Writing entries. -/

theorem write_of_ne {m : Maps} {w : Write} {k : Key} (h : w.key ≠ k)
    : m.write w k = m k :=
  Function.update_of_ne (Ne.symm h) ..

/-- An entry that nothing was written to. -/
theorem writes_of_ne {m : Maps} {ws : List Write} {k : Key} (h : ∀ w ∈ ws, w.key ≠ k)
    : m.writes ws k = m k := by
  induction ws generalizing m with
  | nil => rfl
  | cons w ws ih =>
    rw [List.forall_mem_cons] at h
    rw [Maps.writes, List.foldl_cons]
    exact (ih h.2).trans (write_of_ne h.1)

/-- An entry that only one value was ever written to holds that value. -/
theorem writes_eq {m : Maps} {ws : List Write} {k : Key} {v : Entry k} (hall : ∀ w ∈ ws, ∀ h : w.key = k, h ▸ w.value = v)
    (hex : (∃ w ∈ ws, w.key = k) ∨ m k = v)
    : m.writes ws k = v := by
  induction ws generalizing m with
  | nil =>
    rcases hex with ⟨w, hw, _⟩ | hex
    . cases hw
    . exact hex
  | cons w ws ih =>
    rw [List.forall_mem_cons] at hall
    rw [Maps.writes, List.foldl_cons]
    apply ih hall.2
    by_cases hkey : w.key = k
    . right
      subst hkey
      rw [Maps.write, Function.update_self]
      exact hall.1 rfl
    . rw [write_of_ne hkey]
      simpa [hkey] using hex

/-- The tables of an image, in one bank of the maps. -/
structure Holds (m : Maps) (bank : Nat) (im : Image) : Prop where
  atom : ∀ i atom, im.atoms[i]? = some atom → m (.atom (bank * maxAtoms + i)) = atom
  node : ∀ i node, im.nodes[i]? = some node → m (.node (bank * maxNodes + i)) = node
  edge : ∀ i edge, im.edges[i]? = some edge → m (.edge (bank * maxEdges + i)) = edge
  word : ∀ i word, im.prog[i]? = some word → m (.word (bank * maxProgWords + i)) = word

theorem mem_tableWrites {im : Image} {bank : Nat} {w : Write}
    : w ∈ tableWrites im bank ↔
        (∃ i atom, im.atoms[i]? = some atom ∧ w = ⟨.atom (bank * maxAtoms + i), atom⟩)
          ∨ (∃ i node, im.nodes[i]? = some node ∧ w = ⟨.node (bank * maxNodes + i), node⟩)
          ∨ (∃ i edge, im.edges[i]? = some edge ∧ w = ⟨.edge (bank * maxEdges + i), edge⟩)
          ∨ (∃ i word, im.prog[i]? = some word ∧ w = ⟨.word (bank * maxProgWords + i), word⟩) := by
  have hmap {α : Type} (xs : List α) (f : α × Nat → Write)
      : w ∈ xs.zipIdx.map f ↔ ∃ i a, xs[i]? = some a ∧ w = f (a, i) := by
    rw [List.mem_map]
    constructor
    . rintro ⟨⟨a, i⟩, hmem, rfl⟩
      exact ⟨i, a, List.mem_zipIdx_iff_getElem?.mp hmem, rfl⟩
    . rintro ⟨i, a, hget, rfl⟩
      exact ⟨(a, i), List.mem_zipIdx_iff_getElem?.mpr hget, rfl⟩
  simp only [tableWrites, List.mem_append, hmap, or_assoc]
  exact Iff.rfl

theorem holds_of_tableWrites (m : Maps) (bank : Nat) (im : Image)
    : Holds (m.writes (tableWrites im bank)) bank im := by
  constructor
  . intro i atom hget
    refine writes_eq (fun w hw hkey => ?_) (.inl ⟨_, mem_tableWrites.mpr (.inl ⟨i, atom, hget, rfl⟩), rfl⟩)
    rcases mem_tableWrites.mp hw with ⟨j, _, hj, rfl⟩ | ⟨j, _, hj, rfl⟩ | ⟨j, _, hj, rfl⟩ | ⟨j, _, hj, rfl⟩
    . cases Nat.add_left_cancel (Key.atom.inj hkey)
      rw [hget] at hj
      cases hj
      rfl
    all_goals cases hkey
  . intro i node hget
    refine writes_eq (fun w hw hkey => ?_) (.inl ⟨_, mem_tableWrites.mpr (.inr (.inl ⟨i, node, hget, rfl⟩)), rfl⟩)
    rcases mem_tableWrites.mp hw with ⟨j, _, hj, rfl⟩ | ⟨j, _, hj, rfl⟩ | ⟨j, _, hj, rfl⟩ | ⟨j, _, hj, rfl⟩
    . cases hkey
    . cases Nat.add_left_cancel (Key.node.inj hkey)
      rw [hget] at hj
      cases hj
      rfl
    all_goals cases hkey
  . intro i edge hget
    refine writes_eq (fun w hw hkey => ?_)
      (.inl ⟨_, mem_tableWrites.mpr (.inr (.inr (.inl ⟨i, edge, hget, rfl⟩))), rfl⟩)
    rcases mem_tableWrites.mp hw with ⟨j, _, hj, rfl⟩ | ⟨j, _, hj, rfl⟩ | ⟨j, _, hj, rfl⟩ | ⟨j, _, hj, rfl⟩
    . cases hkey
    . cases hkey
    . cases Nat.add_left_cancel (Key.edge.inj hkey)
      rw [hget] at hj
      cases hj
      rfl
    . cases hkey
  . intro i word hget
    refine writes_eq (fun w hw hkey => ?_)
      (.inl ⟨_, mem_tableWrites.mpr (.inr (.inr (.inr ⟨i, word, hget, rfl⟩))), rfl⟩)
    rcases mem_tableWrites.mp hw with ⟨j, _, hj, rfl⟩ | ⟨j, _, hj, rfl⟩ | ⟨j, _, hj, rfl⟩ | ⟨j, _, hj, rfl⟩
    . cases hkey
    . cases hkey
    . cases hkey
    . cases Nat.add_left_cancel (Key.word.inj hkey)
      rw [hget] at hj
      cases hj
      rfl

theorem holds_of_populateMaps (hash : List UInt8 → Nat) (im : Image) (m : Maps)
    : Holds (populateMaps hash im m) 0 im :=
  holds_of_tableWrites (m.write ⟨.config 0, configOf hash im 0⟩) 0 im

theorem config_populateMaps (hash : List UInt8 → Nat) (im : Image) (m : Maps)
    : populateMaps hash im m (.config 0) = configOf hash im 0 := by
  have hothers : ∀ w ∈ tableWrites im 0, w.key ≠ .config 0 := by
    intro w hw
    rcases mem_tableWrites.mp hw with ⟨_, _, _, rfl⟩ | ⟨_, _, _, rfl⟩ | ⟨_, _, _, rfl⟩ | ⟨_, _, _, rfl⟩ <;> simp
  exact (writes_of_ne hothers).trans (Function.update_self ..)

/- Looking entries up. -/

theorem lt_span {banks bank span i : Nat} (hbank : bank < banks) (hi : i < span)
    : bank * span + i < banks * span := by
  have := Nat.mul_le_mul_right span (show bank + 1 ≤ banks from hbank)
  rw [Nat.add_mul] at this
  omega

theorem bankBase_add {banks bank span i : Nat} (hbank : bank < banks) (htwo : banks ≤ 2) (hi : i < span)
    : bankBase bank span + i % span = bank * span + i := by
  rw [bankBase, Nat.mod_eq_of_lt (by omega), Nat.mod_eq_of_lt hi]

theorem run_get_of_inside {m : Maps} {banks : Nat} {k : Key} (h : k.inside banks)
    : Reading.run (m.lookup banks) (Reading.get k) = some (m k) := by
  show m.lookup banks k = _
  rw [Maps.lookup, if_pos h]

section

variable {m : Maps} {banks bank : Nat} {im : Image} (hholds : Holds m bank im) (him : Accepted im) (hbank : bank < banks)
  (htwo : banks ≤ 2)
include hholds him hbank htwo

theorem run_lookupAtom {i : Nat} {atom : Atom} (h : im.atoms[i]? = some atom)
    : Reading.run (m.lookup banks) (lookupAtom bank i) = some atom := by
  rcases List.getElem?_eq_some_iff.mp h with ⟨hi, _⟩
  have hlt := Nat.lt_of_lt_of_le hi him.atoms
  have hinside : Key.inside banks (.atom (bank * maxAtoms + i)) := lt_span hbank hlt
  rw [lookupAtom, bankBase_add hbank htwo hlt]
  exact (run_get_of_inside hinside).trans (congrArg some (hholds.atom i atom h))

theorem run_lookupNode {i : Nat} {node : Node} (h : im.nodes[i]? = some node)
    : Reading.run (m.lookup banks) (lookupNode bank i) = some node := by
  rcases List.getElem?_eq_some_iff.mp h with ⟨hi, _⟩
  have hlt := Nat.lt_of_lt_of_le hi him.nodes
  have hinside : Key.inside banks (.node (bank * maxNodes + i)) := lt_span hbank hlt
  rw [lookupNode, bankBase_add hbank htwo hlt]
  exact (run_get_of_inside hinside).trans (congrArg some (hholds.node i node h))

theorem run_lookupEdge {i : Nat} {edge : Edge} (h : im.edges[i]? = some edge)
    : Reading.run (m.lookup banks) (lookupEdge bank i) = some edge := by
  rcases List.getElem?_eq_some_iff.mp h with ⟨hi, _⟩
  have hlt := Nat.lt_of_lt_of_le hi him.edges
  have hinside : Key.inside banks (.edge (bank * maxEdges + i)) := lt_span hbank hlt
  rw [lookupEdge, bankBase_add hbank htwo hlt]
  exact (run_get_of_inside hinside).trans (congrArg some (hholds.edge i edge h))

theorem run_lookupWord {i : Nat} {word : Nat} (h : im.prog[i]? = some word)
    : Reading.run (m.lookup banks) (lookupWord bank i) = some word := by
  rcases List.getElem?_eq_some_iff.mp h with ⟨hi, _⟩
  have hlt := Nat.lt_of_lt_of_le hi him.prog
  have hinside : Key.inside banks (.word (bank * maxProgWords + i)) := lt_span hbank hlt
  rw [lookupWord, bankBase_add hbank htwo hlt]
  exact (run_get_of_inside hinside).trans (congrArg some (hholds.word i word h))

end

/- The operand stack. -/

/-- The slots below the pointer hold the stack, the bottom in the first. -/
def Stacked (st : Nat → Bool) : List Bool → Prop
  | [] => True
  | b :: stack => st stack.length = b ∧ Stacked st stack

theorem Stacked.update {st : Nat → Bool} {stack : List Bool} (h : Stacked st stack) {i : Nat} (hi : stack.length ≤ i)
    (b : Bool)
    : Stacked (Function.update st i b) stack := by
  induction stack with
  | nil => trivial
  | cons a stack ih =>
    rw [List.length_cons] at hi
    refine ⟨?_, ih h.2 (by omega)⟩
    rw [Function.update_of_ne (by omega)]
    exact h.1

theorem Stacked.push {st : Nat → Bool} {stack : List Bool} (h : Stacked st stack) (b : Bool)
    : Stacked (Function.update st stack.length b) (b :: stack) :=
  ⟨Function.update_self .., h.update le_rfl b⟩

theorem Stacked.bottom {st : Nat → Bool} {stack : List Bool} (h : Stacked st stack) (hne : stack ≠ [])
    : stack.getLast?.getD false = st 0 := by
  induction stack with
  | nil => contradiction
  | cons b stack ih =>
    cases stack with
    | nil => exact h.1.symm
    | cons a stack => exact ih h.2 (by simp)

/-- The state of a program loop whose slots hold the stack. -/
structure Running (state : ProgCtx) (stack : List Bool) : Prop where
  pointer : state.sp = stack.length
  slots : Stacked state.st stack
  room : stack.length ≤ stackMax

/-- The parts of the state that no word changes. -/
structure SameProgram (state state' : ProgCtx) : Prop where
  progOff : state'.progOff = state.progOff
  progCnt : state'.progCnt = state.progCnt
  fields : state'.fields = state.fields
  bank : state'.bank = state.bank

theorem SameProgram.refl (state : ProgCtx) : SameProgram state state :=
  ⟨rfl, rfl, rfl, rfl⟩

theorem sameProgram_push (state : ProgCtx) (b : Bool)
    : SameProgram state (state.push b) := by
  unfold ProgCtx.push
  split <;> exact ⟨rfl, rfl, rfl, rfl⟩

theorem sameProgram_binary (state : ProgCtx) (op : Bool → Bool → Bool)
    : SameProgram state (state.binary op) := by
  unfold ProgCtx.binary
  split <;> exact ⟨rfl, rfl, rfl, rfl⟩

theorem sameProgram_operate (state : ProgCtx) (word : Nat)
    : SameProgram state (state.operate word) := by
  unfold ProgCtx.operate
  split
  . split <;> exact ⟨rfl, rfl, rfl, rfl⟩
  . split
    . exact sameProgram_binary state and
    . split
      . exact sameProgram_binary state or
      . split
        . exact sameProgram_push state true
        . split
          . exact sameProgram_push state false
          . exact .refl state

theorem Running.push {state : ProgCtx} {stack : List Bool} (h : Running state stack) (hroom : stack.length < stackMax)
    (b : Bool)
    : Running (state.push b) (b :: stack) := by
  have hsp := h.pointer
  unfold ProgCtx.push stPut
  rw [if_pos (by omega), if_pos (by omega), hsp]
  exact ⟨rfl, h.slots.push b, hroom⟩

theorem Running.binary {state : ProgCtx} {a b : Bool} {stack : List Bool} (h : Running state (b :: a :: stack))
    (op : Bool → Bool → Bool)
    : Running (state.binary op) (op a b :: stack) := by
  have hsp := h.pointer
  have hfull := h.room
  simp only [List.length_cons] at hsp hfull
  have hrhs : stGet state.st (state.sp - 1) = b := by
    rw [stGet, if_pos (by omega), hsp]
    exact h.slots.1
  have hlhs : stGet state.st (state.sp - 2) = a := by
    rw [stGet, if_pos (by omega), hsp]
    exact h.slots.2.1
  unfold ProgCtx.binary
  rw [if_pos (by omega)]
  dsimp only
  rw [hrhs, hlhs, stPut, if_pos (by omega), hsp]
  refine ⟨rfl, h.slots.2.2.push _, ?_⟩
  rw [List.length_cons]
  omega

theorem Running.negate {state : ProgCtx} {b : Bool} {stack : List Bool} (h : Running state (b :: stack))
    : Running (state.operate opNot) ((!b) :: stack) := by
  have hsp := h.pointer
  have hfull := h.room
  simp only [List.length_cons] at hsp hfull
  have htop : stGet state.st (state.sp - 1) = b := by
    rw [stGet, if_pos (by omega), hsp]
    exact h.slots.1
  unfold ProgCtx.operate
  rw [if_pos rfl, if_pos (by omega), htop, stPut, if_pos (by omega), hsp]
  exact ⟨rfl, h.slots.2.push _, hfull⟩

/-- Where no guard is needed, an opcode does what it says. -/
theorem Running.operate {state : ProgCtx} {stack stack' : List Bool} {t : Tables} {view : Nat → Reg} {word : Nat}
    (h : Running state stack) (hop : ¬ word < 0x8000)
    (heval : evalWord t view stackMax stack word = .ok stack')
    : Running (state.operate word) stack' := by
  unfold evalWord at heval
  rw [if_neg hop] at heval
  split at heval
  . next hnot =>
    subst hnot
    cases stack with
    | nil => cases heval
    | cons b stack =>
      cases heval
      exact h.negate
  . next hnot =>
    unfold ProgCtx.operate
    rw [if_neg hnot]
    split at heval
    . next hand =>
      rw [if_pos hand]
      rcases stack with _ | ⟨b, _ | ⟨a, stack⟩⟩
      . cases heval
      . cases heval
      . cases heval
        exact h.binary and
    . next hand =>
      rw [if_neg hand]
      split at heval
      . next hor =>
        rw [if_pos hor]
        rcases stack with _ | ⟨b, _ | ⟨a, stack⟩⟩
        . cases heval
        . cases heval
        . cases heval
          exact h.binary or
      . next hor =>
        rw [if_neg hor]
        unfold Evaluator.push at heval
        split at heval
        . next htrue =>
          rw [if_pos htrue]
          split at heval
          . cases heval
          . cases heval
            exact h.push (by omega) true
        . next htrue =>
          rw [if_neg htrue]
          split at heval
          . next hfalse =>
            rw [if_pos hfalse]
            split at heval
            . cases heval
            . cases heval
              exact h.push (by omega) false
          . cases heval

/- The loops. -/

/-- What a field reads as in the kernel: one past the packet's count is absent. -/
def kernelView (regs : Nat → Reg) (fields field : Nat) : Reg :=
  if field < maxFieldsPerPkt ∧ field < fields then regs field else absent

theorem run_bpfLoop_succ {σ : Type} (store : (k : Key) → Row k) (callback : Nat → σ → Kernel (Bool × σ))
    (count index : Nat) (state : σ)
    : Reading.run store (bpfLoop callback (count + 1) index state) =
        if (Reading.run store (callback index state)).1 then
          (Reading.run store (callback index state)).2
        else
          Reading.run store (bpfLoop callback count (index + 1) (Reading.run store (callback index state)).2) := by
  rw [bpfLoop, Reading.run_bind]
  dsimp only
  split <;> rfl

/-- A callback that stops at once leaves the state as it is, whatever the number of iterations. -/
theorem run_bpfLoop_of_stop {σ : Type} (store : (k : Key) → Row k) {callback : Nat → σ → Kernel (Bool × σ)}
    (count : Nat) {index : Nat} {state : σ} (h : callback index state = pure (true, state))
    : Reading.run store (bpfLoop callback count index state) = state := by
  cases count with
  | zero => rfl
  | succ count =>
    rw [run_bpfLoop_succ, h]
    rfl

section

variable {m : Maps} {banks bank : Nat} {im : Image} (hholds : Holds m bank im) (him : Accepted im) (hbank : bank < banks)
  (htwo : banks ≤ 2) (regs : Nat → Reg) (fields : Nat)
include hholds him hbank htwo

/-- One word of a program. -/
theorem run_progWordCb {index word : Nat} {state : ProgCtx} {stack stack' : List Bool} (hstate : Running state stack)
    (hof : state.bank = bank ∧ state.fields = fields) (hindex : index < state.progCnt)
    (hword : im.prog[state.progOff + index]? = some word)
    (heval : evalWord im.tables (kernelView regs fields) stackMax stack word = .ok stack')
    : ∃ state', Reading.run (m.lookup banks) (progWordCb regs index state) = (false, state')
        ∧ Running state' stack' ∧ SameProgram state state' := by
  rcases hof with ⟨rfl, rfl⟩
  unfold progWordCb
  rw [if_neg (by omega), Reading.run_bind, run_lookupWord hholds him hbank htwo hword]
  dsimp only
  by_cases hatom : word < 0x8000
  . rw [if_pos hatom, Reading.run_bind]
    unfold evalWord Evaluator.evalAtom at heval
    rw [if_pos hatom] at heval
    split at heval
    . cases heval
    next hroom =>
      cases hread : im.tables.atom word with
      | none =>
        rw [hread] at heval
        cases heval
      | some atom =>
        rw [hread] at heval
        dsimp only at heval
        split at heval
        . cases heval
          rw [run_lookupAtom hholds him hbank htwo hread]
          exact ⟨_, rfl, hstate.push (by omega) _, sameProgram_push state _⟩
        . cases heval
  . rw [if_neg hatom]
    exact ⟨_, rfl, hstate.operate hatom heval, sameProgram_operate state word⟩

/-- The loop over the words of a program, from one of them on. -/
theorem run_progWords {count cnt index : Nat} {state : ProgCtx} {stack : List Bool} {b : Bool}
    (hstate : Running state stack) (hof : state.bank = bank ∧ state.fields = fields)
    (hcnt : state.progCnt = index + cnt) (hcount : cnt ≤ count)
    (heval : Evaluator.evalProg im.tables (kernelView regs fields) stackMax (state.progOff + index) cnt stack = .ok b)
    : ∃ final, Reading.run (m.lookup banks) (bpfLoop (progWordCb regs) count index state) = final
        ∧ (if 0 < final.sp then stGet final.st 0 else false) = b := by
  induction cnt generalizing count index state stack with
  | zero =>
    cases heval
    have hstop : progWordCb regs index state = pure (true, state) := if_pos hcnt.le
    refine ⟨state, run_bpfLoop_of_stop _ count hstop, ?_⟩
    rw [hstate.pointer]
    cases stack with
    | nil => rfl
    | cons a stack =>
      rw [if_pos (by simp)]
      exact (hstate.slots.bottom (by simp)).symm
  | succ cnt ih =>
    obtain ⟨count, rfl⟩ : ∃ count', count = count' + 1 := ⟨count - 1, by omega⟩
    rw [Evaluator.evalProg] at heval
    cases hword : im.tables.word (state.progOff + index) with
    | none =>
      rw [hword] at heval
      cases heval
    | some word =>
      simp only [hword] at heval
      cases hstep : evalWord im.tables (kernelView regs fields) stackMax stack word with
      | error fault =>
        rw [hstep] at heval
        cases heval
      | ok stack' =>
        simp only [hstep] at heval
        rcases run_progWordCb hholds him hbank htwo regs fields hstate hof (by omega) hword hstep with
          ⟨state', hrun, hstate', hsame⟩
        rw [run_bpfLoop_succ, hrun]
        apply ih hstate' ⟨hsame.bank.trans hof.1, hsame.fields.trans hof.2⟩ (by rw [hsame.progCnt, hcnt]; omega)
          (by omega)
        rw [hsame.progOff, ← Nat.add_assoc]
        exact heval

theorem run_evalProg {edge : Edge} (hedge : edge ∈ im.edges) {b : Bool}
    (heval : Evaluator.evalProg im.tables (kernelView regs fields) stackMax edge.progOff edge.progCnt [] = .ok b)
    : Reading.run (m.lookup banks) (evalProg regs fields bank edge) = b := by
  have hcnt := (him.edge hedge).1
  unfold evalProg
  rw [Nat.min_eq_left hcnt, Reading.run_bind]
  have hstart
      : Running { progOff := edge.progOff, progCnt := edge.progCnt, fields, bank, st := fun _ => false, sp := 0 } [] :=
    ⟨rfl, trivial, Nat.zero_le _⟩
  rcases run_progWords hholds him hbank htwo regs fields hstart ⟨rfl, rfl⟩ (Nat.zero_add _).symm hcnt heval with
    ⟨final, hfinal, hb⟩
  rw [hfinal]
  exact hb

/-- The loop over the edges of a node, from one of them on. -/
theorem run_edges {count cnt index : Nat} {state : EvalLoopCtx} {result : Option Nat}
    (hof : state.bank = bank ∧ state.fields = fields) (hnone : state.matched = none)
    (hcnt : state.edgeCnt = index + cnt) (hcount : cnt ≤ count)
    (hmatch : firstMatch im.tables (kernelView regs fields) stackMax state.edgeOff cnt index = .ok result)
    : (Reading.run (m.lookup banks) (bpfLoop (edgeLoopCb regs) count index state)).matched =
        withTarget im state.edgeOff result := by
  induction cnt generalizing count index with
  | zero =>
    cases hmatch
    have hstop : edgeLoopCb regs index state = pure (true, state) := if_pos hcnt.le
    rw [run_bpfLoop_of_stop _ count hstop]
    exact hnone
  | succ cnt ih =>
    obtain ⟨count, rfl⟩ : ∃ count', count = count' + 1 := ⟨count - 1, by omega⟩
    rw [firstMatch] at hmatch
    cases hread : im.tables.edge (state.edgeOff + index) with
    | none =>
      rw [hread] at hmatch
      cases hmatch
    | some edge =>
      have hread' : im.edges[state.edgeOff + index]? = some edge := hread
      simp only [hread] at hmatch
      cases heval : Evaluator.evalProg im.tables (kernelView regs fields) stackMax edge.progOff edge.progCnt [] with
      | error fault =>
        rw [heval] at hmatch
        cases hmatch
      | ok b =>
        simp only [heval] at hmatch
        have hprog := run_evalProg hholds him hbank htwo regs fields (List.mem_of_getElem? hread') heval
        have hcallback
            : Reading.run (m.lookup banks) (edgeLoopCb regs index state) =
                if b then (true, { state with matched := some (index, edge.target) }) else (false, state) := by
          unfold edgeLoopCb
          rw [if_neg (by omega), Reading.run_bind, hof.1, hof.2, run_lookupEdge hholds him hbank htwo hread']
          dsimp only
          rw [Reading.run_bind, hprog]
          cases b <;> rfl
        rw [run_bpfLoop_succ, hcallback]
        cases b with
        | true =>
          cases hmatch
          simp only [withTarget, Option.bind_some, hread', Option.map_some]
          rfl
        | false => exact ih (by omega) (by omega) hmatch

/-- Over maps that hold an accepted image, a node is evaluated as without any loop bound, mask or clamped stack. -/
theorem run_evaluate {index : Nat} {node : Node} (hnode : im.nodes[index]? = some node) {result : Option Nat}
    (hmatch : firstMatch im.tables (kernelView regs fields) stackMax node.edgeOff node.edgeCnt 0 = .ok result)
    : Reading.run (m.lookup banks) (evaluate regs fields bank index) = withTarget im node.edgeOff result := by
  have hcnt := (him.node (List.mem_of_getElem? hnode)).1
  unfold evaluate
  rw [Reading.run_bind, run_lookupNode hholds him hbank htwo hnode]
  dsimp only
  rw [Nat.min_eq_left hcnt, Reading.run_bind]
  exact run_edges hholds him hbank htwo regs fields ⟨rfl, rfl⟩ rfl (Nat.zero_add _).symm hcnt hmatch

end

end PptKernel
