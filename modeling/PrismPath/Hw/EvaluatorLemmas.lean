import PrismPath.Hw.Evaluator

/-!
This module contains when an evaluation ends without a fault, over tables whose programs and atoms are checked.
-/

open TableFormat

namespace Evaluator

/-- A word an evaluator knows, with the atom and the register it reads inside their tables. -/
def Known (t : Tables) (word : Nat) : Prop :=
  word ∈ progOpcodes ∨ (word < 0x8000 ∧ ∃ atom, t.atom word = some atom ∧ atom.field < t.fields)

/-- The programs of a table's edges lie in the program table, and their words are known. -/
def Checked (t : Tables) : Prop :=
  ∀ index edge, t.edge index = some edge →
    ∀ k < edge.progCnt, ∃ word, t.word (edge.progOff + k) = some word ∧ Known t word

theorem push_cases (stackMax : Nat) (b : Bool) (stack : List Bool)
    : (stack.length < stackMax ∧ push stackMax b stack = .ok (b :: stack))
        ∨ (¬ stack.length < stackMax ∧ push stackMax b stack = .error .overflow) := by
  unfold push
  by_cases h : stackMax ≤ stack.length
  . exact .inr ⟨by omega, if_pos h⟩
  . exact .inl ⟨by omega, if_neg h⟩

/-- A known word ends without a fault as the depth of the stack allows, and leaves the depth it should. -/
theorem evalWord_depth {t : Tables} {word : Nat} (hknown : Known t word) (regs : Nat → Reg) (stackMax : Nat)
    (stack : List Bool)
    : (∃ stack', evalWord t regs stackMax stack word = .ok stack'
          ∧ depthAfter stackMax stack.length word = some stack'.length)
        ∨ (∃ fault, evalWord t regs stackMax stack word = .error fault
          ∧ depthAfter stackMax stack.length word = none) := by
  rcases hknown with hop | ⟨hatom, atom, hread, hfield⟩
  . simp only [progOpcodes, List.mem_cons, List.not_mem_nil, or_false] at hop
    rcases hop with rfl | rfl | rfl | rfl | rfl
    . rcases stack with _ | ⟨b, stack⟩
      . exact .inr ⟨_, rfl, rfl⟩
      . exact .inl ⟨_, rfl, by simp [depthAfter, opNot, opTrue, opFalse]⟩
    . rcases stack with _ | ⟨b, _ | ⟨a, stack⟩⟩
      . exact .inr ⟨_, rfl, rfl⟩
      . exact .inr ⟨_, rfl, rfl⟩
      . exact .inl ⟨_, rfl, by simp [depthAfter, opNot, opTrue, opFalse, opAnd]⟩
    . rcases stack with _ | ⟨b, _ | ⟨a, stack⟩⟩
      . exact .inr ⟨_, rfl, rfl⟩
      . exact .inr ⟨_, rfl, rfl⟩
      . exact .inl ⟨_, rfl, by simp [depthAfter, opNot, opTrue, opFalse, opAnd, opOr]⟩
    . have hpush : evalWord t regs stackMax stack opTrue = push stackMax true stack := rfl
      rw [hpush]
      rcases push_cases stackMax true stack with ⟨hlt, hok⟩ | ⟨hfull, herror⟩
      . exact .inl ⟨_, hok, by simp [depthAfter, hlt]⟩
      . exact .inr ⟨_, herror, by simp [depthAfter, hfull]⟩
    . have hpush : evalWord t regs stackMax stack opFalse = push stackMax false stack := rfl
      rw [hpush]
      rcases push_cases stackMax false stack with ⟨hlt, hok⟩ | ⟨hfull, herror⟩
      . exact .inl ⟨_, hok, by simp [depthAfter, hlt]⟩
      . exact .inr ⟨_, herror, by simp [depthAfter, hfull]⟩
  . have heval : evalAtom t regs word = .ok (compare atom (regs atom.field)) := by
      simp only [evalAtom, hread, if_pos hfield]
    by_cases hlt : stack.length < stackMax
    . refine .inl ⟨compare atom (regs atom.field) :: stack, ?_, by simp [depthAfter, hatom, hlt]⟩
      unfold evalWord
      rw [if_pos hatom, if_neg (by omega), heval]
      rfl
    . refine .inr ⟨.overflow, ?_, by simp [depthAfter, hatom, hlt]⟩
      unfold evalWord
      rw [if_pos hatom, if_pos (by omega)]

/-- A word that ends without a fault is known. -/
theorem known_of_evalWord {t : Tables} {regs : Nat → Reg} {stackMax word : Nat} {stack stack' : List Bool}
    (h : evalWord t regs stackMax stack word = .ok stack')
    : Known t word := by
  unfold evalWord at h
  split at h
  . next hatom =>
    split at h
    . cases h
    . unfold evalAtom at h
      cases hread : t.atom word with
      | none =>
        rw [hread] at h
        cases h
      | some atom =>
        rw [hread] at h
        dsimp only at h
        split at h
        . next hfield => exact .inr ⟨hatom, atom, hread, hfield⟩
        . cases h
  . left
    by_contra hop
    simp only [progOpcodes, List.mem_cons, List.not_mem_nil, or_false, not_or] at hop
    rcases hop with ⟨hnot, hand, hor, htrue, hfalse⟩
    rw [if_neg hnot, if_neg hand, if_neg hor, if_neg htrue, if_neg hfalse] at h
    cases h

theorem stackSafe_iff (stackMax depth : Nat) (words : List Nat)
    : stackSafe stackMax depth words = true ↔ ∃ depth', finalDepth stackMax depth words = some depth' := by
  induction words generalizing depth with
  | nil => simp [stackSafe, finalDepth]
  | cons word words ih =>
    unfold stackSafe finalDepth
    cases depthAfter stackMax depth word with
    | none => simp
    | some depth' => exact ih depth'

/-- The words of an edge's program are there and known. -/
def ProgramKnown (t : Tables) (off cnt : Nat) : Prop :=
  ∀ k < cnt, ∃ word, t.word (off + k) = some word ∧ Known t word

theorem programKnown_succ {t : Tables} {off cnt : Nat}
    : ProgramKnown t off (cnt + 1) ↔ (∃ word, t.word off = some word ∧ Known t word) ∧ ProgramKnown t (off + 1) cnt := by
  have hshift : ∀ k, off + 1 + k = off + (k + 1) := fun k => by omega
  constructor
  . refine fun h => ⟨h 0 (by omega), fun k hk => ?_⟩
    rw [hshift]
    exact h (k + 1) (by omega)
  . rintro ⟨hfirst, hrest⟩ k hk
    rcases k with _ | k
    . exact hfirst
    . rw [← hshift]
      exact hrest k (by omega)

theorem evalProg_isOk_iff (t : Tables) (regs : Nat → Reg) (stackMax off cnt : Nat) (stack : List Bool)
    : (∃ b, evalProg t regs stackMax off cnt stack = .ok b)
        ↔ ProgramKnown t off cnt
          ∧ stackSafe stackMax stack.length ((List.range' off cnt).filterMap t.word) = true := by
  induction cnt generalizing off stack with
  | zero => simp [evalProg, stackSafe, ProgramKnown]
  | succ cnt ih =>
    rw [programKnown_succ, List.range'_succ, List.filterMap_cons]
    cases hword : t.word off with
    | none => simp [evalProg, hword]
    | some word =>
      simp only [evalProg, hword, stackSafe, Option.some.injEq, exists_eq_left']
      by_cases hknown : Known t word
      . rcases evalWord_depth hknown regs stackMax stack with ⟨stack', hok, hdepth⟩ | ⟨fault, herror, hdepth⟩
        . rw [hok, hdepth]
          simp only [hknown, true_and]
          exact ih (off + 1) stack'
        . rw [herror, hdepth]
          simp
      . simp only [hknown, false_and, iff_false]
        rintro ⟨b, hb⟩
        cases heval : evalWord t regs stackMax stack word with
        | error fault =>
          rw [heval] at hb
          cases hb
        | ok stack' => exact hknown (known_of_evalWord heval)

/-- An edge of the table whose program is known and keeps the stack in its bounds. -/
def EdgeSafe (t : Tables) (stackMax index : Nat) : Prop :=
  ∃ edge, t.edge index = some edge ∧ ProgramKnown t edge.progOff edge.progCnt
    ∧ stackSafe stackMax 0 (program t edge) = true

theorem edgeSafe_iff (t : Tables) (regs : Nat → Reg) (stackMax index : Nat)
    : EdgeSafe t stackMax index
        ↔ ∃ edge, t.edge index = some edge ∧ ∃ b, evalProg t regs stackMax edge.progOff edge.progCnt [] = .ok b := by
  simp only [EdgeSafe, evalProg_isOk_iff, program, List.length_nil]

theorem firstMatch_isOk_iff (t : Tables) (regs : Nat → Reg) (stackMax edgeOff cnt index : Nat)
    : (∃ result, firstMatch t regs stackMax edgeOff cnt index = .ok result)
        ↔ ∀ i < cnt, (∀ j < i, ¬ EdgeTrue t regs stackMax (edgeOff + (index + j))) →
            EdgeSafe t stackMax (edgeOff + (index + i)) := by
  induction cnt generalizing index with
  | zero => simp [firstMatch]
  | succ cnt ih =>
    have hnext : (∀ i < cnt, (∀ j < i, ¬ EdgeTrue t regs stackMax (edgeOff + (index + 1 + j))) →
        EdgeSafe t stackMax (edgeOff + (index + 1 + i)))
        ↔ ∀ i < cnt, (∀ j < i, ¬ EdgeTrue t regs stackMax (edgeOff + (index + (j + 1)))) →
            EdgeSafe t stackMax (edgeOff + (index + (i + 1))) := by
      simp only [show ∀ j, index + 1 + j = index + (j + 1) by omega]
    have hsafe := edgeSafe_iff t regs stackMax (edgeOff + index)
    cases hedge : t.edge (edgeOff + index) with
    | none =>
      simp only [firstMatch, hedge]
      refine iff_of_false (by simp) fun h => ?_
      rcases h 0 (by omega) (by simp) with ⟨edge, hsome, _⟩
      rw [Nat.add_zero, hedge] at hsome
      cases hsome
    | some edge =>
      simp only [hedge, Option.some.injEq, exists_eq_left'] at hsafe
      simp only [firstMatch, hedge]
      cases heval : evalProg t regs stackMax edge.progOff edge.progCnt [] with
      | error fault =>
        rw [heval] at hsafe
        refine iff_of_false (by simp) fun h => ?_
        rcases hsafe.mp (h 0 (by omega) (by simp)) with ⟨b, hb⟩
        cases hb
      | ok b =>
        have hfirst : EdgeSafe t stackMax (edgeOff + index) := hsafe.mpr ⟨b, heval⟩
        cases b with
        | true =>
          refine iff_of_true ⟨_, rfl⟩ fun i hi hnone => ?_
          rcases Nat.eq_zero_or_pos i with rfl | hpos
          . exact hfirst
          . exact absurd ⟨edge, hedge, heval⟩ (hnone 0 hpos)
        | false =>
          dsimp only
          rw [ih (index + 1), hnext]
          have hfalse : ¬ EdgeTrue t regs stackMax (edgeOff + (index + 0)) := by
            rintro ⟨edge', hsome, htrue⟩
            rw [Nat.add_zero, hedge] at hsome
            cases hsome
            rw [heval] at htrue
            cases htrue
          constructor
          . intro h i hi hnone
            rcases i with _ | i
            . exact hfirst
            . exact h i (by omega) fun j hj => hnone (j + 1) (by omega)
          . intro h i hi hnone
            refine h (i + 1) (by omega) fun j hj => ?_
            rcases j with _ | j
            . exact hfalse
            . exact hnone j (by omega)

/-- The edge that is found is true, and none before it is. -/
theorem firstMatch_cases {t : Tables} {regs : Nat → Reg} {stackMax edgeOff cnt index : Nat} {result : Option Nat}
    (h : firstMatch t regs stackMax edgeOff cnt index = .ok result)
    : (result = none ∧ ∀ j < cnt, ¬ EdgeTrue t regs stackMax (edgeOff + (index + j)))
        ∨ ∃ i < cnt, result = some (index + i) ∧ EdgeTrue t regs stackMax (edgeOff + (index + i))
          ∧ ∀ j < i, ¬ EdgeTrue t regs stackMax (edgeOff + (index + j)) := by
  induction cnt generalizing index with
  | zero =>
    cases h
    exact .inl ⟨rfl, fun j hj => by omega⟩
  | succ cnt ih =>
    rw [firstMatch] at h
    cases hedge : t.edge (edgeOff + index) with
    | none =>
      rw [hedge] at h
      cases h
    | some edge =>
      simp only [hedge] at h
      cases heval : evalProg t regs stackMax edge.progOff edge.progCnt [] with
      | error fault =>
        rw [heval] at h
        cases h
      | ok b =>
        rw [heval] at h
        cases b with
        | true =>
          cases h
          exact .inr ⟨0, by omega, rfl, ⟨edge, hedge, heval⟩, fun j hj => by omega⟩
        | false =>
          have hfalse : ¬ EdgeTrue t regs stackMax (edgeOff + (index + 0)) := by
            rintro ⟨edge', hsome, htrue⟩
            rw [Nat.add_zero, hedge] at hsome
            cases hsome
            rw [heval] at htrue
            cases htrue
          have hshift : ∀ j, index + 1 + j = index + (j + 1) := fun j => by omega
          rcases ih h with ⟨hnone, hall⟩ | ⟨i, hi, hsome, htrue, hall⟩
          . refine .inl ⟨hnone, fun j hj => ?_⟩
            rcases j with _ | j
            . exact hfalse
            . rw [← hshift]
              exact hall j (by omega)
          . rw [hshift] at hsome htrue
            refine .inr ⟨i + 1, by omega, hsome, htrue, fun j hj => ?_⟩
            rcases j with _ | j
            . exact hfalse
            . rw [← hshift]
              exact hall j (by omega)

/- A larger stack changes nothing where a smaller one is enough. -/

theorem evalWord_mono {t : Tables} {regs : Nat → Reg} {stackMax stackMax' word : Nat} {stack stack' : List Bool}
    (hle : stackMax ≤ stackMax') (h : evalWord t regs stackMax stack word = .ok stack')
    : evalWord t regs stackMax' stack word = .ok stack' := by
  unfold evalWord push at h ⊢
  split at h
  . next hatom =>
    split at h
    . cases h
    . rw [if_pos hatom, if_neg (by omega)]
      exact h
  . next hatom =>
    rw [if_neg hatom]
    split at h
    . next hop =>
      rw [if_pos hop]
      exact h
    . next hnot =>
      rw [if_neg hnot]
      split at h
      . next hop =>
        rw [if_pos hop]
        exact h
      . next hand =>
        rw [if_neg hand]
        split at h
        . next hop =>
          rw [if_pos hop]
          exact h
        . next hor =>
          rw [if_neg hor]
          split at h
          . next hop =>
            rw [if_pos hop]
            split at h
            . cases h
            . rw [if_neg (by omega)]
              exact h
          . next htrue =>
            rw [if_neg htrue]
            split at h
            . next hop =>
              rw [if_pos hop]
              split at h
              . cases h
              . rw [if_neg (by omega)]
                exact h
            . cases h

theorem evalProg_mono {t : Tables} {regs : Nat → Reg} {stackMax stackMax' off cnt : Nat} {stack : List Bool} {b : Bool}
    (hle : stackMax ≤ stackMax') (h : evalProg t regs stackMax off cnt stack = .ok b)
    : evalProg t regs stackMax' off cnt stack = .ok b := by
  induction cnt generalizing off stack with
  | zero => exact h
  | succ cnt ih =>
    rw [evalProg] at h ⊢
    cases hword : t.word off with
    | none =>
      rw [hword] at h
      cases h
    | some word =>
      simp only [hword] at h ⊢
      cases heval : evalWord t regs stackMax stack word with
      | error fault =>
        rw [heval] at h
        cases h
      | ok stack' =>
        rw [heval] at h
        rw [evalWord_mono hle heval]
        exact ih h

theorem firstMatch_mono {t : Tables} {regs : Nat → Reg} {stackMax stackMax' edgeOff cnt index : Nat}
    {result : Option Nat} (hle : stackMax ≤ stackMax') (h : firstMatch t regs stackMax edgeOff cnt index = .ok result)
    : firstMatch t regs stackMax' edgeOff cnt index = .ok result := by
  induction cnt generalizing index with
  | zero => exact h
  | succ cnt ih =>
    rw [firstMatch] at h ⊢
    cases hedge : t.edge (edgeOff + index) with
    | none =>
      rw [hedge] at h
      cases h
    | some edge =>
      simp only [hedge] at h ⊢
      cases heval : evalProg t regs stackMax edge.progOff edge.progCnt [] with
      | error fault =>
        rw [heval] at h
        cases h
      | ok b =>
        rw [heval] at h
        rw [evalProg_mono hle heval]
        cases b with
        | true => exact h
        | false => exact ih h

theorem evaluate_mono {t : Tables} {regs : Nat → Reg} {stackMax stackMax' node : Nat} {result : Option Nat}
    (hle : stackMax ≤ stackMax') (h : evaluate t regs stackMax node = .ok result)
    : evaluate t regs stackMax' node = .ok result := by
  unfold evaluate at h ⊢
  cases hnode : t.node node with
  | none =>
    rw [hnode] at h
    cases h
  | some node =>
    simp only [hnode] at h ⊢
    exact firstMatch_mono hle h

/-- A node of checked tables is evaluated without a fault exactly when its reached edges are safe. -/
theorem evaluate_isOk_iff {t : Tables} (hchecked : Checked t) {index : Nat} {node : Node}
    (hnode : t.node index = some node) (regs : Nat → Reg) (stackMax : Nat)
    : (∃ result, evaluate t regs stackMax index = .ok result) ↔ NodeSafe t regs stackMax node := by
  have hsafe : ∀ i, EdgeSafe t stackMax i ↔ ∃ edge, t.edge i = some edge ∧ stackSafe stackMax 0 (program t edge) = true :=
    fun i => exists_congr fun edge =>
      and_congr_right fun hedge => and_iff_right (hchecked i edge hedge)
  simp only [evaluate, hnode]
  rw [firstMatch_isOk_iff, NodeSafe]
  simp only [Nat.zero_add, hsafe]

end Evaluator
