import PrismPath.Kernel.LevelMLemmas

/-!
This module contains what a condition of the fragment says of a context, as a boolean combination of its atoms, and
that the evaluator evaluates it to that.
-/

open Python

namespace LevelM

open Predicates

mutual

/-- What a desugared expression of the fragment says of a context. -/
def means (ctx : Ctx) : Expr → Bool
  | .boolOp .and es => meansAll ctx es
  | .boolOp .or es => meansAny ctx es
  | .unaryOp .not e => !means ctx e
  | e => (atomsOf e).all fun p => p.2.holds (ctx p.1)

def meansAll (ctx : Ctx) : List Expr → Bool
  | [] => true
  | e :: es => means ctx e && meansAll ctx es

def meansAny (ctx : Ctx) : List Expr → Bool
  | [] => false
  | e :: es => means ctx e || meansAny ctx es

end

theorem meansAll_eq (ctx : Ctx) (es : List Expr)
    : meansAll ctx es = es.all (means ctx) := by
  induction es with
  | nil => rfl
  | cons e es ih => rw [meansAll, List.all_cons, ih]

theorem meansAny_eq (ctx : Ctx) (es : List Expr)
    : meansAny ctx es = es.any (means ctx) := by
  induction es with
  | nil => rfl
  | cons e es ih => rw [meansAny, List.any_cons, ih]

theorem means_name (ctx : Ctx) (f : String)
    : means ctx (.name f) = (ctx f).truthy := by
  simp [means, atomsOf, Atom.holds]

/-- A comparison of the fragment means its atom, and evaluates to it. -/
theorem means_pair {left : Expr} {op : CmpOp} {right : Expr} (h : IsPair left op right) (ctx : Ctx)
    : Predicates.compare op (operandValue ctx left) (operandValue ctx right)
        = .ok (means ctx (.compare left [(op, right)])) := by
  rcases h.exists_atom with ⟨f, a, hatoms, hval⟩
  rw [hval]
  simp [means, atomsOf, hatoms]

/- The evaluator. -/

theorem operandDepth_le {e : Expr} (h : IsOperand e)
    : operandDepth e ≤ depth e := by
  cases h with
  | name f | constant v => exact Nat.zero_le _
  | @list es _ _ | @tuple es _ _ =>
    rw [depth]
    cases es with
    | nil => exact Nat.zero_le _
    | cons e es => exact Nat.le_add_right 1 _

theorem ev_operand_ok (ctx : Ctx) {e : Expr} {d : Nat} (h : IsOperand e) (hdepth : d + depth e ≤ maxDepth)
    : ev ctx e d = .ok (operandValue ctx e) := by
  have hle := operandDepth_le h
  rw [ev_operand ctx d h, if_neg (by omega)]

theorem isPair_of_chainPairs {left : Expr} {op : CmpOp} {right : Expr} {rest : List (CmpOp × Expr)}
    (hclass : ∀ e ∈ chainPairs left ((op, right) :: rest), classify e = none)
    : IsPair left op right ∧ ∀ e ∈ chainPairs right rest, classify e = none := by
  rw [chainPairs, List.forall_mem_cons, classify_chainPair] at hclass
  exact ⟨isPair_of_pairReason hclass.1, hclass.2⟩

/-- The links of a chain are evaluated up to the first that fails. -/
theorem evChain_means (ctx : Ctx) {left : Expr} {rest : List (CmpOp × Expr)} {d : Nat}
    (hclass : ∀ e ∈ chainPairs left rest, classify e = none) (hdepth : d + depthRest rest ≤ maxDepth)
    : evChain ctx (operandValue ctx left) rest d = .ok ((chainPairs left rest).all (means ctx)) := by
  induction rest generalizing left with
  | nil => rfl
  | cons p rest ih =>
    rcases p with ⟨op, right⟩
    rcases isPair_of_chainPairs hclass with ⟨hpair, hrest⟩
    rw [depthRest] at hdepth
    rw [evChain, ev_operand_ok ctx hpair.isOperand_right (by omega), chainPairs, List.all_cons]
    simp only [bind, Except.bind]
    rw [means_pair hpair ctx]
    cases means ctx (.compare left [(op, right)]) with
    | true => exact ih hrest (by omega)
    | false => rfl

theorem means_desugar_compare (ctx : Ctx) {left : Expr} {rest : List (CmpOp × Expr)} (hne : rest ≠ [])
    : means ctx (desugarChains (.compare left rest)) = (chainPairs left rest).all (means ctx) := by
  match rest with
  | [] => contradiction
  | [(op, right)] => simp [desugarChains, chainPairs]
  | p :: q :: rest => rw [desugarChains, means, meansAll_eq]

theorem truth_compare (ctx : Ctx) {left : Expr} {rest : List (CmpOp × Expr)} {d : Nat}
    (h : classify (desugarChains (.compare left rest)) = none) (hdepth : d + depth (.compare left rest) ≤ maxDepth)
    : truth (ev ctx (.compare left rest) d) = .ok (means ctx (desugarChains (.compare left rest))) := by
  rcases classify_desugar_compare left rest h with ⟨hne, hclass, _⟩
  have hleft : IsOperand left := by
    cases rest with
    | nil => contradiction
    | cons p rest => exact (isPair_of_chainPairs hclass).1.isOperand_left
  rw [depth] at hdepth
  have hchain := @evChain_means ctx left rest (d + 1) hclass (by omega)
  rw [ev, if_neg (by omega), ev_operand_ok ctx hleft (by omega), means_desugar_compare ctx hne]
  simp only [bind, Except.bind, hchain]
  rfl

theorem depth_le_depthList {es : List Expr} {e : Expr} (he : e ∈ es)
    : depth e ≤ depthList es := by
  induction es with
  | nil => cases he
  | cons e' es ih =>
    rw [depthList]
    rcases List.mem_cons.mp he with rfl | he
    . omega
    . have := ih he
      omega

theorem mapM_truth {ctx : Ctx} {es : List Expr} {d : Nat}
    (h : ∀ e ∈ es, truth (ev ctx e d) = .ok (means ctx (desugarChains e)))
    : (es.mapM fun e => truth (ev ctx e d)) = .ok (es.map fun e => means ctx (desugarChains e)) := by
  induction es with
  | nil => rfl
  | cons e es ih =>
    rw [List.forall_mem_cons] at h
    rw [List.mapM_cons, h.1, ih h.2]
    rfl

/-- The evaluator evaluates an expression of the fragment to what it means. -/
theorem truth_means (ctx : Ctx) (e : Expr) {d : Nat} (h : classify (desugarChains e) = none)
    (hdepth : d + depth e ≤ maxDepth)
    : truth (ev ctx e d) = .ok (means ctx (desugarChains e)) := by
  induction e using Expr.induct generalizing d with
  | constant v => simp [desugarChains, classify, atomReason] at h
  | name f =>
    have hname : desugarChains (.name f) = .name f := by simp [desugarChains]
    rw [ev, if_neg (by omega), hname, means_name]
    rfl
  | boolOp op es ih =>
    rw [depth] at hdepth
    simp only [desugarChains, classify, classifyList_eq_none, desugarChainsList_eq, List.mem_map,
      forall_exists_index, and_imp, forall_apply_eq_imp_iff₂] at h
    have hall : ∀ e ∈ es, truth (ev ctx e (d + 1)) = .ok (means ctx (desugarChains e)) := by
      intro e he
      have hle := depth_le_depthList he
      exact ih e he (h e he) (by omega)
    rw [ev_boolOp, if_neg (by omega), mapM_truth hall]
    cases op with
    | and =>
      simp only [desugarChains, desugarChainsList_eq, means, meansAll_eq, truth, Except.map, Value.truthy, List.all_map]
      rfl
    | or =>
      simp only [desugarChains, desugarChainsList_eq, means, meansAny_eq, truth, Except.map, Value.truthy, List.any_map]
      rfl
  | unaryOp op e ih =>
    rw [depth] at hdepth
    cases op with
    | not =>
      have hbody := @ih (d + 1) (by simpa [desugarChains, classify] using h) (by omega)
      rw [ev_not, if_neg (by omega), hbody, desugarChains, means]
      rfl
    | _ => simp [desugarChains, classify, atomReason] at h
  | compare left rest => exact truth_compare ctx h hdepth
  | list es => simp [desugarChains, classify, atomReason] at h
  | tuple es => simp [desugarChains, classify, atomReason] at h
  | other k es => simp [desugarChains, classify, atomReason] at h

end LevelM
