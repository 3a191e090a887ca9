import PrismPath.Kernel.LevelM
import PrismPath.Kernel.PredicatesLemmas

/-!
This module contains the proof that a Level M condition depends on a context only through its atoms.
-/

open Python

namespace LevelM

open Predicates

/-- Two contexts that no atom of the list tells apart. -/
def Agree (as : List (String × Atom)) (c₁ c₂ : Ctx) : Prop :=
  ∀ p ∈ as, p.2.holds (c₁ p.1) = p.2.holds (c₂ p.1)

theorem Agree.mono {as bs : List (String × Atom)} {c₁ c₂ : Ctx} (h : Agree bs c₁ c₂) (hsub : as ⊆ bs)
    : Agree as c₁ c₂ :=
  fun p hp => h p (hsub hp)

@[simp]
theorem agree_append (as bs : List (String × Atom)) (c₁ c₂ : Ctx)
    : Agree (as ++ bs) c₁ c₂ ↔ Agree as c₁ c₂ ∧ Agree bs c₁ c₂ := by
  simp only [Agree, List.mem_append, or_imp, forall_and]

theorem classifyList_eq_none (es : List Expr)
    : classifyList es = none ↔ ∀ e ∈ es, classify e = none := by
  induction es with
  | nil => simp [classifyList]
  | cons e es ih =>
    simp only [classifyList, List.forall_mem_cons, ← ih]
    cases classify e with
    | none => simp
    | some reason => simp

theorem atomsOfList_eq (es : List Expr)
    : atomsOfList es = es.flatMap atomsOf := by
  induction es with
  | nil => rfl
  | cons e es ih => simp [atomsOfList, ih]

theorem desugarChainsList_eq (es : List Expr)
    : desugarChainsList es = es.map desugarChains := by
  induction es with
  | nil => rfl
  | cons e es ih => simp [desugarChainsList, ih]

/-- The value of a name, a constant or a list of constants; no other expression is an operand. -/
def operandValue (ctx : Ctx) : Expr → Value
  | .name f => ctx f
  | .constant v => v
  | .list es => .list ((constantsOf es).getD [])
  | .tuple es => .list ((constantsOf es).getD [])
  | _ => .none

/-- Whether an operand at this depth passes the depth limit, its elements included. -/
def operandDepth : Expr → Nat
  | .list (_ :: _) => 1
  | .tuple (_ :: _) => 1
  | _ => 0

inductive IsOperand : Expr → Prop
  | name (f : String) : IsOperand (.name f)
  | constant (v : Value) : IsOperand (.constant v)
  | list {es : List Expr} {vs : List Value} : constantsOf es = some vs → IsOperand (.list es)
  | tuple {es : List Expr} {vs : List Value} : constantsOf es = some vs → IsOperand (.tuple es)

theorem eq_map_of_constantsOf {es : List Expr} {vs : List Value} (h : constantsOf es = some vs)
    : es = vs.map .constant := by
  induction es generalizing vs with
  | nil =>
    simp only [constantsOf, Option.some.injEq] at h
    simp [← h]
  | cons e es ih =>
    cases e with
    | constant v =>
      simp only [constantsOf, Option.map_eq_some_iff] at h
      rcases h with ⟨ws, hws, rfl⟩
      simp [ih hws]
    | _ => simp [constantsOf] at h

theorem evList_constants (ctx : Ctx) {es : List Expr} {vs : List Value} (depth : Nat)
    (h : constantsOf es = some vs) (hdepth : es = [] ∨ depth ≤ maxDepth)
    : evList ctx es depth = .ok vs := by
  induction es generalizing vs with
  | nil => simp_all [evList, constantsOf]
  | cons e es ih =>
    have hle : depth ≤ maxDepth := by simpa using hdepth
    cases e with
    | constant v =>
      simp only [constantsOf, Option.map_eq_some_iff] at h
      rcases h with ⟨ws, hws, rfl⟩
      rw [evList, ev, if_neg (Nat.not_lt.mpr hle), ih hws (Or.inr hle)]
      rfl
    | _ => simp [constantsOf] at h

theorem evList_tooDeep (ctx : Ctx) {es : List Expr} {vs : List Value} (depth : Nat)
    (h : constantsOf es = some vs) (hne : es ≠ []) (hdepth : maxDepth < depth)
    : evList ctx es depth = .error .tooDeep := by
  cases es with
  | nil => contradiction
  | cons e es =>
    rw [evList, ev.eq_def, if_pos hdepth]
    rfl

theorem ev_operand (ctx : Ctx) {e : Expr} (depth : Nat) (h : IsOperand e)
    : ev ctx e depth
        =
      if maxDepth < depth + operandDepth e then .error .tooDeep else .ok (operandValue ctx e) := by
  cases h with
  | name f => simp [ev, operandDepth, operandValue]
  | constant v => simp [ev, operandDepth, operandValue]
  | list hes =>
    next es vs =>
    by_cases hdepth : maxDepth < depth
    . have : maxDepth < depth + operandDepth (.list es) := by omega
      simp [ev, hdepth, this]
    . cases es with
      | nil =>
        rw [ev, evList_constants ctx _ hes (Or.inl rfl)]
        simp_all [operandDepth, operandValue, constantsOf]
      | cons e es =>
        by_cases htop : maxDepth < depth + 1
        . rw [ev, evList_tooDeep ctx _ hes (by simp) htop]
          simp [operandDepth, htop]
        . rw [ev, evList_constants ctx _ hes (Or.inr (by omega))]
          simp [operandDepth, operandValue, htop, hdepth, hes]
  | tuple hes =>
    next es vs =>
    by_cases hdepth : maxDepth < depth
    . have : maxDepth < depth + operandDepth (.tuple es) := by omega
      simp [ev, hdepth, this]
    . cases es with
      | nil =>
        rw [ev, evList_constants ctx _ hes (Or.inl rfl)]
        simp_all [operandDepth, operandValue, constantsOf]
      | cons e es =>
        by_cases htop : maxDepth < depth + 1
        . rw [ev, evList_tooDeep ctx _ hes (by simp) htop]
          simp [operandDepth, htop]
        . rw [ev, evList_constants ctx _ hes (Or.inr (by omega))]
          simp [operandDepth, operandValue, htop, hdepth, hes]

theorem constantsOf_of_eltsReason {es : List Expr} (h : eltsReason es = none)
    : ∃ vs, constantsOf es = some vs ∧ ∀ v ∈ vs, scalarValue v := by
  induction es with
  | nil => exact ⟨[], rfl, by simp⟩
  | cons e es ih =>
    cases e with
    | constant v =>
      by_cases hv : scalarValue v
      . rcases ih (by simpa [eltsReason, scalarConst, hv] using h) with ⟨vs, hvs, hscalar⟩
        refine ⟨v :: vs, by simp [constantsOf, hvs], ?_⟩
        simpa [hv] using hscalar
      . simp [eltsReason, scalarConst, hv] at h
    | _ => simp [eltsReason, scalarConst] at h

/-- The three shapes of a comparison in the fragment. -/
inductive IsPair : Expr → CmpOp → Expr → Prop
  | member {f : String} {op : CmpOp} {right : Expr} {es : List Expr} {vs : List Value}
      (hright : right = .list es ∨ right = .tuple es) (hop : op ∈ membershipOps)
      (hes : constantsOf es = some vs) (hvs : ∀ v ∈ vs, scalarValue v)
      : IsPair (.name f) op right
  | fieldConst {f : String} {op : CmpOp} {v : Value} (hop : op ∈ orderOps ++ eqOps)
      (hv : scalarValue v) (hstr : orderedConstReason op v = none)
      : IsPair (.name f) op (.constant v)
  | constField {f : String} {op : CmpOp} {v : Value} (hop : op ∈ orderOps ++ eqOps)
      (hv : scalarValue v) (hstr : orderedConstReason op v = none)
      : IsPair (.constant v) op (.name f)

theorem isPair_of_pairReason {left : Expr} {op : CmpOp} {right : Expr}
    (h : pairReason left op right = none)
    : IsPair left op right := by
  unfold pairReason at h
  split at h
  . contradiction
  . next hop =>
    split at h
    . next hmem =>
      cases left with
      | name f =>
        cases right with
        | list es =>
          rcases constantsOf_of_eltsReason h with ⟨vs, hes, hvs⟩
          exact .member (Or.inl rfl) hmem hes hvs
        | tuple es =>
          rcases constantsOf_of_eltsReason h with ⟨vs, hes, hvs⟩
          exact .member (Or.inr rfl) hmem hes hvs
        | constant v => cases v <;> simp [collectionReason] at h
        | _ => simp [collectionReason] at h
      | _ => simp at h
    . next hmem =>
      have hop : op ∈ orderOps ++ eqOps := by
        simp only [List.mem_append, not_not] at hop hmem ⊢
        tauto
      split at h
      . split at h
        . next hv => exact .fieldConst hop hv h
        . contradiction
      . split at h
        . next hv => exact .constField hop hv h
        . contradiction
      . contradiction
      . split at h <;> contradiction

theorem IsPair.isOperand_left {left : Expr} {op : CmpOp} {right : Expr} (h : IsPair left op right)
    : IsOperand left := by
  cases h <;> constructor

theorem IsPair.isOperand_right {left : Expr} {op : CmpOp} {right : Expr} (h : IsPair left op right)
    : IsOperand right := by
  cases h with
  | member hright hop hes hvs =>
    rcases hright with rfl | rfl
    . exact .list hes
    . exact .tuple hes
  | fieldConst => exact .constant _
  | constField => exact .name _

theorem scalarEq_comm (v w : Value)
    : v.scalarEq w = w.scalarEq v := by
  have hnum (x y : Number) : x.eq y = y.eq x := by
    cases x <;> cases y <;> simp [Number.eq, eq_comm]
  have hcomplex (x y : Option (Number × Number))
      : (x.elim false fun a => y.elim false fun b => a.1.eq b.1 && a.2.eq b.2)
          = y.elim false fun a => x.elim false fun b => a.1.eq b.1 && a.2.eq b.2 := by
    cases x <;> cases y <;> simp [hnum]
  have hparts := hcomplex v.complex? w.complex?
  cases v <;> cases w <;> first | exact hparts | simp [Value.scalarEq, eq_comm]

theorem eq_comm_of_scalar {v w : Value} (h : scalarValue v)
    : v.eq w = w.eq v := by
  cases w with
  | list ws => cases v <;> simp_all [scalarValue, Value.eq, Value.scalarEq, Value.complex?, Value.num?]
  | dict kws => cases v <;> simp_all [scalarValue, Value.eq, Value.scalarEq, Value.complex?, Value.num?]
  | _ => cases v <;> simp_all [scalarValue, Value.eq, scalarEq_comm]

/-- Turning an ordering around, as the flip of `atomsOf` does. -/
def flipOrder : Value.OrderOp → Value.OrderOp
  | .lt => .gt
  | .le => .ge
  | .gt => .lt
  | .ge => .le

theorem order_flip_of_scalar {v w : Value} (op : Value.OrderOp) (h : scalarValue v)
    (hstr : v.isStr = false)
    : v.order op w = w.order (flipOrder op) v := by
  have hnum (x y : Number) : op.num x y = (flipOrder op).num y x := by
    cases op <;> rfl
  cases w with
  | list ws => cases v <;> simp_all [scalarValue, Value.order, Value.scalarOrder, Value.num?, Value.isStr]
  | _ =>
    cases v <;> simp_all [scalarValue, Value.order, Value.scalarOrder, Value.num?, Value.isStr]

theorem compare_flip {v w : Value} {op : CmpOp} (hop : op ∈ orderOps ++ eqOps) (hv : scalarValue v)
    (hstr : orderedConstReason op v = none)
    : Predicates.compare op v w = Predicates.compare (flip op) w v := by
  have hnstr (ho : op ∈ orderOps) : v.isStr = false := by
    cases v <;> simp_all [Value.isStr, orderedConstReason]
  cases op with
  | eq => simp [Predicates.compare, flip, eq_comm_of_scalar hv]
  | notEq => simp [Predicates.compare, flip, eq_comm_of_scalar hv]
  | lt => simp [Predicates.compare, flip, order_flip_of_scalar _ hv (hnstr (by simp [orderOps])), flipOrder]
  | ltE => simp [Predicates.compare, flip, order_flip_of_scalar _ hv (hnstr (by simp [orderOps])), flipOrder]
  | gt => simp [Predicates.compare, flip, order_flip_of_scalar _ hv (hnstr (by simp [orderOps])), flipOrder]
  | gtE => simp [Predicates.compare, flip, order_flip_of_scalar _ hv (hnstr (by simp [orderOps])), flipOrder]
  | _ => simp [orderOps, eqOps] at hop

/-- An atom's comparison never errs, so `holds` decides it. -/
theorem compare_eq_ok {op : CmpOp} (hop : op ∈ orderOps ++ eqOps) (v w : Value)
    : ∃ b, Predicates.compare op v w = .ok b := by
  cases op <;> simp_all [Predicates.compare, orderOps, eqOps]

theorem holds_compare {op : CmpOp} (hop : op ∈ orderOps ++ eqOps) (v const : Value)
    : Predicates.compare op v const = .ok ((Atom.compare op const).holds v) := by
  rcases compare_eq_ok hop v const with ⟨b, hb⟩
  simp [Atom.holds, hb]

theorem holds_member {op : CmpOp} (hop : op ∈ membershipOps) (v : Value) (consts : List Value)
    : Predicates.compare op v (.list consts) = .ok ((Atom.member (op = .notIn) consts).holds v) := by
  cases op <;> simp_all [Predicates.compare, membershipOps, Value.contains, Atom.holds]

theorem flip_mem {op : CmpOp} (hop : op ∈ orderOps ++ eqOps)
    : flip op ∈ orderOps ++ eqOps := by
  cases op <;> simp_all [flip, orderOps, eqOps]

/-- The one atom a comparison of the fragment is, and what the comparison evaluates to in a context. -/
theorem IsPair.exists_atom {left : Expr} {op : CmpOp} {right : Expr} (h : IsPair left op right)
    : ∃ f a,
        pairAtoms left op right = [(f, a)]
          ∧
        ∀ ctx : Ctx, Predicates.compare op (operandValue ctx left) (operandValue ctx right)
          = .ok (a.holds (ctx f)) := by
  cases h with
  | member hright hop hes hvs =>
    next f es vs =>
    refine ⟨f, .member (op = .notIn) vs, ?_, ?_⟩
    . have hnot : op ∉ orderOps ++ eqOps := by
        cases op <;> simp_all [membershipOps, orderOps, eqOps]
      rcases hright with rfl | rfl <;> simp only [pairAtoms, hnot, hop, hes] <;> rfl
    . intro ctx
      rcases hright with rfl | rfl <;> simp [operandValue, hes, holds_member hop]
  | fieldConst hop hv hstr =>
    next f v =>
    refine ⟨f, .compare op v, ?_, ?_⟩
    . simp only [pairAtoms, hop, if_true]
    . intro ctx
      simp [operandValue, holds_compare hop]
  | constField hop hv hstr =>
    next f v =>
    refine ⟨f, .compare (flip op) v, ?_, ?_⟩
    . simp only [pairAtoms, hop, if_true]
    . intro ctx
      simp [operandValue, compare_flip hop hv hstr, holds_compare (flip_mem hop)]

theorem compare_congr {left : Expr} {op : CmpOp} {right : Expr} {c₁ c₂ : Ctx} (h : IsPair left op right)
    (hag : Agree (pairAtoms left op right) c₁ c₂)
    : Predicates.compare op (operandValue c₁ left) (operandValue c₁ right)
        =
      Predicates.compare op (operandValue c₂ left) (operandValue c₂ right) := by
  rcases h.exists_atom with ⟨f, a, hatoms, hval⟩
  rw [hval, hval]
  have := hag (f, a) (by simp [hatoms])
  rw [this]

theorem classify_chainPair (left : Expr) (op : CmpOp) (right : Expr)
    : classify (.compare left [(op, right)]) = pairReason left op right := by
  simp [classify, atomReason]

theorem atomsOf_chainPair (left : Expr) (op : CmpOp) (right : Expr)
    : atomsOf (.compare left [(op, right)]) = pairAtoms left op right := by
  simp [atomsOf]

theorem evChain_congr {c₁ c₂ : Ctx} (left : Expr) (rest : List (CmpOp × Expr)) (depth : Nat)
    (hclass : ∀ e ∈ chainPairs left rest, classify e = none)
    (hag : Agree ((chainPairs left rest).flatMap atomsOf) c₁ c₂)
    : evChain c₁ (operandValue c₁ left) rest depth = evChain c₂ (operandValue c₂ left) rest depth := by
  induction rest generalizing left with
  | nil => rfl
  | cons p rest ih =>
    rcases p with ⟨op, right⟩
    simp only [chainPairs, List.forall_mem_cons, classify_chainPair] at hclass
    simp only [chainPairs, List.flatMap_cons, agree_append, atomsOf_chainPair] at hag
    have hpair := isPair_of_pairReason hclass.1
    simp only [evChain, ev_operand _ _ hpair.isOperand_right]
    split
    . rfl
    . have hcmp := compare_congr hpair hag.1
      have hrest := ih right hclass.2 hag.2
      simp only [bind, Except.bind, hcmp, hrest]

theorem classify_desugar_compare (left : Expr) (rest : List (CmpOp × Expr))
    (h : classify (desugarChains (.compare left rest)) = none)
    : rest ≠ []
        ∧ (∀ e ∈ chainPairs left rest, classify e = none)
        ∧ atomsOf (desugarChains (.compare left rest)) = (chainPairs left rest).flatMap atomsOf := by
  match rest with
  | [] => simp [desugarChains, classify, atomReason] at h
  | [(op, right)] =>
    simp only [desugarChains] at h ⊢
    simp [chainPairs, h]
  | p :: q :: rest =>
    simp only [desugarChains, classify, classifyList_eq_none] at h ⊢
    refine ⟨by simp, h, ?_⟩
    simp [atomsOf, atomsOfList_eq]

theorem truth_compare_congr {c₁ c₂ : Ctx} (left : Expr) (rest : List (CmpOp × Expr)) (depth : Nat)
    (h : classify (desugarChains (.compare left rest)) = none)
    (hag : Agree (atomsOf (desugarChains (.compare left rest))) c₁ c₂)
    : truth (ev c₁ (.compare left rest) depth) = truth (ev c₂ (.compare left rest) depth) := by
  rcases classify_desugar_compare left rest h with ⟨hne, hclass, hatoms⟩
  rw [hatoms] at hag
  have hleft : IsOperand left := by
    cases rest with
    | nil => contradiction
    | cons p rest =>
      rcases p with ⟨op, right⟩
      have := hclass (.compare left [(op, right)]) (by simp [chainPairs])
      rw [classify_chainPair] at this
      exact (isPair_of_pairReason this).isOperand_left
  rw [ev, ev]
  split
  . rfl
  . simp only [ev_operand _ _ hleft]
    split
    . rfl
    . have := evChain_congr left rest (depth + 1) hclass hag
      simp only [bind, Except.bind, this]

theorem truth_congr {c₁ c₂ : Ctx} (e : Expr) (depth : Nat) (h : classify (desugarChains e) = none)
    (hag : Agree (atomsOf (desugarChains e)) c₁ c₂)
    : truth (ev c₁ e depth) = truth (ev c₂ e depth) := by
  induction e using Expr.induct generalizing depth with
  | constant v => simp [desugarChains, classify, atomReason] at h
  | name f =>
    have := hag (f, .truthy) (by simp [desugarChains, atomsOf])
    simp only [Atom.holds] at this
    rw [ev, ev]
    split
    . rfl
    . simp [truth, Except.map, this]
  | boolOp op es ih =>
    simp only [desugarChains, classify, classifyList_eq_none, desugarChainsList_eq, List.mem_map,
      forall_exists_index, and_imp, forall_apply_eq_imp_iff₂] at h
    simp only [desugarChains, atomsOf, atomsOfList_eq, desugarChainsList_eq, List.flatMap_map] at hag
    apply congrArg truth
    apply ev_boolOp_congr
    intro e he
    apply ih e he _ (h e he)
    apply hag.mono
    intro p hp
    exact List.mem_flatMap.mpr ⟨e, he, hp⟩
  | unaryOp op e ih =>
    cases op with
    | not =>
      apply congrArg truth
      apply ev_not_congr
      exact ih _ (by simpa [desugarChains, classify] using h) (by simpa [desugarChains, atomsOf] using hag)
    | _ => simp [desugarChains, classify, atomReason] at h
  | compare left rest => exact truth_compare_congr left rest depth h hag
  | list es => simp [desugarChains, classify, atomReason] at h
  | tuple es => simp [desugarChains, classify, atomReason] at h
  | other k es => simp [desugarChains, classify, atomReason] at h

theorem classify_of_isLevelM {py : Runtime} {cond : String} {body : Expr}
    (hbody : exprAst py cond = some body) (hlevel : isLevelM py cond)
    : classify (desugarChains body) = none := by
  rcases conditionTree_of_exprAst hbody with ⟨-, hdet, hverdict⟩
  have hreason : reasonOf py cond = none := of_decide_eq_true hlevel
  simpa only [reasonOf, hdet, if_true, deterministicReason, hverdict, Bool.false_eq_true, if_false,
    hbody] using hreason

theorem mem_names_of_pairAtoms {left : Expr} {op : CmpOp} {right : Expr} {f : String} {a : Atom}
    (h : (f, a) ∈ pairAtoms left op right)
    : f ∈ left.names ++ right.names := by
  unfold pairAtoms at h
  split at h
  . split at h <;> simp_all [Expr.names]
  . split at h
    . split at h
      . simp only [Option.mem_toList, Option.map_eq_some_iff] at h
        rcases h with ⟨vs, -, heq⟩
        cases heq
        simp [Expr.names]
      . simp only [Option.mem_toList, Option.map_eq_some_iff] at h
        rcases h with ⟨vs, -, heq⟩
        cases heq
        simp [Expr.names]
      . simp at h
    . simp at h

theorem mem_names_of_chainPairs {left : Expr} {rest : List (CmpOp × Expr)} {f : String} {a : Atom}
    (h : (f, a) ∈ (chainPairs left rest).flatMap atomsOf)
    : f ∈ left.names ++ Expr.namesRest rest := by
  induction rest generalizing left with
  | nil => simp [chainPairs] at h
  | cons p rest ih =>
    rcases p with ⟨op, right⟩
    rw [chainPairs, List.flatMap_cons, atomsOf_chainPair, List.mem_append] at h
    rcases h with h | h
    . have := mem_names_of_pairAtoms h
      simp only [Expr.namesRest, List.mem_append] at this ⊢
      tauto
    . have := ih h
      simp only [Expr.namesRest, List.mem_append] at this ⊢
      tauto

/-- The atoms of an expression ask its own names. -/
theorem mem_names_of_mem_atomsOf {e : Expr} {f : String} {a : Atom} (h : (f, a) ∈ atomsOf (desugarChains e))
    : f ∈ e.names := by
  induction e using Expr.induct with
  | constant v => simp [desugarChains, atomsOf] at h
  | name id => simp_all [desugarChains, atomsOf, Expr.names]
  | boolOp op es ih =>
    simp only [desugarChains, atomsOf, atomsOfList_eq, desugarChainsList_eq, List.flatMap_map,
      List.mem_flatMap] at h
    rcases h with ⟨e, he, h⟩
    rw [Expr.names, Expr.namesList_eq]
    exact List.mem_flatMap.mpr ⟨e, he, ih e he h⟩
  | unaryOp op e ih =>
    cases op with
    | not => exact ih (by simpa [desugarChains, atomsOf] using h)
    | _ => simp [desugarChains, atomsOf] at h
  | compare left rest =>
    rw [Expr.names]
    rcases rest with _ | ⟨p, _ | ⟨q, rest⟩⟩
    . simp [desugarChains, atomsOf] at h
    . apply mem_names_of_chainPairs
      simpa [chainPairs, desugarChains] using h
    . apply mem_names_of_chainPairs
      simpa [desugarChains, atomsOf, atomsOfList_eq] using h
  | list es => simp [desugarChains, atomsOf] at h
  | tuple es => simp [desugarChains, atomsOf] at h
  | other k es => simp [desugarChains, atomsOf] at h

/-- Constants of the fragment only, and no string in an order. -/
def Atom.Scalar : Atom → Prop
  | truthy => True
  | compare op const => op ∈ orderOps ++ eqOps ∧ scalarValue const ∧ orderedConstReason op const = none
  | member _ consts => ∀ const ∈ consts, scalarValue const

theorem orderedConstReason_flip (op : CmpOp) (v : Value)
    : orderedConstReason (flip op) v = orderedConstReason op v := by
  cases v <;> cases op <;> rfl

theorem IsPair.scalar {left : Expr} {op : CmpOp} {right : Expr} (h : IsPair left op right) {f : String} {a : Atom}
    (hmem : (f, a) ∈ pairAtoms left op right)
    : a.Scalar := by
  cases h with
  | member hright hop hes hvs =>
    have hnot : op ∉ orderOps ++ eqOps := by
      cases op <;> simp_all [membershipOps, orderOps, eqOps]
    rcases hright with rfl | rfl
    . simp only [pairAtoms, hnot, hop, hes, if_true, if_false, Option.map_some, Option.toList_some,
        List.mem_singleton, Prod.mk.injEq] at hmem
      rw [hmem.2]
      exact hvs
    . simp only [pairAtoms, hnot, hop, hes, if_true, if_false, Option.map_some, Option.toList_some,
        List.mem_singleton, Prod.mk.injEq] at hmem
      rw [hmem.2]
      exact hvs
  | fieldConst hop hv hstr =>
    simp only [pairAtoms, hop, if_true, List.mem_singleton, Prod.mk.injEq] at hmem
    rw [hmem.2]
    exact ⟨hop, hv, hstr⟩
  | constField hop hv hstr =>
    simp only [pairAtoms, hop, if_true, List.mem_singleton, Prod.mk.injEq] at hmem
    rw [hmem.2]
    exact ⟨flip_mem hop, hv, (orderedConstReason_flip _ _).trans hstr⟩

theorem scalar_of_mem_chainPairs {left : Expr} {rest : List (CmpOp × Expr)}
    (hclass : ∀ e ∈ chainPairs left rest, classify e = none) {f : String} {a : Atom}
    (h : (f, a) ∈ (chainPairs left rest).flatMap atomsOf)
    : a.Scalar := by
  induction rest generalizing left with
  | nil => simp [chainPairs] at h
  | cons p rest ih =>
    rcases p with ⟨op, right⟩
    rw [chainPairs, List.forall_mem_cons, classify_chainPair] at hclass
    rw [chainPairs, List.flatMap_cons, atomsOf_chainPair, List.mem_append] at h
    rcases h with h | h
    . exact (isPair_of_pairReason hclass.1).scalar h
    . exact ih hclass.2 h

theorem scalar_of_mem_atomsOf {e : Expr} (hclass : classify (desugarChains e) = none) {f : String} {a : Atom}
    (h : (f, a) ∈ atomsOf (desugarChains e))
    : a.Scalar := by
  induction e using Expr.induct with
  | constant v => simp [desugarChains, atomsOf] at h
  | name id =>
    simp only [desugarChains, atomsOf, List.mem_singleton, Prod.mk.injEq] at h
    rw [h.2]
    trivial
  | boolOp op es ih =>
    simp only [desugarChains, classify, classifyList_eq_none, desugarChainsList_eq, List.mem_map,
      forall_exists_index, and_imp, forall_apply_eq_imp_iff₂] at hclass
    simp only [desugarChains, atomsOf, atomsOfList_eq, desugarChainsList_eq, List.flatMap_map,
      List.mem_flatMap] at h
    rcases h with ⟨e, he, h⟩
    exact ih e he (hclass e he) h
  | unaryOp op e ih =>
    cases op with
    | not => exact ih (by simpa [desugarChains, classify] using hclass) (by simpa [desugarChains, atomsOf] using h)
    | _ => simp [desugarChains, atomsOf] at h
  | compare left rest =>
    rcases classify_desugar_compare left rest hclass with ⟨_, hpairs, hatoms⟩
    rw [hatoms] at h
    exact scalar_of_mem_chainPairs hpairs h
  | list es => simp [desugarChains, atomsOf] at h
  | tuple es => simp [desugarChains, atomsOf] at h
  | other k es => simp [desugarChains, atomsOf] at h

theorem conditionAtoms_of_exprAst {py : Runtime} {cond : String} {body : Expr}
    (hbody : exprAst py cond = some body)
    : conditionAtoms py cond = atomsOf (desugarChains body) := by
  unfold conditionAtoms
  rw [hbody]

theorem scalar_of_mem_conditionAtoms {py : Runtime} {cond : String} (hlevel : isLevelM py cond) {f : String} {a : Atom}
    (h : (f, a) ∈ conditionAtoms py cond)
    : a.Scalar := by
  cases hbody : exprAst py cond with
  | none =>
    rw [conditionAtoms, hbody] at h
    cases h
  | some body =>
    rw [conditionAtoms_of_exprAst hbody] at h
    exact scalar_of_mem_atomsOf (classify_of_isLevelM hbody hlevel) h

/-- A condition of the fragment cannot tell two contexts apart that agree on its atoms. -/
theorem hit_congr {py : Runtime} {cond : String} {c₁ c₂ : Ctx} (hdet : isDeterministic cond)
    (hlevel : exprAst py cond = none ∨ isLevelM py cond) (hag : Agree (conditionAtoms py cond) c₁ c₂)
    : hit py cond c₁ = hit py cond c₂ := by
  apply hit_eq_of_evalCondition
  apply evalCondition_congr_of_truth
  intro body hverdict htree
  have hbody : exprAst py cond = some body := by
    rw [exprAst_eq, hdet, hverdict]
    exact htree
  rw [conditionAtoms_of_exprAst hbody] at hag
  rcases hlevel with hnone | hlevel
  . rw [hnone] at hbody
    cases hbody
  . exact truth_congr body 0 (classify_of_isLevelM hbody hlevel) hag

theorem evalCondition_congr {py : Runtime} {cond : String} {c₁ c₂ : Ctx} (hdet : isDeterministic cond)
    (hlevel : isLevelM py cond) (hag : Agree (conditionAtoms py cond) c₁ c₂)
    : evalCondition py cond c₁ = evalCondition py cond c₂ := by
  apply evalCondition_congr_of_truth
  intro body hverdict htree
  have hbody : exprAst py cond = some body := by
    rw [exprAst_eq, hdet, hverdict]
    exact htree
  rw [conditionAtoms_of_exprAst hbody] at hag
  exact truth_congr body 0 (classify_of_isLevelM hbody hlevel) hag

end LevelM
