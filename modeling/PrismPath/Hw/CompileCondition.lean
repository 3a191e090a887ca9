import PrismPath.Hw.PptCompile
import PrismPath.Kernel.LevelMLemmas

/-!
This module contains the line between the conditions that compile and those that do not, and that the classifier
draws the same one.
-/

open Python Predicates LevelM

namespace PptCompile

/- What a step of the compiler does whatever the image holds so far. -/

def Total {α : Type} (x : Build α) : Prop :=
  ∀ img, ∃ r, x img = .ok r

def Fails {α : Type} (x : Build α) : Prop :=
  ∀ img, ∃ e, x img = .error e

section Steps

variable {α β : Type}

theorem total_pure (a : α)
    : Total (pure a : Build α) :=
  fun img => ⟨(a, img), rfl⟩

theorem fails_throw (e : SubsetError)
    : Fails (throw e : Build α) :=
  fun _ => ⟨e, rfl⟩

theorem bind_ok {x : Build α} {f : α → Build β} {img img' : TableImage} {a : α} (h : x img = .ok (a, img'))
    : (x >>= f) img = f a img' := by
  show (x img >>= fun p => f p.1 p.2) = f a img'
  rw [h]
  rfl

theorem bind_error {x : Build α} {f : α → Build β} {img : TableImage} {e : SubsetError} (h : x img = .error e)
    : (x >>= f) img = .error e := by
  show (x img >>= fun p => f p.1 p.2) = .error e
  rw [h]
  rfl

theorem total_bind {x : Build α} {f : α → Build β} (hx : Total x) (hf : ∀ a, Total (f a))
    : Total (x >>= f) := by
  intro img
  rcases hx img with ⟨⟨a, img'⟩, h⟩
  rw [bind_ok h]
  exact hf a img'

theorem fails_bind_left {x : Build α} (f : α → Build β) (hx : Fails x)
    : Fails (x >>= f) := by
  intro img
  rcases hx img with ⟨e, h⟩
  exact ⟨e, bind_error h⟩

theorem fails_bind_right (x : Build α) {f : α → Build β} (hf : ∀ a, Fails (f a))
    : Fails (x >>= f) := by
  intro img
  cases h : x img with
  | error e => exact ⟨e, bind_error h⟩
  | ok r =>
    rcases r with ⟨a, img'⟩
    rw [bind_ok h]
    exact hf a img'

end Steps

theorem total_field (name : String)
    : Total (field name) :=
  fun _ => ⟨_, rfl⟩

theorem total_atom (field op ty : Nat) (val : ℤ)
    : Total (atom field op ty val) :=
  fun _ => ⟨_, rfl⟩

theorem total_internString (s : String)
    : Total (internString s) :=
  fun _ => ⟨_, rfl⟩

/- Constants. -/

/-- The constant is no integer outside 32 bits. -/
def Fits (v : Value) : Prop :=
  ∀ n, v = .int n → inI32 n = true

theorem total_encodeScalar {v : Value} (hv : scalarValue v = true) (hfits : Fits v)
    : Total (encodeScalar v) := by
  cases v with
  | none => exact total_pure _
  | bool b => exact total_pure _
  | int n =>
    rw [encodeScalar, if_pos (hfits n rfl)]
    exact total_pure _
  | str s => exact total_bind (total_internString s) fun _ => total_pure _
  | _ => cases hv

theorem fails_encodeScalar {v : Value} (hfits : ¬ Fits v)
    : Fails (encodeScalar v) := by
  unfold Fits at hfits
  simp only [not_forall] at hfits
  rcases hfits with ⟨n, rfl, hn⟩
  rw [encodeScalar, if_neg hn]
  exact fails_throw _

/- Membership. -/

theorem total_memberAtom (fidx : Nat) {v : Value} (hv : scalarValue v = true) (hfits : Fits v)
    : Total (memberAtom fidx (.constant v)) := by
  show Total (encodeScalar v >>= fun p => atom fidx opEq p.1 p.2)
  exact total_bind (total_encodeScalar hv hfits) fun p => total_atom _ _ _ _

theorem fails_memberAtom (fidx : Nat) {v : Value} (hfits : ¬ Fits v)
    : Fails (memberAtom fidx (.constant v)) := by
  show Fails (encodeScalar v >>= fun p => atom fidx opEq p.1 p.2)
  exact fails_bind_left _ (fails_encodeScalar hfits)

theorem total_memberRest (fidx : Nat) {vs : List Value} (hvs : ∀ v ∈ vs, scalarValue v = true ∧ Fits v)
    : Total (memberRest fidx (vs.map .constant)) := by
  induction vs with
  | nil => exact total_pure _
  | cons v vs ih =>
    rw [List.forall_mem_cons] at hvs
    rw [List.map_cons, memberRest]
    exact total_bind (total_memberAtom fidx hvs.1.1 hvs.1.2) fun _ => total_bind (ih hvs.2) fun _ => total_pure _

theorem fails_memberRest (fidx : Nat) {vs : List Value} (h : ∃ v ∈ vs, ¬ Fits v)
    : Fails (memberRest fidx (vs.map .constant)) := by
  induction vs with
  | nil =>
    rcases h with ⟨v, hv, _⟩
    cases hv
  | cons v vs ih =>
    simp only [List.mem_cons, exists_eq_or_imp] at h
    rw [List.map_cons, memberRest]
    rcases h with h | h
    . exact fails_bind_left _ (fails_memberAtom fidx h)
    . exact fails_bind_right _ fun _ => fails_bind_left _ (ih h)

theorem total_memberProg (fidx : Nat) {vs : List Value} (hvs : ∀ v ∈ vs, scalarValue v = true ∧ Fits v)
    : Total (memberProg fidx (vs.map .constant)) := by
  cases vs with
  | nil => exact total_pure _
  | cons v vs =>
    rw [List.forall_mem_cons] at hvs
    rw [List.map_cons, memberProg]
    exact total_bind (total_memberAtom fidx hvs.1.1 hvs.1.2) fun _ =>
      total_bind (total_memberRest fidx hvs.2) fun _ => total_pure _

theorem fails_memberProg (fidx : Nat) {vs : List Value} (h : ∃ v ∈ vs, ¬ Fits v)
    : Fails (memberProg fidx (vs.map .constant)) := by
  cases vs with
  | nil =>
    rcases h with ⟨v, hv, _⟩
    cases hv
  | cons v vs =>
    simp only [List.mem_cons, exists_eq_or_imp] at h
    rw [List.map_cons, memberProg]
    rcases h with h | h
    . exact fails_bind_left _ (fails_memberAtom fidx h)
    . exact fails_bind_right _ fun _ => fails_bind_left _ (fails_memberRest fidx h)

/- Comparisons. -/

theorem compareProg_member {f : String} {op : CmpOp} {right : Expr} {es : List Expr}
    (hright : right = .list es ∨ right = .tuple es) (hop : op ∈ membershipOps)
    : compareProg (.name f) op right
        = (field f >>= fun fidx => memberProg fidx es >>= fun prog =>
            pure (if op = .notIn then prog ++ [TableFormat.opNot] else prog)) := by
  have hop : op = .isIn ∨ op = .notIn := by simpa [membershipOps] using hop
  rw [compareProg, if_pos hop]
  rcases hright with rfl | rfl <;> rfl

theorem not_membership {op : CmpOp} (hop : op ∈ orderOps ++ eqOps)
    : ¬ (op = .isIn ∨ op = .notIn) := by
  rintro (rfl | rfl) <;> simp [orderOps, eqOps] at hop

theorem exists_astOp {op : CmpOp} (hop : op ∈ orderOps ++ eqOps)
    : ∃ opc, astOp op = some opc := by
  cases op with
  | isIn | notIn | is | isNot => simp [orderOps, eqOps] at hop
  | _ => exact ⟨_, rfl⟩

theorem compareProg_fieldConst {f : String} {op : CmpOp} {opc : Nat} (v : Value) (hop : op ∈ orderOps ++ eqOps)
    (hopc : astOp op = some opc)
    : compareProg (.name f) op (.constant v)
        = (field f >>= fun fidx => encodeScalar v >>= fun p => atom fidx opc p.1 p.2 >>= fun word => pure [word]) := by
  rw [compareProg, if_neg (not_membership hop), hopc]
  rfl

theorem compareProg_constField {f : String} {op : CmpOp} {opc : Nat} (v : Value) (hop : op ∈ orderOps ++ eqOps)
    (hopc : astOp op = some opc)
    : compareProg (.constant v) op (.name f)
        = (field f >>= fun fidx => encodeScalar v >>= fun p => atom fidx (flipOp opc) p.1 p.2 >>= fun word =>
            pure [word]) := by
  rw [compareProg, if_neg (not_membership hop), hopc]
  rfl

/-- The integer constants of an expression are in 32 bits. -/
def IntsFit (e : Expr) : Prop :=
  ∀ v ∈ e.constants, Fits v

theorem total_compareProg {left : Expr} {op : CmpOp} {right : Expr} (h : IsPair left op right)
    (hfit : IntsFit (.compare left [(op, right)]))
    : Total (compareProg left op right) := by
  cases h with
  | member hright hop hes hvs =>
    next f es vs =>
    rw [compareProg_member hright hop, eq_map_of_constantsOf hes]
    have hfits : ∀ v ∈ vs, scalarValue v = true ∧ Fits v := by
      refine fun v hv => ⟨hvs v hv, hfit v ?_⟩
      rcases hright with rfl | rfl <;> simp [eq_map_of_constantsOf hes, hv]
    exact total_bind (total_field f) fun fidx => total_bind (total_memberProg fidx hfits) fun _ => total_pure _
  | fieldConst hop hv hstr =>
    next f v =>
    rcases exists_astOp hop with ⟨opc, hopc⟩
    rw [compareProg_fieldConst v hop hopc]
    exact total_bind (total_field f) fun _ =>
      total_bind (total_encodeScalar hv (hfit v (by simp))) fun _ => total_bind (total_atom _ _ _ _) fun _ => total_pure _
  | constField hop hv hstr =>
    next f v =>
    rcases exists_astOp hop with ⟨opc, hopc⟩
    rw [compareProg_constField v hop hopc]
    exact total_bind (total_field f) fun _ =>
      total_bind (total_encodeScalar hv (hfit v (by simp))) fun _ => total_bind (total_atom _ _ _ _) fun _ => total_pure _

theorem fails_compareProg {left : Expr} {op : CmpOp} {right : Expr} (h : IsPair left op right)
    (hfit : ¬ IntsFit (.compare left [(op, right)]))
    : Fails (compareProg left op right) := by
  unfold IntsFit at hfit
  simp only [not_forall] at hfit
  rcases hfit with ⟨v, hmem, hv⟩
  cases h with
  | member hright hop hes hvs =>
    next f es vs =>
    rw [compareProg_member hright hop, eq_map_of_constantsOf hes]
    have hmem : v ∈ vs := by
      rcases hright with rfl | rfl <;> simpa [eq_map_of_constantsOf hes] using hmem
    exact fails_bind_right _ fun fidx => fails_bind_left _ (fails_memberProg fidx ⟨v, hmem, hv⟩)
  | fieldConst hop hw hstr =>
    next f w =>
    rcases exists_astOp hop with ⟨opc, hopc⟩
    have hmem : v = w := by simpa using hmem
    rw [compareProg_fieldConst w hop hopc, ← hmem]
    exact fails_bind_right _ fun _ => fails_bind_left _ (fails_encodeScalar hv)
  | constField hop hw hstr =>
    next f w =>
    rcases exists_astOp hop with ⟨opc, hopc⟩
    have hmem : v = w := by simpa using hmem
    rw [compareProg_constField w hop hopc, ← hmem]
    exact fails_bind_right _ fun _ => fails_bind_left _ (fails_encodeScalar hv)

/- Expressions. -/

theorem total_progOperands (opc : Nat) {es : List Expr} (h : ∀ e ∈ es, Total (progExpr e))
    : Total (progOperands opc es) := by
  induction es with
  | nil => exact total_pure _
  | cons e es ih =>
    rw [List.forall_mem_cons] at h
    rw [progOperands]
    exact total_bind h.1 fun _ => total_bind (ih h.2) fun _ => total_pure _

theorem fails_progOperands (opc : Nat) {es : List Expr} (h : ∃ e ∈ es, Fails (progExpr e))
    : Fails (progOperands opc es) := by
  induction es with
  | nil =>
    rcases h with ⟨e, he, _⟩
    cases he
  | cons e es ih =>
    simp only [List.mem_cons, exists_eq_or_imp] at h
    rw [progOperands]
    rcases h with h | h
    . exact fails_bind_left _ h
    . exact fails_bind_right _ fun _ => fails_bind_left _ (ih h)

theorem isPair_of_classify {left : Expr} {rest : List (CmpOp × Expr)} (h : classify (.compare left rest) = none)
    : ∃ op right, rest = [(op, right)] ∧ IsPair left op right := by
  match rest with
  | [] => simp [classify, atomReason] at h
  | [(op, right)] =>
    rw [classify_chainPair] at h
    exact ⟨op, right, rfl, isPair_of_pairReason h⟩
  | p :: q :: rest => simp [classify, atomReason] at h

theorem total_progExpr (e : Expr) (h : classify e = none) (hfit : IntsFit e)
    : Total (progExpr e) := by
  induction e using Expr.induct with
  | constant v => simp [classify, atomReason] at h
  | name f =>
    rw [progExpr]
    exact total_bind (total_field f) fun _ => total_bind (total_atom _ _ _ _) fun _ => total_pure _
  | boolOp op es ih =>
    rw [classify, classifyList_eq_none] at h
    have hes : ∀ e ∈ es, Total (progExpr e) := fun e he =>
      ih e he (h e he) fun v hv => hfit v (by rw [Expr.mem_constants_boolOp]; exact ⟨e, he, hv⟩)
    cases es with
    | nil =>
      rw [progExpr]
      exact total_pure _
    | cons e es =>
      rw [List.forall_mem_cons] at hes
      rw [progExpr]
      exact total_bind hes.1 fun _ => total_bind (total_progOperands _ hes.2) fun _ => total_pure _
  | unaryOp op e ih =>
    cases op with
    | not =>
      rw [classify] at h
      rw [progExpr]
      exact total_bind (ih h fun v hv => hfit v (by rwa [Expr.mem_constants_unaryOp])) fun _ => total_pure _
    | _ => simp [classify, atomReason] at h
  | compare left rest =>
    rcases isPair_of_classify h with ⟨op, right, rfl, hpair⟩
    rw [progExpr]
    exact total_compareProg hpair hfit
  | list es => simp [classify, atomReason] at h
  | tuple es => simp [classify, atomReason] at h
  | other k es => simp [classify, atomReason] at h

theorem fails_progExpr (e : Expr) (h : classify e = none) (hfit : ¬ IntsFit e)
    : Fails (progExpr e) := by
  induction e using Expr.induct with
  | constant v => simp [classify, atomReason] at h
  | name f =>
    refine absurd ?_ hfit
    intro v hv
    simp at hv
  | boolOp op es ih =>
    rw [classify, classifyList_eq_none] at h
    have hes : ∃ e ∈ es, Fails (progExpr e) := by
      unfold IntsFit at hfit
      simp only [not_forall, Expr.mem_constants_boolOp] at hfit
      rcases hfit with ⟨v, ⟨e, he, hmem⟩, hv⟩
      exact ⟨e, he, ih e he (h e he) fun hall => hv (hall v hmem)⟩
    cases es with
    | nil =>
      rcases hes with ⟨e, he, _⟩
      cases he
    | cons e es =>
      simp only [List.mem_cons, exists_eq_or_imp] at hes
      rw [progExpr]
      rcases hes with hes | hes
      . exact fails_bind_left _ hes
      . exact fails_bind_right _ fun _ => fails_bind_left _ (fails_progOperands _ hes)
  | unaryOp op e ih =>
    cases op with
    | not =>
      rw [classify] at h
      rw [progExpr]
      exact fails_bind_left _ (ih h fun hall => hfit fun v hv => hall v (by rwa [Expr.mem_constants_unaryOp] at hv))
    | _ => simp [classify, atomReason] at h
  | compare left rest =>
    rcases isPair_of_classify h with ⟨op, right, rfl, hpair⟩
    rw [progExpr]
    exact fails_compareProg hpair hfit
  | list es => simp [classify, atomReason] at h
  | tuple es => simp [classify, atomReason] at h
  | other k es => simp [classify, atomReason] at h

/- The desugared expression has the constants of the expression. -/

theorem constants_chainPairs (left : Expr) {rest : List (CmpOp × Expr)} (hne : rest ≠ []) (v : Value)
    : (∃ e ∈ chainPairs left rest, v ∈ e.constants) ↔ v ∈ left.constants ∨ ∃ p ∈ rest, v ∈ p.2.constants := by
  induction rest generalizing left with
  | nil => contradiction
  | cons p rest ih =>
    rcases p with ⟨op, right⟩
    simp only [chainPairs, List.mem_cons, exists_eq_or_imp, Expr.mem_constants_compare, List.not_mem_nil, or_false,
      exists_eq_left]
    cases rest with
    | nil => simp [chainPairs]
    | cons q rest =>
      rw [ih right (by simp)]
      tauto

theorem mem_constants_desugar (e : Expr) (v : Value)
    : v ∈ (desugarChains e).constants ↔ v ∈ e.constants := by
  induction e using Expr.induct with
  | boolOp op es ih =>
    simp only [desugarChains, desugarChainsList_eq, Expr.mem_constants_boolOp, List.mem_map, exists_exists_and_eq_and]
    exact exists_congr fun e => and_congr_right (ih e)
  | unaryOp op e ih =>
    cases op with
    | not => simp only [desugarChains, Expr.mem_constants_unaryOp, ih]
    | _ => simp only [desugarChains]
  | compare left rest =>
    rcases rest with _ | ⟨p, _ | ⟨q, rest⟩⟩
    . simp only [desugarChains]
    . simp only [desugarChains]
    . rw [desugarChains, Expr.mem_constants_boolOp, constants_chainPairs left (by simp), Expr.mem_constants_compare]
  | _ => simp only [desugarChains]

theorem intsFit_desugar (e : Expr)
    : IntsFit (desugarChains e) ↔ IntsFit e := by
  unfold IntsFit
  simp only [mem_constants_desugar]

/- The static gate lets the fragment through. -/

theorem disallowed_of_isOperand {e : Expr} (h : IsOperand e)
    : disallowed e = [] := by
  have hconsts : ∀ {es : List Expr} {vs : List Value}, constantsOf es = some vs → ∀ e ∈ es, disallowed e = [] := by
    intro es vs hes e he
    rw [eq_map_of_constantsOf hes] at he
    rcases List.mem_map.mp he with ⟨v, _, rfl⟩
    rfl
  cases h with
  | name f => rfl
  | constant v => rfl
  | list hes => exact disallowed_list_eq_nil.mpr (hconsts hes)
  | tuple hes => exact disallowed_tuple_eq_nil.mpr (hconsts hes)

theorem disallowed_of_isPair {left : Expr} {op : CmpOp} {right : Expr} (h : IsPair left op right)
    : CmpOp.disallowed op = [] := by
  have hop : op ∈ orderOps ++ eqOps ++ membershipOps := by
    cases h with
    | member _ hop _ _ => exact List.mem_append_right _ hop
    | fieldConst hop _ _ => exact List.mem_append_left _ hop
    | constField hop _ _ => exact List.mem_append_left _ hop
  cases op with
  | is | isNot => simp [orderOps, eqOps, membershipOps] at hop
  | _ => rfl

theorem disallowed_of_chainPairs {left : Expr} {rest : List (CmpOp × Expr)}
    (h : ∀ e ∈ chainPairs left rest, classify e = none)
    : ∀ p ∈ rest, CmpOp.disallowed p.1 = [] ∧ disallowed p.2 = [] := by
  induction rest generalizing left with
  | nil => simp
  | cons p rest ih =>
    rcases p with ⟨op, right⟩
    rw [chainPairs, List.forall_mem_cons, classify_chainPair] at h
    have hpair := isPair_of_pairReason h.1
    rw [List.forall_mem_cons]
    exact ⟨⟨disallowed_of_isPair hpair, disallowed_of_isOperand hpair.isOperand_right⟩, ih h.2⟩

/-- What the classifier accepts has no node outside the grammar. -/
theorem disallowed_of_classify (e : Expr) (h : classify (desugarChains e) = none)
    : disallowed e = [] := by
  induction e using Expr.induct with
  | constant v => rfl
  | name f => rfl
  | boolOp op es ih =>
    simp only [desugarChains, classify, classifyList_eq_none, desugarChainsList_eq, List.mem_map,
      forall_exists_index, and_imp, forall_apply_eq_imp_iff₂] at h
    exact disallowed_boolOp_eq_nil.mpr fun e he => ih e he (h e he)
  | unaryOp op e ih =>
    cases op with
    | not =>
      exact disallowed_unaryOp_eq_nil.mpr ⟨rfl, ih (by simpa [desugarChains, classify] using h)⟩
    | _ => simp [desugarChains, classify, atomReason] at h
  | compare left rest =>
    rcases classify_desugar_compare left rest h with ⟨hne, hclass, -⟩
    have hrest := disallowed_of_chainPairs hclass
    have hleft : disallowed left = [] := by
      cases rest with
      | nil => contradiction
      | cons p rest =>
        rcases p with ⟨op, right⟩
        have := hclass (.compare left [(op, right)]) (by simp [chainPairs])
        rw [classify_chainPair] at this
        exact disallowed_of_isOperand (isPair_of_pairReason this).isOperand_left
    exact disallowed_compare_eq_nil.mpr ⟨hleft, hrest⟩
  | list es => simp [desugarChains, classify, atomReason] at h
  | tuple es => simp [desugarChains, classify, atomReason] at h
  | other k es => simp [desugarChains, classify, atomReason] at h

/- The conditions that compile. -/

/-- The gate finds no problem in the fragment, up to its depth. -/
theorem checkPredicate_of_classify {py : Runtime} {cond : String} {body : Expr} (hdet : isDeterministic cond = true)
    (hverdict : isVerdict (exprOf cond) = false) (hparse : py.parse (exprOf cond) = some body)
    (hclass : classify (desugarChains (foldUnarySigns body)) = none) (hdepth : depth (foldUnarySigns body) ≤ maxDepth)
    : checkPredicate py cond = [] := by
  rw [checkPredicate]
  simp only [hdet, Bool.not_true, Bool.false_eq_true, if_false, hverdict, exprOf_ne_empty hdet hverdict, hparse,
    disallowed_of_classify _ hclass, not_lt.mpr hdepth, List.map_nil]
  rfl

theorem total_of_verdict {py : Runtime} {cond : String} (hdet : isDeterministic cond = true)
    (hverdict : isVerdict (exprOf cond) = true)
    : Total (compileCondition py cond) := by
  rw [isVerdict, Bool.or_eq_true, decide_eq_true_eq, decide_eq_true_eq] at hverdict
  rw [compileCondition, hdet]
  simp only [Bool.not_true, Bool.false_eq_true, if_false]
  split
  next => exact total_pure _
  next halways =>
    rw [if_pos (hverdict.resolve_left halways)]
    exact total_pure _

/-- A condition that is no verdict, past the gate. -/
theorem compileCondition_eq {py : Runtime} {cond : String} (hdet : isDeterministic cond = true)
    (hverdict : isVerdict (exprOf cond) = false)
    : compileCondition py cond
        =
      if checkPredicate py cond ≠ [] then
        throw (.notLevelM .disallowedOrUnparseable)
      else
        match exprAst py cond with
        | none => throw (.notLevelM .disallowedOrUnparseable)
        | some tree =>
          match classify (desugarChains tree) with
          | some reason => throw (.notLevelM reason)
          | none => progExpr (desugarChains tree) := by
  rw [isVerdict, Bool.or_eq_false_iff, decide_eq_false_iff_not, decide_eq_false_iff_not] at hverdict
  rw [compileCondition, exprAst, hdet]
  simp only [Bool.not_true, Bool.false_eq_true, if_false, hverdict.1, hverdict.2, isVerdict, decide_false, Bool.or_false]
  cases py.parse (exprOf cond) with
  | none => rfl
  | some body => rfl

/-- The gate of the compiler is not the classifier's: an expression past the depth limit compiles under no verdict. -/
theorem fails_of_tooDeep {py : Runtime} {cond : String} {tree : Expr} (htree : exprAst py cond = some tree)
    (hdepth : maxDepth < depth tree)
    : Fails (compileCondition py cond) := by
  rcases conditionTree_of_exprAst htree with ⟨hparse, hdet, hverdict⟩
  rcases Option.map_eq_some_iff.mp hparse with ⟨body, hbody, rfl⟩
  have hgate : checkPredicate py cond ≠ [] := by
    rw [checkPredicate]
    simp only [hdet, Bool.not_true, Bool.false_eq_true, if_false, hverdict, exprOf_ne_empty hdet hverdict, hbody,
      hdepth, if_true]
    intro hnil
    have hmem : Problem.tooDeep cond ∈ (List.map (Problem.disallowed cond) (disallowed (foldUnarySigns body))
        ++ [Problem.tooDeep cond]).eraseDups := by
      rw [List.mem_eraseDups]
      simp
    rw [hnil] at hmem
    cases hmem
  rw [compileCondition_eq hdet hverdict, if_pos hgate]
  exact fails_throw _

/-- A condition whose text is an expression. -/
theorem total_or_fails {py : Runtime} {cond : String} {tree : Expr} (htree : exprAst py cond = some tree)
    (hdepth : depth tree ≤ maxDepth)
    : (classify (desugarChains tree) = none ∧ IntsFit tree → Total (compileCondition py cond))
        ∧ (¬ (classify (desugarChains tree) = none ∧ IntsFit tree) → Fails (compileCondition py cond)) := by
  rcases conditionTree_of_exprAst htree with ⟨hparse, hdet, hverdict⟩
  rcases Option.map_eq_some_iff.mp hparse with ⟨body, hbody, rfl⟩
  rw [compileCondition_eq hdet hverdict, htree]
  cases hclass : classify (desugarChains (foldUnarySigns body)) with
  | some reason =>
    simp only [hclass, reduceCtorEq, false_and, not_false_eq_true, false_implies, true_and, forall_const]
    split <;> exact fails_throw _
  | none =>
    rw [if_neg (not_not.mpr (checkPredicate_of_classify hdet hverdict hbody hclass hdepth))]
    simp only [hclass, true_and]
    constructor
    . exact fun hfit => total_progExpr _ hclass ((intsFit_desugar _).mpr hfit)
    . exact fun hfit => fails_progExpr _ hclass (mt (intsFit_desugar _).mp hfit)

theorem compile_condition_succeeds_iff (py : Runtime) (cond : String) (img : TableImage)
    (hdepth : ∀ tree, exprAst py cond = some tree → depth tree ≤ maxDepth)
    : (∃ prog img', compileCondition py cond img = .ok (prog, img'))
        ↔
      isDeterministic cond = true
        ∧ isLevelM py cond = true
        ∧ ∀ tree, exprAst py cond = some tree → IntsFit tree := by
  have hsucceeds : Total (compileCondition py cond) → ∃ prog img', compileCondition py cond img = .ok (prog, img') := by
    intro h
    rcases h img with ⟨⟨prog, img'⟩, h⟩
    exact ⟨prog, img', h⟩
  have hfails : Fails (compileCondition py cond) → ¬ ∃ prog img', compileCondition py cond img = .ok (prog, img') := by
    rintro hx ⟨prog, img', h⟩
    rcases hx img with ⟨e, he⟩
    rw [he] at h
    cases h
  cases hdet : isDeterministic cond with
  | false =>
    simp only [Bool.false_eq_true, false_and, iff_false]
    apply hfails
    rw [compileCondition, hdet]
    exact fails_throw _
  | true =>
    have hlevel : isLevelM py cond = decide (deterministicReason py cond = none) := by
      rw [isLevelM, reasonOf, if_pos hdet]
    rw [hlevel, decide_eq_true_eq, deterministicReason]
    cases hverdict : isVerdict (exprOf cond) with
    | true =>
      have hast : exprAst py cond = none := by
        rw [exprAst_eq, hverdict, Bool.not_true, Bool.and_false, if_neg Bool.false_ne_true]
      simp only [hast, if_true, reduceCtorEq, false_implies, implies_true, and_true, iff_true]
      exact hsucceeds (total_of_verdict hdet hverdict)
    | false =>
      cases hast : exprAst py cond with
      | none =>
        simp only [Bool.false_eq_true, if_false, reduceCtorEq, false_and, and_false, iff_false]
        apply hfails
        rw [compileCondition_eq hdet hverdict, hast]
        split <;> exact fails_throw _
      | some tree =>
        simp only [Bool.false_eq_true, if_false, true_and, Option.some.injEq, forall_eq']
        rcases total_or_fails hast (hdepth tree hast) with ⟨htotal, hfail⟩
        by_cases h : classify (desugarChains tree) = none ∧ IntsFit tree
        . exact iff_of_true (hsucceeds (htotal h)) h
        . exact iff_of_false (hfails (hfail h)) h

/-- A runtime that parses one comparison. -/
def speedPy : Runtime where
  parse
    | "speed >= -5" => some (.compare (.name "speed") [(.gtE, .unaryOp .uSub (.constant (.int 5)))])
    | _ => none
  str := fun _ => ""
  int := fun _ => none

theorem exprAst_speed
    : exprAst speedPy "when speed >= -5" = some (.compare (.name "speed") [(.gtE, .constant (.int (-5)))]) := by
  have hdet : isDeterministic "when speed >= -5" = true := by with_unfolding_all decide
  have hexpr : exprOf "when speed >= -5" = "speed >= -5" := by with_unfolding_all decide
  have hverdict : isVerdict "speed >= -5" = false := by with_unfolding_all decide
  rw [exprAst_eq, conditionTree, hdet, hexpr, hverdict]
  rfl

theorem speed_compiles
    : ∃ prog img', compileCondition speedPy "when speed >= -5" .empty = .ok (prog, img') := by
  apply (compile_condition_succeeds_iff speedPy "when speed >= -5" .empty ?_).mpr
  . refine ⟨by with_unfolding_all decide, by with_unfolding_all decide, ?_⟩
    intro tree htree
    rw [exprAst_speed, Option.some.injEq] at htree
    subst htree
    intro v hv n hn
    subst hn
    simp only [Expr.mem_constants_compare, Expr.constants_name, List.not_mem_nil, List.mem_singleton, exists_eq_left,
      Expr.constants_constant, Value.int.injEq, false_or] at hv
    subst hv
    decide
  . intro tree htree
    rw [exprAst_speed, Option.some.injEq] at htree
    subst htree
    decide

/-- An error edge is a default row to the classifier, and the compiler has no edges of that tier. -/
theorem errorEdge_does_not_compile
    : isLevelM speedPy "on error" = true
        ∧ (∀ tree, exprAst speedPy "on error" = some tree → IntsFit tree)
        ∧ ¬ ∃ prog img', compileCondition speedPy "on error" .empty = .ok (prog, img') := by
  have hdet : isDeterministic "on error" = false := by with_unfolding_all decide
  have hast : exprAst speedPy "on error" = none := by
    rw [exprAst_eq, hdet, Bool.false_and, if_neg Bool.false_ne_true]
  refine ⟨?_, ?_, ?_⟩
  . with_unfolding_all decide
  . intro tree htree
    rw [hast] at htree
    cases htree
  . rintro ⟨prog, img', h⟩
    rw [compileCondition, hdet] at h
    cases h

end PptCompile
