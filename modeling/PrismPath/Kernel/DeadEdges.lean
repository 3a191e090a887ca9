import PrismPath.Kernel.StuckCheck
import PrismPath.Lib.Process
import PrismPath.Python.ValueLemmas

/-!
This module contains that a condition which counts as always false matches on no context, and for which conditions the
question has an answer at all.
-/

open Python

namespace Analysis

open Predicates Parser

/- Values inside an interval. -/

/-- The part of a number, complex ones among them, that bounds are about. -/
def real? (v : Value) : Option Number :=
  v.complex?.map Prod.fst

/-- The value is no lower than the end. -/
def Bound.Below (low : Bound) (v : Value) : Prop :=
  ∃ x, real? v = some x ∧ (low.value.lt x = true ∨ (low.inclusive = true ∧ low.value.eq x = true))

/-- The value is no higher than the end. -/
def Bound.Above (high : Bound) (v : Value) : Prop :=
  ∃ x, real? v = some x ∧ (x.lt high.value = true ∨ (high.inclusive = true ∧ x.eq high.value = true))

theorem real?_of_num? {v : Value} {x : Number} (h : v.num? = some x)
    : real? v = some x := by
  unfold real?
  rw [Value.complex?_of_num? h]
  rfl

/-- An interval that a value is in has numbers. -/
theorem contradict_eq_false {low high : Bound} {v : Value} (hlow : low.Below v) (hhigh : high.Above v)
    : contradict low high = false := by
  rcases hlow with ⟨x, hx, hlow⟩
  rcases hhigh with ⟨y, hy, hhigh⟩
  have hxy : x = y := by
    rw [hx] at hy
    exact Option.some.inj hy
  subst hxy
  rcases low with ⟨l, linc⟩
  rcases high with ⟨h, hinc⟩
  simp only at hlow hhigh
  unfold contradict
  simp only
  -- one case for each kind of end and of number
  cases l <;> cases h <;> cases x <;> simp_all [Number.lt, Number.eq]
  next p q r =>
    constructor
    . rcases hlow with hlow | hlow <;> rcases hhigh with hhigh | hhigh <;> grind
    . intro heq
      rcases hlow with hlow | hlow <;> rcases hhigh with hhigh | hhigh <;> grind

/- What a comparison says of the field. -/

/-- What `var op x` says of the value of `var`, as far as the bounds take it in. -/
def Meets (op : CmpOp) (x : Number) (v : Value) : Prop :=
  match op with
  | .gt => Bound.Below ⟨x, false⟩ v
  | .gtE => Bound.Below ⟨x, true⟩ v
  | .lt => Bound.Above ⟨x, false⟩ v
  | .ltE => Bound.Above ⟨x, true⟩ v
  | .eq => Bound.Below ⟨x, true⟩ v ∧ Bound.Above ⟨x, true⟩ v
  | _ => True

theorem num?_of_order {op : Value.OrderOp} {v w : Value} {x : Number} (hw : w.num? = some x)
    (h : (v.order op w).getD false = true)
    : ∃ y, v.num? = some y := by
  cases hv : v.num? with
  | some y => exact ⟨y, rfl⟩
  | none =>
    cases v with
    | list vs =>
      rw [Value.list_order_of_num? op vs hw] at h
      cases h
    | _ => cases w <;> simp_all [Value.order, Value.scalarOrder, Value.num?]

theorem num?_of_order_left {op : Value.OrderOp} {v w : Value} {x : Number} (hv : v.num? = some x)
    (h : (v.order op w).getD false = true)
    : ∃ y, w.num? = some y := by
  cases hw : w.num? with
  | some y => exact ⟨y, rfl⟩
  | none =>
    rw [Value.order_eq_none_of_num? op hv hw] at h
    cases h

theorem meets_of_order {op : CmpOp} (order : Value.OrderOp) {v w : Value} {x : Number} (hop : orderOf op = some order)
    (hw : w.num? = some x) (h : (v.order order w).getD false = true)
    : Meets op x v := by
  rcases num?_of_order hw h with ⟨y, hy⟩
  rw [Value.order_of_num? order hy hw, Option.getD_some] at h
  have hreal := real?_of_num? hy
  cases op with
  | lt =>
    cases hop
    exact ⟨y, hreal, .inl h⟩
  | ltE =>
    cases hop
    have hle : (y.lt x || y.eq x) = true := h
    rw [Bool.or_eq_true] at hle
    exact ⟨y, hreal, hle.imp_right fun heq => ⟨rfl, heq⟩⟩
  | gt =>
    cases hop
    exact ⟨y, hreal, .inl h⟩
  | gtE =>
    cases hop
    have hle : (x.lt y || x.eq y) = true := h
    rw [Bool.or_eq_true] at hle
    exact ⟨y, hreal, hle.imp_right fun heq => ⟨rfl, heq⟩⟩
  | _ => cases hop

theorem numberEq_comm (x y : Number)
    : x.eq y = y.eq x := by
  cases x <;> cases y <;> simp [Number.eq, eq_comm]

theorem meets_of_eq {v w : Value} {x : Number} (hw : w.num? = some x) (h : w.eq v = true)
    : Meets .eq x v := by
  have hscalar : w.scalarEq v = true := by
    cases w <;> simp_all [Value.eq, Value.num?]
  rw [Value.scalarEq_of_num? v hw] at hscalar
  cases hv : v.complex? with
  | none => simp [hv] at hscalar
  | some parts =>
    rcases parts with ⟨c, d⟩
    rw [hv, Bool.and_eq_true] at hscalar
    have hreal : real? v = some c := by
      unfold real?
      rw [hv]
      rfl
    refine ⟨⟨c, hreal, .inr ⟨rfl, hscalar.1⟩⟩, c, hreal, .inr ⟨rfl, ?_⟩⟩
    rw [numberEq_comm]
    exact hscalar.1

theorem eq_num?_comm {v w : Value} {x : Number} (hw : w.num? = some x)
    : v.eq w = w.eq v := by
  have hleft : w.eq v = w.scalarEq v := by
    cases w <;> simp_all [Value.eq, Value.num?]
  rw [hleft, Value.scalarEq_of_num? v hw]
  cases v with
  | list vs => exact Value.list_eq_of_num? vs hw
  | dict kvs => cases w <;> simp_all [Value.eq, Value.num?, Value.complex?]
  | _ =>
    rw [Value.eq, Value.scalarEq_num?_right hw]
    all_goals simp [Value.complex?, Value.num?, numberEq_comm]

/-- A comparison that holds puts the field inside the bounds it sets. -/
theorem meets_of_compare {op : CmpOp} {v w : Value} {x : Number} (hw : w.num? = some x)
    (h : compare op v w = .ok true)
    : Meets op x v := by
  cases op with
  | eq =>
    apply meets_of_eq hw
    rw [← eq_num?_comm hw]
    exact Except.ok.inj h
  | lt => exact meets_of_order .lt rfl hw (Except.ok.inj h)
  | ltE => exact meets_of_order .le rfl hw (Except.ok.inj h)
  | gt => exact meets_of_order .gt rfl hw (Except.ok.inj h)
  | gtE => exact meets_of_order .ge rfl hw (Except.ok.inj h)
  | _ => trivial

theorem order_swap {op op' : Value.OrderOp} {v w : Value} {x : Number} (hw : w.num? = some x)
    (hop : ∀ y, op'.num y x = op.num x y) (h : (w.order op v).getD false = true)
    : (v.order op' w).getD false = true := by
  rcases num?_of_order_left hw h with ⟨y, hy⟩
  rw [Value.order_of_num? op hw hy, Option.getD_some] at h
  rw [Value.order_of_num? op' hy hw, Option.getD_some, hop]
  exact h

/-- The same with the literal on the left. -/
theorem meets_of_compare_left {op op' : CmpOp} {v w : Value} {x : Number} (hw : w.num? = some x)
    (hflip : flip op' = .ok op) (h : compare op' w v = .ok true)
    : Meets op x v := by
  cases op' with
  | eq =>
    cases hflip
    exact meets_of_eq hw (Except.ok.inj h)
  | notEq =>
    cases hflip
    trivial
  | lt =>
    cases hflip
    exact meets_of_order .gt rfl hw (order_swap hw (fun _ => rfl) (Except.ok.inj h))
  | ltE =>
    cases hflip
    exact meets_of_order .ge rfl hw (order_swap hw (fun _ => rfl) (Except.ok.inj h))
  | gt =>
    cases hflip
    exact meets_of_order .lt rfl hw (order_swap hw (fun _ => rfl) (Except.ok.inj h))
  | gtE =>
    cases hflip
    exact meets_of_order .le rfl hw (order_swap hw (fun _ => rfl) (Except.ok.inj h))
  | _ => cases hflip

theorem asSimpleCompare_cases {e : Expr} {var : String} {op : CmpOp} {v : Value}
    (h : asSimpleCompare e = .ok (some (var, op, v)))
    : e = .compare (.name var) [(op, .constant v)] ∨
        ∃ op', flip op' = .ok op ∧ e = .compare (.constant v) [(op', .name var)] := by
  unfold asSimpleCompare at h
  split at h
  . split at h
    . cases h
      exact .inl rfl
    . cases h
  . split at h
    . next w op' id _ =>
      cases hflip : flip op' with
      | error e =>
        rw [hflip] at h
        cases h
      | ok op'' =>
        rw [hflip] at h
        cases h
        exact .inr ⟨op', hflip, rfl⟩
    . cases h
  . cases h

theorem compare_of_holds {l r : Expr} {v w : Value} {op : CmpOp} {ctx : Ctx}
    (hsafe : Safe (.compare l [(op, r)])) (hl : ev ctx l 1 = .ok v) (hr : ev ctx r 1 = .ok w)
    (h : holds ctx (.compare l [(op, r)]) = true)
    : compare op v w = .ok true := by
  have hallowed := (disallowed_compare_eq_nil.mp hsafe.allowed).2 (op, r) List.mem_cons_self
  rcases compare_isOk hallowed.1 v w with ⟨b, hb⟩
  rw [holds_compare hl hr hb] at h
  rw [hb, h]

theorem meets_of_holds {e : Expr} {var : String} {op : CmpOp} {v : Value} {x : Number} {ctx : Ctx}
    (hsimple : asSimpleCompare e = .ok (some (var, op, v))) (hv : v.num? = some x) (hsafe : Safe e)
    (h : holds ctx e = true)
    : Meets op x (ctx var) := by
  have hname : ev ctx (.name var) 1 = .ok (ctx var) := by
    rw [ev, if_neg (by decide)]
  have hconstant : ev ctx (.constant v) 1 = .ok v := by
    rw [ev, if_neg (by decide)]
  rcases asSimpleCompare_cases hsimple with rfl | ⟨op', hflip, rfl⟩
  . exact meets_of_compare hv (compare_of_holds hsafe hname hconstant h)
  . exact meets_of_compare_left hv hflip (compare_of_holds hsafe hconstant hname h)

/- The bounds that a conjunction collects. -/

/-- The fields are inside the bounds. -/
structure Within (ctx : Ctx) (bounds : Bounds) : Prop where
  lower : ∀ p ∈ bounds.lower, p.2.Below (ctx p.1)
  upper : ∀ p ∈ bounds.upper, p.2.Above (ctx p.1)

theorem mem_tightenLower {lower : List (String × Bound)} {var : String} {x : Number} {inc : Bool} {p : String × Bound}
    (h : p ∈ tightenLower lower var x inc)
    : p = (var, ⟨x, inc⟩) ∨ p ∈ lower := by
  unfold tightenLower at h
  split at h
  . exact Dict.mem_set h
  . split at h
    . exact Dict.mem_set h
    . exact .inr h

theorem mem_tightenUpper {upper : List (String × Bound)} {var : String} {x : Number} {inc : Bool} {p : String × Bound}
    (h : p ∈ tightenUpper upper var x inc)
    : p = (var, ⟨x, inc⟩) ∨ p ∈ upper := by
  unfold tightenUpper at h
  split at h
  . exact Dict.mem_set h
  . split at h
    . exact Dict.mem_set h
    . exact .inr h

theorem below_tightenLower {ctx : Ctx} {lower : List (String × Bound)} {var : String} {x : Number} {inc : Bool}
    (h : ∀ p ∈ lower, p.2.Below (ctx p.1)) (hnew : Bound.Below ⟨x, inc⟩ (ctx var))
    : ∀ p ∈ tightenLower lower var x inc, p.2.Below (ctx p.1) := by
  intro p hp
  rcases mem_tightenLower hp with rfl | hp
  . exact hnew
  . exact h p hp

theorem above_tightenUpper {ctx : Ctx} {upper : List (String × Bound)} {var : String} {x : Number} {inc : Bool}
    (h : ∀ p ∈ upper, p.2.Above (ctx p.1)) (hnew : Bound.Above ⟨x, inc⟩ (ctx var))
    : ∀ p ∈ tightenUpper upper var x inc, p.2.Above (ctx p.1) := by
  intro p hp
  rcases mem_tightenUpper hp with rfl | hp
  . exact hnew
  . exact h p hp

theorem Within.tighten {ctx : Ctx} {bounds : Bounds} {var : String} {op : CmpOp} {x : Number} (h : Within ctx bounds)
    (hmeets : Meets op x (ctx var))
    : Within ctx (tighten bounds var op x) := by
  cases op with
  | gt => exact ⟨below_tightenLower h.lower hmeets, h.upper⟩
  | gtE => exact ⟨below_tightenLower h.lower hmeets, h.upper⟩
  | lt => exact ⟨h.lower, above_tightenUpper h.upper hmeets⟩
  | ltE => exact ⟨h.lower, above_tightenUpper h.upper hmeets⟩
  | eq => exact ⟨below_tightenLower h.lower hmeets.1, above_tightenUpper h.upper hmeets.2⟩
  | _ => exact h

/-- A conjunct that holds keeps the fields inside the bounds. -/
theorem Within.tightenBy {ctx : Ctx} {bounds bounds' : Bounds} {e : Expr} (h : Within ctx bounds) (hsafe : Safe e)
    (hholds : holds ctx e = true) (hok : tightenBy bounds e = .ok bounds')
    : Within ctx bounds' := by
  unfold Analysis.tightenBy at hok
  cases hsimple : asSimpleCompare e with
  | error err =>
    rw [hsimple] at hok
    cases hok
  | ok parsed =>
    rw [hsimple] at hok
    cases parsed with
    | none =>
      cases hok
      exact h
    | some found =>
      rcases found with ⟨var, op, v⟩
      simp only [bind, Except.bind] at hok
      cases hv : v.num? with
      | none =>
        rw [hv] at hok
        cases hok
        exact h
      | some x =>
        rw [hv] at hok
        cases hok
        exact h.tighten (meets_of_holds hsimple hv hsafe hholds)

theorem Within.foldlM {ctx : Ctx} {conjuncts : List Expr} {bounds bounds' : Bounds} (h : Within ctx bounds)
    (hsafe : ∀ e ∈ conjuncts, Safe e) (hholds : ∀ e ∈ conjuncts, holds ctx e = true)
    (hok : conjuncts.foldlM Analysis.tightenBy bounds = .ok bounds')
    : Within ctx bounds' := by
  induction conjuncts generalizing bounds with
  | nil =>
    cases hok
    exact h
  | cons e conjuncts ih =>
    rw [List.foldlM_cons] at hok
    rw [List.forall_mem_cons] at hsafe hholds
    cases hstep : Analysis.tightenBy bounds e with
    | error err =>
      rw [hstep] at hok
      cases hok
    | ok next =>
      rw [hstep] at hok
      exact ih (h.tightenBy hsafe.1 hholds.1 hstep) hsafe.2 hholds.2 hok

theorem Within.not_contradictory {ctx : Ctx} {bounds : Bounds} (h : Within ctx bounds)
    : bounds.contradictory = false := by
  unfold Bounds.contradictory
  rw [List.any_eq_false]
  rintro ⟨var, low⟩ hlow
  simp only [Bool.not_eq_true]
  cases hhigh : bounds.upper.lookup var with
  | none => rfl
  | some high =>
    apply contradict_eq_false (h.lower _ hlow)
    exact h.upper _ (Dict.mem_of_lookup hhigh)

/- Conjunctions. -/

theorem mem_flattenAndList {es out : List Expr} (h : flattenAndList es = some out)
    : ∀ c ∈ out, ∃ e ∈ es, ∃ sub, flattenAnd e = some sub ∧ c ∈ sub := by
  induction es generalizing out with
  | nil =>
    cases h
    intro c hc
    cases hc
  | cons e es ih =>
    rw [flattenAndList] at h
    split at h
    . next sub rest hsub hrest =>
      cases h
      intro c hc
      rcases List.mem_append.mp hc with hc | hc
      . exact ⟨e, List.mem_cons_self, sub, hsub, hc⟩
      . rcases ih hrest c hc with ⟨e', he', sub', hsub', hc'⟩
        exact ⟨e', List.mem_cons_of_mem _ he', sub', hsub', hc'⟩
    . cases h

theorem Safe.operand {op : BoolOp} {es : List Expr} (h : Safe (.boolOp op es)) {e : Expr} (he : e ∈ es)
    : Safe e := by
  have hdepth := h.shallow
  rw [depth] at hdepth
  have hle := depth_le_depthList he
  refine ⟨disallowed_boolOp_eq_nil.mp h.allowed e he, ?_⟩
  omega

/-- Flattening stays inside the grammar. -/
theorem Safe.conjunct (e : Expr)
    : ∀ {out : List Expr}, flattenAnd e = some out → Safe e → ∀ c ∈ out, Safe c := by
  induction e using Expr.induct with
  | boolOp op es ih =>
    intro out hflat hsafe c hc
    cases op with
    | or => cases hflat
    | and =>
      rw [flattenAnd] at hflat
      rcases mem_flattenAndList hflat c hc with ⟨e, he, sub, hsub, hc⟩
      exact ih e he hsub (hsafe.operand he) c hc
  | _ =>
    intro out hflat hsafe c hc
    cases hflat
    rw [List.mem_singleton.mp hc]
    exact hsafe

theorem mem_of_evList {ctx : Ctx} {es : List Expr} {d : ℕ} {vs : List Value} (h : evList ctx es d = .ok vs) {e : Expr}
    (he : e ∈ es)
    : ∃ v ∈ vs, ev ctx e d = .ok v := by
  induction es generalizing vs with
  | nil => cases he
  | cons e' es ih =>
    rw [evList] at h
    cases hv : ev ctx e' d with
    | error err =>
      rw [hv] at h
      cases h
    | ok v =>
      rw [hv] at h
      cases hvs : evList ctx es d with
      | error err =>
        rw [hvs] at h
        cases h
      | ok vs' =>
        rw [hvs] at h
        cases h
        rcases List.mem_cons.mp he with rfl | he
        . exact ⟨v, List.mem_cons_self, hv⟩
        . rcases ih hvs he with ⟨w, hw, hev⟩
          exact ⟨w, List.mem_cons_of_mem _ hw, hev⟩

/-- Each operand of a conjunction that holds does. -/
theorem holds_operand {ctx : Ctx} {es : List Expr} (hsafe : Safe (.boolOp .and es))
    (h : holds ctx (.boolOp .and es) = true) {e : Expr} (he : e ∈ es)
    : holds ctx e = true := by
  have hzero : ¬ maxDepth < 0 := by omega
  unfold holds at h
  rw [ev, if_neg hzero] at h
  cases hvs : evList ctx es (0 + 1) with
  | error err =>
    rw [hvs] at h
    cases h
  | ok vs =>
    rw [hvs] at h
    have hall : vs.all Value.truthy = true := h
    rcases mem_of_evList hvs he with ⟨v, hv, hev⟩
    have hdepth := hsafe.shallow
    rw [depth] at hdepth
    have hle := depth_le_depthList he
    have hshift : ev ctx e 0 = .ok v := by
      rw [← hev]
      apply ev_shift <;> omega
    unfold holds
    rw [hshift]
    exact List.all_eq_true.mp hall v hv

/-- So does each of the conjuncts it is flattened to. -/
theorem conjunct_of_holds {ctx : Ctx} (e : Expr)
    : ∀ {out : List Expr}, flattenAnd e = some out → Safe e → holds ctx e = true →
        ∀ c ∈ out, holds ctx c = true := by
  induction e using Expr.induct with
  | boolOp op es ih =>
    intro out hflat hsafe hholds c hc
    cases op with
    | or => cases hflat
    | and =>
      rw [flattenAnd] at hflat
      rcases mem_flattenAndList hflat c hc with ⟨e, he, sub, hsub, hc⟩
      exact ih e he hsub (hsafe.operand he) (holds_operand hsafe hholds he) c hc
  | _ =>
    intro out hflat hsafe hholds c hc
    cases hflat
    rw [List.mem_singleton.mp hc]
    exact hholds

/- Conditions. -/

theorem holds_of_isAlwaysFalseTree {e : Expr} (h : isAlwaysFalseTree e = .ok true) (hsafe : Safe e) (ctx : Ctx)
    : holds ctx e = false := by
  unfold isAlwaysFalseTree at h
  split at h
  . next v =>
    have hfalsy : (!v.truthy) = true := Except.ok.inj h
    unfold holds
    rw [ev, if_neg (by omega)]
    simpa using hfalsy
  . by_contra hholds
    rw [Bool.not_eq_false] at hholds
    cases hflat : flattenAnd e with
    | none =>
      rw [hflat] at h
      cases h
    | some conjuncts =>
      rw [hflat] at h
      simp only at h
      cases hbounds : conjuncts.foldlM tightenBy {} with
      | error err =>
        rw [hbounds] at h
        cases h
      | ok bounds =>
        rw [hbounds] at h
        have hcontradictory : bounds.contradictory = true := Except.ok.inj h
        have hconjuncts := conjunct_of_holds e hflat hsafe hholds
        have hempty : Within ctx {} := ⟨fun _ hp => (by cases hp), fun _ hp => (by cases hp)⟩
        have hwithin := hempty.foldlM (Safe.conjunct e hflat hsafe) hconjuncts hbounds
        rw [hwithin.not_contradictory] at hcontradictory
        cases hcontradictory

/-- A condition that counts as always false matches on no context. -/
theorem hit_of_isAlwaysFalse {py : Runtime} {condition : String} (h : isAlwaysFalse py condition = .ok true)
    (hcheck : checkPredicate py condition = []) (ctx : Ctx)
    : hit py condition ctx = false := by
  unfold isAlwaysFalse at h
  cases htree : exprAst py condition with
  | none =>
    rw [htree] at h
    cases h
  | some tree =>
    rw [htree] at h
    have hsafe := safe_of_checkPredicate htree hcheck
    rw [hit_eq_holds htree hsafe]
    exact holds_of_isAlwaysFalseTree h hsafe ctx

/- Where the question has an answer. -/

/-- `number in var` or `number not in var`, which a comparison with the literal on the left has no flipped form of. -/
def numberIn : Expr → Bool
  | .compare (.constant v) [(.isIn, .name _)] => v.isNumber
  | .compare (.constant v) [(.notIn, .name _)] => v.isNumber
  | _ => false

/-- One of the conjuncts of the condition is of that form. -/
def asksNumberIn (py : Runtime) (condition : String) : Bool :=
  match (exprAst py condition).bind flattenAnd with
  | some conjuncts => conjuncts.any numberIn
  | none => false

theorem asSimpleCompare_isOk_iff {e : Expr} (hsafe : Safe e)
    : (∃ parsed, asSimpleCompare e = .ok parsed) ↔ numberIn e = false := by
  unfold asSimpleCompare
  split
  . exact ⟨fun _ => rfl, fun _ => ⟨_, rfl⟩⟩
  . next v op id =>
    have hallowed := ((disallowed_compare_eq_nil.mp hsafe.allowed).2 (op, .name id) List.mem_cons_self).1
    cases hnumber : v.isNumber with
    | false =>
      refine ⟨fun _ => ?_, fun _ => ⟨none, rfl⟩⟩
      cases op <;> simp [numberIn, hnumber]
    | true =>
      cases op with
      | is => cases hallowed
      | isNot => cases hallowed
      | isIn =>
        constructor
        . rintro ⟨_, hparsed⟩
          cases hparsed
        . intro h
          rw [numberIn, hnumber] at h
          cases h
      | notIn =>
        constructor
        . rintro ⟨_, hparsed⟩
          cases hparsed
        . intro h
          rw [numberIn, hnumber] at h
          cases h
      | _ => exact ⟨fun _ => rfl, fun _ => ⟨_, rfl⟩⟩
  . next hname hconstant =>
    refine ⟨fun _ => ?_, fun _ => ⟨_, rfl⟩⟩
    unfold numberIn
    split
    . exact absurd rfl (hconstant _ _ _)
    . exact absurd rfl (hconstant _ _ _)
    . rfl

theorem tightenBy_isOk_iff {bounds : Bounds} {e : Expr} (hsafe : Safe e)
    : (∃ bounds', tightenBy bounds e = .ok bounds') ↔ numberIn e = false := by
  rw [← asSimpleCompare_isOk_iff hsafe]
  unfold tightenBy
  cases asSimpleCompare e with
  | error err =>
    constructor
    . rintro ⟨_, h⟩
      cases h
    . rintro ⟨_, h⟩
      cases h
  | ok parsed =>
    refine ⟨fun _ => ⟨parsed, rfl⟩, fun _ => ?_⟩
    cases parsed with
    | none => exact ⟨bounds, rfl⟩
    | some found =>
      rcases found with ⟨var, op, v⟩
      simp only [bind, Except.bind]
      cases v.num? with
      | none => exact ⟨_, rfl⟩
      | some x => exact ⟨_, rfl⟩

theorem foldlM_tightenBy_isOk_iff {conjuncts : List Expr} (bounds : Bounds) (hsafe : ∀ e ∈ conjuncts, Safe e)
    : (∃ bounds', conjuncts.foldlM tightenBy bounds = .ok bounds') ↔ conjuncts.any numberIn = false := by
  induction conjuncts generalizing bounds with
  | nil => exact ⟨fun _ => rfl, fun _ => ⟨bounds, rfl⟩⟩
  | cons e conjuncts ih =>
    rw [List.forall_mem_cons] at hsafe
    rw [List.foldlM_cons, List.any_cons, Bool.or_eq_false_iff, ← @tightenBy_isOk_iff bounds e hsafe.1]
    cases hstep : tightenBy bounds e with
    | error err =>
      constructor
      . rintro ⟨_, h⟩
        cases h
      . rintro ⟨⟨_, h⟩, _⟩
        cases h
    | ok next =>
      rw [← ih next hsafe.2]
      exact ⟨fun h => ⟨⟨next, rfl⟩, h⟩, fun h => h.2⟩

theorem isAlwaysFalseTree_isOk_iff {e : Expr} (hsafe : Safe e)
    : (∃ b, isAlwaysFalseTree e = .ok b) ↔ (match flattenAnd e with
        | some conjuncts => conjuncts.any numberIn
        | none => false) = false := by
  unfold isAlwaysFalseTree
  split
  . exact ⟨fun _ => rfl, fun _ => ⟨_, rfl⟩⟩
  . cases hflat : flattenAnd e with
    | none => exact ⟨fun _ => rfl, fun _ => ⟨false, rfl⟩⟩
    | some conjuncts =>
      simp only
      rw [← foldlM_tightenBy_isOk_iff {} (Safe.conjunct e hflat hsafe)]
      cases conjuncts.foldlM tightenBy {} with
      | error err =>
        constructor
        . rintro ⟨_, h⟩
          cases h
        . rintro ⟨_, h⟩
          cases h
      | ok bounds => exact ⟨fun _ => ⟨bounds, rfl⟩, fun _ => ⟨bounds.contradictory, rfl⟩⟩

/-- A checked condition gets an answer unless it asks for a number in a field. -/
theorem isAlwaysFalse_isOk_iff {py : Runtime} {condition : String} (hcheck : checkPredicate py condition = [])
    : (∃ b, isAlwaysFalse py condition = .ok b) ↔ asksNumberIn py condition = false := by
  unfold isAlwaysFalse asksNumberIn
  cases htree : exprAst py condition with
  | none => exact ⟨fun _ => rfl, fun _ => ⟨false, rfl⟩⟩
  | some tree => exact isAlwaysFalseTree_isOk_iff (safe_of_checkPredicate htree hcheck)

/-- Each condition of the node gets an answer. -/
theorem deadEdges_isOk_iff {py : Runtime} {node : Node}
    (hcheck : ∀ edge ∈ node.edges, checkPredicate py edge.condition = [])
    : (∃ dead, deadEdges py node = .ok dead) ↔ ∀ edge ∈ node.edges, asksNumberIn py edge.condition = false := by
  have hedges : (∃ answers, node.edges.mapM (fun edge => isAlwaysFalse py edge.condition) = .ok answers)
      ↔ ∀ edge ∈ node.edges, asksNumberIn py edge.condition = false := by
    rw [Except.mapM_isOk_iff]
    exact forall₂_congr fun edge hedge => isAlwaysFalse_isOk_iff (hcheck edge hedge)
  rw [← hedges]
  unfold deadEdges
  constructor
  . rintro ⟨_, h⟩
    rcases Except.bind_eq_ok.mp h with ⟨answers, hanswers, _⟩
    exact ⟨answers, hanswers⟩
  . rintro ⟨answers, hanswers⟩
    rw [hanswers]
    exact ⟨_, rfl⟩

theorem checkDeadAndDup_isOk_iff {py : Runtime} (texts : Texts) {graph : Graph}
    (hcheck : ∀ node ∈ graph.nodes, ∀ edge ∈ node.edges, checkPredicate py edge.condition = [])
    : (∃ findings, checkDeadAndDup py texts graph = .ok findings)
        ↔ ∀ node ∈ graph.nodes, ∀ edge ∈ node.edges, asksNumberIn py edge.condition = false := by
  have hnodes : (∃ findings, graph.nodes.mapM (deadAndDupFindings py texts) = .ok findings)
      ↔ ∀ node ∈ graph.nodes, ∀ edge ∈ node.edges, asksNumberIn py edge.condition = false := by
    rw [Except.mapM_isOk_iff]
    apply forall₂_congr
    intro node hnode
    rw [← deadEdges_isOk_iff (hcheck node hnode)]
    unfold deadAndDupFindings
    constructor
    . rintro ⟨_, h⟩
      rcases Except.bind_eq_ok.mp h with ⟨dead, hdead, _⟩
      exact ⟨dead, hdead⟩
    . rintro ⟨dead, hdead⟩
      rw [hdead]
      exact ⟨_, rfl⟩
  rw [← hnodes]
  unfold checkDeadAndDup
  constructor
  . rintro ⟨_, h⟩
    rcases Except.bind_eq_ok.mp h with ⟨findings, hfindings, _⟩
    exact ⟨findings, hfindings⟩
  . rintro ⟨findings, hfindings⟩
    rw [hfindings]
    exact ⟨_, rfl⟩

/-- An edge that is reported dead matches on no context. -/
theorem hit_of_deadEdges {py : Runtime} {node : Node} {dead : List Edge} (h : deadEdges py node = .ok dead)
    (hcheck : ∀ edge ∈ node.edges, checkPredicate py edge.condition = []) {edge : Edge} (hedge : edge ∈ dead)
    : edge ∈ node.edges ∧ isAlwaysFalse py edge.condition = .ok true ∧ ∀ ctx, hit py edge.condition ctx = false := by
  unfold deadEdges at h
  rcases Except.bind_eq_ok.mp h with ⟨answers, hanswers, h⟩
  cases h
  rw [List.mem_filterMap] at hedge
  rcases hedge with ⟨⟨edge', isDead⟩, hmem, hedge⟩
  cases isDead with
  | false => cases hedge
  | true =>
    cases hedge
    rcases List.mem_iff_getElem?.mp hmem with ⟨i, hi⟩
    rw [List.getElem?_zip_eq_some] at hi
    rcases Except.getElem?_of_mapM hanswers hi.1 with ⟨answer, hanswer, hfalse⟩
    rw [hi.2] at hanswer
    cases hanswer
    have hmem' := List.mem_of_getElem? hi.1
    exact ⟨hmem', hfalse, hit_of_isAlwaysFalse hfalse (hcheck edge hmem')⟩

end Analysis
