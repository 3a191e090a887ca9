import PrismPath.Kernel.EngineLemmas
import PrismPath.Kernel.LevelMLemmas
import PrismPath.Kernel.ModelCheck
import PrismPath.Python.ValueLemmas

/-!
This module contains the proof that a condition which compares `visits` with literals only cannot tell a
visit count from the saturated one.
-/

open Python

namespace ModelCheck

open Predicates LevelM Parser Engine

def withVisits (ctx : Ctx) (visits : Nat) : Ctx :=
  fun name => if name = "visits" then .int visits else ctx name

theorem context_eq_withVisits (fields : List (String × Value)) (visits : Nat)
    : context fields visits = withVisits (field fields) visits :=
  rfl

/-- The literals the grammar can write, byte strings apart. -/
def isLiteralValue : Value → Bool
  | .fraction _ => false
  | .bytes _ => false
  | .list _ => false
  | .dict _ => false
  | _ => true

/-- A literal, or a list of literals. -/
def isLiteral : Expr → Bool
  | .constant v => isLiteralValue v
  | .list es => (constantsOf es).any fun vs => vs.all isLiteralValue
  | .tuple es => (constantsOf es).any fun vs => vs.all isLiteralValue
  | _ => false

def isVisits : Expr → Bool
  | .name id => id = "visits"
  | _ => false

/-- Two operands that are compared: `visits` only ever meets a literal. -/
def pairStable (left : Expr) (leftStable : Bool) (right : Expr) (rightStable : Bool) : Bool :=
  (leftStable && rightStable) || (isVisits left && isLiteral right) || (isLiteral left && isVisits right)

mutual

/-- Whether the value of an expression does not depend on how far `visits` is past its literals. -/
def stable : Expr → Bool
  | .constant _ => true
  | .name id => id ≠ "visits"
  | .boolOp _ es => readableList es
  | .unaryOp _ e => isVisits e || stable e
  | .compare left rest => (isVisits left || stable left) && chainStable left (stable left) rest
  | .list es => stableList es
  | .tuple es => stableList es
  | .other _ _ => true

def stableList : List Expr → Bool
  | [] => true
  | e :: es => stable e && stableList es

/-- Operands of which only the truth is read may be `visits` itself. -/
def readableList : List Expr → Bool
  | [] => true
  | e :: es => (isVisits e || stable e) && readableList es

def chainStable (left : Expr) (leftStable : Bool) : List (CmpOp × Expr) → Bool
  | [] => true
  | (_, right) :: rest =>
    pairStable left leftStable right (stable right) && chainStable right (stable right) rest

end

/-- A condition that is evaluated on such an expression. -/
def comparesLiterals (py : Runtime) (cond : String) : Bool :=
  match conditionTree py cond with
  | none => true
  | some tree => isVisits tree || stable tree

/-- Two visit counts that no number below `m + 2` lies between. -/
def SameVisits (m k k' : Nat) : Prop :=
  1 ≤ k ∧ 1 ≤ k' ∧ (k = k' ∨ (m + 2 ≤ k ∧ m + 2 ≤ k'))

/-- A literal that is a number below `m + 2`, or no number. -/
def Below (m : Nat) (v : Value) : Prop :=
  isLiteralValue v = true → ∀ x, v.num? = some x → x = .nan ∨ x.lt (.finite (m + 2 : ℕ)) = true

theorem num_lt_int {m k : Nat} {x : Number} (h : x = .nan ∨ x.lt (.finite (m + 2 : ℕ)) = true)
    (hk : m + 2 ≤ k)
    : Number.eq (.finite k) x = false
        ∧ Number.eq x (.finite k) = false
        ∧ Number.lt (.finite k) x = false
        ∧ Number.lt x (.finite k) = decide (x ≠ .nan) := by
  have hcast : ((m + 2 : ℕ) : ℚ) ≤ k := by exact_mod_cast hk
  cases x with
  | nan => simp [Number.eq, Number.lt]
  | negInf => simp [Number.eq, Number.lt]
  | posInf => simp [Number.lt] at h
  | finite q =>
    have hq : q < k := by
      have : q < (m + 2 : ℕ) := by simpa [Number.lt] using h
      linarith
    simp [Number.eq, Number.lt, hq, hq.ne, hq.ne', hq.le]

theorem compare_large_of_num? {m k : Nat} {v : Value} {x : Number} (op : CmpOp) (hnum : v.num? = some x)
    (hbelow : x = .nan ∨ x.lt (.finite (m + 2 : ℕ)) = true) (hk : m + 2 ≤ k)
    : Predicates.compare op (.int k) v = Predicates.compare op (.int (m + 2 : ℕ)) v
        ∧ Predicates.compare op v (.int k) = Predicates.compare op v (.int (m + 2 : ℕ)) := by
  rcases num_lt_int hbelow hk with ⟨heq, heq', hlt, hgt⟩
  rcases num_lt_int hbelow (Nat.le_refl _) with ⟨heq₀, heq₀', hlt₀, hgt₀⟩
  have hint (n : ℕ) : (Value.int n).num? = some (.finite n) := rfl
  have heqv (n : ℕ) := Value.eq_of_num? (hint n) hnum
  have heqv' (n : ℕ) := Value.eq_of_num? hnum (hint n)
  have horder (o : Value.OrderOp) (n : ℕ) := Value.order_of_num? o (hint n) hnum
  have horder' (o : Value.OrderOp) (n : ℕ) := Value.order_of_num? o hnum (hint n)
  have hcontains (w : Value) := Value.contains_of_num? w hnum
  have hcontains' (w : Value) (n : ℕ) := Value.contains_of_num? w (hint n)
  cases op <;>
    simp only [Predicates.compare, heqv, heqv', horder, horder', hcontains, hcontains',
      Value.OrderOp.num, Number.le, heq, heq', hlt, hgt, heq₀, heq₀', hlt₀, hgt₀, Option.getD_some, and_self]

/-- No comparison with a literal tells a large count from the next one. -/
theorem compare_large {m k : Nat} {v : Value} (op : CmpOp) (hv : isLiteralValue v) (hbelow : Below m v)
    (hk : m + 2 ≤ k)
    : Predicates.compare op (.int k) v = Predicates.compare op (.int (m + 2 : ℕ)) v
        ∧ Predicates.compare op v (.int k) = Predicates.compare op v (.int (m + 2 : ℕ)) := by
  cases hnum : v.num? with
  | some x => exact compare_large_of_num? op hnum (hbelow hv x hnum) hk
  | none =>
    cases v with
    | imag x =>
      have hne (n : ℕ) (hn : m + 2 ≤ n) : (n : ℚ) ≠ 0 := by
        have : 0 < n := by omega
        positivity
      have h₁ := hne k hk
      have h₂ := hne (m + 2) (Nat.le_refl _)
      cases op <;> simp [Predicates.compare, Value.eq, Value.scalarEq, Value.complex?, Value.num?, Number.eq,
        Value.order, Value.scalarOrder, Value.contains, h₁, h₁.symm] <;> push_cast at h₂ <;>
        simp [h₂, h₂.symm]
    | bytes | list | dict | fraction => simp [isLiteralValue] at hv
    | bool | int | float => simp [Value.num?] at hnum
    | none | str | ellipsis =>
      cases op <;> simp [Predicates.compare, Value.eq, Value.scalarEq, Value.complex?, Value.num?,
        Value.order, Value.scalarOrder, Value.contains]

/-- What `visits` is compared with: a literal, or a list of them, with no number at `m + 2` or above. -/
inductive LiteralOperand (m : Nat) : Value → Prop
  | scalar {v : Value} : isLiteralValue v → Below m v → LiteralOperand m v
  | list {vs : List Value} : (∀ v ∈ vs, isLiteralValue v ∧ Below m v) → LiteralOperand m (.list vs)

theorem compare_sameVisits {m k k' : Nat} {v : Value} (op : CmpOp) (hk : SameVisits m k k')
    (hv : LiteralOperand m v)
    : Predicates.compare op (.int k) v = Predicates.compare op (.int k') v
        ∧ Predicates.compare op v (.int k) = Predicates.compare op v (.int k') := by
  rcases hk with ⟨-, -, rfl | ⟨hk, hk'⟩⟩
  . exact ⟨rfl, rfl⟩
  cases hv with
  | scalar hlit hbelow =>
    have h := compare_large op hlit hbelow hk
    have h' := compare_large op hlit hbelow hk'
    exact ⟨h.1.trans h'.1.symm, h.2.trans h'.2.symm⟩
  | list hvs =>
    next vs =>
    have hany : (vs.any fun w => (Value.int k).eq w) = vs.any fun w => (Value.int k').eq w := by
      rw [Bool.eq_iff_iff, List.any_eq_true, List.any_eq_true]
      apply exists_congr
      intro w
      apply and_congr_right
      intro hw
      have h := (compare_large .eq (hvs w hw).1 (hvs w hw).2 hk).1
      have h' := (compare_large .eq (hvs w hw).1 (hvs w hw).2 hk').1
      have heq : (Value.int k).eq w = (Value.int k').eq w := by
        simpa [Predicates.compare] using h.trans h'.symm
      rw [heq]
    have hint (n : ℕ) : (Value.int n).num? = some (.finite n) := rfl
    have heq (n : ℕ) := Value.eq_of_num?_of_complex? (w := .list vs) (hint n) rfl
    have heq' (n : ℕ) := Value.list_eq_of_num? vs (hint n)
    have horder (o : Value.OrderOp) (n : ℕ) :=
      Value.order_eq_none_of_num? (w := .list vs) o (hint n) rfl
    have horder' (o : Value.OrderOp) (n : ℕ) := Value.list_order_of_num? o vs (hint n)
    have hcontains (n : ℕ) := Value.contains_of_num? (.list vs) (hint n)
    cases op <;> simp only [Predicates.compare, heq, heq', horder, horder', hcontains,
      Value.contains_list, hany, and_self]

theorem readableList_iff (es : List Expr)
    : readableList es = true ↔ ∀ e ∈ es, (isVisits e || stable e) = true := by
  induction es with
  | nil => simp [readableList]
  | cons e es ih => simp [readableList, ih]

theorem stableList_iff (es : List Expr)
    : stableList es = true ↔ ∀ e ∈ es, stable e = true := by
  induction es with
  | nil => simp [stableList]
  | cons e es ih => simp [stableList, ih]

theorem eq_visits_of_isVisits {e : Expr} (h : isVisits e = true)
    : e = .name "visits" := by
  cases e <;> simp_all [isVisits]

/-- The literals of an operand have no number at `m + 2` or above when its constants have none. -/
theorem literalOperand_of_isLiteral {m : Nat} {e : Expr} (ctx : Ctx) (h : isLiteral e = true)
    (hbelow : ∀ v ∈ e.constants, Below m v)
    : IsOperand e ∧ LiteralOperand m (operandValue ctx e) := by
  have hlist {es : List Expr} {vs : List Value} (hes : constantsOf es = some vs)
      (hvs : vs.all isLiteralValue = true) (hmem : ∀ e ∈ es, ∀ v ∈ e.constants, Below m v)
      : ∀ v ∈ vs, isLiteralValue v ∧ Below m v := by
    intro v hv
    have : Expr.constant v ∈ es := by
      rw [eq_map_of_constantsOf hes]
      exact List.mem_map_of_mem hv
    exact ⟨List.all_eq_true.mp hvs v hv, hmem _ this v (by simp)⟩
  cases e with
  | constant v => exact ⟨.constant v, .scalar h (hbelow v (by simp))⟩
  | list es =>
    rcases hes : constantsOf es with _ | vs
    . simp [isLiteral, hes] at h
    . refine ⟨.list hes, ?_⟩
      simp only [isLiteral, hes, Option.any_some] at h
      simp only [operandValue, hes, Option.getD_some]
      apply LiteralOperand.list
      apply hlist hes h
      intro e he v hv
      exact hbelow v (by simpa using ⟨e, he, hv⟩)
  | tuple es =>
    rcases hes : constantsOf es with _ | vs
    . simp [isLiteral, hes] at h
    . refine ⟨.tuple hes, ?_⟩
      simp only [isLiteral, hes, Option.any_some] at h
      simp only [operandValue, hes, Option.getD_some]
      apply LiteralOperand.list
      apply hlist hes h
      intro e he v hv
      exact hbelow v (by simpa using ⟨e, he, hv⟩)
  | _ => simp [isLiteral] at h

section

variable {m k k' : Nat} (ctx : Ctx)

/-- The results of an operand under the two counts, as far as the comparisons it takes part in go. -/
structure SameOperand (m k k' : Nat) (e : Expr) (v v' : Value) : Prop where
  stable : stable e = true → v = v'
  visits : isVisits e = true → v = .int k ∧ v' = .int k'
  literal : isLiteral e = true → v = v' ∧ LiteralOperand m v

/-- Either the two counts give the same error, or they give values that compare the same. -/
inductive SameResult (m k k' : Nat) (e : Expr) : Except PredicateError Value → Except PredicateError Value → Prop
  | error (err : PredicateError) : SameResult m k k' e (.error err) (.error err)
  | ok {v v' : Value} : SameOperand m k k' e v v' → SameResult m k k' e (.ok v) (.ok v')

theorem sameResult {e : Expr} {depth : Nat} (hbelow : ∀ v ∈ e.constants, Below m v)
    (hread : isVisits e = true ∨ stable e = true)
    (hev : stable e = true → ev (withVisits ctx k) e depth = ev (withVisits ctx k') e depth)
    : SameResult m k k' e (ev (withVisits ctx k) e depth) (ev (withVisits ctx k') e depth) := by
  by_cases hvisits : isVisits e = true
  . have he := eq_visits_of_isVisits hvisits
    subst he
    rw [ev, ev]
    split
    . exact .error _
    . apply SameResult.ok
      constructor
      . intro h
        simp [stable] at h
      . intro _
        simp [withVisits]
      . intro h
        simp [isLiteral] at h
  . have hstable : stable e = true := by tauto
    have hboth := hev hstable
    by_cases hlit : isLiteral e = true
    . rcases literalOperand_of_isLiteral (withVisits ctx k) hlit hbelow with ⟨hop, hval⟩
      rw [← hboth, ev_operand _ _ hop]
      split
      . exact .error _
      . exact .ok ⟨fun _ => rfl, fun h => absurd h hvisits, fun _ => ⟨rfl, hval⟩⟩
    . rw [← hboth]
      cases ev (withVisits ctx k) e depth with
      | error err => exact .error err
      | ok v => exact .ok ⟨fun _ => rfl, fun h => absurd h hvisits, fun h => absurd h hlit⟩

theorem compare_sameOperand {left right : Expr} {v v' w w' : Value} (op : CmpOp) (hk : SameVisits m k k')
    (hpair : pairStable left (stable left) right (stable right) = true)
    (hleft : SameOperand m k k' left v v') (hright : SameOperand m k k' right w w')
    : Predicates.compare op v w = Predicates.compare op v' w' := by
  simp only [pairStable, Bool.or_eq_true, Bool.and_eq_true] at hpair
  rcases hpair with (⟨hl, hr⟩ | ⟨hl, hr⟩) | ⟨hl, hr⟩
  . rw [hleft.stable hl, hright.stable hr]
  . rcases hleft.visits hl with ⟨rfl, rfl⟩
    rcases hright.literal hr with ⟨rfl, hlit⟩
    exact (compare_sameVisits op hk hlit).1
  . rcases hleft.literal hl with ⟨rfl, hlit⟩
    rcases hright.visits hr with ⟨rfl, rfl⟩
    exact (compare_sameVisits op hk hlit).2

theorem stable_of_isLiteral {e : Expr} (h : isLiteral e = true)
    : stable e = true := by
  have hlist {es : List Expr} (hes : ((constantsOf es).any fun vs => vs.all isLiteralValue) = true)
      : stableList es = true := by
    rcases hvs : constantsOf es with _ | vs
    . simp [hvs] at hes
    . rw [eq_map_of_constantsOf hvs, stableList_iff]
      simp [stable]
  cases e with
  | constant v => rfl
  | list es => exact hlist h
  | tuple es => exact hlist h
  | _ => simp [isLiteral] at h

theorem readable_of_pairStable {left right : Expr}
    (h : pairStable left (stable left) right (stable right) = true)
    : isVisits right = true ∨ stable right = true := by
  simp only [pairStable, Bool.or_eq_true, Bool.and_eq_true] at h
  rcases h with (⟨-, hr⟩ | ⟨-, hr⟩) | ⟨-, hr⟩
  . exact Or.inr hr
  . exact Or.inr (stable_of_isLiteral hr)
  . exact Or.inl hr

theorem evChain_stable {left : Expr} {v v' : Value} {rest : List (CmpOp × Expr)} (depth : Nat)
    (hk : SameVisits m k k') (hchain : chainStable left (stable left) rest = true)
    (hleft : SameOperand m k k' left v v') (hbelow : ∀ p ∈ rest, ∀ c ∈ p.2.constants, Below m c)
    (hev : ∀ p ∈ rest, stable p.2 = true →
      ev (withVisits ctx k) p.2 depth = ev (withVisits ctx k') p.2 depth)
    : evChain (withVisits ctx k) v rest depth = evChain (withVisits ctx k') v' rest depth := by
  induction rest generalizing left v v' with
  | nil => rfl
  | cons p rest ih =>
    rcases p with ⟨op, right⟩
    rw [List.forall_mem_cons] at hbelow hev
    simp only [chainStable, Bool.and_eq_true] at hchain
    rw [evChain, evChain]
    have hright := sameResult ctx hbelow.1 (readable_of_pairStable hchain.1) hev.1
    generalize ev (withVisits ctx k) right depth = r at hright ⊢
    generalize ev (withVisits ctx k') right depth = r' at hright ⊢
    cases hright with
    | error err => rfl
    | ok hright =>
      have hcompare := compare_sameOperand op hk hchain.1 hleft hright
      have hrest := ih hchain.2 hright hbelow.2 hev.2
      simp only [bind, Except.bind, hcompare, hrest]

/-- The truth of an operand that may be `visits` itself. -/
theorem truth_readable {e : Expr} {depth : Nat} (hk : SameVisits m k k')
    (hread : (isVisits e || stable e) = true)
    (hev : stable e = true → ev (withVisits ctx k) e depth = ev (withVisits ctx k') e depth)
    : truth (ev (withVisits ctx k) e depth) = truth (ev (withVisits ctx k') e depth) := by
  rw [Bool.or_eq_true] at hread
  rcases hread with hvisits | hstable
  . have he := eq_visits_of_isVisits hvisits
    subst he
    rw [ev, ev]
    split
    . rfl
    . have h₁ : k ≠ 0 := Nat.ne_of_gt hk.1
      have h₂ : k' ≠ 0 := Nat.ne_of_gt hk.2.1
      simp [truth, Except.map, withVisits, Value.truthy, h₁, h₂]
  . rw [hev hstable]

/-- The value of a stable expression is the same under both counts. -/
theorem ev_stable (hk : SameVisits m k k') (e : Expr) (depth : Nat) (h : stable e = true)
    (hbelow : ∀ c ∈ e.constants, Below m c)
    : ev (withVisits ctx k) e depth = ev (withVisits ctx k') e depth := by
  induction e using Expr.induct generalizing depth with
  | constant v => rw [ev, ev]
  | name id =>
    have hid : id ≠ "visits" := by simpa [stable] using h
    rw [ev, ev]
    simp [withVisits, hid]
  | boolOp op es ih =>
    rw [stable, readableList_iff] at h
    apply ev_boolOp_congr
    intro e he
    apply truth_readable ctx hk (h e he)
    intro hstable
    exact ih e he _ hstable fun c hc => hbelow c (by simpa using ⟨e, he, hc⟩)
  | unaryOp op e ih =>
    cases op with
    | not =>
      apply ev_not_congr
      apply truth_readable ctx hk h
      intro hstable
      exact ih _ hstable fun c hc => hbelow c (by simpa using hc)
    | _ => rw [ev, ev] <;> simp
  | compare left rest ihl ihr =>
    simp only [stable, Bool.and_eq_true] at h
    simp only [Expr.mem_constants_compare] at hbelow
    have hleft := sameResult ctx (fun c hc => hbelow c (Or.inl hc)) (by simpa using h.1)
      (fun hs => ihl (depth + 1) hs fun c hc => hbelow c (Or.inl hc))
    rw [ev, ev]
    generalize ev (withVisits ctx k) left (depth + 1) = r at hleft ⊢
    generalize ev (withVisits ctx k') left (depth + 1) = r' at hleft ⊢
    split
    . rfl
    . cases hleft with
      | error err => rfl
      | ok hleft =>
        have hchain := evChain_stable ctx (depth + 1) hk h.2 hleft
          (fun p hp c hc => hbelow c (Or.inr ⟨p, hp, hc⟩))
          (fun p hp hs => ihr p hp _ hs fun c hc => hbelow c (Or.inr ⟨p, hp, hc⟩))
        simp only [bind, Except.bind, hchain]
  | list es ih =>
    rw [stable, stableList_iff] at h
    have : evList (withVisits ctx k) es (depth + 1) = evList (withVisits ctx k') es (depth + 1) :=
      evList_congr fun e he =>
      ih e he (depth + 1) (h e he) fun c hc => hbelow c (by simpa using ⟨e, he, hc⟩)
    rw [ev, ev, this]
  | tuple es ih =>
    rw [stable, stableList_iff] at h
    have : evList (withVisits ctx k) es (depth + 1) = evList (withVisits ctx k') es (depth + 1) :=
      evList_congr fun e he =>
      ih e he (depth + 1) (h e he) fun c hc => hbelow c (by simpa using ⟨e, he, hc⟩)
    rw [ev, ev, this]
  | other kind es ih => rw [ev, ev]

end

/-! ## The caps -/

/-- The largest number is at least any of them. -/
theorem lt_of_foldl_max {nums : List Value} {best : Value} {r : ℚ} (hbest : best.isNumber = true)
    (hnums : ∀ v ∈ nums, v.isNumber = true)
    (h : ∃ x, (nums.foldl (fun best v => if v.order .gt best = some true then v else best) best).num?
      = some x ∧ x ≠ .nan ∧ x.lt (.finite r) = true)
    : (∃ x, best.num? = some x ∧ x ≠ .nan ∧ x.lt (.finite r) = true)
        ∧ ∀ v ∈ nums, ∀ x, v.num? = some x → x = .nan ∨ x.lt (.finite r) = true := by
  induction nums generalizing best with
  | nil => exact ⟨h, by simp⟩
  | cons v nums ih =>
    rw [List.forall_mem_cons] at hnums ⊢
    rw [List.foldl_cons] at h
    rcases Value.num?_of_isNumber hbest with ⟨y, hy⟩
    rcases Value.num?_of_isNumber hnums.1 with ⟨z, hz⟩
    have horder : v.order .gt best = some (y.lt z) := Value.order_of_num? .gt hz hy
    by_cases hgt : y.lt z = true
    . rw [if_pos (by rw [horder, hgt])] at h
      rcases ih hnums.1 hnums.2 h with ⟨⟨x, hx, hnan, hlt⟩, hrest⟩
      have hxz : x = z := Option.some.inj (hx.symm.trans hz)
      subst hxz
      refine ⟨⟨y, hy, ?_, Number.lt_of_gt hgt hlt⟩, ?_, hrest⟩
      . rintro rfl
        simp [Number.lt] at hgt
      . intro x' hx'
        rw [hz] at hx'
        cases hx'
        exact Or.inr hlt
    . rw [if_neg (by rw [horder]; simpa using hgt)] at h
      rcases ih hbest hnums.2 h with ⟨⟨x, hx, hnan, hlt⟩, hrest⟩
      refine ⟨⟨x, hx, hnan, hlt⟩, ?_, hrest⟩
      intro x' hx'
      rw [hz] at hx'
      cases hx'
      have hxy : x = y := Option.some.inj (hx.symm.trans hy)
      subst hxy
      exact Number.lt_of_not_gt hgt hnan hlt

theorem lt_of_truncate {v : Value} {t : ℤ} (h : v.truncate = some t)
    : ∃ x, v.num? = some x ∧ x ≠ .nan ∧ x.lt (.finite (t + 1 : ℤ)) = true := by
  cases v with
  | int n =>
    simp only [Value.truncate, Option.some.injEq] at h
    subst h
    exact ⟨_, rfl, by simp, by simp [Number.lt]⟩
  | float x =>
    cases x with
    | finite x =>
      refine ⟨.finite x.val, rfl, by simp, ?_⟩
      simp only [Value.truncate, Option.some.injEq] at h
      split at h
      . subst h
        simp [Number.lt]
      . subst h
        have := Int.le_ceil x.val
        simp only [Number.lt, decide_eq_true_eq]
        push_cast
        linarith
    | _ => simp [Value.truncate] at h
  | _ => simp [Value.truncate] at h

theorem below_of_comparedMax {tree : Expr} {t : ℤ} {m : Nat} (h : comparedMax tree = some t) (hm : t ≤ m)
    : ∀ c ∈ tree.constants, Below m c := by
  intro c hc hlit x hx
  have hbool (b : Bool) : Number.lt (.finite (if b then 1 else 0)) (.finite (m + 2 : ℕ)) = true := by
    have : (0 : ℚ) ≤ m := Nat.cast_nonneg m
    cases b <;> simp [Number.lt] <;> linarith
  by_cases hnum : c.isNumber = true
  . have hmem : c ∈ tree.constants.filter Value.isNumber := List.mem_filter.mpr ⟨hc, hnum⟩
    have hall : ∀ v ∈ tree.constants.filter Value.isNumber, v.isNumber = true := by
      intro v hv
      exact (List.mem_filter.mp hv).2
    unfold comparedMax at h
    have hbound : x = .nan ∨ x.lt (.finite (t + 1 : ℤ)) = true := by
      cases hnums : tree.constants.filter Value.isNumber with
      | nil => simp [hnums] at hmem
      | cons best nums =>
        rw [hnums] at h hmem hall
        rw [List.forall_mem_cons] at hall
        rcases lt_of_foldl_max hall.1 hall.2 (lt_of_truncate h) with ⟨⟨y, hy, hynan, hylt⟩, hrest⟩
        rcases List.mem_cons.mp hmem with rfl | hmem
        . rw [hx] at hy
          cases hy
          exact Or.inr hylt
        . exact hrest c hmem x hx
    rcases hbound with hnan | hlt
    . exact Or.inl hnan
    . right
      have : ((t + 1 : ℤ) : ℚ) ≤ ((m + 2 : ℕ) : ℚ) := by exact_mod_cast (by omega : t + 1 ≤ ((m + 2 : ℕ) : ℤ))
      cases x <;> simp_all [Number.lt]
      linarith
  . cases c with
    | bool b =>
      simp only [Value.num?, Option.some.injEq] at hx
      subst hx
      exact Or.inr (hbool b)
    | int | float => simp [Value.isNumber] at hnum
    | fraction => simp [isLiteralValue] at hlit
    | _ => simp [Value.num?] at hx

theorem le_foldl_max (ts : List ℤ) (t₀ : ℤ)
    : t₀ ≤ ts.foldl max t₀ ∧ ∀ t ∈ ts, t ≤ ts.foldl max t₀ := by
  induction ts generalizing t₀ with
  | nil => simp
  | cons t ts ih =>
    rw [List.foldl_cons, List.forall_mem_cons]
    have h := ih (max t₀ t)
    refine ⟨le_trans (le_max_left _ _) h.1, le_trans (le_max_right _ _) h.1, h.2⟩

theorem mem_of_mapM_some {A B : Type} {f : A → Option B} {as : List A} {bs : List B}
    (h : as.mapM f = some bs) {a : A} (ha : a ∈ as)
    : ∃ b ∈ bs, f a = some b := by
  induction as generalizing bs with
  | nil => simp at ha
  | cons a' as ih =>
    simp only [List.mapM_cons, Option.pure_def, Option.bind_eq_bind, Option.bind_eq_some_iff] at h
    rcases h with ⟨b, hb, bs', hbs, heq⟩
    cases heq
    rcases List.mem_cons.mp ha with rfl | ha
    . exact ⟨b, by simp, hb⟩
    . rcases ih hbs ha with ⟨b', hb', hfa⟩
      exact ⟨b', by simp [hb'], hfa⟩

/-- The cap of a node lies two above every number its conditions compare `visits` with. -/
theorem below_of_nodeCap {py : Runtime} {node : Node} {cap : Option Nat} (h : nodeCap py node = some cap)
    {tree : Expr} (htree : tree ∈ visitReads py node)
    : ∃ m, cap = some (m + 2) ∧ ∀ c ∈ tree.constants, Below m c := by
  simp only [nodeCap, Option.map_eq_some_iff] at h
  rcases h with ⟨maxes, hmaxes, rfl⟩
  rcases mem_of_mapM_some hmaxes htree with ⟨t, ht, hmax⟩
  have hne : maxes.isEmpty = false := by
    cases maxes <;> simp_all
  refine ⟨(maxes.foldl max 0).toNat, by simp [hne], ?_⟩
  apply below_of_comparedMax hmax
  have := (le_foldl_max maxes 0).2 t ht
  omega

/-- The count the checker keeps for a node that has been entered `visits` times. -/
def saturated (caps : Counts) (name : String) (visits : Nat) : Nat :=
  match caps.lookup name with
  | some cap => min visits cap
  | none => 1

theorem lookup_visitCaps {py : Runtime} {graph : Graph} {caps : Counts} (h : visitCaps py graph = some caps)
    {node : Node} (hnode : node ∈ graph.nodes)
    : ∃ cap, nodeCap py node = some cap ∧ caps.lookup node.name = cap := by
  simp only [visitCaps, Option.map_eq_some_iff] at h
  rcases h with ⟨d, hd, rfl⟩
  rcases Dict.lookup_of_mapM hd graph.nodup hnode with ⟨cap, hcap, hlookup⟩
  refine ⟨cap, hcap, ?_⟩
  have hkeys : (d.map Prod.fst).Nodup := by
    rw [Dict.keys_of_mapM hd]
    exact graph.nodup
  have := Dict.lookup_filterMap_some hkeys node.name
  rw [hlookup] at this
  simpa using this

theorem sameVisits_saturated {m visits : Nat} (h : 1 ≤ visits)
    : SameVisits m visits (min visits (m + 2)) := by
  refine ⟨h, by omega, ?_⟩
  omega

/-- The tree of an edge's guard under a count and under the saturated one. -/
theorem truth_saturated {py : Runtime} {graph : Graph} {caps : Counts}
    (hcaps : visitCaps py graph = some caps) {node : Node} (hnode : node ∈ graph.nodes) {edge : Edge}
    (hedge : edge ∈ node.edges) {cond : String} (hguard : guardOf edge.condition = some cond) {tree : Expr}
    (htree : exprAst py cond = some tree) (hread : (isVisits tree || stable tree) = true) (ctx : Ctx)
    {visits : Nat} (hvisits : 1 ≤ visits)
    : truth (ev (withVisits ctx visits) tree 0)
        =
      truth (ev (withVisits ctx (saturated caps node.name visits)) tree 0) := by
  by_cases hmem : "visits" ∈ tree.names
  . have hreads : tree ∈ visitReads py node := by
      rw [visitReads, List.mem_filterMap]
      refine ⟨edge, hedge, ?_⟩
      simp [hguard, htree, hmem]
    rcases lookup_visitCaps hcaps hnode with ⟨cap, hcap, hlookup⟩
    rcases below_of_nodeCap hcap hreads with ⟨m, rfl, hbelow⟩
    have hk : SameVisits m visits (saturated caps node.name visits) := by
      rw [saturated, hlookup]
      exact sameVisits_saturated hvisits
    apply truth_readable ctx hk hread
    intro hstable
    exact ev_stable ctx hk tree 0 hstable hbelow
  . apply congrArg truth
    apply ev_congr_names
    intro name hname
    have : name ≠ "visits" := fun h => hmem (h ▸ hname)
    simp [withVisits, this]

/-- Saturating the count changes the verdict of no edge that compares `visits` with literals only. -/
theorem hit_saturated {py : Runtime} {graph : Graph} {caps : Counts}
    (hcaps : visitCaps py graph = some caps) {node : Node} (hnode : node ∈ graph.nodes) {edge : Edge}
    (hedge : edge ∈ node.edges) {cond : String} (hguard : guardOf edge.condition = some cond)
    (hdet : isDeterministic cond = true) (hread : comparesLiterals py cond = true) (ctx : Ctx)
    {visits : Nat} (hvisits : 1 ≤ visits)
    : hit py cond (withVisits ctx visits) = hit py cond (withVisits ctx (saturated caps node.name visits)) := by
  apply hit_eq_of_evalCondition
  apply evalCondition_congr_of_truth
  intro tree hverdict htree
  have hast : exprAst py cond = some tree := by
    rw [exprAst_eq, hdet, hverdict]
    exact htree
  rw [comparesLiterals, htree] at hread
  exact truth_saturated hcaps hnode hedge hguard hast hread ctx hvisits

/-- Whether an error edge handles the exception of the context. -/
def handles (py : Runtime) (condition : String) (ctx : Ctx) : Bool :=
  errorExpr condition = "" || hit py (errorExpr condition) ctx

theorem errorContext_eq_withVisits (errorType message : String) (errorCount visits : Nat)
    : errorContext errorType message errorCount visits
        = withVisits (errorContext errorType message errorCount 0) visits := by
  funext name
  by_cases h : name = "visits"
  . subst h
    rfl
  . simp only [withVisits, h, if_false]
    unfold errorContext
    split <;> first | rfl | contradiction

/-- The caps know the guard of an error edge under another text. -/
theorem handles_saturated {py : Runtime} {graph : Graph} {caps : Counts}
    (hcaps : visitCaps py graph = some caps) {node : Node} (hnode : node ∈ graph.nodes) {edge : Edge}
    (hedge : edge ∈ node.edges) (herror : isError edge.condition = true)
    (hread : comparesLiterals py (errorExpr edge.condition) = true) (ctx : Ctx) {visits : Nat}
    (hvisits : 1 ≤ visits)
    : handles py edge.condition (withVisits ctx visits)
        = handles py edge.condition (withVisits ctx (saturated caps node.name visits)) := by
  unfold handles
  by_cases hempty : errorExpr edge.condition = ""
  . simp [hempty]
  have hstripped : Stripped (errorExpr edge.condition) := stripped_strip _
  have hstrip := strip_of_stripped hstripped
  congr 1
  cases hwhen : startsWith (lower (errorExpr edge.condition)) "when " with
  | true =>
    have hguard : guardOf edge.condition = some (errorExpr edge.condition) := by
      simp [guardOf, herror, hempty, hwhen]
    have hdet : isDeterministic (errorExpr edge.condition) = true := by
      apply isDeterministic_of_startsWith
      rw [hstrip]
      exact hwhen
    exact hit_saturated hcaps hnode hedge hguard hdet hread ctx hvisits
  | false =>
    have hguard : guardOf edge.condition = some ("when " ++ errorExpr edge.condition) := by
      simp [guardOf, herror, hempty, hwhen]
    have hdet : isDeterministic ("when " ++ errorExpr edge.condition) = true :=
      isDeterministic_when (by rwa [hstrip])
    have hexpr := exprOf_when hstripped hempty hwhen
    have hread' : comparesLiterals py ("when " ++ errorExpr edge.condition) = true := by
      rwa [comparesLiterals, conditionTree, hexpr]
    rw [← hit_eq_of_exprOf hexpr, ← hit_eq_of_exprOf hexpr]
    exact hit_saturated hcaps hnode hedge hguard hdet hread' ctx hvisits

end ModelCheck
