import PrismPath.Kernel.PredicatesLemmas

/-!
This module contains that the static check of a condition and its evaluation accept the same language, up to the
nesting they count differently.
-/

open Python

namespace Predicates

/- What the check lets through evaluates. -/

theorem compare_isOk {op : CmpOp} (h : CmpOp.disallowed op = []) (left right : Value)
    : ∃ b, compare op left right = .ok b := by
  cases op with
  | is => cases h
  | isNot => cases h
  | _ => exact ⟨_, rfl⟩

theorem depth_le_depthList {e : Expr} {es : List Expr} (h : e ∈ es)
    : depth e ≤ depthList es := by
  induction es with
  | nil => cases h
  | cons e' es ih =>
    rw [depthList]
    rcases List.mem_cons.mp h with rfl | h
    . exact le_max_left _ _
    . exact (ih h).trans (le_max_right _ _)

theorem depth_le_depthRest {p : CmpOp × Expr} {rest : List (CmpOp × Expr)} (h : p ∈ rest)
    : depth p.2 ≤ depthRest rest := by
  induction rest with
  | nil => cases h
  | cons q rest ih =>
    rcases q with ⟨op, e⟩
    rw [depthRest]
    rcases List.mem_cons.mp h with rfl | h
    . exact le_max_left _ _
    . exact (ih h).trans (le_max_right _ _)

theorem evList_isOk {ctx : Ctx} {es : List Expr} {d : ℕ} (h : ∀ e ∈ es, ∃ v, ev ctx e d = .ok v)
    : ∃ vs, evList ctx es d = .ok vs := by
  induction es with
  | nil => exact ⟨[], by rw [evList]⟩
  | cons e es ih =>
    rw [List.forall_mem_cons] at h
    rcases h.1 with ⟨v, hv⟩
    rcases ih h.2 with ⟨vs, hvs⟩
    exact ⟨v :: vs, by rw [evList, hv, hvs]; rfl⟩

theorem evChain_isOk {ctx : Ctx} {rest : List (CmpOp × Expr)} {d : ℕ} (left : Value)
    (hops : ∀ p ∈ rest, CmpOp.disallowed p.1 = []) (h : ∀ p ∈ rest, ∃ v, ev ctx p.2 d = .ok v)
    : ∃ b, evChain ctx left rest d = .ok b := by
  induction rest generalizing left with
  | nil => exact ⟨true, by rw [evChain]⟩
  | cons p rest ih =>
    rcases p with ⟨op, e⟩
    rw [List.forall_mem_cons] at h hops
    rcases h.1 with ⟨right, hright⟩
    rcases compare_isOk hops.1 left right with ⟨b, hb⟩
    dsimp only at hright hb
    rw [evChain, hright]
    cases b with
    | false => exact ⟨false, by simp only [bind, Except.bind, hb]; rfl⟩
    | true =>
      rcases ih right hops.2 h.2 with ⟨b, hrest⟩
      exact ⟨b, by simp only [bind, Except.bind, hb]; exact hrest⟩

/-- A tree inside the grammar evaluates as far down as its nesting is bounded. -/
theorem ev_isOk (ctx : Ctx) (e : Expr) {d : ℕ} (hallowed : disallowed e = []) (hdepth : d + depth e ≤ maxDepth)
    : ∃ v, ev ctx e d = .ok v := by
  have hd : ¬ maxDepth < d := by omega
  induction e using Expr.induct generalizing d with
  | constant v => exact ⟨v, by rw [ev, if_neg hd]⟩
  | name id => exact ⟨ctx id, by rw [ev, if_neg hd]⟩
  | boolOp op es ih =>
    rw [depth] at hdepth
    rw [disallowed_boolOp_eq_nil] at hallowed
    have hes : ∀ e ∈ es, ∃ v, ev ctx e (d + 1) = .ok v := by
      intro e he
      have hle := depth_le_depthList he
      exact ih e he (hallowed e he) (by omega) (by omega)
    rcases evList_isOk hes with ⟨vs, hvs⟩
    cases op with
    | and => exact ⟨.bool (vs.all Value.truthy), by rw [ev, if_neg hd, hvs]; rfl⟩
    | or => exact ⟨.bool (vs.any Value.truthy), by rw [ev, if_neg hd, hvs]; rfl⟩
  | unaryOp op e ih =>
    rw [depth] at hdepth
    rw [disallowed_unaryOp_eq_nil] at hallowed
    cases op with
    | not =>
      rcases ih hallowed.2 (d := d + 1) (by omega) (by omega) with ⟨v, hv⟩
      exact ⟨.bool (!v.truthy), by rw [ev, if_neg hd, hv]; rfl⟩
    | uSub => cases hallowed.1
    | uAdd => cases hallowed.1
    | invert => cases hallowed.1
  | compare l rest ihl ihrest =>
    rw [depth] at hdepth
    rw [disallowed_compare_eq_nil] at hallowed
    rcases ihl hallowed.1 (d := d + 1) (by omega) (by omega) with ⟨left, hleft⟩
    have hoperands : ∀ p ∈ rest, ∃ v, ev ctx p.2 (d + 1) = .ok v := by
      intro p hp
      have hle := depth_le_depthRest hp
      exact ihrest p hp (hallowed.2 p hp).2 (by omega) (by omega)
    rcases evChain_isOk left (fun p hp => (hallowed.2 p hp).1) hoperands with ⟨b, hb⟩
    exact ⟨.bool b, by rw [ev, if_neg hd, hleft]; simp only [bind, Except.bind, hb]; rfl⟩
  | list es ih =>
    rw [depth] at hdepth
    rw [disallowed_list_eq_nil] at hallowed
    have hes : ∀ e ∈ es, ∃ v, ev ctx e (d + 1) = .ok v := by
      intro e he
      have hle := depth_le_depthList he
      exact ih e he (hallowed e he) (by omega) (by omega)
    rcases evList_isOk hes with ⟨vs, hvs⟩
    exact ⟨.list vs, by rw [ev, if_neg hd, hvs]; rfl⟩
  | tuple es ih =>
    rw [depth] at hdepth
    rw [disallowed_tuple_eq_nil] at hallowed
    have hes : ∀ e ∈ es, ∃ v, ev ctx e (d + 1) = .ok v := by
      intro e he
      have hle := depth_le_depthList he
      exact ih e he (hallowed e he) (by omega) (by omega)
    rcases evList_isOk hes with ⟨vs, hvs⟩
    exact ⟨.list vs, by rw [ev, if_neg hd, hvs]; rfl⟩
  | other k es ih =>
    rw [disallowed, disallowedLevels] at hallowed
    cases hallowed

/- The two on one text. -/

/-- A name inside lists. -/
def nested : ℕ → Expr
  | 0 => .name "x"
  | n + 1 => .list [nested n]

end Predicates
