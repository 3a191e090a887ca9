import PrismPath.Kernel.Analysis
import PrismPath.Kernel.StaticCheck
import PrismPath.Python.Comparable

/-!
This module contains what silence of the check for stuck nodes is worth: in which contexts two conditions that count as
each other's negation leave neither of their edges to take.
-/

open Python

namespace Analysis

open Predicates Parser

/- Trees of one dump. -/

theorem sameLiteral_eq {v w : Value} (h : sameLiteral v w = true)
    : v = w := by
  cases v <;> cases w <;> simp_all [sameLiteral]

theorem sameDumpList_eq {es es' : List Expr} (ih : ∀ e ∈ es, ∀ e', sameDump e e' = true → e = e')
    (h : sameDumpList es es' = true)
    : es = es' := by
  induction es generalizing es' with
  | nil => cases es' <;> simp_all [sameDumpList]
  | cons e es ihes =>
    cases es' with
    | nil => simp [sameDumpList] at h
    | cons e' es' =>
      rw [sameDumpList, Bool.and_eq_true] at h
      rw [List.forall_mem_cons] at ih
      rw [ih.1 e' h.1, ihes ih.2 h.2]

theorem sameDumpRest_eq {rest rest' : List (CmpOp × Expr)} (ih : ∀ p ∈ rest, ∀ e', sameDump p.2 e' = true → p.2 = e')
    (h : sameDumpRest rest rest' = true)
    : rest = rest' := by
  induction rest generalizing rest' with
  | nil => cases rest' <;> simp_all [sameDumpRest]
  | cons p rest ihrest =>
    rcases p with ⟨op, e⟩
    cases rest' with
    | nil => simp [sameDumpRest] at h
    | cons p' rest' =>
      rcases p' with ⟨op', e'⟩
      rw [sameDumpRest, Bool.and_eq_true, Bool.and_eq_true, decide_eq_true_eq] at h
      rw [List.forall_mem_cons] at ih
      have he : e = e' := ih.1 e' h.1.2
      rw [h.1.1, he, ihrest ih.2 h.2]

theorem sameDump_eq (e : Expr)
    : ∀ e', sameDump e e' = true → e = e' := by
  induction e using Expr.induct with
  | constant v =>
    intro e' h
    cases e' with
    | constant w =>
      have hvw : v = w := sameLiteral_eq (by simpa [sameDump] using h)
      rw [hvw]
    | _ => simp [sameDump] at h
  | name id =>
    intro e' h
    cases e' with
    | name id' => simpa [sameDump] using h
    | _ => simp [sameDump] at h
  | boolOp op es ih =>
    intro e' h
    cases e' with
    | boolOp op' es' =>
      rw [sameDump, Bool.and_eq_true, decide_eq_true_eq] at h
      rw [h.1, sameDumpList_eq ih h.2]
    | _ => simp [sameDump] at h
  | unaryOp op e ih =>
    intro e' h
    cases e' with
    | unaryOp op' e' =>
      rw [sameDump, Bool.and_eq_true, decide_eq_true_eq] at h
      rw [h.1, ih e' h.2]
    | _ => simp [sameDump] at h
  | compare l rest ihl ihrest =>
    intro e' h
    cases e' with
    | compare l' rest' =>
      rw [sameDump, Bool.and_eq_true] at h
      rw [ihl l' h.1, sameDumpRest_eq ihrest h.2]
    | _ => simp [sameDump] at h
  | list es ih =>
    intro e' h
    cases e' with
    | list es' => rw [sameDumpList_eq ih (by simpa [sameDump] using h)]
    | _ => simp [sameDump] at h
  | tuple es ih =>
    intro e' h
    cases e' with
    | tuple es' => rw [sameDumpList_eq ih (by simpa [sameDump] using h)]
    | _ => simp [sameDump] at h
  | other kind es ih =>
    intro e' h
    cases e' with
    | other kind' es' =>
      rw [sameDump, Bool.and_eq_true, decide_eq_true_eq] at h
      rw [h.1, sameDumpList_eq ih h.2]
    | _ => simp [sameDump] at h

/- The value of a tree does not depend on where it stands. -/

theorem evList_shift {ctx : Ctx} {es : List Expr} {d d' : ℕ} (h : ∀ e ∈ es, ev ctx e d = ev ctx e d')
    : evList ctx es d = evList ctx es d' := by
  induction es with
  | nil => rw [evList, evList]
  | cons e es ih =>
    rw [List.forall_mem_cons] at h
    rw [evList, evList, h.1, ih h.2]

theorem evChain_shift {ctx : Ctx} {rest : List (CmpOp × Expr)} {d d' : ℕ} (left : Value)
    (h : ∀ p ∈ rest, ev ctx p.2 d = ev ctx p.2 d')
    : evChain ctx left rest d = evChain ctx left rest d' := by
  induction rest generalizing left with
  | nil => rw [evChain, evChain]
  | cons p rest ih =>
    rcases p with ⟨op, right⟩
    rw [List.forall_mem_cons] at h
    rw [evChain, evChain, h.1]
    simp only [fun v => ih v h.2]

theorem ev_shift (ctx : Ctx) (e : Expr) {d d' : ℕ} (hd : d + depth e ≤ maxDepth) (hd' : d' + depth e ≤ maxDepth)
    : ev ctx e d = ev ctx e d' := by
  have hle : ¬ maxDepth < d := by omega
  have hle' : ¬ maxDepth < d' := by omega
  induction e using Expr.induct generalizing d d' with
  | constant v => rw [ev, ev, if_neg hle, if_neg hle']
  | name id => rw [ev, ev, if_neg hle, if_neg hle']
  | boolOp op es ih =>
    rw [depth] at hd hd'
    have hes : evList ctx es (d + 1) = evList ctx es (d' + 1) := by
      apply evList_shift
      intro e he
      have hdepth := depth_le_depthList he
      apply ih e he <;> omega
    cases op with
    | and => rw [ev, ev, if_neg hle, if_neg hle', hes]
    | or => rw [ev, ev, if_neg hle, if_neg hle', hes]
  | unaryOp op e ih =>
    rw [depth] at hd hd'
    cases op with
    | not =>
      have he : ev ctx e (d + 1) = ev ctx e (d' + 1) := by
        apply ih <;> omega
      rw [ev, ev, if_neg hle, if_neg hle', he]
    | _ => rw [ev, ev, if_neg hle, if_neg hle'] <;> simp
  | compare l rest ihl ihrest =>
    rw [depth] at hd hd'
    have hl : ev ctx l (d + 1) = ev ctx l (d' + 1) := by
      apply ihl <;> omega
    have hrest (left : Value) : evChain ctx left rest (d + 1) = evChain ctx left rest (d' + 1) := by
      apply evChain_shift
      intro p hp
      have hdepth := depth_le_depthRest hp
      apply ihrest p hp <;> omega
    rw [ev, ev, if_neg hle, if_neg hle', hl]
    simp only [hrest]
  | list es ih =>
    rw [depth] at hd hd'
    have hes : evList ctx es (d + 1) = evList ctx es (d' + 1) := by
      apply evList_shift
      intro e he
      have hdepth := depth_le_depthList he
      apply ih e he <;> omega
    rw [ev, ev, if_neg hle, if_neg hle', hes]
  | tuple es ih =>
    rw [depth] at hd hd'
    have hes : evList ctx es (d + 1) = evList ctx es (d' + 1) := by
      apply evList_shift
      intro e he
      have hdepth := depth_le_depthList he
      apply ih e he <;> omega
    rw [ev, ev, if_neg hle, if_neg hle', hes]
  | other kind es ih => rw [ev, ev, if_neg hle, if_neg hle']

/- Pairs of negations. -/

def orderOf : CmpOp → Option Value.OrderOp
  | .lt => some .lt
  | .ltE => some .le
  | .gt => some .gt
  | .gtE => some .ge
  | _ => none

/-- Python orders the two sides of the comparison, if it is by an ordering operator. -/
def sidesOrdered (ctx : Ctx) : Expr → Bool
  | .compare l [(op, r)] =>
    (orderOf op).isNone ||
      match ev ctx l 1, ev ctx r 1 with
      | .ok v, .ok w => v.comparable w
      | _, _ => false
  | _ => false

/-- The context leaves one of the two negations true. -/
def settles (ctx : Ctx) (na nb : Expr) : Bool :=
  notOf na nb || notOf nb na || (opposed na nb && sidesOrdered ctx na)

def holds (ctx : Ctx) (e : Expr) : Bool :=
  match ev ctx e 0 with
  | .ok v => v.truthy
  | .error _ => false

/-- A tree the static check lets through. -/
structure Safe (e : Expr) : Prop where
  allowed : disallowed e = []
  shallow : depth e ≤ maxDepth

theorem holds_compare {ctx : Ctx} {l r : Expr} {v w : Value} {op : CmpOp} {b : Bool} (hl : ev ctx l 1 = .ok v)
    (hr : ev ctx r 1 = .ok w) (hop : compare op v w = .ok b)
    : holds ctx (.compare l [(op, r)]) = b := by
  have hzero : ¬ maxDepth < 0 := by omega
  have hev : ev ctx (.compare l [(op, r)]) 0 = .ok (.bool b) := by
    rw [ev, if_neg hzero, hl]
    simp only [bind, Except.bind, evChain, hr, hop]
    cases b <;> rfl
  unfold holds
  rw [hev]
  rfl

theorem Safe.sides {l r : Expr} {op : CmpOp} (h : Safe (.compare l [(op, r)])) (ctx : Ctx)
    : ∃ v w, ev ctx l 1 = .ok v ∧ ev ctx r 1 = .ok w := by
  have hallowed := disallowed_compare_eq_nil.mp h.allowed
  have hdepth := h.shallow
  rw [depth] at hdepth
  have hr : depth r ≤ depthRest [(op, r)] := @depth_le_depthRest (op, r) _ List.mem_cons_self
  rcases ev_isOk ctx l hallowed.1 (d := 1) (by omega) with ⟨v, hv⟩
  rcases ev_isOk ctx r (hallowed.2 (op, r) List.mem_cons_self).2 (d := 1) (by omega) with ⟨w, hw⟩
  exact ⟨v, w, hv, hw⟩

/-- A tree and its negation cannot both fail. -/
theorem holds_or_holds_of_notOf {na nb : Expr} (h : notOf na nb = true) (hna : Safe na) (ctx : Ctx)
    : (holds ctx na || holds ctx nb) = true := by
  unfold notOf at h
  split at h
  . next e =>
    rw [← sameDump_eq _ _ h]
    have hallowed := disallowed_unaryOp_eq_nil.mp hna.allowed
    have hdepth := hna.shallow
    rw [depth] at hdepth
    have hzero : ¬ maxDepth < 0 := by omega
    rcases ev_isOk ctx e hallowed.2 (d := 1) (by omega) with ⟨v, hv⟩
    have hshift : ev ctx e 0 = .ok v := by
      rw [← hv]
      apply ev_shift <;> omega
    have hnot : ev ctx (.unaryOp .not e) 0 = .ok (.bool (!v.truthy)) := by
      rw [ev, if_neg hzero, hv]
      rfl
    unfold holds
    rw [hnot, hshift]
    change (!v.truthy || v.truthy) = true
    cases v.truthy <;> rfl
  . cases h

theorem compare_orderOf {op : CmpOp} {order : Value.OrderOp} (h : orderOf op = some order) (v w : Value)
    : compare op v w = .ok ((v.order order w).getD false) := by
  cases op <;> cases h <;> rfl

theorem orderOf_opposite {op op' : CmpOp} {order : Value.OrderOp} (hop : opposite op = some op')
    (h : orderOf op = some order)
    : orderOf op' = some order.opposite := by
  cases op <;> cases h <;> cases hop <;> rfl

/-- One of two opposite comparisons holds where Python orders the sides. -/
theorem holds_or_holds_of_opposed {na nb : Expr} (h : opposed na nb = true) (hna : Safe na) (ctx : Ctx)
    : (holds ctx na || holds ctx nb) = sidesOrdered ctx na := by
  unfold opposed at h
  split at h
  . next l op r l' op' r' =>
    simp only [Bool.and_eq_true, decide_eq_true_eq] at h
    rcases h with ⟨⟨hl, hr⟩, hop⟩
    have hleft := sameDump_eq _ _ hl
    have hright := sameDump_eq _ _ hr
    subst hleft hright
    rcases hna.sides ctx with ⟨v, w, hv, hw⟩
    have hsides : sidesOrdered ctx (.compare l [(op, r)]) = ((orderOf op).isNone || v.comparable w) := by
      simp only [sidesOrdered, hv, hw]
    rw [hsides]
    cases horder : orderOf op with
    | none =>
      -- `==` and `!=`
      have hequal : ∃ b, compare op v w = .ok b ∧ compare op' v w = .ok (!b) := by
        cases op <;> cases horder <;> cases hop
        . exact ⟨_, rfl, rfl⟩
        . exact ⟨_, rfl, by rw [Bool.not_not]; rfl⟩
      rcases hequal with ⟨b, hb, hb'⟩
      rw [holds_compare hv hw hb, holds_compare hv hw hb']
      cases b <;> rfl
    | some order =>
      have hdecides := Value.order_decides order v w
      have hdecides' := Value.order_decides order.opposite v w
      rw [holds_compare hv hw (compare_orderOf horder v w),
        holds_compare hv hw (compare_orderOf (orderOf_opposite hop horder) v w)]
      simp only [Option.isNone_some, Bool.false_or]
      cases hcomparable : v.comparable w with
      | true =>
        rw [hcomparable] at hdecides
        rcases hdecides with ⟨b, hb, hb'⟩
        rw [hb, hb']
        cases b <;> rfl
      | false =>
        rw [hcomparable] at hdecides hdecides'
        rw [hdecides, hdecides']
        rfl
  . cases h

theorem holds_or_holds_iff {na nb : Expr} (h : negatesTree na nb = true) (hna : Safe na) (hnb : Safe nb) (ctx : Ctx)
    : (holds ctx na || holds ctx nb) = settles ctx na nb := by
  unfold settles
  unfold negatesTree at h
  cases hab : notOf na nb with
  | true =>
    rw [holds_or_holds_of_notOf hab hna ctx]
    rfl
  | false =>
    cases hba : notOf nb na with
    | true =>
      rw [Bool.or_comm, holds_or_holds_of_notOf hba hnb ctx]
      rfl
    | false =>
      rw [hab, hba] at h
      have hopposed : opposed na nb = true := by simpa using h
      rw [holds_or_holds_of_opposed hopposed hna ctx, hopposed]
      simp

/- Conditions. -/

theorem safe_of_checkPredicate {py : Runtime} {condition : String} {tree : Expr}
    (htree : exprAst py condition = some tree) (h : checkPredicate py condition = [])
    : Safe tree := by
  rcases conditionTree_of_exprAst htree with ⟨hparse, hdet, hverdict⟩
  unfold conditionTree at hparse
  rcases Option.map_eq_some_iff.mp hparse with ⟨body, hbody, rfl⟩
  have hne := exprOf_ne_empty hdet hverdict
  simp only [checkPredicate, hdet, hverdict, hne, hbody, Bool.not_true, Bool.false_eq_true, if_false] at h
  have hnil {problems : List Problem} (h : problems.eraseDups = []) : problems = [] := by
    cases problems with
    | nil => rfl
    | cons problem problems => simp [List.eraseDups_cons] at h
  have hproblems := hnil h
  split at hproblems
  . simp at hproblems
  . exact ⟨by simpa using hproblems, by omega⟩

theorem hit_eq_holds {py : Runtime} {condition : String} {tree : Expr} (htree : exprAst py condition = some tree)
    (hsafe : Safe tree) (ctx : Ctx)
    : hit py condition ctx = holds ctx tree := by
  rcases conditionTree_of_exprAst htree with ⟨hparse, _, hverdict⟩
  unfold hit holds
  rw [evalCondition_eq, hverdict, hparse]
  simp only [hsafe.allowed, Bool.false_eq_true, if_false]
  cases ev ctx tree 0 <;> rfl

theorem hit_of_isAlwaysTrue {py : Runtime} {condition : String} (h : isAlwaysTrue py condition = true) (ctx : Ctx)
    : hit py condition ctx = true := by
  unfold isAlwaysTrue at h
  split at h
  . cases h
  . split at h
    . next halways =>
      unfold hit
      rw [evalCondition_always halways]
    . split at h
      . next v htree =>
        have hsafe : Safe (.constant v) := ⟨by simp [disallowed, disallowedLevels], by simp [depth]⟩
        rw [hit_eq_holds htree hsafe]
        unfold holds
        rw [ev, if_neg (by omega)]
        exact h
      . cases h

/- Nodes. -/

/-- Two conditions that count as each other's negation, both of them let through by the static check. -/
structure Exhausts (py : Runtime) (node : Node) (first second : String) : Prop where
  mem_first : first ∈ (deterministicEdges node).map Edge.condition
  mem_second : second ∈ (deterministicEdges node).map Edge.condition
  negates : negates py first second = true
  checked_first : checkPredicate py first = []
  checked_second : checkPredicate py second = []

/-- The context leaves one of the two conditions true. -/
def settlesConditions (py : Runtime) (ctx : Ctx) (first second : String) : Bool :=
  match exprAst py first, exprAst py second with
  | some na, some nb => settles ctx na nb
  | _, _ => false

/--
The node has an edge to take for a reason of its own: a catch-all, a pair of negations that the context settles, or an
edge that is in no such pair.
-/
def Decided (py : Runtime) (node : Node) (ctx : Ctx) : Prop :=
  (∃ edge ∈ deterministicEdges node, isAlwaysTrue py edge.condition = true) ∨
    (∃ first second, Exhausts py node first second ∧ settlesConditions py ctx first second = true) ∨
      ∃ edge ∈ deterministicEdges node,
        (∀ other, ¬ Exhausts py node edge.condition other) ∧ hit py edge.condition ctx = true

theorem Exhausts.hit_iff {py : Runtime} {node : Node} {first second : String} (h : Exhausts py node first second)
    (ctx : Ctx)
    : (hit py first ctx || hit py second ctx) = settlesConditions py ctx first second := by
  have hnegates := h.negates
  unfold Analysis.negates at hnegates
  split at hnegates
  . next na nb hna hnb =>
    have hsafe := safe_of_checkPredicate hna h.checked_first
    have hsafe' := safe_of_checkPredicate hnb h.checked_second
    unfold settlesConditions
    rw [hna, hnb, hit_eq_holds hna hsafe, hit_eq_holds hnb hsafe']
    apply holds_or_holds_iff hnegates hsafe hsafe'
  . cases hnegates

theorem exists_hit_iff (py : Runtime) (node : Node) (ctx : Ctx)
    : (∃ edge ∈ deterministicEdges node, hit py edge.condition ctx = true) ↔ Decided py node ctx := by
  constructor
  . rintro ⟨edge, hedge, hhit⟩
    by_cases hpair : ∃ other, Exhausts py node edge.condition other
    . rcases hpair with ⟨other, hexhausts⟩
      refine .inr (.inl ⟨edge.condition, other, hexhausts, ?_⟩)
      rw [← hexhausts.hit_iff, hhit, Bool.true_or]
    . rw [not_exists] at hpair
      exact .inr (.inr ⟨edge, hedge, hpair, hhit⟩)
  . rintro (⟨edge, hedge, halways⟩ | ⟨first, second, hexhausts, hsettles⟩ | ⟨edge, hedge, _, hhit⟩)
    . exact ⟨edge, hedge, hit_of_isAlwaysTrue halways ctx⟩
    . rw [← hexhausts.hit_iff, Bool.or_eq_true] at hsettles
      rcases hsettles with hfirst | hsecond
      . rcases List.mem_map.mp hexhausts.mem_first with ⟨edge, hedge, rfl⟩
        exact ⟨edge, hedge, hfirst⟩
      . rcases List.mem_map.mp hexhausts.mem_second with ⟨edge, hedge, rfl⟩
        exact ⟨edge, hedge, hsecond⟩
    . exact ⟨edge, hedge, hhit⟩

/- What the check is silent about. -/

/-- A reachable node with deterministic and without semantic edges that `_check_stuck` reports nothing for. -/
structure SilentNode (py : Runtime) (graph : Graph) (node : Node) : Prop where
  mem : node ∈ graph.nodes
  reachable : node.name ∈ Parser.reachable graph
  terminal : node.terminal = false
  deterministic : deterministicEdges node ≠ []
  semantic : Engine.semanticEdges node = []
  silent : ∀ finding ∈ checkStuck py graph, finding.node ≠ some node.name

def StopsStuck (next : Engine.Next) : Prop :=
  ∃ name result, next = .stop name result ∧ result.stopped = some .stuck

/-- A deterministic edge matches on every context, and no returned outcome leaves the run stuck at the node. -/
structure NeverStuck (py : Runtime) (node : Node) : Prop where
  matched : ∀ ctx, ∃ edge ∈ deterministicEdges node, hit py edge.condition ctx = true
  moves : ∀ opts keep result value router,
    ¬ StopsStuck (Engine.step py opts keep node result (.returned value) router)

theorem firstDeterministic_isSome {py : Runtime} {node : Node} {ctx : Ctx}
    (h : ∃ edge ∈ deterministicEdges node, hit py edge.condition ctx = true)
    : ∃ edge, Engine.firstDeterministic py node.edges ctx = some edge := by
  rcases h with ⟨edge, hedge, hhit⟩
  rcases List.mem_filter.mp hedge with ⟨hmem, hdet⟩
  rw [← Option.isSome_iff_exists]
  unfold Engine.firstDeterministic
  rw [List.find?_isSome]
  exact ⟨edge, hmem, by rw [hdet, hhit]; rfl⟩

theorem not_stopsStuck {py : Runtime} {node : Node}
    (h : ∀ ctx, ∃ edge ∈ deterministicEdges node, hit py edge.condition ctx = true) (opts : Engine.Options)
    (keep : Option ℤ) (result : Engine.RunResult) (value : Value) (router : Engine.Router)
    : ¬ StopsStuck (Engine.step py opts keep node result (.returned value) router) := by
  rintro ⟨name, result', hstop, hstuck⟩
  unfold Engine.step Engine.handleOutcome at hstop
  dsimp only at hstop
  split at hstop
  . cases hstop
    cases hstuck
  . split at hstop
    . cases hstop
      cases hstuck
    . split at hstop
      . cases hstop
        cases hstuck
      . rcases firstDeterministic_isSome (h (Engine.context (Engine.normalize py value).2
          (Engine.count (Engine.recordOutcome py keep node result value).state.visits node.name))) with ⟨edge, hedge⟩
        rw [hedge] at hstop
        cases hstop

/-- A node the check is silent about never leaves a run stuck if and only if every context decides it. -/
theorem neverStuck_iff {py : Runtime} {graph : Graph} {node : Node} (_ : SilentNode py graph node)
    : NeverStuck py node ↔ ∀ ctx, Decided py node ctx := by
  constructor
  . intro h ctx
    exact (exists_hit_iff py node ctx).mp (h.matched ctx)
  . intro h
    have hmatched (ctx : Ctx) := (exists_hit_iff py node ctx).mpr (h ctx)
    exact ⟨hmatched, not_stopsStuck hmatched⟩

/-- No ordering of a field decides a context that does not have the field. -/
theorem sidesOrdered_missing {ctx : Ctx} {id : String} {op : CmpOp} {order : Value.OrderOp} (r : Expr)
    (hop : orderOf op = some order) (hmissing : ctx id = .none)
    : sidesOrdered ctx (.compare (.name id) [(op, r)]) = false := by
  have hname : ev ctx (.name id) 1 = .ok .none := by
    rw [ev, if_neg (by decide), hmissing]
  simp only [sidesOrdered, hop, hname, Option.isNone_some, Bool.false_or]
  split
  . next v w hv hw =>
    cases hv
    apply Value.comparable_none
  . rfl

/- A node with one pair. -/

/-- Reads the conditions below. -/
def pairRuntime : Runtime where
  parse
    | "x" => some (.name "x")
    | "not x" => some (.unaryOp .not (.name "x"))
    | "x < 5" => some (.compare (.name "x") [(.lt, .constant (.int 5))])
    | "x >= 5" => some (.compare (.name "x") [(.gtE, .constant (.int 5))])
    | _ => none
  str _ := ""
  int _ := none

def pairNode (first second : String) : Node where
  name := "a"
  edges := [⟨"b", first⟩, ⟨"b", second⟩]

def pairGraph (first second : String) : Graph where
  name := "flow"
  start := "a"
  nodes := [pairNode first second, { name := "b", edges := [] }]
  nodup := show ["a", "b"].Nodup by decide

theorem pairNode_neverStuck
    : NeverStuck pairRuntime (pairNode "when x" "when not x") := by
  have hsilent : SilentNode pairRuntime (pairGraph "when x" "when not x") (pairNode "when x" "when not x") := {
    mem := List.mem_cons_self
    reachable := by decide +kernel
    terminal := rfl
    deterministic := by decide +kernel
    semantic := by decide +kernel
    silent := by decide +kernel
  }
  refine (neverStuck_iff hsilent).mpr fun ctx => .inr (.inl ⟨"when x", "when not x", ?_, ?_⟩)
  . exact ⟨by decide +kernel, by decide +kernel, by decide +kernel, by decide +kernel, by decide +kernel⟩
  . have hx : exprAst pairRuntime "when x" = some (.name "x") := by
      with_unfolding_all rfl
    have hnot : exprAst pairRuntime "when not x" = some (.unaryOp .not (.name "x")) := by
      with_unfolding_all rfl
    simp only [settlesConditions, hx, hnot]
    rfl

theorem orderingPair_stuck
    : ¬ ∀ (py : Runtime) (graph : Graph) (node : Node), SilentNode py graph node → NeverStuck py node := by
  intro h
  have hnever := h pairRuntime (pairGraph "when x < 5" "when x >= 5") (pairNode "when x < 5" "when x >= 5") {
    mem := List.mem_cons_self
    reachable := by decide +kernel
    terminal := rfl
    deterministic := by decide +kernel
    semantic := by decide +kernel
    silent := by decide +kernel
  }
  rcases hnever.matched fun _ => .none with ⟨edge, hedge, hhit⟩
  revert hhit
  revert edge
  decide +kernel

end Analysis
