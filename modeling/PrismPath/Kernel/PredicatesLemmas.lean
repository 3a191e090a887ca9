import Mathlib.Tactic.IntervalCases
import PrismPath.Kernel.Predicates

/-!
This module contains the lemmas about the evaluator: its Boolean operators read truths only, and a condition
depends on a context only through the tree it parses to.
-/

open Python

namespace Predicates

/-- The truth of a result, which is all a Boolean operator reads of it. -/
def truth (r : Except PredicateError Value) : Except PredicateError Bool :=
  r.map Value.truthy

theorem evList_truth (ctx : Ctx) (es : List Expr) (depth : Nat)
    : (evList ctx es depth).map (List.map Value.truthy)
        =
      es.mapM fun e => truth (ev ctx e depth) := by
  induction es with
  | nil => rfl
  | cons e es ih =>
    rw [evList, List.mapM_cons, ← ih]
    cases ev ctx e depth with
    | error err => rfl
    | ok v =>
      cases evList ctx es depth with
      | error err => rfl
      | ok vs => rfl

theorem mapM_congr {ε α β : Type} {f g : α → Except ε β} {as : List α} (h : ∀ a ∈ as, f a = g a)
    : as.mapM f = as.mapM g := by
  induction as with
  | nil => rfl
  | cons a as ih =>
    rw [List.forall_mem_cons] at h
    rw [List.mapM_cons, List.mapM_cons, h.1, ih h.2]

theorem evList_congr {c₁ c₂ : Ctx} {es : List Expr} {depth : Nat}
    (h : ∀ e ∈ es, ev c₁ e depth = ev c₂ e depth)
    : evList c₁ es depth = evList c₂ es depth := by
  induction es with
  | nil => rfl
  | cons e es ih =>
    rw [List.forall_mem_cons] at h
    rw [evList, evList, h.1, ih h.2]

theorem ev_boolOp (ctx : Ctx) (op : BoolOp) (es : List Expr) (depth : Nat)
    : ev ctx (.boolOp op es) depth
        =
      if maxDepth < depth then
        .error .tooDeep
      else
        (es.mapM fun e => truth (ev ctx e (depth + 1))).map
          fun bs => .bool (match op with
            | .and => bs.all id
            | .or => bs.any id) := by
  rw [← evList_truth]
  cases op with
  | and =>
    rw [ev]
    split
    . rfl
    . cases evList ctx es (depth + 1) with
      | error err => rfl
      | ok vs => simp [bind, Except.bind, pure, Except.pure, Except.map, List.all_map]
  | or =>
    rw [ev]
    split
    . rfl
    . cases evList ctx es (depth + 1) with
      | error err => rfl
      | ok vs => simp [bind, Except.bind, pure, Except.pure, Except.map, List.any_map]

theorem ev_not (ctx : Ctx) (e : Expr) (depth : Nat)
    : ev ctx (.unaryOp .not e) depth
        =
      if maxDepth < depth then
        .error .tooDeep
      else
        (truth (ev ctx e (depth + 1))).map fun b => .bool (!b) := by
  rw [ev]
  split
  . rfl
  . cases ev ctx e (depth + 1) with
    | error err => rfl
    | ok v => rfl

/-- A Boolean operator cannot tell contexts apart that its operands are equally true in. -/
theorem ev_boolOp_congr {c₁ c₂ : Ctx} {op : BoolOp} {es : List Expr} {depth : Nat}
    (h : ∀ e ∈ es, truth (ev c₁ e (depth + 1)) = truth (ev c₂ e (depth + 1)))
    : ev c₁ (.boolOp op es) depth = ev c₂ (.boolOp op es) depth := by
  rw [ev_boolOp, ev_boolOp, mapM_congr h]

theorem ev_not_congr {c₁ c₂ : Ctx} {e : Expr} {depth : Nat}
    (h : truth (ev c₁ e (depth + 1)) = truth (ev c₂ e (depth + 1)))
    : ev c₁ (.unaryOp .not e) depth = ev c₂ (.unaryOp .not e) depth := by
  rw [ev_not, ev_not, h]

theorem evChain_congr_names {c₁ c₂ : Ctx} {rest : List (CmpOp × Expr)} {depth : Nat} (left : Value)
    (h : ∀ p ∈ rest, ev c₁ p.2 depth = ev c₂ p.2 depth)
    : evChain c₁ left rest depth = evChain c₂ left rest depth := by
  induction rest generalizing left with
  | nil => rfl
  | cons p rest ih =>
    rcases p with ⟨op, right⟩
    rw [List.forall_mem_cons] at h
    rw [evChain, evChain, h.1]
    simp only [fun v => ih v h.2]

/-- An expression depends on a context only through the names in it. -/
theorem ev_congr_names {c₁ c₂ : Ctx} (e : Expr) (depth : Nat) (h : ∀ n ∈ e.names, c₁ n = c₂ n)
    : ev c₁ e depth = ev c₂ e depth := by
  induction e using Expr.induct generalizing depth with
  | constant v => rw [ev, ev]
  | name id => rw [ev, ev, h id (by simp [Expr.names])]
  | boolOp op es ih =>
    rw [Expr.names, Expr.namesList_eq] at h
    apply ev_boolOp_congr
    intro e he
    rw [ih e he _ fun n hn => h n (List.mem_flatMap.mpr ⟨e, he, hn⟩)]
  | unaryOp op e ih =>
    cases op with
    | not => exact ev_not_congr (by rw [ih _ h])
    | _ => rw [ev, ev] <;> simp
  | compare left rest ihl ihr =>
    rw [Expr.names, Expr.namesRest_eq] at h
    have hleft := ihl (depth + 1) fun n hn => h n (List.mem_append_left _ hn)
    have hrest (v : Value) : evChain c₁ v rest (depth + 1) = evChain c₂ v rest (depth + 1) :=
      evChain_congr_names v fun p hp => ihr p hp _ fun n hn => h n (List.mem_append_right _ (List.mem_flatMap.mpr ⟨p, hp, hn⟩))
    rw [ev, ev, hleft]
    simp only [hrest]
  | list es ih =>
    rw [Expr.names, Expr.namesList_eq] at h
    have : evList c₁ es (depth + 1) = evList c₂ es (depth + 1) := evList_congr fun e he =>
      ih e he _ fun n hn => h n (List.mem_flatMap.mpr ⟨e, he, hn⟩)
    rw [ev, ev, this]
  | tuple es ih =>
    rw [Expr.names, Expr.namesList_eq] at h
    have : evList c₁ es (depth + 1) = evList c₂ es (depth + 1) := evList_congr fun e he =>
      ih e he _ fun n hn => h n (List.mem_flatMap.mpr ⟨e, he, hn⟩)
    rw [ev, ev, this]
  | other kind es ih => rw [ev, ev]

/-- The tree a condition is evaluated on, unless its text is a verdict. -/
def conditionTree (py : Runtime) (cond : String) : Option Expr :=
  (py.parse (exprOf cond)).map foldUnarySigns

theorem exprAst_eq (py : Runtime) (cond : String)
    : exprAst py cond
        =
      if isDeterministic cond && !isVerdict (exprOf cond) then conditionTree py cond else none := by
  simp only [exprAst, conditionTree]
  cases isDeterministic cond with
  | false => rfl
  | true => cases isVerdict (exprOf cond) <;> rfl

theorem conditionTree_of_exprAst {py : Runtime} {cond : String} {tree : Expr}
    (h : exprAst py cond = some tree)
    : conditionTree py cond = some tree ∧ isDeterministic cond = true ∧ isVerdict (exprOf cond) = false := by
  rw [exprAst_eq] at h
  split at h
  . next hcond =>
    rw [Bool.and_eq_true, Bool.not_eq_true'] at hcond
    exact ⟨h, hcond⟩
  . cases h

theorem evalCondition_always {py : Runtime} {cond : String} (h : lower (exprOf cond) ∈ always) (ctx : Ctx)
    : evalCondition py cond ctx = .ok true := by
  simp only [evalCondition, h, if_true]

theorem evalCondition_never {py : Runtime} {cond : String} (halways : lower (exprOf cond) ∉ always)
    (h : lower (exprOf cond) ∈ never) (ctx : Ctx)
    : evalCondition py cond ctx = .ok false := by
  simp only [evalCondition, halways, h, if_true, if_false]

theorem evalCondition_eq (py : Runtime) (cond : String) (ctx : Ctx)
    : evalCondition py cond ctx
        =
      if isVerdict (exprOf cond) then
        .ok (lower (exprOf cond) ∈ always)
      else
        match conditionTree py cond with
        | none => .error (.unparseable cond)
        | some tree =>
          match disallowed tree with
          | kind :: _ => .error (.disallowed cond kind)
          | [] => truth (ev ctx tree 0) := by
  by_cases halways : lower (exprOf cond) ∈ always
  . have hverdict : isVerdict (exprOf cond) = true := by
      rw [isVerdict, decide_eq_true halways, Bool.true_or]
    rw [evalCondition_always halways, if_pos hverdict, decide_eq_true halways]
  by_cases hnever : lower (exprOf cond) ∈ never
  . have hverdict : isVerdict (exprOf cond) = true := by
      rw [isVerdict, decide_eq_true hnever, Bool.or_true]
    rw [evalCondition_never halways hnever, if_pos hverdict, decide_eq_false halways]
  rw [isVerdict_eq_false halways hnever, conditionTree]
  simp only [evalCondition, halways, hnever, if_false, Bool.false_eq_true]
  cases py.parse (exprOf cond) with
  | none => simp only [Option.map_none]
  | some tree =>
    simp only [Option.map_some]
    cases disallowed (foldUnarySigns tree) with
    | cons kind kinds => simp only
    | nil =>
      simp only
      cases ev ctx (foldUnarySigns tree) 0 with
      | error err => simp only [bind, Except.bind, truth, Except.map]
      | ok v => simp only [bind, Except.bind, truth, Except.map, pure, Except.pure]

/-- A condition cannot tell two contexts apart in which its tree is equally true. -/
theorem evalCondition_congr_of_truth {py : Runtime} {cond : String} {c₁ c₂ : Ctx}
    (h : ∀ tree, isVerdict (exprOf cond) = false → conditionTree py cond = some tree →
      truth (ev c₁ tree 0) = truth (ev c₂ tree 0))
    : evalCondition py cond c₁ = evalCondition py cond c₂ := by
  rw [evalCondition_eq, evalCondition_eq]
  cases hverdict : isVerdict (exprOf cond) with
  | true => rfl
  | false =>
    cases htree : conditionTree py cond with
    | none => simp only
    | some tree =>
      have := h tree hverdict htree
      dsimp only
      rw [this]

theorem hit_eq_of_evalCondition {py : Runtime} {cond : String} {c₁ c₂ : Ctx}
    (h : evalCondition py cond c₁ = evalCondition py cond c₂)
    : hit py cond c₁ = hit py cond c₂ := by
  unfold hit
  rw [h]

theorem whenPrefix
    : lower "when " = "when " ∧ lstripChars "when ".toList = "when ".toList ∧ "when ".toList.length = 5 := by
  with_unfolding_all decide

theorem stripped_when {s : String} (hs : Stripped s) (hne : s ≠ "")
    : Stripped ("when " ++ s) :=
  stripped_append whenPrefix.2.1 (by decide) hs hne

theorem startsWith_lower_when (s : String)
    : startsWith (lower ("when " ++ s)) "when " = true := by
  rw [lower_append, whenPrefix.1, startsWith_append]

theorem isDeterministic_when {s : String} (hs : strip s ≠ "")
    : isDeterministic ("when " ++ s) = true := by
  have h := startsWith_lower (startsWith_strip_append whenPrefix.2.1 (by decide) hs)
  rw [whenPrefix.1] at h
  unfold isDeterministic
  dsimp only
  rw [h, Bool.true_or, Bool.true_or]

theorem isDeterministic_of_startsWith {s : String} (h : startsWith (lower (strip s)) "when " = true)
    : isDeterministic s = true := by
  unfold isDeterministic
  dsimp only
  rw [h, Bool.true_or, Bool.true_or]

theorem verdict_not_startsWith_on : ∀ w ∈ always ++ never, startsWith w "on" = false := by
  with_unfolding_all decide

theorem startsWith_trans {s p q : String} (hp : startsWith s p = true) (hq : startsWith p q = true)
    : startsWith s q = true := by
  simp only [startsWith_iff] at hp hq ⊢
  exact hq.trans hp

/-- The tiers are told apart by the first word of a condition. -/
theorem not_startsWith_on {cond : String} (h : isDeterministic cond = true)
    : startsWith (lower (strip cond)) "on" = false := by
  by_contra hon
  rw [Bool.not_eq_false] at hon
  unfold isDeterministic at h
  dsimp only at h
  rw [Bool.or_eq_true, Bool.or_eq_true, decide_eq_true_eq, decide_eq_true_eq] at h
  rcases h with (hwhen | halways) | hnever
  . have := head?_eq_of_startsWith hon hwhen (by decide) (by decide)
    revert this
    decide
  . have := verdict_not_startsWith_on _ (List.mem_append_left _ halways)
    rw [this] at hon
    cases hon
  . have := verdict_not_startsWith_on _ (List.mem_append_right _ hnever)
    rw [this] at hon
    cases hon

theorem isError_eq_false {cond : String} (h : isDeterministic cond = true)
    : isError cond = false := by
  by_contra herror
  rw [Bool.not_eq_false] at herror
  have hon := startsWith_trans herror (startsWith_append "on" " error")
  rw [not_startsWith_on h] at hon
  cases hon

/-- `when ` in front of an expression that lacks it does not change what is evaluated. -/
theorem exprOf_when {s : String} (hs : Stripped s) (hne : s ≠ "")
    (hbare : startsWith (lower s) "when " = false)
    : exprOf ("when " ++ s) = exprOf s := by
  have hbare' : ¬ startsWith (lower (strip s)) "when " = true := by
    rw [strip_of_stripped hs, hbare]
    exact Bool.false_ne_true
  have hwhen : startsWith (lower (strip ("when " ++ s))) "when " = true := by
    rw [strip_of_stripped (stripped_when hs hne), startsWith_lower_when]
  have hdrop : dropChars ("when " ++ s) 5 = s := by
    rw [← whenPrefix.2.2, dropChars_append]
  unfold exprOf
  dsimp only
  rw [if_pos hwhen, if_neg hbare', strip_of_stripped (stripped_when hs hne), hdrop]

theorem hit_eq_of_exprOf {py : Runtime} {s t : String} (h : exprOf s = exprOf t) (ctx : Ctx)
    : hit py s ctx = hit py t ctx := by
  have htree : conditionTree py s = conditionTree py t := by
    rw [conditionTree, conditionTree, h]
  unfold hit
  rw [evalCondition_eq, evalCondition_eq, h, htree]
  cases isVerdict (exprOf t) with
  | true => rfl
  | false =>
    cases conditionTree py t with
    | none => rfl
    | some tree =>
      cases htree : disallowed tree with
      | cons kind kinds => simp [htree]
      | nil => simp [htree]

/- The nodes outside the grammar. -/

attribute [local simp] disallowedLevels disallowedLevelsList disallowedLevelsRest

theorem mem_disallowedLevelsList (k : String) (es : List Expr)
    : k ∈ (disallowedLevelsList es).flatten ↔ ∃ e ∈ es, k ∈ disallowed e := by
  induction es with
  | nil => simp
  | cons e es ih =>
    rw [disallowedLevelsList, Expr.mem_flatten_joinLevels, ih]
    simp only [List.mem_cons, exists_eq_or_imp, disallowed]

theorem mem_disallowedLevelsRest (k : String) (rest : List (CmpOp × Expr))
    : k ∈ (disallowedLevelsRest rest).flatten ↔ ∃ p ∈ rest, k ∈ disallowed p.2 := by
  induction rest with
  | nil => simp
  | cons p rest ih =>
    rcases p with ⟨op, e⟩
    rw [disallowedLevelsRest, Expr.mem_flatten_joinLevels, ih]
    simp only [List.mem_cons, exists_eq_or_imp, disallowed]

theorem disallowed_boolOp_eq_nil {op : BoolOp} {es : List Expr}
    : disallowed (.boolOp op es) = [] ↔ ∀ e ∈ es, disallowed e = [] := by
  rw [disallowed, disallowedLevels, List.flatten_cons, List.nil_append]
  simp only [List.eq_nil_iff_forall_not_mem, mem_disallowedLevelsList, not_exists, not_and]
  exact ⟨fun h e he k => h k e he, fun h k e he => h e he k⟩

theorem disallowed_unaryOp_eq_nil {op : UnaryOp} {e : Expr}
    : disallowed (.unaryOp op e) = [] ↔ UnaryOp.disallowed op = [] ∧ disallowed e = [] := by
  rw [disallowed, disallowedLevels, List.flatten_cons, List.nil_append]
  simp only [List.eq_nil_iff_forall_not_mem, Expr.mem_flatten_joinLevels, not_or, List.flatten_cons,
    List.flatten_nil, List.append_nil, disallowed]
  exact ⟨fun h => ⟨fun k => (h k).1, fun k => (h k).2⟩, fun h k => ⟨h.1 k, h.2 k⟩⟩

theorem disallowed_compare_eq_nil {l : Expr} {rest : List (CmpOp × Expr)}
    : disallowed (.compare l rest) = []
        ↔ disallowed l = [] ∧ ∀ p ∈ rest, CmpOp.disallowed p.1 = [] ∧ disallowed p.2 = [] := by
  rw [disallowed, disallowedLevels, List.flatten_cons, List.nil_append]
  simp only [List.eq_nil_iff_forall_not_mem, Expr.mem_flatten_joinLevels, not_or, List.flatten_cons,
    List.flatten_nil, List.append_nil, List.mem_flatMap, mem_disallowedLevelsRest, not_exists, not_and, disallowed]
  constructor
  . exact fun h => ⟨fun k => (h k).1, fun p hp => ⟨fun k => (h k).2.1 p hp, fun k => (h k).2.2 p hp⟩⟩
  . exact fun h k => ⟨h.1 k, fun p hp => (h.2 p hp).1 k, fun p hp => (h.2 p hp).2 k⟩

theorem disallowed_list_eq_nil {es : List Expr}
    : disallowed (.list es) = [] ↔ ∀ e ∈ es, disallowed e = [] :=
  @disallowed_boolOp_eq_nil .and es

theorem disallowed_tuple_eq_nil {es : List Expr}
    : disallowed (.tuple es) = [] ↔ ∀ e ∈ es, disallowed e = [] :=
  @disallowed_boolOp_eq_nil .and es

/- The text of a condition. -/

theorem isSpace_of_strip {cs : List Char} (h : rstripChars (lstripChars cs) = [])
    : ∀ c ∈ cs, isSpace c = true := by
  rw [rstripChars, List.rdropWhile_eq_nil_iff] at h
  cases hdrop : lstripChars cs with
  | nil => exact List.dropWhile_eq_nil_iff.mp hdrop
  | cons c rest =>
    have hhead := List.head?_dropWhile_not isSpace cs
    rw [← lstripChars, hdrop] at hhead
    have hspace := h c (by rw [hdrop]; simp)
    simp [hspace] at hhead

theorem isSpace_of_lowerChar {c : Char} (h : lowerChar c = ' ')
    : isSpace c = true := by
  unfold lowerChar at h
  split at h
  next hupper =>
    have hlow : 65 ≤ c.toNat := UInt32.le_iff_toNat_le.mp hupper.1
    have hhigh : c.toNat ≤ 90 := UInt32.le_iff_toNat_le.mp hupper.2
    generalize c.toNat = n at h hlow hhigh
    interval_cases n <;> exact absurd h (by decide)
  next =>
    subst h
    rfl

theorem getLast_strip (s : String) (hne : (strip s).toList ≠ [])
    : isSpace ((strip s).toList.getLast hne) = false := by
  have hstripped := (stripped_strip s).2
  rw [rstripChars, List.rdropWhile_eq_self_iff] at hstripped
  simpa using hstripped hne

/-- The expression of a deterministic condition is not empty. -/
theorem exprOf_ne_empty {cond : String} (hdet : isDeterministic cond = true) (hverdict : isVerdict (exprOf cond) = false)
    : exprOf cond ≠ "" := by
  intro hempty
  unfold exprOf at hempty hverdict
  dsimp only at hempty hverdict
  by_cases hwhen : startsWith (lower (strip cond)) "when " = true
  . rw [if_pos hwhen] at hempty
    -- the text after the word is all space, and so is the last character of the stripped text
    have hspace : ∀ c ∈ (strip cond).toList.drop 5, isSpace c = true := by
      apply isSpace_of_strip
      have := congrArg String.toList hempty
      simpa [strip, dropChars] using this
    rw [startsWith, List.isPrefixOf_iff_prefix, lower, String.toList_ofList, String.toList_ofList] at hwhen
    rcases hwhen with ⟨rest, hrest⟩
    have hrest : (strip cond).toList.map lowerChar = 'w' :: 'h' :: 'e' :: 'n' :: ' ' :: rest := hrest.symm
    have hfifth : ∃ a b c d e suffix, (strip cond).toList = a :: b :: c :: d :: e :: suffix ∧ lowerChar e = ' ' := by
      rcases List.map_eq_cons_iff.mp hrest with ⟨a, _, ha, -, h₁⟩
      rcases List.map_eq_cons_iff.mp h₁ with ⟨b, _, rfl, -, h₂⟩
      rcases List.map_eq_cons_iff.mp h₂ with ⟨c, _, rfl, -, h₃⟩
      rcases List.map_eq_cons_iff.mp h₃ with ⟨d, _, rfl, -, h₄⟩
      rcases List.map_eq_cons_iff.mp h₄ with ⟨e, suffix, rfl, he, -⟩
      exact ⟨a, b, c, d, e, suffix, ha, he⟩
    rcases hfifth with ⟨a, b, c, d, e, suffix, hlist, he⟩
    have hne : (strip cond).toList ≠ [] := by
      rw [hlist]
      simp
    have hlast := getLast_strip cond hne
    rw [hlist] at hspace
    simp only [hlist] at hlast
    cases suffix with
    | nil =>
      have := isSpace_of_lowerChar he
      simp [this] at hlast
    | cons f suffix =>
      have := hspace _ (List.getLast_mem (l := f :: suffix) (by simp))
      simp [this] at hlast
  . rw [if_neg hwhen] at hverdict hempty
    rw [isDeterministic, eq_false_of_ne_true hwhen] at hdet
    simp only [isVerdict, Bool.or_eq_false_iff, decide_eq_false_iff_not] at hverdict
    simp [hverdict] at hdet

end Predicates
