import PrismPath.Kernel.VisitSaturation

/-!
This module contains what the pieces of the checker compute: the samples among the candidates, the edges an
outcome can take, and the moves of the search.
-/

open Python

namespace ModelCheck

open Predicates LevelM Parser Engine

/-! ## Conditions of the fragment compare `visits` with literals only -/

theorem isLiteral_of_scalars {es : List Expr} {vs : List Value} (hes : constantsOf es = some vs)
    (hvs : ∀ v ∈ vs, scalarValue v = true)
    : ((constantsOf es).any fun vs => vs.all isLiteralValue) = true := by
  rw [hes, Option.any_some, List.all_eq_true]
  intro v hv
  have := hvs v hv
  cases v <;> simp_all [scalarValue, isLiteralValue]

theorem isVisits_or_stable_name (f : String)
    : isVisits (.name f) = true ∨ stable (.name f) = true := by
  by_cases h : f = "visits" <;> simp [isVisits, stable, h]

theorem pairStable_of_literal {left right : Expr} (hleft : isVisits left = true ∨ stable left = true)
    (hright : isLiteral right = true)
    : pairStable left (stable left) right (stable right) = true
        ∧ pairStable right (stable right) left (stable left) = true := by
  have hstable := stable_of_isLiteral hright
  rcases hleft with hleft | hleft <;> simp [pairStable, hleft, hright, hstable]

theorem pairStable_of_isPair {left : Expr} {op : CmpOp} {right : Expr} (h : IsPair left op right)
    : pairStable left (stable left) right (stable right) = true := by
  cases h with
  | member hright hop hes hvs =>
    next f es vs =>
    have hlit : isLiteral right = true := by
      rcases hright with rfl | rfl <;> exact isLiteral_of_scalars hes hvs
    exact (pairStable_of_literal (isVisits_or_stable_name f) hlit).1
  | fieldConst hop hv hstr =>
    next f v =>
    have hlit : isLiteral (.constant v) = true := by
      cases v <;> simp_all [scalarValue, isLiteral, isLiteralValue]
    exact (pairStable_of_literal (isVisits_or_stable_name f) hlit).1
  | constField hop hv hstr =>
    next f v =>
    have hlit : isLiteral (.constant v) = true := by
      cases v <;> simp_all [scalarValue, isLiteral, isLiteralValue]
    exact (pairStable_of_literal (isVisits_or_stable_name f) hlit).2

theorem chainStable_of_classify {left : Expr} {rest : List (CmpOp × Expr)}
    (h : ∀ e ∈ chainPairs left rest, classify e = none)
    : chainStable left (stable left) rest = true := by
  induction rest generalizing left with
  | nil => rfl
  | cons p rest ih =>
    rcases p with ⟨op, right⟩
    rw [chainPairs, List.forall_mem_cons, classify_chainPair] at h
    rw [chainStable, Bool.and_eq_true]
    exact ⟨pairStable_of_isPair (isPair_of_pairReason h.1), ih h.2⟩

theorem stable_of_classify {e : Expr} (h : classify (desugarChains e) = none)
    : (isVisits e || stable e) = true := by
  induction e using Expr.induct with
  | constant v => rfl
  | name f => simpa using isVisits_or_stable_name f
  | boolOp op es ih =>
    simp only [desugarChains, classify, classifyList_eq_none, desugarChainsList_eq, List.mem_map,
      forall_exists_index, and_imp, forall_apply_eq_imp_iff₂] at h
    rw [stable, (readableList_iff es).mpr fun e he => ih e he (h e he), Bool.or_true]
  | unaryOp op e ih =>
    cases op with
    | not => rw [stable, ih (by simpa [desugarChains, classify] using h), Bool.or_true]
    | _ => simp [desugarChains, classify, atomReason] at h
  | compare left rest ihl ihr =>
    rcases classify_desugar_compare left rest h with ⟨hne, hclass, -⟩
    have hleft : (isVisits left || stable left) = true := by
      cases rest with
      | nil => simp at hne
      | cons p rest =>
        rcases p with ⟨op, right⟩
        rw [chainPairs, List.forall_mem_cons, classify_chainPair] at hclass
        cases isPair_of_pairReason hclass.1 with
        | constField => rfl
        | member => simpa using isVisits_or_stable_name _
        | fieldConst => simpa using isVisits_or_stable_name _
    rw [stable, hleft, chainStable_of_classify hclass, Bool.and_true, Bool.or_true]
  | list es => simp [desugarChains, classify, atomReason] at h
  | tuple es => simp [desugarChains, classify, atomReason] at h
  | other k es => rfl

/-- A condition that does not parse compares nothing. -/
theorem comparesLiterals_of_isLevelM {py : Runtime} {cond : String}
    (h : exprAst py cond = none ∨ isLevelM py cond = true) (hdet : isDeterministic cond = true)
    (hverdict : isVerdict (exprOf cond) = false)
    : comparesLiterals py cond = true := by
  have hast : exprAst py cond = conditionTree py cond := by
    rw [exprAst_eq, hdet, hverdict]
    rfl
  unfold comparesLiterals
  rw [← hast]
  cases htree : exprAst py cond with
  | none => rfl
  | some tree =>
    rcases h with h | h
    . rw [htree] at h
      cases h
    . exact stable_of_classify (classify_of_isLevelM htree h)

/-! ## Samples -/

/-- The values the checker tries for a field when `consts` are the constants of its node's conditions. -/
inductive IsSample (consts : List Value) : Value → Prop
  | pole {v : Value} : v ∈ poles → IsSample consts v
  | const {v : Value} : v ∈ consts → IsSample consts v
  | neighbour {num v : Value} : num ∈ numbers consts → v ∈ neighbours num → IsSample consts v
  | between {p : Value × Value} {v : Value} : p ∈ (numbers consts).zip (numbers consts).tail →
      p.1.midpoint p.2 = some v → IsSample consts v

theorem PyFloat.eq_of_num_eq {x y : PyFloat} (h : x.num.eq y.num = true)
    : x = y := by
  cases x <;> cases y <;> simp_all [PyFloat.num, Number.eq]
  exact Subtype.ext h

theorem eq_of_scalarEq {v w : Value} (htype : v.typeName = w.typeName) (h : v.scalarEq w = true)
    : v = w := by
  cases v <;> cases w <;> simp_all [Value.typeName, Value.scalarEq, Value.complex?, Value.num?]
  . next a b => cases a <;> cases b <;> simp_all [Number.eq]
  . simp_all [Number.eq]
  . exact PyFloat.eq_of_num_eq h.1
  . simp_all [Number.eq]
  . exact PyFloat.eq_of_num_eq h.2

/-- Values with the same key are the same value. -/
theorem eq_of_sameKey {v w : Value} (h : sameKey v w = true)
    : v = w := by
  simp only [sameKey, Bool.and_eq_true, decide_eq_true_eq, Bool.or_eq_true, Bool.not_eq_true'] at h
  rcases h with ⟨htype, h | ⟨⟨hfloat, hv⟩, hw⟩⟩
  . exact eq_of_scalarEq htype h
  . cases v <;> cases w <;> simp_all [Value.typeName, Value.isFloat]
    next x y =>
    have hnan (z : PyFloat) (hz : (Value.float z).scalarEq (.float z) = false) : z = .nan := by
      cases z <;> simp_all [Value.scalarEq, Value.complex?, Value.num?, PyFloat.num, Number.eq]
    rw [hnan x hv, hnan y hw]

theorem mem_candidates {consts cands : List Value} (h : candidates consts = some cands) {v : Value}
    (hv : IsSample consts v)
    : v ∈ cands := by
  simp only [candidates, Option.map_eq_some_iff] at h
  rcases h with ⟨midpoints, hmid, rfl⟩
  have hmem : v ∈ poles ++ consts ++ (numbers consts).flatMap neighbours ++ midpoints := by
    simp only [List.mem_append]
    cases hv with
    | pole h => exact Or.inl (Or.inl (Or.inl h))
    | const h => exact Or.inl (Or.inl (Or.inr h))
    | neighbour hnum h => exact Or.inl (Or.inr (List.mem_flatMap.mpr ⟨_, hnum, h⟩))
    | between hp h =>
      rcases mem_of_mapM_some hmid hp with ⟨w, hw, heq⟩
      rw [h] at heq
      cases heq
      exact Or.inr hw
  rcases exists_mem_dedupBy sameKey hmem with ⟨w, hw, rfl | hsame⟩
  . exact hw
  . rw [eq_of_sameKey hsame]
    exact hw

theorem mem_assignments {cands : List Value} {fields : List String} (g : String → Value)
    (h : ∀ f ∈ fields, g f ∈ cands)
    : (fields.map fun f => (f, g f)) ∈ assignments cands fields := by
  induction fields with
  | nil => simp [assignments]
  | cons f fields ih =>
    rw [List.forall_mem_cons] at h
    rw [assignments, List.mem_flatMap]
    exact ⟨g f, h.1, List.mem_map.mpr ⟨_, ih h.2, rfl⟩⟩

/-- The assignment of a sample to each field is one of the contexts of a complete node. -/
theorem mem_contexts {py : Runtime} {node : Node} {assume : Option String} {sat : NodeSat}
    (hsat : nodeSat py node assume = some sat) (hcomplete : sat.complete = true) (g : String → Value)
    (hg : ∀ f ∈ fieldsAt py node assume, IsSample (constantsAt py node assume) (g f))
    : ((fieldsAt py node assume).map fun f => (f, g f)) ∈ sat.contexts := by
  simp only [nodeSat, Option.map_eq_some_iff] at hsat
  rcases hsat with ⟨cands, hcands, rfl⟩
  simp only [Bool.and_eq_true, decide_eq_true_eq] at hcomplete
  unfold NodeSat.contexts
  rw [if_neg (Nat.not_lt.mpr hcomplete.2)]
  apply mem_assignments
  intro f hf
  exact mem_candidates hcands (hg f hf)

/-! ## The edges an outcome can take -/

theorem mem_indexed {edges : List Edge} {i : Nat} {edge : Edge}
    : (i, edge) ∈ indexed edges ↔ edges[i]? = some edge := by
  rw [indexed, List.mem_map]
  constructor
  . rintro ⟨⟨e, j⟩, hmem, heq⟩
    cases heq
    exact List.mk_mem_zipIdx_iff_getElem?.mp hmem
  . intro h
    exact ⟨(edge, i), List.mk_mem_zipIdx_iff_getElem?.mpr h, rfl⟩

theorem map_snd_indexed (edges : List Edge)
    : (indexed edges).map Prod.snd = edges := by
  simp [indexed, Function.comp_def]

theorem map_fst_indexed (edges : List Edge)
    : (indexed edges).map Prod.fst = List.range edges.length := by
  simp [indexed, Function.comp_def, List.zipIdx_map_snd, List.range_eq_range']

def takes (py : Runtime) (ctx : Ctx) (p : Nat × Edge) : Bool :=
  isDeterministic p.2.condition && hit py p.2.condition ctx

theorem firstMatch_detEdges (py : Runtime) (node : Node) (ctx : Ctx)
    : firstMatch py (detEdges node) ctx = ((indexed node.edges).find? (takes py ctx)).map Prod.fst := by
  have htakes
      : (fun p : Nat × Edge => decide (isDeterministic p.2.condition = true ∧ hit py p.2.condition ctx = true))
        = takes py ctx := by
    funext p
    simp [takes]
  rw [firstMatch, detEdges, List.find?_filter, htakes]

theorem firstDeterministic_indexed (py : Runtime) (node : Node) (ctx : Ctx)
    : firstDeterministic py node.edges ctx = ((indexed node.edges).find? (takes py ctx)).map Prod.snd := by
  rw [firstDeterministic, ← map_snd_indexed node.edges, List.find?_map, map_snd_indexed]
  rfl

theorem firstMatch_of_firstDeterministic {py : Runtime} {node : Node} {ctx : Ctx} {edge : Edge}
    (h : firstDeterministic py node.edges ctx = some edge)
    : ∃ i, firstMatch py (detEdges node) ctx = some i
        ∧ node.edges[i]? = some edge
        ∧ (i, edge) ∈ detEdges node := by
  rw [firstDeterministic_indexed, Option.map_eq_some_iff] at h
  rcases h with ⟨⟨i, edge'⟩, hfind, heq⟩
  cases heq
  have hmem := List.mem_of_find?_eq_some hfind
  have htakes := List.find?_some hfind
  refine ⟨i, by rw [firstMatch_detEdges, hfind]; rfl, mem_indexed.mp hmem, ?_⟩
  rw [detEdges, List.mem_filter]
  rw [takes, Bool.and_eq_true] at htakes
  exact ⟨hmem, htakes.1⟩

theorem firstMatch_eq_none_iff {py : Runtime} {node : Node} {ctx : Ctx}
    : firstMatch py (detEdges node) ctx = none ↔ firstDeterministic py node.edges ctx = none := by
  rw [firstMatch_detEdges, firstDeterministic_indexed, Option.map_eq_none_iff, Option.map_eq_none_iff]

/-- Contexts in which every deterministic condition has the same verdict take the same edge. -/
theorem firstMatch_congr {py : Runtime} {node : Node} {c₁ c₂ : Ctx}
    (h : ∀ p ∈ detEdges node, hit py p.2.condition c₁ = hit py p.2.condition c₂)
    : firstMatch py (detEdges node) c₁ = firstMatch py (detEdges node) c₂ := by
  unfold firstMatch
  apply congrArg (Option.map Prod.fst)
  generalize detEdges node = ps at h ⊢
  induction ps with
  | nil => rfl
  | cons p ps ih =>
    rw [List.forall_mem_cons] at h
    rw [List.find?_cons, List.find?_cons, h.1, ih h.2]

theorem indices_subset_foldl (ps takeable : List (Nat × Assignment))
    : takeable.map Prod.fst ⊆ (ps.foldl addTakeable takeable).map Prod.fst
        ∧ ps.map Prod.fst ⊆ (ps.foldl addTakeable takeable).map Prod.fst := by
  induction ps generalizing takeable with
  | nil => simp
  | cons p ps ih =>
    have hstep : takeable.map Prod.fst ⊆ (addTakeable takeable p).map Prod.fst
        ∧ p.1 ∈ (addTakeable takeable p).map Prod.fst := by
      unfold addTakeable
      split
      . next hany =>
        refine ⟨List.Subset.refl _, ?_⟩
        simpa using hany
      . simp
    have hrest := ih (addTakeable takeable p)
    rw [List.foldl_cons]
    refine ⟨List.Subset.trans hstep.1 hrest.1, ?_⟩
    rw [List.map_cons, List.cons_subset]
    exact ⟨hrest.1 hstep.2, hrest.2⟩

theorem nodup_foldl_addTakeable {ps takeable : List (Nat × Assignment)}
    (h : (takeable.map Prod.fst).Nodup)
    : ((ps.foldl addTakeable takeable).map Prod.fst).Nodup := by
  induction ps generalizing takeable with
  | nil => exact h
  | cons p ps ih =>
    rw [List.foldl_cons]
    apply ih
    unfold addTakeable
    split
    . exact h
    . next hany =>
      rw [List.map_append, List.nodup_append]
      refine ⟨h, by simp, ?_⟩
      intro i hi j hj
      rw [List.map_singleton, List.mem_singleton] at hj
      rintro rfl
      rw [hj, List.mem_map] at hi
      rcases hi with ⟨q, hq, heq⟩
      simp only [List.any_eq_true, decide_eq_true_eq, not_exists, not_and] at hany
      exact hany q hq heq

theorem find?_addTakeable (takeable : List (Nat × Assignment)) (p : Nat × Assignment) (i : Nat)
    : (addTakeable takeable p).find? (fun q => q.1 = i)
        = (takeable.find? fun q => q.1 = i).or ([p].find? fun q => q.1 = i) := by
  unfold addTakeable
  split
  . next hany =>
    simp only [List.any_eq_true, decide_eq_true_eq] at hany
    rcases hany with ⟨q, hq, heq⟩
    cases hfind : takeable.find? fun q => q.1 = i with
    | some q => rfl
    | none =>
      have hne : p.1 ≠ i := by
        rintro rfl
        simpa [heq] using List.find?_eq_none.mp hfind q hq
      simp [hne]
  . rw [List.find?_append]

/-- The first sample of an index stays. -/
theorem find?_foldl_addTakeable (ps takeable : List (Nat × Assignment)) (i : Nat)
    : (ps.foldl addTakeable takeable).find? (fun q => q.1 = i)
        = (takeable.find? fun q => q.1 = i).or (ps.find? fun q => q.1 = i) := by
  induction ps generalizing takeable with
  | nil => simp
  | cons p ps ih =>
    rw [List.foldl_cons, ih, find?_addTakeable, Option.or_assoc, ← List.find?_append, List.singleton_append]

theorem find?_of_mem_nodup {takeable : List (Nat × Assignment)} (h : (takeable.map Prod.fst).Nodup) {i : Nat}
    {a : Assignment} (ha : (i, a) ∈ takeable)
    : takeable.find? (fun q => q.1 = i) = some (i, a) := by
  cases hfind : takeable.find? fun q => q.1 = i with
  | none => simpa using List.find?_eq_none.mp hfind _ ha
  | some q =>
    have hq := List.find?_some hfind
    rw [decide_eq_true_eq] at hq
    rw [List.inj_on_of_nodup_map h (List.mem_of_find?_eq_some hfind) ha hq]

section

variable {py : Runtime} {sat : NodeSat} {assume : Option String} {visits : Nat} {a : Assignment}

theorem contexts_ne_nil (h : a ∈ sat.contexts)
    : sat.contexts.isEmpty = false := by
  cases hctx : sat.contexts with
  | nil => simp [hctx] at h
  | cons => rfl

theorem exists_takeable (h : a ∈ sat.contexts) (hassumed : admits py assume (context a visits) = true)
    {i : Nat} (hmatch : firstMatch py sat.det (context a visits) = some i)
    : ∃ a', (i, a') ∈ (edgeOutcomes py sat assume visits).takeable := by
  simp only [edgeOutcomes, contexts_ne_nil h, Bool.false_eq_true, if_false]
  have hmem : i ∈ ((sat.contexts.filter fun a => admits py assume (context a visits)).filterMap
      fun a => (firstMatch py sat.det (context a visits)).map fun index => (index, a)).map Prod.fst := by
    rw [List.mem_map]
    refine ⟨(i, a), ?_, rfl⟩
    rw [List.mem_filterMap]
    exact ⟨a, List.mem_filter.mpr ⟨h, hassumed⟩, by simp [hmatch]⟩
  have := (indices_subset_foldl _ []).2 hmem
  rw [List.mem_map] at this
  rcases this with ⟨⟨j, a'⟩, hmem', heq⟩
  cases heq
  exact ⟨a', hmem'⟩

theorem exists_noneMatch (h : a ∈ sat.contexts) (hassumed : admits py assume (context a visits) = true)
    (hmatch : firstMatch py sat.det (context a visits) = none)
    : ∃ a', (edgeOutcomes py sat assume visits).noneMatch = .sample a' := by
  simp only [edgeOutcomes, contexts_ne_nil h, Bool.false_eq_true, if_false]
  cases hfind : (sat.contexts.filter fun a => admits py assume (context a visits)).find?
      fun a => (firstMatch py sat.det (context a visits)).isNone with
  | some a' => exact ⟨a', rfl⟩
  | none =>
    rw [List.find?_eq_none] at hfind
    have := hfind a (List.mem_filter.mpr ⟨h, hassumed⟩)
    simp [hmatch] at this

theorem noneMatch_of_incomplete (h : sat.complete = false)
    : (edgeOutcomes py sat assume visits).noneMatch ≠ .never := by
  unfold edgeOutcomes
  dsimp only
  split
  . simp
  . rw [h]
    dsimp only
    split <;> simp

theorem nodup_takeable
    : ((edgeOutcomes py sat assume visits).takeable.map Prod.fst).Nodup := by
  unfold edgeOutcomes
  dsimp only
  split
  . simp
  . exact nodup_foldl_addTakeable (by simp)

/-- The first context that satisfies the assumption and takes an edge. -/
def sampleFor (py : Runtime) (sat : NodeSat) (assume : Option String) (visits i : Nat) : Option Assignment :=
  sat.contexts.find? fun a =>
    admits py assume (context a visits) && firstMatch py sat.det (context a visits) = some i

/-- That is the sample recorded for the edge. -/
theorem sampleFor_of_mem_takeable {i : Nat} (h : (i, a) ∈ (edgeOutcomes py sat assume visits).takeable)
    : sampleFor py sat assume visits i = some a := by
  have hfind := find?_of_mem_nodup nodup_takeable h
  unfold edgeOutcomes at hfind
  dsimp only at hfind
  split at hfind
  . simp at hfind
  . rw [find?_foldl_addTakeable, List.find?_nil, Option.none_or, List.find?_filterMap, List.find?_filter,
      Option.bind_eq_some_iff] at hfind
    rcases hfind with ⟨a', hfirst, heq⟩
    rw [Option.map_eq_some_iff] at heq
    rcases heq with ⟨j, -, heq⟩
    cases heq
    rw [sampleFor, ← hfirst]
    congr 1
    funext a''
    rw [Bool.decide_and, Bool.decide_eq_true, Bool.decide_eq_true]
    congr 1
    cases firstMatch py sat.det (context a'' visits) with
    | none => simp only [Option.map_none, Option.any_none, reduceCtorEq, decide_false]
    | some j => simp only [Option.map_some, Option.any_some, Option.some.injEq]

theorem of_sampleFor {i : Nat} (h : sampleFor py sat assume visits i = some a)
    : a ∈ sat.contexts
        ∧ admits py assume (context a visits) = true
        ∧ firstMatch py sat.det (context a visits) = some i := by
  have hmem := List.mem_of_find?_eq_some h
  have hpred := List.find?_some h
  rw [Bool.and_eq_true, decide_eq_true_eq] at hpred
  exact ⟨hmem, hpred.1, hpred.2⟩

end

/-! ## The moves of the search -/

section

variable {caps counts : Counts} {node : Node} {sat : NodeSat} {edge : Edge}

/-- The state an edge leads to. -/
def targetOf (caps counts : Counts) (edge : Edge) : SearchState :=
  (edge.target, bump caps counts edge.target)

theorem exists_edgeMoves (caps counts : Counts) (via : Via) (exampleCtx : Option Assignment)
    (p : Edge → Bool) (hedge : edge ∈ node.edges) (hp : p edge = true)
    : ∃ m ∈ edgeMoves caps counts via node exampleCtx p,
        m.target = targetOf caps counts edge ∧ m.label.target = edge.target := by
  refine ⟨_, List.mem_map.mpr ⟨edge, List.mem_filter.mpr ⟨hedge, hp⟩, rfl⟩, rfl, rfl⟩

theorem exists_detMoves_of_takeable {takeable : List (Nat × Assignment)} {i : Nat} {a : Assignment}
    (h : (i, a) ∈ takeable) (hedge : node.edges[i]? = some edge)
    : ∃ m ∈ detMoves caps counts node sat takeable,
        m.target = targetOf caps counts edge ∧ m.label.target = edge.target := by
  refine ⟨detMove caps counts node (some a) edge, ?_, rfl, rfl⟩
  have hmem : detMove caps counts node (some a) edge ∈ takeable.filterMap fun p =>
      node.edges[p.1]?.map (detMove caps counts node (some p.2)) :=
    List.mem_filterMap.mpr ⟨(i, a), h, by simp [hedge]⟩
  unfold detMoves
  dsimp only
  split
  . exact hmem
  . exact List.mem_append_left _ hmem

/-- An edge without a sample is a move all the same when the samples are incomplete. -/
theorem exists_detMoves_of_incomplete {takeable : List (Nat × Assignment)} {i : Nat}
    (hcomplete : sat.complete = false) (hdet : (i, edge) ∈ sat.det) (hedge : node.edges[i]? = some edge)
    : ∃ m ∈ detMoves caps counts node sat takeable,
        m.target = targetOf caps counts edge ∧ m.label.target = edge.target := by
  by_cases htaken : ∃ a, (i, a) ∈ takeable
  . rcases htaken with ⟨a, ha⟩
    exact exists_detMoves_of_takeable ha hedge
  . refine ⟨detMove caps counts node none edge, ?_, rfl, rfl⟩
    unfold detMoves
    dsimp only
    rw [hcomplete]
    apply List.mem_append_right
    rw [List.mem_map]
    refine ⟨(i, edge), List.mem_filter.mpr ⟨hdet, ?_⟩, rfl⟩
    simp only [Bool.not_eq_true', List.any_eq_false, decide_eq_true_eq]
    rintro ⟨j, a⟩ ha rfl
    exact htaken ⟨a, ha⟩

theorem exists_semanticMoves (caps counts : Counts) {noneMatch : NoneMatch} (hnone : noneMatch ≠ .never)
    (hedge : edge ∈ semanticEdges node)
    : ∃ m ∈ semanticMoves caps counts node noneMatch,
        m.target = targetOf caps counts edge ∧ m.label.target = edge.target := by
  rw [semanticEdges, List.mem_filter] at hedge
  cases noneMatch with
  | never => simp at hnone
  | unknown => exact exists_edgeMoves _ _ _ _ (fun edge => isSemantic edge.condition) hedge.1 hedge.2
  | sample a => exact exists_edgeMoves _ _ _ _ (fun edge => isSemantic edge.condition) hedge.1 hedge.2

variable {py : Runtime} {tiers : Tiers} {graph : Graph} {sats : List (String × NodeSat)}
  {assume : Option String}

/-- The moves of one node are the moves of its search states, but for edges to no node. -/
theorem exists_moves (hnode : graph.get? node.name = some node) (hsat : sats.lookup node.name = some sat)
    (htarget : graph.contains edge.target = true)
    (h : ∃ m ∈ nodeMoves py tiers caps assume node sat counts,
      m.target = targetOf caps counts edge ∧ m.label.target = edge.target)
    : ∃ m ∈ moves py tiers graph caps sats assume (node.name, counts),
        m.target = targetOf caps counts edge := by
  rcases h with ⟨m, hm, htgt, hlabel⟩
  refine ⟨m, ?_, htgt⟩
  unfold moves
  dsimp only
  rw [hnode, hsat]
  apply List.mem_filter.mpr
  rw [hlabel]
  exact ⟨hm, htarget⟩

theorem exists_nodeMoves_of_det
    (h : ∃ m ∈ detMoves caps counts node sat
        (edgeOutcomes py sat assume ((counts.lookup node.name).getD 1)).takeable,
      m.target = targetOf caps counts edge ∧ m.label.target = edge.target)
    : ∃ m ∈ nodeMoves py tiers caps assume node sat counts,
        m.target = targetOf caps counts edge ∧ m.label.target = edge.target := by
  rcases h with ⟨m, hm, h⟩
  refine ⟨m, ?_, h⟩
  simp only [nodeMoves, List.mem_append]
  tauto

theorem exists_nodeMoves_of_semantic
    (hnone : (edgeOutcomes py sat assume ((counts.lookup node.name).getD 1)).noneMatch ≠ .never)
    (hedge : edge ∈ semanticEdges node)
    : ∃ m ∈ nodeMoves py tiers caps assume node sat counts,
        m.target = targetOf caps counts edge ∧ m.label.target = edge.target := by
  rcases exists_semanticMoves caps counts hnone hedge with ⟨m, hm, h⟩
  refine ⟨m, ?_, h⟩
  simp only [nodeMoves, List.mem_append]
  tauto

theorem exists_nodeMoves_of_error (htiers : tiers.errors = true) (hedge : edge ∈ node.edges)
    (herror : isError edge.condition = true)
    : ∃ m ∈ nodeMoves py tiers caps assume node sat counts,
        m.target = targetOf caps counts edge ∧ m.label.target = edge.target := by
  rcases exists_edgeMoves caps counts .error none (fun edge => isError edge.condition) hedge herror with ⟨m, hm, h⟩
  refine ⟨m, ?_, h⟩
  simp only [nodeMoves, List.mem_append, htiers, if_true]
  tauto

theorem exists_nodeMoves_of_event (htiers : tiers.events = true) (hedge : edge ∈ eventEdges node)
    : ∃ m ∈ nodeMoves py tiers caps assume node sat counts,
        m.target = targetOf caps counts edge ∧ m.label.target = edge.target := by
  rw [eventEdges, List.mem_filter] at hedge
  rcases exists_edgeMoves caps counts .event none (fun edge => isEvent edge.condition) hedge.1 hedge.2 with ⟨m, hm, h⟩
  refine ⟨m, ?_, h⟩
  simp only [nodeMoves, List.mem_append, htiers, if_true]
  tauto

end

/-! ## What a move is -/

/-- A move of a node follows one of its edges; one graded certain has a sample that takes the edge. -/
structure Follows (py : Runtime) (caps : Counts) (assume : Option String) (node : Node) (sat : NodeSat)
    (counts : Counts) (m : Move) (edge : Edge) : Prop where
  listed : edge ∈ node.edges
  target : m.target = targetOf caps counts edge
  label : m.label.node = node.name ∧ m.label.target = edge.target ∧ m.label.condition = edge.condition
  certain : m.certain = true → ∃ i a,
    (i, a) ∈ (edgeOutcomes py sat assume ((counts.lookup node.name).getD 1)).takeable
      ∧ node.edges[i]? = some edge
      ∧ m.label.exampleCtx = some a

section

variable {py : Runtime} {caps counts : Counts} {assume : Option String} {node : Node} {sat : NodeSat}

theorem follows_of_edgeMoves {via : Via} {exampleCtx : Option Assignment} {p : Edge → Bool} {m : Move}
    (h : m ∈ edgeMoves caps counts via node exampleCtx p)
    : ∃ edge, Follows py caps assume node sat counts m edge := by
  simp only [edgeMoves, List.mem_map, List.mem_filter] at h
  rcases h with ⟨edge, ⟨hedge, -⟩, rfl⟩
  exact ⟨edge, hedge, rfl, ⟨rfl, rfl, rfl⟩, by simp⟩

theorem follows_of_detMoves (hdet : sat.det = detEdges node) {m : Move}
    (h : m ∈ detMoves caps counts node sat
      (edgeOutcomes py sat assume ((counts.lookup node.name).getD 1)).takeable)
    : ∃ edge, Follows py caps assume node sat counts m edge := by
  have htaken (h : m ∈ (edgeOutcomes py sat assume ((counts.lookup node.name).getD 1)).takeable.filterMap
      fun p => node.edges[p.1]?.map (detMove caps counts node (some p.2)))
      : ∃ edge, Follows py caps assume node sat counts m edge := by
    simp only [List.mem_filterMap, Option.map_eq_some_iff] at h
    rcases h with ⟨⟨i, a⟩, ha, edge, hedge, rfl⟩
    exact ⟨edge, List.mem_of_getElem? hedge, rfl, ⟨rfl, rfl, rfl⟩, fun _ => ⟨i, a, ha, hedge, rfl⟩⟩
  unfold detMoves at h
  dsimp only at h
  split at h
  . exact htaken h
  . rcases List.mem_append.mp h with h | h
    . exact htaken h
    . simp only [List.mem_map, List.mem_filter, hdet, detEdges] at h
      rcases h with ⟨p, ⟨⟨hp, -⟩, -⟩, rfl⟩
      rw [mem_indexed] at hp
      exact ⟨p.2, List.mem_of_getElem? hp, rfl, ⟨rfl, rfl, rfl⟩, by simp [detMove]⟩

theorem follows_of_nodeMoves {tiers : Tiers} (hdet : sat.det = detEdges node) {m : Move}
    (h : m ∈ nodeMoves py tiers caps assume node sat counts)
    : ∃ edge, Follows py caps assume node sat counts m edge := by
  simp only [nodeMoves, List.mem_append] at h
  rcases h with ((h | h) | h) | h
  . exact follows_of_detMoves hdet h
  . unfold semanticMoves at h
    split at h
    . simp at h
    . exact follows_of_edgeMoves h
    . exact follows_of_edgeMoves h
  . split at h
    . exact follows_of_edgeMoves h
    . simp at h
  . split at h
    . exact follows_of_edgeMoves h
    . simp at h

end

/-! ## The search comes to an end -/

theorem length_detMoves_le {caps counts : Counts} {node : Node} {sat : NodeSat}
    {takeable : List (Nat × Assignment)} (hdet : sat.det = detEdges node)
    (hnodup : (takeable.map Prod.fst).Nodup) (hsub : takeable.map Prod.fst ⊆ sat.det.map Prod.fst)
    : (detMoves caps counts node sat takeable).length ≤ 2 * node.edges.length := by
  have hlen : sat.det.length ≤ node.edges.length := by
    rw [hdet, detEdges]
    refine le_trans (List.length_filter_le _ _) ?_
    rw [← List.length_map Prod.fst, map_fst_indexed, List.length_range]
  have htaken : takeable.length ≤ sat.det.length := by
    simpa using (List.Nodup.subperm hnodup hsub).length_le
  have hfilter := List.length_filter_le (fun p : Nat × Edge => !takeable.any fun q => q.1 = p.1) sat.det
  unfold detMoves
  dsimp only
  split
  . refine le_trans (List.length_filterMap_le _ _) (by omega)
  . rw [List.length_append, List.length_map]
    have := List.length_filterMap_le (fun p : Nat × Assignment =>
      node.edges[p.1]?.map (detMove caps counts node (some p.2))) takeable
    omega

theorem length_edgeMoves_le (caps counts : Counts) (via : Via) (node : Node)
    (exampleCtx : Option Assignment) (p : Edge → Bool)
    : (edgeMoves caps counts via node exampleCtx p).length ≤ node.edges.length := by
  rw [edgeMoves, List.length_map]
  exact List.length_filter_le _ _

theorem length_semanticMoves_le (caps counts : Counts) (node : Node) (noneMatch : NoneMatch)
    : (semanticMoves caps counts node noneMatch).length ≤ node.edges.length := by
  cases noneMatch with
  | never => simp [semanticMoves]
  | unknown => exact length_edgeMoves_le _ _ _ _ _ _
  | sample a => exact length_edgeMoves_le _ _ _ _ _ _

theorem takeable_subset (py : Runtime) (sat : NodeSat) (assume : Option String) (visits : Nat)
    : (edgeOutcomes py sat assume visits).takeable.map Prod.fst ⊆ sat.det.map Prod.fst := by
  intro i hi
  rw [List.mem_map] at hi
  rcases hi with ⟨⟨j, a⟩, hmem, rfl⟩
  have hmatch := (of_sampleFor (sampleFor_of_mem_takeable hmem)).2.2
  rw [firstMatch, Option.map_eq_some_iff] at hmatch
  rcases hmatch with ⟨p, hp, rfl⟩
  exact List.mem_map_of_mem (List.mem_of_find?_eq_some hp)

theorem length_nodeMoves_le (py : Runtime) (tiers : Tiers) (caps : Counts) (assume : Option String)
    {node : Node} {sat : NodeSat} (counts : Counts) (hdet : sat.det = detEdges node)
    : (nodeMoves py tiers caps assume node sat counts).length ≤ 5 * node.edges.length := by
  have hd : (detMoves caps counts node sat
      (edgeOutcomes py sat assume ((counts.lookup node.name).getD 1)).takeable).length ≤ 2 * node.edges.length :=
    length_detMoves_le hdet nodup_takeable (takeable_subset py sat assume _)
  have hs := length_semanticMoves_le caps counts node
    (edgeOutcomes py sat assume ((counts.lookup node.name).getD 1)).noneMatch
  have he := length_edgeMoves_le caps counts .error node none fun edge => isError edge.condition
  have hv := length_edgeMoves_le caps counts .event node none fun edge => isEvent edge.condition
  have hopt {ms : List Move} (b : Bool) (hms : ms.length ≤ node.edges.length)
      : (if b then ms else []).length ≤ node.edges.length := by
    cases b with
    | true => exact hms
    | false => exact Nat.zero_le _
  have he' := hopt tiers.errors he
  have hv' := hopt tiers.events hv
  simp only [nodeMoves, List.length_append]
  omega

theorem lookup_nodeSats {py : Runtime} {graph : Graph} {assume : Option String}
    {sats : List (String × NodeSat)} (h : nodeSats py graph assume = some sats) {node : Node}
    (hnode : node ∈ graph.nodes)
    : ∃ sat, nodeSat py node assume = some sat ∧ sats.lookup node.name = some sat :=
  Dict.lookup_of_mapM h graph.nodup hnode

theorem det_nodeSat {py : Runtime} {node : Node} {assume : Option String} {sat : NodeSat}
    (h : nodeSat py node assume = some sat)
    : sat.det = detEdges node := by
  simp only [nodeSat, Option.map_eq_some_iff] at h
  rcases h with ⟨cands, -, rfl⟩
  rfl

theorem follows_of_moves {py : Runtime} {tiers : Tiers} {graph : Graph} {caps : Counts}
    {assume : Option String} {sats : List (String × NodeSat)}
    (hsats : nodeSats py graph assume = some sats) {state : SearchState} {m : Move}
    (h : m ∈ moves py tiers graph caps sats assume state)
    : ∃ node sat edge,
        graph.get? state.1 = some node
          ∧ nodeSat py node assume = some sat
          ∧ Follows py caps assume node sat state.2 m edge
          ∧ graph.contains edge.target = true := by
  unfold moves at h
  split at h
  . next node sat hnode hsat =>
    rcases lookup_nodeSats hsats (Graph.mem_of_get? hnode) with ⟨sat', hsat', hlookup⟩
    rw [Graph.name_of_get? hnode, hsat] at hlookup
    cases hlookup
    rw [List.mem_filter] at h
    rcases follows_of_nodeMoves (det_nodeSat hsat') h.1 with ⟨edge, hfollows⟩
    refine ⟨node, sat, edge, hnode, hsat', hfollows, ?_⟩
    rw [← hfollows.label.2.1]
    exact h.2
  . simp at h

theorem length_moves_le {py : Runtime} {tiers : Tiers} {graph : Graph} {caps : Counts}
    {assume : Option String} {sats : List (String × NodeSat)}
    (hsats : nodeSats py graph assume = some sats) (state : SearchState)
    : (moves py tiers graph caps sats assume state).length
        ≤ (graph.nodes.map fun node => 5 * node.edges.length).sum := by
  unfold moves
  split
  . next node sat hnode hsat =>
    have hmem := Graph.mem_of_get? hnode
    rcases lookup_nodeSats hsats hmem with ⟨sat', hsat', hlookup⟩
    rw [Graph.name_of_get? hnode, hsat] at hlookup
    cases hlookup
    refine le_trans (List.length_filter_le _ _) ?_
    refine le_trans (length_nodeMoves_le py tiers caps assume state.2 (det_nodeSat hsat')) ?_
    exact List.single_le_sum (by simp) _ (List.mem_map_of_mem hmem)
  . simp

/-- The fuel of the search is enough: it ends with an empty queue. -/
theorem search_frontier {py : Runtime} {tiers : Tiers} {graph : Graph} {caps : Counts}
    {assume : Option String} {sats : List (String × NodeSat)}
    (hsats : nodeSats py graph assume = some sats) (bound : Nat)
    : (search py tiers graph caps sats assume bound).frontier = [] := by
  unfold search
  apply Search.loop_frontier fun state => length_moves_le hsats state
  rw [Search.work_init]
  rfl

end ModelCheck
