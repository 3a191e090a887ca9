import PrismPath.Telemetry.Stability

/-!
This module contains what a flow decides on a reading that came over the wire: at every node what it decides on the
reading that was sent.
-/

open Python

namespace Quantizer

open Predicates LevelM Parser FieldDefinitions

/- Values that an atom does not tell apart. -/

theorem complex?_of_scalar {const : Value} (hscalar : scalarValue const) (h : const.num? = none)
    : const.complex? = none := by
  cases const with
  | bool | int => cases h
  | none | str => rfl
  | _ => cases hscalar

theorem eq_congr_num? {v w : Value} {x : Number} (hv : v.num? = some x) (hw : w.num? = some x) {const : Value}
    (hscalar : scalarValue const)
    : v.eq const = w.eq const := by
  cases hconst : const.num? with
  | some y => rw [Value.eq_of_num? hv hconst, Value.eq_of_num? hw hconst]
  | none =>
    have hcomplex := complex?_of_scalar hscalar hconst
    rw [Value.eq_of_num?_of_complex? hv hcomplex, Value.eq_of_num?_of_complex? hw hcomplex]

theorem order_congr_num? {v w : Value} {x : Number} (hv : v.num? = some x) (hw : w.num? = some x) (op : Value.OrderOp)
    (const : Value)
    : v.order op const = w.order op const := by
  cases hconst : const.num? with
  | some y => rw [Value.order_of_num? op hv hconst, Value.order_of_num? op hw hconst]
  | none => rw [Value.order_eq_none_of_num? op hv hconst, Value.order_eq_none_of_num? op hw hconst]

/-- Of a number an atom sees its value only, not its type. -/
theorem holds_congr_num? {a : Atom} (ha : a.Scalar) {v w : Value} {x : Number} (hv : v.num? = some x)
    (hw : w.num? = some x)
    : a.holds v = a.holds w := by
  cases a with
  | truthy => rw [Atom.holds, Atom.holds, Value.truthy_of_num? hv, Value.truthy_of_num? hw]
  | compare op const =>
    rcases ha with ⟨hop, hscalar, _⟩
    rw [Atom.holds, Atom.holds]
    cases op with
    | eq | notEq => simp only [Predicates.compare, eq_congr_num? hv hw hscalar]
    | lt | ltE | gt | gtE => simp only [Predicates.compare, order_congr_num? hv hw]
    | _ => simp [orderOps, eqOps] at hop
  | member negated consts =>
    rw [Atom.holds, Atom.holds]
    congr 1
    apply any_congr
    intro const hconst
    exact eq_congr_num? hv hw (ha const hconst)

theorem eq_str_congr {const : Value} (hscalar : scalarValue const) {s t : String} (hs : const ≠ .str s)
    (ht : const ≠ .str t)
    : Value.eq (.str s) const = Value.eq (.str t) const := by
  cases const with
  | str c =>
    have hs' : s ≠ c := fun heq => hs (by rw [heq])
    have ht' : t ≠ c := fun heq => ht (by rw [heq])
    rw [strEq, strEq, decide_eq_false hs', decide_eq_false ht']
  | none | bool | int => rfl
  | _ => cases hscalar

theorem order_str_none {const : Value} (op : CmpOp) (hop : op ∈ orderOps) (hscalar : scalarValue const)
    (hreason : orderedConstReason op const = none) (order : Value.OrderOp) (s : String)
    : Value.order order (.str s) const = none := by
  cases const with
  | str c =>
    rw [orderedConstReason, if_pos hop] at hreason
    cases hreason
  | none | bool | int => rfl
  | _ => cases hscalar

/-- Two strings that an atom does not name are the same to it. -/
theorem holds_unnamed {a : Atom} (ha : a.Scalar) {s t : String} (hs : s ∉ namesOf a) (ht : t ∉ namesOf a)
    : a.holds (.str s) = a.holds (.str t) := by
  cases a with
  | truthy =>
    rw [namesOf, List.mem_singleton] at hs ht
    simp [Atom.holds, Value.truthy, hs, ht]
  | compare op const =>
    rcases ha with ⟨hop, hscalar, hreason⟩
    have hunnamed {u : String} (hu : u ∉ namesOf (.compare op const)) : const ≠ .str u := by
      rintro rfl
      exact hu (List.mem_singleton.mpr rfl)
    have heq := eq_str_congr hscalar (hunnamed hs) (hunnamed ht)
    rw [Atom.holds, Atom.holds]
    cases op with
    | eq | notEq => simp only [Predicates.compare, heq]
    | lt | ltE | gt | gtE =>
      simp only [Predicates.compare, order_str_none _ (by decide) hscalar hreason]
    | _ => simp [orderOps, eqOps] at hop
  | member negated consts =>
    rw [Atom.holds, Atom.holds]
    congr 1
    apply any_congr
    intro const hconst
    have hunnamed {u : String} (hu : u ∉ namesOf (.member negated consts)) : const ≠ .str u := by
      rintro rfl
      exact hu (List.mem_filterMap.mpr ⟨_, hconst, rfl⟩)
    exact eq_str_congr (ha const hconst) (hunnamed hs) (hunnamed ht)

theorem eq_absent {v : Value} (hv : v ≠ .none)
    : v.eq .none = false := by
  cases v with
  | none => exact absurd rfl hv
  | list vs | dict kvs => simp [Value.eq]
  | _ => simp [Value.eq, Value.scalarEq, Value.complex?, Value.num?]

theorem order_absent (op : Value.OrderOp) (v : Value)
    : v.order op .none = none := by
  cases v with
  | list vs => simp [Value.order]
  | _ => simp [Value.order, Value.scalarOrder, Value.num?]

/-- A test for absence sees nothing else of a value. -/
theorem holds_absence {a : Atom} (ha : a.Scalar) (habsence : present a = false) {v w : Value}
    (h : v = .none ↔ w = .none)
    : a.holds v = a.holds w := by
  cases a with
  | truthy | member => cases habsence
  | compare op const =>
    cases const with
    | none =>
      by_cases hv : v = .none
      . rw [hv, h.mp hv]
      . have hw : w ≠ .none := fun hw => hv (h.mpr hw)
        rw [Atom.holds, Atom.holds]
        cases op with
        | eq | notEq => simp only [Predicates.compare, eq_absent hv, eq_absent hw]
        | lt | ltE | gt | gtE => simp only [Predicates.compare, order_absent]
        | _ => simp [Atom.Scalar, orderOps, eqOps] at ha
    | _ => cases habsence

/- One field. -/

section

variable {py : Runtime} {atoms : List Atom} {p : FieldPartition}

/-- What stands for a value on the wire is as good as the value, to every atom of the field. -/
structure StandsFor (atoms : List Atom) (v rep : Value) : Prop where
  absent : v = .none ↔ rep = .none
  holds : ∀ a ∈ atoms, a.holds v = a.holds rep

theorem StandsFor.refl (atoms : List Atom) (v : Value)
    : StandsFor atoms v v :=
  ⟨Iff.rfl, fun _ _ => rfl⟩

theorem num?_of_numericView {v : Value} {n : ℤ} (h : numericView v = some n)
    : v.num? = some (.finite n) := by
  unfold numericView at h
  split at h
  . next b =>
    cases h
    cases b <;> rfl
  . cases h
    rfl
  . next x =>
    split at h
    next q hq =>
      split at h
      next hden =>
        cases h
        rw [Value.num?, hq, Rat.coe_int_num_of_den_eq_one hden]
      next => cases h
    next => cases h
  . cases h

theorem numeric_standsFor (h : Built py atoms p) (hkind : p.kind = .numeric) {v : Value} (hv : v ≠ .none) {s : ℕ}
    (hs : p.symbol v = .ok s) {rep : Value} (hrep : p.representative s = .ok rep)
    : StandsFor atoms v rep := by
  rcases symbol_canonical h hv hs with ⟨c, hc, hsymbol⟩
  rw [hkind] at hc
  cases hc with
  | @numeric n hn =>
    rw [canonicalSymbol, if_neg (by simp [hkind])] at hsymbol
    rcases inferredSymbol_int h hkind n with ⟨s', w, hs', hrep', _, _, htruths⟩
    cases hsymbol.symm.trans hs'
    cases hrep.symm.trans hrep'
    refine ⟨iff_of_false hv Value.noConfusion, fun a ha => ?_⟩
    have hsame : a.holds (.int w) = a.holds (.int n) := List.map_inj_left.mp htruths a ha
    rw [hsame]
    exact holds_congr_num? (h.scalar a ha) (num?_of_numericView hn) rfl

theorem num?_of_bool {v : Value} (h : v.isBool = true)
    : v.num? = some (.finite (if v.truthy then 1 else 0)) := by
  cases v with
  | bool b => cases b <;> rfl
  | _ => cases h

theorem num?_of_zeroOrOne {v : Value} (h : zeroOrOne v = true)
    : v.num? = some (.finite (if v.truthy then 1 else 0)) := by
  cases v with
  | int n =>
    rw [zeroOrOne, decide_eq_true_eq] at h
    rcases h with rfl | rfl <;> rfl
  | float x =>
    rw [zeroOrOne, decide_eq_true_eq] at h
    rw [Value.num?]
    rcases h with hx | hx <;> simp [Value.truthy, hx]
  | _ => cases h

theorem num?_of_acceptValue {v c : Value} (hv : v ≠ .none) (h : acceptValue .boolean v = .ok c)
    : v.num? = some (.finite (if v.truthy then 1 else 0)) := by
  cases hbool : v.isBool with
  | true => exact num?_of_bool hbool
  | false =>
    have haccept : acceptValue .boolean v = if zeroOrOne v then .ok (.bool v.truthy) else .error .wrongType := by
      cases v with
      | none => exact absurd rfl hv
      | bool => cases hbool
      | _ => rfl
    rw [haccept] at h
    split at h
    next hzero => exact num?_of_zeroOrOne hzero
    next => cases h

/-- A field of yes and no takes only the two and the numbers that equal them. -/
theorem num?_of_boolean (h : Built py atoms p) (hkind : p.kind = .boolean) {v : Value} (hv : v ≠ .none) {s : ℕ}
    (hs : p.symbol v = .ok s)
    : v.num? = some (.finite (if v.truthy then 1 else 0)) := by
  rw [FieldPartition.symbol] at hs
  cases hd : p.definition with
  | some d =>
    have hdkind := (kind_of_definition h hd).trans hkind
    rw [hd] at hs
    dsimp only at hs
    rw [FieldPartition.definedSymbol, acceptCanonical] at hs
    . cases hk : d.kind with
      | bool =>
        rw [hk] at hs
        dsimp only at hs
        cases hbool : v.isBool with
        | true => exact num?_of_bool hbool
        | false =>
          rw [hbool] at hs
          cases hs
      | int | fixed | category =>
        rw [hk] at hdkind
        cases hdkind
    . exact hv
  | none =>
    rw [hd] at hs
    dsimp only at hs
    rw [hkind] at hs
    split at hs
    . cases hs
    . next c hok => exact num?_of_acceptValue hv hok

theorem boolean_standsFor (h : Built py atoms p) (hkind : p.kind = .boolean) {v : Value} (hv : v ≠ .none) {s : ℕ}
    (hs : p.symbol v = .ok s) {rep : Value} (hrep : p.representative s = .ok rep)
    : StandsFor atoms v rep := by
  rcases symbol_canonical h hv hs with ⟨c, hc, hsymbol⟩
  have hnum := num?_of_boolean h hkind hv hs
  rw [hkind] at hc
  cases hc with
  | boolean b hb =>
    have hinferred : p.inferredSymbol (.bool b) = .ok (if b then 1 else 0) := by
      rw [FieldPartition.inferredSymbol, hkind]
      rfl
    rw [canonicalSymbol, if_neg (by simp [hkind]), hinferred, Except.ok.injEq] at hsymbol
    have hbool : rep = .bool b := by
      rw [← hsymbol, FieldPartition.representative, h.boolean hkind] at hrep
      cases b <;> exact (Except.ok.inj hrep).symm
    rw [hbool]
    refine ⟨iff_of_false hv Value.noConfusion, fun a ha => holds_congr_num? (h.scalar a ha) hnum ?_⟩
    rw [hb]
    rfl

theorem cell_of_name (h : Built py atoms p) (hkind : p.kind = .categorical) {t : String}
    (ht : t ∈ atoms.flatMap namesOf)
    : .categorical t ∈ p.cells := by
  rcases exists_mem_dedupBy (fun s t : String => s == t) ht with ⟨u, hu, hsame⟩
  have heq : u = t := by
    rcases hsame with heq | heq
    . exact heq
    . exact (beq_iff_eq.mp heq).symm
  rw [h.categorical hkind, List.mem_append, List.mem_append]
  exact .inl (.inl (List.mem_map.mpr ⟨t, heq ▸ hu, rfl⟩))

theorem categorical_standsFor (h : Built py atoms p) (hkind : p.kind = .categorical)
    (hother : otherCell ∉ atoms.flatMap namesOf) {v : Value} (hv : v ≠ .none) {s : ℕ} (hs : p.symbol v = .ok s)
    {rep : Value} (hrep : p.representative s = .ok rep)
    : StandsFor atoms v rep := by
  rcases symbol_canonical h hv hs with ⟨c, hc, _⟩
  rw [hkind] at hc
  cases hc with
  | @categorical t ht =>
    subst ht
    rw [symbol_str h hkind, FieldPartition.namedSymbol] at hs
    split at hs
    next symbol hfound =>
      cases hs
      cases hrep.symm.trans (representative_named hfound)
      exact StandsFor.refl atoms _
    next hunnamed =>
      rw [FieldPartition.otherSymbol] at hs
      split at hs
      next symbol hfound =>
        cases hs
        have hfound' : p.cells.findIdx? (named otherCell) = some s := hfound
        cases hrep.symm.trans (representative_named hfound')
        -- neither string is one that the flow names
        have ht : t ∉ atoms.flatMap namesOf := by
          intro hmem
          have := List.findIdx?_eq_none_iff.mp hunnamed _ (cell_of_name h hkind hmem)
          simp [named, Cell.const?] at this
        refine ⟨iff_of_false hv Value.noConfusion, fun a ha => holds_unnamed (h.scalar a ha) ?_ ?_⟩
        . exact fun hmem => ht (List.mem_flatMap.mpr ⟨a, ha, hmem⟩)
        . exact fun hmem => hother (List.mem_flatMap.mpr ⟨a, ha, hmem⟩)
      next => cases hs

/-- The reserved string is a cell of its own if the flow does not name it. -/
theorem representative_standsFor (h : Built py atoms p) (hother : otherCell ∉ atoms.flatMap namesOf) {v : Value} {s : ℕ}
    (hs : p.symbol v = .ok s) {rep : Value} (hrep : p.representative s = .ok rep)
    : StandsFor atoms v rep := by
  by_cases hv : v = .none
  . subst hv
    cases hrep.symm.trans (representative_absent hs)
    exact StandsFor.refl atoms _
  . cases hkind : p.kind with
    | numeric => exact numeric_standsFor h hkind hv hs hrep
    | boolean => exact boolean_standsFor h hkind hv hs hrep
    | categorical => exact categorical_standsFor h hkind hother hv hs hrep

end

/- A whole flow. -/

/-- No condition of the flow names the string that stands for all others. -/
def NamesNoOther (py : Runtime) (graph : Graph) : Prop :=
  ∀ asked ∈ flowAtoms py graph, otherCell ∉ asked.2.flatMap namesOf

instance (py : Runtime) (graph : Graph) : Decidable (NamesNoOther py graph) :=
  inferInstanceAs (Decidable (∀ asked ∈ flowAtoms py graph, _))

theorem exists_flowAtoms {py : Runtime} {graph : Graph} {at' : String × String} (hat : at' ∈ valueConditions graph)
    {field : String} {a : Atom} (ha : (field, a) ∈ conditionAtoms py at'.2)
    : ∃ atoms, (field, atoms) ∈ flowAtoms py graph ∧ a ∈ atoms := by
  have hmem : (field, a) ∈ (valueConditions graph).flatMap fun at' => conditionAtoms py at'.2 :=
    List.mem_flatMap.mpr ⟨at', hat, ha⟩
  exact Dict.exists_mem_group hmem

/-- What comes back for a field stands for the cell that the value is in. -/
def Carries (p : FieldPartition) (v rep : Value) : Prop :=
  ∃ s, p.symbol v = .ok s ∧ p.representative s = .ok rep

/-- A condition does not tell two readings apart if what one gives its fields stands for what the other gives them. -/
theorem agree_of_carries {py : Runtime} {flow : Flow py} {parts : Partitions} (hparts : buildPartitions flow = .ok parts)
    (hother : NamesNoOther py flow.graph) {reading decoded : Reading} {at' : String × String}
    (hat : at' ∈ valueConditions flow.graph)
    (hcarries : ∀ p ∈ parts, p.1 ∈ (conditionAtoms py at'.2).map Prod.fst →
      Carries p.2 (reading.ctx p.1) (decoded.ctx p.1))
    : Agree (conditionAtoms py at'.2) decoded.ctx reading.ctx := by
  rintro ⟨field, a⟩ ha
  rcases exists_flowAtoms hat ha with ⟨atoms, hatoms, hmem⟩
  rcases exists_of_forall₂ (buildPartitions_ok hparts).2 hatoms with ⟨⟨key, p⟩, hp, hkey, _, _, hbuilt⟩
  dsimp only at hkey hbuilt
  subst hkey
  rcases hcarries _ hp (List.mem_map.mpr ⟨_, ha, rfl⟩) with ⟨s, hs, hrep⟩
  have hscalar : a.Scalar := scalar_of_flowAtoms (buildPartitions_ok hparts).1 hatoms hmem
  have hsub : cutting p.definition atoms ⊆ atoms := by
    rw [cutting]
    split
    . exact List.filter_subset_self atoms
    . exact List.Subset.refl atoms
  have hnames : otherCell ∉ (cutting p.definition atoms).flatMap namesOf := by
    intro hnamed
    rcases List.mem_flatMap.mp hnamed with ⟨b, hb, hname⟩
    exact hother _ hatoms (List.mem_flatMap.mpr ⟨b, hsub hb, hname⟩)
  have hstands := representative_standsFor hbuilt hnames hs hrep
  by_cases hcut : a ∈ cutting p.definition atoms
  . exact (hstands.holds a hcut).symm
  . -- an atom that does not cut its field asks whether the value is there
    have habsence : present a = false := by
      rw [cutting] at hcut
      split at hcut
      next => simpa [hmem] using hcut
      next => exact absurd hmem hcut
    exact (holds_absence hscalar habsence hstands.absent).symm

theorem firstEdge_congr {py : Runtime} {reading reading' : Reading} {edges : List Edge}
    (h : ∀ edge ∈ edges, isDeterministic edge.condition = true →
      evalCondition py edge.condition reading.ctx = evalCondition py edge.condition reading'.ctx)
    : firstEdge py reading edges = firstEdge py reading' edges := by
  induction edges with
  | nil => rfl
  | cons edge edges ih =>
    rw [List.forall_mem_cons] at h
    rw [firstEdge, firstEdge, ih h.2]
    split
    next hdet => rw [h.1 hdet]
    next => rfl

theorem mem_valueConditions {graph : Graph} {node : Node} (hnode : node ∈ graph.nodes) {edge : Edge}
    (hedge : edge ∈ node.edges) (hdet : isDeterministic edge.condition = true)
    : (node.name, edge.condition) ∈ valueConditions graph := by
  have hsemantic : isSemantic edge.condition = false := by
    rw [isSemantic, hdet]
    rfl
  refine List.mem_flatMap.mpr ⟨node, hnode, List.mem_map.mpr ⟨edge, List.mem_filter.mpr ⟨hedge, ?_⟩, rfl⟩⟩
  rw [hdet, hsemantic]
  rfl

/-- A node decides alike on two readings that none of its conditions tells apart. -/
theorem routeNode_congr {py : Runtime} {flow : Flow py} {parts : Partitions} (hparts : buildPartitions flow = .ok parts)
    {reading reading' : Reading} {name : String}
    (h : ∀ node, flow.graph.get? name = some node → ∀ edge ∈ node.edges, isDeterministic edge.condition = true →
      Agree (conditionAtoms py edge.condition) reading.ctx reading'.ctx)
    : routeNode py flow.graph name reading = routeNode py flow.graph name reading' := by
  rw [routeNode, routeNode]
  split
  next node hget =>
    apply firstEdge_congr
    intro edge hedge hdet
    apply evalCondition_congr hdet
    . exact (buildPartitions_ok hparts).1 _ (mem_valueConditions (Graph.mem_of_get? hget) hedge hdet)
    . exact h node hget edge hedge hdet
  next => rfl

/-- What is decoded decides every node of the flow as what was sent does, unless the flow names the reserved string. -/
theorem routeNode_decoded {py : Runtime} {flow : Flow py} {parts : Partitions}
    (hparts : buildPartitions flow = .ok parts) (hother : NamesNoOther py flow.graph) {reading : Reading}
    {bits : List Bool} (hbits : encodeReading parts reading = .ok bits)
    : ∃ decoded, decodeReading parts bits = .ok decoded
        ∧ ∀ node, routeNode py flow.graph node decoded = routeNode py flow.graph node reading := by
  rcases decodeReading_encodeReading hparts hbits with ⟨syms, decoded, hsyms, _, hdecode, hback⟩
  have hlength := List.Forall₂.length_eq hsyms
  refine ⟨decoded, hdecode, fun name => routeNode_congr hparts fun node hget edge hedge hdet => ?_⟩
  have hat := mem_valueConditions (Graph.mem_of_get? hget) hedge hdet
  apply agree_of_carries hparts hother hat
  intro p hp _
  rcases exists_mem_zip hlength ((perm_order parts).mem_iff.mpr hp) with ⟨s, hq⟩
  rcases hback _ hq with ⟨rep, hback⟩
  refine ⟨s, hback.symbol, ?_⟩
  rw [Reading.ctx, hback.lookup]
  exact hback.representative

/-- Any number of counts above zero comes back as one. -/
theorem routeNode_decoded_seven
    : ∃ decoded, decodeReading countParts [false, true, true] = .ok decoded
        ∧ ∀ node, routeNode countPy countFlow.graph node decoded
          = routeNode countPy countFlow.graph node [("count", .int 7)] :=
  routeNode_decoded build_countFlow (by with_unfolding_all decide) rfl

end Quantizer
