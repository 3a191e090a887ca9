import PrismPath.Kernel.LevelMLemmas
import PrismPath.Lib.Process
import PrismPath.Python.ValueLemmas
import PrismPath.Telemetry.Quantizer

/-!
This module contains what the partitions of a flow are: which cells each field has, which of them a value is in, and
that the atoms of a field do not change inside a numeric cell.
-/

open Python

namespace Quantizer

open Predicates LevelM Parser FieldDefinitions

theorem exists_of_forall₂ {α β : Type} {R : α → β → Prop} {as : List α} {bs : List β} (h : List.Forall₂ R as bs) {a : α}
    (ha : a ∈ as)
    : ∃ b ∈ bs, R a b := by
  induction h with
  | nil => cases ha
  | cons hab _ ih =>
    rcases List.mem_cons.mp ha with rfl | ha
    . exact ⟨_, List.mem_cons_self, hab⟩
    . rcases ih ha with ⟨b, hb, hr⟩
      exact ⟨b, List.mem_cons_of_mem _ hb, hr⟩

theorem any_congr {α : Type} {p q : α → Bool} {as : List α} (h : ∀ a ∈ as, p a = q a)
    : as.any p = as.any q := by
  rw [Bool.eq_iff_iff, List.any_eq_true, List.any_eq_true]
  constructor
  . rintro ⟨a, ha, hp⟩
    exact ⟨a, ha, h a ha ▸ hp⟩
  . rintro ⟨a, ha, hq⟩
    exact ⟨a, ha, (h a ha).symm ▸ hq⟩

/- One atom on the integers. -/

/-- Two integers on the same side of a point. -/
def SameSide (c u v : ℤ) : Prop :=
  (u < c ↔ v < c) ∧ (c < u ↔ c < v)

theorem eq_int (u : ℤ) {const : Value} {q : ℚ} (h : const.num? = some (.finite q))
    : Value.eq (.int u) const = decide ((u : ℚ) = q) := by
  rw [Value.eq_of_num? (show (Value.int u).num? = some (.finite u) from rfl) h]
  rfl

theorem order_int (op : Value.OrderOp) (u : ℤ) {const : Value} {q : ℚ} (h : const.num? = some (.finite q))
    : Value.order op (.int u) const = some (op.num (.finite u) (.finite q)) :=
  Value.order_of_num? op (show (Value.int u).num? = some (.finite u) from rfl) h

theorem SameSide.eq_iff {c u v : ℤ} (h : SameSide c u v)
    : (u : ℚ) = (c : ℚ) ↔ (v : ℚ) = (c : ℚ) := by
  rcases h with ⟨hlt, hgt⟩
  rw [Int.cast_inj, Int.cast_inj]
  omega

theorem SameSide.num {c u v : ℤ} (h : SameSide c u v) (op : Value.OrderOp)
    : op.num (.finite u) (.finite c) = op.num (.finite v) (.finite c) := by
  rcases h with ⟨hlt, hgt⟩
  have heq : u = c ↔ v = c := by omega
  have heq' : c = u ↔ c = v := by omega
  cases op <;> simp [Value.OrderOp.num, Number.lt, Number.le, Number.eq, hlt, hgt, heq, heq']

theorem num?_of_intOf {py : Runtime} {const : Value} {c : ℤ} (hint : const.isInt = true)
    (h : intOf py const = .ok c)
    : const.num? = some (.finite c) := by
  cases const with
  | bool b =>
    cases h
    cases b <;> rfl
  | int n =>
    cases h
    rfl
  | _ => cases hint

/-- A constant of the fragment that is no integer equals none, and is not ordered with any. -/
theorem num?_eq_none {const : Value} (hscalar : scalarValue const = true) (hint : const.isInt = false)
    : const.num? = none ∧ const.complex? = none := by
  cases const with
  | none | str => exact ⟨rfl, rfl⟩
  | bool | int => cases hint
  | _ => cases hscalar

theorem eq_of_sameSide {py : Runtime} {const : Value} (hscalar : scalarValue const = true) {u v : ℤ}
    (h : const.isInt = true → ∃ c, intOf py const = .ok c ∧ SameSide c u v)
    : Value.eq (.int u) const = Value.eq (.int v) const := by
  cases hint : const.isInt with
  | true =>
    rcases h hint with ⟨c, hc, hside⟩
    have hnum := num?_of_intOf hint hc
    rw [eq_int u hnum, eq_int v hnum]
    exact decide_eq_decide.mpr hside.eq_iff
  | false =>
    have hnone := (num?_eq_none hscalar hint).2
    rw [Value.eq_of_num?_of_complex? (show (Value.int u).num? = some (.finite u) from rfl) hnone,
      Value.eq_of_num?_of_complex? (show (Value.int v).num? = some (.finite v) from rfl) hnone]

theorem order_of_sameSide {py : Runtime} (op : Value.OrderOp) {const : Value} (hscalar : scalarValue const = true)
    {u v : ℤ} (h : const.isInt = true → ∃ c, intOf py const = .ok c ∧ SameSide c u v)
    : Value.order op (.int u) const = Value.order op (.int v) const := by
  cases hint : const.isInt with
  | true =>
    rcases h hint with ⟨c, hc, hside⟩
    have hnum := num?_of_intOf hint hc
    rw [order_int op u hnum, order_int op v hnum, hside.num op]
  | false =>
    have hnone := (num?_eq_none hscalar hint).1
    rw [Value.order_eq_none_of_num? op (show (Value.int u).num? = some (.finite u) from rfl) hnone,
      Value.order_eq_none_of_num? op (show (Value.int v).num? = some (.finite v) from rfl) hnone]

theorem compare_of_sameSide {py : Runtime} (op : CmpOp) {const : Value} (hscalar : scalarValue const = true)
    {u v : ℤ} (h : const.isInt = true → ∃ c, intOf py const = .ok c ∧ SameSide c u v)
    (hop : op ∈ orderOps ++ eqOps)
    : Predicates.compare op (.int u) const = Predicates.compare op (.int v) const := by
  cases op with
  | eq | notEq => simp only [Predicates.compare, eq_of_sameSide hscalar h]
  | lt | ltE | gt | gtE => simp only [Predicates.compare, order_of_sameSide _ hscalar h]
  | _ => simp [orderOps, eqOps] at hop

/-- An atom does not tell two integers apart that lie on the same side of each of its points. -/
theorem holds_of_sameSide {py : Runtime} {a : Atom} (hscalar : a.Scalar) {cuts : List ℤ}
    (hcuts : cutsOf py a = .ok cuts) {u v : ℤ} (h : ∀ c ∈ cuts, SameSide c u v)
    : a.holds (.int u) = a.holds (.int v) := by
  cases a with
  | truthy =>
    cases hcuts
    have hside := h 0 (List.mem_singleton.mpr rfl)
    have hzero : u = 0 ↔ v = 0 := by
      rcases hside with ⟨hlt, hgt⟩
      omega
    simp [Atom.holds, Value.truthy, hzero]
  | compare op const =>
    rcases hscalar with ⟨hop, hscalar, _⟩
    have hconst : const.isInt = true → ∃ c, intOf py const = .ok c ∧ SameSide c u v := by
      intro hint
      rcases Except.bind_eq_ok.mp hcuts with ⟨_, _, hrest⟩
      rcases Except.bind_eq_ok.mp hrest with ⟨c, hc, hok⟩
      cases hok
      cases hof : intOf py const with
      | error e =>
        rw [hof] at hc
        cases hc
      | ok c' =>
        rw [hof] at hc
        cases hc
        exact ⟨c, rfl, h c (List.mem_singleton.mpr rfl)⟩
    rw [Atom.holds, Atom.holds, compare_of_sameSide op hscalar hconst hop]
  | member negated consts =>
    rcases Except.bind_eq_ok.mp hcuts with ⟨_, _, hrest⟩
    have hall := Except.mapM_eq_ok_iff.mp hrest
    have hmember (const : Value) (hmem : const ∈ consts)
        : Value.eq (.int u) const = Value.eq (.int v) const := by
      refine @eq_of_sameSide py const (hscalar const hmem) u v fun hint => ?_
      rcases exists_of_forall₂ hall (List.mem_filter.mpr ⟨hmem, hint⟩) with ⟨c, hc, hraise⟩
      cases hof : intOf py const with
      | error e =>
        rw [hof] at hraise
        cases hraise
      | ok c' =>
        rw [hof] at hraise
        cases hraise
        exact ⟨c, rfl, h c hc⟩
    rw [Atom.holds, Atom.holds]
    congr 1
    exact any_congr hmember

/- The numeric cells. -/

/-- What the atoms of a field make of an integer. -/
def truths (atoms : List Atom) (u : ℤ) : List Bool :=
  atoms.map fun a => a.holds (.int u)

theorem atomTrue_ok {value : Value} {a : Atom} {b : Bool} (h : atomTrue value a = .ok b)
    : b = a.holds value := by
  cases a with
  | truthy =>
    cases h
    rfl
  | compare op const =>
    cases op with
    | eq | notEq =>
      cases h
      rfl
    | lt | ltE | gt | gtE =>
      rw [atomTrue] at h
      dsimp only at h
      split at h
      next b' hb =>
        cases h
        simp only [Atom.holds, Predicates.compare, hb, Option.getD_some]
      next => cases h
    | _ => cases h
  | member negated consts =>
    cases h
    rfl

theorem truths_ok {u : ℤ} {atoms : List Atom} {bs : List Bool} (h : atoms.mapM (atomTrue (.int u)) = .ok bs)
    : bs = truths atoms u := by
  have hall := Except.mapM_eq_ok_iff.mp h
  clear h
  induction hall with
  | nil => rfl
  | cons hb _ ih => rw [truths, List.map_cons, ← truths, ← ih, atomTrue_ok hb]

theorem pairwise_cutPoints (cuts : List ℤ)
    : ∃ c cs, cutPoints cuts = c :: cs ∧ (c :: cs).Pairwise (· < ·) ∧ ∀ d ∈ cuts, d ∈ c :: cs := by
  have hnodup : (cuts.dedup.insertionSort (· ≤ ·)).Nodup :=
    (List.perm_insertionSort _ _).nodup_iff.mpr (List.nodup_dedup cuts)
  have hsorted := (List.pairwise_insertionSort (· ≤ ·) cuts.dedup).and hnodup
  have hmem (d : ℤ) (hd : d ∈ cuts) : d ∈ cuts.dedup.insertionSort (· ≤ ·) :=
    (List.mem_insertionSort _).mpr (List.mem_dedup.mpr hd)
  rw [cutPoints]
  generalize cuts.dedup.insertionSort (· ≤ ·) = points at hsorted hmem
  cases points with
  | nil => exact ⟨0, [], rfl, List.pairwise_singleton _ _, fun d hd => absurd (hmem d hd) List.not_mem_nil⟩
  | cons c cs => exact ⟨c, cs, rfl, hsorted.imp fun h => lt_of_le_of_ne h.1 h.2, hmem⟩

/-- A numeric partition has the cells on which no atom changes. -/
theorem numericPartition_ok {py : Runtime} {field : String} {atoms : List Atom} {p : FieldPartition}
    (h : numericPartition py field atoms = .ok p)
    : ∃ cuts, atoms.mapM (cutsOf py) = .ok cuts
        ∧ p = ⟨field, .numeric, (IntSpan.cells (truths atoms) (cutPoints cuts.flatten)).map .numeric, none⟩ := by
  rcases Except.bind_eq_ok.mp h with ⟨cuts, hcuts, hrest⟩
  rcases Except.bind_eq_ok.mp hrest with ⟨fine, hfine, hp⟩
  cases hp
  refine ⟨cuts, hcuts, ?_⟩
  have hall := Except.mapM_eq_ok_iff.mp hfine
  rw [IntSpan.cells]
  generalize IntSpan.cutAt (cutPoints cuts.flatten) = is at hall
  have heq : fine = is.map fun i => (i, truths atoms i.rep) := by
    clear hfine h hrest
    induction hall with
    | nil => rfl
    | cons hb _ ih =>
      rcases Except.bind_eq_ok.mp hb with ⟨bs, hbs, hok⟩
      cases hok
      rw [List.map_cons, ← ih, truths_ok hbs]
  rw [heq]

theorem sameSide_of_contains {i : IntSpan} {c u v : ℤ} (hu : i.contains u = true) (hv : i.contains v = true)
    (hc : i.contains c = false)
    : SameSide c u v := by
  rw [IntSpan.contains_iff] at hu hv
  have hout : ¬ ((∀ lo ∈ i.lo, lo ≤ c) ∧ ∀ hi ∈ i.hi, c ≤ hi) := by
    rw [← IntSpan.contains_iff, hc]
    exact Bool.false_ne_true
  rcases i with ⟨_ | lo, _ | hi⟩ <;> simp at hu hv hout <;> constructor <;> omega

/-- The atoms do not change inside an interval of their cut. -/
theorem truths_uniform {py : Runtime} {atoms : List Atom} (hscalar : ∀ a ∈ atoms, a.Scalar) {cuts : List (List ℤ)}
    (hcuts : atoms.mapM (cutsOf py) = .ok cuts) {i : IntSpan} (hi : i ∈ IntSpan.cutAt (cutPoints cuts.flatten)) {u v : ℤ}
    (hu : i.contains u = true) (hv : i.contains v = true)
    : truths atoms u = truths atoms v := by
  rcases pairwise_cutPoints cuts.flatten with ⟨c, cs, hpoints, hpairs, hmem⟩
  rw [hpoints] at hi
  rcases IntSpan.mem_cutAt hpairs hi with ⟨d, rfl⟩ | hfree
  . rw [IntSpan.contains_iff] at hu hv
    have hud := hu.1 d rfl
    have hdu := hu.2 d rfl
    have hvd := hv.1 d rfl
    have hdv := hv.2 d rfl
    have heq : u = v := by omega
    rw [heq]
  . refine List.map_congr_left fun a ha => ?_
    rcases exists_of_forall₂ (Except.mapM_eq_ok_iff.mp hcuts) ha with ⟨cut, hcut, hok⟩
    refine holds_of_sameSide (hscalar a ha) hok fun d hd => ?_
    refine sameSide_of_contains hu hv ?_
    rw [← Bool.not_eq_true]
    exact fun hin => hfree d hin (hmem d (List.mem_flatten.mpr ⟨cut, hcut, hd⟩))

/-- The integer that stands for the cell of `n`. -/
def FloorOf (py : Runtime) (atoms : List Atom) (n w : ℤ) : Prop :=
  ∃ cuts, atoms.mapM (cutsOf py) = .ok cuts
    ∧ IntSpan.Floor (truths atoms) ((cutPoints cuts.flatten).headD 0) n w

theorem FloorOf.unique {py : Runtime} {atoms : List Atom} {n v w : ℤ} (hv : FloorOf py atoms n v)
    (hw : FloorOf py atoms n w)
    : v = w := by
  rcases hv with ⟨cuts, hcuts, hv⟩
  rcases hw with ⟨cuts', hcuts', hw⟩
  cases hcuts.symm.trans hcuts'
  exact hv.unique hw

theorem findIdx?_numeric {cells : List IntSpan.Cell} {n : ℤ} {k : ℕ} (h : IntSpan.indexOf cells n = some k)
    (rest : List Cell)
    : (cells.map Cell.numeric ++ rest).findIdx? (Cell.holds n) = some k := by
  rw [List.findIdx?_append, List.findIdx?_map]
  have hindex : cells.findIdx? (Cell.holds n ∘ Cell.numeric) = some k := h
  rw [hindex]
  rfl

/- What a field's partition is. -/

/-- The cell of the absent value, on a field that allows it. -/
def absentCells (definition : Option FieldDefinition) : List Cell :=
  if definition.any FieldDefinition.absentAllowed then [.absent] else []

/-- The partition of a field that these atoms ask. -/
structure Built (py : Runtime) (atoms : List Atom) (p : FieldPartition) : Prop where
  scalar : ∀ a ∈ atoms, a.Scalar
  kind : ∀ d, p.definition = some d → p.kind = kindOfDefinition d.kind
  numeric : p.kind = .numeric → ∃ cuts, atoms.mapM (cutsOf py) = .ok cuts
    ∧ p.cells = (IntSpan.cells (truths atoms) (cutPoints cuts.flatten)).map .numeric ++ absentCells p.definition
  boolean : p.kind = .boolean → p.cells = [.boolean false, .boolean true] ++ absentCells p.definition
  categorical : p.kind = .categorical →
    p.cells = ((dedupBy (fun s t : String => s == t) (atoms.flatMap namesOf)).map .categorical
      ++ [.categorical otherCell]) ++ absentCells p.definition

theorem partitionOf_ok {py : Runtime} {field : String} {atoms : List Atom} {kind : Kind} {p : FieldPartition}
    (h : partitionOf py field atoms kind = .ok p) (hscalar : ∀ a ∈ atoms, a.Scalar)
    : p.field = field ∧ p.kind = kind ∧ p.definition = none ∧ Built py atoms p := by
  cases kind with
  | numeric =>
    rcases numericPartition_ok h with ⟨cuts, hcuts, rfl⟩
    refine ⟨rfl, rfl, rfl, hscalar, nofun, fun _ => ⟨cuts, hcuts, ?_⟩, nofun, nofun⟩
    exact (List.append_nil _).symm
  | categorical =>
    cases h
    exact ⟨rfl, rfl, rfl, hscalar, nofun, nofun, nofun, fun _ => (List.append_nil _).symm⟩
  | boolean =>
    cases h
    exact ⟨rfl, rfl, rfl, hscalar, nofun, nofun, fun _ => rfl, nofun⟩

/-- The same partition under a definition. -/
theorem Built.define {py : Runtime} {atoms : List Atom} {p : FieldPartition} (h : Built py atoms p)
    (hnone : p.definition = none) {field : String} {d : FieldDefinition} (hkind : p.kind = kindOfDefinition d.kind)
    : Built py atoms
        ⟨field, kindOfDefinition d.kind, p.cells ++ (if d.absentAllowed then [.absent] else []), some d⟩ := by
  have habsent : absentCells p.definition = [] := by
    rw [hnone]
    rfl
  refine ⟨h.scalar, fun d' hd' => ?_, fun hk => ?_, fun hk => ?_, fun hk => ?_⟩
  . cases hd'
    rfl
  . rcases h.numeric (hkind.trans hk) with ⟨cuts, hcuts, hcells⟩
    rw [habsent, List.append_nil] at hcells
    refine ⟨cuts, hcuts, ?_⟩
    dsimp only
    rw [hcells]
    rfl
  . have hcells := h.boolean (hkind.trans hk)
    rw [habsent, List.append_nil] at hcells
    dsimp only
    rw [hcells]
    rfl
  . have hcells := h.categorical (hkind.trans hk)
    rw [habsent, List.append_nil] at hcells
    dsimp only
    rw [hcells]
    rfl

/-- The atoms of a field that cut it: those that ask for absence do not cut a field that is defined. -/
def cutting (definition : Option FieldDefinition) (atoms : List Atom) : List Atom :=
  if definition.isSome then atoms.filter present else atoms

theorem definedPartition_ok {py : Runtime} {field : String} {atoms : List Atom} {definition : Option FieldDefinition}
    {p : FieldPartition} (h : definedPartition py field atoms definition = .ok p) (hscalar : ∀ a ∈ atoms, a.Scalar)
    : p.field = field ∧ p.definition = definition ∧ Built py (cutting definition atoms) p := by
  cases definition with
  | none =>
    rcases Except.bind_eq_ok.mp h with ⟨kind, _, hp⟩
    rcases partitionOf_ok hp hscalar with ⟨hfield, _, hdefinition, hbuilt⟩
    exact ⟨hfield, hdefinition, hbuilt⟩
  | some d =>
    rcases Except.bind_eq_ok.mp h with ⟨built, hbuilt, hp⟩
    cases hp
    rcases partitionOf_ok hbuilt (fun a ha => hscalar a (List.mem_of_mem_filter ha)) with ⟨_, hkind, hnone, hshape⟩
    exact ⟨rfl, rfl, hshape.define hnone hkind⟩

/- The atoms of a flow. -/

theorem nodup_flowAtoms (py : Runtime) (graph : Graph)
    : ((flowAtoms py graph).map Prod.fst).Nodup :=
  Dict.nodup_group _

theorem mem_flowAtoms {py : Runtime} {graph : Graph} {field : String} {atoms : List Atom}
    (h : (field, atoms) ∈ flowAtoms py graph) (a : Atom)
    : a ∈ atoms ↔ ∃ at' ∈ valueConditions graph, (field, a) ∈ conditionAtoms py at'.2 := by
  rw [flowAtoms] at h
  rw [Dict.mem_of_mem_group h, List.mem_flatMap]

theorem scalar_of_flowAtoms {py : Runtime} {graph : Graph}
    (hlevel : ∀ at' ∈ valueConditions graph, isLevelM py at'.2 = true) {field : String} {atoms : List Atom}
    (hmem : (field, atoms) ∈ flowAtoms py graph) {a : Atom} (ha : a ∈ atoms)
    : a.Scalar := by
  rcases (mem_flowAtoms hmem a).mp ha with ⟨at', hat, hasked⟩
  exact scalar_of_mem_conditionAtoms (hlevel at' hat) hasked

/- The partitions of a flow. -/

theorem isLevelM_of_none {py : Runtime} {graph : Graph} (h : conditionsOutsideLevelM py graph = [])
    : ∀ at' ∈ valueConditions graph, isLevelM py at'.2 = true := by
  intro at' hat
  rw [conditionsOutsideLevelM, List.map_eq_nil_iff, List.filter_eq_nil_iff] at h
  simpa using h at' hat

theorem lookup_eq_none_of_isEmpty {V : Type} {kvs : List (String × V)} (h : kvs.isEmpty = true) (k : String)
    : kvs.lookup k = none := by
  rw [List.isEmpty_iff.mp h]
  rfl

theorem partitions_of_kinds {py : Runtime} {fields : List (String × List Atom)}
    {kinds : List ((String × List Atom) × Kind)} {parts : Partitions}
    (hkinds : List.Forall₂ (fun p k => (do return (p, ← classifyKind p.2) : Except Failure _) = .ok k) fields kinds)
    (hparts : List.Forall₂ (fun k q => (do return (k.1.1, ← partitionOf py k.1.1 k.1.2 k.2) : Except Failure _) = .ok q)
      kinds parts)
    (hscalar : ∀ p ∈ fields, ∀ a ∈ p.2, a.Scalar)
    : List.Forall₂ (fun p q => q.1 = p.1 ∧ q.2.field = p.1 ∧ q.2.definition = none ∧ Built py p.2 q.2) fields parts := by
  induction hkinds generalizing parts with
  | nil =>
    rw [List.forall₂_nil_left_iff.mp hparts]
    exact List.Forall₂.nil
  | cons hk _ ih =>
    rw [List.forall_mem_cons] at hscalar
    rcases List.forall₂_cons_left_iff.mp hparts with ⟨q, parts', hq, hrest, rfl⟩
    rcases Except.bind_eq_ok.mp hk with ⟨kind, _, hok⟩
    cases hok
    rcases Except.bind_eq_ok.mp hq with ⟨p', hp', hok⟩
    cases hok
    rcases partitionOf_ok hp' hscalar.1 with ⟨hfield, _, hnone, hbuilt⟩
    exact List.Forall₂.cons ⟨rfl, hfield, hnone, hbuilt⟩ (ih hrest hscalar.2)

/-- One partition for each field that a condition asks, and the conditions are in the fragment. -/
theorem buildPartitions_ok {py : Runtime} {flow : Flow py} {parts : Partitions} (h : buildPartitions flow = .ok parts)
    : (∀ at' ∈ valueConditions flow.graph, isLevelM py at'.2 = true)
        ∧ List.Forall₂ (fun p q => q.1 = p.1 ∧ q.2.field = p.1 ∧ q.2.definition = flow.fields.lookup p.1
          ∧ Built py (cutting q.2.definition p.2) q.2) (flowAtoms py flow.graph) parts := by
  rw [buildPartitions] at h
  split at h
  next hempty =>
    rcases Except.bind_eq_ok.mp h with ⟨kinds, hkinds, hrest⟩
    cases houtside : conditionsOutsideLevelM py flow.graph with
    | cons problem problems =>
      rw [houtside] at hrest
      cases hrest
    | nil =>
      rw [houtside] at hrest
      have hlevel := isLevelM_of_none houtside
      refine ⟨hlevel, ?_⟩
      have hall := partitions_of_kinds (Except.mapM_eq_ok_iff.mp hkinds) (Except.mapM_eq_ok_iff.mp hrest)
        fun p hp a ha => scalar_of_flowAtoms hlevel hp ha
      refine hall.imp fun p q hpq => ?_
      rcases hpq with ⟨hkey, hfield, hnone, hbuilt⟩
      refine ⟨hkey, hfield, hnone.trans (lookup_eq_none_of_isEmpty hempty _).symm, ?_⟩
      rw [hnone]
      exact hbuilt
  next hdefined =>
    have hfields : flow.fields ≠ [] := fun hnil => hdefined (List.isEmpty_iff.mpr hnil)
    have hlevel : ∀ at' ∈ valueConditions flow.graph, isLevelM py at'.2 = true :=
      fun at' hat => flow.isLevelM hfields hat
    refine ⟨hlevel, ?_⟩
    have hall := Except.mapM_eq_ok_iff.mp h
    refine (List.forall₂_and_left _ _ |>.mpr ⟨fun p hp => hp, hall⟩).imp fun p q hpq => ?_
    rcases hpq with ⟨hp, hq⟩
    rcases Except.bind_eq_ok.mp hq with ⟨p', hp', hok⟩
    cases hok
    rcases definedPartition_ok hp' (fun a ha => scalar_of_flowAtoms hlevel hp ha) with ⟨hfield, hdefinition, hbuilt⟩
    refine ⟨rfl, hfield, hdefinition, ?_⟩
    rw [hdefinition]
    exact hbuilt

end Quantizer
