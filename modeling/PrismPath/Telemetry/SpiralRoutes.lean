import PrismPath.Telemetry.ConcentratorFraming
import PrismPath.Telemetry.SpiralBands
import PrismPath.Telemetry.WireDecisions

/-!
This module contains what the spiral of a node says about a reading: the band it is in is the route that the flow gives
it, and both parts of its code bring back the cell that it is in.
-/

open Python

namespace Spiral

open Predicates LevelM Parser Quantizer
open FieldDefinitions (Flow)

/- Every cell of the grid has a place. -/

theorem forall₂_of_common {α β γ : Type} {R : α → β → Prop} {S : α → γ → Prop} {T : β → γ → Prop}
    (h : ∀ a b c, R a b → S a c → T b c) {as : List α} {bs : List β} {cs : List γ} (hr : List.Forall₂ R as bs)
    (hs : List.Forall₂ S as cs)
    : List.Forall₂ T bs cs := by
  induction hr generalizing cs with
  | nil =>
    cases hs
    exact .nil
  | cons hab _ ih =>
    cases hs with
    | cons hac hrest => exact .cons (h _ _ _ hab hac) (ih hrest)

theorem mem_mixedRadixGray {radices ds : List ℤ} (hds : InGrid radices ds)
    : ds ∈ mixedRadixGray radices := by
  have hpos : ∀ radix ∈ radices, 1 ≤ radix := by
    intro radix hradix
    rcases exists_of_forall₂ hds.flip hradix with ⟨d, _, hlower, hupper⟩
    omega
  have hvalid := startWheels_valid hpos
  have htotal := hvalid.total_pos
  have hprod := @startWheels_total radices
  rw [← @startWheels_radices radices] at hds
  rcases digits_surjective hvalid startWheels_rank hds with ⟨t, ht, rfl⟩
  rw [mixedRadixGray, walk_eq]
  exact List.mem_map.mpr ⟨t, List.mem_range.mpr (by omega), rfl⟩

/-- What a layout is built from. -/
structure Packs {py : Runtime} (flow : Flow py) (source : Node) (layout : SpiralLayout) : Prop where
  node : flow.graph.get? layout.node = some source
  parts : buildPartitions flow = .ok layout.parts
  fields : layout.fields = nodeFields py layout.parts source
  radices : List.Forall₂ (fun field radix => ∃ p, partition layout.parts field = .ok p ∧ radix = (p.cells.length : ℤ))
    layout.fields layout.radices
  mem_cellOf : ∀ cell ∈ mixedRadixGray layout.radices, cell ∈ layout.cellOf

theorem build_packs {py : Runtime} {flow : Flow py} {node : String} {layout : SpiralLayout}
    (h : build flow node = .ok layout)
    : ∃ source, Packs flow source layout := by
  rcases Except.bind_eq_ok.mp h with ⟨parts, hparts, hrest⟩
  cases hsource : flow.graph.get? node with
  | none =>
    rw [hsource] at hrest
    cases hrest
  | some source =>
    rw [hsource] at hrest
    dsimp only at hrest
    split at hrest
    . cases hrest
    . rcases Except.bind_eq_ok.mp hrest with ⟨radices, hradices, hrest⟩
      rcases Except.bind_eq_ok.mp hrest with ⟨routed, hrouted, hlayout⟩
      cases hlayout
      refine ⟨source, hsource, hparts, rfl, ?_, fun cell hcell => ?_⟩
      . refine (Except.mapM_eq_ok_iff.mp hradices).imp fun field radix hradix => ?_
        rcases Except.bind_eq_ok.mp hradix with ⟨p, hp, hok⟩
        exact ⟨p, hp, (Except.ok.inj hok).symm⟩
      . rcases exists_of_forall₂ (Except.mapM_eq_ok_iff.mp hrouted) hcell with ⟨routing, hmem, hroute⟩
        rcases Except.bind_eq_ok.mp hroute with ⟨route, _, hok⟩
        cases Except.ok.inj hok
        rcases Dict.exists_mem_group hmem with ⟨cells, hcells, hin⟩
        refine List.mem_flatten.mpr ⟨cells, List.mem_map.mpr ⟨(route, cells), ?_, rfl⟩, hin⟩
        exact (List.mem_insertionSort _).mpr hcells

section

variable {py : Runtime} {flow : Flow py} {source : Node} {layout : SpiralLayout}

open SpiralLayout

theorem partition_ok {parts : Partitions} {field : String} {p : FieldPartition}
    : partition parts field = .ok p ↔ parts.lookup field = some p := by
  rw [partition]
  cases parts.lookup field <;> simp

/-- The cell of a reading, field by field. -/
theorem cell_ok {reading : Reading} {cell : List ℤ}
    : layout.cell reading = .ok cell
        ↔ List.Forall₂ (fun field d => ∃ p value s, layout.parts.lookup field = some p
          ∧ reading.lookup field = some value ∧ p.symbol value = .ok s ∧ d = (s : ℤ)) layout.fields cell := by
  rw [SpiralLayout.cell, Except.mapM_eq_ok_iff]
  constructor
  . refine fun h => h.imp fun field d hd => ?_
    rcases Except.bind_eq_ok.mp hd with ⟨p, hp, hrest⟩
    cases hvalue : reading.lookup field with
    | none =>
      rw [hvalue] at hrest
      cases hrest
    | some value =>
      rw [hvalue] at hrest
      rcases Except.bind_eq_ok.mp hrest with ⟨s, hs, hok⟩
      exact ⟨p, value, s, partition_ok.mp hp, rfl, hs, (Except.ok.inj hok).symm⟩
  . refine fun h => h.imp fun field d hd => ?_
    rcases hd with ⟨p, value, s, hp, hvalue, hs, rfl⟩
    refine Except.bind_eq_ok.mpr ⟨p, partition_ok.mpr hp, ?_⟩
    rw [hvalue]
    exact Except.bind_eq_ok.mpr ⟨s, hs, rfl⟩

theorem symbol_lt {p : FieldPartition} {s : ℕ} {rep : Value} (h : p.representative s = .ok rep)
    : s < p.cells.length := by
  rw [FieldPartition.representative] at h
  split at h
  next cell hcell => exact (List.getElem?_eq_some_iff.mp hcell).1
  next => cases h

theorem exists_representative (h : Packs flow source layout) {field : String} {p : FieldPartition}
    (hp : layout.parts.lookup field = some p) {value : Value} {s : ℕ} (hs : p.symbol value = .ok s)
    : ∃ rep, p.representative s = .ok rep := by
  rcases built_of_mem h.parts (Dict.mem_of_lookup hp) with ⟨atoms, _, hbuilt⟩
  rcases representative_stable hbuilt hs with ⟨rep, hrep, _⟩
  exact ⟨rep, hrep⟩

theorem cell_inGrid (h : Packs flow source layout) {reading : Reading} {cell : List ℤ}
    (hcell : layout.cell reading = .ok cell)
    : InGrid layout.radices cell := by
  refine forall₂_of_common (fun field d radix hd hradix => ?_) (cell_ok.mp hcell) h.radices
  rcases hd with ⟨p, value, s, hp, _, hs, rfl⟩
  rcases hradix with ⟨q, hq, rfl⟩
  cases hp.symm.trans (partition_ok.mp hq)
  rcases exists_representative h hp hs with ⟨rep, hrep⟩
  have hlt := symbol_lt hrep
  omega

/- What the cell of a reading says about it. -/

theorem cellReading_ok {parts : Partitions} {fields : List String} {cell : List ℤ} {decoded : Reading}
    : cellReading parts fields cell = .ok decoded
        ↔ List.Forall₂ (fun q r => ∃ p, parts.lookup q.1 = some p ∧ p.representative q.2.toNat = .ok r.2 ∧ r.1 = q.1)
          (fields.zip cell) decoded := by
  rw [cellReading, Except.mapM_eq_ok_iff]
  have hfield (q : String × ℤ) (r : String × Value)
      : (do
          let part ← partition parts q.1
          return (q.1, ← part.representative q.2.toNat) : Except Failure (String × Value)) = .ok r
        ↔ ∃ p, parts.lookup q.1 = some p ∧ p.representative q.2.toNat = .ok r.2 ∧ r.1 = q.1 := by
    rw [Except.bind_eq_ok]
    constructor
    . rintro ⟨p, hp, hrest⟩
      rcases Except.bind_eq_ok.mp hrest with ⟨rep, hrep, hok⟩
      cases Except.ok.inj hok
      exact ⟨p, partition_ok.mp hp, hrep, rfl⟩
    . rintro ⟨p, hp, hrep, hkey⟩
      refine ⟨p, partition_ok.mpr hp, Except.bind_eq_ok.mpr ⟨r.2, hrep, ?_⟩⟩
      rw [← hkey]
      rfl
  constructor
  . exact fun h => h.imp fun q r hr => (hfield q r).mp hr
  . exact fun h => h.imp fun q r hr => (hfield q r).mpr hr

theorem keys_of_cellReading {parts : Partitions} {fields : List String} {cell : List ℤ} {decoded : Reading}
    (hlength : fields.length = cell.length) (h : cellReading parts fields cell = .ok decoded)
    : decoded.map Prod.fst = fields := by
  have hzip : (fields.zip cell).map Prod.fst = fields := List.map_fst_zip (by omega)
  conv_rhs => rw [← hzip]
  have hall := cellReading_ok.mp h
  generalize fields.zip cell = qs at hall
  clear h
  induction hall with
  | nil => rfl
  | cons hr _ ih =>
    rcases hr with ⟨_, _, _, hkey⟩
    rw [List.map_cons, List.map_cons, hkey, ih]

theorem nodup_nodeFields (parts : Partitions) (source : Node)
    : (nodeFields py parts source).Nodup := by
  rw [nodeFields]
  exact (List.perm_insertionSort _ _).nodup_iff.mpr (List.nodup_dedup _)

/-- A field that a node asks is one of the fields of its layout. -/
theorem mem_fields (h : Packs flow source layout) {edge : Edge} (hedge : edge ∈ source.edges)
    (hdet : isDeterministic edge.condition = true) {field : String}
    (hasked : field ∈ (conditionAtoms py edge.condition).map Prod.fst) {p : FieldPartition}
    (hp : layout.parts.lookup field = some p)
    : field ∈ layout.fields := by
  have hsemantic : isSemantic edge.condition = false := by
    rw [isSemantic, hdet]
    rfl
  rw [h.fields, nodeFields]
  refine (List.mem_insertionSort _).mpr (List.mem_dedup.mpr (List.mem_filter.mpr ⟨List.mem_flatMap.mpr ⟨edge, ?_, hasked⟩, ?_⟩))
  . refine List.mem_filter.mpr ⟨hedge, ?_⟩
    rw [hdet, hsemantic]
    rfl
  . rw [hp]
    rfl

/-- What a cell reads as carries every field of the layout. -/
theorem carries_cell (h : Packs flow source layout) {reading : Reading} {cell : List ℤ}
    (hcell : layout.cell reading = .ok cell) {decoded : Reading}
    (hdecoded : cellReading layout.parts layout.fields cell = .ok decoded) {field : String} (hfield : field ∈ layout.fields)
    {p : FieldPartition} (hp : layout.parts.lookup field = some p)
    : Carries p (reading.ctx field) (decoded.ctx field) := by
  have hsymbols := cell_ok.mp hcell
  have hlength := List.Forall₂.length_eq hsymbols
  rcases exists_mem_zip hlength hfield with ⟨d, hd⟩
  rcases (List.forall₂_iff_zip.mp hsymbols).2 hd with ⟨p', value, s, hp', hvalue, hs, rfl⟩
  cases hp.symm.trans hp'
  rcases exists_of_forall₂ (cellReading_ok.mp hdecoded) hd with ⟨⟨key, rep⟩, hmem, p', hp'', hrep, hkey⟩
  dsimp only at hkey hp'' hrep
  cases hp.symm.trans hp''
  rw [Int.toNat_natCast] at hrep
  have hnodup : (decoded.map Prod.fst).Nodup := by
    rw [keys_of_cellReading hlength hdecoded, h.fields]
    exact nodup_nodeFields layout.parts source
  have hlookup : decoded.lookup field = some rep := Dict.lookup_of_mem hnodup (hkey ▸ hmem)
  refine ⟨s, ?_, ?_⟩
  . rw [Reading.ctx, hvalue]
    exact hs
  . rw [Reading.ctx, hlookup]
    exact hrep

/-- The node decides alike on a reading and on what its cell reads as. -/
theorem routeNode_cell (h : Packs flow source layout) (hother : NamesNoOther py flow.graph) {reading : Reading}
    {cell : List ℤ} (hcell : layout.cell reading = .ok cell) {decoded : Reading}
    (hdecoded : cellReading layout.parts layout.fields cell = .ok decoded)
    : routeNode py flow.graph layout.node decoded = routeNode py flow.graph layout.node reading := by
  apply routeNode_congr h.parts
  intro node hget edge hedge hdet
  cases hget.symm.trans h.node
  apply agree_of_carries h.parts hother (mem_valueConditions (Graph.mem_of_get? h.node) hedge hdet)
  intro p hp hasked
  have hlookup : layout.parts.lookup p.1 = some p.2 := Dict.lookup_of_mem (nodup_parts h.parts) hp
  exact carries_cell h hcell hdecoded (mem_fields h hedge hdet hasked hlookup) hlookup

/- The place of a cell, and its codes. -/

theorem find_band {bands : List (Option String × List (List ℤ))} (base : ℕ) {band : ℕ}
    {bucket : Option String × List (List ℤ)} (hbucket : bands[band]? = some bucket) {local' : ℕ}
    (hlocal : local' < bucket.2.length)
    : (((bandBases base ((bands.map Prod.snd).map List.length)).zip ((bands.map Prod.snd).map List.length)).zip
          (bands.map Prod.fst)).find?
            (fun b => base + ((bands.map Prod.snd).take band).flatten.length + local' < b.1.1 + b.1.2)
        = some ((base + ((bands.map Prod.snd).take band).flatten.length, bucket.2.length), bucket.1) := by
  induction bands generalizing base band with
  | nil => cases hbucket
  | cons first bands ih =>
    simp only [List.map_cons, bandBases, List.zip_cons_cons]
    cases band with
    | zero =>
      cases hbucket
      rw [List.take_zero, List.flatten_nil, List.length_nil, List.find?_cons_of_pos]
      . rfl
      . simpa using hlocal
    | succ band =>
      rw [List.getElem?_cons_succ] at hbucket
      rw [List.take_succ_cons, List.flatten_cons, List.length_append, List.find?_cons_of_neg, ← Nat.add_assoc]
      . exact ih (base + first.2.length) hbucket
      . simp only [decide_eq_true_eq]
        omega

theorem positionOf_ok {α : Type} [DecidableEq α] {xs : List α} (hnodup : xs.Nodup) {x : α} {i : ℕ} (h : xs[i]? = some x)
    : positionOf xs x = .ok i := by
  have hlt := (List.getElem?_eq_some_iff.mp h).1
  have hfind : xs.findIdx? (· = x) = some i := by
    rw [List.findIdx?_eq_some_iff_getElem]
    refine ⟨hlt, ?_, fun j hj => ?_⟩
    . rw [List.getElem?_eq_getElem hlt, Option.some.injEq] at h
      exact decide_eq_true h
    . rw [List.getElem?_eq_getElem hlt, Option.some.injEq] at h
      intro hsame
      have := (List.Nodup.getElem_inj_iff hnodup).mp ((of_decide_eq_true hsame).trans h.symm)
      omega
  rw [positionOf, hfind]

theorem exists_position {α : Type} [DecidableEq α] {xs : List α} {x : α} (h : x ∈ xs)
    : ∃ i, positionOf xs x = .ok i ∧ xs[i]? = some x := by
  cases hfind : xs.findIdx? (· = x) with
  | none =>
    have := List.findIdx?_eq_none_iff.mp hfind x h
    simp at this
  | some i =>
    rcases List.findIdx?_eq_some_iff_getElem.mp hfind with ⟨hlt, hx, _⟩
    refine ⟨i, by rw [positionOf, hfind], ?_⟩
    rw [List.getElem?_eq_getElem hlt, of_decide_eq_true hx]

theorem exists_code (n : ℕ)
    : ∃ code, Zeckendorf.encode ((n : ℤ) + 1) = .ok code ∧ Zeckendorf.decode code = .ok (n + 1) := by
  rcases Zeckendorf.encode_of_pos (show (1 : ℤ) ≤ (n : ℤ) + 1 by omega) with ⟨ds, hsparse, hweight, hcode⟩
  refine ⟨_, hcode, ?_⟩
  rw [Zeckendorf.decode_codeOf hsparse]
  congr 1
  omega

/--
A reading that a layout has a cell for is announced as the route the flow gives it, and both parts of its code bring
back what stands for the cell, which the flow routes alike.
-/
theorem codes_route {node : String} (hbuild : build flow node = .ok layout) (hother : NamesNoOther py flow.graph)
    {reading : Reading} {cell : List ℤ} (hcell : layout.cell reading = .ok cell)
    : ∃ spiralIndex route decision refine' decoded,
        layout.index reading = .ok spiralIndex ∧ spiralIndex < layout.size
          ∧ layout.routeOf spiralIndex = .ok route
          ∧ layout.encodeDecision py flow.graph reading = .ok decision
          ∧ layout.encodeProgressive reading = .ok (decision, refine')
          ∧ layout.decodeDecision decision = .ok route
          ∧ layout.decodeProgressive decision refine' = .ok decoded
          ∧ cellReading layout.parts layout.fields cell = .ok decoded
          ∧ routeNode py flow.graph node reading = .ok route
          ∧ routeNode py flow.graph node decoded = .ok route := by
  rcases build_packs hbuild with ⟨source, hpacks⟩
  rcases build_banded hbuild with ⟨rfl, buckets, hbanded⟩
  have hmem := hpacks.mem_cellOf cell (mem_mixedRadixGray (cell_inGrid hpacks hcell))
  rcases exists_position hmem with ⟨spiralIndex, hposition, hplace⟩
  have hlt := (List.getElem?_eq_some_iff.mp hplace).1
  have hindex : layout.index reading = .ok spiralIndex := by
    rw [SpiralLayout.index, hcell]
    exact hposition
  -- the band of the index
  have hlt' := hlt
  rw [hbanded.cellOf] at hlt'
  rcases exists_band hlt' with ⟨band, cells, local', hcells, hlocal, rfl⟩
  rw [List.getElem?_map, Option.map_eq_some_iff] at hcells
  rcases hcells with ⟨bucket, hbucket, rfl⟩
  rcases reconstruct_band hbanded hbucket hlocal with ⟨decoded, hdecoded, hroute⟩
  have hrouteOf : layout.routeOf (((buckets.map Prod.snd).take band).flatten.length + local') = .ok bucket.1 := by
    have hfind := find_band 0 hbucket hlocal
    rw [Nat.zero_add, ← hbanded.base, ← hbanded.width, ← hbanded.routes] at hfind
    rw [SpiralLayout.routeOf, hfind]
  have hbandRoute : layout.routes[band]? = some bucket.1 := by
    rw [hbanded.routes, List.getElem?_map, hbucket]
    rfl
  have hbandPosition := positionOf_ok hbanded.nodup hbandRoute
  -- what the cell reads as is what its place reads as
  have hreads : cellReading layout.parts layout.fields cell = .ok decoded := by
    rw [SpiralLayout.reconstruct, at_ok.mpr hplace] at hdecoded
    exact hdecoded
  have hsame := routeNode_cell hpacks hother hcell hreads
  rcases exists_code band with ⟨decision, hdecision, hdecisionBack⟩
  rcases exists_code local' with ⟨refine', hrefine, hrefineBack⟩
  have hbase : layout.bandBase[band]? = some ((buckets.map Prod.snd).take band).flatten.length := by
    have hband := (List.getElem?_eq_some_iff.mp hbucket).1
    rw [hbanded.base, getElem?_bandBases 0 _ (by rw [List.length_map]; exact hband), Nat.zero_add]
  refine ⟨_, bucket.1, decision, refine', decoded, hindex, ?_, hrouteOf, ?_, ?_, ?_, ?_, hreads, hsame ▸ hroute,
    hroute⟩
  . rw [hbanded.size]
    exact hlt
  . have hbandId : layout.bandId py flow.graph reading = .ok band := by
      rw [SpiralLayout.bandId, hcell]
      change (routeOfCell py flow.graph layout.node layout.parts layout.fields cell >>= _) = _
      rw [routeOfCell, hreads]
      change (routeNode py flow.graph layout.node decoded >>= _) = _
      rw [hroute]
      exact hbandPosition
    rw [SpiralLayout.encodeDecision, hbandId]
    change raising (Zeckendorf.encode ((band : ℤ) + 1)) = _
    rw [hdecision]
    rfl
  . rw [SpiralLayout.encodeProgressive, hindex]
    change (layout.routeOf _ >>= _) = _
    rw [hrouteOf]
    change (positionOf layout.routes bucket.1 >>= _) = _
    rw [hbandPosition]
    change (at' layout.bandBase band >>= _) = _
    rw [at_ok.mpr hbase]
    change (raising (Zeckendorf.encode ((band : ℤ) + 1)) >>= _) = _
    rw [hdecision]
    have hplace' : ((((buckets.map Prod.snd).take band).flatten.length + local' : ℕ) : ℤ)
        - ((buckets.map Prod.snd).take band).flatten.length + 1 = (local' : ℤ) + 1 := by omega
    change (raising (Zeckendorf.encode ((((buckets.map Prod.snd).take band).flatten.length + local' : ℕ)
      - ((buckets.map Prod.snd).take band).flatten.length + 1)) >>= _) = _
    rw [hplace', hrefine]
    rfl
  . rw [decodeDecision_ok hdecisionBack, Nat.add_sub_cancel]
    exact hbandRoute
  . rw [decodeProgressive_ok hdecisionBack hrefineBack]
    refine ⟨_, hbase, ?_⟩
    rw [Nat.add_sub_cancel]
    exact hdecoded

end

theorem codes_route_seven
    : ∃ spiralIndex route decision refine' decoded,
        countLayout.index [("count", .int 7)] = .ok spiralIndex ∧ spiralIndex < countLayout.size
          ∧ countLayout.routeOf spiralIndex = .ok route
          ∧ countLayout.encodeDecision countPy countFlow.graph [("count", .int 7)] = .ok decision
          ∧ countLayout.encodeProgressive [("count", .int 7)] = .ok (decision, refine')
          ∧ countLayout.decodeDecision decision = .ok route
          ∧ countLayout.decodeProgressive decision refine' = .ok decoded
          ∧ cellReading countLayout.parts countLayout.fields [1] = .ok decoded
          ∧ routeNode countPy countFlow.graph "watch" [("count", .int 7)] = .ok route
          ∧ routeNode countPy countFlow.graph "watch" decoded = .ok route :=
  @codes_route countPy countFlow countLayout "watch" build_countLayout (by with_unfolding_all decide) _ [1] rfl

end Spiral
