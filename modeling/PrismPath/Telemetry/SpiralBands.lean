import PrismPath.Lib.Process
import PrismPath.Telemetry.QuantizerLemmas
import PrismPath.Telemetry.SpiralLayout
import PrismPath.Telemetry.Stability

/-!
This module contains the bands of a spiral layout: where each begins, which cells are in it, and that a two part code
stands for a reading of its band as long as its second part stays inside the band.
-/

open Python

namespace Spiral

open Predicates LevelM Parser Quantizer
open FieldDefinitions (Flow)

/- Bands one after the other. -/

section

variable {α : Type}

theorem getElem?_bandBases (base : ℕ) (bands : List (List α)) {band : ℕ} (h : band < bands.length)
    : (bandBases base (bands.map List.length))[band]? = some (base + (bands.take band).flatten.length) := by
  induction bands generalizing base band with
  | nil => cases h
  | cons cells bands ih =>
    rw [List.map_cons, bandBases]
    cases band with
    | zero => rfl
    | succ band =>
      rw [List.length_cons] at h
      rw [List.getElem?_cons_succ, ih _ (by omega), List.take_succ_cons, List.flatten_cons, List.length_append,
        Nat.add_assoc]

theorem length_bandBases (base : ℕ) (widths : List ℕ)
    : (bandBases base widths).length = widths.length := by
  induction widths generalizing base with
  | nil => rfl
  | cons width widths ih => rw [bandBases, List.length_cons, ih, List.length_cons]

/-- A place in a band. -/
theorem getElem?_flatten {bands : List (List α)} {band : ℕ} {cells : List α} (hcells : bands[band]? = some cells)
    {local' : ℕ} (hlocal : local' < cells.length)
    : bands.flatten[(bands.take band).flatten.length + local']? = cells[local']? := by
  induction bands generalizing band with
  | nil => cases hcells
  | cons first bands ih =>
    cases band with
    | zero =>
      cases hcells
      rw [List.take_zero, List.flatten_nil, List.length_nil, Nat.zero_add, List.flatten_cons,
        List.getElem?_append_left hlocal]
    | succ band =>
      rw [List.getElem?_cons_succ] at hcells
      rw [List.take_succ_cons, List.flatten_cons, List.flatten_cons, List.length_append, Nat.add_assoc,
        List.getElem?_append_right (by omega), Nat.add_sub_cancel_left]
      exact ih hcells

/-- Every index is a place in one of the bands. -/
theorem exists_band {bands : List (List α)} {n : ℕ} (h : n < bands.flatten.length)
    : ∃ band cells local', bands[band]? = some cells ∧ local' < cells.length
        ∧ n = (bands.take band).flatten.length + local' := by
  induction bands generalizing n with
  | nil => cases h
  | cons first bands ih =>
    rw [List.flatten_cons, List.length_append] at h
    by_cases hfirst : n < first.length
    . exact ⟨0, first, n, rfl, hfirst, (Nat.zero_add n).symm⟩
    . rcases @ih (n - first.length) (by omega) with ⟨band, cells, local', hcells, hlocal, hn⟩
      refine ⟨band + 1, cells, local', hcells, hlocal, ?_⟩
      rw [List.take_succ_cons, List.flatten_cons, List.length_append]
      omega

end

/- The layout of a node. -/

/-- The bands of a layout, each with its route. -/
structure Banded {py : Runtime} (flow : Flow py) (layout : SpiralLayout) (buckets : List (Option String × List (List ℤ)))
    : Prop where
  routes : layout.routes = buckets.map Prod.fst
  base : layout.bandBase = bandBases 0 ((buckets.map Prod.snd).map List.length)
  width : layout.bandWidth = (buckets.map Prod.snd).map List.length
  cellOf : layout.cellOf = (buckets.map Prod.snd).flatten
  size : layout.size = layout.cellOf.length
  nodup : layout.routes.Nodup
  routed : ∀ bucket ∈ buckets, ∀ cell ∈ bucket.2,
    ∃ reading, cellReading layout.parts layout.fields cell = .ok reading
      ∧ routeNode py flow.graph layout.node reading = .ok bucket.1

theorem build_banded {py : Runtime} {flow : Flow py} {node : String} {layout : SpiralLayout}
    (h : build flow node = .ok layout)
    : layout.node = node ∧ ∃ buckets, Banded flow layout buckets := by
  rcases Except.bind_eq_ok.mp h with ⟨parts, _, hrest⟩
  cases hsource : flow.graph.get? node with
  | none =>
    rw [hsource] at hrest
    cases hrest
  | some source =>
    rw [hsource] at hrest
    dsimp only at hrest
    split at hrest
    . cases hrest
    . rcases Except.bind_eq_ok.mp hrest with ⟨radices, _, hrest⟩
      rcases Except.bind_eq_ok.mp hrest with ⟨routed, hrouted, hlayout⟩
      cases hlayout
      generalize hbuckets : (Dict.group routed).insertionSort
        (fun a b => routeRank (routeOrder source) a.1 ≤ routeRank (routeOrder source) b.1) = buckets
      have hperm : buckets.Perm (Dict.group routed) := hbuckets ▸ List.perm_insertionSort _ _
      have hwidths : buckets.map (fun bucket => bucket.2.length) = (buckets.map Prod.snd).map List.length := by
        rw [List.map_map]
        rfl
      refine ⟨rfl, buckets, rfl, congrArg (bandBases 0) hwidths, hwidths, rfl, ?_, ?_, fun bucket hbucket cell hcell => ?_⟩
      . dsimp only
        rw [hwidths, List.length_flatten]
      . exact (hperm.map Prod.fst).nodup_iff.mpr (Dict.nodup_group routed)
      . have hmem := (Dict.mem_of_mem_group (hperm.mem_iff.mp hbucket) cell).mp hcell
        rcases exists_of_forall₂ (Except.mapM_eq_ok_iff.mp hrouted).flip hmem with ⟨cell', _, hroute⟩
        rcases Except.bind_eq_ok.mp hroute with ⟨route, hroute, hpair⟩
        cases hpair
        exact Except.bind_eq_ok.mp hroute

section

variable {py : Runtime} {flow : Flow py} {layout : SpiralLayout} {buckets : List (Option String × List (List ℤ))}

namespace SpiralLayout

theorem at_ok {α : Type} {xs : List α} {i : ℕ} {x : α}
    : at' xs i = .ok x ↔ xs[i]? = some x := by
  rw [at']
  cases xs[i]? <;> simp

end SpiralLayout

open SpiralLayout

/-- A cell of a band reconstructs to a reading that takes the route of the band. -/
theorem reconstruct_band (h : Banded flow layout buckets) {band : ℕ} {bucket : Option String × List (List ℤ)}
    (hbucket : buckets[band]? = some bucket) {local' : ℕ} (hlocal : local' < bucket.2.length)
    : ∃ reading, layout.reconstruct (((buckets.map Prod.snd).take band).flatten.length + local') = .ok reading
        ∧ routeNode py flow.graph layout.node reading = .ok bucket.1 := by
  have hcells : (buckets.map Prod.snd)[band]? = some bucket.2 := by
    rw [List.getElem?_map, hbucket]
    rfl
  have hcell := getElem?_flatten hcells hlocal
  rw [← h.cellOf, List.getElem?_eq_getElem hlocal] at hcell
  rcases h.routed bucket (List.mem_of_getElem? hbucket) _ (List.getElem_mem hlocal) with ⟨reading, hreading, hroute⟩
  refine ⟨reading, ?_, hroute⟩
  rw [SpiralLayout.reconstruct, at_ok.mpr hcell]
  exact hreading

theorem decodeDecision_ok {decision : List Bool} {code : ℕ} (hcode : Zeckendorf.decode decision = .ok code)
    {route : Option String}
    : decodeDecision layout decision = .ok route ↔ layout.routes[code - 1]? = some route := by
  rw [decodeDecision, hcode]
  exact at_ok

theorem decodeProgressive_ok {decision refine : List Bool} {code place : ℕ}
    (hcode : Zeckendorf.decode decision = .ok code) (hplace : Zeckendorf.decode refine = .ok place)
    {reading : Reading}
    : decodeProgressive layout decision refine = .ok reading
        ↔ ∃ base, layout.bandBase[code - 1]? = some base ∧ layout.reconstruct (base + (place - 1)) = .ok reading := by
  rw [decodeProgressive, hcode, hplace]
  change at' layout.bandBase (code - 1) >>= _ = _ ↔ _
  constructor
  . intro h
    rcases Except.bind_eq_ok.mp h with ⟨base, hbase, hreading⟩
    exact ⟨base, at_ok.mp hbase, hreading⟩
  . rintro ⟨base, hbase, hreading⟩
    exact Except.bind_eq_ok.mpr ⟨base, at_ok.mpr hbase, hreading⟩

theorem band_of_base (h : Banded flow layout buckets) {band base : ℕ} (hbase : layout.bandBase[band]? = some base)
    : ∃ bucket, buckets[band]? = some bucket ∧ base = ((buckets.map Prod.snd).take band).flatten.length
        ∧ layout.routes[band]? = some bucket.1 ∧ layout.bandWidth[band]? = some bucket.2.length := by
  have hlt : band < buckets.length := by
    have := (List.getElem?_eq_some_iff.mp hbase).1
    rw [h.base, length_bandBases, List.length_map, List.length_map] at this
    exact this
  have hbucket := List.getElem?_eq_getElem hlt
  rw [h.base, getElem?_bandBases 0 _ (by rw [List.length_map]; exact hlt), Nat.zero_add, Option.some.injEq] at hbase
  refine ⟨buckets[band], hbucket, hbase.symm, ?_, ?_⟩
  . rw [h.routes, List.getElem?_map, hbucket]
    rfl
  . rw [h.width, List.getElem?_map, List.getElem?_map, hbucket]
    rfl

/-- Two bands have different routes. -/
theorem route_injective (h : Banded flow layout buckets) {i j : ℕ} {a b : Option String × List (List ℤ)}
    (hi : buckets[i]? = some a) (hj : buckets[j]? = some b) (heq : a.1 = b.1)
    : i = j := by
  have hroutes := h.nodup
  rw [h.routes] at hroutes
  have hri : (buckets.map Prod.fst)[i]? = some a.1 := by
    rw [List.getElem?_map, hi]
    rfl
  have hrj : (buckets.map Prod.fst)[j]? = some a.1 := by
    rw [List.getElem?_map, hj, heq]
    rfl
  exact (List.getElem?_inj (List.getElem?_eq_some_iff.mp hri).1 hroutes).mp (hri.trans hrj.symm)

/--
A two part code that is accepted stands for a reading that takes the route of its first part exactly when its second
part is a place of that band; a place after the last cell is refused.
-/
theorem decodeProgressive_agrees_iff {node : String} (hbuild : build flow node = .ok layout)
    (decision refine' : List Bool)
    : (∀ reading, layout.decodeProgressive decision refine' = .ok reading →
          ∃ route, layout.decodeDecision decision = .ok route ∧ routeNode py flow.graph node reading = .ok route)
        ↔ ∀ code place base width, Zeckendorf.decode decision = .ok code → Zeckendorf.decode refine' = .ok place →
          layout.bandBase[code - 1]? = some base → layout.bandWidth[code - 1]? = some width →
            place - 1 < width ∨ layout.size ≤ base + (place - 1) := by
  rcases build_banded hbuild with ⟨rfl, buckets, h⟩
  constructor
  . intro hagrees code place base width hcode hplace hbase hwidth
    by_contra hnot
    rw [not_or, Nat.not_lt, Nat.not_le] at hnot
    rcases band_of_base h hbase with ⟨bucket, hbucket, rfl, hroute, hwidth'⟩
    cases hwidth.symm.trans hwidth'
    -- the place is one of a later band
    rw [h.size, h.cellOf] at hnot
    rcases exists_band hnot.2 with ⟨later, cells, local', hcells, hlocal, hindex⟩
    rw [List.getElem?_map, Option.map_eq_some_iff] at hcells
    rcases hcells with ⟨bucket', hbucket', rfl⟩
    rcases reconstruct_band h hbucket' hlocal with ⟨reading, hreading, hreadingRoute⟩
    rw [← hindex] at hreading
    have hdecode := (@decodeProgressive_ok layout _ _ _ _ hcode hplace _).mpr ⟨_, hbase, hreading⟩
    rcases hagrees reading hdecode with ⟨route, hdecision, hsame⟩
    rw [decodeDecision_ok hcode, hroute, Option.some.injEq] at hdecision
    rw [hreadingRoute, Except.ok.injEq, ← hdecision] at hsame
    have heq := route_injective h hbucket' hbucket hsame
    subst heq
    cases hbucket.symm.trans hbucket'
    omega
  . intro hinside reading hreading
    cases hcode : Zeckendorf.decode decision with
    | error e =>
      rw [decodeProgressive, hcode] at hreading
      cases hreading
    | ok code =>
      cases hplace : Zeckendorf.decode refine' with
      | error e =>
        rw [decodeProgressive, hcode, hplace] at hreading
        cases hreading
      | ok place =>
        rcases (decodeProgressive_ok hcode hplace).mp hreading with ⟨base, hbase, hreconstruct⟩
        rcases band_of_base h hbase with ⟨bucket, hbucket, rfl, hroute, hwidth⟩
        refine ⟨bucket.1, (decodeDecision_ok hcode).mpr hroute, ?_⟩
        rcases hinside code place _ _ hcode hplace hbase hwidth with hlocal | hbeyond
        . rcases reconstruct_band h hbucket hlocal with ⟨reading', hreading', hroute'⟩
          cases hreconstruct.symm.trans hreading'
          exact hroute'
        . -- no cell is there
          rw [SpiralLayout.reconstruct] at hreconstruct
          rcases Except.bind_eq_ok.mp hreconstruct with ⟨cell, hcell, _⟩
          have := (List.getElem?_eq_some_iff.mp (at_ok.mp hcell)).1
          rw [h.size] at hbeyond
          omega

end

/- A count from zero on. -/

def countLayout : SpiralLayout where
  node := "watch"
  parts := countParts
  fields := ["count"]
  radices := [2]
  routes := [some "quiet", some "busy"]
  bandBase := [0, 1]
  bandWidth := [1, 1]
  cellOf := [[0], [1]]
  size := 2

theorem build_countLayout
    : build countFlow "watch" = .ok countLayout := by
  with_unfolding_all rfl

theorem decodeProgressive_agrees_quiet
    : countLayout.decodeProgressive [true, true] [true, true] = .ok [("count", .int (-1))]
        ∧ ∀ reading, countLayout.decodeProgressive [true, true] [true, true] = .ok reading →
          ∃ route, countLayout.decodeDecision [true, true] = .ok route
            ∧ routeNode countPy countGraph "watch" reading = .ok route := by
  refine ⟨rfl, (decodeProgressive_agrees_iff build_countLayout [true, true] [true, true]).mpr ?_⟩
  intro code place base width hcode hplace hbase hwidth
  cases hcode
  cases hplace
  cases hbase
  cases hwidth
  exact .inl (by decide)

/-- The second place of a band with one cell is read as the first of the next band. -/
theorem progressive_contradicts
    : build countFlow "watch" = .ok countLayout
        ∧ countLayout.decodeDecision [true, true] = .ok (some "quiet")
        ∧ countLayout.decodeProgressive [true, true] [false, true, true] = .ok [("count", .int 1)]
        ∧ routeNode countPy countGraph "watch" [("count", .int 1)] = .ok (some "busy") :=
  ⟨build_countLayout, rfl, rfl, by with_unfolding_all rfl⟩

end Spiral
