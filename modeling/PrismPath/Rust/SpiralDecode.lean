import PrismPath.Lib.Process
import PrismPath.Rust.Spiral
import PrismPath.Telemetry.SpiralBands

/-!
This module contains for which codes the Rust decoder of the two part code answers as its decoder of the first part does,
and for which readings that the wire takes the code is written and read back.
-/

namespace Dict

variable {K V : Type} [DecidableEq K] [BEq K] [LawfulBEq K]

theorem sum_set (d : List (K × List V)) (k : K) (vs : List V)
    : ((set d k vs).map fun p => p.2.length).sum + ((d.lookup k).getD []).length
        =
      (d.map fun p => p.2.length).sum + vs.length := by
  induction d with
  | nil => simp [set]
  | cons p d ih =>
    rcases p with ⟨k', vs'⟩
    rw [set, lookup_cons_eq]
    split
    . simp only [List.map_cons, List.sum_cons, Option.getD_some]
      omega
    . simp only [List.map_cons, List.sum_cons]
      omega

/-- Each value is in one group. -/
theorem sum_group (kvs : List (K × V))
    : ((group kvs).map fun p => p.2.length).sum = kvs.length := by
  have hfold (d : List (K × List V))
      : ((kvs.foldl (fun d kv => set d kv.1 ((d.lookup kv.1).getD [] ++ [kv.2])) d).map fun p => p.2.length).sum
          = (d.map fun p => p.2.length).sum + kvs.length := by
    induction kvs generalizing d with
    | nil => rfl
    | cons kv kvs ih =>
      have hset := sum_set d kv.1 ((d.lookup kv.1).getD [] ++ [kv.2])
      rw [List.length_append, List.length_singleton] at hset
      rw [List.foldl_cons, ih, List.length_cons]
      omega
  rw [group, hfold]
  simp

omit [BEq K] [LawfulBEq K] in
theorem length_set_le (d : List (K × V)) (k : K) (v : V)
    : (set d k v).length ≤ d.length + 1 := by
  induction d with
  | nil => exact Nat.le_refl _
  | cons p d ih =>
    rcases p with ⟨k', v'⟩
    rw [set]
    split
    . simp
    . simp only [List.length_cons]
      omega

theorem length_group_le (kvs : List (K × V))
    : (group kvs).length ≤ kvs.length := by
  have hfold (d : List (K × List V))
      : (kvs.foldl (fun d kv => set d kv.1 ((d.lookup kv.1).getD [] ++ [kv.2])) d).length ≤ d.length + kvs.length := by
    induction kvs generalizing d with
    | nil => exact Nat.le_refl _
    | cons kv kvs ih =>
      have hset := length_set_le d kv.1 ((d.lookup kv.1).getD [] ++ [kv.2])
      have hrest := ih (set d kv.1 ((d.lookup kv.1).getD [] ++ [kv.2]))
      rw [List.foldl_cons, List.length_cons]
      omega
  have hall := hfold []
  rw [List.length_nil, Nat.zero_add] at hall
  exact hall

end Dict

namespace Rust

namespace SpiralPacking

open Rust.Quantizer Wire
open Spiral (bandBases exists_band getElem?_bandBases getElem?_flatten length_bandBases)

theorem lookup_positions {α : Type} [DecidableEq α] [BEq α] [LawfulBEq α] {xs : List α} {x : α} {i : ℕ} (h : (positions xs).lookup x = some i)
    : xs[i]? = some x := by
  have hmem := Dict.mem_of_lookup h
  rw [positions, List.mem_reverse] at hmem
  exact List.mem_zipIdx_iff_getElem?.mp hmem

theorem exists_position {α : Type} [BEq α] [LawfulBEq α] {xs : List α} {x : α} (h : x ∈ xs)
    : ∃ i, (positions xs).lookup x = some i := by
  rw [← Option.isSome_iff_exists, List.lookup_isSome_iff]
  rcases List.getElem?_of_mem h with ⟨i, hi⟩
  refine ⟨(x, i), ?_, by simp⟩
  rw [positions, List.mem_reverse]
  exact List.mem_zipIdx_iff_getElem?.mpr hi

/-- The bands of a layout, each with its route. -/
structure Banded (layout : SpiralLayout) (buckets : List (Option String × List (List ℕ))) : Prop where
  routes : layout.routes = buckets.map Prod.fst
  bandIndex : layout.bandIndex = positions layout.routes
  base : layout.bandBase = bandBases 0 ((buckets.map Prod.snd).map List.length)
  width : layout.bandWidth = (buckets.map Prod.snd).map List.length
  cellOf : layout.cellOf = (buckets.map Prod.snd).flatten
  nOf : layout.nOf = positions layout.cellOf
  nodup : layout.routes.Nodup
  routed : ∀ bucket ∈ buckets, ∀ cell ∈ bucket.2,
    ∃ reading, cellReading layout.parts layout.fields cell = some reading
      ∧ routeNode layout.graph layout.node reading = bucket.1
  small : layout.cellOf.length < 2 ^ 60
  bands : buckets.length < 2 ^ 60
  radices : List.Forall₂ (fun field radix => (layout.parts.lookup field).map FieldPartition.n = some radix) layout.fields
    layout.radices
  grid : ∃ cells, mixedRadixGray layout.radices = some cells ∧ ∀ cell ∈ cells, cell ∈ layout.cellOf

theorem length_walk (n : ℕ) (wheels : List Spiral.Wheel)
    : (Spiral.walk n wheels).length = n + 1 := by
  rw [Spiral.walk_eq, List.length_map, List.length_range]

theorem length_mixedRadixGray {radices : List ℕ} {cells : List (List ℕ)} (h : mixedRadixGray radices = some cells)
    : cells.length < 2 ^ 60 := by
  unfold mixedRadixGray at h
  split at h
  . cases h
    decide
  . dsimp only at h
    split at h
    . next hfits =>
      cases h
      rw [List.length_map, length_walk]
      unfold cellBytes at hfits
      omega
    . cases h

theorem new_banded {atomFields : String → List String} {parts : Partitions} {graph : Parser.Graph} {node : String}
    {layout : SpiralLayout} (h : new atomFields parts graph node = some (.ok layout))
    : layout.parts = parts ∧ (∀ field ∈ layout.fields, (parts.lookup field).isSome = true) ∧ layout.fields ≠ []
        ∧ ∃ buckets, Banded layout buckets := by
  unfold new at h
  simp only at h
  split at h
  . cases h
  . next hfields =>
    rcases Option.bind_eq_some_iff.mp h with ⟨radices, hradices, hrest⟩
    rcases Option.bind_eq_some_iff.mp hrest with ⟨cells, hcells, hrest⟩
    rcases Option.bind_eq_some_iff.mp hrest with ⟨routed, hrouted, hlayout⟩
    cases hlayout
    generalize hbuckets : (Dict.group routed).insertionSort
      (fun a b => routeRank (routeOrder graph node) a.1 ≤ routeRank (routeOrder graph node) b.1) = buckets
    have hperm : buckets.Perm (Dict.group routed) := hbuckets ▸ List.perm_insertionSort _ _
    have hwidths : buckets.map (fun bucket => bucket.2.length) = (buckets.map Prod.snd).map List.length := by
      rw [List.map_map]
      rfl
    have hcount : ((buckets.map Prod.snd).flatten).length = cells.length := by
      rw [List.length_flatten, ← hwidths, ← (hperm.map _).sum_eq.symm, Dict.sum_group]
      exact (Option.mapM_eq_some_iff.mp hrouted).length_eq.symm
    refine ⟨rfl, fun field hfield => ?_, by simpa using hfields, buckets, rfl, rfl, congrArg (bandBases 0) hwidths, hwidths, rfl, rfl, ?_,
      fun bucket hbucket cell hcell => ?_, ?_, ?_, Option.mapM_eq_some_iff.mp hradices, cells, hcells, fun cell hcell => ?_⟩
    . rw [nodeFields, List.mem_insertionSort, List.mem_dedup, List.mem_filter] at hfield
      exact hfield.2
    . exact (hperm.map Prod.fst).nodup_iff.mpr (Dict.nodup_group routed)
    . have hmem := (Dict.mem_of_mem_group (hperm.mem_iff.mp hbucket) cell).mp hcell
      rcases Quantizer.exists_of_forall₂ (Option.mapM_eq_some_iff.mp hrouted).flip hmem with ⟨cell', _, hroute⟩
      rcases Option.bind_eq_some_iff.mp hroute with ⟨route, hroute, hpair⟩
      cases hpair
      rcases Option.bind_eq_some_iff.mp hroute with ⟨reading, hreading, hsame⟩
      exact ⟨reading, hreading, Option.some.inj hsame⟩
    . show ((buckets.map Prod.snd).flatten).length < 2 ^ 60
      rw [hcount]
      exact length_mixedRadixGray hcells
    . have hgroup := Dict.length_group_le routed
      have hlength := (Option.mapM_eq_some_iff.mp hrouted).length_eq
      have hsmall := length_mixedRadixGray hcells
      rw [hperm.length_eq]
      omega
    . rcases Quantizer.exists_of_forall₂ (Option.mapM_eq_some_iff.mp hrouted) hcell with ⟨pair, hpair, hroute⟩
      rcases Option.bind_eq_some_iff.mp hroute with ⟨route, _, hsame⟩
      cases hsame
      have hgrouped := (Dict.lookup_group routed route).symm
      have hin : cell ∈ (routed.filter fun kv => kv.1 = route).map Prod.snd :=
        List.mem_map.mpr ⟨(route, cell), List.mem_filter.mpr ⟨hpair, decide_eq_true rfl⟩, rfl⟩
      rw [hgrouped] at hin
      cases hbucket : (Dict.group routed).lookup route with
      | none =>
        rw [hbucket] at hin
        cases hin
      | some bucket =>
        rw [hbucket] at hin
        have hmem := hperm.mem_iff.mpr (Dict.mem_of_lookup hbucket)
        exact List.mem_flatten.mpr ⟨bucket, List.mem_map.mpr ⟨(route, bucket), hmem, rfl⟩, hin⟩

section

variable {layout : SpiralLayout} {buckets : List (Option String × List (List ℕ))}

/- Decoding. -/

open SpiralLayout

theorem getElem?_base (h : Banded layout buckets) {band base : ℕ} (hbase : layout.bandBase[band]? = some base)
    : ∃ bucket, buckets[band]? = some bucket ∧ base = ((buckets.map Prod.snd).take band).flatten.length
        ∧ layout.routes[band]? = some bucket.1 ∧ layout.bandWidth[band]? = some bucket.2.length := by
  have hlt : band < buckets.length := by
    have hlength := (List.getElem?_eq_some_iff.mp hbase).1
    rw [h.base, length_bandBases, List.length_map, List.length_map] at hlength
    exact hlength
  have hbucket := List.getElem?_eq_getElem hlt
  rw [h.base, getElem?_bandBases 0 _ (by rw [List.length_map]; exact hlt), Nat.zero_add, Option.some.injEq] at hbase
  refine ⟨buckets[band], hbucket, hbase.symm, ?_, ?_⟩
  . rw [h.routes, List.getElem?_map, hbucket]
    rfl
  . rw [h.width, List.getElem?_map, List.getElem?_map, hbucket]
    rfl

theorem getElem?_bandBase (h : Banded layout buckets) {band : ℕ} {bucket : Option String × List (List ℕ)}
    (hbucket : buckets[band]? = some bucket)
    : layout.bandBase[band]? = some ((buckets.map Prod.snd).take band).flatten.length := by
  have hlt : band < (buckets.map Prod.snd).length := by
    rw [List.length_map]
    exact (List.getElem?_eq_some_iff.mp hbucket).1
  rw [h.base, getElem?_bandBases 0 _ hlt, Nat.zero_add]

/-- A band lies within the spiral. -/
theorem base_add_lt (h : Banded layout buckets) {band : ℕ} {bucket : Option String × List (List ℕ)}
    (hbucket : buckets[band]? = some bucket) {local' : ℕ} (hlocal : local' < bucket.2.length)
    : ((buckets.map Prod.snd).take band).flatten.length + local' < layout.cellOf.length := by
  have hcells : (buckets.map Prod.snd)[band]? = some bucket.2 := by
    rw [List.getElem?_map, hbucket]
    rfl
  have hcell := getElem?_flatten hcells hlocal
  rw [List.getElem?_eq_getElem hlocal, ← h.cellOf] at hcell
  exact (List.getElem?_eq_some_iff.mp hcell).1

/-- A cell of a band reconstructs to a reading that takes the route of the band. -/
theorem reconstruct_band (h : Banded layout buckets) {band : ℕ} {bucket : Option String × List (List ℕ)}
    (hbucket : buckets[band]? = some bucket) {local' : ℕ} (hlocal : local' < bucket.2.length)
    : ∃ reading, layout.reconstruct (((buckets.map Prod.snd).take band).flatten.length + local') = some reading
        ∧ routeNode layout.graph layout.node reading = bucket.1 := by
  have hcells : (buckets.map Prod.snd)[band]? = some bucket.2 := by
    rw [List.getElem?_map, hbucket]
    rfl
  have hcell := getElem?_flatten hcells hlocal
  rw [← h.cellOf, List.getElem?_eq_getElem hlocal] at hcell
  rcases h.routed bucket (List.mem_of_getElem? hbucket) _ (List.getElem_mem hlocal) with ⟨reading, hreading, hroute⟩
  refine ⟨reading, ?_, hroute⟩
  rw [SpiralLayout.reconstruct, hcell]
  exact hreading

/-- Two bands have different routes. -/
theorem route_injective (h : Banded layout buckets) {i j : ℕ} {a b : Option String × List (List ℕ)}
    (hi : buckets[i]? = some a) (hj : buckets[j]? = some b) (heq : a.1 = b.1)
    : i = j := by
  have hroutes := h.nodup
  rw [h.routes] at hroutes
  have hri : (buckets.map Prod.fst)[i]? = some a.1 := by
    rw [List.getElem?_map, hi]
    rfl
  have hrj : (buckets.map Prod.fst)[j]? = some a.1 := by
    rw [List.getElem?_map, hj, heq]
    rfl
  exact (List.getElem?_inj (List.getElem?_eq_some_iff.mp hri).1 hroutes).mp (hri.trans hrj.symm)

/-- The decoder returns, and a reading it returns takes the route that its first part stands for. -/
def Answers (layout : SpiralLayout) (decision refine' : List Bool) : Prop :=
  ∃ outcome, layout.decodeProgressive decision refine' = some outcome ∧
    ∀ reading, outcome = .ok reading → layout.decodeDecision decision =
      some (.ok (routeNode layout.graph layout.node reading))

/-- A part is no code, or the first is the number of a band, from one on, and the second that of a place in it. -/
def Inside (layout : SpiralLayout) (decision refine' : List Bool) : Prop :=
  (∃ error, decodePart decision = some (.error error)) ∨ (∃ error, decodePart refine' = some (.error error)) ∨
    ∃ code place width, decodePart decision = some (.ok code) ∧ decodePart refine' = some (.ok place) ∧
      layout.bandWidth[(code - 1).toNat]? = some width ∧ (place - 1).toNat < width

theorem exists_decodePart (bits : List Bool)
    : (∃ error, decodePart bits = some (.error error)) ∨ ∃ value, decodePart bits = some (.ok value) := by
  rcases FibonacciCode.exists_decode bits with ⟨outcome, houtcome⟩
  rw [decodePart, houtcome]
  cases outcome with
  | error code => exact .inl ⟨_, rfl⟩
  | ok value => exact .inr ⟨_, rfl⟩

/-- A code for a band is no zero, which would wrap to more than there are bands. -/
theorem decodeDecision_of_band (h : Banded layout buckets) {decision : List Bool} {code : UInt64}
    (hcode : decodePart decision = some (.ok code)) {bucket : Option String × List (List ℕ)}
    (hbucket : buckets[(code - 1).toNat]? = some bucket)
    : layout.decodeDecision decision = some (.ok bucket.1) := by
  have hroute : layout.routes[(code - 1).toNat]? = some bucket.1 := by
    rw [h.routes, List.getElem?_map, hbucket]
    rfl
  have hne : code ≠ 0 := by
    rintro rfl
    have hlt := (List.getElem?_eq_some_iff.mp hbucket).1
    have hbands := h.bands
    rw [show ((0 : UInt64) - 1).toNat = 2 ^ 64 - 1 by decide] at hlt
    omega
  rw [decodeDecision, hcode]
  simp only [Option.bind_eq_bind, Option.bind_some, if_neg hne, hroute]
  rfl

/-- The sum of a base and a place does not wrap into the spiral. -/
theorem toNat_base_add {base local' : ℕ} {place : UInt64} (h : base + local' < 2 ^ 60)
    : (UInt64.ofNat base + place).toNat = base + local' ↔ place.toNat = local' := by
  have hlt := place.toNat_lt
  rw [UInt64.toNat_add, UInt64.toNat_ofNat_of_lt' (show base < 2 ^ 64 by omega)]
  omega

theorem decodeProgressive_of_codes {decision refine' : List Bool} {code place : UInt64}
    (hcode : decodePart decision = some (.ok code)) (hplace : decodePart refine' = some (.ok place))
    : layout.decodeProgressive decision refine'
        =
      (layout.bandBase[(code - 1).toNat]?).bind fun base =>
        (layout.reconstruct (UInt64.ofNat base + (place - 1)).toNat).map .ok := by
  rw [decodeProgressive, hcode, hplace]
  simp only [Option.bind_eq_bind, Option.bind_some]
  cases layout.bandBase[(code - 1).toNat]? with
  | none => rfl
  | some base =>
    simp only [Option.bind_some]
    cases layout.reconstruct (UInt64.ofNat base + (place - 1)).toNat <;> rfl

theorem answers_iff_inside (h : Banded layout buckets) (decision refine' : List Bool)
    : Answers layout decision refine' ↔ Inside layout decision refine' := by
  rcases exists_decodePart decision with ⟨error, hdecision⟩ | ⟨code, hcode⟩
  . -- refused at the first part
    refine ⟨fun _ => .inl ⟨error, hdecision⟩, fun _ => ⟨.error error, ?_, fun _ heq => by cases heq⟩⟩
    rw [decodeProgressive, hdecision]
    rfl
  rcases exists_decodePart refine' with ⟨error, hrefine⟩ | ⟨place, hplace⟩
  . refine ⟨fun _ => .inr (.inl ⟨error, hrefine⟩), fun _ => ⟨.error error, ?_, fun _ heq => by cases heq⟩⟩
    rw [decodeProgressive, hcode, hrefine]
    rfl
  have hsmall := h.small
  constructor
  . rintro ⟨outcome, houtcome, hroute⟩
    refine .inr (.inr ⟨code, place, ?_⟩)
    rw [decodeProgressive_of_codes hcode hplace, Option.bind_eq_some_iff] at houtcome
    rcases houtcome with ⟨base, hbase, houtcome⟩
    rcases Option.map_eq_some_iff.mp houtcome with ⟨reading, hreading, rfl⟩
    rcases getElem?_base h hbase with ⟨bucket, hbucket, rfl, hroutes, hwidth⟩
    refine ⟨bucket.2.length, hcode, hplace, hwidth, ?_⟩
    -- the cell that is read is one of the band
    rcases Option.bind_eq_some_iff.mp hreading with ⟨cell, hcell, _⟩
    have hindex := (List.getElem?_eq_some_iff.mp hcell).1
    rw [h.cellOf] at hindex
    rcases exists_band hindex with ⟨later, cells, local', hcells, hlocal, heq⟩
    rw [List.getElem?_map, Option.map_eq_some_iff] at hcells
    rcases hcells with ⟨bucket', hbucket', rfl⟩
    rcases reconstruct_band h hbucket' hlocal with ⟨reading', hreading', hroute'⟩
    rw [← heq, hreading, Option.some.injEq] at hreading'
    have hsame := hroute reading rfl
    rw [decodeDecision_of_band h hcode hbucket, hreading', hroute'] at hsame
    simp only [Option.some.injEq, Except.ok.injEq] at hsame
    have hband := route_injective h hbucket hbucket' hsame
    subst hband
    cases hbucket.symm.trans hbucket'
    have hfits := base_add_lt h hbucket hlocal
    rw [(toNat_base_add (by omega)).mp heq]
    exact hlocal
  . rintro (⟨error, herror⟩ | ⟨error, herror⟩ | ⟨code', place', width, hcode', hplace', hwidth, hlocal⟩)
    . cases hcode.symm.trans herror
    . cases hplace.symm.trans herror
    . cases hcode.symm.trans hcode'
      cases hplace.symm.trans hplace'
      have hlt : (code - 1).toNat < buckets.length := by
        have hlength := (List.getElem?_eq_some_iff.mp hwidth).1
        rw [h.width, List.length_map, List.length_map] at hlength
        exact hlength
      have hbucket := List.getElem?_eq_getElem hlt
      rcases getElem?_base h (getElem?_bandBase h hbucket) with ⟨bucket, hbucket', hbase, _, hwidth'⟩
      cases hwidth.symm.trans hwidth'
      rcases reconstruct_band h hbucket' hlocal with ⟨reading, hreading, hroute⟩
      have hfits := base_add_lt h hbucket' hlocal
      refine ⟨.ok reading, ?_, fun reading' heq => ?_⟩
      . rw [decodeProgressive_of_codes hcode hplace, getElem?_bandBase h hbucket, Option.bind_some,
          (toNat_base_add (by omega)).mpr rfl, hreading]
        rfl
      . cases heq
        rw [decodeDecision_of_band h hcode hbucket', hroute]

/- Encoding. -/

/-- The symbol of each field, where the reading carries it and its partition takes it. -/
def Symbols (layout : SpiralLayout) (reading : Reading) : List String → List ℕ → Prop :=
  List.Forall₂ fun field symbol => ∃ value part, reading.lookup field = some value ∧ layout.parts.lookup field = some part
    ∧ part.checkedSymbol value = .ok symbol

/-- The code of the reading is written and read back. -/
def Encodes (layout : SpiralLayout) (reading : Reading) : Prop :=
  ∃ decision refine' reading', layout.tryEncodeProgressive reading = some (.ok (decision, refine'))
    ∧ layout.decodeProgressive decision refine' = some (.ok reading')

/-- The reading carries the fields of the node, and their cell is one that the layout was built with. -/
def Packable (layout : SpiralLayout) (reading : Reading) : Prop :=
  (∀ field ∈ layout.fields, (reading.lookup field).isSome = true) ∧
    ∀ cell, Symbols layout reading layout.fields cell → cell ∈ layout.cellOf

theorem tryCell_ok {reading : Reading} {fields : List String} {cell : List ℕ}
    : layout.tryCell reading fields = some (.ok cell) ↔ Symbols layout reading fields cell := by
  induction fields generalizing cell with
  | nil =>
    rw [Symbols, List.forall₂_nil_left_iff, SpiralLayout.tryCell]
    simp [eq_comm]
  | cons field fields ih =>
    rw [Symbols, List.forall₂_cons_left_iff, SpiralLayout.tryCell]
    cases hvalue : reading.lookup field with
    | none => simp
    | some value =>
      simp only [Option.bind_eq_bind]
      cases hpart : layout.parts.lookup field with
      | none => simp
      | some part =>
        simp only [Option.bind_some, FieldPartition.symbol]
        cases hsymbol : part.checkedSymbol value with
        | error error => simp [Except.mapError, hsymbol]
        | ok symbol =>
          simp only [Except.mapError]
          constructor
          . intro h
            rcases Option.bind_eq_some_iff.mp h with ⟨rest, hrest, hcell⟩
            cases rest with
            | error error => cases hcell
            | ok rest =>
              cases hcell
              exact ⟨symbol, rest, ⟨value, part, rfl, rfl, hsymbol⟩, ih.mp hrest, rfl⟩
          . rintro ⟨symbol', rest, ⟨value', part', hvalue', hpart', hsymbol'⟩, hrest, rfl⟩
            cases hvalue'
            cases hpart'
            cases hsymbol.symm.trans hsymbol'
            rw [ih.mpr hrest]
            rfl

theorem Symbols.unique {reading : Reading} {fields : List String} {cell cell' : List ℕ}
    (h : Symbols layout reading fields cell) (h' : Symbols layout reading fields cell')
    : cell = cell' := by
  rw [← tryCell_ok] at h h'
  cases h.symm.trans h'
  rfl

omit layout buckets in
/-- The first band whose end an index is below is the one it is in. -/
theorem find?_band {buckets : List (Option String × List (List ℕ))} {base n band : ℕ}
    {bucket : Option String × List (List ℕ)} (hbucket : buckets[band]? = some bucket)
    (hle : base + ((buckets.map Prod.snd).take band).flatten.length ≤ n)
    (hlt : n < base + ((buckets.map Prod.snd).take band).flatten.length + bucket.2.length)
    : ∃ ends, (((bandBases base ((buckets.map Prod.snd).map List.length)).zip
        ((buckets.map Prod.snd).map List.length)).zip (buckets.map Prod.fst)).find?
          (fun band => decide (n < band.1.1 + band.1.2)) = some (ends, bucket.1) := by
  induction buckets generalizing base band with
  | nil => cases hbucket
  | cons first buckets ih =>
    rw [List.map_cons, List.map_cons, bandBases, List.map_cons, List.zip_cons_cons, List.zip_cons_cons, List.find?_cons]
    cases band with
    | zero =>
      cases hbucket
      simp only [List.take_zero, List.flatten_nil, List.length_nil, Nat.add_zero] at hlt
      refine ⟨(base, bucket.2.length), ?_⟩
      rw [decide_eq_true hlt]
    | succ band =>
      rw [List.map_cons, List.take_succ_cons, List.flatten_cons, List.length_append] at hle hlt
      rw [decide_eq_false (by dsimp only; omega)]
      exact ih hbucket (by omega) (by omega)

/-- An index in a band is of the route of the band. -/
theorem tryRouteOf_band (h : Banded layout buckets) {band : ℕ} {bucket : Option String × List (List ℕ)}
    (hbucket : buckets[band]? = some bucket) {local' : ℕ} (hlocal : local' < bucket.2.length)
    : layout.tryRouteOf (((buckets.map Prod.snd).take band).flatten.length + local') = .ok bucket.1 := by
  rcases @find?_band buckets 0 (((buckets.map Prod.snd).take band).flatten.length + local') band bucket hbucket
    (by omega) (by omega) with ⟨ends, hfind⟩
  rw [tryRouteOf, h.base, h.width, h.routes, hfind]

theorem encodePart_succ {n : ℕ} (h : n < 2 ^ 60)
    : ∃ code, encodePart (UInt64.ofNat n + 1) = some (.ok code)
        ∧ decodePart code = some (.ok (UInt64.ofNat (n + 1))) := by
  rcases @FibonacciCode.decode_encode (n + 1) (by omega) (by omega) with ⟨code, hencode, hdecode⟩
  refine ⟨code, ?_, ?_⟩
  . rw [encodePart, show UInt64.ofNat n + 1 = UInt64.ofNat (n + 1) from (UInt64.ofNat_add n 1).symm, hencode]
    rfl
  . rw [decodePart, hdecode]
    rfl

theorem toNat_succ_sub_one {n : ℕ} (h : n < 2 ^ 60)
    : (UInt64.ofNat (n + 1) - 1).toNat = n := by
  have hadd : UInt64.ofNat (n + 1) = UInt64.ofNat n + 1 := UInt64.ofNat_add n 1
  rw [hadd, UInt64.add_sub_cancel, UInt64.toNat_ofNat_of_lt' (show n < 2 ^ 64 by omega)]

theorem encodes_of_cell (h : Banded layout buckets) {reading : Reading} {cell : List ℕ}
    (hsymbols : Symbols layout reading layout.fields cell) (hcell : cell ∈ layout.cellOf)
    : Encodes layout reading := by
  rcases exists_position hcell with ⟨spiralIndex, hposition⟩
  have hindex := (List.getElem?_eq_some_iff.mp (lookup_positions hposition)).1
  have hsmall := h.small
  have hbands := h.bands
  rw [h.cellOf] at hindex
  rcases exists_band hindex with ⟨band, cells, local', hcells, hlocal, rfl⟩
  rw [List.getElem?_map, Option.map_eq_some_iff] at hcells
  rcases hcells with ⟨bucket, hbucket, rfl⟩
  have hfits := base_add_lt h hbucket hlocal
  have hbandlt := (List.getElem?_eq_some_iff.mp hbucket).1
  have hroute : layout.routes[band]? = some bucket.1 := by
    rw [h.routes, List.getElem?_map, hbucket]
    rfl
  have hband : layout.bandIndex.lookup bucket.1 = some band := by
    rcases exists_position (List.mem_of_getElem? hroute) with ⟨band', hband'⟩
    have hsame := lookup_positions hband'
    rw [h.bandIndex, hband',
      (List.getElem?_inj (List.getElem?_eq_some_iff.mp hsame).1 h.nodup).mp (hsame.trans hroute.symm)]
  rcases @encodePart_succ band (by omega) with ⟨decision, hdecision, hcode⟩
  rcases @encodePart_succ local' (by omega) with ⟨refine', hrefine, hplace⟩
  rcases reconstruct_band h hbucket hlocal with ⟨reading', hreading, _⟩
  refine ⟨decision, refine', reading', ?_, ?_⟩
  . have htryIndex : layout.tryIndex reading
        = some (.ok (((buckets.map Prod.snd).take band).flatten.length + local')) := by
      rw [tryIndex, tryCell_ok.mpr hsymbols]
      simp only [Option.bind_eq_bind, Option.bind_some]
      rw [h.nOf, hposition]
      rfl
    rw [tryEncodeProgressive, htryIndex]
    simp only [Option.bind_eq_bind, Option.bind_some, tryRouteOf_band h hbucket hlocal, hband,
      getElem?_bandBase h hbucket]
    rw [FibonacciCode.checkedSub, if_pos (by omega), Nat.add_sub_cancel_left, Option.bind_some, hdecision, Option.bind_some,
      hrefine]
    rfl
  . rw [decodeProgressive_of_codes hcode hplace, toNat_succ_sub_one (by omega), getElem?_bandBase h hbucket,
      Option.bind_some, (toNat_base_add (by omega)).mpr (toNat_succ_sub_one (by omega)), hreading]
    rfl

theorem cell_of_encodes (h : Banded layout buckets) {reading : Reading} (hencodes : Encodes layout reading)
    : ∃ cell, Symbols layout reading layout.fields cell ∧ cell ∈ layout.cellOf := by
  rcases hencodes with ⟨decision, refine', reading', hencode, _⟩
  rcases Option.bind_eq_some_iff.mp hencode with ⟨index, hindex, hrest⟩
  cases index with
  | error error => cases hrest
  | ok spiralIndex =>
    rcases Option.bind_eq_some_iff.mp hindex with ⟨tried, htried, hlookup⟩
    cases tried with
    | error error => cases hlookup
    | ok cell =>
      refine ⟨cell, tryCell_ok.mp htried, ?_⟩
      simp only at hlookup
      split at hlookup
      . next position hposition =>
        rw [h.nOf] at hposition
        exact List.mem_of_getElem? (lookup_positions hposition)
      . cases hlookup

theorem isSome_of_symbols {reading : Reading} {fields : List String} {cell : List ℕ}
    (h : Symbols layout reading fields cell)
    : ∀ field ∈ fields, (reading.lookup field).isSome = true := by
  intro field hfield
  rcases Quantizer.exists_of_forall₂ h hfield with ⟨symbol, _, value, part, hvalue, _⟩
  rw [hvalue]
  rfl

theorem exists_symbols {reading : Reading} {fields : List String}
    (hparts : ∀ field ∈ fields, (layout.parts.lookup field).isSome = true)
    (hcarries : ∀ field ∈ fields, (reading.lookup field).isSome = true) {bits : List Bool}
    (haccepted : encodeReading layout.parts reading = some (.ok bits))
    : ∃ cell, Symbols layout reading fields cell := by
  induction fields with
  | nil => exact ⟨[], List.Forall₂.nil⟩
  | cons field fields ih =>
    rw [List.forall_mem_cons] at hparts hcarries
    rcases Option.isSome_iff_exists.mp hparts.1 with ⟨part, hpart⟩
    rcases Option.isSome_iff_exists.mp hcarries.1 with ⟨value, hvalue⟩
    rcases symbol_of_encoded haccepted hpart hvalue with ⟨symbol, hsymbol⟩
    rcases ih hparts.2 hcarries.2 with ⟨cell, hcell⟩
    exact ⟨symbol :: cell, List.Forall₂.cons ⟨value, part, hvalue, hpart, hsymbol⟩ hcell⟩

end

/- A grid that a word counts. -/

/-- The partitions of an undefined field: whatever its cells, of a number, a flag or a string. -/
inductive Inferred : FieldPartition → Prop
  | numeric (field : String) (cells : List Cell) : Inferred (.new field .numeric cells)
  | boolean (field : String) : Inferred (.new field .boolean [⟨none, none, none, .bool false⟩, ⟨none, none, none, .bool true⟩])
  | categorical (field : String) (cells : List Cell) : cells ≠ [] → Inferred (.new field .categorical cells)

/-- The partitions that are built for the fields of a flow. -/
inductive Built : FieldPartition → Prop
  | inferred {p : FieldPartition} : Inferred p → Built p
  | defined {p : FieldPartition} (definition : FieldDefinitions.FieldDefinition) : Inferred p → Built (p.defined definition)

theorem presentSymbol_lt {p : FieldPartition} {value : Kernel.Value} {symbol : ℕ} (hcells : p.presentCells ≤ p.cells.length)
    (hboolean : p.kind = .boolean → 2 ≤ p.presentCells) (hcategorical : p.kind = .categorical → 1 ≤ p.presentCells)
    (h : p.presentSymbol value = some symbol)
    : symbol < p.presentCells := by
  have hfound : ∀ (holds : Cell → Bool) i, (p.cells.take p.presentCells).findIdx? holds = some i → i < p.presentCells := by
    intro holds i hi
    have hlt := (List.findIdx?_eq_some_iff_getElem.mp hi).1
    rw [List.length_take] at hlt
    omega
  unfold FieldPartition.presentSymbol at h
  split at h
  . rcases Option.bind_eq_some_iff.mp h with ⟨number, _, hi⟩
    exact hfound _ _ hi
  . next hkind =>
    have htwo := hboolean hkind
    cases h
    split <;> omega
  . next hkind =>
    have hone := hcategorical hkind
    split at h
    . next text =>
      cases h
      cases hi : (p.cells.take p.presentCells).findIdx? fun cell => decide (cell.constVal = some text) with
      | none =>
        rw [Option.getD_none]
        omega
      | some i => exact hfound _ _ hi
    . cases h

/-- A partition has the cells that its symbols name. -/
structure Sized (p : FieldPartition) : Prop where
  n_eq : p.n = p.cells.length
  present : p.presentCells ≤ p.cells.length
  boolean : p.kind = .boolean → 2 ≤ p.presentCells
  categorical : p.kind = .categorical → 1 ≤ p.presentCells
  absent : ∀ symbol, p.absentSymbol = some symbol → symbol < p.n

theorem Inferred.sized {p : FieldPartition} (h : Inferred p)
    : Sized p := by
  cases h with
  | numeric field cells =>
    exact ⟨rfl, Nat.sub_le _ _, (fun hkind => by cases hkind), (fun hkind => by cases hkind), fun _ habsent => by cases habsent⟩
  | boolean field =>
    exact ⟨rfl, Nat.sub_le _ _, (fun _ => Nat.le_refl 2), (fun hkind => by cases hkind), fun _ habsent => by cases habsent⟩
  | categorical field cells hne =>
    refine ⟨rfl, Nat.sub_le _ _, (fun hkind => by cases hkind), (fun _ => ?_), fun _ habsent => by cases habsent⟩
    exact List.length_pos_iff.mpr hne

theorem Inferred.presentCells_eq {p : FieldPartition} (h : Inferred p)
    : p.presentCells = p.cells.length := by
  cases h <;> rfl

/-- The absent cell is one more than those of the present values. -/
theorem Inferred.presentCells_defined {p : FieldPartition} (h : Inferred p) (definition : FieldDefinitions.FieldDefinition)
    : (p.defined definition).presentCells = p.presentCells := by
  rw [h.presentCells_eq, FieldPartition.presentCells, FieldPartition.defined]
  cases definition.absentAllowed <;> simp

theorem Built.sized {p : FieldPartition} (h : Built p)
    : Sized p := by
  cases h with
  | inferred h => exact h.sized
  | @defined built definition h =>
    have hpresent := h.presentCells_defined definition
    have hcells : built.cells.length ≤ (built.defined definition).cells.length := by
      rw [FieldPartition.defined]
      cases definition.absentAllowed <;> simp
    refine ⟨rfl, ?_, ?_, ?_, ?_⟩
    . rw [hpresent, h.presentCells_eq]
      exact hcells
    . rw [hpresent]
      exact h.sized.boolean
    . rw [hpresent]
      exact h.sized.categorical
    . intro symbol habsent
      rw [FieldPartition.defined] at habsent ⊢
      cases hallowed : definition.absentAllowed with
      | false =>
        rw [hallowed] at habsent
        cases habsent
      | true =>
        simp only [hallowed, if_true, Option.some.injEq, List.length_append, List.length_singleton] at habsent ⊢
        omega

theorem Built.symbol_lt {p : FieldPartition} (h : Built p) {value : Kernel.Value} {symbol : ℕ}
    (hsymbol : p.checkedSymbol value = .ok symbol)
    : symbol < p.n := by
  have hsized := h.sized
  have hpresent : ∀ (canonical : Kernel.Value) {s : ℕ}, p.presentSymbol canonical = some s → s < p.n := by
    intro canonical s hs
    have hlt := presentSymbol_lt hsized.present hsized.boolean hsized.categorical hs
    have hle := hsized.present
    rw [hsized.n_eq]
    omega
  unfold FieldPartition.checkedSymbol at hsymbol
  split at hsymbol
  . next definition _ =>
    unfold FieldPartition.definedSymbol at hsymbol
    split at hsymbol
    . cases hsymbol
    . cases habsent : p.absentSymbol with
      | none =>
        rw [habsent] at hsymbol
        cases hsymbol
      | some s =>
        rw [habsent] at hsymbol
        cases hsymbol
        exact hsized.absent _ habsent
    . next canonical _ _ =>
      cases hs : p.presentSymbol canonical with
      | none =>
        rw [hs] at hsymbol
        cases hsymbol
      | some s =>
        rw [hs] at hsymbol
        cases hsymbol
        exact hpresent canonical hs
  . split at hsymbol
    . cases hsymbol
    . next converted _ =>
      cases hs : p.presentSymbol converted with
      | none =>
        rw [hs] at hsymbol
        cases hsymbol
      | some s =>
        rw [hs] at hsymbol
        cases hsymbol
        exact hpresent converted hs

/-- Where the total of the cells does not wrap, each cell of the grid is walked through. -/
theorem mem_mixedRadixGray {radices cell : List ℕ} (hne : radices ≠ []) (hprod : radices.prod < 2 ^ 64)
    (hcell : List.Forall₂ (fun digit radix => digit < radix) cell radices) {cells : List (List ℕ)}
    (hcells : mixedRadixGray radices = some cells)
    : cell ∈ cells := by
  have hgrid : Spiral.InGrid (radices.map Int.ofNat) (cell.map Int.ofNat) ∧ ∀ radix ∈ radices.map Int.ofNat, 1 ≤ radix := by
    clear hcells hprod hne
    induction hcell with
    | nil => exact ⟨List.Forall₂.nil, fun _ h => by cases h⟩
    | @cons digit radix cell radices hlt _ ih =>
      rw [List.map_cons, List.map_cons, List.forall_mem_cons]
      refine ⟨List.Forall₂.cons ⟨Int.natCast_nonneg digit, by simpa using hlt⟩ ih.1, ?_, ih.2⟩
      show (1 : ℤ) ≤ (radix : ℤ)
      omega
  have hwalk := ((Spiral.mixedRadixGray_hamiltonian hgrid.2).2.1 (cell.map Int.ofNat)).mpr hgrid.1
  have htotal : ((radices.map Int.ofNat).prod - 1).toNat = radices.prod - 1 := by
    have hcast : (radices.map Int.ofNat).prod = (radices.prod : ℤ) := (Nat.cast_list_prod radices).symm
    rw [hcast]
    omega
  rw [Spiral.mixedRadixGray, htotal] at hwalk
  rw [mixedRadixGray, if_neg hne] at hcells
  dsimp only at hcells
  split at hcells
  . cases hcells
    rw [Nat.mod_eq_of_lt hprod]
    refine List.mem_map.mpr ⟨_, hwalk, ?_⟩
    rw [List.map_map]
    exact List.map_id' cell
  . cases hcells

theorem Symbols.lt_radix {layout : SpiralLayout} {reading : Reading} {fields : List String} {cell radices : List ℕ}
    (h : Symbols layout reading fields cell)
    (hradices : List.Forall₂ (fun field radix => (layout.parts.lookup field).map FieldPartition.n = some radix) fields radices)
    (hbuilt : ∀ field part, layout.parts.lookup field = some part → Built part)
    : List.Forall₂ (fun digit radix => digit < radix) cell radices := by
  induction h generalizing radices with
  | nil =>
    cases hradices
    exact List.Forall₂.nil
  | cons hsymbol _ ih =>
    cases hradices with
    | cons hradix hrest =>
      rcases hsymbol with ⟨value, part, _, hpart, hchecked⟩
      rw [hpart, Option.map_some, Option.some.injEq] at hradix
      refine List.Forall₂.cons ?_ (ih hrest)
      rw [← hradix]
      exact (hbuilt _ part hpart).symbol_lt hchecked

/-- A reading that carries the fields has its cell in a layout whose grid a word counts. -/
theorem packable_of_carries {atomFields : String → List String} {parts : Partitions} {graph : Parser.Graph} {node : String}
    {layout : SpiralLayout} (hnew : new atomFields parts graph node = some (.ok layout))
    (hbuilt : ∀ field part, parts.lookup field = some part → Built part) (hprod : layout.radices.prod < 2 ^ 64)
    {reading : Reading} (hcarries : ∀ field ∈ layout.fields, (reading.lookup field).isSome = true)
    : Packable layout reading := by
  rcases new_banded hnew with ⟨rfl, _, hfields, buckets, h⟩
  refine ⟨hcarries, fun cell hsymbols => ?_⟩
  rcases h.grid with ⟨cells, hcells, hin⟩
  apply hin cell
  apply mem_mixedRadixGray _ hprod (hsymbols.lt_radix h.radices hbuilt) hcells
  intro hnil
  have hlength := h.radices.length_eq
  rw [hnil] at hlength
  exact hfields (List.length_eq_zero_iff.mp hlength)

/--
The two part code does what it is for where a part is refused or the two are a band and a place in it, and where the
reading that the wire accepts carries every field of the node and has one of the cells of the layout.
-/
theorem progressive_iff {atomFields : String → List String} {parts : Partitions} {graph : Parser.Graph} {node : String}
    {layout : SpiralLayout} (hnew : new atomFields parts graph node = some (.ok layout)) (decision refine' : List Bool)
    {reading : Reading} {bits : List Bool} (haccepted : encodeReading parts reading = some (.ok bits))
    : Answers layout decision refine' ∧ Encodes layout reading
        ↔
      Inside layout decision refine' ∧ Packable layout reading := by
  rcases new_banded hnew with ⟨rfl, hparts, _, buckets, h⟩
  rw [answers_iff_inside h]
  apply and_congr_right
  intro _
  constructor
  . intro hencodes
    rcases cell_of_encodes h hencodes with ⟨cell, hsymbols, hcell⟩
    refine ⟨isSome_of_symbols hsymbols, fun cell' hsymbols' => ?_⟩
    rw [← hsymbols.unique hsymbols']
    exact hcell
  . rintro ⟨hcarries, hcells⟩
    rcases exists_symbols hparts hcarries haccepted with ⟨cell, hsymbols⟩
    exact encodes_of_cell h hsymbols (hcells cell hsymbols)

/- A node that asks for one flag. -/

def watchGraph : Parser.Graph where
  name := "watch"
  start := "watch"
  nodes := [{ name := "watch", edges := [⟨"busy", "when flag"⟩, ⟨"quiet", "else"⟩] }]
  nodup := by decide

def watchParts : Partitions :=
  [("flag", .new "flag" .boolean [⟨none, none, none, .bool false⟩, ⟨none, none, none, .bool true⟩])]

def watchLayout : SpiralLayout where
  graph := watchGraph
  node := "watch"
  parts := watchParts
  fields := ["flag"]
  radices := [2]
  routes := [some "quiet", some "busy"]
  bandIndex := [(some "busy", 1), (some "quiet", 0)]
  bandBase := [0, 1]
  bandWidth := [1, 1]
  cellOf := [[0], [1]]
  nOf := [([1], 1), ([0], 0)]
  size := 2

theorem new_watchLayout
    : new (fun condition => if condition = "when flag" then ["flag"] else []) watchParts watchGraph "watch"
        =
      some (.ok watchLayout) := by
  with_unfolding_all rfl

theorem encodeReading_watch
    : encodeReading watchParts [("flag", .bool true)] = some (.ok [false, true, true]) := by
  with_unfolding_all rfl

theorem progressive_watch
    : Answers watchLayout [false, true, true] [true, true] ∧ Encodes watchLayout [("flag", .bool true)] := by
  apply (progressive_iff new_watchLayout [false, true, true] [true, true] encodeReading_watch).mpr
  refine ⟨.inr (.inr ⟨2, 1, 1, by with_unfolding_all rfl, by with_unfolding_all rfl, by rfl, by decide⟩), ?_⟩
  apply packable_of_carries new_watchLayout _ (by decide)
  . decide
  . intro field part hpart
    rw [watchParts, List.lookup_cons] at hpart
    split at hpart
    . cases hpart
      exact .inferred (.boolean "flag")
    . cases hpart

/-- A third band, where there are two. -/
theorem decodeProgressive_panics
    : new (fun condition => if condition = "when flag" then ["flag"] else []) watchParts watchGraph "watch"
          = some (.ok watchLayout)
        ∧ watchLayout.decodeProgressive [false, false, true, true] [true, true] = none :=
  ⟨new_watchLayout, by with_unfolding_all rfl⟩

end SpiralPacking

end Rust
