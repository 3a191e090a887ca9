import PrismPath.Telemetry.FibonacciWire
import PrismPath.Telemetry.QuantizerLemmas

/-!
This module contains what comes back from the wire: the representatives of the cells a reading is in, and when they are
taken for the same cells again.
-/

open Python

namespace Quantizer

open Predicates LevelM Parser FieldDefinitions

/-- The integers that are accepted for a numeric field. -/
def Accepts (p : FieldPartition) (w : ℤ) : Prop :=
  match p.definition with
  | some d => d.minimum ≤ w ∧ w ≤ d.maximum
  | none => -safeIntegerLimit < w ∧ w < safeIntegerLimit

section

variable {py : Runtime} {atoms : List Atom} {p : FieldPartition}

/- One field. -/

theorem kind_of_definition (h : Built py atoms p) {d : FieldDefinition} (hd : p.definition = some d)
    : kindOfDefinition d.kind = p.kind :=
  (h.kind d hd).symm

theorem acceptCanonical_int {d : FieldDefinition} (hkind : kindOfDefinition d.kind = .numeric) (w : ℤ)
    : acceptCanonical d (.int w) = if d.minimum ≤ w ∧ w ≤ d.maximum then .ok (.int w) else .error .outOfRange := by
  rw [acceptCanonical]
  . cases hd : d.kind with
    | int | fixed => rfl
    | bool | category =>
      rw [hd] at hkind
      cases hkind
  . simp

/-- An integer has a cell if it is accepted. -/
theorem symbol_int (h : Built py atoms p) (hkind : p.kind = .numeric) {w : ℤ} (haccepts : Accepts p w)
    : p.symbol (.int w) = p.inferredSymbol (.int w) := by
  rw [Accepts] at haccepts
  rw [FieldPartition.symbol]
  cases hd : p.definition with
  | some d =>
    rw [hd] at haccepts
    dsimp only at haccepts ⊢
    rw [FieldPartition.definedSymbol, acceptCanonical_int ((kind_of_definition h hd).trans hkind), if_pos haccepts]
    dsimp only
    rw [if_neg (by rw [hkind]; decide)]
  | none =>
    rw [hd] at haccepts
    dsimp only at haccepts ⊢
    rw [hkind, acceptValue, acceptInteger, if_pos haccepts]

theorem symbol_int_refused (h : Built py atoms p) (hkind : p.kind = .numeric) {w : ℤ} (haccepts : ¬ Accepts p w)
    : p.symbol (.int w) = .error (.refused p.field .outOfRange (.int w)) := by
  rw [Accepts] at haccepts
  rw [FieldPartition.symbol]
  cases hd : p.definition with
  | some d =>
    rw [hd] at haccepts
    dsimp only at haccepts ⊢
    rw [FieldPartition.definedSymbol, acceptCanonical_int ((kind_of_definition h hd).trans hkind), if_neg haccepts]
  | none =>
    rw [hd] at haccepts
    dsimp only at haccepts ⊢
    rw [hkind, acceptValue, acceptInteger, if_neg haccepts]

/-- The cell of an integer, and the integer that stands for it there. -/
theorem inferredSymbol_int (h : Built py atoms p) (hkind : p.kind = .numeric) (n : ℤ)
    : ∃ s w, p.inferredSymbol (.int n) = .ok s ∧ p.representative s = .ok (.int w) ∧ p.inferredSymbol (.int w) = .ok s
        ∧ FloorOf py atoms n w ∧ truths atoms w = truths atoms n := by
  rcases h.numeric hkind with ⟨cuts, hcuts, hcells⟩
  rcases pairwise_cutPoints cuts.flatten with ⟨c, cs, hpoints, hpairs, _⟩
  have huniform : ∀ i ∈ IntSpan.cutAt (c :: cs), ∀ m, i.contains m = true → truths atoms m = truths atoms i.rep := by
    intro i hi m hm
    have hrep := (IntSpan.tiles_cutAt hpairs).contains_rep hi
    rw [← hpoints] at hi
    exact truths_uniform h.scalar hcuts hi hm hrep
  rcases IntSpan.cells_found hpairs huniform n with ⟨k, cell, hfound, hrep, hfloor⟩
  rw [hpoints] at hcells
  have hindex (m : ℤ) (hm : cell.contains m = true) : p.inferredSymbol (.int m) = .ok k := by
    rw [FieldPartition.inferredSymbol, hkind]
    dsimp only [numericView]
    rw [hcells, findIdx?_numeric (hfound.index m hm)]
  refine ⟨k, cell.rep, hindex n hfound.mem, ?_, hindex _ hrep, ⟨cuts, hcuts, ?_⟩, hfound.same _ hrep⟩
  . have hget : p.cells[k]? = some (.numeric cell) := by
      rw [hcells, List.getElem?_append_left, List.getElem?_map, hfound.get]
      . rfl
      . rw [List.length_map]
        exact (List.getElem?_eq_some_iff.mp hfound.get).1
    rw [FieldPartition.representative, hget]
    rfl
  . rw [hpoints]
    exact hfloor

/-- What a value that is there is accepted as, on a field of each kind. -/
inductive AcceptedAs (v : Value) : Kind → Value → Prop
  | numeric {n : ℤ} (h : numericView v = some n) : AcceptedAs v .numeric (.int n)
  | boolean (b : Bool) (h : v.truthy = b) : AcceptedAs v .boolean (.bool b)
  | categorical {s : String} (h : v = .str s) : AcceptedAs v .categorical (.str s)

theorem acceptValue_ok {kind : Kind} {v c : Value} (h : acceptValue kind v = .ok c)
    : AcceptedAs v kind c := by
  have hinteger {n : ℤ} (hn : acceptInteger n = .ok c) : c = .int n := by
    rw [acceptInteger] at hn
    split at hn <;> cases hn
    rfl
  unfold acceptValue at h
  split at h
  . cases h
  . cases h
    exact .numeric rfl
  . rw [hinteger h]
    exact .numeric rfl
  . next x =>
    split at h
    next q hq =>
      split at h
      next hden =>
        rw [hinteger h]
        refine .numeric ?_
        simp only [numericView, hq, if_pos hden]
      next => cases h
    next => cases h
  . cases h
  . cases h
    exact .boolean _ rfl
  . split at h
    . cases h
      exact .boolean _ rfl
    . cases h
  . cases h
    exact .categorical rfl
  . cases h

theorem numericView_of_integerOf {v : Value} {n : ℤ} (h : integerOf v = .ok n)
    : numericView v = some n := by
  unfold integerOf at h
  split at h
  . cases h
    rfl
  . split at h
    next q hq =>
      split at h
      next hden =>
        cases h
        simp only [numericView, hq, if_pos hden]
      next => cases h
    next => cases h
  . cases h

theorem acceptCanonical_ok {d : FieldDefinition} {v c : Value} (hv : v ≠ .none) (h : acceptCanonical d v = .ok c)
    : AcceptedAs v (kindOfDefinition d.kind) c := by
  rw [acceptCanonical] at h
  . cases hd : d.kind with
    | bool =>
      rw [hd] at h
      dsimp only at h
      split at h
      next hbool =>
        cases h
        cases v with
        | bool b => exact .boolean b rfl
        | _ => cases hbool
      next => cases h
    | category =>
      rw [hd] at h
      dsimp only at h
      split at h
      next hstr =>
        cases h
        cases v with
        | str s => exact .categorical rfl
        | _ => cases hstr
      next => cases h
    | int | fixed =>
      rw [hd] at h
      rcases Except.bind_eq_ok.mp h with ⟨n, hn, hrange⟩
      split at hrange
      next =>
        cases hrange
        exact .numeric (numericView_of_integerOf hn)
      next => cases hrange
  . exact hv

/-- The cell of the canonical value. -/
def canonicalSymbol (p : FieldPartition) (c : Value) : Except Failure ℕ :=
  if p.definition.isSome ∧ p.kind = .categorical then
    p.namedSymbol fun cell => cell.const?.any fun const => Value.eq (.str const) c
  else
    p.inferredSymbol c

theorem symbol_canonical (h : Built py atoms p) {v : Value} (hv : v ≠ .none) {s : ℕ} (hs : p.symbol v = .ok s)
    : ∃ c, AcceptedAs v p.kind c ∧ canonicalSymbol p c = .ok s := by
  rw [FieldPartition.symbol] at hs
  cases hd : p.definition with
  | some d =>
    rw [hd] at hs
    dsimp only at hs
    rw [FieldPartition.definedSymbol] at hs
    split at hs
    . cases hs
    . next heq =>
      have hcanonical := acceptCanonical_ok hv heq
      generalize kindOfDefinition d.kind = kind at hcanonical
      cases hcanonical
    . next c _ heq =>
      have hcanonical := acceptCanonical_ok hv heq
      rw [kind_of_definition h hd] at hcanonical
      refine ⟨c, hcanonical, ?_⟩
      rw [canonicalSymbol, hd]
      simpa using hs
  | none =>
    rw [hd] at hs
    dsimp only at hs
    split at hs
    . cases hs
    . next c heq =>
      refine ⟨c, acceptValue_ok heq, ?_⟩
      rw [canonicalSymbol, hd]
      simpa using hs

theorem representative_absent {s : ℕ} (hs : p.symbol .none = .ok s)
    : p.representative s = .ok .none := by
  rw [FieldPartition.symbol] at hs
  cases hd : p.definition with
  | none =>
    rw [hd] at hs
    cases hs
  | some d =>
    rw [hd] at hs
    dsimp only at hs
    rw [FieldPartition.definedSymbol, acceptCanonical] at hs
    split at hs
    . cases hs
    . next heq =>
      split at hs
      next symbol hsymbol =>
        cases hs
        rw [FieldPartition.absentSymbol] at hsymbol
        split at hsymbol
        next hlast =>
          cases hsymbol
          rw [List.getLast?_eq_getElem?] at hlast
          rw [FieldPartition.representative, hlast]
          rfl
        next => cases hsymbol
      next => cases hs
    . next canonical hne heq =>
      split at heq
      . cases heq
        exact absurd rfl hne
      . cases heq

theorem boolean_stable (h : Built py atoms p) (hkind : p.kind = .boolean) {v : Value} (hv : v ≠ .none) {s : ℕ}
    (hs : p.symbol v = .ok s)
    : ∃ rep, p.representative s = .ok rep ∧ p.symbol rep = .ok s := by
  rcases symbol_canonical h hv hs with ⟨c, hc, hsymbol⟩
  rw [hkind] at hc
  cases hc with
  | boolean b _ =>
    have hinferred : p.inferredSymbol (.bool b) = .ok (if b then 1 else 0) := by
      rw [FieldPartition.inferredSymbol, hkind]
      rfl
    rw [canonicalSymbol, if_neg (by simp [hkind]), hinferred, Except.ok.injEq] at hsymbol
    subst hsymbol
    refine ⟨.bool b, ?_, ?_⟩
    . rw [FieldPartition.representative, h.boolean hkind]
      cases b <;> rfl
    . rw [FieldPartition.symbol]
      cases hd : p.definition with
      | some d =>
        have hdkind := (kind_of_definition h hd).trans hkind
        have haccept : acceptCanonical d (.bool b) = .ok (.bool b) := by
          rw [acceptCanonical]
          . cases hdk : d.kind with
            | bool => rfl
            | int | fixed | category =>
              rw [hdk] at hdkind
              cases hdkind
          . simp
        dsimp only
        rw [FieldPartition.definedSymbol, haccept]
        dsimp only
        rw [if_neg (by rw [hkind]; decide), hinferred]
      | none =>
        dsimp only
        rw [hkind, acceptValue]
        exact hinferred

theorem strEq (s t : String)
    : Value.eq (.str s) (.str t) = decide (s = t) := by
  simp [Value.eq, Value.scalarEq]

/-- Whether a cell is that of a string that the flow names. -/
def named (s : String) (cell : Cell) : Bool :=
  cell.const? = some s

theorem findIdx?_congr {α : Type} {f g : α → Bool} {as : List α} (h : ∀ a ∈ as, f a = g a)
    : as.findIdx? f = as.findIdx? g := by
  induction as with
  | nil => rfl
  | cons a as ih =>
    rw [List.forall_mem_cons] at h
    rw [List.findIdx?_cons, List.findIdx?_cons, h.1, ih h.2]

theorem symbol_str (h : Built py atoms p) (hkind : p.kind = .categorical) (t : String)
    : p.symbol (.str t) = p.namedSymbol (named t) := by
  rw [FieldPartition.symbol]
  cases hd : p.definition with
  | some d =>
    have hdkind := (kind_of_definition h hd).trans hkind
    have haccept : acceptCanonical d (.str t) = .ok (.str t) := by
      rw [acceptCanonical]
      . cases hdk : d.kind with
        | category => rfl
        | int | fixed | bool =>
          rw [hdk] at hdkind
          cases hdkind
      . simp
    dsimp only
    rw [FieldPartition.definedSymbol, haccept]
    dsimp only
    rw [if_pos hkind]
    congr 1
    funext cell
    cases cell <;> simp [named, Cell.const?, strEq]
  | none =>
    have hcells := h.categorical hkind
    rw [hd] at hcells
    dsimp only
    rw [hkind, acceptValue]
    dsimp only
    rw [FieldPartition.inferredSymbol, hkind]
    dsimp only
    rw [FieldPartition.namedSymbol, FieldPartition.namedSymbol]
    congr 1
    -- without a cell for absence every cell has a constant
    refine findIdx?_congr fun cell hcell => ?_
    rw [hcells] at hcell
    simp only [absentCells, Option.any_none, Bool.false_eq_true, if_false, List.append_nil, List.mem_append,
      List.mem_map, List.mem_singleton] at hcell
    rcases hcell with ⟨const, _, rfl⟩ | rfl <;> simp [named, Cell.const?, strEq]

theorem representative_named {t : String} {s : ℕ} (h : p.cells.findIdx? (named t) = some s)
    : p.representative s = .ok (.str t) := by
  rcases List.findIdx?_eq_some_iff_getElem.mp h with ⟨hlt, hnamed, _⟩
  rw [FieldPartition.representative, List.getElem?_eq_getElem hlt]
  cases hcell : p.cells[s] with
  | categorical const =>
    rw [hcell] at hnamed
    simp only [named, Cell.const?, Option.some.injEq, decide_eq_true_eq] at hnamed
    rw [hnamed]
    rfl
  | _ =>
    rw [hcell] at hnamed
    simp [named, Cell.const?] at hnamed

theorem categorical_stable (h : Built py atoms p) (hkind : p.kind = .categorical) {v : Value} (hv : v ≠ .none) {s : ℕ}
    (hs : p.symbol v = .ok s)
    : ∃ rep, p.representative s = .ok rep ∧ p.symbol rep = .ok s := by
  rcases symbol_canonical h hv hs with ⟨c, hc, _⟩
  rw [hkind] at hc
  cases hc with
  | @categorical t ht =>
    subst ht
    have hnamed := hs
    rw [symbol_str h hkind, FieldPartition.namedSymbol] at hnamed
    split at hnamed
    next symbol hfound =>
      cases hnamed
      exact ⟨.str t, representative_named hfound, hs⟩
    next =>
      -- a string the flow does not name comes back as the one that stands for all of them
      rw [FieldPartition.otherSymbol] at hnamed
      split at hnamed
      next symbol hfound =>
        cases hnamed
        have hother : p.cells.findIdx? (named otherCell) = some s := hfound
        refine ⟨.str otherCell, representative_named hother, ?_⟩
        rw [symbol_str h hkind, FieldPartition.namedSymbol, hother]
      next => cases hnamed

/-- What comes back for one field, and when it gets the same symbol again. -/
theorem representative_stable (h : Built py atoms p) {v : Value} {s : ℕ} (hs : p.symbol v = .ok s)
    : ∃ rep, p.representative s = .ok rep
        ∧ (p.symbol rep = .ok s ↔
          (p.kind = .numeric → ∀ n w, numericView v = some n → FloorOf py atoms n w → Accepts p w)) := by
  by_cases hv : v = .none
  . subst hv
    refine ⟨.none, representative_absent hs, iff_of_true hs fun _ n w hview _ => ?_⟩
    cases hview
  . cases hkind : p.kind with
    | numeric =>
      rcases symbol_canonical h hv hs with ⟨c, hc, hsymbol⟩
      rw [hkind] at hc
      cases hc with
      | @numeric n hn =>
        rw [canonicalSymbol, if_neg (by simp [hkind])] at hsymbol
        rcases inferredSymbol_int h hkind n with ⟨s', w, hs', hrep, hback, hfloor, _⟩
        cases hsymbol.symm.trans hs'
        refine ⟨.int w, hrep, fun hagain _ n' w' hn' hfloor' => ?_, fun haccepts => ?_⟩
        . cases hn.symm.trans hn'
          rw [hfloor'.unique hfloor]
          by_contra hnot
          rw [symbol_int_refused h hkind hnot] at hagain
          cases hagain
        . rw [symbol_int h hkind (haccepts rfl n w hn hfloor)]
          exact hback
    | boolean =>
      rcases boolean_stable h hkind hv hs with ⟨rep, hrep, hagain⟩
      exact ⟨rep, hrep, iff_of_true hagain nofun⟩
    | categorical =>
      rcases categorical_stable h hkind hv hs with ⟨rep, hrep, hagain⟩
      exact ⟨rep, hrep, iff_of_true hagain nofun⟩

end

/- A whole reading. -/

theorem raising_ok {α : Type} {x : Except Error α} {a : α} (h : raising x = .ok a)
    : x = .ok a := by
  cases x with
  | ok b =>
    cases h
    rfl
  | error e => cases h

/-- The symbols of a reading, one for each of some fields. -/
def Symbols (reading : Reading) (parts : Partitions) (syms : List ℕ) : Prop :=
  List.Forall₂ (fun p s => checkedSymbol p.2 (reading.lookup p.1) = .ok s) parts syms

/-- The values that stand for symbols. -/
def Values (parts : Partitions) (syms : List ℕ) (decoded : Reading) : Prop :=
  List.Forall₂ (fun p v => v.1 = p.1.1 ∧ p.1.2.representative p.2 = .ok v.2) (parts.zip syms) decoded

theorem checkedSymbol_ok {p : FieldPartition} {value : Option Value} {s : ℕ} (h : checkedSymbol p value = .ok s)
    : p.symbol (value.getD .none) = .ok s := by
  rw [checkedSymbol] at h
  split at h
  . cases h
  . exact h

theorem checkedSymbol_some (p : FieldPartition) (v : Value)
    : checkedSymbol p (some v) = p.symbol v := by
  rw [checkedSymbol]
  simp

theorem encodeReading_ok {parts : Partitions} {reading : Reading} {bits : List Bool}
    : encodeReading parts reading = .ok bits ↔ ∃ syms, Symbols reading (order parts) syms
        ∧ Zeckendorf.encodeStream (syms.map fun symbol : ℕ => (symbol : ℤ) + 1) = .ok bits := by
  rw [encodeReading, Except.bind_eq_ok]
  constructor
  . rintro ⟨syms, hsyms, hbits⟩
    exact ⟨syms, Except.mapM_eq_ok_iff.mp hsyms, raising_ok hbits⟩
  . rintro ⟨syms, hsyms, hbits⟩
    exact ⟨syms, Except.mapM_eq_ok_iff.mpr hsyms, by rw [hbits]; rfl⟩

theorem decodeStream_symbols {syms : List ℕ} {bits : List Bool}
    (h : Zeckendorf.encodeStream (syms.map fun symbol : ℕ => (symbol : ℤ) + 1) = .ok bits)
    : Zeckendorf.decodeStream bits = .ok (syms.map (· + 1)) := by
  have hdecode := Zeckendorf.decodeStream_encodeStream h 0
  rw [List.replicate_zero, List.append_nil, List.map_map] at hdecode
  exact hdecode

theorem symbols_unique {syms syms' : List ℕ} {bits : List Bool}
    (h : Zeckendorf.encodeStream (syms.map fun symbol : ℕ => (symbol : ℤ) + 1) = .ok bits)
    (h' : Zeckendorf.encodeStream (syms'.map fun symbol : ℕ => (symbol : ℤ) + 1) = .ok bits)
    : syms = syms' := by
  have heq := (decodeStream_symbols h).symm.trans (decodeStream_symbols h')
  rw [Except.ok.injEq] at heq
  exact List.map_injective_iff.mpr (fun a b hab => Nat.succ.inj hab) heq

theorem perm_order (parts : Partitions)
    : (order parts).Perm parts :=
  List.perm_insertionSort _ parts

theorem nodup_order {parts : Partitions} (h : (parts.map Prod.fst).Nodup)
    : ((order parts).map Prod.fst).Nodup :=
  ((perm_order parts).map Prod.fst).nodup_iff.mpr h

theorem reconstruct_ok {parts : Partitions} {syms : List ℕ} {decoded : Reading} (h : Values parts syms decoded)
    : reconstruct parts (syms.map (· + 1)) = .ok decoded := by
  rw [reconstruct, Except.mapM_eq_ok_iff, List.zip_map_right, List.forall₂_map_left_iff]
  refine h.imp fun p v hv => ?_
  rcases hv with ⟨hkey, hrep⟩
  rcases v with ⟨k, v⟩
  dsimp only at hkey hrep
  dsimp only [Prod.map_fst, Prod.map_snd, id_eq]
  rw [Nat.add_sub_cancel, hrep, hkey]
  rfl

theorem decodeReading_ok {parts : Partitions} {syms : List ℕ} {bits : List Bool} {decoded : Reading}
    (hbits : Zeckendorf.encodeStream (syms.map fun symbol : ℕ => (symbol : ℤ) + 1) = .ok bits)
    (hlength : syms.length = parts.length) (hvalues : Values (order parts) syms decoded)
    : decodeReading parts bits = .ok decoded := by
  rw [decodeReading, Except.bind_eq_ok]
  refine ⟨_, by rw [decodeStream_symbols hbits]; rfl, ?_⟩
  rw [if_pos (by rw [List.length_map, hlength])]
  exact reconstruct_ok hvalues

theorem exists_mem_zip {α β : Type} {as : List α} {bs : List β} (h : as.length = bs.length) {a : α} (ha : a ∈ as)
    : ∃ b, (a, b) ∈ as.zip bs := by
  rcases List.mem_iff_getElem.mp ha with ⟨i, hi, rfl⟩
  refine ⟨bs[i], List.mem_iff_getElem.mpr ⟨i, ?_, ?_⟩⟩
  . rw [List.length_zip]
    omega
  . exact List.getElem_zip

theorem keys_of_values {parts : Partitions} {syms : List ℕ} {decoded : Reading} (hlength : parts.length = syms.length)
    (h : Values parts syms decoded)
    : decoded.map Prod.fst = parts.map Prod.fst := by
  have hfirst : (parts.zip syms).map (fun q => q.1.1) = parts.map Prod.fst := by
    conv_rhs => rw [← List.map_fst_zip (show parts.length ≤ syms.length by omega), List.map_map]
    rfl
  rw [← hfirst]
  rw [Values] at h
  generalize parts.zip syms = qs at h
  induction h with
  | nil => rfl
  | cons hv _ ih => rw [List.map_cons, List.map_cons, hv.1, ih]

theorem exists_values {parts : Partitions} {syms : List ℕ}
    (h : ∀ q ∈ parts.zip syms, ∃ rep, q.1.2.representative q.2 = .ok rep)
    : ∃ decoded, Values parts syms decoded := by
  rw [show Values parts syms = fun decoded => List.Forall₂ _ (parts.zip syms) decoded from rfl]
  generalize parts.zip syms = qs at h
  induction qs with
  | nil => exact ⟨[], List.Forall₂.nil⟩
  | cons q qs ih =>
    rw [List.forall_mem_cons] at h
    rcases h.1 with ⟨rep, hrep⟩
    rcases ih h.2 with ⟨decoded, hdecoded⟩
    exact ⟨(q.1.1, rep) :: decoded, List.Forall₂.cons ⟨rfl, hrep⟩ hdecoded⟩

/-- What one field of a reading comes back as. -/
structure Back (reading decoded : Reading) (p : String × FieldPartition) (s : ℕ) (rep : Value) : Prop where
  symbol : p.2.symbol (reading.ctx p.1) = .ok s
  representative : p.2.representative s = .ok rep
  lookup : decoded.lookup p.1 = some rep

theorem back_of_values {parts : Partitions} (hnodup : (parts.map Prod.fst).Nodup) {reading decoded : Reading}
    {syms : List ℕ} (hsyms : Symbols reading parts syms) (hvalues : Values parts syms decoded)
    {q : (String × FieldPartition) × ℕ} (hq : q ∈ parts.zip syms)
    : ∃ rep, Back reading decoded q.1 q.2 rep := by
  rcases List.forall₂_iff_zip.mp hsyms with ⟨hlength, hall⟩
  rcases exists_of_forall₂ hvalues hq with ⟨⟨k, rep⟩, hmem, hkey, hrep⟩
  refine ⟨rep, checkedSymbol_ok (hall hq), hrep, ?_⟩
  dsimp only at hkey
  rw [← hkey]
  refine Dict.lookup_of_mem ?_ hmem
  rw [keys_of_values hlength hvalues]
  exact hnodup

theorem symbols_of_back {parts : Partitions} {reading decoded : Reading} {syms : List ℕ}
    (hlength : parts.length = syms.length)
    (hback : ∀ q ∈ parts.zip syms, ∃ rep, Back reading decoded q.1 q.2 rep)
    : Symbols decoded parts syms
        ↔ ∀ q ∈ parts.zip syms, ∀ rep, q.1.2.representative q.2 = .ok rep → q.1.2.symbol rep = .ok q.2 := by
  rw [Symbols, List.forall₂_iff_zip]
  constructor
  . rintro ⟨_, hall⟩ q hq rep hrep
    rcases hback q hq with ⟨rep', hback⟩
    cases hrep.symm.trans hback.representative
    have hsymbol := hall hq
    rw [hback.lookup, checkedSymbol_some] at hsymbol
    exact hsymbol
  . refine fun hall => ⟨hlength, fun {p s} hq => ?_⟩
    rcases hback (p, s) hq with ⟨rep, hback⟩
    rw [hback.lookup, checkedSymbol_some]
    exact hall (p, s) hq rep hback.representative

/-- Of every field of a flow's partitions it is known what it is built from. -/
theorem built_of_mem {py : Runtime} {flow : Flow py} {parts : Partitions} (hparts : buildPartitions flow = .ok parts)
    {p : String × FieldPartition} (hp : p ∈ parts)
    : ∃ atoms, (p.1, atoms) ∈ flowAtoms py flow.graph ∧ Built py (cutting p.2.definition atoms) p.2 := by
  rcases exists_of_forall₂ (buildPartitions_ok hparts).2.flip hp with ⟨⟨field, atoms⟩, hmem, hkey, _, _, hbuilt⟩
  dsimp only at hkey hbuilt
  rw [← hkey] at hmem
  exact ⟨atoms, hmem, hbuilt⟩

theorem nodup_parts {py : Runtime} {flow : Flow py} {parts : Partitions} (hparts : buildPartitions flow = .ok parts)
    : (parts.map Prod.fst).Nodup := by
  have hkeys : parts.map Prod.fst = (flowAtoms py flow.graph).map Prod.fst := by
    have hall := (buildPartitions_ok hparts).2
    generalize flowAtoms py flow.graph = fields at hall
    clear hparts
    induction hall with
    | nil => rfl
    | cons hp _ ih => rw [List.map_cons, List.map_cons, hp.1, ih]
  rw [hkeys]
  exact nodup_flowAtoms py flow.graph

/-- Every reading that is encoded is decoded, to the representatives of its cells. -/
theorem decodeReading_encodeReading {py : Runtime} {flow : Flow py} {parts : Partitions}
    (hparts : buildPartitions flow = .ok parts) {reading : Reading} {bits : List Bool}
    (hbits : encodeReading parts reading = .ok bits)
    : ∃ syms decoded, Symbols reading (order parts) syms
        ∧ Zeckendorf.encodeStream (syms.map fun symbol : ℕ => (symbol : ℤ) + 1) = .ok bits
        ∧ decodeReading parts bits = .ok decoded
        ∧ ∀ q ∈ (order parts).zip syms, ∃ rep, Back reading decoded q.1 q.2 rep := by
  rcases encodeReading_ok.mp hbits with ⟨syms, hsyms, hstream⟩
  have hlength := List.Forall₂.length_eq hsyms
  have hrep : ∀ q ∈ (order parts).zip syms, ∃ rep, q.1.2.representative q.2 = .ok rep := by
    intro q hq
    have hp : q.1 ∈ parts := (perm_order parts).mem_iff.mp (List.of_mem_zip hq).1
    rcases built_of_mem hparts hp with ⟨atoms, _, hbuilt⟩
    rcases representative_stable hbuilt (checkedSymbol_ok ((List.forall₂_iff_zip.mp hsyms).2 hq)) with ⟨rep, hrep, _⟩
    exact ⟨rep, hrep⟩
  rcases exists_values hrep with ⟨decoded, hvalues⟩
  refine ⟨syms, decoded, hsyms, hstream, decodeReading_ok hstream ?_ hvalues, fun q hq => ?_⟩
  . rw [← hlength]
    exact (perm_order parts).length_eq
  . exact back_of_values (nodup_order (nodup_parts hparts)) hsyms hvalues hq

/--
What is decoded is encoded to the same bits exactly when the lowest value of every numeric cell it is in is accepted for
its field; a cell without one is stood for by the integer before the first point.
-/
theorem encodeReading_stable_iff {py : Runtime} {flow : Flow py} {parts : Partitions}
    (hparts : buildPartitions flow = .ok parts) {reading : Reading} {bits : List Bool}
    (hbits : encodeReading parts reading = .ok bits)
    : (∃ decoded, decodeReading parts bits = .ok decoded ∧ encodeReading parts decoded = .ok bits)
        ↔ ∀ p ∈ parts, p.2.kind = .numeric → ∀ atoms, (p.1, atoms) ∈ flowAtoms py flow.graph →
          ∀ n w, numericView (reading.ctx p.1) = some n → FloorOf py (cutting p.2.definition atoms) n w →
            Accepts p.2 w := by
  rcases decodeReading_encodeReading hparts hbits with ⟨syms, decoded, hsyms, hstream, hdecode, hback⟩
  have hlength := List.Forall₂.length_eq hsyms
  have hsame : encodeReading parts decoded = .ok bits ↔ Symbols decoded (order parts) syms := by
    rw [encodeReading_ok]
    constructor
    . rintro ⟨syms', hsyms', hstream'⟩
      rw [symbols_unique hstream hstream']
      exact hsyms'
    . exact fun hagain => ⟨syms, hagain, hstream⟩
  have hdecoded : (∃ decoded, decodeReading parts bits = .ok decoded ∧ encodeReading parts decoded = .ok bits)
      ↔ encodeReading parts decoded = .ok bits := by
    constructor
    . rintro ⟨decoded', hdecode', hagain⟩
      cases hdecode.symm.trans hdecode'
      exact hagain
    . exact fun hagain => ⟨decoded, hdecode, hagain⟩
  rw [hdecoded, hsame, symbols_of_back hlength hback]
  -- field by field
  constructor
  . intro hall p hp hkind atoms hatoms
    rcases exists_mem_zip hlength ((perm_order parts).mem_iff.mpr hp) with ⟨s, hq⟩
    rcases hback _ hq with ⟨rep, hback⟩
    rcases built_of_mem hparts hp with ⟨atoms', hatoms', hbuilt⟩
    have hsame : atoms = atoms' := by
      have hnodup := nodup_flowAtoms py flow.graph
      exact Option.some.inj ((Dict.lookup_of_mem hnodup hatoms).symm.trans (Dict.lookup_of_mem hnodup hatoms'))
    rw [hsame]
    rcases representative_stable hbuilt hback.symbol with ⟨rep', hrep', hstable⟩
    exact hstable.mp (hall _ hq rep' hrep') hkind
  . intro hall q hq rep hrep
    have hp : q.1 ∈ parts := (perm_order parts).mem_iff.mp (List.of_mem_zip hq).1
    rcases hback _ hq with ⟨_, hback⟩
    rcases built_of_mem hparts hp with ⟨atoms, hatoms, hbuilt⟩
    rcases representative_stable hbuilt hback.symbol with ⟨rep', hrep', hstable⟩
    cases hrep.symm.trans hrep'
    exact hstable.mpr fun hkind => hall q.1 hp hkind atoms hatoms

/- A count from zero on. -/

def countPy : Runtime where
  parse
    | "count > 0" => some (.compare (.name "count") [(.gt, .constant (.int 0))])
    | _ => none
  str := fun _ => ""
  int := fun _ => none

def countDefinition : FieldDefinition :=
  ⟨"count".toList, .int, none, none, none, 0, 100, false⟩

def countGraph : Graph where
  name := "counter"
  start := "watch"
  nodes := [
    { name := "watch", edges := [⟨"busy", "when count > 0"⟩, ⟨"quiet", "else"⟩] },
    { name := "busy", edges := [] },
    { name := "quiet", edges := [] }
  ]
  nodup := by decide

def countFlow : Flow countPy where
  graph := countGraph
  fields := [("count", countDefinition)]
  lawful := .inr (List.isEmpty_iff.mp (by with_unfolding_all decide))

def countParts : Partitions :=
  [("count", ⟨"count", .numeric, [.numeric ⟨⟨none, some 0⟩, -1⟩, .numeric ⟨⟨some 1, none⟩, 1⟩], some countDefinition⟩)]

theorem build_countFlow
    : buildPartitions countFlow = .ok countParts := by
  with_unfolding_all rfl

theorem encodeReading_stable_seven
    : (∃ decoded, decodeReading countParts [false, true, true] = .ok decoded
        ∧ encodeReading countParts decoded = .ok [false, true, true])
      ∧ ∀ p ∈ countParts, p.2.kind = .numeric → ∀ atoms, (p.1, atoms) ∈ flowAtoms countPy countFlow.graph →
        ∀ n w, numericView (Reading.ctx [("count", .int 7)] p.1) = some n →
          FloorOf countPy (cutting p.2.definition atoms) n w → Accepts p.2 w :=
  have hagain : ∃ decoded, decodeReading countParts [false, true, true] = .ok decoded
      ∧ encodeReading countParts decoded = .ok [false, true, true] := ⟨[("count", .int 1)], rfl, rfl⟩
  ⟨hagain, (@encodeReading_stable_iff _ _ _ build_countFlow [("count", .int 7)] _ rfl).mp hagain⟩

/-- No count comes back as a negative one, which is refused. -/
theorem zero_refused
    : buildPartitions countFlow = .ok countParts
        ∧ encodeReading countParts [("count", .int 0)] = .ok [true, true]
        ∧ decodeReading countParts [true, true] = .ok [("count", .int (-1))]
        ∧ encodeReading countParts [("count", .int (-1))] = .error (.refused "count" .outOfRange (.int (-1))) :=
  ⟨build_countFlow, rfl, rfl, rfl⟩

end Quantizer
