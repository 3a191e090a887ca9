import PrismPath.Telemetry.ConcentratorFraming

/-!
This module contains the round trip of the packed Fibonacci stream, for words of any number of bytes, that a code the
reader takes is the one the writer writes, and what a stream of codes holds: the values of the codes that end, and the
bits after them.
-/

open Python

namespace Zeckendorf

open Fibonacci

/- One code. -/

/-- What is decoded is the code of its value. -/
theorem encode_of_decode {code : List Bool} {value : ℕ} (h : decode code = .ok value)
    : encode value = .ok code := by
  rw [decode] at h
  split at h
  next => cases h
  next hends =>
    rw [not_or, not_lt, not_not] at hends
    -- the two ones at the end, and what is in front of them
    have hcode : code = code.take (code.length - 2) ++ [true, true] := by
      rw [← hends.2, List.take_append_drop]
    generalize code.take (code.length - 2) = ps at hcode
    subst hcode
    have hzeck : (ps ++ [true, true]).dropLast = ps ++ [true] := by
      rw [show ps ++ [true, true] = (ps ++ [true]) ++ [true] by simp, List.dropLast_concat]
    rw [hzeck] at h
    dsimp only at h
    split at h
    next => cases h
    next hpair =>
      have hsparse : Sparse (true :: ps.reverse) := by
        rw [← sparse_reverse, List.reverse_cons, List.reverse_reverse]
        exact sparse_of_hasPair (by simpa using hpair)
      have hcodeOf : codeOf ps.reverse = ps ++ [true, true] := by
        rw [codeOf_eq, List.reverse_reverse]
      have hdecode := decode_codeOf hsparse
      rw [hcodeOf, decode, if_neg (by simp), hzeck] at hdecode
      dsimp only at hdecode
      rw [if_neg hpair, h, Except.ok.injEq] at hdecode
      rw [hdecode, encode_weight hsparse, hcodeOf]

/- Codes in a row. -/

theorem decodeStreamFrom_code {ps : List Bool} (h : Sparse (ps ++ [true])) (code rest : List Bool)
    : decodeStreamFrom code (ps ++ [true, true] ++ rest)
        =
      do
        let value ← decode (code.reverse ++ (ps ++ [true, true]))
        return value :: (← decodeStreamFrom [] rest) := by
  induction ps generalizing code with
  | nil => rfl
  | cons b ps ih =>
    have hstep : decodeStreamFrom code (b :: (ps ++ [true, true] ++ rest))
        = decodeStreamFrom (b :: code) (ps ++ [true, true] ++ rest) := by
      cases b with
      | false => rw [decodeStreamFrom]; simp
      | true =>
        -- a one is followed by a zero
        cases ps with
        | nil => exact absurd h (not_sparse_true_true [])
        | cons c ps =>
          cases c with
          | true => exact absurd h (not_sparse_true_true (ps ++ [true]))
          | false => rw [List.cons_append, List.cons_append, decodeStreamFrom]; simp
    have hcode : (b :: code).reverse ++ (ps ++ [true, true]) = code.reverse ++ (b :: ps ++ [true, true]) := by
      simp
    rw [List.cons_append, List.cons_append, hstep, ih h.tail, hcode, List.cons_append]

theorem decodeStream_append {value : ℤ} {code : List Bool} (h : encode value = .ok code) (rest : List Bool)
    : decodeStream (code ++ rest) = (decodeStream rest).map fun values => value.toNat :: values := by
  rcases encode_ok h with ⟨ds, hsparse, hweight, hcode⟩
  have hps : Sparse (ds.reverse ++ [true]) := by
    rw [← List.reverse_cons]
    exact sparse_reverse.mpr hsparse
  have hvalue : value.toNat = weight (true :: ds) := by omega
  rw [decodeStream, decodeStream, hcode, codeOf_eq, decodeStreamFrom_code hps, List.reverse_nil, List.nil_append,
    ← codeOf_eq, decode_codeOf hsparse, hvalue]
  cases decodeStreamFrom [] rest <;> rfl

/-- A zero pad is a code that does not end. -/
theorem decodeStreamFrom_zeros (n : ℕ) (code : List Bool)
    : decodeStreamFrom code (List.replicate n false) = .ok [] := by
  induction n generalizing code with
  | zero => rfl
  | succ n ih =>
    rw [List.replicate_succ, decodeStreamFrom]
    . exact ih _
    . simp

theorem decodeStream_encodeStream {values : List ℤ} {bits : List Bool} (h : encodeStream values = .ok bits) (pad : ℕ)
    : decodeStream (bits ++ List.replicate pad false) = .ok (values.map Int.toNat) := by
  induction values generalizing bits with
  | nil =>
    cases h
    exact decodeStreamFrom_zeros pad []
  | cons value values ih =>
    rcases Concentrator.encodeStream_cons_ok h with ⟨code, codes, hcode, hcodes, rfl⟩
    rw [List.append_assoc, decodeStream_append hcode, ih hcodes]
    rfl

end Zeckendorf

namespace Packed

open Zeckendorf

/-- Positive integers come back from packed words of any number of bytes, and every code stands for its value only. -/
theorem fibonacci_round_trip
    : (∀ values : List ℤ, (∀ value ∈ values, 1 ≤ value) → ∀ length, 0 < length →
        ∃ bits data, encodeStream values = .ok bits ∧ pack bits (8 * length) = .ok data
          ∧ decodeStream (unpack data) = .ok (values.map Int.toNat))
      ∧ ∀ code value, Zeckendorf.decode code = .ok value → Zeckendorf.encode value = .ok code := by
  constructor
  . intro values hvalues length hlength
    rcases Concentrator.encodeStream_of_pos hvalues with ⟨bits, hbits⟩
    rcases pack_unpack_words hlength bits with ⟨data, pad, hdata, _, hunpack⟩
    refine ⟨bits, data, hbits, hdata, ?_⟩
    rw [hunpack]
    exact decodeStream_encodeStream hbits pad
  . exact fun code value h => encode_of_decode h

theorem fibonacci_round_trip_words
    : (∃ bits data, encodeStream [1, 4] = .ok bits ∧ pack bits (8 * 2) = .ok data
        ∧ decodeStream (unpack data) = .ok [1, 4])
      ∧ Zeckendorf.encode 4 = .ok [true, false, true, true] :=
  ⟨fibonacci_round_trip.1 [1, 4] (by decide) 2 (by decide), fibonacci_round_trip.2 _ _ (by rfl)⟩

/-- A word of no bits at all takes no code. -/
theorem pack_zero
    : encodeStream [1] = .ok [true, true] ∧ pack [true, true] 0 = .error .valueError :=
  ⟨by rfl, by rfl⟩

end Packed

namespace Zeckendorf

open Fibonacci

/-- The values of the codes in a stream, with the bits of the code that was begun, the last one first. -/
def codes : (code bits : List Bool) → List ℕ
  | code, true :: true :: bits => weight (true :: code) :: codes [] bits
  | code, bit :: bits => codes (bit :: code) bits
  | _, [] => []

/-- The bits after the last code of a stream. -/
def afterLastCode : (code bits : List Bool) → List Bool
  | _, true :: true :: bits => afterLastCode [] bits
  | code, bit :: bits => afterLastCode (bit :: code) bits
  | code, [] => code.reverse

/-- Between two bits of a stream: the bits of the code that was begun, the last one first, and the bits that follow
do not begin with what ends it. -/
structure Between (code bits : List Bool) : Prop where
  sparse : Sparse code
  open_ : code.head? = some true → bits.head? ≠ some true

theorem between_nil (bits : List Bool)
    : Between [] bits :=
  ⟨sparse_nil, fun h => by cases h⟩

theorem sparse_cons_true {code : List Bool} (h : Sparse code) (hhead : code.head? ≠ some true)
    : Sparse (true :: code) := by
  cases code with
  | nil => exact sparse_singleton true
  | cons b code =>
    cases b with
    | true => exact absurd rfl hhead
    | false => exact List.isChain_cons_cons.mpr ⟨by simp, h⟩

theorem Between.sparse_true {code bits : List Bool} (h : Between code (true :: bits))
    : Sparse (true :: code) :=
  sparse_cons_true h.sparse fun hhead => h.open_ hhead rfl

/-- A bit that does not begin a pair of ones goes to the code. -/
theorem Between.step {code bits : List Bool} {bit : Bool} (h : Between code (bit :: bits))
    (hpair : bit = true → bits.head? ≠ some true)
    : Between (bit :: code) bits := by
  refine ⟨?_, ?_⟩
  . cases bit with
    | true => exact h.sparse_true
    | false => exact h.sparse.cons_false
  . intro hhead
    apply hpair
    simpa using hhead

theorem head?_of_not_pair {bit : Bool} {bits : List Bool} (h : ∀ rest, bit = true → bits = true :: rest → False)
    : bit = true → bits.head? ≠ some true := by
  intro hbit hhead
  cases bits with
  | nil => cases hhead
  | cons b bits => exact h bits hbit (by simpa using hhead)

theorem decodeStreamFrom_eq {code bits : List Bool} (h : Between code bits)
    : decodeStreamFrom code bits = .ok (codes code bits) := by
  fun_induction codes code bits with
  | case1 code bits ih =>
    have hcode : code.reverse ++ [true, true] = codeOf code := (codeOf_eq code).symm
    rw [decodeStreamFrom, hcode, decode_codeOf h.sparse_true, ih (between_nil bits)]
    rfl
  | case2 code bit bits hpair ih =>
    rw [decodeStreamFrom]
    . exact ih (h.step (head?_of_not_pair hpair))
    . exact hpair
  | case3 code => rfl

theorem weight_le_cons (bit : Bool) (code : List Bool)
    : weight code ≤ weight (bit :: code) := by
  cases bit with
  | true =>
    rw [weight_true]
    omega
  | false => rw [weight_false]

/-- The digits of the codes in a stream, the highest first: a one after a one ends a code. -/
def digits : (code bits : List Bool) → List (List Bool)
  | code, bit :: bits =>
    if bit = true ∧ code.head? = some true then code :: digits [] bits else digits (bit :: code) bits
  | _, [] => []

theorem codes_eq_map {code bits : List Bool} (h : Between code bits)
    : codes code bits = (digits code bits).map weight := by
  fun_induction codes code bits with
  | case1 code bits ih =>
    have hhead : ¬(true = true ∧ code.head? = some true) := fun hend => h.open_ hend.2 rfl
    rw [digits, if_neg hhead, digits, if_pos ⟨rfl, rfl⟩, List.map_cons, ih (between_nil bits)]
  | case2 code bit bits hpair ih =>
    have hend : ¬(bit = true ∧ code.head? = some true) := by
      rintro ⟨rfl, hhead⟩
      exact h.open_ hhead rfl
    rw [digits, if_neg hend]
    exact ih (h.step (head?_of_not_pair hpair))
  | case3 code => rfl

/-- The digits of a code that ends are no two neighbouring ones, and the highest is a one. -/
theorem of_mem_digits {code bits ds : List Bool} (hsparse : Sparse code) (h : ds ∈ digits code bits)
    : ∃ rest, ds = true :: rest ∧ Sparse ds := by
  induction bits generalizing code with
  | nil => cases h
  | cons bit bits ih =>
    rw [digits] at h
    split at h
    . next hend =>
      rcases List.mem_cons.mp h with rfl | h
      . rcases List.head?_eq_some_iff.mp hend.2 with ⟨rest, rfl⟩
        exact ⟨rest, rfl, hsparse⟩
      . exact ih sparse_nil h
    . next hend =>
      apply ih _ h
      cases bit with
      | true => exact sparse_cons_true hsparse fun hhead => hend ⟨rfl, hhead⟩
      | false => exact hsparse.cons_false

end Zeckendorf
