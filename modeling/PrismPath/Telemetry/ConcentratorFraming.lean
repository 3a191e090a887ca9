import PrismPath.Telemetry.Concentrator

/-!
This module contains the framing of the concentrator: what it writes is read back, and what its reader takes is
the codes of registered records and a zero pad, or nothing.
-/

open Python

namespace Zeckendorf

open Fibonacci

/- The code of a number. -/

theorem growFibs_succ (more : List ℕ → Bool) (fuel n : ℕ)
    : growFibs more (fuel + 1) (fibs (n + 2)).reverse
        =
      if more (fibs (n + 2)).reverse then growFibs more fuel (fibs (n + 3)).reverse else (fibs (n + 2)).reverse := by
  have hnext : (fibs (n + 3)).reverse
      = (Nat.fib (n + 3) + Nat.fib (n + 2)) :: Nat.fib (n + 3) :: Nat.fib (n + 2) :: (fibs n).reverse := by
    rw [fibs_succ_reverse, fibs_succ_reverse, fibs_succ_reverse, Nat.fib_add_two (n := n + 2), Nat.add_comm]
  rw [hnext, fibs_succ_reverse, fibs_succ_reverse, growFibs]

/-- The basis grows as long as there is more to take, or until the fuel is used up. -/
theorem growFibs_fibs (more : List ℕ → Bool) (fuel n : ℕ)
    : ∃ m, growFibs more fuel (fibs (n + 2)).reverse = (fibs (m + 2)).reverse ∧ n ≤ m
        ∧ (∀ k, n ≤ k → k < m → more (fibs (k + 2)).reverse = true)
        ∧ (m = n + fuel ∨ more (fibs (m + 2)).reverse = false) := by
  induction fuel generalizing n with
  | zero => exact ⟨n, by simp [growFibs], le_rfl, by omega, .inl rfl⟩
  | succ fuel ih =>
    rw [growFibs_succ]
    split
    next hmore =>
      rcases ih (n + 1) with ⟨m, heq, hle, hall, hend⟩
      refine ⟨m, heq, by omega, ?_, ?_⟩
      . intro k hk hkm
        rcases Nat.eq_or_lt_of_le hk with rfl | hlt
        . exact hmore
        . exact hall k hlt hkm
      . exact hend.imp (fun h => by omega) id
    next hmore => exact ⟨n, rfl, le_rfl, by omega, .inr (by simpa using hmore)⟩

theorem fibsUpto_eq {limit : ℕ} (h : 1 ≤ limit)
    : ∃ n, fibsUpto limit = (fibs (n + 1)).reverse ∧ Nat.fib (n + 2) ≤ limit ∧ limit < Nat.fib (n + 3) := by
  rcases growFibs_fibs (fun fibs => fibs.head?.all (· ≤ limit)) limit 0 with ⟨m, heq, _, hall, hend⟩
  have hmore (k : ℕ) : (fibs (k + 2)).reverse.head?.all (· ≤ limit) = decide (Nat.fib (k + 3) ≤ limit) := by
    rw [fibs_succ_reverse]
    rfl
  have hlt : limit < Nat.fib (m + 3) := by
    rcases hend with hfuel | hstop
    . have := Nat.le_fib_add_one (m + 3)
      omega
    . simpa only [hmore, decide_eq_false_iff_not, Nat.not_le] using hstop
  have hle : Nat.fib (m + 2) ≤ limit := by
    cases m with
    | zero => exact h
    | succ k => simpa only [hmore, decide_eq_true_eq] using hall k (by omega) (by omega)
  refine ⟨m, ?_, hle, hlt⟩
  have hstart : [2, 1] = (fibs (0 + 2)).reverse := by decide
  rw [fibsUpto, hstart, heq, fibs_succ_reverse]
  exact if_pos hlt

/-- The digits, the lowest first, and a one more: the code of the number they stand for. -/
def codeOf (ds : List Bool) : List Bool :=
  (true :: ds).reverse ++ [true]

theorem codeOf_eq (ds : List Bool)
    : codeOf ds = ds.reverse ++ [true, true] := by
  simp [codeOf]

theorem one_le_weight (ds : List Bool)
    : 1 ≤ weight (true :: ds) := by
  have := Nat.fib_pos.mpr (show 0 < ds.length + 2 by omega)
  rw [weight_true]
  omega

theorem encode_weight {ds : List Bool} (h : Sparse (true :: ds))
    : encode (weight (true :: ds) : ℕ) = .ok (codeOf ds) := by
  have hone := one_le_weight ds
  rcases fibsUpto_eq hone with ⟨n, hfibs, hge, hlt⟩
  -- the basis is as long as the numeral
  have hlength : n = ds.length := by
    have hmono (i j : ℕ) (hij : i + 1 ≤ j) : Nat.fib (i + 3) ≤ Nat.fib (j + 2) :=
      Nat.fib_mono (by omega)
    have hge' := (fib_le_weight_iff h).mpr rfl
    have hlt' := weight_lt h
    rw [List.length_cons] at hlt'
    by_contra hne
    rcases Nat.lt_or_gt_of_ne hne with hless | hmore
    . have := hmono n ds.length hless
      omega
    . have := hmono ds.length n hmore
      have : Nat.fib (ds.length + 1 + 2) = Nat.fib (ds.length + 3) := rfl
      omega
  have hgreedy := greedy_weight h
  rw [List.length_cons] at hgreedy
  rw [encode, if_neg (by omega), Int.toNat_natCast, hfibs, hlength, hgreedy]
  simp [codeOf]

theorem encode_of_pos {value : ℤ} (h : 1 ≤ value)
    : ∃ ds, Sparse (true :: ds) ∧ (weight (true :: ds) : ℕ) = value ∧ encode value = .ok (codeOf ds) := by
  have hone : 1 ≤ value.toNat := by omega
  rcases fibsUpto_eq hone with ⟨n, _, hge, hlt⟩
  rcases exists_numeral hge hlt with ⟨ds, _, hsparse, hweight⟩
  have hvalue : ((weight (true :: ds) : ℕ) : ℤ) = value := by omega
  refine ⟨ds, hsparse, hvalue, ?_⟩
  have := encode_weight hsparse
  rwa [hvalue] at this

theorem encode_ok {value : ℤ} {code : List Bool} (h : encode value = .ok code)
    : ∃ ds, Sparse (true :: ds) ∧ (weight (true :: ds) : ℕ) = value ∧ code = codeOf ds := by
  by_cases hpos : 1 ≤ value
  . rcases encode_of_pos hpos with ⟨ds, hsparse, hweight, hcode⟩
    rw [hcode, Except.ok.injEq] at h
    exact ⟨ds, hsparse, hweight, h.symm⟩
  . rw [encode, if_pos (by omega)] at h
    cases h

theorem hasPair_eq_false {bits : List Bool} (h : Sparse bits)
    : hasPair bits = false := by
  induction bits with
  | nil => rfl
  | cons a bits ih =>
    cases bits with
    | nil => rfl
    | cons b bits =>
      have hpair := (List.isChain_cons_cons.mp h).1
      rw [hasPair, ih h.tail]
      cases a <;> cases b <;> simp_all

theorem sparse_of_hasPair {bits : List Bool} (h : hasPair bits = false)
    : Sparse bits := by
  induction bits with
  | nil => exact sparse_nil
  | cons a bits ih =>
    cases bits with
    | nil => exact sparse_singleton a
    | cons b bits =>
      rw [hasPair, Bool.or_eq_false_iff] at h
      refine List.isChain_cons_cons.mpr ⟨?_, ih h.2⟩
      rintro ⟨rfl, rfl⟩
      simp at h

theorem zip_fibs {n m : ℕ} (h : n ≤ m) {zeck : List Bool} (hlen : zeck.length = n)
    : (fibs m).zip zeck = (fibs n).zip zeck := by
  rcases Nat.exists_eq_add_of_le h with ⟨k, rfl⟩
  have hinitial : ∃ more, fibs (n + k) = fibs n ++ more :=
    ⟨_, by rw [fibs, List.range_add, List.map_append]; rfl⟩
  rcases hinitial with ⟨more, hmore⟩
  have hlens : (fibs n).length = zeck.length := by rw [length_fibs, hlen]
  have hzip : (fibs n ++ more).zip (zeck ++ []) = (fibs n).zip zeck ++ more.zip [] := List.zip_append hlens
  rw [List.append_nil, List.zip_nil_right, List.append_nil] at hzip
  rw [hmore, hzip]

theorem decode_codeOf {ds : List Bool} (h : Sparse (true :: ds))
    : decode (codeOf ds) = .ok (weight (true :: ds)) := by
  have hends : ¬ ((codeOf ds).length < 2 ∨ (codeOf ds).drop ((codeOf ds).length - 2) ≠ [true, true]) := by
    simp [codeOf_eq]
  have hzeck : (codeOf ds).dropLast = (true :: ds).reverse := by
    simp [codeOf]
  rw [decode, if_neg hends, hzeck]
  simp only [hasPair_eq_false (sparse_reverse.mpr h), Bool.false_eq_true, if_false]
  rcases growFibs_fibs (fun fibs => decide (fibs.length < (true :: ds).reverse.length))
    (true :: ds).reverse.length 0 with ⟨m, heq, _, _, hend⟩
  have hstart : [2, 1] = (fibs (0 + 2)).reverse := by decide
  have hlong : (true :: ds).length ≤ m + 2 := by
    rcases hend with hfuel | hstop
    . simp only [List.length_reverse] at hfuel
      omega
    . have hstop : ds.length < m + 2 := by simpa using hstop
      exact hstop
  rw [hstart, heq, List.reverse_reverse, zip_fibs hlong (by simp), sum_zip_fibs]

end Zeckendorf

namespace Packed

/- The bytes of bits. -/

theorem bitsOf_succ (n acc : ℕ) (bit : Bool)
    : bitsOf (n + 1) (2 * acc + bit.toNat) = bitsOf n acc ++ [bit] := by
  rw [bitsOf, bitsOf, List.range_succ_eq_map, List.reverse_cons, List.map_append, ← List.map_reverse, List.map_map]
  congr 1
  . refine List.map_congr_left fun i _ => ?_
    have hhalf : (2 * acc + bit.toNat) / 2 = acc := by
      have := bit.toNat_lt
      omega
    simp only [Function.comp_apply, Nat.testBit_succ, hhalf]
  . cases bit <;> simp [Nat.testBit_zero]

theorem bitsOf_shift (n acc : ℕ) : ∀ k, bitsOf (n + k) (acc * 2 ^ k) = bitsOf n acc ++ List.replicate k false
  | 0 => by simp
  | k + 1 => by
    have hdouble : acc * 2 ^ (k + 1) = 2 * (acc * 2 ^ k) + false.toNat := by
      rw [Nat.pow_succ, Bool.toNat_false]
      ring
    rw [← Nat.add_assoc, hdouble, bitsOf_succ, bitsOf_shift n acc k, List.append_assoc, List.replicate_succ']

theorem unpack_append (xs ys : List UInt8)
    : unpack (xs ++ ys) = unpack xs ++ unpack ys :=
  List.flatMap_append

theorem bitsOf_add (m n acc : ℕ)
    : bitsOf (n + m) acc = bitsOf m (acc / 2 ^ n) ++ bitsOf n acc := by
  rw [bitsOf, bitsOf, bitsOf, List.range_add, List.reverse_append, List.map_append, ← List.map_reverse, List.map_map]
  congr 1
  refine List.map_congr_left fun i _ => ?_
  rw [Function.comp_apply, Nat.testBit_div_two_pow, Nat.add_comm]

theorem bitsOf_mod (n acc : ℕ)
    : bitsOf n (acc % 2 ^ n) = bitsOf n acc := by
  refine List.map_congr_left fun i hi => ?_
  rw [List.mem_reverse, List.mem_range] at hi
  rw [Nat.testBit_mod_two_pow, decide_eq_true hi, Bool.true_and]

theorem toBytes_unpack (length : ℕ) {acc : ℕ} (h : acc < 2 ^ (8 * length))
    : ∃ word, toBytes length acc = .ok word ∧ unpack word = bitsOf (8 * length) acc := by
  have hbase : 256 ^ length = 2 ^ (8 * length) := by
    rw [Nat.pow_mul]
  refine ⟨_, by rw [toBytes, if_pos (by rw [hbase]; exact h)], ?_⟩
  clear h hbase
  induction length with
  | zero => rfl
  | succ length ih =>
    have hplace : 256 ^ length = 2 ^ (8 * length) := by
      rw [Nat.pow_mul]
    have hbyte : (UInt8.ofNat (acc / 256 ^ length % 256)).toNat = acc / 2 ^ (8 * length) % 2 ^ 8 := by
      rw [hplace]
      exact Nat.mod_mod _ _
    rw [List.range_succ, List.reverse_append, List.reverse_singleton, List.singleton_append, List.map_cons, unpack,
      List.flatMap_cons, ← unpack, ih, hbyte, bitsOf_mod, Nat.mul_succ, bitsOf_add]

/-- Packed into words the bits come back, with fewer zeros after them than a word has bits. -/
theorem packFrom_unpack {length : ℕ} (hlength : 0 < length) (bits : List Bool) {acc count : ℕ} (hacc : acc < 2 ^ count)
    (hcount : count < 8 * length)
    : ∃ data pad, packFrom (8 * length) bits acc count = .ok data ∧ pad < 8 * length
        ∧ unpack data = bitsOf count acc ++ bits ++ List.replicate pad false := by
  have hbytes : 8 * length / 8 = length := by omega
  induction bits generalizing acc count with
  | nil =>
    by_cases hzero : count = 0
    . subst hzero
      exact ⟨[], 0, rfl, by omega, rfl⟩
    . have hshift : acc * 2 ^ (8 * length - count) < 2 ^ (8 * length) := by
        calc acc * 2 ^ (8 * length - count)
          _ < 2 ^ count * 2 ^ (8 * length - count) := Nat.mul_lt_mul_of_pos_right hacc (by positivity)
          _ = 2 ^ (8 * length) := by rw [← Nat.pow_add, Nat.add_sub_cancel' (by omega)]
      rcases toBytes_unpack length hshift with ⟨word, hword, hunpack⟩
      refine ⟨word, 8 * length - count, ?_, by omega, ?_⟩
      . rw [packFrom, if_neg hzero, if_neg (by omega), hbytes]
        exact hword
      . have := bitsOf_shift count acc (8 * length - count)
        rw [Nat.add_sub_cancel' (by omega)] at this
        rw [hunpack, this, List.append_nil]
  | cons bit bits ih =>
    have hacc' : 2 * acc + bit.toNat < 2 ^ (count + 1) := by
      have := bit.toNat_lt
      rw [Nat.pow_succ]
      omega
    rw [packFrom]
    by_cases hfull : count + 1 = 8 * length
    . rw [hfull] at hacc'
      rcases toBytes_unpack length hacc' with ⟨word, hword, hunpack⟩
      have hempty : 0 < 2 ^ 0 := by decide
      rcases ih hempty (by omega) with ⟨data, pad, hdata, hpad, hrest⟩
      refine ⟨word ++ data, pad, ?_, hpad, ?_⟩
      . simp only [hfull, if_true, hbytes]
        show (do let word ← toBytes length _; return word ++ (← packFrom (8 * length) bits 0 0)) = _
        rw [hword, hdata]
        rfl
      . have := bitsOf_succ count acc bit
        rw [hfull] at this
        rw [unpack_append, hunpack, hrest, this]
        simp [bitsOf]
    . rcases ih hacc' (by omega) with ⟨data, pad, hdata, hpad, hrest⟩
      refine ⟨data, pad, ?_, hpad, ?_⟩
      . simp only [if_neg hfull]
        exact hdata
      . rw [hrest, bitsOf_succ]
        simp

theorem pack_unpack_words {length : ℕ} (hlength : 0 < length) (bits : List Bool)
    : ∃ data pad, pack bits (8 * length) = .ok data ∧ pad < 8 * length
        ∧ unpack data = bits ++ List.replicate pad false :=
  packFrom_unpack hlength bits (by decide) (by omega)

theorem pack_unpack (bits : List Bool)
    : ∃ data pad, pack bits 8 = .ok data ∧ pad < 8 ∧ unpack data = bits ++ List.replicate pad false :=
  @pack_unpack_words 1 (by decide) bits

end Packed

namespace Concentrator

open Fibonacci Zeckendorf

/- One code off the front of the bits. -/

theorem splitCode_append {ps : List Bool} (h : Sparse (ps ++ [true])) (rest : List Bool)
    : splitCode (ps ++ [true, true] ++ rest) = some (ps ++ [true, true], rest) := by
  induction ps with
  | nil => rfl
  | cons b ps ih =>
    have hrest := ih h.tail
    have hstep : splitCode (b :: (ps ++ [true, true] ++ rest))
        = (splitCode (ps ++ [true, true] ++ rest)).map fun split => (b :: split.1, split.2) := by
      cases b with
      | false => rfl
      | true =>
        -- a pair of ones before the last would be neighbouring digits
        rcases ps with _ | ⟨b', ps⟩
        . exact absurd h (not_sparse_true_true [])
        . cases b' with
          | false => rfl
          | true => exact absurd h (not_sparse_true_true (ps ++ [true]))
    rw [List.cons_append, List.cons_append, hstep, hrest]
    rfl

theorem splitCode_codeOf {ds : List Bool} (h : Sparse (true :: ds)) (rest : List Bool)
    : splitCode (codeOf ds ++ rest) = some (codeOf ds, rest) := by
  rw [codeOf_eq]
  refine splitCode_append ?_ rest
  rw [← List.reverse_cons]
  exact sparse_reverse.mpr h

theorem splitCode_some {bits code rest : List Bool} (h : splitCode bits = some (code, rest))
    : ∃ ps, Sparse (ps ++ [true]) ∧ code = ps ++ [true, true] ∧ bits = code ++ rest := by
  fun_induction splitCode bits generalizing code rest with
  | case1 rest' =>
    rw [Option.some.injEq, Prod.mk.injEq] at h
    exact ⟨[], sparse_singleton true, h.1.symm, by rw [← h.1, ← h.2]; rfl⟩
  | case2 b bits hpair ih =>
    rw [Option.map_eq_some_iff] at h
    rcases h with ⟨⟨code', rest'⟩, hsplit, heq⟩
    rw [Prod.mk.injEq] at heq
    rcases ih hsplit with ⟨ps, hsparse, hcode, hbits⟩
    refine ⟨b :: ps, ?_, by rw [← heq.1, hcode]; rfl, by rw [← heq.1, ← heq.2, hbits]; rfl⟩
    cases b with
    | false => exact hsparse.cons_false
    | true =>
      rw [hcode] at hbits
      rcases ps with _ | ⟨b', ps⟩
      . exact absurd hbits (hpair _ rfl)
      . cases b' with
        | false => exact Sparse.cons_true_false hsparse.tail
        | true => exact absurd hbits (hpair _ rfl)
  | case3 => cases h

theorem takeOne_append {value : ℤ} {code : List Bool} (h : Zeckendorf.encode value = .ok code) (rest : List Bool)
    : takeOne (code ++ rest) = .ok (some (value, rest)) := by
  rcases encode_ok h with ⟨ds, hsparse, hweight, hcode⟩
  rw [takeOne, hcode, splitCode_codeOf hsparse]
  simp only [decode_codeOf hsparse, ← hweight]
  rfl

/-- The reader of one code never raises, and what it takes off is the code of what it returns. -/
theorem takeOne_cases (bits : List Bool)
    : takeOne bits = .ok none
        ∨ ∃ value code rest, Zeckendorf.encode value = .ok code ∧ bits = code ++ rest ∧ 2 ≤ code.length
            ∧ takeOne bits = .ok (some (value, rest)) := by
  rcases hsplit : splitCode bits with _ | ⟨code, rest⟩
  . left
    rw [takeOne, hsplit]
  . right
    rcases splitCode_some hsplit with ⟨ps, hsparse, hcode, hbits⟩
    have hsparse' : Sparse (true :: ps.reverse) := by
      rw [← sparse_reverse, List.reverse_cons, List.reverse_reverse]
      exact hsparse
    have hcode' : code = codeOf ps.reverse := by
      rw [hcode, codeOf_eq, List.reverse_reverse]
    have hencode := encode_weight hsparse'
    rw [← hcode'] at hencode
    refine ⟨_, code, rest, hencode, hbits, by simp [hcode], ?_⟩
    rw [hbits]
    exact takeOne_append hencode rest

theorem encodeStream_cons (value : ℤ) (values : List ℤ)
    : encodeStream (value :: values)
        =
      do return (← Zeckendorf.encode value) ++ (← encodeStream values) := by
  rw [encodeStream, encodeStream, List.mapM_cons]
  cases Zeckendorf.encode value with
  | error e => rfl
  | ok code =>
    cases values.mapM Zeckendorf.encode with
    | error e => rfl
    | ok parts => rfl

theorem encodeStream_cons_ok {value : ℤ} {values : List ℤ} {bits : List Bool}
    (h : encodeStream (value :: values) = .ok bits)
    : ∃ code codes, Zeckendorf.encode value = .ok code ∧ encodeStream values = .ok codes ∧ bits = code ++ codes := by
  rw [encodeStream_cons] at h
  cases hvalue : Zeckendorf.encode value with
  | error e => rw [hvalue] at h; cases h
  | ok code =>
    cases hvalues : encodeStream values with
    | error e => rw [hvalue, hvalues] at h; cases h
    | ok codes =>
      rw [hvalue, hvalues] at h
      exact ⟨code, codes, rfl, rfl, (Except.ok.inj h).symm⟩

theorem takeReading_none {count : ℕ} {bits : List Bool} (h : takeOne bits = .ok none)
    : takeReading (count + 1) bits = .ok none := by
  rw [takeReading, h]
  rfl

theorem takeReading_some {count : ℕ} {bits rest : List Bool} {value : ℤ} (h : takeOne bits = .ok (some (value, rest)))
    : takeReading (count + 1) bits
        =
      (takeReading count rest).map (Option.map fun (values, rest) => (value :: values, rest)) := by
  rw [takeReading, h]
  rcases hrest : takeReading count rest with _ | _ | ⟨values, rest'⟩
  all_goals simp only [bind, Except.bind, hrest]; rfl

theorem takeReading_append {values : List ℤ} {codes : List Bool} (h : encodeStream values = .ok codes)
    (rest : List Bool)
    : takeReading values.length (codes ++ rest) = .ok (some (values, rest)) := by
  induction values generalizing codes with
  | nil =>
    have hnil : [] = codes := Except.ok.inj h
    rw [← hnil]
    rfl
  | cons value values ih =>
    rcases encodeStream_cons_ok h with ⟨code, codes', hvalue, hvalues, rfl⟩
    rw [List.length_cons, List.append_assoc, takeReading_some (takeOne_append hvalue _), ih hvalues]
    rfl

/-- What the reader of a reading takes off is the codes of what it returns. -/
theorem takeReading_cases (count : ℕ) (bits : List Bool)
    : takeReading count bits = .ok none
        ∨ ∃ values codes rest, encodeStream values = .ok codes ∧ values.length = count ∧ bits = codes ++ rest
            ∧ takeReading count bits = .ok (some (values, rest)) := by
  induction count generalizing bits with
  | zero => exact .inr ⟨[], [], bits, rfl, rfl, rfl, rfl⟩
  | succ count ih =>
    rcases takeOne_cases bits with hnone | ⟨value, code, rest, hvalue, hbits, _, hone⟩
    . exact .inl (takeReading_none hnone)
    . rw [takeReading_some hone]
      rcases ih rest with hnone | ⟨values, codes, rest', hvalues, hlen, hrest, hsome⟩
      . left
        rw [hnone]
        rfl
      . right
        refine ⟨value :: values, code ++ codes, rest', ?_, by simp [hlen], by simp [hbits, hrest], ?_⟩
        . rw [encodeStream_cons, hvalue, hvalues]
          rfl
        . rw [hsome]
          rfl

/- Frames. -/

/-- The codes of registered records: the id, and as many values as the registry counts for it. -/
inductive Encoded (registry : Registry) : List Record → List Bool → Prop where
  | nil : Encoded registry [] []
  | cons {sid count : ℤ} {wireInts : List ℤ} {code codes bits : List Bool} {records : List Record}
      (hsid : Zeckendorf.encode sid = .ok code)
      (hcount : registry.lookup sid = some count)
      (hreading : encodeStream wireInts = .ok codes)
      (hlen : wireInts.length = count.toNat)
      (hrest : Encoded registry records bits)
      : Encoded registry ((sid, wireInts) :: records) (code ++ codes ++ bits)

/-- A frame's bits: the codes of the records and a zero pad. -/
def Framed (registry : Registry) (records : List Record) (bits : List Bool) : Prop :=
  ∃ body pad, Encoded registry records body ∧ bits = body ++ List.replicate pad false

theorem true_mem_code {value : ℤ} {code : List Bool} (h : Zeckendorf.encode value = .ok code)
    : true ∈ code := by
  rcases encode_ok h with ⟨ds, _, _, rfl⟩
  simp [codeOf_eq]

section

variable {registry : Registry} {fuel : ℕ} {bits rest : List Bool} {out : List Record} {sid : ℤ}

/- One round of the reader. -/

theorem demuxFrom_pad (h : true ∉ bits)
    : demuxFrom registry fuel bits out = .ok (out, .ok) := by
  cases fuel with
  | zero => rfl
  | succ fuel => rw [demuxFrom, if_neg (by simpa using h)]

theorem demuxFrom_unterminated (h : true ∈ bits) (hone : takeOne bits = .ok none)
    : demuxFrom registry (fuel + 1) bits out = .ok ([], .truncated) := by
  rw [demuxFrom, if_pos (by simpa using h), hone]
  rfl

theorem demuxFrom_unknown (h : true ∈ bits) (hone : takeOne bits = .ok (some (sid, rest)))
    (hsid : registry.lookup sid = none)
    : demuxFrom registry (fuel + 1) bits out = .ok ([], .unknownStream) := by
  rw [demuxFrom, if_pos (by simpa using h), hone]
  simp only [bind, Except.bind, hsid]
  rfl

theorem demuxFrom_truncated {count : ℤ} (h : true ∈ bits) (hone : takeOne bits = .ok (some (sid, rest)))
    (hsid : registry.lookup sid = some count) (hreading : takeReading count.toNat rest = .ok none)
    : demuxFrom registry (fuel + 1) bits out = .ok ([], .truncated) := by
  rw [demuxFrom, if_pos (by simpa using h), hone]
  simp only [bind, Except.bind, hsid, hreading]
  rfl

theorem demuxFrom_record {count : ℤ} {wireInts : List ℤ} {rest' : List Bool} (h : true ∈ bits)
    (hone : takeOne bits = .ok (some (sid, rest))) (hsid : registry.lookup sid = some count)
    (hreading : takeReading count.toNat rest = .ok (some (wireInts, rest')))
    : demuxFrom registry (fuel + 1) bits out = demuxFrom registry fuel rest' (out ++ [(sid, wireInts)]) := by
  rw [demuxFrom, if_pos (by simpa using h), hone]
  simp only [bind, Except.bind, hsid, hreading]

end

/-- The reader takes every frame of registered records. -/
theorem demuxFrom_framed {registry : Registry} {records : List Record} {body : List Bool}
    (h : Encoded registry records body) (pad : ℕ) {fuel : ℕ} (out : List Record)
    (hfuel : (body ++ List.replicate pad false).length < fuel)
    : demuxFrom registry fuel (body ++ List.replicate pad false) out = .ok (out ++ records, .ok) := by
  induction h generalizing fuel out with
  | nil =>
    rw [List.append_nil, List.nil_append]
    exact demuxFrom_pad (by simp)
  | @cons sid count wireInts code codes bits records hsid hcount hreading hlen hrest ih =>
    have hcode : 0 < code.length := List.length_pos_of_mem (true_mem_code hsid)
    cases fuel with
    | zero => cases hfuel
    | succ fuel =>
      have hshort : (bits ++ List.replicate pad false).length < fuel := by
        simp only [List.length_append] at hfuel ⊢
        omega
      have htail := ih (out ++ [(sid, wireInts)]) hshort
      have htake := takeReading_append hreading (bits ++ List.replicate pad false)
      rw [hlen] at htake
      rw [List.append_assoc, List.append_assoc,
        demuxFrom_record (by simp [true_mem_code hsid]) (takeOne_append hsid _) hcount htake, htail,
        List.append_assoc, List.singleton_append]

/-- And only those: any other bits deliver nothing. -/
theorem demuxFrom_cases (registry : Registry) {fuel : ℕ} {bits : List Bool} (out : List Record)
    (hfuel : bits.length < fuel)
    : (∃ records, Framed registry records bits)
        ∨ ∃ cause, cause ≠ .ok ∧ demuxFrom registry fuel bits out = .ok ([], cause) := by
  induction fuel generalizing bits out with
  | zero => cases hfuel
  | succ fuel ih =>
    by_cases hone : true ∈ bits
    . rcases takeOne_cases bits with hnone | ⟨sid, code, rest, hsid, hbits, hcode, htake⟩
      . exact .inr ⟨.truncated, by decide, demuxFrom_unterminated hone hnone⟩
      . cases hcount : registry.lookup sid with
        | none => exact .inr ⟨.unknownStream, by decide, demuxFrom_unknown hone htake hcount⟩
        | some count =>
          rcases takeReading_cases count.toNat rest with hnone | ⟨wireInts, codes, rest', hreading, hlen, hrest, hsome⟩
          . exact .inr ⟨.truncated, by decide, demuxFrom_truncated hone htake hcount hnone⟩
          . have hshort : rest'.length < fuel := by
              simp only [hbits, hrest, List.length_append] at hfuel
              omega
            rw [demuxFrom_record hone htake hcount hsome]
            rcases ih (out ++ [(sid, wireInts)]) hshort with ⟨records, body, pad, hbody, hpad⟩ | hrejected
            . refine .inl ⟨(sid, wireInts) :: records, code ++ codes ++ body, pad,
                .cons hsid hcount hreading hlen hbody, ?_⟩
              simp [hbits, hrest, hpad]
            . exact .inr hrejected
    . refine .inl ⟨[], [], bits.length, .nil, List.eq_replicate_iff.mpr ⟨rfl, ?_⟩⟩
      intro b hb
      cases b with
      | false => rfl
      | true => exact absurd hb hone

theorem demux_framed {registry : Registry} {records : List Record} {frame : List UInt8}
    (h : Framed registry records (Packed.unpack frame))
    : demux frame registry = .ok (records, .ok) := by
  rcases h with ⟨body, pad, hbody, hpad⟩
  rw [demux, hpad]
  exact demuxFrom_framed hbody pad [] (by omega)

/- What is written. -/

/-- A record that can be written and that its stream's reader knows. -/
structure Registered (registry : Registry) (record : Record) : Prop where
  streamId : 1 ≤ record.1
  nonempty : record.2 ≠ []
  wireInts : ∀ value ∈ record.2, 1 ≤ value
  count : registry.lookup record.1 = some (record.2.length : ℤ)

theorem encodeStream_of_pos {values : List ℤ} (h : ∀ value ∈ values, 1 ≤ value)
    : ∃ codes, encodeStream values = .ok codes := by
  induction values with
  | nil => exact ⟨[], rfl⟩
  | cons value values ih =>
    rcases encode_of_pos (h value (by simp)) with ⟨ds, _, _, hvalue⟩
    rcases ih fun v hv => h v (by simp [hv]) with ⟨codes, hvalues⟩
    exact ⟨codeOf ds ++ codes, by rw [encodeStream_cons, hvalue, hvalues]; rfl⟩

theorem encodeRecord_registered {registry : Registry} {record : Record} (h : Registered registry record)
    : ∃ code codes, Zeckendorf.encode record.1 = .ok code ∧ encodeStream record.2 = .ok codes
        ∧ encodeRecord record = .ok (code ++ codes) := by
  rcases encode_of_pos h.streamId with ⟨ds, _, _, hsid⟩
  rcases encodeStream_of_pos h.wireInts with ⟨codes, hcodes⟩
  refine ⟨codeOf ds, codes, hsid, hcodes, ?_⟩
  have hid : ¬ record.1 < 1 := by
    have := h.streamId
    omega
  rw [encodeRecord, if_neg hid, if_neg h.nonempty, hsid, hcodes]
  rfl

theorem encoded_of_registered {registry : Registry} {records : List Record}
    (h : ∀ record ∈ records, Registered registry record)
    : ∃ codes, records.mapM encodeRecord = .ok codes ∧ Encoded registry records codes.flatten := by
  induction records with
  | nil => exact ⟨[], rfl, .nil⟩
  | cons record records ih =>
    have hrecord := h record (by simp)
    rcases encodeRecord_registered hrecord with ⟨code, codes, hsid, hreading, hencode⟩
    rcases ih fun r hr => h r (by simp [hr]) with ⟨rest, hrest, hbody⟩
    refine ⟨(code ++ codes) :: rest, ?_, ?_⟩
    . rw [List.mapM_cons, hencode, hrest]
      rfl
    . rw [List.flatten_cons]
      exact .cons hsid hrecord.count hreading (by simp) hbody

/-- What is written is read back, and the frames that are read are those of registered records, with a zero pad
of any length; another frame delivers nothing. -/
theorem concentrator_framing (registry : Registry)
    : (∀ records, (∀ record ∈ records, Registered registry record)
        → ∃ frame, concentrate records = .ok frame ∧ demux frame registry = .ok (records, .ok))
      ∧ ∀ frame, ∃ out cause, demux frame registry = .ok (out, cause)
          ∧ (cause = .ok ↔ ∃ records, Framed registry records (Packed.unpack frame))
          ∧ (∀ records, Framed registry records (Packed.unpack frame) → out = records)
          ∧ (cause ≠ .ok → out = []) := by
  refine ⟨fun records h => ?_, fun frame => ?_⟩
  . rcases encoded_of_registered h with ⟨codes, hcodes, hbody⟩
    rcases Packed.pack_unpack codes.flatten with ⟨frame, pad, hframe, _, hunpack⟩
    refine ⟨frame, ?_, demux_framed ⟨codes.flatten, pad, hbody, hunpack⟩⟩
    rw [concentrate, hcodes]
    exact hframe
  . rcases demuxFrom_cases registry [] (Nat.lt_succ_self (Packed.unpack frame).length) with
      ⟨records, hframed⟩ | ⟨cause, hcause, hrejected⟩
    . have hdemux := demux_framed hframed
      refine ⟨records, .ok, hdemux, by simp; exact ⟨records, hframed⟩, ?_, by simp⟩
      intro records' hframed'
      have := (demux_framed hframed').symm.trans hdemux
      simp only [Except.ok.injEq, Prod.mk.injEq, and_true] at this
      exact this.symm
    . have hnot : ¬ ∃ records, Framed registry records (Packed.unpack frame) := by
        rintro ⟨records, hframed⟩
        have := (demux_framed hframed).symm.trans hrejected
        simp only [Except.ok.injEq, Prod.mk.injEq] at this
        exact hcause this.2.symm
      refine ⟨[], cause, hrejected, by simp [hcause, hnot], ?_, fun _ => rfl⟩
      intro records hframed
      exact absurd ⟨records, hframed⟩ hnot

theorem twoStreams_framing
    : ∃ frame, concentrate [(2, [1, 4]), (1, [7])] = .ok frame
        ∧ demux frame [(1, 1), (2, 2)] = .ok ([(2, [1, 4]), (1, [7])], .ok) := by
  refine (concentrator_framing [(1, 1), (2, 2)]).1 _ fun record hrecord => ?_
  simp only [List.mem_cons, List.not_mem_nil, or_false] at hrecord
  rcases hrecord with rfl | rfl
  . exact ⟨by decide, by decide, by decide, rfl⟩
  . exact ⟨by decide, by decide, by decide, rfl⟩

/-- Eight zero bytes are a frame of no records; there is no way to read them with a pad below a word. -/
theorem zeroFrame_accepted
    : demux (List.replicate 8 0) [(1, 1)] = .ok ([], .ok)
      ∧ ¬ ∃ records body pad, Encoded [(1, 1)] records body ∧ pad < 64
          ∧ Packed.unpack (List.replicate 8 0) = body ++ List.replicate pad false := by
  have hzeros : Packed.unpack (List.replicate 8 0) = List.replicate 64 false := by with_unfolding_all decide
  refine ⟨demux_framed ⟨[], 64, .nil, hzeros⟩, ?_⟩
  rintro ⟨records, body, pad, hbody, hpad, hunpack⟩
  rw [hzeros] at hunpack
  cases hbody with
  | nil =>
    have := congrArg List.length hunpack
    simp at this
    omega
  | cons hsid _ _ _ _ =>
    have hmem := true_mem_code hsid
    have : true ∈ List.replicate 64 false := by
      rw [hunpack]
      simp [hmem]
    simp at this

end Concentrator
