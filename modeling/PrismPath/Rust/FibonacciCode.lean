import PrismPath.Telemetry.FibonacciWire

/-!
This module contains the Rust decoder of Fibonacci codes in words of 64 bits, and that it gives each code's value as far
as a word holds it, without a panic.
-/

namespace Rust

namespace FibonacciCode

/- A run is `none` where it panics; sums wrap as they do in a release build. -/

/-- `a - b` of two lengths. -/
def checkedSub (a b : ℕ) : Option ℕ :=
  if b ≤ a then some (a - b) else none

/-- `chars[first..=last]` -/
def slice {α : Type} (chars : List α) (first last : ℕ) : Option (List α) :=
  if first ≤ last + 1 ∧ last < chars.length then some ((chars.drop first).take (last + 1 - first)) else none

/-- `while fibs.len() < length`; as many rounds as the length are enough. -/
def growFibs (length : ℕ) : ℕ → List UInt64 → Option (List UInt64)
  | 0, fibs => if fibs.length < length then none else some fibs
  | fuel + 1, fibs =>
    if fibs.length < length then do
      let last ← fibs[(← checkedSub fibs.length 1)]?
      let previous ← fibs[(← checkedSub fibs.length 2)]?
      growFibs length fuel (fibs ++ [last + previous])
    else
      some fibs

/-- `while fibs.last() <= upper_bound`; as many rounds as the bound are enough where no sum wraps. -/
def growUpto (upperBound : UInt64) : ℕ → List UInt64 → Option (List UInt64)
  | 0, _ => none
  | fuel + 1, fibs => do
    if (← fibs.getLast?) ≤ upperBound then
      let last ← fibs[(← checkedSub fibs.length 1)]?
      let previous ← fibs[(← checkedSub fibs.length 2)]?
      growUpto upperBound fuel (fibs ++ [last + previous])
    else
      return fibs

def fibsUpto (upperBound : UInt64) : Option (List UInt64) := do
  let fibs ← growUpto upperBound (upperBound.toNat + 1) [1, 2]
  return if upperBound < (← fibs.getLast?) then fibs.dropLast else fibs

/-- The bits of the numbers taken, the largest first, and what is left. -/
def greedy : List UInt64 → UInt64 → List Bool × UInt64
  | [], rem => ([], rem)
  | fib :: fibs, rem =>
    if fib ≤ rem then
      let (bits, rest) := greedy fibs (rem - fib)
      (true :: bits, rest)
    else
      let (bits, rest) := greedy fibs rem
      (false :: bits, rest)

/-- The code, or the value as an error; what is left is asserted to be zero. -/
def encode (value : UInt64) : Option (Except UInt64 (List Bool)) :=
  if value < 1 then
    some (.error value)
  else do
    let fibs ← fibsUpto value
    let (bits, rem) := greedy fibs.reverse value
    if rem = 0 then some (.ok (bits.reverse ++ [true])) else none

def encodeStream (values : List UInt64) : Option (Except UInt64 (List Bool)) :=
  match values with
  | [] => some (.ok [])
  | value :: values => do
    match ← encode value with
    | .error value => return .error value
    | .ok code => return (← encodeStream values).map (code ++ ·)

def sumOnes (fibs : List UInt64) : (index : ℕ) → List Bool → UInt64 → Option UInt64
  | _, [], sum => some sum
  | index, ch :: zeck, sum =>
    if ch then do
      let fib ← fibs[index]?
      sumOnes fibs (index + 1) zeck (sum + fib)
    else
      sumOnes fibs (index + 1) zeck sum

/-- The value of a code, or the code as an error. -/
def decode (code : List Bool) : Option (Except (List Bool) UInt64) :=
  if code.length < 2 ∨ ¬[true, true] <:+ code then
    some (.error code)
  else do
    let zeck := code.take (← checkedSub code.length 1)
    let fibs ← growFibs zeck.length zeck.length [1, 2]
    let sum ← sumOnes fibs 0 zeck 0
    return .ok sum

/-- `chars[cursor] == '1' && cursor + 1 < bit_count && chars[cursor + 1] == '1'` -/
def pairAt (chars : List Bool) (cursor : ℕ) : Option Bool := do
  let one ← chars[cursor]?
  if one && decide (cursor + 1 < chars.length) then chars[cursor + 1]? else some false

/-- `while cursor < bit_count`; as many rounds as there are bits are enough. -/
def splitFrom (chars : List Bool) : ℕ → (start cursor : ℕ) → List UInt64 → Option (List UInt64)
  | 0, _, cursor, out => if cursor < chars.length then none else some out
  | fuel + 1, start, cursor, out =>
    if cursor < chars.length then do
      if ← pairAt chars cursor then
        match ← decode (← slice chars start (cursor + 1)) with
        | .ok val => splitFrom chars fuel (cursor + 2) (cursor + 2) (out ++ [val])
        | .error _ => splitFrom chars fuel (cursor + 2) (cursor + 2) out
      else
        splitFrom chars fuel start (cursor + 1) out
    else
      some out

def decodeStream (bits : List Bool) : Option (List UInt64) :=
  splitFrom bits bits.length 0 0 []

/- One code. -/

open Fibonacci

/-- The table, as far as a word holds its numbers. -/
def fibs64 (n : ℕ) : List UInt64 :=
  (fibs n).map UInt64.ofNat

@[simp]
theorem length_fibs64 (n : ℕ)
    : (fibs64 n).length = n := by
  simp [fibs64]

theorem getElem?_fibs64 {n i : ℕ} (h : i < n)
    : (fibs64 n)[i]? = some (UInt64.ofNat (Nat.fib (i + 2))) := by
  simp [fibs64, fibs, h]

theorem fibs64_succ (n : ℕ)
    : fibs64 (n + 3) = fibs64 (n + 2) ++ [UInt64.ofNat (Nat.fib (n + 3)) + UInt64.ofNat (Nat.fib (n + 2))] := by
  rw [fibs64, fibs_succ, List.map_append, List.map_singleton, Nat.fib_add_two (n := n + 2), ← UInt64.ofNat_add,
    Nat.add_comm (Nat.fib (n + 2)), fibs64]

theorem growFibs_fibs64 {length fuel n : ℕ} (h : length ≤ n + 2 + fuel)
    : ∃ m, growFibs length fuel (fibs64 (n + 2)) = some (fibs64 m) ∧ length ≤ m := by
  induction fuel generalizing n with
  | zero =>
    refine ⟨n + 2, ?_, h⟩
    rw [growFibs, length_fibs64, if_neg (by omega)]
  | succ fuel ih =>
    rw [growFibs, length_fibs64]
    split
    . rcases ih (n := n + 1) (by omega) with ⟨m, hgrow, hm⟩
      refine ⟨m, ?_, hm⟩
      have hlast : (fibs64 (n + 2))[n + 2 - 1]? = some (UInt64.ofNat (Nat.fib (n + 3))) := getElem?_fibs64 (by omega)
      have hprevious : (fibs64 (n + 2))[n + 2 - 2]? = some (UInt64.ofNat (Nat.fib (n + 2))) := getElem?_fibs64 (by omega)
      rw [checkedSub, if_pos (by omega), checkedSub, if_pos (by omega)]
      simp only [Option.bind_eq_bind, Option.bind_some]
      rw [hlast, hprevious, ← hgrow, fibs64_succ]
      rfl
    . exact ⟨n + 2, rfl, by omega⟩

theorem sumOnes_eq {m index : ℕ} {zeck : List Bool} (h : index + zeck.length ≤ m) (sum : ℕ)
    : sumOnes (fibs64 m) index zeck (UInt64.ofNat sum)
        =
      some (UInt64.ofNat (sum + ((((fibs m).drop index).zip zeck).map fun (fib, bit) => if bit then fib else 0).sum)) := by
  induction zeck generalizing index sum with
  | nil => simp [sumOnes]
  | cons ch zeck ih =>
    rw [List.length_cons] at h
    have hdrop : (fibs m).drop index = Nat.fib (index + 2) :: (fibs m).drop (index + 1) := by
      rw [List.drop_eq_getElem_cons (by rw [length_fibs]; omega)]
      simp [fibs]
    rw [hdrop, List.zip_cons_cons, List.map_cons, List.sum_cons, sumOnes]
    split
    . next hone =>
      rw [getElem?_fibs64 (by omega)]
      simp only [Option.bind_eq_bind, Option.bind_some]
      rw [← UInt64.ofNat_add, ih (by omega), hone]
      simp [Nat.add_assoc]
    . next hzero =>
      rw [ih (by omega)]
      simp [hzero]

/- The code of a number. -/

theorem le_ofNat {n m : ℕ} (hn : n < 2 ^ 64) (hm : m < 2 ^ 64)
    : UInt64.ofNat n ≤ UInt64.ofNat m ↔ n ≤ m := by
  rw [UInt64.le_iff_toNat_le, UInt64.toNat_ofNat_of_lt' hn, UInt64.toNat_ofNat_of_lt' hm]

theorem greedy_ofNat {fs : List ℕ} {rem : ℕ} (hfs : ∀ f ∈ fs, f < 2 ^ 64) (hrem : rem < 2 ^ 64)
    : greedy (fs.map UInt64.ofNat) (UInt64.ofNat rem)
        =
      ((Fibonacci.greedy fs rem).1, UInt64.ofNat (Fibonacci.greedy fs rem).2) := by
  induction fs generalizing rem with
  | nil => rfl
  | cons f fs ih =>
    rw [List.forall_mem_cons] at hfs
    rw [List.map_cons, greedy, Fibonacci.greedy]
    by_cases hle : f ≤ rem
    . have hsub : UInt64.ofNat rem - UInt64.ofNat f = UInt64.ofNat (rem - f) := (UInt64.ofNat_sub hle).symm
      rw [if_pos ((le_ofNat hfs.1 hrem).mpr hle), if_pos hle, hsub, ih hfs.2 (by omega)]
    . rw [if_neg (fun h => hle ((le_ofNat hfs.1 hrem).mp h)), if_neg hle, ih hfs.2 hrem]

theorem getLast?_fibs64 (n : ℕ)
    : (fibs64 (n + 1)).getLast? = some (UInt64.ofNat (Nat.fib (n + 2))) := by
  rw [fibs64, fibs_succ, List.map_append, List.map_singleton, List.getLast?_concat]

/-- The table up to the Fibonacci number after a value. -/
theorem growUpto_fibs64 {value n k fuel : ℕ} (hvalue : value < 2 ^ 62) (hlt : value < Nat.fib (n + 3))
    (hge : Nat.fib (n + 2) ≤ value) (hk : k ≤ n) (hfuel : n - k < fuel)
    : growUpto (UInt64.ofNat value) fuel (fibs64 (k + 2)) = some (fibs64 (n + 2)) := by
  have hbound : ∀ i, i ≤ n → Nat.fib (i + 3) < 2 ^ 64 := by
    intro i hi
    have hmono : Nat.fib (i + 3) ≤ Nat.fib (n + 3) := Nat.fib_mono (by omega)
    have hstep : Nat.fib (n + 3) = Nat.fib (n + 1) + Nat.fib (n + 2) := Nat.fib_add_two
    have hless : Nat.fib (n + 1) ≤ Nat.fib (n + 2) := Nat.fib_mono (by omega)
    omega
  induction fuel generalizing k with
  | zero => omega
  | succ fuel ih =>
    rw [growUpto, getLast?_fibs64]
    simp only [Option.bind_eq_bind, Option.bind_some, le_ofNat (hbound k hk) (show value < 2 ^ 64 by omega)]
    by_cases heq : k = n
    . subst heq
      rw [if_neg (by omega)]
      rfl
    . have hmore : Nat.fib (k + 3) ≤ Nat.fib (n + 2) := Nat.fib_mono (by omega)
      have hlast : (fibs64 (k + 2))[k + 2 - 1]? = some (UInt64.ofNat (Nat.fib (k + 3))) := getElem?_fibs64 (by omega)
      have hprevious : (fibs64 (k + 2))[k + 2 - 2]? = some (UInt64.ofNat (Nat.fib (k + 2))) := getElem?_fibs64 (by omega)
      rw [if_pos (by omega), length_fibs64, checkedSub, if_pos (by omega), checkedSub, if_pos (by omega)]
      simp only [Option.bind_some]
      rw [hlast, hprevious, ← ih (k := k + 1) (by omega) (by omega), fibs64_succ]
      rfl

theorem fibsUpto_fibs64 {value n : ℕ} (hvalue : value < 2 ^ 62) (hlt : value < Nat.fib (n + 3))
    (hge : Nat.fib (n + 2) ≤ value)
    : fibsUpto (UInt64.ofNat value) = some (fibs64 (n + 1)) := by
  have hrounds := Nat.le_fib_add_one (n + 2)
  have hnext : Nat.fib (n + 3) < 2 ^ 64 := by
    have hstep : Nat.fib (n + 3) = Nat.fib (n + 1) + Nat.fib (n + 2) := Nat.fib_add_two
    have hless : Nat.fib (n + 1) ≤ Nat.fib (n + 2) := Nat.fib_mono (by omega)
    omega
  have hgrow := @growUpto_fibs64 value n 0 (value + 1) hvalue hlt hge (Nat.zero_le n) (by omega)
  have hbeyond : UInt64.ofNat value < UInt64.ofNat (Nat.fib (n + 3)) := by
    rw [UInt64.lt_iff_toNat_lt, UInt64.toNat_ofNat_of_lt' (show value < 2 ^ 64 by omega), UInt64.toNat_ofNat_of_lt' hnext]
    exact hlt
  rw [fibsUpto, UInt64.toNat_ofNat_of_lt' (show value < 2 ^ 64 by omega), show [1, 2] = fibs64 (0 + 2) by decide, hgrow]
  simp only [Option.bind_eq_bind, Option.bind_some, getLast?_fibs64, if_pos hbeyond]
  rw [fibs64, fibs_succ, List.map_append, List.map_singleton, List.dropLast_concat, fibs64]
  rfl

/-- The encoder gives a small number the code it is decoded from. -/
theorem encode_ofNat {value : ℕ} (hpos : 1 ≤ value) (hvalue : value < 2 ^ 62)
    : ∃ ds, weight (true :: ds) = value ∧ encode (UInt64.ofNat value) = some (.ok (Zeckendorf.codeOf ds)) := by
  rcases Zeckendorf.fibsUpto_eq hpos with ⟨n, _, hge, hlt⟩
  rcases exists_numeral hge hlt with ⟨ds, hlength, hsparse, hweight⟩
  have hall : ∀ f ∈ (fibs (n + 1)).reverse, f < 2 ^ 64 := by
    intro f hf
    rw [List.mem_reverse, fibs, List.mem_map] at hf
    rcases hf with ⟨i, hi, rfl⟩
    rw [List.mem_range] at hi
    have hmono : Nat.fib (i + 2) ≤ Nat.fib (n + 2) := Nat.fib_mono (by omega)
    omega
  have hgreedy := greedy_weight hsparse
  rw [List.length_cons, hlength, hweight] at hgreedy
  have hbits := greedy_ofNat hall (show value < 2 ^ 64 by omega)
  rw [hgreedy, List.map_reverse] at hbits
  have hone : ¬UInt64.ofNat value < 1 := by
    rw [UInt64.lt_iff_toNat_lt, UInt64.toNat_ofNat_of_lt' (show value < 2 ^ 64 by omega)]
    show ¬value < 1
    omega
  refine ⟨ds, hweight, ?_⟩
  rw [encode, if_neg hone, fibsUpto_fibs64 hvalue hlt hge]
  simp only [Option.bind_eq_bind, Option.bind_some, fibs64]
  rw [hbits]
  rfl

/-- A code that ends is decoded to what a word holds of its value. -/
theorem decode_codeOf (ds : List Bool)
    : decode (Zeckendorf.codeOf ds) = some (.ok (UInt64.ofNat (weight (true :: ds)))) := by
  have hcode : Zeckendorf.codeOf ds = ds.reverse ++ [true, true] := Zeckendorf.codeOf_eq ds
  have hends : ¬((Zeckendorf.codeOf ds).length < 2 ∨ ¬[true, true] <:+ Zeckendorf.codeOf ds) := by
    rw [hcode, not_or, not_not]
    exact ⟨by simp, List.suffix_append _ _⟩
  have hlength : (Zeckendorf.codeOf ds).length = ds.length + 2 := by simp [hcode]
  have hzeck : (Zeckendorf.codeOf ds).take (ds.length + 2 - 1) = (true :: ds).reverse := by
    rw [Zeckendorf.codeOf, List.take_left' (by simp)]
  rcases @growFibs_fibs64 (ds.length + 1) (ds.length + 1) 0 (by omega) with ⟨m, hgrow, hm⟩
  have hsum := @sumOnes_eq m 0 (true :: ds).reverse (by simpa using hm) 0
  rw [List.drop_zero, Nat.zero_add, Zeckendorf.zip_fibs hm (by simp), ← List.length_cons (a := true), sum_zip_fibs] at hsum
  rw [decode, if_neg hends, hlength, checkedSub, if_pos (by omega)]
  simp only [Option.bind_eq_bind, Option.bind_some, hzeck, List.length_reverse, List.length_cons]
  rw [show [1, 2] = fibs64 (0 + 2) by decide, hgrow, Option.bind_some, show (0 : UInt64) = UInt64.ofNat 0 from rfl, hsum]
  rfl

theorem decode_encode {value : ℕ} (hpos : 1 ≤ value) (hvalue : value < 2 ^ 62)
    : ∃ code, encode (UInt64.ofNat value) = some (.ok code) ∧ decode code = some (.ok (UInt64.ofNat value)) := by
  rcases encode_ofNat hpos hvalue with ⟨ds, hweight, hencode⟩
  refine ⟨_, hencode, ?_⟩
  rw [decode_codeOf, hweight]

/-- No bits make the decoder of one code panic. -/
theorem exists_decode (code : List Bool)
    : ∃ outcome, decode code = some outcome := by
  rw [decode]
  split
  . exact ⟨_, rfl⟩
  . next hends =>
    rw [not_or] at hends
    rw [checkedSub, if_pos (by omega)]
    simp only [Option.bind_eq_bind, Option.bind_some]
    generalize hzeck : code.take (code.length - 1) = zeck
    rcases @growFibs_fibs64 zeck.length zeck.length 0 (by omega) with ⟨m, hgrow, hm⟩
    have hsum := @sumOnes_eq m 0 zeck (by omega) 0
    rw [show [1, 2] = fibs64 (0 + 2) by decide, hgrow, Option.bind_some, show (0 : UInt64) = UInt64.ofNat 0 from rfl, hsum]
    exact ⟨_, rfl⟩

/- A stream. -/

open Zeckendorf (codes codeOf codeOf_eq)

theorem slice_eq {α : Type} {before piece after : List α} (hpiece : piece ≠ [])
    : slice (before ++ piece ++ after) before.length (before.length + piece.length - 1) = some piece := by
  have hpos := List.length_pos_iff.mpr hpiece
  rw [slice, if_pos (by simp only [List.length_append]; omega), List.append_assoc, List.drop_left,
    List.take_left' (by omega)]

theorem getElem?_cursor (before code bits : List Bool) (i : ℕ)
    : (before ++ code.reverse ++ bits)[before.length + code.length + i]? = bits[i]? := by
  rw [List.getElem?_append_right (by simp only [List.length_append, List.length_reverse]; omega)]
  congr 1
  simp only [List.length_append, List.length_reverse]
  omega

theorem length_chars (before code bits : List Bool)
    : (before ++ code.reverse ++ bits).length = before.length + code.length + bits.length := by
  simp only [List.length_append, List.length_reverse]

theorem pairAt_cursor (before code bits : List Bool)
    : pairAt (before ++ code.reverse ++ bits) (before.length + code.length) = pairAt bits 0 := by
  have hhead := getElem?_cursor before code bits 0
  rw [Nat.add_zero] at hhead
  rw [pairAt, pairAt, hhead, getElem?_cursor, length_chars, Nat.zero_add]
  cases bits[0]? with
  | none => rfl
  | some one =>
    have hlt : (before.length + code.length + 1 < before.length + code.length + bits.length) = (1 < bits.length) := by
      rw [eq_iff_iff]
      omega
    simp only [hlt]

/-- The bits before the code that was begun are done with, and those of it are in `code`, the last one first. -/
theorem splitFrom_eq {fuel : ℕ} (before code bits : List Bool) (out : List UInt64) (h : bits.length ≤ fuel)
    : splitFrom (before ++ code.reverse ++ bits) fuel before.length (before.length + code.length) out
        =
      some (out ++ (codes code bits).map UInt64.ofNat) := by
  induction fuel generalizing before code bits out with
  | zero =>
    rw [List.length_eq_zero_iff.mp (Nat.le_zero.mp h), splitFrom, length_chars, List.length_nil, if_neg (by omega), codes]
    simp
  | succ fuel ih =>
    rw [splitFrom, length_chars]
    have hpairAt := pairAt_cursor before code bits
    -- the cases of the bits are those of the codes
    fun_cases codes code bits with
    | case1 _ rest =>
      simp only [List.length_cons] at h
      have hslice : slice (before ++ code.reverse ++ true :: true :: rest) before.length (before.length + code.length + 1)
          = some (codeOf code) := by
        have hpiece : codeOf code ≠ [] := by simp [codeOf_eq]
        have hsplit := @slice_eq Bool before _ rest hpiece
        have hchars : before ++ code.reverse ++ true :: true :: rest = before ++ codeOf code ++ rest := by
          simp [codeOf_eq]
        have hlast : before.length + code.length + 1 = before.length + (codeOf code).length - 1 := by
          simp [codeOf_eq]
          omega
        rw [hchars, hlast, hsplit]
      have hrest := ih (before ++ codeOf code) [] rest (out ++ [UInt64.ofNat (weight (true :: code))]) (by omega)
      have hchars : before ++ codeOf code ++ List.reverse [] ++ rest = before ++ code.reverse ++ true :: true :: rest := by
        simp [codeOf_eq]
      have hstart : (before ++ codeOf code).length = before.length + code.length + 2 := by
        simp [codeOf_eq]
        omega
      rw [hchars, hstart, List.length_nil, Nat.add_zero] at hrest
      have hpair : pairAt (true :: true :: rest) 0 = some true := by simp [pairAt]
      rw [if_pos (by simp only [List.length_cons]; omega), hpairAt, hpair, hslice]
      simp only [Option.bind_eq_bind, Option.bind_some, decode_codeOf, if_true]
      rw [hrest]
      simp
    | case2 _ bit rest hpair =>
      simp only [List.length_cons] at h
      have hrest := ih before (bit :: code) rest out (by omega)
      have hchars : before ++ (bit :: code).reverse ++ rest = before ++ code.reverse ++ bit :: rest := by simp
      rw [hchars, List.length_cons, ← Nat.add_assoc] at hrest
      have hnot : pairAt (bit :: rest) 0 = some false := by
        cases bit with
        | false => simp [pairAt]
        | true =>
          rcases rest with _ | ⟨next, rest⟩
          . simp [pairAt]
          . cases next with
            | false => simp [pairAt]
            | true => exact absurd rfl (hpair rest rfl)
      rw [if_pos (by simp only [List.length_cons]; omega), hpairAt, hnot]
      exact hrest
    | case3 =>
      rw [List.length_nil, if_neg (by omega)]
      simp

/-- No bits make the decoder panic, and each value is the code's as far as a word holds it. -/
theorem decodeStream_eq (bits : List Bool)
    : decodeStream bits = some ((codes [] bits).map UInt64.ofNat) := by
  have hall := splitFrom_eq [] [] bits [] (Nat.le_refl _)
  simpa [decodeStream] using hall

end FibonacciCode

end Rust
