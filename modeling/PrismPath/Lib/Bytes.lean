import Mathlib.Data.List.Basic
import Mathlib.Tactic.Ring

/-!
This module contains little endian numbers at an offset of a byte string.
-/

namespace Bytes

def u8? (data : List UInt8) (off : Nat) : Option Nat :=
  data[off]?.map UInt8.toNat

def u16? (data : List UInt8) (off : Nat) : Option Nat := do
  let lo ← u8? data off
  let hi ← u8? data (off + 1)
  return lo + 2 ^ 8 * hi

def u32? (data : List UInt8) (off : Nat) : Option Nat := do
  let lo ← u16? data off
  let hi ← u16? data (off + 2)
  return lo + 2 ^ 16 * hi

/-- The two's complement reading of a 32 bit word. -/
def signed32 (n : Nat) : ℤ :=
  if n < 2 ^ 31 then n else (n : ℤ) - 2 ^ 32

def i32? (data : List UInt8) (off : Nat) : Option ℤ :=
  (u32? data off).map signed32

theorem u8?_of_lt (data : List UInt8) (off : Nat) (h : off < data.length)
    : ∃ n, u8? data off = some n ∧ n < 2 ^ 8 := by
  refine ⟨data[off].toNat, ?_, data[off].toNat_lt⟩
  simp [u8?, List.getElem?_eq_getElem h]

theorem u16?_of_le (data : List UInt8) (off : Nat) (h : off + 2 ≤ data.length)
    : ∃ n, u16? data off = some n ∧ n < 2 ^ 16 := by
  rcases u8?_of_lt data off (by omega) with ⟨lo, hlo, _⟩
  rcases u8?_of_lt data (off + 1) (by omega) with ⟨hi, hhi, _⟩
  exact ⟨lo + 2 ^ 8 * hi, by simp [u16?, hlo, hhi], by omega⟩

theorem u32?_of_le {data : List UInt8} {off : Nat} (h : off + 4 ≤ data.length)
    : ∃ n, u32? data off = some n ∧ n < 2 ^ 32 := by
  rcases u16?_of_le data off (by omega) with ⟨lo, hlo, _⟩
  rcases u16?_of_le data (off + 2) (by omega) with ⟨hi, hhi, _⟩
  exact ⟨lo + 2 ^ 16 * hi, by simp [u32?, hlo, hhi], by omega⟩

theorem u8?_lt {data : List UInt8} {off n : Nat} (h : u8? data off = some n)
    : n < 2 ^ 8 := by
  rcases Option.map_eq_some_iff.mp h with ⟨b, _, rfl⟩
  exact b.toNat_lt

theorem u16?_lt {data : List UInt8} {off n : Nat} (h : u16? data off = some n)
    : n < 2 ^ 16 := by
  rcases Option.bind_eq_some_iff.mp h with ⟨lo, hlo, h⟩
  rcases Option.bind_eq_some_iff.mp h with ⟨hi, hhi, h⟩
  cases h
  have hlolt := u8?_lt hlo
  have hhilt := u8?_lt hhi
  omega

theorem u32?_lt {data : List UInt8} {off n : Nat} (h : u32? data off = some n)
    : n < 2 ^ 32 := by
  rcases Option.bind_eq_some_iff.mp h with ⟨lo, hlo, h⟩
  rcases Option.bind_eq_some_iff.mp h with ⟨hi, hhi, h⟩
  cases h
  have hlolt := u16?_lt hlo
  have hhilt := u16?_lt hhi
  omega

theorem i32?_bounds {data : List UInt8} {off : Nat} {n : ℤ} (h : i32? data off = some n)
    : -2 ^ 31 ≤ n ∧ n < 2 ^ 31 := by
  rcases Option.map_eq_some_iff.mp h with ⟨m, hm, rfl⟩
  have hlt := u32?_lt hm
  unfold signed32
  split <;> omega

theorem i32?_of_le (data : List UInt8) (off : Nat) (h : off + 4 ≤ data.length)
    : ∃ n, i32? data off = some n := by
  rcases u32?_of_le h with ⟨n, hn, _⟩
  exact ⟨signed32 n, by simp [i32?, hn]⟩

/- Numbers and records in the midst of other bytes. -/

section Reads

variable {α : Type}

/-- The bytes are read as the value wherever they stand. -/
def Reads (at? : List UInt8 → Nat → Option α) (a : α) (bytes : List UInt8) : Prop :=
  ∀ pre post, at? (pre ++ (bytes ++ post)) pre.length = some a

theorem Reads.after {at? : List UInt8 → Nat → Option α} {a : α} {bytes : List UInt8} (h : Reads at? a bytes)
    (pre mid post : List UInt8)
    : at? (pre ++ (mid ++ (bytes ++ post))) (pre.length + mid.length) = some a := by
  rw [← List.append_assoc, ← List.length_append]
  exact h (pre ++ mid) post

end Reads

theorem reads_u8 (b : UInt8)
    : Reads u8? b.toNat [b] := by
  intro pre post
  rw [u8?, List.getElem?_append_right (Nat.le_refl _), Nat.sub_self]
  rfl

theorem Reads.u16 {lo hi : Nat} {first second : List UInt8} (hlo : Reads u8? lo first) (hhi : Reads u8? hi second)
    (hlength : first.length = 1)
    : Reads u16? (lo + 2 ^ 8 * hi) (first ++ second) := by
  intro pre post
  have hsecond := hhi.after pre first post
  rw [hlength] at hsecond
  rw [List.append_assoc, u16?, hlo, hsecond]
  rfl

theorem Reads.u32 {lo hi : Nat} {first second : List UInt8} (hlo : Reads u16? lo first) (hhi : Reads u16? hi second)
    (hlength : first.length = 2)
    : Reads u32? (lo + 2 ^ 16 * hi) (first ++ second) := by
  intro pre post
  have hsecond := hhi.after pre first post
  rw [hlength] at hsecond
  rw [List.append_assoc, u32?, hlo, hsecond]
  rfl

theorem Reads.i32 {n : Nat} {bytes : List UInt8} (h : Reads u32? n bytes)
    : Reads i32? (signed32 n) bytes := by
  intro pre post
  rw [i32?, h]
  rfl

end Bytes
