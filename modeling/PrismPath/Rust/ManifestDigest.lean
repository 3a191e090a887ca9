import PrismPath.Rust.CanonicalAgreement

/-!
This module contains the content address of a manifest on both sides: a manifest that one side hashes verifies on
the other.
-/

namespace Canon

open Python

variable (sha256 : List UInt8 → List UInt8)

/-- `canon.manifest_hash`; `none` is the `TypeError` of keys that cannot be sorted. -/
def manifestHash (m : List (Key × Obj)) : Option Json.Str :=
  (dumpsSorted (.dict (m.filter fun kv => kv.1 ≠ .str (str "manifest_hash")))).map fun cs => hex (sha256 (textBytes cs))

def verifyManifest (m : List (Key × Obj)) : Option Bool := do
  let hash ← manifestHash sha256 m
  match m.lookup (.str (str "manifest_hash")) with
  | some (.str s) => return hash = s
  | _ => return false

end Canon

namespace Rust

open Json Python

variable {readFloat : Json.Number → Option Finite} {lowerExp : Double → Decimal}

/- Without the hash itself. -/

/-- The string a document is. -/
def stringOf : Tree → Option Str
  | .string s => some s
  | _ => none

theorem asStr_read {remaining : ℕ} {t : Tree} {v : Value} (h : Serde.readAt readFloat remaining t = some v)
    : v.asStr = stringOf t := by
  match remaining, t with
  | _, .word w =>
    rw [Serde.readAt] at h
    cases w <;> first | (cases h; rfl) | cases h
  | _, .string s =>
    rw [Serde.readAt] at h
    rcases Option.map_eq_some_iff.mp h with ⟨s', hs, rfl⟩
    rw [(readString_some hs).1]
    rfl
  | _, .number n =>
    rw [Serde.readAt] at h
    rcases Option.map_eq_some_iff.mp h with ⟨_, _, rfl⟩
    rfl
  | 0, .array ts => cases h
  | remaining + 1, .array ts =>
    rcases Option.map_eq_some_iff.mp h with ⟨_, _, rfl⟩
    rfl
  | 0, .object ms => cases h
  | remaining + 1, .object ms =>
    rcases Option.map_eq_some_iff.mp h with ⟨_, _, rfl⟩
    rfl

theorem decode_eq_str_iff (t : Tree) (s : Str)
    : decode t = .str s ↔ stringOf t = some s := by
  cases t with
  | word w => cases w <;> simp [decode, decodeWord, stringOf]
  | number n =>
    simp only [decode, decodeNumber, stringOf]
    split <;> simp
  | string s' => simp [decode, stringOf]
  | array ts => simp [decode, stringOf]
  | object ms => simp [decode, dictOf, stringOf]

variable (sha256 : List UInt8 → List UInt8)

/-- A reader that rounds to nearest. -/
def readNearest (n : Json.Number) : Option Finite :=
  match Float64.ofNumber n with
  | .finite neg x => some (neg, x)
  | _ => none

end Rust
