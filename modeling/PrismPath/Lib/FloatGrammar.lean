import Mathlib

/-!
This module contains the texts a binary float is read from: an optional sign, and a decimal number with an optional
exponent or one of the words for what is not finite. What is read is the number as it is spelled, before any rounding.
-/

namespace FloatGrammar

/-- What a text spells. -/
inductive Spelled where
  | nan
  | inf (neg : Bool)
  | finite (q : ℚ)
  deriving DecidableEq

/-- The text after the sign, and whether that is a minus. -/
def sign : List Char → Bool × List Char
  | '-' :: cs => (true, cs)
  | '+' :: cs => (false, cs)
  | cs => (false, cs)

/-- The exponent a text is, which is 0 when there is none. -/
def exponent : List Char → Option ℤ
  | [] => some 0
  | c :: rest =>
    if c = 'e' ∨ c = 'E' then
      let (neg, digits) := sign rest
      let n : ℤ := Nat.ofDigitChars 10 digits 0
      if digits ≠ [] ∧ digits.all Char.isDigit = true then some (if neg then -n else n) else none
    else
      none

/-- The digits after a point, and what follows them. -/
def fraction : List Char → List Char × List Char
  | '.' :: rest => (rest.takeWhile Char.isDigit, rest.dropWhile Char.isDigit)
  | rest => ([], rest)

def decimal (cs : List Char) : Option ℚ :=
  let whole := cs.takeWhile Char.isDigit
  let (places, rest) := fraction (cs.dropWhile Char.isDigit)
  if whole = [] ∧ places = [] then
    none
  else
    (exponent rest).map fun e : ℤ => Nat.ofDigitChars 10 (whole ++ places) 0 * (10 : ℚ) ^ (e - places.length)

def read (cs : List Char) : Option Spelled :=
  let (neg, body) := sign cs
  let word := body.map Char.toLower
  if word = "inf".toList ∨ word = "infinity".toList then some (.inf neg)
  else if word = "nan".toList then some .nan
  else (decimal body).map fun q => .finite (if neg then -q else q)

/- The characters of such a text. -/

def isPlain (c : Char) : Bool :=
  c.isAlphanum || c = '.' || c = '+' || c = '-'

def Plain (cs : List Char) : Prop :=
  ∀ c ∈ cs, isPlain c = true

theorem isPlain_of_isDigit {c : Char} (h : c.isDigit = true)
    : isPlain c = true := by
  rw [isPlain, Char.isAlphanum, h]
  simp

theorem plain_takeWhile (cs : List Char)
    : Plain (cs.takeWhile Char.isDigit) :=
  fun _ hc => isPlain_of_isDigit (List.mem_takeWhile_imp hc)

theorem plain_append {cs ds : List Char} (hcs : Plain cs) (hds : Plain ds)
    : Plain (cs ++ ds) := by
  intro c hc
  rcases List.mem_append.mp hc with hc | hc
  . exact hcs c hc
  . exact hds c hc

theorem plain_cons {c : Char} {cs : List Char} (hc : isPlain c = true) (hcs : Plain cs)
    : Plain (c :: cs) :=
  List.forall_mem_cons.mpr ⟨hc, hcs⟩

theorem plain_of_sign {cs : List Char} (h : Plain (sign cs).2)
    : Plain cs := by
  unfold sign at h
  split at h
  . exact plain_cons rfl h
  . exact plain_cons rfl h
  . exact h

theorem isPlain_of_toLower {c : Char} (h : c.toLower.isAlpha = true)
    : isPlain c = true := by
  unfold Char.toLower at h
  split at h
  . next hupper =>
    have hletter : c.isUpper = true := by
      simp only [Char.isUpper, decide_eq_true_eq]
      exact hupper
    rw [isPlain, Char.isAlphanum, Char.isAlpha, hletter]
    simp
  . rw [isPlain, Char.isAlphanum, h]
    simp

theorem plain_of_word {cs word : List Char} (h : cs.map Char.toLower = word) (hword : word.all Char.isAlpha = true)
    : Plain cs := by
  intro c hc
  apply isPlain_of_toLower
  apply List.all_eq_true.mp hword
  rw [← h]
  exact List.mem_map_of_mem hc

theorem plain_of_exponent {cs : List Char} {e : ℤ} (h : exponent cs = some e)
    : Plain cs := by
  unfold exponent at h
  split at h
  . exact fun _ hc => by cases hc
  . next c rest =>
    split at h
    . next hletter =>
      simp only at h
      split at h
      . next hdigits =>
        apply plain_cons
        . rcases hletter with rfl | rfl <;> rfl
        . apply plain_of_sign
          exact fun d hd => isPlain_of_isDigit (List.all_eq_true.mp hdigits.2 d hd)
      . cases h
    . cases h

theorem plain_of_fraction {cs : List Char} (h : Plain (fraction cs).2)
    : Plain cs := by
  unfold fraction at h
  split at h
  . next rest =>
    apply plain_cons rfl
    rw [← List.takeWhile_append_dropWhile (p := Char.isDigit) (l := rest)]
    exact plain_append (plain_takeWhile rest) h
  . exact h

theorem plain_of_decimal {cs : List Char} {q : ℚ} (h : decimal cs = some q)
    : Plain cs := by
  unfold decimal at h
  simp only at h
  split at h
  . cases h
  . rcases Option.map_eq_some_iff.mp h with ⟨e, he, _⟩
    rw [← List.takeWhile_append_dropWhile (p := Char.isDigit) (l := cs)]
    exact plain_append (plain_takeWhile cs) (plain_of_fraction (plain_of_exponent he))

/-- A text that is read has no white space in it, no underscore and no character outside ASCII. -/
theorem plain_of_read {cs : List Char} {v : Spelled} (h : read cs = some v)
    : Plain cs := by
  unfold read at h
  simp only at h
  apply plain_of_sign
  split at h
  . next hword =>
    rcases hword with hword | hword
    . exact plain_of_word hword (by decide)
    . exact plain_of_word hword (by decide)
  . split at h
    . next hword => exact plain_of_word hword (by decide)
    . rcases Option.map_eq_some_iff.mp h with ⟨q, hq, _⟩
      exact plain_of_decimal hq

theorem ne_nil_of_read {cs : List Char} {v : Spelled} (h : read cs = some v)
    : cs ≠ [] := by
  rintro rfl
  cases h

end FloatGrammar
