import PrismPath.Hotswap.CryptoAgility
import PrismPath.Rust.ConditionAgreement

/-!
This module contains when the text of a condition falls into the same tier on both sides: exactly when what Python
strips it to, and what it strips the part after the keyword to, neither begins nor ends with a byte order mark.
-/

namespace Rust

namespace Kernel

open Python (isSpace lstripChars rstripChars strip startsWith dropChars lower)

/- Trimming. -/

def isBom (c : Char) : Bool :=
  c.toNat = 0xFEFF

theorem isPyWs_iff {c : Char}
    : isPyWs c = true ↔ isSpace c = true ∨ isBom c = true := by
  simp only [isPyWs, isJsWs, isSpace, isBom, Bool.or_eq_true, Bool.and_eq_true, decide_eq_true_eq]
  omega

section

variable {α : Type} {p q : α → Bool} (hpq : ∀ x, p x = true → q x = true)
include hpq

theorem dropWhile_dropWhile_of_le (xs : List α)
    : (xs.dropWhile p).dropWhile q = xs.dropWhile q := by
  induction xs with
  | nil => rfl
  | cons x xs ih =>
    rw [List.dropWhile_cons]
    split
    next hp => rw [ih, List.dropWhile_cons, if_pos (hpq x hp)]
    next => rfl

/-- The stricter test on the right end does not change what the other drops on the left. -/
theorem rdropWhile_dropWhile_rdropWhile (xs : List α)
    : ((xs.rdropWhile p).dropWhile q).rdropWhile q = (xs.dropWhile q).rdropWhile q := by
  induction xs using List.reverseRecOn with
  | nil => rfl
  | append_singleton xs x ih =>
    rw [List.rdropWhile_concat]
    split
    next hp =>
      have hq := hpq x hp
      rw [ih, List.dropWhile_append]
      split
      next hempty =>
        rw [List.isEmpty_iff] at hempty
        rw [hempty, List.dropWhile_cons, if_pos hq]
        rfl
      next => rw [List.rdropWhile_concat_pos _ _ _ hq]
    next => rfl

/-- Trimming more is trimming what is left. -/
theorem trim_trim (xs : List α)
    : ((((xs.dropWhile p).rdropWhile p).dropWhile q).rdropWhile q) = (xs.dropWhile q).rdropWhile q := by
  rw [rdropWhile_dropWhile_rdropWhile hpq, dropWhile_dropWhile_of_le hpq]

end

theorem dropWhile_eq_self_iff_head {α : Type} {q : α → Bool} {xs : List α}
    : xs.dropWhile q = xs ↔ ∀ x ∈ xs.head?, q x = false := by
  cases xs with
  | nil => simp
  | cons x xs => simp [List.dropWhile_eq_self_iff]

theorem rdropWhile_eq_self_iff_last {α : Type} {q : α → Bool} {xs : List α}
    : xs.rdropWhile q = xs ↔ ∀ x ∈ xs.getLast?, q x = false := by
  rw [List.rdropWhile, List.reverse_eq_iff, dropWhile_eq_self_iff_head, List.head?_reverse]

theorem trim_eq_self_iff {α : Type} {q : α → Bool} {xs : List α}
    : (xs.dropWhile q).rdropWhile q = xs ↔ (∀ x ∈ xs.head?, q x = false) ∧ ∀ x ∈ xs.getLast?, q x = false := by
  rw [← dropWhile_eq_self_iff_head, ← rdropWhile_eq_self_iff_last]
  constructor
  . intro h
    have hlength := congrArg List.length h
    have hright := (List.rdropWhile_prefix q (xs.dropWhile q)).length_le
    have hdrop : xs.dropWhile q = xs := (List.dropWhile_sublist q).eq_of_length_le (by omega)
    rw [hdrop] at h
    exact ⟨hdrop, h⟩
  . rintro ⟨hdrop, hrdrop⟩
    rw [hdrop, hrdrop]

/-- A text Python strips to one without a byte order mark at either end. -/
def Clean (text : String) : Prop :=
  (∀ c ∈ (strip text).toList.head?, isBom c = false) ∧ ∀ c ∈ (strip text).toList.getLast?, isBom c = false

theorem pyTrim_strip (text : String)
    : pyTrim (strip text) = pyTrim text := by
  rw [pyTrim, pyTrim, strip, String.toList_ofList, rstripChars, lstripChars,
    trim_trim fun c hc => isPyWs_iff.mpr (.inl hc)]

theorem pyTrim_eq_iff {text : String}
    : pyTrim text = strip text ↔ Clean text := by
  have hspaces := Python.stripped_strip text
  rw [Python.Stripped, lstripChars, rstripChars, dropWhile_eq_self_iff_head, rdropWhile_eq_self_iff_last] at hspaces
  rw [← pyTrim_strip, pyTrim, ← String.toList_inj, String.toList_ofList, trim_eq_self_iff, Clean]
  -- the stripped text has no space at its ends, so that only a byte order mark is left to look for
  have hws : ∀ {c : Char}, isSpace c = false → (isPyWs c = false ↔ isBom c = false) := by
    intro c hc
    rw [← Bool.not_eq_true, ← Bool.not_eq_true, isPyWs_iff, hc]
    simp
  constructor
  . exact fun h => ⟨fun c hc => (hws (hspaces.1 c hc)).mp (h.1 c hc), fun c hc => (hws (hspaces.2 c hc)).mp (h.2 c hc)⟩
  . exact fun h => ⟨fun c hc => (hws (hspaces.1 c hc)).mpr (h.1 c hc),
      fun c hc => (hws (hspaces.2 c hc)).mpr (h.2 c hc)⟩

/- Tiers. -/

inductive Tier where
  | unconditional
  | predicate
  | error
  | event
  | semantic
  deriving DecidableEq

/-- What a condition is read as: its tier, its trimmed text, and what the tier takes from it. -/
structure Reading where
  tier : Tier
  text : String
  rest : String
  deriving DecidableEq

/-- `is_catchall` -/
def isCatchall (condition : String) : Bool :=
  let condText := pyTrim condition
  let expr := if startsWith (toLowercase condText) "when " then pyTrim (dropChars condText 5) else condText
  toLowercase expr ∈ always

def classify (condition : String) : Reading :=
  let text := pyTrim condition
  if isCatchall condition then ⟨.unconditional, text, exprOf condition⟩
  else if isDeterministic condition then ⟨.predicate, text, exprOf condition⟩
  else if isError condition then ⟨.error, text, errorExpr condition⟩
  else if isEvent condition then ⟨.event, text, eventName condition⟩
  else ⟨.semantic, text, text⟩

/-- The same reading, of Python. -/
def pythonReading (condition : String) : Reading :=
  let text := strip condition
  if CryptoAgility.isCatchall condition then ⟨.unconditional, text, Predicates.exprOf condition⟩
  else if Predicates.isDeterministic condition then ⟨.predicate, text, Predicates.exprOf condition⟩
  else if Predicates.isError condition then ⟨.error, text, Predicates.errorExpr condition⟩
  else if Predicates.isEvent condition then ⟨.event, text, Predicates.eventName condition⟩
  else ⟨.semantic, text, text⟩

/-- The part after the keyword, of a stripped text. -/
def afterKeyword (text : String) : Option String :=
  if startsWith (lower text) "when " then some (dropChars text 5)
  else if startsWith (lower text) "on error" then some (dropChars text "on error".length)
  else if startsWith (lower text) "on timeout" then none
  else if startsWith (lower text) "on event" then some (dropChars text "on event".length)
  else none

/-- The reading of a trimmed text, `trim` being the language's own. -/
def readingOf (trim : String → String) (text : String) : Reading :=
  let folded := lower text
  let expr := if startsWith folded "when " then trim (dropChars text 5) else text
  if decide (lower expr ∈ always) then ⟨.unconditional, text, expr⟩
  else if startsWith folded "when " || folded ∈ always || folded ∈ never then ⟨.predicate, text, expr⟩
  else if startsWith folded "on error" then ⟨.error, text, trim (dropChars text "on error".length)⟩
  else if startsWith folded "on event" || startsWith folded "on timeout" then
    ⟨.event, text, if startsWith folded "on timeout" then "__timeout__" else trim (dropChars text "on event".length)⟩
  else ⟨.semantic, text, text⟩

theorem classify_eq (condition : String)
    : classify condition = readingOf pyTrim (pyTrim condition) :=
  rfl

theorem pythonReading_eq (condition : String)
    : pythonReading condition = readingOf strip (strip condition) :=
  rfl

theorem readingOf_text (trim : String → String) (text : String)
    : (readingOf trim text).text = text := by
  unfold readingOf
  simp only [apply_ite Reading.text, ite_self]

/-- Two words, neither of which begins with the other, do not both begin a text. -/
theorem startsWith_eq_false {text p q : String} (h : startsWith text p = true) (hpq : startsWith p q = false)
    (hqp : startsWith q p = false)
    : startsWith text q = false := by
  rw [← Bool.not_eq_true, Python.startsWith_iff] at hpq hqp ⊢
  rw [Python.startsWith_iff] at h
  intro hq
  rcases List.prefix_or_prefix_of_prefix h hq with hprefix | hprefix
  . exact hqp hprefix
  . exact hpq hprefix

theorem not_verdict {text p : String} (h : startsWith (lower text) p = true)
    (hwords : ∀ w ∈ always ++ never, startsWith w p = false)
    : lower text ∉ always ∧ lower text ∉ never := by
  constructor
  . intro hmem
    rw [hwords _ (List.mem_append_left _ hmem)] at h
    cases h
  . intro hmem
    rw [hwords _ (List.mem_append_right _ hmem)] at h
    cases h

theorem readingOf_when {trim : String → String} {text : String} (h : startsWith (lower text) "when " = true)
    : readingOf trim text = ⟨if lower (trim (dropChars text 5)) ∈ always then .unconditional else .predicate, text,
        trim (dropChars text 5)⟩ := by
  unfold readingOf
  simp only [h, if_true, Bool.true_or, decide_eq_true_eq]
  split <;> rfl

theorem readingOf_error {trim : String → String} {text : String} (h : startsWith (lower text) "on error" = true)
    : readingOf trim text = ⟨.error, text, trim (dropChars text "on error".length)⟩ := by
  have hwhen := startsWith_eq_false h (by with_unfolding_all decide : startsWith "on error" "when " = false) (by with_unfolding_all decide)
  have hverdict := not_verdict h (by with_unfolding_all decide)
  unfold readingOf
  simp only [h, hwhen, hverdict, if_true, if_false, Bool.false_eq_true, decide_false, Bool.or_false]

theorem readingOf_timeout {trim : String → String} {text : String} (h : startsWith (lower text) "on timeout" = true)
    : readingOf trim text = ⟨.event, text, "__timeout__"⟩ := by
  have hwhen := startsWith_eq_false h (by with_unfolding_all decide : startsWith "on timeout" "when " = false) (by with_unfolding_all decide)
  have herror := startsWith_eq_false h (by with_unfolding_all decide : startsWith "on timeout" "on error" = false)
    (by with_unfolding_all decide)
  have hverdict := not_verdict h (by with_unfolding_all decide)
  unfold readingOf
  simp only [h, hwhen, herror, hverdict, if_true, if_false, Bool.false_eq_true, decide_false, Bool.or_false,
    Bool.or_true]

theorem readingOf_event {trim : String → String} {text : String} (h : startsWith (lower text) "on event" = true)
    : readingOf trim text = ⟨.event, text, trim (dropChars text "on event".length)⟩ := by
  have hwhen := startsWith_eq_false h (by with_unfolding_all decide : startsWith "on event" "when " = false) (by with_unfolding_all decide)
  have herror := startsWith_eq_false h (by with_unfolding_all decide : startsWith "on event" "on error" = false)
    (by with_unfolding_all decide)
  have htimeout := startsWith_eq_false h (by with_unfolding_all decide : startsWith "on event" "on timeout" = false)
    (by with_unfolding_all decide)
  have hverdict := not_verdict h (by with_unfolding_all decide)
  unfold readingOf
  simp only [h, hwhen, herror, htimeout, hverdict, if_true, if_false, Bool.false_eq_true, decide_false, Bool.or_false]

/-- Two languages read a trimmed text alike when they trim what is after its keyword alike. -/
theorem readingOf_eq_iff {trim trim' : String → String} {text : String}
    : readingOf trim text = readingOf trim' text ↔ ∀ tail ∈ afterKeyword text, trim tail = trim' tail := by
  unfold afterKeyword
  by_cases hwhen : startsWith (lower text) "when " = true
  . rw [if_pos hwhen, readingOf_when hwhen, readingOf_when hwhen]
    constructor
    . rintro h tail ⟨⟩
      exact congrArg Reading.rest h
    . intro h
      rw [h _ rfl]
  rw [if_neg hwhen]
  by_cases herror : startsWith (lower text) "on error" = true
  . rw [if_pos herror, readingOf_error herror, readingOf_error herror]
    simp
  rw [if_neg herror]
  by_cases htimeout : startsWith (lower text) "on timeout" = true
  . rw [if_pos htimeout, readingOf_timeout htimeout, readingOf_timeout htimeout]
    simp
  rw [if_neg htimeout]
  by_cases hevent : startsWith (lower text) "on event" = true
  . rw [if_pos hevent, readingOf_event hevent, readingOf_event hevent]
    simp
  . rw [if_neg hevent]
    unfold readingOf
    simp [hwhen, herror, htimeout, hevent]

/-- The same tier and the same texts, exactly where no byte order mark stands at an end that is trimmed. -/
theorem classify_agrees_iff (condition : String)
    : classify condition = pythonReading condition
        ↔ Clean condition ∧ ∀ tail ∈ afterKeyword (strip condition), Clean tail := by
  rw [classify_eq, pythonReading_eq]
  simp only [← pyTrim_eq_iff]
  constructor
  . intro h
    have htext := congrArg Reading.text h
    rw [readingOf_text, readingOf_text] at htext
    rw [htext, readingOf_eq_iff] at h
    exact ⟨htext, h⟩
  . rintro ⟨htext, htail⟩
    rw [htext, readingOf_eq_iff]
    exact htail

/-- A byte order mark in front of a predicate. -/
theorem bom_differs
    : (classify "\uFEFFwhen x").tier = .predicate ∧ (pythonReading "\uFEFFwhen x").tier = .semantic := by
  with_unfolding_all decide

end Kernel

end Rust
