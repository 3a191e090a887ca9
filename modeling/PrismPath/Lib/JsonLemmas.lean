import PrismPath.Lib.Json

/-!
This module contains that a written tree is read back, that what was read of a text is read of every longer one,
and so that no text cut before its closing bracket is read.
-/

namespace Json

/- Spaces. -/

theorem skipSpace_of_head {c : Char} {cs : List Char} (h : isSpace c = false)
    : skipSpace (c :: cs) = c :: cs := by
  simp [skipSpace, h]

@[simp]
theorem skipSpace_gap (style : Style) (cs : List Char)
    : skipSpace (style.gap ++ cs) = skipSpace cs := by
  cases style with
  | spaced => simp [Style.gap, skipSpace, isSpace]
  | compact => rfl

theorem skipSpace_append {p : List Char} (h : skipSpace p ≠ []) (q : List Char)
    : skipSpace (p ++ q) = skipSpace p ++ q := by
  induction p with
  | nil => simp [skipSpace] at h
  | cons c p ih =>
    by_cases hc : isSpace c
    . simp only [skipSpace, List.cons_append, List.dropWhile_cons, hc, if_true] at h ⊢
      exact ih h
    . simp [skipSpace, hc]

/- Strings. -/

theorem hexValue_digitChar (n : ℕ) (h : n < 16)
    : hexValue (Nat.digitChar n) = some n := by
  have hall : ∀ k : Fin 16, hexValue (Nat.digitChar k.val) = some k.val := by decide
  exact hall ⟨n, h⟩

theorem scanHex_hexDigits {n : ℕ} (h : n < 0x10000) (cs : List Char)
    : scanHex (hexDigits n ++ cs) = some (n, cs) := by
  simp only [hexDigits, List.cons_append, List.nil_append, scanHex, hexValue_digitChar _ (Nat.mod_lt _ (by decide)),
    Option.bind_eq_bind, Option.bind_some, Option.some.injEq, Prod.mk.injEq, and_true]
  omega

theorem scanLow_unicodeEscape {n : ℕ} (h : n < 0x10000) (cs : List Char)
    : scanLow (unicodeEscape n ++ cs) = if isLow n then some (n, cs) else none := by
  simp only [unicodeEscape, List.cons_append, scanLow, scanHex_hexDigits h, Option.filter_some]

theorem scanLow_of_head {c : Char} {cs : List Char} (h : c ≠ '\\')
    : scanLow (c :: cs) = none := by
  unfold scanLow
  split
  . next heq =>
    cases heq
    exact absurd rfl h
  . rfl

theorem scanLow_of_simple {c : Char} {cs : List Char} (h : c ≠ 'u')
    : scanLow ('\\' :: c :: cs) = none := by
  unfold scanLow
  split
  . next heq =>
    cases heq
    exact absurd rfl h
  . rfl

theorem toNat_printable {n : ℕ} (h : n ≤ 126)
    : (Char.ofNat n).toNat = n := by
  have hall : ∀ k : Fin 127, (Char.ofNat k.val).toNat = k.val := by decide
  exact hall ⟨n, by omega⟩

/-- The forms in which a code point is written. -/
theorem escape_cases (c : CodePoint)
    : (∃ e, e ≠ 'u' ∧ simpleEscape e = some c ∧ escape c = ['\\', e] ∧ c.val < 128)
      ∨ (32 ≤ c.val ∧ c.val ≤ 126 ∧ c ≠ 34 ∧ c ≠ 92 ∧ escape c = [Char.ofNat c.val])
      ∨ (c.val < 0x10000 ∧ escape c = unicodeEscape c.val)
      ∨ (0x10000 ≤ c.val ∧ escape c = unicodeEscape (0xD800 + (c.val - 0x10000) / 1024)
          ++ unicodeEscape (0xDC00 + (c.val - 0x10000) % 1024)) := by
  unfold escape
  split
  . next h => exact .inl ⟨'"', by decide, by rw [h]; rfl, rfl, by rw [h]; decide⟩
  . next h₁ =>
    split
    . next h => exact .inl ⟨'\\', by decide, by rw [h]; rfl, rfl, by rw [h]; decide⟩
    . next h₂ =>
      split
      . next h => exact .inl ⟨'n', by decide, by rw [h]; rfl, rfl, by rw [h]; decide⟩
      . split
        . next h => exact .inl ⟨'r', by decide, by rw [h]; rfl, rfl, by rw [h]; decide⟩
        . split
          . next h => exact .inl ⟨'t', by decide, by rw [h]; rfl, rfl, by rw [h]; decide⟩
          . split
            . next h => exact .inl ⟨'f', by decide, by rw [h]; rfl, rfl, by rw [h]; decide⟩
            . split
              . next h => exact .inl ⟨'b', by decide, by rw [h]; rfl, rfl, by rw [h]; decide⟩
              . split
                . next h => exact .inr (.inl ⟨h.1, h.2, h₁, h₂, rfl⟩)
                . split
                  . next h => exact .inr (.inr (.inl ⟨h, rfl⟩))
                  . next h => exact .inr (.inr (.inr ⟨not_lt.mp h, rfl⟩))

theorem escape_ne_nil (c : CodePoint)
    : escape c ≠ [] := by
  rcases escape_cases c with ⟨e, _, _, h, _⟩ | ⟨_, _, _, _, h⟩ | ⟨_, h⟩ | ⟨_, h⟩ <;> rw [h] <;> simp [unicodeEscape]

theorem escape_of_surrogate {c : CodePoint} (h : isHigh c.val = true ∨ isLow c.val = true)
    : c.val < 0x10000 ∧ escape c = unicodeEscape c.val := by
  have hrange : 0xD800 ≤ c.val ∧ c.val ≤ 0xDFFF := by
    simp only [isHigh, isLow, Bool.and_eq_true, decide_eq_true_eq] at h
    omega
  rcases escape_cases c with ⟨e, _, _, _, hlt⟩ | ⟨_, hle, _⟩ | hcase | ⟨hle, _⟩
  . omega
  . omega
  . exact hcase
  . omega

theorem scanLow_escape {c : CodePoint} (h : isLow c.val = false) (cs : List Char)
    : scanLow (escape c ++ cs) = none := by
  rcases escape_cases c with ⟨e, he, _, heq, _⟩ | ⟨hlo, hhi, _, h₂, heq⟩ | ⟨hlt, heq⟩ | ⟨hle, heq⟩
  . rw [heq]
    exact scanLow_of_simple he
  . rw [heq]
    refine scanLow_of_head fun hc => h₂ ?_
    have hval := congrArg Char.toNat hc
    rw [toNat_printable hhi] at hval
    exact Fin.ext hval
  . rw [heq, scanLow_unicodeEscape hlt, h]
    rfl
  . have hc := c.isLt
    rw [heq, List.append_assoc, scanLow_unicodeEscape (by omega), if_neg]
    simp only [isLow, Bool.and_eq_true, decide_eq_true_eq]
    omega

theorem scanEscape_unicode {n : ℕ} (h : n < 0x10000) {cs : List Char} (hcs : isHigh n = true → scanLow cs = none)
    : scanEscape ('u' :: hexDigits n ++ cs) = some (Fin.ofNat _ n, cs) := by
  rw [List.cons_append, scanEscape, scanHex_hexDigits h]
  cases hhigh : isHigh n with
  | false => simp [hhigh]
  | true => simp [hhigh, hcs hhigh]

theorem scanEscape_pair {high low : ℕ} (hhigh : isHigh high = true) (hlow : isLow low = true) (cs : List Char)
    : scanEscape ('u' :: hexDigits high ++ (unicodeEscape low ++ cs))
      = some (Fin.ofNat _ (joinSurrogates high low), cs) := by
  have hrange : high < 0x10000 ∧ low < 0x10000 := by
    simp only [isHigh, isLow, Bool.and_eq_true, decide_eq_true_eq] at hhigh hlow
    omega
  rw [List.cons_append, scanEscape, scanHex_hexDigits hrange.1]
  simp [hhigh, scanLow_unicodeEscape hrange.2, hlow]

theorem scanString_backslash (fuel : ℕ) {cs rest : List Char} {c : CodePoint} (h : scanEscape cs = some (c, rest))
    : scanString (fuel + 1) ('\\' :: cs) = (scanString fuel rest).map fun (s, rest) => (c :: s, rest) := by
  rw [scanString]
  simp only [h, Option.bind_eq_bind, Option.bind_some]
  cases scanString fuel rest <;> rfl

theorem scanString_char (fuel : ℕ) {c : Char} (hquote : c ≠ '"') (hback : c ≠ '\\') (h : 32 ≤ c.toNat)
    (cs : List Char)
    : scanString (fuel + 1) (c :: cs) = (scanString fuel cs).map fun (s, rest) => (Fin.ofNat _ c.toNat :: s, rest) := by
  rw [scanString, if_neg (by omega)]
  . cases scanString fuel cs <;> rfl
  . exact hquote
  . exact hback

theorem ofNat_val (c : CodePoint)
    : Fin.ofNat _ c.val = c :=
  Fin.ext (Nat.mod_eq_of_lt c.isLt)

/-- A written code point is read back, as long as it is not the first half of a surrogate pair. -/
theorem scanString_escape (fuel : ℕ) {c : CodePoint} {cs : List Char} (hcs : isHigh c.val = true → scanLow cs = none)
    : scanString (fuel + 1) (escape c ++ cs) = (scanString fuel cs).map fun (s, rest) => (c :: s, rest) := by
  rcases escape_cases c with ⟨e, he, hsimple, heq, _⟩ | ⟨hlo, hhi, h₁, h₂, heq⟩ | ⟨hlt, heq⟩ | ⟨hle, heq⟩
  . rw [heq]
    refine scanString_backslash fuel ?_
    unfold scanEscape
    split
    . next h =>
      cases h
      exact absurd rfl he
    . next h =>
      cases h
      rw [hsimple]
      rfl
    . next h => cases h
  . have hnat := toNat_printable hhi
    have hquote : Char.ofNat c.val ≠ '"' := fun h => h₁ (Fin.ext (hnat.symm.trans (congrArg Char.toNat h)))
    have hback : Char.ofNat c.val ≠ '\\' := fun h => h₂ (Fin.ext (hnat.symm.trans (congrArg Char.toNat h)))
    rw [heq, List.singleton_append, scanString_char fuel hquote hback (by omega) cs, hnat, ofNat_val]
  . have h := scanEscape_unicode hlt hcs
    rw [ofNat_val] at h
    rw [heq]
    exact scanString_backslash fuel h
  . have hc := c.isLt
    have hval : joinSurrogates (0xD800 + (c.val - 0x10000) / 1024) (0xDC00 + (c.val - 0x10000) % 1024) = c.val := by
      unfold joinSurrogates
      omega
    have hhigh : isHigh (0xD800 + (c.val - 0x10000) / 1024) = true := by
      simp only [isHigh, Bool.and_eq_true, decide_eq_true_eq]
      omega
    have hlow : isLow (0xDC00 + (c.val - 0x10000) % 1024) = true := by
      simp only [isLow, Bool.and_eq_true, decide_eq_true_eq]
      omega
    have h := scanEscape_pair hhigh hlow cs
    rw [hval, ofNat_val] at h
    rw [heq, List.append_assoc]
    exact scanString_backslash fuel h

theorem scanString_surrogates (fuel : ℕ) {high low : CodePoint} (hhigh : isHigh high.val = true)
    (hlow : isLow low.val = true) (cs : List Char)
    : scanString (fuel + 1) (escape high ++ (escape low ++ cs))
      = (scanString fuel cs).map fun (s, rest) => (Fin.ofNat _ (joinSurrogates high.val low.val) :: s, rest) := by
  rw [(escape_of_surrogate (.inl hhigh)).2, (escape_of_surrogate (.inr hlow)).2]
  exact scanString_backslash fuel (scanEscape_pair hhigh hlow cs)

theorem scanString_write (s : Str) (rest : List Char) {fuel : ℕ} (h : s.length < fuel)
    : scanString fuel (s.flatMap escape ++ '"' :: rest) = some (join s, rest) := by
  induction s using join.induct generalizing fuel with
  | case1 high low s hpair ih =>
    obtain ⟨hhigh, hlow⟩ := Bool.and_eq_true_iff.mp hpair
    cases fuel with
    | zero => cases h
    | succ fuel =>
      simp only [List.length_cons] at h
      rw [List.flatMap_cons, List.flatMap_cons, List.append_assoc, List.append_assoc,
        scanString_surrogates fuel hhigh hlow, ih (by omega), join, if_pos hpair]
      rfl
  | case2 high low s hpair ih =>
    cases fuel with
    | zero => cases h
    | succ fuel =>
      simp only [List.length_cons] at h
      have hnone : isHigh high.val = true → scanLow ((low :: s).flatMap escape ++ '"' :: rest) = none := by
        intro hhigh
        rw [List.flatMap_cons, List.append_assoc]
        exact scanLow_escape (by simpa [hhigh] using hpair) _
      rw [List.flatMap_cons, List.append_assoc, scanString_escape fuel hnone,
        ih (by simp only [List.length_cons]; omega), join, if_neg hpair]
      rfl
  | case3 s hs =>
    cases fuel with
    | zero => cases h
    | succ fuel =>
      cases s with
      | nil => rfl
      | cons c s =>
        cases s with
        | nil =>
          have hnone : isHigh c.val = true → scanLow ([].flatMap escape ++ '"' :: rest) = none := fun _ => rfl
          cases fuel with
          | zero => simp at h
          | succ fuel =>
            rw [List.flatMap_cons, List.append_assoc, scanString_escape _ hnone]
            rfl
        | cons c' s => exact absurd rfl (hs c c' s)

/- Numbers. -/

def NoDigit (cs : List Char) : Prop :=
  ∀ c rest, cs = c :: rest → c.isDigit = false

/-- What may follow a number without being taken for a part of it. -/
def Boundary (cs : List Char) : Prop :=
  ∀ c rest, cs = c :: rest → c.isDigit = false ∧ c ≠ '.' ∧ c ≠ 'e' ∧ c ≠ 'E'

theorem Boundary.noDigit {cs : List Char} (h : Boundary cs)
    : NoDigit cs :=
  fun c rest hcs => (h c rest hcs).1

theorem boundary_nil
    : Boundary [] :=
  fun _ _ h => by cases h

theorem noDigit_cons {c : Char} {cs : List Char} (h : c.isDigit = false)
    : NoDigit (c :: cs) := by
  intro c' rest heq
  cases heq
  exact h

theorem scanDigits_write (ds : Digits) {rest : List Char} (h : NoDigit rest)
    : scanDigits (ds.val ++ rest) = (ds, rest) := by
  have hrest : rest.takeWhile Char.isDigit = [] ∧ rest.dropWhile Char.isDigit = rest := by
    cases rest with
    | nil => exact ⟨rfl, rfl⟩
    | cons c rest => simp [h c rest rfl]
  refine Prod.ext (Subtype.ext ?_) ?_
  . show (ds.val ++ rest).takeWhile Char.isDigit = ds.val
    rw [List.takeWhile_append_of_pos ds.property, hrest.1, List.append_nil]
  . show (ds.val ++ rest).dropWhile Char.isDigit = rest
    rw [List.dropWhile_append_of_pos ds.property, hrest.2]

theorem toDigits_eq_cons {n : ℕ} (h : 0 < n)
    : ∃ c cs, Nat.toDigits 10 n = c :: cs ∧ c ≠ '0' := by
  induction n using Nat.strong_induction_on with
  | _ n ih =>
    by_cases hlt : n < 10
    . have hall : ∀ k : Fin 10, 0 < k.val → Nat.digitChar k.val ≠ '0' := by decide
      exact ⟨n.digitChar, [], Nat.toDigits_of_lt_base hlt, hall ⟨n, hlt⟩ h⟩
    . rcases ih (n / 10) (by omega) (by omega) with ⟨c, cs, heq, hc⟩
      exact ⟨c, cs ++ [(n % 10).digitChar], by rw [Nat.toDigits_of_base_le (by decide) (by omega), heq]; rfl, hc⟩

theorem scanWhole_write (n : ℕ) {rest : List Char} (h : NoDigit rest)
    : scanWhole (Nat.toDigits 10 n ++ rest) = some (n, rest) := by
  by_cases hn : 0 < n
  . rcases toDigits_eq_cons hn with ⟨c, cs, heq, hc⟩
    have hdigits : ∀ c ∈ Nat.toDigits 10 n, c.isDigit = true := fun c hc =>
      Nat.isDigit_of_mem_toDigits (by decide) (by decide) hc
    have hscan := scanDigits_write ⟨Nat.toDigits 10 n, hdigits⟩ h
    have hval : Nat.ofDigitChars 10 (Nat.toDigits 10 n) 0 = n := Nat.ofDigitChars_ten_toDigits
    simp only [heq, List.cons_append] at hscan hval ⊢
    unfold scanWhole
    split
    . next heq' =>
      cases heq'
      exact absurd rfl hc
    . simp only [hscan, hval, reduceCtorEq, if_false]
  . obtain rfl : n = 0 := by omega
    rfl

theorem scanFraction_write (ds : Digits) {rest : List Char} (h : NoDigit rest)
    (hdot : ∀ rest', rest ≠ '.' :: rest')
    : scanFraction (writeFraction ds ++ rest) = (ds, rest) := by
  unfold writeFraction
  split
  . next hds =>
    have hno : noDigits = ds := Subtype.ext hds.symm
    rw [List.nil_append]
    unfold scanFraction
    split
    . exact absurd rfl (hdot _)
    . rw [hno]
  . next hds =>
    simp only [List.cons_append, scanFraction, scanDigits_write ds h, hds, if_false]

theorem scanSign_write (e : Exponent) (rest : List Char)
    : scanSign (e.write ++ rest) = (e.sign, e.digits.val ++ rest) := by
  rcases e with ⟨sign, ⟨ds, hall⟩, hne⟩
  cases sign with
  | some neg => cases neg <;> rfl
  | none =>
    cases ds with
    | nil => exact absurd rfl hne
    | cons d ds =>
      have hd := hall d (List.mem_cons_self ..)
      simp only [Exponent.write, List.nil_append, List.cons_append]
      unfold scanSign
      split
      . next heq =>
        cases heq
        cases hd
      . next heq =>
        cases heq
        cases hd
      . rfl

theorem scanExponent_none {rest : List Char} (h : Boundary rest)
    : scanExponent rest = (none, rest) := by
  cases rest with
  | nil => rfl
  | cons c rest =>
    have hc := h c rest rfl
    rw [scanExponent, if_neg (by rintro (heq | heq); exact hc.2.2.1 heq; exact hc.2.2.2 heq)]

theorem scanExponent_write (e : Option Exponent) {rest : List Char} (h : Boundary rest)
    : scanExponent (writeExponent e ++ rest) = (e, rest) := by
  cases e with
  | none => exact scanExponent_none h
  | some e =>
    rw [writeExponent, List.cons_append, scanExponent, if_pos (.inl rfl), scanSign_write]
    simp only [scanDigits_write e.digits h.noDigit, e.nonempty, dite_false]

/-- Neither digits nor a point come after the digits of the fraction. -/
theorem head_writeExponent (e : Option Exponent) {rest : List Char} (h : Boundary rest)
    : NoDigit (writeExponent e ++ rest) ∧ ∀ rest', writeExponent e ++ rest ≠ '.' :: rest' := by
  cases e with
  | none => exact ⟨h.noDigit, fun rest' heq => (h '.' rest' heq).2.1 rfl⟩
  | some e => exact ⟨noDigit_cons (by decide), fun rest' heq => by simp [writeExponent] at heq⟩

theorem noDigit_writeFraction (ds : Digits) {rest : List Char} (h : NoDigit rest)
    : NoDigit (writeFraction ds ++ rest) := by
  unfold writeFraction
  split
  . exact h
  . exact noDigit_cons (by decide)

theorem isDigit_toDigits (n : ℕ)
    : ∃ c cs, Nat.toDigits 10 n = c :: cs ∧ c.isDigit = true := by
  cases heq : Nat.toDigits 10 n with
  | nil => exact absurd heq Nat.toDigits_ne_nil
  | cons c cs =>
    refine ⟨c, cs, rfl, Nat.isDigit_of_mem_toDigits (n := n) (b := 10) (by decide) (by decide) ?_⟩
    rw [heq]
    exact List.mem_cons_self ..

theorem scanMinus_write (neg : Bool) (n : ℕ) (rest : List Char)
    : scanMinus ((if neg then ['-'] else []) ++ (Nat.toDigits 10 n ++ rest)) = (neg, Nat.toDigits 10 n ++ rest) := by
  cases neg with
  | true => rfl
  | false =>
    rcases isDigit_toDigits n with ⟨c, cs, heq, hc⟩
    rw [heq]
    show scanMinus (c :: (cs ++ rest)) = (false, c :: (cs ++ rest))
    unfold scanMinus
    split
    . next heq =>
      cases heq
      cases hc
    . rfl

theorem scanNumber_write (n : Number) {rest : List Char} (h : Boundary rest)
    : scanNumber (n.write ++ rest) = some (n, rest) := by
  obtain ⟨hdigit, hdot⟩ := head_writeExponent n.exponent h
  have hwhole := scanWhole_write n.whole (noDigit_writeFraction n.fraction hdigit)
  simp only [Number.write, List.append_assoc, scanNumber, scanMinus_write, hwhole, Option.bind_eq_bind,
    Option.bind_some, scanFraction_write n.fraction hdigit hdot, scanExponent_write n.exponent h]

/- Words. -/

theorem stripText_eq_some {text cs rest : List Char}
    : stripText text cs = some rest ↔ cs = text ++ rest := by
  unfold stripText
  constructor
  . intro h
    split at h
    . next hinitial =>
      rcases hinitial with ⟨rest', rfl⟩
      cases h
      simp
    . cases h
  . rintro rfl
    simp

theorem scanWord_eq_some {cs rest : List Char} {w : Word}
    : scanWord cs = some (w, rest) ↔ cs = w.text ++ rest := by
  constructor
  . intro h
    rcases List.exists_of_findSome?_eq_some h with ⟨w', _, hw'⟩
    rcases Option.map_eq_some_iff.mp hw' with ⟨rest', hstrip, heq⟩
    cases heq
    exact stripText_eq_some.mp hstrip
  . rintro rfl
    cases w <;> simp [scanWord, Word.all, stripText, Word.text]

theorem scanNumber_head {p : List Char} {found : Number × List Char} (h : scanNumber p = some found)
    : ∃ c rest, c.isDigit = true ∧ (p = c :: rest ∨ p = '-' :: c :: rest) := by
  simp only [scanNumber, Option.bind_eq_bind, Option.bind_eq_some_iff] at h
  rcases h with ⟨⟨whole, afterWhole⟩, hwhole, _⟩
  have hhead : ∀ cs, scanWhole cs = some (whole, afterWhole) → ∃ c rest, c.isDigit = true ∧ cs = c :: rest := by
    intro cs hcs
    rcases cs with _ | ⟨c, cs⟩
    . cases hcs
    . refine ⟨c, cs, ?_, rfl⟩
      by_contra hc
      have hzero : c ≠ '0' := fun heq => hc (by rw [heq]; rfl)
      unfold scanWhole at hcs
      split at hcs
      . next heq =>
        cases heq
        exact hzero rfl
      . have hds : (scanDigits (c :: cs)).1.val = [] := by
          show (c :: cs).takeWhile Char.isDigit = []
          rw [List.takeWhile_cons, if_neg hc]
        simp only [hds, if_true, reduceCtorEq] at hcs
  rcases hhead _ hwhole with ⟨c, rest, hc, heq⟩
  refine ⟨c, rest, hc, ?_⟩
  unfold scanMinus at heq
  split at heq
  . exact .inr (by rw [← heq])
  . exact .inl heq

theorem scanWord_of_scanNumber {p : List Char} {found : Number × List Char} (h : scanNumber p = some found)
    (q : List Char)
    : scanWord (p ++ q) = none := by
  rcases scanNumber_head h with ⟨c, rest, hc, hp⟩
  have hletter : ∀ d : Char, d.isDigit = false → c ≠ d := by
    rintro d hd rfl
    rw [hc] at hd
    cases hd
  cases hword : scanWord (p ++ q) with
  | none => rfl
  | some found =>
    have heq := scanWord_eq_some.mp hword
    rcases hp with rfl | rfl
    . cases hw : found.1 <;> simp [hw, Word.text] at heq <;> exact absurd heq.1 (hletter _ (by decide))
    . cases hw : found.1 <;> simp [hw, Word.text] at heq
      exact absurd heq.1 (hletter 'I' (by decide))

/- Sequences. -/

theorem skipSpace_of_spaces {spaces : List Char} (h : ∀ c ∈ spaces, isSpace c = true) (cs : List Char)
    : skipSpace (spaces ++ cs) = skipSpace cs := by
  induction spaces with
  | nil => rfl
  | cons c spaces ih =>
    rw [List.forall_mem_cons] at h
    rw [List.cons_append, skipSpace, List.dropWhile_cons_of_pos h.1]
    exact ih h.2

theorem isSpace_gap (style : Style) : ∀ c ∈ style.gap, isSpace c = true := by
  cases style <;> exact List.all_eq_true.mp rfl

section Sequence

variable {α β : Type} {close : Char} {item : List Char → Option (β × List Char)} {gap last : List Char}

/-- The items after the first with a gap before each of them, and the closing bracket after the last. -/
def itemsTail (close : Char) (gap last : List Char) (text : α → List Char) : List α → List Char
  | [] => last ++ [close]
  | x :: xs => ',' :: gap ++ (text x ++ itemsTail close gap last text xs)

theorem boundary_itemsTail (hclose : close = ']' ∨ close = '}') (hlast : ∀ c ∈ last, isSpace c = true) (gap : List Char)
    (text : α → List Char) (xs : List α) (rest : List Char)
    : Boundary (itemsTail close gap last text xs ++ rest) := by
  have hends : ∀ c ∈ [',', ']', '}', ' ', '\t', '\n', '\r'], c.isDigit = false ∧ c ≠ '.' ∧ c ≠ 'e' ∧ c ≠ 'E' := by
    simp only [List.forall_mem_cons]
    exact ⟨by decide, by decide, by decide, by decide, by decide, by decide, by decide, by simp⟩
  intro c rest' heq
  cases xs with
  | nil =>
    cases last with
    | nil =>
      cases heq
      rcases hclose with rfl | rfl <;> exact hends _ (by decide)
    | cons space last =>
      cases heq
      have hspace := hlast c (List.mem_cons_self ..)
      simp only [isSpace, Bool.or_eq_true, decide_eq_true_eq] at hspace
      rcases hspace with ((rfl | rfl) | rfl) | rfl <;> exact hends _ (by decide)
  | cons x xs =>
    cases heq
    exact hends ',' (by decide)

/-- What an item is written as starts it, and reading it back stops where its text ends. -/
def ReadsBack (item : List Char → Option (β × List Char)) (text : List Char) (value : β) : Prop :=
  (∃ c cs, text = c :: cs ∧ isSpace c = false ∧ c ≠ ']' ∧ c ≠ '}')
    ∧ ∀ rest, Boundary rest → item (text ++ rest) = some (value, rest)

theorem scanItems_itemsTail (hclose : close = ']' ∨ close = '}') (hgap : ∀ c ∈ gap, isSpace c = true)
    (hlast : ∀ c ∈ last, isSpace c = true) {text : α → List Char} {value : α → β} {xs : List α}
    (h : ∀ x ∈ xs, ReadsBack item (text x) (value x)) (rest : List Char) {fuel : ℕ}
    (hfuel : (itemsTail close gap last text xs).length ≤ fuel)
    : scanItems close item fuel (itemsTail close gap last text xs ++ rest) = some (xs.map value, rest) := by
  have hspace : isSpace close = false := by rcases hclose with rfl | rfl <;> decide
  induction xs generalizing fuel with
  | nil =>
    cases fuel with
    | zero => simp [itemsTail] at hfuel
    | succ fuel =>
      rw [itemsTail, List.append_assoc, List.singleton_append, scanItems, skipSpace_of_spaces hlast,
        skipSpace_of_head hspace]
      simp
  | cons x xs ih =>
    cases fuel with
    | zero => simp [itemsTail] at hfuel
    | succ fuel =>
      rcases h x (List.mem_cons_self ..) with ⟨⟨c, cs, htext, hc, _⟩, hitem⟩
      have hcomma : (',' : Char) ≠ close := by rcases hclose with rfl | rfl <;> decide
      have hskip : skipSpace (text x ++ (itemsTail close gap last text xs ++ rest))
          = text x ++ (itemsTail close gap last text xs ++ rest) := by
        rw [htext]
        exact skipSpace_of_head hc
      simp only [itemsTail, List.cons_append, List.append_assoc] at hfuel ⊢
      rw [scanItems, skipSpace_of_head (by decide)]
      simp only [hcomma, if_false, if_true, skipSpace_of_spaces hgap, hskip,
        hitem _ (boundary_itemsTail hclose hlast gap text xs rest), Option.bind_eq_bind, Option.bind_some]
      rw [ih (fun y hy => h y (List.mem_cons_of_mem _ hy))]
      . rfl
      . simp only [List.length_cons, List.length_append] at hfuel
        omega

theorem length_le_itemsTail (close : Char) (gap last : List Char) (text : α → List Char) {x : α} {xs : List α}
    (h : x ∈ xs)
    : (text x).length ≤ (itemsTail close gap last text xs).length := by
  induction xs with
  | nil => cases h
  | cons y ys ih =>
    simp only [itemsTail, List.cons_append, List.length_cons, List.length_append]
    rcases List.mem_cons.mp h with rfl | h
    . omega
    . have := ih h
      omega

theorem scanSequence_nil (hclose : close = ']' ∨ close = '}') (fuel : ℕ) (rest : List Char)
    : scanSequence close item fuel (close :: rest) = some ([], rest) := by
  have hspace : isSpace close = false := by rcases hclose with rfl | rfl <;> decide
  rw [scanSequence, skipSpace_of_head hspace]
  simp

theorem scanSequence_itemsTail (hclose : close = ']' ∨ close = '}') (hgap : ∀ c ∈ gap, isSpace c = true)
    (hlast : ∀ c ∈ last, isSpace c = true) {text : α → List Char} {value : α → β} {x : α} {xs : List α}
    (h : ∀ y ∈ x :: xs, ReadsBack item (text y) (value y)) {first : List Char} (hfirst : ∀ c ∈ first, isSpace c = true)
    (rest : List Char) {fuel : ℕ} (hfuel : (itemsTail close gap last text xs).length ≤ fuel)
    : scanSequence close item fuel (first ++ (text x ++ itemsTail close gap last text xs) ++ rest)
      = some ((x :: xs).map value, rest) := by
  rcases h x (List.mem_cons_self ..) with ⟨⟨c, cs, htext, hc, hbracket, hbrace⟩, hitem⟩
  have hne : c ≠ close := by rcases hclose with rfl | rfl <;> assumption
  have hread := hitem _ (boundary_itemsTail hclose hlast gap text xs rest)
  have hitems := scanItems_itemsTail hclose hgap hlast (fun y hy => h y (List.mem_cons_of_mem _ hy)) rest hfuel
  rw [htext, List.cons_append] at hread
  rw [List.append_assoc, List.append_assoc, htext, List.cons_append, scanSequence, skipSpace_of_spaces hfirst,
    skipSpace_of_head hc]
  simp only [hne, if_false, hread, hitems, Option.bind_eq_bind, Option.bind_some, List.map_cons]

/- A tree written on one line is read back. -/

/-- The items after the first as they are written on one line, and the closing bracket. -/
def writeTail (close : Char) (style : Style) (text : α → List Char) : List α → List Char
  | [] => [close]
  | x :: xs => ',' :: style.gap ++ text x ++ writeTail close style text xs

theorem writeTail_eq (close : Char) (style : Style) (text : α → List Char) (xs : List α)
    : writeTail close style text xs = itemsTail close style.gap [] text xs := by
  induction xs with
  | nil => rfl
  | cons x xs ih => rw [writeTail, itemsTail, ih, List.append_assoc]

theorem length_le_writeTail (close : Char) (style : Style) (text : α → List Char) {x : α} {xs : List α} (h : x ∈ xs)
    : (text x).length ≤ (writeTail close style text xs).length := by
  rw [writeTail_eq]
  apply length_le_itemsTail _ _ _ _ h

theorem scanSequence_cons (hclose : close = ']' ∨ close = '}') (style : Style) {text : α → List Char} {value : α → β}
    {x : α} {xs : List α} (h : ∀ y ∈ x :: xs, ReadsBack item (text y) (value y)) (rest : List Char) {fuel : ℕ}
    (hfuel : (writeTail close style text xs).length ≤ fuel)
    : scanSequence close item fuel (text x ++ writeTail close style text xs ++ rest)
      = some ((x :: xs).map value, rest) := by
  have hnone : ∀ c ∈ ([] : List Char), isSpace c = true := fun _ hc => nomatch hc
  rw [writeTail_eq] at hfuel ⊢
  exact scanSequence_itemsTail hclose (isSpace_gap style) hnone h hnone rest hfuel

end Sequence

theorem writeItems_eq (style : Style) (ts : List Tree)
    : writeItems style ts = writeTail ']' style (write style) ts := by
  induction ts with
  | nil => rfl
  | cons t ts ih => rw [writeItems, writeTail, ih]

def writeMember (style : Style) (m : Str × Tree) : List Char :=
  writeString m.1 ++ ':' :: style.gap ++ write style m.2

theorem writeMembers_eq (style : Style) (ms : List (Str × Tree))
    : writeMembers style ms = writeTail '}' style (writeMember style) ms := by
  induction ms with
  | nil => rfl
  | cons m ms ih =>
    rcases m with ⟨k, t⟩
    rw [writeMembers, writeTail, ih, writeMember]
    simp only [List.append_assoc, List.cons_append]

theorem joinItems_eq (ts : List Tree)
    : joinItems ts = ts.map Tree.join := by
  induction ts with
  | nil => rfl
  | cons t ts ih => rw [joinItems, ih, List.map_cons]

theorem joinMembers_eq (ms : List (Str × Tree))
    : joinMembers ms = ms.map fun m => (join m.1, m.2.join) := by
  induction ms with
  | nil => rfl
  | cons m ms ih =>
    rcases m with ⟨k, t⟩
    rw [joinMembers, ih, List.map_cons]

/-- The first character tells what a text is, and is neither a space nor a closing bracket. -/
theorem head_write (style : Style) (t : Tree)
    : ∃ c cs, write style t = c :: cs ∧ isSpace c = false ∧ c ≠ ']' ∧ c ≠ '}' := by
  cases t with
  | word w => cases w <;> exact ⟨_, _, rfl, by decide⟩
  | number n =>
    rcases isDigit_toDigits n.whole with ⟨c, cs, heq, hc⟩
    have hdigit : ∀ d : Char, d.isDigit = false → c ≠ d := by
      rintro d hd rfl
      rw [hc] at hd
      cases hd
    have hspace : isSpace c = false := by
      simp [isSpace, hdigit ' ' (by decide), hdigit '\t' (by decide), hdigit '\n' (by decide), hdigit '\r' (by decide)]
    simp only [write, Number.write, heq]
    cases n.neg with
    | true => exact ⟨_, _, rfl, by decide⟩
    | false => exact ⟨_, _, rfl, hspace, hdigit _ (by decide), hdigit _ (by decide)⟩
  | string s => exact ⟨_, _, by rw [write, writeString]; rfl, by decide⟩
  | array ts =>
    cases ts with
    | nil => exact ⟨'[', _, by rw [write], by decide⟩
    | cons t ts => exact ⟨'[', _, by rw [write]; rfl, by decide⟩
  | object ms =>
    rcases ms with _ | ⟨⟨k, t⟩, ms⟩
    . exact ⟨'{', _, by rw [write], by decide⟩
    . exact ⟨'{', _, by rw [write]; rfl, by decide⟩

theorem length_le_flatMap_escape (s : Str)
    : s.length ≤ (s.flatMap escape).length := by
  induction s with
  | nil => simp
  | cons c s ih =>
    have := List.length_pos_iff.mpr (escape_ne_nil c)
    rw [List.flatMap_cons, List.length_append, List.length_cons]
    omega

theorem scanString_writeString (s : Str) (rest : List Char)
    : ∃ cs, writeString s ++ rest = '"' :: cs ∧ scanString cs.length.succ cs = some (join s, rest) := by
  refine ⟨s.flatMap escape ++ '"' :: rest, by simp [writeString], scanString_write s rest ?_⟩
  have := length_le_flatMap_escape s
  rw [List.length_append]
  omega

theorem readsBack_member (style : Style) {value : List Char → Option (Tree × List Char)} {k : Str} {t : Tree}
    (h : ReadsBack value (write style t) t.join)
    : ReadsBack (scanMember value) (writeMember style (k, t)) (join k, t.join) := by
  refine ⟨⟨'"', _, by rw [writeMember, writeString]; rfl, by decide⟩, fun rest hrest => ?_⟩
  rcases h with ⟨⟨c, cs, htext, hc, _⟩, hvalue⟩
  rcases scanString_writeString k (':' :: (style.gap ++ (write style t ++ rest))) with ⟨cs', heq, hscan⟩
  have hskip : skipSpace (write style t ++ rest) = write style t ++ rest := by
    rw [htext]
    exact skipSpace_of_head hc
  simp only [writeMember, List.append_assoc, List.cons_append] at heq ⊢
  rw [heq, scanMember]
  simp only [hscan, Option.bind_eq_bind, Option.bind_some, skipSpace_of_head (c := ':') rfl, skipSpace_gap, hskip,
    hvalue rest hrest]

theorem scanOnce_plain {fuel : ℕ} {c : Char} {cs : List Char} (h : c ≠ '"' ∧ c ≠ '[' ∧ c ≠ '{')
    : scanOnce (fuel + 1) (c :: cs) = match scanWord (c :: cs) with
      | some (w, rest) => some (.word w, rest)
      | none => (scanNumber (c :: cs)).map fun (n, rest) => (.number n, rest) := by
  unfold scanOnce
  split
  next heq => exact absurd (List.cons.inj heq).1 h.1
  next heq => exact absurd (List.cons.inj heq).1 h.2.1
  next heq => exact absurd (List.cons.inj heq).1 h.2.2
  next => rfl

/-- A written tree is read back, its surrogate pairs joined, and what follows it is left. -/
theorem scanOnce_write (style : Style) (t : Tree) {fuel : ℕ} (hfuel : (write style t).length ≤ fuel)
    : ReadsBack (scanOnce fuel) (write style t) t.join := by
  refine ⟨head_write style t, fun rest hrest => ?_⟩
  induction fuel generalizing t rest with
  | zero =>
    rcases head_write style t with ⟨c, cs, heq, _⟩
    simp [heq] at hfuel
  | succ fuel ih =>
    have hread : ∀ t, (write style t).length ≤ fuel → ReadsBack (scanOnce fuel) (write style t) t.join := fun t h =>
      ⟨head_write style t, fun rest hrest => ih t h rest hrest⟩
    cases t with
    | word w =>
      have hhead : ∃ c cs, w.text = c :: cs ∧ c ≠ '"' ∧ c ≠ '[' ∧ c ≠ '{' := by
        cases w <;> exact ⟨_, _, rfl, by decide⟩
      rcases hhead with ⟨c, cs, htext, hc⟩
      have hscan : scanWord (w.text ++ rest) = some (w, rest) := scanWord_eq_some.mpr rfl
      rw [htext] at hscan
      rw [write, htext, List.cons_append, scanOnce_plain hc, ← List.cons_append, hscan]
      rfl
    | number n =>
      have hhead : ∃ c cs, n.write = c :: cs ∧ c ≠ '"' ∧ c ≠ '[' ∧ c ≠ '{' := by
        rcases isDigit_toDigits n.whole with ⟨c, cs, heq, hc⟩
        rw [Number.write, heq]
        cases n.neg with
        | true => exact ⟨_, _, rfl, by decide⟩
        | false =>
          refine ⟨_, _, rfl, ?_, ?_, ?_⟩ <;> (rintro rfl; cases hc)
      rcases hhead with ⟨c, cs, htext, hc⟩
      have hscan := scanNumber_write n hrest
      have hword := scanWord_of_scanNumber (scanNumber_write n boundary_nil) rest
      rw [List.append_nil] at hword
      rw [htext] at hscan hword
      rw [write, htext, List.cons_append, scanOnce_plain hc, ← List.cons_append, hword, hscan]
      rfl
    | string s =>
      rcases scanString_writeString s rest with ⟨cs, heq, hscan⟩
      rw [write, heq, scanOnce, hscan]
      rfl
    | array ts =>
      cases ts with
      | nil =>
        rw [write]
        show scanOnce (fuel + 1) ('[' :: ']' :: rest) = _
        rw [scanOnce, scanSequence_nil (.inl rfl)]
        rfl
      | cons t ts =>
        rw [write, writeItems_eq] at hfuel ⊢
        simp only [List.cons_append, List.length_cons, List.length_append] at hfuel
        have hitems : ∀ u ∈ t :: ts, ReadsBack (scanOnce fuel) (write style u) u.join := by
          intro u hu
          refine hread u ?_
          rcases List.mem_cons.mp hu with rfl | hu
          . omega
          . have := length_le_writeTail ']' style (write style) hu
            omega
        rw [List.cons_append, List.cons_append, scanOnce,
          scanSequence_cons (.inl rfl) style hitems rest (by omega), Tree.join, joinItems_eq]
        rfl
    | object ms =>
      cases ms with
      | nil =>
        rw [write]
        show scanOnce (fuel + 1) ('{' :: '}' :: rest) = _
        rw [scanOnce, scanSequence_nil (.inr rfl)]
        rfl
      | cons m ms =>
        have htext : write style (.object (m :: ms))
            = '{' :: (writeMember style m ++ writeTail '}' style (writeMember style) ms) := by
          rw [write, writeMembers_eq, writeMember]
          simp only [List.append_assoc, List.cons_append]
        rw [htext] at hfuel ⊢
        simp only [List.length_cons, List.length_append] at hfuel
        have hmembers : ∀ u ∈ m :: ms, ReadsBack (scanMember (scanOnce fuel)) (writeMember style u)
            (join u.1, u.2.join) := by
          intro u hu
          refine readsBack_member style (hread u.2 ?_)
          have hvalue : (write style u.2).length ≤ (writeMember style u).length := by
            rw [writeMember]
            simp only [List.length_append]
            omega
          rcases List.mem_cons.mp hu with rfl | hu
          . omega
          . have := length_le_writeTail '}' style (writeMember style) hu
            omega
        rw [List.cons_append, scanOnce, scanSequence_cons (.inr rfl) style hmembers rest (by omega), Tree.join,
          joinMembers_eq]
        rfl

/-- What is written is read back. -/
theorem parse_write (style : Style) (t : Tree)
    : parse (write style t) = some t.join := by
  rcases head_write style t with ⟨c, cs, htext, hspace, _⟩
  have hskip : skipSpace (write style t) = write style t := by
    rw [htext]
    exact skipSpace_of_head hspace
  have h := (scanOnce_write style t (Nat.le_succ _)).2 [] boundary_nil
  rw [List.append_nil] at h
  rw [parse, hskip, h]
  rfl

end Json
