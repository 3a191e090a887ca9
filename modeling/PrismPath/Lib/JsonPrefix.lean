import PrismPath.Lib.JsonLemmas

/-!
This module contains that what was read of a text is read of every longer text, as long as the text could not go
on with it, and so that a text cut before its closing bracket is not read.
-/

namespace Json

/-- What stands after a value that is complete. -/
def Delimited (cs : List Char) : Prop :=
  ∃ c rest, cs = c :: rest ∧ (isSpace c = true ∨ c = ',' ∨ c = ']' ∨ c = '}')

theorem Delimited.ne_nil {cs : List Char} (h : Delimited cs)
    : cs ≠ [] := by
  rcases h with ⟨c, rest, rfl, _⟩
  simp

theorem Delimited.head {c : Char} {cs : List Char} (h : Delimited (c :: cs))
    : c ≠ '.' ∧ c ≠ 'e' ∧ c ≠ 'E' := by
  rcases h with ⟨c', rest, heq, hc⟩
  cases heq
  refine ⟨?_, ?_, ?_⟩ <;> (rintro rfl; revert hc; decide)

theorem delimited_of_skipSpace {cs rest : List Char} {c : Char} (h : skipSpace cs = c :: rest)
    (hc : c = ',' ∨ c = ']' ∨ c = '}')
    : Delimited cs := by
  cases cs with
  | nil => cases h
  | cons d cs =>
    cases hd : isSpace d with
    | true => exact ⟨d, cs, rfl, .inl hd⟩
    | false =>
      rw [skipSpace_of_head hd] at h
      cases h
      exact ⟨_, _, rfl, .inr hc⟩

/- Strings. -/

theorem scanHex_append {p rest : List Char} {n : ℕ} (h : scanHex p = some (n, rest)) (q : List Char)
    : scanHex (p ++ q) = some (n, rest ++ q) := by
  match p with
  | a :: b :: c :: d :: p =>
    simp only [List.cons_append, scanHex, Option.bind_eq_bind, Option.bind_eq_some_iff] at h ⊢
    rcases h with ⟨a', ha, b', hb, c', hc, d', hd, heq⟩
    cases heq
    exact ⟨a', ha, b', hb, c', hc, d', hd, rfl⟩
  | [] => cases h
  | [_] => cases h
  | [_, _] => cases h
  | [_, _, _] => cases h

theorem scanLow_append_some {p : List Char} {low : ℕ × List Char} (h : scanLow p = some low) (q : List Char)
    : scanLow (p ++ q) = some (low.1, low.2 ++ q) := by
  unfold scanLow at h
  split at h
  . next p =>
    cases hhex : scanHex p with
    | none =>
      rw [hhex] at h
      cases h
    | some found =>
      rw [hhex, Option.filter_some] at h
      split at h
      . next hlow =>
        cases h
        simp only [List.cons_append, scanLow, scanHex_append hhex q, Option.filter_some, hlow, if_true]
      . cases h
  . cases h

/-- Whether a low surrogate stands next is settled where the string goes on to its closing quote. -/
theorem scanLow_append {fuel : ℕ} {p : List Char} {found : Str × List Char} (h : scanString fuel p = some found)
    (q : List Char)
    : scanLow (p ++ q) = (scanLow p).map fun (low, rest) => (low, rest ++ q) := by
  cases fuel with
  | zero => cases h
  | succ fuel =>
    rcases p with _ | ⟨c, p⟩
    . cases h
    . by_cases hc : c = '\\'
      . subst hc
        rw [scanString] at h
        rcases p with _ | ⟨d, p⟩
        . cases h
        . by_cases hd : d = 'u'
          . subst hd
            cases hhex : scanHex p with
            | none =>
              rw [scanEscape, hhex] at h
              cases h
            | some found =>
              simp only [List.cons_append, scanLow, hhex, scanHex_append hhex q, Option.filter_some]
              split <;> rfl
          . rw [List.cons_append, List.cons_append, scanLow_of_simple hd, scanLow_of_simple hd]
            rfl
      . rw [List.cons_append, scanLow_of_head hc, scanLow_of_head hc]
        rfl

theorem scanEscape_append {fuel : ℕ} {p rest : List Char} {c : CodePoint} (h : scanEscape p = some (c, rest))
    {found : Str × List Char} (hrest : scanString fuel rest = some found) (q : List Char)
    : scanEscape (p ++ q) = some (c, rest ++ q) := by
  rcases p with _ | ⟨d, p⟩
  . cases h
  . by_cases hd : d = 'u'
    . subst hd
      rw [scanEscape] at h
      rcases Option.bind_eq_some_iff.mp h with ⟨⟨n, rest'⟩, hhex, h⟩
      rw [List.cons_append, scanEscape, scanHex_append hhex q]
      simp only [Option.bind_eq_bind, Option.bind_some] at h ⊢
      cases hhigh : isHigh n with
      | false =>
        simp only [hhigh, Bool.false_eq_true, if_false, Option.some.injEq, Prod.mk.injEq] at h ⊢
        exact ⟨h.1, by rw [h.2]⟩
      | true =>
        simp only [hhigh, if_true] at h ⊢
        cases hlow : scanLow rest' with
        | none =>
          rw [hlow] at h
          cases h
          rw [scanLow_append hrest q, hlow]
          rfl
        | some low =>
          rw [hlow] at h
          rw [scanLow_append_some hlow q]
          simp only [Option.some.injEq, Prod.mk.injEq] at h ⊢
          exact ⟨h.1, by rw [h.2]⟩
    . rw [scanEscape] at h
      . rcases Option.map_eq_some_iff.mp h with ⟨c', hsimple, heq⟩
        cases heq
        rw [List.cons_append, scanEscape, hsimple]
        . rfl
        . exact hd
      . exact hd

theorem scanString_append {fuel fuel' : ℕ} {p rest : List Char} {s : Str} (h : scanString fuel p = some (s, rest))
    (hfuel : fuel ≤ fuel') (q : List Char)
    : scanString fuel' (p ++ q) = some (s, rest ++ q) := by
  induction fuel generalizing fuel' p s with
  | zero => cases h
  | succ fuel ih =>
    obtain ⟨fuel', rfl⟩ : ∃ k, fuel' = k + 1 := ⟨fuel' - 1, by omega⟩
    rcases p with _ | ⟨c, p⟩
    . cases h
    . by_cases hquote : c = '"'
      . subst hquote
        rw [scanString] at h
        cases h
        rw [List.cons_append, scanString]
      . by_cases hback : c = '\\'
        . subst hback
          rw [scanString] at h
          rcases Option.bind_eq_some_iff.mp h with ⟨⟨c, cs⟩, hescape, h⟩
          rcases Option.bind_eq_some_iff.mp h with ⟨⟨s', rest'⟩, hstring, h⟩
          cases h
          rw [List.cons_append, scanString_backslash fuel' (scanEscape_append hescape hstring q),
            ih hstring (by omega)]
          rfl
        . rw [scanString] at h
          . split at h
            . cases h
            . next hchar =>
              rcases Option.bind_eq_some_iff.mp h with ⟨⟨s', rest'⟩, hstring, h⟩
              cases h
              rw [List.cons_append, scanString_char fuel' hquote hback (by omega), ih hstring (by omega)]
              rfl
          . exact hquote
          . exact hback

/- Numbers and words. -/

theorem scanDigits_append {p : List Char} (h : (scanDigits p).2 ≠ []) (q : List Char)
    : scanDigits (p ++ q) = ((scanDigits p).1, (scanDigits p).2 ++ q) := by
  have hspan : (p ++ q).takeWhile Char.isDigit = p.takeWhile Char.isDigit
      ∧ (p ++ q).dropWhile Char.isDigit = p.dropWhile Char.isDigit ++ q := by
    induction p with
    | nil => exact absurd rfl h
    | cons c p ih =>
      by_cases hc : c.isDigit
      . simp only [scanDigits, List.dropWhile_cons, hc, if_true] at h
        simp only [List.cons_append, List.takeWhile_cons, List.dropWhile_cons, hc, if_true]
        exact ⟨by rw [(ih h).1], (ih h).2⟩
      . simp [hc]
  exact Prod.ext (Subtype.ext hspan.1) hspan.2

theorem scanWhole_append {p rest : List Char} {n : ℕ} (h : scanWhole p = some (n, rest)) (hrest : rest ≠ [])
    (q : List Char)
    : scanWhole (p ++ q) = some (n, rest ++ q) := by
  unfold scanWhole at h
  split at h
  . cases h
    rfl
  . next hzero =>
    have hhead : ∀ cs, p ++ q ≠ '0' :: cs := by
      intro cs heq
      rcases p with _ | ⟨c, p⟩
      . cases h
      . cases heq
        exact hzero p rfl
    dsimp only at h
    split at h
    . cases h
    . next hds =>
      cases h
      unfold scanWhole
      split
      . next heq => exact absurd heq (hhead _)
      . simp only [scanDigits_append hrest q, hds, if_false]

theorem scanFraction_append {p : List Char} (h : (scanFraction p).2 ≠ [])
    (hdot : ∀ rest, (scanFraction p).2 ≠ '.' :: rest) (q : List Char)
    : scanFraction (p ++ q) = ((scanFraction p).1, (scanFraction p).2 ++ q) := by
  rcases p with _ | ⟨c, p⟩
  . exact absurd rfl h
  . by_cases hc : c = '.'
    . subst hc
      by_cases hds : (scanDigits p).1.val = []
      . simp only [scanFraction, hds, if_true] at hdot
        exact absurd rfl (hdot p)
      . simp only [scanFraction, hds, if_false] at h ⊢
        simp only [List.cons_append, scanDigits_append h q, hds, if_false]
    . have hnone : ∀ cs, scanFraction (c :: cs) = (noDigits, c :: cs) := by
        intro cs
        unfold scanFraction
        split
        . next heq =>
          cases heq
          exact absurd rfl hc
        . rfl
      rw [List.cons_append, hnone, hnone]
      rfl

theorem scanSign_append {p : List Char} (h : (scanSign p).2 ≠ []) (q : List Char)
    : scanSign (p ++ q) = ((scanSign p).1, (scanSign p).2 ++ q) := by
  rcases p with _ | ⟨c, p⟩
  . exact absurd rfl h
  . by_cases hplus : c = '+'
    . subst hplus
      rfl
    . by_cases hminus : c = '-'
      . subst hminus
        rfl
      . have hnone : ∀ cs, scanSign (c :: cs) = (none, c :: cs) := by
          intro cs
          unfold scanSign
          split
          . next heq =>
            cases heq
            exact absurd rfl hplus
          . next heq =>
            cases heq
            exact absurd rfl hminus
          . rfl
        rw [List.cons_append, hnone, hnone]
        rfl

theorem scanExponent_append {p : List Char} (h : Delimited (scanExponent p).2) (q : List Char)
    : scanExponent (p ++ q) = ((scanExponent p).1, (scanExponent p).2 ++ q) := by
  rcases p with _ | ⟨c, p⟩
  . exact absurd rfl h.ne_nil
  . by_cases hc : c = 'e' ∨ c = 'E'
    . by_cases hds : (scanDigits (scanSign p).2).1.val = []
      . simp only [scanExponent, hc, if_true, hds, dite_true] at h
        rcases hc with hc | hc
        . exact absurd hc h.head.2.1
        . exact absurd hc h.head.2.2
      . simp only [scanExponent, hc, if_true, hds, dite_false] at h ⊢
        have hsign : (scanSign p).2 ≠ [] := by
          intro hnil
          rw [hnil] at hds
          exact hds rfl
        simp only [List.cons_append, hc, if_true, scanSign_append hsign q, scanDigits_append h.ne_nil q, hds, dite_false]
    . rw [List.cons_append, scanExponent, scanExponent, if_neg hc, if_neg hc]
      rfl

theorem scanExponent_head {p : List Char} (h : Delimited (scanExponent p).2)
    : p ≠ [] ∧ ∀ rest, p ≠ '.' :: rest := by
  refine ⟨?_, ?_⟩
  . rintro rfl
    exact h.ne_nil rfl
  . rintro rest rfl
    exact h.head.1 rfl

theorem scanNumber_append {p rest : List Char} {n : Number} (h : scanNumber p = some (n, rest)) (hrest : Delimited rest)
    (q : List Char)
    : scanNumber (p ++ q) = some (n, rest ++ q) := by
  simp only [scanNumber, Option.bind_eq_bind, Option.bind_eq_some_iff, Option.some.injEq, Prod.mk.injEq] at h
  rcases h with ⟨⟨whole, afterWhole⟩, hwhole, rfl, rfl⟩
  rcases scanExponent_head hrest with ⟨hfraction, hdot⟩
  have hnonempty : afterWhole ≠ [] := fun hnil => by
    rw [hnil] at hfraction
    exact hfraction rfl
  have hminus : scanMinus (p ++ q) = ((scanMinus p).1, (scanMinus p).2 ++ q) := by
    rcases p with _ | ⟨c, p⟩
    . cases hwhole
    . by_cases hc : c = '-'
      . subst hc
        rfl
      . have hnone : ∀ cs, scanMinus (c :: cs) = (false, c :: cs) := by
          intro cs
          unfold scanMinus
          split
          . next heq =>
            cases heq
            exact absurd rfl hc
          . rfl
        rw [List.cons_append, hnone, hnone]
        rfl
  rw [scanNumber]
  simp only [hminus, scanWhole_append hwhole hnonempty q, scanFraction_append hfraction hdot q,
    scanExponent_append hrest q, Option.bind_eq_bind, Option.bind_some]

theorem scanWord_append {p rest : List Char} {w : Word} (h : scanWord p = some (w, rest)) (q : List Char)
    : scanWord (p ++ q) = some (w, rest ++ q) := by
  rw [scanWord_eq_some.mp h, List.append_assoc]
  exact scanWord_eq_some.mpr rfl

/- Arrays, objects and whole values. -/

section Sequence

variable {α : Type} {close : Char} {item item' : List Char → Option (α × List Char)} {q : List Char}

theorem delimited_of_scanItems (hclose : close = ']' ∨ close = '}') {fuel : ℕ} {p : List Char}
    {found : List α × List Char} (h : scanItems close item fuel p = some found)
    : Delimited p := by
  cases fuel with
  | zero => cases h
  | succ fuel =>
    rw [scanItems] at h
    split at h
    . cases h
    . next c rest hskip =>
      split at h
      . next hc =>
        subst hc
        exact delimited_of_skipSpace hskip (.inr hclose)
      . split at h
        . next hc => exact delimited_of_skipSpace hskip (.inl hc)
        . cases h

/-- The longer text is read with as much fuel or more. -/
def Extends (q : List Char) (item item' : List Char → Option (α × List Char)) : Prop :=
  item [] = none
    ∧ ∀ p x rest, item p = some (x, rest) → Delimited rest → item' (p ++ q) = some (x, rest ++ q)

theorem scanItems_append (hclose : close = ']' ∨ close = '}') (hitem : Extends q item item') {fuel fuel' : ℕ}
    {p rest : List Char} {xs : List α} (h : scanItems close item fuel p = some (xs, rest)) (hfuel : fuel ≤ fuel')
    : scanItems close item' fuel' (p ++ q) = some (xs, rest ++ q) := by
  induction fuel generalizing fuel' p xs with
  | zero => cases h
  | succ fuel ih =>
    obtain ⟨fuel', rfl⟩ : ∃ k, fuel' = k + 1 := ⟨fuel' - 1, by omega⟩
    rw [scanItems] at h
    split at h
    . cases h
    . next c cs hskip =>
      have hlong : skipSpace (p ++ q) = c :: (cs ++ q) := by
        rw [skipSpace_append (by simp [hskip]), hskip, List.cons_append]
      rw [scanItems, hlong]
      dsimp only
      split at h
      . next hc =>
        cases h
        rw [if_pos hc]
      . next hc =>
        split at h
        . next hcomma =>
          simp only [Option.bind_eq_bind, Option.bind_eq_some_iff] at h
          rcases h with ⟨⟨x, afterItem⟩, hx, ⟨ys, afterItems⟩, hys, heq⟩
          cases heq
          have hcs : skipSpace cs ≠ [] := fun hnil => by
            rw [hnil, hitem.1] at hx
            cases hx
          have hmore := @ih fuel' _ _ hys (by omega)
          rw [if_neg hc, if_pos hcomma, skipSpace_append hcs,
            hitem.2 _ _ _ hx (delimited_of_scanItems hclose hys)]
          simp only [Option.bind_eq_bind, Option.bind_some, hmore]
        . cases h

theorem scanSequence_append (hclose : close = ']' ∨ close = '}') (hitem : Extends q item item') {fuel fuel' : ℕ}
    {p rest : List Char} {xs : List α} (h : scanSequence close item fuel p = some (xs, rest)) (hfuel : fuel ≤ fuel')
    : scanSequence close item' fuel' (p ++ q) = some (xs, rest ++ q) := by
  rw [scanSequence] at h
  split at h
  . cases h
  . next c cs hskip =>
    have hlong : skipSpace (p ++ q) = c :: (cs ++ q) := by
      rw [skipSpace_append (by simp [hskip]), hskip, List.cons_append]
    rw [scanSequence, hlong]
    dsimp only
    split at h
    . next hc =>
      cases h
      rw [if_pos hc]
    . next hc =>
      simp only [Option.bind_eq_bind, Option.bind_eq_some_iff] at h
      rcases h with ⟨⟨x, afterItem⟩, hx, ⟨ys, afterItems⟩, hys, heq⟩
      cases heq
      rw [if_neg hc, ← List.cons_append, hitem.2 _ _ _ hx (delimited_of_scanItems hclose hys)]
      simp only [Option.bind_eq_bind, Option.bind_some, scanItems_append hclose hitem hys hfuel]

end Sequence

theorem extends_scanMember {q : List Char} {value value' : List Char → Option (Tree × List Char)}
    (h : Extends q value value')
    : Extends q (scanMember value) (scanMember value') := by
  refine ⟨rfl, fun p m rest hm hrest => ?_⟩
  unfold scanMember at hm
  split at hm
  . next cs =>
    simp only [Option.bind_eq_bind, Option.bind_eq_some_iff] at hm
    rcases hm with ⟨⟨k, afterKey⟩, hkey, hm⟩
    split at hm
    . next cs' hcolon =>
      rcases Option.bind_eq_some_iff.mp hm with ⟨⟨t, afterValue⟩, hvalue, heq⟩
      cases heq
      have hlong : skipSpace (afterKey ++ q) = ':' :: (cs' ++ q) := by
        rw [skipSpace_append (by simp [hcolon]), hcolon, List.cons_append]
      have hcs : skipSpace cs' ≠ [] := fun hnil => by
        rw [hnil, h.1] at hvalue
        cases hvalue
      have hstring : scanString (cs ++ q).length.succ (cs ++ q) = some (k, afterKey ++ q) :=
        scanString_append hkey (by simp) q
      rw [List.cons_append, scanMember]
      simp only [hstring, Option.bind_eq_bind, Option.bind_some, hlong, skipSpace_append hcs,
        h.2 _ _ _ hvalue hrest]
    . cases hm
  . cases hm

/-- The text of a string, an array or an object, which tells where it ends. -/
def Opened (cs : List Char) : Prop :=
  ∃ c rest, cs = c :: rest ∧ (c = '"' ∨ c = '[' ∨ c = '{')

theorem scanOnce_append {fuel fuel' : ℕ} {p rest : List Char} {t : Tree} (h : scanOnce fuel p = some (t, rest))
    (hend : Delimited rest ∨ Opened p) (hfuel : fuel ≤ fuel') (q : List Char)
    : scanOnce fuel' (p ++ q) = some (t, rest ++ q) := by
  induction fuel generalizing fuel' p t rest with
  | zero => cases h
  | succ fuel ih =>
    obtain ⟨fuel', rfl⟩ : ∃ k, fuel' = k + 1 := ⟨fuel' - 1, by omega⟩
    have hitem : Extends q (scanOnce fuel) (scanOnce fuel') := by
      refine ⟨?_, fun p t rest h hrest => ih h (.inl hrest) (by omega)⟩
      cases fuel with
      | zero => rfl
      | succ fuel => rfl
    rw [scanOnce.eq_def] at h
    dsimp only at h
    split at h
    . next cs =>
      rcases Option.map_eq_some_iff.mp h with ⟨⟨s, rest'⟩, hstring, heq⟩
      cases heq
      rw [List.cons_append, scanOnce, scanString_append hstring (by simp) q]
      rfl
    . next cs =>
      rcases Option.map_eq_some_iff.mp h with ⟨⟨ts, rest'⟩, hitems, heq⟩
      cases heq
      rw [List.cons_append, scanOnce, scanSequence_append (.inl rfl) hitem hitems (by omega)]
      rfl
    . next cs =>
      rcases Option.map_eq_some_iff.mp h with ⟨⟨ms, rest'⟩, hmembers, heq⟩
      cases heq
      rw [List.cons_append, scanOnce,
        scanSequence_append (.inr rfl) (extends_scanMember hitem) hmembers (by omega)]
      rfl
    . next hquote hbracket hbrace =>
      rcases p with _ | ⟨c, p⟩
      . cases h
      . have hplain : c ≠ '"' ∧ c ≠ '[' ∧ c ≠ '{' :=
          ⟨fun hc => hquote p (by rw [hc]), fun hc => hbracket p (by rw [hc]), fun hc => hbrace p (by rw [hc])⟩
        have hrest : Delimited rest := by
          rcases hend with hrest | ⟨c', rest', heq, hc⟩
          . exact hrest
          . cases heq
            rcases hc with hc | hc | hc
            . exact absurd hc hplain.1
            . exact absurd hc hplain.2.1
            . exact absurd hc hplain.2.2
        rw [List.cons_append, scanOnce_plain hplain, ← List.cons_append]
        split at h
        . next w rest' hword =>
          cases h
          rw [scanWord_append hword q]
        . next hword =>
          rcases Option.map_eq_some_iff.mp h with ⟨⟨n, rest'⟩, hnumber, heq⟩
          cases heq
          rw [scanNumber_append hnumber hrest q]
          rw [scanWord_of_scanNumber hnumber q]
          rfl

/-- No text of a string, an array or an object is read before it is whole. -/
theorem parse_prefix (style : Style) {t : Tree} (hopened : Opened (write style t)) {p : List Char}
    (hinitial : p <+: write style t) (hne : p ≠ write style t)
    : parse p = none := by
  rcases hinitial with ⟨q, hq⟩
  rcases p with _ | ⟨c, p⟩
  . rfl
  . have hopened' : Opened (c :: p) := by
      rcases hopened with ⟨c', rest, heq, hc⟩
      rw [← hq] at heq
      cases heq
      exact ⟨c, p, rfl, hc⟩
    have hskip : skipSpace (c :: p) = c :: p := by
      rcases hopened' with ⟨c', rest, heq, hc⟩
      cases heq
      exact skipSpace_of_head (by rcases hc with rfl | rfl | rfl <;> decide)
    cases hscan : scanOnce (c :: p).length.succ (c :: p) with
    | none => rw [parse, hskip, hscan]
    | some found =>
      rcases found with ⟨t', rest⟩
      have hwhole := (scanOnce_write style t (Nat.le_succ _)).2 [] boundary_nil
      have hfuel : (c :: p).length.succ ≤ (write style t).length.succ := by
        rw [← hq]
        simp
      have hlong := scanOnce_append hscan (.inr hopened') hfuel q
      rw [List.append_nil, ← hq] at hwhole
      rw [← hq, hwhole] at hlong
      simp only [Option.some.injEq, Prod.mk.injEq] at hlong
      have hnil : q = [] := (List.append_eq_nil_iff.mp hlong.2.symm).2
      subst hnil
      exact absurd (by rw [← hq, List.append_nil]) hne

theorem opened_object (style : Style) (ms : List (Str × Tree))
    : Opened (write style (.object ms)) := by
  rcases ms with _ | ⟨⟨k, t⟩, ms⟩
  . exact ⟨'{', _, by rw [write], .inr (.inr rfl)⟩
  . exact ⟨'{', _, by rw [write]; rfl, .inr (.inr rfl)⟩

end Json
