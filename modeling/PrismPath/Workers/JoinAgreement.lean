import PrismPath.Workers.JoinPolicy

/-!
This module contains when a join policy means the same in both runtimes: the texts both read as one number, the thresholds
they make of it, and the decisions over every set of finished children.
-/

open Python

/- Texts without white space at their ends. -/

namespace Composer

section Strip

variable {p : Char → Bool}

theorem exists_strip (p : Char → Bool) (cs : List Char)
    : ∃ l r, cs = l ++ (cs.dropWhile p).rdropWhile p ++ r ∧ (∀ c ∈ l, p c = true) ∧ ∀ c ∈ r, p c = true := by
  refine ⟨cs.takeWhile p, (cs.dropWhile p).rtakeWhile p, ?_, ?_, ?_⟩
  . rw [List.append_assoc, List.rdropWhile_append_rtakeWhile, List.takeWhile_append_dropWhile]
  . exact fun c hc => List.mem_takeWhile_imp hc
  . exact fun c hc => List.mem_rtakeWhile_imp hc

theorem strip_of_clean {cs : List Char} (h : ∀ c ∈ cs, p c = false)
    : (cs.dropWhile p).rdropWhile p = cs := by
  have hdrop : cs.dropWhile p = cs := by
    cases cs with
    | nil => rfl
    | cons c cs => rw [List.dropWhile_cons, h c List.mem_cons_self, if_neg Bool.false_ne_true]
  rw [hdrop]
  apply List.rdropWhile_eq_self_iff.mpr
  intro hne htrue
  rw [h _ (List.getLast_mem hne)] at htrue
  cases htrue

theorem dropWhile_append_of_all {l cs : List Char} (h : ∀ c ∈ l, p c = true)
    : (l ++ cs).dropWhile p = cs.dropWhile p := by
  rw [List.dropWhile_append_of_pos h]

theorem rdropWhile_append_of_all {cs r : List Char} (h : ∀ c ∈ r, p c = true)
    : (cs ++ r).rdropWhile p = cs.rdropWhile p := by
  unfold List.rdropWhile
  rw [List.reverse_append, dropWhile_append_of_all fun c hc => h c (List.mem_reverse.mp hc)]

theorem strip_append {l cs r : List Char} (hl : ∀ c ∈ l, p c = true) (hr : ∀ c ∈ r, p c = true)
    : ((l ++ cs ++ r).dropWhile p).rdropWhile p = (cs.dropWhile p).rdropWhile p := by
  rw [List.append_assoc, dropWhile_append_of_all hl, List.dropWhile_append]
  split
  . next hempty =>
    have hcs : cs.dropWhile p = [] := List.isEmpty_iff.mp hempty
    have hdrop : r.dropWhile p = [] := List.dropWhile_eq_nil_iff.mpr hr
    rw [hcs, hdrop]
  . exact rdropWhile_append_of_all hr

end Strip

theorem stripChars_append {l cs r : List Char} (hl : ∀ c ∈ l, isSpace c = true) (hr : ∀ c ∈ r, isSpace c = true)
    : stripChars (l ++ cs ++ r) = stripChars cs :=
  strip_append hl hr

theorem isSpace_of_isWhitespace {c : Char} (h : Rust.Fields.isWhitespace c = true)
    : isSpace c = true := by
  simp only [Rust.Fields.isWhitespace, isSpace, Bool.or_eq_true, Bool.and_eq_true, decide_eq_true_eq] at h ⊢
  omega

/- Texts a number is read from. -/

theorem plain_of_isPlain {c : Char} (h : FloatGrammar.isPlain c = true)
    : c.toNat < 128 ∧ isSpace c = false ∧ c ≠ '_' := by
  have hcode : (c.toNat = 46 ∨ c.toNat = 43 ∨ c.toNat = 45) ∨ (48 ≤ c.toNat ∧ c.toNat ≤ 57)
      ∨ (65 ≤ c.toNat ∧ c.toNat ≤ 90) ∨ (97 ≤ c.toNat ∧ c.toNat ≤ 122) := by
    simp only [FloatGrammar.isPlain, Char.isAlphanum, Char.isAlpha, Char.isUpper, Char.isLower, Char.isDigit,
      Bool.or_eq_true, Bool.and_eq_true, decide_eq_true_eq] at h
    rcases h with (((((h | h) | h) | rfl) | rfl) | rfl)
    . exact .inr (.inr (.inl h))
    . exact .inr (.inr (.inr h))
    . exact .inr (.inl h)
    . exact .inl (.inl rfl)
    . exact .inl (.inr (.inl rfl))
    . exact .inl (.inr (.inr rfl))
  refine ⟨by omega, ?_, ?_⟩
  . simp only [isSpace, Bool.or_eq_false_iff, Bool.and_eq_false_iff, decide_eq_false_iff_not]
    omega
  . rintro rfl
    simp only [Char.reduceToNat] at hcode
    omega

section Spelled

variable (decimalDigit : Char → Option (Fin 10))

theorem asciiDigits_of_plain {cs : List Char} (h : FloatGrammar.Plain cs)
    : asciiDigits decimalDigit cs = cs := by
  unfold asciiDigits
  conv_rhs => rw [← List.map_id cs]
  exact List.map_congr_left fun c hc => if_pos (plain_of_isPlain (h c hc)).1

theorem ungroup_of_plain {cs : List Char} (h : FloatGrammar.Plain cs) {prev : Char} (hprev : prev ≠ '_')
    : ungroup prev cs = some cs := by
  induction cs generalizing prev with
  | nil =>
    unfold ungroup
    rw [if_neg hprev]
  | cons c cs ih =>
    have hc := (plain_of_isPlain (h c List.mem_cons_self)).2.2
    unfold ungroup
    rw [if_neg hc, if_neg (fun hgroup => hprev hgroup.1), ih (fun d hd => h d (List.mem_cons_of_mem _ hd)) hc]
    rfl

theorem stripChars_of_plain {cs : List Char} (h : FloatGrammar.Plain cs)
    : stripChars cs = cs :=
  strip_of_clean fun c hc => (plain_of_isPlain (h c hc)).2.1

theorem spelled_of_read {cs : List Char} {number : FloatGrammar.Spelled} (h : FloatGrammar.read cs = some number)
    : spelled decimalDigit cs = some number := by
  have hplain := FloatGrammar.plain_of_read h
  rw [spelled, asciiDigits_of_plain decimalDigit hplain, stripChars_of_plain hplain,
    ungroup_of_plain hplain (by decide)]
  exact h

end Spelled

/- The text after the colon. -/

theorem afterColon_append {l cs : List Char} (h : ':' ∉ l)
    : afterColon (l ++ cs) = afterColon cs := by
  have hl : ∀ c ∈ l, decide (c ≠ ':') = true := fun c hc => decide_eq_true fun heq => h (heq ▸ hc)
  rw [afterColon, dropWhile_append_of_all hl]
  rfl

theorem afterColon_append_of_mem {cs r : List Char} (h : ':' ∈ cs)
    : afterColon (cs ++ r) = afterColon cs ++ r := by
  have hne : cs.dropWhile (fun c => c ≠ ':') ≠ [] := by
    intro hnil
    have := List.dropWhile_eq_nil_iff.mp hnil ':' h
    simp at this
  unfold afterColon
  rw [List.dropWhile_append, if_neg (by rwa [List.isEmpty_iff]), List.tail_append_of_ne_nil hne]

/-- What the driver parses a number from, the harness reads as the same one. -/
theorem spelled_of_quorumText (decimalDigit : Char → Option (Fin 10)) {join : List Char}
    {number : FloatGrammar.Spelled} (h : FloatGrammar.read (Rust.Compose.quorumText join) = some number)
    : spelled decimalDigit (stripChars (afterColon (policyText join))) = some number := by
  have hcolon : ':' ∈ join := by
    by_contra hmem
    rw [Rust.Compose.quorumText, Rust.Fields.splitOnce, if_neg hmem] at h
    exact FloatGrammar.ne_nil_of_read h rfl
  have htext : Rust.Compose.quorumText join = Rust.Host.trim (afterColon join) := by
    rw [Rust.Compose.quorumText, Rust.Fields.splitOnce, if_pos hcolon]
    rfl
  have hjoin : join ≠ [] := List.ne_nil_of_mem hcolon
  rw [htext] at h
  -- The number stands between white space in what follows the colon.
  rcases exists_strip Rust.Fields.isWhitespace (afterColon join) with ⟨l, r, hsplit, hl, hr⟩
  have hcore : FloatGrammar.Plain (Rust.Host.trim (afterColon join)) := FloatGrammar.plain_of_read h
  have hstripped : stripChars (afterColon join) = Rust.Host.trim (afterColon join) := by
    rw [hsplit, stripChars_append (fun c hc => isSpace_of_isWhitespace (hl c hc))
      (fun c hc => isSpace_of_isWhitespace (hr c hc))]
    rw [← hsplit]
    exact stripChars_of_plain hcore
  -- The ends of the policy are white space too.
  rcases exists_strip isSpace join with ⟨l', r', hpolicy, hl', hr'⟩
  have hnocolon : ∀ cs : List Char, (∀ c ∈ cs, isSpace c = true) → ':' ∉ cs := by
    intro cs hcs hmem
    have := hcs ':' hmem
    revert this
    decide
  have hmem : ':' ∈ stripChars join := by
    rw [hpolicy] at hcolon
    rcases List.mem_append.mp hcolon with hmem | hmem
    . rcases List.mem_append.mp hmem with hmem | hmem
      . exact absurd hmem (hnocolon l' hl')
      . exact hmem
    . exact absurd hmem (hnocolon r' hr')
  have hafter : afterColon join = afterColon (stripChars join) ++ r' := by
    conv_lhs => rw [hpolicy]
    rw [List.append_assoc, afterColon_append (hnocolon l' hl')]
    exact afterColon_append_of_mem hmem
  have hends : stripChars (afterColon (policyText join)) = stripChars (afterColon join) := by
    rw [policyText, if_neg hjoin, hafter]
    have happend := @stripChars_append [] (afterColon (stripChars join)) r' (fun _ hc => by cases hc) hr'
    rw [List.nil_append] at happend
    exact happend.symm
  rw [hends, hstripped]
  exact spelled_of_read decimalDigit h

/- What a quorum declares. -/

/-- The children a number asks for, of so many: its share of them where it is a fraction, and itself without its fraction
otherwise. -/
def share (q : ℚ) (childCount : ℕ) : ℚ :=
  if 0 < q ∧ q < 1 then q * childCount else if 0 ≤ q then ⌊q⌋ else ⌈q⌉

/-- The same in floats. -/
def roundedShare (x : Double) (childCount : ℕ) : ℚ :=
  if 0 < x.val ∧ x.val < 1 then
    (((Double.round childCount).bind fun y => Double.round (x.val * y.val)).getD 0).val
  else
    truncated x

section Meaning

variable (decimalDigit : Char → Option (Fin 10))

/-- The number a policy spells after its colon. -/
def declaredNumber? (join : List Char) : Option FloatGrammar.Spelled :=
  spelled decimalDigit (stripChars (afterColon (policyText join)))

/-- The threshold a policy declares: all children where what it spells is no number. -/
def declaredThreshold (join : List Char) (childCount : ℕ) : ℤ :=
  match declaredNumber? decimalDigit join with
  | some (.finite q) => max 1 (min (childCount : ℤ) ⌈share q childCount⌉)
  | _ => childCount

/-- What is claimed of a policy over so many children. -/
structure MeansTheSame (join : List Char) (childCount : ℕ) : Prop where
  agrees : ∀ done : List Bool, done.length = childCount
    → joinEvent decimalDigit join done = .ok (Rust.Compose.joinEvent join done)
  exact : ∀ done : List Bool, done.length = childCount → done ≠ [] → spawnJoinEvent join = .quorum
    → (joinEvent decimalDigit join done = .ok (some .quorum)
        ↔ declaredThreshold decimalDigit join childCount ≤ done.count true)
  monotone : ∀ done done' : List Bool, done.length = childCount → done'.length = childCount
    → done.count true ≤ done'.count true
    → ∀ event, joinEvent decimalDigit join done = .ok (some event) → joinEvent decimalDigit join done' = .ok (some event)

/-- The number a quorum spells is finite as a float, no whole number below the number of children lies between its share
and that of the float, and where only Python reads the number it asks for all children. -/
def Legible (join : List Char) (childCount : ℕ) : Prop :=
  match declaredNumber? decimalDigit join with
  | none => True
  | some (.finite q) =>
    ∃ x, Double.round q = some x
      ∧ (∀ k : ℕ, 1 ≤ k → k < childCount → (share q childCount ≤ k ↔ roundedShare x childCount ≤ k))
      ∧ (FloatGrammar.read (Rust.Compose.quorumText join) = none → ∀ k : ℕ, 1 ≤ k → k < childCount → ¬ share q childCount ≤ k)
  | some _ => False

/-- Both trims leave a policy of one family, and a quorum is legible. -/
def ReadAlike (join : List Char) (childCount : ℕ) : Prop :=
  spawnJoinEvent join = Rust.Compose.spawnJoinEvent join
    ∧ (spawnJoinEvent join = .quorum → Legible decimalDigit join childCount)

end Meaning

/- Thresholds. -/

theorem clamp_le_iff {n k : ℕ} (hk : 1 ≤ k) (hkn : k < n) (a : ℚ)
    : max 1 (min (n : ℤ) ⌈a⌉) ≤ k ↔ a ≤ k := by
  have hceil : ⌈a⌉ ≤ (k : ℤ) ↔ a ≤ k := by
    rw [Int.ceil_le]
    norm_cast
  rw [← hceil]
  omega

/-- Two shares are clamped to one threshold when no whole number below the number of children lies between them. -/
theorem clamp_eq_iff {n : ℕ} (hn : 1 ≤ n) (a b : ℚ)
    : max 1 (min (n : ℤ) ⌈a⌉) = max 1 (min (n : ℤ) ⌈b⌉) ↔ ∀ k : ℕ, 1 ≤ k → k < n → (a ≤ k ↔ b ≤ k) := by
  constructor
  . intro heq k hk hkn
    rw [← clamp_le_iff hk hkn, heq, clamp_le_iff hk hkn]
  . intro h
    by_contra hne
    rcases lt_or_gt_of_ne hne with hlt | hlt
    . -- The smaller threshold itself tells the shares apart.
      rcases Int.eq_ofNat_of_zero_le (a := max 1 (min (n : ℤ) ⌈a⌉)) (by omega) with ⟨k, hk⟩
      have hlow : 1 ≤ k := by omega
      have hhigh : k < n := by omega
      have ha : a ≤ k := (clamp_le_iff hlow hhigh a).mp hk.le
      have hb := (clamp_le_iff hlow hhigh b).mpr ((h k hlow hhigh).mp ha)
      omega
    . rcases Int.eq_ofNat_of_zero_le (a := max 1 (min (n : ℤ) ⌈b⌉)) (by omega) with ⟨k, hk⟩
      have hlow : 1 ≤ k := by omega
      have hhigh : k < n := by omega
      have hb : b ≤ k := (clamp_le_iff hlow hhigh b).mp hk.le
      have ha := (clamp_le_iff hlow hhigh a).mpr ((h k hlow hhigh).mpr hb)
      omega

theorem clamp_eq_all_iff {n : ℕ} (hn : 1 ≤ n) (a : ℚ)
    : max 1 (min (n : ℤ) ⌈a⌉) = n ↔ ∀ k : ℕ, 1 ≤ k → k < n → ¬ a ≤ k := by
  constructor
  . intro heq k hk hkn hle
    have := (clamp_le_iff hk hkn a).mpr hle
    omega
  . intro h
    by_contra hne
    rcases Int.eq_ofNat_of_zero_le (a := max 1 (min (n : ℤ) ⌈a⌉)) (by omega) with ⟨k, hk⟩
    have hlow : 1 ≤ k := by omega
    have hhigh : k < n := by omega
    exact h k hlow hhigh ((clamp_le_iff hlow hhigh a).mp hk.le)

/-- The product of a fraction and a number of children is a float. -/
theorem exists_product {x : Double} (hpos : 0 < x.val) (hlt : x.val < 1) {n : ℕ} (hn : n < 2 ^ 63)
    : ∃ y z, Double.round n = some y ∧ Double.round (x.val * y.val) = some z ∧ |z.val| ≤ 2 ^ 64 := by
  have hcast : |(n : ℚ)| < 2 ^ 63 := by
    rw [abs_of_nonneg (by positivity)]
    exact_mod_cast hn
  rcases Double.exists_round (by omega) hcast with ⟨y, hy, hle⟩
  have hprod : |x.val * y.val| < 2 ^ 64 := by
    rw [abs_mul, abs_of_pos hpos]
    calc x.val * |y.val|
      _ ≤ 1 * 2 ^ 63 := mul_le_mul hlt.le hle (abs_nonneg _) (by norm_num)
      _ < 2 ^ 64 := by norm_num
  rcases Double.exists_round (by omega) hprod with ⟨z, hz, hzle⟩
  exact ⟨y, z, hy, hz, hzle⟩

theorem threshold_finite (x : Double) {n : ℕ} (hn : n < 2 ^ 63)
    : threshold (.finite x) n = .ok ⌈roundedShare x n⌉ := by
  simp only [threshold, roundedShare]
  split
  . next h =>
    rcases exists_product h.1 h.2 hn with ⟨y, z, hy, hz, _⟩
    rw [ceilShare, hy]
    simp only [Option.bind_some]
    rw [hz]
    rfl
  . rw [Int.ceil_intCast]
    rfl

/-- Saturating does not show once a threshold is clamped. -/
theorem clamp_saturate {n : ℕ} (hn : n < 2 ^ 63) (hpos : 1 ≤ n) (k : ℤ)
    : ((max 1 (min (max n 1) (Rust.Compose.saturate k)) : ℕ) : ℤ) = max 1 (min (n : ℤ) k) := by
  unfold Rust.Compose.saturate
  omega

theorem rust_threshold_finite (x : Double) {n : ℕ} (hn : n < 2 ^ 63) (hpos : 1 ≤ n)
    : ((max 1 (min (max n 1) (Rust.Compose.threshold (.finite x) n)) : ℕ) : ℤ)
        = max 1 (min (n : ℤ) ⌈roundedShare x n⌉) := by
  simp only [Rust.Compose.threshold, roundedShare]
  split
  . next h =>
    rcases exists_product h.1 h.2 hn with ⟨y, z, hy, hz, _⟩
    rw [Rust.Compose.ceilShare, hy]
    simp only [Option.bind_some]
    rw [hz]
    exact clamp_saturate hn hpos _
  . rw [Int.ceil_intCast]
    exact clamp_saturate hn hpos _

/- Decisions. -/

theorem policyText_idem (join : List Char)
    : spawnJoinEvent (policyText join) = spawnJoinEvent join := by
  by_cases hnil : policyText join = []
  . rw [hnil]
    unfold policyText at hnil
    unfold spawnJoinEvent
    rw [hnil]
    rfl
  . have hstrip : stripChars (policyText join) = policyText join := stripChars_stripChars _
    unfold spawnJoinEvent
    rw [if_neg hnil, hstrip]
    rfl

section Decisions

variable (decimalDigit : Char → Option (Fin 10))

/-- How many finished children a policy waits for. -/
def waitsFor (join : List Char) (childCount : ℕ) : Except Error ℤ :=
  match spawnJoinEvent join with
  | .any => .ok 1
  | .quorum => quorumThreshold decimalDigit (policyText join) childCount
  | .allDone => .ok childCount

def driverWaitsFor (join : List Char) (childCount : ℕ) : ℕ :=
  match Rust.Compose.spawnJoinEvent join with
  | .any => 1
  | .quorum => Rust.Compose.quorumThreshold join childCount
  | .allDone => childCount

theorem all_iff_length_le (done : List Bool)
    : done.all id = true ↔ done.length ≤ done.count true := by
  have hle := List.count_le_length (a := true) (l := done)
  rw [List.all_eq_true]
  constructor
  . intro h
    rw [List.count_eq_length.mpr fun b hb => (h b hb).symm]
  . intro h b hb
    exact (List.count_eq_length.mp (le_antisymm hle h) b hb).symm

theorem joinEvent_eq (join : List Char) {done : List Bool} (hne : done ≠ [])
    : joinEvent decimalDigit join done
        = (waitsFor decimalDigit join done.length).map fun t : ℤ =>
            if t ≤ done.count true then some (spawnJoinEvent join) else none := by
  simp only [joinEvent, if_neg hne, waitsFor, policyText_idem]
  cases spawnJoinEvent join with
  | any =>
    simp only [Except.map, Nat.one_le_cast]
  | quorum =>
    cases quorumThreshold decimalDigit (policyText join) done.length with
    | error e => rfl
    | ok t => rfl
  | allDone =>
    simp only [Except.map, Nat.cast_le, all_iff_length_le]

theorem driver_joinEvent_eq (join : List Char) {done : List Bool} (hne : done ≠ [])
    : Rust.Compose.joinEvent join done
        = if driverWaitsFor join done.length ≤ done.count true then some (Rust.Compose.spawnJoinEvent join) else none := by
  unfold Rust.Compose.joinEvent driverWaitsFor
  rw [if_neg hne]
  cases Rust.Compose.spawnJoinEvent join with
  | any => rfl
  | quorum => rfl
  | allDone => simp only [all_iff_length_le]

/-- What a policy waits for is at least one child and at most all. -/
theorem waitsFor_bounds {join : List Char} {n : ℕ} (hpos : 1 ≤ n) {t : ℤ} (h : waitsFor decimalDigit join n = .ok t)
    : 1 ≤ t ∧ t ≤ n := by
  unfold waitsFor at h
  split at h
  . cases h
    omega
  . unfold quorumThreshold at h
    split at h
    . cases h
      omega
    . next number _ =>
      cases hthreshold : threshold number.value n with
      | error e =>
        rw [hthreshold] at h
        cases h
      | ok k =>
        rw [hthreshold] at h
        cases h
        omega
  . cases h
    omega

theorem driverWaitsFor_bounds {join : List Char} {n : ℕ} (hpos : 1 ≤ n)
    : 1 ≤ driverWaitsFor join n ∧ driverWaitsFor join n ≤ n := by
  unfold driverWaitsFor
  split
  . omega
  . unfold Rust.Compose.quorumThreshold
    split <;> omega
  . omega

theorem declaredThreshold_bounds {join : List Char} {n : ℕ} (hpos : 1 ≤ n)
    : 1 ≤ declaredThreshold decimalDigit join n ∧ declaredThreshold decimalDigit join n ≤ n := by
  unfold declaredThreshold
  split <;> omega

/-- The flags of so many children, the first of which are done. -/
def firstDone (k n : ℕ) : List Bool :=
  List.replicate k true ++ List.replicate (n - k) false

theorem firstDone_spec {k n : ℕ} (h : k ≤ n)
    : (firstDone k n).length = n ∧ (firstDone k n).count true = k := by
  unfold firstDone
  constructor
  . rw [List.length_append, List.length_replicate, List.length_replicate]
    omega
  . rw [List.count_append, List.count_replicate_self, List.count_replicate]
    rfl

theorem firstDone_ne_nil {k n : ℕ} (hpos : 1 ≤ n) (h : k ≤ n)
    : firstDone k n ≠ [] := by
  apply List.ne_nil_of_length_pos
  rw [(firstDone_spec h).1]
  exact hpos

/-- A policy means the same over at least one child when the runtimes deliver one event for it, wait for the same number of
children, and a quorum waits for what it declares. -/
theorem meansTheSame_iff {join : List Char} {n : ℕ} (hpos : 1 ≤ n)
    : MeansTheSame decimalDigit join n
        ↔ spawnJoinEvent join = Rust.Compose.spawnJoinEvent join
            ∧ waitsFor decimalDigit join n = .ok (driverWaitsFor join n : ℤ)
            ∧ (spawnJoinEvent join = .quorum → declaredThreshold decimalDigit join n = driverWaitsFor join n) := by
  have hdriver := @driverWaitsFor_bounds join n hpos
  constructor
  . intro h
    cases hwaits : waitsFor decimalDigit join n with
    | error e =>
      have hagrees := h.agrees (firstDone n n) (firstDone_spec le_rfl).1
      rw [joinEvent_eq decimalDigit join (firstDone_ne_nil hpos le_rfl), (firstDone_spec le_rfl).1, hwaits] at hagrees
      cases hagrees
    | ok t =>
      have hbounds := waitsFor_bounds decimalDigit hpos hwaits
      have hdecides : ∀ k ≤ n, (if t ≤ (k : ℤ) then some (spawnJoinEvent join) else none)
          = if driverWaitsFor join n ≤ k then some (Rust.Compose.spawnJoinEvent join) else none := by
        intro k hk
        have hagrees := h.agrees (firstDone k n) (firstDone_spec hk).1
        rw [joinEvent_eq decimalDigit join (firstDone_ne_nil hpos hk), driver_joinEvent_eq join (firstDone_ne_nil hpos hk),
          (firstDone_spec hk).1, (firstDone_spec hk).2, hwaits] at hagrees
        exact Except.ok.inj hagrees
      have hevent : spawnJoinEvent join = Rust.Compose.spawnJoinEvent join := by
        have hall := hdecides n le_rfl
        rw [if_pos hbounds.2, if_pos hdriver.2] at hall
        exact Option.some.inj hall
      have hthreshold : t = driverWaitsFor join n := by
        rcases lt_trichotomy t (driverWaitsFor join n) with hlt | heq | hlt
        . rcases Int.eq_ofNat_of_zero_le (by omega : 0 ≤ t) with ⟨k, rfl⟩
          have hk := hdecides k (by omega)
          rw [if_pos le_rfl, if_neg (by omega)] at hk
          cases hk
        . exact heq
        . have hk := hdecides (driverWaitsFor join n) hdriver.2
          rw [if_neg (by omega), if_pos le_rfl] at hk
          cases hk
      refine ⟨hevent, by rw [hthreshold], fun hquorum => ?_⟩
      have hdeclared := @declaredThreshold_bounds decimalDigit join n hpos
      have hfires : ∀ k ≤ n, t ≤ (k : ℤ) ↔ declaredThreshold decimalDigit join n ≤ k := by
        intro k hk
        have hexact := h.exact (firstDone k n) (firstDone_spec hk).1 (firstDone_ne_nil hpos hk) hquorum
        rw [joinEvent_eq decimalDigit join (firstDone_ne_nil hpos hk), (firstDone_spec hk).1, (firstDone_spec hk).2,
          hwaits, hquorum] at hexact
        rw [← hexact]
        show _ ↔ Except.ok (if t ≤ (k : ℤ) then some JoinEvent.quorum else none) = Except.ok (some JoinEvent.quorum)
        split
        . next hle => simp only [hle]
        . next hle =>
          simp only [hle, false_iff]
          intro heq
          cases heq
      rcases Int.eq_ofNat_of_zero_le (by omega : 0 ≤ declaredThreshold decimalDigit join n) with ⟨k, hk⟩
      have hself := (hfires k (by omega)).mpr (le_of_eq hk)
      have hback := (hfires (driverWaitsFor join n) hdriver.2).mp (le_of_eq hthreshold)
      omega
  . rintro ⟨hevent, hwaits, hquorum⟩
    have hdecide : ∀ done : List Bool, done.length = n → joinEvent decimalDigit join done
        = .ok (if driverWaitsFor join n ≤ done.count true then some (spawnJoinEvent join) else none) := by
      intro done hlength
      have hne : done ≠ [] := List.ne_nil_of_length_pos (by omega)
      rw [joinEvent_eq decimalDigit join hne, hlength, hwaits]
      simp only [Except.map, Nat.cast_le]
    refine ⟨?_, ?_, ?_⟩
    . intro done hlength
      have hne : done ≠ [] := List.ne_nil_of_length_pos (by omega)
      rw [hdecide done hlength, driver_joinEvent_eq join hne, hlength, hevent]
    . intro done hlength _ hfamily
      rw [hdecide done hlength, hquorum hfamily, hfamily]
      split
      . next hle => simp only [Nat.cast_le, hle]
      . next hle =>
        simp only [Nat.cast_le, hle, iff_false]
        intro heq
        cases heq
    . intro done done' hlength hlength' hcount event hfires
      rw [hdecide done hlength] at hfires
      rw [hdecide done' hlength']
      split at hfires
      . next hle =>
        rw [if_pos (le_trans hle hcount)]
        exact hfires
      . cases hfires

/-- What the harness waits for at a quorum, by the number the policy spells. -/
theorem quorumThreshold_policyText (join : List Char) (n : ℕ)
    : quorumThreshold decimalDigit (policyText join) n
        = match declaredNumber? decimalDigit join with
          | none => .ok (n : ℤ)
          | some number => (threshold number.value n).map fun t => max 1 (min (n : ℤ) t) := by
  unfold quorumThreshold
  rw [declaredNumber?]
  cases spelled decimalDigit (stripChars (afterColon (policyText join))) with
  | none => rfl
  | some number =>
    simp only
    cases threshold number.value n with
    | error e => rfl
    | ok t => rfl

/-- A number that is infinite or no number as a float is raised on. -/
theorem threshold_not_finite {value : PyFloat} (h : ∀ x, value ≠ .finite x) (n : ℕ)
    : ∃ e, threshold value n = .error e := by
  cases value with
  | nan => exact ⟨_, rfl⟩
  | posInf => exact ⟨_, rfl⟩
  | negInf => exact ⟨_, rfl⟩
  | finite x => exact absurd rfl (h x)

theorem ofRat_of_round {q : ℚ} {x : Double} (h : Double.round q = some x)
    : PyFloat.ofRat q = .finite x := by
  rw [PyFloat.ofRat, h]

theorem ofRat_ne_finite {q : ℚ} (h : Double.round q = none) (x : Double)
    : PyFloat.ofRat q ≠ .finite x := by
  rw [PyFloat.ofRat, h]
  simp only
  split <;> exact fun heq => by cases heq

/-- A quorum is waited for alike, and for what it declares, exactly when it is legible. -/
theorem legible_iff {join : List Char} {n : ℕ} (hpos : 1 ≤ n) (hn : n < 2 ^ 63)
    : (quorumThreshold decimalDigit (policyText join) n = .ok (Rust.Compose.quorumThreshold join n : ℤ)
          ∧ declaredThreshold decimalDigit join n = Rust.Compose.quorumThreshold join n)
        ↔ Legible decimalDigit join n := by
  rw [quorumThreshold_policyText]
  unfold declaredThreshold Legible
  cases hdeclared : declaredNumber? decimalDigit join with
  | none =>
    -- What Python does not read, Rust does not read either.
    have hread : FloatGrammar.read (Rust.Compose.quorumText join) = none := by
      cases hread : FloatGrammar.read (Rust.Compose.quorumText join) with
      | none => rfl
      | some number =>
        rw [declaredNumber?, spelled_of_quorumText decimalDigit hread] at hdeclared
        cases hdeclared
    rw [Rust.Compose.quorumThreshold, hread]
    exact iff_of_true ⟨rfl, rfl⟩ trivial
  | some number =>
    have hraised : (∀ x, number.value ≠ .finite x)
        → ¬ (threshold number.value n).map (fun t => max 1 (min (n : ℤ) t))
            = .ok (Rust.Compose.quorumThreshold join n : ℤ) := by
      intro hvalue heq
      rcases threshold_not_finite hvalue n with ⟨e, he⟩
      rw [he] at heq
      cases heq
    cases number with
    | nan => exact iff_of_false (fun h => hraised (fun x hx => by cases hx) h.1) id
    | inf neg =>
      refine iff_of_false (fun h => hraised (fun x hx => ?_) h.1) id
      cases neg <;> cases hx
    | finite q =>
      simp only
      cases hround : Double.round q with
      | none =>
        refine iff_of_false (fun h => hraised (ofRat_ne_finite hround) h.1) ?_
        rintro ⟨x, hx, _⟩
        cases hx
      | some x =>
        have hvalue : (FloatGrammar.Spelled.finite q).value = .finite x := ofRat_of_round hround
        have hpython : (threshold (FloatGrammar.Spelled.finite q).value n).map (fun t => max 1 (min (n : ℤ) t))
            = .ok (max 1 (min (n : ℤ) ⌈roundedShare x n⌉)) := by
          rw [hvalue, threshold_finite x hn]
          rfl
        rw [hpython]
        have hrust : ∀ number, FloatGrammar.read (Rust.Compose.quorumText join) = some number
            → (Rust.Compose.quorumThreshold join n : ℤ) = max 1 (min (n : ℤ) ⌈roundedShare x n⌉) := by
          intro number hread
          have hsame := spelled_of_quorumText decimalDigit hread
          rw [← declaredNumber?, hdeclared] at hsame
          cases hsame
          rw [Rust.Compose.quorumThreshold, hread]
          simp only
          rw [hvalue]
          exact rust_threshold_finite x hn hpos
        constructor
        . rintro ⟨hwaits, hexact⟩
          have heq := Except.ok.inj hwaits
          refine ⟨x, rfl, (clamp_eq_iff hpos _ _).mp (hexact.trans heq.symm), fun hread => ?_⟩
          rw [Rust.Compose.quorumThreshold, hread] at hexact
          exact (clamp_eq_all_iff hpos _).mp hexact
        . rintro ⟨x', hx', hbetween, hall⟩
          cases hx'
          have hclamp := (clamp_eq_iff hpos _ _).mpr hbetween
          cases hread : FloatGrammar.read (Rust.Compose.quorumText join) with
          | none =>
            have heq : (Rust.Compose.quorumThreshold join n : ℤ) = n := by
              rw [Rust.Compose.quorumThreshold, hread]
            have hshare := (clamp_eq_all_iff hpos _).mpr (hall hread)
            rw [heq, ← hclamp, hshare]
            exact ⟨rfl, rfl⟩
          | some number =>
            rw [hrust number hread, hclamp]
            exact ⟨rfl, rfl⟩

end Decisions

theorem meansTheSame_zero (decimalDigit : Char → Option (Fin 10)) (join : List Char)
    : MeansTheSame decimalDigit join 0 := by
  refine ⟨?_, ?_, ?_⟩
  . intro done hlength
    rw [List.length_eq_zero_iff.mp hlength]
    rfl
  . intro done hlength hne
    exact absurd (List.length_eq_zero_iff.mp hlength) hne
  . intro done done' hlength hlength' _ event hfires
    rw [List.length_eq_zero_iff.mp hlength] at hfires
    cases hfires

/-- A join policy means the same in both runtimes, and what it declares, exactly when it is read alike or there are no
children. A list of Python is shorter than `2 ^ 63`. -/
theorem joinPolicy_meansTheSame_iff (decimalDigit : Char → Option (Fin 10)) (join : List Char) {childCount : ℕ}
    (hcount : childCount < 2 ^ 63)
    : MeansTheSame decimalDigit join childCount ↔ childCount = 0 ∨ ReadAlike decimalDigit join childCount := by
  rcases Nat.eq_zero_or_pos childCount with rfl | hpos
  . exact iff_of_true (meansTheSame_zero decimalDigit join) (.inl rfl)
  . have hzero : (childCount = 0 ∨ ReadAlike decimalDigit join childCount) ↔ ReadAlike decimalDigit join childCount :=
      or_iff_right (by omega)
    rw [hzero, meansTheSame_iff decimalDigit hpos, ReadAlike]
    refine and_congr_right fun hevent => ?_
    unfold waitsFor driverWaitsFor
    rw [← hevent]
    cases spawnJoinEvent join with
    | any => exact iff_of_true ⟨rfl, fun heq => by cases heq⟩ fun heq => by cases heq
    | quorum =>
      rw [← legible_iff decimalDigit hpos hcount]
      constructor
      . rintro ⟨hwaits, hexact⟩ _
        exact ⟨hwaits, hexact rfl⟩
      . intro h
        exact ⟨(h rfl).1, fun _ => (h rfl).2⟩
    | allDone => exact iff_of_true ⟨rfl, fun heq => by cases heq⟩ fun heq => by cases heq

/- Runs. -/

/-- Of the digits outside ASCII, those of the Arabic script. -/
def arabicDigit (c : Char) : Option (Fin 10) :=
  if 0x660 ≤ c.toNat ∧ c.toNat ≤ 0x669 then some (Fin.ofNat _ (c.toNat - 0x660)) else none

theorem threeFifths_meansTheSame_iff
    : MeansTheSame arabicDigit "quorum:0.6".toList 5 ↔ 5 = 0 ∨ ReadAlike arabicDigit "quorum:0.6".toList 5 :=
  joinPolicy_meansTheSame_iff arabicDigit "quorum:0.6".toList (by norm_num)

/-- An infinite quorum raises, where the driver waits for all. -/
theorem infiniteQuorum_raises
    : joinEvent arabicDigit "quorum:inf".toList [true] = .error .overflowError
        ∧ Rust.Compose.joinEvent "quorum:inf".toList [true] = some .quorum
        ∧ ¬ MeansTheSame arabicDigit "quorum:inf".toList 1 := by
  have hraises : joinEvent arabicDigit "quorum:inf".toList [true] = .error .overflowError := by
    with_unfolding_all rfl
  refine ⟨hraises, by with_unfolding_all rfl, fun h => ?_⟩
  have hagrees := h.agrees [true] rfl
  rw [hraises] at hagrees
  cases hagrees

end Composer
