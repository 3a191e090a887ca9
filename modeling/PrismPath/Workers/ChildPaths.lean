import PrismPath.Python.Repr
import PrismPath.Python.SortedReload

/-!
This module contains the checkpoint path of a fan-out's child: the id of an item, the stem it becomes, and when two items
of a fan-out that differ get the same path.
-/

open Python

namespace Composer

open Json

/- Texts and digests. -/

/-- A code point as a character; a surrogate is none. -/
def char? (c : CodePoint) : Option Char :=
  if c.val.isValidChar then some (Char.ofNat c.val) else none

/-- `s.encode()`; `none` is the `UnicodeEncodeError`. -/
def encode (s : Str) : Option (List UInt8) :=
  (s.mapM char?).map fun cs => (String.ofList cs).toUTF8.data.toList

section Model

variable (sha256 : List UInt8 → List UInt8) (printable : CodePoint → Bool)

/-- `hashlib.sha256(data).hexdigest()[:n]` -/
def digits (n : ℕ) (data : List UInt8) : Str :=
  (hex (sha256 data)).take n

/- Items. -/

/-- `item[field]` where `field and isinstance(item, dict) and field in item`. -/
def declared? (field : Option Str) : Obj → Option Obj
  | .dict kvs =>
    match field with
    | some [] | none => none
    | some field => kvs.lookup (.str field)
  | _ => none

/-- `isinstance(item, (str, int, float, bool))` -/
def isScalar : Obj → Bool
  | .str _ | .int _ | .float _ | .bool _ => true
  | _ => false

/-- `json.dumps(item, sort_keys=True, default=str).encode()`; `none` is the `TypeError`. -/
def blob (item : Obj) : Option (List UInt8) :=
  (dumpsSorted item).map fun cs => (String.ofList cs).toUTF8.data.toList

/-- The id of an item that is known by its content. -/
def contentId (data : List UInt8) : Str :=
  str "h" ++ digits sha256 16 data

/-- `item_id` -/
def itemId (field : Option Str) (item : Obj) : Except Error Str :=
  match declared? field item with
  | some v => .ok (v.print printable)
  | none =>
    if isScalar item then
      .ok (item.print printable)
    else
      match blob item with
      | some data => .ok (contentId sha256 data)
      | none => .error .typeError

/- Paths. -/

/-- The characters `A-Za-z0-9_.-`. -/
def isSafe (c : CodePoint) : Bool :=
  (65 ≤ c.val && c.val ≤ 90) || (97 ≤ c.val && c.val ≤ 122) || (48 ≤ c.val && c.val ≤ 57)
    || c.val = 95 || c.val = 46 || c.val = 45

/-- `safe_name` -/
def safeName (name : Str) : Str :=
  let safe := name.map fun c => if isSafe c then c else 95
  if safe = [] then str "flow" else safe

/-- `_stem` -/
def stem (iid : Str) : Except Error Str :=
  if safeName iid = iid then
    .ok (safeName iid)
  else
    match encode iid with
    | some data => .ok (safeName iid ++ str "-" ++ digits sha256 8 data)
    | none => .error .unicodeEncodeError

/-- `os.path.splitext(path)[0]` -/
def splitextRoot (path : Str) : Str :=
  let base := (path.reverse.takeWhile fun c => c ≠ 47).reverse
  let root := (base.reverse.dropWhile fun c => c ≠ 46).drop 1
  if root.any fun c => c ≠ 46 then
    path.take (path.length - base.length + root.length)
  else
    path

/-- `os.path.join(a, b)` -/
def pathJoin (a b : Str) : Str :=
  if b.head? = some 47 then b
  else if a = [] ∨ a.getLast? = some 47 then a ++ b
  else a ++ str "/" ++ b

/-- `_children_dir` -/
def childrenDir (parentCkptPath : Str) : Str :=
  splitextRoot parentCkptPath ++ str ".children"

/-- `_child_ckpt_path` -/
def childCkptPath (parentCkptPath iid : Str) : Except Error Str := do
  let stem ← stem sha256 iid
  return pathJoin (childrenDir parentCkptPath) (stem ++ str ".json")

/-- The path of the child of an item. -/
def childPath (parentCkptPath : Str) (field : Option Str) (item : Obj) : Except Error Str := do
  let iid ← itemId sha256 printable field item
  childCkptPath sha256 parentCkptPath iid

end Model

/- What is claimed of two items, and when it holds. -/

section Apart

variable (sha256 : List UInt8 → List UInt8) (printable : CodePoint → Bool)

/-- Two items are told apart by the declared field where both carry it, and as JSON values otherwise. -/
def Differ (field : Option Str) (x y : Obj) : Prop :=
  match declared? field x, declared? field y with
  | some v, some w => v.reread ≠ w.reread
  | _, _ => x.reread ≠ y.reread

/-- The text an item is known by, where it is not known by its content. -/
def givenText? (field : Option Str) (item : Obj) : Option Str :=
  match declared? field item with
  | some v => some (v.print printable)
  | none => if isScalar item then some (item.print printable) else none

/-- The one text is what stands in for the other, which has unsafe characters. -/
def SpellsStem (s t : Str) : Prop :=
  safeName t ≠ t ∧ ∃ data, encode t = some data ∧ s = safeName t ++ str "-" ++ digits sha256 8 data

/-- The texts are one, or one is what stands in for the other. -/
def Confused (s t : Str) : Prop :=
  (s = t ∧ (encode s).isSome = true) ∨ SpellsStem sha256 s t ∨ SpellsStem sha256 t s

/-- The given texts of two items are not confused, and no given text spells the id of an item known by its content. -/
def Clear (field : Option Str) (x y : Obj) : Prop :=
  match givenText? printable field x, givenText? printable field y with
  | some s, some t => ¬ Confused sha256 s t
  | some s, none => ∀ data, blob y = some data → s ≠ contentId sha256 data
  | none, some t => ∀ data, blob x = some data → t ≠ contentId sha256 data
  | none, none => True

/-- No two of the inputs have digests that begin with the same digits. -/
def CollisionFree (n : ℕ) (inputs : List (List UInt8)) : Prop :=
  ∀ a ∈ inputs, ∀ b ∈ inputs, digits sha256 n a = digits sha256 n b → a = b

/-- The bytes of an item's id. -/
def idBytes (field : Option Str) (item : Obj) : Option (List UInt8) :=
  (itemId sha256 printable field item).toOption.bind encode

end Apart

/- Encoding. -/

theorem toNat_of_char? {c : CodePoint} {e : Char} (h : char? c = some e)
    : e.toNat = c.val := by
  unfold char? at h
  split at h
  . next hvalid =>
    rw [← Option.some.inj h, Char.ofNat, dif_pos hvalid]
    rfl
  . cases h

theorem char?_injective {c d : CodePoint} {e : Char} (hc : char? c = some e) (hd : char? d = some e)
    : c = d :=
  Fin.ext (by rw [← toNat_of_char? hc, ← toNat_of_char? hd])

theorem toUTF8_injective {cs ds : List Char}
    (h : (String.ofList cs).toUTF8.data.toList = (String.ofList ds).toUTF8.data.toList)
    : cs = ds := by
  have hbytes : (String.ofList cs).toUTF8 = (String.ofList ds).toUTF8 := by
    apply ByteArray.ext
    exact Array.toList_inj.mp h
  exact String.ofList_injective (String.toByteArray_inj.mp hbytes)

theorem mapM_char?_injective {s t : Str} {cs : List Char} (hs : s.mapM char? = some cs) (ht : t.mapM char? = some cs)
    : s = t := by
  induction s generalizing t cs with
  | nil =>
    cases hs
    cases t with
    | nil => rfl
    | cons d t =>
      simp only [List.mapM_cons, Option.bind_eq_bind, Option.bind_eq_some_iff] at ht
      rcases ht with ⟨_, _, _, _, heq⟩
      cases heq
  | cons c s ih =>
    simp only [List.mapM_cons, Option.bind_eq_bind, Option.bind_eq_some_iff] at hs
    rcases hs with ⟨e, he, es, hes, heq⟩
    cases heq
    cases t with
    | nil => cases ht
    | cons d t =>
      simp only [List.mapM_cons, Option.bind_eq_bind, Option.bind_eq_some_iff] at ht
      rcases ht with ⟨e', he', es', hes', heq⟩
      cases heq
      rw [char?_injective he he', ih hes hes']

theorem encode_injective {s t : Str} {data : List UInt8} (hs : encode s = some data) (ht : encode t = some data)
    : s = t := by
  rcases Option.map_eq_some_iff.mp hs with ⟨cs, hcs, rfl⟩
  rcases Option.map_eq_some_iff.mp ht with ⟨ds, hds, heq⟩
  rw [toUTF8_injective heq] at hds
  exact mapM_char?_injective hcs hds

/- Safe names. -/

def Safe (s : Str) : Prop :=
  ∀ c ∈ s, isSafe c = true

instance (s : Str) : Decidable (Safe s) :=
  List.decidableBAll _ s

theorem safe_append {s t : Str} (hs : Safe s) (ht : Safe t)
    : Safe (s ++ t) := by
  intro c hc
  rcases List.mem_append.mp hc with hc | hc
  . exact hs c hc
  . exact ht c hc

theorem safe_safeName (name : Str)
    : Safe (safeName name) := by
  unfold safeName
  simp only
  split
  . decide
  . intro c hc
    rcases List.mem_map.mp hc with ⟨d, _, rfl⟩
    split
    . assumption
    . decide

theorem safeName_ne_nil (name : Str)
    : safeName name ≠ [] := by
  unfold safeName
  simp only
  split
  . decide
  . assumption

theorem safeName_of_safe {s : Str} (h : Safe s) (hne : s ≠ [])
    : safeName s = s := by
  have hmap : (s.map fun c => if isSafe c then c else 95) = s := by
    conv_rhs => rw [← List.map_id s]
    exact List.map_congr_left fun c hc => if_pos (h c hc)
  unfold safeName
  simp only [hmap]
  rw [if_neg hne]

theorem safe_of_safeName {s : Str} (h : safeName s = s)
    : Safe s := by
  rw [← h]
  exact safe_safeName s

theorem isSome_char?_of_isSafe {c : CodePoint} (h : isSafe c = true)
    : (char? c).isSome = true := by
  have hvalid : c.val.isValidChar := by
    simp only [isSafe, Bool.or_eq_true, Bool.and_eq_true, decide_eq_true_eq] at h
    simp only [Nat.isValidChar]
    omega
  rw [char?, if_pos hvalid, Option.isSome_some]

theorem isSome_encode_of_safe {s : Str} (h : Safe s)
    : (encode s).isSome = true := by
  rw [encode, Option.isSome_map]
  induction s with
  | nil => rfl
  | cons c s ih =>
    rcases Option.isSome_iff_exists.mp (isSome_char?_of_isSafe (h c List.mem_cons_self)) with ⟨e, he⟩
    rcases Option.isSome_iff_exists.mp (ih fun d hd => h d (List.mem_cons_of_mem _ hd)) with ⟨es, hes⟩
    rw [List.mapM_cons, he, hes]
    rfl

/- Digits of a digest. -/

section Digits

variable {sha256 : List UInt8 → List UInt8}

theorem length_hex (data : List UInt8)
    : (hex data).length = 2 * data.length := by
  rw [hex, ofText, List.length_map, List.length_flatMap]
  induction data with
  | nil => rfl
  | cons b data ih =>
    rw [List.map_cons, List.sum_cons, ih, List.length_cons]
    simp only [List.length_cons, List.length_nil]
    omega

theorem length_digits (hlength : ∀ data, (sha256 data).length = 32) {n : ℕ} (hn : n ≤ 64) (data : List UInt8)
    : (digits sha256 n data).length = n := by
  rw [digits, List.length_take, length_hex, hlength]
  omega

theorem safe_of_mem_digits {n : ℕ} {data : List UInt8} {c : CodePoint} (h : c ∈ digits sha256 n data)
    : isSafe c = true ∧ c ≠ 45 := by
  have hdigit : ∀ k < 16, isSafe (Fin.ofNat 0x110000 (Nat.digitChar k).toNat) = true
      ∧ Fin.ofNat 0x110000 (Nat.digitChar k).toNat ≠ 45 := by decide
  have hmem := List.mem_of_mem_take h
  rw [hex, ofText, List.mem_map] at hmem
  rcases hmem with ⟨d, hd, rfl⟩
  rcases List.mem_flatMap.mp hd with ⟨b, _, hb⟩
  have hlt : b.toNat < 256 := b.toNat_lt
  rcases List.mem_pair.mp hb with rfl | rfl
  . exact hdigit _ (by omega)
  . exact hdigit _ (by omega)

theorem safe_digits (n : ℕ) (data : List UInt8)
    : Safe (digits sha256 n data) :=
  fun _ hc => (safe_of_mem_digits hc).1

theorem safe_standIn (t : Str) (data : List UInt8)
    : Safe (safeName t ++ str "-" ++ digits sha256 8 data) :=
  safe_append (safe_append (safe_safeName t) (by decide)) (safe_digits 8 data)

theorem safeName_contentId (data : List UInt8)
    : safeName (contentId sha256 data) = contentId sha256 data := by
  apply safeName_of_safe
  . exact safe_append (by decide) (safe_digits 16 data)
  . exact List.cons_ne_nil _ _

theorem contentId_ne_standIn (data data' : List UInt8) (t : Str)
    : contentId sha256 data ≠ safeName t ++ str "-" ++ digits sha256 8 data' := by
  intro heq
  have hdash : (45 : CodePoint) ∈ contentId sha256 data := by
    rw [heq]
    exact List.mem_append_left _ (List.mem_append_right _ (by decide))
  rcases List.mem_append.mp hdash with hmem | hmem
  . revert hmem
    decide
  . exact (safe_of_mem_digits hmem).2 rfl

end Digits

/- Stems. -/

section Stems

variable {sha256 : List UInt8 → List UInt8}

theorem stem_of_safeName {s : Str} (h : safeName s = s)
    : stem sha256 s = .ok s := by
  rw [stem, if_pos h, h]

theorem stem_eq_ok_iff {s p : Str} (h : safeName s ≠ s)
    : stem sha256 s = .ok p ↔ ∃ data, encode s = some data ∧ p = safeName s ++ str "-" ++ digits sha256 8 data := by
  rw [stem, if_neg h]
  cases hencode : encode s with
  | none =>
    constructor
    . intro heq
      cases heq
    . rintro ⟨_, hdata, _⟩
      cases hdata
  | some data =>
    constructor
    . intro heq
      cases heq
      exact ⟨data, rfl, rfl⟩
    . rintro ⟨_, hdata, rfl⟩
      cases hdata
      rfl

/-- A safe text and one with unsafe characters have one stem when the safe one spells what stands in for the other. -/
theorem stem_eq_iff_spells {s t : Str} (hs : safeName s = s) (ht : safeName t ≠ t)
    : (∃ p, stem sha256 s = .ok p ∧ stem sha256 t = .ok p) ↔ SpellsStem sha256 s t := by
  rw [stem_of_safeName hs]
  constructor
  . rintro ⟨p, hp, hstem⟩
    cases hp
    exact ⟨ht, (stem_eq_ok_iff ht).mp hstem⟩
  . rintro ⟨_, hdata⟩
    exact ⟨s, rfl, (stem_eq_ok_iff ht).mpr hdata⟩

theorem not_spellsStem {s t : Str} (hs : safeName s ≠ s)
    : ¬ SpellsStem sha256 s t := by
  rintro ⟨_, data, _, rfl⟩
  apply hs
  apply safeName_of_safe
  . exact safe_standIn t data
  . exact fun hnil => safeName_ne_nil t (List.append_eq_nil_iff.mp (List.append_eq_nil_iff.mp hnil).1).1

/-- Two texts have one stem exactly when they are confused. -/
theorem stem_eq_iff (hlength : ∀ data, (sha256 data).length = 32) {s t : Str}
    (hfree : ∀ a b, encode s = some a → encode t = some b → digits sha256 8 a = digits sha256 8 b → a = b)
    : (∃ p, stem sha256 s = .ok p ∧ stem sha256 t = .ok p) ↔ Confused sha256 s t := by
  by_cases hs : safeName s = s
  . by_cases ht : safeName t = t
    . -- Both are their own stems.
      rw [stem_of_safeName hs, stem_of_safeName ht]
      constructor
      . rintro ⟨p, hps, hpt⟩
        cases hps
        cases hpt
        exact .inl ⟨rfl, isSome_encode_of_safe (safe_of_safeName hs)⟩
      . rintro (⟨rfl, _⟩ | ⟨hne, _⟩ | ⟨hne, _⟩)
        . exact ⟨s, rfl, rfl⟩
        . exact absurd ht hne
        . exact absurd hs hne
    . rw [stem_eq_iff_spells hs ht]
      constructor
      . exact fun h => .inr (.inl h)
      . rintro (⟨rfl, _⟩ | h | h)
        . exact absurd hs ht
        . exact h
        . exact absurd h (not_spellsStem ht)
  . by_cases ht : safeName t = t
    . have hswap : (∃ p, stem sha256 s = .ok p ∧ stem sha256 t = .ok p)
          ↔ ∃ p, stem sha256 t = .ok p ∧ stem sha256 s = .ok p :=
        exists_congr fun p => and_comm
      rw [hswap, stem_eq_iff_spells ht hs]
      constructor
      . exact fun h => .inr (.inr h)
      . rintro (⟨rfl, _⟩ | h | h)
        . exact absurd ht hs
        . exact absurd h (not_spellsStem hs)
        . exact h
    . -- Both are stood in for, by names that end in eight digits of what they encode to.
      constructor
      . rintro ⟨p, hps, hpt⟩
        rcases (stem_eq_ok_iff hs).mp hps with ⟨a, ha, rfl⟩
        rcases (stem_eq_ok_iff ht).mp hpt with ⟨b, hb, heq⟩
        have hsuffix : digits sha256 8 a = digits sha256 8 b := by
          refine (List.append_inj' heq ?_).2
          rw [length_digits hlength (by omega), length_digits hlength (by omega)]
        have hdata := hfree a b ha hb hsuffix
        rw [← hdata] at hb
        exact .inl ⟨encode_injective ha hb, by rw [ha, Option.isSome_some]⟩
      . rintro (⟨rfl, hencode⟩ | h | h)
        . rcases Option.isSome_iff_exists.mp hencode with ⟨data, hdata⟩
          have hstem : stem sha256 s = .ok _ := (stem_eq_ok_iff hs).mpr ⟨data, hdata, rfl⟩
          exact ⟨_, hstem, hstem⟩
        . exact absurd h (not_spellsStem hs)
        . exact absurd h (not_spellsStem ht)

/-- The stem of a text is the id of a content only when the text is that id. -/
theorem stem_eq_contentId_iff {s : Str} {data : List UInt8}
    : (∃ p, stem sha256 s = .ok p ∧ stem sha256 (contentId sha256 data) = .ok p) ↔ s = contentId sha256 data := by
  rw [stem_of_safeName (safeName_contentId data)]
  constructor
  . rintro ⟨p, hs, hp⟩
    cases hp
    by_cases hsafe : safeName s = s
    . rw [stem_of_safeName hsafe] at hs
      exact Except.ok.inj hs
    . rcases (stem_eq_ok_iff hsafe).mp hs with ⟨data', _, heq⟩
      exact absurd heq (contentId_ne_standIn data data' s)
  . rintro rfl
    exact ⟨_, stem_of_safeName (safeName_contentId data), rfl⟩

end Stems

/- Paths. -/

section Paths

variable {sha256 : List UInt8 → List UInt8} {printable : CodePoint → Bool} {field : Option Str}

theorem safe_of_stem {s p : Str} (h : stem sha256 s = .ok p)
    : Safe p := by
  by_cases hs : safeName s = s
  . rw [stem_of_safeName hs] at h
    cases h
    exact safe_of_safeName hs
  . rcases (stem_eq_ok_iff hs).mp h with ⟨data, _, rfl⟩
    exact safe_standIn s data

theorem pathJoin_of_safe (dir : Str) {b : Str} (h : Safe b)
    : ∃ sep, pathJoin dir b = dir ++ sep ++ b
        ∧ ∀ b', Safe b' → pathJoin dir b' = dir ++ sep ++ b' := by
  have hhead : ∀ b, Safe b → ¬ b.head? = some 47 := by
    intro b hb hslash
    have := hb 47 (List.mem_of_mem_head? hslash)
    revert this
    decide
  by_cases hdir : dir = [] ∨ dir.getLast? = some 47
  . have hjoin : ∀ b, Safe b → pathJoin dir b = dir ++ [] ++ b := by
      intro b hb
      rw [pathJoin, if_neg (hhead b hb), if_pos hdir, List.append_nil]
    exact ⟨[], hjoin b h, hjoin⟩
  . have hjoin : ∀ b, Safe b → pathJoin dir b = dir ++ str "/" ++ b := by
      intro b hb
      rw [pathJoin, if_neg (hhead b hb), if_neg hdir]
    exact ⟨str "/", hjoin b h, hjoin⟩

theorem childCkptPath_eq_iff (parent s t : Str)
    : (∃ q, childCkptPath sha256 parent s = .ok q ∧ childCkptPath sha256 parent t = .ok q)
        ↔ ∃ p, stem sha256 s = .ok p ∧ stem sha256 t = .ok p := by
  have hpath : ∀ s q, childCkptPath sha256 parent s = .ok q
      ↔ ∃ p, stem sha256 s = .ok p ∧ pathJoin (childrenDir parent) (p ++ str ".json") = q := by
    intro s q
    rw [childCkptPath]
    cases hstem : stem sha256 s with
    | error e =>
      constructor
      . intro h
        cases h
      . rintro ⟨p, hp, _⟩
        cases hp
    | ok p =>
      constructor
      . intro h
        cases h
        exact ⟨p, rfl, rfl⟩
      . rintro ⟨p', hp, rfl⟩
        cases hp
        rfl
  constructor
  . rintro ⟨q, hs, ht⟩
    rcases (hpath s q).mp hs with ⟨p, hp, hq⟩
    rcases (hpath t q).mp ht with ⟨p', hp', hq'⟩
    have hsafe := safe_append (safe_of_stem hp) (t := str ".json") (by decide)
    have hsafe' := safe_append (safe_of_stem hp') (t := str ".json") (by decide)
    rcases pathJoin_of_safe (childrenDir parent) hsafe with ⟨sep, hjoin, hall⟩
    rw [hjoin, ← hq', hall _ hsafe'] at hq
    have hstems : p = p' := List.append_cancel_right (List.append_cancel_left hq)
    exact ⟨p, hp, hstems ▸ hp'⟩
  . rintro ⟨p, hs, ht⟩
    exact ⟨_, (hpath s _).mpr ⟨p, hs, rfl⟩, (hpath t _).mpr ⟨p, ht, rfl⟩⟩

/-- The id of an item is the text it gives, or tells its content. -/
theorem itemId_eq (field : Option Str) (item : Obj)
    : itemId sha256 printable field item
        = match givenText? printable field item with
          | some s => .ok s
          | none =>
            match blob item with
            | some data => .ok (contentId sha256 data)
            | none => .error .typeError := by
  rw [itemId, givenText?]
  cases declared? field item with
  | some v => rfl
  | none =>
    cases isScalar item with
    | true => rfl
    | false => rfl

theorem declared?_of_givenText? {item : Obj} (h : givenText? printable field item = none)
    : declared? field item = none := by
  rw [givenText?] at h
  cases hdeclared : declared? field item with
  | none => rfl
  | some v =>
    rw [hdeclared] at h
    cases h

theorem reread_eq_of_blob {x y : Obj} {data : List UInt8} (hx : blob x = some data) (hy : blob y = some data)
    : x.reread = y.reread := by
  rcases Option.map_eq_some_iff.mp hx with ⟨cs, hcs, rfl⟩
  rcases Option.map_eq_some_iff.mp hy with ⟨ds, hds, heq⟩
  rw [toUTF8_injective heq] at hds
  have hread := Obj.loads_dumpsSorted hcs
  rw [Obj.loads_dumpsSorted hds] at hread
  exact (Option.some.inj hread).symm

/-- The paths of two items are one exactly when their ids are found and have one stem. -/
theorem childPath_eq_iff (parent : Str) (x y : Obj)
    : (∃ q, childPath sha256 printable parent field x = .ok q ∧ childPath sha256 printable parent field y = .ok q)
        ↔ ∃ s t, itemId sha256 printable field x = .ok s ∧ itemId sha256 printable field y = .ok t
            ∧ ∃ p, stem sha256 s = .ok p ∧ stem sha256 t = .ok p := by
  rw [childPath, childPath]
  cases hx : itemId sha256 printable field x with
  | error e =>
    constructor
    . rintro ⟨q, hq, _⟩
      cases hq
    . rintro ⟨s, t, hs, _⟩
      cases hs
  | ok s =>
    cases hy : itemId sha256 printable field y with
    | error e =>
      constructor
      . rintro ⟨q, _, hq⟩
        cases hq
      . rintro ⟨s, t, _, ht, _⟩
        cases ht
    | ok t =>
      have hpaths := @childCkptPath_eq_iff sha256 parent s t
      constructor
      . intro h
        exact ⟨s, t, rfl, rfl, hpaths.mp h⟩
      . rintro ⟨s', t', hs, ht, h⟩
        cases hs
        cases ht
        exact hpaths.mpr h

/-- Two items the fan-out tells apart have one path exactly when they are not clear of each other. -/
theorem childPath_eq_iff_not_clear (hlength : ∀ data, (sha256 data).length = 32) (parent : Str) {x y : Obj}
    (hdiffer : Differ field x y)
    (hcontents : ∀ a b, blob x = some a → blob y = some b → digits sha256 16 a = digits sha256 16 b → a = b)
    (hids : ∀ a b, idBytes sha256 printable field x = some a → idBytes sha256 printable field y = some b
      → digits sha256 8 a = digits sha256 8 b → a = b)
    : (∃ q, childPath sha256 printable parent field x = .ok q ∧ childPath sha256 printable parent field y = .ok q)
        ↔ ¬ Clear sha256 printable field x y := by
  rw [childPath_eq_iff]
  unfold idBytes at hids
  rw [Clear]
  rw [itemId_eq, itemId_eq] at hids ⊢
  cases hx : givenText? printable field x with
  | some s =>
    rw [hx] at hids
    cases hy : givenText? printable field y with
    | some t =>
      rw [hy] at hids
      have hstems := stem_eq_iff hlength (s := s) (t := t) hids
      rw [not_not, ← hstems]
      constructor
      . rintro ⟨s', t', hs, ht, h⟩
        cases hs
        cases ht
        exact h
      . intro h
        exact ⟨s, t, rfl, rfl, h⟩
    | none =>
      cases hblob : blob y with
      | none =>
        constructor
        . rintro ⟨_, _, _, ht, _⟩
          cases ht
        . intro h
          exact absurd (fun _ hdata => by cases hdata) h
      | some data =>
        have hstems := @stem_eq_contentId_iff sha256 s data
        constructor
        . rintro ⟨s', t', hs, ht, h⟩ hclear
          cases hs
          cases ht
          exact hclear data rfl (hstems.mp h)
        . intro h
          refine ⟨s, _, rfl, rfl, hstems.mpr ?_⟩
          by_contra hne
          refine h fun data' hdata => ?_
          cases hdata
          exact hne
  | none =>
    cases hy : givenText? printable field y with
    | some t =>
      cases hblob : blob x with
      | none =>
        constructor
        . rintro ⟨_, _, hs, _⟩
          cases hs
        . intro h
          exact absurd (fun _ hdata => by cases hdata) h
      | some data =>
        have hstems := @stem_eq_contentId_iff sha256 t data
        constructor
        . rintro ⟨s', t', hs, ht, p, hps, hpt⟩ hclear
          cases hs
          cases ht
          exact hclear data rfl (hstems.mp ⟨p, hpt, hps⟩)
        . intro h
          have heq : t = contentId sha256 data := by
            by_contra hne
            refine h fun data' hdata => ?_
            cases hdata
            exact hne
          rcases hstems.mpr heq with ⟨p, hpt, hps⟩
          exact ⟨_, t, rfl, rfl, p, hps, hpt⟩
    | none =>
      -- Both are known by their contents, which differ as the items do.
      have hcontent : x.reread ≠ y.reread := by
        rw [Differ, declared?_of_givenText? hx, declared?_of_givenText? hy] at hdiffer
        exact hdiffer
      refine iff_of_false ?_ (not_not_intro trivial)
      rintro ⟨s, t, hs, ht, p, hps, hpt⟩
      cases hblobx : blob x with
      | none =>
        simp only [hblobx] at hs
        cases hs
      | some a =>
        cases hbloby : blob y with
        | none =>
          simp only [hbloby] at ht
          cases ht
        | some b =>
          simp only [hblobx] at hs
          simp only [hbloby] at ht
          cases hs
          cases ht
          have heq := stem_eq_contentId_iff.mp ⟨p, hps, hpt⟩
          have hdigits : digits sha256 16 a = digits sha256 16 b := List.append_cancel_left heq
          have hdata := hcontents a b hblobx hbloby hdigits
          rw [← hdata] at hbloby
          exact hcontent (reread_eq_of_blob hblobx hbloby)

end Paths

/-- The items of a fan-out that differ have different paths exactly when any two that differ are clear of each other. -/
theorem childPaths_apart_iff {sha256 : List UInt8 → List UInt8} (hlength : ∀ data, (sha256 data).length = 32)
    (printable : CodePoint → Bool) (parentCkptPath : Str) (field : Option Str) (items : List Obj)
    (hcontents : CollisionFree sha256 16 (items.filterMap blob))
    (hids : CollisionFree sha256 8 (items.filterMap (idBytes sha256 printable field)))
    : (∀ x ∈ items, ∀ y ∈ items, Differ field x y → ∀ p, childPath sha256 printable parentCkptPath field x = .ok p
        → childPath sha256 printable parentCkptPath field y ≠ .ok p)
        ↔ ∀ x ∈ items, ∀ y ∈ items, Differ field x y → Clear sha256 printable field x y := by
  refine forall₂_congr fun x hx => forall₂_congr fun y hy => imp_congr_right fun hdiffer => ?_
  have hpair := @childPath_eq_iff_not_clear sha256 printable field hlength parentCkptPath x y hdiffer
    (fun a b ha hb => hcontents a (List.mem_filterMap.mpr ⟨x, hx, ha⟩) b (List.mem_filterMap.mpr ⟨y, hy, hb⟩))
    (fun a b ha hb => hids a (List.mem_filterMap.mpr ⟨x, hx, ha⟩) b (List.mem_filterMap.mpr ⟨y, hy, hb⟩))
  rw [← not_iff_not, ← hpair]
  simp only [not_forall, not_not, exists_prop]

/- Runs. -/

/-- The bytes of a digest given as one number. -/
def digestBytes (n : ℕ) : List UInt8 :=
  (List.range 32).reverse.map fun i => UInt8.ofNat (n / 256 ^ i)

def utf8 (text : String) : List UInt8 :=
  text.toUTF8.data.toList

/-- SHA-256 of the texts the examples hash. -/
def knownDigests : List (List UInt8 × ℕ) :=
  [(utf8 "a/b", 0xc14cddc033f64b9dea80ea675cf280a015e672516090a5626781153dc68fea11),
    (utf8 "\"a/b\"", 0xf5effa31772a3689cb116700c569f4b72d765290968f099016a899ab6c1e4ee3),
    (utf8 "a_b-c14cddc0", 0x10ed7bd6600057d22831b23ed87456cc4d4da495676f88cb126e9d9598c56e96),
    (utf8 "\"a_b-c14cddc0\"", 0x477e1d9a99292e7131da4a2e8e594d198a1a1d5228a9f51348eaa3e932ab4e77),
    (utf8 "\x7b\"k\": 1\x7d", 0x4514a0c66d60ecfeb7170caceddfb3d012a7ede1afea4863ba8bcc490ccf63b8),
    (utf8 "h4514a0c66d60ecfe", 0x231207ac709e1fec2ade9dc2bff245f5e3519e2418fa55fb95f9e38a0d36cfb8)]

def knownSha256 (data : List UInt8) : List UInt8 :=
  digestBytes ((knownDigests.lookup data).getD 0)

theorem length_knownSha256 (data : List UInt8)
    : (knownSha256 data).length = 32 := by
  rw [knownSha256, digestBytes, List.length_map, List.length_reverse, List.length_range]

instance (sha256 : List UInt8 → List UInt8) (n : ℕ) (inputs : List (List UInt8))
    : Decidable (CollisionFree sha256 n inputs) :=
  inferInstanceAs (Decidable (∀ a ∈ inputs, ∀ b ∈ inputs, digits sha256 n a = digits sha256 n b → a = b))

def slashItem : Obj := .str (str "a/b")

def recordItem : Obj := record [("k", .int 1)]

theorem slashAndRecord_apart
    : (∀ x ∈ [slashItem, recordItem], ∀ y ∈ [slashItem, recordItem], Differ none x y
        → ∀ p, childPath knownSha256 (fun _ => true) (str "q/run.json") none x = .ok p
        → childPath knownSha256 (fun _ => true) (str "q/run.json") none y ≠ .ok p)
        ↔ ∀ x ∈ [slashItem, recordItem], ∀ y ∈ [slashItem, recordItem], Differ none x y
            → Clear knownSha256 (fun _ => true) none x y :=
  childPaths_apart_iff length_knownSha256 (fun _ => true) (str "q/run.json") none [slashItem, recordItem]
    (by decide +kernel) (by decide +kernel)

/-- The text that spells what stands in for `a/b`. -/
def lookalikeItem : Obj := .str (str "a_b-c14cddc0")

/-- A text and one that spells its derived name share a child, though no digests begin alike. -/
theorem lookalike_shares_child
    : CollisionFree knownSha256 16 ([slashItem, lookalikeItem].filterMap blob)
        ∧ CollisionFree knownSha256 8 ([slashItem, lookalikeItem].filterMap (idBytes knownSha256 (fun _ => true) none))
        ∧ Differ none slashItem lookalikeItem
        ∧ childPath knownSha256 (fun _ => true) (str "q/run.json") none slashItem
            = .ok (str "q/run.children/a_b-c14cddc0.json")
        ∧ childPath knownSha256 (fun _ => true) (str "q/run.json") none lookalikeItem
            = .ok (str "q/run.children/a_b-c14cddc0.json") := by
  have hdiffer : Differ none slashItem lookalikeItem := by
    intro heq
    have htexts : str "a/b" = str "a_b-c14cddc0" := Obj.str.inj heq
    revert htexts
    decide
  exact ⟨by decide +kernel, by decide +kernel, hdiffer, by with_unfolding_all rfl, by with_unfolding_all rfl⟩

end Composer
