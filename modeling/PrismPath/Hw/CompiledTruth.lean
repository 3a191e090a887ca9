import PrismPath.Hw.AtomWords
import PrismPath.Hw.CompileCondition
import PrismPath.Hw.EvaluatorLemmas
import PrismPath.Kernel.LevelMMeaning
import PrismPath.Kernel.StuckCheck
import PrismPath.Python.ValueLemmas

/-!
This module contains what the program of a condition leaves on the stack: what the condition evaluates to in the context
that the registers show.
-/

open Python TableFormat

namespace PptCompile

open Evaluator (Reg Tables evalWord)

/- A scalar under a pool of strings. -/

/-- What a scalar is encoded as, once its string is in the pool. -/
def encodeIn (pool : List String) : Value → Option (Nat × ℤ)
  | .none => some (tyNone, 0)
  | .bool b => some (tyBool, if b then 1 else 0)
  | .int n => some (tyInt, n)
  | .str s => if s ∈ pool then some (tyStr, pool.idxOf s) else none
  | _ => none

theorem idxOf_of_grown {α : Type} [DecidableEq α] {pool pool' : List α} (h : pool <+: pool') {a : α} (ha : a ∈ pool)
    : pool'.idxOf a = pool.idxOf a := by
  rcases h with ⟨rest, rfl⟩
  exact List.idxOf_append_of_mem ha

theorem encodeIn_mono {pool pool' : List String} (h : pool <+: pool') {v : Value} {r : Nat × ℤ}
    (hr : encodeIn pool v = some r)
    : encodeIn pool' v = some r := by
  cases v with
  | str s =>
    rw [encodeIn] at hr
    split at hr
    next hs =>
      rw [encodeIn, if_pos (h.subset hs), idxOf_of_grown h hs]
      exact hr
    next => cases hr
  | _ => exact hr

theorem getElem?_of_grown {α : Type} {pool pool' : List α} (h : pool <+: pool') {i : Nat} {a : α}
    (ha : pool[i]? = some a)
    : pool'[i]? = some a := by
  rcases h with ⟨rest, rfl⟩
  rw [List.getElem?_append_left (List.getElem?_eq_some_iff.mp ha).1]
  exact ha

/-- What is pooled is at its place, and everything else is where it was. -/
theorem pooled_spec {α : Type} [DecidableEq α] (pool : List α) (a : α)
    : pool <+: (pooled pool a).2 ∧ (pooled pool a).2[(pooled pool a).1]? = some a := by
  rw [pooled]
  split
  next hmem =>
    have hmem : a ∈ pool := by simpa using hmem
    exact ⟨List.prefix_rfl, List.getElem?_idxOf hmem⟩
  next => exact ⟨List.prefix_append _ _, by simp⟩

theorem nodup_pooled {α : Type} [DecidableEq α] {pool : List α} (a : α) (h : pool.Nodup)
    : (pooled pool a).2.Nodup := by
  rw [pooled]
  split
  next => exact h
  next hmem =>
    have hmem : a ∉ pool := by simpa using hmem
    rw [← List.concat_eq_append]
    exact h.concat hmem

theorem pooled_idxOf {α : Type} [DecidableEq α] (pool : List α) (a : α)
    : a ∈ (pooled pool a).2 ∧ (pooled pool a).2.idxOf a = (pooled pool a).1 := by
  rw [pooled]
  split
  next hmem =>
    have hmem : a ∈ pool := by simpa using hmem
    exact ⟨hmem, rfl⟩
  next hmem =>
    have hmem : a ∉ pool := by simpa using hmem
    refine ⟨by simp, ?_⟩
    dsimp only
    rw [List.idxOf_append_of_notMem hmem]
    simp

/- What a step of the compiler leaves in place. -/

/-- Each table of the second image goes on from that of the first. -/
structure Grows (img img' : TableImage) : Prop where
  fields : img.fields <+: img'.fields
  intern : img.intern <+: img'.intern
  atoms : img.atoms <+: img'.atoms
  nodup : img.fields.Nodup → img'.fields.Nodup

theorem Grows.refl (img : TableImage)
    : Grows img img :=
  ⟨List.prefix_rfl, List.prefix_rfl, List.prefix_rfl, id⟩

theorem Grows.trans {img img' img'' : TableImage} (h : Grows img img') (h' : Grows img' img'')
    : Grows img img'' :=
  ⟨h.fields.trans h'.fields, h.intern.trans h'.intern, h.atoms.trans h'.atoms, h'.nodup ∘ h.nodup⟩

theorem field_spec {name : String} {img img' : TableImage} {index : Nat} (h : field name img = .ok (index, img'))
    : Grows img img' ∧ img'.fields[index]? = some name := by
  have hfield : field name img = .ok ((pooled img.fields name).1, { img with fields := (pooled img.fields name).2 }) := rfl
  rw [hfield] at h
  cases h
  rcases pooled_spec img.fields name with ⟨hgrown, hget⟩
  exact ⟨⟨hgrown, List.prefix_rfl, List.prefix_rfl, nodup_pooled name⟩, hget⟩

theorem atom_spec {field op ty : Nat} {val : ℤ} {img img' : TableImage} {index : Nat}
    (h : atom field op ty val img = .ok (index, img'))
    : Grows img img' ∧ img'.atoms[index]? = some ⟨field, op, ty, val⟩ := by
  have hatom : atom field op ty val img = .ok ((pooled img.atoms ⟨field, op, ty, val⟩).1,
      { img with atoms := (pooled img.atoms ⟨field, op, ty, val⟩).2 }) := rfl
  rw [hatom] at h
  cases h
  rcases pooled_spec img.atoms (⟨field, op, ty, val⟩ : Atom) with ⟨hgrown, hget⟩
  exact ⟨⟨List.prefix_rfl, List.prefix_rfl, hgrown, id⟩, hget⟩

/-- A scalar is encoded under the strings of the image, which take its string in. -/
theorem encodeScalar_spec {v : Value} {img img' : TableImage} {r : Nat × ℤ} (h : encodeScalar v img = .ok (r, img'))
    : Grows img img' ∧ img'.fields = img.fields ∧ encodeIn img'.intern v = some r := by
  cases v with
  | none | bool =>
    cases h
    exact ⟨Grows.refl img, rfl, rfl⟩
  | int n =>
    rw [encodeScalar] at h
    split at h
    next =>
      cases h
      exact ⟨Grows.refl img, rfl, rfl⟩
    next => cases h
  | str s =>
    have hstr : encodeScalar (.str s) img
        = .ok ((tyStr, ((pooled img.intern s).1 : ℤ)), { img with intern := (pooled img.intern s).2 }) := rfl
    rw [hstr] at h
    cases h
    rcases pooled_idxOf img.intern s with ⟨hmem, hidx⟩
    refine ⟨⟨List.prefix_rfl, (pooled_spec img.intern s).1, List.prefix_rfl, id⟩, rfl, ?_⟩
    rw [encodeIn, if_pos hmem, hidx]
  | _ => cases h

/- An atom against its register. -/

theorem strEq_iff {pool : List String} {s t : String} (hs : s ∈ pool)
    : ((pool.idxOf s : ℤ) = pool.idxOf t) ↔ s = t := by
  rw [Int.ofNat_inj]
  exact List.idxOf_inj hs

/-- The three kinds of encoded scalars. -/
inductive Encoded (pool : List String) : Value → Nat × ℤ → Prop
  | none : Encoded pool .none (tyNone, 0)
  | number {v : Value} {n : ℤ} {ty : Nat} (hnum : v.num? = some (.finite n)) (hty : ty = tyBool ∨ ty = tyInt)
      : Encoded pool v (ty, n)
  | str {s : String} (hs : s ∈ pool) : Encoded pool (.str s) (tyStr, pool.idxOf s)

theorem encoded_of_encodeIn {pool : List String} {v : Value} {r : Nat × ℤ} (h : encodeIn pool v = some r)
    : Encoded pool v r := by
  cases v with
  | none =>
    cases h
    exact .none
  | bool b =>
    cases h
    exact .number (by cases b <;> rfl) (.inl rfl)
  | int n =>
    cases h
    exact .number rfl (.inr rfl)
  | str s =>
    rw [encodeIn] at h
    split at h
    next hs =>
      cases h
      exact .str hs
    next => cases h
  | _ => cases h

theorem isNumeric_ty {ty : Nat} (h : ty = tyBool ∨ ty = tyInt)
    : Evaluator.isNumeric ty = true := by
  rcases h with rfl | rfl <;> rfl

theorem eq_none_of_num? {v : Value} {x : Number} (h : v.num? = some x)
    : Value.eq .none v = false := by
  cases v <;> simp_all [Value.eq, Value.scalarEq, Value.complex?, Value.num?]

theorem eq_str_of_num? {v : Value} {x : Number} (h : v.num? = some x) (s : String)
    : Value.eq (.str s) v = false := by
  cases v <;> simp_all [Value.eq, Value.scalarEq, Value.complex?, Value.num?]

theorem same_eq {pool : List String} {v c : Value} {r k : Nat × ℤ} (hv : Encoded pool v r) (hc : Encoded pool c k)
    (field op : Nat)
    : Evaluator.same ⟨field, op, k.1, k.2⟩ ⟨r.1, r.2⟩ = v.eq c := by
  rw [Evaluator.same]
  cases hv with
  | none =>
    cases hc with
    | none => rfl
    | number hnum hty =>
      rw [eq_none_of_num? hnum]
      rcases hty with rfl | rfl <;> rfl
    | str => rfl
  | @number v n ty hnum hty =>
    dsimp only
    rw [isNumeric_ty hty]
    cases hc with
    | none =>
      rw [Value.eq_of_num?_of_complex? hnum rfl]
      rcases hty with rfl | rfl <;> rfl
    | @number c m ty' hnum' hty' =>
      dsimp only
      rw [isNumeric_ty hty', Bool.and_self, if_pos rfl, Value.eq_of_num? hnum hnum', Number.eq, decide_eq_decide,
        Int.cast_inj]
    | str =>
      rw [Value.eq_of_num?_of_complex? hnum rfl]
      rcases hty with rfl | rfl <;> rfl
  | @str s hs =>
    cases hc with
    | none => rfl
    | number hnum hty =>
      rw [eq_str_of_num? hnum]
      rcases hty with rfl | rfl <;> rfl
    | @str t ht =>
      have hsame : Value.eq (.str s) (.str t) = decide (s = t) := by simp [Value.eq, Value.scalarEq]
      have hplace : (decide ((pool.idxOf s : ℤ) = pool.idxOf t)) = decide (s = t) :=
        decide_eq_decide.mpr (strEq_iff hs)
      rw [hsame, ← hplace]
      rfl

/-- An order is one of numbers. -/
theorem ordered_eq {pool : List String} {v c : Value} {r k : Nat × ℤ} (hv : Encoded pool v r) (hc : Encoded pool c k)
    (hstr : c.isStr = false) (op : Value.OrderOp)
    : (v.order op c).getD false
        = (Evaluator.isNumeric r.1 && Evaluator.isNumeric k.1 && op.num (.finite (r.2 : ℚ)) (.finite (k.2 : ℚ))) := by
  cases hc with
  | none =>
    have hnone : v.order op .none = none := by
      cases hv with
      | none | str => rfl
      | number hnum => exact Value.order_eq_none_of_num? op hnum rfl
    have hty : Evaluator.isNumeric tyNone = false := rfl
    rw [hnone, hty, Bool.and_false, Bool.false_and]
    rfl
  | @number c m ty' hnum' hty' =>
    dsimp only
    rw [isNumeric_ty hty', Bool.and_true]
    cases hv with
    | none =>
      have hnone : Value.order op .none c = none := by
        cases c <;> simp_all [Value.order, Value.scalarOrder, Value.num?]
      rw [hnone]
      rfl
    | @str s _ =>
      have hnone : Value.order op (.str s) c = none := by
        cases c <;> simp_all [Value.order, Value.scalarOrder, Value.num?]
      rw [hnone]
      rfl
    | @number v n ty hnum hty =>
      rw [isNumeric_ty hty, Bool.true_and, Value.order_of_num? op hnum hnum']
      rfl
  | str => cases hstr

theorem truthy_eq {pool : List String} (hempty : pool.head? = some "") {v : Value} {r : Nat × ℤ} (hv : Encoded pool v r)
    : (decide ((r.1 : ℤ) ≠ Evaluator.tyNone) && decide (r.2 ≠ 0)) = v.truthy := by
  cases hv with
  | none => rfl
  | @number v n ty hnum hty =>
    have hty' : decide ((ty : ℤ) ≠ Evaluator.tyNone) = true := by
      rcases hty with rfl | rfl <;> rfl
    dsimp only
    rw [hty', Bool.true_and]
    rw [Value.truthy_of_num? hnum]
    simp
  | @str s hs =>
    rcases List.head?_eq_some_iff.mp hempty with ⟨rest, rfl⟩
    by_cases hs' : s = ""
    . subst hs'
      simp [Value.truthy]
    . have hidx : (("" : String) :: rest).idxOf s ≠ 0 := by
        rw [List.idxOf_cons_ne _ (Ne.symm hs')]
        exact Nat.succ_ne_zero _
      have hidx' : (((("" : String) :: rest).idxOf s : ℕ) : ℤ) ≠ 0 := Int.natCast_ne_zero.mpr hidx
      dsimp only
      rw [decide_eq_true hidx', Value.truthy, decide_eq_true hs']
      rfl

/- What an atom of each kind makes of its register. -/

theorem num_int (op : Value.OrderOp) (m n : ℤ)
    : op.num (.finite (m : ℚ)) (.finite (n : ℚ))
        = match op with
          | .lt => decide (m < n)
          | .le => decide (m ≤ n)
          | .gt => decide (m > n)
          | .ge => decide (m ≥ n) := by
  cases op with
  | lt | gt => simp [Value.OrderOp.num, Number.lt]
  | le | ge => simp [Value.OrderOp.num, Number.le, Number.lt, Number.eq, le_iff_lt_or_eq, Bool.decide_or, eq_comm]

/-- A comparison of the fragment is the atom that the compiler emits for it. -/
theorem compare_atom {op : CmpOp} {opc : Nat} (hopc : astOp op = some opc) {pool : List String} {v c : Value}
    {r k : Nat × ℤ} (hv : Encoded pool v r) (hc : Encoded pool c k) (hstr : LevelM.orderedConstReason op c = none)
    (field : Nat)
    : Predicates.compare op v c = .ok (Evaluator.compare ⟨field, opc, k.1, k.2⟩ ⟨r.1, r.2⟩) := by
  have hordered (hop : op ∈ LevelM.orderOps) : c.isStr = false := by
    cases c with
    | str s =>
      rw [LevelM.orderedConstReason, if_pos hop] at hstr
      cases hstr
    | _ => rfl
  cases op with
  | eq =>
    cases hopc
    rw [Predicates.compare, ← same_eq hv hc field opEq]
    rfl
  | notEq =>
    cases hopc
    rw [Predicates.compare, ← same_eq hv hc field opNe]
    rfl
  | lt | ltE | gt | gtE =>
    cases hopc
    rw [Predicates.compare, ordered_eq hv hc (hordered (by decide)), num_int]
    rfl
  | _ => cases hopc

theorem compare_truthy {pool : List String} (hempty : pool.head? = some "") {v : Value} {r : Nat × ℤ}
    (hv : Encoded pool v r) (field : Nat)
    : Evaluator.compare ⟨field, opTruthy, tyNone, 0⟩ ⟨r.1, r.2⟩ = v.truthy := by
  rw [← truthy_eq hempty hv]
  rfl

/- Words one after the other. -/

/-- The stack after the words of a program. -/
def runWords (t : Tables) (regs : Nat → Reg) (stackMax : Nat) : List Bool → List Nat → Except Evaluator.Fault (List Bool)
  | stack, [] => .ok stack
  | stack, word :: words =>
    match evalWord t regs stackMax stack word with
    | .error fault => .error fault
    | .ok stack => runWords t regs stackMax stack words

theorem runWords_append {t : Tables} {regs : Nat → Reg} {stackMax : Nat} {stack stack' : List Bool} {words : List Nat}
    (h : runWords t regs stackMax stack words = .ok stack') (words' : List Nat)
    : runWords t regs stackMax stack (words ++ words') = runWords t regs stackMax stack' words' := by
  induction words generalizing stack with
  | nil =>
    cases h
    rfl
  | cons word words ih =>
    rw [runWords] at h
    rw [List.cons_append, runWords]
    split at h
    next => cases h
    next => exact ih h

/-- A table that holds an image, and registers that hold a context. -/
structure Ready (im : TableImage) (t : Tables) (regs : Nat → Reg) (ctx : Predicates.Ctx) : Prop where
  atom : ∀ i, t.atom i = im.atoms[i]?
  fields : t.fields = im.fields.length
  words : im.atoms.length ≤ opNot
  empty : im.intern.head? = some ""
  shows : ∃ pool, im.intern <+: pool
    ∧ ∀ i name, im.fields[i]? = some name → ∃ r, Encoded pool (ctx name) r ∧ regs i = ⟨r.1, r.2⟩

/-- The program pushes a truth, under every image that goes on from the one it was compiled to. -/
def Pushes (img : TableImage) (prog : List Nat) (need : Nat) (b : Predicates.Ctx → Bool) : Prop :=
  ∀ im t regs ctx, Grows img im → Ready im t regs ctx → ∀ stackMax stack, stack.length + need ≤ stackMax →
    runWords t regs stackMax stack prog = .ok (b ctx :: stack)

/-- The program replaces the truth on top of the stack. -/
def Folds (img : TableImage) (prog : List Nat) (need : Nat) (f : Predicates.Ctx → Bool → Bool) : Prop :=
  ∀ im t regs ctx, Grows img im → Ready im t regs ctx → ∀ stackMax a stack, stack.length + need ≤ stackMax →
    runWords t regs stackMax (a :: stack) prog = .ok (f ctx a :: stack)

section Steps

variable {img img' : TableImage} {prog prog' : List Nat} {need need' : Nat} {b : Predicates.Ctx → Bool}
  {f g : Predicates.Ctx → Bool → Bool}

theorem Pushes.grow (h : Pushes img prog need b) (hgrows : Grows img img')
    : Pushes img' prog need b :=
  fun im t regs ctx him => h im t regs ctx (hgrows.trans him)

theorem Folds.grow (h : Folds img prog need f) (hgrows : Grows img img')
    : Folds img' prog need f :=
  fun im t regs ctx him => h im t regs ctx (hgrows.trans him)

theorem Pushes.weaken (h : Pushes img prog need b) (hle : need ≤ need')
    : Pushes img prog need' b :=
  fun im t regs ctx him hready stackMax stack hroom => h im t regs ctx him hready stackMax stack (by omega)

theorem Pushes.congr (h : Pushes img prog need b) {b' : Predicates.Ctx → Bool} (heq : ∀ ctx, b ctx = b' ctx)
    : Pushes img prog need b' := by
  rw [← funext heq]
  exact h

theorem Folds.congr (h : Folds img prog need f) {f' : Predicates.Ctx → Bool → Bool} (heq : ∀ ctx a, f ctx a = f' ctx a)
    : Folds img prog need f' := by
  have hsame : f = f' := funext fun ctx => funext (heq ctx)
  rw [← hsame]
  exact h

theorem Folds.nil (img : TableImage) (need : Nat)
    : Folds img [] need fun _ a => a :=
  fun _ _ _ _ _ _ _ _ _ _ => rfl

theorem Folds.append (h : Folds img prog need f) (h' : Folds img prog' need g)
    : Folds img (prog ++ prog') need fun ctx a => g ctx (f ctx a) := by
  intro im t regs ctx him hready stackMax a stack hroom
  rw [runWords_append (h im t regs ctx him hready stackMax a stack hroom)]
  exact h' im t regs ctx him hready stackMax (f ctx a) stack hroom

theorem Pushes.append (h : Pushes img prog need b) (h' : Folds img prog' need f)
    : Pushes img (prog ++ prog') need fun ctx => f ctx (b ctx) := by
  intro im t regs ctx him hready stackMax stack hroom
  rw [runWords_append (h im t regs ctx him hready stackMax stack hroom)]
  exact h' im t regs ctx him hready stackMax (b ctx) stack hroom

theorem Pushes.not (h : Pushes img prog need b)
    : Pushes img (prog ++ [opNot]) need fun ctx => !b ctx := by
  intro im t regs ctx him hready stackMax stack hroom
  rw [runWords_append (h im t regs ctx him hready stackMax stack hroom)]
  rfl

/-- What the opcode of an operator makes of the two truths on top. -/
def applyOp : BoolOp → Bool → Bool → Bool
  | .and, a, b => a && b
  | .or, a, b => a || b

theorem Pushes.folds (h : Pushes img prog need b) (op : BoolOp)
    : Folds img (prog ++ [opcodeOf op]) (need + 1) fun ctx a => applyOp op a (b ctx) := by
  intro im t regs ctx him hready stackMax a stack hroom
  have hpush := h im t regs ctx him hready stackMax (a :: stack) (by rw [List.length_cons]; omega)
  rw [runWords_append hpush]
  cases op <;> rfl

theorem pushes_opTrue (img : TableImage)
    : Pushes img [opTrue] 1 fun _ => true := by
  intro im t regs ctx him hready stackMax stack hroom
  have hpush : evalWord t regs stackMax stack opTrue = Evaluator.push stackMax true stack := rfl
  rw [runWords, hpush, Evaluator.push, if_neg (by omega)]
  rfl

theorem pushes_opFalse (img : TableImage)
    : Pushes img [opFalse] 1 fun _ => false := by
  intro im t regs ctx him hready stackMax stack hroom
  have hpush : evalWord t regs stackMax stack opFalse = Evaluator.push stackMax false stack := rfl
  rw [runWords, hpush, Evaluator.push, if_neg (by omega)]
  rfl

/-- An atom pushes what it makes of the register of its field. -/
theorem pushes_atom {index fidx op ty : Nat} {val : ℤ} {name : String}
    (hatom : img.atoms[index]? = some ⟨fidx, op, ty, val⟩) (hfield : img.fields[fidx]? = some name)
    (h : ∀ pool ctx r, img.intern <+: pool → pool.head? = some "" → Encoded pool (ctx name) r →
      Evaluator.compare ⟨fidx, op, ty, val⟩ ⟨r.1, r.2⟩ = b ctx)
    : Pushes img [index] 1 b := by
  intro im t regs ctx him hready stackMax stack hroom
  rcases hready.shows with ⟨pool, hpool, hregs⟩
  have hatom' := getElem?_of_grown him.atoms hatom
  have hfield' := getElem?_of_grown him.fields hfield
  rcases hregs fidx name hfield' with ⟨r, hr, hreg⟩
  have hword : index < 0x8000 := Nat.lt_of_lt_of_le (List.getElem?_eq_some_iff.mp hatom').1 hready.words
  have hinside : fidx < t.fields := by
    rw [hready.fields]
    exact (List.getElem?_eq_some_iff.mp hfield').1
  have hempty : pool.head? = some "" := by
    rcases hpool with ⟨rest, rfl⟩
    rw [List.head?_append, hready.empty]
    rfl
  have heval : Evaluator.evalAtom t regs index = .ok (b ctx) := by
    rw [Evaluator.evalAtom, hready.atom, hatom']
    dsimp only
    rw [if_pos hinside, hreg, h pool ctx r (him.intern.trans hpool) hempty hr]
  have hpush : evalWord t regs stackMax stack index = .ok (b ctx :: stack) := by
    unfold evalWord
    rw [if_pos hword, if_neg (by omega), heval]
    rfl
  rw [runWords, hpush]
  rfl

end Steps

/- The program of a comparison. -/

theorem flipOp_spec {op : CmpOp} {opc : Nat} (hopc : astOp op = some opc)
    : astOp (LevelM.flip op) = some (flipOp opc) := by
  cases op <;> cases hopc <;> rfl

/-- The atom of a constant. -/
theorem pushes_compare {name : String} {op : CmpOp} {opc : Nat} {c : Value} {img img₁ img₂ img₃ : TableImage}
    {fidx word : Nat} {k : Nat × ℤ} (hopc : astOp op = some opc) (hstr : LevelM.orderedConstReason op c = none)
    (hfield : field name img = .ok (fidx, img₁)) (hscalar : encodeScalar c img₁ = .ok (k, img₂))
    (hatom : atom fidx opc k.1 k.2 img₂ = .ok (word, img₃))
    : Grows img img₃ ∧ Pushes img₃ [word] 1 fun ctx => (LevelM.Atom.compare op c).holds (ctx name) := by
  rcases field_spec hfield with ⟨hgrows₁, hname⟩
  rcases encodeScalar_spec hscalar with ⟨hgrows₂, _, hk⟩
  rcases atom_spec hatom with ⟨hgrows₃, hget⟩
  refine ⟨hgrows₁.trans (hgrows₂.trans hgrows₃), ?_⟩
  refine pushes_atom hget (getElem?_of_grown (hgrows₂.trans hgrows₃).fields hname) fun pool ctx r hpool _ hr => ?_
  have hconst := encoded_of_encodeIn (encodeIn_mono (hgrows₃.intern.trans hpool) hk)
  rw [LevelM.Atom.holds, compare_atom hopc hr hconst hstr fidx]

theorem pushes_memberAtom {name : String} {c : Value} {img img' : TableImage} {fidx word : Nat}
    (hname : img.fields[fidx]? = some name) (h : memberAtom fidx (.constant c) img = .ok (word, img'))
    : Grows img img' ∧ Pushes img' [word] 1 fun ctx => (ctx name).eq c := by
  rcases StateT.bind_eq_ok.mp h with ⟨v, img₁, hvalue, h⟩
  cases hvalue
  rcases StateT.bind_eq_ok.mp h with ⟨k, img₂, hscalar, hatom⟩
  rcases encodeScalar_spec hscalar with ⟨hgrows₂, _, hk⟩
  rcases atom_spec hatom with ⟨hgrows₃, hget⟩
  refine ⟨hgrows₂.trans hgrows₃, ?_⟩
  refine pushes_atom hget (getElem?_of_grown (hgrows₂.trans hgrows₃).fields hname) fun pool ctx r hpool _ hr => ?_
  have hconst := encoded_of_encodeIn (encodeIn_mono (hgrows₃.intern.trans hpool) hk)
  rw [← same_eq hr hconst fidx opEq]
  rfl

theorem folds_memberRest {name : String} {vs : List Value} {img img' : TableImage} {fidx : Nat} {prog : List Nat}
    (hname : img.fields[fidx]? = some name) (h : memberRest fidx (vs.map .constant) img = .ok (prog, img'))
    : Grows img img' ∧ Folds img' prog 2 fun ctx a => a || vs.any fun c => (ctx name).eq c := by
  induction vs generalizing img prog with
  | nil =>
    cases h
    exact ⟨Grows.refl _, (Folds.nil _ 2).congr fun ctx a => (Bool.or_false a).symm⟩
  | cons v vs ih =>
    rw [List.map_cons, memberRest] at h
    rcases StateT.bind_eq_ok.mp h with ⟨word, img₁, hword, h⟩
    rcases StateT.bind_eq_ok.mp h with ⟨rest, img₂, hrest, h⟩
    cases h
    rcases pushes_memberAtom hname hword with ⟨hgrows₁, hpushes⟩
    rcases ih (getElem?_of_grown hgrows₁.fields hname) hrest with ⟨hgrows₂, hfolds⟩
    refine ⟨hgrows₁.trans hgrows₂, ?_⟩
    refine (((hpushes.folds .or).grow hgrows₂).append hfolds).congr fun ctx a => ?_
    rw [List.any_cons, ← Bool.or_assoc]
    rfl

theorem pushes_memberProg {name : String} {vs : List Value} {img img' : TableImage} {fidx : Nat} {prog : List Nat}
    (hname : img.fields[fidx]? = some name) (h : memberProg fidx (vs.map .constant) img = .ok (prog, img'))
    : Grows img img' ∧ Pushes img' prog 2 fun ctx => vs.any fun c => (ctx name).eq c := by
  cases vs with
  | nil =>
    cases h
    exact ⟨Grows.refl img, (pushes_opFalse img).weaken (by omega)⟩
  | cons v vs =>
    rw [List.map_cons, memberProg] at h
    rcases StateT.bind_eq_ok.mp h with ⟨word, img₁, hword, h⟩
    rcases StateT.bind_eq_ok.mp h with ⟨rest, img₂, hrest, h⟩
    cases h
    rcases pushes_memberAtom hname hword with ⟨hgrows₁, hpushes⟩
    rcases folds_memberRest (getElem?_of_grown hgrows₁.fields hname) hrest with ⟨hgrows₂, hfolds⟩
    refine ⟨hgrows₁.trans hgrows₂, ?_⟩
    exact ((hpushes.grow hgrows₂).weaken (by omega)).append hfolds

/-- The program of a comparison of the fragment pushes what the comparison means. -/
theorem pushes_compareProg {left : Expr} {op : CmpOp} {right : Expr} (hpair : LevelM.IsPair left op right)
    {img img' : TableImage} {prog : List Nat} (h : compareProg left op right img = .ok (prog, img'))
    : Grows img img' ∧ Pushes img' prog 2 fun ctx => LevelM.means ctx (.compare left [(op, right)]) := by
  have hmeans {f : String} {a : LevelM.Atom} (hatoms : LevelM.pairAtoms left op right = [(f, a)])
      (ctx : Predicates.Ctx) : a.holds (ctx f) = LevelM.means ctx (.compare left [(op, right)]) := by
    simp [LevelM.means, LevelM.atomsOf, hatoms]
  cases hpair with
  | @member f op right es vs hright hop hes hvs =>
    have hatoms : LevelM.pairAtoms (.name f) op right = [(f, .member (op = .notIn) vs)] := by
      have hnot : op ∉ LevelM.orderOps ++ LevelM.eqOps := by
        cases op <;> simp_all [LevelM.membershipOps, LevelM.orderOps, LevelM.eqOps]
      rcases hright with rfl | rfl <;> simp only [LevelM.pairAtoms, hnot, hop, hes] <;> rfl
    rw [compareProg_member hright hop, LevelM.eq_map_of_constantsOf hes] at h
    rcases StateT.bind_eq_ok.mp h with ⟨fidx, img₁, hfield, h⟩
    rcases StateT.bind_eq_ok.mp h with ⟨member, img₂, hmember, h⟩
    cases h
    rcases field_spec hfield with ⟨hgrows₁, hname⟩
    rcases pushes_memberProg hname hmember with ⟨hgrows₂, hpushes⟩
    refine ⟨hgrows₁.trans hgrows₂, ?_⟩
    split
    next hnotIn =>
      refine hpushes.not.congr fun ctx => ?_
      rw [← hmeans hatoms, LevelM.Atom.holds, decide_eq_true hnotIn, Bool.bne_true]
    next hisIn =>
      refine hpushes.congr fun ctx => ?_
      rw [← hmeans hatoms, LevelM.Atom.holds, decide_eq_false hisIn, Bool.bne_false]
  | @fieldConst f op c hop hv hstr =>
    have hatoms : LevelM.pairAtoms (.name f) op (.constant c) = [(f, .compare op c)] := by
      simp only [LevelM.pairAtoms, hop, if_true]
    rcases exists_astOp hop with ⟨opc, hopc⟩
    rw [compareProg_fieldConst c hop hopc] at h
    rcases StateT.bind_eq_ok.mp h with ⟨fidx, img₁, hfield, h⟩
    rcases StateT.bind_eq_ok.mp h with ⟨k, img₂, hscalar, h⟩
    rcases StateT.bind_eq_ok.mp h with ⟨word, img₃, hatom, h⟩
    cases h
    rcases pushes_compare hopc hstr hfield hscalar hatom with ⟨hgrows, hpushes⟩
    exact ⟨hgrows, (hpushes.weaken (by omega)).congr (hmeans hatoms)⟩
  | @constField f op c hop hv hstr =>
    have hatoms : LevelM.pairAtoms (.constant c) op (.name f) = [(f, .compare (LevelM.flip op) c)] := by
      simp only [LevelM.pairAtoms, hop, if_true]
    rcases exists_astOp hop with ⟨opc, hopc⟩
    rw [compareProg_constField c hop hopc] at h
    rcases StateT.bind_eq_ok.mp h with ⟨fidx, img₁, hfield, h⟩
    rcases StateT.bind_eq_ok.mp h with ⟨k, img₂, hscalar, h⟩
    rcases StateT.bind_eq_ok.mp h with ⟨word, img₃, hatom, h⟩
    cases h
    have hstr' : LevelM.orderedConstReason (LevelM.flip op) c = none :=
      (LevelM.orderedConstReason_flip op c).trans hstr
    rcases pushes_compare (flipOp_spec hopc) hstr' hfield hscalar hatom with ⟨hgrows, hpushes⟩
    exact ⟨hgrows, (hpushes.weaken (by omega)).congr (hmeans hatoms)⟩

/- The program of an expression. -/

mutual

/-- Every operator of a condition has operands, as in every tree that Python parses. -/
def hasOperands : Expr → Bool
  | .boolOp _ es => !es.isEmpty && hasOperandsList es
  | .unaryOp _ e => hasOperands e
  | _ => true

def hasOperandsList : List Expr → Bool
  | [] => true
  | e :: es => hasOperands e && hasOperandsList es

end

theorem hasOperandsList_iff (es : List Expr)
    : hasOperandsList es = true ↔ ∀ e ∈ es, hasOperands e = true := by
  induction es with
  | nil => simp [hasOperandsList]
  | cons e es ih => rw [hasOperandsList, Bool.and_eq_true, ih, List.forall_mem_cons]

/-- The operands after the first are folded into it one by one. -/
theorem folds_progOperands (op : BoolOp) {need : Nat} {es : List Expr}
    (hes : ∀ e ∈ es, ∀ {img img' : TableImage} {prog : List Nat}, progExpr e img = .ok (prog, img') →
      Grows img img' ∧ Pushes img' prog need fun ctx => LevelM.means ctx e)
    {img img' : TableImage} {prog : List Nat} (h : progOperands (opcodeOf op) es img = .ok (prog, img'))
    : Grows img img'
        ∧ Folds img' prog (need + 1) fun ctx a => es.foldl (fun a e => applyOp op a (LevelM.means ctx e)) a := by
  induction es generalizing img prog with
  | nil =>
    cases h
    exact ⟨Grows.refl _, Folds.nil _ _⟩
  | cons e es ih =>
    rw [List.forall_mem_cons] at hes
    rw [progOperands] at h
    rcases StateT.bind_eq_ok.mp h with ⟨first, img₁, hfirst, h⟩
    rcases StateT.bind_eq_ok.mp h with ⟨rest, img₂, hrest, h⟩
    cases h
    rcases hes.1 hfirst with ⟨hgrows₁, hpushes⟩
    rcases ih hes.2 hrest with ⟨hgrows₂, hfolds⟩
    refine ⟨hgrows₁.trans hgrows₂, ?_⟩
    have hall := ((hpushes.folds op).grow hgrows₂).append hfolds
    rw [List.append_assoc] at hall
    exact hall

theorem foldl_applyOp (op : BoolOp) (ctx : Predicates.Ctx) (a : Bool) (es : List Expr)
    : es.foldl (fun a e => applyOp op a (LevelM.means ctx e)) a
        = applyOp op a (match op with
          | .and => es.all (LevelM.means ctx)
          | .or => es.any (LevelM.means ctx)) := by
  induction es generalizing a with
  | nil => cases op <;> simp [applyOp]
  | cons e es ih =>
    rw [List.foldl_cons, ih]
    cases op with
    | and => simp only [applyOp, List.all_cons, Bool.and_assoc]
    | or => simp only [applyOp, List.any_cons, Bool.or_assoc]

theorem means_boolOp (ctx : Predicates.Ctx) (op : BoolOp) (e : Expr) (es : List Expr)
    : LevelM.means ctx (.boolOp op (e :: es))
        = es.foldl (fun a e => applyOp op a (LevelM.means ctx e)) (LevelM.means ctx e) := by
  rw [foldl_applyOp]
  cases op with
  | and => rw [LevelM.means, LevelM.meansAll_eq, List.all_cons, applyOp]
  | or => rw [LevelM.means, LevelM.meansAny_eq, List.any_cons, applyOp]

/-- The program of an expression of the fragment pushes what the expression means. -/
theorem pushes_progExpr (e : Expr) (hclass : LevelM.classify e = none) (hoperands : hasOperands e = true)
    {img img' : TableImage} {prog : List Nat} (h : progExpr e img = .ok (prog, img'))
    : Grows img img' ∧ Pushes img' prog (Predicates.depth e + 1) fun ctx => LevelM.means ctx e := by
  induction e using Expr.induct generalizing img img' prog with
  | constant v => simp [LevelM.classify, LevelM.atomReason] at hclass
  | name f =>
    rw [progExpr] at h
    rcases StateT.bind_eq_ok.mp h with ⟨fidx, img₁, hfield, h⟩
    rcases StateT.bind_eq_ok.mp h with ⟨word, img₂, hatom, h⟩
    cases h
    rcases field_spec hfield with ⟨hgrows₁, hname⟩
    rcases atom_spec hatom with ⟨hgrows₂, hget⟩
    refine ⟨hgrows₁.trans hgrows₂, ?_⟩
    refine Pushes.weaken (pushes_atom hget (getElem?_of_grown hgrows₂.fields hname) ?_) (by omega)
    intro pool ctx r _ hempty hr
    rw [compare_truthy hempty hr, LevelM.means_name]
  | boolOp op es ih =>
    rw [LevelM.classify, LevelM.classifyList_eq_none] at hclass
    rw [hasOperands, Bool.and_eq_true, hasOperandsList_iff] at hoperands
    cases es with
    | nil => simp at hoperands
    | cons e es =>
      have hall : ∀ e' ∈ e :: es, ∀ {img img' : TableImage} {prog : List Nat}, progExpr e' img = .ok (prog, img') →
          Grows img img' ∧ Pushes img' prog (Predicates.depthList (e :: es) + 1) fun ctx => LevelM.means ctx e' := by
        intro e' he' img img' prog h
        have hdepth := LevelM.depth_le_depthList he'
        rcases ih e' he' (hclass e' he') (hoperands.2 e' he') h with ⟨hgrows, hpushes⟩
        exact ⟨hgrows, hpushes.weaken (by omega)⟩
      rw [progExpr] at h
      rcases StateT.bind_eq_ok.mp h with ⟨first, img₁, hfirst, h⟩
      rcases StateT.bind_eq_ok.mp h with ⟨rest, img₂, hrest, h⟩
      cases h
      rw [List.forall_mem_cons] at hall
      rcases hall.1 hfirst with ⟨hgrows₁, hpushes⟩
      rcases folds_progOperands op hall.2 hrest with ⟨hgrows₂, hfolds⟩
      refine ⟨hgrows₁.trans hgrows₂, ?_⟩
      have hneed : Predicates.depthList (e :: es) + 1 + 1 = Predicates.depth (.boolOp op (e :: es)) + 1 := by
        rw [Predicates.depth]
        omega
      rw [hneed] at hfolds
      refine (((hpushes.grow hgrows₂).weaken (by omega)).append hfolds).congr fun ctx => ?_
      rw [means_boolOp]
  | unaryOp op e ih =>
    cases op with
    | not =>
      rw [LevelM.classify] at hclass
      rw [hasOperands] at hoperands
      rw [progExpr] at h
      rcases StateT.bind_eq_ok.mp h with ⟨body, img₁, hbody, h⟩
      cases h
      rcases ih hclass hoperands hbody with ⟨hgrows, hpushes⟩
      refine ⟨hgrows, (hpushes.not.weaken ?_).congr fun ctx => ?_⟩
      . rw [Predicates.depth]
        omega
      . rw [LevelM.means]
    | _ => simp [LevelM.classify, LevelM.atomReason] at hclass
  | compare left rest =>
    rcases isPair_of_classify hclass with ⟨op, right, rfl, hpair⟩
    rw [progExpr] at h
    rcases pushes_compareProg hpair h with ⟨hgrows, hpushes⟩
    refine ⟨hgrows, hpushes.weaken ?_⟩
    rw [Predicates.depth]
    omega
  | list es => simp [LevelM.classify, LevelM.atomReason] at hclass
  | tuple es => simp [LevelM.classify, LevelM.atomReason] at hclass
  | other k es => simp [LevelM.classify, LevelM.atomReason] at hclass

/- The program of a condition. -/

theorem isEmpty_foldUnarySignsList (es : List Expr)
    : (Predicates.foldUnarySignsList es).isEmpty = es.isEmpty := by
  cases es with
  | nil => rfl
  | cons e es => rfl

theorem hasOperands_fold (e : Expr) (h : hasOperands e = true)
    : hasOperands (Predicates.foldUnarySigns e) = true := by
  induction e using Expr.induct with
  | boolOp op es ih =>
    rw [hasOperands, Bool.and_eq_true, hasOperandsList_iff] at h
    have hes : hasOperandsList (Predicates.foldUnarySignsList es) = true := by
      have hall := fun e he => ih e he (h.2 e he)
      clear ih h
      induction es with
      | nil => rfl
      | cons e es ih =>
        rw [Predicates.foldUnarySignsList, hasOperandsList, hall e List.mem_cons_self,
          ih fun e' he' => hall e' (List.mem_cons_of_mem e he')]
        rfl
    rw [Predicates.foldUnarySigns, hasOperands, isEmpty_foldUnarySignsList, h.1, hes]
    rfl
  | unaryOp op e ih =>
    rw [hasOperands] at h
    have hbody := ih h
    unfold Predicates.foldUnarySigns
    split
    . rfl
    . rfl
    . rw [hasOperands]
      exact hbody
  | _ => rfl

theorem hasOperands_desugar (e : Expr) (h : hasOperands e = true)
    : hasOperands (LevelM.desugarChains e) = true := by
  induction e using Expr.induct with
  | boolOp op es ih =>
    rw [hasOperands, Bool.and_eq_true, hasOperandsList_iff] at h
    rw [LevelM.desugarChains, LevelM.desugarChainsList_eq, hasOperands, Bool.and_eq_true, hasOperandsList_iff,
      List.isEmpty_map, List.forall_mem_map]
    exact ⟨h.1, fun e he => ih e he (h.2 e he)⟩
  | unaryOp op e ih =>
    cases op with
    | not =>
      rw [hasOperands] at h
      rw [LevelM.desugarChains, hasOperands]
      exact ih h
    | _ => exact h
  | compare left rest =>
    rcases rest with _ | ⟨p, _ | ⟨q, rest⟩⟩
    . rfl
    . rfl
    . have hpairs (left : Expr) (rest : List (CmpOp × Expr)) : hasOperandsList (LevelM.chainPairs left rest) = true := by
        induction rest generalizing left with
        | nil => rfl
        | cons p rest ih =>
          rw [LevelM.chainPairs, hasOperandsList, ih]
          rfl
      rw [LevelM.desugarChains, hasOperands, hpairs]
      rfl
  | _ => exact h

theorem depthList_chainPairs (left : Expr) (rest : List (CmpOp × Expr))
    : Predicates.depthList (LevelM.chainPairs left rest)
        ≤ 1 + max (Predicates.depth left) (Predicates.depthRest rest) := by
  induction rest generalizing left with
  | nil => exact Nat.zero_le _
  | cons p rest ih =>
    rcases p with ⟨op, right⟩
    have hrest := ih right
    rw [LevelM.chainPairs, Predicates.depthList, Predicates.depth]
    simp only [Predicates.depthRest]
    omega

/-- A chain is one deeper as the conjunction of its links. -/
theorem depth_desugar (e : Expr)
    : Predicates.depth (LevelM.desugarChains e) ≤ Predicates.depth e + 1 := by
  induction e using Expr.induct with
  | boolOp op es ih =>
    have hes : Predicates.depthList (es.map LevelM.desugarChains) ≤ Predicates.depthList es + 1 := by
      induction es with
      | nil => exact Nat.zero_le _
      | cons e es ihes =>
        have hfirst := ih e List.mem_cons_self
        have hrest := ihes fun e' he' => ih e' (List.mem_cons_of_mem e he')
        rw [List.map_cons, Predicates.depthList, Predicates.depthList]
        omega
    rw [LevelM.desugarChains, LevelM.desugarChainsList_eq, Predicates.depth, Predicates.depth]
    omega
  | unaryOp op e ih =>
    cases op with
    | not =>
      rw [LevelM.desugarChains, Predicates.depth, Predicates.depth]
      omega
    | _ => exact Nat.le_succ _
  | compare left rest =>
    rcases rest with _ | ⟨p, _ | ⟨q, rest⟩⟩
    . exact Nat.le_succ _
    . exact Nat.le_succ _
    . have hpairs := depthList_chainPairs left (p :: q :: rest)
      rw [LevelM.desugarChains, Predicates.depth, Predicates.depth]
      omega
  | _ => exact Nat.le_succ _

/-- Python parses no operator without operands. -/
def ParsesOperands (py : Predicates.Runtime) : Prop :=
  ∀ text tree, py.parse text = some tree → hasOperands tree = true

theorem evalCondition_means {py : Predicates.Runtime} {cond : String} {tree : Expr}
    (htree : Predicates.exprAst py cond = some tree) (hcheck : Predicates.checkPredicate py cond = [])
    (hclass : LevelM.classify (LevelM.desugarChains tree) = none) (ctx : Predicates.Ctx)
    : Predicates.evalCondition py cond ctx = .ok (LevelM.means ctx (LevelM.desugarChains tree)) := by
  rcases Predicates.conditionTree_of_exprAst htree with ⟨hparse, _, hverdict⟩
  have hsafe := Analysis.safe_of_checkPredicate htree hcheck
  have hdepth : 0 + Predicates.depth tree ≤ Predicates.maxDepth := by
    rw [Nat.zero_add]
    exact hsafe.shallow
  rw [Predicates.evalCondition_eq, hverdict, hparse]
  simp only [hsafe.allowed, Bool.false_eq_true, if_false]
  exact LevelM.truth_means ctx tree hclass hdepth

/--
The program of a condition pushes what the condition evaluates to, under every image that goes on from the one it was
compiled to.
-/
theorem pushes_compileCondition {py : Predicates.Runtime} (hpy : ParsesOperands py) {cond : String}
    {img img' : TableImage} {prog : List Nat} (h : compileCondition py cond img = .ok (prog, img'))
    : Grows img img'
        ∧ ∃ b : Predicates.Ctx → Bool, Pushes img' prog Interp.stackMax b
          ∧ ∀ ctx, Predicates.evalCondition py cond ctx = .ok (b ctx) := by
  have hdet : Predicates.isDeterministic cond = true := by
    cases hdet : Predicates.isDeterministic cond with
    | true => rfl
    | false =>
      rw [compileCondition, hdet] at h
      cases h
  cases hverdict : Predicates.isVerdict (Predicates.exprOf cond) with
  | true =>
    have heval (ctx : Predicates.Ctx) : Predicates.evalCondition py cond ctx
        = .ok (decide (lower (Predicates.exprOf cond) ∈ Predicates.always)) := by
      rw [Predicates.evalCondition_eq, if_pos hverdict]
    rw [Predicates.isVerdict, Bool.or_eq_true, decide_eq_true_eq, decide_eq_true_eq] at hverdict
    rw [compileCondition, hdet] at h
    simp only [Bool.not_true, Bool.false_eq_true, if_false] at h
    split at h
    next halways =>
      cases h
      exact ⟨Grows.refl img, _, (pushes_opTrue img).weaken (by decide), fun ctx => by
        rw [heval, decide_eq_true halways]⟩
    next halways =>
      rw [if_pos (hverdict.resolve_left halways)] at h
      cases h
      exact ⟨Grows.refl img, _, (pushes_opFalse img).weaken (by decide), fun ctx => by
        rw [heval, decide_eq_false halways]⟩
  | false =>
    rw [compileCondition_eq hdet hverdict] at h
    split at h
    next => cases h
    next hcheck =>
      have hcheck : Predicates.checkPredicate py cond = [] := not_not.mp hcheck
      cases htree : Predicates.exprAst py cond with
      | none =>
        rw [htree] at h
        cases h
      | some tree =>
        rw [htree] at h
        dsimp only at h
        cases hclass : LevelM.classify (LevelM.desugarChains tree) with
        | some reason =>
          rw [hclass] at h
          cases h
        | none =>
          rw [hclass] at h
          have hsafe := Analysis.safe_of_checkPredicate htree hcheck
          have hdepth : Predicates.depth (LevelM.desugarChains tree) + 1 ≤ Interp.stackMax := by
            have hdesugar := depth_desugar tree
            have hmax : Predicates.depth tree ≤ 50 := hsafe.shallow
            show Predicates.depth (LevelM.desugarChains tree) + 1 ≤ 64
            omega
          have hoperands : hasOperands (LevelM.desugarChains tree) = true := by
            rcases Option.map_eq_some_iff.mp (Predicates.conditionTree_of_exprAst htree).1 with ⟨body, hbody, rfl⟩
            exact hasOperands_desugar _ (hasOperands_fold _ (hpy _ _ hbody))
          rcases pushes_progExpr _ hclass hoperands h with ⟨hgrows, hpushes⟩
          exact ⟨hgrows, _, hpushes.weaken hdepth, evalCondition_means htree hcheck hclass⟩

end PptCompile
