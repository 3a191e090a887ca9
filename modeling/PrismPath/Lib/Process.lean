import Mathlib.Data.List.Forall2
import Mathlib.Order.Defs.Unbundled

/-!
This module contains processes that change a store one operation at a time, and that can raise or be killed
at any of their operations, and what it means that a partial function has a value on every element of a list.
-/

theorem Option.mapM_eq_some_iff {α β : Type} {f : α → Option β} {as : List α} {bs : List β}
    : as.mapM f = some bs ↔ List.Forall₂ (fun a b => f a = some b) as bs := by
  induction as generalizing bs with
  | nil =>
    rw [List.forall₂_nil_left_iff]
    exact ⟨fun h => (Option.some.inj h).symm, fun h => by rw [h]; rfl⟩
  | cons a as ih =>
    rw [List.mapM_cons, List.forall₂_cons_left_iff]
    simp only [bind_eq_bind, pure_def, bind_eq_some_iff, some.injEq]
    constructor
    . rintro ⟨b, hb, bs', hbs', rfl⟩
      exact ⟨b, bs', hb, ih.mp hbs', rfl⟩
    . rintro ⟨b, bs', hb, hbs', rfl⟩
      exact ⟨b, hb, bs', ih.mpr hbs', rfl⟩

inductive Exit (ε α : Type) where
  | returned (value : α)
  | raised (error : ε)
  | killed

/-- The process did not get to return. -/
def Exit.Stopped {ε α : Type} (x : Exit ε α) : Prop :=
  ∀ a, x ≠ .returned a

theorem Exit.Stopped.ne_returned {ε α : Type} {x : Exit ε α} (h : x.Stopped) (a : α) : x ≠ .returned a :=
  h a

theorem Exit.stopped_raised {ε α : Type} (e : ε) : (raised e : Exit ε α).Stopped :=
  fun _ h => by cases h

theorem Exit.stopped_killed {ε α : Type} : (killed : Exit ε α).Stopped :=
  fun _ h => by cases h

/-- What becomes of one operation. A killed process has not performed the operation it is killed at. -/
inductive Fault where
  | none
  | error
  | kill
  deriving DecidableEq

def Process (σ ε α : Type) : Type :=
  σ → Exit ε α × σ

namespace Process

variable {σ ε α β : Type}

instance : Monad (Process σ ε) where
  pure a := fun s => (.returned a, s)
  bind p f := fun s =>
    match p s with
    | (.returned a, s) => f a s
    | (.raised e, s) => (.raised e, s)
    | (.killed, s) => (.killed, s)

def raise (e : ε) : Process σ ε α :=
  fun s => (.raised e, s)

def read : Process σ ε σ :=
  fun s => (.returned s, s)

def update (effect : σ → σ) : Process σ ε Unit :=
  fun s => (.returned (), effect s)

/-- One operation: it takes effect, it raises and has no effect, or the process is killed at it. -/
def attempt (fault : Fault) (e : ε) (effect : σ → σ) : Process σ ε Unit :=
  fun s =>
    match fault with
    | .none => (.returned (), effect s)
    | .error => (.raised e, s)
    | .kill => (.killed, s)

def ofExcept : Except ε α → Process σ ε α
  | .ok a => pure a
  | .error e => raise e

@[simp]
theorem pure_apply (a : α) (s : σ)
    : (pure a : Process σ ε α) s = (.returned a, s) :=
  rfl

@[simp]
theorem raise_apply (e : ε) (s : σ)
    : (raise e : Process σ ε α) s = (.raised e, s) :=
  rfl

@[simp]
theorem read_apply (s : σ)
    : (read : Process σ ε σ) s = (.returned s, s) :=
  rfl

@[simp]
theorem update_apply (effect : σ → σ) (s : σ)
    : (update effect : Process σ ε Unit) s = (.returned (), effect s) :=
  rfl

theorem bind_apply (p : Process σ ε α) (f : α → Process σ ε β) (s : σ)
    : (p >>= f) s
        =
      match p s with
      | (.returned a, s) => f a s
      | (.raised e, s) => (.raised e, s)
      | (.killed, s) => (.killed, s) :=
  rfl

theorem bind_assoc {γ : Type} (p : Process σ ε α) (f : α → Process σ ε β) (g : β → Process σ ε γ)
    : p >>= f >>= g = p >>= fun a => f a >>= g := by
  funext s
  simp only [bind_apply]
  rcases p s with ⟨x, t⟩
  cases x with
  | returned a => rfl
  | raised e => rfl
  | killed => rfl

@[simp]
theorem pure_bind (a : α) (f : α → Process σ ε β)
    : pure a >>= f = f a :=
  rfl

/-- What is returned in the end changes no store. -/
theorem snd_bind_pure (p : Process σ ε α) (b : β) (s : σ)
    : ((p >>= fun _ => pure b) s).2 = (p s).2 := by
  rw [bind_apply]
  rcases p s with ⟨x, t⟩
  cases x with
  | returned a => rfl
  | raised e => rfl
  | killed => rfl

theorem ofExcept_ok_bind (a : α) (f : α → Process σ ε β)
    : ofExcept (.ok a) >>= f = f a :=
  rfl

theorem ofExcept_error_bind (e : ε) (f : α → Process σ ε β) (s : σ)
    : (ofExcept (.error e) >>= f) s = (.raised e, s) :=
  rfl

@[simp]
theorem read_bind (f : σ → Process σ ε β) (s : σ)
    : (read >>= f) s = f s s :=
  rfl

@[simp]
theorem update_bind (effect : σ → σ) (f : Unit → Process σ ε β) (s : σ)
    : (update effect >>= f) s = f () (effect s) :=
  rfl

@[simp]
theorem attempt_none_bind (e : ε) (effect : σ → σ) (f : Unit → Process σ ε β) (s : σ)
    : (attempt .none e effect >>= f) s = f () (effect s) :=
  rfl

@[simp]
theorem attempt_error_bind (e : ε) (effect : σ → σ) (f : Unit → Process σ ε β) (s : σ)
    : (attempt .error e effect >>= f) s = (.raised e, s) :=
  rfl

@[simp]
theorem attempt_kill_bind (e : ε) (effect : σ → σ) (f : Unit → Process σ ε β) (s : σ)
    : (attempt .kill e effect >>= f) s = (.killed, s) :=
  rfl

/-- A sequence ends in its first part, or goes on from where that returned. -/
theorem bind_cases {p : Process σ ε α} {f : α → Process σ ε β} {s s' : σ} {x : Exit ε β}
    (h : (p >>= f) s = (x, s'))
    : (∃ a t, p s = (.returned a, t) ∧ f a t = (x, s'))
        ∨ (∃ e, p s = (.raised e, s') ∧ x = .raised e)
        ∨ (p s = (.killed, s') ∧ x = .killed) := by
  rw [bind_apply] at h
  split at h
  . next a t heq => exact .inl ⟨a, t, heq, h⟩
  . next e t heq =>
    cases h
    exact .inr (.inl ⟨e, heq, rfl⟩)
  . next t heq =>
    cases h
    exact .inr (.inr ⟨heq, rfl⟩)

/-- A returned sequence returned in both its parts. -/
theorem returned_of_bind {p : Process σ ε α} {f : α → Process σ ε β} {s s' : σ} {b : β}
    (h : (p >>= f) s = (.returned b, s'))
    : ∃ a t, p s = (.returned a, t) ∧ f a t = (.returned b, s') := by
  rcases bind_cases h with hret | ⟨e, _, hx⟩ | ⟨_, hx⟩
  . exact hret
  . cases hx
  . cases hx

/-- A sequence that begins with an operation stops at it, or goes on from its effect. -/
theorem attempt_bind_cases {fault : Fault} {e : ε} {effect : σ → σ} {f : Unit → Process σ ε β} {s s' : σ}
    {x : Exit ε β} (h : (attempt fault e effect >>= f) s = (x, s'))
    : (fault ≠ .none ∧ x.Stopped ∧ s' = s) ∨ (fault = .none ∧ f () (effect s) = (x, s')) := by
  cases fault with
  | none => exact .inr ⟨rfl, h⟩
  | error =>
    cases h
    exact .inl ⟨by simp, Exit.stopped_raised e, rfl⟩
  | kill =>
    cases h
    exact .inl ⟨by simp, Exit.stopped_killed, rfl⟩

/-- Wherever the process stops, the store it leaves is related to the one it started from. -/
def Moves (R : σ → σ → Prop) (p : Process σ ε α) : Prop :=
  ∀ s, R s (p s).2

namespace Moves

variable {R : σ → σ → Prop}

theorem pure [Std.Refl R] (a : α) : Moves R (pure a : Process σ ε α) :=
  fun s => refl_of R s

theorem raise [Std.Refl R] (e : ε) : Moves R (raise e : Process σ ε α) :=
  fun s => refl_of R s

theorem read [Std.Refl R] : Moves R (read : Process σ ε σ) :=
  fun s => refl_of R s

theorem update {effect : σ → σ} (h : ∀ s, R s (effect s))
    : Moves R (update effect : Process σ ε Unit) :=
  h

theorem attempt [Std.Refl R] {fault : Fault} {e : ε} {effect : σ → σ} (h : ∀ s, R s (effect s))
    : Moves R (attempt fault e effect : Process σ ε Unit) := by
  intro s
  cases fault with
  | none => exact h s
  | error => exact refl_of R s
  | kill => exact refl_of R s

theorem bind [IsTrans σ R] {p : Process σ ε α} {f : α → Process σ ε β} (hp : Moves R p)
    (hf : ∀ a, Moves R (f a))
    : Moves R (p >>= f) := by
  intro s
  have hfirst := hp s
  rw [bind_apply]
  split
  . next a t heq =>
    rw [heq] at hfirst
    exact trans_of R hfirst (hf a t)
  . next e t heq =>
    rw [heq] at hfirst
    exact hfirst
  . next t heq =>
    rw [heq] at hfirst
    exact hfirst

end Moves

end Process

theorem Except.bind_eq_ok {ε α β : Type} {x : Except ε α} {f : α → Except ε β} {b : β}
    : x >>= f = .ok b ↔ ∃ a, x = .ok a ∧ f a = .ok b := by
  cases x with
  | error e => simp [bind, Except.bind]
  | ok a => simp [bind, Except.bind]

theorem StateT.bind_eq_ok {σ ε α β : Type} {x : StateT σ (Except ε) α} {f : α → StateT σ (Except ε) β} {s : σ}
    {r : β × σ}
    : (x >>= f) s = .ok r ↔ ∃ a s', x s = .ok (a, s') ∧ f a s' = .ok r := by
  have hbind : (x >>= f) s = x s >>= fun p => f p.1 p.2 := rfl
  rw [hbind, Except.bind_eq_ok]
  exact Prod.exists

theorem Except.length_of_mapM {ε α β : Type} {f : α → Except ε β} {as : List α} {bs : List β}
    (h : as.mapM f = .ok bs)
    : bs.length = as.length := by
  induction as generalizing bs with
  | nil =>
    cases h
    rfl
  | cons a as ih =>
    rw [List.mapM_cons] at h
    rcases Except.bind_eq_ok.mp h with ⟨b, _, h⟩
    rcases Except.bind_eq_ok.mp h with ⟨bs', hbs, h⟩
    cases h
    rw [List.length_cons, List.length_cons, ih hbs]

theorem Except.getElem?_of_mapM {ε α β : Type} {f : α → Except ε β} {as : List α} {bs : List β}
    (h : as.mapM f = .ok bs) {i : Nat} {a : α} (ha : as[i]? = some a)
    : ∃ b, bs[i]? = some b ∧ f a = .ok b := by
  induction as generalizing bs i with
  | nil => cases ha
  | cons a' as ih =>
    rw [List.mapM_cons] at h
    rcases Except.bind_eq_ok.mp h with ⟨b, hb, h⟩
    rcases Except.bind_eq_ok.mp h with ⟨bs', hbs, h⟩
    cases h
    cases i with
    | zero =>
      cases ha
      exact ⟨b, rfl, hb⟩
    | succ i => exact ih hbs ha

theorem Except.mapM_eq_ok_iff {ε α β : Type} {f : α → Except ε β} {as : List α} {bs : List β}
    : as.mapM f = .ok bs ↔ List.Forall₂ (fun a b => f a = .ok b) as bs := by
  induction as generalizing bs with
  | nil =>
    rw [List.forall₂_nil_left_iff]
    constructor
    . intro h
      cases h
      rfl
    . rintro rfl
      rfl
  | cons a as ih =>
    rw [List.mapM_cons, Except.bind_eq_ok]
    constructor
    . rintro ⟨b, hb, h⟩
      rcases Except.bind_eq_ok.mp h with ⟨bs', hbs, h⟩
      cases h
      exact List.Forall₂.cons hb (ih.mp hbs)
    . intro h
      rcases List.forall₂_cons_left_iff.mp h with ⟨b, bs', hb, hbs, rfl⟩
      exact ⟨b, hb, Except.bind_eq_ok.mpr ⟨bs', ih.mpr hbs, rfl⟩⟩

theorem Except.mapM_isOk_iff {ε α β : Type} {f : α → Except ε β} {as : List α}
    : (∃ bs, as.mapM f = .ok bs) ↔ ∀ a ∈ as, ∃ b, f a = .ok b := by
  induction as with
  | nil => exact ⟨fun _ _ ha => (by cases ha), fun _ => ⟨[], rfl⟩⟩
  | cons a as ih =>
    rw [List.forall_mem_cons, ← ih, List.mapM_cons]
    constructor
    . rintro ⟨_, h⟩
      rcases Except.bind_eq_ok.mp h with ⟨b, hb, h⟩
      rcases Except.bind_eq_ok.mp h with ⟨bs, hbs, _⟩
      exact ⟨⟨b, hb⟩, bs, hbs⟩
    . rintro ⟨⟨b, hb⟩, bs, hbs⟩
      rw [hb, hbs]
      exact ⟨b :: bs, rfl⟩

theorem Except.mapM_eq_map {ε α β : Type} {f : α → Except ε β} {g : α → β} {as : List α}
    (h : ∀ a ∈ as, f a = .ok (g a))
    : as.mapM f = .ok (as.map g) := by
  induction as with
  | nil => rfl
  | cons a as ih =>
    rw [List.forall_mem_cons] at h
    rw [List.mapM_cons, h.1, ih h.2]
    rfl

/-- Every error of the computation meets `P`. -/
def Except.Raises {ε α : Type} (P : ε → Prop) (x : Except ε α) : Prop :=
  ∀ e, x = .error e → P e

namespace Except.Raises

variable {ε α β : Type} {P : ε → Prop}

theorem ok (a : α) : Except.Raises P (.ok a) :=
  fun _ h => by cases h

theorem error {e : ε} (h : P e) : Except.Raises P (.error e : Except ε α) := by
  intro e' heq
  cases heq
  exact h

theorem bind {x : Except ε α} {f : α → Except ε β} (hx : Except.Raises P x) (hf : ∀ a, Except.Raises P (f a))
    : Except.Raises P (x >>= f) := by
  intro e he
  cases x with
  | error e' =>
    cases he
    exact hx e rfl
  | ok a => exact hf a e he

theorem mapM {f : α → Except ε β} (hf : ∀ a, Except.Raises P (f a)) (as : List α)
    : Except.Raises P (as.mapM f) := by
  induction as with
  | nil => exact .ok []
  | cons a as ih =>
    rw [List.mapM_cons]
    exact .bind (hf a) fun b => .bind ih fun bs => .ok (b :: bs)

end Except.Raises
