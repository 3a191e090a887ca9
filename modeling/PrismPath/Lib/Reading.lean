import Mathlib.Logic.Basic

/-!
This module contains readers: computations that look up one key of a store at a time, while others may write to it.
-/

inductive Reading (K : Type) (V : K → Type) (α : Type) where
  | done (a : α)
  | read (k : K) (next : V k → Reading K V α)

namespace Reading

variable {K : Type} {V : K → Type} {α β : Type}

def bind (f : α → Reading K V β) : Reading K V α → Reading K V β
  | done a => f a
  | read k next => read k fun v => bind f (next v)

instance : Monad (Reading K V) where
  pure := done
  bind p f := bind f p

/-- Look up one key. -/
def get (k : K) : Reading K V (V k) :=
  read k done

/-- The result over a store that nobody writes to. -/
def run (store : (k : K) → V k) : Reading K V α → α
  | done a => a
  | read k next => run store (next (store k))

/-- Whatever it finds, the computation looks up no other keys and returns no other results. -/
def Within (P : K → Prop) (Q : α → Prop) : Reading K V α → Prop
  | done a => Q a
  | read k next => P k ∧ ∀ v, Within P Q (next v)

/-- Over one store, the computation looks up no other keys. -/
def ReadsOnly (store : (k : K) → V k) (P : K → Prop) : Reading K V α → Prop
  | done _ => True
  | read k next => P k ∧ ReadsOnly store P (next (store k))

@[simp]
theorem run_pure (store : (k : K) → V k) (a : α)
    : run store (pure a : Reading K V α) = a :=
  rfl

@[simp]
theorem run_get (store : (k : K) → V k) (k : K)
    : run store (get k) = store k :=
  rfl

@[simp]
theorem run_bind (store : (k : K) → V k) (p : Reading K V α) (f : α → Reading K V β)
    : run store (p >>= f) = run store (f (run store p)) := by
  show run store (bind f p) = _
  induction p with
  | done a => rfl
  | read k next ih => exact ih (store k)

theorem within_pure {P : K → Prop} {Q : α → Prop} {a : α} (h : Q a)
    : Within P Q (pure a : Reading K V α) :=
  h

theorem within_get {P : K → Prop} {k : K} (h : P k)
    : Within P (fun _ => True) (get k : Reading K V (V k)) :=
  ⟨h, fun _ => trivial⟩

theorem Within.bind {P : K → Prop} {Q : α → Prop} {R : β → Prop} {p : Reading K V α} {f : α → Reading K V β}
    (hp : Within P Q p) (hf : ∀ a, Q a → Within P R (f a))
    : Within P R (p >>= f) := by
  show Within P R (Reading.bind f p)
  induction p with
  | done a => exact hf a hp
  | read k next ih => exact ⟨hp.1, fun v => ih v (hp.2 v)⟩

/-- A store that differs only at keys which are not looked up gives the same result. -/
theorem Within.run_congr {P : K → Prop} {Q : α → Prop} {p : Reading K V α} (h : Within P Q p) {s t : (k : K) → V k}
    (heq : ∀ k, P k → s k = t k)
    : run s p = run t p := by
  induction p with
  | done a => rfl
  | read k next ih =>
    rw [run, run, heq k h.1]
    exact ih (t k) (h.2 (t k))

theorem readsOnly_pure {store : (k : K) → V k} {P : K → Prop} (a : α)
    : ReadsOnly store P (pure a : Reading K V α) :=
  trivial

theorem readsOnly_get {store : (k : K) → V k} {P : K → Prop} {k : K} (h : P k)
    : ReadsOnly store P (get k : Reading K V (V k)) :=
  ⟨h, trivial⟩

theorem ReadsOnly.bind {store : (k : K) → V k} {P : K → Prop} {p : Reading K V α} {f : α → Reading K V β}
    (hp : ReadsOnly store P p) (hf : ReadsOnly store P (f (run store p)))
    : ReadsOnly store P (p >>= f) := by
  show ReadsOnly store P (Reading.bind f p)
  induction p with
  | done a => exact hf
  | read k next ih => exact ⟨hp.1, ih (store k) hp.2 hf⟩

end Reading
