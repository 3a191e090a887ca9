import Mathlib.Data.Set.Basic

/-!
This module contains programs that write to a disk and change the memory of their process, where losing power at any
of their writes leaves the disk and takes the memory.
-/

/-- What becomes of a program: how it ends, and the disks that losing power on the way can leave. -/
structure Outcome (δ μ ε α : Type) where
  cuts : Set δ
  exit : Except ε α
  disk : δ
  mem : μ

def Durable (δ μ ε α : Type) : Type :=
  δ → μ → Outcome δ μ ε α

namespace Durable

variable {δ μ ε α β : Type}

instance : Monad (Durable δ μ ε) where
  pure a := fun d m => ⟨∅, .ok a, d, m⟩
  bind p f := fun d m =>
    let o := p d m
    match o.exit with
    | .error e => ⟨o.cuts, .error e, o.disk, o.mem⟩
    | .ok a =>
      let o' := f a o.disk o.mem
      ⟨o.cuts ∪ o'.cuts, o'.exit, o'.disk, o'.mem⟩

def raise (e : ε) : Durable δ μ ε α :=
  fun d m => ⟨∅, .error e, d, m⟩

def ofExcept : Except ε α → Durable δ μ ε α
  | .ok a => pure a
  | .error e => raise e

def getDisk : Durable δ μ ε δ :=
  fun d m => ⟨∅, .ok d, d, m⟩

def getMem : Durable δ μ ε μ :=
  fun d m => ⟨∅, .ok m, d, m⟩

def modifyMem (f : μ → μ) : Durable δ μ ε Unit :=
  fun d m => ⟨∅, .ok (), d, f m⟩

/-- A write: losing power at it leaves the disk before it, after it, or one of the disks `partly`. -/
def write (partly : δ → Set δ) (effect : δ → δ) : Durable δ μ ε Unit :=
  fun d m => ⟨{d, effect d} ∪ partly d, .ok (), effect d, m⟩

/-- A write that is made whole or not at all. -/
def writeAtomic (effect : δ → δ) : Durable δ μ ε Unit :=
  write (fun _ => ∅) effect

theorem bind_of_ok {p : Durable δ μ ε α} {f : α → Durable δ μ ε β} {d : δ} {m : μ} {a : α} (h : (p d m).exit = .ok a)
    : (p >>= f) d m =
        ⟨(p d m).cuts ∪ (f a (p d m).disk (p d m).mem).cuts, (f a (p d m).disk (p d m).mem).exit,
          (f a (p d m).disk (p d m).mem).disk, (f a (p d m).disk (p d m).mem).mem⟩ := by
  show (match (p d m).exit with
    | .error e => _
    | .ok a => _) = _
  rw [h]

theorem bind_of_error {p : Durable δ μ ε α} {f : α → Durable δ μ ε β} {d : δ} {m : μ} {e : ε}
    (h : (p d m).exit = .error e)
    : (p >>= f) d m = ⟨(p d m).cuts, .error e, (p d m).disk, (p d m).mem⟩ := by
  show (match (p d m).exit with
    | .error e => _
    | .ok a => _) = _
  rw [h]

theorem bind_assoc {γ : Type} (p : Durable δ μ ε α) (f : α → Durable δ μ ε β) (g : β → Durable δ μ ε γ)
    : (p >>= f) >>= g = p >>= fun a => f a >>= g := by
  funext d m
  cases hexit : (p d m).exit with
  | error e =>
    have hleft : (p >>= f) d m = ⟨(p d m).cuts, .error e, (p d m).disk, (p d m).mem⟩ := bind_of_error hexit
    rw [bind_of_error hexit, bind_of_error (e := e) (by rw [hleft]), hleft]
  | ok a =>
    have hleft := bind_of_ok (f := f) hexit
    have hright := bind_of_ok (f := fun a => f a >>= g) hexit
    rw [hright]
    cases hexit' : (f a (p d m).disk (p d m).mem).exit with
    | error e =>
      rw [bind_of_error (e := e) (by rw [hleft]; exact hexit'), hleft, bind_of_error hexit']
    | ok b =>
      rw [bind_of_ok (a := b) (by rw [hleft]; exact hexit'), hleft, bind_of_ok hexit', Set.union_assoc]

/--
The program returns, `Q` holds of what it returns, the disk and the memory then, and `C` of every disk that losing
power can leave.
-/
def Wp (p : Durable δ μ ε α) (C : δ → Prop) (Q : α → δ → μ → Prop) (d : δ) (m : μ) : Prop :=
  (∀ x ∈ (p d m).cuts, C x) ∧ ∃ a, (p d m).exit = .ok a ∧ Q a (p d m).disk (p d m).mem

namespace Wp

variable {C C' : δ → Prop} {Q Q' : α → δ → μ → Prop} {R : β → δ → μ → Prop} {d : δ} {m : μ}

theorem pure {a : α} (h : Q a d m)
    : Wp (pure a : Durable δ μ ε α) C Q d m :=
  ⟨fun _ hx => hx.elim, a, rfl, h⟩

theorem bind {p : Durable δ μ ε α} {f : α → Durable δ μ ε β} (h : Wp p C (fun a d m => Wp (f a) C R d m) d m)
    : Wp (p >>= f) C R d m := by
  rcases h with ⟨hcuts, a, hexit, hcuts', b, hexit', hR⟩
  rw [Wp, bind_of_ok hexit]
  refine ⟨fun x hx => ?_, b, hexit', hR⟩
  rcases hx with hx | hx
  . exact hcuts x hx
  . exact hcuts' x hx

theorem mono {p : Durable δ μ ε α} (h : Wp p C Q d m) (hC : ∀ x, C x → C' x) (hQ : ∀ a d m, Q a d m → Q' a d m)
    : Wp p C' Q' d m := by
  rcases h with ⟨hcuts, a, hexit, hpost⟩
  exact ⟨fun x hx => hC x (hcuts x hx), a, hexit, hQ _ _ _ hpost⟩

theorem ofExcept {x : Except ε α} {a : α} (hx : x = .ok a) (h : Q a d m)
    : Wp (ofExcept x : Durable δ μ ε α) C Q d m := by
  rw [hx]
  exact pure h

theorem getDisk {Q : δ → δ → μ → Prop} (h : Q d d m)
    : Wp (getDisk : Durable δ μ ε δ) C Q d m :=
  ⟨fun _ hx => hx.elim, d, rfl, h⟩

theorem getMem {Q : μ → δ → μ → Prop} (h : Q m d m)
    : Wp (getMem : Durable δ μ ε μ) C Q d m :=
  ⟨fun _ hx => hx.elim, m, rfl, h⟩

theorem modifyMem {f : μ → μ} {Q : Unit → δ → μ → Prop} (h : Q () d (f m))
    : Wp (modifyMem f : Durable δ μ ε Unit) C Q d m :=
  ⟨fun _ hx => hx.elim, (), rfl, h⟩

theorem write {partly : δ → Set δ} {effect : δ → δ} {Q : Unit → δ → μ → Prop} (hold : C d) (hnew : C (effect d))
    (hpartly : ∀ x ∈ partly d, C x) (h : Q () (effect d) m)
    : Wp (write partly effect : Durable δ μ ε Unit) C Q d m := by
  refine ⟨fun x hx => ?_, (), rfl, h⟩
  rcases hx with (rfl | rfl) | hx
  . exact hold
  . exact hnew
  . exact hpartly x hx

theorem writeAtomic {effect : δ → δ} {Q : Unit → δ → μ → Prop} (hold : C d) (hnew : C (effect d))
    (h : Q () (effect d) m)
    : Wp (writeAtomic effect : Durable δ μ ε Unit) C Q d m :=
  write hold hnew (fun _ hx => hx.elim) h

end Wp

/- What a program leaves alone, however it ends. -/

/-- The program keeps a part of the disk, also where power is lost, and a part of the memory. -/
def Frames {γ γ' : Type} (f : δ → γ) (g : μ → γ') (p : Durable δ μ ε α) : Prop :=
  ∀ d m, (∀ x ∈ (p d m).cuts, f x = f d) ∧ f (p d m).disk = f d ∧ g (p d m).mem = g m

namespace Frames

variable {γ γ' : Type} {f : δ → γ} {g : μ → γ'}

theorem pure (a : α) : Frames f g (pure a : Durable δ μ ε α) :=
  fun _ _ => ⟨fun _ hx => hx.elim, rfl, rfl⟩

theorem raise (e : ε) : Frames f g (raise e : Durable δ μ ε α) :=
  fun _ _ => ⟨fun _ hx => hx.elim, rfl, rfl⟩

theorem ofExcept (x : Except ε α) : Frames f g (ofExcept x : Durable δ μ ε α) := by
  cases x with
  | ok a => apply Frames.pure
  | error e => apply Frames.raise

theorem getDisk : Frames f g (getDisk : Durable δ μ ε δ) :=
  fun _ _ => ⟨fun _ hx => hx.elim, rfl, rfl⟩

theorem getMem : Frames f g (getMem : Durable δ μ ε μ) :=
  fun _ _ => ⟨fun _ hx => hx.elim, rfl, rfl⟩

theorem modifyMem {change : μ → μ} (h : ∀ m, g (change m) = g m)
    : Frames f g (modifyMem change : Durable δ μ ε Unit) :=
  fun _ m => ⟨fun _ hx => hx.elim, rfl, h m⟩

theorem write {partly : δ → Set δ} {effect : δ → δ} (heffect : ∀ d, f (effect d) = f d)
    (hpartly : ∀ d, ∀ x ∈ partly d, f x = f d)
    : Frames f g (write partly effect : Durable δ μ ε Unit) := by
  intro d m
  refine ⟨fun x hx => ?_, heffect d, rfl⟩
  rcases hx with (rfl | rfl) | hx
  . rfl
  . apply heffect
  . apply hpartly d x hx

theorem writeAtomic {effect : δ → δ} (heffect : ∀ d, f (effect d) = f d)
    : Frames f g (writeAtomic effect : Durable δ μ ε Unit) :=
  write heffect fun _ _ hx => hx.elim

theorem bind {p : Durable δ μ ε α} {q : α → Durable δ μ ε β} (hp : Frames f g p) (hq : ∀ a, Frames f g (q a))
    : Frames f g (p >>= q) := by
  intro d m
  have ⟨hcuts, hdisk, hmem⟩ := hp d m
  cases hexit : (p d m).exit with
  | error e =>
    rw [bind_of_error hexit]
    exact ⟨hcuts, hdisk, hmem⟩
  | ok a =>
    have ⟨hcuts', hdisk', hmem'⟩ := hq a (p d m).disk (p d m).mem
    rw [bind_of_ok hexit]
    refine ⟨fun x hx => ?_, hdisk'.trans hdisk, hmem'.trans hmem⟩
    rcases hx with hx | hx
    . apply hcuts x hx
    . apply (hcuts' x hx).trans hdisk

theorem disk {p : Durable δ μ ε α} (h : Frames f g p) : Frames f (fun _ => ()) p :=
  fun d m => ⟨(h d m).1, (h d m).2.1, rfl⟩

end Frames

/- What holds where a program returns. -/

/-- `Q` holds of what the program returns, the disk and the memory then, if it returns. -/
def Returns (p : Durable δ μ ε α) (Q : α → δ → μ → Prop) (d : δ) (m : μ) : Prop :=
  ∀ a, (p d m).exit = .ok a → Q a (p d m).disk (p d m).mem

namespace Returns

variable {Q : α → δ → μ → Prop} {d : δ} {m : μ}

theorem bind {p : Durable δ μ ε α} {q : α → Durable δ μ ε β} {R : β → δ → μ → Prop}
    (h : Returns p (fun a d m => Returns (q a) R d m) d m)
    : Returns (p >>= q) R d m := by
  intro b hb
  cases hexit : (p d m).exit with
  | error e =>
    rw [bind_of_error hexit] at hb
    cases hb
  | ok a =>
    rw [bind_of_ok hexit] at hb ⊢
    apply h a hexit b hb

theorem ofExcept {x : Except ε α} (h : ∀ a, x = .ok a → Q a d m) : Returns (ofExcept x) Q d m := by
  intro a ha
  cases x with
  | error e => cases ha
  | ok b =>
    cases ha
    apply h a rfl

theorem modifyMem {change : μ → μ} {R : Unit → δ → μ → Prop} (h : R () d (change m))
    : Returns (modifyMem change : Durable δ μ ε Unit) R d m := by
  intro a ha
  apply h

/-- What a program leaves alone is still there in what follows it. -/
theorem bind_frames {γ γ' : Type} {f : δ → γ} {g : μ → γ'} {p : Durable δ μ ε α} {q : α → Durable δ μ ε β}
    {R : β → δ → μ → Prop} (hp : Frames f g p)
    (hq : ∀ a d' m', f d' = f d → g m' = g m → Returns (q a) R d' m')
    : Returns (p >>= q) R d m :=
  bind fun a _ => hq a _ _ (hp d m).2.1 (hp d m).2.2

end Returns

/- What a program leaves, whether it returns or raises. -/

/--
`Q` holds of what the program returns and `E` where it raises, of the disk and the memory then, and `C` of every disk
that losing power can leave.
-/
def Spec (p : Durable δ μ ε α) (C : δ → Prop) (Q : α → δ → μ → Prop) (E : δ → μ → Prop) (d : δ) (m : μ) : Prop :=
  (∀ x ∈ (p d m).cuts, C x) ∧
    match (p d m).exit with
    | .ok a => Q a (p d m).disk (p d m).mem
    | .error _ => E (p d m).disk (p d m).mem

namespace Spec

variable {C : δ → Prop} {Q Q' : α → δ → μ → Prop} {R : β → δ → μ → Prop} {E E' : δ → μ → Prop} {d : δ} {m : μ}

theorem of_wp {p : Durable δ μ ε α} (h : Wp p C Q d m) : Spec p C Q E d m := by
  rcases h with ⟨hcuts, a, hexit, hpost⟩
  rw [Spec, hexit]
  exact ⟨hcuts, hpost⟩

theorem mono {p : Durable δ μ ε α} (h : Spec p C Q E d m) (hQ : ∀ a d m, Q a d m → Q' a d m)
    (hE : ∀ d m, E d m → E' d m)
    : Spec p C Q' E' d m := by
  rcases h with ⟨hcuts, hpost⟩
  refine ⟨hcuts, ?_⟩
  cases hexit : (p d m).exit with
  | ok a =>
    rw [hexit] at hpost
    apply hQ _ _ _ hpost
  | error e =>
    rw [hexit] at hpost
    apply hE _ _ hpost

theorem weaken {C' : δ → Prop} {p : Durable δ μ ε α} (h : Spec p C Q E d m) (hC : ∀ x, C x → C' x) : Spec p C' Q E d m :=
  ⟨fun x hx => hC x (h.1 x hx), h.2⟩

theorem pure {a : α} (h : Q a d m) : Spec (pure a : Durable δ μ ε α) C Q E d m :=
  of_wp (.pure h)

theorem raise {e : ε} (h : E d m) : Spec (raise e : Durable δ μ ε α) C Q E d m :=
  ⟨fun _ hx => hx.elim, h⟩

theorem ofExcept {x : Except ε α} (hok : ∀ a, x = .ok a → Q a d m) (herror : E d m)
    : Spec (ofExcept x : Durable δ μ ε α) C Q E d m := by
  cases x with
  | ok a => apply Spec.pure (hok a rfl)
  | error e => apply Spec.raise herror

theorem bind {p : Durable δ μ ε α} {f : α → Durable δ μ ε β} (h : Spec p C (fun a d m => Spec (f a) C R E d m) E d m)
    : Spec (p >>= f) C R E d m := by
  rcases h with ⟨hcuts, hpost⟩
  cases hexit : (p d m).exit with
  | error e =>
    rw [hexit] at hpost
    rw [Spec, bind_of_error hexit]
    exact ⟨hcuts, hpost⟩
  | ok a =>
    rw [hexit] at hpost
    rw [Spec, bind_of_ok hexit]
    refine ⟨fun x hx => ?_, hpost.2⟩
    rcases hx with hx | hx
    . apply hcuts x hx
    . apply hpost.1 x hx

/-- What a program leaves alone is still there in what follows it. -/
theorem of_frames {γ γ' : Type} {f : δ → γ} {g : μ → γ'} {p : Durable δ μ ε α} (h : Frames f g p)
    (hC : ∀ x, f x = f d → C x) (hQ : ∀ a d' m', f d' = f d → g m' = g m → Q a d' m')
    (hE : ∀ d' m', f d' = f d → g m' = g m → E d' m')
    : Spec p C Q E d m := by
  have ⟨hcuts, hdisk, hmem⟩ := h d m
  refine ⟨fun x hx => hC x (hcuts x hx), ?_⟩
  split
  . apply hQ _ _ _ hdisk hmem
  . apply hE _ _ hdisk hmem

end Spec

end Durable
