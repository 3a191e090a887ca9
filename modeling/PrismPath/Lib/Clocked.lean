import Mathlib.Logic.Function.Iterate

/-!
This module contains clocked machines: what a machine comes to after a number of clocks, and what holds until then.
-/

namespace Clocked

variable {σ : Type} {clock : σ → σ} {P : σ → Prop} {m n : Nat} {s t u : σ}

/-- The machine is in `t` after `n` clocks, and `P` holds of every state before that. -/
structure Arrives (clock : σ → σ) (P : σ → Prop) (n : Nat) (s t : σ) : Prop where
  reached : clock^[n] s = t
  before : ∀ k < n, P (clock^[k] s)

theorem Arrives.one (hs : P s)
    : Arrives clock P 1 s (clock s) := by
  refine ⟨rfl, fun k hk => ?_⟩
  have hzero : k = 0 := by omega
  rw [hzero]
  exact hs

theorem Arrives.trans (hst : Arrives clock P m s t) (htu : Arrives clock P n t u)
    : Arrives clock P (m + n) s u := by
  have hshift (k : Nat) : clock^[m + k] s = clock^[k] t := by
    rw [Nat.add_comm, Function.iterate_add_apply, hst.reached]
  refine ⟨(hshift n).trans htu.reached, fun k hk => ?_⟩
  by_cases hlt : k < m
  . exact hst.before k hlt
  . have hsplit : k = m + (k - m) := by omega
    rw [hsplit, hshift]
    exact htu.before (k - m) (by omega)

/-- The machine comes to a state in which `P` fails for the first time once. -/
theorem Arrives.unique (hst : Arrives clock P m s t) (hsu : Arrives clock P n s u) (ht : ¬ P t) (hu : ¬ P u)
    : m = n ∧ t = u := by
  rcases Nat.lt_trichotomy m n with hlt | rfl | hlt
  . exact absurd (hst.reached ▸ hsu.before m hlt) ht
  . exact ⟨rfl, hst.reached.symm.trans hsu.reached⟩
  . exact absurd (hsu.reached ▸ hst.before n hlt) hu

section

variable {ι β : Type} (step : ι → σ → σ) (out : σ → Option β)

/-- The state after so many clocks, each with its input. -/
def state (ins : Nat → ι) (s : σ) : Nat → σ
  | 0 => s
  | n + 1 => step (ins n) (state ins s n)

/-- What comes out at so many clocks. -/
def emitted (ins : Nat → ι) (s : σ) (n : Nat) : List β :=
  (List.range n).filterMap fun k => out (state step ins s (k + 1))

theorem state_add (ins : Nat → ι) (s : σ) (m n : Nat)
    : state step ins s (m + n) = state step (fun k => ins (m + k)) (state step ins s m) n := by
  induction n with
  | zero => rfl
  | succ n ih => rw [← Nat.add_assoc, state, state, ih]

theorem emitted_add (ins : Nat → ι) (s : σ) (m n : Nat)
    : emitted step out ins s (m + n)
        = emitted step out ins s m ++ emitted step out (fun k => ins (m + k)) (state step ins s m) n := by
  unfold emitted
  rw [List.range_add, List.filterMap_append, List.filterMap_map]
  have hout : (fun k => out (state step ins s (k + 1))) ∘ (fun k => m + k)
      = fun k => out (state step (fun k => ins (m + k)) (state step ins s m) (k + 1)) := by
    funext k
    rw [Function.comp_apply, Nat.add_assoc, state_add]
  rw [hout]

/-- Whatever the inputs are, of those allowed, the machine is in `t` after `n` clocks, `bs` came out at them, and `P` holds
of every state on the way and of the last. -/
structure Goes (allowed : ι → Prop) (P : σ → Prop) (n : Nat) (s t : σ) (bs : List β) : Prop where
  reached : ∀ ins, (∀ k, allowed (ins k)) → state step ins s n = t
  emitted : ∀ ins, (∀ k, allowed (ins k)) → Clocked.emitted step out ins s n = bs
  holds : ∀ ins, (∀ k, allowed (ins k)) → ∀ k, 0 < k → k ≤ n → P (state step ins s k)

variable {step out} {allowed : ι → Prop} {bs cs : List β}

theorem Goes.refl (s : σ)
    : Goes step out allowed P 0 s s [] :=
  ⟨fun _ _ => rfl, fun _ _ => rfl, fun _ _ k hpos hle => absurd hpos (by omega)⟩

theorem Goes.one (hstep : ∀ x, allowed x → step x s = t) (ht : P t)
    : Goes step out allowed P 1 s t (out t).toList := by
  have hstate (ins : Nat → ι) (hins : ∀ k, allowed (ins k)) : state step ins s 1 = t := hstep (ins 0) (hins 0)
  refine ⟨hstate, ?_, ?_⟩
  . intro ins hins
    unfold Clocked.emitted
    rw [List.range_one, List.filterMap_cons, hstate ins hins]
    cases out t <;> rfl
  . intro ins hins k hpos hle
    have hone : k = 1 := by omega
    rw [hone, hstate ins hins]
    exact ht

theorem Goes.trans (hst : Goes step out allowed P m s t bs) (htu : Goes step out allowed P n t u cs)
    : Goes step out allowed P (m + n) s u (bs ++ cs) := by
  refine ⟨?_, ?_, ?_⟩
  . intro ins hins
    rw [state_add, hst.reached ins hins]
    exact htu.reached _ fun k => hins (m + k)
  . intro ins hins
    rw [emitted_add, hst.emitted ins hins, hst.reached ins hins]
    rw [htu.emitted _ fun k => hins (m + k)]
  . intro ins hins k hpos hle
    by_cases hk : k ≤ m
    . exact hst.holds ins hins k hpos hk
    . have hsplit : k = m + (k - m) := by omega
      rw [hsplit, state_add, hst.reached ins hins]
      exact htu.holds _ (fun k => hins (m + k)) (k - m) (by omega) (by omega)

end

end Clocked
