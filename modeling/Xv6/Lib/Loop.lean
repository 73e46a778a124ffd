import Mathlib.Data.List.ProdSigma

/-!
# Counted Loops

A `for` loop from zero, whose body may stop the program. Two rules carry every argument about
one: what the body keeps the loop keeps, and a body that takes what holds before round `i`
to what holds before round `i + 1`, without stopping, takes the loop to its end.

## Theorems

* `Loop.upto_keeps`, `Loop.upto_reaches`, `Loop.upto_congr`
-/

namespace Xv6.Loop

variable {ε σ : Type*} {n : Nat} {body : Nat → σ → Except ε σ} {s s' : σ}

/-- The body for `0`, `1`, ..., `n - 1`, as long as it does not stop. -/
def upto : Nat → (Nat → σ → Except ε σ) → σ → Except ε σ
  | 0, _, s => .ok s
  | n + 1, body, s => match upto n body s with
    | .error e => .error e
    | .ok s => body n s

variable {J : Nat → σ → Prop} {I : σ → Prop} {α : Type*}

/-- What holds before every round, taken from one to the next, holds at the end. -/
theorem upto_tracks (hs : upto n body s = .ok s') (h : J 0 s)
    (hbody : ∀ i < n, ∀ t t', J i t → body i t = .ok t' → J (i + 1) t') : J n s' := by
  induction n generalizing s' with
  | zero =>
    cases hs
    exact h
  | succ n ih =>
    rw [upto] at hs
    split at hs
    · cases hs
    next t ht =>
      have hprev : J n t := ih ht fun i hi => hbody i (by omega)
      exact hbody n (by omega) t s' hprev hs

theorem upto_keeps (hs : upto n body s = .ok s') (h : I s)
    (hbody : ∀ i < n, ∀ t t', I t → body i t = .ok t' → I t') : I s' :=
  upto_tracks (J := fun _ => I) hs h hbody

theorem upto_reaches (h : J 0 s)
    (hbody : ∀ i < n, ∀ t, J i t → ∃ t', body i t = .ok t' ∧ J (i + 1) t') :
    ∃ t, upto n body s = .ok t ∧ J n t := by
  induction n with
  | zero => exact ⟨s, rfl, h⟩
  | succ n ih =>
    obtain ⟨t, ht, hJ⟩ := ih fun i hi => hbody i (by omega)
    obtain ⟨t', ht', hJ'⟩ := hbody n (by omega) t hJ
    refine ⟨t', ?_, hJ'⟩
    rw [upto, ht]
    exact ht'

/-- A loop may be read with another body where an invariant makes them the same. -/
theorem upto_congr {body' : Nat → σ → Except ε σ} (h : I s)
    (heq : ∀ i < n, ∀ t, I t → body i t = body' i t)
    (hkeep : ∀ i < n, ∀ t t', I t → body' i t = .ok t' → I t') :
    upto n body s = upto n body' s := by
  induction n with
  | zero => rfl
  | succ n ih =>
    have hprev := ih (fun i hi => heq i (by omega)) fun i hi => hkeep i (by omega)
    rw [upto, upto, hprev]
    split
    · rfl
    next t ht => exact heq n (by omega) t (upto_keeps ht h fun i hi => hkeep i (by omega))

theorem upto_eq_foldlM : upto n body s = (List.range n).foldlM (fun s i => body i s) s := by
  induction n with
  | zero => rfl
  | succ n ih =>
    rw [upto, ih, List.range_succ, List.foldlM_append]
    cases (List.range n).foldlM (fun s i => body i s) s with
    | error e => rfl
    | ok t => exact (bind_pure (body n t)).symm

theorem foldlM_product {β : Type*} {f : σ → α × β → Except ε σ} (l : List α) (l' : List β) (s : σ) :
    (l ×ˢ l').foldlM f s = l.foldlM (fun s a => l'.foldlM (fun s b => f s (a, b)) s) s := by
  induction l generalizing s with
  | nil => rfl
  | cons a l ih =>
    rw [List.foldlM_cons, List.product_cons, List.foldlM_append, List.foldlM_map]
    exact bind_congr fun t => ih t

theorem foldlM_congr {f f' : σ → α → Except ε σ} {l : List α} (h : I s)
    (heq : ∀ a t, I t → f t a = f' t a) (hkeep : ∀ a t t', I t → f t a = .ok t' → I t') :
    l.foldlM f s = l.foldlM f' s := by
  induction l generalizing s with
  | nil => rfl
  | cons a l ih =>
    rw [List.foldlM_cons, List.foldlM_cons, ← heq a s h]
    cases hf : f s a with
    | error e => rfl
    | ok t => exact ih (hkeep a s t h hf)

theorem upto_upto {m : Nat} {f : Nat → Nat → σ → Except ε σ} : upto n (fun i => upto m (f i)) s =
      (List.range n ×ˢ List.range m).foldlM (fun s c => f c.1 c.2 s) s := by
  rw [upto_eq_foldlM, foldlM_product]
  exact congrArg (List.foldlM · s (List.range n)) (funext fun t => funext fun i => upto_eq_foldlM)

end Xv6.Loop
