import Mathlib.Data.List.Basic

/-!
# Windows on a Ring

A ring of `N` cells with counters that are never reduced modulo `N`: a counter names the cell of
its remainder. The cells from a counter on hold a list of at most `N` items, and the other
cells hold anything. A counter that wraps at a multiple of `N` names the same cells.

## Theorems

* `Window.push`, `Window.pop`
-/

namespace Xv6

variable {α : Type} {N : Nat} {buf : Nat → α} {r : Nat} {x : α} {xs : List α}

/-- The cells from counter `r` on hold `xs`. -/
def Window (N : Nat) (buf : Nat → α) (r : Nat) (xs : List α) : Prop :=
  ∀ j (h : j < xs.length), buf ((r + j) % N) = xs[j]

namespace Window

theorem nil : Window N buf r [] := fun _ h => absurd h (Nat.not_lt_zero _)

theorem cell_ne {j k : Nat} (hjk : j < k) (hk : k < j + N) : (r + j) % N ≠ (r + k) % N := by
  intro he
  have hzero := Nat.sub_mod_eq_zero_of_mod_eq he.symm
  rw [Nat.mod_eq_of_lt (by omega)] at hzero
  omega

theorem push (h : Window N buf r xs) (hroom : xs.length < N) (x : α) :
    Window N (Function.update buf ((r + xs.length) % N) x) r (xs ++ [x]) := by
  intro j hj
  by_cases hlast : j = xs.length
  · subst hlast
    rw [Function.update_self, List.getElem_concat_length rfl]
  · have hlt : j < xs.length := by
      rw [List.length_append, List.length_singleton] at hj
      omega
    rw [Function.update_of_ne (cell_ne hlt (by omega)), List.getElem_append_left hlt]
    exact h j hlt

theorem pop (h : Window N buf r (x :: xs)) : buf (r % N) = x ∧ Window N buf (r + 1) xs := by
  constructor
  · exact h 0 (Nat.succ_pos _)
  · intro j hj
    have hnext := h (j + 1) (by rw [List.length_cons]; omega)
    rw [show r + 1 + j = r + (j + 1) by omega]
    exact hnext

theorem unpush (h : Window N buf r (xs ++ [x])) :
    buf ((r + xs.length) % N) = x ∧ Window N buf r xs := by
  constructor
  · have hlast := h xs.length (by rw [List.length_append]; exact Nat.lt_succ_self _)
    rw [List.getElem_concat_length rfl] at hlast
    exact hlast
  · intro j hj
    have hj' := h j (by rw [List.length_append]; omega)
    rw [List.getElem_append_left hj] at hj'
    exact hj'

theorem mod {M : Nat} (hN : N ∣ M) (h : Window N buf r xs) : Window N buf (r % M) xs := by
  intro j hj
  have hsame : (r % M + j) % N = (r + j) % N := by
    rw [Nat.add_mod, Nat.mod_mod_of_dvd _ hN, ← Nat.add_mod]
  rw [hsame]
  exact h j hj

end Window

end Xv6
