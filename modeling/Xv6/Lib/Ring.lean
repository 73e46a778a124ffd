import Mathlib.Data.List.Basic

/-!
# Rings with a Front and a Back

A queue in an array of `N` slots, given by the slot of its oldest item and the first free
slot. One slot stays free, so that the two are equal only when the queue is empty.

The contents are the slots walked from the front. Everything that is known about places is
known by walking at most once round, which is what the first lemmas are for. After them the
array is a list: storing at the back appends, advancing the front drops the head.

## Theorems

* `Ring.items_push`, `Ring.items_pop`
-/

namespace Xv6.Ring

variable {α : Type} {N front back n : Nat} {buf : Nat → α}

/-- The slot after `x`. -/
def next (N x : Nat) : Nat := (x + 1) % N

/-- How many slots there are from `front` up to `back`. -/
def used (N front back : Nat) : Nat := if front ≤ back then back - front else back + N - front

/-- `n` items from `front` on, oldest first. -/
def items (N : Nat) (buf : Nat → α) : Nat → Nat → List α
  | _, 0 => []
  | front, n + 1 => buf front :: items N buf (next N front) n

theorem next_lt (h : 0 < N) (x : Nat) : next N x < N := Nat.mod_lt _ h

variable {x : Nat}

theorem next_of_lt (h : x + 1 < N) : next N x = x + 1 := Nat.mod_eq_of_lt h

theorem next_last (h : x + 1 = N) : next N x = 0 := by
  unfold next
  rw [h, Nat.mod_self]

theorem next_cases (h : x < N) :
    x + 1 < N ∧ next N x = x + 1 ∨ x + 1 = N ∧ next N x = 0 := by
  by_cases hx : x + 1 < N
  · exact Or.inl ⟨hx, next_of_lt hx⟩
  · have hlast : x + 1 = N := by omega
    exact Or.inr ⟨hlast, next_last hlast⟩

theorem used_self : used N front front = 0 := by
  unfold used
  rw [if_pos (Nat.le_refl front), Nat.sub_self]

theorem used_pos (hf : front < N) (hne : front ≠ back) : 0 < used N front back := by
  unfold used
  split <;> omega

/-- A back that does not reach the front has one more slot in use behind it. -/
theorem used_next_back (hf : front < N) (hb : back < N) (hne : front ≠ next N back) :
    used N front (next N back) = used N front back + 1 := by
  unfold used
  rcases next_cases hb with ⟨hlt, hnext⟩ | ⟨hlast, hnext⟩
  · rw [hnext] at hne ⊢
    split <;> split <;> omega
  · rw [hnext] at hne ⊢
    split <;> split <;> omega

theorem used_next_front (hf : front < N) (hb : back < N) (hne : front ≠ back) :
    used N (next N front) back + 1 = used N front back := by
  unfold used
  rcases next_cases hf with ⟨hlt, hnext⟩ | ⟨hlast, hnext⟩
  · rw [hnext]
    split <;> split <;> omega
  · rw [hnext]
    split <;> split <;> omega

theorem next_back_eq_front_iff (hf : front < N) (hb : back < N) :
    front = next N back ↔ used N front back + 1 = N := by
  unfold used
  rcases next_cases hb with ⟨hlt, hnext⟩ | ⟨hlast, hnext⟩
  · rw [hnext]
    split <;> omega
  · rw [hnext]
    split <;> omega

theorem used_next_self (hf : front < N) : used N (next N front) front + 1 = N := by
  unfold used
  rcases next_cases hf with ⟨hlt, hnext⟩ | ⟨hlast, hnext⟩
  · rw [hnext]
    split <;> omega
  · rw [hnext]
    split <;> omega

@[simp]
theorem length_items : (items N buf front n).length = n := by
  induction n generalizing front with
  | zero => rfl
  | succ n ih => exact congrArg (· + 1) ih

theorem items_update (hf : front < N) (hb : back < N) (hn : n ≤ used N front back) (x : α) :
    items N (Function.update buf back x) front n = items N buf front n := by
  induction n generalizing front with
  | zero => rfl
  | succ n ih =>
    have hne : front ≠ back := by
      rintro rfl
      rw [used_self] at hn
      omega
    have hused := used_next_front hf hb hne
    unfold items
    rw [Function.update_of_ne hne, ih (next_lt (by omega) front) (by omega)]

theorem items_succ (hf : front < N) (hb : back < N) (hn : n = used N front back) :
    items N buf front (n + 1) = items N buf front n ++ [buf back] := by
  induction n generalizing front with
  | zero =>
    have hfb : front = back := by
      by_contra hne
      have := used_pos hf hne
      omega
    rw [hfb]
    rfl
  | succ n ih =>
    have hne : front ≠ back := by
      rintro rfl
      rw [used_self] at hn
      omega
    have hused := used_next_front hf hb hne
    have hlt := next_lt (by omega : 0 < N) front
    calc items N buf front (n + 1 + 1)
        = buf front :: items N buf (next N front) (n + 1) := rfl
      _ = buf front :: (items N buf (next N front) n ++ [buf back]) := by rw [ih hlt (by omega)]
      _ = items N buf front (n + 1) ++ [buf back] := rfl

theorem items_push (hf : front < N) (hb : back < N) (x : α) :
    items N (Function.update buf back x) front (used N front back + 1) =
      items N buf front (used N front back) ++ [x] := by
  rw [items_succ hf hb rfl, items_update hf hb (Nat.le_refl _), Function.update_self]

/-- Storing at the back of a full ring, whose front then has to move, appends and drops the
    oldest. -/
theorem items_push_full (hf : front < N) (hb : back < N) (hfull : front = next N back) (x : α) :
    items N (Function.update buf back x) (next N front) (used N (next N front) (next N back)) =
      (items N buf front (used N front back) ++ [x]).tail := by
  have hused : used N front back + 1 = N := (next_back_eq_front_iff hf hb).mp hfull
  have hself := used_next_self hf
  have heq : used N (next N front) (next N back) = used N front back := by
    rw [← hfull]
    omega
  rw [← items_push hf hb, heq]
  rfl

theorem items_pop (hf : front < N) (hb : back < N) (hne : front ≠ back) :
    items N buf front (used N front back) =
      buf front :: items N buf (next N front) (used N (next N front) back) := by
  rw [← used_next_front hf hb hne]
  rfl

end Xv6.Ring
