import Mathlib.Logic.Basic

/-!
# Computations Side by Side

Two computations that may stop agree when both stop for the same reason, or both return, with
results that are related. Agreement goes through sequencing, so a function on concrete data can be
compared with one on abstract data line by line.

## Theorems

* `Agree.bind`, `bind_ok`
-/

namespace Xv6

variable {E A B A' B' : Type} {r : A → B → Prop} {r' : A' → B' → Prop}

/-- Both stop for the same reason, or both return related results. -/
def Agree (r : A → B → Prop) : Except E A → Except E B → Prop
  | .ok a, .ok b => r a b
  | .error e, .error e' => e = e'
  | _, _ => False

namespace Agree

variable {x : Except E A} {y : Except E B}

theorem bind {f : A → Except E A'} {g : B → Except E B'} (h : Agree r x y)
    (hf : ∀ a b, y = .ok b → r a b → Agree r' (f a) (g b)) : Agree r' (x >>= f) (y >>= g) := by
  cases x with
  | error e =>
    cases y with
    | error e' => exact h
    | ok b => exact h.elim
  | ok a =>
    cases y with
    | error e' => exact h.elim
    | ok b => exact hf a b rfl h

theorem ok_left {a : A} (h : Agree r x y) (hx : x = .ok a) : ∃ b, y = .ok b ∧ r a b := by
  subst hx
  cases y with
  | error e => exact h.elim
  | ok b => exact ⟨b, rfl, h⟩

theorem ok_right {b : B} (h : Agree r x y) (hy : y = .ok b) : ∃ a, x = .ok a ∧ r a b := by
  subst hy
  cases x with
  | error e => exact h.elim
  | ok a => exact ⟨a, rfl, h⟩

theorem error_left {e : E} (h : Agree r x y) (hx : x = .error e) : y = .error e := by
  subst hx
  cases y with
  | error e' => exact congrArg _ h.symm
  | ok b => exact h.elim

end Agree

/-- A sequence returns what its second part does, after its first has returned. -/
theorem bind_ok {x : Except E A} {f : A → Except E B} {b : B} (h : (x >>= f) = .ok b) :
    ∃ a, x = .ok a ∧ f a = .ok b := by
  cases x with
  | error e => cases h
  | ok a => exact ⟨a, rfl, h⟩

theorem exists_of_run {r : Option (Except E A)} {P : A → Prop} [DecidablePred P]
    (h : (match r with
      | some (.ok u) => decide (P u)
      | _ => false) = true) : ∃ u, r = some (.ok u) ∧ P u := by
  split at h
  next u => exact ⟨u, rfl, of_decide_eq_true h⟩
  · cases h

theorem stops_of_run [DecidableEq E] {r : Option (Except E A)} {e : E}
    (h : (match r with
      | some (.error e') => decide (e' = e)
      | _ => false) = true) : r = some (.error e) := by
  split at h
  next => rw [of_decide_eq_true h]
  · cases h

end Xv6
