import Mathlib.Data.Finset.Card

/-!
# Counting References

How many of a set of holders point to a thing, and what happens to the number when one holder
points elsewhere.

## Theorems

* `count_update`
-/

namespace Xv6

variable {P A : Type} [DecidableEq P] [DecidableEq A]

/-- How many of `S` point to `i` by `f`. -/
def count (f : P → Option A) (S : Finset P) (i : A) : Nat :=
  (S.filter fun q => f q = some i).card

variable {f : P → Option A} {S : Finset P} {q : P}

theorem count_erase (hq : q ∈ S) (i : A) :
    count f S i = count f (S.erase q) i + if f q = some i then 1 else 0 := by
  unfold count
  rw [Finset.filter_erase]
  by_cases h : f q = some i
  · rw [if_pos h, Finset.card_erase_add_one (Finset.mem_filter.mpr ⟨hq, h⟩)]
  · have hnot : q ∉ S.filter fun q => f q = some i := fun hin => h (Finset.mem_filter.mp hin).2
    rw [if_neg h, Finset.erase_eq_of_notMem hnot, Nat.add_zero]

omit [DecidableEq P] in
theorem count_congr {g : P → Option A} (h : ∀ q ∈ S, f q = g q) (i : A) :
    count f S i = count g S i := by
  unfold count
  congr 1
  refine Finset.filter_congr fun q hq => ?_
  rw [h q hq]

theorem count_update_of_notMem (hq : q ∉ S) (x : Option A) (i : A) :
    count (Function.update f q x) S i = count f S i := by
  refine count_congr (fun r hr => ?_) i
  have hrq : r ≠ q := fun h => hq (h ▸ hr)
  rw [Function.update_of_ne hrq]

theorem count_update (hq : q ∈ S) (x : Option A) (i : A) :
    count (Function.update f q x) S i + (if f q = some i then 1 else 0) =
      count f S i + if x = some i then 1 else 0 := by
  rw [count_erase hq, count_erase (f := f) hq, count_update_of_notMem (Finset.notMem_erase q S),
    Function.update_self]
  omega

end Xv6
