import Mathlib.Data.Nat.ModEq

/-!
# Little-Endian Numbers in a Byte Sequence

A number laid out in bytes, least significant first, inside a sequence that
holds other things as well. The sequence is a function from positions to bytes,
so a layout is a set of positions and the frame facts are about positions too.

## Theorems

* `Bytes.le_congr`, `Bytes.le_digits`
-/

namespace Xv6.Bytes

/-- The number stored in the `n` bytes from position `o`. -/
def le (f : Nat → UInt8) (o : Nat) : Nat → Nat
  | 0 => 0
  | n + 1 => (f o).toNat + 256 * le f (o + 1) n

/-- Byte `k` of the number `v`. -/
def digit (v k : Nat) : UInt8 := UInt8.ofNat (v / 256 ^ k)

theorem toNat_digit (v k : Nat) : (digit v k).toNat = v / 256 ^ k % 256 := rfl

variable {f : Nat → UInt8} {o n v : Nat}

theorem le_congr {g : Nat → UInt8} (h : ∀ k < n, f (o + k) = g (o + k)) :
    le f o n = le g o n := by
  induction n generalizing o with
  | zero => rfl
  | succ n ih =>
    have hhead : f o = g o := h 0 (Nat.succ_pos n)
    have htail : le f (o + 1) n = le g (o + 1) n := by
      refine ih fun k hk => ?_
      have := h (k + 1) (Nat.succ_lt_succ hk)
      rwa [Nat.add_right_comm, Nat.add_assoc]
    simp only [le, hhead, htail]

/-- Bytes that hold the digits of `v` from `k` on spell `v` without its first
    `k` digits, cut to their number. -/
theorem le_digits_from {k : Nat}
    (h : ∀ j < n, f (o + j) = digit v (k + j)) : le f o n = v / 256 ^ k % 256 ^ n := by
  induction n generalizing o k with
  | zero => rw [Nat.pow_zero, Nat.mod_one]; rfl
  | succ n ih =>
    have hhead : f o = digit v k := h 0 (Nat.succ_pos n)
    have htail : le f (o + 1) n = v / 256 ^ (k + 1) % 256 ^ n := by
      refine ih fun j hj => ?_
      have := h (j + 1) (Nat.succ_lt_succ hj)
      rw [Nat.add_right_comm, Nat.add_assoc, this, Nat.add_right_comm k 1 j, Nat.add_assoc]
    rw [le, hhead, htail, toNat_digit, Nat.pow_succ 256 k, ← Nat.div_div_eq_div_mul,
      Nat.pow_succ' (m := 256), Nat.mod_mul]

theorem le_digits (h : ∀ j < n, f (o + j) = digit v j) :
    le f o n = v % 256 ^ n := by
  have := le_digits_from (k := 0) (v := v) (f := f) (o := o) (n := n) fun j hj => by
    rw [Nat.zero_add]
    exact h j hj
  rwa [Nat.pow_zero, Nat.div_one] at this

end Xv6.Bytes
