import Xv6.Core.Param
import Xv6.Lib.Bytes

/-!
# Blocks and Their Overlays

A disk block is `BSIZE` bytes, `data` in `struct buf`. The kernel reads and
writes structured values by casting a pointer into it, so a value here is a
pair of functions: one that reads it out of a block and one that stores it, each
saying which bytes it touches.

The first overlay is `struct logheader`: a count and then block numbers. Only
the first `n` numbers mean anything, so reading it gives a list of that length,
and a negative count gives the empty list as it ends the kernel's loops at
once.

## Theorems

* `Block.u32_setU32`, `Block.head_setHead`
-/

namespace Xv6

/-- `uchar data[BSIZE]`. -/
abbrev Block : Type := Fin BSIZE → UInt8

namespace Block

/-- Byte `i`, with nothing past the end. -/
def byte (b : Block) (i : Nat) : UInt8 := if h : i < BSIZE then b ⟨i, h⟩ else 0

/-- The block with the given bytes. -/
def ofBytes (f : Nat → UInt8) : Block := fun i => f i

/-- `memset(data, 0, BSIZE)`. -/
def zero : Block := fun _ => 0

variable {i o n v o' : Nat} {b c : Block} {l : List Nat}

theorem byte_ofBytes {f : Nat → UInt8} (h : i < BSIZE) : (ofBytes f).byte i = f i := by
  unfold byte ofBytes
  rw [dif_pos h]

theorem byte_of_le (h : BSIZE ≤ i) : b.byte i = 0 := by
  unfold byte
  rw [dif_neg (by omega)]

theorem byte_zero (i : Nat) : zero.byte i = 0 := by
  unfold byte zero
  split_ifs <;> rfl

theorem ext_byte (h : ∀ i < BSIZE, b.byte i = c.byte i) : b = c := by
  funext i
  have hi := h i i.isLt
  unfold byte at hi
  rwa [dif_pos i.isLt, dif_pos i.isLt] at hi

/-- The number in the `n` bytes from `o`. -/
def num (b : Block) (o n : Nat) : Nat := Bytes.le b.byte o n

/-- Store a number in the `n` bytes from `o`. -/
def setNum (b : Block) (o n v : Nat) : Block :=
  ofBytes fun i => if o ≤ i ∧ i < o + n then Bytes.digit v (i - o) else b.byte i

theorem num_congr (h : ∀ i, o ≤ i → i < o + n → b.byte i = c.byte i) :
    b.num o n = c.num o n :=
  Bytes.le_congr fun k hk => h (o + k) (Nat.le_add_right o k) (by omega)

theorem byte_setNum_of_not_mem (h : i < o ∨ o + n ≤ i) :
    (b.setNum o n v).byte i = b.byte i := by
  by_cases hi : i < BSIZE
  · rw [setNum, byte_ofBytes hi, if_neg (by omega)]
  · rw [byte_of_le (by omega), byte_of_le (by omega)]

theorem num_setNum (h : o + n ≤ BSIZE) :
    (b.setNum o n v).num o n = v % 256 ^ n := by
  refine Bytes.le_digits fun j hj => ?_
  rw [setNum, byte_ofBytes (by omega), if_pos (by omega), Nat.add_sub_cancel_left]

theorem num_setNum_of_disjoint {n' : Nat} (h : o' + n' ≤ o ∨ o + n ≤ o') :
    (b.setNum o n v).num o' n' = b.num o' n' :=
  num_congr fun i h1 h2 => byte_setNum_of_not_mem (by omega)

/-- The `uint` at byte `o`. -/
def u32 (b : Block) (o : Nat) : UInt32 := UInt32.ofNat (b.num o 4)

def setU32 (b : Block) (o : Nat) (v : UInt32) : Block := b.setNum o 4 v.toNat

theorem u32_setU32 {v : UInt32} (h : o + 4 ≤ BSIZE) :
    (b.setU32 o v).u32 o = v := by
  have hv : v.toNat < 256 ^ 4 := v.toNat_lt
  rw [u32, setU32, num_setNum h, Nat.mod_eq_of_lt hv, UInt32.ofNat_toNat]

theorem u32_setU32_of_disjoint {v : UInt32} (h : o' + 4 ≤ o ∨ o + 4 ≤ o') :
    (b.setU32 o v).u32 o' = b.u32 o' := by
  rw [u32, u32, setU32, num_setNum_of_disjoint h]

/-- The first `n` entries of the block overlaid as a `struct logheader`. -/
def head (b : Block) : List Nat :=
  if (b.u32 0).toNat < 2 ^ 31 then
    (List.range (b.u32 0).toNat).map fun i => (b.u32 (4 + 4 * i)).toNat
  else []

/-- The loop of `write_head`: entries from index `i` on. -/
def setEntries (b : Block) (i : Nat) : List Nat → Block
  | [] => b
  | x :: xs => (b.setU32 (4 + 4 * i) (UInt32.ofNat x)).setEntries (i + 1) xs

/-- Store a header over the block: the count and its entries. What is past the
    last entry stays. -/
def setHead (b : Block) (lh : List Nat) : Block :=
  (b.setU32 0 (UInt32.ofNat lh.length)).setEntries 0 lh

theorem u32_setEntries_of_lt (h : o + 4 ≤ 4 + 4 * i) :
    (b.setEntries i l).u32 o = b.u32 o := by
  induction l generalizing b i with
  | nil => rfl
  | cons x xs ih =>
    rw [setEntries, ih (by omega), u32_setU32_of_disjoint (Or.inl h)]

theorem u32_setEntries {j : Nat} (hj : j < l.length)
    (hfit : 4 + 4 * (i + l.length) ≤ BSIZE) :
    (b.setEntries i l).u32 (4 + 4 * (i + j)) = UInt32.ofNat l[j] := by
  induction l generalizing b i j with
  | nil => exact absurd hj (Nat.not_lt_zero j)
  | cons x xs ih =>
    rw [setEntries]
    cases j with
    | zero =>
      rw [u32_setEntries_of_lt (by omega), Nat.add_zero, u32_setU32]
      · rfl
      · simp only [List.length_cons] at hfit
        omega
    | succ j =>
      have hxs : j < xs.length := Nat.lt_of_succ_lt_succ hj
      simp only [List.length_cons] at hfit
      have hij : i + (j + 1) = i + 1 + j := by omega
      rw [hij, ih hxs (by omega), List.getElem_cons_succ]

theorem count_setHead (h : l.length ≤ LOGSIZE) :
    ((b.setHead l).u32 0).toNat = l.length := by
  simp only [LOGSIZE, MAXOPBLOCKS] at h
  rw [setHead, u32_setEntries_of_lt (by omega), u32_setU32 (by decide)]
  exact Nat.mod_eq_of_lt (by omega)

/-- A header of at most `LOGSIZE` block numbers is read back as it was stored. -/
theorem head_setHead (h : l.length ≤ LOGSIZE) (hl : ∀ x ∈ l, x < 2 ^ 32) :
    (b.setHead l).head = l := by
  have hcount := count_setHead (b := b) h
  simp only [LOGSIZE, MAXOPBLOCKS] at h
  unfold head
  rw [hcount, if_pos (by omega)]
  refine List.ext_getElem (by rw [List.length_map, List.length_range]) fun j h1 h2 => ?_
  rw [List.getElem_map, List.getElem_range]
  have := u32_setEntries (b := b.setU32 0 (UInt32.ofNat l.length)) (i := 0) h2
    (by simp only [BSIZE]; omega)
  rw [Nat.zero_add] at this
  rw [setHead, this]
  exact Nat.mod_eq_of_lt (hl _ (List.getElem_mem h2))

end Block

end Xv6
