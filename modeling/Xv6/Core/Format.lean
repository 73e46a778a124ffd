import Xv6.Core.Block
import Mathlib.Data.Nat.Bitwise

/-!
# The On-Disk Format

`kernel/fs.h` and what the file system lays over the bytes of a block: inodes,
the free map, arrays of block numbers and directory entries.

As in `Core.Block` an overlay is a way of reading a value out of a block and a way
of storing it, and each pair comes with the facts that a stored value is read back
and that its neighbours are left alone.

The integer types are those of the source. A `short` is kept as its sixteen bits,
so that counting up wraps as it does in the kernel, and `short` is the number those
bits stand for where the sign matters.

## Theorems

* `Block.dinode_setDinode`, `Block.bit_setBit`, `Block.byte_blit`
-/

namespace Xv6

abbrev T_DIR : UInt16 := 1
abbrev T_FILE : UInt16 := 2
abbrev T_DEVICE : UInt16 := 3

/-- The number a `short` holds. -/
def short (x : UInt16) : Int := if x.toNat < 2 ^ 15 then x.toNat else x.toNat - 2 ^ 16

/-- `struct superblock`, without the magic number. -/
structure Superblock where
  size : Nat
  nblocks : Nat
  ninodes : Nat
  nlog : Nat
  logstart : Nat
  inodestart : Nat
  bmapstart : Nat
  deriving DecidableEq, Repr

namespace Superblock

/-- The block containing inode `i`. -/
def IBLOCK (sb : Superblock) (i : Nat) : Nat := i / IPB + sb.inodestart

/-- The block of the free map containing the bit for block `b`. -/
def BBLOCK (sb : Superblock) (b : Nat) : Nat := b / BPB + sb.bmapstart

end Superblock

/-- `struct dinode`. -/
structure Dinode where
  type : UInt16
  major : UInt16
  minor : UInt16
  nlink : UInt16
  size : UInt32
  addrs : Fin (NDIRECT + 1) → UInt32

/-- `memset(dip, 0, sizeof(*dip))`. -/
def Dinode.zero : Dinode :=
  { type := 0, major := 0, minor := 0, nlink := 0, size := 0, addrs := fun _ => 0 }

/-- Byte `o` of an inode on disk. -/
def Dinode.enc (d : Dinode) (o : Nat) : UInt8 :=
  if o < 2 then Bytes.digit d.type.toNat o
  else if o < 4 then Bytes.digit d.major.toNat (o - 2)
  else if o < 6 then Bytes.digit d.minor.toNat (o - 4)
  else if o < 8 then Bytes.digit d.nlink.toNat (o - 6)
  else if o < 12 then Bytes.digit d.size.toNat (o - 8)
  else if h : (o - 12) / 4 < NDIRECT + 1 then
    Bytes.digit (d.addrs ⟨(o - 12) / 4, h⟩).toNat ((o - 12) % 4)
  else 0

namespace Block

variable {b : Block}

/-- The `short` at byte `o`. -/
def u16 (b : Block) (o : Nat) : UInt16 := UInt16.ofNat (b.num o 2)

/-- Entry `k` of a block of inodes. -/
def dinode (b : Block) (k : Nat) : Dinode :=
  { type := b.u16 (64 * k)
    major := b.u16 (64 * k + 2)
    minor := b.u16 (64 * k + 4)
    nlink := b.u16 (64 * k + 6)
    size := b.u32 (64 * k + 8)
    addrs := fun s => b.u32 (64 * k + 12 + 4 * s) }

/-- Store an inode in entry `k`. -/
def setDinode (b : Block) (k : Nat) (d : Dinode) : Block :=
  ofBytes fun i => if i / 64 = k then d.enc (i % 64) else b.byte i

variable {k o j i : Nat} {d : Dinode}

theorem byte_setDinode (hk : k < IPB) (ho : o < 64) :
    (b.setDinode k d).byte (64 * k + o) = d.enc o := by
  simp only [IPB, BSIZE] at hk
  rw [setDinode, byte_ofBytes (by simp only [BSIZE]; omega), if_pos (by omega)]
  congr 1
  omega

theorem u16_of_enc {v : UInt16} (hk : k < IPB) (ho : o + 2 ≤ 64)
    (h : ∀ j < 2, d.enc (o + j) = Bytes.digit v.toNat j) :
    (b.setDinode k d).u16 (64 * k + o) = v := by
  have hv : v.toNat < 256 ^ 2 := v.toNat_lt
  have hnum : (b.setDinode k d).num (64 * k + o) 2 = v.toNat % 256 ^ 2 := by
    refine Bytes.le_digits fun j hj => ?_
    rw [Nat.add_assoc, byte_setDinode hk (by omega), h j hj]
  rw [u16, hnum, Nat.mod_eq_of_lt hv, UInt16.ofNat_toNat]

theorem u32_of_enc {v : UInt32} (hk : k < IPB) (ho : o + 4 ≤ 64)
    (h : ∀ j < 4, d.enc (o + j) = Bytes.digit v.toNat j) :
    (b.setDinode k d).u32 (64 * k + o) = v := by
  have hv : v.toNat < 256 ^ 4 := v.toNat_lt
  have hnum : (b.setDinode k d).num (64 * k + o) 4 = v.toNat % 256 ^ 4 := by
    refine Bytes.le_digits fun j hj => ?_
    rw [Nat.add_assoc, byte_setDinode hk (by omega), h j hj]
  rw [u32, hnum, Nat.mod_eq_of_lt hv, UInt32.ofNat_toNat]

theorem dinode_setDinode (hk : k < IPB) :
    (b.setDinode k d).dinode k = d := by
  have htype : (b.setDinode k d).u16 (64 * k) = d.type :=
    u16_of_enc (o := 0) hk (by omega) fun j hj => by
      rw [Dinode.enc, if_pos (by omega), Nat.zero_add]
  have hmajor : (b.setDinode k d).u16 (64 * k + 2) = d.major :=
    u16_of_enc hk (by omega) fun j hj => by
      rw [Dinode.enc, if_neg (by omega), if_pos (by omega), Nat.add_sub_cancel_left]
  have hminor : (b.setDinode k d).u16 (64 * k + 4) = d.minor :=
    u16_of_enc hk (by omega) fun j hj => by
      rw [Dinode.enc, if_neg (by omega), if_neg (by omega), if_pos (by omega),
        Nat.add_sub_cancel_left]
  have hnlink : (b.setDinode k d).u16 (64 * k + 6) = d.nlink :=
    u16_of_enc hk (by omega) fun j hj => by
      rw [Dinode.enc, if_neg (by omega), if_neg (by omega), if_neg (by omega),
        if_pos (by omega), Nat.add_sub_cancel_left]
  have hsize : (b.setDinode k d).u32 (64 * k + 8) = d.size :=
    u32_of_enc hk (by omega) fun j hj => by
      rw [Dinode.enc, if_neg (by omega), if_neg (by omega), if_neg (by omega),
        if_neg (by omega), if_pos (by omega), Nat.add_sub_cancel_left]
  have haddrs : ∀ s : Fin (NDIRECT + 1),
      (b.setDinode k d).u32 (64 * k + 12 + 4 * s) = d.addrs s := by
    intro s
    have hs := s.isLt
    simp only [NDIRECT] at hs
    rw [Nat.add_assoc]
    refine u32_of_enc hk (by omega) fun j hj => ?_
    have hdiv : (12 + 4 * s.val + j - 12) / 4 = s.val := by omega
    have hmod : (12 + 4 * s.val + j - 12) % 4 = j := by omega
    rw [Dinode.enc, if_neg (by omega), if_neg (by omega), if_neg (by omega), if_neg (by omega),
      if_neg (by omega), dif_pos (by rw [hdiv]; exact s.isLt), hmod]
    simp only [hdiv]
  unfold dinode
  rw [htype, hmajor, hminor, hnlink, hsize, funext haddrs]

theorem dinode_setDinode_of_ne (hne : j ≠ k) :
    (b.setDinode k d).dinode j = b.dinode j := by
  have hbyte : ∀ i, 64 * j ≤ i → i < 64 * j + 64 → (b.setDinode k d).byte i = b.byte i := by
    intro i h1 h2
    by_cases hi : i < BSIZE
    · rw [setDinode, byte_ofBytes hi, if_neg (by omega)]
    · rw [byte_of_le (by omega), byte_of_le (by omega)]
  have hnum : ∀ o n, o + n ≤ 64 →
      (b.setDinode k d).num (64 * j + o) n = b.num (64 * j + o) n := fun o n ho =>
    num_congr fun i h1 h2 => hbyte i (by omega) (by omega)
  have haddrs : ∀ s : Fin (NDIRECT + 1),
      (b.setDinode k d).num (64 * j + 12 + 4 * s) 4 = b.num (64 * j + 12 + 4 * s) 4 := by
    intro s
    have hs := s.isLt
    simp only [NDIRECT] at hs
    rw [Nat.add_assoc]
    exact hnum _ _ (by omega)
  unfold dinode u16 u32
  simp only [haddrs, hnum 2 2 (by omega), hnum 4 2 (by omega), hnum 6 2 (by omega),
    hnum 8 4 (by omega), show (b.setDinode k d).num (64 * j) 2 = b.num (64 * j) 2 from
      hnum 0 2 (by omega)]

/-- Bit `i` of a block of the free map. -/
def bit (b : Block) (i : Nat) : Bool := (b.byte (i / 8)).toNat.testBit (i % 8)

/-- `data[i/8] |= 1 << (i % 8)`. -/
def setBit (b : Block) (i : Nat) : Block :=
  ofBytes fun o => if o = i / 8 then UInt8.ofNat ((b.byte o).toNat ||| 2 ^ (i % 8)) else b.byte o

/-- `data[i/8] &= ~(1 << (i % 8))`. -/
def clearBit (b : Block) (i : Nat) : Block :=
  ofBytes fun o =>
    if o = i / 8 then UInt8.ofNat ((b.byte o).toNat &&& (255 ^^^ 2 ^ (i % 8))) else b.byte o

/-- A block that differs in one byte, and there in one bit, differs in that bit. -/
theorem bit_of_byte {c : Block} (hj : j < BPB) {n : Nat → Nat}
    (hc : ∀ o < BSIZE, (c.byte o).toNat = if o = i / 8 then n o else (b.byte o).toNat)
    (hother : ∀ t < 8, t ≠ i % 8 → (n (i / 8)).testBit t = (b.byte (i / 8)).toNat.testBit t) :
    c.bit j = if j = i then c.bit i else b.bit j := by
  simp only [BPB, BSIZE] at hj hc
  by_cases hji : j = i
  · rw [hji, if_pos rfl]
  · rw [if_neg hji]
    unfold bit
    rw [hc _ (by omega)]
    by_cases hbyte : j / 8 = i / 8
    · rw [if_pos hbyte, hbyte, hother _ (Nat.mod_lt _ (by decide)) (by omega)]
    · rw [if_neg hbyte]

theorem toNat_byte_setBit (ho : o < BSIZE) : ((b.setBit i).byte o).toNat =
      if o = i / 8 then (b.byte o).toNat ||| 2 ^ (i % 8) else (b.byte o).toNat := by
  rw [setBit, byte_ofBytes ho]
  split_ifs with h
  · have hlt : (b.byte o).toNat ||| 2 ^ (i % 8) < 2 ^ 8 :=
      Nat.or_lt_two_pow (b.byte o).toNat_lt (Nat.pow_lt_pow_right (by decide) (by omega))
    exact Nat.mod_eq_of_lt hlt
  · rfl

theorem bit_setBit (hi : i < BPB) (hj : j < BPB) :
    (b.setBit i).bit j = if j = i then true else b.bit j := by
  have hi8 : i / 8 < BSIZE := by
    simp only [BPB, BSIZE] at hi ⊢
    omega
  have hset : (b.setBit i).bit i = true := by
    rw [bit, toNat_byte_setBit hi8, if_pos rfl, Nat.testBit_or, Nat.testBit_two_pow_self,
      Bool.or_true]
  rw [bit_of_byte (n := fun o => (b.byte o).toNat ||| 2 ^ (i % 8)) hj
    (fun o ho => toNat_byte_setBit ho) fun t _ ht => ?_, hset]
  rw [Nat.testBit_or, Nat.testBit_two_pow_of_ne (Ne.symm ht), Bool.or_false]

/-- The `n` bytes from `o`. -/
def slice (b : Block) (o n : Nat) : List UInt8 := (List.range n).map fun i => b.byte (o + i)

/-- `memmove(data + o, l, n)`. -/
def blit (b : Block) (o : Nat) (l : List UInt8) : Block :=
  ofBytes fun i => if o ≤ i ∧ i < o + l.length then l.getD (i - o) 0 else b.byte i

theorem byte_blit {l : List UInt8} (hi : i < BSIZE) :
    (b.blit o l).byte i = if o ≤ i ∧ i < o + l.length then l.getD (i - o) 0 else b.byte i := by
  rw [blit, byte_ofBytes hi]

theorem blit_nil : b.blit o [] = b :=
  ext_byte fun i hi => by
    rw [byte_blit hi, if_neg (by simp only [List.length_nil]; omega)]

end Block

/-- `struct dirent`, the name as its `DIRSIZ` bytes. -/
structure Dirent where
  inum : UInt16
  name : List UInt8
  deriving DecidableEq, Repr

namespace Dirent

/-- The bytes of a directory entry overlaid as a `struct dirent`. -/
def dec (l : List UInt8) : Dirent :=
  { inum := UInt16.ofNat ((l.getD 0 0).toNat + 256 * (l.getD 1 0).toNat), name := l.drop 2 }

/-- The bytes of an entry with a name given as a string: `strncpy` pads it with
    zeros and leaves off its end where there is no room for it. -/
def enc (inum : UInt16) (name : List UInt8) : List UInt8 :=
  [UInt8.ofNat inum.toNat, UInt8.ofNat (inum.toNat / 256)] ++
    ((name ++ List.replicate DIRSIZ 0).take DIRSIZ)

theorem length_enc (inum : UInt16) (name : List UInt8) : (enc inum name).length = DIRENT := by
  simp only [enc, List.length_append, List.length_cons, List.length_nil, List.length_take,
    List.length_replicate, DIRSIZ, DIRENT]
  omega

theorem dec_enc (inum : UInt16) (name : List UInt8) :
    dec (enc inum name) =
      { inum := inum, name := (name ++ List.replicate DIRSIZ 0).take DIRSIZ } := by
  have hlt : inum.toNat < 2 ^ 16 := inum.toNat_lt
  have hnum : inum.toNat % 2 ^ 8 + 256 * (inum.toNat / 256 % 2 ^ 8) = inum.toNat := by omega
  have hinum : (dec (enc inum name)).inum = inum := by
    simp only [dec, enc, List.cons_append, List.nil_append, List.getD_cons_zero,
      List.getD_cons_succ, UInt8.toNat_ofNat']
    rw [hnum, UInt16.ofNat_toNat]
  exact congrArg
    (fun n => Dirent.mk n ((name ++ List.replicate DIRSIZ 0).take DIRSIZ)) hinum

end Dirent

/-- `strncmp`, with zeros where a string has ended. -/
def strncmp (p q : List UInt8) : Nat → Int
  | 0 => 0
  | n + 1 =>
    if p.headD 0 ≠ 0 ∧ p.headD 0 = q.headD 0 then strncmp p.tail q.tail n
    else (p.headD 0).toNat - (q.headD 0).toNat

def namecmp (s t : List UInt8) : Int := strncmp s t DIRSIZ

/-- The string in the first `n` bytes: what comes before a zero. -/
def cstr (n : Nat) (s : List UInt8) : List UInt8 := (s.take n).takeWhile (· ≠ 0)

theorem cstr_succ (n : Nat) (s : List UInt8) :
    cstr (n + 1) s = if s.headD 0 = 0 then [] else s.headD 0 :: cstr n s.tail := by
  cases s with
  | nil => simp [cstr]
  | cons a s => by_cases ha : a = 0 <;> simp [cstr, ha]

theorem strncmp_eq_zero_iff (n : Nat) (p q : List UInt8) :
    strncmp p q n = 0 ↔ cstr n p = cstr n q := by
  induction n generalizing p q with
  | zero => simp [strncmp, cstr]
  | succ n ih =>
    rw [strncmp, cstr_succ, cstr_succ]
    by_cases hp : p.headD 0 = 0
    · rw [if_neg (fun h => h.1 hp), if_pos hp, hp]
      by_cases hq : q.headD 0 = 0
      · rw [if_pos hq, hq]
        simp only [sub_self]
      · have hpos : (q.headD 0).toNat ≠ 0 := fun h => hq (UInt8.toNat_inj.mp h)
        rw [if_neg hq]
        simp only [UInt8.toNat_zero, List.nil_eq, reduceCtorEq, iff_false]
        omega
    · rw [if_neg hp]
      by_cases hpq : p.headD 0 = q.headD 0
      · rw [if_pos ⟨hp, hpq⟩, ih, if_neg (hpq ▸ hp), hpq]
        simp only [List.cons.injEq, true_and]
      · have hne : (p.headD 0).toNat ≠ (q.headD 0).toNat := fun h => hpq (UInt8.toNat_inj.mp h)
        rw [if_neg (fun h => hpq h.2)]
        constructor
        · intro h
          omega
        · intro h
          split_ifs at h
          exact absurd (List.cons.inj h).1 hpq

/-- Names compare equal when they are the same string in their first bytes. -/
theorem namecmp_eq_zero_iff (s t : List UInt8) :
    namecmp s t = 0 ↔ cstr DIRSIZ s = cstr DIRSIZ t := strncmp_eq_zero_iff DIRSIZ s t

end Xv6
