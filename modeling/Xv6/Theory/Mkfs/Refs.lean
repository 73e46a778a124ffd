import Xv6.Core.Mkfs

/-!
# Who Refers to Which Block

Blocks are handed out by a counter, so a block that is referred to was given to one place
only. `Refs` says this of a table of references: those that are there lie between the first
data block and the counter, and no two are the same.

## Theorems

* `Mkfs.Refs.add`, `Mkfs.Disk.store`
-/

namespace Xv6.Mkfs

open Function (update update_self update_of_ne)

/-- The places for references in an inode: its addresses and the entries of the indirect block. -/
def SLOTS : Nat := NDIRECT + 1 + NINDIRECT

/-- References below `n` are in range and distinct. -/
structure Refs (R : Nat → Nat → Nat) (n fb : Nat) : Prop where
  range : ∀ i k, i < n → k < SLOTS → R i k ≠ 0 → nmeta ≤ R i k ∧ R i k < fb
  once : ∀ i k j l, i < n → k < SLOTS → j < n → l < SLOTS → R i k ≠ 0 → R i k = R j l →
    i = j ∧ k = l

section Table

variable {R R' : Nat → Nat → Nat} {n fb a c : Nat}

theorem Refs.add (h : Refs R n fb) (hfb : nmeta ≤ fb) (hnew : R' a c = fb)
    (hold : ∀ i k, i < n → k < SLOTS → ¬ (i = a ∧ k = c) → R' i k = R i k) :
    Refs R' n (fb + 1) := by
  have hcases : ∀ i k, i < n → k < SLOTS →
      (i = a ∧ k = c) ∧ R' i k = fb ∨ ¬ (i = a ∧ k = c) ∧ R' i k = R i k := by
    intro i k hi hk
    by_cases heq : i = a ∧ k = c
    · refine .inl ⟨heq, ?_⟩
      rw [heq.1, heq.2, hnew]
    · exact .inr ⟨heq, hold i k hi hk heq⟩
  refine ⟨fun i k hi hk hne => ?_, fun i k j l hi hk hj hl hne heq => ?_⟩
  · rcases hcases i k hi hk with ⟨-, hval⟩ | ⟨-, hval⟩
    · omega
    · have := h.range i k hi hk (by omega)
      omega
  · grind [h.range, h.once]

theorem Refs.congr (h : Refs R n fb) (heq : ∀ i k, i < n → k < SLOTS → R' i k = R i k) :
    Refs R' n fb := by
  refine ⟨fun i k hi hk hne => ?_, fun i k j l hi hk hj hl hne he => ?_⟩
  · rw [heq i k hi hk] at hne ⊢
    exact h.range i k hi hk hne
  · rw [heq i k hi hk] at hne he
    rw [heq j l hj hl] at he
    exact h.once i k j l hi hk hj hl hne he

theorem Refs.grow (h : Refs R n fb) (hnone : ∀ k < SLOTS, R n k = 0) : Refs R (n + 1) fb := by
  have hlt : ∀ i k, i < n + 1 → k < SLOTS → R i k ≠ 0 → i < n := by
    intro i k hi hk hne
    by_contra hge
    have hin : i = n := by omega
    exact hne (hin ▸ hnone k hk)
  refine ⟨fun i k hi hk hne => h.range i k (hlt i k hi hk hne) hk hne, ?_⟩
  intro i k j l hi hk hj hl hne heq
  exact h.once i k j l (hlt i k hi hk hne) hk (hlt j l hj hl (by omega)) hl hne heq

end Table

/-- The reference at place `k` of inode `i`, or zero. -/
def ref (D : Nat → Dinode) (img : Nat → Block) (i k : Nat) : Nat :=
  if h : k < NDIRECT + 1 then ((D i).addrs ⟨k, h⟩).toNat
  else if (D i).addrs indirect = 0 then 0
  else ((img ((D i).addrs indirect).toNat).u32 (4 * (k - (NDIRECT + 1)))).toNat

/-- The place of file block `fbn`. -/
def slot (fbn : Nat) : Nat := if fbn < NDIRECT then fbn else fbn + 1

/-- An image whose references are in order, and which is zero behind the counter. -/
structure Disk (D : Nat → Dinode) (s : St) : Prop where
  refs : Refs (ref D s.img) s.freeinode s.freeblock
  fresh : ∀ b, s.freeblock ≤ b → s.img b = Block.zero
  low : nmeta ≤ s.freeblock
  len : s.len = FSSIZE

/-- The file blocks of inode `i` are those below `size`. -/
def Mapped (D : Nat → Dinode) (img : Nat → Block) (i size : Nat) : Prop :=
  ∀ fbn < MAXFILE, ref D img i (slot fbn) ≠ 0 ↔ fbn * BSIZE < size

section Ref

variable {D D' : Nat → Dinode} {img img' : Nat → Block} {s s' : St} {d : Dinode} {a i k : Nat}

theorem slot_lt {fbn : Nat} (h : fbn < MAXFILE) : slot fbn < SLOTS := by
  simp only [MAXFILE, NDIRECT, NINDIRECT, BSIZE] at h
  simp only [slot, SLOTS, NDIRECT, NINDIRECT, BSIZE]
  split_ifs <;> omega

theorem slot_ne (fbn : Nat) : slot fbn ≠ NDIRECT := by
  simp only [slot, NDIRECT]
  split_ifs <;> omega

theorem slot_inj {j l : Nat} (h : slot j = slot l) : j = l := by
  simp only [slot, NDIRECT] at h
  split_ifs at h <;> omega

theorem ref_addr (h : k < NDIRECT + 1) : ref D img i k = ((D i).addrs ⟨k, h⟩).toNat := dif_pos h

theorem ref_indirect : ref D img i NDIRECT = ((D i).addrs indirect).toNat :=
  ref_addr (by decide)

theorem ref_entry {j : Nat} (h : ref D img i NDIRECT ≠ 0) :
    ref D img i (NDIRECT + 1 + j) = ((img (ref D img i NDIRECT)).u32 (4 * j)).toNat := by
  rw [ref_indirect] at h ⊢
  have hne : (D i).addrs indirect ≠ 0 := by
    intro hz
    rw [hz] at h
    exact h rfl
  unfold ref
  rw [dif_neg (by omega), if_neg hne, Nat.add_sub_cancel_left]

theorem ref_entry_none {j : Nat} (h : ref D img i NDIRECT = 0) :
    ref D img i (NDIRECT + 1 + j) = 0 := by
  rw [ref_indirect] at h
  have hz : (D i).addrs indirect = 0 := UInt32.toNat_inj.mp h
  unfold ref
  rw [dif_neg (by omega), if_pos hz]

theorem place_cases (hk : k < SLOTS) :
    k < NDIRECT + 1 ∨ ∃ j, k = NDIRECT + 1 + j ∧ 4 * j + 4 ≤ BSIZE := by
  by_cases h : k < NDIRECT + 1
  · exact .inl h
  · refine .inr ⟨k - (NDIRECT + 1), by omega, ?_⟩
    simp only [SLOTS, NDIRECT, NINDIRECT, BSIZE] at hk h ⊢
    omega

/-- Two images give an inode the same references if its addresses are the same and so is its
    indirect block. -/
theorem ref_congr (hd : (D' i).addrs = (D i).addrs) (himg : ref D img i NDIRECT ≠ 0 →
      img' (ref D img i NDIRECT) = img (ref D img i NDIRECT)) (k : Nat) :
    ref D' img' i k = ref D img i k := by
  rw [ref_indirect] at himg
  unfold ref
  rw [hd]
  split_ifs with hk hz
  · rfl
  · rfl
  · rw [himg fun hx => hz (UInt32.toNat_inj.mp hx)]

end Ref

section Images

variable {D : Nat → Dinode} {s : St} {d : Dinode} {a : Nat}

theorem u32_zero (o : Nat) : Block.zero.u32 o = 0 := by
  have hzero : Block.zero.num o 4 = 0 := by
    rw [Block.num]
    simp [Bytes.le, Block.byte_zero]
  rw [Block.u32, hzero]
  rfl

theorem toNat_ofNat_small {n : Nat} (h : n ≤ FSSIZE + 1) : (UInt32.ofNat n).toNat = n := by
  have hsize : FSSIZE + 1 < UInt32.size := by decide
  exact UInt32.toNat_ofNat_of_lt' (Nat.lt_of_le_of_lt h hsize)

theorem Disk.takeAddr (h : Disk D s) (hfb : s.freeblock ≤ FSSIZE) (ha : a < s.freeinode)
    {k : Fin (NDIRECT + 1)} {s' : St} {d' : Dinode} (hs : takeAddr s (D a) k = (s', d')) :
    Disk (update D a d') s' ∧ s'.img = s.img ∧ s'.freeinode = s.freeinode ∧
      (s'.freeblock = s.freeblock ∨
        s'.freeblock = s.freeblock + 1 ∧ (d'.addrs k).toNat = s.freeblock) ∧
      (d'.addrs k).toNat ≠ 0 ∧ ∀ i l, i < s.freeinode → l < SLOTS → ¬ (i = a ∧ l = k) →
        ref (update D a d') s'.img i l = ref D s.img i l := by
  have hlow := h.low
  unfold Mkfs.takeAddr at hs
  split_ifs at hs with hz
  · cases hs
    have hval : ((setAddr (D a) k s.freeblock).addrs k).toNat = s.freeblock := by
      simp only [setAddr, update_self]
      exact toNat_ofNat_small (by omega)
    have hpos : s.freeblock ≠ 0 := by
      have : 0 < nmeta := by decide
      omega
    have hold : ∀ i l, i < s.freeinode → l < SLOTS → ¬ (i = a ∧ l = k) →
        ref (update D a (setAddr (D a) k s.freeblock)) s.img i l = ref D s.img i l := by
      intro i l hi hl hne
      by_cases hia : i = a
      · subst hia
        have hlk : l ≠ k := fun hx => hne ⟨rfl, hx⟩
        rcases place_cases hl with hlow' | ⟨j, rfl, hj⟩
        · rw [ref_addr hlow', ref_addr hlow', update_self]
          have hkne : (⟨l, hlow'⟩ : Fin (NDIRECT + 1)) ≠ k := fun hx => hlk (congrArg Fin.val hx)
          simp only [setAddr, update_of_ne hkne]
        · by_cases hind : k = indirect
          · -- A new indirect block is zero, as if it were not there.
            subst hind
            have hnone : ref D s.img i NDIRECT = 0 := by
              rw [ref_indirect, hz]
              rfl
            have hthere : ref (update D i (setAddr (D i) indirect s.freeblock)) s.img i
                NDIRECT = s.freeblock := by
              rw [ref_indirect, update_self]
              exact hval
            rw [ref_entry_none hnone, ref_entry (by omega), hthere, h.fresh _ (Nat.le_refl _),
              u32_zero]
            rfl
          · have hsame : ref (update D i (setAddr (D i) k s.freeblock)) s.img i NDIRECT =
                ref D s.img i NDIRECT := by
              rw [ref_indirect, ref_indirect, update_self]
              simp only [setAddr, update_of_ne (Ne.symm hind)]
            by_cases hone : ref D s.img i NDIRECT = 0
            · rw [ref_entry_none hone, ref_entry_none (hsame.trans hone)]
            · rw [ref_entry hone, ref_entry (by rw [hsame]; exact hone), hsame]
      · refine ref_congr ?_ (fun _ => rfl) l
        rw [update_of_ne hia]
    refine ⟨⟨h.refs.add hlow ?_ hold, fun b hb => ?_, ?_, h.len⟩, rfl, rfl, .inr ⟨rfl, hval⟩,
      ?_, hold⟩
    · rw [ref_addr k.isLt, update_self]
      exact hval
    · exact h.fresh b (Nat.le_of_succ_le hb)
    · exact Nat.le_succ_of_le hlow
    · rw [hval]
      exact hpos
  · cases hs
    rw [Function.update_eq_self]
    refine ⟨h, rfl, rfl, .inl rfl, fun hx => hz (UInt32.toNat_inj.mp hx), fun _ _ _ _ _ => rfl⟩

theorem Disk.setEntry (h : Disk D s) (hfb : s.freeblock ≤ FSSIZE + 1) (ha : a < s.freeinode)
    {j : Nat} (hj : 4 * j + 4 ≤ BSIZE) (hind : ref D s.img a NDIRECT ≠ 0)
    {img : Nat → Block} {len : Nat} (hlen : len = s.len)
    (himg : img = update s.img (ref D s.img a NDIRECT)
      ((s.img (ref D s.img a NDIRECT)).setU32 (4 * j) (UInt32.ofNat s.freeblock))) :
    Disk D { s with img := img, len := len, freeblock := s.freeblock + 1 } ∧
      ref D img a (NDIRECT + 1 + j) = s.freeblock ∧
      ∀ i l, i < s.freeinode → l < SLOTS → ¬ (i = a ∧ l = NDIRECT + 1 + j) →
        ref D img i l = ref D s.img i l := by
  have hslot : NDIRECT < SLOTS := by decide
  -- The address of the indirect block is in the inode and does not change.
  have hnew : ref D img a (NDIRECT + 1 + j) = s.freeblock := by
    have hthere : ref D img a NDIRECT = ref D s.img a NDIRECT := by
      rw [ref_indirect, ref_indirect]
    rw [ref_entry (by rw [hthere]; exact hind), hthere, himg, update_self, Block.u32_setU32 hj]
    exact toNat_ofNat_small hfb
  have hold : ∀ i l, i < s.freeinode → l < SLOTS → ¬ (i = a ∧ l = NDIRECT + 1 + j) →
      ref D img i l = ref D s.img i l := by
    intro i l hi hl hne
    by_cases hia : i = a
    · subst hia
      rcases place_cases hl with hlow | ⟨m, rfl, -⟩
      · rw [ref_addr hlow, ref_addr hlow]
      · have hthere : ref D img i NDIRECT = ref D s.img i NDIRECT := by
          rw [ref_indirect, ref_indirect]
        have hmj : m ≠ j := fun hx => hne ⟨rfl, by rw [hx]⟩
        rw [ref_entry (by rw [hthere]; exact hind), ref_entry hind, hthere, himg,
          update_self, Block.u32_setU32_of_disjoint (by omega)]
    · -- No other inode has this indirect block.
      refine ref_congr rfl (fun hne' => ?_) l
      rw [himg, update_of_ne]
      intro hx
      exact hia (h.refs.once i NDIRECT a NDIRECT hi hslot ha hslot hne' hx).1
  refine ⟨⟨h.refs.add h.low hnew hold, fun b hb => ?_, Nat.le_succ_of_le h.low, ?_⟩, hnew, hold⟩
  · have hrange := h.refs.range a NDIRECT ha hslot hind
    have hb' : s.freeblock + 1 ≤ b := hb
    change img b = _
    rw [himg, update_of_ne (by omega)]
    exact h.fresh b (by omega)
  · exact hlen.trans h.len

theorem Disk.store (h : Disk D s) (ha : a < s.freeinode) {fbn x : Nat} (hfbn : fbn < MAXFILE)
    (hx : ref D s.img a (slot fbn) = x) (hne : x ≠ 0) (b : Block) {len : Nat} (hlen : len = s.len) :
    Disk D { s with img := update s.img x b, len := len } ∧
      ∀ i l, i < s.freeinode → ref D (update s.img x b) i l = ref D s.img i l := by
  have hslot : NDIRECT < SLOTS := by decide
  have hsame : ∀ i l, i < s.freeinode → ref D (update s.img x b) i l = ref D s.img i l := by
    intro i l hi
    -- An indirect block is no block of a file, since it is referred to once.
    refine ref_congr rfl (fun hind => update_of_ne (fun heq => ?_) _ _) l
    rw [← hx] at heq
    have hsame := h.refs.once i NDIRECT a (slot fbn) hi hslot ha (slot_lt hfbn) hind heq
    exact slot_ne fbn hsame.2.symm
  have hrange := h.refs.range a (slot fbn) ha (slot_lt hfbn) (by rw [hx]; exact hne)
  refine ⟨⟨h.refs.congr fun i k hi _ => hsame i k hi, fun c hc => ?_, h.low,
    hlen.trans h.len⟩, hsame⟩
  have hc' : s.freeblock ≤ c := hc
  change update s.img x b c = _
  rw [update_of_ne (by omega)]
  exact h.fresh c hc'

end Images

end Xv6.Mkfs
