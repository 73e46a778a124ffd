import Xv6.Theory.Mkfs.Refs

/-!
# Appending Keeps the Image in Order

`iappend` works on a copy of the inode and puts it back at the end. `Going` is what holds in
between: the references are in order, the file has blocks up to the offset reached, and the
counter is not past the end of the image, because the block just taken is read first, and a
read behind the end ends the program.

## Theorems

* `Mkfs.Whole.iappend`, `Mkfs.Whole.ialloc`
-/

namespace Xv6.Mkfs

open Function (update update_self update_of_ne update_eq_self)

theorem ok_of_bind {ε α β : Type} {x : Except ε α} {f : α → Except ε β} {r : β}
    (h : (x >>= f) = .ok r) : ∃ v, x = .ok v ∧ f v = .ok r := by
  cases x with
  | error e => cases h
  | ok v => exact ⟨v, rfl, h⟩

section Sectors

variable {s : St} {sec : Nat} {b : Block}

theorem rsect_ok (h : rsect s sec = .ok b) : sector sec < s.len ∧ b = s.img (sector sec) := by
  unfold rsect at h
  split_ifs at h with hlt
  cases h
  exact ⟨hlt, rfl⟩

theorem sector_eq (h : sec ≤ FSSIZE + 1) : sector sec = sec := by
  have hsmall : FSSIZE + 1 < 2 ^ 22 := by decide
  exact Nat.mod_eq_of_lt (Nat.lt_of_le_of_lt h hsmall)

theorem rsect_small (h : rsect s sec = .ok b) (hlen : s.len = FSSIZE) (hsec : sec ≤ FSSIZE + 1) :
    sec < FSSIZE ∧ b = s.img sec := by
  obtain ⟨hlt, hb⟩ := rsect_ok h
  rw [sector_eq hsec] at hlt hb
  exact ⟨by omega, hb⟩

theorem wsect_small (hlen : s.len = FSSIZE) (hsec : sec < FSSIZE) :
    wsect s sec b = { s with img := update s.img sec b, len := s.len } := by
  have heq : sector sec = sec := sector_eq (by omega)
  have hmax : max s.len (sec + 1) = s.len := by omega
  unfold wsect
  rw [heq, hmax]

end Sectors

section Blocks

variable {D : Nat → Dinode} {s s' : St} {d d' : Dinode} {a fbn x : Nat}

/-- What finding or making a block of a file does. -/
structure Found (D : Nat → Dinode) (s : St) (a fbn : Nat) (s' : St) (d' : Dinode) (x : Nat) :
    Prop where
  disk : Disk (update D a d') s'
  inodes : s'.freeinode = s.freeinode
  low : ∀ b < nmeta, s'.img b = s.img b
  here : ref (update D a d') s'.img a (slot fbn) = x
  some : x ≠ 0
  small : s'.freeblock ≤ FSSIZE + 1
  counter : s'.freeblock ≤ FSSIZE ∨ s'.freeblock = x + 1
  others : ∀ i l, i < s.freeinode → l < SLOTS → ¬ (i = a ∧ l = slot fbn) →
    ¬ (i = a ∧ l = NDIRECT) → ref (update D a d') s'.img i l = ref D s.img i l

theorem Disk.fileBlock_direct (h : Disk D s) (hfb : s.freeblock ≤ FSSIZE) (ha : a < s.freeinode)
    (hfbn : fbn < NDIRECT) (hs : fileBlock s (D a) fbn = .ok (s', d', x)) :
    Found D s a fbn s' d' x := by
  have hslot : slot fbn = fbn := if_pos hfbn
  unfold fileBlock at hs
  rw [dif_pos hfbn] at hs
  dsimp only at hs
  cases htake : Mkfs.takeAddr s (D a) ⟨fbn, by omega⟩ with
  | mk s1 d1 =>
    rw [htake] at hs
    have hpair := Except.ok.inj hs
    simp only [Prod.mk.injEq] at hpair
    obtain ⟨rfl, rfl, hx⟩ := hpair
    obtain ⟨hdisk, himg, hinodes, hcounter, hne, hold⟩ := h.takeAddr hfb ha htake
    rw [hx] at hcounter hne
    refine ⟨hdisk, hinodes, fun b _ => by rw [himg], ?_, hne, ?_, ?_, ?_⟩
    · rw [hslot, ref_addr (by omega), update_self]
      exact hx
    · omega
    · rcases hcounter with heq | ⟨heq, hval⟩
      · exact .inl (by omega)
      · exact .inr (by omega)
    · intro i l hi hl hne' _
      refine hold i l hi hl ?_
      rwa [hslot] at hne'

theorem Disk.fileBlock_indirect (h : Disk D s) (hfb : s.freeblock ≤ FSSIZE) (ha : a < s.freeinode)
    (hge : ¬ fbn < NDIRECT) (hfbn : fbn < MAXFILE)
    (hs : fileBlock s (D a) fbn = .ok (s', d', x)) : Found D s a fbn s' d' x := by
  have hslot : slot fbn = NDIRECT + 1 + (fbn - NDIRECT) := by
    rw [slot, if_neg hge]
    omega
  have hentry : 4 * (fbn - NDIRECT) + 4 ≤ BSIZE := by
    simp only [MAXFILE, NDIRECT, NINDIRECT, BSIZE] at hfbn hge ⊢
    omega
  unfold fileBlock at hs
  rw [dif_neg hge] at hs
  cases htake : Mkfs.takeAddr s (D a) indirect with
  | mk s1 d1 =>
    rw [htake] at hs
    obtain ⟨b, hb, hrest⟩ := ok_of_bind hs
    obtain ⟨hdisk, himg, hinodes, hcounter, hne, hold⟩ := h.takeAddr hfb ha htake
    have hthere : ref (update D a d1) s1.img a NDIRECT = (d1.addrs indirect).toNat := by
      rw [ref_indirect, update_self]
    have hind : ref (update D a d1) s1.img a NDIRECT ≠ 0 := by
      rw [hthere]
      exact hne
    have hrange := hdisk.refs.range a NDIRECT (by omega) (by decide) hind
    rw [hthere] at hrange
    -- The indirect block has been read, so the counter is not past the end.
    obtain ⟨hlt, hbimg⟩ := rsect_small hb hdisk.len (by omega)
    have hfb1 : s1.freeblock ≤ FSSIZE := by omega
    dsimp only at hrest
    split_ifs at hrest with hzero
    · have hpair := Except.ok.inj hrest
      simp only [Prod.mk.injEq] at hpair
      obtain ⟨hs', rfl, hx⟩ := hpair
      obtain ⟨img, himg'⟩ : ∃ img, img = update s1.img (d1.addrs indirect).toNat
        (b.setU32 (4 * (fbn - NDIRECT)) (UInt32.ofNat s1.freeblock)) := ⟨_, rfl⟩
      have hw : s' = { s1 with img := img, len := s1.len, freeblock := s1.freeblock + 1 } := by
        rw [← hs', himg']
        exact wsect_small (s := { s1 with freeblock := s1.freeblock + 1 }) hdisk.len hlt
      have hval : x = s1.freeblock := by
        rw [← hx, Block.u32_setU32 hentry]
        exact toNat_ofNat_small (by omega)
      have hset : img = update s1.img (ref (update D a d1) s1.img a NDIRECT)
          ((s1.img (ref (update D a d1) s1.img a NDIRECT)).setU32 (4 * (fbn - NDIRECT))
            (UInt32.ofNat s1.freeblock)) := by
        rw [hthere, ← hbimg]
        exact himg'
      obtain ⟨hdisk', hnew, hsame⟩ := hdisk.setEntry (by omega) (by omega) hentry hind
        (rfl : s1.len = s1.len) hset
      have hlow1 := hdisk.low
      have hpos : 0 < nmeta := by decide
      rw [hw]
      refine ⟨hdisk', hinodes, ?_, ?_, by omega, Nat.succ_le_succ hfb1, .inr ?_, ?_⟩
      · intro c hc
        change img c = _
        rw [himg', update_of_ne (by omega), himg]
      · rw [hslot, hval]
        exact hnew
      · rw [hval]
      · intro i l hi hl hne' hne''
        rw [hslot] at hne'
        rw [← hold i l hi hl hne'']
        exact hsame i l (by omega) hl hne'
    · have hpair := Except.ok.inj hrest
      simp only [Prod.mk.injEq] at hpair
      obtain ⟨rfl, rfl, hx⟩ := hpair
      refine ⟨hdisk, hinodes, fun c _ => by rw [himg], ?_, ?_, by omega, .inl hfb1, ?_⟩
      · rw [hslot, ref_entry hind, hthere, ← hbimg]
        exact hx
      · rw [← hx]
        exact fun hz => hzero (UInt32.toNat_inj.mp hz)
      · intro i l hi hl _ hne''
        exact hold i l hi hl hne''

theorem Disk.fileBlock (h : Disk D s) (hfb : s.freeblock ≤ FSSIZE) (ha : a < s.freeinode)
    (hfbn : fbn < MAXFILE) (hs : fileBlock s (D a) fbn = .ok (s', d', x)) :
    Found D s a fbn s' d' x := by
  by_cases hdirect : fbn < NDIRECT
  · exact h.fileBlock_direct hfb ha hdirect hs
  · exact h.fileBlock_indirect hfb ha hdirect hfbn hs

end Blocks

section Loop

variable {D : Nat → Dinode} {s s' : St} {d d' : Dinode} {a off off' : Nat}

/-- In the middle of appending to `a`, with its inode in `d` and `off` bytes in the file. -/
structure Going (D : Nat → Dinode) (a : Nat) (s : St) (d : Dinode) (off : Nat) : Prop where
  disk : Disk (update D a d) s
  inode : a < s.freeinode
  counter : s.freeblock ≤ FSSIZE
  mapped : Mapped (update D a d) s.img a off
  size : off ≤ MAXFILE * BSIZE

/-- What appending to `a` leaves alone. -/
structure Kept (D : Nat → Dinode) (a : Nat) (s : St) (d : Dinode) (s' : St) (d' : Dinode) :
    Prop where
  inodes : s'.freeinode = s.freeinode
  low : ∀ b < nmeta, s'.img b = s.img b
  others : ∀ i l, i < s.freeinode → l < SLOTS → i ≠ a →
    ref (update D a d') s'.img i l = ref (update D a d) s.img i l

theorem Kept.trans {s2 : St} {d2 : Dinode} (h : Kept D a s d s' d')
    (h' : Kept D a s' d' s2 d2) : Kept D a s d s2 d2 := by
  refine ⟨h'.inodes.trans h.inodes, fun c hc => ?_, fun i l hi hl hia => ?_⟩
  · rw [h'.low c hc, h.low c hc]
  · rw [h'.others i l (by rw [h.inodes]; exact hi) hl hia, h.others i l hi hl hia]

theorem Going.round (h : Going D a s d off) {n x : Nat} {b c : Block} (hn : 0 < n)
    (hend : off + n ≤ (off / BSIZE + 1) * BSIZE) (hfbn : off / BSIZE < MAXFILE)
    (hfound : fileBlock s d (off / BSIZE) = .ok (s', d', x)) (hread : rsect s' x = .ok b) :
    Going D a (wsect s' x c) d' (off + n) ∧ Kept D a s d (wsect s' x c) d' := by
  have hda : (update D a d) a = d := update_self a d D
  have hf : Found (update D a d) s a (off / BSIZE) s' d' x :=
    h.disk.fileBlock h.counter h.inode hfbn (by rw [hda]; exact hfound)
  have hidem : update (update D a d) a d' = update D a d' := Function.update_idem d d' D
  have hdisk := hf.disk
  have hhere := hf.here
  have hothers := hf.others
  rw [hidem] at hdisk hhere hothers
  have ha' : a < s'.freeinode := by
    rw [hf.inodes]
    exact h.inode
  have hrange := hdisk.refs.range a _ ha' (slot_lt hfbn) (by rw [hhere]; exact hf.some)
  rw [hhere] at hrange
  have hsmall := hf.small
  -- The block has been read, so it lies in the image.
  obtain ⟨hlt, -⟩ := rsect_small hread hdisk.len (by omega)
  have hw := wsect_small (b := c) hdisk.len hlt
  obtain ⟨hdisk', hsame⟩ := hdisk.store ha' hfbn hhere hf.some c
    (rfl : s'.len = s'.len)
  have hblocks : off / BSIZE * BSIZE ≤ off := Nat.div_mul_le_self off BSIZE
  rw [hw]
  refine ⟨⟨hdisk', ha', ?_, ?_, ?_⟩, hf.inodes, ?_, ?_⟩
  · rcases hf.counter with hle | heq
    · exact hle
    · change s'.freeblock ≤ FSSIZE
      omega
  · intro fbn hlt'
    change ref _ (update s'.img x c) a _ ≠ 0 ↔ _
    rw [hsame a _ ha']
    by_cases heq : fbn = off / BSIZE
    · rw [heq, hhere]
      exact iff_of_true hf.some (by omega)
    · have hslot : slot fbn ≠ slot (off / BSIZE) := fun hx => heq (slot_inj hx)
      rw [hothers a _ h.inode (slot_lt hlt') (fun hx => hslot hx.2) (fun hx => slot_ne fbn hx.2),
        h.mapped fbn hlt']
      -- Another block is below the old offset if and only if it is below the new one.
      simp only [BSIZE] at heq hend ⊢
      omega
  · exact Nat.le_trans hend (Nat.mul_le_mul_right BSIZE hfbn)
  · intro b' hb'
    change update s'.img x c b' = _
    rw [update_of_ne (by omega), hf.low b' hb']
  · grind [hf.inodes]

theorem Going.appendLoop (fuel : Nat) {p : List UInt8} (hfuel : p.length ≤ fuel)
    (h : Going D a s d off) (hs : appendLoop fuel s d off p = .ok (s', d', off')) :
    Going D a s' d' off' ∧ off' = off + p.length ∧ Kept D a s d s' d' := by
  induction fuel generalizing s d off p with
  | zero =>
    cases hs
    refine ⟨h, by omega, rfl, fun _ _ => rfl, fun _ _ _ _ _ => rfl⟩
  | succ fuel ih =>
    rw [Mkfs.appendLoop] at hs
    split_ifs at hs with hp hfbn
    · cases hs
      refine ⟨h, ?_, rfl, fun _ _ => rfl, fun _ _ _ _ _ => rfl⟩
      rw [hp]
      rfl
    · obtain ⟨⟨s1, d1, x⟩, hfound, hrest⟩ := ok_of_bind hs
      obtain ⟨b, hread, hloop⟩ := ok_of_bind hrest
      have hlen : 0 < p.length := List.length_pos_iff.mpr hp
      have hn : 0 < min p.length ((off / BSIZE + 1) * BSIZE - off) := by
        simp only [BSIZE]
        omega
      have hend : off + min p.length ((off / BSIZE + 1) * BSIZE - off) ≤
          (off / BSIZE + 1) * BSIZE := by
        simp only [BSIZE]
        omega
      obtain ⟨hgo, hkept⟩ := h.round hn hend hfbn hfound hread
      obtain ⟨hgo', hoff, hkept'⟩ := ih (by rw [List.length_drop]; omega) hgo hloop
      refine ⟨hgo', ?_, hkept.trans hkept'⟩
      rw [hoff, List.length_drop]
      omega

end Loop

section Inodes

variable {D D' : Nat → Dinode} {s s' : St} {d : Dinode} {a : Nat}

/-- The inodes of an image. -/
def dinodes (s : St) (i : Nat) : Dinode := (s.img (mkfs.sb.IBLOCK i)).dinode (i % IPB)

/-- How many inodes the blocks between the log and the free map hold. -/
def ROOM : Nat := (mkfs.sb.bmapstart - mkfs.sb.inodestart) * IPB

theorem IBLOCK_lt (h : a < ROOM) : mkfs.sb.IBLOCK a < mkfs.sb.bmapstart := by
  simp only [ROOM, mkfs.sb, IPB, BSIZE] at h
  simp only [Superblock.IBLOCK, mkfs.sb, IPB, BSIZE]
  omega

theorem Disk.move (h : Disk D s) (hn : s'.freeinode = s.freeinode)
    (hfb : s'.freeblock = s.freeblock) (hlen : s'.len = s.len)
    (himg : ∀ b, nmeta ≤ b → s'.img b = s.img b)
    (hD : ∀ i < s.freeinode, (D' i).addrs = (D i).addrs) :
    Disk D' s' ∧ ∀ i l, i < s.freeinode → ref D' s'.img i l = ref D s.img i l := by
  have hsame : ∀ i l, i < s.freeinode → ref D' s'.img i l = ref D s.img i l := by
    intro i l hi
    refine ref_congr (hD i hi) (fun hne => himg _ ?_) l
    exact (h.refs.range i NDIRECT hi (by decide) hne).1
  refine ⟨⟨?_, fun b hb => ?_, ?_, hlen.trans h.len⟩, hsame⟩
  · rw [hn, hfb]
    exact h.refs.congr fun i k hi _ => hsame i k hi
  · rw [hfb] at hb
    rw [himg b (Nat.le_trans h.low hb)]
    exact h.fresh b hb
  · rw [hfb]
    exact h.low

theorem winode_ok (hlen : s.len = FSSIZE) (ha : a < ROOM) (hs : winode s a d = .ok s') :
    s'.freeinode = s.freeinode ∧ s'.freeblock = s.freeblock ∧ s'.len = s.len ∧
      (∀ b, mkfs.sb.bmapstart ≤ b → s'.img b = s.img b) ∧
      ∀ i, dinodes s' i = if i = a then d else dinodes s i := by
  have hblock := IBLOCK_lt ha
  have hbmap : mkfs.sb.bmapstart < FSSIZE := by decide
  obtain ⟨b, hb, hw⟩ := ok_of_bind hs
  obtain ⟨hlt, rfl⟩ := rsect_small hb hlen (by omega)
  have hw' : wsect s (mkfs.sb.IBLOCK a) ((s.img (mkfs.sb.IBLOCK a)).setDinode (a % IPB) d) = s' :=
    Except.ok.inj hw
  rw [wsect_small hlen hlt] at hw'
  rw [← hw']
  refine ⟨rfl, rfl, rfl, fun c hc => ?_, fun i => ?_⟩
  · exact update_of_ne (by omega) _ _
  · have hmod : a % IPB < IPB := Nat.mod_lt _ (by decide)
    unfold dinodes
    dsimp only
    by_cases hia : i = a
    · rw [if_pos hia, hia, update_self, Block.dinode_setDinode hmod]
    · rw [if_neg hia]
      by_cases hsame : mkfs.sb.IBLOCK i = mkfs.sb.IBLOCK a
      · -- Another inode of the same block.
        have hne : i % IPB ≠ a % IPB := by
          simp only [Superblock.IBLOCK, IPB, BSIZE] at hsame ⊢
          omega
        rw [hsame, update_self, Block.dinode_setDinode_of_ne hne]
      · rw [update_of_ne hsame]

end Inodes

section Calls

variable {s s' : St} {a : Nat} {p : List UInt8}

/-- Between two calls: references in order, and blocks for every file up to its size. -/
structure Whole (s : St) : Prop where
  disk : Disk (dinodes s) s
  counter : s.freeblock ≤ FSSIZE
  mapped : ∀ i < s.freeinode, Mapped (dinodes s) s.img i (dinodes s i).size.toNat
  size : ∀ i < s.freeinode, (dinodes s i).size.toNat ≤ MAXFILE * BSIZE

theorem Whole.iappend (h : Whole s) (hn : s.freeinode ≤ ROOM) (ha : a < s.freeinode)
    (hs : iappend s a p = .ok s') : Whole s' ∧ s'.freeinode = s.freeinode ∧
      (∀ i < s.freeinode, i ≠ a → dinodes s' i = dinodes s i) ∧
      (dinodes s' a).size.toNat = (dinodes s a).size.toNat + p.length := by
  have hbmap : mkfs.sb.bmapstart < nmeta := by decide
  have hnmeta : nmeta < FSSIZE := by decide
  obtain ⟨d, hread, hrest⟩ := ok_of_bind hs
  obtain ⟨⟨s1, d1, off⟩, hloop, hput⟩ := ok_of_bind hrest
  -- The inode in hand is the one of the image.
  have hd : d = dinodes s a := by
    obtain ⟨b, hb, hd⟩ := ok_of_bind hread
    have hblock := IBLOCK_lt (Nat.lt_of_lt_of_le ha hn)
    obtain ⟨-, rfl⟩ := rsect_small hb h.disk.len (by omega)
    exact (Except.ok.inj hd).symm
  subst hd
  -- The loop works on a copy of the inode, which differs from the image until it is put back.
  have hstart : Going (dinodes s) a s (dinodes s a) (dinodes s a).size.toNat := by
    refine ⟨?_, ha, h.counter, ?_, h.size a ha⟩
    · rw [update_eq_self]
      exact h.disk
    · rw [update_eq_self]
      exact h.mapped a ha
  obtain ⟨hgo, hoff, hkept⟩ := hstart.appendLoop p.length (Nat.le_refl _) hloop
  obtain ⟨hinodes, hfb, hlen, himg, hput'⟩ := winode_ok hgo.disk.len
    (Nat.lt_of_lt_of_le ha hn) hput
  have hn1 : s1.freeinode = s.freeinode := hkept.inodes
  have hold : ∀ i < s.freeinode, dinodes s1 i = dinodes s i := by
    intro i hi
    have hblock := IBLOCK_lt (Nat.lt_of_lt_of_le hi hn)
    unfold dinodes
    rw [hkept.low _ (by omega)]
  have hothers : ∀ i < s.freeinode, i ≠ a → dinodes s' i = dinodes s i := by
    intro i hi hia
    rw [hput' i, if_neg hia, hold i hi]
  have hself : dinodes s' a = { d1 with size := UInt32.ofNat off } := by
    rw [hput' a, if_pos rfl]
  have hsize : (dinodes s' a).size.toNat = off := by
    have hle := hgo.size
    have hsmall : MAXFILE * BSIZE < UInt32.size := by decide
    rw [hself]
    exact UInt32.toNat_ofNat_of_lt' (Nat.lt_of_le_of_lt hle hsmall)
  have haddrs : ∀ i < s1.freeinode, (dinodes s' i).addrs = (update (dinodes s) a d1 i).addrs := by
    intro i hi
    by_cases hia : i = a
    · rw [hia, hself, update_self]
    · rw [hothers i (by omega) hia, update_of_ne hia]
  obtain ⟨hdisk, hsame⟩ := hgo.disk.move hinodes hfb hlen (fun b hb => himg b (by omega)) haddrs
  rw [hn1] at hinodes
  refine ⟨⟨hdisk, ?_, fun i hi => ?_, fun i hi => ?_⟩, hinodes, hothers, ?_⟩
  · rw [hfb]
    exact hgo.counter
  · rw [hinodes] at hi
    intro fbn hfbn
    rw [hsame i _ (by omega)]
    by_cases hia : i = a
    · rw [hia, hsize]
      exact hgo.mapped fbn hfbn
    · rw [hothers i hi hia, hkept.others i _ hi (slot_lt hfbn) hia, update_eq_self]
      exact h.mapped i hi fbn hfbn
  · rw [hinodes] at hi
    by_cases hia : i = a
    · rw [hia, hsize]
      exact hgo.size
    · rw [hothers i hi hia]
      exact h.size i hi
  · rw [hsize, hoff]

theorem Whole.ialloc (h : Whole s) (hn : s.freeinode < ROOM) {type : UInt16} {inum : Nat}
    (hs : ialloc s type = .ok (inum, s')) :
    Whole s' ∧ inum = s.freeinode ∧ s'.freeinode = s.freeinode + 1 ∧
      (∀ i < s.freeinode, dinodes s' i = dinodes s i) ∧
      (dinodes s' s.freeinode).size.toNat = 0 := by
  have hbmap : mkfs.sb.bmapstart < nmeta := by decide
  obtain ⟨s1, hput, hrest⟩ := ok_of_bind hs
  have hpair := Except.ok.inj hrest
  simp only [Prod.mk.injEq] at hpair
  obtain ⟨rfl, rfl⟩ := hpair
  obtain ⟨hinodes, hfb, hlen, himg, hput'⟩ := winode_ok
    (s := { s with freeinode := s.freeinode + 1 }) h.disk.len hn hput
  have hold : ∀ i < s.freeinode, dinodes s1 i = dinodes s i := by
    intro i hi
    rw [hput' i, if_neg (by omega)]
    rfl
  have hself : dinodes s1 s.freeinode = { Dinode.zero with type := type, nlink := 1 } := by
    rw [hput' s.freeinode, if_pos rfl]
  have hnone : ∀ k, ref (dinodes s1) s1.img s.freeinode k = 0 := by
    intro k
    unfold ref
    rw [hself]
    split_ifs with hk hz
    · rfl
    · rfl
    · exact absurd rfl hz
  have haddrs : ∀ i < s.freeinode, (dinodes s1 i).addrs = (dinodes s i).addrs := by
    intro i hi
    rw [hold i hi]
  obtain ⟨hdisk, hsame⟩ : Disk (dinodes s1) { s1 with freeinode := s.freeinode } ∧ _ :=
    h.disk.move rfl hfb hlen (fun b hb => himg b (by omega)) haddrs
  have hsize : (dinodes s1 s.freeinode).size.toNat = 0 := by
    rw [hself]
    rfl
  have hin : s1.freeinode = s.freeinode + 1 := hinodes
  refine ⟨⟨⟨?_, hdisk.fresh, hdisk.low, hdisk.len⟩, ?_, fun i hi => ?_, fun i hi => ?_⟩, rfl, hin,
    hold, hsize⟩
  · rw [hin]
    exact hdisk.refs.grow fun k _ => hnone k
  · rw [hfb]
    exact h.counter
  · intro fbn hfbn
    by_cases hlast : i = s.freeinode
    · rw [hlast, hnone, hsize]
      exact iff_of_false (fun hx => hx rfl) (by omega)
    · rw [hin] at hi
      rw [hold i (by omega), hsame i _ (by omega)]
      exact h.mapped i (by omega) fbn hfbn
  · by_cases hlast : i = s.freeinode
    · rw [hlast, hsize]
      exact Nat.zero_le _
    · rw [hin] at hi
      rw [hold i (by omega)]
      exact h.size i (by omega)

end Calls

end Xv6.Mkfs
