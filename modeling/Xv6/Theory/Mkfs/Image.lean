import Xv6.Theory.Mkfs.Append

/-!
# When the Image Is Well Formed

An image that `mkfs` has finished is well formed except in two cases. Inodes are taken from a
counter that is compared with nothing, so with more than 198 files there are inodes that the
superblock does not know of. And the size of the root directory is rounded up even where its
entries fill their blocks exactly, and the kernel then finds a directory block that is not
mapped.

## Theorems

* `Mkfs.wellFormed_iff`: when the image is well formed
* `Mkfs.hole_in_root`: one that is not
-/

namespace Xv6.Mkfs

variable {fs : List Mkfs.File}

/-- What the kernel relies on. -/
structure WellFormed (s : St) : Prop where
  inodes : ∀ i, 0 < i → i < s.freeinode → i < mkfs.sb.ninodes ∧ mkfs.sb.IBLOCK i < mkfs.sb.bmapstart
  blocks : ∀ i k, 0 < i → i < s.freeinode → k < SLOTS → ref (dinodes s) s.img i k ≠ 0 →
    (nmeta ≤ ref (dinodes s) s.img i k ∧ ref (dinodes s) s.img i k < mkfs.sb.size) ∧
      (s.img mkfs.sb.bmapstart).bit (ref (dinodes s) s.img i k) = true
  once : ∀ i k j l, 0 < i → i < s.freeinode → k < SLOTS → 0 < j → j < s.freeinode → l < SLOTS →
    ref (dinodes s) s.img i k ≠ 0 → ref (dinodes s) s.img i k = ref (dinodes s) s.img j l →
    i = j ∧ k = l
  bitmap : ∀ b < BPB, (s.img mkfs.sb.bmapstart).bit b = true ↔ b < s.freeblock
  mapped : ∀ i, 0 < i → i < s.freeinode → ∀ fbn, fbn * BSIZE < (dinodes s i).size.toNat →
    fbn < MAXFILE ∧ ref (dinodes s) s.img i (slot fbn) ≠ 0

section Files

variable {s s' : St} {a : Nat}

/-- The size of the root directory. -/
def rootSize (s : St) : Nat := (dinodes s ROOTINO).size.toNat

theorem Whole.appendAll (h : Whole s) (hn : s.freeinode ≤ ROOM) (ha : a < s.freeinode)
    {ps : List (List UInt8)} (hs : appendAll s a ps = .ok s') :
    Whole s' ∧ s'.freeinode = s.freeinode ∧
      ∀ i < s.freeinode, i ≠ a → dinodes s' i = dinodes s i := by
  induction ps generalizing s with
  | nil =>
    cases hs
    exact ⟨h, rfl, fun _ _ _ => rfl⟩
  | cons p ps ih =>
    rw [Mkfs.appendAll] at hs
    split_ifs at hs
    · cases hs
      exact ⟨h, rfl, fun _ _ _ => rfl⟩
    · obtain ⟨s1, happ, hrest⟩ := ok_of_bind hs
      obtain ⟨h1, hn1, hold1, -⟩ := h.iappend hn ha happ
      obtain ⟨h', hn', hold'⟩ := ih h1 (by omega) (by omega) hrest
      refine ⟨h', hn'.trans hn1, fun i hi hia => ?_⟩
      rw [hold' i (by omega) hia, hold1 i hi hia]

theorem Whole.addFile (h : Whole s) (hroot : ROOTINO < s.freeinode) (hn : s.freeinode < ROOM)
    {f : Mkfs.File} (hs : addFile s f = .ok s') :
    Whole s' ∧ s'.freeinode = s.freeinode + 1 ∧ rootSize s' = rootSize s + DIRENT := by
  unfold Mkfs.addFile at hs
  split_ifs at hs
  obtain ⟨⟨inum, s1⟩, halloc, hrest⟩ := ok_of_bind hs
  obtain ⟨s2, happ, hall⟩ := ok_of_bind hrest
  obtain ⟨h1, rfl, hn1, hold1, -⟩ := h.ialloc hn halloc
  obtain ⟨h2, hn2, -, hsize2⟩ := h1.iappend (by omega) (by omega) happ
  obtain ⟨h', hn', hold'⟩ := h2.appendAll (by omega) (by omega) hall
  refine ⟨h', by omega, ?_⟩
  -- The file itself is not the root, so the entry is all that the root gets.
  rw [rootSize, rootSize, hold' ROOTINO (by omega) (by omega), hsize2, hold1 ROOTINO hroot,
    Dirent.length_enc]

theorem whole_addFiles (h : Whole s) (hroot : ROOTINO < s.freeinode)
    (hn : s.freeinode + fs.length ≤ ROOM) (hs : addFiles s fs = .ok s') :
    Whole s' ∧ s'.freeinode = s.freeinode + fs.length ∧
      rootSize s' = rootSize s + DIRENT * fs.length := by
  induction fs generalizing s with
  | nil =>
    cases hs
    exact ⟨h, rfl, rfl⟩
  | cons f fs ih =>
    obtain ⟨s1, hadd, hrest⟩ := ok_of_bind hs
    rw [List.length_cons] at hn
    obtain ⟨h1, hn1, hsize1⟩ := h.addFile hroot (by omega) hadd
    obtain ⟨h', hn', hsize'⟩ := ih h1 (by omega) (by omega) hrest
    refine ⟨h', ?_, ?_⟩
    · rw [hn', hn1, List.length_cons]
      omega
    · rw [hsize', hsize1, List.length_cons]
      simp only [DIRENT]
      omega

theorem dinodes_init : dinodes init 0 = Block.zero.dinode 0 := rfl

theorem whole_init : Whole init := by
  have hnone : ∀ k, ref (dinodes init) init.img 0 k = 0 := by
    intro k
    have haddr : ∀ t, (dinodes init 0).addrs t = 0 := fun t => u32_zero _
    unfold ref
    split_ifs with hk hz
    · rw [haddr]
      rfl
    · rfl
    · exact absurd (haddr indirect) hz
  have hsize : (dinodes init 0).size.toNat = 0 := by
    rw [dinodes_init]
    exact congrArg UInt32.toNat (u32_zero 8)
  have hzero : ∀ i < init.freeinode, i = 0 := fun i hi => Nat.lt_one_iff.mp hi
  refine ⟨⟨⟨?_, ?_⟩, ?_, Nat.le_refl _, rfl⟩, by decide, ?_, ?_⟩
  · intro i k hi _ hne
    rw [hzero i hi, hnone] at hne
    exact absurd rfl hne
  · intro i k j l hi _ _ _ hne
    rw [hzero i hi, hnone] at hne
    exact absurd rfl hne
  · intro b hb
    have hne : b ≠ 1 := by
      have : 1 < nmeta := by decide
      have hb' : nmeta ≤ b := hb
      omega
    change Function.update (fun _ => Block.zero) 1 sbBlock b = _
    rw [Function.update_of_ne hne]
  · intro i hi fbn _
    rw [hzero i hi, hnone, hsize]
    exact iff_of_false (fun hx => hx rfl) (by omega)
  · intro i hi
    rw [hzero i hi, hsize]
    exact Nat.zero_le _

theorem whole_makeRoot (hs : makeRoot init = .ok s) :
    Whole s ∧ s.freeinode = 2 ∧ rootSize s = 2 * DIRENT := by
  have hroom : 2 ≤ ROOM := by decide
  obtain ⟨⟨inum, s1⟩, halloc, hrest⟩ := ok_of_bind hs
  obtain ⟨h1, rfl, hn1, -, hsize1⟩ := whole_init.ialloc (by decide) halloc
  dsimp only at hrest
  rw [if_pos (show init.freeinode = ROOTINO from rfl)] at hrest
  obtain ⟨s2, happ, happ'⟩ := ok_of_bind hrest
  have hn1' : s1.freeinode = 2 := hn1
  obtain ⟨h2, hn2, -, hsize2⟩ := h1.iappend (by omega) (by rw [hn1]; exact Nat.lt_succ_self _) happ
  obtain ⟨h', hn', -, hsize'⟩ := h2.iappend (by omega)
    (by rw [hn2, hn1]; exact Nat.lt_succ_self _) happ'
  refine ⟨h', by omega, ?_⟩
  have hroot : rootSize s = _ := hsize'
  rw [hroot, hsize2, hsize1, Dirent.length_enc, Dirent.length_enc]
  rfl

end Files

section Counting

variable {s s' : St} {a : Nat}

variable {d d' : Dinode} {p : List UInt8}

theorem freeinode_winode (hs : winode s a d = .ok s') :
    s'.freeinode = s.freeinode := by
  obtain ⟨b, -, hw⟩ := ok_of_bind hs
  rw [← Except.ok.inj hw]
  rfl

theorem freeinode_takeAddr {k : Fin (NDIRECT + 1)}
    (hs : takeAddr s d k = (s', d')) : s'.freeinode = s.freeinode := by
  unfold takeAddr at hs
  split_ifs at hs <;> (cases hs; rfl)

theorem freeinode_fileBlock {fbn x : Nat}
    (hs : fileBlock s d fbn = .ok (s', d', x)) : s'.freeinode = s.freeinode := by
  unfold fileBlock at hs
  split_ifs at hs with hfbn
  · grind [freeinode_takeAddr]
  · cases htake : takeAddr s d indirect with
    | mk s1 d1 =>
      rw [htake] at hs
      obtain ⟨b, -, hrest⟩ := ok_of_bind hs
      dsimp only at hrest
      have hkeep : s1.freeinode = s.freeinode := freeinode_takeAddr htake
      split_ifs at hrest
      · cases hrest
        exact hkeep
      · cases hrest
        exact hkeep

theorem freeinode_appendLoop (fuel : Nat) {off off' : Nat}
    (hs : appendLoop fuel s d off p = .ok (s', d', off')) : s'.freeinode = s.freeinode := by
  induction fuel generalizing s d off p with
  | zero =>
    cases hs
    rfl
  | succ fuel ih =>
    rw [appendLoop] at hs
    split_ifs at hs
    · cases hs
      rfl
    · obtain ⟨⟨s1, d1, x⟩, hfound, hrest⟩ := ok_of_bind hs
      obtain ⟨b, -, hloop⟩ := ok_of_bind hrest
      have hkeep : s1.freeinode = s.freeinode := freeinode_fileBlock hfound
      exact (ih hloop).trans hkeep

theorem freeinode_iappend (hs : iappend s a p = .ok s') :
    s'.freeinode = s.freeinode := by
  obtain ⟨d, -, hrest⟩ := ok_of_bind hs
  obtain ⟨⟨s1, d1, off⟩, hloop, hput⟩ := ok_of_bind hrest
  exact (freeinode_winode hput).trans (freeinode_appendLoop p.length hloop)

theorem freeinode_ialloc {type : UInt16} {inum : Nat} (hs : ialloc s type = .ok (inum, s')) :
    s'.freeinode = s.freeinode + 1 := by
  obtain ⟨s1, hput, hrest⟩ := ok_of_bind hs
  cases hrest
  exact freeinode_winode hput

theorem freeinode_appendAll {ps : List (List UInt8)} (hs : appendAll s a ps = .ok s') :
    s'.freeinode = s.freeinode := by
  induction ps generalizing s with
  | nil =>
    cases hs
    rfl
  | cons p ps ih =>
    rw [appendAll] at hs
    split_ifs at hs
    · cases hs
      rfl
    · obtain ⟨s1, happ, hrest⟩ := ok_of_bind hs
      exact (ih hrest).trans (freeinode_iappend happ)

theorem freeinode_addFile {f : Mkfs.File} (hs : addFile s f = .ok s') :
    s'.freeinode = s.freeinode + 1 := by
  unfold addFile at hs
  split_ifs at hs
  obtain ⟨⟨inum, s1⟩, halloc, hrest⟩ := ok_of_bind hs
  obtain ⟨s2, happ, hall⟩ := ok_of_bind hrest
  rw [freeinode_appendAll hall, freeinode_iappend happ, freeinode_ialloc halloc]

theorem freeinode_addFiles (hs : addFiles s fs = .ok s') :
    s'.freeinode = s.freeinode + fs.length := by
  induction fs generalizing s with
  | nil =>
    cases hs
    rfl
  | cons f fs ih =>
    obtain ⟨s1, hadd, hrest⟩ := ok_of_bind hs
    rw [ih hrest, freeinode_addFile hadd, List.length_cons]
    omega

end Counting

section Finish

variable {s s' : St}

theorem bit_foldl_setBit {used b : Nat} (hused : used ≤ BPB) (hb : b < BPB) :
    ((List.range used).foldl Block.setBit Block.zero).bit b = decide (b < used) := by
  induction used with
  | zero =>
    have hzero : Block.zero.bit b = false := by
      unfold Block.bit
      rw [Block.byte_zero]
      exact Nat.zero_testBit _
    simpa using hzero
  | succ used ih =>
    rw [List.range_succ, List.foldl_append, List.foldl_cons, List.foldl_nil,
      Block.bit_setBit (by omega) hb, ih (by omega)]
    by_cases heq : b = used
    · rw [if_pos heq, heq]
      simp
    · rw [if_neg heq]
      congr 1
      exact propext ⟨fun h => by omega, fun h => by omega⟩

theorem fixRoot_ok (h : Whole s) (hroot : ROOTINO < s.freeinode) (hs : fixRoot s = .ok s') :
    s'.freeinode = s.freeinode ∧ s'.freeblock = s.freeblock ∧ Disk (dinodes s') s' ∧
      rootSize s' = (rootSize s / BSIZE + 1) * BSIZE ∧
      (∀ i, i ≠ ROOTINO → dinodes s' i = dinodes s i) ∧
      ∀ i l, i < s.freeinode → ref (dinodes s') s'.img i l = ref (dinodes s) s.img i l := by
  have hbmap : mkfs.sb.bmapstart < nmeta := by decide
  have hblock := IBLOCK_lt (a := ROOTINO) (by decide)
  obtain ⟨d, hread, hput⟩ := ok_of_bind hs
  have hd : d = dinodes s ROOTINO := by
    obtain ⟨b, hb, hd⟩ := ok_of_bind hread
    obtain ⟨-, rfl⟩ := rsect_small hb h.disk.len (by decide)
    exact (Except.ok.inj hd).symm
  subst hd
  obtain ⟨hinodes, hfb, hlen, himg, hput'⟩ := winode_ok h.disk.len (by decide) hput
  have haddrs : ∀ i < s.freeinode, (dinodes s' i).addrs = (dinodes s i).addrs := by
    intro i _
    rw [hput' i]
    split_ifs with hi
    · rw [hi]
    · rfl
  obtain ⟨hdisk, hsame⟩ := h.disk.move hinodes hfb hlen (fun b hb => himg b (by omega)) haddrs
  refine ⟨hinodes, hfb, hdisk, ?_, fun i hi => by rw [hput' i, if_neg hi], hsame⟩
  have hle := h.size ROOTINO hroot
  have hsmall : (MAXFILE + 1) * BSIZE < UInt32.size := by decide
  have hround : (rootSize s / BSIZE + 1) * BSIZE ≤ (MAXFILE + 1) * BSIZE :=
    Nat.mul_le_mul_right BSIZE (Nat.succ_le_succ (Nat.div_le_of_le_mul (by rwa [Nat.mul_comm])))
  unfold rootSize at hround ⊢
  rw [hput' ROOTINO, if_pos rfl]
  exact UInt32.toNat_ofNat_of_lt' (Nat.lt_of_le_of_lt hround hsmall)

theorem main_eq (hs : main fs = .ok s) :
    ∃ s0 s1 s2, makeRoot init = .ok s0 ∧ addFiles s0 fs = .ok s1 ∧ fixRoot s1 = .ok s2 ∧
      s2.freeblock < BPB ∧ s = wsect s2 mkfs.sb.bmapstart
        ((List.range s2.freeblock).foldl Block.setBit Block.zero) := by
  obtain ⟨s0, h0, hrest⟩ := ok_of_bind hs
  obtain ⟨s1, h1, hrest⟩ := ok_of_bind hrest
  obtain ⟨s2, h2, hrest⟩ := ok_of_bind hrest
  unfold balloc at hrest
  split_ifs at hrest with hused
  exact ⟨s0, s1, s2, h0, h1, h2, hused, (Except.ok.inj hrest).symm⟩

theorem freeinode_main (hs : main fs = .ok s) : s.freeinode = fs.length + 2 := by
  obtain ⟨s0, s1, s2, h0, h1, h2, -, rfl⟩ := main_eq hs
  obtain ⟨d, -, hput⟩ := ok_of_bind h2
  have hfix : s2.freeinode = s1.freeinode := freeinode_winode hput
  have hadd := freeinode_addFiles h1
  have hroot := (whole_makeRoot h0).2.1
  change s2.freeinode = _
  omega

theorem main_whole (hn : fs.length + 2 ≤ ROOM) (hs : main fs = .ok s) :
    Disk (dinodes s) s ∧ s.freeblock ≤ FSSIZE ∧
      (∀ b < BPB, (s.img mkfs.sb.bmapstart).bit b = true ↔ b < s.freeblock) ∧
      (∀ i < s.freeinode, i ≠ ROOTINO → Mapped (dinodes s) s.img i (dinodes s i).size.toNat ∧
          (dinodes s i).size.toNat ≤ MAXFILE * BSIZE) ∧
      Mapped (dinodes s) s.img ROOTINO (DIRENT * (fs.length + 2)) ∧
      rootSize s = (DIRENT * (fs.length + 2) / BSIZE + 1) * BSIZE := by
  have hbmap : mkfs.sb.bmapstart < nmeta := by decide
  have hbmap' : mkfs.sb.bmapstart < FSSIZE := by decide
  obtain ⟨s0, s1, s2, h0, h1, h2, hused, hs'⟩ := main_eq hs
  obtain ⟨hw0, hn0, hsize0⟩ := whole_makeRoot h0
  have hroot0 : ROOTINO < s0.freeinode := by
    rw [hn0]
    decide
  obtain ⟨hw1, hn1, hsize1⟩ := whole_addFiles hw0 hroot0 (by omega) h1
  -- Rounding up the size of the root is the last thing done to an inode.
  have hroot1 : ROOTINO < s1.freeinode := by omega
  obtain ⟨hn2, hfb2, hdisk2, hsize2, hold2, hsame2⟩ := fixRoot_ok hw1 hroot1 h2
  have hbytes : rootSize s1 = DIRENT * (fs.length + 2) := by
    rw [hsize1, hsize0]
    simp only [DIRENT]
    omega
  rw [wsect_small hdisk2.len hbmap'] at hs'
  -- The free map lies behind the inodes and before the data.
  have hlow : ∀ i < s2.freeinode, dinodes s i = dinodes s2 i := by
    intro i hi
    have hblock := IBLOCK_lt (a := i) (by omega)
    unfold dinodes
    rw [hs']
    dsimp only
    rw [Function.update_of_ne (by omega)]
  have hdata : ∀ b, nmeta ≤ b → s.img b = s2.img b := by
    intro b hb
    rw [hs']
    exact Function.update_of_ne (by omega) _ _
  obtain ⟨hdisk, hsame⟩ : Disk (dinodes s) s ∧ _ := hdisk2.move (by rw [hs']) (by rw [hs'])
    (by rw [hs']) hdata (fun i hi => by rw [hlow i hi])
  have href : ∀ i l, i < s1.freeinode →
      ref (dinodes s) s.img i l = ref (dinodes s1) s1.img i l := by
    intro i l hi
    rw [hsame i l (by omega), hsame2 i l hi]
  have hn : s.freeinode = s1.freeinode := by
    rw [hs']
    exact hn2
  have hfb : s.freeblock = s1.freeblock := by
    rw [hs']
    exact hfb2
  refine ⟨hdisk, ?_, fun b hb => ?_, fun i hi hne => ⟨fun fbn hfbn => ?_, ?_⟩,
    fun fbn hfbn => ?_, ?_⟩
  · rw [hfb]
    exact hw1.counter
  · have hmap : s.img mkfs.sb.bmapstart =
        (List.range s2.freeblock).foldl Block.setBit Block.zero := by
      rw [hs']
      dsimp only
      rw [Function.update_self]
    rw [hmap, bit_foldl_setBit (Nat.le_of_lt hused) hb, hfb, hfb2]
    exact decide_eq_true_iff
  · rw [href i _ (by omega), hlow i (by omega), hold2 i hne]
    exact hw1.mapped i (by omega) fbn hfbn
  · rw [hlow i (by omega), hold2 i hne]
    exact hw1.size i (by omega)
  · rw [href ROOTINO _ hroot1, ← hbytes]
    exact hw1.mapped ROOTINO hroot1 fbn hfbn
  · unfold rootSize
    rw [hlow ROOTINO (by omega), ← hbytes]
    exact hsize2

theorem not_wellFormed_of_full (hn : fs.length + 2 ≤ ROOM)
    (hs : main fs = .ok s) (hfull : (fs.length + 2) % 64 = 0) : ¬ WellFormed s := by
  intro hwf
  obtain ⟨-, -, -, -, hroot, hsize⟩ := main_whole hn hs
  -- The block behind the last full one is below the size and not mapped.
  have hbelow : DIRENT * (fs.length + 2) / BSIZE * BSIZE < (dinodes s ROOTINO).size.toNat := by
    have hsize' : (dinodes s ROOTINO).size.toNat = _ := hsize
    rw [hsize']
    simp only [DIRENT, BSIZE]
    omega
  have hused : ROOTINO < s.freeinode := by
    rw [freeinode_main hs]
    simp only [ROOTINO]
    omega
  obtain ⟨hlt, hne⟩ := hwf.mapped ROOTINO (by decide) hused _ hbelow
  have hmapped := (hroot _ hlt).mp hne
  simp only [DIRENT, BSIZE] at hmapped
  omega

/-- An image that `mkfs` has finished is well formed exactly when there are at most 198 files and
    the entries of the root directory do not fill their blocks. -/
theorem wellFormed_iff (hs : main fs = .ok s) :
    WellFormed s ↔ fs.length ≤ 198 ∧ (fs.length + 2) % 64 ≠ 0 := by
  have hcount := freeinode_main hs
  have hninodes : mkfs.sb.ninodes = 200 := rfl
  have hroom : ROOM = 208 := by decide
  refine ⟨fun hwf => ?_, fun ⟨hfew, hfull⟩ => ?_⟩
  · have hlast := (hwf.inodes (fs.length + 1) (by omega) (by omega)).1
    refine ⟨by omega, fun hfull => ?_⟩
    exact not_wellFormed_of_full (by omega) hs hfull hwf
  · obtain ⟨hdisk, hfb, hbitmap, hfiles, hroot, hsize⟩ := main_whole (by omega) hs
    have hsz : mkfs.sb.size = FSSIZE := rfl
    have hbpb : FSSIZE < BPB := by decide
    refine ⟨fun i _ hi => ⟨by omega, IBLOCK_lt (by omega)⟩, fun i k _ hi hk hne => ?_, ?_,
      hbitmap, ?_⟩
    · have hrange := hdisk.refs.range i k hi hk hne
      refine ⟨⟨hrange.1, by omega⟩, (hbitmap _ (by omega)).mpr hrange.2⟩
    · intro i k j l _ hi hk _ hj hl hne heq
      exact hdisk.refs.once i k j l hi hk hj hl hne heq
    · intro i _ hi fbn hbelow
      by_cases hir : i = ROOTINO
      · subst hir
        have hsize' : (dinodes s ROOTINO).size.toNat = _ := hsize
        rw [hsize'] at hbelow
        -- The rounded size has no block more than the entries use.
        have hused : fbn * BSIZE < DIRENT * (fs.length + 2) := by
          simp only [DIRENT, BSIZE] at hbelow ⊢
          omega
        have hlt : fbn < MAXFILE := by
          have hmax : MAXFILE = 268 := by decide
          simp only [DIRENT, BSIZE] at hused
          omega
        exact ⟨hlt, (hroot fbn hlt).mpr hused⟩
      · obtain ⟨hmapped, hle⟩ := hfiles i hi hir
        have hlt : fbn < MAXFILE := Nat.lt_of_mul_lt_mul_right (Nat.lt_of_lt_of_le hbelow hle)
        exact ⟨hlt, (hmapped fbn hlt).mpr hbelow⟩

end Finish

section Small

variable {s s' : St} {a sec : Nat} {p : List UInt8} {d : Dinode}

theorem bind_ok {ε α β : Type} {x : Except ε α} {f : α → Except ε β} {v : α} (h : x = .ok v) :
    (x >>= f) = f v := by
  rw [h]
  rfl

theorem rsect_of_lt (hlen : s.len = FSSIZE) (hsec : sec < FSSIZE) :
    rsect s sec = .ok (s.img sec) := by
  have heq : sector sec = sec := sector_eq (by omega)
  unfold rsect
  rw [heq, if_pos (by omega)]

theorem winode_runs (hlen : s.len = FSSIZE) (ha : a < ROOM) (d : Dinode) :
    ∃ s', winode s a d = .ok s' ∧ s'.freeblock = s.freeblock := by
  have hblock := IBLOCK_lt ha
  have hbmap : mkfs.sb.bmapstart < FSSIZE := by decide
  unfold winode
  rw [bind_ok (rsect_of_lt hlen (by omega))]
  exact ⟨_, rfl, rfl⟩

theorem rinode_runs (hlen : s.len = FSSIZE) (ha : a < ROOM) : rinode s a = .ok (dinodes s a) := by
  have hblock := IBLOCK_lt ha
  have hbmap : mkfs.sb.bmapstart < FSSIZE := by decide
  unfold rinode
  rw [bind_ok (rsect_of_lt hlen (by omega))]
  rfl

theorem appendLoop_nil (fuel off : Nat) : appendLoop fuel s d off [] = .ok (s, d, off) := by
  cases fuel with
  | zero => rfl
  | succ n => exact if_pos rfl

theorem Whole.fileBlock_runs (h : Whole s) (ha : a < s.freeinode) (hfb : s.freeblock < FSSIZE)
    {fbn : Nat} (hfbn : fbn < NDIRECT) :
    ∃ s' d' x, fileBlock s (dinodes s a) fbn = .ok (s', d', x) ∧ s'.len = FSSIZE ∧ x < FSSIZE ∧
      s'.freeblock ≤ s.freeblock + 1 := by
  have hk : fbn < NDIRECT + 1 := by omega
  unfold fileBlock
  rw [dif_pos hfbn]
  dsimp only
  by_cases hz : (dinodes s a).addrs ⟨fbn, hk⟩ = 0
  · rw [takeAddr, if_pos hz]
    refine ⟨_, _, _, rfl, h.disk.len, ?_, Nat.le_refl _⟩
    simp only [setAddr, Function.update_self]
    rw [toNat_ofNat_small (by omega)]
    exact hfb
  · rw [takeAddr, if_neg hz]
    refine ⟨_, _, _, rfl, h.disk.len, ?_, Nat.le_succ _⟩
    have hne : ref (dinodes s) s.img a fbn ≠ 0 := by
      rw [ref_addr hk]
      exact fun hx => hz (UInt32.toNat_inj.mp hx)
    have hslots : fbn < SLOTS := Nat.lt_of_lt_of_le hk (by decide)
    have hrange := (h.disk.refs.range a fbn ha hslots hne).2
    rw [ref_addr hk] at hrange
    exact Nat.lt_trans hrange hfb

theorem Whole.iappend_runs (h : Whole s) (hn : s.freeinode ≤ ROOM) (ha : a < s.freeinode)
    (hfb : s.freeblock < FSSIZE) (hp : 0 < p.length)
    (hfit : (dinodes s a).size.toNat % BSIZE + p.length ≤ BSIZE)
    (hdirect : (dinodes s a).size.toNat / BSIZE < NDIRECT) :
    ∃ s', Mkfs.iappend s a p = .ok s' ∧ s'.freeblock ≤ s.freeblock + 1 := by
  have hmax : NDIRECT < MAXFILE := by decide
  have haroom : a < ROOM := Nat.lt_of_lt_of_le ha hn
  obtain ⟨s1, d1, x, hfile, hlen1, hx, hfb1⟩ := h.fileBlock_runs ha hfb hdirect
  obtain ⟨fuel, hfuel⟩ : ∃ fuel, p.length = fuel + 1 := ⟨p.length - 1, by omega⟩
  have hpne : p ≠ [] := List.ne_nil_of_length_pos hp
  obtain ⟨off, hoff⟩ : ∃ off, off = (dinodes s a).size.toNat := ⟨_, rfl⟩
  rw [← hoff] at hfit hdirect hfile
  -- All of it goes into the one block.
  have hall : min p.length ((off / BSIZE + 1) * BSIZE - off) = p.length := by
    simp only [BSIZE] at hfit ⊢
    omega
  have hloop : ∃ s2, appendLoop p.length s (dinodes s a) off p =
      .ok (s2, d1, off + p.length) ∧ s2.len = FSSIZE ∧ s2.freeblock = s1.freeblock := by
    refine ⟨wsect s1 x ((s1.img x).blit (off - off / BSIZE * BSIZE) p), ?_, ?_, rfl⟩
    · rw [hfuel, appendLoop, if_neg hpne, if_pos (Nat.lt_trans hdirect hmax), bind_ok hfile]
      dsimp only
      rw [bind_ok (rsect_of_lt hlen1 hx), hall, List.take_length, List.drop_length,
        appendLoop_nil, hfuel]
    · rw [wsect_small hlen1 hx]
      exact hlen1
  obtain ⟨s2, hloop, hlen2, hfb2⟩ := hloop
  obtain ⟨s', hput, hfb'⟩ := winode_runs hlen2 haroom
    { d1 with size := UInt32.ofNat (off + p.length) }
  refine ⟨s', ?_, by omega⟩
  unfold Mkfs.iappend
  rw [bind_ok (rinode_runs h.disk.len haroom), ← hoff, bind_ok hloop]
  exact hput

/-- An empty file, whose name has no slash. -/
def File.Empty (f : Mkfs.File) : Prop := f.reads = [] ∧ 47 ∉ f.shortname

theorem Whole.addFile_runs (h : Whole s) (hroot : ROOTINO < s.freeinode) (hn : s.freeinode < ROOM)
    (hsize : rootSize s = DIRENT * s.freeinode) (hfb : s.freeblock < FSSIZE)
    {f : Mkfs.File} (hf : f.Empty) :
    ∃ s', Mkfs.addFile s f = .ok s' ∧ s'.freeblock ≤ s.freeblock + 1 := by
  obtain ⟨s1, hput, hfb1⟩ := winode_runs (s := { s with freeinode := s.freeinode + 1 })
    h.disk.len hn { Dinode.zero with type := T_FILE, nlink := 1 }
  have halloc : Mkfs.ialloc s T_FILE = .ok (s.freeinode, s1) := by
    unfold Mkfs.ialloc
    rw [bind_ok hput]
    rfl
  obtain ⟨h1, -, hn1, hold1, -⟩ := h.ialloc hn halloc
  have hfb1' : s1.freeblock = s.freeblock := hfb1
  have hsize1 : (dinodes s1 ROOTINO).size.toNat = DIRENT * s.freeinode := by
    rw [hold1 ROOTINO hroot]
    exact hsize
  have hroom : ROOM = 208 := by decide
  obtain ⟨s2, happ, hfb2⟩ := h1.iappend_runs (a := ROOTINO)
    (p := Dirent.enc (UInt16.ofNat s.freeinode) f.entry) (by omega) (by omega) (by omega)
    (by rw [Dirent.length_enc]; decide)
    (by rw [hsize1, Dirent.length_enc]; simp only [DIRENT, BSIZE]; omega)
    (by rw [hsize1]; simp only [DIRENT, BSIZE, NDIRECT]; omega)
  refine ⟨s2, ?_, by omega⟩
  unfold Mkfs.addFile
  rw [if_neg hf.2, bind_ok halloc]
  dsimp only
  rw [bind_ok happ, hf.1]
  rfl

theorem Whole.addFiles_runs (h : Whole s) (hroot : ROOTINO < s.freeinode)
    (hsize : rootSize s = DIRENT * s.freeinode)
    (hn : s.freeinode + fs.length ≤ ROOM) (hfb : s.freeblock + fs.length ≤ FSSIZE)
    (hfs : ∀ f ∈ fs, f.Empty) : ∃ s', Mkfs.addFiles s fs = .ok s' := by
  induction fs generalizing s with
  | nil => exact ⟨s, rfl⟩
  | cons f fs ih =>
    rw [List.length_cons] at hn hfb
    obtain ⟨s1, hadd, hfb1⟩ := h.addFile_runs hroot (by omega) hsize (by omega)
      (hfs f List.mem_cons_self)
    obtain ⟨h1, hn1, hsize1⟩ := h.addFile hroot (by omega) hadd
    have hsize1' : rootSize s1 = DIRENT * s1.freeinode := by
      rw [hsize1, hn1, hsize, Nat.mul_succ]
    obtain ⟨s', hrest⟩ := ih h1 (by omega) hsize1' (by omega) (by omega)
      fun g hg => hfs g (List.mem_cons_of_mem f hg)
    refine ⟨s', ?_⟩
    rw [Mkfs.addFiles, bind_ok hadd]
    exact hrest

theorem main_runs (fs : List Mkfs.File) (hn : fs.length + 2 ≤ ROOM) (hfs : ∀ f ∈ fs, f.Empty) :
    ∃ s, main fs = .ok s := by
  have hroom : ROOM = 208 := by decide
  have hfssize : nmeta + 1 + ROOM ≤ FSSIZE := by decide
  -- The root directory is made on a fixed image, so that part can be run.
  obtain ⟨s0, h0, hfb0⟩ : ∃ s0, makeRoot init = .ok s0 ∧ s0.freeblock = nmeta + 1 := by
    have hrun : (match makeRoot init with
        | .ok s => decide (s.freeblock = nmeta + 1)
        | .error _ => false) = true := by
      decide +kernel
    split at hrun
    · next s0 h0 => exact ⟨s0, h0, of_decide_eq_true hrun⟩
    · cases hrun
  have hnmeta : nmeta = 46 := by decide
  obtain ⟨hw0, hn0, hsize0⟩ := whole_makeRoot h0
  have hroot0 : ROOTINO < s0.freeinode := by
    rw [hn0]
    decide
  obtain ⟨s1, h1⟩ := hw0.addFiles_runs hroot0 (by rw [hsize0, hn0, Nat.mul_comm]) (by omega)
    (by omega) hfs
  obtain ⟨hw1, hn1, -⟩ := whole_addFiles hw0 hroot0 (by omega) h1
  have hrootroom : ROOTINO < ROOM := by decide
  obtain ⟨s2, h2, hfb2⟩ := winode_runs hw1.disk.len hrootroom
    { dinodes s1 ROOTINO with
      size := UInt32.ofNat (((dinodes s1 ROOTINO).size.toNat / BSIZE + 1) * BSIZE) }
  have hfix : fixRoot s1 = .ok s2 := by
    unfold fixRoot
    rw [bind_ok (rinode_runs hw1.disk.len hrootroom)]
    exact h2
  have hused : s2.freeblock < BSIZE * 8 := by
    have hcounter := hw1.counter
    have hbits : FSSIZE < BSIZE * 8 := by decide
    omega
  unfold main
  rw [bind_ok h0, bind_ok h1, bind_ok hfix]
  unfold balloc
  rw [if_pos hused]
  exact ⟨_, rfl⟩

/-- A file of three bytes and an empty one. -/
theorem wellFormed_two_files :
    ∃ s, main [⟨[97], [[1, 2, 3]]⟩, ⟨[98], []⟩] = .ok s ∧ WellFormed s := by
  have hrun : (match main [⟨[97], [[1, 2, 3]]⟩, ⟨[98], []⟩] with
      | .ok _ => true
      | .error _ => false) = true := by
    decide +kernel
  split at hrun
  · next s hs => exact ⟨s, hs, (wellFormed_iff hs).mpr ⟨by decide, by decide⟩⟩
  · cases hrun

/-- Empty files with the names `a0`, `a1` and so on, with one more character each. -/
def emptyFiles (n : Nat) : List Mkfs.File :=
  (List.range n).map fun i => ⟨[97, UInt8.ofNat (48 + i)], []⟩

/-- With 62 files the root directory has 64 entries in one block, and a size of two. -/
theorem hole_in_root : ((emptyFiles 62).map fun f => f.entry.take DIRSIZ).Nodup ∧
    ∃ s, main (emptyFiles 62) = .ok s ∧ ¬ WellFormed s := by
  have hlen : (emptyFiles 62).length = 62 := by decide
  have hempty : ∀ f ∈ emptyFiles 62, f.Empty := by
    unfold File.Empty
    decide +kernel
  obtain ⟨s, hs⟩ := main_runs (emptyFiles 62) (by rw [hlen]; decide) hempty
  exact ⟨by decide +kernel, s, hs, not_wellFormed_of_full (by rw [hlen]; decide) hs (by rw [hlen])⟩

end Small

end Xv6.Mkfs
