import Xv6.Theory.Mkfs.Image

/-!
# What the Image Holds

The image as what it is for: a sequence of bytes for every inode. `Holds` relates the two. It says
that an inode has the size of its sequence and that reading through its references gives the
bytes, and every call of the program that touches a file appends to one sequence and leaves the
others alone.

## Theorems

* `Mkfs.Holds.iappend`: appending adds its bytes to one file
-/

namespace Xv6.Mkfs

open Function (update update_self update_of_ne update_idem update_eq_self)

/-- Byte `k` of the file of inode `i`. -/
def fileByte (D : Nat → Dinode) (img : Nat → Block) (i k : Nat) : UInt8 :=
  (img (ref D img i (slot (k / BSIZE)))).byte (k % BSIZE)

/-- How many blocks a file of `n` bytes takes. -/
def blocks (n : Nat) : Nat :=
  if NDIRECT < (n + (BSIZE - 1)) / BSIZE then (n + (BSIZE - 1)) / BSIZE + 1
  else (n + (BSIZE - 1)) / BSIZE

theorem blocks_mono {m n : Nat} (h : m ≤ n) : blocks m ≤ blocks n := by
  simp only [blocks, BSIZE, NDIRECT]
  split_ifs <;> omega

/-- Filling up a block takes a block where it is a new one, and another where it is the first
    that the indirect block is needed for. -/
theorem blocks_add {off n : Nat} (hn : 0 < n) (hend : off + n ≤ (off / BSIZE + 1) * BSIZE) :
    blocks (off + n) = blocks off + (if off % BSIZE = 0 then 1 else 0) +
      if off = NDIRECT * BSIZE then 1 else 0 := by
  simp only [blocks, BSIZE, NDIRECT] at hend ⊢
  split_ifs <;> omega

section Blocks

variable {D : Nat → Dinode} {s : St} {a fbn : Nat}

/-- How many blocks it takes to have file block `fbn`. -/
def cost (D : Nat → Dinode) (img : Nat → Block) (a fbn : Nat) : Nat :=
  (if ref D img a (slot fbn) = 0 then 1 else 0) +
    if NDIRECT ≤ fbn ∧ ref D img a NDIRECT = 0 then 1 else 0

/-- What finding or making a block of a file does, beyond keeping the references in order. -/
structure Took (D : Nat → Dinode) (s : St) (a fbn : Nat) (s' : St) (d' : Dinode) (x : Nat) :
    Prop where
  counter : s'.freeblock = s.freeblock + cost D s.img a fbn
  img : ∀ b, b ≠ ref (update D a d') s'.img a NDIRECT → s'.img b = s.img b
  same : ref D s.img a (slot fbn) ≠ 0 → x = ref D s.img a (slot fbn)
  indirect : ref (update D a d') s'.img a NDIRECT ≠ 0 ↔
    ref D s.img a NDIRECT ≠ 0 ∨ NDIRECT ≤ fbn
  type : d'.type = (D a).type
  inside : x < FSSIZE

variable {s' : St} {d' : Dinode} {k : Fin (NDIRECT + 1)}

theorem type_takeAddr {d : Dinode}
    (h : takeAddr s d k = (s', d')) : d'.type = d.type := by
  unfold takeAddr at h
  split_ifs at h <;> cases h <;> rfl

theorem counter_takeAddr
    (h : takeAddr s (D a) k = (s', d')) :
    s'.freeblock = s.freeblock + (if ref D s.img a k = 0 then 1 else 0) ∧
      (ref D s.img a k ≠ 0 → d' = D a) := by
  have href : ref D s.img a k = ((D a).addrs k).toNat := ref_addr k.isLt
  unfold takeAddr at h
  split_ifs at h with hz
  · have hzero : ref D s.img a k = 0 := by
      rw [href, hz]
      rfl
    cases h
    rw [if_pos hzero]
    exact ⟨rfl, fun hx => absurd hzero hx⟩
  · have hne : ref D s.img a k ≠ 0 := by
      rw [href]
      exact fun hx => hz (UInt32.toNat_inj.mp hx)
    cases h
    rw [if_neg hne]
    exact ⟨rfl, fun _ => rfl⟩

theorem Disk.takes_direct (h : Disk D s) (ha : a < s.freeinode) (hfbn : fbn < NDIRECT)
    (hfb : s.freeblock + cost D s.img a fbn ≤ FSSIZE) :
    ∃ s' d' x, Mkfs.fileBlock s (D a) fbn = .ok (s', d', x) ∧ Took D s a fbn s' d' x := by
  have hslot : slot fbn = fbn := if_pos hfbn
  have hk : fbn < NDIRECT + 1 := by omega
  have hcost : cost D s.img a fbn = if ref D s.img a fbn = 0 then 1 else 0 := by
    rw [cost, if_neg (c := NDIRECT ≤ fbn ∧ ref D s.img a NDIRECT = 0) (by omega), hslot,
      Nat.add_zero]
  cases htake : Mkfs.takeAddr s (D a) ⟨fbn, hk⟩ with
  | mk s' d' =>
    obtain ⟨hdisk, himg, hinodes, -, hne, hold⟩ := h.takeAddr (by omega) ha htake
    obtain ⟨hcounter, hsame⟩ := counter_takeAddr htake
    have hhere : ref (update D a d') s'.img a fbn = (d'.addrs ⟨fbn, hk⟩).toNat := by
      rw [ref_addr hk, update_self]
    have hslots : fbn < SLOTS := Nat.lt_of_lt_of_le hk (by decide)
    have hrange := (hdisk.refs.range a fbn (by omega) hslots (by rw [hhere]; exact hne)).2
    rw [hhere] at hrange
    refine ⟨s', d', (d'.addrs ⟨fbn, hk⟩).toNat, ?_, ?_, fun b _ => by rw [himg], ?_, ?_,
      type_takeAddr htake, ?_⟩
    · unfold Mkfs.fileBlock
      rw [dif_pos hfbn]
      dsimp only
      rw [htake]
    · rw [hcounter, hcost]
    · intro hx
      rw [hslot] at hx ⊢
      rw [ref_addr hk, hsame hx]
    · rw [hold a NDIRECT ha (by decide) (by simp only; omega)]
      constructor
      · exact .inl
      · rintro (hx | hx)
        · exact hx
        · omega
    · rw [hcounter, ← hcost] at hrange
      omega

theorem Disk.takes_indirect (h : Disk D s) (ha : a < s.freeinode) (hge : ¬ fbn < NDIRECT)
    (hfbn : fbn < MAXFILE) (hfb : s.freeblock + cost D s.img a fbn ≤ FSSIZE) :
    ∃ s' d' x, Mkfs.fileBlock s (D a) fbn = .ok (s', d', x) ∧ Took D s a fbn s' d' x := by
  have hslot : slot fbn = NDIRECT + 1 + (fbn - NDIRECT) := by
    rw [slot, if_neg hge]
    omega
  have hentry : 4 * (fbn - NDIRECT) + 4 ≤ BSIZE := by
    simp only [MAXFILE, NDIRECT, NINDIRECT, BSIZE] at hfbn hge ⊢
    omega
  have hcost : cost D s.img a fbn = (if ref D s.img a (slot fbn) = 0 then 1 else 0) +
      if ref D s.img a NDIRECT = 0 then 1 else 0 := by
    unfold cost
    congr 2
    exact propext ⟨And.right, fun hx => ⟨by omega, hx⟩⟩
  cases htake : Mkfs.takeAddr s (D a) indirect with
  | mk s1 d1 =>
    obtain ⟨hdisk, himg, hinodes, -, hne, hold⟩ := h.takeAddr (by omega) ha htake
    obtain ⟨hcounter, -⟩ := counter_takeAddr htake
    have hcounter' : s1.freeblock =
        s.freeblock + if ref D s.img a NDIRECT = 0 then 1 else 0 := hcounter
    have hthere : ref (update D a d1) s1.img a NDIRECT = (d1.addrs indirect).toNat := by
      rw [ref_indirect, update_self]
    have hind : ref (update D a d1) s1.img a NDIRECT ≠ 0 := by
      rw [hthere]
      exact hne
    have hrange := (hdisk.refs.range a NDIRECT (by omega) (by decide) hind).2
    rw [hthere] at hrange
    have hinside : (d1.addrs indirect).toNat < FSSIZE := by omega
    -- The entry in the indirect block is the reference that was there before.
    have hkept : ref (update D a d1) s1.img a (slot fbn) = ref D s.img a (slot fbn) :=
      hold a (slot fbn) ha (slot_lt hfbn) fun hx => slot_ne fbn hx.2
    have hval : ((s1.img (d1.addrs indirect).toNat).u32 (4 * (fbn - NDIRECT))).toNat =
        ref D s.img a (slot fbn) := by
      rw [← hkept, hslot, ref_entry hind, hthere]
    have hiff : ref D s.img a NDIRECT ≠ 0 ∨ NDIRECT ≤ fbn := .inr (by omega)
    have hread := rsect_of_lt hdisk.len hinside
    by_cases hzero : (s1.img (d1.addrs indirect).toNat).u32 (4 * (fbn - NDIRECT)) = 0
    · have hnone : ref D s.img a (slot fbn) = 0 := by
        rw [← hval, hzero]
        rfl
      rw [if_pos hnone] at hcost
      obtain ⟨b, hb⟩ : ∃ b, b = (s1.img (d1.addrs indirect).toNat).setU32 (4 * (fbn - NDIRECT))
        (UInt32.ofNat s1.freeblock) := ⟨_, rfl⟩
      have hnew : (b.u32 (4 * (fbn - NDIRECT))).toNat = s1.freeblock := by
        rw [hb, Block.u32_setU32 hentry]
        exact toNat_ofNat_small (by omega)
      refine ⟨{ s1 with
        img := update s1.img (d1.addrs indirect).toNat b, len := s1.len
        freeblock := s1.freeblock + 1 }, d1, s1.freeblock, ?_, ?_⟩
      · unfold Mkfs.fileBlock
        rw [dif_neg hge, htake]
        dsimp only
        rw [bind_ok hread, if_pos hzero, ← hb, hnew]
        have hw := wsect_small (s := { s1 with freeblock := s1.freeblock + 1 }) (b := b)
          hdisk.len hinside
        rw [hw]
        rfl
      refine ⟨?_, fun b hb => ?_, fun hx => absurd hnone hx, ?_, type_takeAddr htake, ?_⟩
      · change s1.freeblock + 1 = _
        omega
      · rw [ref_indirect, update_self] at hb
        change update s1.img _ _ b = _
        rw [update_of_ne hb, himg]
      · refine iff_of_true ?_ hiff
        rw [ref_indirect, update_self]
        exact hne
      · omega
    · have hsome : ref D s.img a (slot fbn) ≠ 0 := by
        rw [← hval]
        exact fun hx => hzero (UInt32.toNat_inj.mp hx)
      rw [if_neg hsome, Nat.zero_add] at hcost
      refine ⟨s1, d1, _, ?_, ?_, fun b _ => by rw [himg], fun _ => hval, iff_of_true hind hiff,
        type_takeAddr htake, ?_⟩
      · unfold Mkfs.fileBlock
        rw [dif_neg hge, htake]
        dsimp only
        rw [bind_ok hread, if_neg hzero]
        rfl
      · rw [hcounter', hcost]
      · have hlt := (h.refs.range a _ ha (slot_lt hfbn) hsome).2
        rw [hval]
        omega

theorem Disk.takes (h : Disk D s) (ha : a < s.freeinode) (hfbn : fbn < MAXFILE)
    (hfb : s.freeblock + cost D s.img a fbn ≤ FSSIZE) :
    ∃ s' d' x, Mkfs.fileBlock s (D a) fbn = .ok (s', d', x) ∧ Took D s a fbn s' d' x := by
  by_cases hdirect : fbn < NDIRECT
  · exact h.takes_direct ha hdirect hfb
  · exact h.takes_indirect ha hdirect hfbn hfb

end Blocks

section Loop

variable {D : Nat → Dinode} {s : St} {d : Dinode} {a off : Nat} {C : Nat → List UInt8}

/-- In the middle of appending to `a`: the files hold `C`, that of `a` being `off` bytes long. -/
structure Filling (D : Nat → Dinode) (a : Nat) (s : St) (d : Dinode) (off : Nat)
    (C : Nat → List UInt8) : Prop where
  going : Going D a s d off
  length : (C a).length = off
  indirect : ref (update D a d) s.img a NDIRECT ≠ 0 ↔ NDIRECT * BSIZE < off
  mapped : ∀ i < s.freeinode, Mapped (update D a d) s.img i (C i).length
  size : ∀ i < s.freeinode, (C i).length ≤ MAXFILE * BSIZE
  bytes : ∀ i < s.freeinode, ∀ k < (C i).length, fileByte (update D a d) s.img i k = (C i).getD k 0

theorem Filling.cost_eq (h : Filling D a s d off C) {n : Nat} (hn : 0 < n)
    (hend : off + n ≤ (off / BSIZE + 1) * BSIZE) (hfbn : off / BSIZE < MAXFILE) :
    blocks off + cost (update D a d) s.img a (off / BSIZE) = blocks (off + n) := by
  have hslot := h.going.mapped _ hfbn
  have hind := h.indirect
  rw [blocks_add hn hend, cost, Nat.add_assoc]
  congr 2
  · grind
  · grind

theorem byte_round (b : Block) (q old : List UInt8) {k : Nat} (hlen : old.length = off)
    (hk : k < off + q.length) (hsame : k / BSIZE = off / BSIZE)
    (hold : k < off → b.byte (k % BSIZE) = old.getD k 0) :
    (b.blit (off - off / BSIZE * BSIZE) q).byte (k % BSIZE) = (old ++ q).getD k 0 := by
  have hmod : k % BSIZE < BSIZE := Nat.mod_lt _ (by decide)
  rw [Block.byte_blit hmod]
  by_cases hlt : k < off
  · rw [List.getD_append _ _ _ _ (by omega), ← hold hlt, if_neg]
    simp only [BSIZE] at hsame ⊢
    omega
  · grind

theorem Filling.round (h : Filling D a s d off C) {q : List UInt8} (hq : 0 < q.length)
    (hend : off + q.length ≤ (off / BSIZE + 1) * BSIZE) (hfbn : off / BSIZE < MAXFILE)
    (hroom : s.freeblock + blocks (off + q.length) ≤ FSSIZE + blocks off) :
    ∃ s' d' x, fileBlock s d (off / BSIZE) = .ok (s', d', x) ∧ rsect s' x = .ok (s'.img x) ∧
      Filling D a (wsect s' x ((s'.img x).blit (off - off / BSIZE * BSIZE) q)) d'
        (off + q.length) (update C a (C a ++ q)) ∧
      Kept D a s d (wsect s' x ((s'.img x).blit (off - off / BSIZE * BSIZE) q)) d' ∧
      s'.freeblock + blocks off = s.freeblock + blocks (off + q.length) ∧ d'.type = d.type := by
  have ha := h.going.inode
  have hda : (update D a d) a = d := update_self a d D
  have hcost := h.cost_eq hq hend hfbn
  obtain ⟨s', d', x, hfile, htook⟩ := h.going.disk.takes ha hfbn (by omega)
  have hf := h.going.disk.fileBlock h.going.counter ha hfbn hfile
  rw [hda] at hfile
  have hread := rsect_of_lt hf.disk.len htook.inside
  obtain ⟨c, hc⟩ : ∃ c, c = (s'.img x).blit (off - off / BSIZE * BSIZE) q := ⟨_, rfl⟩
  obtain ⟨hgo, hkept⟩ := h.going.round (c := c) hq hend hfbn hfile hread
  refine ⟨s', d', x, hfile, hread, ?_, hc ▸ hkept, ?_, ?_⟩
  · rw [← hc]
    have hdisk := hf.disk
    have hhere := hf.here
    have hothers := hf.others
    have himg := htook.img
    have hind := htook.indirect
    rw [update_idem] at hdisk hhere hothers hind
    simp only [update_idem] at himg
    have ha' : a < s'.freeinode := by
      rw [hf.inodes]
      exact ha
    have hinodes : (wsect s' x c).freeinode = s.freeinode := hf.inodes
    have himg' : (wsect s' x c).img = update s'.img x c := by
      rw [wsect_small hdisk.len htook.inside]
    obtain ⟨-, hstore⟩ := hdisk.store ha' hfbn hhere hf.some c (rfl : s'.len = s'.len)
    have hsame : ∀ i l, i < s.freeinode → ref (update D a d') (wsect s' x c).img i l =
          ref (update D a d') s'.img i l := by
      intro i l hi
      rw [himg']
      exact hstore i l (by rw [hf.inodes]; exact hi)
    have hslots : ∀ i < s.freeinode, ∀ fbn < MAXFILE, ¬ (i = a ∧ fbn = off / BSIZE) →
        ref (update D a d') s'.img i (slot fbn) =
          ref (update D a d) s.img i (slot fbn) := fun i hi fbn hfbn' hne =>
      hothers i _ hi (slot_lt hfbn') (fun hx => hne ⟨hx.1, slot_inj hx.2⟩)
        fun hx => slot_ne fbn hx.2
    -- A block of a file other than the one just taken is as it was.
    have hblock : ∀ i < s.freeinode, ∀ fbn < MAXFILE, ¬ (i = a ∧ fbn = off / BSIZE) →
        ref (update D a d) s.img i (slot fbn) ≠ 0 →
        (wsect s' x c).img (ref (update D a d') (wsect s' x c).img i (slot fbn)) =
          s.img (ref (update D a d) s.img i (slot fbn)) := by
      intro i hi fbn hfbn' hne hsome
      have hi' : i < s'.freeinode := by
        rw [hf.inodes]
        exact hi
      have heq := hslots i hi fbn hfbn' hne
      rw [← heq] at hsome
      rw [hsame i _ hi, himg', update_of_ne, himg, heq]
      · intro hx
        exact slot_ne fbn (hdisk.refs.once i _ a _ hi' (slot_lt hfbn') ha' (by decide) hsome hx).2
      · rw [← hhere]
        intro hx
        have := hdisk.refs.once i _ a _ hi' (slot_lt hfbn') ha' (slot_lt hfbn) hsome hx
        exact hne ⟨this.1, slot_inj this.2⟩
    have hC : ∀ i, i ≠ a → update C a (C a ++ q) i = C i := fun i hia =>
      update_of_ne hia _ _
    have hCa : update C a (C a ++ q) a = C a ++ q := update_self _ _ _
    refine ⟨hgo, ?_, ?_, fun i hi => ?_, fun i hi => ?_, fun i hi k hk => ?_⟩
    · rw [hCa, List.length_append, h.length]
    · rw [hsame a _ ha, hind, h.indirect]
      simp only [BSIZE, NDIRECT] at hend ⊢
      omega
    · rw [hinodes] at hi
      by_cases hia : i = a
      · rw [hia, hCa, List.length_append, h.length]
        exact hgo.mapped
      · rw [hC i hia]
        intro fbn hfbn'
        rw [hsame i _ hi, hslots i hi fbn hfbn' fun hx => hia hx.1]
        exact h.mapped i hi fbn hfbn'
    · rw [hinodes] at hi
      by_cases hia : i = a
      · rw [hia, hCa, List.length_append, h.length]
        exact hgo.size
      · rw [hC i hia]
        exact h.size i hi
    · rw [hinodes] at hi
      by_cases hnew : i = a ∧ k / BSIZE = off / BSIZE
      · obtain ⟨rfl, hk'⟩ := hnew
        rw [hCa, List.length_append, h.length] at hk
        rw [hCa, fileByte, hk', hsame i _ hi, hhere, himg', update_self, hc]
        refine byte_round (s'.img x) q (C i) h.length hk hk' fun hlt => ?_
        -- The block was there before, and still holds what it held.
        have hsome : ref (update D i d) s.img i (slot (off / BSIZE)) ≠ 0 := by
          refine (h.going.mapped _ hfbn).mpr ?_
          simp only [BSIZE] at hk' ⊢
          omega
        have hx := htook.same hsome
        have hbefore := h.bytes i hi k (by rw [h.length]; exact hlt)
        rw [fileByte, hk', ← hx] at hbefore
        rw [← hbefore, himg]
        intro heq
        rw [← hhere] at heq
        exact slot_ne _ (hdisk.refs.once i _ i _ ha' (slot_lt hfbn) ha' (by decide)
          (by rw [hhere]; exact hf.some) heq).2
      · have hlt : k < (C i).length := by
          by_cases hia : i = a
          · rw [hia, hCa, List.length_append, h.length] at hk
            have hne : k / BSIZE ≠ off / BSIZE := fun hx => hnew ⟨hia, hx⟩
            rw [hia, h.length]
            simp only [BSIZE] at hne hend
            omega
          · rwa [hC i hia] at hk
        have hget : (update C a (C a ++ q) i).getD k 0 = (C i).getD k 0 := by
          by_cases hia : i = a
          · rw [hia] at hlt ⊢
            rw [hCa, List.getD_append _ _ _ _ hlt]
          · rw [hC i hia]
        have hmax : k / BSIZE < MAXFILE := by
          have := h.size i hi
          simp only [BSIZE, MAXFILE, NDIRECT, NINDIRECT] at this ⊢
          omega
        have hsome : ref (update D a d) s.img i (slot (k / BSIZE)) ≠ 0 := by
          refine (h.mapped i hi _ hmax).mpr ?_
          exact Nat.lt_of_le_of_lt (Nat.div_mul_le_self k BSIZE) hlt
        rw [hget, ← h.bytes i hi k hlt, fileByte, fileByte, hblock i hi _ hmax hnew hsome]
  · rw [htook.counter]
    omega
  · rw [htook.type, hda]

theorem Filling.appendLoop (fuel : Nat) {p : List UInt8} (hfuel : p.length ≤ fuel)
    (h : Filling D a s d off C) (hsize : off + p.length ≤ MAXFILE * BSIZE)
    (hroom : s.freeblock + blocks (off + p.length) ≤ FSSIZE + blocks off) :
    ∃ s' d', Mkfs.appendLoop fuel s d off p = .ok (s', d', off + p.length) ∧
      Filling D a s' d' (off + p.length) (update C a (C a ++ p)) ∧ Kept D a s d s' d' ∧
      s'.freeblock + blocks off = s.freeblock + blocks (off + p.length) ∧ d'.type = d.type := by
  induction fuel generalizing s d off p C with
  | zero =>
    obtain rfl : p = [] := List.length_eq_zero_iff.mp (Nat.le_zero.mp hfuel)
    refine ⟨s, d, rfl, ?_, ⟨rfl, fun _ _ => rfl, fun _ _ _ _ _ => rfl⟩, rfl, rfl⟩
    rw [List.append_nil, update_eq_self]
    exact h
  | succ fuel ih =>
    by_cases hp : p = []
    · subst hp
      refine ⟨s, d, appendLoop_nil _ _, ?_, ⟨rfl, fun _ _ => rfl, fun _ _ _ _ _ => rfl⟩, rfl, rfl⟩
      rw [List.append_nil, update_eq_self]
      exact h
    · have hlen : 0 < p.length := List.length_pos_iff.mpr hp
      obtain ⟨n, hn⟩ : ∃ n, n = min p.length ((off / BSIZE + 1) * BSIZE - off) := ⟨_, rfl⟩
      have hn' : 0 < n ∧ n ≤ p.length ∧ off + n ≤ (off / BSIZE + 1) * BSIZE := by
        simp only [BSIZE] at hn ⊢
        omega
      have htake : (p.take n).length = n := List.length_take_of_le hn'.2.1
      have hdrop : (p.drop n).length = p.length - n := List.length_drop
      have hfbn : off / BSIZE < MAXFILE := by
        simp only [BSIZE, MAXFILE, NDIRECT, NINDIRECT] at hsize ⊢
        omega
      -- What is left needs no fewer blocks than this round.
      have hmono : blocks (off + n) ≤ blocks (off + p.length) := blocks_mono (by omega)
      obtain ⟨s1, d1, x, hfile, hread, hfill, hkept, hcount, htype⟩ := h.round (q := p.take n)
        (by omega) (by omega) hfbn (by rw [htake]; omega)
      rw [htake] at hfill hcount
      have hall : off + n + (p.drop n).length = off + p.length := by omega
      have hcount' : (wsect s1 x ((s1.img x).blit (off - off / BSIZE * BSIZE)
        (p.take n))).freeblock = s1.freeblock := rfl
      obtain ⟨s', d', hloop, hfill', hkept', hcount'', htype'⟩ := ih
        (p := p.drop n) (by omega) hfill (by omega) (by rw [hall, hcount']; omega)
      rw [hall] at hloop hfill' hcount''
      refine ⟨s', d', ?_, ?_, hkept.trans hkept', by omega, htype'.trans htype⟩
      · rw [Mkfs.appendLoop, if_neg hp, if_pos hfbn, bind_ok hfile]
        dsimp only
        rw [bind_ok hread, ← hn]
        exact hloop
      · rw [update_self, update_idem, List.append_assoc, List.take_append_drop] at hfill'
        exact hfill'

end Loop

section Calls

variable {s : St} {a : Nat} {C : Nat → List UInt8} {p : List UInt8}

/-- The files of the image hold `C`. The blocks before the inodes are as they were made. -/
structure Holds (s : St) (C : Nat → List UInt8) : Prop where
  whole : Whole s
  length : ∀ i < s.freeinode, (dinodes s i).size.toNat = (C i).length
  indirect : ∀ i < s.freeinode, ref (dinodes s) s.img i NDIRECT ≠ 0 ↔ NDIRECT * BSIZE < (C i).length
  bytes : ∀ i < s.freeinode, ∀ k < (C i).length, fileByte (dinodes s) s.img i k = (C i).getD k 0
  head : ∀ b < mkfs.sb.inodestart, s.img b = init.img b

theorem Refs.fileByte_move {D D' : Nat → Dinode} {img img' : Nat → Block} {i k n m fb : Nat}
    (h : Refs (ref D img) m fb) (hi : i < m) (haddrs : (D' i).addrs = (D i).addrs)
    (himg : ∀ b, nmeta ≤ b → img' b = img b) (hmapped : Mapped D img i n)
    (hn : n ≤ MAXFILE * BSIZE) (hk : k < n) : fileByte D' img' i k = fileByte D img i k := by
  have hmax : k / BSIZE < MAXFILE := by
    simp only [BSIZE, MAXFILE, NDIRECT, NINDIRECT] at hn ⊢
    omega
  have hsome : ref D img i (slot (k / BSIZE)) ≠ 0 :=
    (hmapped _ hmax).mpr (Nat.lt_of_le_of_lt (Nat.div_mul_le_self k BSIZE) hk)
  have hrange := (h.range i _ hi (slot_lt hmax) hsome).1
  have href : ref D' img' i (slot (k / BSIZE)) = ref D img i (slot (k / BSIZE)) :=
    ref_congr haddrs (fun hne => himg _ (h.range i NDIRECT hi (by decide) hne).1) _
  rw [fileByte, fileByte, href, himg _ hrange]

theorem winode_head {s' : St} {d : Dinode} (hlen : s.len = FSSIZE) (ha : a < ROOM)
    (hs : winode s a d = .ok s') {b : Nat} (hb : b < mkfs.sb.inodestart) : s'.img b = s.img b := by
  have hblock := IBLOCK_lt ha
  have hbmap : mkfs.sb.bmapstart < FSSIZE := by decide
  obtain ⟨c, hc, hw⟩ := ok_of_bind hs
  obtain ⟨hlt, -⟩ := rsect_small hc hlen (by omega)
  rw [← Except.ok.inj hw, wsect_small hlen hlt]
  have hle : mkfs.sb.inodestart ≤ mkfs.sb.IBLOCK a := Nat.le_add_left _ _
  exact update_of_ne (by omega) _ _

theorem Holds.iappend (h : Holds s C) (hn : s.freeinode ≤ ROOM) (ha : a < s.freeinode)
    (hsize : (C a).length + p.length ≤ MAXFILE * BSIZE)
    (hroom : s.freeblock + blocks ((C a).length + p.length) ≤ FSSIZE + blocks (C a).length) :
    ∃ s', Mkfs.iappend s a p = .ok s' ∧ Holds s' (update C a (C a ++ p)) ∧
      s'.freeinode = s.freeinode ∧
      s'.freeblock + blocks (C a).length = s.freeblock + blocks ((C a).length + p.length) ∧
      ∀ i < s.freeinode, (dinodes s' i).type = (dinodes s i).type := by
  have haroom : a < ROOM := Nat.lt_of_lt_of_le ha hn
  have hbmap : mkfs.sb.bmapstart < nmeta := by decide
  have hstart : Filling (dinodes s) a s (dinodes s a) (C a).length C := by
    refine ⟨⟨?_, ha, h.whole.counter, ?_, by omega⟩, rfl, ?_, ?_, fun i hi => ?_, ?_⟩
    · rw [update_eq_self]
      exact h.whole.disk
    · rw [update_eq_self, ← h.length a ha]
      exact h.whole.mapped a ha
    · rw [update_eq_self]
      exact h.indirect a ha
    · rw [update_eq_self]
      intro i hi
      rw [← h.length i hi]
      exact h.whole.mapped i hi
    · rw [← h.length i hi]
      exact h.whole.size i hi
    · rw [update_eq_self]
      exact h.bytes
  obtain ⟨s1, d1, hloop, hfill, hkept, hcount, htype⟩ :=
    hstart.appendLoop p.length (Nat.le_refl _) hsize hroom
  obtain ⟨s', hput, hfb⟩ := winode_runs hfill.going.disk.len haroom
    { d1 with size := UInt32.ofNat ((C a).length + p.length) }
  have hrun : Mkfs.iappend s a p = .ok s' := by
    unfold Mkfs.iappend
    rw [bind_ok (rinode_runs h.whole.disk.len haroom), h.length a ha, bind_ok hloop]
    exact hput
  obtain ⟨hwhole, hinodes, hothers, hlength⟩ := h.whole.iappend hn ha hrun
  obtain ⟨-, -, -, himg, hput'⟩ := winode_ok hfill.going.disk.len haroom hput
  have hself : dinodes s' a = { d1 with size := UInt32.ofNat ((C a).length + p.length) } := by
    rw [hput' a, if_pos rfl]
  have hn1 : s1.freeinode = s.freeinode := hkept.inodes
  have haddrs : ∀ i < s.freeinode, (dinodes s' i).addrs = (update (dinodes s) a d1 i).addrs := by
    intro i hi
    by_cases hia : i = a
    · rw [hia, hself, update_self]
    · rw [hothers i hi hia, update_of_ne hia]
  have hdata : ∀ b, nmeta ≤ b → s'.img b = s1.img b := fun b hb => himg b (by omega)
  have hC : ∀ i, i ≠ a → update C a (C a ++ p) i = C i := fun i hia =>
    update_of_ne hia _ _
  have hCa : update C a (C a ++ p) a = C a ++ p := update_self _ _ _
  have hind : ∀ i < s.freeinode, ref (dinodes s') s'.img i NDIRECT =
      ref (update (dinodes s) a d1) s1.img i NDIRECT := by
    intro i hi
    rw [ref_indirect, ref_indirect, haddrs i hi]
  refine ⟨s', hrun, ⟨hwhole, fun i hi => ?_, fun i hi => ?_, fun i hi k hk => ?_, fun b hb => ?_⟩,
    hinodes, by omega, fun i hi => ?_⟩
  · rw [hinodes] at hi
    by_cases hia : i = a
    · rw [hia, hCa, hlength, h.length a ha, List.length_append]
    · rw [hC i hia, hothers i hi hia, h.length i hi]
  · rw [hinodes] at hi
    rw [hind i hi]
    by_cases hia : i = a
    · rw [hia, hCa, List.length_append]
      exact hfill.indirect
    · rw [hC i hia, hkept.others i _ hi (by decide) hia, update_eq_self]
      exact h.indirect i hi
  · rw [hinodes] at hi
    rw [hfill.going.disk.refs.fileByte_move (by omega) (haddrs i hi) hdata
      (hfill.mapped i (by omega)) (hfill.size i (by omega)) hk]
    exact hfill.bytes i (by omega) k hk
  · rw [winode_head hfill.going.disk.len haroom hput hb, hkept.low b, h.head b hb]
    have : mkfs.sb.inodestart < nmeta := by decide
    omega
  · by_cases hia : i = a
    · rw [hia, hself]
      exact htype
    · rw [hothers i hi hia]

theorem Holds.ialloc (h : Holds s C) (hn : s.freeinode < ROOM) (type : UInt16) :
    ∃ s', Mkfs.ialloc s type = .ok (s.freeinode, s') ∧
      Holds s' (update C s.freeinode []) ∧ s'.freeinode = s.freeinode + 1 ∧
      s'.freeblock = s.freeblock ∧ (dinodes s' s.freeinode).type = type ∧
      ∀ i < s.freeinode, (dinodes s' i).type = (dinodes s i).type := by
  have hbmap : mkfs.sb.bmapstart < nmeta := by decide
  obtain ⟨s', hput, hfb⟩ := winode_runs (s := { s with freeinode := s.freeinode + 1 })
    h.whole.disk.len hn { Dinode.zero with type := type, nlink := 1 }
  have hrun : Mkfs.ialloc s type = .ok (s.freeinode, s') := by
    unfold Mkfs.ialloc
    rw [bind_ok hput]
    rfl
  obtain ⟨hwhole, -, hinodes, hold, hzero⟩ := h.whole.ialloc hn hrun
  obtain ⟨-, -, -, himg, hput'⟩ := winode_ok (s := { s with freeinode := s.freeinode + 1 })
    h.whole.disk.len hn hput
  have hself : dinodes s' s.freeinode = { Dinode.zero with type := type, nlink := 1 } := by
    rw [hput' s.freeinode, if_pos rfl]
  have hC : ∀ i < s.freeinode, update C s.freeinode [] i = C i := fun i hi =>
    update_of_ne (Nat.ne_of_lt hi) _ _
  have hCn : update C s.freeinode [] s.freeinode = [] := update_self _ _ _
  have hcases : ∀ i < s'.freeinode, i = s.freeinode ∨ i < s.freeinode := by
    intro i hi
    omega
  refine ⟨s', hrun, ⟨hwhole, fun i hi => ?_, fun i hi => ?_, fun i hi k hk => ?_, fun b hb => ?_⟩,
    hinodes, hfb, by rw [hself], fun i hi => by rw [hold i hi]⟩
  · rcases hcases i hi with rfl | hi
    · rw [hCn, hzero]
      rfl
    · rw [hC i hi, hold i hi, h.length i hi]
  · rcases hcases i hi with rfl | hi
    · rw [hCn, ref_indirect, hself]
      exact iff_of_false (fun hx => hx rfl) (by simp)
    · rw [hC i hi, ref_indirect, hold i hi, ← ref_indirect]
      exact h.indirect i hi
  · rcases hcases i hi with rfl | hi
    · rw [hCn] at hk
      exact absurd hk (Nat.not_lt_zero k)
    · rw [hC i hi] at hk ⊢
      rw [h.whole.disk.refs.fileByte_move hi (by rw [hold i hi]) (fun b hb => himg b (by omega))
        (h.whole.mapped i hi) (h.whole.size i hi) (by rw [h.length i hi]; exact hk)]
      exact h.bytes i hi k hk
  · rw [winode_head (s := { s with freeinode := s.freeinode + 1 }) h.whole.disk.len hn hput hb]
    exact h.head b hb

end Calls

end Xv6.Mkfs
