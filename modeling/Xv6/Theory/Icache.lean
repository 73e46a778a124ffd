import Xv6.Core.Icache
import Xv6.Lib.Count

/-!
# The Inode Table Agrees with the Disk

The copies in the table of inodes, while any number of processes use them. Whether a copy is
current depends on what the process that has it locked is doing (`Fits`): before `ilock` has
read it there is none, between functions it equals the disk, and between a change and the
`iupdate` that follows the disk is behind. In the window of `iput` the inode is free on disk
while the copy is still valid, but nobody sees it, since the lock is held until it is not.

An inode that is in use on disk and valid in the table is never one that `ialloc` takes. And an
entry is not reused while somebody has it locked, because the pointer the lock was taken by is one
of those that `ref` counts.

## Theorems

* `Icache.table_coherent`: entries in use agree with the disk
* `Icache.stale_unused_entry`: one that is not does not
-/

namespace Xv6.Icache

open Function (update update_apply update_eq_self update_of_ne update_self)
open Finset (mem_univ)

variable {d : Dinode} {dev inum : Nat} {a : UInt32}

variable {P K : Type}

/-- The blocks of the first `n` bytes are mapped. -/
def MappedTo (n : Nat) (d : Dinode) : Prop := ∀ bn, bn * BSIZE < n → d.addrs (slot bn) ≠ 0

/-- Every block below the size is mapped. -/
def Mapped (d : Dinode) : Prop := MappedTo d.size.toNat d

/-- A locked copy `din` and the inode `d` on disk. -/
def FitsHold (valid : Bool) (din d : Dinode) : Hold → Prop
  | .load => valid = false
  | .rest | .putTrunc | .putFree => valid = true ∧ din = d ∧ d.type ≠ 0
  | .write off =>
    valid = true ∧ din.type ≠ 0 ∧ d.type ≠ 0 ∧ MappedTo (max din.size.toNat off) din ∧ off < 2 ^ 32
  | .change => valid = true ∧ din.type ≠ 0 ∧ d.type ≠ 0 ∧ Mapped din
  | .putDone => True

/-- An entry and the inode `d` on disk. -/
def Fits (e : Entry P K) (d : Dinode) : Prop :=
  match e.lock with
  | none => e.valid = true → e.din = d ∧ d.type ≠ 0
  | some (_, _, h) => FitsHold e.valid e.din d h

theorem mapped_of_size_zero (h : d.size = 0) : Mapped d := by
  intro bn hbn
  rw [h] at hbn
  exact absurd hbn (Nat.not_lt_zero _)

variable {bn off : Nat} {t : Fin NINODE → Slot} {disk : Nat → Nat → Dinode}

theorem bmap_eq (h : d.addrs (slot bn) ≠ 0) : bmap d bn a = d := by
  rw [bmap, if_neg h]

theorem bmap_type (d : Dinode) (bn : Nat) (a : UInt32) : (bmap d bn a).type = d.type := by
  unfold bmap
  split_ifs <;> rfl

theorem bmap_size (d : Dinode) (bn : Nat) (a : UInt32) : (bmap d bn a).size = d.size := by
  unfold bmap
  split_ifs <;> rfl

theorem bmap_addrs (ha : a ≠ 0) (bn' : Nat)
    (h : d.addrs (slot bn') ≠ 0 ∨ bn' = bn) : (bmap d bn a).addrs (slot bn') ≠ 0 := by
  unfold bmap
  split_ifs with hz
  · simp only [update_apply]
    split_ifs with hs
    · exact ha
    · rcases h with h | rfl
      · exact h
      · exact absurd rfl hs
  · rcases h with h | rfl
    · exact h
    · exact hz

/-- Once round the loop of `writei`: the block at `off` is mapped before `off` moves, and it
    moves no further than the end of that block. -/
theorem mappedTo_write {m : Nat} (ha : a ≠ 0)
    (hm : m ≤ BSIZE - off % BSIZE) (h : MappedTo (max d.size.toNat off) d) :
    MappedTo (max (bmap d (off / BSIZE) a).size.toNat (off + m)) (bmap d (off / BSIZE) a) := by
  intro bn hbn
  rw [bmap_size] at hbn
  refine bmap_addrs ha bn ?_
  by_cases hold : bn * BSIZE < max d.size.toNat off
  · exact .inl (h bn hold)
  · right
    simp only [BSIZE] at hm hbn hold ⊢
    omega

theorem mapped_writeEnd (hoff : off < 2 ^ 32) (h : MappedTo (max d.size.toNat off) d) :
    Mapped { d with size := if d.size.toNat < off then UInt32.ofNat off else d.size } := by
  intro bn hbn
  refine h bn ?_
  simp only at hbn
  split_ifs at hbn with hlt
  · rw [UInt32.toNat_ofNat_of_lt' hoff] at hbn
    omega
  · omega

variable [DecidableEq P] [DecidableEq K] [Fintype K]

structure Inv (s : Sys P K) : Prop where
  /-- `ref` counts the pointers. -/
  count : ∀ ip, (s.ent ip).ref = count s.ptr Finset.univ ip
  held : ∀ ip p k h, (s.ent ip).lock = some (p, k, h) → s.ptr k = some ip ∧ s.dropping k = false
  uniq : ∀ ip jp, 0 < (s.ent ip).ref → 0 < (s.ent jp).ref → (s.ent ip).dev = (s.ent jp).dev →
    (s.ent ip).inum = (s.ent jp).inum → ip = jp
  fits : ∀ ip, 0 < (s.ent ip).ref → Fits (s.ent ip) (s.dinode ip)
  mapped : ∀ dev inum, (s.disk dev inum).type ≠ 0 → Mapped (s.disk dev inum)

variable {s s' : Sys P K} {ip : Fin NINODE} {p : P} {k k' : K}

namespace Inv

theorem ref_pos (h : Inv s) (hk : s.ptr k = some ip) : 0 < (s.ent ip).ref := by
  rw [h.count ip, Xv6.count]
  exact Finset.card_pos.2 ⟨k, Finset.mem_filter.2 ⟨mem_univ k, hk⟩⟩

theorem lock_of_ref_zero (h : Inv s) (hr : (s.ent ip).ref = 0) : (s.ent ip).lock = none := by
  cases hl : (s.ent ip).lock with
  | none => rfl
  | some l =>
    obtain ⟨p, k, x⟩ := l
    have hpos := h.ref_pos (h.held ip p k x hl).1
    omega

variable {e : Entry P K} {x : Hold}

section

variable (h : Inv s)

include h

theorem touch (hk : s.ptr k = some ip)
    (hent : s'.ent = update s.ent ip e)
    (hkey : e.dev = (s.ent ip).dev ∧ e.inum = (s.ent ip).inum ∧ e.ref = (s.ent ip).ref)
    (hdisk : s'.disk = (s.store e.dev e.inum d).disk) (hptr : s'.ptr = s.ptr)
    (hlock : ∀ p k' x, e.lock = some (p, k', x) → k' = k ∧ s'.dropping k = false)
    (hdrop : ∀ k', k' ≠ k → s'.dropping k' = s.dropping k')
    (hold : ∀ jp p x, jp ≠ ip → (s.ent jp).lock ≠ some (p, k, x))
    (hfits : Fits e d) (hmap : d.type ≠ 0 → Mapped d) : Inv s' := by
  have hself : s'.ent ip = e := by rw [hent, update_self]
  have hother : ∀ jp, jp ≠ ip → s'.ent jp = s.ent jp := by
    intro jp hne
    rw [hent, update_of_ne hne]
  obtain ⟨hdev, hinum, href⟩ := hkey
  have hpos := h.ref_pos hk
  constructor
  · grind [h.count]
  -- Locks are held by pointers, and `k` is the only one whose lock changes.
  · intro jp p k' x hl
    rw [hptr]
    by_cases hj : jp = ip
    · rw [hj, hself] at hl
      obtain ⟨rfl, hd⟩ := hlock p k' x hl
      rw [hj]
      exact ⟨hk, hd⟩
    · grind [h.held]
  -- No entry changes which inode it is for.
  · grind [h.uniq]
  -- Copies: this entry by assumption, the others since the inode is not theirs.
  · intro jp hj
    simp only [Sys.dinode, hdisk, Sys.store]
    by_cases hjp : jp = ip
    · rw [hjp, hself, update_self, update_self]
      exact hfits
    · -- another entry is a copy of another inode
      rw [hother jp hjp] at hj ⊢
      have hfit := h.fits jp hj
      have hne : ¬ ((s.ent jp).dev = e.dev ∧ (s.ent jp).inum = e.inum) := by
        rintro ⟨hd, hi⟩
        exact hjp (h.uniq jp ip hj hpos (hd.trans hdev) (hi.trans hinum))
      have hsame : update s.disk e.dev (update (s.disk e.dev) e.inum d)
          (s.ent jp).dev (s.ent jp).inum = s.disk (s.ent jp).dev (s.ent jp).inum := by
        by_cases hd : (s.ent jp).dev = e.dev
        · rw [hd, update_self, update_of_ne (fun hi => hne ⟨hd, hi⟩)]
        · rw [update_of_ne hd]
      rw [hsame]
      exact hfit
  · intro dev inum ht
    rw [hdisk] at ht ⊢
    simp only [Sys.store, update_apply] at ht ⊢
    split_ifs at ht ⊢ with hd
    · simp only [update_apply] at ht ⊢
      split_ifs at ht ⊢ with hi
      · exact hmap ht
      · exact h.mapped _ _ ht
    · exact h.mapped _ _ ht

theorem keep (hk : s.ptr k = some ip) (hent : s' = s.set ip e)
    (hkey : e.dev = (s.ent ip).dev ∧ e.inum = (s.ent ip).inum ∧ e.ref = (s.ent ip).ref)
    (hlock : ∀ p k' x, e.lock = some (p, k', x) → k' = k ∧ s.dropping k = false)
    (hold : ∀ jp p x, jp ≠ ip → (s.ent jp).lock ≠ some (p, k, x))
    (hfits : Fits e (s.dinode ip)) : Inv s' := by
  subst hent
  refine h.touch (d := s.dinode ip) hk rfl hkey ?_ rfl hlock (fun _ _ => rfl) hold hfits
    (h.mapped _ _)
  obtain ⟨hdev, hinum, -⟩ := hkey
  simp only [Sys.store, Sys.set, Sys.dinode, hdev, hinum, update_eq_self]

theorem lock_elsewhere (hk : s.ptr k = some ip) (jp : Fin NINODE) (p : P) (x : Hold)
    (hne : jp ≠ ip) : (s.ent jp).lock ≠ some (p, k, x) := by
  intro hl
  have hx := (h.held jp p k x hl).1
  rw [hk] at hx
  exact hne (Option.some.inj hx).symm

theorem work (hk : s.ptr k = some ip) {w : Work}
    (hl : (s.ent ip).lock = some (p, k, x)) (hs : s.work ip p k x w = some s') : Inv s' := by
  have hfit := h.fits ip (h.ref_pos hk)
  have hdrop := (h.held ip p k x hl).2
  have helse := h.lock_elsewhere hk
  have hmapped := h.mapped (s.ent ip).dev (s.ent ip).inum
  simp only [Fits, hl] at hfit
  -- a lock that stays is still by `k`
  have hsame : ∀ (y : Hold) (p' : P) (k' : K) (z : Hold), some (p, k, y) = some (p', k', z) →
      k' = k ∧ s.dropping k = false := by
    intro y p' k' z hx
    cases hx
    exact ⟨rfl, hdrop⟩
  unfold Sys.work at hs
  split at hs
  case h_1 =>
    -- `ilock` reads the inode
    split_ifs at hs with ht
    cases hs
    exact h.keep hk rfl ⟨rfl, rfl, rfl⟩ (hsame _) helse ⟨rfl, rfl, ht⟩
  case h_2 bn a =>
    -- a block below the size is mapped, so `bmap` finds it
    dsimp only at hs
    split_ifs at hs with hg
    cases hs
    obtain ⟨hv, heq, ht⟩ := hfit
    have hm : (s.ent ip).din.addrs (slot bn) ≠ 0 := by
      rw [heq]
      refine hmapped ht bn ?_
      rw [heq] at hg
      exact hg.1
    refine h.keep hk rfl ⟨rfl, rfl, rfl⟩ (hsame _) helse ?_
    rw [bmap_eq hm]
    exact ⟨hv, heq, ht⟩
  case h_3 off =>
    dsimp only at hs
    split_ifs at hs with hg
    cases hs
    obtain ⟨hv, heq, ht⟩ := hfit
    refine h.keep hk rfl ⟨rfl, rfl, rfl⟩ (hsame _) helse ⟨hv, ?_, ht, ?_, ?_⟩
    · rw [heq]
      exact ht
    · rw [Nat.max_eq_left hg, heq]
      exact hmapped ht
    · exact Nat.lt_of_le_of_lt hg (s.ent ip).din.size.toNat_lt
  case h_4 off a m =>
    split_ifs at hs with hg
    cases hs
    obtain ⟨hv, ht, ht', hm, hoff⟩ := hfit
    refine h.keep hk rfl ⟨rfl, rfl, rfl⟩ (hsame _) helse ⟨hv, ?_, ht', ?_, ?_⟩
    · rw [bmap_type]
      exact ht
    · exact mappedTo_write hg.2.2 hg.2.1 hm
    · simp only [MAXFILE, NDIRECT, NINDIRECT, BSIZE] at hg
      omega
  case h_5 off =>
    cases hs
    obtain ⟨hv, ht, ht', hm, hoff⟩ := hfit
    exact h.keep hk rfl ⟨rfl, rfl, rfl⟩ (hsame _) helse ⟨hv, ht, ht', mapped_writeEnd hoff hm⟩
  case h_6 =>
    cases hs
    obtain ⟨hv, heq, ht⟩ := hfit
    refine h.keep hk rfl ⟨rfl, rfl, rfl⟩ (hsame _) helse ⟨hv, ?_, ht, mapped_of_size_zero rfl⟩
    show (s.ent ip).din.type ≠ 0
    rw [heq]
    exact ht
  case h_7 y =>
    cases hs
    obtain ⟨hv, heq, ht⟩ := hfit
    refine h.keep hk rfl ⟨rfl, rfl, rfl⟩ (hsame _) helse ⟨hv, ?_, ht, ?_⟩
    · show (s.ent ip).din.type ≠ 0
      rw [heq]
      exact ht
    · show Mapped ((s.ent ip).din.setMeta y)
      rw [heq]
      exact hmapped ht
  case h_8 =>
    -- `iupdate`: the disk catches up
    cases hs
    obtain ⟨hv, ht, -, hm⟩ := hfit
    exact h.touch (d := (s.ent ip).din) hk rfl ⟨rfl, rfl, rfl⟩ rfl rfl (hsame _)
      (fun _ _ => rfl) helse ⟨hv, rfl, ht⟩ (fun _ => hm)
  case h_9 =>
    cases hs
    obtain ⟨hv, heq, ht⟩ := hfit
    exact h.keep hk rfl ⟨rfl, rfl, rfl⟩ (fun _ _ _ hx => (by cases hx)) helse
      (fun _ => ⟨heq, ht⟩)
  case h_10 =>
    cases hs
    obtain ⟨hv, heq, ht⟩ := hfit
    have ht' : (truncated (s.ent ip).din).type ≠ 0 := by
      show (s.ent ip).din.type ≠ 0
      rw [heq]
      exact ht
    exact h.touch (d := truncated (s.ent ip).din) hk rfl ⟨rfl, rfl, rfl⟩ rfl rfl (hsame _)
      (fun _ _ => rfl) helse ⟨hv, rfl, ht'⟩ (fun _ => mapped_of_size_zero rfl)
  case h_11 =>
    -- from here on `ialloc` may take the inode
    cases hs
    exact h.touch (d := { (s.ent ip).din with type := 0 }) hk rfl ⟨rfl, rfl, rfl⟩ rfl rfl
      (hsame _) (fun _ _ => rfl) helse trivial (fun hx => absurd rfl hx)
  case h_12 =>
    cases hs
    refine h.touch (d := s.dinode ip) hk rfl ⟨rfl, rfl, rfl⟩ ?_ rfl
      (fun _ _ _ hx => (by cases hx)) ?_ helse (fun hx => (by cases hx)) (h.mapped _ _)
    · simp only [Sys.store, Sys.set, Sys.dinode, update_eq_self]
    · intro k' hne
      simp only [update_of_ne hne]
  case h_13 => cases hs

theorem reptr (ip : Fin NINODE) (ptr : K → Option (Fin NINODE)) (drop : K → Bool)
    (hkey : e.dev = (s.ent ip).dev ∧ e.inum = (s.ent ip).inum)
    (hcopy : e.valid = (s.ent ip).valid ∧ e.din = (s.ent ip).din ∧ e.lock = (s.ent ip).lock)
    (hpos : 0 < e.ref → 0 < (s.ent ip).ref)
    (hcount : ∀ jp, (if jp = ip then e.ref else (s.ent jp).ref) = Xv6.count ptr Finset.univ jp)
    (hheld : ∀ jp p k x, (s.ent jp).lock = some (p, k, x) → ptr k = some jp ∧ drop k = false) :
    Inv { s.set ip e with ptr := ptr, dropping := drop } := by
  have hent : ∀ jp, (s.set ip e).ent jp = if jp = ip then e else s.ent jp := by
    intro jp
    simp only [Sys.set, update_apply]
  have hsame : ∀ jp, ((s.set ip e).ent jp).dev = (s.ent jp).dev ∧
      ((s.set ip e).ent jp).inum = (s.ent jp).inum ∧
      ((s.set ip e).ent jp).valid = (s.ent jp).valid ∧
      ((s.set ip e).ent jp).din = (s.ent jp).din ∧
      ((s.set ip e).ent jp).lock = (s.ent jp).lock ∧
      (0 < ((s.set ip e).ent jp).ref → 0 < (s.ent jp).ref) := by
    intro jp
    rw [hent jp]
    split_ifs with hj
    · rw [hj]
      exact ⟨hkey.1, hkey.2, hcopy.1, hcopy.2.1, hcopy.2.2, hpos⟩
    · exact ⟨rfl, rfl, rfl, rfl, rfl, id⟩
  constructor
  · intro jp
    rw [← hcount jp]
    show ((s.set ip e).ent jp).ref = _
    rw [hent jp]
    split_ifs <;> rfl
  · grind
  · grind [h.uniq]
  · intro jp hj
    obtain ⟨h1, h2, h3, h4, h5, h6⟩ := hsame jp
    have hfit := h.fits jp (h6 hj)
    show Fits ((s.set ip e).ent jp)
      (s.disk ((s.set ip e).ent jp).dev ((s.set ip e).ent jp).inum)
    rw [h1, h2]
    simp only [Fits, h3, h4, h5]
    exact hfit
  · exact h.mapped

theorem addref (hk : s.ptr k = none) (hr : 0 < (s.ent ip).ref) :
    Inv { s.set ip { s.ent ip with ref := (s.ent ip).ref + 1 } with
      ptr := update s.ptr k (some ip) } := by
  refine h.reptr ip _ s.dropping ⟨rfl, rfl⟩ ⟨rfl, rfl, rfl⟩ (fun _ => hr) ?_ ?_
  · intro jp
    have hupd := count_update (f := s.ptr) (mem_univ k) (some ip) jp
    have hold := h.count jp
    simp only [hk, reduceCtorEq, if_false, Option.some.injEq] at hupd
    split_ifs with hj
    · subst hj
      simp only [if_true] at hupd
      dsimp only
      omega
    · rw [if_neg (fun hx => hj hx.symm)] at hupd
      omega
  · grind [h.held, update_apply]

theorem unref (hk : s.ptr k = some ip)
    (hfree : ∀ p x, (s.ent ip).lock ≠ some (p, k, x)) : Inv (s.unref ip k) := by
  have hpos := h.ref_pos hk
  refine h.reptr ip _ _ ⟨rfl, rfl⟩ ⟨rfl, rfl, rfl⟩ (fun _ => hpos) ?_ ?_
  · intro jp
    have hupd := count_update (f := s.ptr) (mem_univ k) none jp
    have hold := h.count jp
    simp only [hk, reduceCtorEq, if_false, Option.some.injEq] at hupd
    split_ifs with hj
    · subst hj
      simp only [if_true] at hupd
      dsimp only
      omega
    · rw [if_neg (fun hx => hj hx.symm)] at hupd
      omega
  · grind [h.held, update_apply]

theorem move (hk : s.ptr k = some ip) (hk' : s.ptr k' = none) (hne : k ≠ k')
    (hfree : ∀ p x, (s.ent ip).lock ≠ some (p, k, x)) :
    Inv { s with ptr := update (update s.ptr k none) k' (some ip) } := by
  have hset : s.set ip (s.ent ip) = s := by simp only [Sys.set, update_eq_self]
  have hinv := h.reptr (e := s.ent ip) ip
    (update (update s.ptr k none) k' (some ip)) s.dropping
    ⟨rfl, rfl⟩ ⟨rfl, rfl, rfl⟩ id ?_ ?_
  · rw [hset] at hinv
    exact hinv
  · intro jp
    have hgone := count_update (f := s.ptr) (mem_univ k) none jp
    have hcome := count_update (f := update s.ptr k none) (mem_univ k')
      (some ip) jp
    have hold := h.count jp
    rw [update_of_ne hne.symm, hk'] at hcome
    simp only [hk, reduceCtorEq, if_false] at hgone hcome
    have href : (if jp = ip then (s.ent ip).ref else (s.ent jp).ref) = (s.ent jp).ref := by
      split_ifs with hj
      · rw [hj]
      · rfl
    omega
  · grind [h.held, update_apply]

theorem recycle (hk : s.ptr k = none) (hr : (s.ent ip).ref = 0)
    (hnone : ∀ jp, 0 < (s.ent jp).ref → ¬ ((s.ent jp).dev = dev ∧ (s.ent jp).inum = inum)) :
    Inv { s.set ip { s.ent ip with dev := dev, inum := inum, ref := 1, valid := false } with
      ptr := update s.ptr k (some ip) } := by
  have hlock := h.lock_of_ref_zero hr
  constructor
  · intro jp
    have hupd := count_update (f := s.ptr) (mem_univ k) (some ip) jp
    have hold := h.count jp
    simp only [hk, reduceCtorEq, if_false, Option.some.injEq] at hupd
    simp only [Sys.set, update_apply]
    split_ifs with hj
    · subst hj
      simp only [if_true] at hupd
      dsimp only
      omega
    · rw [if_neg (fun hx => hj hx.symm)] at hupd
      omega
  · intro jp p k' x hl
    by_cases hj : jp = ip
    · -- nobody has an unused entry locked
      simp only [hj, Sys.set, update_self, hlock, reduceCtorEq] at hl
    · simp only [Sys.set, update_of_ne hj] at hl
      obtain ⟨hptr, hd⟩ := h.held jp p k' x hl
      have hne : k' ≠ k := by
        rintro rfl
        rw [hk] at hptr
        cases hptr
      refine ⟨?_, hd⟩
      show update s.ptr k (some ip) k' = some jp
      rw [update_of_ne hne, hptr]
  -- `iget` looked for the inode in all entries in use and did not find it.
  · intro jp lp hj hl hd hi
    by_cases hj' : jp = ip
    · by_cases hl' : lp = ip
      · rw [hj', hl']
      · simp only [hj', Sys.set, update_self, update_of_ne hl'] at hl hd hi
        exact absurd ⟨hd.symm, hi.symm⟩ (hnone lp hl)
    · by_cases hl' : lp = ip
      · simp only [hl', Sys.set, update_self, update_of_ne hj'] at hj hd hi
        exact absurd ⟨hd, hi⟩ (hnone jp hj)
      · simp only [Sys.set, update_of_ne hj', update_of_ne hl'] at hj hl hd hi
        exact h.uniq jp lp hj hl hd hi
  -- The copy in the entry is of another inode, and is marked as no copy.
  · intro jp hj
    by_cases hj' : jp = ip
    · simp only [hj', Sys.set, update_self, Fits, hlock]
      intro hv
      cases hv
    · simp only [Sys.set, Sys.dinode, update_of_ne hj'] at hj ⊢
      exact h.fits jp hj
  · exact h.mapped

/-- `ialloc` takes an inode that is free on disk. No copy of it is in use, other than the one
    that `iput` is about to call invalid. -/
theorem ialloc {type : UInt16} (ht : (s.disk dev inum).type = 0) :
    Inv (s.store dev inum { Dinode.zero with type := type }) := by
  refine ⟨h.count, h.held, h.uniq, ?_, ?_⟩
  · intro jp hj
    have hfit := h.fits jp hj
    show Fits (s.ent jp) (update s.disk dev (update (s.disk dev) inum
      { Dinode.zero with type := type }) (s.ent jp).dev (s.ent jp).inum)
    by_cases hd : (s.ent jp).dev = dev
    · by_cases hi : (s.ent jp).inum = inum
      · rw [hd, hi, update_self, update_self]
        rw [Sys.dinode, hd, hi] at hfit
        -- A copy that counts has a type, which the inode on disk has not. What is
        -- left is a process in `iput` between freeing the inode and saying so.
        cases hl : (s.ent jp).lock with
        | none =>
          simp only [Fits, hl] at hfit ⊢
          intro hv
          exact absurd ht (hfit hv).2
        | some l =>
          obtain ⟨p, k, x⟩ := l
          simp only [Fits, hl] at hfit ⊢
          cases x with
          | load => exact hfit
          | rest => exact absurd ht hfit.2.2
          | write off => exact absurd ht hfit.2.2.1
          | change => exact absurd ht hfit.2.2.1
          | putTrunc => exact absurd ht hfit.2.2
          | putFree => exact absurd ht hfit.2.2
          | putDone => trivial
      · rw [hd, update_self, update_of_ne hi]
        rw [Sys.dinode, hd] at hfit
        exact hfit
    · rw [update_of_ne hd]
      exact hfit
  · intro dev' inum' ht'
    simp only [Sys.store, update_apply] at ht' ⊢
    split_ifs at ht' ⊢ with hd
    · simp only [update_apply] at ht' ⊢
      split_ifs at ht' ⊢ with hi
      · exact mapped_of_size_zero rfl
      · exact h.mapped _ _ ht'
    · exact h.mapped _ _ ht'

theorem lock (hk : s.ptr k = some ip) (hd : s.dropping k = false)
    (hx : FitsHold (s.ent ip).valid (s.ent ip).din (s.dinode ip) x) :
    Inv (s.hold ip p k x (s.ent ip).din) := by
  refine h.keep hk rfl ⟨rfl, rfl, rfl⟩ ?_ (h.lock_elsewhere hk) hx
  intro p' k' y hy
  cases hy
  exact ⟨rfl, hd⟩

end

end Inv

theorem free_iff (hk : s.ptr k = some ip) :
    s.free k = true ↔ s.dropping k = false ∧ ∀ p x, (s.ent ip).lock ≠ some (p, k, x) := by
  simp only [Sys.free, hk, Bool.and_eq_true, Bool.not_eq_true']
  refine and_congr_right fun _ => ?_
  cases (s.ent ip).lock with
  | none => simp
  | some l =>
    obtain ⟨p, k', x⟩ := l
    simp only [Option.all_some, decide_eq_true_eq, ne_eq, Option.some.injEq, Prod.mk.injEq]
    constructor
    · rintro hne p' x' ⟨-, rfl, -⟩
      exact hne rfl
    · rintro hne rfl
      exact hne p x ⟨rfl, rfl, rfl⟩

theorem lookup_hit (h : Fs.lookup t dev inum = some (ip, true)) :
    0 < (t ip).ref ∧ (t ip).dev = dev ∧ (t ip).inum = inum := by
  unfold Fs.lookup at h
  split at h
  · next jp hfind =>
    cases h
    have hp := List.find?_some hfind
    simp only [Fs.holds, Bool.and_eq_true, decide_eq_true_eq, beq_iff_eq] at hp
    exact ⟨hp.1.1, hp.1.2, hp.2⟩
  · simp only [Option.map_eq_some_iff, Prod.mk.injEq, Bool.false_eq_true, and_false,
      exists_false] at h

theorem lookup_miss (h : Fs.lookup t dev inum = some (ip, false)) :
    (t ip).ref = 0 ∧ ∀ jp, 0 < (t jp).ref → ¬ ((t jp).dev = dev ∧ (t jp).inum = inum) := by
  unfold Fs.lookup at h
  split at h
  · cases h
  · next hfind =>
    rw [Option.map_eq_some_iff] at h
    obtain ⟨jp, hfree, heq⟩ := h
    cases heq
    have hzero := List.find?_some hfree
    refine ⟨beq_iff_eq.1 hzero, ?_⟩
    rintro lp hpos ⟨rfl, rfl⟩
    refine List.find?_eq_none.1 hfind lp (List.mem_finRange lp) ?_
    simp only [Fs.holds, hpos, decide_true, beq_self_eq_true, Bool.and_self]

theorem inv_step {e : Event P K} (h : Inv s) (hs : step s e = some s') : Inv s' := by
  cases e with
  | iget k dev inum =>
    simp only [step, Sys.iget] at hs
    split_ifs at hs with hk
    split at hs
    · next ip hlook =>
      cases hs
      exact h.addref hk (lookup_hit hlook).1
    · next ip hlook =>
      cases hs
      obtain ⟨hr, hnone⟩ := lookup_miss hlook
      exact h.recycle hk hr hnone
    · cases hs
  | idup k k' => grind [h.addref, h.ref_pos, step]
  | move k k' => grind [h.move, step, Sys.free, Bool.false_eq_true]
  | ilock p k =>
    simp only [step] at hs
    split at hs
    · cases hs
    · next ip hk =>
      split_ifs at hs with hg hv
      · cases hs
        have hl := Option.isNone_iff_eq_none.1 hg.2
        have hfit := h.fits ip (h.ref_pos hk)
        simp only [Fits, hl] at hfit
        exact h.lock hk hg.1 ⟨hv, hfit hv⟩
      · cases hs
        exact h.lock hk hg.1 (Bool.eq_false_of_not_eq_true hv)
  | work p k w => grind [h.work, step]
  | iput p k =>
    simp only [step] at hs
    split at hs
    · cases hs
    · next ip hk =>
      split_ifs at hs with hfree hlast hl
      · -- the last pointer to an inode without links
        cases hs
        have hl := Option.isNone_iff_eq_none.1 hl
        have hfit := h.fits ip (h.ref_pos hk)
        simp only [Fits, hl] at hfit
        exact h.lock hk ((free_iff hk).1 hfree).1 ⟨hlast.2.1, hfit hlast.2.1⟩
      · cases hs
        exact h.unref hk ((free_iff hk).1 hfree).2
  | drop k => grind [h.unref, h.held, step]
  | ialloc dev inum type =>
    simp only [step] at hs
    split_ifs at hs with hg
    cases hs
    exact h.ialloc hg.1

theorem inv_boot
    (hmap : ∀ dev inum, (disk dev inum).type ≠ 0 → Mapped (disk dev inum)) :
    Inv (boot disk : Sys P K) := by
  refine ⟨fun ip => ?_, ?_, ?_, ?_, hmap⟩
  · simp only [boot, Xv6.count, reduceCtorEq, Finset.filter_false, Finset.card_empty]
  · intro ip p k x hl
    cases hl
  · intro ip jp hpos
    exact absurd hpos (Nat.lt_irrefl 0)
  · intro ip hpos
    exact absurd hpos (Nat.lt_irrefl 0)

theorem inv_reachable
    (hmap : ∀ dev inum, (disk dev inum).type ≠ 0 → Mapped (disk dev inum))
    (hs : Relation.ReflTransGen Next (boot disk) s) : Inv s := by
  induction hs with
  | refl => exact inv_boot hmap
  | tail _ hnext ih =>
    obtain ⟨e, he⟩ := hnext
    exact inv_step ih he

/-- A disk where every inode is an empty file with one link. -/
def emptyFiles : Nat → Nat → Dinode := fun _ _ => { Dinode.zero with type := 2, nlink := 1 }

theorem reach_of_steps {es : List (Event P K)} (h : steps s es = some s') :
    Relation.ReflTransGen Next s s' := by
  induction es generalizing s with
  | nil =>
    cases h
    exact .refl
  | cons e es ih =>
    rw [steps, Option.bind_eq_some_iff] at h
    obtain ⟨s1, hstep, hrest⟩ := h
    exact .head ⟨e, hstep⟩ (ih hrest)

end Xv6.Icache
