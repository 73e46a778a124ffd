import Xv6.Core.Kernel
import Xv6.Lib.View

/-!
# Who Changes a Reference Count

The number of references to an inode in memory is changed by three functions only. `iget` and
`idup` add a reference and `iput` drops one; everything else in `fs.c` leaves the counts alone,
and nothing there touches the open files or the processes.

## Theorems

* `Fs.spec_iget`, `Fs.spec_iput`
-/

namespace Xv6

open Function (update_self update_of_ne update_eq_self)

variable {off n : Nat} {b : Nat} {α : Type} {dst : Dst} {src : Src}

/-- The reference counts of the inodes, the open files and the processes. -/
structure Tally where
  refs : Fin NINODE → Nat
  procs : Procs

/-- What a state shows of them. -/
def Vol.Shows (x : Tally) (s : Vol) : Prop :=
  (∀ ip, (s.itable ip).ref = x.refs ip) ∧ s.procs = x.procs

namespace Tally

variable {x : Tally} {ip jp : Fin NINODE}

/-- One reference more. -/
def bump (x : Tally) (ip : Fin NINODE) : Tally :=
  { x with refs := Function.update x.refs ip (x.refs ip + 1) }

/-- One reference less. -/
def drop (x : Tally) (ip : Fin NINODE) : Tally :=
  { x with refs := Function.update x.refs ip (x.refs ip - 1) }

theorem drop_bump : (x.bump ip).drop ip = x := by
  unfold bump drop
  simp only [update_self, Nat.add_sub_cancel, Function.update_idem, update_eq_self]

theorem bump_comm : (x.bump ip).bump jp = (x.bump jp).bump ip := by
  unfold bump
  dsimp only
  congr 1
  funext i
  by_cases hij : ip = jp
  · rw [hij]
  · by_cases hi : i = ip
    · rw [hi, update_of_ne hij, update_self, update_self, update_of_ne hij]
    · by_cases hj : i = jp
      · rw [hj, update_self, update_of_ne (Ne.symm hij), update_of_ne (Ne.symm hij), update_self]
      · rw [update_of_ne hj, update_of_ne hi, update_of_ne hi, update_of_ne hj]

theorem drop_bump_bump : ((x.bump ip).bump jp).drop ip = x.bump jp := by
  rw [bump_comm, drop_bump]

end Tally

/-- The operations on blocks and the log. -/
def FOp.Plain : FOp → Prop
  | .bread _ => True
  | .bmod _ _ => True
  | .logWrite _ => True
  | .brelse _ => True
  | .beginOp => True
  | .endOp => True
  | _ => False

theorem Vol.tables_of_plain {o : FOp} (ho : o.Plain) {s t : Vol} {r : o.Ret}
    (h : handle o s = .ok (r, t)) : t.itable = s.itable ∧ t.procs = s.procs := by
  cases o with
  | bread b =>
    simp only [handle] at h
    split_ifs at h
    cases h
    exact ⟨rfl, rfl⟩
  | bmod b f =>
    cases h
    exact ⟨rfl, rfl⟩
  | logWrite b =>
    simp only [handle] at h
    split at h
    · cases h
      exact ⟨rfl, rfl⟩
    · cases h
  | brelse b =>
    simp only [handle] at h
    split_ifs at h
    cases h
    exact ⟨rfl, rfl⟩
  | beginOp =>
    simp only [handle] at h
    split at h
    · cases h
      exact ⟨rfl, rfl⟩
    · cases h
  | endOp =>
    simp only [handle] at h
    split at h
    · cases h
      exact ⟨rfl, rfl⟩
    · cases h
      exact ⟨rfl, rfl⟩
    · cases h
  | itable => exact ho.elim
  | setInode ip y => exact ho.elim
  | procs => exact ho.elim
  | setProcs y => exact ho.elim
  | stop e => exact ho.elim

namespace Fs

/-- What a program over blocks does to the counts. -/
abbrev Spec {α : Type} (x : Tally) (p : FProg α) (Q : α → Tally → Prop) : Prop :=
  Prog.Spec Vol.handle Vol.Shows x p Q

open Prog (spec_bind spec_call spec_ite spec_pure)

variable {sb : Superblock} {x : Tally} {ip : Fin NINODE} {Q : Unit → Tally → Prop}

section Operations

theorem spec_plain {o : FOp} (ho : o.Plain) {Q : o.Ret → Tally → Prop} (hq : ∀ r, Q r x) :
    Spec x (op o) Q := by
  refine spec_call fun s hx r t hrun => ⟨x, hq r, ?_⟩
  have htab := Vol.tables_of_plain ho hrun
  exact ⟨fun ip => by rw [htab.1, hx.1 ip], htab.2.trans hx.2⟩

theorem spec_panic {Q : α → Tally → Prop} (e : Panic) : Spec x (panic e : FProg α) Q :=
  Prog.spec_stop fun _ => ⟨.panic e, rfl⟩

theorem spec_stuck {Q : α → Tally → Prop} (e : Stop) : Spec x (stop e : FProg α) Q :=
  Prog.spec_stop fun _ => ⟨e, rfl⟩

theorem spec_bread {Q : Block → Tally → Prop} (hq : ∀ d, Q d x) : Spec x (bread b) Q :=
  spec_plain (o := .bread b) trivial hq

theorem spec_brelse (hq : Q () x) : Spec x (brelse b) Q :=
  spec_plain (o := .brelse b) trivial fun _ => hq

theorem spec_edit {f : Block → Block} (hq : Q () x) : Spec x (edit b f) Q := by
  unfold edit
  refine spec_bind (spec_plain (o := .bmod b f) trivial fun _ => ?_)
  refine spec_bind (spec_plain (o := .logWrite b) trivial fun _ => ?_)
  exact spec_brelse hq

theorem spec_inode {Q : Inode → Tally → Prop} (hq : ∀ y : Inode, y.ref = x.refs ip → Q y x) :
    Spec x (inode ip) Q := by
  refine spec_bind (spec_call fun s hx r t hrun => ?_)
  cases hrun
  exact ⟨x, spec_pure (hq _ (hx.1 ip)), hx⟩

theorem spec_putInode {y : Inode}
    (hq : Q () { x with refs := Function.update x.refs ip y.ref }) : Spec x (setInode ip y) Q := by
  refine spec_call fun s hx r t hrun => ?_
  cases hrun
  refine ⟨_, hq, fun jp => ?_, hx.2⟩
  by_cases hj : jp = ip
  · rw [hj]
    simp only [update_self]
  · simp only [update_of_ne hj]
    exact hx.1 jp

theorem spec_setInode {y : Inode} (hy : y.ref = x.refs ip)
    (hq : Q () x) : Spec x (setInode ip y) Q := by
  refine spec_putInode ?_
  rw [hy, update_eq_self]
  exact hq

end Operations

section Blocks

theorem spec_bzero (hq : Q () x) : Spec x (bzero b) Q := by
  unfold bzero
  exact spec_bind (spec_bread fun _ => spec_edit hq)

theorem spec_ballocFrom (fuel b : Nat) {Q : Nat → Tally → Prop} (hq : ∀ a, Q a x) :
    Spec x (ballocFrom sb fuel b) Q := by
  induction fuel generalizing b with
  | zero => exact spec_panic _
  | succ fuel ih =>
    rw [ballocFrom]
    refine spec_ite (fun _ => ?_) fun _ => spec_panic _
    refine spec_bind (spec_bread fun d => ?_)
    split
    · refine spec_bind (spec_edit ?_)
      refine spec_bind (spec_bzero ?_)
      exact spec_pure (hq _)
    · refine spec_bind (spec_brelse ?_)
      exact ih _

theorem spec_balloc {Q : Nat → Tally → Prop} (hq : ∀ a, Q a x) : Spec x (balloc sb) Q :=
  spec_ballocFrom _ _ hq

theorem spec_bfree (hq : Q () x) : Spec x (bfree sb b) Q := by
  unfold bfree
  refine spec_bind (spec_bread fun d => ?_)
  exact spec_ite (fun _ => spec_panic _) fun _ => spec_edit hq

end Blocks

section Inodes

theorem spec_iupdate (hq : Q () x) : Spec x (iupdate sb ip) Q := by
  unfold iupdate
  refine spec_bind (spec_inode fun y _ => ?_)
  exact spec_bind (spec_bread fun _ => spec_edit hq)

variable {k : Fin (NDIRECT + 1)}

theorem spec_setAddr {a : Nat} (hq : Q () x) :
    Spec x (setAddr ip k a) Q := by
  unfold setAddr
  exact spec_bind (spec_inode fun y hy => spec_setInode (by exact hy) hq)

theorem spec_bmapAddr {Q : Nat → Tally → Prop} (hq : ∀ a, Q a x) :
    Spec x (bmapAddr sb ip k) Q := by
  unfold bmapAddr
  refine spec_bind (spec_inode fun y _ => ?_)
  refine spec_ite (fun _ => ?_) fun _ => spec_pure (hq _)
  refine spec_bind (spec_balloc fun a => ?_)
  exact spec_bind (spec_setAddr (spec_pure (hq a)))

theorem spec_bmap {bn : Nat} {Q : Nat → Tally → Prop} (hq : ∀ a, Q a x) :
    Spec x (bmap sb ip bn) Q := by
  unfold bmap
  split
  · exact spec_bmapAddr hq
  · refine spec_ite (fun _ => ?_) fun _ => spec_panic _
    refine spec_bind (spec_bmapAddr fun addr => ?_)
    refine spec_bind (spec_bread fun d => ?_)
    refine spec_ite (fun _ => ?_) fun _ => ?_
    · refine spec_bind (spec_balloc fun a => ?_)
      exact spec_bind (spec_edit (spec_pure (hq a)))
    · exact spec_bind (spec_brelse (spec_pure (hq _)))

theorem spec_truncDirect (l : List (Fin (NDIRECT + 1))) (hq : Q () x) :
    Spec x (truncDirect sb ip l) Q := by
  induction l with
  | nil => exact spec_pure hq
  | cons k ks ih =>
    rw [truncDirect]
    refine spec_bind (spec_inode fun y _ => ?_)
    refine spec_ite (fun _ => ?_) fun _ => ih
    refine spec_bind (spec_bfree ?_)
    exact spec_bind (spec_setAddr ih)

theorem spec_truncEntries {d : Block} (l : List Nat) (hq : Q () x) :
    Spec x (truncEntries sb d l) Q := by
  induction l with
  | nil => exact spec_pure hq
  | cons j js ih =>
    rw [truncEntries]
    refine spec_ite (fun _ => ?_) fun _ => ih
    exact spec_bind (spec_bfree ih)

theorem spec_truncIndirect (hq : Q () x) : Spec x (truncIndirect sb ip) Q := by
  unfold truncIndirect
  refine spec_bind (spec_inode fun y _ => ?_)
  refine spec_ite (fun _ => ?_) fun _ => spec_pure hq
  refine spec_bind (spec_bread fun d => ?_)
  refine spec_bind (spec_truncEntries _ ?_)
  refine spec_bind (spec_brelse ?_)
  refine spec_bind (spec_bfree ?_)
  exact spec_setAddr hq

theorem spec_itrunc (hq : Q () x) : Spec x (itrunc sb ip) Q := by
  unfold itrunc
  refine spec_bind (spec_truncDirect _ ?_)
  refine spec_bind (spec_truncIndirect ?_)
  refine spec_bind (spec_inode fun y hy => ?_)
  refine spec_bind (spec_setInode (by exact hy) ?_)
  exact spec_iupdate hq

theorem spec_ilock (hq : Q () x) : Spec x (ilock sb ip) Q := by
  unfold ilock
  refine spec_bind (spec_inode fun y hy => ?_)
  refine spec_ite (fun _ => spec_panic _) fun _ => ?_
  refine spec_ite (fun _ => spec_stuck _) fun _ => ?_
  refine spec_bind (spec_setInode (by exact hy) ?_)
  refine spec_ite (fun _ => spec_pure hq) fun _ => ?_
  refine spec_bind (spec_bread fun d => ?_)
  refine spec_bind (spec_setInode (by exact hy) ?_)
  refine spec_bind (spec_brelse ?_)
  exact spec_ite (fun _ => spec_panic _) fun _ => spec_pure hq

theorem spec_iunlock (hq : Q () x) : Spec x (iunlock ip) Q := by
  unfold iunlock
  refine spec_bind (spec_inode fun y hy => ?_)
  exact spec_ite (fun _ => spec_panic _) fun _ => spec_setInode (by exact hy) hq

theorem spec_update {f : Meta → Meta} (hq : Q () x) : Spec x (Fs.update sb ip f) Q := by
  unfold Fs.update
  refine spec_bind (spec_inode fun y hy => ?_)
  exact spec_bind (spec_setInode (by exact hy) (spec_iupdate hq))

end Inodes

section Contents

theorem spec_readiFrom (fuel tot off : Nat) (out : List UInt8)
    {Q : Int × List UInt8 → Tally → Prop} (hq : ∀ a, Q a x) :
    Spec x (readiFrom sb ip dst n fuel tot off out) Q := by
  induction fuel generalizing tot off out with
  | zero => exact spec_pure (hq _)
  | succ fuel ih =>
    rw [readiFrom]
    refine spec_ite (fun _ => ?_) fun _ => spec_pure (hq _)
    refine spec_bind (spec_bmap fun a => ?_)
    refine spec_bind (spec_bread fun d => ?_)
    refine spec_bind (spec_brelse ?_)
    exact spec_ite (fun _ => ih _ _ _) fun _ => spec_pure (hq _)

theorem spec_readi {Q : Int × List UInt8 → Tally → Prop}
    (hq : ∀ a, Q a x) : Spec x (readi sb ip dst off n) Q := by
  unfold readi
  refine spec_bind (spec_inode fun y _ => ?_)
  exact spec_ite (fun _ => spec_pure (hq _)) fun _ => spec_readiFrom _ _ _ _ hq

theorem spec_writeiFrom (fuel tot off : Nat) {Q : Nat × Nat → Tally → Prop}
    (hq : ∀ a, Q a x) : Spec x (writeiFrom sb ip src n fuel tot off) Q := by
  induction fuel generalizing tot off with
  | zero => exact spec_pure (hq _)
  | succ fuel ih =>
    rw [writeiFrom]
    refine spec_ite (fun _ => ?_) fun _ => spec_pure (hq _)
    refine spec_bind (spec_bmap fun a => ?_)
    refine spec_bind (spec_bread fun d => ?_)
    refine spec_bind (spec_plain (o := .bmod a _) trivial fun _ => ?_)
    refine spec_ite (fun _ => ?_) fun _ => ?_
    · refine spec_bind (spec_plain (o := .logWrite a) trivial fun _ => ?_)
      exact spec_bind (spec_brelse (ih _ _))
    · exact spec_bind (spec_brelse (spec_pure (hq _)))

theorem spec_writei {Q : Int → Tally → Prop} (hq : ∀ a, Q a x) :
    Spec x (writei sb ip src off n) Q := by
  unfold writei
  refine spec_bind (spec_inode fun y _ => ?_)
  refine spec_ite (fun _ => spec_pure (hq _)) fun _ => ?_
  refine spec_ite (fun _ => spec_pure (hq _)) fun _ => ?_
  refine spec_bind (spec_writeiFrom _ _ _ fun v => ?_)
  refine spec_bind (spec_inode fun z hz => ?_)
  refine spec_bind (spec_setInode (by exact hz) ?_)
  exact spec_bind (spec_iupdate (spec_pure (hq _)))

end Contents

section Counts

theorem spec_iget {dev inum : Nat} {Q : Fin NINODE → Tally → Prop} (hq : ∀ ip, Q ip (x.bump ip)) :
    Spec x (iget dev inum) Q := by
  unfold iget
  refine spec_bind (spec_call fun s hx r t hrun => ?_)
  cases hrun
  refine ⟨x, ?_, hx⟩
  cases hl : lookup (fun ip => (s.itable ip).toSlot) dev inum with
  | none => exact spec_panic _
  | some v =>
    obtain ⟨ip, hit⟩ := v
    cases hit with
    | true =>
      -- A hit, in an entry that is referred to already.
      refine spec_bind (spec_putInode ?_)
      dsimp only
      rw [hx.1 ip]
      exact spec_pure (hq ip)
    | false =>
      -- The scan ends with an entry that nobody refers to.
      have hfree : (s.itable ip).ref = 0 := by
        unfold lookup at hl
        split at hl
        · cases hl
        · obtain ⟨jp, hjp, hpair⟩ := Option.map_eq_some_iff.mp hl
          cases hpair
          exact beq_iff_eq.mp (List.find?_some (p := fun ip => (s.itable ip).ref == 0) hjp)
      rw [hx.1 ip] at hfree
      refine spec_bind (spec_putInode ?_)
      dsimp only
      have hone : 1 = x.refs ip + 1 := by rw [hfree]
      rw [hone]
      exact spec_pure (hq ip)

theorem spec_idup (hq : Q () (x.bump ip)) : Spec x (idup ip) Q := by
  unfold idup
  refine spec_bind (spec_inode fun y hy => spec_putInode ?_)
  dsimp only
  rw [hy]
  exact hq

theorem spec_dropRef (hq : Q () (x.drop ip)) : Spec x (dropRef ip) Q := by
  unfold dropRef
  refine spec_bind (spec_inode fun y hy => spec_putInode ?_)
  dsimp only
  rw [hy]
  exact hq

theorem spec_ifree (hq : Q () x) : Spec x (ifree sb ip) Q := by
  unfold ifree
  refine spec_bind (spec_inode fun y hy => ?_)
  refine spec_ite (fun _ => spec_stuck _) fun _ => ?_
  refine spec_bind (spec_setInode (by exact hy) ?_)
  refine spec_bind (spec_itrunc ?_)
  refine spec_bind (spec_inode fun z hz => ?_)
  refine spec_bind (spec_setInode (by exact hz) ?_)
  refine spec_bind (spec_iupdate ?_)
  refine spec_bind (spec_inode fun w hw => ?_)
  exact spec_setInode (by exact hw) hq

theorem spec_iput (hq : Q () (x.drop ip)) : Spec x (iput sb ip) Q := by
  unfold iput
  refine spec_bind (spec_inode fun y _ => ?_)
  refine spec_ite (fun _ => ?_) fun _ => spec_dropRef hq
  exact spec_bind (spec_ifree (spec_dropRef hq))

theorem spec_iallocFrom {dev : Nat} {type : UInt16} (fuel inum : Nat)
    {Q : Fin NINODE → Tally → Prop} (hq : ∀ ip, Q ip (x.bump ip)) :
    Spec x (iallocFrom sb dev type fuel inum) Q := by
  induction fuel generalizing inum with
  | zero => exact spec_panic _
  | succ fuel ih =>
    rw [iallocFrom]
    refine spec_ite (fun _ => ?_) fun _ => spec_panic _
    refine spec_bind (spec_bread fun d => ?_)
    refine spec_ite (fun _ => ?_) fun _ => ?_
    · exact spec_bind (spec_edit (spec_iget hq))
    · exact spec_bind (spec_brelse (ih _))

end Counts

end Fs

namespace Ino

/-- What a program over the inode layer does to the counts. -/
abbrev Spec {α : Type} (sb : Superblock) (x : Tally) (p : IProg α) (Q : α → Tally → Prop) : Prop :=
  Prog.Spec (Vol.handle.via (Ino.impl sb)) Vol.Shows x p Q

open Prog (spec_pure spec_bind spec_call spec_ite spec_via)

variable {sb : Superblock} {x : Tally} {ip : Fin NINODE} {Q : Unit → Tally → Prop}

theorem spec_iget {dev inum : Nat} {Q : Fin NINODE → Tally → Prop} (hq : ∀ ip, Q ip (x.bump ip)) :
    Spec sb x (iget dev inum) Q := spec_via (o := IOp.iget dev inum) (Fs.spec_iget hq)

theorem spec_idup (hq : Q () (x.bump ip)) : Spec sb x (idup ip) Q :=
  spec_via (o := IOp.idup ip) (Fs.spec_idup hq)

theorem spec_ilock (hq : Q () x) : Spec sb x (ilock ip) Q :=
  spec_via (o := IOp.ilock ip) (Fs.spec_ilock hq)

theorem spec_iunlock (hq : Q () x) : Spec sb x (iunlock ip) Q :=
  spec_via (o := IOp.iunlock ip) (Fs.spec_iunlock hq)

theorem spec_iput (hq : Q () (x.drop ip)) : Spec sb x (iput ip) Q :=
  spec_via (o := IOp.iput ip) (Fs.spec_iput hq)

theorem spec_iunlockput (hq : Q () (x.drop ip)) : Spec sb x (iunlockput ip) Q := by
  unfold iunlockput
  exact spec_bind (spec_iunlock (spec_iput hq))

theorem spec_ialloc {dev : Nat} {type : UInt16} {Q : Fin NINODE → Tally → Prop}
    (hq : ∀ ip, Q ip (x.bump ip)) : Spec sb x (ialloc dev type) Q :=
  spec_via (o := IOp.ialloc dev type) (Fs.spec_iallocFrom _ _ hq)

theorem spec_load {Q : Attr → Tally → Prop} (hq : ∀ a, Q a x) : Spec sb x (load ip) Q := by
  refine spec_via (o := IOp.load ip) ?_
  exact spec_bind (Fs.spec_inode fun y _ => spec_pure (hq _))

theorem spec_update {f : Meta → Meta} (hq : Q () x) :
    Spec sb x (update ip f) Q := spec_via (o := IOp.update ip f) (Fs.spec_update hq)

theorem spec_itrunc (hq : Q () x) : Spec sb x (itrunc ip) Q :=
  spec_via (o := IOp.itrunc ip) (Fs.spec_itrunc hq)

theorem spec_readi {Q : Int × List UInt8 → Tally → Prop}
    (hq : ∀ a, Q a x) : Spec sb x (readi ip dst off n) Q :=
  spec_via (o := IOp.readi ip dst off n) (Fs.spec_readi hq)

theorem spec_writei {Q : Int → Tally → Prop} (hq : ∀ a, Q a x) :
    Spec sb x (writei ip src off n) Q :=
  spec_via (o := IOp.writei ip src off n) (Fs.spec_writei hq)

theorem spec_beginOp (hq : Q () x) : Spec sb x beginOp Q :=
  spec_via (o := IOp.beginOp) (Fs.spec_plain (o := .beginOp) trivial fun _ => hq)

theorem spec_endOp (hq : Q () x) : Spec sb x endOp Q :=
  spec_via (o := IOp.endOp) (Fs.spec_plain (o := .endOp) trivial fun _ => hq)

theorem spec_stop {Q : α → Tally → Prop} (e : Stop) :
    Spec sb x (stop e : IProg α) Q := Prog.spec_stop fun _ => ⟨e, rfl⟩

theorem spec_panic {Q : α → Tally → Prop} (e : Panic) :
    Spec sb x (panic e : IProg α) Q := spec_stop _

theorem spec_procs {Q : Procs → Tally → Prop} (hq : Q x.procs x) : Spec sb x procs Q := by
  refine spec_via (o := IOp.procs) (spec_call fun s hx r t hrun => ?_)
  cases hrun
  refine ⟨x, ?_, hx⟩
  rw [hx.2]
  exact hq

theorem spec_setProcs {y : Procs} (hq : Q () { x with procs := y }) : Spec sb x (setProcs y) Q := by
  refine spec_via (o := IOp.setProcs y) (spec_call fun s hx r t hrun => ?_)
  cases hrun
  exact ⟨_, hq, hx.1, rfl⟩

end Ino

end Xv6
