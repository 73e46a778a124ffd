import Xv6.Theory.Files.Refs

/-!
# Paths Keep No Reference

Every function above the inode layer that looks up a name has the references it took at its
exits: the one to the inode it answers with, and no other. The error exits and the paths on
which parent and child are one inode are the same in this respect, because what is counted is
references and not inodes.

## Theorems

* `Ino.spec_create`, `Ino.spec_sysUnlink`, `Ino.spec_exec`
-/

namespace Xv6.Ino

open Prog (spec_pure spec_bind spec_ite)
open Tally (drop_bump drop_bump_bump)

attribute [local grind ←] spec_bind spec_pure spec_readi spec_panic spec_iget spec_load spec_writei
  spec_iput spec_ilock spec_iunlockput spec_iunlock spec_idup spec_procs spec_stop spec_update
  spec_endOp spec_beginOp spec_ialloc
attribute [local grind =] drop_bump drop_bump_bump

variable {sb : Superblock} {x : Tally} {ip dp : Fin NINODE} {p : Fin NPROC}

section Directories

variable {name : List UInt8} {Q : Option (Fin NINODE × Nat) → Tally → Prop}

@[local grind ←]
theorem spec_dirlookupFrom {a : Attr} (fuel off : Nat) (hnone : Q none x)
    (hsome : ∀ ip off, Q (some (ip, off)) (x.bump ip)) :
    Spec sb x (dirlookupFrom dp a name fuel off) Q := by
  induction fuel generalizing off with
  | zero => exact spec_pure hnone
  | succ fuel ih =>
    grind [dirlookupFrom]

@[local grind ←]
theorem spec_dirlookup
    (hnone : Q none x) (hsome : ∀ ip off, Q (some (ip, off)) (x.bump ip)) :
    Spec sb x (dirlookup dp name) Q := by
  grind [dirlookup]

@[local grind ←]
theorem spec_freeSlotFrom {size : Nat} (fuel off : Nat) {Q : Nat → Tally → Prop}
    (hq : ∀ n, Q n x) : Spec sb x (freeSlotFrom dp size fuel off) Q := by
  induction fuel generalizing off with
  | zero => exact spec_pure (hq _)
  | succ fuel ih =>
    grind [freeSlotFrom]

@[local grind ←]
theorem spec_dirlink {inum : Nat} {Q : Bool → Tally → Prop}
    (hq : ∀ b, Q b x) : Spec sb x (dirlink dp name inum) Q := by
  unfold dirlink
  refine spec_bind (spec_dirlookup ?_ fun ip off => ?_)
  · refine spec_bind (spec_load fun a => ?_)
    refine spec_bind (spec_freeSlotFrom _ _ fun off => ?_)
    refine spec_bind (spec_writei fun r => ?_)
    exact spec_ite (fun _ => spec_panic _) fun _ => spec_pure (hq true)
  · -- The name is there already, and its inode is let go.
    refine spec_bind (spec_iput ?_)
    rw [drop_bump]
    exact spec_pure (hq false)

end Directories

section Paths

variable {parent : Bool} {Q : Option (Fin NINODE × List UInt8) → Tally → Prop} {path : Path}

@[local grind ←]
theorem spec_namexFrom (names : List (List UInt8)) (hnone : Q none x)
    (hsome : ∀ ip name, Q (some (ip, name)) (x.bump ip)) :
    Spec sb (x.bump ip) (namexFrom parent ip names) Q := by
  induction names generalizing ip with
  | nil =>
    rw [namexFrom]
    refine spec_ite (fun _ => ?_) fun _ => spec_pure (hsome ip [])
    refine spec_bind (spec_iput ?_)
    rw [drop_bump]
    exact spec_pure hnone
  | cons name rest ih =>
    rw [namexFrom]
    refine spec_bind (spec_ilock ?_)
    refine spec_bind (spec_load fun a => ?_)
    refine spec_ite (fun _ => ?_) fun _ => ?_
    · refine spec_bind (spec_iunlockput ?_)
      rw [drop_bump]
      exact spec_pure hnone
    · refine spec_ite (fun _ => ?_) fun _ => ?_
      · exact spec_bind (spec_iunlock (spec_pure (hsome ip name)))
      · refine spec_bind (spec_dirlookup ?_ fun next off => ?_)
        · refine spec_bind (spec_iunlockput ?_)
          rw [drop_bump]
          exact spec_pure hnone
        · -- The reference to the directory is exchanged for the one to its entry.
          refine spec_bind (spec_iunlockput ?_)
          rw [drop_bump_bump]
          exact ih

@[local grind ←]
theorem spec_namex (hnone : Q none x)
    (hsome : ∀ ip name, Q (some (ip, name)) (x.bump ip)) : Spec sb x (namex p path parent) Q := by
  unfold namex
  grind

@[local grind ←]
theorem spec_namei {Q : Option (Fin NINODE) → Tally → Prop} (hnone : Q none x)
    (hsome : ∀ ip, Q (some ip) (x.bump ip)) : Spec sb x (namei p path) Q := by
  grind [namei]

@[local grind ←]
theorem spec_nameiparent
    (hnone : Q none x) (hsome : ∀ ip name, Q (some (ip, name)) (x.bump ip)) :
    Spec sb x (nameiparent p path) Q := spec_namex hnone hsome

@[local grind ←]
theorem spec_createDots {dinum inum : Nat} {Q : Unit → Tally → Prop} (hq : Q () x) :
    Spec sb x (createDots dp ip dinum inum) Q := by
  unfold createDots
  refine spec_bind (spec_update ?_)
  refine spec_bind (spec_dirlink fun b => ?_)
  refine spec_ite (fun _ => ?_) fun _ => spec_panic _
  refine spec_bind (spec_dirlink fun b => ?_)
  grind

@[local grind ←]
theorem spec_create {type major minor : UInt16}
    {Q : Option (Fin NINODE) → Tally → Prop} (hnone : Q none x)
    (hsome : ∀ ip, Q (some ip) (x.bump ip)) : Spec sb x (create p path type major minor) Q := by
  unfold create
  refine spec_bind (spec_nameiparent (spec_pure hnone) fun dp name => ?_)
  refine spec_bind (spec_ilock ?_)
  refine spec_bind (spec_dirlookup ?_ fun ip off => ?_)
  · refine spec_bind (spec_load fun d => ?_)
    refine spec_bind (spec_ialloc fun ip => ?_)
    refine spec_bind (spec_ilock ?_)
    refine spec_bind (spec_update ?_)
    refine spec_bind (spec_load fun a => ?_)
    have hend : Spec sb ((x.bump dp).bump ip) (do
        if ← dirlink dp name a.inum then
          iunlockput dp
          return some ip
        else panic .createDirlink) Q := by
      refine spec_bind (spec_dirlink fun b => ?_)
      refine spec_ite (fun _ => ?_) fun _ => spec_panic _
      refine spec_bind (spec_iunlockput ?_)
      rw [drop_bump_bump]
      exact spec_pure (hsome ip)
    refine spec_ite (fun _ => ?_) fun _ => hend
    exact spec_bind (spec_createDots hend)
  · -- The name exists. With `.` the two inodes are one, and it still has two references.
    refine spec_bind (spec_iunlockput ?_)
    rw [drop_bump_bump]
    refine spec_bind (spec_ilock ?_)
    refine spec_bind (spec_load fun a => ?_)
    refine spec_ite (fun _ => spec_pure (hsome ip)) fun _ => ?_
    refine spec_bind (spec_iunlockput ?_)
    rw [drop_bump]
    exact spec_pure hnone

@[local grind ←]
theorem spec_openInode {omode : UInt32} {Q : Option (Fin NINODE) → Tally → Prop}
    (hnone : Q none x) (hsome : ∀ ip, Q (some ip) (x.bump ip)) :
    Spec sb x (openInode p path omode) Q := by
  unfold openInode
  refine spec_ite (fun _ => spec_create hnone hsome) fun _ => ?_
  refine spec_bind (spec_namei (spec_pure hnone) fun ip => ?_)
  grind

end Paths

section Calls

variable {Q : Int → Tally → Prop}

@[local grind ←]
theorem spec_linkBad (hq : Q (-1) (x.drop ip)) : Spec sb x (linkBad ip) Q := by
  unfold linkBad
  refine spec_bind (spec_ilock ?_)
  grind

theorem spec_sysLink {old new : Option Path} (hq : ∀ r, Q r x) :
    Spec sb x (sysLink p old new) Q := by
  unfold sysLink
  split
  · refine spec_bind (spec_beginOp ?_)
    refine spec_bind (spec_namei ?_ fun ip => ?_)
    · exact spec_bind (spec_endOp (spec_pure (hq _)))
    have hbad : ∀ dp, Spec sb ((x.bump ip).bump dp) (do iunlockput dp; linkBad ip) Q := by
      intro dp
      refine spec_bind (spec_iunlockput ?_)
      rw [drop_bump]
      refine spec_linkBad ?_
      rw [drop_bump]
      exact hq _
    refine spec_bind (spec_ilock ?_)
    refine spec_bind (spec_load fun a => ?_)
    refine spec_ite (fun _ => ?_) fun _ => ?_
    · refine spec_bind (spec_iunlockput ?_)
      rw [drop_bump]
      exact spec_bind (spec_endOp (spec_pure (hq _)))
    · -- The inode is not locked while the second path is walked, but it is kept.
      refine spec_bind (spec_update ?_)
      refine spec_bind (spec_iunlock ?_)
      refine spec_bind (spec_nameiparent ?_ fun dp name => ?_)
      · refine spec_linkBad ?_
        rw [drop_bump]
        exact hq _
      · refine spec_bind (spec_ilock ?_)
        refine spec_bind (spec_load fun d => ?_)
        refine spec_ite (fun _ => hbad dp) fun _ => ?_
        refine spec_bind (spec_dirlink fun b => ?_)
        refine spec_ite (fun _ => ?_) fun _ => hbad dp
        refine spec_bind (spec_iunlockput ?_)
        rw [drop_bump]
        refine spec_bind (spec_iput ?_)
        rw [drop_bump]
        exact spec_bind (spec_endOp (spec_pure (hq _)))
  · exact spec_pure (hq _)

theorem spec_isdiremptyFrom {size : Nat} (fuel off : Nat) {Q : Bool → Tally → Prop}
    (hq : ∀ b, Q b x) : Spec sb x (isdiremptyFrom dp size fuel off) Q := by
  induction fuel generalizing off with
  | zero => exact spec_pure (hq _)
  | succ fuel ih =>
    grind [isdiremptyFrom]

@[local grind ←]
theorem spec_unlinkBad (hq : Q (-1) (x.drop dp)) : Spec sb x (unlinkBad dp) Q := by
  grind [unlinkBad]

variable {type : UInt16} {path : Option Path} {env : ExecEnv}

theorem spec_unlinkEntry {off : Nat} (hq : Q 0 x) :
    Spec sb ((x.bump dp).bump ip) (unlinkEntry dp ip off type) Q := by
  have hend : Spec sb ((x.bump dp).bump ip) (do
      iunlockput dp
      update ip fun m => { m with nlink := m.nlink - 1 }
      iunlockput ip
      endOp
      return (0 : Int)) Q := by
    refine spec_bind (spec_iunlockput ?_)
    rw [drop_bump_bump]
    refine spec_bind (spec_update ?_)
    refine spec_bind (spec_iunlockput ?_)
    rw [drop_bump]
    exact spec_bind (spec_endOp (spec_pure hq))
  grind [unlinkEntry]

theorem spec_sysUnlink (hq : ∀ r, Q r x) : Spec sb x (sysUnlink p path) Q := by
  unfold sysUnlink
  split
  · exact spec_pure (hq _)
  · refine spec_bind (spec_beginOp ?_)
    refine spec_bind (spec_nameiparent ?_ fun dp name => ?_)
    · exact spec_bind (spec_endOp (spec_pure (hq _)))
    have hbad : Spec sb (x.bump dp) (unlinkBad dp) Q := by
      refine spec_unlinkBad ?_
      rw [drop_bump]
      exact hq _
    refine spec_bind (spec_ilock ?_)
    refine spec_ite (fun _ => hbad) fun _ => ?_
    refine spec_bind (spec_dirlookup hbad fun ip off => ?_)
    refine spec_bind (spec_ilock ?_)
    refine spec_bind (spec_load fun a => ?_)
    refine spec_ite (fun _ => spec_panic _) fun _ => ?_
    refine spec_ite (fun _ => ?_) fun _ => spec_unlinkEntry (hq _)
    unfold isdirempty
    refine spec_bind (spec_bind (spec_load fun b => spec_isdiremptyFrom _ _ fun c => ?_))
    refine spec_ite (fun _ => spec_unlinkEntry (hq _)) fun _ => ?_
    refine spec_bind (spec_iunlockput ?_)
    rw [drop_bump]
    exact hbad

theorem spec_sysMake {major minor : UInt16} (hq : ∀ r, Q r x) :
    Spec sb x (sysMake p path type major minor) Q := by
  unfold sysMake
  refine spec_bind (spec_beginOp ?_)
  split
  · exact spec_bind (spec_endOp (spec_pure (hq _)))
  · refine spec_bind (spec_create ?_ fun ip => ?_)
    · exact spec_bind (spec_endOp (spec_pure (hq _)))
    · refine spec_bind (spec_iunlockput ?_)
      rw [drop_bump]
      exact spec_bind (spec_endOp (spec_pure (hq _)))

@[local grind ←]
theorem spec_loadsegFrom {offset sz : Nat} (fuel i : Nat) {Q : Bool → Tally → Prop}
    (hq : ∀ b, Q b x) : Spec sb x (loadsegFrom ip offset sz fuel i) Q := by
  induction fuel generalizing i with
  | zero => exact spec_pure (hq _)
  | succ fuel ih =>
    grind [loadsegFrom]

theorem spec_loadFrom (fuel i off : Nat) {Q : Bool → Tally → Prop}
    (hq : ∀ b, Q b x) : Spec sb x (loadFrom ip env fuel i off) Q := by
  induction fuel generalizing i off with
  | zero => exact spec_pure (hq _)
  | succ fuel ih =>
    grind [loadFrom]

theorem spec_exec {path : Path} (hq : ∀ r, Q r x) :
    Spec sb x (exec p path env) Q := by
  unfold exec
  refine spec_bind (spec_beginOp ?_)
  refine spec_bind (spec_namei ?_ fun ip => ?_)
  · exact spec_bind (spec_endOp (spec_pure (hq _)))
  have hend : ∀ ok : Bool, Spec sb (x.bump ip) (do
      iunlockput ip
      endOp
      return if ok then env.result else -1) Q := by
    intro ok
    refine spec_bind (spec_iunlockput ?_)
    rw [drop_bump]
    exact spec_bind (spec_endOp (spec_pure (hq _)))
  refine spec_bind (spec_ilock ?_)
  unfold loadProgram
  refine spec_bind (spec_bind (spec_readi fun r => ?_))
  exact spec_ite (fun _ => spec_pure (hend _)) fun _ => spec_loadFrom _ _ _ hend

end Calls

end Xv6.Ino
