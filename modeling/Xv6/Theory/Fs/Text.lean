import Xv6.Core.Kernel
import Xv6.Lib.Leads

/-!
# What System Calls Ask of Inodes

The code above the inode layer writes to inodes in two ways: entries of a directory,
which come from kernel memory, and the bytes of a `write`, which come from user
memory. The second is the loop of `filewrite` and nothing else, which is read off the
text of the calls here.

## Theorems

* `Call.fromKernel`, `Ino.fromKernel_exitPass`
-/

namespace Xv6

/-- Anything but a write out of user memory. -/
def IOp.FromKernel : IOp → Prop
  | .writei _ (.user _ _) _ _ => False
  | _ => True

open Prog Ino

/-- A program that does not write out of user memory. -/
abbrev Ino.FromKernel {α : Type} (p : IProg α) : Prop := p.All IOp.FromKernel

attribute [local grind ←] all_bind all_pure
attribute [local grind] IOp.FromKernel iget idup ilock iunlock iput ialloc load update readi writei
  Ino.beginOp Ino.endOp itrunc nameiparent procs setProcs setProc proc Ino.panic

@[local grind ←]
theorem Ino.fromKernel_op {o : IOp} (ho : o.FromKernel) : FromKernel (op o) := all_call ho

@[local grind .]
theorem Ino.fromKernel_stop {α : Type} (e : Stop) : FromKernel (stop e : IProg α) :=
  all_op trivial fun r => nomatch r

@[local grind .]
theorem Ino.fromKernel_iunlockput (ip : Fin NINODE) : FromKernel (iunlockput ip) := by
  grind [iunlockput]

@[local grind .]
theorem Ino.fromKernel_dirlookupFrom (dp : Fin NINODE) (a : Attr) (name : List UInt8)
    (fuel off : Nat) : FromKernel (dirlookupFrom dp a name fuel off) := by
  induction fuel generalizing off with
  | zero => exact all_pure _
  | succ fuel ih => grind [dirlookupFrom]

@[local grind .]
theorem Ino.fromKernel_dirlookup (dp : Fin NINODE) (name : List UInt8) :
    FromKernel (dirlookup dp name) := by
  grind [dirlookup]

@[local grind .]
theorem Ino.fromKernel_freeSlotFrom (dp : Fin NINODE) (size fuel off : Nat) :
    FromKernel (freeSlotFrom dp size fuel off) := by
  induction fuel generalizing off with
  | zero => exact all_pure _
  | succ fuel ih => grind [freeSlotFrom]

@[local grind .]
theorem Ino.fromKernel_dirlink (dp : Fin NINODE) (name : List UInt8) (inum : Nat) :
    FromKernel (dirlink dp name inum) := by
  grind [dirlink]

@[local grind .]
theorem Ino.fromKernel_namexFrom (parent : Bool) (ip : Fin NINODE) (names : List (List UInt8)) :
    FromKernel (namexFrom parent ip names) := by
  induction names generalizing ip with
  | nil => grind [namexFrom]
  | cons name rest ih => grind [namexFrom]

@[local grind .]
theorem Ino.fromKernel_namex (p : Fin NPROC) (path : Path) (parent : Bool) :
    FromKernel (namex p path parent) := by
  grind [namex]

@[local grind .]
theorem Ino.fromKernel_namei (p : Fin NPROC) (path : Path) : FromKernel (namei p path) := by
  grind [namei]

@[local grind .]
theorem Ino.fromKernel_file (f : Fin NFILE) : FromKernel (file f) := by grind [file]

@[local grind .]
theorem Ino.fromKernel_setFile (f : Fin NFILE) (x : File) : FromKernel (setFile f x) := by
  grind [setFile]

@[local grind .]
theorem Ino.fromKernel_setTask (p : Fin NPROC) (t : Task) : FromKernel (setTask p t) := by
  grind [setTask]

@[local grind .]
theorem Ino.fromKernel_setFd (p : Fin NPROC) (fd : Fin NOFILE) (f : Option (Fin NFILE)) :
    FromKernel (setFd p fd f) := by
  grind [setFd]

@[local grind .]
theorem Ino.fromKernel_filedup (f : Fin NFILE) : FromKernel (filedup f) := by grind [filedup]

@[local grind .]
theorem Ino.fromKernel_fileclose (f : Fin NFILE) : FromKernel (fileclose f) := by grind [fileclose]

@[local grind .]
theorem Ino.fromKernel_argfd (p : Fin NPROC) (fd : Int) :
    FromKernel (argfd p fd) := by grind [argfd]

@[local grind .]
theorem Ino.fromKernel_fdalloc (p : Fin NPROC) (f : Fin NFILE) : FromKernel (fdalloc p f) := by
  grind [fdalloc]

@[local grind .]
theorem Ino.fromKernel_isdiremptyFrom (dp : Fin NINODE) (size fuel off : Nat) :
    FromKernel (isdiremptyFrom dp size fuel off) := by
  induction fuel generalizing off with
  | zero => exact all_pure _
  | succ fuel ih => grind [isdiremptyFrom]

@[local grind .]
theorem Ino.fromKernel_create (p : Fin NPROC) (path : Path) (type major minor : UInt16) :
    FromKernel (create p path type major minor) := by
  unfold create createDots
  repeat' first | split | refine all_bind ?_ fun _ => ?_
  all_goals grind

@[local grind .]
theorem Ino.fromKernel_loadsegFrom (ip : Fin NINODE) (offset sz fuel i : Nat) :
    FromKernel (loadsegFrom ip offset sz fuel i) := by
  induction fuel generalizing i with
  | zero => exact all_pure _
  | succ fuel ih => grind [loadsegFrom]

@[local grind .]
theorem Ino.fromKernel_loadFrom (ip : Fin NINODE) (env : ExecEnv) (fuel i off : Nat) :
    FromKernel (loadFrom ip env fuel i off) := by
  induction fuel generalizing i off with
  | zero => exact all_pure _
  | succ fuel ih => grind [loadFrom]

@[local grind .]
theorem Ino.fromKernel_dupFiles (ofile : Fin NOFILE → Option (Fin NFILE))
    (fds : List (Fin NOFILE)) :
    FromKernel (dupFiles ofile fds) := by
  induction fds with
  | nil => exact all_pure _
  | cons fd fds ih => grind [dupFiles]

theorem Ino.fromKernel_exitPass (p : Fin NPROC) (fd : Nat) : FromKernel (exitPass p fd) := by
  unfold exitPass
  repeat' first | split | refine all_bind ?_ fun _ => ?_
  all_goals grind

@[local grind .]
theorem Ino.fromKernel_exec (p : Fin NPROC) (path : Path) (env : ExecEnv) :
    FromKernel (exec p path env) := by
  unfold exec loadProgram
  repeat' first | split | refine all_bind ?_ fun _ => ?_
  all_goals grind

@[local grind .]
theorem Ino.fromKernel_openInode (p : Fin NPROC) (path : Path) (omode : UInt32) :
    FromKernel (openInode p path omode) := by
  grind [openInode]

theorem Call.fromKernel (p : Fin NPROC) (c : Call) : FromKernel (c.code p) := by
  cases c
  all_goals
    simp only [code, sysOpen, openBad, filealloc, sysLink, linkBad, sysUnlink,
      unlinkEntry, unlinkBad, isdirempty, sysMkdir, sysMknod, sysMake, sysChdir, sysClose, sysDup,
      sysRead, fileread, sysWrite, filewriteStart, sysFstat, filestat, Ino.fork, exitStart]
    repeat' first | with_reducible split | with_reducible refine all_bind ?_ fun _ => ?_
  all_goals grind

end Xv6
