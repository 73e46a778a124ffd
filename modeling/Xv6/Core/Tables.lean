import Xv6.Core.Format

/-!
# The Kernel's Tables

What `kernel/file.h` and `kernel/proc.h` keep in memory for the file system: the
table of inodes, the table of open files and the part of a process that refers to
them.

A pointer into a table is an index. An inode in memory is a `Slot`, which says
whose inode it is and who is using it, and a copy of the inode on disk.

The system calls run one after the other here, so a sleeplock is a flag. A call that
is made of several transactions can be interleaved with calls of other processes
between them, and a process remembers in its `task` how far it has got.

`UserMem` is the user memory a call is given an address in: which pages are there,
and what is on them.
-/

namespace Xv6

/-- The part of `struct inode` that is not a copy of the disk. -/
structure Slot where
  dev : Nat
  inum : Nat
  ref : Nat
  locked : Bool
  valid : Bool
  deriving DecidableEq, Repr

/-- `struct inode`. -/
structure Inode extends Slot where
  din : Dinode

inductive FdType
  | none
  | pipe
  | inode
  | device
  deriving DecidableEq, Repr

/-- `struct file`, without its pipe. `ip` means something for `FD_INODE` and
    `FD_DEVICE`. -/
structure File where
  type : FdType
  ref : Nat
  readable : Bool
  writable : Bool
  ip : Fin NINODE
  off : Nat
  major : UInt16
  deriving DecidableEq, Repr

/-- What a process has left to do of a call of several transactions: the loop of
    `filewrite` at `i`, or that of `exit` at descriptor `fd`. -/
inductive Task
  | idle
  | writing (f : Fin NFILE) (addr n i : Nat)
  | exiting (fd : Nat)
  deriving DecidableEq, Repr

/-- `struct proc`, as far as files go. A slot without a `cwd` is not in use. -/
structure Proc where
  ofile : Fin NOFILE → Option (Fin NFILE)
  cwd : Option (Fin NINODE)
  task : Task

/-- The open files and the processes. -/
structure Procs where
  ftable : Fin NFILE → File
  proc : Fin NPROC → Proc

namespace Procs

def setFile (s : Procs) (f : Fin NFILE) (x : File) : Procs :=
  { s with ftable := Function.update s.ftable f x }

def setProc (s : Procs) (p : Fin NPROC) (x : Proc) : Procs :=
  { s with proc := Function.update s.proc p x }

end Procs

/-- User memory: the pages a user may touch, and the bytes on them. -/
structure UserMem where
  mapped : Nat → Bool
  byte : Nat → UInt8

/-- The loop of `copyin` and `copyout`: how many of `len` bytes from `va` it gets
    to before a page that is not there, and whether that is all of them. -/
def UserMem.span (m : UserMem) : (fuel va len : Nat) → Nat × Bool
  | 0, _, _ => (0, true)
  | fuel + 1, va, len =>
    if len = 0 then (0, true)
    else if MAXVA ≤ va / PGSIZE * PGSIZE ∨ m.mapped (va / PGSIZE) = false then (0, false)
    else
      let n := min (PGSIZE - va % PGSIZE) len
      let r := m.span fuel (va / PGSIZE * PGSIZE + PGSIZE) (len - n)
      (n + r.1, r.2)

/-- `copyin`: the bytes that were copied, and whether it went through. -/
def copyin (m : UserMem) (srcva len : Nat) : List UInt8 × Bool :=
  let r := m.span len srcva len
  ((List.range r.1).map fun i => m.byte (srcva + i), r.2)

/-- `copyout`: the bytes that were stored, and whether it went through. -/
def copyout (m : UserMem) (dstva : Nat) (src : List UInt8) : List UInt8 × Bool :=
  let r := m.span src.length dstva src.length
  (src.take r.1, r.2)

/-- Where bytes come from. -/
inductive Src
  | kernel (l : List UInt8)
  | user (m : UserMem) (addr : Nat)

/-- Where bytes go. -/
inductive Dst
  | kernel
  | user (m : UserMem) (addr : Nat)

/-- `either_copyin` of `len` bytes at `src + tot`. -/
def eitherCopyin (src : Src) (tot len : Nat) : List UInt8 × Bool :=
  match src with
  | .kernel l => ((l.drop tot).take len, true)
  | .user m addr => copyin m (addr + tot) len

/-- `either_copyout` of the bytes to `dst + tot`. -/
def eitherCopyout (dst : Dst) (tot : Nat) (l : List UInt8) : List UInt8 × Bool :=
  match dst with
  | .kernel => (l, true)
  | .user m addr => copyout m (addr + tot) l

end Xv6
