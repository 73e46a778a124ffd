import Xv6.Core.Sysfile

/-!
# The Machine

A running kernel as a sequence of steps. In each step some process makes a system
call, or goes on with one that takes several transactions, and nothing else runs
meanwhile. What a step runs is the text of the system call, expanded down to blocks.

Between the steps a buffer may be recycled. A buffer whose contents were not logged
then shows what the disk has, which is the step `evict`.

`mkfs.image` is the disk `mkfs/mkfs.c` writes when it is given no files.
-/

namespace Xv6

/-- The system calls, with what their arguments were found to be. -/
inductive Call
  | open (path : Option Path) (omode : UInt32)
  | link (old new : Option Path)
  | unlink (path : Option Path)
  | mkdir (path : Option Path)
  | mknod (path : Option Path) (major minor : UInt16)
  | chdir (path : Option Path)
  | exec (path : Path) (env : Ino.ExecEnv)
  | close (fd : Int)
  | dup (fd : Int)
  | read (fd : Int) (m : UserMem) (addr : Nat) (n other : Int)
  | write (fd : Int) (addr : Nat) (n other : Int)
  | fstat (fd : Int) (copied : Bool)
  | fork (copied : Bool)
  | exit

/-- What a system call runs. -/
def Call.code (p : Fin NPROC) : Call → IProg Int
  | .open path omode => Ino.sysOpen p path omode
  | .link old new => Ino.sysLink p old new
  | .unlink path => Ino.sysUnlink p path
  | .mkdir path => Ino.sysMkdir p path
  | .mknod path major minor => Ino.sysMknod p path major minor
  | .chdir path => Ino.sysChdir p path
  | .exec path env => Ino.exec p path env
  | .close fd => Ino.sysClose p fd
  | .dup fd => Ino.sysDup p fd
  | .read fd m addr n other => Ino.sysRead p fd m addr n other
  | .write fd addr n other => Ino.sysWrite p fd addr n other
  | .fstat fd copied => Ino.sysFstat p fd copied
  | .fork copied => Ino.fork p copied
  | .exit => Ino.exitStart p

/-- What may happen next. `resume` goes on with a call, from user memory as it is
    by then. -/
inductive Event
  | call (p : Fin NPROC) (c : Call)
  | resume (p : Fin NPROC) (m : UserMem)
  | evict (b : Nat)

/-- What a process runs to go on with its task. -/
def Task.code (p : Fin NPROC) (m : UserMem) : Task → Option (IProg Int)
  | .idle => none
  | .writing f addr n i => some (Ino.filewritePass p f m addr n i)
  | .exiting fd => some (Ino.exitPass p fd)

namespace Vol

/-- What a step runs, or nothing if it cannot happen now. A process makes a call if
    it is there and has no other to finish. -/
def code (s : Vol) : Event → Option (IProg Int)
  | .call p c =>
    if (s.procs.proc p).cwd.isSome ∧ (s.procs.proc p).task = .idle then some (c.code p) else none
  | .resume p m =>
    if (s.procs.proc p).cwd.isSome then (s.procs.proc p).task.code p m else none
  | .evict _ => some (pure 0)

/-- Run a program of the inode layer on the blocks. -/
def runI {α : Type} (sb : Superblock) (p : IProg α) (s : Vol) : Except Stop (α × Vol) :=
  (p.expand (Ino.impl sb)).run handle s

/-- A buffer whose block is not logged is recycled. -/
def evict (s : Vol) (b : Nat) : Vol :=
  if b ∈ s.log.lh then s else { s with cur := Function.update s.cur b (s.disk b) }

/-- One step, or `none` where it cannot happen. -/
def step (sb : Superblock) (s : Vol) (a : Event) : Option (Except Stop Vol) :=
  match a with
  | .evict b => some (.ok (s.evict b))
  | a => (s.code a).map fun p => (s.runI sb p).map Prod.snd

/-- A list of steps taken one after the other. -/
def steps (sb : Superblock) (s : Vol) : List Event → Option (Except Stop Vol)
  | [] => some (.ok s)
  | a :: as => match s.step sb a with
    | none => none
    | some (.error e) => some (.error e)
    | some (.ok s') => s'.steps sb as

/-- A disk as the first process finds it: nothing in the tables but its working
    directory, which is the root and has not been read yet. -/
def boot (sb : Superblock) (disk : Nat → Block) : Vol :=
  { cur := disk
    disk := disk
    held := []
    log := Log.init sb.logstart sb.nlog
    issued := []
    itable := fun ip =>
      { dev := if ip = 0 then ROOTDEV else 0
        inum := if ip = 0 then ROOTINO else 0
        ref := if ip = 0 then 1 else 0
        locked := false
        valid := false
        din := Dinode.zero }
    procs :=
      { ftable := fun _ =>
          { type := .none, ref := 0, readable := false, writable := false, ip := 0, off := 0
            major := 0 }
        proc := fun p =>
          { ofile := fun _ => none, cwd := if p = 0 then some 0 else none, task := .idle } } }

end Vol

namespace mkfs

/-- The layout `mkfs` gives to a disk of `FSSIZE` blocks. -/
def sb : Superblock :=
  { size := FSSIZE, nblocks := 954, ninodes := 200, nlog := nlog, logstart := 2, inodestart := 32
    bmapstart := 45 }

/-- The root directory, its size rounded up to a block. -/
def root : Dinode :=
  { type := T_DIR, major := 0, minor := 0, nlink := 1, size := 1024
    addrs := fun s => if s = 0 then 46 else 0 }

/-- A disk with nothing on it but the root directory. -/
def image (b : Nat) : Block :=
  if b = 32 then Block.zero.setDinode ROOTINO root
  else if b = 45 then Block.ofBytes fun o => if o < 5 then 255 else if o = 5 then 127 else 0
  else if b = 46 then
    (Block.zero.blit 0 (Dirent.enc 1 DOT)).blit DIRENT (Dirent.enc 1 DOTDOT)
  else Block.zero

end mkfs

end Xv6
