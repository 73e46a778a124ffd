import Xv6.Core.Ino

/-!
# Files and System Calls

`kernel/file.c`, the system calls of `kernel/sysfile.c`, and the parts of
`kernel/exec.c` and `kernel/proc.c` that use inodes. They are programs over the
inode layer, run by a process `p`, which stands for `myproc()`.

A call is given what its arguments turned out to be: a path that could not be
fetched is `none`, and user memory comes with the address it is used at. Results
that other parts of the kernel decide, such as those of a device or of page
allocation, are arguments too.

`filewrite` and `exit` are made of several transactions. Their loops go through the
`task` of the process, one pass at a time, so that others can run in between.
-/

namespace Xv6

abbrev O_RDONLY : UInt32 := 0x000
abbrev O_WRONLY : UInt32 := 0x001
abbrev O_RDWR : UInt32 := 0x002
abbrev O_CREATE : UInt32 := 0x200
abbrev O_TRUNC : UInt32 := 0x400

namespace Ino

def file (f : Fin NFILE) : IProg File := do return (← procs).ftable f

def setFile (f : Fin NFILE) (x : File) : IProg Unit := do
  let s ← procs
  setProcs (s.setFile f x)

def proc (p : Fin NPROC) : IProg Proc := do return (← procs).proc p

def setProc (p : Fin NPROC) (x : Proc) : IProg Unit := do
  let s ← procs
  setProcs (s.setProc p x)

/-- `p->ofile[fd] = f`. -/
def setFd (p : Fin NPROC) (fd : Fin NOFILE) (f : Option (Fin NFILE)) : IProg Unit := do
  let x ← proc p
  setProc p { x with ofile := Function.update x.ofile fd f }

def setTask (p : Fin NPROC) (t : Task) : IProg Unit := do
  let x ← proc p
  setProc p { x with task := t }

def filealloc : IProg (Option (Fin NFILE)) := do
  let s ← procs
  match (List.finRange NFILE).find? fun f => (s.ftable f).ref == 0 with
  | none => return none
  | some f => do
    setFile f { s.ftable f with ref := 1 }
    return some f

def filedup (f : Fin NFILE) : IProg Unit := do
  let x ← file f
  if x.ref < 1 then panic .filedup else setFile f { x with ref := x.ref + 1 }

/-- `fileclose`. A pipe is closed elsewhere. -/
def fileclose (f : Fin NFILE) : IProg Unit := do
  let x ← file f
  if x.ref < 1 then panic .fileclose
  else if 0 < x.ref - 1 then setFile f { x with ref := x.ref - 1 }
  else
    setFile f { x with ref := 0, type := .none }
    if x.type = .inode ∨ x.type = .device then
      beginOp
      iput x.ip
      endOp
    else pure ()

/-- `filestat`, with whether the result could be copied out. -/
def filestat (f : Fin NFILE) (copied : Bool) : IProg Int := do
  let x ← file f
  if x.type = .inode ∨ x.type = .device then
    ilock x.ip
    let _ ← load x.ip
    iunlock x.ip
    return if copied then 0 else -1
  else return -1

/-- `fileread`. `other` is the result of a pipe or a device. -/
def fileread (f : Fin NFILE) (m : UserMem) (addr : Nat) (n other : Int) : IProg Int := do
  let x ← file f
  if x.readable = false then return -1
  else match x.type with
    | .pipe => return other
    | .device => return if short x.major < 0 ∨ NDEV ≤ short x.major then -1 else other
    | .inode => do
      ilock x.ip
      let r ← readi x.ip (.user m addr) x.off (n % 2 ^ 32).toNat
      if 0 < r.1 then
        setFile f { x with off := (x.off + r.1.toNat) % 2 ^ 32 }
        iunlock x.ip
      else iunlock x.ip
      return r.1
    | .none => panic .fileread

/-- `max` of `filewrite`: the most one transaction writes. -/
abbrev WRITEMAX : Nat := (MAXOPBLOCKS - 1 - 1 - 2) / 2 * BSIZE

/-- `filewrite` up to its loop. -/
def filewriteStart (p : Fin NPROC) (f : Fin NFILE) (addr : Nat) (n other : Int) : IProg Int := do
  let x ← file f
  if x.writable = false then return -1
  else match x.type with
    | .pipe => return other
    | .device => return if short x.major < 0 ∨ NDEV ≤ short x.major then -1 else other
    | .inode =>
      if 0 < n then do
        setTask p (.writing f addr n.toNat 0)
        return n
      else return if n = 0 then 0 else -1
    | .none => panic .filewrite

/-- One pass of the loop of `filewrite`, from user memory `m`. -/
def filewritePass (p : Fin NPROC) (f : Fin NFILE) (m : UserMem) (addr n i : Nat) : IProg Int := do
  let n1 := min (n - i) WRITEMAX
  let x ← file f
  beginOp
  ilock x.ip
  let r ← writei x.ip (.user m (addr + i)) x.off n1
  if 0 < r then
    setFile f { x with off := (x.off + r.toNat) % 2 ^ 32 }
    iunlock x.ip
  else iunlock x.ip
  endOp
  if r ≠ n1 then
    setTask p .idle
    return -1
  else if i + n1 < n then
    setTask p (.writing f addr n (i + n1))
    return n
  else
    setTask p .idle
    return n

/-- `argfd`. -/
def argfd (p : Fin NPROC) (fd : Int) : IProg (Option (Fin NOFILE × Fin NFILE)) := do
  let x ← proc p
  if h : 0 ≤ fd ∧ fd.toNat < NOFILE then
    return (x.ofile ⟨fd.toNat, h.2⟩).map fun f => (⟨fd.toNat, h.2⟩, f)
  else return none

def fdalloc (p : Fin NPROC) (f : Fin NFILE) : IProg (Option (Fin NOFILE)) := do
  let x ← proc p
  match (List.finRange NOFILE).find? fun fd => (x.ofile fd).isNone with
  | none => return none
  | some fd => do
    setFd p fd (some f)
    return some fd

def sysDup (p : Fin NPROC) (fd : Int) : IProg Int := do
  match ← argfd p fd with
  | none => return -1
  | some (_, f) => do
    match ← fdalloc p f with
    | none => return -1
    | some fd' => do
      filedup f
      return fd'.val

def sysRead (p : Fin NPROC) (fd : Int) (m : UserMem) (addr : Nat) (n other : Int) : IProg Int := do
  match ← argfd p fd with
  | none => return -1
  | some (_, f) => fileread f m addr n other

def sysWrite (p : Fin NPROC) (fd : Int) (addr : Nat) (n other : Int) : IProg Int := do
  match ← argfd p fd with
  | none => return -1
  | some (_, f) => filewriteStart p f addr n other

def sysClose (p : Fin NPROC) (fd : Int) : IProg Int := do
  match ← argfd p fd with
  | none => return -1
  | some (fd, f) => do
    setFd p fd none
    fileclose f
    return 0

def sysFstat (p : Fin NPROC) (fd : Int) (copied : Bool) : IProg Int := do
  match ← argfd p fd with
  | none => return -1
  | some (_, f) => filestat f copied

/-- The end of `sys_link` where the new name could not be made. -/
def linkBad (ip : Fin NINODE) : IProg Int := do
  ilock ip
  update ip fun m => { m with nlink := m.nlink - 1 }
  iunlockput ip
  endOp
  return -1

def sysLink (p : Fin NPROC) (old new : Option Path) : IProg Int :=
  match old, new with
  | some old, some new => do
    beginOp
    match ← namei p old with
    | none => do
      endOp
      return -1
    | some ip => do
      ilock ip
      let a ← load ip
      if a.type = T_DIR then
        iunlockput ip
        endOp
        return -1
      else
        update ip fun m => { m with nlink := m.nlink + 1 }
        iunlock ip
        match ← nameiparent p new with
        | none => linkBad ip
        | some (dp, name) => do
          ilock dp
          let d ← load dp
          if d.dev ≠ a.dev then
            iunlockput dp
            linkBad ip
          else if ← dirlink dp name a.inum then
            iunlockput dp
            iput ip
            endOp
            return 0
          else
            iunlockput dp
            linkBad ip
  | _, _ => return -1

/-- The loop of `isdirempty` from byte `off` on. -/
def isdiremptyFrom (dp : Fin NINODE) (size : Nat) : (fuel off : Nat) → IProg Bool
  | 0, _ => pure true
  | fuel + 1, off =>
    if off < size then do
      let r ← readi dp .kernel off DIRENT
      if r.1 ≠ DIRENT then panic .isdiremptyReadi
      else if (Dirent.dec r.2).inum ≠ 0 then return false
      else isdiremptyFrom dp size fuel (off + DIRENT)
    else pure true

def isdirempty (dp : Fin NINODE) : IProg Bool := do
  let a ← load dp
  isdiremptyFrom dp a.size (a.size / DIRENT + 1) (2 * DIRENT)

/-- The end of `sys_unlink` where there is nothing to unlink. -/
def unlinkBad (dp : Fin NINODE) : IProg Int := do
  iunlockput dp
  endOp
  return -1

/-- `sys_unlink` once the entry at `off` is known to go, both inodes locked. -/
def unlinkEntry (dp ip : Fin NINODE) (off : Nat) (type : UInt16) : IProg Int := do
  let r ← writei dp (.kernel (List.replicate DIRENT 0)) off DIRENT
  if r ≠ DIRENT then panic .unlinkWritei
  else
    if type = T_DIR then
      update dp fun m => { m with nlink := m.nlink - 1 }
      iunlockput dp
    else iunlockput dp
    update ip fun m => { m with nlink := m.nlink - 1 }
    iunlockput ip
    endOp
    return 0

def sysUnlink (p : Fin NPROC) (path : Option Path) : IProg Int :=
  match path with
  | none => return -1
  | some path => do
    beginOp
    match ← nameiparent p path with
    | none => do
      endOp
      return -1
    | some (dp, name) => do
      ilock dp
      if namecmp name DOT = 0 ∨ namecmp name DOTDOT = 0 then unlinkBad dp
      else match ← dirlookup dp name with
        | none => unlinkBad dp
        | some (ip, off) => do
          ilock ip
          let a ← load ip
          if short a.nlink < 1 then panic .unlinkNlink
          else if a.type = T_DIR then
            if ← isdirempty ip then unlinkEntry dp ip off a.type
            else
              iunlockput ip
              unlinkBad dp
          else unlinkEntry dp ip off a.type

/-- The `.` and `..` of a new directory `ip` in the directory `dp`. -/
def createDots (dp ip : Fin NINODE) (dinum inum : Nat) : IProg Unit := do
  update dp fun m => { m with nlink := m.nlink + 1 }
  if ← dirlink ip DOT inum then
    if ← dirlink ip DOTDOT dinum then pure () else panic .createDots
  else panic .createDots

def create (p : Fin NPROC) (path : Path) (type major minor : UInt16) :
    IProg (Option (Fin NINODE)) := do
  match ← nameiparent p path with
  | none => return none
  | some (dp, name) => do
    ilock dp
    match ← dirlookup dp name with
    | some (ip, _) => do
      iunlockput dp
      ilock ip
      let a ← load ip
      if type = T_FILE ∧ (a.type = T_FILE ∨ a.type = T_DEVICE) then return some ip
      else
        iunlockput ip
        return none
    | none => do
      let d ← load dp
      let ip ← ialloc d.dev type
      ilock ip
      update ip fun _ => { major := major, minor := minor, nlink := 1 }
      let a ← load ip
      if type = T_DIR then createDots dp ip d.inum a.inum
      if ← dirlink dp name a.inum then
        iunlockput dp
        return some ip
      else panic .createDirlink

/-- The part of `sys_open` that finds or makes the inode, which it leaves locked. -/
def openInode (p : Fin NPROC) (path : Path) (omode : UInt32) : IProg (Option (Fin NINODE)) :=
  if omode &&& O_CREATE ≠ 0 then create p path T_FILE 0 0
  else do
    match ← namei p path with
    | none => return none
    | some ip => do
      ilock ip
      let a ← load ip
      if a.type = T_DIR ∧ omode ≠ O_RDONLY then
        iunlockput ip
        return none
      else return some ip

/-- The end of `sys_open` where it has an inode but no descriptor for it. -/
def openBad (ip : Fin NINODE) : IProg Int := do
  iunlockput ip
  endOp
  return -1

def sysOpen (p : Fin NPROC) (path : Option Path) (omode : UInt32) : IProg Int :=
  match path with
  | none => return -1
  | some path => do
    beginOp
    match ← openInode p path omode with
    | none => do
      endOp
      return -1
    | some ip => do
      let a ← load ip
      if a.type = T_DEVICE ∧ (short a.major < 0 ∨ NDEV ≤ short a.major) then openBad ip
      else match ← filealloc with
        | none => openBad ip
        | some f => do
          match ← fdalloc p f with
          | none => do
            fileclose f
            openBad ip
          | some fd => do
            let x ← file f
            setFile f { x with
              type := if a.type = T_DEVICE then .device else .inode
              major := if a.type = T_DEVICE then a.major else x.major
              off := if a.type = T_DEVICE then x.off else 0
              ip := ip
              readable := omode &&& O_WRONLY == 0
              writable := omode &&& O_WRONLY != 0 || omode &&& O_RDWR != 0 }
            if omode &&& O_TRUNC ≠ 0 ∧ a.type = T_FILE then
              itrunc ip
              iunlock ip
            else iunlock ip
            endOp
            return fd.val

/-- `sys_mkdir` and `sys_mknod`, which differ in what they create. -/
def sysMake (p : Fin NPROC) (path : Option Path) (type major minor : UInt16) : IProg Int := do
  beginOp
  match path with
  | none => do
    endOp
    return -1
  | some path => do
    match ← create p path type major minor with
    | none => do
      endOp
      return -1
    | some ip => do
      iunlockput ip
      endOp
      return 0

def sysMkdir (p : Fin NPROC) (path : Option Path) : IProg Int := sysMake p path T_DIR 0 0

def sysMknod (p : Fin NPROC) (path : Option Path) (major minor : UInt16) : IProg Int :=
  sysMake p path T_DEVICE major minor

def sysChdir (p : Fin NPROC) (path : Option Path) : IProg Int := do
  beginOp
  match path with
  | none => do
    endOp
    return -1
  | some path => do
    match ← namei p path with
    | none => do
      endOp
      return -1
    | some ip => do
      ilock ip
      let a ← load ip
      if a.type ≠ T_DIR then
        iunlockput ip
        endOp
        return -1
      else
        iunlock ip
        let x ← proc p
        match x.cwd with
        | none => stop .stuck
        | some cwd => do
          iput cwd
          endOp
          setProc p { x with cwd := some ip }
          return 0

/-- What `exec` gets from the rest of the kernel: whether there is a page table,
    whether each segment could be allocated, and how it ends once it has let go of
    the file. -/
structure ExecEnv where
  pagetable : Bool
  uvmalloc : Nat → Bool
  result : Int

/-- The number in `n` bytes of a header at byte `o`. -/
def field (l : List UInt8) (o n : Nat) : Nat := Bytes.le (l.getD · 0) o n

/-- The loop of `loadseg`, answering whether the segment was read. -/
def loadsegFrom (ip : Fin NINODE) (offset sz : Nat) : (fuel i : Nat) → IProg Bool
  | 0, _ => pure true
  | fuel + 1, i =>
    if i < sz then do
      let n := if sz - i < PGSIZE then sz - i else PGSIZE
      let r ← readi ip .kernel ((offset + i) % 2 ^ 32) n
      if r.1 ≠ n then return false else loadsegFrom ip offset sz fuel (i + PGSIZE)
    else pure true

/-- The loop of `exec` over the program headers, from header `i` at `off` on,
    answering whether the program was read. -/
def loadFrom (ip : Fin NINODE) (env : ExecEnv) : (fuel i off : Nat) → IProg Bool
  | 0, _, _ => pure true
  | fuel + 1, i, off => do
    let r ← readi ip .kernel off 56
    let filesz := field r.2 32 8
    let memsz := field r.2 40 8
    let vaddr := field r.2 16 8
    if r.1 ≠ 56 then return false
    else if field r.2 0 4 ≠ 1 then loadFrom ip env fuel (i + 1) ((off + 56) % 2 ^ 32)
    else if memsz < filesz ∨ 2 ^ 64 ≤ vaddr + memsz ∨ env.uvmalloc i = false ∨
      vaddr % PGSIZE ≠ 0 then
      return false
    else
      let sz := filesz % 2 ^ 32
      if ← loadsegFrom ip (field r.2 8 8 % 2 ^ 32) sz (sz / PGSIZE + 1) 0 then
        loadFrom ip env fuel (i + 1) ((off + 56) % 2 ^ 32)
      else return false

/-- The part of `exec` that reads the program, the file locked. -/
def loadProgram (ip : Fin NINODE) (env : ExecEnv) : IProg Bool := do
  let r ← readi ip .kernel 0 64
  if r.1 ≠ 64 ∨ field r.2 0 4 ≠ 0x464C457F ∨ env.pagetable = false then return false
  else loadFrom ip env (field r.2 56 2) 0 (field r.2 32 8 % 2 ^ 32)

def exec (p : Fin NPROC) (path : Path) (env : ExecEnv) : IProg Int := do
  beginOp
  match ← namei p path with
  | none => do
    endOp
    return -1
  | some ip => do
    ilock ip
    let ok ← loadProgram ip env
    iunlockput ip
    endOp
    return if ok then env.result else -1

/-- The loop of `fork` over the descriptors, answering those of the child. -/
def dupFiles (ofile : Fin NOFILE → Option (Fin NFILE)) : List (Fin NOFILE) → IProg Unit
  | [] => pure ()
  | fd :: fds => do
    match ofile fd with
    | none => dupFiles ofile fds
    | some f => do
      filedup f
      dupFiles ofile fds

/-- `fork`, with whether the memory could be copied. -/
def fork (p : Fin NPROC) (copied : Bool) : IProg Int := do
  let s ← procs
  match (List.finRange NPROC).find? fun q => (s.proc q).cwd.isNone with
  | none => return -1
  | some np =>
    if copied = false then return -1
    else match (s.proc p).cwd with
      | none => stop .stuck
      | some cwd => do
        dupFiles (s.proc p).ofile (List.finRange NOFILE)
        idup cwd
        setProc np { ofile := (s.proc p).ofile, cwd := some cwd, task := .idle }
        return np.val

/-- `exit` up to its loop. -/
def exitStart (p : Fin NPROC) : IProg Int := do
  if p.val = 0 then panic .initExiting
  else
    setTask p (.exiting 0)
    return 0

/-- One pass of the loop of `exit`, or what follows it. -/
def exitPass (p : Fin NPROC) (fd : Nat) : IProg Int := do
  let x ← proc p
  if h : fd < NOFILE then
    match x.ofile ⟨fd, h⟩ with
    | none => do
      setTask p (.exiting (fd + 1))
      return 0
    | some f => do
      fileclose f
      setFd p ⟨fd, h⟩ none
      setTask p (.exiting (fd + 1))
      return 0
  else
    match x.cwd with
    | none => stop .stuck
    | some cwd => do
      beginOp
      iput cwd
      endOp
      setProc p { x with cwd := none, task := .idle }
      return 0

end Ino

end Xv6
