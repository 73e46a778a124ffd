import Xv6.Core.Copy
import Xv6.Core.Uvm

/-!
# A New Program

`exec` of `kernel/exec.c` with all that it stores: the bytes of the segments, the arguments on the
stack, the registers in the trapframe and the name of the process. The file is its bytes, which
`readi` cuts its pieces from. Of the file system only the order of the calls is kept.

Offsets are what the code makes of them. `elf.phoff` and `ph.off` are `uint64` in the file and
become an `int` and a `uint` on the way to `readi`.
-/

namespace Xv6.Vm.Exec

/-- The bytes of an inode. -/
structure File where
  bytes : List UInt8
  small : bytes.length ≤ MAXFILE * BSIZE

/-- `readi` to the kernel: the bytes it moves. -/
def File.readi (f : File) (off n : BitVec 32) : List UInt8 :=
  if f.bytes.length < off.toNat ∨ off + n < off then []
  else (f.bytes.drop off.toNat).take n.toNat

/-- The number in these bytes, the lowest first. -/
def number (l : List UInt8) : Nat := l.foldr (fun b x => b.toNat + 256 * x) 0

/-- The field of `k` bytes at `o`. -/
def field (l : List UInt8) (o k : Nat) : BitVec (8 * k) :=
  BitVec.ofNat (8 * k) (number ((l.drop o).take k))

/-- `struct elfhdr`, as far as it is looked at. -/
structure ElfHdr where
  magic : BitVec 32
  entry : Word
  phoff : Word
  phnum : BitVec 16

def ElfHdr.ofBytes (l : List UInt8) : ElfHdr :=
  { magic := field l 0 4, entry := field l 24 8, phoff := field l 32 8, phnum := field l 56 2 }

/-- `struct proghdr`, as far as it is looked at. -/
structure ProgHdr where
  type : BitVec 32
  off : Word
  vaddr : Word
  filesz : Word
  memsz : Word

def ProgHdr.ofBytes (l : List UInt8) : ProgHdr :=
  { type := field l 0 4, off := field l 8 8, vaddr := field l 16 8, filesz := field l 32 8,
    memsz := field l 40 8 }

abbrev ELF_MAGIC : BitVec 32 := 0x464C457F#32

abbrev ELF_PROG_LOAD : BitVec 32 := 1#32

/-- The loop of `loadseg`, from the `i`-th byte on. -/
def loadsegFrom (f : File) (pagetable va : Word) (offset sz : BitVec 32) :
    (fuel : Nat) → (i : BitVec 32) → Phys → Except Panic (Bool × Phys)
  | 0, i, m => if i < sz then .error .endless else .ok (true, m)
  | fuel + 1, i, m =>
    if i < sz then do
      let pa ← walkaddr m pagetable (va + i.setWidth 64)
      if pa = 0#64 then .error .loadseg
      else
        let n := if sz - i < 4096#32 then sz - i else 4096#32
        let read := f.readi (offset + i) n
        if read.length ≠ n.toNat then .ok (false, m.store pa 0 read)
        else loadsegFrom f pagetable va offset sz fuel (i + 4096#32) (m.store pa 0 read)
    else .ok (true, m)

def loadseg (f : File) (m : Phys) (pagetable va : Word) (offset sz : BitVec 32) :
    Except Panic (Bool × Phys) :=
  loadsegFrom f pagetable va offset sz (sz.toNat / PGSIZE + 1) 0#32 m

section Call

variable (kend : Word)

/-- The loop over the program headers, of which there are as many left: whether it gets to its
    end, and the size. -/
def loadFrom (f : File) (pagetable : Word) :
    (left : Nat) → (off : BitVec 32) → Phys → (sz : Word) → Except Panic (Bool × Word × Phys)
  | 0, _, m, sz => .ok (true, sz, m)
  | left + 1, off, m, sz =>
    let read := f.readi off 56#32
    let ph := ProgHdr.ofBytes read
    if read.length ≠ 56 then .ok (false, sz, m)
    else if ph.type ≠ ELF_PROG_LOAD then loadFrom f pagetable left (off + 56#32) m sz
    else if ph.memsz < ph.filesz then .ok (false, sz, m)
    else if ph.vaddr + ph.memsz < ph.vaddr then .ok (false, sz, m)
    else do
      match ← uvmalloc kend m pagetable sz (ph.vaddr + ph.memsz) with
      | (sz1, m) =>
        if sz1 = 0#64 then .ok (false, sz, m)
        else if ph.vaddr.toNat % PGSIZE ≠ 0 then .ok (false, sz1, m)
        else do
          match ← loadseg f m pagetable ph.vaddr (ph.off.setWidth 32) (ph.filesz.setWidth 32) with
          | (false, m) => .ok (false, sz1, m)
          | (true, m) => loadFrom f pagetable left (off + 56#32) m sz1

/-- Bytes go on the stack, below `sp` and down to a multiple of 16: where they are, or nothing if
    they would be below the stack. -/
def push (m : Phys) (pagetable stackbase sp : Word) (bytes : List UInt8) :
    Except Panic (Option Word × Phys) :=
  let sp := sp - BitVec.ofNat 64 bytes.length
  let sp := sp - sp % 16#64
  if sp < stackbase then .ok (none, m)
  else do
    match ← copyout m pagetable sp bytes with
    | (false, m) => .ok (none, m)
    | (true, m) => .ok (some sp, m)

/-- The loop over the arguments, which are strings without their zero. -/
def pushArgs (pagetable stackbase : Word) : (argv : List (List UInt8)) → Phys → (sp : Word) →
    (ustack : List Word) → Except Panic (Option (Word × List Word) × Phys)
  | [], m, sp, ustack => .ok (some (sp, ustack), m)
  | s :: argv, m, sp, ustack =>
    if Memory.MAXARG ≤ ustack.length then .ok (none, m)
    else do
      match ← push m pagetable stackbase sp (s ++ [0]) with
      | (none, m) => .ok (none, m)
      | (some sp, m) => pushArgs pagetable stackbase argv m sp (ustack ++ [sp])

/-- The bytes of a `uint64`. -/
def wordBytes (x : Word) : List UInt8 := (List.range 8).map fun j => ⟨(x >>> (8 * j)).setWidth 8⟩

/-- The arguments and the pointers to them: how many there are, and `sp`. There is room for
    `MAXARG` pointers in `ustack`, and the `0` after them is not checked. -/
def pushStack (m : Phys) (pagetable stackbase sp : Word) (argv : List (List UInt8)) :
    Except Panic (Option (Nat × Word) × Phys) := do
  match ← pushArgs pagetable stackbase argv m sp [] with
  | (none, m) => .ok (none, m)
  | (some (sp, ustack), m) =>
    if Memory.MAXARG ≤ ustack.length then .error .fault
    else do
      match ← push m pagetable stackbase sp ((ustack ++ [0#64]).flatMap wordBytes) with
      | (none, m) => .ok (none, m)
      | (some sp, m) => .ok (some (ustack.length, sp), m)

/-- A process with its name. -/
structure Proc extends Memory.Proc where
  name : List UInt8

/-- What `exec` asks of the file system, reading apart. -/
inductive FsCall
  | beginOp
  | namei
  | ilock
  | iunlockput
  | endOp
deriving DecidableEq, Repr

/-- What `exec` returns, and what there is after it. -/
structure Result where
  ret : Word
  proc : Proc
  mem : Phys
  calls : List FsCall

/-- `bad`. The table is `0` if there is none yet, and `ip` is set as long as the file is open. -/
def bad (m : Phys) (p : Proc) (pagetable sz : Word) (ip : Bool) (calls : List FsCall) :
    Except Panic Result := do
  let m ← if pagetable = 0#64 then .ok m else procFreepagetable kend m pagetable sz
  .ok ⟨-1#64, p, m, if ip then calls ++ [.iunlockput, .endOp] else calls⟩

/-- The part of a path after the last `/`. -/
def lastName (path : List UInt8) : List UInt8 := (path.reverse.takeWhile (· ≠ 47)).reverse

/-- `safestrcpy` to `p->name`, which has 16 bytes with the zero. -/
def setName (p : Proc) (path : List UInt8) : Proc := { p with name := (lastName path).take 15 }

/-- From where nothing fails any more. The registers are `epc`, `sp` and `a1`. -/
def commit (m : Phys) (p : Proc) (path : List UInt8) (elf : ElfHdr) (pagetable sz : Word)
    (argc : Nat) (sp : Word) (calls : List FsCall) : Except Panic Result := do
  let m := ((m.set p.trapframe 15 sp).set p.trapframe 3 elf.entry).set p.trapframe 6 sp
  let m ← procFreepagetable kend m p.pagetable p.sz
  .ok ⟨BitVec.ofNat 64 argc, { setName p path with pagetable := pagetable, sz := sz }, m, calls⟩

/-- `exec` from the stack on. -/
def execStack (m : Phys) (p : Proc) (path : List UInt8) (argv : List (List UInt8)) (elf : ElfHdr)
    (pagetable sz : Word) (calls : List FsCall) : Except Panic Result := do
  match ← uvmalloc kend m pagetable sz (sz + 8192#64) with
  | (sz1, m) =>
    if sz1 = 0#64 then bad kend m p pagetable sz false calls
    else do
      let m ← uvmclear m pagetable (sz1 - 8192#64)
      match ← pushStack m pagetable (sz1 - 4096#64) sz1 argv with
      | (none, m) => bad kend m p pagetable sz1 false calls
      | (some (argc, sp), m) => commit kend m p path elf pagetable sz1 argc sp calls

/-- `exec`. The file is what `namei` finds. -/
def exec (trampoline : Word) (m : Phys) (p : Proc) (file : Option File) (path : List UInt8)
    (argv : List (List UInt8)) : Except Panic Result :=
  match file with
  | none => .ok ⟨-1#64, p, m, [.beginOp, .namei, .endOp]⟩
  | some f =>
    let calls := [.beginOp, .namei, .ilock]
    let read := f.readi 0#32 64#32
    let elf := ElfHdr.ofBytes read
    if read.length ≠ 64 then bad kend m p 0#64 0#64 true calls
    else if elf.magic ≠ ELF_MAGIC then bad kend m p 0#64 0#64 true calls
    else do
      match ← procPagetable kend trampoline m p.trapframe with
      | (none, m) => bad kend m p 0#64 0#64 true calls
      | (some pagetable, m) => do
        match ← loadFrom kend f pagetable elf.phnum.toNat (elf.phoff.setWidth 32) m 0#64 with
        | (false, sz, m) => bad kend m p pagetable sz true calls
        | (true, sz, m) =>
          execStack kend m p path argv elf pagetable (PGROUNDUP sz)
            (calls ++ [.iunlockput, .endOp])

/-- The call as `syscall` ends it: what it returns goes to `a0`. -/
def sysExec (trampoline : Word) (m : Phys) (p : Proc) (file : Option File) (path : List UInt8)
    (argv : List (List UInt8)) : Except Panic Result := do
  let r ← exec kend trampoline m p file path argv
  .ok { r with mem := r.mem.set r.proc.trapframe 14 r.ret }

end Call

end Xv6.Vm.Exec
