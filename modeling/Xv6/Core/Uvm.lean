import Mathlib.Data.List.FinRange
import Xv6.Core.Param
import Xv6.Core.Vm

/-!
# Memory of Processes

The functions of `kernel/vm.c` over whole address spaces, and what takes and gives back pages
in `kernel/proc.c`, `kernel/exec.c`, `kernel/sysfile.c` and `kernel/pipe.c`.

A process is its slot in the table, as far as memory goes. System calls run one after another
on one free list. A call that finds no free page takes no other page afterwards, so what a call
sees of failing allocations is how many pages are free when it starts, and that is up to the
other processes: `pipe` takes a page at a time for as long as there are hands to hold one.

What a program in a file looks like is an argument of `exec` (`Image`): the segments, and where
reading fails. What is written into user pages is left out of the system calls, but a process
can write any word of any page it can reach (`Event.store`), between any two of them.

The loops over pages that allocate are followed for a number of rounds that they cannot reach,
since every round takes a page (`rounds`).
-/

namespace Xv6.Vm

abbrev PTE_R : Word := 2#64
abbrev PTE_W : Word := 4#64
abbrev PTE_X : Word := 8#64

/-- The highest page of an address space. -/
abbrev TRAMPOLINE : Word := 0x3FFFFFF000#64

abbrev TRAPFRAME : Word := 0x3FFFFFE000#64

def PGROUNDUP (sz : Word) : Word := (sz + 4095#64) &&& ~~~0xFFF#64

/-- More rounds than there are pages of memory. -/
def rounds : Nat := PHYSTOP.toNat / PGSIZE + 1

/-- `memmove` of a page. -/
def Phys.copy (m : Phys) (dst src : Word) : Phys :=
  { m with word := Function.update m.word dst (m.word src) }

section Space

variable (kend : Word)

/-- The new size. `npages` is an `int`. -/
def uvmdealloc (m : Phys) (pagetable oldsz newsz : Word) : Except Panic (Word × Phys) :=
  if oldsz ≤ newsz then .ok (oldsz, m)
  else if PGROUNDUP newsz < PGROUNDUP oldsz then do
    let npages : BitVec 32 := ((PGROUNDUP oldsz - PGROUNDUP newsz) / 4096#64).setWidth 32
    let m ← uvmunmap kend m pagetable (PGROUNDUP newsz) (npages.signExtend 64) true
    .ok (newsz, m)
  else .ok (newsz, m)

/-- The loop of `uvmalloc` from `a` on, where `oldsz` is rounded already. -/
def uvmallocFrom (pagetable oldsz newsz : Word) : Nat → Phys → Word → Except Panic (Word × Phys)
  | 0, _, _ => .error .endless
  | fuel + 1, m, a =>
    if a < newsz then
      match kalloc m with
      | (mem, m) =>
        if mem = 0#64 then do
          let (_, m) ← uvmdealloc kend m pagetable a oldsz
          .ok (0#64, m)
        else do
          match ← mappages (m.fill mem 0#64) pagetable a 4096#64 mem
            (PTE_W ||| PTE_X ||| PTE_R ||| PTE_U) with
          | (true, m) => uvmallocFrom pagetable oldsz newsz fuel m (a + 4096#64)
          | (false, m) => do
            let m ← kfree kend m mem
            let (_, m) ← uvmdealloc kend m pagetable a oldsz
            .ok (0#64, m)
    else .ok (newsz, m)

/-- The new size, or `0`. -/
def uvmalloc (m : Phys) (pagetable oldsz newsz : Word) : Except Panic (Word × Phys) :=
  if newsz < oldsz then .ok (oldsz, m)
  else uvmallocFrom kend pagetable (PGROUNDUP oldsz) newsz rounds m (PGROUNDUP oldsz)

/-- One entry in the loop of `freewalk`, where `free` is the call on the page below. -/
def freeEntry (free : Phys → Word → Except Panic Phys) (pagetable : Word) (m : Phys)
    (i : Index) : Except Panic Phys :=
  let pte := m.word pagetable i
  if isValid pte then
    if pte &&& (PTE_R ||| PTE_W ||| PTE_X) = 0#64 then do
      let m ← free m (PTE2PA pte)
      .ok (m.set pagetable i 0#64)
    else .error .freewalkLeaf
  else .ok m

/-- Pages of page tables, from the bottom up. The number bounds the depth. -/
def freewalk : Nat → Phys → Word → Except Panic Phys
  | 0, _, _ => .error .endless
  | depth + 1, m, pagetable => do
    let m ← (List.finRange 512).foldlM (freeEntry (freewalk depth) pagetable) m
    kfree kend m pagetable

def uvmfree (m : Phys) (pagetable sz : Word) : Except Panic Phys :=
  if sz = 0#64 then freewalk kend rounds m pagetable
  else do
    let m ← uvmunmap kend m pagetable 0#64 (PGROUNDUP sz / 4096#64) true
    freewalk kend rounds m pagetable

/-- The loop of `uvmcopy` from `i` on. Whether all pages could be copied. -/
def uvmcopyFrom (old new sz : Word) : Nat → Phys → Word → Except Panic (Bool × Phys)
  | 0, _, _ => .error .endless
  | fuel + 1, m, i =>
    if i < sz then do
      match ← walk m old i false with
      | (none, _) => .error .uvmcopyPte
      | (some (page, j), m) =>
        let pte := m.word page j
        if isValid pte = false then .error .uvmcopyPresent
        else
          match kalloc m with
          | (mem, m) =>
            if mem = 0#64 then do
              let m ← uvmunmap kend m new 0#64 (i / 4096#64) true
              .ok (false, m)
            else do
              match ← mappages (m.copy mem (PTE2PA pte)) new i 4096#64 mem (PTE_FLAGS pte)
                with
              | (true, m) => uvmcopyFrom old new sz fuel m (i + 4096#64)
              | (false, m) => do
                let m ← kfree kend m mem
                let m ← uvmunmap kend m new 0#64 (i / 4096#64) true
                .ok (false, m)
    else .ok (true, m)

def uvmcopy (m : Phys) (old new sz : Word) : Except Panic (Bool × Phys) :=
  uvmcopyFrom kend old new sz rounds m 0#64

/-- A table with the trampoline and the trapframe in it, or nothing. -/
def procPagetable (trampoline : Word) (m : Phys) (trapframe : Word) :
    Except Panic (Option Word × Phys) :=
  match uvmcreate m with
  | (none, m) => .ok (none, m)
  | (some pagetable, m) => do
    match ← mappages m pagetable TRAMPOLINE 4096#64 trampoline (PTE_R ||| PTE_X) with
    | (false, m) => do
      let m ← uvmfree kend m pagetable 0#64
      .ok (none, m)
    | (true, m) => do
      match ← mappages m pagetable TRAPFRAME 4096#64 trapframe (PTE_R ||| PTE_W) with
      | (false, m) => do
        let m ← uvmunmap kend m pagetable TRAMPOLINE 1#64 false
        let m ← uvmfree kend m pagetable 0#64
        .ok (none, m)
      | (true, m) => .ok (some pagetable, m)

def procFreepagetable (m : Phys) (pagetable sz : Word) : Except Panic Phys := do
  let m ← uvmunmap kend m pagetable TRAMPOLINE 1#64 false
  let m ← uvmunmap kend m pagetable TRAPFRAME 1#64 false
  uvmfree kend m pagetable sz

end Space

namespace Memory

/-- The states of a process, as far as its memory goes. -/
inductive Life
  | unused
  | used
  | zombie
deriving DecidableEq, Repr

structure Proc where
  state : Life := .unused
  trapframe : Word := 0#64
  pagetable : Word := 0#64
  sz : Word := 0#64

section Process

variable (kend : Word)

/-- `growproc`, with the new size if there is one. `sz` is a `uint` there. -/
def growproc (m : Phys) (p : Proc) (n : BitVec 32) : Except Panic (Option Word × Phys) :=
  let sz : BitVec 32 := p.sz.setWidth 32
  if 0 < n.toInt then do
    let (sz', m) ← uvmalloc kend m p.pagetable (sz.setWidth 64) ((sz + n).setWidth 64)
    let sz : BitVec 32 := sz'.setWidth 32
    if sz = 0#32 then .ok (none, m) else .ok (some (sz.setWidth 64), m)
  else if n.toInt < 0 then do
    let (sz', m) ← uvmdealloc kend m p.pagetable (sz.setWidth 64) ((sz + n).setWidth 64)
    let sz : BitVec 32 := sz'.setWidth 32
    .ok (some (sz.setWidth 64), m)
  else .ok (some (sz.setWidth 64), m)

/-- `sys_sbrk`: what it returns, and the process after it. `addr` is an `int`. -/
def sysSbrk (m : Phys) (p : Proc) (n : BitVec 32) : Except Panic (Word × Proc × Phys) := do
  let addr : BitVec 32 := p.sz.setWidth 32
  match ← growproc kend m p n with
  | (none, m) => .ok (-1#64, p, m)
  | (some sz, m) => .ok (addr.signExtend 64, { p with sz := sz }, m)

/-- `if(p->trapframe) kfree(p->trapframe)`. -/
def freeTrapframe (m : Phys) (p : Proc) : Except Panic Phys :=
  if p.trapframe = 0#64 then .ok m else kfree kend m p.trapframe

def freeproc (m : Phys) (p : Proc) : Except Panic Phys := do
  let m ← freeTrapframe kend m p
  if p.pagetable = 0#64 then .ok m else procFreepagetable kend m p.pagetable p.sz

/-- `allocproc` once a slot is found. -/
def allocproc (trampoline : Word) (m : Phys) : Except Panic (Option Proc × Phys) :=
  match kalloc m with
  | (trapframe, m) =>
    if trapframe = 0#64 then do
      let m ← freeproc kend m {}
      .ok (none, m)
    else do
      match ← procPagetable kend trampoline m trapframe with
      | (none, m) => do
        let m ← freeproc kend m { trapframe := trapframe }
        .ok (none, m)
      | (some pagetable, m) =>
        .ok (some { state := .used, trapframe := trapframe, pagetable := pagetable }, m)

/-- The memory of a child, or nothing. `a0` is word 14 of a trapframe. -/
def fork (trampoline : Word) (m : Phys) (p : Proc) : Except Panic (Option Proc × Phys) := do
  match ← allocproc kend trampoline m with
  | (none, m) => .ok (none, m)
  | (some np, m) => do
    match ← uvmcopy kend m p.pagetable np.pagetable p.sz with
    | (false, m) => do
      let m ← freeproc kend m np
      .ok (none, m)
    | (true, m) =>
      .ok (some { np with sz := p.sz },
        (m.copy np.trapframe p.trapframe).set np.trapframe 14 0#64)

/-- `struct proghdr`, and whether `loadseg` can read the segment. -/
structure Segment where
  load : Bool
  vaddr : Word
  memsz : Word
  filesz : Word
  read : Bool

/-- What `exec` finds: whether there is a file with a good header, the program headers, where
    `none` is one that cannot be read, and whether the arguments fit on the stack. -/
structure Image where
  header : Bool
  segments : List (Option Segment)
  args : Bool

/-- The loop of `exec` over the program headers: whether it gets to its end, and the size. -/
def loadFrom (pagetable : Word) :
    List (Option Segment) → Phys → Word → Except Panic (Bool × Word × Phys)
  | [], m, sz => .ok (true, sz, m)
  | none :: _, m, sz => .ok (false, sz, m)
  | some ph :: phs, m, sz =>
    if ph.load = false then loadFrom pagetable phs m sz
    else if ph.memsz < ph.filesz then .ok (false, sz, m)
    else if ph.vaddr + ph.memsz < ph.vaddr then .ok (false, sz, m)
    else do
      match ← uvmalloc kend m pagetable sz (ph.vaddr + ph.memsz) with
      | (sz1, m) =>
        if sz1 = 0#64 then .ok (false, sz, m)
        else if ph.vaddr.toNat % PGSIZE ≠ 0 ∨ ph.read = false then .ok (false, sz1, m)
        else loadFrom pagetable phs m sz1

/-- `bad` in `exec`. -/
def execBad (m : Phys) (pagetable sz : Word) : Except Panic (Option Proc × Phys) := do
  let m ← procFreepagetable kend m pagetable sz
  .ok (none, m)

/-- `exec` from the stack on. -/
def execStack (m : Phys) (p : Proc) (pagetable sz : Word) (args : Bool) :
    Except Panic (Option Proc × Phys) := do
  match ← uvmalloc kend m pagetable sz (sz + 8192#64) with
  | (sz1, m) =>
    if sz1 = 0#64 then execBad kend m pagetable sz
    else do
      let m ← uvmclear m pagetable (sz1 - 8192#64)
      if args = false then execBad kend m pagetable sz1
      else do
        let m ← procFreepagetable kend m p.pagetable p.sz
        .ok (some { p with pagetable := pagetable, sz := sz1 }, m)

/-- The process with its new image, or nothing. -/
def exec (trampoline : Word) (m : Phys) (p : Proc) (image : Image) :
    Except Panic (Option Proc × Phys) :=
  if image.header = false then .ok (none, m)
  else do
    match ← procPagetable kend trampoline m p.trapframe with
    | (none, m) => .ok (none, m)
    | (some pagetable, m) => do
      match ← loadFrom kend pagetable image.segments m 0#64 with
      | (false, sz, m) => execBad kend m pagetable sz
      | (true, sz, m) => execStack kend m p pagetable (PGROUNDUP sz) image.args

abbrev MAXARG : Nat := 32

/-- The loop of `sys_exec`: a page for every argument, where `args` says which of them can be
    fetched and `last` whether the `0` after them can be. -/
def fetchArgs (last : Bool) : List Bool → Phys → List Word → Bool × List Word × Phys
  | [], m, argv => (decide (argv.length < MAXARG) && last, argv, m)
  | arg :: args, m, argv =>
    if MAXARG ≤ argv.length then (false, argv, m)
    else
      match kalloc m with
      | (mem, m) =>
        if mem = 0#64 then (false, argv, m)
        else if arg = false then (false, argv ++ [mem], m)
        else fetchArgs last args m (argv ++ [mem])

def sysExec (trampoline : Word) (m : Phys) (p : Proc) (args : List Bool) (last : Bool)
    (image : Image) : Except Panic (Option Proc × Phys) :=
  match fetchArgs last args m [] with
  | (false, argv, m) => do
    let m ← argv.foldlM (kfree kend) m
    .ok (none, m)
  | (true, argv, m) => do
    let (p, m) ← exec kend trampoline m p image
    let m ← argv.foldlM (kfree kend) m
    .ok (p, m)

/-- `userinit`, and whether there was memory for the page of `initcode`, which the code does
    not ask. -/
def userinit (trampoline : Word) (m : Phys) : Except Panic (Bool × Proc × Phys) := do
  match ← allocproc kend trampoline m with
  | (none, _) => .error .fault
  | (some p, m) =>
    match kalloc m with
    | (mem, m) =>
      if mem = 0#64 then .error .fault
      else do
        match ← mappages (m.fill mem 0#64) p.pagetable 0#64 4096#64 mem
          (PTE_W ||| PTE_R ||| PTE_X ||| PTE_U) with
        | (done, m) => .ok (done, { p with sz := 4096#64 }, m)

end Process

/-- Processes, and the pages of pipes in hands `K`. -/
structure Sys (K : Type) where
  mem : Phys
  procs : Fin NPROC → Proc
  pipes : K → Word

inductive Event (K : Type)
  | fork (i : Fin NPROC)
  | exec (i : Fin NPROC) (args : List Bool) (last : Bool) (image : Image)
  | sbrk (i : Fin NPROC) (n : BitVec 32)
  | exit (i : Fin NPROC)
  /-- `wait` finds a zombie. -/
  | wait (i : Fin NPROC)
  /-- `pipe`, and whether there are descriptors and a place for them. -/
  | pipe (k : K) (ok : Bool)
  | pipeclose (k : K)
  /-- A process writes to its memory. -/
  | store (i : Fin NPROC) (va : Word) (j : Index) (x : Word)

section Machine

variable {K : Type} [DecidableEq K] (kend trampoline : Word)

namespace Sys

/-- A slot that `allocproc` finds. -/
def findUnused (s : Sys K) : Option (Fin NPROC) :=
  (List.finRange NPROC).find? fun i => (s.procs i).state = .unused

def setProc (s : Sys K) (m : Phys) (i : Fin NPROC) (p : Proc) : Sys K :=
  { s with mem := m, procs := Function.update s.procs i p }

/-- A call of process `i` that comes back with its new memory, or fails. -/
def call (s : Sys K) (i : Fin NPROC) (r : Option Proc × Phys) : Bool × Sys K :=
  match r with
  | (none, m) => (false, { s with mem := m })
  | (some p, m) => (true, s.setProc m i p)

end Sys

/-- What a word of a user page becomes, if the process can write it. -/
def store (m : Phys) (p : Proc) (va : Word) (j : Index) (x : Word) : Except Panic (Bool × Phys) :=
  if MAXVA ≤ va.toNat then .ok (false, m)
  else do
    match ← walk m p.pagetable va false with
    | (none, m) => .ok (false, m)
    | (some (page, i), m) =>
      let pte := m.word page i
      if isValid pte ∧ pte &&& PTE_U ≠ 0#64 then .ok (true, m.set (PTE2PA pte) j x)
      else .ok (false, m)

/-- Whether the call succeeds, and the state after it. A process that is not there does
    nothing. -/
def step (s : Sys K) : Event K → Except Panic (Bool × Sys K)
  | .fork i =>
    if (s.procs i).state = .used then
      match s.findUnused with
      | none => .ok (false, s)
      | some j => do
        let r ← fork kend trampoline s.mem (s.procs i)
        .ok (s.call j r)
    else .ok (false, s)
  | .exec i args last image =>
    if (s.procs i).state = .used then do
      let r ← sysExec kend trampoline s.mem (s.procs i) args last image
      .ok (s.call i r)
    else .ok (false, s)
  | .sbrk i n =>
    if (s.procs i).state = .used then do
      let (sz, m) ← growproc kend s.mem (s.procs i) n
      .ok (s.call i (sz.map fun sz => { s.procs i with sz := sz }, m))
    else .ok (false, s)
  | .exit i =>
    if (s.procs i).state = .used then
      .ok (true, s.setProc s.mem i { s.procs i with state := .zombie })
    else .ok (false, s)
  | .wait i =>
    if (s.procs i).state = .zombie then do
      let m ← freeproc kend s.mem (s.procs i)
      .ok (true, s.setProc m i {})
    else .ok (false, s)
  | .pipe k ok =>
    if s.pipes k = 0#64 then
      match kalloc s.mem with
      | (page, m) =>
        if page = 0#64 then .ok (false, { s with mem := m })
        else if ok then .ok (true, { s with mem := m, pipes := Function.update s.pipes k page })
        else do
          let m ← kfree kend m page
          .ok (false, { s with mem := m })
    else .ok (false, s)
  | .pipeclose k =>
    if s.pipes k = 0#64 then .ok (false, s)
    else do
      let m ← kfree kend s.mem (s.pipes k)
      .ok (true, { s with mem := m, pipes := Function.update s.pipes k 0#64 })
  | .store i va j x =>
    if (s.procs i).state = .used then do
      let (ok, m) ← store s.mem (s.procs i) va j x
      .ok (ok, { s with mem := m })
    else .ok (false, s)

/-- The first process, and nothing else. -/
def start (m : Phys) (p : Proc) : Sys K :=
  { mem := m, procs := fun i => if i.val = 0 then p else {}, pipes := fun _ => 0#64 }

/-- The states after `userinit` and any calls, from a memory with a free list. -/
inductive Reachable (m : Phys) : Sys K → Prop
  | start {p : Proc} {m' : Phys} : userinit kend trampoline m = .ok (true, p, m') →
      Reachable m (start m' p)
  | step {s s' : Sys K} {e : Event K} {r : Bool} : Reachable m s →
      step kend trampoline s e = .ok (r, s') → Reachable m s'

end Machine

end Memory

end Xv6.Vm
