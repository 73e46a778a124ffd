import Xv6.Core.Kernel
import Xv6.Core.Pipe

/-!
# Files That Are Pipes

The machine of `Core.Kernel` together with its pipes: `pipealloc` and `pipeclose` of
`kernel/pipe.c`, `sys_pipe`, and the functions that may close a pipe. A pipe lives in a page of
memory, and a file that is an end of it has the address of the page.

What does not touch a pipe is the program of `Core.Sysfile`, lifted to the larger machine. There
`fileclose` leaves pipes alone, so here it goes on with `pipeclose`. The `fileclose` in
`sys_open` stays as it is: it is given a file that has no type yet.

Whether `kalloc` has a page, and which, is an argument of `sysPipe`. It never is a page in use.
-/

namespace Xv6

/-- `f->pipe` of every file, and the pipe in each page that holds one. -/
structure Pipes where
  pipe : Fin NFILE → Nat
  page : Nat → Option Pipe

/-- The kernel with its pipes. -/
structure Kern where
  vol : Vol
  pipes : Pipes

/-- The inode layer and the pipes. -/
inductive KOp
  | ino (o : IOp)
  | pipes
  | setPipes (x : Pipes)
  | stop (e : Stop)

/-- What each operation answers. -/
abbrev KOp.Ret : KOp → Type
  | .ino o => o.Ret
  | .pipes => Pipes
  | .setPipes _ => Unit
  | .stop _ => Empty

abbrev KProg : Type → Type := Prog KOp KOp.Ret

namespace Kern

def handle (sb : Superblock) : Handler KOp KOp.Ret Kern Stop
  | .ino o, k => match (Ino.impl sb o).run Vol.handle k.vol with
    | .ok (r, v) => .ok (r, { k with vol := v })
    | .error e => .error e
  | .pipes, k => .ok (k.pipes, k)
  | .setPipes x, k => .ok ((), { k with pipes := x })
  | .stop e, _ => .error e

/-- A program that uses no pipe. -/
def ino {α : Type} (p : IProg α) : KProg α := p.expand fun o => Prog.call (KOp.ino o)

def getPipes : KProg Pipes := Prog.call KOp.pipes

def setPipes (x : Pipes) : KProg Unit := Prog.call (KOp.setPipes x)

def stop {α : Type} (e : Stop) : KProg α := .op (.stop e) fun r => nomatch r

/-- `f->pipe = pi`. -/
def setPipe (f : Fin NFILE) (pi : Nat) : KProg Unit := do
  let t ← getPipes
  setPipes { t with pipe := Function.update t.pipe f pi }

/-- Storing a pipe, or giving its page back. -/
def setPage (pi : Nat) (x : Option Pipe) : KProg Unit := do
  let t ← getPipes
  setPipes { t with page := Function.update t.page pi x }

def pipeclose (pi : Nat) (writable : Bool) : KProg Unit := do
  let t ← getPipes
  match t.page pi with
  | none => stop .stuck
  | some x =>
    let x := if writable then { x with writeopen := false } else { x with readopen := false }
    if x.readopen = false ∧ x.writeopen = false then setPage pi none else setPage pi (some x)

def fileclose (f : Fin NFILE) : KProg Unit := do
  let ff ← ino (Ino.file f)
  ino (Ino.fileclose f)
  if ff.ref = 1 ∧ ff.type = .pipe then
    let t ← getPipes
    pipeclose (t.pipe f) ff.writable
  else pure ()

/-- What `pipealloc` writes into a file. -/
def setEnd (f : Fin NFILE) (pi : Nat) (writable : Bool) : KProg Unit := do
  let x ← ino (Ino.file f)
  ino (Ino.setFile f { x with type := .pipe, readable := !writable, writable := writable })
  setPipe f pi

/-- `pipealloc`, with what `kalloc` returns. -/
def pipealloc (page : Option Nat) : KProg (Option (Fin NFILE × Fin NFILE)) := do
  match ← ino Ino.filealloc with
  | none => return none
  | some f0 => do
    match ← ino Ino.filealloc with
    | none => do
      fileclose f0
      return none
    | some f1 => do
      match page with
      | none => do
        fileclose f0
        fileclose f1
        return none
      | some pi => do
        setPage pi (some Pipe.init)
        setEnd f0 pi false
        setEnd f1 pi true
        return some (f0, f1)

/-- The end of `sys_pipe` where the files cannot be given to the process. -/
def pipeBad (rf wf : Fin NFILE) : KProg Int := do
  fileclose rf
  fileclose wf
  return -1

/-- `sys_pipe`, with what `kalloc` returns and whether both descriptors could be copied out. -/
def sysPipe (p : Fin NPROC) (page : Option Nat) (copied : Bool) : KProg Int := do
  match ← pipealloc page with
  | none => return -1
  | some (rf, wf) => do
    match ← ino (Ino.fdalloc p rf) with
    | none => pipeBad rf wf
    | some fd0 => do
      match ← ino (Ino.fdalloc p wf) with
      | none => do
        ino (Ino.setFd p fd0 none)
        pipeBad rf wf
      | some fd1 =>
        if copied then return 0
        else do
          ino (Ino.setFd p fd0 none)
          ino (Ino.setFd p fd1 none)
          pipeBad rf wf

def sysClose (p : Fin NPROC) (fd : Int) : KProg Int := do
  match ← ino (Ino.argfd p fd) with
  | none => return -1
  | some (fd, f) => do
    ino (Ino.setFd p fd none)
    fileclose f
    return 0

/-- One pass of the loop of `exit`, or what follows it. -/
def exitPass (p : Fin NPROC) (fd : Nat) : KProg Int := do
  let x ← ino (Ino.proc p)
  if h : fd < NOFILE then
    match x.ofile ⟨fd, h⟩ with
    | none => do
      ino (Ino.setTask p (.exiting (fd + 1)))
      return 0
    | some f => do
      fileclose f
      ino (Ino.setFd p ⟨fd, h⟩ none)
      ino (Ino.setTask p (.exiting (fd + 1)))
      return 0
  else ino (Ino.exitPass p fd)

/-- What may happen next. -/
inductive Event
  | call (p : Fin NPROC) (c : Call)
  | pipe (p : Fin NPROC) (page : Option Nat) (copied : Bool)
  | resume (p : Fin NPROC) (m : UserMem)
  | evict (b : Nat)

/-- What a system call runs. -/
def callCode (p : Fin NPROC) : Call → KProg Int
  | .close fd => sysClose p fd
  | c => ino (c.code p)

/-- What a process runs to go on with its task. -/
def taskCode (p : Fin NPROC) (m : UserMem) : Task → Option (KProg Int)
  | .idle => none
  | .writing f addr n i => some (ino (Ino.filewritePass p f m addr n i))
  | .exiting fd => some (exitPass p fd)

/-- A process that is there and has no call to finish. -/
def Ready (k : Kern) (p : Fin NPROC) : Prop :=
  (k.vol.procs.proc p).cwd.isSome ∧ (k.vol.procs.proc p).task = .idle

instance (k : Kern) (p : Fin NPROC) : Decidable (k.Ready p) := by
  unfold Ready
  infer_instance

/-- What a step runs, or nothing if it cannot happen now. -/
def code (k : Kern) : Event → Option (KProg Int)
  | .call p c => if k.Ready p then some (callCode p c) else none
  | .pipe p page copied =>
    if k.Ready p ∧ ∀ pi ∈ page, k.pipes.page pi = none then some (sysPipe p page copied) else none
  | .resume p m =>
    if (k.vol.procs.proc p).cwd.isSome then taskCode p m (k.vol.procs.proc p).task else none
  | .evict _ => some (pure 0)

/-- One step, or `none` where it cannot happen. -/
def step (sb : Superblock) (k : Kern) (a : Event) : Option (Except Stop Kern) :=
  match a with
  | .evict b => some (.ok { k with vol := k.vol.evict b })
  | a => (k.code a).map fun p => (p.run (handle sb) k).map Prod.snd

/-- A list of steps taken one after the other. -/
def steps (sb : Superblock) (k : Kern) : List Event → Option (Except Stop Kern)
  | [] => some (.ok k)
  | a :: as => match k.step sb a with
    | none => none
    | some (.error e) => some (.error e)
    | some (.ok k') => k'.steps sb as

/-- The state in which the first process starts, without a pipe. -/
def boot (sb : Superblock) (disk : Nat → Block) : Kern :=
  { vol := Vol.boot sb disk, pipes := { pipe := fun _ => 0, page := fun _ => none } }

end Kern

end Xv6
