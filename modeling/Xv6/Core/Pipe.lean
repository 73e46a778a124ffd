import Mathlib.Logic.Function.Basic
import Mathlib.Logic.Relation

/-!
# Pipes

`kernel/pipe.c`: a ring of bytes with two counters that only ever count up, modulo
`2 ^ 32`, and the processes reading and writing it.

A process that has called `pipewrite` or `piperead` is somewhere in the text of that
function, which is its `Pc`, together with its arguments and its `i`. One step takes it
once round the loop it is in, or to the lock, or to sleep. Other processes may run
between any two steps, so a schedule of the machine is a list of such steps in any
order. The lock is modelled, and a process that wants it while it is taken cannot move.

User memory enters byte by byte: a write has, for each `i`, the byte that `copyin` finds
at `addr + i` or nothing if that page is not there, and a read has whether `copyout`
would reach `addr + i`. Being killed can happen at any time and is an argument of the
step that looks at it.

`accepted`, `stored` and `taken` are bookkeeping: the bytes taken from writers and the bytes
that have arrived in readers' memory, each in order, and how many bytes the last read of each
process has taken out of the ring.
-/

namespace Xv6

open Function (update)

abbrev PIPESIZE : Nat := 512

/-- `struct pipe`, without its lock. -/
structure Pipe where
  data : Fin PIPESIZE → UInt8
  nread : UInt32
  nwrite : UInt32
  readopen : Bool
  writeopen : Bool

namespace Pipe

/-- The place in the ring of counter `n`. -/
def slot (n : UInt32) : Fin PIPESIZE := ⟨n.toNat % PIPESIZE, Nat.mod_lt _ (by decide)⟩

/-- As `pipealloc` leaves it. -/
def init : Pipe :=
  { data := fun _ => 0, nread := 0, nwrite := 0, readopen := true, writeopen := true }

/-- `pi->data[pi->nwrite++ % PIPESIZE] = ch`. -/
def push (b : Pipe) (ch : UInt8) : Pipe :=
  { b with data := update b.data (slot b.nwrite) ch, nwrite := b.nwrite + 1 }

/-- `ch = pi->data[pi->nread++ % PIPESIZE]`, without the assignment. -/
def pop (b : Pipe) : Pipe := { b with nread := b.nread + 1 }

/-- How many bytes are in the ring, by the counters. -/
def count (b : Pipe) : Nat := (b.nwrite - b.nread).toNat

/-- The bytes in the ring, oldest first. -/
def window (b : Pipe) : List UInt8 :=
  (List.range b.count).map fun k => b.data (slot (b.nread + UInt32.ofNat k))

/-- The arguments of a `pipewrite`: the byte at `addr + i`, if it can be read. -/
structure Write where
  src : Nat → Option UInt8
  n : Int

/-- The arguments of a `piperead`: whether `addr + i` can be written. -/
structure Read where
  dst : Nat → Bool
  n : Int

/-- Where a process is. -/
inductive Pc
  | idle
  /-- In `pipewrite`, waiting for the lock. -/
  | wlock (c : Write) (i : Nat)
  /-- At the test of the loop of `pipewrite`. -/
  | wloop (c : Write) (i : Nat)
  /-- Asleep on `&pi->nwrite`. -/
  | wsleep (c : Write) (i : Nat)
  /-- In `piperead`, waiting for the lock. -/
  | rlock (c : Read)
  /-- At the test of the first loop of `piperead`. -/
  | rloop (c : Read)
  /-- Asleep on `&pi->nread`. -/
  | rsleep (c : Read)
  /-- At the test of the second loop of `piperead`. -/
  | rcopy (c : Read) (i : Nat)

/-- One pipe and the processes using it. -/
structure Sys (P : Type) where
  pipe : Pipe
  lock : Option P
  pc : P → Pc
  result : P → Int
  taken : P → Nat
  accepted : List UInt8
  stored : List UInt8

/-- What can happen: a call, `pipeclose` of one end, a wakeup from `kill`, or a step of
    a process that finds itself killed or not. -/
inductive Act (P : Type)
  | write (p : P) (c : Write)
  | read (p : P) (c : Read)
  | close (writable : Bool)
  | kill (p : P)
  | run (p : P) (killed : Bool)

variable {P : Type} [DecidableEq P]

/-- `wakeup(&pi->nread)`. -/
def wakeReaders (pc : P → Pc) : P → Pc := fun p => match pc p with
  | .rsleep c => .rlock c
  | x => x

/-- `wakeup(&pi->nwrite)`. -/
def wakeWriters (pc : P → Pc) : P → Pc := fun p => match pc p with
  | .wsleep c i => .wlock c i
  | x => x

namespace Sys

/-- A new pipe that nobody has called anything on. -/
def init (P : Type) : Sys P :=
  { pipe := Pipe.init, lock := none, pc := fun _ => .idle, result := fun _ => 0
    taken := fun _ => 0, accepted := [], stored := [] }

def goto (s : Sys P) (p : P) (x : Pc) : Sys P := { s with pc := update s.pc p x }

/-- `release(&pi->lock)` and a return. -/
def leave (s : Sys P) (p : P) (r : Int) : Sys P :=
  { s with
    lock := none
    pc := update s.pc p .idle
    result := update s.result p r }

/-- `sleep(chan, &pi->lock)`, up to where the process is off the processor. -/
def sleep (s : Sys P) (p : P) (x : Pc) : Sys P :=
  { s with lock := none, pc := update s.pc p x }

/-- `pipewrite` after its loop. -/
def writeDone (s : Sys P) (p : P) (i : Nat) : Sys P :=
  Sys.leave { s with pc := wakeReaders s.pc } p i

/-- `piperead` after its second loop. -/
def readDone (s : Sys P) (p : P) (i : Nat) : Sys P :=
  Sys.leave { s with pc := wakeWriters s.pc } p i

/-- Once round the loop of `pipewrite`. -/
def writeLoop (s : Sys P) (p : P) (killed : Bool) (c : Write) (i : Nat) : Sys P :=
  if (i : Int) < c.n then
    if s.pipe.readopen = false ∨ killed = true then s.leave p (-1)
    else if s.pipe.nwrite = s.pipe.nread + 512 then
      Sys.sleep { s with pc := wakeReaders s.pc } p (.wsleep c i)
    else match c.src i with
      | none => s.writeDone p i
      | some ch => Sys.goto { s with pipe := s.pipe.push ch, accepted := s.accepted ++ [ch] } p
          (.wloop c (i + 1))
  else s.writeDone p i

/-- Once round the first loop of `piperead`. -/
def readLoop (s : Sys P) (p : P) (killed : Bool) (c : Read) : Sys P :=
  if s.pipe.nread = s.pipe.nwrite ∧ s.pipe.writeopen = true then
    if killed then s.leave p (-1) else s.sleep p (.rsleep c)
  else s.goto p (.rcopy c 0)

/-- `ch = pi->data[pi->nread++ % PIPESIZE]` in a read of `p`. -/
def take (s : Sys P) (p : P) : Sys P :=
  { s with pipe := s.pipe.pop, taken := update s.taken p (s.taken p + 1) }

/-- Once round the second loop of `piperead`. The byte is out of the ring before
    `copyout` is tried. -/
def readCopy (s : Sys P) (p : P) (c : Read) (i : Nat) : Sys P :=
  if (i : Int) < c.n then
    if s.pipe.nread = s.pipe.nwrite then s.readDone p i
    else if c.dst i then
      Sys.goto { s.take p with stored := s.stored ++ [s.pipe.data (slot s.pipe.nread)] } p
        (.rcopy c (i + 1))
    else (s.take p).readDone p i
  else s.readDone p i

/-- `pipeclose`, which holds the lock from beginning to end. -/
def close (s : Sys P) (writable : Bool) : Sys P :=
  if writable then { s with pipe := { s.pipe with writeopen := false }, pc := wakeReaders s.pc }
  else { s with pipe := { s.pipe with readopen := false }, pc := wakeWriters s.pc }

/-- A process takes a step, or cannot. -/
def run (s : Sys P) (p : P) (killed : Bool) : Option (Sys P) :=
  match s.pc p with
  | .wlock c i => if s.lock = none then
    some (Sys.goto { s with lock := some p } p (.wloop c i)) else none
  | .rlock c => if s.lock = none then
    some (Sys.goto { s with lock := some p } p (.rloop c)) else none
  | .wloop c i => some (s.writeLoop p killed c i)
  | .rloop c => some (s.readLoop p killed c)
  | .rcopy c i => some (s.readCopy p c i)
  | _ => none

end Sys

/-- One step of the machine, or `none` where it cannot be taken. -/
def step (s : Sys P) : Act P → Option (Sys P)
  | .write p c => match s.pc p with
    | .idle => some (s.goto p (.wlock c 0))
    | _ => none
  | .read p c => match s.pc p with
    | .idle => some (Sys.goto { s with taken := update s.taken p 0 } p (.rlock c))
    | _ => none
  | .close w => if s.lock = none then some (s.close w) else none
  | .kill p => match s.pc p with
    | .wsleep c i => some (s.goto p (.wlock c i))
    | .rsleep c => some (s.goto p (.rlock c))
    | _ => none
  | .run p killed => s.run p killed

/-- A list of steps taken one after the other. -/
def steps (s : Sys P) : List (Act P) → Option (Sys P)
  | [] => some s
  | a :: as => match step s a with
    | none => none
    | some s' => steps s' as

end Pipe

end Xv6
