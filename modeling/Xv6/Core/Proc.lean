import Mathlib.Data.List.FinRange
import Xv6.Core.Param

/-!
# Processes and the Scheduler

`kernel/proc.c`: the process table, the scheduler of each cpu, and the kernel threads of the
processes as they run `fork`, `exit`, `wait`, `kill`, `sleep`, `wakeup` and `yield`.

A cpu runs either its scheduler or the kernel thread of one process, and `swtch` goes from
one to the other. `p->lock` is held across the switch: the scheduler takes it and the
process it enters lets go of it, and the other way round on the way out. So the lock is a
field that says which cpu holds it, and the pieces of text on both sides of a switch are
steps of their own. A piece that takes `q->lock`, looks at `q` and lets go again is one step,
possible only while the lock is free. `wait_lock` is held over many such steps.

A process can lose its cpu to a timer interrupt wherever it holds no spinlock, in the middle
of the loops of `kill` and `wakeup` as well as between the three sections of `fork`. Device
interrupts call `wakeup` too.

The scheduler passing over a process that is not `RUNNABLE` changes nothing and is no step.
The functions are followed as far as they touch the table: memory, open files and names are
elsewhere, and whether `fork` finds the memory it needs is an argument of its step.

`exited`, `reaped` and `asked` are bookkeeping. The first two list, for each slot, the pid
and status of the processes that exited in it and of those that a `wait` has returned.
`asked` says that, since the slot was taken, `kill` with its pid has come by or the process
has trapped.
-/

namespace Xv6

open Function (update)

/-- `enum procstate`. -/
inductive ProcState
  | UNUSED
  | USED
  | SLEEPING
  | RUNNABLE
  | RUNNING
  | ZOMBIE
deriving DecidableEq, Repr

namespace Ptable

/-- What processes sleep on: `wait` on the process itself, all else on something that is not
    a process. -/
inductive Chan (P : Type)
  | proc (p : P)
  | other (n : Nat)
deriving DecidableEq

/-- The fields of `struct proc` that `p->lock` and `wait_lock` protect, and `p->lock`: the cpu
    that holds it. -/
structure Entry (P C : Type) where
  lock : Option C
  state : ProcState
  chan : Option (Chan P)
  killed : Bool
  xstate : Int
  pid : Int
  parent : Option P

/-- The address given to `wait`: zero, or one that `copyout` fails or succeeds on. -/
inductive StatusAddr
  | null
  | bad
  | good
deriving DecidableEq

/-- Where a process is in the text. The lists are what is left of a loop over the table. -/
inductive Pc (P : Type)
  /-- In none of the functions below. -/
  | run
  | waking (n : Nat) (todo : List P)
  | killing (pid : Int) (todo : List P)
  | allocproc (todo : List P)
  /-- `fork` up to `release(&np->lock)`. -/
  | forking (np : P)
  /-- `fork` before `np->parent = p`. -/
  | adopt (np : P) (pid : Int)
  /-- `fork` before `np->state = RUNNABLE`. -/
  | launch (np : P) (pid : Int)
  /-- `exit` before `acquire(&wait_lock)`. -/
  | exiting (status : Int)
  | reparent (status : Int) (todo : List P)
  /-- The `wakeup(initproc)` of `reparent`, which has `rest` still to do. -/
  | wakeInit (status : Int) (todo rest : List P)
  | wakeParent (status : Int) (todo : List P)
  /-- `exit` before `acquire(&p->lock)`. -/
  | zombie (status : Int)
  | dead
  /-- `wait` before it has `wait_lock`, at first or after its `sleep`. -/
  | waiting (addr : StatusAddr)
  | scan (addr : StatusAddr) (todo : List P) (havekids : Bool)

/-- Whether a process has a cpu: it runs; it has given up the cpu, or is about to, in `sched`;
    it has come back into `sched`, or for the first time to `forkret`, and still holds its
    lock. `slept` tells `sleep` from the others. -/
inductive Ctx
  | on
  | out (slept : Bool)
  | resumed (slept : Bool)
deriving DecidableEq

/-- Where a cpu is: between two processes of the loop in `scheduler`; before and after
    `c->proc = p`; in the thread of a process; back from `swtch`, before and after
    `c->proc = 0`. -/
inductive Cpu (P : Type)
  | idle
  | chosen (p : P)
  | loaded (p : P)
  | thread (p : P)
  | back (p : P)
  | cleared (p : P)
deriving DecidableEq

structure Sys (P C : Type) where
  proc : P → Entry P C
  pc : P → Pc P
  ctx : P → Ctx
  cpu : C → Cpu P
  /-- `c->proc`. -/
  cur : C → Option P
  waitLock : Option P
  nextpid : Int
  /-- What the last call of each process returned. -/
  result : P → Int
  exited : P → List (Int × Int)
  reaped : P → List (Int × Int)
  asked : P → Bool

/-- The table: every process is in the order in which the loops go through it. -/
structure Table (P : Type) where
  procs : List P
  mem : ∀ p, p ∈ procs
  initproc : P

/-- `proc[NPROC]`, with the first process in its first slot. -/
def proc : Table (Fin NPROC) :=
  { procs := List.finRange NPROC, mem := List.mem_finRange, initproc := 0 }

namespace Entry

variable {P C : Type}

def freeproc (e : Entry P C) : Entry P C :=
  { e with pid := 0, parent := none, chan := none, killed := false, xstate := 0,
           state := .UNUSED }

/-- What `wakeup(chan)` does to one process. -/
def wakeup [DecidableEq P] (chan : Option (Chan P)) (e : Entry P C) : Entry P C :=
  if e.state = .SLEEPING ∧ e.chan = chan then { e with state := .RUNNABLE } else e

/-- What `kill` does to the process it finds. -/
def kill (e : Entry P C) : Entry P C :=
  { e with killed := true, state := if e.state = .SLEEPING then .RUNNABLE else e.state }

end Entry

/-- Holding no spinlock, a process can be interrupted. -/
def Pc.interruptible {P : Type} : Pc P → Bool
  | .run | .waking _ _ | .killing _ _ | .allocproc _ | .adopt _ _ | .launch _ _ => true
  | .exiting _ | .waiting _ => true
  | .forking _ | .reparent _ _ | .wakeInit _ _ _ | .wakeParent _ _ | .zombie _ => false
  | .scan _ _ _ | .dead => false

/-- What a process that is in none of the functions may do next. -/
inductive Call
  | wakeup (n : Nat)
  | kill (pid : Int)
  | fork
  | exit (status : Int)
  | wait (addr : StatusAddr)
  /-- An unexpected trap, after which `usertrap` calls `exit`. -/
  | trap

/-- What can happen next: a step of the scheduler of a cpu, of the process on a cpu, or an
    interrupt. -/
inductive Event (P C : Type)
  | pick (c : C) (p : P)
  | sched (c : C)
  | swtch (c : C)
  | yield (c : C)
  | sleep (c : C) (n : Nat)
  | call (c : C) (x : Call)
  /-- The process goes on; `mem` says whether `fork` finds memory. -/
  | go (c : C) (mem : Bool)
  | interrupt (n : Nat) (q : P)

namespace Sys

variable {P C : Type} [DecidableEq P] [DecidableEq C]

def edit (s : Sys P C) (q : P) (f : Entry P C → Entry P C) : Sys P C :=
  { s with proc := update s.proc q (f (s.proc q)) }

def goto (s : Sys P C) (p : P) (x : Pc P) : Sys P C :=
  { s with pc := update s.pc p x }

def ret (s : Sys P C) (p : P) (r : Int) : Sys P C :=
  { s with pc := update s.pc p .run, result := update s.result p r }

/-- `acquire(&p->lock)`, a new state, and into `sched`. -/
def giveUp (s : Sys P C) (c : C) (p : P) (f : Entry P C → Entry P C) (slept : Bool) : Sys P C :=
  { s.edit p (fun e => { f e with lock := some c }) with
    ctx := update s.ctx p (.out slept) }

def setCpu (s : Sys P C) (c : C) (x : Cpu P) : Sys P C :=
  { s with cpu := update s.cpu c x }

/-- The scheduler finds `p` `RUNNABLE`. -/
def pick (s : Sys P C) (c : C) (p : P) : Sys P C :=
  (s.edit p fun e => { e with lock := some c, state := .RUNNING }).setCpu c (.chosen p)

/-- `c->proc = p`. -/
def load (s : Sys P C) (c : C) (p : P) : Sys P C :=
  { s.setCpu c (.loaded p) with cur := update s.cur c (some p) }

/-- `swtch` into the process. -/
def enter (s : Sys P C) (c : C) (p : P) (slept : Bool) : Sys P C :=
  { s.setCpu c (.thread p) with ctx := update s.ctx p (.resumed slept) }

/-- `c->proc = 0`. -/
def clear (s : Sys P C) (c : C) (p : P) : Sys P C :=
  { s.setCpu c (.cleared p) with cur := update s.cur c none }

/-- The scheduler lets go of `p->lock`. -/
def drop (s : Sys P C) (c : C) (p : P) : Sys P C :=
  (s.edit p fun e => { e with lock := none }).setCpu c .idle

/-- Back in `yield`, `sleep` or `forkret`, the process lets go of its lock. -/
def settle (s : Sys P C) (p : P) (slept : Bool) : Sys P C :=
  { s.edit p (fun e => { e with chan := if slept then none else e.chan, lock := none }) with
    ctx := update s.ctx p .on }

/-- `allocproc` has found `q`. The context it sets up starts at `forkret`. -/
def reserve (s : Sys P C) (c : C) (q : P) : Sys P C :=
  { s.edit q (fun e => { e with lock := some c, pid := s.nextpid, state := .USED }) with
    nextpid := s.nextpid + 1
    pc := update s.pc q .run
    ctx := update s.ctx q (.out false)
    asked := update s.asked q false }

/-- `exit` from `acquire(&p->lock)` on. -/
def die (s : Sys P C) (c : C) (p : P) (status : Int) : Sys P C :=
  { (s.giveUp c p (fun e => { e with xstate := status, state := .ZOMBIE }) false).goto p .dead with
    waitLock := none
    exited := update s.exited p (s.exited p ++ [((s.proc p).pid, status)]) }

/-- `wait` has found a zombie and its status has been copied out. -/
def reap (s : Sys P C) (p q : P) : Sys P C :=
  { (s.edit q Entry.freeproc).ret p (s.proc q).pid with
    waitLock := none
    reaped := update s.reaped q (s.reaped q ++ [((s.proc q).pid, (s.proc q).xstate)]) }

/-- One process in the loop of `wakeup`, called by `p`. -/
def wakeOne (s : Sys P C) (p q : P) (chan : Option (Chan P)) (next : Pc P) : Option (Sys P C) :=
  if q = p then some (s.goto p next)
  else if (s.proc q).lock = none then some ((s.edit q (Entry.wakeup chan)).goto p next)
  else none

/-- One process in the loop of `kill`. -/
def killOne (s : Sys P C) (p q : P) (pid : Int) (todo : List P) : Option (Sys P C) :=
  if (s.proc q).lock = none then
    if (s.proc q).pid = pid then
      some { (s.edit q Entry.kill).ret p 0 with asked := update s.asked q true }
    else some (s.goto p (.killing pid todo))
  else none

/-- One process in the loop of `allocproc`. -/
def allocOne (s : Sys P C) (c : C) (p q : P) (todo : List P) : Option (Sys P C) :=
  if (s.proc q).lock = none then
    if (s.proc q).state = .UNUSED then some ((s.reserve c q).goto p (.forking q))
    else some (s.goto p (.allocproc todo))
  else none

/-- `fork` with the lock of the new process held: without memory it is freed again. -/
def copyMem (s : Sys P C) (p np : P) : Bool → Sys P C
  | true => (s.edit np fun e => { e with lock := none }).goto p (.adopt np (s.proc np).pid)
  | false => (s.edit np fun e => { e.freeproc with lock := none }).ret p (-1)

/-- One process in the loop of `reparent`. -/
def reparentOne (T : Table P) (s : Sys P C) (p q : P) (status : Int) (todo : List P) : Sys P C :=
  if (s.proc q).parent = some p then
    (s.edit q fun e => { e with parent := some T.initproc }).goto p
      (.wakeInit status T.procs todo)
  else s.goto p (.reparent status todo)

/-- One process in the loop of `wait`. -/
def scanOne (s : Sys P C) (p q : P) (addr : StatusAddr) (todo : List P) (havekids : Bool) :
    Option (Sys P C) :=
  if (s.proc q).parent = some p then
    if (s.proc q).lock = none then
      if (s.proc q).state = .ZOMBIE then
        if addr = .bad then some { s.ret p (-1) with waitLock := none }
        else some (s.reap p q)
      else some (s.goto p (.scan addr todo true))
    else none
  else some (s.goto p (.scan addr todo havekids))

/-- `wait` after its loop. -/
def scanEnd (s : Sys P C) (c : C) (p : P) (addr : StatusAddr) (havekids : Bool) :
    Option (Sys P C) :=
  if havekids = false ∨ (s.proc p).killed = true then
    some { s.ret p (-1) with waitLock := none }
  else if (s.proc p).lock = none then
    some { (s.giveUp c p (fun e => { e with chan := some (.proc p), state := .SLEEPING }) true).goto
      p (.waiting addr) with waitLock := none }
  else none

/-- The process `p` on cpu `c` goes on from where it is. -/
def go (T : Table P) (s : Sys P C) (c : C) (p : P) (mem : Bool) : Option (Sys P C) :=
  match s.pc p with
  | .run => none
  | .waking _ [] => some (s.goto p .run)
  | .waking n (q :: todo) => s.wakeOne p q (some (.other n)) (.waking n todo)
  | .killing _ [] => some (s.ret p (-1))
  | .killing pid (q :: todo) => s.killOne p q pid todo
  | .allocproc [] => some (s.ret p (-1))
  | .allocproc (q :: todo) => s.allocOne c p q todo
  | .forking np => some (s.copyMem p np mem)
  | .adopt np pid =>
    if s.waitLock = none then
      some ((s.edit np fun e => { e with parent := some p }).goto p (.launch np pid))
    else none
  | .launch np pid =>
    if (s.proc np).lock = none then
      some ((s.edit np fun e => { e with state := .RUNNABLE }).ret p pid)
    else none
  | .exiting status =>
    if s.waitLock = none then
      some { s.goto p (.reparent status T.procs) with waitLock := some p }
    else none
  | .reparent status [] => some (s.goto p (.wakeParent status T.procs))
  | .reparent status (q :: todo) => some (s.reparentOne T p q status todo)
  | .wakeInit status [] rest => some (s.goto p (.reparent status rest))
  | .wakeInit status (q :: todo) rest =>
    s.wakeOne p q (some (.proc T.initproc)) (.wakeInit status todo rest)
  | .wakeParent status [] => some (s.goto p (.zombie status))
  | .wakeParent status (q :: todo) =>
    s.wakeOne p q ((s.proc p).parent.map .proc) (.wakeParent status todo)
  | .zombie status => if (s.proc p).lock = none then some (s.die c p status) else none
  | .dead => none
  | .waiting addr =>
    if s.waitLock = none then
      some { s.goto p (.scan addr T.procs false) with waitLock := some p }
    else none
  | .scan addr [] havekids => s.scanEnd c p addr havekids
  | .scan addr (q :: todo) havekids => s.scanOne p q addr todo havekids

/-- A process that is in none of the functions calls one. `exit` by the first process is a
    panic. -/
def call (T : Table P) (s : Sys P C) (p : P) : Call → Option (Sys P C)
  | .wakeup n => some (s.goto p (.waking n T.procs))
  | .kill pid => some (s.goto p (.killing pid T.procs))
  | .fork => some (s.goto p (.allocproc T.procs))
  | .exit status => if p = T.initproc then none else some (s.goto p (.exiting status))
  | .wait addr => some (s.goto p (.waiting addr))
  | .trap => some { s.edit p (fun e => { e with killed := true }) with
      asked := update s.asked p true }

/-- The process running on `c`, neither on its way out nor just back. -/
def running (s : Sys P C) (c : C) : Option P :=
  match s.cpu c with
  | .thread p => if s.ctx p = .on then some p else none
  | _ => none

/-- The scheduler of `c` goes on around its `swtch`. -/
def sched (s : Sys P C) (c : C) : Option (Sys P C) :=
  match s.cpu c with
  | .chosen p => some (s.load c p)
  | .loaded p =>
    match s.ctx p with
    | .out slept => some (s.enter c p slept)
    | _ => none
  | .back p => some (s.clear c p)
  | .cleared p => some (s.drop c p)
  | _ => none

/-- The process on `c` is in `sched`: on its way out it switches to the scheduler, just back
    it lets go of its lock. -/
def swtch (s : Sys P C) (c : C) : Option (Sys P C) :=
  match s.cpu c with
  | .thread p =>
    match s.ctx p with
    | .out _ => some (s.setCpu c (.back p))
    | .resumed slept => some (s.settle p slept)
    | .on => none
  | _ => none

end Sys

section Machine

variable {P C : Type} [DecidableEq P] [DecidableEq C]

def step (T : Table P) (s : Sys P C) : Event P C → Option (Sys P C)
  | .pick c p =>
    if s.cpu c = .idle ∧ (s.proc p).lock = none ∧ (s.proc p).state = .RUNNABLE then
      some (s.pick c p)
    else none
  | .sched c => s.sched c
  | .swtch c => s.swtch c
  | .yield c =>
    (s.running c).bind fun p =>
      if (s.pc p).interruptible ∧ (s.proc p).lock = none then
        some (s.giveUp c p (fun e => { e with state := .RUNNABLE }) false)
      else none
  | .sleep c n =>
    (s.running c).bind fun p =>
      match s.pc p with
      | .run =>
        if (s.proc p).lock = none then
          some (s.giveUp c p
            (fun e => { e with chan := some (.other n), state := .SLEEPING }) true)
        else none
      | _ => none
  | .call c x =>
    (s.running c).bind fun p =>
      match s.pc p with
      | .run => s.call T p x
      | _ => none
  | .go c mem => (s.running c).bind fun p => s.go T c p mem
  | .interrupt n q =>
    if (s.proc q).lock = none then some (s.edit q (Entry.wakeup (some (.other n)))) else none

def steps (T : Table P) (s : Sys P C) : List (Event P C) → Option (Sys P C)
  | [] => some s
  | e :: es => (step T s e).bind fun s => steps T s es

/-- An empty slot. -/
def Entry.unused : Entry P C :=
  { lock := none, state := .UNUSED, chan := none, killed := false, xstate := 0, pid := 0,
    parent := none }

/-- The table as `userinit` leaves it. -/
def boot (T : Table P) : Sys P C :=
  { proc := fun p => if p = T.initproc then { Entry.unused with state := .RUNNABLE, pid := 1 }
      else Entry.unused
    pc := fun _ => .run
    ctx := fun _ => .out false
    cpu := fun _ => .idle
    cur := fun _ => none
    waitLock := none
    nextpid := 2
    result := fun _ => 0
    exited := fun _ => []
    reaped := fun _ => []
    asked := fun _ => false }

/-- One event that meets the condition `ok`. -/
def Next (T : Table P) (ok : Event P C → Prop) (s s' : Sys P C) : Prop :=
  ∃ e, ok e ∧ step T s e = some s'

/-- The states that events meeting `ok` lead to. -/
def Reachable (T : Table P) (ok : Event P C → Prop) (s : Sys P C) : Prop :=
  Relation.ReflTransGen (Next T ok) (boot T) s

end Machine

end Ptable

end Xv6
