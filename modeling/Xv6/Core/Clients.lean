import Xv6.Core.Commit

/-!
# Processes Sharing the Cache

Any number of processes at work on one device, each performing the pieces of
`Core.Bio` in its own order, with a commit running piece by piece among them.

A process is a client while it is outside `begin_op` and `end_op`'s waiting and
committing. What a client may do is what the comments in `log.c` and `bio.c` ask
of it: change a buffer only while holding it, inside an operation, and log it
before letting it go. It does not touch the blocks of the log. The process that
comes out of its operation last runs `commit`, whose text is `Core.Commit`'s and
is kept as the program that is left to run.

`want` and `drop` are program counters: the buffer a process has a reference to
but not yet, or no longer, the lock of. `dirty`, `last` and `pins` are
bookkeeping: the buffers changed since they were last logged, the contents last
passed to `log_write` for each block, and the calls of `bpin` less those of
`bunpin`.
-/

namespace Xv6

open Function (update)

/-- A device and the processes using it. -/
structure Sys (P : Type) where
  dev : Dev P
  mode : P → Mode
  want : P → Option (Fin NBUF)
  drop : P → Option (Fin NBUF)
  job : P → Option (BProg Unit)
  dirty : Fin NBUF → Bool
  last : Nat → Block
  pins : Nat → Int

/-- The steps of a process: the sections of `begin_op` and `end_op`, a piece of
    its own choosing, and the next piece of `commit` or what follows it. -/
inductive SAct (P : Type)
  | beginOp (p : P)
  | wake (p : P)
  | endOp (p : P)
  | client (p : P) (o : BOp)
  | commit (p : P)
  | finish (p : P)

namespace Sys

variable {P : Type} [DecidableEq P]

/-- A booted device with nobody using it. -/
def init (P : Type) (disk : Nat → Block) (start size : Nat) : Sys P :=
  { dev := Dev.boot P disk start size, mode := fun _ => .idle, want := fun _ => none
    drop := fun _ => none, job := fun _ => none, dirty := fun _ => false, last := disk
    pins := fun _ => 0 }

/-- The bookkeeping of a piece that took the device to `d`. -/
def note (s : Sys P) (p : P) (d : Dev P) : (o : BOp) → o.Ret → Sys P
  | .bget _, i => { s with dev := d, want := update s.want p (some i) }
  | .acquire _, _ => { s with dev := d, want := update s.want p none }
  | .unlock i, _ => { s with dev := d, drop := update s.drop p (some i) }
  | .unref _, _ => { s with dev := d, drop := update s.drop p none }
  | .bunpin i, _ => { s with
      dev := d
      pins := update s.pins (s.dev.buf i).blockno (s.pins (s.dev.buf i).blockno - 1) }
  | .logWrite i, _ => { s with
      dev := d
      dirty := update s.dirty i false
      last := update s.last (s.dev.buf i).blockno (s.dev.buf i).data
      pins := if d.log.lh = s.dev.log.lh then s.pins else
        update s.pins (s.dev.buf i).blockno (s.pins (s.dev.buf i).blockno + 1) }
  | _, _ => { s with dev := d }

/-- One piece performed by process `p`. A wait is not a step. -/
def perform (s : Sys P) (p : P) (o : BOp) : Option (Except Panic (o.Ret × Sys P)) :=
  match Dev.handle p o s.dev with
  | .ok (r, d) => some (.ok (r, s.note p d o r))
  | .error (.panic e) => some (.error e)
  | .error .stuck => none

/-- The block is not one of the log's. -/
def home (s : Sys P) (b : Nat) : Bool := b < s.dev.log.start || s.dev.log.start + s.dev.log.size ≤ b

/-- What clients keep to. -/
def allowed (s : Sys P) (p : P) : BOp → Bool
  | .bget _ => s.want p = none ∧ s.drop p = none
  | .acquire i => s.want p = some i
  | .load i => (s.dev.buf i).lock = some p
  | .store i _ => s.mode p = .inOp ∧ (s.dev.buf i).lock = some p ∧ s.home (s.dev.buf i).blockno
  | .logWrite i => s.mode p = .inOp ∧ (s.dev.buf i).lock = some p ∧ s.home (s.dev.buf i).blockno
  | .unlock i => (s.dev.buf i).lock = some p ∧ s.dirty i = false ∧ s.drop p = none
  | .unref i => s.drop p = some i
  | _ => false

/-- A client's piece leaves a changed buffer marked until it is logged. -/
def mark (s : Sys P) : BOp → Sys P
  | .store i _ => { s with dirty := update s.dirty i true }
  | _ => s

/-- Nothing the process holds is waiting to be logged, and it is not in the
    middle of `bread` or `brelse`. -/
def settled (s : Sys P) (p : P) : Bool :=
  s.want p = none ∧ s.drop p = none ∧
    ∀ i, (s.dev.buf i).lock = some p → s.dirty i = false

def setLog (s : Sys P) (l : Log) : Sys P := { s with dev := { s.dev with log := l } }

/-- One step, or `none` where the process is not in a position to take it. -/
def step (s : Sys P) : SAct P → Option (Except Panic (Sys P))
  | .beginOp p =>
    if (s.mode p = .idle ∧ s.settled p) ∨ s.mode p = .awake then
      match s.dev.log.beginOp with
      | none => some (.ok { s with mode := update s.mode p .asleep })
      | some l => some (.ok { s.setLog l with mode := update s.mode p .inOp })
    else none
  | .wake p =>
    if s.mode p = .asleep then some (.ok { s with mode := update s.mode p .awake })
    else none
  | .endOp p =>
    if s.mode p = .inOp ∧ s.settled p then
      match s.dev.log.endOp with
      | .error e => some (.error e)
      | .ok (l, true) => some (.ok { s.setLog l with
          mode := update s.mode p .committing
          job := update s.job p (some Xv6.commit) })
      | .ok (l, false) => some (.ok { s.setLog l with
          mode := Ops.wakeup (update s.mode p .idle) })
    else none
  | .client p o =>
    if (s.mode p = .idle ∨ s.mode p = .inOp) ∧ s.allowed p o then
      match s.perform p o with
      | none => none
      | some (.error e) => some (.error e)
      | some (.ok (_, s')) => some (.ok (s'.mark o))
    else none
  | .commit p => match s.job p with
    | some (.op o k) => match s.perform p o with
      | none => none
      | some (.error e) => some (.error e)
      | some (.ok (r, s')) => some (.ok { s' with job := update s'.job p (some (k r)) })
    | _ => none
  | .finish p => match s.job p with
    | some (.ret _) => some (.ok { s.setLog { s.dev.log with committing := false } with
        mode := Ops.wakeup (update s.mode p .idle)
        job := update s.job p none })
    | _ => none

/-- A list of steps taken one after the other. -/
def steps (s : Sys P) : List (SAct P) → Option (Except Panic (Sys P))
  | [] => some (.ok s)
  | a :: as => match s.step a with
    | none => none
    | some (.error e) => some (.error e)
    | some (.ok s') => s'.steps as

/-- Some process takes a step and the machine does not panic. -/
def Next (s s' : Sys P) : Prop := ∃ a, s.step a = some (.ok s')

/-- The references processes have to buffer `i`: on the way to its lock, holding
    it, or on the way out. -/
def users [Fintype P] (s : Sys P) (i : Fin NBUF) : Nat :=
  (Finset.univ.filter fun p => s.want p = some i).card +
    (Finset.univ.filter fun p => s.drop p = some i).card +
    if (s.dev.buf i).lock = none then 0 else 1

end Sys

end Xv6
