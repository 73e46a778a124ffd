import Xv6.Core.Param
import Mathlib.Data.Finset.Union
import Mathlib.Data.Fintype.Card

/-!
# The Log's Critical Sections

`struct log` of `kernel/log.c` and the sections of `begin_op`, `end_op` and
`log_write` that run under `log.lock`, each as a function on the record. A
section that panics answers with the panic, and `begin_op`'s loop body answers
with nothing when the process has to sleep.

The header `lh` is kept as the list of its first `n` entries. Entries past `n`
are stale and nothing reads them, so the list loses nothing: `lh.n = 0` is the
empty list, and recording a new block appends.

`Ops` puts any number of processes around these sections. A process is idle,
inside an operation, asleep in `begin_op`, or the one that found itself last
out and is running `commit`. `commit` itself takes no lock, so it is two
steps here: `commit` is the moment `lh.n` becomes zero and `finish` the
critical section after it, with anything the other processes do in between.
What `commit` writes to the disk is the subject of `Core.Commit`.
-/

namespace Xv6

open Function (update)

/-- `struct log`. The lock, the device and the header entries past `n` play no
    part in the sections below. -/
structure Log where
  start : Nat
  size : Nat
  outstanding : Int
  committing : Bool
  lh : List Nat
  deriving DecidableEq, Repr

namespace Log

/-- The record as `initlog` leaves it once the log has been recovered. -/
def init (start size : Nat) : Log :=
  { start := start, size := size, outstanding := 0, committing := false, lh := [] }

/-- One pass of `begin_op`'s loop: `none` is going to sleep. -/
def beginOp (l : Log) : Option Log :=
  if l.committing then none
  else if l.lh.length + (l.outstanding + 1) * MAXOPBLOCKS > LOGSIZE then none
  else some { l with outstanding := l.outstanding + 1 }

/-- `end_op` up to the first release, with `do_commit`. -/
def endOp (l : Log) : Except Panic (Log × Bool) :=
  if l.committing then .error .logCommitting
  else if l.outstanding - 1 = 0 then
    .ok ({ l with outstanding := l.outstanding - 1, committing := true }, true)
  else .ok ({ l with outstanding := l.outstanding - 1 }, false)

/-- `log_write`, with whether a new entry was added and the buffer pinned. An
    absorbed write stores the block number over itself. -/
def logWrite (l : Log) (b : Nat) : Except Panic (Log × Bool) :=
  if LOGSIZE ≤ l.lh.length ∨ (l.size : Int) - 1 ≤ l.lh.length then .error .tooBigTransaction
  else if l.outstanding < 1 then .error .logWriteOutsideTrans
  else if b ∈ l.lh then .ok (l, false)
  else .ok ({ l with lh := l.lh ++ [b] }, true)

end Log

/-- Where a process is with respect to the log. -/
inductive Mode
  | idle
  | asleep
  | awake
  | inOp
  | committing
  | committed
  deriving DecidableEq, Repr

/-- The log and the processes using it. `writes` and `txn` are bookkeeping: the
    blocks each running operation has passed to `log_write`, and those of the
    operations that have ended since the last commit. -/
structure Ops (P : Type) where
  log : Log
  mode : P → Mode
  writes : P → List Nat
  txn : List (List Nat)

/-- The atomic steps. `wake` is a wakeup from outside the log, such as `kill`. -/
inductive Act (P : Type)
  | beginOp (p : P)
  | wake (p : P)
  | logWrite (p : P) (b : Nat)
  | endOp (p : P)
  | commit (p : P)
  | finish (p : P)
  deriving DecidableEq, Repr

namespace Ops

variable {P : Type} [DecidableEq P]

/-- Everyone idle, over the log `initlog` leaves. -/
def init (P : Type) (size : Nat) : Ops P :=
  { log := Log.init 2 size, mode := fun _ => .idle, writes := fun _ => [], txn := [] }

/-- `wakeup(&log)`: every process asleep in `begin_op` becomes runnable. -/
def wakeup (m : P → Mode) : P → Mode := fun q => if m q = .asleep then .awake else m q

/-- One step, or `none` where the process is not in a position to take it. A
    process that called `begin_op` and slept tests again once it is awake. -/
def step (s : Ops P) : Act P → Option (Except Panic (Ops P))
  | .beginOp p =>
    if s.mode p = .idle ∨ s.mode p = .awake then
      match s.log.beginOp with
      | none => some (.ok { s with mode := update s.mode p .asleep })
      | some l => some (.ok { s with
          log := l
          mode := update s.mode p .inOp
          writes := update s.writes p [] })
    else none
  | .wake p =>
    if s.mode p = .asleep then
      some (.ok { s with mode := update s.mode p .awake })
    else none
  | .logWrite p b =>
    if s.mode p = .inOp then
      match s.log.logWrite b with
      | .error e => some (.error e)
      | .ok (l, _) => some (.ok { s with
          log := l
          writes := update s.writes p (s.writes p ++ [b]) })
    else none
  | .endOp p =>
    if s.mode p = .inOp then
      match s.log.endOp with
      | .error e => some (.error e)
      | .ok (l, true) => some (.ok { s with
          log := l
          mode := update s.mode p .committing
          txn := s.txn ++ [s.writes p] })
      | .ok (l, false) => some (.ok { s with
          log := l
          mode := wakeup (update s.mode p .idle)
          txn := s.txn ++ [s.writes p] })
    else none
  | .commit p =>
    if s.mode p = .committing then
      some (.ok { s with
        log := { s.log with lh := [] }
        mode := update s.mode p .committed
        txn := [] })
    else none
  | .finish p =>
    if s.mode p = .committed then
      some (.ok { s with
        log := { s.log with committing := false }
        mode := wakeup (update s.mode p .idle) })
    else none

/-- Some process takes a step and the machine does not panic. -/
def Next (s s' : Ops P) : Prop := ∃ a, s.step a = some (.ok s')

/-- A list of steps taken one after the other. -/
def steps (s : Ops P) : List (Act P) → Option (Except Panic (Ops P))
  | [] => some (.ok s)
  | a :: as => match s.step a with
    | none => none
    | some (.error e) => some (.error e)
    | some (.ok s') => s'.steps as

/-- A step leaves its operation within `n` distinct blocks. -/
def fits (n : Nat) (s : Ops P) : Act P → Bool
  | .logWrite p b => (s.writes p ++ [b]).toFinset.card ≤ n
  | _ => true

/-- A list of steps in which every operation stays within `n` distinct blocks,
    the write that panics included. -/
def fitRun (n : Nat) (s : Ops P) : List (Act P) → Bool
  | [] => true
  | a :: as => s.fits n a && match s.step a with
    | some (.ok s') => s'.fitRun n as
    | _ => true

/-- The blocks the operations of the transaction being gathered have passed to
    `log_write`, each counted once. -/
def passed [Fintype P] (s : Ops P) : Finset Nat :=
  s.txn.flatten.toFinset ∪
    Finset.univ.biUnion fun p => if s.mode p = .inOp then (s.writes p).toFinset else ∅

end Ops

end Xv6
