import Xv6.Core.Bio
import Xv6.Lib.Writes

/-!
# Committing and Recovering

The unlocked part of `kernel/log.c`: copying the logged blocks out of the cache,
writing the header, installing, and the same from the disk's side at boot. Each
is the program text of the source over the pieces of `Core.Bio`.

The loops run over `log.lh.block[0..n)`. Nothing changes the header while one is
running, so they take it as a list, with the position of its first entry.

`commitWrites` lists the writes of a commit in order. The program `commit` is shown
to issue exactly these, and a machine that does not model the cache can take them
as what a commit does.

`transaction` is what a client does with the log: for each block, read it,
change it, log it and release it, between `begin_op` and `end_op`.

`CrashStep` is a machine that runs transactions and loses power. One block write
is atomic and writes reach the disk in the order they are issued, so a crash
leaves some prefix of the writes of whatever was running. Recovery is no
exception. Next to the machine stands what its home blocks should hold: a
transaction counts from the moment its header is on the disk.
-/

namespace Xv6

def getLog : BProg Log := piece .getLog

def setLh (lh : List Nat) : BProg Unit := piece (.setLh lh)

/-- The loop of `write_log` from entry `tail` on. -/
def writeLogFrom (start : Nat) : Nat → List Nat → BProg Unit
  | _, [] => pure ()
  | tail, b :: bs => do
    let dst ← bread (start + tail + 1)
    let src ← bread b
    memmove dst src
    bwrite dst
    brelse src
    brelse dst
    writeLogFrom start (tail + 1) bs

def writeLog : BProg Unit := do
  let l ← getLog
  writeLogFrom l.start 0 l.lh

/-- The loop of `install_trans` from entry `tail` on. -/
def installFrom (recovering : Bool) (start : Nat) : Nat → List Nat → BProg Unit
  | _, [] => pure ()
  | tail, b :: bs => do
    let lbuf ← bread (start + tail + 1)
    let dbuf ← bread b
    memmove dbuf lbuf
    bwrite dbuf
    if recovering then pure () else piece (.bunpin dbuf)
    brelse lbuf
    brelse dbuf
    installFrom recovering start (tail + 1) bs

def installTrans (recovering : Bool) : BProg Unit := do
  let l ← getLog
  installFrom recovering l.start 0 l.lh

def readHead : BProg Unit := do
  let l ← getLog
  let i ← bread l.start
  let d ← piece (.load i)
  setLh d.head
  brelse i

def writeHead : BProg Unit := do
  let l ← getLog
  let i ← bread l.start
  piece (.store i fun d => d.setHead l.lh)
  bwrite i
  brelse i

def commit : BProg Unit := do
  let l ← getLog
  if l.lh.length > 0 then
    writeLog
    writeHead
    installTrans false
    setLh []
    writeHead
  else pure ()

def recoverFromLog : BProg Unit := do
  readHead
  installTrans true
  setLh []
  writeHead

def endOp : BProg Unit := do
  if ← piece .endOp then
    commit
    piece .finish
  else pure ()

/-- The copies a commit leaves in the log, from address `a` on. -/
def logWrites (a : Nat) : List Block → List (Nat × Block)
  | [] => []
  | x :: xs => (a, x) :: logWrites (a + 1) xs

/-- Every write of a commit, in order, over a header block holding `h`: the
    copies, the header, the homes, the header erased. -/
def commitWrites (start : Nat) (h : Block) (lh : List Nat) (xs : List Block) :
    List (Nat × Block) :=
  logWrites (start + 1) xs ++
    ((start, h.setHead lh) :: (lh.zip xs ++ [(start, (h.setHead lh).setHead [])]))

/-- Read each block, replace its contents, log it and let it go. -/
def updates : List (Nat × Block) → BProg Unit
  | [] => pure ()
  | (b, x) :: ws => do
    let i ← bread b
    piece (.store i fun _ => x)
    piece (.logWrite i)
    brelse i
    updates ws

def transaction (ws : List (Nat × Block)) : BProg Unit := do
  piece .beginOp
  updates ws
  endOp

/-- The blocks of an operation are outside the log and have numbers the header
    can hold. -/
def Outside (start size : Nat) (ws : List (Nat × Block)) : Prop :=
  ∀ w ∈ ws, (w.1 < start ∨ start + size ≤ w.1) ∧ w.1 < 2 ^ 32

/-- A machine with power, or only its disk. -/
inductive Phase
  | up (d : Dev Unit)
  | down (disk : Nat → Block)

/-- One step of a machine and of the contents its home blocks should have. A
    crash keeps the first `k` of the writes being made. One that falls before any
    write, as when a transaction finds the log full, is `powerOff`. -/
inductive CrashStep (start size : Nat) : Phase × (Nat → Block) → Phase × (Nat → Block) → Prop
  | txn {d d' : Dev Unit} {home : Nat → Block} (ws : List (Nat × Block))
      (hws : Outside start size ws) (hrun : (transaction ws).run (Dev.handle ()) d = .ok ((), d')) :
      CrashStep start size (.up d, home) (.up d', replay ws home)
  | crash {d d' : Dev Unit} {home : Nat → Block} (ws : List (Nat × Block)) (k : Nat)
      (hws : Outside start size ws) (hrun : (transaction ws).run (Dev.handle ()) d = .ok ((), d')) :
      CrashStep start size (.up d, home)
        (.down (replay ((d'.issued.drop d.issued.length).take k) d.disk),
          if start ∈ ((d'.issued.drop d.issued.length).take k).map Prod.fst then replay ws home
          else home)
  | powerOff {d : Dev Unit} {home : Nat → Block} :
      CrashStep start size (.up d, home) (.down d.disk, home)
  | recover {disk home : Nat → Block} {d' : Dev Unit}
      (hrun : recoverFromLog.run (Dev.handle ()) (Dev.boot Unit disk start size) = .ok ((), d')) :
      CrashStep start size (.down disk, home) (.up d', home)
  | crashRecovering {disk home : Nat → Block} {d' : Dev Unit} (k : Nat)
      (hrun : recoverFromLog.run (Dev.handle ()) (Dev.boot Unit disk start size) = .ok ((), d')) :
      CrashStep start size (.down disk, home) (.down (replay (d'.issued.take k) disk), home)

end Xv6
