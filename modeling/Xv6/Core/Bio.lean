import Xv6.Core.Block
import Xv6.Core.Log
import Xv6.Lib.Prog

/-!
# The Buffer Cache

`kernel/bio.c`: thirty buffers on a list ordered by last use, each with a
reference count and a sleeplock. The linked list is a list of buffer indices,
most recent first, and a buffer's lock is the process holding it, if any.

What runs under `bcache.lock`, under a sleeplock's own spinlock, or under
`log.lock` is atomic, so those pieces are the operations of an interface, `BOp`,
and a function of the source that is made of several pieces is a program over
it. `bread` is two of them, finding the buffer and then waiting for its lock:
another process may run in between, and the reference taken by the first is what
keeps the buffer in place until the second. `brelse` is two for the same reason.
Reading an invalid buffer from the disk belongs to the piece that takes the
lock, because only the holder touches the contents.

`Dev` is the machine the pieces act on: the disk, the cache and the log record,
with the writes issued to the disk so far kept in order.
-/

namespace Xv6

/-- `struct buf`. The list pointers are in `Bcache.lru`, and `disk` is private to
    the driver. `lock` is the process holding the sleeplock. -/
structure Buf (P : Type) where
  valid : Bool
  dev : Nat
  blockno : Nat
  lock : Option P
  refcnt : Nat
  data : Block

/-- `bcache`, with the list from `head.next` to `head.prev`. -/
structure Bcache (P : Type) where
  buf : Fin NBUF → Buf P
  lru : List (Fin NBUF)

namespace Bcache

variable {P : Type}

/-- `binit` over zeroed memory. Each buffer is pushed at the front in turn. -/
def binit (P : Type) : Bcache P :=
  { buf := fun _ =>
      { valid := false, dev := 0, blockno := 0, lock := none, refcnt := 0, data := Block.zero }
    lru := (List.finRange NBUF).reverse }

def set (c : Bcache P) (i : Fin NBUF) (b : Buf P) : Bcache P :=
  { c with buf := Function.update c.buf i b }

/-- `bget` up to the release of `bcache.lock`: the scan for the block from the
    most recent end, then for an unused buffer from the other. -/
def bget (c : Bcache P) (dev blockno : Nat) : Except Panic (Fin NBUF × Bcache P) :=
  match c.lru.find? fun i => (c.buf i).dev == dev && (c.buf i).blockno == blockno with
  | some i => .ok (i, c.set i { c.buf i with refcnt := (c.buf i).refcnt + 1 })
  | none =>
    match c.lru.reverse.find? fun i => (c.buf i).refcnt == 0 with
    | some i => .ok (i, c.set i
        { c.buf i with dev := dev, blockno := blockno, valid := false, refcnt := 1 })
    | none => .error .bgetNoBuffers

/-- The part of `brelse` under `bcache.lock`: drop a reference, and move a
    buffer nobody refers to any more to the front. -/
def unref (c : Bcache P) (i : Fin NBUF) : Bcache P :=
  let n := (c.buf i).refcnt - 1
  { buf := Function.update c.buf i { c.buf i with refcnt := n }
    lru := if n = 0 then i :: c.lru.erase i else c.lru }

def bpin (c : Bcache P) (i : Fin NBUF) : Bcache P :=
  c.set i { c.buf i with refcnt := (c.buf i).refcnt + 1 }

def bunpin (c : Bcache P) (i : Fin NBUF) : Bcache P :=
  c.set i { c.buf i with refcnt := (c.buf i).refcnt - 1 }

end Bcache

/-- One device with its cache and its log. `issued` is bookkeeping: the writes
    sent to the disk, oldest first. -/
structure Dev (P : Type) where
  disk : Nat → Block
  cache : Bcache P
  log : Log
  issued : List (Nat × Block)

/-- Why a program stops: a panic, or waiting for what nobody will provide. -/
inductive Stop
  | panic (p : Panic)
  | stuck
  deriving DecidableEq, Repr

/-- The atomic pieces of `bio.c` and `log.c`. -/
inductive BOp
  /-- `bget` under `bcache.lock`. -/
  | bget (blockno : Nat)
  /-- `acquiresleep`, and the read `bread` makes of an invalid buffer. -/
  | acquire (i : Fin NBUF)
  /-- Reading `data` of a buffer. -/
  | load (i : Fin NBUF)
  /-- Changing `data` of a buffer. -/
  | store (i : Fin NBUF) (f : Block → Block)
  | bwrite (i : Fin NBUF)
  /-- The test and `releasesleep` of `brelse`. -/
  | unlock (i : Fin NBUF)
  /-- The rest of `brelse`. -/
  | unref (i : Fin NBUF)
  | bunpin (i : Fin NBUF)
  /-- Reading the log record. -/
  | getLog
  /-- `log.lh` replaced, its count with it. -/
  | setLh (lh : List Nat)
  | beginOp
  /-- `end_op` up to the first release, answering `do_commit`. -/
  | endOp
  /-- `end_op` after `commit`. -/
  | finish
  | logWrite (i : Fin NBUF)

/-- What each piece answers. -/
abbrev BOp.Ret : BOp → Type
  | .bget _ => Fin NBUF
  | .load _ => Block
  | .getLog => Log
  | .endOp => Bool
  | _ => Unit

abbrev BProg : Type → Type := Prog BOp BOp.Ret

/-- The program of one piece. -/
def piece (o : BOp) : BProg o.Ret := Prog.call o

namespace Dev

variable {P : Type} [DecidableEq P]

/-- The disk as a machine that has just booted sees it. -/
def boot (P : Type) (disk : Nat → Block) (start size : Nat) : Dev P :=
  { disk := disk, cache := Bcache.binit P, log := Log.init start size, issued := [] }

def buf (d : Dev P) (i : Fin NBUF) : Buf P := d.cache.buf i

def setBuf (d : Dev P) (i : Fin NBUF) (b : Buf P) : Dev P := { d with cache := d.cache.set i b }

omit [DecidableEq P] in
theorem buf_setBuf_same (d : Dev P) (i : Fin NBUF) (x : Buf P) : (d.setBuf i x).buf i = x := by
  simp only [setBuf, buf, Bcache.set, Function.update_self]

omit [DecidableEq P] in
theorem buf_setBuf_of_ne (d : Dev P) (x : Buf P) {i j : Fin NBUF} (h : j ≠ i) :
    (d.setBuf i x).buf j = d.buf j := by
  simp only [setBuf, buf, Bcache.set, Function.update_of_ne h]

/-- One piece, performed by process `p`. `stuck` is a wait: with other
    processes around it only means not yet. -/
def handle (p : P) : Handler BOp BOp.Ret (Dev P) Stop
  | .bget b, d => match d.cache.bget ROOTDEV b with
    | .ok (i, c) => .ok (i, { d with cache := c })
    | .error e => .error (.panic e)
  | .acquire i, d =>
    if (d.buf i).lock = none then
      .ok ((), d.setBuf i { d.buf i with
        lock := some p
        valid := true
        data := if (d.buf i).valid then (d.buf i).data else d.disk (d.buf i).blockno })
    else .error .stuck
  | .load i, d => .ok ((d.buf i).data, d)
  | .store i f, d => .ok ((), d.setBuf i { d.buf i with data := f (d.buf i).data })
  | .bwrite i, d =>
    if (d.buf i).lock = some p then
      .ok ((), { d with
        disk := Function.update d.disk (d.buf i).blockno (d.buf i).data
        issued := d.issued ++ [((d.buf i).blockno, (d.buf i).data)] })
    else .error (.panic .bwrite)
  | .unlock i, d =>
    if (d.buf i).lock = some p then .ok ((), d.setBuf i { d.buf i with lock := none })
    else .error (.panic .brelse)
  | .unref i, d => .ok ((), { d with cache := d.cache.unref i })
  | .bunpin i, d => .ok ((), { d with cache := d.cache.bunpin i })
  | .getLog, d => .ok (d.log, d)
  | .setLh lh, d => .ok ((), { d with log := { d.log with lh := lh } })
  | .beginOp, d => match d.log.beginOp with
    | some l => .ok ((), { d with log := l })
    | none => .error .stuck
  | .endOp, d => match d.log.endOp with
    | .ok (l, c) => .ok (c, { d with log := l })
    | .error e => .error (.panic e)
  | .finish, d => .ok ((), { d with log := { d.log with committing := false } })
  | .logWrite i, d => match d.log.logWrite (d.buf i).blockno with
    | .ok (l, true) => .ok ((), { d with log := l, cache := d.cache.bpin i })
    | .ok (l, false) => .ok ((), { d with log := l })
    | .error e => .error (.panic e)

end Dev

/-- `bread`: a locked buffer holding the block. -/
def bread (b : Nat) : BProg (Fin NBUF) := do
  let i ← piece (.bget b)
  piece (.acquire i)
  return i

def bwrite (i : Fin NBUF) : BProg Unit := piece (.bwrite i)

def brelse (i : Fin NBUF) : BProg Unit := do
  piece (.unlock i)
  piece (.unref i)

/-- `memmove(to->data, from->data, BSIZE)`. -/
def memmove (dst src : Fin NBUF) : BProg Unit := do
  let d ← piece (.load src)
  piece (.store dst fun _ => d)

end Xv6
