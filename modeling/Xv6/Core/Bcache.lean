import Xv6.Core.Bio
import Xv6.Lib.Dlist

/-!
# The Buffer Cache's Pointers

`kernel/bio.c` once more, with the list of buffers as the source has it: a `prev` and a `next`
in every buffer and in `bcache.head`. `Xv6.Core.Bio` has a list in their place. What a
buffer holds and who has it locked plays no part in the sections under `bcache.lock`, so a
buffer is here its device, its block, its reference count and `valid`.

The numbers are 32 bits wide. A section may be entered at any time for any buffer; that a
buffer is given back once for each time it was handed out is not assumed.

`stamp` and `clock` are bookkeeping: when a buffer was last given back by everybody, or its
turn in `binit` if it never was.
-/

namespace Xv6.Lru

/-- The fields of `struct buf` that the sections use. -/
structure Buf where
  valid : Bool
  dev : UInt32
  blockno : UInt32
  refcnt : UInt32
deriving DecidableEq

/-- A buffer, or `bcache.head`. -/
abbrev Node := Option (Fin NBUF)

/-- `bcache`. -/
structure Cache where
  buf : Fin NBUF → Buf
  links : Dlist.Links Node

namespace Cache

/-- `binit` over zeroed memory. -/
def binit : Cache :=
  { buf := fun _ => { valid := false, dev := 0, blockno := 0, refcnt := 0 }
    links := (List.finRange NBUF).foldl (fun p b => p.push none (some b))
      { next := fun _ => none, prev := fun _ => none } }

def set (c : Cache) (i : Fin NBUF) (b : Buf) : Cache :=
  { c with buf := Function.update c.buf i b }

/-- The test of the first loop of `bget`. -/
def hit (c : Cache) (dev blockno : UInt32) : Node → Bool
  | none => false
  | some i => (c.buf i).dev == dev && (c.buf i).blockno == blockno

/-- The test of the second. -/
def unused (c : Cache) : Node → Bool
  | none => false
  | some i => (c.buf i).refcnt == 0

/-- `bget` up to the release of the lock, with the buffer it found. A loop that does not come to
    an end is `stuck`. -/
def bget (c : Cache) (dev blockno : UInt32) : Except Stop (Fin NBUF × Cache) :=
  match Dlist.scan c.links.next none (c.hit dev blockno) (NBUF + 1) (c.links.next none) with
  | none => .error .stuck
  | some (some (some i)) =>
    .ok (i, c.set i { c.buf i with refcnt := (c.buf i).refcnt + 1 })
  | some _ =>
    match Dlist.scan c.links.prev none c.unused (NBUF + 1) (c.links.prev none) with
    | none => .error .stuck
    | some (some (some i)) => .ok (i, c.set i
        { dev := dev, blockno := blockno, valid := false, refcnt := 1 })
    | some _ => .error (.panic .bgetNoBuffers)

/-- The section of `brelse`. -/
def brelse (c : Cache) (i : Fin NBUF) : Cache :=
  let c := c.set i { c.buf i with refcnt := (c.buf i).refcnt - 1 }
  if (c.buf i).refcnt = 0 then
    { c with links := (c.links.unlink (some i)).push none (some i) }
  else c

def bpin (c : Cache) (i : Fin NBUF) : Cache :=
  c.set i { c.buf i with refcnt := (c.buf i).refcnt + 1 }

def bunpin (c : Cache) (i : Fin NBUF) : Cache :=
  c.set i { c.buf i with refcnt := (c.buf i).refcnt - 1 }

end Cache

/-- The cache, and when each buffer was last given back by everybody. -/
structure Sys where
  cache : Cache
  clock : Nat
  stamp : Fin NBUF → Nat

/-- What may enter the lock. -/
inductive Act
  | bget (dev blockno : UInt32)
  | brelse (i : Fin NBUF)
  | bpin (i : Fin NBUF)
  | bunpin (i : Fin NBUF)

/-- After `binit`, which put the buffers in at the times `0 .. NBUF - 1`. -/
def Sys.init : Sys := { cache := Cache.binit, clock := NBUF, stamp := Fin.val }

/-- `brelse`, with the time noted when nobody has the buffer any more. -/
def Sys.brelse (s : Sys) (i : Fin NBUF) : Sys :=
  if ((s.cache.brelse i).buf i).refcnt = 0 then
    { cache := s.cache.brelse i, clock := s.clock + 1, stamp := Function.update s.stamp i s.clock }
  else { s with cache := s.cache.brelse i }

/-- One section. -/
def step (s : Sys) : Act → Except Stop Sys
  | .bget dev blockno => match s.cache.bget dev blockno with
    | .ok (_, c) => .ok { s with cache := c }
    | .error e => .error e
  | .brelse i => .ok (s.brelse i)
  | .bpin i => .ok { s with cache := s.cache.bpin i }
  | .bunpin i => .ok { s with cache := s.cache.bunpin i }

/-- What any sections one after the other lead to. -/
inductive Reach : Sys → Prop
  | init : Reach Sys.init
  | step {s s' : Sys} (a : Act) : Reach s → step s a = .ok s' → Reach s'

end Xv6.Lru
