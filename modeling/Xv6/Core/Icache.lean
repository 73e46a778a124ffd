import Xv6.Core.Ino

/-!
# Processes Sharing the Inode Table

Any number of processes at work on the table of inodes of `kernel/fs.c`, each in its own order,
and one step at a time: a section under `itable.lock`, what a process does to an inode it has
locked up to the next point where it touches the disk, or the reading and writing of one inode
on disk under the lock of its buffer.

A pointer to an entry is in somebody's hands: a local variable, an open file, a working
directory. `K` are these hands, and `ptr k` is what is in `k`. A process that locks an inode
does so by a pointer, and the pointer is not given up while the lock is held by it: local
variables and working directories are the process's own, and an open file is closed only when
nobody is using it. This is all that is asked of the callers.

What a process does with a locked inode is `Hold`, its place in the text: `readi` maps blocks
below the size and nothing else, `writei` maps the blocks it comes to and then the size and
`iupdate` follow, and so does `iupdate` after `itrunc` and after the fields that the system
calls set. The last three places are those of `iput` in the window without `itable.lock`.

`disk` is the inode on disk as `bread` shows it. The inodes of a block do not overlap
(`Block.dinode_setDinode_of_ne`). Blocks of data and their allocation are left out, a block
that `balloc` returns is an argument of the step, and is not `0`.
-/

namespace Xv6.Icache

open Function (update)

/-- What the process that has an inode locked is doing. -/
inductive Hold
  /-- In `ilock`, before it reads the inode. -/
  | load
  /-- In none of the functions below. -/
  | rest
  /-- In the loop of `writei`, at `off`. -/
  | write (off : Nat)
  /-- Fields have changed and `iupdate` is next. -/
  | change
  /-- In `iput`, before `itrunc`. -/
  | putTrunc
  /-- In `iput`, before `ip->type = 0`. -/
  | putFree
  /-- In `iput`, before `ip->valid = 0`. -/
  | putDone

/-- `struct inode`, with the process that has it locked and the pointer it did so by. -/
structure Entry (P K : Type) where
  dev : Nat
  inum : Nat
  ref : Nat
  valid : Bool
  din : Dinode
  lock : Option (P × K × Hold)

structure Sys (P K : Type) where
  ent : Fin NINODE → Entry P K
  disk : Nat → Nat → Dinode
  ptr : K → Option (Fin NINODE)
  /-- `iput` of this pointer is past its window, before `ip->ref--`. -/
  dropping : K → Bool

/-- The place in `addrs` that block `bn` of a file is reached by. -/
def slot (bn : Nat) : Fin (NDIRECT + 1) := ⟨min bn NDIRECT, by omega⟩

/-- `bmap`, as far as the inode goes: `a` is the block `balloc` returns if one is needed. -/
def bmap (d : Dinode) (bn : Nat) (a : UInt32) : Dinode :=
  if d.addrs (slot bn) = 0 then { d with addrs := update d.addrs (slot bn) a } else d

/-- A step of the process that has an inode locked. -/
inductive Work
  | load
  /-- `bmap` in `readi`. -/
  | read (bn : Nat) (a : UInt32)
  | writei (off : Nat)
  /-- Once round the loop of `writei`: `bmap`, and `m` bytes. If they cannot be copied, none. -/
  | write (a : UInt32) (m : Nat)
  | writeEnd
  | itrunc
  /-- The fields that system calls set. -/
  | edit (x : Meta)
  | iupdate
  | iunlock
  /-- `itrunc` in `iput`, with its `iupdate`. -/
  | putTrunc
  /-- `ip->type = 0` and `iupdate`. -/
  | putFree
  /-- `ip->valid = 0` and `releasesleep`. -/
  | putDone

inductive Event (P K : Type)
  | iget (k : K) (dev inum : Nat)
  | idup (k k' : K)
  /-- A pointer changes hands. -/
  | move (k k' : K)
  | ilock (p : P) (k : K)
  | work (p : P) (k : K) (w : Work)
  | iput (p : P) (k : K)
  /-- `ip->ref--` after the window. -/
  | drop (k : K)
  /-- `ialloc` finds a free inode. -/
  | ialloc (dev inum : Nat) (type : UInt16)

/-- What `itrunc` leaves. -/
def truncated (d : Dinode) : Dinode := { d with size := 0, addrs := fun _ => 0 }

namespace Entry

variable {P K : Type}

/-- The part of an entry that `iget` looks at. -/
def slot (e : Entry P K) : Slot :=
  { dev := e.dev, inum := e.inum, ref := e.ref, locked := e.lock.isSome, valid := e.valid }

end Entry

namespace Sys

variable {P K : Type} [DecidableEq P] [DecidableEq K]

def set (s : Sys P K) (ip : Fin NINODE) (e : Entry P K) : Sys P K :=
  { s with ent := update s.ent ip e }

/-- The inode on disk that entry `ip` is a copy of. -/
def dinode (s : Sys P K) (ip : Fin NINODE) : Dinode := s.disk (s.ent ip).dev (s.ent ip).inum

/-- `log_write` of the inode on disk. -/
def store (s : Sys P K) (dev inum : Nat) (d : Dinode) : Sys P K :=
  { s with disk := update s.disk dev (update (s.disk dev) inum d) }

/-- The lock, by the same process and pointer, at another place. -/
def hold (s : Sys P K) (ip : Fin NINODE) (p : P) (k : K) (h : Hold) (d : Dinode) : Sys P K :=
  s.set ip { s.ent ip with din := d, lock := some (p, k, h) }

/-- Pointer `k` is not one that a lock is held by, nor one that `iput` is dropping. -/
def free (s : Sys P K) (k : K) : Bool :=
  match s.ptr k with
  | none => false
  | some ip => !s.dropping k && ((s.ent ip).lock.all fun l => l.2.1 ≠ k)

/-- The section of `iget`. -/
def iget (s : Sys P K) (k : K) (dev inum : Nat) : Option (Sys P K) :=
  match Fs.lookup (fun ip => (s.ent ip).slot) dev inum with
  | some (ip, true) =>
    some { s.set ip { s.ent ip with ref := (s.ent ip).ref + 1 } with
      ptr := update s.ptr k (some ip) }
  | some (ip, false) =>
    some { s.set ip { s.ent ip with dev := dev, inum := inum, ref := 1, valid := false } with
      ptr := update s.ptr k (some ip) }
  | none => none

/-- `ip->ref--`, and the pointer is gone. -/
def unref (s : Sys P K) (ip : Fin NINODE) (k : K) : Sys P K :=
  { s.set ip { s.ent ip with ref := (s.ent ip).ref - 1 } with
    ptr := update s.ptr k none
    dropping := update s.dropping k false }

/-- What a process that has `ip` locked by `k` does next. Where the code panics there is no
    step. -/
def work (s : Sys P K) (ip : Fin NINODE) (p : P) (k : K) (h : Hold) (w : Work) :
    Option (Sys P K) :=
  let e := s.ent ip
  match h, w with
  | .load, .load =>
    if (s.dinode ip).type = 0 then none
    else some (s.set ip { e with valid := true, din := s.dinode ip, lock := some (p, k, .rest) })
  | .rest, .read bn a =>
    if bn * BSIZE < e.din.size.toNat ∧ a ≠ 0 then some (s.hold ip p k .rest (bmap e.din bn a))
    else none
  | .rest, .writei off =>
    if off ≤ e.din.size.toNat then some (s.hold ip p k (.write off) e.din) else none
  | .write off, .write a m =>
    if off < MAXFILE * BSIZE ∧ m ≤ BSIZE - off % BSIZE ∧ a ≠ 0 then
      some (s.hold ip p k (.write (off + m)) (bmap e.din (off / BSIZE) a))
    else none
  | .write off, .writeEnd =>
    some (s.hold ip p k .change
      { e.din with size := if e.din.size.toNat < off then UInt32.ofNat off else e.din.size })
  | .rest, .itrunc => some (s.hold ip p k .change (truncated e.din))
  | .rest, .edit x => some (s.hold ip p k .change (e.din.setMeta x))
  | .change, .iupdate => some ((s.store e.dev e.inum e.din).hold ip p k .rest e.din)
  | .rest, .iunlock => some (s.set ip { e with lock := none })
  | .putTrunc, .putTrunc =>
    some ((s.store e.dev e.inum (truncated e.din)).hold ip p k .putFree (truncated e.din))
  | .putFree, .putFree =>
    some ((s.store e.dev e.inum { e.din with type := 0 }).hold ip p k .putDone
      { e.din with type := 0 })
  | .putDone, .putDone =>
    some { s.set ip { e with valid := false, lock := none } with
      dropping := update s.dropping k true }
  | _, _ => none

end Sys

section Machine

variable {P K : Type} [DecidableEq P] [DecidableEq K]

def step (s : Sys P K) : Event P K → Option (Sys P K)
  | .iget k dev inum => if s.ptr k = none then s.iget k dev inum else none
  | .idup k k' =>
    match s.ptr k with
    | none => none
    | some ip =>
      if s.ptr k' = none ∧ s.dropping k = false then
        some { s.set ip { s.ent ip with ref := (s.ent ip).ref + 1 } with
          ptr := update s.ptr k' (some ip) }
      else none
  | .move k k' =>
    if s.free k ∧ s.ptr k' = none ∧ k ≠ k' then
      some { s with ptr := update (update s.ptr k none) k' (s.ptr k) }
    else none
  | .ilock p k =>
    match s.ptr k with
    | none => none
    | some ip =>
      if s.dropping k = false ∧ (s.ent ip).lock.isNone then
        some (s.hold ip p k (if (s.ent ip).valid then .rest else .load) (s.ent ip).din)
      else none
  | .work p k w =>
    match s.ptr k with
    | none => none
    | some ip =>
      match (s.ent ip).lock with
      | some (p', k', h) => if p' = p ∧ k' = k then s.work ip p k h w else none
      | none => none
  | .iput p k =>
    match s.ptr k with
    | none => none
    | some ip =>
      if s.free k then
        if (s.ent ip).ref = 1 ∧ (s.ent ip).valid ∧ (s.ent ip).din.nlink = 0 then
          if (s.ent ip).lock.isNone then
            some (s.hold ip p k .putTrunc (s.ent ip).din)
          else none
        else some (s.unref ip k)
      else none
  | .drop k =>
    match s.ptr k with
    | none => none
    | some ip => if s.dropping k then some (s.unref ip k) else none
  | .ialloc dev inum type =>
    if (s.disk dev inum).type = 0 ∧ type ≠ 0 then
      some (s.store dev inum { Dinode.zero with type := type })
    else none

def steps (s : Sys P K) : List (Event P K) → Option (Sys P K)
  | [] => some s
  | e :: es => (step s e).bind fun s => steps s es

/-- The table as `iinit` leaves it, over a disk. -/
def boot (disk : Nat → Nat → Dinode) : Sys P K :=
  { ent := fun _ => { dev := 0, inum := 0, ref := 0, valid := false, din := Dinode.zero,
                      lock := none }
    disk := disk
    ptr := fun _ => none
    dropping := fun _ => false }

def Next (s s' : Sys P K) : Prop := ∃ e, step s e = some s'

end Machine

end Xv6.Icache
