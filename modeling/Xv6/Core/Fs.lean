import Xv6.Core.Commit
import Xv6.Core.Tables
import Xv6.Lib.Refine

/-!
# Blocks and Inodes

The lower half of `kernel/fs.c`: the allocator of blocks, inodes on disk and in
memory, and the bytes of a file. Each function is the program of the source over
an interface, `FOp`, whose operations are what the rest of the kernel offers to
it: buffers by the number of the block they hold, the log, and the tables in memory.

`Vol` is the machine these programs run on. It shows each block as a reader of the
buffer cache would see it, next to what the disk has, and treats the cache as
transparent otherwise. A commit makes the writes of `Core.Commit`.

There is one device, so the block functions do not name it.
-/

namespace Xv6

/-- What `fs.c` uses of the rest of the kernel. -/
inductive FOp
  /-- `bread`, answering with the contents. -/
  | bread (b : Nat)
  /-- Changing `data` of a buffer that is held. -/
  | bmod (b : Nat) (f : Block → Block)
  | logWrite (b : Nat)
  | brelse (b : Nat)
  | beginOp
  | endOp
  /-- Reading the table of inodes. -/
  | itable
  | setInode (ip : Fin NINODE) (x : Inode)
  /-- Reading the open files and the processes. -/
  | procs
  | setProcs (x : Procs)
  | stop (e : Stop)

/-- What each operation answers. -/
abbrev FOp.Ret : FOp → Type
  | .bread _ => Block
  | .itable => Fin NINODE → Inode
  | .procs => Procs
  | .stop _ => Empty
  | _ => Unit

abbrev FProg : Type → Type := Prog FOp FOp.Ret

/-- Blocks as the buffer cache shows them and as the disk has them, the blocks whose
    buffers are held, the log, and the tables. `issued` is bookkeeping: the writes
    sent to the disk, oldest first. -/
structure Vol where
  cur : Nat → Block
  disk : Nat → Block
  held : List Nat
  log : Log
  issued : List (Nat × Block)
  itable : Fin NINODE → Inode
  procs : Procs

namespace Vol

/-- The writes of a commit of everything logged. -/
def commitWrites (s : Vol) : List (Nat × Block) :=
  if s.log.lh = [] then []
  else Xv6.commitWrites s.log.start (s.disk s.log.start) s.log.lh (s.log.lh.map s.cur)

/-- After a commit of everything logged. The blocks of the log itself are not read
    by the file system, and `cur` does not follow them. -/
def commit (s : Vol) : Vol :=
  { s with
    disk := replay s.commitWrites s.disk
    log := { s.log with lh := [] }
    issued := s.issued ++ s.commitWrites }

/-- One operation. `stuck` is waiting for something that will not happen: a buffer
    one already holds, or room in the log with nobody to make it. -/
def handle : Handler FOp FOp.Ret Vol Stop
  | .bread b, s => if b ∈ s.held then .error .stuck
    else .ok (s.cur b, { s with held := b :: s.held })
  | .bmod b f, s => .ok ((), { s with cur := Function.update s.cur b (f (s.cur b)) })
  | .logWrite b, s => match s.log.logWrite b with
    | .ok (l, _) => .ok ((), { s with log := l })
    | .error e => .error (.panic e)
  | .brelse b, s =>
    if b ∈ s.held then .ok ((), { s with held := s.held.erase b }) else .error (.panic .brelse)
  | .beginOp, s => match s.log.beginOp with
    | some l => .ok ((), { s with log := l })
    | none => .error .stuck
  | .endOp, s => match s.log.endOp with
    | .ok (l, true) =>
      let s' := Vol.commit { s with log := l }
      .ok ((), { s' with log := { s'.log with committing := false } })
    | .ok (l, false) => .ok ((), { s with log := l })
    | .error e => .error (.panic e)
  | .itable, s => .ok (s.itable, s)
  | .setInode ip x, s => .ok ((), { s with itable := Function.update s.itable ip x })
  | .procs, s => .ok (s.procs, s)
  | .setProcs x, s => .ok ((), { s with procs := x })
  | .stop e, _ => .error e

end Vol

namespace Fs

/-- The program of one operation. -/
def op (o : FOp) : FProg o.Ret := Prog.call o

def bread (b : Nat) : FProg Block := op (.bread b)

def bmod (b : Nat) (f : Block → Block) : FProg Unit := op (.bmod b f)

def logWrite (b : Nat) : FProg Unit := op (.logWrite b)

def brelse (b : Nat) : FProg Unit := op (.brelse b)

/-- What follows every change of a buffer but one: log it and release it. -/
def edit (b : Nat) (f : Block → Block) : FProg Unit := do
  bmod b f
  logWrite b
  brelse b

def inode (ip : Fin NINODE) : FProg Inode := do return (← op .itable) ip

def setInode (ip : Fin NINODE) (x : Inode) : FProg Unit := op (.setInode ip x)

def stop {α : Type} (e : Stop) : FProg α := .op (.stop e) fun r => nomatch r

def panic {α : Type} (p : Panic) : FProg α := stop (.panic p)

section

variable (sb : Superblock)

def bzero (b : Nat) : FProg Unit := do
  let _ ← bread b
  edit b fun _ => Block.zero

/-- The loop of `balloc` over the blocks of the free map, from block `b` on. -/
def ballocFrom : (fuel b : Nat) → FProg Nat
  | 0, _ => panic .ballocOutOfBlocks
  | fuel + 1, b =>
    if b < sb.size then do
      let d ← bread (sb.BBLOCK b)
      match (List.range (min BPB (sb.size - b))).find? fun bi => !d.bit bi with
      | some bi => do
        edit (sb.BBLOCK b) fun d => d.setBit bi
        bzero (b + bi)
        return b + bi
      | none => do
        brelse (sb.BBLOCK b)
        ballocFrom fuel (b + BPB)
    else panic .ballocOutOfBlocks

def balloc : FProg Nat := ballocFrom sb (sb.size / BPB + 1) 0

def bfree (b : Nat) : FProg Unit := do
  let d ← bread (sb.BBLOCK b)
  if d.bit (b % BPB) = false then panic .freeingFreeBlock
  else
    edit (sb.BBLOCK b) fun d => d.clearBit (b % BPB)

/-- An entry in use for the inode. -/
def holds (t : Fin NINODE → Slot) (dev inum : Nat) (ip : Fin NINODE) : Bool :=
  decide (0 < (t ip).ref) && (t ip).dev == dev && (t ip).inum == inum

/-- The scan of `iget`: the entry for an inode, and whether it is one in use. -/
def lookup (t : Fin NINODE → Slot) (dev inum : Nat) : Option (Fin NINODE × Bool) :=
  match (List.finRange NINODE).find? (holds t dev inum) with
  | some ip => some (ip, true)
  | none => ((List.finRange NINODE).find? fun ip => (t ip).ref == 0).map fun ip => (ip, false)

def iget (dev inum : Nat) : FProg (Fin NINODE) := do
  let t ← op .itable
  match lookup (fun ip => (t ip).toSlot) dev inum with
  | some (ip, true) => do
    setInode ip { t ip with ref := (t ip).ref + 1 }
    return ip
  | some (ip, false) => do
    setInode ip { t ip with dev := dev, inum := inum, ref := 1, valid := false }
    return ip
  | none => panic .igetNoInodes

/-- The loop of `ialloc`, from inode `inum` on. -/
def iallocFrom (dev : Nat) (type : UInt16) : (fuel inum : Nat) → FProg (Fin NINODE)
  | 0, _ => panic .iallocNoInodes
  | fuel + 1, inum =>
    if inum < sb.ninodes then do
      let d ← bread (sb.IBLOCK inum)
      if (d.dinode (inum % IPB)).type = 0 then do
        edit (sb.IBLOCK inum) fun d => d.setDinode (inum % IPB) { Dinode.zero with type := type }
        iget dev inum
      else do
        brelse (sb.IBLOCK inum)
        iallocFrom dev type fuel (inum + 1)
    else panic .iallocNoInodes

def ialloc (dev : Nat) (type : UInt16) : FProg (Fin NINODE) :=
  iallocFrom sb dev type sb.ninodes 1

def iupdate (ip : Fin NINODE) : FProg Unit := do
  let x ← inode ip
  let _ ← bread (sb.IBLOCK x.inum)
  edit (sb.IBLOCK x.inum) fun d => d.setDinode (x.inum % IPB) x.din

def idup (ip : Fin NINODE) : FProg Unit := do
  let x ← inode ip
  setInode ip { x with ref := x.ref + 1 }

def ilock (ip : Fin NINODE) : FProg Unit := do
  let x ← inode ip
  if x.ref < 1 then panic .ilock
  else if x.locked then stop .stuck
  else
    setInode ip { x with locked := true }
    if x.valid then pure ()
    else
      let d ← bread (sb.IBLOCK x.inum)
      setInode ip { x with locked := true, valid := true, din := d.dinode (x.inum % IPB) }
      brelse (sb.IBLOCK x.inum)
      if (d.dinode (x.inum % IPB)).type = 0 then panic .ilockNoType else pure ()

def iunlock (ip : Fin NINODE) : FProg Unit := do
  let x ← inode ip
  if x.locked = false ∨ x.ref < 1 then panic .iunlock
  else setInode ip { x with locked := false }

/-- `ip->addrs[s] = a`. -/
def setAddr (ip : Fin NINODE) (s : Fin (NDIRECT + 1)) (a : Nat) : FProg Unit := do
  let x ← inode ip
  setInode ip { x with
    din := { x.din with addrs := Function.update x.din.addrs s (UInt32.ofNat a) } }

/-- The block number in `ip->addrs[s]`, allocated if there is none. -/
def bmapAddr (ip : Fin NINODE) (s : Fin (NDIRECT + 1)) : FProg Nat := do
  let x ← inode ip
  if x.din.addrs s = 0 then
    let a ← balloc sb
    setAddr ip s a
    return a
  else return (x.din.addrs s).toNat

def bmap (ip : Fin NINODE) (bn : Nat) : FProg Nat :=
  if h : bn < NDIRECT then bmapAddr sb ip ⟨bn, Nat.lt_succ_of_lt h⟩
  else if bn - NDIRECT < NINDIRECT then do
    let addr ← bmapAddr sb ip (Fin.last NDIRECT)
    let d ← bread addr
    if d.u32 (4 * (bn - NDIRECT)) = 0 then
      let a ← balloc sb
      edit addr fun d => d.setU32 (4 * (bn - NDIRECT)) (UInt32.ofNat a)
      return a
    else
      brelse addr
      return (d.u32 (4 * (bn - NDIRECT))).toNat
  else panic .bmapOutOfRange

/-- The first loop of `itrunc`. -/
def truncDirect (ip : Fin NINODE) : List (Fin (NDIRECT + 1)) → FProg Unit
  | [] => pure ()
  | s :: ss => do
    let x ← inode ip
    if x.din.addrs s ≠ 0 then
      bfree sb (x.din.addrs s).toNat
      setAddr ip s 0
      truncDirect ip ss
    else truncDirect ip ss

/-- The second loop of `itrunc`, over the entries of the indirect block. -/
def truncEntries (d : Block) : List Nat → FProg Unit
  | [] => pure ()
  | j :: js => do
    if d.u32 (4 * j) ≠ 0 then
      bfree sb (d.u32 (4 * j)).toNat
      truncEntries d js
    else truncEntries d js

/-- The part of `itrunc` for the indirect block. -/
def truncIndirect (ip : Fin NINODE) : FProg Unit := do
  let x ← inode ip
  let a := (x.din.addrs (Fin.last NDIRECT)).toNat
  if a ≠ 0 then
    let d ← bread a
    truncEntries sb d (List.range NINDIRECT)
    brelse a
    bfree sb a
    setAddr ip (Fin.last NDIRECT) 0
  else pure ()

def itrunc (ip : Fin NINODE) : FProg Unit := do
  truncDirect sb ip ((List.finRange NDIRECT).map Fin.castSucc)
  truncIndirect sb ip
  let x ← inode ip
  setInode ip { x with din := { x.din with size := 0 } }
  iupdate sb ip

/-- `ip->ref--`. -/
def dropRef (ip : Fin NINODE) : FProg Unit := do
  let x ← inode ip
  setInode ip { x with ref := x.ref - 1 }

/-- The part of `iput` that frees an inode without links or other references. -/
def ifree (ip : Fin NINODE) : FProg Unit := do
  let x ← inode ip
  if x.locked then stop .stuck
  else
    setInode ip { x with locked := true }
    itrunc sb ip
    let x ← inode ip
    setInode ip { x with din := { x.din with type := 0 } }
    iupdate sb ip
    let x ← inode ip
    setInode ip { x with valid := false, locked := false }

def iput (ip : Fin NINODE) : FProg Unit := do
  let x ← inode ip
  if x.ref = 1 ∧ x.valid = true ∧ x.din.nlink = 0 then
    ifree sb ip
    dropRef ip
  else dropRef ip

/-- The loop of `readi`, with the bytes stored so far. -/
def readiFrom (ip : Fin NINODE) (dst : Dst) (n : Nat) :
    (fuel tot off : Nat) → (out : List UInt8) → FProg (Int × List UInt8)
  | 0, tot, _, out => pure (tot, out)
  | fuel + 1, tot, off, out =>
    if tot < n then do
      let a ← bmap sb ip (off / BSIZE)
      let d ← bread a
      let m := min (n - tot) (BSIZE - off % BSIZE)
      let c := eitherCopyout dst tot (d.slice (off % BSIZE) m)
      brelse a
      if c.2 then readiFrom ip dst n fuel (tot + m) (off + m) (out ++ c.1)
      else return (-1, out ++ c.1)
    else pure (tot, out)

/-- `readi`: its result, and the bytes it stored from `dst` on. -/
def readi (ip : Fin NINODE) (dst : Dst) (off n : Nat) : FProg (Int × List UInt8) := do
  let x ← inode ip
  if x.din.size.toNat < off ∨ (off + n) % 2 ^ 32 < off then return (0, [])
  else
    let n := if x.din.size.toNat < off + n then x.din.size.toNat - off else n
    readiFrom sb ip dst n n 0 off []

/-- The loop of `writei`, ending with `tot` and `off`. Bytes that were copied before
    `either_copyin` failed are in the buffer. -/
def writeiFrom (ip : Fin NINODE) (src : Src) (n : Nat) : (fuel tot off : Nat) → FProg (Nat × Nat)
  | 0, tot, off => pure (tot, off)
  | fuel + 1, tot, off =>
    if tot < n then do
      let a ← bmap sb ip (off / BSIZE)
      let _ ← bread a
      let m := min (n - tot) (BSIZE - off % BSIZE)
      let c := eitherCopyin src tot m
      bmod a fun d => d.blit (off % BSIZE) c.1
      if c.2 then
        logWrite a
        brelse a
        writeiFrom ip src n fuel (tot + m) (off + m)
      else
        brelse a
        return (tot, off)
    else pure (tot, off)

def writei (ip : Fin NINODE) (src : Src) (off n : Nat) : FProg Int := do
  let x ← inode ip
  if x.din.size.toNat < off ∨ (off + n) % 2 ^ 32 < off then return -1
  else if MAXFILE * BSIZE < off + n then return -1
  else
    let r ← writeiFrom sb ip src n n 0 off
    let x ← inode ip
    setInode ip { x with
      din := { x.din with size :=
        if x.din.size.toNat < r.2 then UInt32.ofNat r.2 else x.din.size } }
    iupdate sb ip
    return r.1

end

end Fs

end Xv6
