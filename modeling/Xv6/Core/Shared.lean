import Xv6.Core.Format

/-!
# A File Written Through One Descriptor

Processes that share a `struct file`, as after `fork` or `dup`, and write to it, while processes
with files of their own read the same inode: `filewrite` and `fileread` of `kernel/file.c` for
`FD_INODE`, with `writei` and `readi` of `kernel/fs.c`.

The lock of the inode is held from `ilock` to `iunlock`, and nothing that other processes do in
between touches the inode or the offset, so `writei` and `readi` are one step each. Everything
around them is a step of its own: `begin_op`, taking the lock, moving the offset, giving the lock
back, `end_op`. A process that waits, for the lock or in `begin_op`, is one that is not chosen.

The blocks of the file are shown by their number in the file. A block `bmap` has not been asked
for yet is whatever `bmap` will give it; there are blocks left, so `bmap` stops only when the
number is out of range. Buffers of processes are mapped, so copying does not fail.
-/

namespace Xv6.Shared

/-- `struct inode`, as far as its contents go. -/
structure Inode where
  size : Nat
  block : Nat → Block

/-- The block `bn` of a file; `none` is `panic("bmap: out of range")`. -/
def bmap (ip : Inode) (bn : Nat) : Option Block := if bn < MAXFILE then some (ip.block bn) else none

/-- The loop of `writei`, ending with `tot` and `off`. -/
def writeiFrom (src : List UInt8) (n : Nat) :
    (fuel tot off : Nat) → Inode → Option (Nat × Nat × Inode)
  | 0, tot, off, ip => some (tot, off, ip)
  | fuel + 1, tot, off, ip =>
    if tot < n then
      match bmap ip (off / BSIZE) with
      | none => none
      | some d =>
        let m := min (n - tot) (BSIZE - off % BSIZE)
        let d := d.blit (off % BSIZE) ((src.drop tot).take m)
        writeiFrom src n fuel (tot + m) (off + m)
          { ip with block := Function.update ip.block (off / BSIZE) d }
    else some (tot, off, ip)

/-- `writei`. `none` is a panic. -/
def writei (ip : Inode) (src : List UInt8) (off n : Nat) : Option (Int × Inode) :=
  if ip.size < off ∨ (off + n) % 2 ^ 32 < off then some (-1, ip)
  else if MAXFILE * BSIZE < off + n then some (-1, ip)
  else match writeiFrom src n n 0 off ip with
    | none => none
    | some (tot, off, ip) => some (tot, { ip with size := if ip.size < off then off else ip.size })

/-- The loop of `readi`, with the bytes stored so far. -/
def readiFrom (ip : Inode) (n : Nat) :
    (fuel tot off : Nat) → List UInt8 → Option (Nat × List UInt8)
  | 0, tot, _, out => some (tot, out)
  | fuel + 1, tot, off, out =>
    if tot < n then
      match bmap ip (off / BSIZE) with
      | none => none
      | some d =>
        let m := min (n - tot) (BSIZE - off % BSIZE)
        readiFrom ip n fuel (tot + m) (off + m) (out ++ d.slice (off % BSIZE) m)
    else some (tot, out)

/-- `readi`: its result, and the bytes it stored. -/
def readi (ip : Inode) (off n : Nat) : Option (Nat × List UInt8) :=
  if ip.size < off ∨ (off + n) % 2 ^ 32 < off then some (0, [])
  else
    let n := if ip.size < off + n then ip.size - off else n
    readiFrom ip n n 0 off []

/-- `max` of `filewrite`. -/
abbrev MAX : Nat := (MAXOPBLOCKS - 1 - 1 - 2) / 2 * BSIZE

/-- `n1` of `filewrite`, for a buffer of which `i` bytes are written. -/
def n1 (buf : List UInt8) (i : Nat) : Nat := if MAX < buf.length - i then MAX else buf.length - i

/-- Where a process is. `buf` is the buffer of a call of `filewrite`, and `r` what `writei` or
    `readi` returned. -/
inductive Pc
  | user
  /-- At `while(i < n)`. -/
  | loop (buf : List UInt8) (i : Nat)
  /-- After `begin_op`. -/
  | begun (buf : List UInt8) (i : Nat)
  /-- After `ilock`. -/
  | locked (buf : List UInt8) (i : Nat)
  /-- After `writei`. -/
  | wrote (buf : List UInt8) (i : Nat) (r : Int)
  /-- After `f->off += r`. -/
  | moved (buf : List UInt8) (i : Nat) (r : Int)
  /-- After `iunlock`. -/
  | released (buf : List UInt8) (i : Nat) (r : Int)
  /-- In `fileread`, before `ilock`, after it, after `readi`, and after `f->off += r`. -/
  | fetch (n : Nat)
  | fetching (n : Nat)
  | fetched (out : List UInt8) (r : Nat)
  | advanced (out : List UInt8) (r : Nat)

/-- The inode, its lock, the offset of the shared file, and the offset of each file that is
    read through. The rest is bookkeeping: what each process was told to write, what went
    into the file and by whom, oldest first, and what the calls of `filewrite` were asked for and
    returned. -/
structure Sys (P : Type) where
  ip : Inode
  lock : Option P
  off : Nat
  pos : P → Nat
  pc : P → Pc
  asked : P → List UInt8
  chunks : List (P × List UInt8)
  rets : List (Nat × Int)

inductive Act (P : Type)
  | write (p : P) (buf : List UInt8)
  | read (p : P) (n : Nat)
  | run (p : P)

/-- Why there is no step. -/
inductive Stop
  | wait
  | panic

section

variable {P : Type} [DecidableEq P]

def Sys.goto (s : Sys P) (p : P) (c : Pc) : Sys P := { s with pc := Function.update s.pc p c }

/-- `ilock`, by the process `p`. -/
def Sys.ilock (s : Sys P) (p : P) (c : Pc) : Except Stop (Sys P) :=
  match s.lock with
  | some _ => .error .wait
  | none => .ok { s.goto p c with lock := some p }

/-- The end of `filewrite`. -/
def Sys.finish (s : Sys P) (p : P) (buf : List UInt8) (i : Nat) : Sys P :=
  { s.goto p .user with
    rets := s.rets ++ [(buf.length, if i = buf.length then (buf.length : Int) else -1)] }

/-- What the process `p` does next. -/
def Sys.run (s : Sys P) (p : P) : Except Stop (Sys P) :=
  match s.pc p with
  | .user => .error .wait
  | .loop buf i => if i < buf.length then .ok (s.goto p (.begun buf i)) else .ok (s.finish p buf i)
  | .begun buf i => s.ilock p (.locked buf i)
  | .locked buf i =>
    match writei s.ip (buf.drop i) s.off (n1 buf i) with
    | none => .error .panic
    | some (r, ip) => .ok
      { s.goto p (.wrote buf i r) with
        ip := ip
        chunks := s.chunks ++ [(p, (buf.drop i).take r.toNat)] }
  | .wrote buf i r => .ok
    { s.goto p (.moved buf i r) with off := if 0 < r then (s.off + r.toNat) % 2 ^ 32 else s.off }
  | .moved buf i r => .ok { s.goto p (.released buf i r) with lock := none }
  | .released buf i r =>
    -- end_op, and then the break or the next round
    if r ≠ n1 buf i then .ok (s.finish p buf i) else .ok (s.goto p (.loop buf (i + r.toNat)))
  | .fetch n => s.ilock p (.fetching n)
  | .fetching n =>
    match readi s.ip (s.pos p) n with
    | none => .error .panic
    | some (r, out) => .ok (s.goto p (.fetched out r))
  | .fetched out r => .ok
    { s.goto p (.advanced out r) with
      pos := Function.update s.pos p (if 0 < r then (s.pos p + r) % 2 ^ 32 else s.pos p) }
  | .advanced _ _ => .ok { s.goto p .user with lock := none }

def step (s : Sys P) : Act P → Except Stop (Sys P)
  | .write p buf =>
    match s.pc p with
    | .user => .ok
      { s.goto p (.loop buf 0) with asked := Function.update s.asked p (s.asked p ++ buf) }
    | _ => .error .wait
  | .read p n =>
    match s.pc p with
    | .user => .ok (s.goto p (.fetch n))
    | _ => .error .wait
  | .run p => s.run p

/-- An empty file, nobody in a call. -/
def Sys.init (block : Nat → Block) (pos : P → Nat) : Sys P :=
  { ip := { size := 0, block := block }, lock := none, off := 0, pos := pos, pc := fun _ => .user
    asked := fun _ => [], chunks := [], rets := [] }

/-- What any interleaving of any calls leads to. -/
inductive Reach : Sys P → Prop
  | init (block : Nat → Block) (pos : P → Nat) : Reach (Sys.init block pos)
  | step {s t : Sys P} (a : Act P) : Reach s → step s a = .ok t → Reach t

/-- The state after some steps. -/
def steps : Sys P → List (Act P) → Except Stop (Sys P)
  | s, [] => .ok s
  | s, a :: as => match step s a with
    | .ok t => steps t as
    | .error e => .error e

end

end Xv6.Shared
