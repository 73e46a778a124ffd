import Xv6.Core.Kernel

/-!
# Making a File System

`mkfs/mkfs.c`, the program that writes the first disk. It zeroes the image, makes the root
directory, and appends each file it is given, taking inodes and blocks from two counters that
only go up. At the end it rounds up the size of the root directory and writes the free map.

The image is a file on the host. Reading a sector behind its end ends the program, and so does
a failed `assert`; writing behind its end makes it longer. A sector number is multiplied
by the size of a sector as a 32-bit number. Nothing else on the host fails: the image and
the input files can be opened, and every byte can be written.

A file is its name on the command line and what the successive reads of it return.
-/

namespace Xv6.Mkfs

/-- The ways not to exit with status zero. -/
inductive Fail
  /-- `die`. -/
  | die
  /-- A failed `assert`. -/
  | abort

/-- The image, its length in sectors, and the counters. -/
structure St where
  img : Nat → Block
  len : Nat
  freeinode : Nat
  freeblock : Nat

/-- `nmeta`. -/
def nmeta : Nat := 2 + nlog + (200 / IPB + 1) + (FSSIZE / (BSIZE * 8) + 1)

/-- The sector at `sec * BSIZE`, a 32-bit number. -/
def sector (sec : Nat) : Nat := sec % 2 ^ 22

def rsect (s : St) (sec : Nat) : Except Fail Block :=
  if sector sec < s.len then .ok (s.img (sector sec)) else .error .die

def wsect (s : St) (sec : Nat) (b : Block) : St :=
  { s with img := Function.update s.img (sector sec) b, len := max s.len (sector sec + 1) }

def rinode (s : St) (inum : Nat) : Except Fail Dinode := do
  let b ← rsect s (mkfs.sb.IBLOCK inum)
  return b.dinode (inum % IPB)

def winode (s : St) (inum : Nat) (d : Dinode) : Except Fail St := do
  let b ← rsect s (mkfs.sb.IBLOCK inum)
  return wsect s (mkfs.sb.IBLOCK inum) (b.setDinode (inum % IPB) d)

/-- `ialloc`, which returns the number it takes from the counter. -/
def ialloc (s : St) (type : UInt16) : Except Fail (Nat × St) := do
  let s' ← winode { s with freeinode := s.freeinode + 1 } s.freeinode
    { Dinode.zero with type := type, nlink := 1 }
  return (s.freeinode, s')

/-- `addrs[k]` of an inode in memory. -/
def setAddr (d : Dinode) (k : Fin (NDIRECT + 1)) (b : Nat) : Dinode :=
  { d with addrs := Function.update d.addrs k (UInt32.ofNat b) }

/-- `if(addrs[k] == 0) addrs[k] = freeblock++`. -/
def takeAddr (s : St) (d : Dinode) (k : Fin (NDIRECT + 1)) : St × Dinode :=
  if d.addrs k = 0 then ({ s with freeblock := s.freeblock + 1 }, setAddr d k s.freeblock)
  else (s, d)

/-- The place of the block of single indirect addresses. -/
def indirect : Fin (NDIRECT + 1) := ⟨NDIRECT, by decide⟩

/-- The block `x` of file block `fbn`, and the inode and the image after it has been taken from
    the counter where it was not there. -/
def fileBlock (s : St) (d : Dinode) (fbn : Nat) : Except Fail (St × Dinode × Nat) :=
  if h : fbn < NDIRECT then
    let k : Fin (NDIRECT + 1) := ⟨fbn, by omega⟩
    let (s, d) := takeAddr s d k
    .ok (s, d, (d.addrs k).toNat)
  else do
    let (s, d) := takeAddr s d indirect
    let b ← rsect s (d.addrs indirect).toNat
    if b.u32 (4 * (fbn - NDIRECT)) = 0 then
      let b' := b.setU32 (4 * (fbn - NDIRECT)) (UInt32.ofNat s.freeblock)
      let s' := wsect { s with freeblock := s.freeblock + 1 } (d.addrs indirect).toNat b'
      return (s', d, (b'.u32 (4 * (fbn - NDIRECT))).toNat)
    else return (s, d, (b.u32 (4 * (fbn - NDIRECT))).toNat)

/-- The loop of `iappend`, from offset `off` on. Every round writes a byte at least, so as many
    rounds as there are bytes are enough. -/
def appendLoop : Nat → St → Dinode → Nat → List UInt8 → Except Fail (St × Dinode × Nat)
  | 0, s, d, off, _ => .ok (s, d, off)
  | fuel + 1, s, d, off, p =>
    if p = [] then .ok (s, d, off)
    else if off / BSIZE < MAXFILE then do
      let (s, d, x) ← fileBlock s d (off / BSIZE)
      let n1 := min p.length ((off / BSIZE + 1) * BSIZE - off)
      let b ← rsect s x
      appendLoop fuel (wsect s x (b.blit (off - off / BSIZE * BSIZE) (p.take n1))) d (off + n1)
        (p.drop n1)
    else .error .abort

def iappend (s : St) (inum : Nat) (p : List UInt8) : Except Fail St := do
  let d ← rinode s inum
  let (s, d, off) ← appendLoop p.length s d d.size.toNat p
  winode s inum { d with size := UInt32.ofNat off }

/-- `balloc`: the blocks before `used` are marked. -/
def balloc (s : St) (used : Nat) : Except Fail St :=
  if used < BSIZE * 8 then
    .ok (wsect s mkfs.sb.bmapstart ((List.range used).foldl Block.setBit Block.zero))
  else .error .abort

/-- An input file: its name on the command line, and what each `read` returns. -/
structure File where
  name : List UInt8
  reads : List (List UInt8)

/-- The name without `user/`. -/
def File.shortname (f : File) : List UInt8 :=
  let user : List UInt8 := [117, 115, 101, 114, 47]
  if f.name.take 5 = user then f.name.drop 5 else f.name

/-- The name without its leading underscore. -/
def File.entry (f : File) : List UInt8 :=
  if f.shortname.headD 0 = 95 then f.shortname.tail else f.shortname

/-- The reads of a file, up to the first that returns nothing. -/
def appendAll (s : St) (inum : Nat) : List (List UInt8) → Except Fail St
  | [] => .ok s
  | p :: ps => if p = [] then .ok s else do
    let s ← iappend s inum p
    appendAll s inum ps

/-- One round of the loop over the files. -/
def addFile (s : St) (f : File) : Except Fail St :=
  if 47 ∈ f.shortname then .error .abort
  else do
    let (inum, s) ← ialloc s T_FILE
    let s ← iappend s ROOTINO (Dirent.enc (UInt16.ofNat inum) f.entry)
    appendAll s inum f.reads

def addFiles (s : St) : List File → Except Fail St
  | [] => .ok s
  | f :: fs => do
    let s ← addFile s f
    addFiles s fs

/-- The superblock, as bytes. -/
def sbBlock : Block :=
  Block.zero.setU32 0 0x10203040
    |>.setU32 4 (UInt32.ofNat mkfs.sb.size)
    |>.setU32 8 (UInt32.ofNat mkfs.sb.nblocks)
    |>.setU32 12 (UInt32.ofNat mkfs.sb.ninodes)
    |>.setU32 16 (UInt32.ofNat mkfs.sb.nlog)
    |>.setU32 20 (UInt32.ofNat mkfs.sb.logstart)
    |>.setU32 24 (UInt32.ofNat mkfs.sb.inodestart)
    |>.setU32 28 (UInt32.ofNat mkfs.sb.bmapstart)

/-- The zeroed image with its superblock. -/
def init : St :=
  { img := Function.update (fun _ => Block.zero) 1 sbBlock, len := FSSIZE, freeinode := 1
    freeblock := nmeta }

/-- The root directory with its first two entries. -/
def makeRoot (s : St) : Except Fail St := do
  let (rootino, s) ← ialloc s T_DIR
  if rootino = ROOTINO then do
    let s ← iappend s rootino (Dirent.enc (UInt16.ofNat rootino) DOT)
    iappend s rootino (Dirent.enc (UInt16.ofNat rootino) DOTDOT)
  else .error .abort

/-- The size of the root directory is rounded up. -/
def fixRoot (s : St) : Except Fail St := do
  let d ← rinode s ROOTINO
  winode s ROOTINO { d with size := UInt32.ofNat ((d.size.toNat / BSIZE + 1) * BSIZE) }

/-- `main`, given the files. -/
def main (fs : List File) : Except Fail St := do
  let s ← makeRoot init
  let s ← addFiles s fs
  let s ← fixRoot s
  balloc s s.freeblock

end Xv6.Mkfs
