import Mathlib.Algebra.GroupWithZero.Nat

/-!
# Kernel Parameters

The constants of `kernel/param.h`, `kernel/fs.h`, `kernel/stat.h`,
`kernel/fcntl.h` and `kernel/riscv.h` that the modelled code reads, under the
names the headers give them, and the panics it can reach.

The sizes that the C code derives with `sizeof` are spelled out: a `struct
dinode` is 64 bytes and a `struct dirent` is 16, so `IPB` inodes share a block
and a directory entry never straddles one.

`Panic` enumerates the panics. A panic stops the machine, and several of the
properties proved later say that one particular panic is not the way it
stops, so the cases have to be distinguishable.
-/

namespace Xv6

abbrev NPROC : Nat := 64
abbrev NOFILE : Nat := 16
abbrev NFILE : Nat := 100
abbrev NINODE : Nat := 50
abbrev NDEV : Nat := 10

instance neZeroNPROC : NeZero NPROC := ⟨by decide⟩
instance neZeroNOFILE : NeZero NOFILE := ⟨by decide⟩

abbrev ROOTDEV : Nat := 1
abbrev MAXOPBLOCKS : Nat := 10
abbrev LOGSIZE : Nat := MAXOPBLOCKS * 3
abbrev NBUF : Nat := MAXOPBLOCKS * 3
abbrev FSSIZE : Nat := 1000
abbrev MAXPATH : Nat := 128

abbrev ROOTINO : Nat := 1
abbrev BSIZE : Nat := 1024
abbrev NDIRECT : Nat := 12
abbrev NINDIRECT : Nat := BSIZE / 4
abbrev MAXFILE : Nat := NDIRECT + NINDIRECT
abbrev IPB : Nat := BSIZE / 64
abbrev BPB : Nat := BSIZE * 8
abbrev DIRSIZ : Nat := 14
/-- `sizeof(struct dirent)`. -/
abbrev DIRENT : Nat := 16

/-- `nlog` of `mkfs/mkfs.c`: the log blocks of an image, header included. -/
abbrev nlog : Nat := LOGSIZE

abbrev PGSIZE : Nat := 4096
abbrev MAXVA : Nat := 2 ^ 38

/-- The panics that the modelled functions can reach. -/
inductive Panic
  | bgetNoBuffers
  | bwrite
  | brelse
  | tooBigTransaction
  | logWriteOutsideTrans
  | logCommitting
  | ballocOutOfBlocks
  | freeingFreeBlock
  | iallocNoInodes
  | igetNoInodes
  | ilock
  | ilockNoType
  | iunlock
  | bmapOutOfRange
  | dirlookupNotDir
  | dirlookupRead
  | dirlinkRead
  | dirlink
  | isdiremptyReadi
  | unlinkNlink
  | unlinkWritei
  | createDots
  | createDirlink
  | filedup
  | fileclose
  | fileread
  | filewrite
  | initExiting
  deriving DecidableEq, Repr

end Xv6
