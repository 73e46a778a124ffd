import Xv6.Core.Kernel

/-!
# Mounting

`fsinit`, which the first process runs before anything else: it reads the superblock, looks at
its magic number and recovers the log. Recovery is the program of `Core.Commit` on the device,
and the machine of `Core.Kernel` starts on the disk it leaves behind.
-/

namespace Xv6

abbrev FSMAGIC : UInt32 := 0x10203040

/-- `readsb`, given the block it reads. -/
def readsb (b : Block) : Superblock :=
  { size := (b.u32 4).toNat
    nblocks := (b.u32 8).toNat
    ninodes := (b.u32 12).toNat
    nlog := (b.u32 16).toNat
    logstart := (b.u32 20).toNat
    inodestart := (b.u32 24).toNat
    bmapstart := (b.u32 28).toNat }

/-- `fsinit`. There is nothing to go on with where the magic number is not that of a file
    system, or where recovery does not end. -/
def fsinit (disk : Nat → Block) : Option (Superblock × Vol) :=
  if (disk 1).u32 0 ≠ FSMAGIC then none
  else
    let sb := readsb (disk 1)
    match recoverFromLog.run (Dev.handle ()) (Dev.boot Unit disk sb.logstart sb.nlog) with
    | .ok (_, d) => some (sb, Vol.boot sb d.disk)
    | .error _ => none

end Xv6
