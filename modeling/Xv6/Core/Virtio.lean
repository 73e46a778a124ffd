import Xv6.Core.Param
import Mathlib.Data.Fintype.Basic

/-!
# The Disk Driver

`kernel/virtio_disk.c` and the device it talks to. A request takes three of `NUM` descriptors
and chains them. The number of the first goes into the ring `avail`, and the device puts it into
the ring `used` when it is done. Both rings have an index of 16 bits that only ever grows.

The sections under `vdisk_lock` are the steps of the callers: from the call of `virtio_disk_rw`
or a wakeup to the next `sleep` or the end. `virtio_disk_intr` takes one entry of the ring at a
step; it holds the lock for all of them, so more can come in between here than in the
source. The device fetches heads from `avail` in order and finishes what it has fetched in any
order. It gets to the status byte through the chain, as the driver has laid it out.

A caller holds the sleeplock of its buffer, so no two callers have one buffer. `clears` and
`done` are bookkeeping: how often the flag of a buffer was cleared since its request was made,
and whether the device has finished the request.
-/

namespace Xv6.Virtio

open Function (update)

/-- The number of descriptors. -/
abbrev NUM : Nat := 8

abbrev VRING_DESC_F_NEXT : UInt16 := 1

abbrev VRING_DESC_F_WRITE : UInt16 := 2

/-- What a descriptor points to. -/
inductive Addr (B : Type)
  | null
  | ops (i : Nat)
  | data (b : B)
  | status (i : Nat)

/-- `struct virtq_desc`. -/
structure Desc (B : Type) where
  addr : Addr B
  len : Nat
  flags : UInt16
  next : Nat

/-- A descriptor that is not in use. -/
def Desc.zero {B : Type} : Desc B := { addr := .null, len := 0, flags := 0, next := 0 }

/-- An entry of `info`. -/
structure Info (B : Type) where
  b : Option B
  status : UInt8

/-- `struct virtio_blk_req`, with whether it is a write in place of the type. -/
structure Req where
  write : Bool
  sector : UInt64

/-- `disk`, with the rings the driver and the device share. `flag` is the field `disk` of each
    buffer. -/
structure Disk (B : Type) where
  desc : Nat → Desc B
  /-- `avail->ring` and `avail->idx`. -/
  avail : Nat → Nat
  availIdx : UInt16
  /-- The ids in `used->ring`, and `used->idx`. -/
  used : Nat → Nat
  usedIdx : UInt16
  free : Nat → Bool
  /-- The driver's own `used_idx`. -/
  lookedAt : UInt16
  info : Nat → Info B
  ops : Nat → Req
  flag : B → Bool

/-- The panics, a null pointer followed, and a loop that does not end. -/
inductive Fault
  | freeDesc1
  | freeDesc2
  | status
  | nullBuf
  | stuck
deriving DecidableEq

variable {P B : Type} [DecidableEq P] [DecidableEq B]

namespace Disk

/-- `virtio_disk_init` over zeroed memory. -/
def init : Disk B :=
  { desc := fun _ => Desc.zero, avail := fun _ => 0, availIdx := 0, used := fun _ => 0
    usedIdx := 0, free := fun _ => true, lookedAt := 0, info := fun _ => ⟨none, 0⟩
    ops := fun _ => ⟨false, 0⟩, flag := fun _ => false }

def allocDesc (d : Disk B) : Option (Nat × Disk B) :=
  ((List.range NUM).find? fun i => d.free i).map
    fun i => (i, { d with free := update d.free i false })

def freeDesc (d : Disk B) (i : Nat) : Except Fault (Disk B) :=
  if NUM ≤ i then .error .freeDesc1
  else if d.free i then .error .freeDesc2
  else .ok { d with
    desc := update d.desc i Desc.zero
    free := update d.free i true }

/-- `free_chain`, for at most so many descriptors. -/
def freeChain : Nat → Disk B → Nat → Except Fault (Disk B)
  | 0, _, _ => .error .stuck
  | fuel + 1, d, i =>
    let flag := (d.desc i).flags
    let nxt := (d.desc i).next
    match d.freeDesc i with
    | .error e => .error e
    | .ok d' => if flag &&& VRING_DESC_F_NEXT ≠ 0 then freeChain fuel d' nxt else .ok d'

/-- `alloc3_desc`, which gives back what it has got if there are not three. -/
def alloc3Desc (d : Disk B) : Except Fault (Option (Nat × Nat × Nat) × Disk B) :=
  match d.allocDesc with
  | none => .ok (none, d)
  | some (i0, d1) => match d1.allocDesc with
    | none => match d1.freeDesc i0 with
      | .error e => .error e
      | .ok d' => .ok (none, d')
    | some (i1, d2) => match d2.allocDesc with
      | none => match d2.freeDesc i0 with
        | .error e => .error e
        | .ok d' => match d'.freeDesc i1 with
          | .error e => .error e
          | .ok d'' => .ok (none, d'')
      | some (i2, d3) => .ok (some (i0, i1, i2), d3)

/-- `virtio_disk_rw` from the formatting of the descriptors to the notification. -/
def format (d : Disk B) (b : B) (write : Bool) (blockno : UInt32) (i0 i1 i2 : Nat) : Disk B :=
  { d with
    ops := update d.ops i0
      { write := write, sector := (blockno * (BSIZE / 512).toUInt32).toUInt64 }
    desc := update (update (update d.desc
      i0 { addr := .ops i0, len := 16, flags := VRING_DESC_F_NEXT, next := i1 })
      i1 { addr := .data b, len := BSIZE
           flags := (if write then 0 else VRING_DESC_F_WRITE) ||| VRING_DESC_F_NEXT
           next := i2 })
      i2 { addr := .status i0, len := 1, flags := VRING_DESC_F_WRITE, next := 0 }
    info := update d.info i0 { b := some b, status := 0xff }
    flag := update d.flag b true
    avail := update d.avail (d.availIdx.toNat % NUM) i0
    availIdx := d.availIdx + 1 }

/-- The device's writes for the request with head `h`: the status through the third
    descriptor, and an entry of the ring. -/
def finish (d : Disk B) (h : Nat) : Disk B :=
  { d with
    info := match (d.desc (d.desc (d.desc h).next).next).addr with
      | .status i => update d.info i { d.info i with status := 0 }
      | _ => d.info
    used := update d.used (d.usedIdx.toNat % NUM) h
    usedIdx := d.usedIdx + 1 }

end Disk

/-- The variables of a `virtio_disk_rw` that has sent its request. -/
structure Chain (B : Type) where
  b : B
  i0 : Nat
  i1 : Nat
  i2 : Nat

/-- Where a process is. -/
inductive Pc (B : Type)
  | idle
  /-- Asleep on `disk.free[0]`. -/
  | short (b : B) (write : Bool) (blockno : UInt32)
  /-- Asleep on its buffer. -/
  | waiting (c : Chain B)

/-- The buffer a process is in `virtio_disk_rw` with. -/
def Pc.buf : Pc B → Option B
  | .idle => none
  | .short b _ _ => some b
  | .waiting c => some c.b

/-- The driver, its callers, and the device, which has looked at `avail` up to `seen` and has
    `inflight` to work on. -/
structure Sys (P B : Type) where
  disk : Disk B
  pc : P → Pc B
  seen : UInt16
  inflight : List Nat
  clears : B → Nat
  done : B → Bool

/-- What can happen: a call, a wakeup of either kind, the device's two steps, and an entry taken
    by the interrupt handler. -/
inductive Act (P B : Type)
  | call (p : P) (b : B) (write : Bool) (blockno : UInt32)
  | retry (p : P)
  | resume (p : P)
  | fetch
  | finish (h : Nat)
  | intr

namespace Sys

def init (P B : Type) : Sys P B :=
  { disk := Disk.init, pc := fun _ => .idle, seen := 0, inflight := [], clears := fun _ => 0
    done := fun _ => false }

/-- `virtio_disk_rw` from the loop for the descriptors to the first sleep. -/
def start (s : Sys P B) (p : P) (b : B) (write : Bool) (blockno : UInt32) :
    Except Fault (Sys P B) :=
  match s.disk.alloc3Desc with
  | .error e => .error e
  | .ok (none, d) =>
    .ok { s with disk := d, pc := update s.pc p (.short b write blockno) }
  | .ok (some (i0, i1, i2), d) => .ok { s with
      disk := d.format b write blockno i0 i1 i2
      pc := update s.pc p (.waiting ⟨b, i0, i1, i2⟩)
      clears := update s.clears b 0
      done := update s.done b false }

/-- The end of `virtio_disk_rw`. -/
def leave (s : Sys P B) (p : P) (c : Chain B) : Except Fault (Sys P B) :=
  let d := { s.disk with
    info := update s.disk.info c.i0 { s.disk.info c.i0 with b := none } }
  match d.freeChain (NUM + 1) c.i0 with
  | .error e => .error e
  | .ok d' => .ok { s with disk := d', pc := update s.pc p .idle }

/-- The device fetches the next head. -/
def fetch (s : Sys P B) : Sys P B :=
  { s with seen := s.seen + 1, inflight := s.inflight ++ [s.disk.avail (s.seen.toNat % NUM)] }

/-- The device is done with the request with head `h`. -/
def finish (s : Sys P B) (h : Nat) : Sys P B :=
  { s with
    disk := s.disk.finish h
    inflight := s.inflight.erase h
    done := match (s.disk.desc (s.disk.desc h).next).addr with
      | .data b => update s.done b true
      | _ => s.done }

/-- One round of the loop of `virtio_disk_intr`. -/
def intr (s : Sys P B) : Except Fault (Sys P B) :=
  let id := s.disk.used (s.disk.lookedAt.toNat % NUM)
  if (s.disk.info id).status ≠ 0 then .error .status
  else match (s.disk.info id).b with
    | none => .error .nullBuf
    | some b => .ok { s with
        disk := { s.disk with
          flag := update s.disk.flag b false
          lookedAt := s.disk.lookedAt + 1 }
        clears := update s.clears b (s.clears b + 1) }

end Sys

variable [Fintype P]

/-- One step, or `none` where it cannot be taken. -/
def step (s : Sys P B) : Act P B → Option (Except Fault (Sys P B))
  | .call p b write blockno => match s.pc p with
    | .idle => if ∀ q, (s.pc q).buf ≠ some b then some (s.start p b write blockno) else none
    | _ => none
  | .retry p => match s.pc p with
    | .short b write blockno => some (s.start p b write blockno)
    | _ => none
  | .resume p => match s.pc p with
    | .waiting c => if s.disk.flag c.b then some (.ok s) else some (s.leave p c)
    | _ => none
  | .fetch => if s.seen ≠ s.disk.availIdx then some (.ok s.fetch) else none
  | .finish h => if h ∈ s.inflight then some (.ok (s.finish h)) else none
  | .intr => if s.disk.lookedAt ≠ s.disk.usedIdx then some s.intr else none

/-- A list of steps taken one after the other. -/
def steps (s : Sys P B) : List (Act P B) → Option (Except Fault (Sys P B))
  | [] => some (.ok s)
  | a :: as => match step s a with
    | none => none
    | some (.error e) => some (.error e)
    | some (.ok s') => steps s' as

/-- What any steps one after the other lead to. -/
inductive Reach : Sys P B → Prop
  | init : Reach (Sys.init P B)
  | step {s s' : Sys P B} (a : Act P B) : Reach s → step s a = some (.ok s') → Reach s'

end Xv6.Virtio
