import Mathlib.Algebra.Group.Int.Defs
import Xv6.Core.Umalloc

/-!
# The Heap over the Kernel's sbrk

`malloc` once more, with `sbrk` as `sys_sbrk` and `growproc` compute it: it is asked for a
`uint64` and takes an `int`, and the size of a process is a `uint`.

`brk` of the heap is the size of the process. The program may call `sbrk` too: each time
`morecore` does, `own` says by how much it grew the process since, and `room` whether `uvmalloc`
finds the pages.
-/

namespace Xv6.Umalloc.Kernel

open Function (update)

/-- `PHYSTOP - KERNBASE`. -/
abbrev RAM : Nat := 2 ^ 27

/-- A number as an `int`. -/
def int (n : Nat) : Int := (BitVec.ofNat 32 n).toInt

/-- `growproc`, for a process of size `sz`: the new size, or `none` for `-1`. -/
def growproc (sz : Nat) (n : Int) (room : Bool) : Option Nat :=
  let newsz := ((sz + n) % 2 ^ 32).toNat
  if 0 < n then
    -- uvmalloc
    if newsz < sz then some sz
    else if room ∧ newsz ≤ RAM then some newsz
    else none
  else if n < 0 then
    -- uvmdealloc
    if sz ≤ newsz then some sz else some newsz
  else some sz

/-- The size of the process after the program grew it by `own` bytes, if it can. -/
def grown (h : Heap) (own : Nat) : Nat := if h.brk + own ≤ RAM then h.brk + own else h.brk

/-- `sbrk(nbytes)`, where `addr` of `sys_sbrk` is an `int` as well. -/
def sbrk (h : Heap) (own : Nat) (room : Bool) (nbytes : Nat) : Option (Nat × Heap) :=
  match growproc (grown h own) (int nbytes) room with
  | none => none
  | some sz =>
    some ((int (grown h own) % 2 ^ 64).toNat,
      { h with brk := sz, units := h.units + (sz - grown h own) / HSIZE })

/-- `morecore`. -/
def morecore (fuel : Nat) (h : Heap) (nu : UInt32) (own : Nat) (room : Bool) :
    Option (Option (Nat × Heap)) :=
  let nu := if nu < 4096 then 4096 else nu
  match sbrk h own room (nu.toNat * HSIZE) with
  | none => some none
  | some (hp, h) =>
    match free fuel { h with size := update h.size hp nu } (hp + HSIZE) with
    | none => none
    | some h' => some (some (h'.freep, h'))

/-- The loop of `malloc`. -/
def mallocLoop (nunits : UInt32) :
    Nat → List (Nat × Bool) → Heap → Nat → Nat → Option (Nat × Heap)
  | 0, _, _, _, _ => none
  | fuel + 1, calls, h, prevp, p =>
    if nunits ≤ h.size p then some (carve h nunits prevp p)
    else if p = h.freep then
      match morecore fuel h nunits (calls.headD (0, false)).1 (calls.headD (0, false)).2 with
      | none => none
      | some none => some (0, h)
      | some (some (p', h')) => mallocLoop nunits fuel calls.tail h' p' (h'.ptr p')
    else mallocLoop nunits fuel calls h p (h.ptr p)

/-- The memory of the machine in headers. -/
def MEM : Nat := RAM / HSIZE

/-- `malloc`. -/
def malloc (base : Nat) (h : Heap) (nbytes : UInt32) (calls : List (Nat × Bool)) :
    Option (Nat × Heap) :=
  let h := setUp base h
  mallocLoop (nunits nbytes).toUInt32 (rounds MEM) calls h h.freep (h.ptr h.freep)

/-- The program after `malloc` returned `ap`. -/
def taken (s : Sys) (nbytes : UInt32) (ap : Nat) (h : Heap) : Sys :=
  if ap = 0 then { s with heap := h }
  else { heap := h, live := ⟨ap - HSIZE, (h.size (ap - HSIZE)).toNat, nbytes⟩ :: s.live }

/-- What calls for less than two gigabytes lead to, for a program of size `start`. -/
inductive Reach (base start : Nat) : Sys → Prop
  | init : 0 < base → base + HSIZE ≤ start → start ≤ RAM → Reach base start (Sys.init start)
  | malloc {s : Sys} {ap : Nat} {h : Heap} (nbytes : UInt32) (calls : List (Nat × Bool)) :
      Reach base start s → nunits nbytes * HSIZE < 2 ^ 31 →
      malloc base s.heap nbytes calls = some (ap, h) → Reach base start (taken s nbytes ap h)
  | free {s : Sys} {h : Heap} (x : Live) : Reach base start s → x ∈ s.live →
      free (rounds MEM) s.heap (x.addr + HSIZE) = some h →
      Reach base start { heap := h, live := s.live.erase x }

end Xv6.Umalloc.Kernel
