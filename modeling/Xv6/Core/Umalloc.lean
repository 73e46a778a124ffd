import Mathlib.Algebra.Group.Nat.Defs
import Mathlib.Data.List.Basic

/-!
# The User's Heap

`malloc` and `free` of `user/umalloc.c`. A block starts with a header of `HSIZE` bytes, and its
size counts headers, its own included. The free blocks are on a ring through the headers, in
the order of their addresses, which starts at `base`, a header of size zero below the heap.

Addresses are numbers of bytes. The fields of a header are found by its address: blocks do not
overlap, so neither do their headers. Sizes have 32 bits.

`sbrk` is the kernel's. It answers an address above all memory handed out before, not
necessarily the next one, or fails, as the list `gaps` says; and it fails when the machine has no
memory left, of which there is `mem`, counted in headers. The loops are given as many rounds as
a ring through that much memory can take.
-/

namespace Xv6.Umalloc

open Function (update)

/-- `sizeof(Header)`. -/
abbrev HSIZE : Nat := 16

/-- `base` and the heap, with `freep`. `brk` and `units` are the kernel's: the end of the memory
    handed out, and how much it is. -/
structure Heap where
  ptr : Nat → Nat
  size : Nat → UInt32
  freep : Nat
  brk : Nat
  units : Nat

/-- The loop of `free`, which looks for the place of `bp`. `none` is a loop that goes on. -/
def freeLoop (h : Heap) (bp : Nat) : Nat → Nat → Option Nat
  | 0, _ => none
  | fuel + 1, p =>
    if p < bp ∧ bp < h.ptr p then some p
    else if h.ptr p ≤ p ∧ (p < bp ∨ bp < h.ptr p) then some p
    else freeLoop h bp fuel (h.ptr p)

/-- Join `bp` to the upper neighbour, or point to it. -/
def joinUpper (h : Heap) (bp p : Nat) : Heap :=
  if bp + HSIZE * (h.size bp).toNat = h.ptr p then
    { h with
      size := update h.size bp (h.size bp + h.size (h.ptr p))
      ptr := update h.ptr bp (h.ptr (h.ptr p)) }
  else { h with ptr := update h.ptr bp (h.ptr p) }

/-- Join `bp` to the lower neighbour, or point to it. -/
def joinLower (h : Heap) (bp p : Nat) : Heap :=
  if p + HSIZE * (h.size p).toNat = bp then
    { h with
      size := update h.size p (h.size p + h.size bp)
      ptr := update h.ptr p (h.ptr bp) }
  else { h with ptr := update h.ptr p bp }

/-- `free`. -/
def free (fuel : Nat) (h : Heap) (ap : Nat) : Option Heap :=
  let bp := ap - HSIZE
  match freeLoop h bp fuel h.freep with
  | none => none
  | some p => some { joinLower (joinUpper h bp p) bp p with freep := p }

/-- `sbrk` for `nu` headers, `none` for `-1`. -/
def sbrk (mem : Nat) (h : Heap) (gap : Option Nat) (nu : Nat) : Option (Nat × Heap) :=
  match gap with
  | none => none
  | some g =>
    if h.units + nu ≤ mem then
      some (h.brk + g, { h with brk := h.brk + g + HSIZE * nu, units := h.units + nu })
    else none

/-- `morecore`, which answers `none` for `0`. -/
def morecore (fuel mem : Nat) (h : Heap) (nu : UInt32) (gap : Option Nat) :
    Option (Option (Nat × Heap)) :=
  let nu := if nu < 4096 then 4096 else nu
  match sbrk mem h gap nu.toNat with
  | none => some none
  | some (hp, h) =>
    match free fuel { h with size := update h.size hp nu } (hp + HSIZE) with
    | none => none
    | some h' => some (some (h'.freep, h'))

/-- The part of the loop of `malloc` that has found a block. -/
def carve (h : Heap) (nunits : UInt32) (prevp p : Nat) : Nat × Heap :=
  if h.size p = nunits then
    (p + HSIZE, { h with ptr := update h.ptr prevp (h.ptr p), freep := prevp })
  else
    let size := update h.size p (h.size p - nunits)
    let q := p + HSIZE * (size p).toNat
    (q + HSIZE, { h with size := update size q nunits, freep := prevp })

/-- The loop of `malloc`. -/
def mallocLoop (mem : Nat) (nunits : UInt32) :
    Nat → List (Option Nat) → Heap → Nat → Nat → Option (Nat × Heap)
  | 0, _, _, _, _ => none
  | fuel + 1, gaps, h, prevp, p =>
    if nunits ≤ h.size p then some (carve h nunits prevp p)
    else if p = h.freep then
      match morecore fuel mem h nunits (gaps.headD none) with
      | none => none
      | some none => some (0, h)
      | some (some (p', h')) => mallocLoop mem nunits fuel gaps.tail h' p' (h'.ptr p')
    else mallocLoop mem nunits fuel gaps h p (h.ptr p)

/-- The blocks asked for, with one header more. -/
def nunits (nbytes : UInt32) : Nat := (nbytes.toNat + HSIZE - 1) / HSIZE + 1

/-- The first lines of `malloc`: a ring of `base` alone if there is none yet. -/
def setUp (base : Nat) (h : Heap) : Heap :=
  if h.freep = 0 then
    { h with
      ptr := update h.ptr base base
      size := update h.size base 0
      freep := base }
  else h

/-- `malloc`. -/
def malloc (base mem fuel : Nat) (h : Heap) (nbytes : UInt32) (gaps : List (Option Nat)) :
    Option (Nat × Heap) :=
  let h := setUp base h
  mallocLoop mem (nunits nbytes).toUInt32 fuel gaps h h.freep (h.ptr h.freep)

/-- A block a program has: where its header is, its size, and what was asked for. -/
structure Live where
  addr : Nat
  units : Nat
  nbytes : UInt32
deriving DecidableEq

/-- A program's heap. -/
structure Sys where
  heap : Heap
  live : List Live

inductive Act
  | malloc (nbytes : UInt32) (gaps : List (Option Nat))
  | free (ap : Nat)

/-- A program that has not called `malloc` yet, with its memory up to `brk`. -/
def Sys.init (brk : Nat) : Sys :=
  { heap := { ptr := fun _ => 0, size := fun _ => 0, freep := 0, brk := brk, units := 0 }
    live := [] }

/-- Rounds enough for two tours of any ring. -/
def rounds (mem : Nat) : Nat := 2 * mem + 4

/-- What a call returns and does. The outer `none` is a call that is not made: more than
    `sbrk` can be asked for, or `free` of something else than a block. The inner one is a call
    that does not return. -/
def step (base mem : Nat) (s : Sys) : Act → Option (Option (Nat × Sys))
  | .malloc nbytes gaps =>
    if nunits nbytes * HSIZE < 2 ^ 31 then
      match malloc base mem (rounds mem) s.heap nbytes gaps with
      | none => some none
      | some (ap, h) =>
        if ap = 0 then some (some (0, { s with heap := h }))
        else some (some (ap,
          { heap := h, live := ⟨ap - HSIZE, (h.size (ap - HSIZE)).toNat, nbytes⟩ :: s.live }))
    else none
  | .free ap =>
    match s.live.find? fun x => x.addr + HSIZE = ap with
    | none => none
    | some x => match free (rounds mem) s.heap ap with
      | none => some none
      | some h => some (some (0, { heap := h, live := s.live.erase x }))

/-- What any calls one after the other lead to. `base` is below the heap. -/
inductive Reach (base mem : Nat) : Sys → Prop
  | init (brk : Nat) : 0 < base → base + HSIZE ≤ brk → Reach base mem (Sys.init brk)
  | step {s s' : Sys} {r : Nat} (a : Act) : Reach base mem s →
      step base mem s a = some (some (r, s')) → Reach base mem s'

/-- The state after calls that all return. -/
def steps (base mem : Nat) : Sys → List Act → Option Sys
  | s, [] => some s
  | s, a :: as =>
    match step base mem s a with
    | some (some (_, s')) => steps base mem s' as
    | _ => none

end Xv6.Umalloc
