import Mathlib.Algebra.GroupWithZero.Nat
import Mathlib.Logic.Function.Basic

/-!
# Page Tables

The page allocator of `kernel/kalloc.c` and the functions of `kernel/vm.c` that read and
write page tables.

Physical memory is seen a page at a time: a page has the address of its first byte, and is
512 words. Pages that are not page tables hold other things, and that the allocator's free
list runs through the first words of free pages is part of the model: whoever writes to a
free page changes the list.

A pointer to a page table entry is a page and the number of the word. The loops over the
pages of a range are counted: the loop of `mappages` goes round until `a == last`, and that
of `uvmunmap` while `a < va + npages * PGSIZE`, all of it modulo `2 ^ 64`.
-/

namespace Xv6

/-- `uint64`. -/
abbrev Word : Type := BitVec 64

namespace Vm

abbrev PGSIZE : Nat := 4096

/-- `1L << (9 + 9 + 9 + 12 - 1)`. -/
abbrev MAXVA : Nat := 2 ^ 38

abbrev KERNBASE : Word := 0x80000000#64
abbrev PHYSTOP : Word := KERNBASE + 128#64 * 1024#64 * 1024#64

abbrev PTE_V : Word := 1#64
abbrev PTE_U : Word := 16#64

def PA2PTE (pa : Word) : Word := (pa >>> 12) <<< 10

def PTE2PA (pte : Word) : Word := (pte >>> 10) <<< 12

def PTE_FLAGS (pte : Word) : Word := pte &&& 0x3FF#64

/-- `*pte & PTE_V`. -/
def isValid (pte : Word) : Bool := pte.getLsbD 0

def PGROUNDDOWN (a : Word) : Word := a &&& ~~~0xFFF#64

/-- The number of an entry in a page. -/
abbrev Index : Type := Fin 512

instance neZeroIndex : NeZero 512 := ⟨by decide⟩

/-- The 9 bits of an address that choose the entry at a level. -/
def PX (level : Nat) (va : Word) : Index :=
  ⟨((va >>> (12 + 9 * level)) &&& 0x1FF#64).toNat, by
    rw [BitVec.toNat_and]
    exact Nat.lt_of_le_of_lt Nat.and_le_right (by decide)⟩

structure Phys where
  word : Word → Index → Word
  /-- `kmem.freelist`. -/
  freelist : Word

/-- The panics of these functions. -/
inductive Panic
  | kfree
  | walk
  | mappagesSize
  | mappagesRemap
  | uvmunmapAligned
  | uvmunmapWalk
  | uvmunmapMapped
  | uvmunmapLeaf
  | uvmclear
  | uvmcopyPte
  | uvmcopyPresent
  | freewalkLeaf
  | loadseg
  /-- Not one of the code: a null pointer is followed. -/
  | fault
  /-- Not one of the code: a loop or a recursion has gone on for longer than there are pages. -/
  | endless
deriving DecidableEq, Repr

namespace Phys

def set (m : Phys) (pa : Word) (i : Index) (x : Word) : Phys :=
  { m with word := Function.update m.word pa (Function.update (m.word pa) i x) }

/-- `memset` of a page, seen as words. -/
def fill (m : Phys) (pa : Word) (x : Word) : Phys :=
  { m with word := Function.update m.word pa fun _ => x }

end Phys

/-- A page that was free, or `0`. -/
def kalloc (m : Phys) : Word × Phys :=
  if m.freelist = 0#64 then (0#64, m)
  else
    (m.freelist,
      { m with freelist := m.word m.freelist 0 }.fill m.freelist 0x0505050505050505#64)

/-- `kend` is the first address after the kernel. -/
def kfree (kend : Word) (m : Phys) (pa : Word) : Except Panic Phys :=
  if pa.toNat % PGSIZE ≠ 0 ∨ pa < kend ∨ PHYSTOP ≤ pa then .error .kfree
  else
    .ok { (m.fill pa 0x0101010101010101#64).set pa 0 m.freelist with freelist := pa }

/-- The loop of `walk` from `level` down, in the page `pt`. The page at level `0` or nothing. -/
def walkFrom (va : Word) (alloc : Bool) : Nat → Phys → Word → Option Word × Phys
  | 0, m, pt => (some pt, m)
  | level + 1, m, pt =>
    let i := PX (level + 1) va
    if isValid (m.word pt i) then walkFrom va alloc level m (PTE2PA (m.word pt i))
    else if alloc = false then (none, m)
    else
      let (page, m) := kalloc m
      if page = 0#64 then (none, m)
      else walkFrom va alloc level ((m.fill page 0#64).set pt i (PA2PTE page ||| PTE_V)) page

/-- The entry for `va`: its page and its number there. -/
def walk (m : Phys) (pagetable : Word) (va : Word) (alloc : Bool) :
    Except Panic (Option (Word × Index) × Phys) :=
  if MAXVA ≤ va.toNat then .error .walk
  else
    let (page, m) := walkFrom va alloc 2 m pagetable
    .ok (page.map fun a => (a, PX 0 va), m)

/-- Once round the loop of `mappages`: whether `walk` found an entry. -/
def mapOne (m : Phys) (pagetable a pa perm : Word) : Except Panic (Bool × Phys) := do
  match ← walk m pagetable a true with
  | (none, m) => .ok (false, m)
  | (some (page, i), m) =>
    if isValid (m.word page i) then .error .mappagesRemap
    else .ok (true, m.set page i (PA2PTE pa ||| perm ||| PTE_V))

/-- The loop of `mappages`, over `n` pages. -/
def mapFrom (pagetable perm : Word) : Nat → Phys → Word → Word → Except Panic (Bool × Phys)
  | 0, m, _, _ => .ok (true, m)
  | n + 1, m, a, pa => do
    match ← mapOne m pagetable a pa perm with
    | (false, m) => .ok (false, m)
    | (true, m) => mapFrom pagetable perm n m (a + 4096#64) (pa + 4096#64)

/-- Whether all pages of the range are mapped now, or memory ran out on the way. -/
def mappages (m : Phys) (pagetable va size pa perm : Word) : Except Panic (Bool × Phys) :=
  if size = 0#64 then .error .mappagesSize
  else
    let a := PGROUNDDOWN va
    let last := PGROUNDDOWN (va + size - 1#64)
    mapFrom pagetable perm ((last - a).toNat / PGSIZE + 1) m a pa

/-- `if(do_free)` in `uvmunmap`. -/
def release (kend : Word) (m : Phys) (pte : Word) (doFree : Bool) : Except Panic Phys :=
  if doFree then kfree kend m (PTE2PA pte) else .ok m

/-- Once round the loop of `uvmunmap`. -/
def unmapOne (kend : Word) (m : Phys) (pagetable a : Word) (doFree : Bool) :
    Except Panic Phys := do
  match ← walk m pagetable a false with
  | (none, _) => .error .uvmunmapWalk
  | (some (page, i), m) =>
    let pte := m.word page i
    if isValid pte = false then .error .uvmunmapMapped
    else if PTE_FLAGS pte = PTE_V then .error .uvmunmapLeaf
    else do
      let m ← release kend m pte doFree
      .ok (m.set page i 0#64)

/-- The loop of `uvmunmap`, over `n` pages. -/
def unmapFrom (kend pagetable : Word) (doFree : Bool) : Nat → Phys → Word → Except Panic Phys
  | 0, m, _ => .ok m
  | n + 1, m, a => do
    unmapFrom kend pagetable doFree n (← unmapOne kend m pagetable a doFree) (a + 4096#64)

def uvmunmap (kend : Word) (m : Phys) (pagetable va npages : Word) (doFree : Bool) :
    Except Panic Phys :=
  if va.toNat % PGSIZE ≠ 0 then .error .uvmunmapAligned
  else
    let stop := va + npages * 4096#64
    unmapFrom kend pagetable doFree (if va < stop then (stop - va).toNat / PGSIZE else 0) m va

def uvmclear (m : Phys) (pagetable va : Word) : Except Panic Phys := do
  match ← walk m pagetable va false with
  | (none, _) => .error .uvmclear
  | (some (page, i), m) => .ok (m.set page i (m.word page i &&& ~~~PTE_U))

/-- An empty table, or nothing. -/
def uvmcreate (m : Phys) : Option Word × Phys :=
  let (page, m) := kalloc m
  if page = 0#64 then (none, m) else (some page, m.fill page 0#64)

end Vm

end Xv6
