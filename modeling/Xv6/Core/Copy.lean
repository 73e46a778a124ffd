import Xv6.Core.Vm

/-!
# Copies between the Kernel and User Memory

`walkaddr`, `copyout`, `copyin` and `copyinstr` of `kernel/vm.c`, over physical memory seen as
bytes. The kernel's side of a copy is a list of bytes: what `copyout` is given, and what `copyin`
and `copyinstr` store from `dst` on.

A round of the loops is one page. Every round copies a byte at least, so the length bounds the
number of rounds.
-/

namespace Xv6.Vm

namespace Phys

/-- Byte `o` of the page `pa`. -/
def byte (m : Phys) (pa : Word) (o : Nat) : UInt8 :=
  ⟨(m.word pa (Fin.ofNat 512 (o / 8)) >>> (8 * (o % 8))).setWidth 8⟩

def setByte (m : Phys) (pa : Word) (o : Nat) (b : UInt8) : Phys :=
  m.set pa (Fin.ofNat 512 (o / 8))
    ((m.word pa (Fin.ofNat 512 (o / 8)) &&& ~~~(0xFF#64 <<< (8 * (o % 8)))) |||
      (b.toBitVec.setWidth 64 <<< (8 * (o % 8))))

/-- `memmove` to the bytes of a page from `o` on. -/
def store (m : Phys) (pa : Word) : Nat → List UInt8 → Phys
  | _, [] => m
  | o, b :: l => (m.setByte pa o b).store pa (o + 1) l

/-- `memmove` of `n` bytes of a page from `o` on. -/
def load (m : Phys) (pa : Word) (o n : Nat) : List UInt8 :=
  (List.range n).map fun j => m.byte pa (o + j)

end Phys

/-- The page that a user address is on, or `0`. -/
def walkaddr (m : Phys) (pagetable va : Word) : Except Panic Word :=
  if MAXVA ≤ va.toNat then .ok 0#64
  else do
    match ← walk m pagetable va false with
    | (none, _) => .ok 0#64
    | (some (page, i), m) =>
      let pte := m.word page i
      if isValid pte = false then .ok 0#64
      else if pte &&& PTE_U = 0#64 then .ok 0#64
      else .ok (PTE2PA pte)

/-- The loop of `copyout`. The length is that of what is left of `src`. -/
def copyoutFrom (pagetable : Word) :
    (fuel : Nat) → Phys → (dstva : Word) → (src : List UInt8) → Except Panic (Bool × Phys)
  | 0, m, _, src => if 0 < src.length then .error .endless else .ok (true, m)
  | fuel + 1, m, dstva, src =>
    if 0 < src.length then do
      let va0 := PGROUNDDOWN dstva
      let pa0 ← walkaddr m pagetable va0
      if pa0 = 0#64 then .ok (false, m)
      else
        let n := min (PGSIZE - (dstva - va0).toNat) src.length
        copyoutFrom pagetable fuel (m.store pa0 (dstva - va0).toNat (src.take n))
          (va0 + 4096#64) (src.drop n)
    else .ok (true, m)

def copyout (m : Phys) (pagetable dstva : Word) (src : List UInt8) : Except Panic (Bool × Phys) :=
  copyoutFrom pagetable src.length m dstva src

/-- The loop of `copyin`, with what it stores. -/
def copyinFrom (m : Phys) (pagetable : Word) :
    (fuel : Nat) → (srcva : Word) → (len : Nat) → Except Panic (Bool × List UInt8)
  | 0, _, len => if 0 < len then .error .endless else .ok (true, [])
  | fuel + 1, srcva, len =>
    if 0 < len then do
      let va0 := PGROUNDDOWN srcva
      let pa0 ← walkaddr m pagetable va0
      if pa0 = 0#64 then .ok (false, [])
      else do
        let n := min (PGSIZE - (srcva - va0).toNat) len
        let (ok, rest) ← copyinFrom m pagetable fuel (va0 + 4096#64) (len - n)
        .ok (ok, m.load pa0 (srcva - va0).toNat n ++ rest)
    else .ok (true, [])

def copyin (m : Phys) (pagetable srcva len : Word) : Except Panic (Bool × List UInt8) :=
  copyinFrom m pagetable len.toNat srcva len.toNat

/-- The inner loop of `copyinstr` over `n` bytes of a page: whether it finds a zero, and what it
    stores. -/
def copyStr (m : Phys) (pa : Word) : (n o : Nat) → Bool × List UInt8
  | 0, _ => (false, [])
  | n + 1, o =>
    if m.byte pa o = 0 then (true, [0])
    else
      let r := copyStr m pa n (o + 1)
      (r.1, m.byte pa o :: r.2)

/-- The outer loop of `copyinstr`. -/
def copyinstrFrom (m : Phys) (pagetable : Word) :
    (fuel : Nat) → (srcva : Word) → (max : Nat) → Except Panic (Bool × List UInt8)
  | 0, _, max => if 0 < max then .error .endless else .ok (false, [])
  | fuel + 1, srcva, max =>
    if 0 < max then do
      let va0 := PGROUNDDOWN srcva
      let pa0 ← walkaddr m pagetable va0
      if pa0 = 0#64 then .ok (false, [])
      else do
        let n := min (PGSIZE - (srcva - va0).toNat) max
        let r := copyStr m pa0 n (srcva - va0).toNat
        if r.1 then .ok (true, r.2)
        else do
          let (ok, rest) ← copyinstrFrom m pagetable fuel (va0 + 4096#64) (max - n)
          .ok (ok, r.2 ++ rest)
    else .ok (false, [])

def copyinstr (m : Phys) (pagetable srcva max : Word) : Except Panic (Bool × List UInt8) :=
  copyinstrFrom m pagetable max.toNat srcva max.toNat

end Xv6.Vm
