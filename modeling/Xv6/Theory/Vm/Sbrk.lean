import Xv6.Theory.Vm.Bytes
import Xv6.Theory.Vm.Owners

/-!
# Moving the Break

`sbrk` moves the end of a process by `n` bytes. The size is a `uint64` in the process, a `uint` in
`growproc` and an `int` in `sys_sbrk`. Memory is small enough for all three, so a process grows by
what it asks for or gets `-1`, and nothing it has changes.

## Theorems

* `Vm.Memory.sbrk_exact_iff`
-/

namespace Xv6.Vm

open BitVec (eq_of_toNat_eq le_def lt_def toNat_setWidth)

theorem Pages.card_le_ram {kend : Word} {U : Multiset Word} (hU : Pages kend U)
    (hkend : KERNBASE ≤ kend) : U.card ≤ 0x8000 := by
  refine hU.card_le_of 0x80000 fun b hb => ?_
  obtain ⟨-, -, hlow, -⟩ := hU.page b hb
  have hbase : KERNBASE.toNat = 0x80000000 := rfl
  rw [le_def, hbase] at hkend
  rw [lt_def] at hlow
  simp only [PGSIZE]
  omega

namespace Memory

variable {kend trampoline : Word} {U A T : Multiset Word} {m : Phys} {p : Proc} {l : List Word}
  {n : Nat} {g : Nat → Word}

/-- The break was moved by `k` bytes, or nothing happened. -/
def Exact (m : Phys) (p : Proc) (k : BitVec 32) (res : Word × Proc × Phys) : Prop :=
  (res.1 = p.sz ∧ (res.2.1.sz.toNat : Int) = p.sz.toNat + k.toInt ∧
    (∀ a, a < p.sz.toNat → a < res.2.1.sz.toNat →
      vbyte res.2.2 p.pagetable a = vbyte m p.pagetable a) ∧
    (∀ a, pagesIn p.sz ≤ a / PGSIZE → a / PGSIZE < pagesIn res.2.1.sz →
      vbyte res.2.2 p.pagetable a = some 0) ∧
    res.2.1 = { p with sz := res.2.1.sz }) ∨
  (res.1 = -1#64 ∧ res.2.1 = p ∧
    (∀ va, va.toNat < MAXVA → lookup res.2.2 p.pagetable va = lookup m p.pagetable va) ∧
    ∀ a, vbyte res.2.2 p.pagetable a = vbyte m p.pagetable a)

theorem Has.size_lt (h : Has trampoline m p T n g) (hU : Pages kend U) (hkend : KERNBASE ≤ kend)
    (hpool : Pool U m l (T + (frames g 0 n + A))) : p.sz.toNat ≤ 2 ^ 27 := by
  have hcard := congrArg Multiset.card hpool.all
  have hle := hU.card_le_ram hkend
  simp only [Multiset.card_add, card_frames] at hcard
  have hsz := h.size
  simp only [pagesIn, PGSIZE] at hsz
  omega

variable {sz : Word}

theorem toNat_moved (hsz : sz.toNat ≤ 2 ^ 27) (k : BitVec 32) :
    (((sz.setWidth 32 + k).setWidth 64 : Word).toNat : Int) =
      if 0 ≤ (sz.toNat : Int) + k.toInt then (sz.toNat : Int) + k.toInt
      else (sz.toNat : Int) + k.toInt + 2 ^ 32 := by
  have hk := k.isLt
  rw [toNat_setWidth, BitVec.toNat_add, toNat_setWidth, BitVec.toInt_eq_toNat_cond]
  split_ifs <;> omega

theorem narrow_moved (x : BitVec 32) :
    ((x.setWidth 64).setWidth 32).setWidth 64 = (x.setWidth 64 : Word) := by
  apply eq_of_toNat_eq
  simp only [toNat_setWidth]
  omega

theorem addr_eq (hsz : sz.toNat ≤ 2 ^ 27) : (sz.setWidth 32).signExtend 64 = sz := by
  apply eq_of_toNat_eq
  rw [toNat_int (by omega)]

theorem narrow_eq (hsz : sz.toNat ≤ 2 ^ 27) : (sz.setWidth 32).setWidth 64 = sz := by
  apply eq_of_toNat_eq
  rw [toNat_setWidth, toNat_setWidth]
  omega

theorem Has.sysSbrk (h : Has trampoline m p T n g) (hU : Pages kend U) (hkend : KERNBASE ≤ kend)
    (hpool : Pool U m l (T + (frames g 0 n + A))) (k : BitVec 32)
    (hsum : 0 ≤ (p.sz.toNat : Int) + k.toInt) :
    ∃ res, Memory.sysSbrk kend m p k = .ok res ∧ Exact m p k res := by
  have hsz := h.size_lt hU hkend hpool
  have hbound := hpool.bound hU
  have hnew := toNat_moved hsz k
  rw [if_pos hsum] at hnew
  unfold Memory.sysSbrk Memory.growproc
  simp only [narrow_eq hsz, addr_eq hsz]
  by_cases hpos : 0 < k.toInt
  · rw [if_pos hpos]
    obtain ⟨sz, m', l', T', n', g', heq, hpool', hu, hsame, -, hgk, hn', hblank, hres⟩ :=
      h.user.uvmalloc hU hpool h.size ((p.sz.setWidth 32 + k).setWidth 64)
    have hbound' := hpool'.bound hU
    simp only [heq, ok_bind]
    have hsameF : ∀ j < n, m'.word (PTE2PA (g j)) = m.word (PTE2PA (g j)) := fun j hj =>
      hsame _ (Multiset.mem_add.2 (.inl (mem_frames hj)))
    rcases hres with hzero | ⟨hless, -⟩ | ⟨-, hsz'⟩
    · -- No memory: the pages are those of before.
      rw [hzero, if_pos rfl] at hn'
      subst hn'
      rw [hzero]
      refine ⟨(-1#64, p, m'), rfl, .inr ⟨rfl, rfl, fun va hva => ?_, fun a => ?_⟩⟩
      · rw [hu.space.map va hva, h.user.space.map va hva]
        unfold shape
        by_cases hlt : page va < n'
        · rw [if_pos hlt, if_pos hlt, hgk _ hlt]
        · rw [if_neg hlt, if_neg hlt]
      · by_cases hlt : a / PGSIZE < n'
        · exact h.user.vbyte_eq hu hbound hbound hlt hlt (hgk _ hlt) (hsameF _ hlt)
        · unfold vbyte
          rw [h.user.frameOf_eq hbound, hu.frameOf_eq hbound, if_neg hlt, if_neg hlt]
          rfl
    · rw [lt_def] at hless
      omega
    · have hne : sz ≠ 0#64 := fun hz => by
        rw [hz] at hsz'
        rw [← hsz'] at hnew
        simp only [BitVec.toNat_ofNat, Nat.zero_mod] at hnew
        omega
      rw [if_neg hne] at hn'
      have hback : (sz.setWidth 32).setWidth 64 = sz := by
        rw [hsz']
        exact narrow_moved _
      have hne32 : sz.setWidth 32 ≠ 0#32 := fun hz => hne (by rw [← hback, hz]; rfl)
      rw [if_neg hne32]
      rw [← hsz'] at hnew
      refine ⟨(p.sz, { p with sz := (sz.setWidth 32).setWidth 64 }, m'), rfl,
        .inl ⟨rfl, ?_, fun a ha _ => ?_, fun a h1 h2 => ?_, rfl⟩⟩
      · rw [hback]
        exact hnew
      · have hlt : a / PGSIZE < n := by
          have hs := h.size
          simp only [pagesIn, PGSIZE] at *
          omega
        have hlt' : a / PGSIZE < n' := by
          rw [hn']
          simp only [pagesIn, PGSIZE] at *
          omega
        exact h.user.vbyte_eq hu hbound hbound' hlt hlt' (hgk _ hlt) (hsameF _ hlt)
      · rw [hback, ← hn'] at h2
        rw [h.size] at h1
        exact hu.vbyte_blank hbound' h2 (hblank _ h1 h2)
  · rw [if_neg hpos]
    by_cases hneg : k.toInt < 0
    · rw [if_pos hneg]
      obtain ⟨m', l', heq, hpool', hu, hsame, -⟩ :=
        h.user.uvmdealloc hU hpool h.size ((p.sz.setWidth 32 + k).setWidth 64)
      have hless : ¬ p.sz ≤ (p.sz.setWidth 32 + k).setWidth 64 := by
        rw [le_def]
        omega
      rw [if_neg hless] at heq hpool' hu hsame
      have hbound' := hpool'.bound hU
      simp only [heq, ok_bind, narrow_moved]
      refine ⟨_, rfl, .inl ⟨rfl, hnew, fun a _ ha => ?_, fun a h1 h2 => ?_, rfl⟩⟩
      · have hlt' : a / PGSIZE < pagesIn ((p.sz.setWidth 32 + k).setWidth 64) := by
          simp only [pagesIn, PGSIZE] at *
          omega
        have hlt : a / PGSIZE < n := by
          rw [← h.size]
          simp only [pagesIn, PGSIZE] at *
          omega
        exact h.user.vbyte_eq hu hbound hbound' hlt hlt' rfl
          (hsame _ (Multiset.mem_add.2 (.inl (mem_frames hlt'))))
      · simp only [pagesIn, PGSIZE] at *
        omega
    · rw [if_neg hneg]
      have hzero : k.toInt = 0 := by omega
      refine ⟨_, rfl, .inl ⟨rfl, ?_, fun a _ _ => rfl, fun a h1 h2 => ?_, rfl⟩⟩
      · rw [hzero]
        exact (add_zero _).symm
      · exact absurd h1 (Nat.not_le.2 h2)

theorem Has.sysSbrk_below (h : Has trampoline m p T n g) (hU : Pages kend U)
    (hkend : KERNBASE ≤ kend) (hpool : Pool U m l (T + (frames g 0 n + A))) (k : BitVec 32)
    (hsum : (p.sz.toNat : Int) + k.toInt < 0) : Memory.sysSbrk kend m p k = .ok (p.sz, p, m) := by
  have hsz := h.size_lt hU hkend hpool
  have hnew := toNat_moved hsz k
  rw [if_neg (by omega)] at hnew
  have hk : -(2 ^ 31) ≤ k.toInt := by
    have := k.isLt
    rw [BitVec.toInt_eq_toNat_cond]
    split_ifs <;> omega
  have hle : p.sz ≤ (p.sz.setWidth 32 + k).setWidth 64 := by
    rw [le_def]
    omega
  unfold Memory.sysSbrk Memory.growproc
  simp only [narrow_eq hsz, addr_eq hsz]
  rw [if_neg (by omega), if_pos (by omega), uvmdealloc, if_pos hle]
  simp only [ok_bind, narrow_eq hsz]

/-! ## From every state -/

section Reachable

variable {K : Type} [DecidableEq K] [Fintype K] {s : Sys K} {m0 : Phys} {i : Fin NPROC}

/-- Whatever the processes have in their pages, `sbrk` moves the break by `k` or does nothing,
    exactly when the size it is asked for is not negative. -/
theorem sbrk_exact_iff {l0 : List Word} (hchain : Chain m0 m0.freelist l0)
    (hU : Pages kend (l0 : Multiset Word)) (hkend : KERNBASE ≤ kend)
    (hs : Reachable kend trampoline m0 s) (hi : (s.procs i).state ≠ .unused) (hm : Touched s m)
    (k : BitVec 32) :
    (∃ res, Memory.sysSbrk kend m (s.procs i) k = .ok res ∧ Exact m (s.procs i) k res) ↔
      0 ≤ ((s.procs i).sz.toNat : Int) + k.toInt := by
  obtain ⟨l, T, n, g, hinv⟩ := inv_reachable hchain hU hs
  obtain ⟨hhas, hpool⟩ := hinv.touched hU hi hm
  refine ⟨fun ⟨res, hres, hexact⟩ => ?_, hhas.sysSbrk hU hkend hpool k⟩
  by_contra hneg
  rw [hhas.sysSbrk_below hU hkend hpool k (by omega)] at hres
  cases hres
  -- It returned the size, which is no `-1`, and the size is not the sum.
  have hsz := hhas.size_lt hU hkend hpool
  rcases hexact with ⟨-, hsum, -⟩ | ⟨hret, -⟩
  · dsimp only at hsum
    omega
  · dsimp only at hret
    rw [hret] at hsz
    exact absurd hsz (by decide)

end Reachable

theorem userinit_sz : ∃ p m', userinit KERNBASE KERNBASE tenFree = .ok (true, p, m') ∧
    p.state = .used ∧ p.sz = 4096#64 := ⟨_, _, rfl, rfl, rfl⟩

/-- It gets two more, or is told that there are none. -/
theorem sbrk_exact_first : ∃ p m', userinit KERNBASE KERNBASE tenFree = .ok (true, p, m') ∧
    ∃ res, Memory.sysSbrk KERNBASE m' p 8192#32 = .ok res ∧ Exact m' p 8192#32 res := by
  obtain ⟨p, m', hinit, hstate, hsz⟩ := userinit_sz
  have hused : p.state ≠ .unused := by
    rw [hstate]
    decide
  refine ⟨p, m', hinit, ?_⟩
  refine (sbrk_exact_iff (K := Bool) (s := start m' p) (i := ⟨0, by decide⟩) chain_tenFree
    pages_tenFree (by decide) (.start hinit) hused ⟨rfl, fun _ _ _ => rfl⟩ 8192#32).2 ?_
  show 0 ≤ (p.sz.toNat : Int) + _
  rw [hsz]
  decide

/-- It gives two back, of the one it has: the call returns its size, which is still the same. -/
theorem sbrk_below_first : ∃ p m', userinit KERNBASE KERNBASE tenFree = .ok (true, p, m') ∧
    Memory.sysSbrk KERNBASE m' p (-8192#32) = .ok (4096#64, p, m') ∧
    ¬ ∃ res, Memory.sysSbrk KERNBASE m' p (-8192#32) = .ok res ∧ Exact m' p (-8192#32) res := by
  obtain ⟨p, m', hinit, hstate, hsz⟩ := userinit_sz
  have hused : p.state ≠ .unused := by
    rw [hstate]
    decide
  obtain ⟨l, T, n, g, hinv⟩ := inv_reachable (K := Bool) chain_tenFree pages_tenFree (.start hinit)
  have hhas := hinv.has ⟨0, by decide⟩ hused
  have hcall := hhas.sysSbrk_below pages_tenFree (by decide) (hinv.split hused) (-8192#32) (by
    show (p.sz.toNat : Int) + _ < 0
    rw [hsz]
    decide)
  change Memory.sysSbrk KERNBASE m' p (-8192#32) = .ok (p.sz, p, m') at hcall
  refine ⟨p, m', hinit, hsz ▸ hcall, ?_⟩
  rintro ⟨res, hres, hexact⟩
  rw [hcall] at hres
  cases hres
  rcases hexact with ⟨-, hsum, -⟩ | ⟨hret, -⟩
  · rw [hsz] at hsum
    exact absurd hsum (by decide)
  · rw [hsz] at hret
    exact absurd (show 4096#64 = -1#64 from hret) (by decide)

end Memory

end Xv6.Vm
