import Mathlib.Algebra.Order.Group.Multiset
import Xv6.Theory.Vm.Lifetime

/-!
# System Calls and Pages

What `sbrk`, `fork`, `exec` and `wait` do to the pages of memory, for one process among others.
`A` are the pages of all others throughout. A call that fails leaves `A` and the pages of the
process as they were, apart from pages that its table has grown by.

## Theorems

* `Vm.Memory.Has.fork`, `Vm.Memory.Has.sysExec`: nothing happens, or a new space
-/

namespace Xv6.Vm.Memory

open Function (update update_of_ne update_self)
open Multiset (add_cons mem_cons_of_mem)

/-- The memory of a process: `n` pages with entries `g`, in a table with pages `T`. -/
structure Has (trampoline : Word) (m : Phys) (p : Proc) (T : Multiset Word) (n : Nat)
    (g : Nat → Word) : Prop where
  user : User trampoline p.trapframe m p.pagetable T n g
  size : pagesIn p.sz = n
  trapframe : p.trapframe ≠ 0#64
  pagetable : p.pagetable ≠ 0#64

variable {kend trampoline trapframe : Word} {U A F T : Multiset Word} {m m' : Phys} {p : Proc}
  {r a pa sz : Word} {l : List Word} {n : Nat} {g : Nat → Word}

namespace Has

section

variable (h : Has trampoline m p T n g)

include h

theorem congr (hs : Same m m' T) : Has trampoline m' p T n g :=
  ⟨h.user.congr hs, h.size, h.trapframe, h.pagetable⟩

theorem narrow (hn : n ≤ 0x88000) :
    (p.sz.setWidth 32).setWidth 64 = p.sz := by
  have hlt : p.sz.toNat < 2 ^ 32 := by
    have hsz := h.size
    simp only [pagesIn, PGSIZE] at hsz
    omega
  apply BitVec.eq_of_toNat_eq
  rw [BitVec.toNat_setWidth, BitVec.toNat_setWidth]
  omega

theorem growproc (hU : Pages kend U)
    (hpool : Pool U m l (T + (frames g 0 n + A))) (k : BitVec 32) :
    ∃ res m' l' T' n' g', Memory.growproc kend m p k = .ok (res, m') ∧
      Pool U m' l' (T' + (frames g' 0 n' + A)) ∧
      User trampoline p.trapframe m' p.pagetable T' n' g' ∧ Same m m' A ∧
      Grows m m' p.pagetable ∧ (res = none → n' = n ∧ ∀ j < n, g' j = g j) ∧
      ∀ sz, res = some sz → pagesIn sz = n' := by
  have hnarrow := h.narrow (hpool.bound hU)
  have hwide : ∀ x : BitVec 32, ((x.setWidth 64).setWidth 32).setWidth 64 = x.setWidth 64 := by
    intro x
    apply BitVec.eq_of_toNat_eq
    simp only [BitVec.toNat_setWidth]
    omega
  unfold Memory.growproc
  simp only [hnarrow]
  by_cases hpos : 0 < k.toInt
  · rw [if_pos hpos]
    obtain ⟨sz, m', l', T', n', g', heq, hpool', hu, hsame, hg, hgk, hn', -, hsz⟩ :=
      h.user.uvmalloc hU hpool h.size ((p.sz.setWidth 32 + k).setWidth 64)
    simp only [heq, ok_bind]
    -- the size that comes back is one of a `uint`
    have hback : (sz.setWidth 32).setWidth 64 = sz := by
      rcases hsz with rfl | ⟨-, rfl⟩ | ⟨-, rfl⟩
      · rfl
      · exact hnarrow
      · exact hwide _
    by_cases hz : sz.setWidth 32 = 0#32
    · rw [if_pos hz]
      have hzero : sz = 0#64 := by
        rw [← hback, hz]
        rfl
      rw [if_pos hzero] at hn'
      exact ⟨none, m', l', T', n', g', rfl, hpool', hu, hsame.right, hg, fun _ => ⟨hn', hgk⟩,
        fun _ hx => by cases hx⟩
    · rw [if_neg hz]
      have hne : sz ≠ 0#64 := by
        rintro rfl
        exact hz rfl
      rw [if_neg hne] at hn'
      refine ⟨some _, m', l', T', n', g', rfl, hpool', hu, hsame.right, hg,
        fun hx => (by cases hx), ?_⟩
      intro sz' hsz'
      rw [← Option.some.inj hsz', hback, hn']
  · rw [if_neg hpos]
    by_cases hneg : k.toInt < 0
    · rw [if_pos hneg]
      obtain ⟨m', l', heq, hpool', hu, hsame, hg⟩ :=
        h.user.uvmdealloc hU hpool h.size ((p.sz.setWidth 32 + k).setWidth 64)
      simp only [heq, ok_bind]
      refine ⟨some _, m', l', T, _, g, rfl, hpool', hu, hsame.right, hg,
        fun hx => (by cases hx), ?_⟩
      intro sz' hsz'
      rw [← Option.some.inj hsz']
      split_ifs
      · rw [hnarrow]
      · rw [hwide]
    · rw [if_neg hneg]
      refine ⟨some _, m, l, T, n, g, rfl, hpool, h.user, Same.refl, Grows.refl,
        fun hx => (by cases hx), ?_⟩
      intro sz' hsz'
      rw [← Option.some.inj hsz', h.size]

theorem freeproc (hU : Pages kend U)
    (hpool : Pool U m l (T + (frames g 0 n + (p.trapframe ::ₘ A)))) :
    ∃ m' l', Memory.freeproc kend m p = .ok m' ∧ Pool U m' l' A ∧ Same m m' A := by
  have hcast : T + (frames g 0 n + (p.trapframe ::ₘ A)) =
      p.trapframe ::ₘ (T + (frames g 0 n + A)) := by
    rw [add_cons, add_cons]
  obtain ⟨m1, hk, hpool1, hsame1⟩ := (hpool.cast hcast).kfree hU
  obtain ⟨m', l', heq, hpool', hsame'⟩ :=
    (h.user.congr hsame1.left).procFreepagetable hU hpool1 h.size
  refine ⟨m', l', ?_, hpool', hsame1.right.right.trans hsame'⟩
  unfold Memory.freeproc freeTrapframe
  rw [if_neg h.trapframe, hk, ok_bind, if_neg h.pagetable, heq]

end

end Has

theorem freeproc_none : freeproc kend m {} = .ok m := rfl

theorem allocproc_spec (trampoline : Word) (hU : Pages kend U) (hpool : Pool U m l A)
    (g : Nat → Word) :
    ∃ res m' l', allocproc kend trampoline m = .ok (res, m') ∧ Same m m' A ∧
      (res = none → Pool U m' l' A) ∧
      ∀ p, res = some p → p.state = .used ∧ ∃ T, Has trampoline m' p T 0 g ∧
        Pool U m' l' (T + (frames g 0 0 + (p.trapframe ::ₘ A))) := by
  unfold allocproc
  rcases hpool.kalloc hU with ⟨-, hk⟩ | ⟨tf, m1, l1, -, hk, hne, hpool1, hsame1⟩
  · rw [hk]
    simp only [if_true, freeproc_none, ok_bind]
    exact ⟨none, m, l, rfl, Same.refl, fun _ => hpool, fun p hp => by cases hp⟩
  · rw [hk]
    simp only [hne, if_false]
    obtain ⟨res, m2, l2, heq, hsame2, hnone, hsome⟩ := procPagetable_spec trampoline tf hU hpool1 g
    have hsame : Same m m2 A := by
      intro b hb
      rw [hsame2 b (mem_cons_of_mem hb), hsame1 b hb]
    simp only [heq, ok_bind]
    cases res with
    | none =>
      -- `freeproc` gives back the trapframe, the only page the slot has.
      obtain ⟨m3, hk3, hpool3, hsame3⟩ := (hnone rfl).kfree hU
      have hfree : freeproc kend m2 { trapframe := tf } = .ok m3 := by
        unfold freeproc freeTrapframe
        simp only [hne, if_false, hk3, ok_bind, if_true]
      simp only [hfree, ok_bind]
      exact ⟨none, m3, tf :: l2, rfl, hsame.trans hsame3, fun _ => hpool3, fun p hp => by cases hp⟩
    | some r =>
      obtain ⟨hr, T, hpool3, hu⟩ := hsome r rfl
      refine ⟨some _, m2, l2, rfl, hsame, fun hx => (by cases hx), ?_⟩
      intro p hp
      rw [← Option.some.inj hp]
      exact ⟨rfl, T, ⟨hu, show pagesIn 0#64 = 0 by decide, hne, hr⟩, hpool3⟩

namespace Has

theorem fork (h : Has trampoline m p T n g) (hU : Pages kend U) (hpool : Pool U m l A)
    (hT : ∀ b ∈ T, b ∈ A) (hn : n ≤ 0x88000) :
    ∃ res m' l', Memory.fork kend trampoline m p = .ok (res, m') ∧ Same m m' A ∧
      (res = none → Pool U m' l' A) ∧
      ∀ np, res = some np → np.state = .used ∧ ∃ T' g', Has trampoline m' np T' n g' ∧
        Pool U m' l' (T' + (frames g' 0 n + (np.trapframe ::ₘ A))) := by
  unfold Memory.fork
  obtain ⟨res, m1, l1, heq1, hsame1, hnone1, hsome1⟩ := allocproc_spec trampoline hU hpool g
  simp only [heq1, ok_bind]
  cases res with
  | none => exact ⟨none, m1, l1, rfl, hsame1, hnone1, fun np hp => by cases hp⟩
  | some np =>
    obtain ⟨hstate, T1, h1, hpool1⟩ := hsome1 np rfl
    rcases h1.user.uvmcopy hU (h.congr fun b hb => hsame1 b (hT b hb)).user
      (fun b hb => mem_cons_of_mem (hT b hb)) h.size hn hpool1 with
      ⟨done, m2, l2, T2, g2, heq2, hpool2, hu2, hsame2, -⟩
    have hsame2A : Same m m2 A := by
      intro b hb
      rw [hsame2 b (mem_cons_of_mem hb), hsame1 b hb]
    simp only [heq2, ok_bind]
    cases done with
    | false =>
      rw [if_neg Bool.false_ne_true] at hpool2 hu2
      have h2 : Has trampoline m2 np T2 0 g2 := ⟨hu2, h1.size, h1.trapframe, h1.pagetable⟩
      obtain ⟨m3, l3, heq3, hpool3, hsame3⟩ := h2.freeproc hU hpool2
      simp only [heq3, ok_bind]
      exact ⟨none, m3, l3, rfl, hsame2A.trans hsame3, fun _ => hpool3, fun np hp => by cases hp⟩
    | true =>
      rw [if_pos rfl] at hpool2 hu2
      -- the trapframe of the child is a page of its own
      have hword : ∀ b, b ≠ np.trapframe →
          ((m2.copy np.trapframe p.trapframe).set np.trapframe 14 0#64).word b = m2.word b := by
        intro b hb
        funext j
        rw [word_set, if_neg (fun hx => hb hx.1)]
        simp only [Phys.copy, update_of_ne hb]
      have hcast : T2 + (frames g2 0 n + (np.trapframe ::ₘ A)) =
          np.trapframe ::ₘ (T2 + (frames g2 0 n + A)) := by
        rw [add_cons, add_cons]
      obtain ⟨hpool3, hu3, hsame3⟩ := hu2.fresh _ hU (hpool2.cast hcast) hword rfl
      refine ⟨some _, _, l2, rfl, hsame2A.trans hsame3.right.right, fun hx => (by cases hx), ?_⟩
      intro np' hnp
      rw [← Option.some.inj hnp]
      exact ⟨hstate, T2, g2, ⟨hu3, h.size, h1.trapframe, h1.pagetable⟩, hpool3.cast hcast.symm⟩

end Has

theorem loadFrom_spec (hU : Pages kend U) (phs : List (Option Segment))
    (h : User trampoline trapframe m r T n g)
    (hpool : Pool U m l (T + (frames g 0 n + A))) (hsz : pagesIn sz = n) :
    ∃ ok sz' m' l' T' n' g', loadFrom kend r phs m sz = .ok (ok, sz', m') ∧
      Pool U m' l' (T' + (frames g' 0 n' + A)) ∧ User trampoline trapframe m' r T' n' g' ∧
      Same m m' A ∧ pagesIn sz' = n' := by
  induction phs generalizing m l T n g sz with
  | nil => exact ⟨true, sz, m, l, T, n, g, rfl, hpool, h, Same.refl, hsz⟩
  | cons ph phs ih =>
    cases ph with
    | none => exact ⟨false, sz, m, l, T, n, g, rfl, hpool, h, Same.refl, hsz⟩
    | some ph =>
      -- Where the loop gives up before it has changed anything.
      have hstay : ∀ x : Except Panic (Bool × Word × Phys), x = .ok (false, sz, m) →
          ∃ ok sz' m' l' T' n' g', x = .ok (ok, sz', m') ∧
            Pool U m' l' (T' + (frames g' 0 n' + A)) ∧
            User trampoline trapframe m' r T' n' g' ∧ Same m m' A ∧ pagesIn sz' = n' :=
        fun x hx => ⟨false, sz, m, l, T, n, g, hx, hpool, h, Same.refl, hsz⟩
      simp only [loadFrom]
      by_cases hload : ph.load = false
      · rw [if_pos hload]
        exact ih h hpool hsz
      · rw [if_neg hload]
        by_cases hmem : ph.memsz < ph.filesz
        · exact hstay _ (if_pos hmem)
        · rw [if_neg hmem]
          by_cases hwrap : ph.vaddr + ph.memsz < ph.vaddr
          · exact hstay _ (if_pos hwrap)
          · rw [if_neg hwrap]
            -- The segment is allocated before its address is found to be bad.
            obtain ⟨sz1, m1, l1, T1, n1, g1, heq, hpool1, h1, hsame, -, -, hn1, -, -⟩ :=
              h.uvmalloc hU hpool hsz (ph.vaddr + ph.memsz)
            have hsame1 := hsame.right
            simp only [heq, ok_bind]
            by_cases hz : sz1 = 0#64
            · rw [if_pos hz] at hn1 ⊢
              exact ⟨false, sz, m1, l1, T1, n1, g1, rfl, hpool1, h1, hsame1, hsz.trans hn1.symm⟩
            · rw [if_neg hz] at hn1 ⊢
              by_cases hbad : ph.vaddr.toNat % PGSIZE ≠ 0 ∨ ph.read = false
              · rw [if_pos hbad]
                exact ⟨false, sz1, m1, l1, T1, n1, g1, rfl, hpool1, h1, hsame1, hn1.symm⟩
              · rw [if_neg hbad]
                obtain ⟨ok, sz', m', l', T', n', g', heq', hpool', h', hsame', hsz'⟩ :=
                  ih h1 hpool1 hn1.symm
                exact ⟨ok, sz', m', l', T', n', g', heq', hpool', h', hsame1.trans hsame', hsz'⟩

theorem execBad_spec (h : User trampoline trapframe m r T n g) (hU : Pages kend U)
    (hpool : Pool U m l (T + (frames g 0 n + A))) (hsz : pagesIn sz = n) :
    ∃ m' l', execBad kend m r sz = .ok (none, m') ∧ Pool U m' l' A ∧ Same m m' A := by
  obtain ⟨m', l', heq, hpool', hsame⟩ := h.procFreepagetable hU hpool hsz
  refine ⟨m', l', ?_, hpool', hsame⟩
  unfold execBad
  rw [heq, ok_bind]

theorem clear_spec (h : User trampoline trapframe m r T n g) (hU : Pages kend U)
    (hpool : Pool U m l (T + (frames g 0 n + A))) {k : Nat} (hk : k < n) (ha : At a k) :
    ∃ m' g', uvmclear m r a = .ok m' ∧ Pool U m' l (T + (frames g' 0 n + A)) ∧
      User trampoline trapframe m' r T n g' ∧ Same m m' (frames g 0 n + A) ∧
      (∀ j, j ≠ k → g' j = g j) ∧ g' k &&& PTE_U = 0#64 := by
  have hbound := hpool.bound hU
  rcases h.space.uvmclear (a := a) hU hpool (ha.lt (by omega))
    (show shape trampoline trapframe n g (page a) = some (g k) by
      rw [ha.page]
      exact shape_of_lt hk) with ⟨m', heq, hpool', hspace, hsame⟩
  have hframes : frames (update g k (g k &&& ~~~PTE_U)) 0 n = frames g 0 n := by
    unfold frames
    congr 1
    refine List.map_congr_left fun j _ => ?_
    by_cases hj : j = k
    · rw [hj, update_self, frame_clear]
    · rw [update_of_ne hj]
  have hshape : update (shape trampoline trapframe n g) k (some (g k &&& ~~~PTE_U)) =
      shape trampoline trapframe n (update g k (g k &&& ~~~PTE_U)) := by
    funext j
    simp only [Function.update_apply, shape]
    by_cases hj : j = k
    · rw [if_pos hj, if_pos (by omega), if_pos hj]
    · rw [if_neg hj, if_neg hj]
  rw [ha.page, hshape] at hspace
  refine ⟨m', update g k (g k &&& ~~~PTE_U), heq, ?_, ⟨hspace, ?_⟩, hsame,
    fun j hj => update_of_ne hj _ _, ?_⟩
  · rw [hframes]
    exact hpool'
  · intro j hj
    by_cases hjk : j = k
    · rw [hjk, update_self]
      exact (h.leaf k hk).clear
    · rw [update_of_ne hjk]
      exact h.leaf j hj
  · rw [update_self, BitVec.and_assoc, show ~~~PTE_U &&& PTE_U = 0#64 by decide, BitVec.and_zero]

namespace Has

variable {T₁ : Multiset Word} {n₁ : Nat} {g₁ : Nat → Word}

variable (trampoline U A T m p n g) in
/-- `exec` fails and leaves all pages as they were, or gives the process a new space. -/
abbrev Replaces (e : Except Panic (Option Proc × Phys)) : Prop :=
  ∃ res m' l', e = .ok (res, m') ∧
    (res = none → Pool U m' l' (T + (frames g 0 n + A)) ∧ Same m m' (T + (frames g 0 n + A))) ∧
    Same m m' A ∧ ∀ np, res = some np → np.state = p.state ∧ np.trapframe = p.trapframe ∧
      ∃ T' n' g', Has trampoline m' np T' n' g' ∧ Pool U m' l' (T' + (frames g' 0 n' + A))

/-- `exec` from the stack on, with the new table at `r`. The old one is given back at the end, or
    the new one is. -/
theorem execStack (h : Has trampoline m p T n g) (hU : Pages kend U)
    (h1 : User trampoline p.trapframe m r T₁ n₁ g₁) (hr : r ≠ 0#64)
    (hpool : Pool U m l (T₁ + (frames g₁ 0 n₁ + (T + (frames g 0 n + A))))) (hsz : At sz n₁)
    (args : Bool) : Replaces trampoline U A T m p n g (Memory.execStack kend m p r sz args) := by
  have hbound := hpool.bound hU
  unfold Memory.execStack
  obtain ⟨sz1, m1, l1, T1, n1, g1, heq, hpool1, hu1, hsame, -, -, hn1, -, hsz1⟩ :=
    h1.uvmalloc hU hpool hsz.pagesIn (sz + 8192#64)
  have hsame1 := hsame.right
  simp only [heq, ok_bind]
  by_cases hz : sz1 = 0#64
  · rw [if_pos hz] at hn1 ⊢
    obtain ⟨m2, l2, heq2, hpool2, hsame2⟩ := execBad_spec hu1 hU hpool1 (hsz.pagesIn.trans hn1.symm)
    exact ⟨none, m2, l2, heq2, fun _ => ⟨hpool2, hsame1.trans hsame2⟩,
      (hsame1.trans hsame2).right.right, fun np hp => by cases hp⟩
  · rw [if_neg hz] at hn1 ⊢
    have hat := hsz.stack hbound hz hsz1
    rw [hat.pagesIn] at hn1
    subst hn1
    obtain ⟨m2, g2, heq2, hpool2, hu2, hsame2, -, -⟩ :=
      clear_spec hu1 hU hpool1 (by omega) hat.guard
    have hsame02 := hsame1.trans hsame2.right
    simp only [heq2, ok_bind]
    cases args with
    | false =>
      rw [if_pos rfl]
      obtain ⟨m3, l3, heq3, hpool3, hsame3⟩ := execBad_spec hu2 hU hpool2 hat.pagesIn
      exact ⟨none, m3, l3, heq3, fun _ => ⟨hpool3, hsame02.trans hsame3⟩,
        (hsame02.trans hsame3).right.right, fun np hp => by cases hp⟩
    | true =>
      rw [if_neg (by decide)]
      -- The old memory goes last, once nothing can fail any more.
      have hcast : T1 + (frames g2 0 (n₁ + 2) + (T + (frames g 0 n + A))) =
          T + (frames g 0 n + (T1 + (frames g2 0 (n₁ + 2) + A))) := by
        ac_rfl
      obtain ⟨m3, l3, heq3, hpool3, hsame3⟩ :=
        (h.user.congr hsame02.left).procFreepagetable hU (hpool2.cast hcast) h.size
      simp only [heq3, ok_bind]
      refine ⟨some _, m3, l3, rfl, fun hx => (by cases hx),
        hsame02.right.right.trans hsame3.right.right, ?_⟩
      intro np hnp
      rw [← Option.some.inj hnp]
      exact ⟨rfl, rfl, T1, n₁ + 2, g2, ⟨hu2.congr hsame3.left, hat.pagesIn, h.trapframe, hr⟩,
        hpool3⟩

theorem exec (h : Has trampoline m p T n g) (hU : Pages kend U)
    (hpool : Pool U m l (T + (frames g 0 n + A))) (image : Image) :
    Replaces trampoline U A T m p n g (Memory.exec kend trampoline m p image) := by
  unfold Memory.exec
  cases image.header with
  | false =>
    rw [if_pos rfl]
    exact ⟨none, m, l, rfl, fun _ => ⟨hpool, Same.refl⟩, Same.refl, fun np hp => by cases hp⟩
  | true =>
    rw [if_neg (by decide)]
    rcases procPagetable_spec trampoline p.trapframe hU hpool
      (fun _ => 0#64) with ⟨res, m1, l1, heq1, hsame1, hnone1, hsome1⟩
    simp only [heq1, ok_bind]
    cases res with
    | none =>
      exact ⟨none, m1, l1, rfl, fun _ => ⟨hnone1 rfl, hsame1⟩, hsame1.right.right,
        fun np hp => by cases hp⟩
    | some r =>
      obtain ⟨hr, T1, hpool1, hu1⟩ := hsome1 r rfl
      -- From here on both memories exist, the old one among the pages of others.
      rcases loadFrom_spec hU image.segments hu1 hpool1
        (show pagesIn 0#64 = 0 by decide) with
        ⟨ok, sz, m2, l2, T2, n2, g2, heq2, hpool2, hu2, hsame2, hsz2⟩
      have hsame02 := hsame1.trans hsame2
      simp only [heq2, ok_bind]
      cases ok with
      | false =>
        obtain ⟨m3, l3, heq3, hpool3, hsame3⟩ := execBad_spec hu2 hU hpool2 hsz2
        exact ⟨none, m3, l3, heq3, fun _ => ⟨hpool3, hsame02.trans hsame3⟩,
          (hsame02.trans hsame3).right.right, fun np hp => by cases hp⟩
      | true =>
        have hbound := hpool2.bound hU
        -- The stack starts at a page, whatever the last segment ended at.
        have hat : At (PGROUNDUP sz) n2 := by
          rw [← hsz2]
          refine at_PGROUNDUP _ ?_
          simp only [pagesIn, PGSIZE] at hsz2
          omega
        obtain ⟨res, m3, l3, heq3, hnone3, hsame3, hsome3⟩ :=
          (h.congr hsame02.left).execStack hU hu2 hr hpool2 hat image.args
        refine ⟨res, m3, l3, heq3, ?_, hsame02.right.right.trans hsame3, hsome3⟩
        intro hres
        exact ⟨(hnone3 hres).1, hsame02.trans (hnone3 hres).2⟩

end Has

variable {argv : List Word}

theorem fetchArgs_spec (hU : Pages kend U) (last : Bool) (args : List Bool)
    (hpool : Pool U m l ((argv : Multiset Word) + A)) :
    ∃ ok argv' m' l', fetchArgs last args m argv = (ok, argv', m') ∧
      Pool U m' l' ((argv' : Multiset Word) + A) ∧ Same m m' A := by
  induction args generalizing m l argv with
  | nil => exact ⟨_, argv, m, l, rfl, hpool, Same.refl⟩
  | cons arg args ih =>
    simp only [fetchArgs]
    by_cases hmax : MAXARG ≤ argv.length
    · rw [if_pos hmax]
      exact ⟨false, argv, m, l, rfl, hpool, Same.refl⟩
    · rw [if_neg hmax]
      rcases hpool.kalloc hU with ⟨-, hk⟩ | ⟨mem, m1, l1, -, hk, hne, hpool1, hsame1⟩
      · simp only [hk, if_true]
        exact ⟨false, argv, m, l, rfl, hpool, Same.refl⟩
      · have hcast : mem ::ₘ ((argv : Multiset Word) + A) =
            ((argv ++ [mem] : List Word) : Multiset Word) + A := by
          rw [← Multiset.coe_add, Multiset.coe_singleton, ← Multiset.singleton_add]
          ac_rfl
        simp only [hk, hne, if_false]
        cases arg with
        | false => exact ⟨false, _, m1, l1, rfl, hpool1.cast hcast, hsame1.right⟩
        | true =>
          rw [if_neg (by decide)]
          obtain ⟨ok, argv', m', l', heq, hpool', hsame'⟩ := ih (hpool1.cast hcast)
          exact ⟨ok, argv', m', l', heq, hpool', hsame1.right.trans hsame'⟩

theorem freeArgs_spec (hU : Pages kend U)
    (hpool : Pool U m l ((argv : Multiset Word) + A)) :
    ∃ m' l', argv.foldlM (kfree kend) m = .ok m' ∧ Pool U m' l' A ∧ Same m m' A := by
  induction argv generalizing m l with
  | nil => exact ⟨m, l, rfl, hpool.cast (Multiset.zero_add A), Same.refl⟩
  | cons mem argv ih =>
    have hcast : ((mem :: argv : List Word) : Multiset Word) + A =
        mem ::ₘ ((argv : Multiset Word) + A) := by
      rw [← Multiset.cons_coe, Multiset.cons_add]
    obtain ⟨m1, hk, hpool1, hsame1⟩ := (hpool.cast hcast).kfree hU
    obtain ⟨m', l', heq, hpool', hsame'⟩ := ih hpool1
    refine ⟨m', l', ?_, hpool', hsame1.right.trans hsame'⟩
    rw [List.foldlM_cons, hk, ok_bind, heq]

namespace Has

theorem sysExec (h : Has trampoline m p T n g) (hU : Pages kend U)
    (hpool : Pool U m l (T + (frames g 0 n + A))) (args : List Bool) (last : Bool) (image : Image) :
    Replaces trampoline U A T m p n g (Memory.sysExec kend trampoline m p args last image) := by
  unfold Memory.sysExec
  rcases fetchArgs_spec hU last args
    (hpool.cast (F := (([] : List Word) : Multiset Word) + _) (Multiset.zero_add _).symm) with
    ⟨ok, argv, m1, l1, heq1, hpool1, hsame1⟩
  simp only [heq1]
  cases ok with
  | false =>
    obtain ⟨m2, l2, heq2, hpool2, hsame2⟩ := freeArgs_spec hU hpool1
    simp only [heq2, ok_bind]
    exact ⟨none, m2, l2, rfl, fun _ => ⟨hpool2, hsame1.trans hsame2⟩,
      (hsame1.trans hsame2).right.right, fun np hp => by cases hp⟩
  | true =>
    -- While `exec` runs, the pages of the arguments are somebody else's.
    have hcast : (argv : Multiset Word) + (T + (frames g 0 n + A)) =
        T + (frames g 0 n + ((argv : Multiset Word) + A)) := by
      ac_rfl
    obtain ⟨res, m2, l2, heq2, hnone2, hsame2, hsome2⟩ :=
      (h.congr hsame1.left).exec hU (hpool1.cast hcast) image
    simp only [heq2, ok_bind]
    cases res with
    | none =>
      obtain ⟨hpool2, hsameAll⟩ := hnone2 rfl
      obtain ⟨m3, l3, heq3, hpool3, hsame3⟩ := freeArgs_spec hU (hpool2.cast hcast.symm)
      have hall : Same m m3 (T + (frames g 0 n + A)) := by
        intro b hb
        rw [hsame3 b hb, hsameAll b, hsame1 b hb]
        rw [← hcast]
        exact Multiset.mem_add.2 (.inr hb)
      simp only [heq3, ok_bind]
      exact ⟨none, m3, l3, rfl, fun _ => ⟨hpool3, hall⟩, hall.right.right, fun np hp => by cases hp⟩
    | some np =>
      obtain ⟨hstate, htf, T', n', g', h', hpool2⟩ := hsome2 np rfl
      have hcast' : T' + (frames g' 0 n' + ((argv : Multiset Word) + A)) =
          (argv : Multiset Word) + (T' + (frames g' 0 n' + A)) := by
        ac_rfl
      obtain ⟨m3, l3, heq3, hpool3, hsame3⟩ := freeArgs_spec hU (hpool2.cast hcast')
      simp only [heq3, ok_bind]
      refine ⟨some np, m3, l3, rfl, fun hx => (by cases hx),
        (hsame1.right.right.trans hsame2.right).trans hsame3.right.right, ?_⟩
      intro np' hnp
      rw [← Option.some.inj hnp]
      exact ⟨hstate, htf, T', n', g', h'.congr hsame3.left, hpool3⟩

end Has

theorem userinit_spec (hU : Pages kend U) (hpool : Pool U m l A)
    (h : userinit kend trampoline m = .ok (true, p, m')) :
    p.state = .used ∧ ∃ l' T g, Has trampoline m' p T 1 g ∧
      Pool U m' l' (T + (frames g 0 1 + (p.trapframe ::ₘ A))) := by
  unfold userinit at h
  obtain ⟨res, m1, l1, heq1, -, -, hsome1⟩ := allocproc_spec trampoline hU hpool (fun _ => 0#64)
  simp only [heq1, ok_bind] at h
  cases res with
  | none => cases h
  | some p1 =>
    obtain ⟨hstate, T1, h1, hpool1⟩ := hsome1 p1 rfl
    simp only at h
    rcases hpool1.kalloc hU with ⟨-, hk⟩ | ⟨mem, m2, l2, -, hk, hne, hpool2, hsame2⟩
    · simp only [hk, if_true, reduceCtorEq] at h
    · simp only [hk, hne, if_false] at h
      rcases (h1.user.congr hsame2.left).fresh (m2.fill mem 0#64) hU hpool2 (fun b hb => by
        funext j
        rw [word_fill, if_neg hb]) rfl with ⟨hpool3, h3, -⟩
      rcases h3.mapNext (PTE_W ||| PTE_R ||| PTE_X ||| PTE_U) hU hpool3 at_zero
        (by decide) (by decide) with ⟨done, m4, l4, T4, heq4, -, -, hdone, -⟩
      simp only [heq4, ok_bind, Except.ok.injEq, Prod.mk.injEq] at h
      obtain ⟨rfl, rfl, rfl⟩ := h
      obtain ⟨hpool4, h4⟩ := hdone rfl
      exact ⟨hstate, l4, T4, _, ⟨h4, show pagesIn 4096#64 = 1 by decide, h1.trapframe,
        h1.pagetable⟩, hpool4⟩

end Xv6.Vm.Memory
