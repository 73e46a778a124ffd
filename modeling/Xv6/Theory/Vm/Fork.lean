import Xv6.Theory.Vm.Program

/-!
# The Memory of a Child

`uvmcopy` for a parent with any pages, and a child whose table has none yet. Either all pages are
copied, with their flags, to frames that nobody else has, or the child still has none and all other
pages that were taken are free again. The pages of the parent are as they were.

## Theorems

* `Vm.uvmcopy_isolates`
-/

namespace Xv6.Vm

open Multiset (mem_add)

variable {kend trampoline trapframe trapframe' : Word} {U A F T To B : Multiset Word} {m : Phys}
  {r old sz : Word} {l : List Word} {n : Nat} {g go : Nat → Word}

/-- However the pages `F` are changed, the table at `r` maps what it maps, and its pages have in
    them what they had. -/
def Apart (trampoline trapframe : Word) (m : Phys) (F : Multiset Word) (r : Word)
    (T : Multiset Word)
    (n : Nat) (g : Nat → Word) : Prop :=
  ∀ m', (∀ b, b ∉ F → m'.word b = m.word b) →
    User trampoline trapframe m' r T n g ∧ Same m m' (frames g 0 n)

theorem User.apart (h : User trampoline trapframe m r T n g)
    (hdisj : ∀ b ∈ F, b ∉ T + frames g 0 n) : Apart trampoline trapframe m F r T n g := by
  intro m' hm'
  have hsame : Same m m' (T + frames g 0 n) := fun b hb => hm' b fun hF => hdisj b hF hb
  exact ⟨h.congr hsame.left, hsame.right⟩

/-- A parent with `n` pages and a child with none. `uvmcopy` comes to its end and changes no page
    of the parent, of its table, or of anybody else. If it succeeds, the child has the same pages
    with the same flags and contents, all pages that are in use are different, and so neither
    process reads what the other stores. If it fails, the child has no pages, and what is not in its
    table or was in use before is free. -/
theorem uvmcopy_isolates (hU : Pages kend U) (ho : User trampoline trapframe m old To n go)
    (h : User trampoline trapframe' m r T 0 g) (hsz : pagesIn sz = n)
    (hpool : Pool U m l (T + (To + (frames go 0 n + B)))) :
    ∃ done m' l' T' g', uvmcopy kend m old r sz = .ok (done, m') ∧
      Same m m' (To + (frames go 0 n + B)) ∧ User trampoline trapframe m' old To n go ∧
      (done = true → User trampoline trapframe' m' r T' n g' ∧
        Pool U m' l' (T' + (frames g' 0 n + (To + (frames go 0 n + B)))) ∧
        (T' + (frames g' 0 n + (To + (frames go 0 n + B)))).Nodup ∧
        (∀ j < n, PTE_FLAGS (g' j) = PTE_FLAGS (go j) ∧
          m'.word (PTE2PA (g' j)) = m.word (PTE2PA (go j))) ∧
        Apart trampoline trapframe m' (frames g' 0 n) old To n go ∧
        Apart trampoline trapframe' m' (frames go 0 n) r T' n g') ∧
      (done = false → User trampoline trapframe' m' r T' 0 g' ∧
        Pool U m' l' (T' + (To + (frames go 0 n + B)))) := by
  have hbound : n ≤ 0x88000 :=
    (hpool.cast (F := To + (frames go 0 n + (T + B))) (by ac_rfl)).bound hU
  rcases h.uvmcopy hU ho (fun b hb => mem_add.2 (.inl hb)) hsz hbound
    (hpool.cast (by rw [frames_zero, Multiset.zero_add])) with
    ⟨done, m', l', T', g', heq, hpool', hu, hsame, hcopy⟩
  have ho' : User trampoline trapframe m' old To n go := ho.congr hsame.left
  refine ⟨done, m', l', T', g', heq, hsame, ho', ?_, ?_⟩
  · rintro rfl
    rw [if_pos rfl] at hu hpool'
    have hnodup := (Multiset.nodup_add.1 (hpool'.nodup hU)).2.1
    obtain ⟨-, hrest, hT⟩ := Multiset.nodup_add.1 hnodup
    obtain ⟨-, -, hF⟩ := Multiset.nodup_add.1 hrest
    have hold : ∀ {b}, b ∈ To ∨ b ∈ frames go 0 n → b ∈ To + (frames go 0 n + B) := by
      intro b hb
      simp only [mem_add]
      tauto
    have hapart : ∀ b ∈ frames g' 0 n, b ∉ To + frames go 0 n :=
      fun b hb hx => Multiset.disjoint_left.1 hF hb (hold (mem_add.1 hx))
    refine ⟨hu, hpool', hnodup, hcopy (fun j hj => hold (.inr (mem_frames hj))) rfl,
      ho'.apart hapart, hu.apart fun b hb hx => ?_⟩
    rcases mem_add.1 hx with hx | hx
    · exact Multiset.disjoint_left.1 hT hx (mem_add.2 (.inr (hold (.inr hb))))
    · exact hapart b hx (mem_add.2 (.inr hb))
  · rintro rfl
    rw [if_neg Bool.false_ne_true] at hu hpool'
    exact ⟨hu, hpool'.cast (by rw [frames_zero, Multiset.zero_add])⟩

theorem allocproc_twentyFree : ∃ p m',
    Memory.userinit KERNBASE KERNBASE Exec.twentyFree = .ok (true, p, m') ∧
    ((Memory.allocproc KERNBASE KERNBASE m').toOption.bind Prod.fst).isSome = true :=
  ⟨_, _, rfl, by decide +kernel⟩

/-- The first process, and a child that has just been allocated. -/
theorem uvmcopy_isolates_first : ∃ p m' np m1,
    Memory.userinit KERNBASE KERNBASE Exec.twentyFree = .ok (true, p, m') ∧
    Memory.allocproc KERNBASE KERNBASE m' = .ok (some np, m1) ∧
    ∃ done m2, uvmcopy KERNBASE m1 p.pagetable np.pagetable p.sz = .ok (done, m2) := by
  obtain ⟨p, m', hinit, halloc⟩ := allocproc_twentyFree
  have hU := Exec.pages_twentyFree
  have hfree : Pool _ Exec.twentyFree Exec.twentyPages 0 :=
    ⟨Exec.chain_twentyFree, Multiset.add_zero _⟩
  obtain ⟨-, l, To, go, ho, hpool⟩ := Memory.userinit_spec hU hfree hinit
  obtain ⟨res, m1, l1, heq, hsame, -, hsome⟩ := Memory.allocproc_spec KERNBASE hU hpool go
  rw [heq] at halloc
  obtain ⟨np, rfl⟩ := Option.isSome_iff_exists.1 halloc
  obtain ⟨-, T, h, hpool1⟩ := hsome np rfl
  obtain ⟨done, m2, -, -, -, hcopy, -⟩ := uvmcopy_isolates hU (ho.congr hsame.left).user h.user
    ho.size (B := np.trapframe ::ₘ p.trapframe ::ₘ 0) (hpool1.cast (by
      simp only [frames_zero, Multiset.zero_add, Multiset.add_cons]))
  exact ⟨p, m', np, m1, hinit, heq, done, m2, hcopy⟩

end Xv6.Vm
