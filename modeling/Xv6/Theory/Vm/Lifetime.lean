import Xv6.Theory.Vm.User

/-!
# The Life of an Address Space

How a table comes into being with the trampoline and the trapframe in it, how it becomes a copy
of another one, and how all its pages are given back in the end. Each of these either succeeds or
leaves all pages to those who had them before.

## Theorems

* `Vm.User.procFreepagetable`, `Vm.procPagetable_spec`
-/

namespace Xv6.Vm

open Function (update update_apply update_of_ne update_self)

variable {kend trampoline trapframe : Word} {U A F T : Multiset Word} {m m' : Phys}
  {r a pa perm sz : Word} {l : List Word} {n k : Nat} {g : Nat → Word} {f : Nat → Option Word}

theorem ok_bind {α β : Type} (x : α) (f : α → Except Panic β) : (Except.ok x >>= f) = f x := rfl

theorem frames_zero (g : Nat → Word) (k : Nat) : frames g k 0 = 0 := rfl

namespace Space

theorem uvmfree (h : Space m r T fun k => if k < n then some (g k) else none)
    (hleaf : ∀ k < n, Leaf (g k)) (hU : Pages kend U)
    (hpool : Pool U m l (T + (frames g 0 n + A))) (hsz : pagesIn sz = n) :
    ∃ m' l', Vm.uvmfree kend m r sz = .ok m' ∧ Pool U m' l' A ∧ Same m m' A := by
  have hbound := hpool.bound hU
  unfold Vm.uvmfree
  by_cases hz : sz = 0#64
  -- No `uvmunmap` then: there is nothing below the table to give back.
  · rw [if_pos hz]
    have hn : n = 0 := by
      rw [← hsz, hz]
      rfl
    subst hn
    have hnone : (fun k => if k < 0 then some (g k) else none) = fun _ => (none : Option Word) := by
      funext k
      rw [if_neg (Nat.not_lt_zero k)]
    rw [hnone] at h
    exact h.freewalk hU (hpool.cast (by rw [frames_zero, Multiset.zero_add]))
  · rw [if_neg hz]
    have hsmall : sz.toNat ≤ n * 4096 := by
      simp only [pagesIn, PGSIZE] at hsz
      omega
    have hat := at_PGROUNDUP sz (by omega)
    rw [hsz] at hat
    have hcount : (PGROUNDUP sz / 4096#64).toNat = n := by
      have h4096 : (4096#64 : Word).toNat = 4096 := rfl
      rw [BitVec.toNat_udiv, h4096, hat]
      exact Nat.mul_div_cancel n (by decide)
    rcases h.unmapFrom (A := A) (k := 0) (n := n) (g := g) true hU rfl
      (hpool.cast (by rw [if_pos rfl])) at_zero (by omega)
      (fun j _ hj => ⟨if_pos (by omega), (hleaf j (by omega)).flags⟩) with
      ⟨m1, l1, heq, hpool1, h1, hsame1, -⟩
    -- With every page unmapped, `freewalk` meets no leaf.
    have hnone : (fun j => if 0 ≤ j ∧ j < 0 + n then none
        else if j < n then some (g j) else none) = fun _ => (none : Option Word) := by
      funext j
      by_cases hj : j < n
      · rw [if_pos (by omega)]
      · rw [if_neg (by omega), if_neg hj]
    rw [hnone] at h1
    obtain ⟨m', l', hfree, hpool', hsame'⟩ := h1.freewalk hU hpool1
    refine ⟨m', l', ?_, hpool', hsame1.trans hsame'⟩
    rw [uvmunmap_eq at_zero hcount (by omega), heq, ok_bind, hfree]

theorem unmapKeep (h : Space m r T f) (hU : Pages kend U) (hpool : Pool U m l (T + A))
    (ha : At a k) (hk : k < 2 ^ 26) (pte : Word) (hf : f k = some pte) (hleaf : Leaf pte) :
    ∃ m' l', uvmunmap kend m r a 1#64 false = .ok m' ∧ Pool U m' l' (T + A) ∧
      Space m' r T (update f k none) ∧ Same m m' A := by
  rcases h.unmapFrom (A := A) (k := k) (n := 1) (g := fun _ => pte) false hU rfl
    (hpool.cast (by rw [if_neg Bool.false_ne_true, Multiset.zero_add])) ha (by omega)
    (fun j hj hj' => by
      have hjk : j = k := by omega
      rw [hjk]
      exact ⟨hf, hleaf.flags⟩) with ⟨m', l', heq, hpool', h', hsame, -⟩
  have hfun : (fun j => if k ≤ j ∧ j < k + 1 then none else f j) = update f k none := by
    funext j
    rw [update_apply]
    by_cases hj : j = k
    · rw [if_pos (by omega), if_pos hj]
    · rw [if_neg (by omega), if_neg hj]
  rw [hfun] at h'
  refine ⟨m', l', ?_, hpool', h', hsame⟩
  rw [uvmunmap_eq (n := 1) ha rfl (by omega)]
  exact heq

end Space

namespace User

theorem procFreepagetable (h : User trampoline trapframe m r T n g) (hU : Pages kend U)
    (hpool : Pool U m l (T + (frames g 0 n + A))) (hsz : pagesIn sz = n) :
    ∃ m' l', Vm.procFreepagetable kend m r sz = .ok m' ∧ Pool U m' l' A ∧ Same m m' A := by
  have hbound := hpool.bound hU
  rcases h.space.unmapKeep hU hpool at_TRAMPOLINE (by decide)
    (PA2PTE trampoline ||| (PTE_R ||| PTE_X) ||| PTE_V)
    (by rw [shape, if_neg (by omega), if_pos rfl]) (leaf_pte trampoline (by decide)) with
    ⟨m1, l1, heq1, hpool1, h1, hsame1⟩
  rcases h1.unmapKeep hU hpool1 at_TRAPFRAME (by decide)
    (PA2PTE trapframe ||| (PTE_R ||| PTE_W) ||| PTE_V)
    (by rw [update_of_ne (by decide), shape, if_neg (by omega), if_neg (by decide),
      if_pos rfl]) (leaf_pte trapframe (by decide)) with ⟨m2, l2, heq2, hpool2, h2, hsame2⟩
  have hfun : update (update (shape trampoline trapframe n g) (2 ^ 26 - 1) none)
      (2 ^ 26 - 2) none = fun k => if k < n then some (g k) else none := by
    funext k
    simp only [update_apply, shape]
    by_cases hk : k < n
    · rw [if_neg (by omega), if_neg (by omega), if_pos hk, if_pos hk]
    · by_cases hk2 : k = 2 ^ 26 - 2
      · rw [if_pos hk2, if_neg hk]
      · by_cases hk1 : k = 2 ^ 26 - 1
        · rw [if_neg hk2, if_pos hk1, if_neg hk]
        · rw [if_neg hk2, if_neg hk1, if_neg hk, if_neg hk, if_neg hk1, if_neg hk2]
  rw [hfun] at h2
  obtain ⟨m', l', heq, hpool', hsame'⟩ := h2.uvmfree h.leaf hU hpool2 hsz
  refine ⟨m', l', ?_, hpool', (hsame1.right.trans hsame2.right).trans hsame'⟩
  unfold Vm.procFreepagetable
  rw [heq1, ok_bind, heq2, ok_bind, heq]

end User

theorem Space.uvmfree_empty (h : Space m r T fun _ => none) (hU : Pages kend U)
    (hpool : Pool U m l (T + A)) :
    ∃ m' l', Vm.uvmfree kend m r 0#64 = .ok m' ∧ Pool U m' l' A ∧ Same m m' A := by
  unfold Vm.uvmfree
  rw [if_pos rfl]
  exact h.freewalk hU hpool

theorem procPagetable_spec (trampoline trapframe : Word) (hU : Pages kend U)
    (hpool : Pool U m l A) (g : Nat → Word) :
    ∃ res m' l', procPagetable kend trampoline m trapframe = .ok (res, m') ∧ Same m m' A ∧
      (res = none → Pool U m' l' A) ∧
      ∀ r, res = some r → r ≠ 0#64 ∧ ∃ T, Pool U m' l' (T + (frames g 0 0 + A)) ∧
        User trampoline trapframe m' r T 0 g := by
  unfold procPagetable
  rcases Space.create hU hpool with ⟨-, hc⟩ | ⟨r, m1, l1, hc, hne, hpool1, h1, hsame1⟩
  · rw [hc]
    exact ⟨none, m, l, rfl, Same.refl, fun _ => hpool, fun r hr => by cases hr⟩
  · rw [hc]
    simp only [mappages_one at_TRAMPOLINE (by decide), mappages_one at_TRAPFRAME (by decide)]
    rcases h1.mapOne trampoline (PTE_R ||| PTE_X) (a := TRAMPOLINE) hU hpool1
      (at_TRAMPOLINE.lt (by decide)) rfl with ⟨done, m2, l2, T2, heq2, hpool2, h2, hsame2, -⟩
    rw [heq2]
    cases done with
    | false =>
      rw [if_neg Bool.false_ne_true] at h2
      obtain ⟨m3, l3, heq3, hpool3, hsame3⟩ := h2.uvmfree_empty hU hpool2
      refine ⟨none, m3, l3, ?_, (hsame1.trans hsame2).trans hsame3, fun _ => hpool3,
        fun r hr => by cases hr⟩
      simp only [ok_bind, heq3]
    | true =>
      rw [if_pos rfl, at_TRAMPOLINE.page] at h2
      rcases h2.mapOne trapframe (PTE_R ||| PTE_W) (a := TRAPFRAME) hU hpool2
        (at_TRAPFRAME.lt (by decide))
        (by rw [at_TRAPFRAME.page, update_of_ne (by decide)]) with
        ⟨done, m3, l3, T3, heq3, hpool3, h3, hsame3, -⟩
      simp only [ok_bind, heq3]
      cases done with
      | false =>
        -- the trampoline is taken out again
        rw [if_neg Bool.false_ne_true] at h3
        rcases h3.unmapKeep hU hpool3 at_TRAMPOLINE (by decide) _
          (update_self _ _ _) (leaf_pte trampoline (by decide)) with
          ⟨m4, l4, heq4, hpool4, h4, hsame4⟩
        rw [Function.update_idem, Function.update_eq_self_iff.2 rfl] at h4
        obtain ⟨m5, l5, heq5, hpool5, hsame5⟩ := h4.uvmfree_empty hU hpool4
        refine ⟨none, m5, l5, ?_, (((hsame1.trans hsame2).trans hsame3).trans hsame4).trans hsame5,
          fun _ => hpool5, fun r hr => by cases hr⟩
        simp only [ok_bind, heq4, heq5]
      | true =>
        rw [if_pos rfl, at_TRAPFRAME.page] at h3
        have hfun : update (update (fun _ => none) (2 ^ 26 - 1)
            (some (PA2PTE trampoline ||| (PTE_R ||| PTE_X) ||| PTE_V))) (2 ^ 26 - 2)
            (some (PA2PTE trapframe ||| (PTE_R ||| PTE_W) ||| PTE_V)) =
            shape trampoline trapframe 0 g := by
          funext k
          simp only [update_apply, shape, Nat.not_lt_zero, if_false]
          by_cases hk : k = 2 ^ 26 - 2
          · rw [if_pos hk, if_neg (by omega), if_pos hk]
          · rw [if_neg hk, if_neg (c := k = 2 ^ 26 - 2) hk]
        rw [hfun] at h3
        refine ⟨some r, m3, l3, rfl, (hsame1.trans hsame2).trans hsame3,
          fun hx => absurd hx (Option.some_ne_none r), ?_⟩
        intro r' hr'
        rw [← Option.some.inj hr']
        exact ⟨hne, T3, hpool3.cast (by rw [frames_zero, Multiset.zero_add]), h3,
          fun k hk => absurd hk (Nat.not_lt_zero k)⟩

namespace User

variable {trapframe' old : Word} {To : Multiset Word} {go : Nat → Word}

/-- The first `k` pages of one table have the flags of those of another one, and what `m0` has in
    them. -/
def Copies (m0 m : Phys) (go g : Nat → Word) (k : Nat) : Prop :=
  ∀ j < k, PTE_FLAGS (g j) = PTE_FLAGS (go j) ∧ m.word (PTE2PA (g j)) = m0.word (PTE2PA (go j))

theorem flags_valid {x : Word} (hv : isValid x = true) : PTE_FLAGS x ||| PTE_V = PTE_FLAGS x := by
  have hbit : x.getLsbD 0 = true := hv
  ext i hi
  by_cases h0 : i = 0
  · subst h0
    simp [PTE_FLAGS, PTE_V, hbit]
  · simp [PTE_FLAGS, PTE_V, h0]

theorem Copies.next {m0 : Phys} {mem : Word} (h : Copies m0 m go g k)
    (hsame : Same m m' (frames g 0 k)) (hmem : m'.word mem = m0.word (PTE2PA (go k)))
    (hal : mem.toNat % PGSIZE = 0) (hv : isValid (go k) = true) :
    Copies m0 m' go (update g k (PA2PTE mem ||| PTE_FLAGS (go k) ||| PTE_V)) (k + 1) := by
  intro j hj
  by_cases hjk : j = k
  · have hdecode := entryAt_decodes (k := 0) hal (toNat_PTE_FLAGS (go k))
    have hentry : entryAt mem (PTE_FLAGS (go k)) 0 = PA2PTE mem ||| PTE_FLAGS (go k) ||| PTE_V := by
      rw [entryAt, Nat.zero_mul, BitVec.add_zero]
    rw [hentry, Nat.zero_mul, BitVec.add_zero, flags_valid hv] at hdecode
    rw [hjk, update_self, hdecode.1, hdecode.2]
    exact ⟨rfl, hmem⟩
  · have hlt : j < k := by omega
    rw [update_of_ne hjk, hsame _ (mem_frames hlt)]
    exact h j hlt

theorem uvmcopyFrom (hU : Pages kend U) (fuel : Nat)
    (ho : User trampoline trapframe m old To n go) (hTo : ∀ b ∈ To, b ∈ A)
    (hsz : pagesIn sz = n) (hn : n ≤ 0x88000) (h : User trampoline trapframe' m r T k g)
    (hpool : Pool U m l (T + (frames g 0 k + A))) (ha : At a k) (hle : k ≤ n)
    (hfuel : 0x88000 < fuel + k) :
    ∃ done m' l' T' g', Vm.uvmcopyFrom kend old r sz fuel m a = .ok (done, m') ∧
      Pool U m' l' (T' + (frames g' 0 (if done then n else 0) + A)) ∧
      User trampoline trapframe' m' r T' (if done then n else 0) g' ∧ Same m m' A ∧
      ∀ m0, (∀ j < n, PTE2PA (go j) ∈ A) → Copies m0 m go go n → Copies m0 m go g k → done = true →
        Copies m0 m' go g' n := by
  induction fuel generalizing m l T k g a with
  | zero =>
    have hbound := hpool.bound hU
    omega
  | succ fuel ih =>
    simp only [Vm.uvmcopyFrom]
    have hcmp : a < sz ↔ k < n := by
      rw [BitVec.lt_def, ha, ← hsz]
      simp only [pagesIn, PGSIZE]
      omega
    -- back to no pages at all
    have hundo : ∀ {m1 : Phys} {l1 : List Word} {T1 : Multiset Word},
        User trampoline trapframe' m1 r T1 k g → Pool U m1 l1 (T1 + (frames g 0 k + A)) →
        ∃ m' l', uvmunmap kend m1 r 0#64 (a / 4096#64) true = .ok m' ∧
          Pool U m' l' (T1 + (frames g 0 0 + A)) ∧ User trampoline trapframe' m' r T1 0 g ∧
          Same m1 m' A := by
      intro m1 l1 T1 h1 hpool1
      have hcount : (a / 4096#64).toNat = k - 0 := by
        have h4096 : (4096#64 : Word).toNat = 4096 := rfl
        rw [BitVec.toNat_udiv, h4096, ha]
        exact Nat.mul_div_cancel k (by decide)
      obtain ⟨m', l', heq, hpool', hu, hsame, -⟩ :=
        h1.cut hU hpool1 _ at_zero (Nat.zero_le k) hcount
      exact ⟨m', l', heq, hpool', hu, hsame.right⟩
    by_cases hlt : k < n
    swap
    · rw [if_neg (fun hx => hlt (hcmp.1 hx))]
      have hkn : k = n := by omega
      subst hkn
      exact ⟨true, m, l, T, g, rfl, hpool, h, Same.refl, fun _ _ _ hc _ => hc⟩
    · rw [if_pos (hcmp.2 hlt)]
      rcases ho.space.entry (a := a) (ha.lt (by omega))
        (by rw [ha.page]; exact shape_of_lt hlt) with ⟨b, hnode, hword, hv⟩
      have hwalk : walk m old a false = .ok (some (b, PX 0 a), m) := by
        rw [walk_false (ha.lt (by omega)), hnode]
        rfl
      rw [hwalk]
      simp only [ok_bind]
      rw [hword, hv, if_neg (by decide)]
      rcases hpool.kalloc hU with ⟨-, hk⟩ | ⟨mem, m1, l1, -, hk, hne, hpool1, hsame1⟩
      · obtain ⟨m', l', heq, hpool', hu, hsame⟩ := hundo h hpool
        refine ⟨false, m', l', T, g, ?_, hpool', hu, hsame, fun _ _ _ _ hd => by cases hd⟩
        simp only [hk, if_true, heq]
        rfl
      · have h1 := h.congr hsame1.left
        rcases h1.fresh (m1.copy mem (PTE2PA (go k))) hU hpool1 (fun b hb => by
          simp only [Phys.copy, update_of_ne hb]) rfl with ⟨hpool2, h2, hsame2⟩
        have hread : (PTE_FLAGS (go k)).getLsbD 1 = true := by
          have hmask : (0x3FF#64 : Word).getLsbD 1 = true := by decide
          rw [PTE_FLAGS, BitVec.getLsbD_and, (ho.leaf k hlt).2, hmask, Bool.and_self]
        obtain ⟨done, m3, l3, T3, hmap, hsame, -, hdone, hfail⟩ :=
          h2.mapNext (PTE_FLAGS (go k)) hU hpool2 ha (toNat_PTE_FLAGS _) hread
        have hsame03 : Same m m3 (frames g 0 k + A) := (hsame1.right.trans hsame2.right).trans
          fun b hb => hsame b (Multiset.mem_cons_of_mem hb)
        simp only [hk, hne, if_false, hmap]
        cases done with
        | true =>
          obtain ⟨hpool3, h3⟩ := hdone rfl
          have ho3 : User trampoline trapframe m3 old To n go :=
            ho.congr fun b hb => hsame03.right b (hTo b hb)
          obtain ⟨done, m', l', T', g', heq, hpool', hu, hsame', hcopy⟩ :=
            ih ho3 h3 hpool3 (ha.next (by omega)) (by omega) (by omega)
          refine ⟨done, m', l', T', g', heq, hpool', hu, hsame03.right.trans hsame', ?_⟩
          intro m0 hin hold hc
          refine hcopy m0 hin (fun j hj => ⟨rfl, ?_⟩) (hc.next hsame03.left ?_ ?_ hv)
          · rw [hsame03.right _ (hin j hj)]
            exact (hold j hj).2
          · rw [hsame mem (Multiset.mem_cons_self mem _), ← (hold k hlt).2,
              ← hsame1.right.right _ (hin k hlt)]
            exact update_self mem _ m1.word
          · exact (hpool1.isPage hU (Multiset.mem_cons_self mem _)).2.1
        | false =>
          obtain ⟨hpool3, h3⟩ := hfail rfl
          obtain ⟨m4, hkf, hpool4, hsame4⟩ := hpool3.kfree hU
          obtain ⟨m', l', heq, hpool', hu, hsame'⟩ := hundo (h3.congr hsame4.left) hpool4
          refine ⟨false, m', l', T3, g, ?_, hpool', hu,
            (hsame03.right.trans hsame4.right.right).trans hsame', fun _ _ _ _ hd => by cases hd⟩
          simp only [ok_bind, hkf, heq]

theorem uvmcopy (h : User trampoline trapframe' m r T 0 g) (hU : Pages kend U)
    (ho : User trampoline trapframe m old To n go) (hTo : ∀ b ∈ To, b ∈ A)
    (hsz : pagesIn sz = n) (hn : n ≤ 0x88000) (hpool : Pool U m l (T + (frames g 0 0 + A))) :
    ∃ done m' l' T' g', Vm.uvmcopy kend m old r sz = .ok (done, m') ∧
      Pool U m' l' (T' + (frames g' 0 (if done then n else 0) + A)) ∧
      User trampoline trapframe' m' r T' (if done then n else 0) g' ∧ Same m m' A ∧
      ((∀ j < n, PTE2PA (go j) ∈ A) → done = true → Copies m m' go g' n) := by
  obtain ⟨done, m', l', T', g', heq, hpool', hu, hsame, hcopy⟩ :=
    uvmcopyFrom hU rounds ho hTo hsz hn h hpool at_zero (Nat.zero_le n) (by decide)
  exact ⟨done, m', l', T', g', heq, hpool', hu, hsame, fun hin => hcopy m hin
    (fun _ _ => ⟨rfl, rfl⟩) fun j hj => absurd hj (Nat.not_lt_zero j)⟩

end User

end Xv6.Vm
