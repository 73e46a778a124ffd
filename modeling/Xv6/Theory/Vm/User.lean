import Mathlib.Data.Finset.Card
import Xv6.Theory.Vm.Freewalk

/-!
# The Shape of an Address Space

The table of a process maps its first pages, the trapframe and the trampoline, and nothing else
(`User`). The functions that grow, shrink, copy and give back an address space go from one such
table to another, whether there is memory for them or not.

## Theorems

* `Vm.User.uvmalloc`, `Vm.User.uvmdealloc`
-/

namespace Xv6.Vm

open Function (update update_self update_of_ne)
open Multiset (add_cons mem_add mem_cons_self)
open BitVec (getLsbD_and getLsbD_or le_def lt_def toNat_add toNat_sub)

/-- The number of pages of a size, `PGROUNDUP(sz) / PGSIZE`. -/
def pagesIn (sz : Word) : Nat := (sz.toNat + 4095) / PGSIZE

/-- An entry that `freewalk` and `uvmunmap` take for one of a page. All of them can be read. -/
def Leaf (pte : Word) : Prop := isValid pte = true ∧ pte.getLsbD 1 = true

/-- What the table of a process with `n` pages maps. -/
def shape (trampoline trapframe : Word) (n : Nat) (g : Nat → Word) (k : Nat) : Option Word :=
  if k < n then some (g k)
  else if k = 2 ^ 26 - 1 then some (PA2PTE trampoline ||| (PTE_R ||| PTE_X) ||| PTE_V)
  else if k = 2 ^ 26 - 2 then some (PA2PTE trapframe ||| (PTE_R ||| PTE_W) ||| PTE_V)
  else none

/-- The table of a process with `n` pages, whose entries are `g`. -/
structure User (trampoline trapframe : Word) (m : Phys) (r : Word) (T : Multiset Word) (n : Nat)
    (g : Nat → Word) : Prop where
  space : Space m r T (shape trampoline trapframe n g)
  leaf : ∀ k < n, Leaf (g k)

variable {kend trampoline trapframe : Word} {U A F T : Multiset Word} {m m' : Phys}
  {r a pa perm sz oldsz newsz : Word} {l : List Word} {n n0 : Nat} {g : Nat → Word}

/-! ## Sizes -/

theorem At.pagesIn (h : At a n) : pagesIn a = n := by
  rw [Vm.pagesIn, h]
  simp only [PGSIZE]
  omega

theorem At.stack {sz1 : Word} (hsz : At sz n) (hn : n ≤ 0x88000) (hz : sz1 ≠ 0#64)
    (hsz1 : sz1 = 0#64 ∨ (sz + 8192#64 < sz ∧ sz1 = sz) ∨
      (¬ sz + 8192#64 < sz ∧ sz1 = sz + 8192#64)) : At sz1 (n + 2) := by
  have h8192 : (8192#64 : Word).toNat = 8192 := rfl
  -- The size does not wrap round.
  have hnew : (sz + 8192#64).toNat = (n + 2) * PGSIZE := by
    rw [toNat_add, h8192, hsz]
    simp only [PGSIZE]
    omega
  rcases hsz1 with hx | ⟨hx, -⟩ | ⟨-, hx⟩
  · exact absurd hx hz
  · rw [lt_def, hnew, hsz] at hx
    simp only [PGSIZE] at hx
    omega
  · rw [hx]
    exact hnew

theorem At.guard (h : At sz (n + 2)) : At (sz - 8192#64) n := by
  have h8192 : (8192#64 : Word).toNat = 8192 := rfl
  have hlt := sz.isLt
  unfold At at h ⊢
  rw [toNat_sub, h8192]
  simp only [PGSIZE] at h ⊢
  omega

theorem at_PGROUNDUP (sz : Word) (h : sz.toNat + 4095 < 2 ^ 64) :
    At (PGROUNDUP sz) (pagesIn sz) := by
  have hadd : (sz + 4095#64).toNat = sz.toNat + 4095 := by
    have h4095 : (4095#64 : Word).toNat = 4095 := rfl
    rw [toNat_add, h4095, Nat.mod_eq_of_lt h]
  have hdown := toNat_PGROUNDDOWN (sz + 4095#64)
  rw [page, hadd] at hdown
  exact hdown

theorem at_zero : At 0#64 0 := rfl

theorem at_TRAMPOLINE : At TRAMPOLINE (2 ^ 26 - 1) := rfl

theorem at_TRAPFRAME : At TRAPFRAME (2 ^ 26 - 2) := rfl

theorem toNat_int {x : Word} (h : x.toNat < 2 ^ 31) :
    ((x.setWidth 32).signExtend 64).toNat = x.toNat := by
  have hlow : (x.setWidth 32).toNat = x.toNat := by
    rw [BitVec.toNat_setWidth]
    omega
  have hmsb : (x.setWidth 32).msb = false := by
    rw [BitVec.msb_eq_decide, hlow]
    simp only [decide_eq_false_iff_not]
    omega
  rw [BitVec.signExtend_eq_setWidth_of_msb_false hmsb, BitVec.toNat_setWidth, hlow]
  omega

variable {k : Nat} {pte : Word}

theorem mem_frames (hk : k < n) : PTE2PA (g k) ∈ frames g 0 n := by
  refine Multiset.mem_coe.2 (List.mem_map.2 ⟨k, ?_, rfl⟩)
  rw [List.mem_range'_1]
  omega

theorem card_frames (g : Nat → Word) (k n : Nat) : (frames g k n).card = n := by
  simp only [frames, Multiset.coe_card, List.length_map, List.length_range']

theorem Pages.card_le_of (hU : Pages kend U) (base : Nat)
    (hlow : ∀ b ∈ U, base ≤ b.toNat / PGSIZE) :
    U.card ≤ 0x88000 - base := by
  rw [← Multiset.toFinset_card_of_nodup hU.nodup, ← Finset.card_range (0x88000 - base)]
  refine Finset.card_le_card_of_injOn (fun a => a.toNat / PGSIZE - base) ?_ ?_
  · intro a ha
    have hbase := hlow a (Multiset.mem_toFinset.1 ha)
    obtain ⟨-, -, -, hhigh⟩ := hU.page a (Multiset.mem_toFinset.1 ha)
    have htop : PHYSTOP.toNat = 0x88000000 := rfl
    rw [le_def, htop] at hhigh
    simp only [Finset.coe_range, Set.mem_Iio, PGSIZE] at hbase ⊢
    omega
  · intro a ha b hb hab
    have hbase := hlow a (Multiset.mem_toFinset.1 ha)
    have hbase' := hlow b (Multiset.mem_toFinset.1 hb)
    obtain ⟨-, ha', -, -⟩ := hU.page a (Multiset.mem_toFinset.1 ha)
    obtain ⟨-, hb', -, -⟩ := hU.page b (Multiset.mem_toFinset.1 hb)
    apply BitVec.eq_of_toNat_eq
    simp only [PGSIZE] at ha' hb' hab hbase hbase'
    omega

theorem Pages.card_le (hU : Pages kend U) : U.card ≤ 0x88000 :=
  hU.card_le_of 0 fun _ _ => Nat.zero_le _

theorem Pool.bound (h : Pool U m l (T + (frames g 0 n + A))) (hU : Pages kend U) : n ≤ 0x88000 := by
  have hcard := congrArg Multiset.card h.all
  have hle := hU.card_le
  simp only [Multiset.card_add, card_frames] at hcard
  omega

/-! ## Entries -/

theorem Leaf.flags (h : Leaf pte) : PTE_FLAGS pte ≠ PTE_V := by
  intro heq
  have hbit := congrArg (fun x : Word => x.getLsbD 1) heq
  have hmask : (0x3FF#64 : Word).getLsbD 1 = true := by decide
  have hone : PTE_V.getLsbD 1 = false := by decide
  simp only [PTE_FLAGS, getLsbD_and, h.2, hmask, hone, Bool.and_self, Bool.true_eq_false]
    at hbit

theorem leaf_pte (pa : Word) (h : perm.getLsbD 1 = true) : Leaf (PA2PTE pa ||| perm ||| PTE_V) := by
  refine ⟨isValid_or _, ?_⟩
  rw [getLsbD_or, getLsbD_or, h, Bool.or_true, Bool.true_or]

theorem frame_pte (hpa : pa.toNat % PGSIZE = 0) (hperm : perm.toNat < 1024) :
    PTE2PA (PA2PTE pa ||| perm ||| PTE_V) = pa := by
  have hor : (perm ||| PTE_V).toNat < 1024 := by
    rw [BitVec.toNat_or]
    exact Nat.or_lt_two_pow (n := 10) hperm (by decide)
  rw [BitVec.or_assoc, PTE2PA_pte hpa hor]

theorem toNat_PTE_FLAGS (pte : Word) : (PTE_FLAGS pte).toNat < 1024 := by
  rw [PTE_FLAGS, BitVec.toNat_and]
  exact Nat.lt_of_le_of_lt Nat.and_le_right (by decide)

theorem Leaf.clear (h : Leaf pte) : Leaf (pte &&& ~~~PTE_U) := by
  have hmask : (~~~PTE_U : Word).getLsbD 1 = true := by decide
  refine ⟨by rw [isValid_clear]; exact h.1, ?_⟩
  rw [getLsbD_and, h.2, hmask, Bool.and_self]

theorem frame_clear (pte : Word) : PTE2PA (pte &&& ~~~PTE_U) = PTE2PA pte := by
  have hdiv : (pte &&& ~~~PTE_U) >>> 10 = pte >>> 10 := by
    apply BitVec.eq_of_getLsbD_eq
    intro k hk
    have hmask : ∀ k < 64, 10 ≤ k → (~~~PTE_U : Word).getLsbD k = true := by decide
    rw [BitVec.getLsbD_ushiftRight, BitVec.getLsbD_ushiftRight, getLsbD_and]
    by_cases h64 : 10 + k < 64
    · rw [hmask (10 + k) h64 (Nat.le_add_right 10 k), Bool.and_true]
    · rw [BitVec.getLsbD_of_ge pte (10 + k) (Nat.le_of_not_lt h64), Bool.false_and]
  rw [PTE2PA, PTE2PA, hdiv]

theorem shape_of_lt (h : k < n) : shape trampoline trapframe n g k = some (g k) := by
  rw [shape, if_pos h]

theorem shape_next (h : n < 2 ^ 26 - 2) : shape trampoline trapframe n g n = none := by
  rw [shape, if_neg (Nat.lt_irrefl n), if_neg (by omega), if_neg (by omega)]

theorem shape_succ (_h : n < 2 ^ 26 - 2) (x : Word) :
    update (shape trampoline trapframe n g) n (some x) =
      shape trampoline trapframe (n + 1) (update g n x) := by
  funext k
  simp only [Function.update_apply, shape]
  by_cases hk : k = n
  · rw [if_pos hk, if_pos (by omega), if_pos hk]
  · grind

theorem shape_cut (h : n0 ≤ n) (hn : n ≤ 2 ^ 26 - 2) :
    (fun j => if n0 ≤ j ∧ j < n0 + (n - n0) then none
      else shape trampoline trapframe n g j) = shape trampoline trapframe n0 g := by
  funext k
  simp only [shape]
  by_cases hlt : k < n0
  · rw [if_neg (by omega), if_pos (by omega), if_pos hlt]
  · grind

theorem frames_update (g : Nat → Word) (n : Nat) (x : Word) :
    frames (update g n x) 0 (n + 1) = PTE2PA x ::ₘ frames g 0 n := by
  rw [frames_concat, Nat.zero_add, update_self]
  congr 1
  refine frames_congr fun j _ hj => ?_
  rw [update_of_ne (by omega)]

/-! ## Growing and shrinking -/

namespace User

section

variable (h : User trampoline trapframe m r T n g)

include h

theorem congr (hs : Same m m' T) :
    User trampoline trapframe m' r T n g := ⟨(h.space.congr hs).1, h.leaf⟩

theorem cut (hU : Pages kend U)
    (hpool : Pool U m l (T + (frames g 0 n + A))) (npages : Word) (ha : At a n0)
    (hle : n0 ≤ n) (hn : npages.toNat = n - n0) :
    ∃ m' l', uvmunmap kend m r a npages true = .ok m' ∧
      Pool U m' l' (T + (frames g 0 n0 + A)) ∧ User trampoline trapframe m' r T n0 g ∧
      Same m m' (frames g 0 n0 + A) ∧ Grows m m' r := by
  have hbound := hpool.bound hU
  have hsplit : frames g 0 n = frames g n0 (n - n0) + frames g 0 n0 := by
    have hadd := frames_add g 0 n0 (n - n0)
    rw [Nat.zero_add, Nat.add_sub_cancel' hle] at hadd
    rw [hadd, Multiset.add_comm]
  rcases h.space.unmapFrom (A := frames g 0 n0 + A) (k := n0) (n := n - n0) (g := g) true
    hU rfl (hpool.cast (by rw [hsplit, if_pos rfl, Multiset.add_assoc])) ha
    (by omega) (fun j _ hj => ⟨shape_of_lt (by omega), (h.leaf j (by omega)).flags⟩) with
    ⟨m', l', heq, hpool', hspace, hsame, hg⟩
  rw [shape_cut hle (by omega)] at hspace
  refine ⟨m', l', ?_, hpool', ⟨hspace, fun k hk => h.leaf k (by omega)⟩, hsame, hg⟩
  rw [uvmunmap_eq ha hn (by omega)]
  exact heq

theorem uvmdealloc (hU : Pages kend U)
    (hpool : Pool U m l (T + (frames g 0 n + A))) (hold : pagesIn oldsz = n) (newsz : Word) :
    ∃ m' l', Vm.uvmdealloc kend m r oldsz newsz = .ok (if oldsz ≤ newsz then oldsz else newsz, m') ∧
      Pool U m' l' (T + (frames g 0 (pagesIn (if oldsz ≤ newsz then oldsz else newsz)) + A)) ∧
      User trampoline trapframe m' r T (pagesIn (if oldsz ≤ newsz then oldsz else newsz)) g ∧
      Same m m' (frames g 0 (pagesIn (if oldsz ≤ newsz then oldsz else newsz)) + A) ∧
      Grows m m' r := by
  have hbound := hpool.bound hU
  unfold Vm.uvmdealloc
  by_cases hle : oldsz ≤ newsz
  · rw [if_pos hle, if_pos hle, hold]
    exact ⟨m, l, rfl, hpool, h, Same.refl, Grows.refl⟩
  · rw [if_neg hle, if_neg hle]
    rw [le_def] at hle
    have hsmall : oldsz.toNat ≤ n * 4096 := by
      simp only [pagesIn, PGSIZE] at hold
      omega
    have hatOld := at_PGROUNDUP oldsz (by omega)
    have hatNew := at_PGROUNDUP newsz (by omega)
    rw [hold] at hatOld
    have hpages : pagesIn newsz ≤ n := by
      rw [← hold]
      simp only [pagesIn, PGSIZE]
      omega
    by_cases hlt : PGROUNDUP newsz < PGROUNDUP oldsz
    · rw [if_pos hlt]
      rw [lt_def, hatOld, hatNew] at hlt
      -- The count goes through an `int` on its way to `uvmunmap`.
      have hcount : ((PGROUNDUP oldsz - PGROUNDUP newsz) / 4096#64).toNat = n - pagesIn newsz := by
        have h4096 : (4096#64 : Word).toNat = 4096 := rfl
        rw [BitVec.toNat_udiv, h4096, toNat_sub, hatOld, hatNew]
        simp only [PGSIZE] at hlt ⊢
        omega
      rcases h.cut hU hpool ((((PGROUNDUP oldsz - PGROUNDUP newsz) /
        4096#64).setWidth 32).signExtend 64) hatNew hpages
        (by rw [toNat_int (by omega), hcount]) with
        ⟨m', l', heq, hpool', hu, hsame, hg⟩
      refine ⟨m', l', ?_, hpool', hu, hsame, hg⟩
      simp only [heq]
      rfl
    · rw [if_neg hlt]
      rw [lt_def, hatOld, hatNew] at hlt
      -- Smaller, but not by a page.
      have heq : pagesIn newsz = n := by
        simp only [PGSIZE] at hlt
        omega
      rw [heq]
      exact ⟨m, l, rfl, hpool, h, Same.refl, Grows.refl⟩

theorem retreat (hU : Pages kend U)
    (hpool : Pool U m l (T + (frames g 0 n + A))) (ha : At a n) (hold : At oldsz n0)
    (hle : n0 ≤ n) : ∃ sz m' l', Vm.uvmdealloc kend m r a oldsz = .ok (sz, m') ∧
      Pool U m' l' (T + (frames g 0 n0 + A)) ∧ User trampoline trapframe m' r T n0 g ∧
      Same m m' (frames g 0 n0 + A) ∧ Grows m m' r := by
  obtain ⟨m', l', heq, hpool', hu, hsame, hg⟩ := h.uvmdealloc hU hpool ha.pagesIn oldsz
  have hpages : pagesIn (if a ≤ oldsz then a else oldsz) = n0 := by
    split_ifs with hcmp
    · rw [le_def, ha, hold] at hcmp
      rw [ha.pagesIn]
      simp only [PGSIZE] at hcmp
      omega
    · exact hold.pagesIn
  rw [hpages] at hpool' hu hsame
  exact ⟨_, m', l', heq, hpool', hu, hsame, hg⟩

theorem mapNext (perm : Word) (hU : Pages kend U)
    (hpool : Pool U m l (pa ::ₘ (T + (frames g 0 n + A)))) (ha : At a n)
    (hperm : perm.toNat < 1024) (hread : perm.getLsbD 1 = true) :
    ∃ done m' l' T', mappages m r a 4096#64 pa perm = .ok (done, m') ∧
      Same m m' (pa ::ₘ (frames g 0 n + A)) ∧ Grows m m' r ∧
      (done = true → Pool U m' l' (T' + (frames
          (update g n (PA2PTE pa ||| perm ||| PTE_V)) 0 (n + 1) + A)) ∧
        User trampoline trapframe m' r T' (n + 1) (update g n (PA2PTE pa ||| perm ||| PTE_V))) ∧
      (done = false → Pool U m' l' (pa ::ₘ (T' + (frames g 0 n + A))) ∧
        User trampoline trapframe m' r T' n g) := by
  have hal := (hpool.isPage hU (mem_cons_self pa _)).2.1
  have hcast : pa ::ₘ (T + (frames g 0 n + A)) = T + (pa ::ₘ (frames g 0 n + A)) := by
    rw [add_cons]
  have hbound : n ≤ 0x88000 := (hpool.cast (F := T + (frames g 0 n + (pa ::ₘ A)))
    (by rw [add_cons, add_cons])).bound hU
  rw [mappages_one ha (by omega)]
  rcases h.space.mapOne pa perm (a := a) hU (hpool.cast hcast) (ha.lt (by omega))
    (by rw [ha.page]; exact shape_next (by omega)) with
    ⟨done, m', l', T', heq, hpool', hspace, hsame, hg⟩
  refine ⟨done, m', l', T', heq, hsame, hg, ?_, ?_⟩
  · rintro rfl
    rw [if_pos rfl, ha.page, shape_succ (by omega)] at hspace
    refine ⟨hpool'.cast ?_, hspace, fun k hk => ?_⟩
    · rw [frames_update, frame_pte hal hperm, Multiset.cons_add]
    · by_cases hkn : k = n
      · rw [hkn, update_self]
        exact leaf_pte pa hread
      · rw [update_of_ne hkn]
        exact h.leaf k (by omega)
  · rintro rfl
    rw [if_neg Bool.false_ne_true] at hspace
    exact ⟨hpool'.cast (by rw [add_cons]), hspace, h.leaf⟩

theorem fresh (m' : Phys) (hU : Pages kend U)
    (hpool : Pool U m l (pa ::ₘ (T + A))) (hw : ∀ b, b ≠ pa → m'.word b = m.word b)
    (hf : m'.freelist = m.freelist) :
    Pool U m' l (pa ::ₘ (T + A)) ∧ User trampoline trapframe m' r T n g ∧ Same m m' (T + A) := by
  have hnot : pa ∉ T + A := (Multiset.nodup_cons.1 (Multiset.nodup_add.1 (hpool.nodup hU)).2.1).1
  have hsame : Same m m' (T + A) := by
    intro b hb
    refine hw b ?_
    rintro rfl
    exact hnot hb
  exact ⟨hpool.touch hU (mem_cons_self pa _) hw hf, h.congr hsame.left, hsame⟩

end

/-- A page that a user has just been given: it is there for the user, and empty. -/
def Blank (m : Phys) (pte : Word) : Prop := pte &&& PTE_U ≠ 0#64 ∧ ∀ i, m.word (PTE2PA pte) i = 0#64

theorem user_pte (pa : Word) (h : perm.getLsbD 4 = true) :
    (PA2PTE pa ||| perm ||| PTE_V) &&& PTE_U ≠ 0#64 := by
  intro hz
  have hbit := congrArg (fun x : Word => x.getLsbD 4) hz
  have hmask : PTE_U.getLsbD 4 = true := by decide
  simp only [getLsbD_and, getLsbD_or, h, hmask, Bool.or_true, Bool.true_or,
    Bool.and_self, BitVec.getLsbD_zero, Bool.true_eq_false] at hbit

theorem uvmallocFrom (hU : Pages kend U) (fuel : Nat) (newsz : Word)
    (h : User trampoline trapframe m r T n g) (hpool : Pool U m l (T + (frames g 0 n + A)))
    (ha : At a n) (hold : At oldsz n0) (hle : n0 ≤ n) (hfuel : 0x88000 < fuel + n)
    (hblank : ∀ k, n0 ≤ k → k < n → Blank m (g k)) :
    ∃ sz m' l' T' n' g', Vm.uvmallocFrom kend r oldsz newsz fuel m a = .ok (sz, m') ∧
      Pool U m' l' (T' + (frames g' 0 n' + A)) ∧ User trampoline trapframe m' r T' n' g' ∧
      Same m m' (frames g 0 n0 + A) ∧ Grows m m' r ∧ (∀ k < n0, g' k = g k) ∧
      (∀ k, n0 ≤ k → k < n' → Blank m' (g' k)) ∧
      ((sz = newsz ∧ n' = max n (pagesIn newsz)) ∨ (sz = 0#64 ∧ n' = n0)) := by
  have hsub : ∀ b, b ∈ frames g 0 n0 + A → b ∈ frames g 0 n + A := by
    intro b hb
    have hadd := frames_add g 0 n0 (n - n0)
    rw [Nat.zero_add, Nat.add_sub_cancel' hle] at hadd
    rw [hadd, mem_add, mem_add]
    rcases Multiset.mem_add.1 hb with hf | hA
    · exact .inl (.inl hf)
    · exact .inr hA
  induction fuel generalizing m l T n g a with
  | zero =>
    have hbound := hpool.bound hU
    omega
  | succ fuel ih =>
    simp only [Vm.uvmallocFrom]
    by_cases hlt : a < newsz
    swap
    · rw [if_neg hlt]
      rw [lt_def, ha] at hlt
      refine ⟨newsz, m, l, T, n, g, rfl, hpool, h, Same.refl, Grows.refl, fun _ _ => rfl, hblank,
        .inl ⟨rfl, ?_⟩⟩
      simp only [pagesIn, PGSIZE] at hlt ⊢
      omega
    · rw [if_pos hlt]
      rw [lt_def, ha] at hlt
      rcases hpool.kalloc hU with ⟨-, hk⟩ | ⟨mem, m1, l1, -, hk, hne, hpool1, hsame1⟩
      · -- no page for the process
        obtain ⟨sz, m', l', heq, hpool', hu, hsame, hg⟩ := h.retreat hU hpool ha hold hle
        refine ⟨0#64, m', l', T, n0, g, ?_, hpool', hu, hsame, hg, fun _ _ => rfl,
          fun k h1 h2 => absurd h1 (Nat.not_le.2 h2), .inr ⟨rfl, rfl⟩⟩
        simp only [hk, if_true, heq]
        rfl
      · have h1 := h.congr hsame1.left
        rcases h1.fresh (m1.fill mem 0#64) hU hpool1 (fun b hb => by
          funext j
          rw [word_fill, if_neg hb]) rfl with ⟨hpool2, h2, hsame2⟩
        have hg2 : Grows m (m1.fill mem 0#64) r :=
          (h.space.congr hsame1.left).2.trans (h1.space.congr hsame2.left).2
        have hsameA : Same m (m1.fill mem 0#64) (frames g 0 n + A) :=
          hsame1.right.trans hsame2.right
        rcases h2.mapNext (PTE_W ||| PTE_X ||| PTE_R ||| PTE_U) hU hpool2 ha (by decide)
          (by decide) with ⟨done, m3, l3, T3, hmap, hsame3, hg3, hdone, hfail⟩
        have hsame13 : Same m m3 (frames g 0 n + A) :=
          hsameA.trans fun b hb => hsame3 b (Multiset.mem_cons_of_mem hb)
        cases done with
        | true =>
          obtain ⟨hpool3, h3⟩ := hdone rfl
          have hbound := hpool3.bound hU
          -- The new page is empty and stays so; those before it do not change.
          have hmem : ∀ i, m3.word mem i = 0#64 := fun i => by
            rw [hsame3 mem (mem_cons_self _ _), word_fill, if_pos rfl]
          have hal := (hpool2.isPage hU (mem_cons_self mem _)).2.1
          have hblank3 : ∀ k, n0 ≤ k → k < n + 1 → Blank m3 (update g n
              (PA2PTE mem ||| (PTE_W ||| PTE_X ||| PTE_R ||| PTE_U) ||| PTE_V) k) := by
            intro k hk0 hk1
            by_cases hkn : k = n
            · rw [hkn, update_self]
              refine ⟨user_pte mem (by decide), fun i => ?_⟩
              rw [frame_pte hal (by decide)]
              exact hmem i
            · rw [update_of_ne hkn]
              obtain ⟨huser, hzero⟩ := hblank k hk0 (by omega)
              refine ⟨huser, fun i => ?_⟩
              have hframe : PTE2PA (g k) ∈ frames g 0 n :=
                Multiset.mem_coe.2 (List.mem_map.2 ⟨k, by rw [List.mem_range'_1]; omega, rfl⟩)
              rw [hsame13 _ (Multiset.mem_add.2 (.inl hframe))]
              exact hzero i
          have hg0 : frames (update g n
              (PA2PTE mem ||| (PTE_W ||| PTE_X ||| PTE_R ||| PTE_U) ||| PTE_V)) 0 n0 =
              frames g 0 n0 :=
            frames_congr fun j _ hj => update_of_ne (by omega) _ _
          rcases ih h3 hpool3 (ha.next (by omega)) (by omega) (by omega) hblank3 (by
            intro b hb
            rw [hg0] at hb
            rw [frames_update]
            rcases Multiset.mem_add.1 (hsub b hb) with hf | hA
            · exact Multiset.mem_add.2 (.inl (Multiset.mem_cons_of_mem hf))
            · exact Multiset.mem_add.2 (.inr hA)) with
            ⟨sz, m', l', T', n', g', heq, hpool', hu, hsame', hg', hgk, hbl, hres⟩
          rw [hg0] at hsame'
          refine ⟨sz, m', l', T', n', g', ?_, hpool', hu, Same.trans (fun b hb => hsame13 b
            (hsub b hb)) hsame', (hg2.trans hg3).trans hg', ?_, hbl, ?_⟩
          · simp only [hk, hne, if_false, hmap]
            exact heq
          · intro k hk'
            rw [hgk k hk', update_of_ne (by omega)]
          · rcases hres with ⟨hsz, hn'⟩ | hzero
            · refine .inl ⟨hsz, ?_⟩
              simp only [pagesIn, PGSIZE] at hlt hn' ⊢
              omega
            · exact .inr hzero
        | false =>
          -- no page for the table
          obtain ⟨hpool3, h3⟩ := hfail rfl
          obtain ⟨m4, hkf, hpool4, hsame4⟩ := hpool3.kfree hU
          obtain ⟨sz, m', l', heq, hpool', hu, hsame', hg'⟩ :=
            (h3.congr hsame4.left).retreat hU hpool4 ha hold hle
          refine ⟨0#64, m', l', T3, n0, g, ?_, hpool', hu,
            Same.trans (fun b hb => (hsame13.trans hsame4.right) b (hsub b hb)) hsame',
            ((hg2.trans hg3).trans (h3.space.congr hsame4.left).2).trans hg',
            fun _ _ => rfl, fun k h1 h2 => absurd h1 (Nat.not_le.2 h2), .inr ⟨rfl, rfl⟩⟩
          simp only [hk, hne, if_false, hmap]
          show ((Vm.kfree kend m3 mem).bind fun m =>
            (Vm.uvmdealloc kend m r a oldsz).bind fun x => .ok (0#64, x.2)) = _
          rw [hkf]
          show ((Vm.uvmdealloc kend m4 r a oldsz).bind fun x => .ok (0#64, x.2)) = _
          rw [heq]
          rfl

/-- Growing: if the size that comes back is `0` there are as many pages as before. The pages that
    were there do not change, and the others are empty. -/
theorem uvmalloc (h : User trampoline trapframe m r T n g) (hU : Pages kend U)
    (hpool : Pool U m l (T + (frames g 0 n + A))) (hold : pagesIn oldsz = n) (newsz : Word) :
    ∃ sz m' l' T' n' g', Vm.uvmalloc kend m r oldsz newsz = .ok (sz, m') ∧
      Pool U m' l' (T' + (frames g' 0 n' + A)) ∧ User trampoline trapframe m' r T' n' g' ∧
      Same m m' (frames g 0 n + A) ∧ Grows m m' r ∧ (∀ k < n, g' k = g k) ∧
      n' = (if sz = 0#64 then n else pagesIn sz) ∧ (∀ k, n ≤ k → k < n' → Blank m' (g' k)) ∧
      (sz = 0#64 ∨ (newsz < oldsz ∧ sz = oldsz) ∨ (¬ newsz < oldsz ∧ sz = newsz)) := by
  have hbound := hpool.bound hU
  unfold Vm.uvmalloc
  by_cases hlt : newsz < oldsz
  · rw [if_pos hlt]
    refine ⟨oldsz, m, l, T, n, g, rfl, hpool, h, Same.refl, Grows.refl, fun _ _ => rfl, ?_,
      fun k h1 h2 => absurd h1 (Nat.not_le.2 h2), .inr (.inl ⟨hlt, rfl⟩)⟩
    rw [hold, ite_self]
  · rw [if_neg hlt]
    have hlt' := hlt
    rw [lt_def] at hlt
    have hsmall : oldsz.toNat ≤ n * 4096 := by
      simp only [pagesIn, PGSIZE] at hold
      omega
    have hat := at_PGROUNDUP oldsz (by omega)
    rw [hold] at hat
    -- Every round takes a page, so `rounds` of them are never used up.
    rcases uvmallocFrom hU rounds newsz h hpool hat hat (Nat.le_refl n) (by
      have hr : rounds = 0x88001 := rfl
      omega) (fun k h1 h2 => absurd h1 (Nat.not_le.2 h2)) with
      ⟨sz, m', l', T', n', g', heq, hpool', hu, hsame, hg, hgk, hbl, hres⟩
    refine ⟨sz, m', l', T', n', g', heq, hpool', hu, hsame, hg, hgk, ?_, hbl, ?_⟩
    · have hmono : n ≤ pagesIn newsz := by
        rw [← hold]
        simp only [pagesIn, PGSIZE]
        omega
      rcases hres with ⟨rfl, hn'⟩ | ⟨rfl, hn'⟩
      · split_ifs with hz
        -- A size of 0 is also how failing looks, and then nothing was there before.
        · rw [hz] at hn' hmono
          have hzero : pagesIn 0#64 = 0 := rfl
          omega
        · omega
      · rw [if_pos rfl]
        exact hn'
    · rcases hres with ⟨rfl, -⟩ | ⟨rfl, -⟩
      · exact .inr (.inr ⟨hlt', rfl⟩)
      · exact .inl rfl

end User

end Xv6.Vm
