import Xv6.Core.Morecore
import Xv6.Theory.Umalloc

/-!
# Requests the Kernel Can Count

From two gigabytes on, what `morecore` asks for does not fit into the `int` of `sbrk`. As an
`int` it is negative, zero or 16: the process stays as it is, shrinks or grows by one header, and
`morecore` records a block of what it asked for.

## Theorems

* `malloc_below_two_gigabytes`
-/

namespace Xv6.Umalloc.Kernel

/-- What the kernel gave is in the process, and that in the machine. -/
def Small (h : Heap) : Prop := HSIZE * h.units ≤ h.brk ∧ h.brk ≤ RAM

variable {mem : Nat}

variable {h : Heap} {n sz : Nat}

theorem grown_le (hs : h.brk ≤ RAM) (own : Nat) :
    h.brk ≤ grown h own ∧ grown h own ≤ RAM := by
  unfold grown
  split_ifs <;> omega

theorem int_of_lt (hn : n < 2 ^ 31) : int n = n := by
  rw [int, BitVec.toInt_eq_toNat_cond, BitVec.toNat_ofNat]
  split_ifs <;> omega

theorem addr_eq (hsz : sz ≤ RAM) : (int sz % 2 ^ 64).toNat = sz := by
  simp only [RAM] at hsz
  rw [int_of_lt (by omega)]
  omega

/-- A request that is an `int` is answered as asked, or refused. -/
theorem growproc_eq (hsz : sz ≤ RAM) (hn : n < 2 ^ 31) (hpos : 0 < n) (room : Bool) :
    growproc sz (int n) room = if room ∧ sz + n ≤ RAM then some (sz + n) else none := by
  simp only [RAM] at hsz ⊢
  have hsum : (((sz : Nat) + int n) % 2 ^ 32).toNat = sz + n := by
    rw [int_of_lt hn]
    omega
  have hint : 0 < int n := by
    rw [int_of_lt hn]
    omega
  unfold growproc
  rw [hsum, if_pos hint, if_neg (by omega)]

theorem sbrk_eq (hmem : RAM ≤ HSIZE * mem) (hs : Small h) (own : Nat) (room : Bool)
    {nu : Nat} (hnu : nu * HSIZE < 2 ^ 31) (hpos : 0 < nu) :
    ∃ gap, sbrk h own room (nu * HSIZE) = Umalloc.sbrk mem h gap nu ∧
      ∀ r, Umalloc.sbrk mem h gap nu = some r → Small r.2 := by
  obtain ⟨hunits, hram⟩ := hs
  obtain ⟨hlow, hhigh⟩ := grown_le hram own
  have hgrow := growproc_eq hhigh hnu (by simp only [HSIZE]; omega) room
  have haddr := addr_eq hhigh
  simp only [HSIZE, RAM] at hunits hmem hgrow
  unfold sbrk Umalloc.sbrk
  by_cases hroom : room = true ∧ grown h own + nu * 16 ≤ 2 ^ 27
  · rw [if_pos hroom] at hgrow
    have hbrk : h.brk + (grown h own - h.brk) = grown h own := by omega
    have hfits : h.units + nu ≤ mem := by omega
    refine ⟨some (grown h own - h.brk), ?_, ?_⟩
    · simp only [HSIZE, hgrow, haddr, hbrk, if_pos hfits]
      congr 3
      · omega
      · omega
    · intro r hr
      simp only [if_pos hfits] at hr
      cases hr
      simp only [Small, HSIZE, RAM]
      omega
  · rw [if_neg hroom] at hgrow
    refine ⟨none, ?_, fun r hr => by cases hr⟩
    simp only [HSIZE, hgrow]

/-- `free` leaves the kernel's side alone. -/
theorem free_small {fuel ap : Nat} {h' : Heap} (hs : Small h)
    (hfree : Umalloc.free fuel h ap = some h') : Small h' := by
  unfold Umalloc.free at hfree
  dsimp only at hfree
  split at hfree
  · cases hfree
  · cases hfree
    unfold Small joinLower joinUpper
    split_ifs <;> exact hs

theorem morecore_eq (hmem : RAM ≤ HSIZE * mem) (hs : Small h) (fuel own : Nat) (room : Bool)
    {n : UInt32}
    (hn : n.toNat * HSIZE < 2 ^ 31) :
    ∃ gap, morecore fuel h n own room = Umalloc.morecore fuel mem h n gap ∧
      ∀ r, Umalloc.morecore fuel mem h n gap = some (some r) → Small r.2 := by
  obtain ⟨nu, hnu⟩ : ∃ nu, nu = (if n < 4096 then 4096 else n) := ⟨_, rfl⟩
  have hsize : nu.toNat * HSIZE < 2 ^ 31 ∧ 0 < nu.toNat := by
    simp only [HSIZE] at hn ⊢
    split_ifs at hnu with hlt
    · subst hnu
      decide
    · subst hnu
      have := UInt32.le_iff_toNat_le.mp (UInt32.not_lt.mp hlt)
      have h4096 : (4096 : UInt32).toNat = 4096 := rfl
      omega
  obtain ⟨gap, hsbrk, hsmall⟩ := sbrk_eq hmem hs own room hsize.1 hsize.2
  refine ⟨gap, ?_, ?_⟩
  · unfold morecore Umalloc.morecore
    simp only [← hnu, hsbrk]
    all_goals rfl
  · intro r hr
    unfold Umalloc.morecore at hr
    simp only [← hnu] at hr
    split at hr
    · cases hr
    next hp h1 hsome =>
      split at hr
      · cases hr
      next h2 hfree =>
        cases hr
        have hs1 : Small { h1 with size := Function.update h1.size hp nu } := hsmall _ hsome
        exact free_small hs1 hfree

theorem mallocLoop_eq (mem : Nat) (hmem : RAM ≤ HSIZE * mem) {n : UInt32}
    (hn : n.toNat * HSIZE < 2 ^ 31)
    (fuel : Nat) : ∀ (calls : List (Nat × Bool)) (h : Heap) (prevp p : Nat), Small h → ∃ gaps,
      mallocLoop n fuel calls h prevp p = Umalloc.mallocLoop mem n fuel gaps h prevp p ∧
      ∀ r, Umalloc.mallocLoop mem n fuel gaps h prevp p = some r → Small r.2 := by
  induction fuel with
  | zero => exact fun _ _ _ _ _ => ⟨[], rfl, fun r hr => by cases hr⟩
  | succ fuel ih =>
    intro calls h prevp p hs
    simp only [mallocLoop, Umalloc.mallocLoop]
    by_cases hfit : n ≤ h.size p
    · refine ⟨[], by rw [if_pos hfit, if_pos hfit], fun r hr => ?_⟩
      rw [if_pos hfit] at hr
      cases hr
      unfold carve
      split_ifs <;> exact hs
    · simp only [if_neg hfit]
      by_cases hp : p = h.freep
      · simp only [if_pos hp]
        obtain ⟨gap, hmore, hsmall⟩ := morecore_eq hmem hs fuel (calls.headD (0, false)).1
          (calls.headD (0, false)).2 hn
        rw [hmore]
        rcases hrun : Umalloc.morecore fuel mem h n gap with _ | _ | ⟨p', h'⟩
        · exact ⟨[gap], by rw [List.headD_cons, hrun], by simp [hrun]⟩
        · refine ⟨[gap], by rw [List.headD_cons, hrun], fun r hr => ?_⟩
          rw [List.headD_cons, hrun] at hr
          cases hr
          exact hs
        · obtain ⟨gaps, hrest, hsmall'⟩ := ih calls.tail h' p' (h'.ptr p') (hsmall _ hrun)
          refine ⟨gap :: gaps, by rw [List.headD_cons, hrun]; exact hrest, fun r hr => ?_⟩
          rw [List.headD_cons, hrun] at hr
          exact hsmall' r hr
      · simp only [if_neg hp]
        exact ih calls h p (h.ptr p) hs

/-- A heap on which every request was an `int`: its bytes are those that `sbrk` gave. -/
structure Owned (base start : Nat) (s : Sys) (bs : List (Nat × Nat)) : Prop where
  good : Good base MEM s bs
  small : Small s.heap
  above : start ≤ s.heap.brk
  free : ∀ b ∈ bs, ∀ a, In a b → start ≤ a
  live : ∀ x ∈ s.live, ∀ a, In a x.block → start ≤ a

variable {base start : Nat} {s : Sys} {bs : List (Nat × Nat)}

theorem MEM_lt : MEM < 2 ^ 32 := by decide

theorem Owned.setUp_eq (base : Nat) (h : Heap) :
    (setUp base h).brk = h.brk ∧ (setUp base h).units = h.units := by
  unfold setUp
  split_ifs <;> exact ⟨rfl, rfl⟩

theorem Owned.malloc (ho : Owned base start s bs) {nbytes : UInt32}
    (hn : nunits nbytes * HSIZE < 2 ^ 31) (calls : List (Nat × Bool)) :
    (Kernel.malloc base s.heap nbytes calls = some (0, setUp base s.heap) ∧
      Owned base start { s with heap := setUp base s.heap } bs) ∨
    ∃ new h' bs', Kernel.malloc base s.heap nbytes calls = some (new + 16, h') ∧
      Taken base MEM (setUp base s.heap) bs (nunits nbytes) new h' bs' ∧
      Owned base start ⟨h', ⟨new, nunits nbytes, nbytes⟩ :: s.live⟩ bs' := by
  obtain ⟨hbrk, hunits⟩ := Owned.setUp_eq base s.heap
  have hs : Small (setUp base s.heap) := by
    rw [Small, hbrk, hunits]
    exact ho.small
  have hstart := ho.above
  rw [← hbrk] at hstart
  obtain ⟨gaps, hrun, hsmall⟩ := mallocLoop_eq MEM (by decide)
    ((nunits_toNat hn).symm ▸ hn) (rounds MEM) calls (setUp base s.heap)
    (setUp base s.heap).freep ((setUp base s.heap).ptr (setUp base s.heap).freep) hs
  rcases ho.good.malloc MEM_lt hn gaps with ⟨heq, hgood⟩ | ⟨new, h', bs', heq, ht, hgood⟩
  · exact .inl ⟨hrun.trans heq, hgood, hs, hstart, ho.free, ho.live⟩
  · have hfrom : ∀ b ∈ (new, nunits nbytes) :: bs', ∀ a, In a b → start ≤ a := by
      intro b hb a ha
      rcases ht.cover b hb a ha with ⟨c, hc, hac⟩ | hhigh
      · exact ho.free c hc a hac
      · exact Nat.le_trans hstart hhigh
    refine .inr ⟨new, h', bs', hrun.trans heq, ht, hgood, hsmall _ heq,
      Nat.le_trans hstart ht.brk, fun b hb => hfrom b (List.mem_cons_of_mem _ hb), ?_⟩
    intro x hx
    rcases List.mem_cons.mp hx with rfl | hx
    · exact hfrom _ List.mem_cons_self
    · exact ho.live x hx

theorem Reach.owned (hr : Reach base start s) : ∃ bs, Owned base start s bs := by
  induction hr with
  | init hbase hbrk hram =>
    refine ⟨[(base, 0)], ⟨hbase, inv_init hbrk, fun _ => ⟨rfl, rfl⟩⟩, ⟨Nat.zero_le _, hram⟩,
      Nat.le_refl _, ?_, fun x hx => absurd hx List.not_mem_nil⟩
    intro b hb a ha
    rw [List.mem_singleton.mp hb] at ha
    have h1 := ha.1
    have h2 := ha.2
    dsimp only at h1 h2
    omega
  | malloc nbytes calls _ hn hrun ih =>
    obtain ⟨bs, ho⟩ := ih
    rcases ho.malloc hn calls with ⟨heq, ho'⟩ | ⟨new, h', bs', heq, ht, ho'⟩
    · rw [heq] at hrun
      cases hrun
      exact ⟨bs, ho'⟩
    · rw [heq] at hrun
      cases hrun
      rw [taken, if_neg (by omega), HSIZE, Nat.add_sub_cancel, ht.size]
      exact ⟨bs', ho'⟩
  | free x _ hx hrun ih =>
    obtain ⟨bs, ho⟩ := ih
    obtain ⟨h', bs', heq, hgood, hkernel, hcover⟩ := ho.good.free MEM_lt hx
    rw [heq] at hrun
    cases hrun
    refine ⟨bs', hgood, ?_, ?_, ?_, fun y hy => ho.live y (List.mem_of_mem_erase hy)⟩
    · dsimp only
      rw [Small, hkernel.1, hkernel.2]
      exact ho.small
    · dsimp only
      rw [hkernel.1]
      exact ho.above
    · intro b hb a ha
      rcases hcover b hb a ha with ⟨c, hc, hac⟩ | hax
      · exact ho.free c hc a hac
      · exact ho.live x hx a hax

/-- From two gigabytes on the `int` is small, and is not refused. -/
theorem growproc_wrapped (hlow : 2 ^ 31 ≤ n) (hhigh : n ≤ 2 ^ 32 + 16) :
    ∃ sz, growproc 4096 (int n) true = some sz ∧ sz ≤ 4112 := by
  have hint : int n = (n : Int) - 2 ^ 32 := by
    rw [int, BitVec.toInt_eq_toNat_cond, BitVec.toNat_ofNat]
    split_ifs <;> omega
  unfold growproc
  rw [hint]
  simp only [RAM]
  split_ifs with h1 h2 h3
  · exact ⟨_, rfl, by omega⟩
  · exact ⟨_, rfl, by omega⟩
  · exact absurd ⟨trivial, by omega⟩ h3
  all_goals exact ⟨_, rfl, by omega⟩

theorem nunits_le (nbytes : UInt32) : nunits nbytes ≤ 2 ^ 28 + 1 := by
  have := nbytes.toNat_lt
  simp only [nunits, HSIZE]
  omega

/-- In a heap on which every request so far was for less than two gigabytes, such a request
    returns, the process does not shrink, and what is returned is `0` or bytes that `sbrk` gave
    and no other block has. And the kernel adds the block that `morecore` records, whenever it
    does not refuse, just for these requests. -/
theorem malloc_below_two_gigabytes (hr : Reach base start s) (nbytes : UInt32)
    (calls : List (Nat × Bool)) :
    (nunits nbytes * HSIZE < 2 ^ 31 → ∃ ap h',
      Kernel.malloc base s.heap nbytes calls = some (ap, h') ∧
      s.heap.brk ≤ h'.brk ∧ (ap = 0 ∨ start ≤ ap ∧ ap + nbytes.toNat ≤ h'.brk ∧
        ∀ x ∈ s.live, ∀ a, ap ≤ a → a < ap + nbytes.toNat → ¬ In a x.block)) ∧
    ((∀ h own room p h', h.brk ≤ RAM →
        sbrk h own room (max 4096 (nunits nbytes) * HSIZE) = some (p, h') →
        h'.brk = p + max 4096 (nunits nbytes) * HSIZE) ↔ nunits nbytes * HSIZE < 2 ^ 31) := by
  obtain ⟨bs, ho⟩ := hr.owned
  refine ⟨fun hn => ?_, fun hall => ?_, fun hn h own room p h' hram hrun => ?_⟩
  · obtain ⟨hbrk, -⟩ := Owned.setUp_eq base s.heap
    rcases ho.malloc hn calls with ⟨heq, ho'⟩ | ⟨new, h', bs', heq, ht, ho'⟩
    · exact ⟨0, _, heq, Nat.le_of_eq hbrk.symm, .inl rfl⟩
    · have hbytes : nbytes.toNat + 16 ≤ 16 * nunits nbytes := by
        simp only [nunits, HSIZE]
        omega
      have hlast := (ht.inside (new + 16 * nunits nbytes - 1) ⟨by dsimp only; omega, by
        dsimp only; omega⟩).2
      have hfirst := ho'.live _ List.mem_cons_self new ⟨Nat.le_refl _, by
        dsimp only [Live.block]; omega⟩
      have hle := ht.brk
      rw [hbrk] at hle
      refine ⟨new + 16, h', heq, hle, .inr ⟨by omega, by omega, ?_⟩⟩
      intro x hx a hlow hhigh
      -- the bytes behind the header are in the new block, which is apart from the others
      refine (List.pairwise_cons.mp ho'.good.inv.apart).1 x hx a ⟨?_, ?_⟩
      · dsimp only [Live.block]
        omega
      · dsimp only [Live.block]
        omega
  · by_contra hn
    have hle := nunits_le nbytes
    obtain ⟨sz, hgrow, hsz⟩ := growproc_wrapped (n := max 4096 (nunits nbytes) * HSIZE)
      (by simp only [HSIZE] at hn ⊢; omega) (by simp only [HSIZE] at hn ⊢; omega)
    have hrun := hall (Sys.init 4096).heap 0 true 4096
      { (Sys.init 4096).heap with brk := sz, units := 0 + (sz - 4096) / HSIZE } (by decide) (by
        unfold sbrk
        have hgrown : grown (Sys.init 4096).heap 0 = 4096 := rfl
        rw [hgrown, hgrow]
        rfl)
    simp only [HSIZE] at hn hrun
    omega
  · have hgrown := (grown_le hram own).2
    unfold sbrk at hrun
    rw [growproc_eq hgrown (by simp only [HSIZE] at hn ⊢; omega) (by simp only [HSIZE]; omega),
      addr_eq hgrown] at hrun
    split at hrun
    · cases hrun
    next sz hsome =>
      split_ifs at hsome
      cases hsome
      cases hrun
      rfl

/-- The first request of a program. -/
theorem malloc_hundred_bytes : Reach 16 8192 (Sys.init 8192) ∧
    ∃ ap h', Kernel.malloc 16 (Sys.init 8192).heap 100 [(0, true)] = some (ap, h') ∧
      8192 ≤ h'.brk ∧ (ap = 0 ∨ 8192 ≤ ap ∧ ap + 100 ≤ h'.brk) := by
  have hr : Reach 16 8192 (Sys.init 8192) := .init (by decide) (by decide) (by decide)
  obtain ⟨ap, h', hrun, hbrk, hres⟩ :=
    (malloc_below_two_gigabytes hr 100 [(0, true)]).1 (by decide)
  exact ⟨hr, ap, h', hrun, hbrk, hres.imp_right fun h => ⟨h.1, h.2.1⟩⟩

/-- A program has taken 512 bytes for itself and asks for two gigabytes. It gets a block where its
    memory ends. -/
theorem malloc_two_gigabytes : ¬ ∀ s, Reach 16 8192 s → ∀ nbytes calls ap h',
    Kernel.malloc 16 s.heap nbytes calls = some (ap, h') →
      ap = 0 ∨ ap + nbytes.toNat ≤ h'.brk := by
  intro hall
  have htest : (match Kernel.malloc 16 (Sys.init 8192).heap (2 ^ 31) [(512, true)] with
      | some (ap, h) => ap == 8720 && h.brk == 8704
      | none => false) = true := by decide +kernel
  split at htest
  case h_2 => cases htest
  case h_1 ap h hrun =>
    simp only [Bool.and_eq_true, beq_iff_eq] at htest
    obtain ⟨rfl, hbrk⟩ := htest
    have hres := hall _ (.init (by decide) (by decide) (by decide)) _ _ _ _ hrun
    rw [hbrk] at hres
    exact absurd hres (by decide)

end Xv6.Umalloc.Kernel
