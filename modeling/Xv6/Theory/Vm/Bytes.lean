import Xv6.Theory.Vm.Calls
import Xv6.Theory.Vm.Copy

/-!
# The Bytes of a Process

A process sees its memory through its table, one page after the other and each of them once. So
what the kernel stores at a user's address is what the user sees there, and nothing else changes:
no other byte of the user, no table, no free page and no page of anybody else.

## Theorems

* `Vm.User.frame_inj`, `Vm.User.poke`
-/

namespace Xv6.Vm

open Option (bind_some map_some)

variable {kend trampoline trapframe : Word} {U A T T' : Multiset Word} {m m' : Phys} {r : Word}
  {l : List Word} {n n' a : Nat} {g g' : Nat → Word}

section

variable (h : User trampoline trapframe m r T n g)

include h

theorem User.frameOf_eq (hn : n ≤ 0x88000) (a : Nat) :
    frameOf m r a = if a / PGSIZE < n then
      if g (a / PGSIZE) &&& PTE_U = 0#64 then none
      else some (PTE2PA (g (a / PGSIZE))) else none := by
  unfold frameOf
  by_cases ha : a < MAXVA
  · have hpage : page (BitVec.ofNat 64 a) = a / PGSIZE := by rw [page, toNat_addr ha]
    rw [if_pos ha, h.space.map _ (by rw [toNat_addr ha]; exact ha), hpage, shape]
    by_cases hlt : a / PGSIZE < n
    · rw [if_pos hlt, if_pos hlt, bind_some]
    · rw [if_neg hlt, if_neg hlt]
      split_ifs
      · rw [bind_some, BitVec.or_assoc, if_pos (pte_and _ (by decide) (by decide))]
      · rw [bind_some, BitVec.or_assoc, if_pos (pte_and _ (by decide) (by decide))]
      · rfl
  · rw [if_neg ha, if_neg]
    simp only [MAXVA, PGSIZE] at *
    omega

theorem User.vbyte_eq
    (h' : User trampoline trapframe m' r T' n' g') (hn : n ≤ 0x88000) (hn' : n' ≤ 0x88000)
    (ha : a / PGSIZE < n) (ha' : a / PGSIZE < n') (hg : g' (a / PGSIZE) = g (a / PGSIZE))
    (hword : m'.word (PTE2PA (g (a / PGSIZE))) = m.word (PTE2PA (g (a / PGSIZE)))) :
    vbyte m' r a = vbyte m r a := by
  unfold vbyte
  rw [h.frameOf_eq hn, h'.frameOf_eq hn', if_pos ha, if_pos ha', hg]
  split_ifs
  · rfl
  · simp only [map_some, Phys.byte, hword]

theorem User.vbyte_blank (hn : n ≤ 0x88000)
    (ha : a / PGSIZE < n) (hblank : User.Blank m (g (a / PGSIZE))) : vbyte m r a = some 0 := by
  unfold vbyte
  rw [h.frameOf_eq hn, if_pos ha, if_neg hblank.1, map_some, Phys.byte, hblank.2]
  rw [BitVec.zero_ushiftRight]
  rfl

theorem User.vbyte_congr (hn : n ≤ 0x88000)
    (hs : Same m m' (T + frames g 0 n)) : vbyte m' r = vbyte m r := by
  funext a
  have h' := h.congr hs.left
  by_cases hlt : a / PGSIZE < n
  · exact h.vbyte_eq h' hn hn hlt hlt rfl (hs.right _ (mem_frames hlt))
  · unfold vbyte
    rw [h.frameOf_eq hn, h'.frameOf_eq hn, if_neg hlt]
    rfl

end

variable {bytes : List UInt8}

theorem freelist_poke {F : Nat → Option Word} :
    (poke F m a bytes).freelist = m.freelist := by
  induction bytes generalizing m a with
  | nil => rfl
  | cons b bytes ih =>
    rw [poke, ih]
    cases F a <;> rfl

theorem vbyte_poke (hclear : Clear m r)
    (hinj : ∀ a b f, frameOf m r a = some f → frameOf m r b = some f → a / PGSIZE = b / PGSIZE)
    (hmapped : ∀ i < bytes.length, ∃ f, frameOf m r (a + i) = some f) (b : Nat) :
    vbyte (poke (frameOf m r) m a bytes) r b =
      if a ≤ b ∧ b < a + bytes.length then bytes[b - a]? else vbyte m r b := by
  unfold vbyte
  rw [(frameOf_poke hclear).1]
  by_cases hin : a ≤ b ∧ b < a + bytes.length
  · rw [if_pos hin]
    have hb : b = a + (b - a) := by omega
    obtain ⟨f, hf⟩ := hmapped (b - a) (by omega)
    rw [← hb] at hf
    rw [hf, map_some, ← byte_poke hinj (by omega) (hb ▸ hf) hmapped, ← hb]
  · rw [if_neg hin]
    cases hf : frameOf m r b with
    | none => rfl
    | some f =>
      rw [map_some, map_some]
      refine congrArg some (byte_poke_of_ne (Nat.mod_lt _ (by decide)) fun k hk hfk hmod => ?_)
      -- The same page and the same place in it is the same address.
      have hdiv := hinj _ _ _ hfk hf
      simp only [PGSIZE] at hdiv hmod
      omega

namespace User

section Own

variable (h : User trampoline trapframe m r T n g) (hU : Pages kend U)
  (hpool : Pool U m l (T + (frames g 0 n + A)))

include h hU hpool

theorem frameOf_some {f : Word} (hf : frameOf m r a = some f) :
    a / PGSIZE < n ∧ f = PTE2PA (g (a / PGSIZE)) := by
  rw [h.frameOf_eq (hpool.bound hU)] at hf
  split_ifs at hf with hlt
  exact ⟨hlt, (Option.some.inj hf).symm⟩

theorem frameOf_mem {f : Word} (hf : frameOf m r a = some f) : f ∈ frames g 0 n := by
  obtain ⟨hlt, rfl⟩ := h.frameOf_some hU hpool hf
  exact mem_frames hlt

theorem nonzero : Frames m r := by
  intro a hf
  refine (hU.page 0#64 ?_).1 rfl
  rw [← hpool.all]
  exact Multiset.mem_add.2 (.inr (Multiset.mem_add.2 (.inr (Multiset.mem_add.2
    (.inl (h.frameOf_mem hU hpool hf))))))

theorem clear : Clear m r := by
  intro a f p hf hp hn
  have hnd := (Multiset.nodup_add.1 (hpool.nodup hU)).2.1
  exact Multiset.disjoint_left.1 (Multiset.nodup_add.1 hnd).2.2 (h.space.node_mem hp hn)
    (Multiset.mem_add.2 (.inl (h.frameOf_mem hU hpool hf)))

theorem frame_inj (a b : Nat) (f : Word) (ha : frameOf m r a = some f)
    (hb : frameOf m r b = some f) : a / PGSIZE = b / PGSIZE := by
  have hnd := (Multiset.nodup_add.1 (hpool.nodup hU)).2.1
  have hndF := (Multiset.nodup_add.1 (Multiset.nodup_add.1 hnd).2.1).1
  have hinj := List.inj_on_of_nodup_map (Multiset.coe_nodup.1 hndF)
  obtain ⟨hka, hfa⟩ := h.frameOf_some hU hpool ha
  obtain ⟨hkb, hfb⟩ := h.frameOf_some hU hpool hb
  exact hinj (List.mem_range'_1.2 ⟨Nat.zero_le _, by omega⟩)
    (List.mem_range'_1.2 ⟨Nat.zero_le _, by omega⟩) (hfa.symm.trans hfb)

theorem poke {bytes : List UInt8}
    (hmapped : ∀ i < bytes.length, ∃ f, frameOf m r (a + i) = some f) :
    Pool U (Vm.poke (frameOf m r) m a bytes) l (T + (frames g 0 n + A)) ∧
      User trampoline trapframe (Vm.poke (frameOf m r) m a bytes) r T n g ∧
      Same m (Vm.poke (frameOf m r) m a bytes) A ∧
      frameOf (Vm.poke (frameOf m r) m a bytes) r = frameOf m r ∧
      ∀ b, vbyte (Vm.poke (frameOf m r) m a bytes) r b =
        if a ≤ b ∧ b < a + bytes.length then bytes[b - a]? else vbyte m r b := by
  have hclear := h.clear hU hpool
  -- Pages that are no frames stay as they are.
  have hother : ∀ c, c ∉ frames g 0 n → (Vm.poke (frameOf m r) m a bytes).word c = m.word c :=
    fun c hc => word_poke fun k _ hk => hc (h.frameOf_mem hU hpool hk)
  have hnd := Multiset.nodup_add.1 (hpool.nodup hU)
  have hndT := Multiset.nodup_add.1 hnd.2.1
  refine ⟨⟨?_, hpool.all⟩, h.congr fun c hc => hother c fun hF => ?_,
    fun c hc => hother c fun hF => ?_,
    (frameOf_poke hclear).1, vbyte_poke hclear (h.frame_inj hU hpool) hmapped⟩
  · rw [freelist_poke]
    refine chain_congr (fun c hc => ?_) hpool.chain
    rw [hother c fun hF => ?_]
    exact Multiset.disjoint_left.1 hnd.2.2 (Multiset.mem_coe.2 hc)
      (Multiset.mem_add.2 (.inr (Multiset.mem_add.2 (.inl hF))))
  · exact Multiset.disjoint_left.1 hndT.2.2 hc (Multiset.mem_add.2 (.inl hF))
  · exact Multiset.disjoint_left.1 (Multiset.nodup_add.1 hndT.2.1).2.2 hF hc

end Own

end User

end Xv6.Vm
