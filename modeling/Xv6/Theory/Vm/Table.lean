import Mathlib.Tactic.Ring
import Xv6.Core.Vm
import Xv6.Lib.Radix

/-!
# The Table in Memory

A page table as a tree of pages in physical memory, next to the free pages. The inner nodes
are the pages that `walk` goes through, two steps below the root, and the entries for
addresses are the words of the pages at the bottom.

## Theorems

* `Vm.Table.grow`, `Vm.Table.setLeaf`, `Vm.lookup_setLeaf`
-/

namespace Xv6.Vm

open Option (bind_some)

/-- The page an entry leads to. -/
def child (m : Phys) (a : Word) (i : Index) : Option Word :=
  if isValid (m.word a i) then some (PTE2PA (m.word a i)) else none

/-- The way of `walk` through the inner pages. -/
def path (va : Word) : List Index := [PX 2 va, PX 1 va]

/-- The entry for an address, if there is a valid one. -/
def lookup (m : Phys) (r va : Word) : Option Word :=
  (node (child m) r (path va)).bind fun a =>
    if isValid (m.word a (PX 0 va)) then some (m.word a (PX 0 va)) else none

/-- The number of the page an address is on. -/
def page (va : Word) : Nat := va.toNat / PGSIZE

/-- The free list from `head`. -/
def Chain (m : Phys) : Word → List Word → Prop
  | head, [] => head = 0#64
  | head, a :: l => head = a ∧ Chain m (m.word a 0) l

structure Table (m : Phys) (r : Word) (l : List Word) : Prop where
  sep : Sep (child m) 2 r
  chain : Chain m m.freelist l
  nodup : l.Nodup
  aligned : ∀ a ∈ l, a ≠ 0#64 ∧ a.toNat % PGSIZE = 0
  apart : ∀ p a, p.length ≤ 2 → node (child m) r p = some a → a ∉ l

/-! ## Bits -/

theorem toNat_pte (pa perm : Word) (hperm : perm.toNat < 1024) :
    (PA2PTE pa ||| perm).toNat = pa.toNat / PGSIZE * 1024 + perm.toNat := by
  have hlt := pa.isLt
  have hor := Nat.two_pow_add_eq_or_of_lt (i := 10) hperm (pa.toNat / 2 ^ 12)
  rw [PA2PTE, BitVec.toNat_or, BitVec.toNat_shiftLeft, BitVec.toNat_ushiftRight,
    Nat.shiftRight_eq_div_pow, Nat.shiftLeft_eq, Nat.mod_eq_of_lt (by omega),
    Nat.mul_comm, ← hor]

theorem toNat_PTE2PA (pte : Word) : (PTE2PA pte).toNat = pte.toNat / 1024 * PGSIZE % 2 ^ 64 := by
  rw [PTE2PA, BitVec.toNat_shiftLeft, BitVec.toNat_ushiftRight, Nat.shiftRight_eq_div_pow,
    Nat.shiftLeft_eq]

theorem PTE2PA_pte {pa perm : Word} (hpa : pa.toNat % PGSIZE = 0) (hperm : perm.toNat < 1024) :
    PTE2PA (PA2PTE pa ||| perm) = pa := by
  apply BitVec.eq_of_toNat_eq
  have hlt := pa.isLt
  rw [toNat_PTE2PA, toNat_pte pa perm hperm]
  simp only [PGSIZE] at hpa ⊢
  omega

theorem isValid_or (x : Word) : isValid (x ||| PTE_V) = true := by
  simp [isValid]

theorem isValid_clear (x : Word) : isValid (x &&& ~~~PTE_U) = isValid x := by
  simp [isValid, PTE_U]

theorem isValid_zero : isValid 0#64 = false := by
  decide

theorem val_PX (level : Nat) (va : Word) :
    (PX level va).val = va.toNat / 2 ^ (12 + 9 * level) % 512 := by
  simp only [PX, BitVec.toNat_and, BitVec.toNat_ushiftRight, Nat.shiftRight_eq_div_pow]
  exact Nat.and_two_pow_sub_one_eq_mod _ 9

theorem px_inj {va va' : Word} (h : va.toNat < MAXVA) (h' : va'.toNat < MAXVA) :
    path va = path va' ∧ PX 0 va = PX 0 va' ↔ page va = page va' := by
  have e2 := val_PX 2 va
  have e1 := val_PX 1 va
  have e0 := val_PX 0 va
  have e2' := val_PX 2 va'
  have e1' := val_PX 1 va'
  have e0' := val_PX 0 va'
  simp only [path, List.cons.injEq, and_true, Fin.ext_iff, page, PGSIZE, e0, e1, e2, e0', e1', e2']
  simp only [MAXVA, Nat.reducePow, Nat.reduceMul, Nat.reduceAdd] at h h' ⊢
  constructor
  · rintro ⟨⟨h2, h1⟩, h0⟩
    omega
  · intro hp
    refine ⟨⟨?_, ?_⟩, ?_⟩ <;> omega

/-! ## Words -/

variable {m m' : Phys} {r a c va v x : Word} {i j : Index} {l : List Word}

theorem word_set (m : Phys) (a b x : Word) (i j : Index) :
    (m.set a i x).word b j = if b = a ∧ j = i then x else m.word b j := by
  simp only [Phys.set, Function.update_apply]
  by_cases hb : b = a
  · subst hb
    by_cases hj : j = i <;> simp [hj]
  · simp [hb]

theorem word_fill (m : Phys) (a b x : Word) (j : Index) :
    (m.fill a x).word b j = if b = a then x else m.word b j := by
  simp only [Phys.fill, Function.update_apply]
  split_ifs <;> rfl

theorem child_congr (h : m'.word a i = m.word a i) : child m' a i = child m a i := by
  simp only [child, h]

variable {head : Word}

theorem chain_congr (h : ∀ a ∈ l, m'.word a 0 = m.word a 0)
    (hc : Chain m head l) : Chain m' head l := by
  induction l generalizing head with
  | nil => exact hc
  | cons a l ih =>
    refine ⟨hc.1, ?_⟩
    rw [h a List.mem_cons_self]
    exact ih (fun b hb => h b (List.mem_cons_of_mem a hb)) hc.2

theorem chain_unique {l' : List Word} (hl : ∀ a ∈ l, a ≠ 0#64)
    (hl' : ∀ a ∈ l', a ≠ 0#64) (h : Chain m head l) (h' : Chain m head l') : l = l' := by
  induction l generalizing head l' with
  | nil =>
    cases l' with
    | nil => rfl
    | cons b l' => exact absurd (h'.1.symm.trans h) (hl' b List.mem_cons_self)
  | cons a l ih =>
    cases l' with
    | nil => exact absurd (h.1.symm.trans h') (hl a List.mem_cons_self)
    | cons b l' =>
      have hab : a = b := h.1.symm.trans h'.1
      subst hab
      rw [ih (fun x hx => hl x (List.mem_cons_of_mem a hx))
        (fun x hx => hl' x (List.mem_cons_of_mem a hx)) h.2 h'.2]

theorem lookup_congr (hn : node (child m') r (path v) = node (child m) r (path v))
    (hw : ∀ a, node (child m) r (path v) = some a → m'.word a (PX 0 v) = m.word a (PX 0 v)) :
    lookup m' r v = lookup m r v := by
  simp only [lookup, hn]
  cases ha : node (child m) r (path v) with
  | none => rfl
  | some a => simp only [bind_some, hw a ha]

namespace Table

theorem kalloc (h : Table m r l) : (l = [] ∧ Vm.kalloc m = (0#64, m)) ∨
    ∃ a l', l = a :: l' ∧ (Vm.kalloc m).1 = a ∧ a ≠ 0#64 ∧ a.toNat % PGSIZE = 0 ∧
      (∀ p, p.length ≤ 2 → node (child m) r p ≠ some a) ∧
      Table (Vm.kalloc m).2 r l' ∧ (∀ v, lookup (Vm.kalloc m).2 r v = lookup m r v) ∧
      ∀ p, p.length ≤ 2 → node (child (Vm.kalloc m).2) r p = node (child m) r p := by
  cases l with
  | nil =>
    left
    have hz : m.freelist = 0#64 := h.chain
    simp only [Vm.kalloc, hz, if_true, and_self]
  | cons a l =>
    right
    have hhead : m.freelist = a := h.chain.1
    obtain ⟨hne, hal⟩ := h.aligned a List.mem_cons_self
    have hnot : a ∉ l := (List.nodup_cons.1 h.nodup).1
    have hfresh : ∀ p, p.length ≤ 2 → node (child m) r p ≠ some a :=
      fun p hp ha => h.apart p a hp ha List.mem_cons_self
    have hword : ∀ b i, b ≠ a → (Vm.kalloc m).2.word b i = m.word b i := by
      intro b i hb
      simp only [Vm.kalloc, hhead, hne, if_false, word_fill, hb]
    have hfree : (Vm.kalloc m).2.freelist = m.word a 0 := by
      simp only [Vm.kalloc, hhead, hne, if_false, Phys.fill]
    have hch : ∀ p b i, p.length < 2 → node (child m) r p = some b →
        child (Vm.kalloc m).2 b i = child m b i := by
      intro p b i hp hb
      refine child_congr (hword b i ?_)
      rintro rfl
      exact hfresh p (by omega) hb
    refine ⟨a, l, rfl, ?_, hne, hal, hfresh, ⟨h.sep.congr hch, ?_, ?_, ?_, ?_⟩, ?_, ?_⟩
    · simp only [Vm.kalloc, hhead, hne, if_false]
    · rw [hfree]
      refine chain_congr (fun b hb => hword b 0 ?_) h.chain.2
      rintro rfl
      exact hnot hb
    · exact (List.nodup_cons.1 h.nodup).2
    · exact fun b hb => h.aligned b (List.mem_cons_of_mem a hb)
    · intro p b hp hb hin
      rw [node_congr hch hp] at hb
      exact h.apart p b hp hb (List.mem_cons_of_mem a hin)
    · intro v
      have hlen : (path v).length ≤ 2 := Nat.le_refl 2
      refine lookup_congr (node_congr hch hlen) ?_
      intro b hb
      refine hword b (PX 0 v) ?_
      rintro rfl
      exact hfresh (path v) hlen hb
    · exact fun p hp => node_congr hch hp

theorem grow (h : Table m r l) {p : List Index} (hp : node (child m) r p = some a)
    (hlen : p.length < 2) (hinv : isValid (m.word a i) = false) (hal : c.toNat % PGSIZE = 0)
    (hfresh : ∀ q, q.length ≤ 2 → node (child m) r q ≠ some c) (hc : c ∉ l) :
    let m' := (m.fill c 0#64).set a i (PA2PTE c ||| PTE_V)
    Table m' r l ∧ (∀ v, lookup m' r v = lookup m r v) ∧ node (child m') r (p ++ [i]) = some c ∧
      ∀ q, q.length ≤ 2 →
        node (child m') r q = if q = p ++ [i] then some c else node (child m) r q := by
  intro m'
  have hca : a ≠ c := by
    rintro rfl
    exact hfresh p (by omega) hp
  have hword : ∀ b j, b ≠ c → ¬ (b = a ∧ j = i) → m'.word b j = m.word b j := by
    intro b j hb hne
    simp only [m', word_set, if_neg hne, word_fill, if_neg hb]
  have hzero : ∀ j, m'.word c j = 0#64 := by
    intro j
    simp only [m', word_set, word_fill, if_true]
    rw [if_neg]
    exact fun hx => hca hx.1.symm
  have hnone : child m a i = none := by
    simp only [child, hinv, Bool.false_eq_true, if_false]
  have hlink : child m' a i = some c := by
    have hw : m'.word a i = PA2PTE c ||| PTE_V := by
      simp only [m', word_set, and_self, if_true]
    rw [child, hw, isValid_or, if_pos rfl, PTE2PA_pte hal (by decide)]
  have hother : ∀ b j, b ≠ c → ¬ (b = a ∧ j = i) → child m' b j = child m b j :=
    fun b j hb hne => child_congr (hword b j hb hne)
  have hempty : ∀ j, child m' c j = none := by
    intro j
    simp only [child, hzero, isValid_zero, Bool.false_eq_true, if_false]
  have hnode : ∀ q, q.length ≤ 2 →
      node (child m') r q = if q = p ++ [i] then some c else node (child m) r q :=
    fun q hq => node_link h.sep hp hlen hnone hlink hother hempty hfresh hq
  refine ⟨⟨h.sep.link hp hlen hnone hlink hother hempty hfresh, ?_, h.nodup, h.aligned, ?_⟩,
    ?_, ?_, hnode⟩
  · refine chain_congr (fun b hb => hword b 0 ?_ ?_) h.chain
    · rintro rfl
      exact hc hb
    · rintro ⟨rfl, -⟩
      exact h.apart p b (by omega) hp hb
  · intro q b hq hb
    rw [hnode q hq] at hb
    split_ifs at hb
    · cases hb
      exact hc
    · exact h.apart q b hq hb
  · intro v
    simp only [lookup, hnode (path v) (Nat.le_refl 2)]
    split_ifs with hv
    · -- the new page is empty, and there was no page there before
      rw [hv, node_snoc, hp]
      simp only [bind_some, hzero, isValid_zero, Bool.false_eq_true, if_false, hnone,
        Option.bind_none]
    · cases hn : node (child m) r (path v) with
      | none => rfl
      | some b =>
        have hb : b ≠ c := by
          rintro rfl
          exact hfresh (path v) (Nat.le_refl 2) hn
        -- the page at the bottom is not the inner page that was changed
        have hba : b ≠ a := by
          rintro rfl
          have hpv := h.sep (path v) p b (Nat.le_refl 2) (by omega) hn hp
          rw [← hpv] at hlen
          exact absurd hlen (Nat.lt_irrefl 2)
        simp only [bind_some, hword b (PX 0 v) hb (fun hx => hba hx.1)]
  · rw [hnode (p ++ [i]) (by simp only [List.length_append, List.length_singleton]; omega),
      if_pos rfl]

theorem setLeaf (h : Table m r l) (ha : node (child m) r (path va) = some a) :
    Table (m.set a i x) r l ∧
      ∀ p, p.length ≤ 2 → node (child (m.set a i x)) r p = node (child m) r p := by
  have hch : ∀ p b j, p.length < 2 → node (child m) r p = some b →
      child (m.set a i x) b j = child m b j := by
    intro p b j hp hb
    refine child_congr ?_
    rw [word_set, if_neg]
    rintro ⟨rfl, -⟩
    have hpv := h.sep p (path va) b (by omega) (Nat.le_refl 2) hb ha
    rw [hpv] at hp
    exact absurd hp (Nat.lt_irrefl 2)
  refine ⟨⟨h.sep.congr hch, ?_, h.nodup, h.aligned, ?_⟩, fun p hp => node_congr hch hp⟩
  · refine chain_congr (fun b hb => ?_) h.chain
    rw [word_set, if_neg]
    rintro ⟨rfl, -⟩
    exact h.apart (path va) b (Nat.le_refl 2) ha hb
  · intro p b hp hb
    rw [node_congr hch hp] at hb
    exact h.apart p b hp hb

theorem lookup_setLeaf (h : Table m r l) (ha : node (child m) r (path va) = some a)
    (hva : va.toNat < MAXVA) (hv : v.toNat < MAXVA) : lookup (m.set a (PX 0 va) x) r v =
      if page v = page va then (if isValid x then some x else none) else lookup m r v := by
  have hnode := (h.setLeaf (i := PX 0 va) (x := x) ha).2
  have hinj := px_inj hv hva
  simp only [lookup, hnode (path v) (Nat.le_refl 2)]
  split_ifs with hpage hx
  · obtain ⟨hpath, hidx⟩ := hinj.2 hpage
    rw [hpath, hidx, ha]
    simp only [bind_some, word_set, and_self, if_true, hx]
  · obtain ⟨hpath, hidx⟩ := hinj.2 hpage
    rw [hpath, hidx, ha]
    simp only [bind_some, word_set, and_self, if_true, hx, Bool.false_eq_true, if_false]
  · cases hn : node (child m) r (path v) with
    | none => rfl
    | some b =>
      -- one page and one number there would be one way through the table
      have hne : ¬ (b = a ∧ PX 0 v = PX 0 va) := by
        rintro ⟨rfl, hidx⟩
        exact hpage (hinj.1 ⟨h.sep _ _ b (Nat.le_refl 2) (Nat.le_refl 2) hn ha, hidx⟩)
      simp only [bind_some, word_set, if_neg hne]

theorem kfree (h : Table m r l) {kend : Word} (hk : Vm.kfree kend m c = .ok m')
    (hzero : c ≠ 0#64) (hfresh : ∀ q, q.length ≤ 2 → node (child m) r q ≠ some c) (hc : c ∉ l) :
    Table m' r (c :: l) ∧ (∀ v, lookup m' r v = lookup m r v) ∧
      (∀ p, p.length ≤ 2 → node (child m') r p = node (child m) r p) ∧
      ∀ b i, b ≠ c → m'.word b i = m.word b i := by
  simp only [Vm.kfree] at hk
  split_ifs at hk with hbad
  push Not at hbad
  cases hk
  have hword : ∀ b i, b ≠ c →
      ((m.fill c 0x0101010101010101#64).set c 0 m.freelist).word b i = m.word b i := by
    intro b i hb
    rw [word_set, if_neg (fun hx => hb hx.1), word_fill, if_neg hb]
  have hch : ∀ p b i, p.length < 2 → node (child m) r p = some b →
      child { (m.fill c 0x0101010101010101#64).set c 0 m.freelist with freelist := c } b i =
        child m b i := by
    intro p b i hp hb
    refine child_congr (hword b i ?_)
    rintro rfl
    exact hfresh p (by omega) hb
  refine ⟨⟨h.sep.congr hch, ⟨rfl, ?_⟩, List.nodup_cons.2 ⟨hc, h.nodup⟩, ?_, ?_⟩, ?_,
    fun p hp => node_congr hch hp, hword⟩
  · -- the rest of the list hangs in the first word of the page
    have hw : ((m.fill c 0x0101010101010101#64).set c 0 m.freelist).word c 0 = m.freelist := by
      simp only [word_set, and_self, if_true]
    show Chain _ (((m.fill c 0x0101010101010101#64).set c 0 m.freelist).word c 0) l
    rw [hw]
    refine chain_congr (fun b hb => hword b 0 ?_) h.chain
    rintro rfl
    exact hc hb
  · intro b hb
    rcases List.mem_cons.1 hb with rfl | hb
    · exact ⟨hzero, hbad.1⟩
    · exact h.aligned b hb
  · intro p b hp hb hin
    rw [node_congr hch hp] at hb
    rcases List.mem_cons.1 hin with rfl | hin
    · exact hfresh p hp hb
    · exact h.apart p b hp hb hin
  · intro v
    have hlen : (path v).length ≤ 2 := Nat.le_refl 2
    refine lookup_congr (node_congr hch hlen) ?_
    intro b hb
    refine hword b (PX 0 v) ?_
    rintro rfl
    exact hfresh (path v) hlen hb

end Table

end Xv6.Vm
