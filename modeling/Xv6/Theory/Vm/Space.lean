import Mathlib.Data.Multiset.UnionInter
import Xv6.Core.Uvm
import Xv6.Theory.Vm.Map

/-!
# One Table among Many Pages

A page table in a memory that holds many other things. `U` are all the pages that the allocator
manages: `Pool U m l A` says that `l` are the free ones and `A` the ones somebody has. A function
that works on the table with pages `T` is followed with `A = T + A'`, and every lemma says what
becomes of the table and of the free list, and that the words of the pages in `A'` are as before
(`Same`).

## Theorems

* `Vm.Space.congr`, `Vm.Space.mapOne`, `Vm.Space.unmapOne`
-/

namespace Xv6.Vm

open Multiset (add_cons coe_add cons_add cons_coe mem_add mem_cons_self singleton_add)
open Option (bind_none bind_some)
open Function (update)

variable {p : List Index} {pte : Word} {k : Nat}

/-- A page that `kfree` takes. -/
def IsPage (kend a : Word) : Prop :=
  a ≠ 0#64 ∧ a.toNat % PGSIZE = 0 ∧ ¬ a < kend ∧ ¬ PHYSTOP ≤ a

structure Pages (kend : Word) (U : Multiset Word) : Prop where
  nodup : U.Nodup
  page : ∀ a ∈ U, IsPage kend a

/-- The free list is `l`, and `A` are the other pages. -/
structure Pool (U : Multiset Word) (m : Phys) (l : List Word) (A : Multiset Word) : Prop where
  chain : Chain m m.freelist l
  all : (l : Multiset Word) + A = U

/-- The words of these pages are as before. -/
def Same (m m' : Phys) (A : Multiset Word) : Prop := ∀ b ∈ A, m'.word b = m.word b

/-- The pages of a table stay where they are. -/
def Grows (m m' : Phys) (r : Word) : Prop :=
  ∀ q c, q.length ≤ 2 → node (child m) r q = some c → node (child m') r q = some c

structure Space (m : Phys) (r : Word) (T : Multiset Word) (f : Nat → Option Word) : Prop where
  sep : Sep (child m) 2 r
  tree : ∀ a, a ∈ T ↔ ∃ p : List Index, p.length ≤ 2 ∧ node (child m) r p = some a
  inner : ∀ p a i, p.length < 2 → node (child m) r p = some a → isValid (m.word a i) = true →
    m.word a i &&& (PTE_R ||| PTE_W ||| PTE_X) = 0#64
  /-- The upper half of the root is for addresses beyond `MAXVA`. -/
  low : ∀ i, 256 ≤ i.val → isValid (m.word r i) = false
  map : ∀ v, v.toNat < MAXVA → lookup m r v = f (page v)

variable {kend : Word} {U A F T : Multiset Word} {m m' m'' : Phys} {r a c va pa perm x : Word}
  {i : Index} {l : List Word} {f : Nat → Option Word}

theorem Same.refl : Same m m A := fun _ _ => rfl

theorem Same.trans (h : Same m m' A) (h' : Same m' m'' A) : Same m m'' A :=
  fun b hb => (h' b hb).trans (h b hb)

theorem Same.left (h : Same m m' (A + F)) : Same m m' A :=
  fun b hb => h b (Multiset.mem_add.2 (.inl hb))

theorem Same.right (h : Same m m' (A + F)) : Same m m' F :=
  fun b hb => h b (Multiset.mem_add.2 (.inr hb))

theorem Grows.refl : Grows m m r := fun _ _ _ h => h

theorem Grows.trans (h : Grows m m' r) (h' : Grows m' m'' r) : Grows m m'' r :=
  fun q c hq hc => h' q c hq (h q c hq hc)

/-! ## The allocator -/

namespace Pool

section

variable (h : Pool U m l A)

include h

theorem nodup (hU : Pages kend U) : ((l : Multiset Word) + A).Nodup := by
  rw [h.all]
  exact hU.nodup

theorem notMem (hU : Pages kend U) (ha : a ∈ A) : a ∉ l := by
  intro hl
  exact Multiset.disjoint_left.1 (Multiset.nodup_add.1 (h.nodup hU)).2.2
    (Multiset.mem_coe.2 hl) ha

theorem isPage (hU : Pages kend U) (ha : a ∈ A) : IsPage kend a := by
  refine hU.page a ?_
  rw [← h.all]
  exact Multiset.mem_add.2 (.inr ha)

theorem cast (hA : A = F) : Pool U m l F := hA ▸ h

theorem touch (hU : Pages kend U) (ha : a ∈ A)
    (hw : ∀ b, b ≠ a → m'.word b = m.word b) (hf : m'.freelist = m.freelist) : Pool U m' l A := by
  refine ⟨?_, h.all⟩
  rw [hf]
  refine chain_congr (fun b hb => ?_) h.chain
  rw [hw b]
  rintro rfl
  exact h.notMem hU ha hb

end

theorem setOwn (h : Pool U m l (T + A)) (hU : Pages kend U) (ha : a ∈ T) :
    Pool U (m.set a i x) l (T + A) ∧ Same m (m.set a i x) A := by
  have hword : ∀ b, b ≠ a → (m.set a i x).word b = m.word b := by
    intro b hb
    funext j
    rw [word_set, if_neg (fun hx => hb hx.1)]
  refine ⟨h.touch hU (Multiset.mem_add.2 (.inl ha)) hword rfl, fun b hb => hword b ?_⟩
  rintro rfl
  exact Multiset.disjoint_left.1
    (Multiset.nodup_add.1 (Multiset.nodup_add.1 (h.nodup hU)).2.1).2.2 ha hb

theorem kalloc (h : Pool U m l A) (hU : Pages kend U) : (l = [] ∧ Vm.kalloc m = (0#64, m)) ∨
    ∃ a m' l', l = a :: l' ∧ Vm.kalloc m = (a, m') ∧ a ≠ 0#64 ∧ Pool U m' l' (a ::ₘ A) ∧
      Same m m' A := by
  cases l with
  | nil =>
    left
    have hz : m.freelist = 0#64 := h.chain
    simp only [Vm.kalloc, hz, if_true, and_self]
  | cons a l =>
    right
    have hhead : m.freelist = a := h.chain.1
    have hnd := h.nodup hU
    rw [← cons_coe, cons_add, Multiset.nodup_cons, mem_add] at hnd
    have hne : a ≠ 0#64 := by
      refine (hU.page a ?_).1
      rw [← h.all, ← cons_coe, cons_add]
      exact mem_cons_self a _
    -- The page is filled with junk, and no other is written to.
    have hword : ∀ b, b ≠ a → (Vm.kalloc m).2.word b = m.word b := by
      intro b hb
      funext j
      simp only [Vm.kalloc, hhead, hne, if_false, word_fill, hb]
    refine ⟨a, (Vm.kalloc m).2, l, rfl, ?_, hne, ⟨?_, ?_⟩, ?_⟩
    · simp only [Vm.kalloc, hhead, hne, if_false]
    · have hfree : (Vm.kalloc m).2.freelist = m.word a 0 := by
        simp only [Vm.kalloc, hhead, hne, if_false, Phys.fill]
      -- The list goes on where the first word of the page said it does.
      rw [hfree]
      refine chain_congr (fun b hb => ?_) h.chain.2
      rw [hword b]
      rintro rfl
      exact hnd.1 (.inl (Multiset.mem_coe.2 hb))
    · rw [← h.all, ← cons_coe, add_cons, cons_add]
    · intro b hb
      refine hword b ?_
      rintro rfl
      exact hnd.1 (.inr hb)

theorem kfree (h : Pool U m l (a ::ₘ A)) (hU : Pages kend U) :
    ∃ m', Vm.kfree kend m a = .ok m' ∧ Pool U m' (a :: l) A ∧ Same m m' A := by
  obtain ⟨-, hal, hlow, hhigh⟩ := h.isPage hU (mem_cons_self a A)
  have hnot := h.notMem hU (mem_cons_self a A)
  have hnd := (Multiset.nodup_add.1 (h.nodup hU)).2.1
  have hword : ∀ b, b ≠ a →
      ((m.fill a 0x0101010101010101#64).set a 0 m.freelist).word b = m.word b := by
    intro b hb
    funext j
    rw [word_set, if_neg (fun hx => hb hx.1), word_fill, if_neg hb]
  refine ⟨{ (m.fill a 0x0101010101010101#64).set a 0 m.freelist with freelist := a }, ?_,
    ⟨⟨rfl, ?_⟩, ?_⟩, ?_⟩
  · simp only [Vm.kfree, hal, ne_eq, not_true_eq_false, hlow, hhigh, or_self, if_false]
  · -- the rest of the list hangs in the first word of the page
    show Chain _ (((m.fill a 0x0101010101010101#64).set a 0 m.freelist).word a 0) l
    rw [word_set, if_pos ⟨rfl, rfl⟩]
    refine chain_congr (fun b hb => ?_) h.chain
    show ((m.fill a 0x0101010101010101#64).set a 0 m.freelist).word b 0 = m.word b 0
    rw [hword b]
    rintro rfl
    exact hnot hb
  · rw [← h.all, ← cons_coe, add_cons, cons_add]
  · intro b hb
    refine hword b ?_
    rintro rfl
    exact (Multiset.nodup_cons.1 hnd).1 hb

end Pool

/-! ## Entries -/

variable {n : Nat}

theorem pte_and (c : Word) {y : Word} (hhigh : ∀ k < 64, 10 ≤ k → y.getLsbD k = false)
    (hlow : ∀ k < 64, (x.getLsbD k && y.getLsbD k) = false) : (PA2PTE c ||| x) &&& y = 0#64 := by
  apply BitVec.eq_of_getLsbD_eq
  intro k hk
  rw [BitVec.getLsbD_and, BitVec.getLsbD_or, PA2PTE, BitVec.getLsbD_shiftLeft, BitVec.getLsbD_zero]
  by_cases h10 : k < 10
  · simp only [h10, decide_true, Bool.not_true, Bool.and_false, Bool.false_and, Bool.false_or]
    exact hlow k hk
  · rw [hhigh k hk (Nat.le_of_not_lt h10), Bool.and_false]

theorem link_flags (c : Word) : (PA2PTE c ||| PTE_V) &&& (PTE_R ||| PTE_W ||| PTE_X) = 0#64 :=
  pte_and c (by decide) (by decide)

namespace Space

section

variable (h : Space m r T f)

include h

theorem table : Table { m with freelist := 0#64 } r [] :=
  ⟨h.sep, rfl, List.nodup_nil, fun _ hb => absurd hb List.not_mem_nil,
    fun _ _ _ _ => List.not_mem_nil⟩

theorem node_mem (hp : p.length ≤ 2)
    (ha : node (child m) r p = some a) : a ∈ T := (h.tree a).2 ⟨p, hp, ha⟩

theorem root_mem : r ∈ T := h.node_mem (p := []) (Nat.zero_le 2) rfl

theorem congr (hs : Same m m' T) : Space m' r T f ∧ Grows m m' r := by
  have hch : ∀ p b i, p.length < 2 → node (child m) r p = some b → child m' b i = child m b i := by
    intro p b i hp hb
    refine child_congr ?_
    rw [hs b (h.node_mem (Nat.le_of_lt hp) hb)]
  have hnode : ∀ p : List Index, p.length ≤ 2 → node (child m') r p = node (child m) r p :=
    fun p hp => node_congr hch hp
  refine ⟨⟨h.sep.congr hch, ?_, ?_, ?_, ?_⟩, ?_⟩
  · intro b
    rw [h.tree b]
    refine exists_congr fun p => and_congr_right fun hp => ?_
    rw [hnode p hp]
  · intro p b j hp hb hv
    rw [hnode p (Nat.le_of_lt hp)] at hb
    rw [hs b (h.node_mem (Nat.le_of_lt hp) hb)] at hv ⊢
    exact h.inner p b j hp hb hv
  · intro j hj
    rw [hs r h.root_mem]
    exact h.low j hj
  · intro v hv
    rw [← h.map v hv]
    refine lookup_congr (hnode _ (Nat.le_refl 2)) fun b hb => ?_
    rw [hs b (h.node_mem (p := path v) (Nat.le_refl 2) hb)]
  · intro q b hq hb
    rw [hnode q hq]
    exact hb

theorem grow (hp : node (child m) r p = some a)
    (hlen : p.length < 2) (hinv : isValid (m.word a i) = false) (hal : c.toNat % PGSIZE = 0)
    (hc : c ∉ T) (hlow : p = [] → i.val < 256) :
    let m' := (m.fill c 0#64).set a i (PA2PTE c ||| PTE_V)
    Space m' r (c ::ₘ T) f ∧ node (child m') r (p ++ [i]) = some c ∧ Grows m m' r := by
  intro m'
  have hfresh : ∀ q, q.length ≤ 2 → node (child m) r q ≠ some c :=
    fun q hq hn => hc (h.node_mem hq hn)
  have hca : a ≠ c := by
    rintro rfl
    exact hfresh p (Nat.le_of_lt hlen) hp
  obtain ⟨htab, hlook, hnew, hnode⟩ := h.table.grow hp hlen hinv hal hfresh List.not_mem_nil
  have hnode' : ∀ q, q.length ≤ 2 →
      node (child m') r q = if q = p ++ [i] then some c else node (child m) r q := hnode
  refine ⟨⟨htab.sep, ?_, ?_, ?_, ?_⟩, hnew, ?_⟩
  · intro b
    rw [Multiset.mem_cons, h.tree b]
    constructor
    · rintro (rfl | ⟨q, hq, hb⟩)
      · exact ⟨p ++ [i], by simp only [List.length_append, List.length_singleton]; omega, hnew⟩
      · refine ⟨q, hq, ?_⟩
        rw [hnode' q hq, if_neg, hb]
        rintro rfl
        -- there was no page below that entry
        rw [node_snoc, hp] at hb
        simp only [bind_some, child, hinv, Bool.false_eq_true, if_false, reduceCtorEq] at hb
    · rintro ⟨q, hq, hb⟩
      rw [hnode' q hq] at hb
      split_ifs at hb
      · exact .inl (Option.some.inj hb).symm
      · exact .inr ⟨q, hq, hb⟩
  · intro q b j hq hb hv
    rw [hnode' q (Nat.le_of_lt hq)] at hb
    simp only [m', word_set, word_fill] at hv ⊢
    by_cases hba : b = a ∧ j = i
    · rw [if_pos hba]
      exact link_flags c
    · rw [if_neg hba] at hv ⊢
      split_ifs at hv ⊢ with hbc
      · rw [isValid_zero] at hv
        cases hv
      · split_ifs at hb with hqp
        · exact absurd (Option.some.inj hb).symm hbc
        · exact h.inner q b j hq hb hv
  · intro j hj
    simp only [m', word_set, word_fill]
    have hrc : r ≠ c := by
      rintro rfl
      exact hc h.root_mem
    rw [if_neg, if_neg hrc]
    · exact h.low j hj
    · -- the root is only on the empty path
      rintro ⟨rfl, rfl⟩
      have hnil : p = [] := h.sep p [] r (Nat.le_of_lt hlen) (Nat.zero_le 2) hp rfl
      exact absurd (hlow hnil) (Nat.not_lt.2 hj)
  · intro v hv
    rw [← h.map v hv]
    exact hlook v
  · intro q b hq hb
    rw [hnode' q hq]
    split_ifs with hqp
    · rw [hqp, node_snoc, hp] at hb
      simp only [bind_some, child, hinv, Bool.false_eq_true, if_false, reduceCtorEq] at hb
    · exact hb

theorem setLeaf (ha : node (child m) r (path va) = some a)
    (hva : va.toNat < MAXVA) : Space (m.set a (PX 0 va) x) r T
      (update f (page va) (if isValid x then some x else none)) ∧
    Grows m (m.set a (PX 0 va) x) r := by
  obtain ⟨htab, hnode⟩ := h.table.setLeaf (i := PX 0 va) (x := x) ha
  have hnode' : ∀ q : List Index, q.length ≤ 2 →
      node (child (m.set a (PX 0 va) x)) r q = node (child m) r q := hnode
  have hinner : ∀ (q : List Index) (b : Word), q.length < 2 → node (child m) r q = some b →
      b ≠ a := by
    rintro q b hq hb rfl
    have hqv := h.sep q (path va) b (Nat.le_of_lt hq) (Nat.le_refl 2) hb ha
    rw [hqv] at hq
    exact absurd hq (Nat.lt_irrefl 2)
  refine ⟨⟨htab.sep, ?_, ?_, ?_, ?_⟩, ?_⟩
  · intro b
    rw [h.tree b]
    refine exists_congr fun q => and_congr_right fun hq => ?_
    rw [hnode' q hq]
  · intro q b j hq hb hv
    rw [hnode' q (Nat.le_of_lt hq)] at hb
    rw [word_set, if_neg (fun hx => hinner q b hq hb hx.1)] at hv ⊢
    exact h.inner q b j hq hb hv
  · intro j hj
    rw [word_set, if_neg (fun hx => hinner [] r (by decide) rfl hx.1)]
    exact h.low j hj
  · intro v hv
    have hlook := h.table.lookup_setLeaf (x := x) ha hva hv
    have hlook' : lookup (m.set a (PX 0 va) x) r v =
        if page v = page va then (if isValid x then some x else none) else lookup m r v := hlook
    rw [hlook', Function.update_apply, h.map v hv]
  · intro q b hq hb
    rw [hnode' q hq]
    exact hb

end

theorem walkFrom (va : Word) (level : Nat) (h : Space m r T f)
    (hU : Pages kend U) (hpool : Pool U m l (T + A)) (hva : va.toNat < MAXVA)
    (hp : node (child m) r p = some a) (hpath : p ++ down va level = path va) :
    ∃ b m' l' T', Vm.walkFrom va true level m a = (b, m') ∧ Pool U m' l' (T' + A) ∧
      Space m' r T' f ∧ Same m m' A ∧ Grows m m' r ∧
      ∀ c, b = some c → node (child m') r (path va) = some c := by
  -- On the level, with the path from the root to the page that was reached.
  induction level generalizing m a p l T with
  | zero =>
    refine ⟨some a, m, l, T, rfl, hpool, h, Same.refl, Grows.refl, ?_⟩
    intro c hc
    rw [down, List.append_nil] at hpath
    rw [← hpath, ← hc]
    exact hp
  | succ level ih =>
    have hlen : p.length < 2 := by
      have hl := congrArg List.length hpath
      simp only [List.length_append, down, List.length_cons, path, List.length_nil] at hl
      omega
    have hpath' : (p ++ [PX (level + 1) va]) ++ down va level = path va := by
      rw [List.append_assoc, List.singleton_append]
      exact hpath
    by_cases hv : isValid (m.word a (PX (level + 1) va))
    · -- the page below is there
      have heq : Vm.walkFrom va true (level + 1) m a =
          Vm.walkFrom va true level m (PTE2PA (m.word a (PX (level + 1) va))) := by
        simp only [Vm.walkFrom, hv, if_true]
      rw [heq]
      refine ih h hpool ?_ hpath'
      rw [node_snoc, hp]
      simp only [bind_some, child, hv, if_true]
    · have ha : a ∈ T := h.node_mem (Nat.le_of_lt hlen) hp
      rcases hpool.kalloc hU with ⟨-, hk⟩ | ⟨c, m1, l1, rfl, hk, hne, hpool1, hsame1⟩
      · -- no page is left
        have heq : Vm.walkFrom va true (level + 1) m a = (none, m) := by
          simp only [Vm.walkFrom, hv, hk, Bool.true_eq_false, Bool.false_eq_true, if_false, if_true]
        exact ⟨none, m, l, T, heq, hpool, h, Same.refl, Grows.refl, fun c hc => by cases hc⟩
      · -- a new page is hung in
        have hcnot : c ∉ T + A := (Multiset.nodup_cons.1
          (Multiset.nodup_add.1 (hpool1.nodup hU)).2.1).1
        rw [mem_add, not_or] at hcnot
        obtain ⟨h1, hg1⟩ := h.congr hsame1.left
        have hw1 : m1.word a (PX (level + 1) va) = m.word a (PX (level + 1) va) := by
          rw [hsame1.left a ha]
        have hal := (hpool1.isPage hU (mem_cons_self c _)).2.1
        -- Only the lower half of the root page is ever used.
        have hlow : p = [] → (PX (level + 1) va).val < 256 := by
          rintro rfl
          have hl := congrArg List.length hpath
          have hlevel : level = 1 := by
            cases level with
            | zero => simp [down, path] at hl
            | succ level =>
              cases level with
              | zero => rfl
              | succ level => simp [down, path] at hl
          rw [hlevel, val_PX]
          simp only [MAXVA] at hva
          omega
        rcases h1.grow (i := PX (level + 1) va) (hg1 p a (Nat.le_of_lt hlen) hp) hlen
          (by rw [hw1]; exact Bool.eq_false_iff.2 hv) hal hcnot.1 hlow with ⟨h2, hnew, hg2⟩
        -- The new page is cleared before it can be reached.
        have hfill : Pool U (m1.fill c 0#64) l1 ((c ::ₘ T) + A) := by
          rw [cons_add]
          refine hpool1.touch hU (mem_cons_self c _) (fun b hb => ?_) rfl
          funext j
          rw [word_fill, if_neg hb]
        have hsame2 : Same m1 (m1.fill c 0#64) A := by
          intro b hb
          funext j
          rw [word_fill, if_neg]
          rintro rfl
          exact hcnot.2 hb
        rcases hfill.setOwn (i := PX (level + 1) va) (x := PA2PTE c ||| PTE_V) hU
          (Multiset.mem_cons_of_mem ha) with ⟨hpool2, hsame3⟩
        have heq : Vm.walkFrom va true (level + 1) m a =
            Vm.walkFrom va true level ((m1.fill c 0#64).set a (PX (level + 1) va)
              (PA2PTE c ||| PTE_V)) c := by
          simp only [Vm.walkFrom, hv, Bool.true_eq_false, if_false, Bool.false_eq_true, hk, hne]
        rw [heq]
        obtain ⟨b, m', l', T', hw, hpool', h', hs', hg', hres⟩ := ih h2 hpool2 hnew hpath'
        exact ⟨b, m', l', T', hw, hpool', h', ((hsame1.right.trans hsame2).trans hsame3).trans hs',
          (hg1.trans hg2).trans hg', hres⟩

theorem mapOne (h : Space m r T f) (pa perm : Word) (hU : Pages kend U) (hpool : Pool U m l (T + A))
    (ha : a.toNat < MAXVA) (hnone : f (page a) = none) :
    ∃ done m' l' T', Vm.mapOne m r a pa perm = .ok (done, m') ∧ Pool U m' l' (T' + A) ∧
      Space m' r T' (if done then update f (page a) (some (PA2PTE pa ||| perm ||| PTE_V))
        else f) ∧ Same m m' A ∧ Grows m m' r := by
  obtain ⟨b, m1, l1, T1, hw, hpool1, h1, hsame, hg, hres⟩ :=
    h.walkFrom (p := []) a 2 hU hpool ha rfl rfl
  have hwalk : walk m r a true = .ok (b.map fun b => (b, PX 0 a), m1) := by
    simp only [walk, if_neg (Nat.not_le.2 ha), hw]
  unfold Vm.mapOne
  rw [hwalk]
  cases b with
  | none => exact ⟨false, m1, l1, T1, rfl, hpool1, h1, hsame, hg⟩
  | some b =>
    have hn := hres b rfl
    have hinv : isValid (m1.word b (PX 0 a)) = false := by
      have hlook := h1.map a ha
      rw [hnone, lookup, hn] at hlook
      simp only [bind_some] at hlook
      split_ifs at hlook with hv
      exact Bool.eq_false_iff.2 hv
    rcases h1.setLeaf (x := PA2PTE pa ||| perm ||| PTE_V) hn ha with ⟨h2, hg2⟩
    rcases hpool1.setOwn (i := PX 0 a) (x := PA2PTE pa ||| perm ||| PTE_V) hU
      (h1.node_mem (p := path a) (Nat.le_refl 2) hn) with ⟨hpool2, hsame2⟩
    rw [isValid_or, if_pos rfl] at h2
    refine ⟨true, m1.set b (PX 0 a) (PA2PTE pa ||| perm ||| PTE_V), l1, T1, ?_, hpool2, h2,
      hsame.trans hsame2, hg.trans hg2⟩
    show (if isValid (m1.word b (PX 0 a)) = true then _ else _) = _
    rw [hinv, if_neg Bool.false_ne_true]

theorem entry (h : Space m r T f) (ha : a.toNat < MAXVA) (hf : f (page a) = some pte) :
    ∃ b, node (child m) r (path a) = some b ∧ m.word b (PX 0 a) = pte ∧ isValid pte = true := by
  have hlook := h.map a ha
  rw [hf, lookup] at hlook
  cases hn : node (child m) r (path a) with
  | none =>
    rw [hn] at hlook
    cases hlook
  | some b =>
    rw [hn] at hlook
    simp only [bind_some] at hlook
    split_ifs at hlook with hv
    cases hlook
    exact ⟨b, rfl, rfl, hv⟩

theorem unmapOne (h : Space m r T f) (hU : Pages kend U) {doFree : Bool}
    (hF : F = if doFree then {PTE2PA pte} else 0) (hpool : Pool U m l (T + (F + A)))
    (ha : a.toNat < MAXVA) (hf : f (page a) = some pte) (hflags : PTE_FLAGS pte ≠ PTE_V) :
    ∃ m' l', Vm.unmapOne kend m r a doFree = .ok m' ∧ Pool U m' l' (T + A) ∧
      Space m' r T (update f (page a) none) ∧ Same m m' A ∧ Grows m m' r := by
  obtain ⟨b, hn, rfl, hv⟩ := h.entry ha hf
  have hb := h.node_mem (p := path a) (Nat.le_refl 2) hn
  -- the frame goes first
  have hrel : ∃ m1 l1, release kend m (m.word b (PX 0 a)) doFree = .ok m1 ∧
      Pool U m1 l1 (T + A) ∧ Same m m1 (T + A) := by
    cases doFree with
    | false =>
      simp only [Bool.false_eq_true, if_false] at hF
      refine ⟨m, l, rfl, hpool.cast ?_, Same.refl⟩
      rw [hF, Multiset.zero_add]
    | true =>
      simp only [if_true] at hF
      have hcast : T + (F + A) = PTE2PA (m.word b (PX 0 a)) ::ₘ (T + A) := by
        rw [hF, singleton_add, add_cons]
      obtain ⟨m1, hk, hpool1, hsame1⟩ := (hpool.cast hcast).kfree hU
      exact ⟨m1, _, hk, hpool1, hsame1⟩
  obtain ⟨m1, l1, hrel, hpool1, hsame1⟩ := hrel
  obtain ⟨h1, hg1⟩ := h.congr hsame1.left
  obtain ⟨h2, hg2⟩ := h1.setLeaf (x := 0#64) (hg1 _ b (Nat.le_refl 2) hn) ha
  obtain ⟨hpool2, hsame2⟩ := hpool1.setOwn (i := PX 0 a) (x := 0#64) hU hb
  rw [isValid_zero, if_neg Bool.false_ne_true] at h2
  refine ⟨m1.set b (PX 0 a) 0#64, l1, ?_, hpool2, h2, hsame1.right.trans hsame2, hg1.trans hg2⟩
  unfold Vm.unmapOne
  rw [walk_false ha, hn]
  show (if isValid (m.word b (PX 0 a)) = false then _ else _) = _
  rw [hv, if_neg (by decide), if_neg hflags, hrel]
  rfl

end Space

/-- The frames of `n` pages from the page with number `k` on. -/
def frames (g : Nat → Word) (k n : Nat) : Multiset Word :=
  ((List.range' k n).map fun j => PTE2PA (g j) : List Word)

theorem frames_succ (g : Nat → Word) (k n : Nat) :
    frames g k (n + 1) = {PTE2PA (g k)} + frames g (k + 1) n := by
  simp only [frames, List.range'_succ, List.map_cons, ← cons_coe, singleton_add]

theorem frames_concat (g : Nat → Word) (k n : Nat) :
    frames g k (n + 1) = PTE2PA (g (k + n)) ::ₘ frames g k n := by
  simp only [frames, List.range'_concat, List.map_append, ← coe_add, Nat.one_mul]
  rw [Multiset.add_comm]
  rfl

theorem frames_add (g : Nat → Word) (k n n' : Nat) :
    frames g k (n + n') = frames g k n + frames g (k + n) n' := by
  simp only [frames, ← List.range'_append_1, List.map_append, coe_add]

theorem frames_congr {g g' : Nat → Word} (h : ∀ j, k ≤ j → j < k + n → g j = g' j) :
    frames g k n = frames g' k n := by
  unfold frames
  congr 1
  refine List.map_congr_left fun j hj => ?_
  rw [List.mem_range'_1] at hj
  rw [h j hj.1 hj.2]

/-- The page with number `k` begins here. -/
def At (a : Word) (k : Nat) : Prop := a.toNat = k * PGSIZE

theorem At.page (h : At a k) : page a = k := by
  rw [Vm.page, h]
  exact Nat.mul_div_cancel k (by decide)

theorem At.lt (h : At a k) (hk : k < 2 ^ 26) : a.toNat < MAXVA := by
  rw [h]
  simp only [PGSIZE, MAXVA]
  omega

theorem At.next (h : At a k) (hk : k < 2 ^ 26) : At (a + 4096#64) (k + 1) := by
  rw [At, toNat_next (h.lt hk), h]
  simp only [PGSIZE]
  omega

theorem mappages_one (h : At a k) (hk : k < 2 ^ 26) :
    mappages m r a 4096#64 pa perm = mapOne m r a pa perm := by
  have hlt := h.lt hk
  have hdown : PGROUNDDOWN a = a := by
    apply BitVec.eq_of_toNat_eq
    rw [toNat_PGROUNDDOWN, h.page, h]
  have hcount : pagesOf a 4096#64 = 0 + 1 := by
    have h4096 : (4096#64 : Word).toNat = 4096 := rfl
    rw [pagesOf, h.page, h, h4096]
    simp only [PGSIZE]
    omega
  have hwrap : a.toNat + (4096#64 : Word).toNat ≤ 2 ^ 64 := by
    have h4096 : (4096#64 : Word).toNat = 4096 := rfl
    rw [h4096]
    simp only [MAXVA] at hlt
    omega
  rw [mappages_eq (by decide) hwrap, hdown, hcount]
  simp only [mapFrom]
  cases mapOne m r a pa perm with
  | error e => rfl
  | ok res =>
    obtain ⟨done, m'⟩ := res
    cases done <;> rfl

theorem uvmunmap_eq {npages : Word} {doFree : Bool} (h : At a k)
    (hn : npages.toNat = n) (hle : k + n ≤ 2 ^ 26) :
    uvmunmap kend m r a npages doFree = unmapFrom kend r doFree n m a := by
  have hal : a.toNat % PGSIZE = 0 := by
    rw [h]
    exact Nat.mul_mod_left k PGSIZE
  have hmul : (npages * 4096#64).toNat = n * 4096 := by
    have h4096 : (4096#64 : Word).toNat = 4096 := rfl
    rw [BitVec.toNat_mul, hn, h4096]
    omega
  have hstop : (a + npages * 4096#64).toNat = (k + n) * 4096 := by
    rw [BitVec.toNat_add, hmul, h]
    simp only [PGSIZE]
    omega
  have hcount : (if a < a + npages * 4096#64 then (a + npages * 4096#64 - a).toNat / PGSIZE
      else 0) = n := by
    have hcancel : a + npages * 4096#64 - a = npages * 4096#64 := by
      rw [BitVec.add_comm, BitVec.add_sub_cancel]
    rw [hcancel, hmul]
    simp only [PGSIZE]
    split_ifs with hlt
    · omega
    · rw [BitVec.lt_def, hstop, h] at hlt
      simp only [PGSIZE] at hlt
      omega
  simp only [uvmunmap, hal, ne_eq, not_true_eq_false, if_false, hcount]

namespace Space

theorem unmapFrom {n k : Nat} {g : Nat → Word} (h : Space m r T f) (doFree : Bool)
    (hU : Pages kend U) (hF : F = if doFree then frames g k n else 0)
    (hpool : Pool U m l (T + (F + A))) (ha : At a k) (hle : k + n ≤ 2 ^ 26)
    (hf : ∀ j, k ≤ j → j < k + n → f j = some (g j) ∧ PTE_FLAGS (g j) ≠ PTE_V) :
    ∃ m' l', Vm.unmapFrom kend r doFree n m a = .ok m' ∧ Pool U m' l' (T + A) ∧
      Space m' r T (fun j => if k ≤ j ∧ j < k + n then none else f j) ∧ Same m m' A ∧
      Grows m m' r := by
  -- from the first page on: the frames behind it are for later
  induction n generalizing k m l f a F with
  | zero =>
    refine ⟨m, l, rfl, hpool.cast ?_, ?_, Same.refl, Grows.refl⟩
    · have hzero : F = 0 := by
        rw [hF]
        split_ifs <;> rfl
      rw [hzero, Multiset.zero_add]
    · have hsame : (fun j => if k ≤ j ∧ j < k + 0 then none else f j) = f := by
        funext j
        rw [if_neg]
        omega
      rw [hsame]
      exact h
  | succ n ih =>
    have hk : k < 2 ^ 26 := by omega
    obtain ⟨hfk, hflags⟩ := hf k (Nat.le_refl k) (by omega)
    have hsplit : F = (if doFree then {PTE2PA (g k)} else 0) +
        (if doFree then frames g (k + 1) n else 0) := by
      rw [hF]
      cases doFree with
      | false => rfl
      | true =>
        simp only [if_true]
        exact frames_succ g k n
    rcases h.unmapOne (A := (if doFree then frames g (k + 1) n else 0) + A) hU rfl
      (hpool.cast (by rw [hsplit, Multiset.add_assoc])) (ha.lt hk) (by rw [ha.page]; exact hfk)
      hflags with ⟨m1, l1, hone, hpool1, h1, hsame1, hg1⟩
    rw [ha.page] at h1
    rcases ih h1 rfl hpool1 (ha.next hk) (by omega) (by
      intro j hj hj'
      rw [Function.update_of_ne (by omega)]
      exact hf j (by omega) (by omega)) with ⟨m2, l2, hrest, hpool2, h2, hsame2, hg2⟩
    refine ⟨m2, l2, ?_, hpool2, ?_, hsame1.right.trans hsame2, hg1.trans hg2⟩
    · simp only [Vm.unmapFrom, hone]
      exact hrest
    · have hfun : (fun j => if k ≤ j ∧ j < k + (n + 1) then none else f j) =
          fun j => if k + 1 ≤ j ∧ j < k + 1 + n then none else update f k none j := by
        funext j
        rw [Function.update_apply]
        by_cases hj : j = k
        · rw [if_pos (by omega), if_neg (by omega), if_pos hj]
        · by_cases hr : k ≤ j ∧ j < k + (n + 1)
          · rw [if_pos hr, if_pos (by omega)]
          · rw [if_neg hr, if_neg (by omega), if_neg hj]
      rw [hfun]
      exact h2

theorem uvmclear (h : Space m r T f) (hU : Pages kend U) (hpool : Pool U m l (T + A))
    (ha : a.toNat < MAXVA) (hf : f (page a) = some pte) :
    ∃ m', Vm.uvmclear m r a = .ok m' ∧ Pool U m' l (T + A) ∧
      Space m' r T (update f (page a) (some (pte &&& ~~~PTE_U))) ∧ Same m m' A := by
  obtain ⟨b, hn, rfl, hv⟩ := h.entry ha hf
  obtain ⟨h1, -⟩ := h.setLeaf (x := m.word b (PX 0 a) &&& ~~~PTE_U) hn ha
  rcases hpool.setOwn (i := PX 0 a) (x := m.word b (PX 0 a) &&& ~~~PTE_U) hU
    (h.node_mem (p := path a) (Nat.le_refl 2) hn) with ⟨hpool1, hsame1⟩
  rw [isValid_clear, hv, if_pos rfl] at h1
  refine ⟨_, ?_, hpool1, h1, hsame1⟩
  unfold Vm.uvmclear
  rw [walk_false ha, hn]
  rfl

theorem create (hU : Pages kend U) (hpool : Pool U m l A) : (l = [] ∧ Vm.uvmcreate m = (none, m)) ∨
    ∃ r m' l', Vm.uvmcreate m = (some r, m') ∧ r ≠ 0#64 ∧ Pool U m' l' ({r} + A) ∧
      Space m' r {r} (fun _ => none) ∧ Same m m' A := by
  rcases hpool.kalloc hU with ⟨hl, hk⟩ | ⟨r, m1, l1, -, hk, hne, hpool1, hsame1⟩
  · left
    refine ⟨hl, ?_⟩
    simp only [uvmcreate, hk, if_true]
  · right
    have hrA : r ∉ A := (Multiset.nodup_cons.1 (Multiset.nodup_add.1 (hpool1.nodup hU)).2.1).1
    have hzero : ∀ j, (m1.fill r 0#64).word r j = 0#64 := by
      intro j
      rw [word_fill, if_pos rfl]
    -- An empty page has nothing below it, so the root is the whole table.
    have hchild : ∀ j, child (m1.fill r 0#64) r j = none := by
      intro j
      simp only [child, hzero, isValid_zero, Bool.false_eq_true, if_false]
    have hnode : ∀ (p : List Index) b, node (child (m1.fill r 0#64)) r p = some b →
        p = [] ∧ b = r := by
      intro p b hb
      cases p with
      | nil => exact ⟨rfl, (Option.some.inj hb).symm⟩
      | cons j p =>
        simp only [node, hchild, bind_none, reduceCtorEq] at hb
    refine ⟨r, m1.fill r 0#64, l1, ?_, hne, ?_, ⟨?_, ?_, ?_, ?_, ?_⟩, ?_⟩
    · simp only [uvmcreate, hk, hne, if_false]
    · rw [singleton_add]
      refine hpool1.touch hU (mem_cons_self r A) (fun b hb => ?_) rfl
      funext j
      rw [word_fill, if_neg hb]
    · intro p q b _ _ hp hq
      rw [(hnode p b hp).1, (hnode q b hq).1]
    · intro b
      rw [Multiset.mem_singleton]
      constructor
      · rintro rfl
        exact ⟨[], Nat.zero_le 2, rfl⟩
      · rintro ⟨p, -, hb⟩
        exact (hnode p b hb).2
    · intro p b j _ hb hv
      rw [(hnode p b hb).2, hzero, isValid_zero] at hv
      cases hv
    · intro j _
      rw [hzero, isValid_zero]
    · intro v _
      simp only [lookup, path, node, hchild, bind_none]
    · intro b hb
      have hbr : b ≠ r := by
        rintro rfl
        exact hrA hb
      rw [← hsame1 b hb]
      funext j
      rw [word_fill, if_neg hbr]

end Space

end Xv6.Vm
