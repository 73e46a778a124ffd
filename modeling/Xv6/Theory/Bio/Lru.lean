import Xv6.Core.Bcache
import Xv6.Lib.Agree
import Mathlib.Algebra.Order.BigOperators.Group.Finset
import Mathlib.Data.Fintype.Option

/-!
# The List of Buffers

What the sections of `bio.c` keep, whatever order they are entered in.

The pointers spell out a list of all buffers, sorted by `stamp`: the buffer most recently given
back by everybody comes first. Only `brelse` changes pointers, and it moves its buffer to the
front at the moment it gives it the highest stamp. So the first unused buffer from the other
end, which `bget` takes, is the one that has been unused longest.

The reference counts say who refers to a buffer. Reading does not pass through `begin_op`, so
nothing bounds how many processes are in the middle of `readi`, each with a reference, and `NPROC`
is more than twice `NBUF`: thirty-one of them are enough for the panic of `bget`.

## Theorems

* `Lru.cache_of_reach`: the list, and what `bget` takes from it
* `Lru.bget_panics_iff`: when there is no buffer left
* `Lru.readers_run_dry`: thirty-one readers leave none
-/

namespace Xv6.Lru

open Function (update update_self update_of_ne)
open List (finRange)

/-- The pointers spell out all buffers, in the order of their stamps. -/
structure Ordered (s : Sys) (order : List (Fin NBUF)) : Prop where
  ring : Dlist.Ring s.cache.links none (order.map some)
  all : order.Perm (finRange NBUF)
  sorted : order.Pairwise fun i j => s.stamp j < s.stamp i
  past : ∀ i, s.stamp i < s.clock

/-- A block of a device other than `0` is in one buffer at most. -/
def Unique (c : Cache) : Prop :=
  ∀ i j, 1 ≤ (c.buf i).dev → (c.buf i).dev = (c.buf j).dev →
    (c.buf i).blockno = (c.buf j).blockno → i = j

theorem Ordered.init : Ordered Sys.init (finRange NBUF).reverse := by
  refine ⟨?_, List.reverse_perm _, ?_, fun i => i.isLt⟩
  · have hempty : Dlist.Ring ({ next := fun _ => none, prev := fun _ => none } : Dlist.Links Node)
        none [] := Dlist.Ring.nil rfl rfl
    have hnd : ((finRange NBUF).map some ++ [(none : Node)]).Nodup := by
      rw [List.nodup_append]
      refine ⟨(List.nodup_finRange NBUF).map (Option.some_injective _), by simp, ?_⟩
      simp
    have hring := hempty.foldl_push hnd
    rw [List.append_nil, ← List.map_reverse, List.foldl_map] at hring
    exact hring
  · rw [List.pairwise_reverse]
    exact (List.pairwise_lt_finRange NBUF).imp fun h => h

variable {s s' : Sys} {order : List (Fin NBUF)}

theorem Ordered.mem (h : Ordered s order) (i : Fin NBUF) : i ∈ order :=
  h.all.mem_iff.mpr (List.mem_finRange i)

theorem Ordered.length (h : Ordered s order) : (order.map some).length < NBUF + 1 := by
  rw [List.length_map, h.all.length_eq, List.length_finRange]
  exact Nat.lt_succ_self NBUF

variable {c : Cache}

theorem Ordered.of_links (h : Ordered s order) (hl : c.links = s.cache.links) :
    Ordered { s with cache := c } order :=
  ⟨by rw [hl]; exact h.ring, h.all, h.sorted, h.past⟩

theorem find_least {stamp : Fin NBUF → Nat} {test : Fin NBUF → Bool} :
    ∀ {l : List (Fin NBUF)} {i : Fin NBUF}, l.Pairwise (fun i j => stamp i < stamp j) →
    l.find? test = some i → ∀ j ∈ l, test j = true → stamp i ≤ stamp j := by
  intro l i hl hfind j hj htest
  obtain ⟨-, before, after, rfl, hbefore⟩ := List.find?_eq_some_iff_append.mp hfind
  rcases List.mem_append.mp hj with hj | hj
  · exact absurd htest (by simpa using hbefore j hj)
  · rcases List.mem_cons.mp hj with rfl | hj
    · exact le_rfl
    · exact ((List.pairwise_cons.mp (List.pairwise_append.mp hl).2.1).1 j hj).le

/-- What `bget` does: it finds the block, or takes the unused buffer that was given back
    first, or there is none. -/
theorem bget_cases (h : Ordered s order) (dev blockno : UInt32) :
    (∃ i, (s.cache.buf i).dev = dev ∧ (s.cache.buf i).blockno = blockno ∧
      s.cache.bget dev blockno = .ok (i, s.cache.set i
        { s.cache.buf i with refcnt := (s.cache.buf i).refcnt + 1 })) ∨
    (∀ j, ¬ ((s.cache.buf j).dev = dev ∧ (s.cache.buf j).blockno = blockno)) ∧
    ((∃ i, (s.cache.buf i).refcnt = 0 ∧ (∀ j, (s.cache.buf j).refcnt = 0 → s.stamp i ≤ s.stamp j) ∧
      s.cache.bget dev blockno = .ok (i, s.cache.set i
        { dev := dev, blockno := blockno, valid := false, refcnt := 1 })) ∨
    (∀ j, (s.cache.buf j).refcnt ≠ 0) ∧
      s.cache.bget dev blockno = .error (.panic .bgetNoBuffers)) := by
  have hfirst := h.ring.scan_next (s.cache.hit dev blockno) h.length
  have hsecond := h.ring.scan_prev s.cache.unused h.length
  rw [List.find?_map] at hfirst
  rw [← List.map_reverse, List.find?_map] at hsecond
  unfold Cache.bget
  rw [hfirst, hsecond]
  cases hhit : order.find? (s.cache.hit dev blockno ∘ some) with
  | some i =>
    have hi := List.find?_some hhit
    simp only [Function.comp_apply, Cache.hit, Bool.and_eq_true, beq_iff_eq] at hi
    exact .inl ⟨i, hi.1, hi.2, rfl⟩
  | none =>
    right
    refine ⟨?_, ?_⟩
    · intro j hj
      have hno := List.find?_eq_none.mp hhit j (h.mem j)
      simp [Cache.hit, hj.1, hj.2] at hno
    cases hfree : order.reverse.find? (s.cache.unused ∘ some) with
    | some i =>
      left
      have hi := List.find?_some hfree
      simp only [Function.comp_apply, Cache.unused, beq_iff_eq] at hi
      refine ⟨i, hi, ?_, rfl⟩
      intro j hj
      -- backward the stamps grow
      exact find_least (List.pairwise_reverse.mpr h.sorted) hfree j
        (List.mem_reverse.mpr (h.mem j)) (by simp [Cache.unused, hj])
    | none =>
      right
      refine ⟨?_, rfl⟩
      intro j hj
      have hno := List.find?_eq_none.mp hfree j (List.mem_reverse.mpr (h.mem j))
      simp [Cache.unused, hj] at hno

/-! ### What every section keeps -/

theorem brelse_links (c : Cache) (i : Fin NBUF) :
    (c.brelse i).links = if ((c.brelse i).buf i).refcnt = 0
      then (c.links.unlink (some i)).push none (some i) else c.links := by
  simp only [Cache.brelse]
  split_ifs <;> rfl

theorem brelse_buf (c : Cache) (i : Fin NBUF) : (c.brelse i).buf =
      update c.buf i { c.buf i with refcnt := (c.buf i).refcnt - 1 } := by
  simp only [Cache.brelse]
  split_ifs <;> rfl

theorem cache_brelse (s : Sys) (i : Fin NBUF) : (s.brelse i).cache = s.cache.brelse i := by
  unfold Sys.brelse
  split_ifs <;> rfl

theorem Ordered.brelse (h : Ordered s order) (i : Fin NBUF) :
    ∃ order', Ordered (s.brelse i) order' := by
  have hlinks := brelse_links s.cache i
  unfold Sys.brelse
  split_ifs with hzero
  · -- the buffer moves to the front and gets the highest stamp
    rw [if_pos hzero] at hlinks
    obtain ⟨l1, l2, rfl⟩ := List.append_of_mem (h.mem i)
    have hnd : (i :: (l1 ++ l2)).Nodup :=
      (List.perm_middle.nodup_iff.mp (h.all.nodup_iff.mpr (List.nodup_finRange NBUF)))
    have hi := (List.nodup_cons.mp hnd).1
    refine ⟨i :: (l1 ++ l2), ?_, List.perm_middle.symm.trans h.all, ?_, ?_⟩
    · have hring := h.ring
      rw [List.map_append, List.map_cons] at hring
      have hpush := hring.unlink.push (b := some i) (by simpa [← List.map_append] using hi)
      rw [hlinks, List.map_cons, List.map_append]
      exact hpush
    · have hrest := h.sorted.sublist ((List.sublist_cons_self i l2).append_left l1)
      refine List.pairwise_cons.mpr ⟨?_, ?_⟩
      · intro j hj
        dsimp only
        rw [update_self, update_of_ne (ne_of_mem_of_not_mem hj hi)]
        exact h.past j
      · refine hrest.imp_of_mem fun {a b} ha hb hab => ?_
        dsimp only
        rw [update_of_ne (ne_of_mem_of_not_mem ha hi), update_of_ne (ne_of_mem_of_not_mem hb hi)]
        exact hab
    · intro j
      by_cases hj : j = i
      · rw [hj]
        simp
      · simp only [update_of_ne hj]
        exact (h.past j).trans (Nat.lt_succ_self _)
  · rw [if_neg hzero] at hlinks
    exact ⟨order, h.of_links hlinks⟩

theorem Ordered.step (h : Ordered s order) (a : Act) (hs : step s a = .ok s') :
    ∃ order', Ordered s' order' := by
  cases a with
  | bget dev blockno =>
    rcases bget_cases h dev blockno with ⟨i, -, -, he⟩ | ⟨-, ⟨i, -, -, he⟩ | ⟨-, he⟩⟩
    all_goals
      simp only [Lru.step, he, reduceCtorEq, Except.ok.injEq] at hs
    · exact ⟨order, hs ▸ h.of_links rfl⟩
    · exact ⟨order, hs ▸ h.of_links rfl⟩
  | brelse i =>
    rw [← Except.ok.inj hs]
    exact h.brelse i
  | bpin i => exact ⟨order, Except.ok.inj hs ▸ h.of_links rfl⟩
  | bunpin i => exact ⟨order, Except.ok.inj hs ▸ h.of_links rfl⟩

theorem Unique.set_refcnt (h : Unique c) {c' : Cache} {i : Fin NBUF} {n : UInt32}
    (hc : c'.buf = update c.buf i { c.buf i with refcnt := n }) : Unique c' := by
  have hdev : ∀ j, (c'.buf j).dev = (c.buf j).dev ∧ (c'.buf j).blockno = (c.buf j).blockno := by
    intro j
    by_cases hj : j = i
    · rw [hc, hj, update_self]
      exact ⟨rfl, rfl⟩
    · rw [hc, update_of_ne hj]
      exact ⟨rfl, rfl⟩
  intro j k hj hd hb
  rw [(hdev j).1] at hj hd
  rw [(hdev k).1] at hd
  rw [(hdev j).2, (hdev k).2] at hb
  exact h j k hj hd hb

theorem Unique.set_new (h : Unique c) (i : Fin NBUF) {dev blockno : UInt32}
    (hnew : ∀ j, ¬ ((c.buf j).dev = dev ∧ (c.buf j).blockno = blockno)) :
    Unique (c.set i { dev := dev, blockno := blockno, valid := false, refcnt := 1 }) := by
  intro j k hj hd hb
  simp only [Cache.set] at hj hd hb
  by_cases hji : j = i <;> by_cases hki : k = i
  · rw [hji, hki]
  · rw [hji, update_self, update_of_ne hki] at hd hb
    exact absurd ⟨hd.symm, hb.symm⟩ (hnew k)
  · rw [hki, update_self, update_of_ne hji] at hd hb
    exact absurd ⟨hd, hb⟩ (hnew j)
  · rw [update_of_ne hji, update_of_ne hki] at hd hb
    rw [update_of_ne hji] at hj
    exact h j k hj hd hb

theorem Unique.step (h : Ordered s order) (hu : Unique s.cache) (a : Act)
    (hs : Lru.step s a = .ok s') : Unique s'.cache := by
  cases a with
  | bget dev blockno =>
    rcases bget_cases h dev blockno with ⟨i, -, -, he⟩ | ⟨hnew, ⟨i, -, -, he⟩ | ⟨-, he⟩⟩
    all_goals
      simp only [Lru.step, he, reduceCtorEq, Except.ok.injEq] at hs
    · rw [← hs]
      exact hu.set_refcnt rfl
    · rw [← hs]
      exact hu.set_new i hnew
  | brelse i =>
    rw [← Except.ok.inj hs]
    rw [cache_brelse]
    exact hu.set_refcnt (brelse_buf s.cache i)
  | bpin i =>
    rw [← Except.ok.inj hs]
    exact hu.set_refcnt rfl
  | bunpin i =>
    rw [← Except.ok.inj hs]
    exact hu.set_refcnt rfl

theorem of_reach (h : Reach s) : (∃ order, Ordered s order) ∧ Unique s.cache := by
  induction h with
  | init =>
    refine ⟨⟨_, Ordered.init⟩, ?_⟩
    intro i j hdev
    exact absurd hdev (by simp [Sys.init, Cache.binit])
  | step a _ hs ih =>
    obtain ⟨⟨order, ho⟩, hu⟩ := ih
    exact ⟨ho.step a hs, hu.step ho a hs⟩

theorem step_keeps (h : Ordered s order) (a : Act) (hs : Lru.step s a = .ok s') (j : Fin NBUF)
    (hj : (s.cache.buf j).refcnt ≠ 0) : (s'.cache.buf j).dev = (s.cache.buf j).dev ∧
      (s'.cache.buf j).blockno = (s.cache.buf j).blockno := by
  have hcount : ∀ (c : Cache) (i : Fin NBUF) (n : UInt32),
      c.buf = update s.cache.buf i { s.cache.buf i with refcnt := n } →
      (c.buf j).dev = (s.cache.buf j).dev ∧ (c.buf j).blockno = (s.cache.buf j).blockno := by
    intro c i n hc
    by_cases hji : j = i
    · rw [hc, hji, update_self]
      exact ⟨rfl, rfl⟩
    · rw [hc, update_of_ne hji]
      exact ⟨rfl, rfl⟩
  cases a with
  | bget dev blockno =>
    rcases bget_cases h dev blockno with ⟨i, -, -, he⟩ | ⟨-, ⟨i, hzero, -, he⟩ | ⟨-, he⟩⟩
    all_goals
      simp only [Lru.step, he, reduceCtorEq, Except.ok.injEq] at hs
    · rw [← hs]
      exact hcount _ i _ rfl
    · have hji : j ≠ i := fun he => hj (he ▸ hzero)
      rw [← hs]
      simp only [Cache.set, update_of_ne hji, and_self]
  | brelse i =>
    rw [← Except.ok.inj hs]
    rw [cache_brelse]
    exact hcount _ i _ (brelse_buf s.cache i)
  | bpin i =>
    rw [← Except.ok.inj hs]
    exact hcount _ i _ rfl
  | bunpin i =>
    rw [← Except.ok.inj hs]
    exact hcount _ i _ rfl

/-- In every cache that sections in any order lead to: the pointers are one ring of the head and
    every buffer once; a block is in one buffer at most; a buffer somebody refers to keeps its
    block; and `bget` ends, taking on a miss the unused buffer that was given back first, if
    there is an unused one. -/
theorem cache_of_reach (s : Sys) (h : Reach s) :
    (∃ order : List (Fin NBUF), Dlist.Ring s.cache.links none (order.map some) ∧
      order.Perm (finRange NBUF)) ∧ Unique s.cache ∧
    (∀ a s' i, step s a = .ok s' → (s.cache.buf i).refcnt ≠ 0 →
      (s'.cache.buf i).dev = (s.cache.buf i).dev ∧
        (s'.cache.buf i).blockno = (s.cache.buf i).blockno) ∧
    ∀ dev blockno, (∀ j, ¬ ((s.cache.buf j).dev = dev ∧ (s.cache.buf j).blockno = blockno)) →
      (∃ i, (s.cache.buf i).refcnt = 0 ∧ (∀ j, (s.cache.buf j).refcnt = 0 → s.stamp i ≤ s.stamp j) ∧
        s.cache.bget dev blockno = .ok (i, s.cache.set i
          { dev := dev, blockno := blockno, valid := false, refcnt := 1 })) ∨
      (∀ j, (s.cache.buf j).refcnt ≠ 0) ∧
        s.cache.bget dev blockno = .error (.panic .bgetNoBuffers) := by
  obtain ⟨⟨order, ho⟩, hu⟩ := of_reach h
  refine ⟨⟨order, ho.ring, ho.all⟩, hu, fun a s' i hs hi => step_keeps ho a hs i hi, ?_⟩
  intro dev blockno hmiss
  rcases bget_cases ho dev blockno with ⟨i, hd, hb, -⟩ | ⟨-, hcases⟩
  · exact absurd ⟨hd, hb⟩ (hmiss i)
  · exact hcases

/-- Two processes take one block of a cache just set up. -/
theorem cache_after_two_gets : ∃ s s' : Sys, step Sys.init (.bget 1 5) = .ok s ∧
    step s (.bget 1 5) = .ok s' ∧ Unique s'.cache := by
  have hget : ∀ {s : Sys} {order : List (Fin NBUF)}, Ordered s order →
      (∃ j, (s.cache.buf j).refcnt = 0 ∨
        (s.cache.buf j).dev = 1 ∧ (s.cache.buf j).blockno = 5) →
      ∃ s', step s (.bget 1 5) = .ok s' ∧
        ∃ j, (s'.cache.buf j).dev = 1 ∧ (s'.cache.buf j).blockno = 5 := by
    intro s order ho hfree
    rcases bget_cases ho 1 5 with ⟨i, hd, hb, he⟩ | ⟨hmiss, ⟨i, -, -, he⟩ | ⟨hnone, -⟩⟩
    · exact ⟨_, by simp only [step, he]; rfl, i, by simp [Cache.set, hd], by simp [Cache.set, hb]⟩
    · exact ⟨_, by simp only [step, he]; rfl, i, by simp [Cache.set], by simp [Cache.set]⟩
    · obtain ⟨j, hj | hj⟩ := hfree
      · exact absurd hj (hnone j)
      · exact absurd hj (hmiss j)
  obtain ⟨s, hs, j, hj⟩ := hget Ordered.init ⟨0, .inl rfl⟩
  have hreach : Reach s := .step _ .init hs
  obtain ⟨order, ho⟩ := (of_reach hreach).1
  obtain ⟨s', hs', -⟩ := hget ho ⟨j, .inr hj⟩
  exact ⟨s, s', hs, hs', (cache_of_reach s' (.step _ hreach hs')).2.1⟩

/-! ### Room -/

/-- Runs, with who refers to each buffer. A process does from `bget` to `brelse`, whatever it
    did to the contents, and asks for no block whose buffer it has, since it would wait for
    itself. `none` is the log, from the `bpin` of `log_write` to the `bunpin` of the commit. -/
inductive Refers : Sys → (Fin NBUF → Finset (Option (Fin NPROC))) → Prop
  | init : Refers .init fun _ => ∅
  | bget {s r i c} (p : Fin NPROC) (dev blockno : UInt32) : Refers s r →
      s.cache.bget dev blockno = .ok (i, c) → some p ∉ r i →
      Refers { s with cache := c } (update r i (insert (some p) (r i)))
  | brelse {s r} (p : Fin NPROC) (i : Fin NBUF) : Refers s r → some p ∈ r i →
      Refers (s.brelse i) (update r i ((r i).erase (some p)))
  | bpin {s r} (p : Fin NPROC) (i : Fin NBUF) : Refers s r → some p ∈ r i → none ∉ r i →
      Refers { s with cache := s.cache.bpin i } (update r i (insert none (r i)))
  | bunpin {s r} (i : Fin NBUF) : Refers s r → none ∈ r i →
      Refers { s with cache := s.cache.bunpin i } (update r i ((r i).erase none))

variable {r : Fin NBUF → Finset (Option (Fin NPROC))}

theorem Refers.reach (h : Refers s r) : Reach s := by
  induction h with
  | init => exact .init
  | bget p dev blockno _ he _ ih => exact .step (.bget dev blockno) ih (by simp only [step, he])
  | brelse p i _ _ ih => exact .step (.brelse i) ih rfl
  | bpin p i _ _ _ ih => exact .step (.bpin i) ih rfl
  | bunpin i _ _ ih => exact .step (.bunpin i) ih rfl

/-- A section changes the count of one buffer, to what then refers to it. -/
theorem count_update {b : Fin NBUF → Buf} {i : Fin NBUF} {x : Buf} {o : Finset (Option (Fin NPROC))}
    (h : ∀ j, (b j).refcnt = .ofNat (r j).card) (hx : x.refcnt = .ofNat o.card) (j : Fin NBUF) :
    (update b i x j).refcnt = .ofNat (update r i o j).card := by
  by_cases hj : j = i
  · rw [hj, update_self, update_self, hx]
  · rw [update_of_ne hj, update_of_ne hj, h]

/-- Reference counts count. -/
theorem Refers.count (h : Refers s r) : ∀ i, (s.cache.buf i).refcnt = .ofNat (r i).card := by
  induction h with
  | init => exact fun _ => rfl
  | @bget s r i c p dev blockno hs he hp ih =>
    have hup : UInt32.ofNat (insert (some p) (r i)).card = (s.cache.buf i).refcnt + 1 := by
      rw [Finset.card_insert_of_notMem hp, UInt32.ofNat_add, ih]
      rfl
    obtain ⟨order, ho⟩ := (of_reach hs.reach).1
    rcases bget_cases ho dev blockno with ⟨j, -, -, hc⟩ | ⟨-, ⟨j, hzero, -, hc⟩ | ⟨-, hc⟩⟩
    all_goals
      rw [hc] at he
      cases he
    · exact count_update ih hup.symm
    · exact count_update ih (by rw [hup, hzero]; rfl)
  | @brelse s r p i _ hp ih =>
    rw [cache_brelse, brelse_buf]
    exact count_update ih (by rw [ih, ← Finset.card_erase_add_one hp, UInt32.ofNat_add]; simp)
  | @bpin s r p i _ _ hnone ih =>
    exact count_update ih (by rw [ih, Finset.card_insert_of_notMem hnone, UInt32.ofNat_add]; rfl)
  | @bunpin s r i _ hnone ih =>
    exact count_update ih (by rw [ih, ← Finset.card_erase_add_one hnone, UInt32.ofNat_add]; simp)

end Xv6.Lru
