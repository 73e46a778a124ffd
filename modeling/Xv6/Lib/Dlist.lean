import Mathlib.Data.List.Chain

/-!
# Circular Doubly Linked Lists

Nodes with two pointers each, and the list they spell out from a head node. `Ring` says that
going forward from the head visits the nodes of a list in order and comes back, and that
going backward undoes it. Two edits are enough to move a node to the front: taking it out, and
putting a node that is not on the list behind the head. A scan follows one of the pointers
until it finds what it looks for or is back at the head.

## Theorems

* `Dlist.Ring.unlink`, `Dlist.Ring.push`
-/

namespace Xv6.Dlist

open Function (update update_self update_of_ne)
open List (append_assoc cons_append isChain_append isChain_cons_cons mem_cons_self)

variable {N : Type} [DecidableEq N]

structure Links (N : Type) where
  next : N → N
  prev : N → N

namespace Links

/-- Two neighbours. -/
def Joined (p : Links N) (x y : N) : Prop := p.next x = y ∧ p.prev y = x

/-- Take a node out: its neighbours point past it, and its own pointers stay. -/
def unlink (p : Links N) (b : N) : Links N :=
  { next := update p.next (p.prev b) (p.next b)
    prev := update p.prev (p.next b) (p.prev b) }

/-- Put a node behind the head. -/
def push (p : Links N) (h b : N) : Links N :=
  { next := update (update p.next b (p.next h)) h b
    prev := update (update p.prev b h) (p.next h) b }

theorem next_unlink (p : Links N) (b : N) :
    (p.unlink b).next = update p.next (p.prev b) (p.next b) := rfl

theorem prev_unlink (p : Links N) (b : N) :
    (p.unlink b).prev = update p.prev (p.next b) (p.prev b) := rfl

theorem next_push (p : Links N) (h b : N) :
    (p.push h b).next = update (update p.next b (p.next h)) h b := rfl

theorem prev_push (p : Links N) (h b : N) :
    (p.push h b).prev = update (update p.prev b h) (p.next h) b := rfl

end Links

/-- The pointers spell out `qs` from the head `h` and close up. -/
structure Ring (p : Links N) (h : N) (qs : List N) : Prop where
  nodup : (h :: qs).Nodup
  chain : (h :: (qs ++ [h])).IsChain p.Joined

/-- Follow `f` until a node satisfies `test` or is the head. The answer is `none` where `fuel`
    steps do not get to the end. -/
def scan (f : N → N) (h : N) (test : N → Bool) : Nat → N → Option (Option N)
  | 0, _ => none
  | fuel + 1, x =>
    if x = h then some none else if test x then some (some x) else scan f h test fuel (f x)

namespace Ring

variable {p : Links N} {h b : N} {qs l1 l2 : List N}

omit [DecidableEq N] in
theorem nil (hn : p.next h = h) (hp : p.prev h = h) : Ring p h [] :=
  ⟨by simp, by simp [Links.Joined, hn, hp]⟩

omit [DecidableEq N] in
theorem joined (hr : Ring p h (l1 ++ b :: l2)) : p.Joined (p.prev b) b ∧ p.Joined b (p.next b) := by
  have hc := hr.chain
  rw [append_assoc, cons_append, ← cons_append, isChain_append] at hc
  obtain ⟨-, hright, hmid⟩ := hc
  obtain ⟨x, hx⟩ : ∃ x, x ∈ (h :: l1).getLast? :=
    ⟨_, List.getLast?_eq_some_getLast (List.cons_ne_nil _ _)⟩
  have hxb := hmid x hx b rfl
  obtain ⟨y, ys, hy⟩ : ∃ y ys, l2 ++ [h] = y :: ys :=
    List.exists_cons_of_ne_nil (by simp)
  rw [hy, isChain_cons_cons] at hright
  have hby := hright.1
  rw [hxb.2, hby.1]
  exact ⟨hxb, hby⟩

theorem unlink (hr : Ring p h (l1 ++ b :: l2)) : Ring (p.unlink b) h (l1 ++ l2) := by
  obtain ⟨hprev, hnext⟩ := hr.joined
  have hnd : (h :: (l1 ++ b :: l2)).Nodup := hr.nodup
  have hb : b ∉ h :: (l1 ++ l2) := by
    have hperm : (h :: (l1 ++ b :: l2)).Perm (b :: h :: (l1 ++ l2)) :=
      (List.perm_middle.cons h).trans (List.Perm.swap b h _)
    exact (List.nodup_cons.mp (hperm.nodup_iff.mp hnd)).1
  -- neighbours other than b are not those whose pointers change
  have hkeep : ∀ x y, x ≠ b → y ≠ b → p.Joined x y → (p.unlink b).Joined x y := by
    intro x y hxb hyb hxy
    have hx : x ≠ p.prev b := fun he => hyb (by rw [← hxy.1, he, hprev.1])
    have hy : y ≠ p.next b := fun he => hxb (by rw [← hxy.2, he, hnext.2])
    exact ⟨by rw [Links.next_unlink, update_of_ne hx, hxy.1],
      by rw [Links.prev_unlink, update_of_ne hy, hxy.2]⟩
  have hc := hr.chain
  rw [append_assoc, cons_append, ← cons_append, isChain_append] at hc
  obtain ⟨hleft, hright, hmid⟩ := hc
  simp only [List.mem_cons, List.mem_append, not_or] at hb
  refine ⟨?_, ?_⟩
  · exact hnd.sublist (List.Sublist.cons_cons h
      (List.Sublist.append_left (List.sublist_cons_self b l2) l1))
  · rw [append_assoc, ← cons_append, isChain_append]
    refine ⟨?_, ?_, ?_⟩
    · refine List.IsChain.imp_of_mem_imp (fun x y hx hy hxy => hkeep x y ?_ ?_ hxy) hleft
      · rintro rfl
        rcases List.mem_cons.mp hx with hx | hx
        · exact hb.1 hx
        · exact hb.2.1 hx
      · rintro rfl
        rcases List.mem_cons.mp hy with hy | hy
        · exact hb.1 hy
        · exact hb.2.1 hy
    · have hne : ∀ x ∈ l2 ++ [h], x ≠ b := by
        rintro x hx rfl
        rcases List.mem_append.mp hx with hx | hx
        · exact hb.2.2 hx
        · exact hb.1 (List.mem_singleton.mp hx)
      exact List.IsChain.imp_of_mem_imp
        (fun x y hx hy hxy => hkeep x y (hne x hx) (hne y hy) hxy) hright.tail
    · intro x hx y hy
      -- the seam: what was before b now meets what was after it
      have hxp : p.prev b = x := (hmid x hx b rfl).2
      have hyn : p.next b = y := by
        cases hl : l2 ++ [h] with
        | nil => exact absurd hl (by simp)
        | cons z zs =>
          rw [hl] at hy hright
          obtain rfl : z = y := Option.some.inj hy
          exact (List.isChain_cons_cons.mp hright).1.1
      rw [← hxp, ← hyn]
      exact ⟨by rw [Links.next_unlink, update_self],
        by rw [Links.prev_unlink, update_self]⟩

theorem push (hr : Ring p h qs) (hb : b ∉ h :: qs) : Ring (p.push h b) h (b :: qs) := by
  have hbh : b ≠ h := fun he => hb (he ▸ mem_cons_self)
  have hbq : b ∉ qs := fun hm => hb (List.mem_cons_of_mem h hm)
  have hhq : h ∉ qs := (List.nodup_cons.mp hr.nodup).1
  obtain ⟨y, ys, hy⟩ : ∃ y ys, qs ++ [h] = y :: ys := List.exists_cons_of_ne_nil (by simp)
  have hc := hr.chain
  rw [hy, isChain_cons_cons] at hc
  obtain ⟨hhy, hchain⟩ := hc
  have hby : b ≠ y := by grind [mem_cons_self]
  have hnexth : (p.push h b).next h = b := by rw [Links.next_push, update_self]
  have hnextb : (p.push h b).next b = y := by
    rw [Links.next_push, update_of_ne hbh, update_self, hhy.1]
  have hprevb : (p.push h b).prev b = h := by
    rw [Links.prev_push, hhy.1, update_of_ne hby, update_self]
  have hprevy : (p.push h b).prev y = b := by
    rw [Links.prev_push, hhy.1, update_self]
  -- a node of the list other than the first keeps its neighbour before it
  have hkeep : ∀ x z, x ∈ qs → z ≠ b → p.Joined x z → (p.push h b).Joined x z := by
    intro x z hx hzb hxz
    have hxh : x ≠ h := fun he => hhq (he ▸ hx)
    have hxb : x ≠ b := fun he => hbq (he ▸ hx)
    have hzy : z ≠ y := fun he => hxh (by rw [← hxz.2, he, hhy.2])
    exact ⟨by rw [Links.next_push, update_of_ne hxh, update_of_ne hxb, hxz.1],
      by rw [Links.prev_push, hhy.1, update_of_ne hzy, update_of_ne hzb, hxz.2]⟩
  refine ⟨?_, ?_⟩
  · exact (List.Perm.swap h b qs).nodup_iff.mp (List.nodup_cons.mpr ⟨hb, hr.nodup⟩)
  · rw [cons_append, hy, isChain_cons_cons, isChain_cons_cons]
    refine ⟨⟨hnexth, hprevb⟩, ⟨hnextb, hprevy⟩, ?_⟩
    rw [← hy] at hchain ⊢
    rw [isChain_append] at hchain ⊢
    obtain ⟨hqs, -, hlast⟩ := hchain
    refine ⟨?_, List.isChain_singleton h, ?_⟩
    · exact List.IsChain.imp_of_mem_imp
        (fun x z hx hz hxz => hkeep x z hx (fun he => hbq (he ▸ hz)) hxz) hqs
    · intro x hx z hz
      obtain rfl : h = z := Option.some.inj hz
      exact hkeep x h (List.mem_of_mem_getLast? hx) (Ne.symm hbh) (hlast x hx h rfl)

theorem foldl_push : ∀ {bs qs : List N} {p : Links N}, Ring p h qs → (bs ++ h :: qs).Nodup →
    Ring (bs.foldl (fun p b => p.push h b) p) h (bs.reverse ++ qs) := by
  intro bs
  induction bs with
  | nil => exact fun hr _ => hr
  | cons b bs ih =>
    intro qs p hr hnd
    obtain ⟨hb, hnd'⟩ := List.nodup_cons.mp hnd
    have hpush := hr.push fun hm => hb (List.mem_append_right bs hm)
    have hperm : (b :: (bs ++ h :: qs)).Perm (bs ++ h :: b :: qs) :=
      List.perm_middle.symm.trans ((List.Perm.swap h b qs).append_left bs)
    have hrest := ih hpush (hperm.nodup_iff.mp hnd)
    rw [List.reverse_cons, append_assoc]
    exact hrest

/-- A scan along any pointer that runs through a list and then reaches the head. -/
theorem scan_chain {f : N → N} (test : N → Bool) (h : N) : ∀ (l : List N) (x : N) (fuel : Nat),
    h ∉ x :: l → (x :: (l ++ [h])).IsChain (fun y z => f y = z) → l.length + 1 < fuel →
    scan f h test fuel x = some ((x :: l).find? test) := by
  intro l
  induction l with
  | nil =>
    intro x fuel hx hc hf
    obtain ⟨fuel, rfl⟩ : ∃ k, fuel = k + 2 := ⟨fuel - 2, by simp at hf; omega⟩
    have hxh : x ≠ h := fun he => hx (he ▸ mem_cons_self)
    have hfx : f x = h := (List.isChain_cons_cons.mp hc).1
    cases htest : test x <;> simp [scan, hxh, htest, hfx]
  | cons y l ih =>
    intro x fuel hx hc hf
    obtain ⟨fuel, rfl⟩ : ∃ k, fuel = k + 1 := ⟨fuel - 1, by omega⟩
    have hxh : x ≠ h := fun he => hx (he ▸ mem_cons_self)
    obtain ⟨hfx, hc⟩ := List.isChain_cons_cons.mp hc
    have hy := ih y fuel (fun hm => hx (List.mem_cons_of_mem x hm)) hc
      (by rw [List.length_cons] at hf; omega)
    cases htest : test x <;> simp [scan, hxh, htest, hfx, hy]

theorem scan_next (hr : Ring p h qs) (test : N → Bool) {fuel : Nat} (hf : qs.length < fuel) :
    scan p.next h test fuel (p.next h) = some (qs.find? test) := by
  have hc := hr.chain.imp (fun x y (hxy : p.Joined x y) => hxy.1)
  cases qs with
  | nil =>
    obtain ⟨fuel, rfl⟩ : ∃ k, fuel = k + 1 := ⟨fuel - 1, by simp at hf; omega⟩
    have hh : p.next h = h := (List.isChain_cons_cons.mp hc).1
    simp [scan, hh]
  | cons x l =>
    obtain ⟨hx, hc⟩ := List.isChain_cons_cons.mp hc
    rw [hx]
    exact scan_chain test h l x fuel (List.nodup_cons.mp hr.nodup).1 hc hf

omit [DecidableEq N] in
theorem reverse (hr : Ring p h qs) : Ring ⟨p.prev, p.next⟩ h qs.reverse := by
  refine ⟨?_, ?_⟩
  · exact ((List.reverse_perm qs).cons h).nodup_iff.mpr hr.nodup
  · have hrev : h :: (qs.reverse ++ [h]) = (h :: (qs ++ [h])).reverse := by simp
    rw [hrev, List.isChain_reverse]
    exact hr.chain.imp fun x y hxy => ⟨hxy.2, hxy.1⟩

theorem scan_prev (hr : Ring p h qs) (test : N → Bool) {fuel : Nat} (hf : qs.length < fuel) :
    scan p.prev h test fuel (p.prev h) = some (qs.reverse.find? test) :=
  hr.reverse.scan_next test (by rw [List.length_reverse]; exact hf)

end Ring

end Xv6.Dlist
