import Xv6.Core.Umalloc
import Xv6.Lib.Slist
import Mathlib.Algebra.BigOperators.Group.List.Basic
import Mathlib.Algebra.GroupWithZero.Nat
import Mathlib.Data.UInt

/-!
# The Free List

The ring of free blocks of `umalloc.c`, as a list of addresses and sizes that starts at `base`.

`Holds` says that the headers spell out such a list, that each block ends strictly before the
next one begins, and that none but `base` is empty. `free` finds the place of its block from
wherever `freep` is, since there is exactly one header at which its loop stops. `malloc` goes
round once; if no block is large enough it asks for memory, and finds that on the second tour.

## Theorems

* `Umalloc.heap_of_reach`
-/

namespace Xv6.Umalloc

open Function (update update_self update_of_ne)
open List (append_cons append_of_mem cons_append headD_cons length_cons map_append map_cons
  mem_append mem_append_left mem_append_right mem_cons_of_mem mem_cons_self not_mem_nil)
open Prod (fst)

variable {ys' : List (Nat × Nat)} {live : List Live} {h' : Heap} {s : Sys}

/-- A byte is in a block. -/
def In (a : Nat) (b : Nat × Nat) : Prop := b.1 ≤ a ∧ a < b.1 + 16 * b.2

/-- Two blocks have no byte in common. -/
def Apart (x y : Nat × Nat) : Prop := ∀ a, In a x → ¬ In a y

/-- The headers spell out the blocks `bs`, each below the next with something in between. -/
structure Holds (base : Nat) (ptr : Nat → Nat) (size : Nat → UInt32) (bs : List (Nat × Nat)) :
    Prop where
  head : ∃ t, bs = (base, 0) :: t
  links : Linked ptr (bs.map fst) base
  sizes : ∀ b ∈ bs, (size b.1).toNat = b.2
  apart : bs.Pairwise fun x y => x.1 + 16 * x.2 < y.1
  pos : ∀ b ∈ bs, b.1 ≠ base → 0 < b.2

/-- How much there is in a list of blocks. -/
def total (bs : List (Nat × Nat)) : Nat := (bs.map Prod.snd).sum

theorem total_append (xs ys : List (Nat × Nat)) : total (xs ++ ys) = total xs + total ys := by
  simp [total]

theorem total_cons (x : Nat × Nat) (xs : List (Nat × Nat)) : total (x :: xs) = x.2 + total xs := by
  simp [total]

variable {A : Type} {n nbytes : UInt32} {fuel prevp p : Nat} {x : Live} {xs ys : List (Nat × Nat)}
  {pb qb : Nat × Nat}

theorem head_append {xs l l' : List A} {p b : A} (h : ∃ t, xs ++ p :: l = b :: t) :
    ∃ t, xs ++ p :: l' = b :: t := by
  obtain ⟨t, ht⟩ := h
  cases xs with
  | nil =>
    cases ht
    exact ⟨l', rfl⟩
  | cons a xs =>
    cases ht
    exact ⟨xs ++ p :: l', rfl⟩

theorem mem_middle {xs ys : List A} {p q x : A} :
    x ∈ xs ++ p :: q :: ys ↔ x = q ∨ x ∈ xs ++ p :: ys := by
  rw [append_cons, mem_append, List.mem_cons, or_left_comm, append_cons xs p ys,
    mem_append (s := xs ++ [p])]

namespace Holds

variable {base : Nat} {h : Heap} {bs xs ys : List (Nat × Nat)} {p : Nat × Nat}

theorem base_le (hh : Holds base h.ptr h.size bs) (b : Nat × Nat) (hb : b ∈ bs) : base ≤ b.1 := by
  obtain ⟨t, rfl⟩ := hh.head
  rcases List.mem_cons.mp hb with rfl | hb
  · exact Nat.le_refl _
  · have := (List.pairwise_cons.mp hh.apart).1 b hb
    dsimp only at this
    omega

section

variable (hh : Holds base h.ptr h.size (xs ++ p :: ys))

include hh

theorem below (x : Nat × Nat) (hx : x ∈ xs) :
    x.1 + 16 * x.2 < p.1 :=
  (List.pairwise_append.mp hh.apart).2.2 x hx p mem_cons_self

theorem above (y : Nat × Nat) (hy : y ∈ ys) :
    p.1 + 16 * p.2 < y.1 :=
  (List.pairwise_cons.mp (List.pairwise_append.mp hh.apart).2.1).1 y hy

theorem ptr_eq :
    h.ptr p.1 = (ys.map fst).headD base := by
  have hl := hh.links
  rw [map_append, map_cons] at hl
  exact (Linked.append_iff.mp hl).2.1

theorem ptr_cases :
    (∃ y t, ys = y :: t ∧ h.ptr p.1 = y.1) ∨ ys = [] ∧ h.ptr p.1 = base := by
  cases ys with
  | nil => exact .inr ⟨rfl, hh.ptr_eq⟩
  | cons y t => exact .inl ⟨y, t, rfl, hh.ptr_eq⟩

end

theorem eq_of_fst (hh : Holds base h.ptr h.size bs) {b c : Nat × Nat} (hb : b ∈ bs) (hc : c ∈ bs)
    (he : b.1 = c.1) : b = c :=
  Prod.ext he (by rw [← hh.sizes b hb, ← hh.sizes c hc, he])

theorem length_le (hh : Holds base h.ptr h.size bs) : bs.length ≤ total bs + 1 := by
  obtain ⟨t, rfl⟩ := hh.head
  have ht : ∀ l : List (Nat × Nat), (∀ b ∈ l, 0 < b.2) → l.length ≤ total l := by
    intro l hl
    induction l with
    | nil => exact Nat.le_refl _
    | cons b l ih =>
      have hb := hl b mem_cons_self
      have hrest := ih fun c hc => hl c (mem_cons_of_mem b hc)
      rw [length_cons, total_cons]
      omega
  have hpos : ∀ b ∈ t, 0 < b.2 := by
    intro b hb
    refine hh.pos b (mem_cons_of_mem _ hb) ?_
    have := (List.pairwise_cons.mp hh.apart).1 b hb
    dsimp only at this
    omega
  have := ht t hpos
  rw [length_cons, total_cons]
  omega

/-! ### Finding the place of a block -/

variable {bp n n' : Nat}

theorem split : ∀ (t : List (Nat × Nat)) (p : Nat × Nat),
    (p :: t).Pairwise (fun x y => x.1 + 16 * x.2 < y.1) → p.1 + 16 * p.2 ≤ bp →
    (∀ b ∈ t, b.1 + 16 * b.2 ≤ bp ∨ bp < b.1) →
    ∃ xs q ys, p :: t = xs ++ q :: ys ∧ q.1 + 16 * q.2 ≤ bp ∧ ∀ y ∈ ys, bp < y.1 := by
  intro t
  induction t with
  | nil => exact fun p _ hp _ => ⟨[], p, [], rfl, hp, fun _ hy => absurd hy not_mem_nil⟩
  | cons q t ih =>
    intro p hpw hp hall
    have htail := (List.pairwise_cons.mp hpw).2
    rcases hall q mem_cons_self with hq | hq
    · grind
    · refine ⟨[], p, q :: t, rfl, hp, ?_⟩
      intro y hy
      rcases List.mem_cons.mp hy with rfl | hy
      · exact hq
      · have := (List.pairwise_cons.mp htail).1 y hy
        omega

theorem freeLoop_skip (bp : Nat) {z : Nat} (l : List Nat) : ∀ (fuel : Nat), Linked h.ptr l z →
    (∀ a ∈ l, ¬ (a < bp ∧ bp < h.ptr a) ∧ ¬ (h.ptr a ≤ a ∧ (a < bp ∨ bp < h.ptr a))) →
    freeLoop h bp (l.length + fuel) (l.headD z) = freeLoop h bp fuel z := by
  induction l with
  | nil =>
    intro fuel _ _
    rw [List.length_nil, Nat.zero_add]
    rfl
  | cons a l ih =>
    intro fuel hl hstop
    obtain ⟨h1, h2⟩ := hstop a mem_cons_self
    rw [length_cons, show l.length + 1 + fuel = l.length + fuel + 1 by omega,
      headD_cons, freeLoop, if_neg h1, if_neg h2, hl.1]
    exact ih fuel hl.2 fun b hb => hstop b (mem_cons_of_mem a hb)

theorem freeLoop_ok (hh : Holds base h.ptr h.size (xs ++ p :: ys)) {x fuel : Nat} (hp : p.1 < bp)
    (hys : ∀ y ∈ ys, bp < y.1) (hx : x ∈ (xs ++ p :: ys).map fst)
    (hfuel : xs.length + ys.length < fuel) : freeLoop h bp fuel x = some p.1 := by
  have hlinks := hh.links
  rw [map_append, map_cons] at hlinks hx
  have hbase : (xs.map fst).headD p.1 = base := by
    obtain ⟨t, ht⟩ := hh.head
    cases xs with
    | nil => rw [List.nil_append] at ht; cases ht; rfl
    | cons b t' => rw [cons_append] at ht; cases ht; rfl
  have hbp : base < bp := Nat.lt_of_le_of_lt (hh.base_le p (by simp)) hp
  obtain ⟨l, hl, hhead, hmem, hlen⟩ := hlinks.route hbase hx
  simp only [List.length_map] at hlen
  have hskip := freeLoop_skip bp l (fuel - l.length) hl ?_
  · rw [Nat.add_sub_of_le (by omega), hhead] at hskip
    rw [hskip]
    obtain ⟨k, hk⟩ : ∃ k, fuel - l.length = k + 1 := ⟨fuel - l.length - 1, by omega⟩
    rw [hk, freeLoop]
    rcases hh.ptr_cases with ⟨y, t, rfl, hptr⟩ | ⟨rfl, hptr⟩
    · rw [if_pos ⟨hp, by rw [hptr]; exact hys y mem_cons_self⟩]
    · have := hh.base_le p (by simp)
      rw [hptr, if_neg (by omega), if_pos ⟨by omega, .inl hp⟩]
  · intro a ha
    rcases hmem a ha with ha | ha
    · -- below: the next header is at most that of p
      obtain ⟨b, hb, rfl⟩ := List.mem_map.mp ha
      obtain ⟨m1, m2, rfl⟩ := append_of_mem hb
      have hh' := hh
      rw [List.append_assoc, cons_append] at hh'
      rcases hh'.ptr_cases with ⟨c, t, he, hptr⟩ | ⟨he, -⟩
      · have hc : b.1 + 16 * b.2 < c.1 := hh'.above c (by rw [he]; exact mem_cons_self)
        have hcp : c.1 ≤ p.1 := by
          cases m2 with
          | nil =>
            rw [List.nil_append] at he
            cases he
            exact Nat.le_refl _
          | cons d m3 =>
            rw [cons_append] at he
            cases he
            have := hh.below c (by simp)
            omega
        rw [hptr]
        omega
      · exact absurd he (by simp)
    · obtain ⟨b, hb, rfl⟩ := List.mem_map.mp ha
      have hlow := hys b hb
      obtain ⟨m1, m2, rfl⟩ := append_of_mem hb
      rw [← cons_append, ← List.append_assoc] at hh
      rcases hh.ptr_cases with ⟨c, t, he, hptr⟩ | ⟨he, hptr⟩
      · have hc : b.1 + 16 * b.2 < c.1 := hh.above c (by rw [he]; exact mem_cons_self)
        rw [hptr]
        omega
      · rw [hptr]
        omega

/-! ### Giving a block back -/

/-- What follows `bp` once it is joined to what is above it. -/
structure Upper (base : Nat) (h h' : Heap) (ys ys' : List (Nat × Nat)) (bp n n' : Nat) : Prop where
  which : ys' = ys ∧ n' = n ∨ ∃ y, ys = y :: ys' ∧ n' = n + y.2 ∧ bp + 16 * n = y.1
  ptr : h'.ptr = update h.ptr bp ((ys'.map fst).headD base)
  size : ∀ a, a ≠ bp → h'.size a = h.size a
  self : (h'.size bp).toNat = n'
  above : ∀ y ∈ ys', bp + 16 * n' < y.1
  kernel : h'.brk = h.brk ∧ h'.units = h.units

theorem Upper.sublist (hu : Upper base h h' ys ys' bp n n') : ys'.Sublist ys := by
  rcases hu.which with ⟨rfl, -⟩ | ⟨y, rfl, -⟩
  · exact List.Sublist.refl _
  · exact List.sublist_cons_self y ys'

theorem joinUpper_ok (hh : Holds base h.ptr h.size (xs ++ p :: ys)) (hbp : base < bp)
    (hn : (h.size bp).toNat = n) (hys : ∀ y ∈ ys, bp + 16 * n ≤ y.1)
    (hsum : total (xs ++ p :: ys) + n < 2 ^ 32) :
    ∃ ys' n', Upper base h (joinUpper h bp p.1) ys ys' bp n n' := by
  unfold joinUpper
  rcases hh.ptr_cases with ⟨y, t, rfl, hptr⟩ | ⟨rfl, hptr⟩
  · have hy := hys y mem_cons_self
    have hrest : ∀ z ∈ t, y.1 + 16 * y.2 < z.1 := by
      intro z hz
      have hpw := (List.pairwise_cons.mp (List.pairwise_append.mp hh.apart).2.1).2
      exact (List.pairwise_cons.mp hpw).1 z hz
    have hysize := hh.sizes y (by simp)
    have hyptr : h.ptr y.1 = (t.map fst).headD base := by
      rw [append_cons] at hh
      exact hh.ptr_eq
    simp only [total_append, total_cons] at hsum
    by_cases htouch : bp + 16 * n = y.1
    · refine ⟨t, n + y.2, ?_⟩
      rw [hptr, hn, if_pos htouch, hyptr]
      exact
        { which := .inr ⟨y, rfl, rfl, htouch⟩
          ptr := rfl
          size := fun a ha => update_of_ne ha _ _
          self := by
            dsimp only
            rw [update_self, UInt32.toNat_add, hn, hysize]
            omega
          above := fun z hz => by
            have := hrest z hz
            omega
          kernel := ⟨rfl, rfl⟩ }
    · refine ⟨y :: t, n, ?_⟩
      rw [hptr, hn, if_neg htouch]
      exact
        { which := .inl ⟨rfl, rfl⟩
          ptr := rfl
          size := fun _ _ => rfl
          self := hn
          above := fun z hz => by
            rcases List.mem_cons.mp hz with rfl | hz
            · omega
            · have := hrest z hz
              omega
          kernel := ⟨rfl, rfl⟩ }
  · refine ⟨[], n, ?_⟩
    rw [hptr, if_neg (by omega)]
    exact
      { which := .inl ⟨rfl, rfl⟩
        ptr := rfl
        size := fun _ _ => rfl
        self := hn
        above := fun _ hz => absurd hz not_mem_nil
        kernel := ⟨rfl, rfl⟩ }

theorem splice {ptr ptr' : Nat → Nat} {size size' : Nat → UInt32}
    (hh : Holds base ptr size (xs ++ p :: ys)) (mid : List (Nat × Nat)) (hsl : ys'.Sublist ys)
    (hfirst : ∀ z, (mid.map fst).headD z = p.1)
    (hsame : ∀ b ∈ xs ++ ys', ptr' b.1 = ptr b.1 ∧ size' b.1 = size b.1)
    (hhead : ∃ t, xs ++ (mid ++ ys') = (base, 0) :: t) (hright : Linked ptr (ys'.map fst) base)
    (hlinks : Linked ptr' (mid.map fst) ((ys'.map fst).headD base))
    (hmid : ∀ b ∈ mid, p.1 ≤ b.1 ∧ (size' b.1).toNat = b.2 ∧ (b.1 ≠ base → 0 < b.2))
    (hpw : (mid ++ ys').Pairwise fun x y => x.1 + 16 * x.2 < y.1) :
    Holds base ptr' size' (xs ++ (mid ++ ys')) := by
  have hleft := hh.links
  rw [map_append, Linked.append_iff, map_cons, headD_cons] at hleft
  obtain ⟨hpx, -, hcross⟩ := List.pairwise_append.mp hh.apart
  have hold : ∀ b ∈ xs ++ ys', b ∈ xs ++ p :: ys := fun b hb =>
    (List.append_sublist_append_left xs).mpr (hsl.cons p) |>.subset hb
  have hwhere : ∀ b ∈ xs ++ (mid ++ ys'), b ∈ mid ∨ b ∈ xs ++ ys' := fun b hb => by
    simp only [mem_append] at hb ⊢
    tauto
  refine ⟨hhead, ?_, fun b hb => ?_, List.pairwise_append.mpr ⟨hpx, hpw, fun x hx y hy => ?_⟩,
    fun b hb hne => ?_⟩
  · rw [map_append, map_append, Linked.append_iff, Linked.append_iff, Linked.headD_append, hfirst]
    refine ⟨hleft.1.congr fun a ha => ?_, hlinks, hright.congr fun a ha => ?_⟩
    · obtain ⟨b, hb, rfl⟩ := List.mem_map.mp ha
      exact (hsame b (mem_append_left _ hb)).1
    · obtain ⟨b, hb, rfl⟩ := List.mem_map.mp ha
      exact (hsame b (mem_append_right _ hb)).1
  · rcases hwhere b hb with hb | hb
    · exact (hmid b hb).2.1
    · rw [(hsame b hb).2]
      exact hh.sizes b (hold b hb)
  · grind [hsl.subset]
  · rcases hwhere b hb with hb | hb
    · exact (hmid b hb).2.2 hne
    · exact hh.pos b (hold b hb) hne

/-- The list with a block put in between `xs ++ [p]` and `ys`. -/
def insert (xs : List (Nat × Nat)) (p : Nat × Nat) (ys : List (Nat × Nat)) (bp n : Nat) :
    List (Nat × Nat) :=
  if p.1 + 16 * p.2 = bp then xs ++ (p.1, p.2 + n) :: ys else xs ++ p :: (bp, n) :: ys

theorem joinLower_ok (hh : Holds base h.ptr h.size (xs ++ p :: ys))
    (hu : Upper base h h' ys ys' bp n n') (hpos : 0 < n') (hp : p.1 + 16 * p.2 ≤ bp) (hnew : ∀ b ∈ xs ++ p :: ys, b.1 ≠ bp)
    (hsum : p.2 + n' < 2 ^ 32) :
    Holds base (joinLower h' bp p.1).ptr (joinLower h' bp p.1).size (insert xs p ys' bp n') := by
  have hsl := hu.sublist
  have hlinks := hh.links
  rw [map_append, map_cons, Linked.append_iff] at hlinks
  have hright : Linked h.ptr (ys'.map fst) base := by
    rcases hu.which with ⟨rfl, -⟩ | ⟨y, rfl, -⟩
    · exact hlinks.2.2
    · exact hlinks.2.2.2
  -- the headers on both sides are left alone
  have hne : ∀ b ∈ xs ++ ys', b.1 ≠ p.1 ∧ b.1 ≠ bp := by
    intro b hb
    rcases List.mem_append.mp hb with hb | hb
    · have := hh.below b hb
      exact ⟨by omega, hnew b (mem_append_left _ hb)⟩
    · have := hh.above b (hsl.subset hb)
      exact ⟨by omega, hnew b (mem_append_right _ (mem_cons_of_mem p (hsl.subset hb)))⟩
  have hpbp : p.1 ≠ bp := hnew p (by simp)
  have hpsize := hh.sizes p (by simp)
  have hpy : ys'.Pairwise fun x y => x.1 + 16 * x.2 < y.1 :=
    (List.pairwise_cons.mp (List.pairwise_append.mp hh.apart).2.1).2.sublist hsl
  have hptr : ∀ a, a ≠ bp → h'.ptr a = h.ptr a := by
    intro a ha
    rw [hu.ptr, update_of_ne ha]
  unfold joinLower insert
  rw [hu.size p.1 hpbp, hpsize]
  by_cases htouch : p.1 + 16 * p.2 = bp
  · rw [if_pos htouch, if_pos htouch]
    have hpbase : p.1 ≠ base := by grind [hh.head, hh.eq_of_fst, mem_cons_self]
    refine hh.splice [(p.1, p.2 + n')] hsl (fun _ => rfl) (fun b hb => ?_) ?_ hright ⟨?_, trivial⟩
      (fun b hb => ?_) (List.pairwise_cons.mpr ⟨fun y hy => ?_, hpy⟩)
    · grind [hu.size, Function.update_apply]
    · obtain ⟨t, ht⟩ := hh.head
      cases xs with
      | nil => cases ht; exact absurd rfl hpbase
      | cons b xs => cases ht; exact ⟨_, rfl⟩
    · dsimp only
      rw [update_self, hu.ptr, update_self]
      rfl
    · grind [hu.self, List.mem_singleton.mp, UInt32.toNat_add, Function.update_apply,
        Nat.mod_eq_of_lt]
    · have := hu.above y hy
      dsimp only
      omega
  · rw [if_neg htouch, if_neg htouch]
    refine hh.splice [p, (bp, n')] hsl (fun _ => rfl) (fun b hb => ?_) (head_append hh.head) hright
      ⟨?_, ?_, trivial⟩ (fun b hb => ?_) (List.pairwise_cons.mpr
        ⟨fun y hy => ?_, List.pairwise_cons.mpr ⟨hu.above, hpy⟩⟩)
    · dsimp only
      rw [update_of_ne (hne b hb).1, hptr b.1 (hne b hb).2]
      exact ⟨rfl, hu.size b.1 (hne b hb).2⟩
    · exact update_self ..
    · dsimp only
      rw [update_of_ne (Ne.symm hpbp), hu.ptr, update_self]
      rfl
    · grind [hu.size, hh.pos, hu.self]
    · rcases List.mem_cons.mp hy with rfl | hy
      · dsimp only
        omega
      · exact hh.above y (hsl.subset hy)

theorem total_insert (xs : List (Nat × Nat)) (p : Nat × Nat) (ys : List (Nat × Nat))
    (bp n : Nat) : total (insert xs p ys bp n) = total xs + p.2 + n + total ys := by
  unfold insert
  split_ifs <;> simp only [total_append, total_cons] <;> omega

end Holds

/-- A heap between two calls: the ring, with `freep` on it, in memory that was handed out above
    `base`. -/
structure Ready (base mem : Nat) (h : Heap) (bs : List (Nat × Nat)) : Prop where
  holds : Holds base h.ptr h.size bs
  freep : h.freep ∈ bs.map fst
  inside : ∀ b ∈ bs, ∀ a, In a b → base + 16 ≤ a ∧ a < h.brk
  start : base + 16 ≤ h.brk
  fits : total bs ≤ h.units
  room : h.units ≤ mem

variable {base mem : Nat} {h : Heap} {bs : List (Nat × Nat)}

theorem in_first {b : Nat × Nat} (hb : 0 < b.2) : In b.1 b := ⟨Nat.le_refl _, by omega⟩

/-- `free` puts the block on the ring. It changes no size but of free blocks, and the free bytes
    are those that were free and those of the block. -/
theorem free_ok (hr : Ready base mem h bs) (hmem : mem < 2 ^ 32) {bp n : Nat}
    (hbp : base + 16 ≤ bp) (hn : (h.size bp).toNat = n) (hpos : 0 < n)
    (hnew : ∀ b ∈ bs, Apart b (bp, n)) (hsum : total bs + n ≤ h.units) (hin : bp + 16 * n ≤ h.brk)
    (hfuel : mem + 2 ≤ fuel) : ∃ h' bs', free fuel h (bp + 16) = some h' ∧ Ready base mem h' bs' ∧
      (h'.brk = h.brk ∧ h'.units = h.units) ∧ total bs' = total bs + n ∧ (∃ b ∈ bs', n ≤ b.2) ∧
      (∀ b ∈ bs', ∀ a, In a b → (∃ c ∈ bs, In a c) ∨ In a (bp, n)) ∧
      ∀ a, a ≠ base → (∀ b ∈ bs, ¬ In a b) → ¬ In a (bp, n) → h'.size a = h.size a := by
  have hh := hr.holds
  have hroom := hr.room
  -- no free block begins or has a byte at bp
  have hsides : ∀ b ∈ bs, b.1 + 16 * b.2 ≤ bp ∨ bp < b.1 := by
    intro b hb
    by_contra hno
    exact hnew b hb bp ⟨by omega, by omega⟩ (in_first hpos)
  have hne : ∀ b ∈ bs, b.1 ≠ bp := by
    intro b hb he
    have hbpos := hh.pos b hb (by omega)
    rcases hsides b hb with h1 | h1 <;> omega
  obtain ⟨t, ht⟩ := hh.head
  obtain ⟨xs, p, ys, hsplit, hp, hys⟩ := Holds.split t (base, 0) (ht ▸ hh.apart)
    (by dsimp only; omega) (fun b hb => hsides b (by rw [ht]; exact mem_cons_of_mem _ hb))
  obtain rfl : bs = xs ++ p :: ys := ht.trans hsplit
  have hp' : p.1 < bp := Nat.lt_of_le_of_ne (by omega) (hne p (by simp))
  have hys' : ∀ y ∈ ys, bp + 16 * n ≤ y.1 := by
    intro y hy
    have hlow := hys y hy
    have hym : y ∈ xs ++ p :: ys := mem_append_right _ (mem_cons_of_mem p hy)
    have hypos := hh.pos y hym (by omega)
    by_contra hno
    exact hnew y hym y.1 (in_first hypos) ⟨by dsimp only; omega, by dsimp only; omega⟩
  have hlen := hh.length_le
  have hloop : freeLoop h bp fuel h.freep = some p.1 := hh.freeLoop_ok hp' hys hr.freep
    (by simp only [List.length_append, length_cons] at hlen; have := hr.fits; omega)
  obtain ⟨ys', n', hu⟩ := hh.joinUpper_ok (by omega) hn hys' (by omega)
  have hn' : n ≤ n' ∧ total ys' + n' = total ys + n := by
    rcases hu.which with ⟨rfl, rfl⟩ | ⟨y, rfl, rfl, -⟩
    · exact ⟨Nat.le_refl _, rfl⟩
    · rw [total_cons]
      omega
  have hjoined := hh.joinLower_ok hu (by omega) hp hne
    (by simp only [total_append, total_cons] at hsum; omega)
  have hsub : ys' ⊆ ys := hu.sublist.subset
  -- the bytes of the block that bp has become
  have hupper : ∀ a, In a (bp, n') → (∃ c ∈ xs ++ p :: ys, In a c) ∨ In a (bp, n) := by
    intro a ha
    rcases hu.which with ⟨rfl, rfl⟩ | ⟨y, rfl, rfl, htouch⟩
    · exact .inr ha
    · by_cases hlow : a < y.1
      · exact .inr ⟨ha.1, by dsimp only; omega⟩
      · refine .inl ⟨y, by simp, by omega, ?_⟩
        have := ha.2
        dsimp only at this
        omega
  have hcover : ∀ b ∈ Holds.insert xs p ys' bp n', ∀ a, In a b →
      (∃ c ∈ xs ++ p :: ys, In a c) ∨ In a (bp, n) := by
    intro b hb a ha
    unfold Holds.insert at hb
    split_ifs at hb with htouch
    · rcases List.mem_append.mp hb with hb | hb
      · exact .inl ⟨b, mem_append_left _ hb, ha⟩
      · rcases List.mem_cons.mp hb with rfl | hb
        · by_cases hlow : a < bp
          · exact .inl ⟨p, by simp, ha.1, by omega⟩
          · refine hupper a ⟨by dsimp only; omega, ?_⟩
            have := ha.2
            dsimp only at this ⊢
            omega
        · exact .inl ⟨b, mem_append_right _ (mem_cons_of_mem p (hsub hb)), ha⟩
    · grind
  have hkernel : (joinLower (joinUpper h bp p.1) bp p.1).brk = h.brk ∧
      (joinLower (joinUpper h bp p.1) bp p.1).units = h.units := by
    refine ⟨?_, ?_⟩ <;> unfold joinLower <;> split_ifs
    exacts [hu.kernel.1, hu.kernel.1, hu.kernel.2, hu.kernel.2]
  have htotal : total (Holds.insert xs p ys' bp n') = total (xs ++ p :: ys) + n := by
    rw [Holds.total_insert, total_append, total_cons]
    omega
  refine ⟨{ joinLower (joinUpper h bp p.1) bp p.1 with freep := p.1 },
    Holds.insert xs p ys' bp n', ?_, ?_, hkernel, htotal, ?_, hcover, ?_⟩
  · simp only [free, HSIZE, Nat.add_sub_cancel, hloop]
  · exact
      { holds := hjoined
        freep := by
          unfold Holds.insert
          split_ifs <;> simp
        inside := fun b hb a ha => by
          rw [hkernel.1]
          rcases hcover b hb a ha with ⟨c, hc, hac⟩ | hac
          · exact hr.inside c hc a hac
          · have h1 := hac.1
            have h2 := hac.2
            dsimp only at h1 h2
            omega
        start := by rw [hkernel.1]; exact hr.start
        fits := by rw [hkernel.2, htotal]; exact hsum
        room := by rw [hkernel.2]; exact hroom }
  · unfold Holds.insert
    split_ifs
    · exact ⟨(p.1, p.2 + n'), by simp, by dsimp only; omega⟩
    · exact ⟨(bp, n'), by simp, hn'.1⟩
  · intro a hbase hfree hown
    have habp : a ≠ bp := fun he => hown (he ▸ in_first hpos)
    have hupper' : (joinUpper h bp p.1).size a = h.size a := hu.size a habp
    change (joinLower (joinUpper h bp p.1) bp p.1).size a = h.size a
    unfold joinLower
    split_ifs
    · have hap : a ≠ p.1 := by
        rintro rfl
        exact hfree p (by simp) (in_first (hh.pos p (by simp) hbase))
      dsimp only
      rw [update_of_ne hap, hupper']
    · exact hupper'

/-! ### Taking a block -/

theorem Holds.pred (hh : Holds base h.ptr h.size bs) {x q : Nat} (hx : x ∈ bs.map fst)
    (hptr : h.ptr x = q) (hq : q ≠ base) :
    ∃ xs pb qb ys, bs = xs ++ pb :: qb :: ys ∧ pb.1 = x ∧ qb.1 = q := by
  obtain ⟨pb, hpb, rfl⟩ := List.mem_map.mp hx
  obtain ⟨xs, ys, rfl⟩ := append_of_mem hpb
  rcases hh.ptr_cases with ⟨y, t, rfl, hy⟩ | ⟨rfl, hy⟩
  · exact ⟨xs, pb, y, t, rfl, rfl, hy.symm.trans hptr⟩
  · exact absurd (hptr.symm.trans hy) hq

namespace Holds

variable {ptr : Nat → Nat} {size size' : Nat → UInt32} {xs ys : List (Nat × Nat)}
  {pb qb : Nat × Nat}

section

variable (hh : Holds base ptr size (xs ++ pb :: qb :: ys))

include hh

theorem far (b : Nat × Nat)
    (hb : b ∈ xs ++ pb :: ys) : b.1 + 16 * b.2 < qb.1 ∨ qb.1 + 16 * qb.2 < b.1 := by
  have hpw := hh.apart
  rw [append_cons] at hpw
  obtain ⟨-, hright, hcross⟩ := List.pairwise_append.mp hpw
  rw [append_cons, mem_append] at hb
  rcases hb with hb | hb
  · exact .inl (hcross b hb qb mem_cons_self)
  · exact .inr ((List.pairwise_cons.mp hright).1 b hb)

theorem unlink :
    Holds base (update ptr pb.1 (ptr qb.1)) size (xs ++ pb :: ys) := by
  have hlinks := hh.links
  rw [map_append, map_cons, map_cons, Linked.append_iff] at hlinks
  obtain ⟨-, -, hq, hright⟩ := hlinks
  obtain ⟨-, hpw, hcross⟩ := List.pairwise_append.mp hh.apart
  have hsl := List.sublist_cons_self qb ys
  refine hh.splice [pb] hsl (fun _ => rfl) (fun b hb => ⟨update_of_ne ?_ _ _, rfl⟩)
    (head_append hh.head) hright ⟨?_, trivial⟩ (fun b hb => ?_) (hpw.sublist (hsl.cons_cons pb))
  · grind [List.pairwise_cons.mp]
  · rw [update_self, hq]
    rfl
  · rw [List.mem_singleton.mp hb]
    exact ⟨Nat.le_refl _, hh.sizes pb (by simp), hh.pos pb (by simp)⟩

theorem shrink {m : Nat} (hpos : 0 < m)
    (hm : m ≤ qb.2) (hself : (size' qb.1).toNat = m)
    (hsize : ∀ b ∈ xs ++ pb :: ys, size' b.1 = size b.1) :
    Holds base ptr size' (xs ++ pb :: (qb.1, m) :: ys) := by
  have hlinks := hh.links
  rw [map_append, map_cons, map_cons, Linked.append_iff] at hlinks
  obtain ⟨-, hp, hq, hright⟩ := hlinks
  obtain ⟨hbelow, hpw⟩ := List.pairwise_cons.mp (List.pairwise_append.mp hh.apart).2.1
  obtain ⟨habove, hpw⟩ := List.pairwise_cons.mp hpw
  refine hh.splice [pb, (qb.1, m)] (List.sublist_cons_self qb ys) (fun _ => rfl)
    (fun b hb => ⟨rfl, hsize b ?_⟩) (head_append hh.head) hright ⟨hp, hq, trivial⟩ (fun b hb => ?_)
    (List.pairwise_cons.mpr ⟨fun y hy => ?_, List.pairwise_cons.mpr ⟨fun y hy => ?_, hpw⟩⟩)
  · exact ((List.append_sublist_append_left xs).mpr (List.sublist_cons_self pb ys)).subset hb
  · grind [hh.sizes, hh.pos]
  · rcases List.mem_cons.mp hy with rfl | hy
    · exact hbelow qb mem_cons_self
    · exact hbelow y (mem_cons_of_mem qb hy)
  · have := habove y hy
    dsimp only
    omega

end

end Holds

/-- What `carve` has done: the new block is of bytes that were free, and they are not free any
    more. -/
structure Carved (base mem : Nat) (h : Heap) (bs : List (Nat × Nat)) (n new : Nat) (h' : Heap)
    (bs' : List (Nat × Nat)) : Prop where
  holds : Holds base h'.ptr h'.size bs'
  freep : h'.freep ∈ bs'.map fst
  kernel : h'.brk = h.brk ∧ h'.units = h.units
  total : total bs' + n = total bs
  size : (h'.size new).toNat = n
  cover : ∀ b ∈ (new, n) :: bs', ∀ a, In a b → ∃ c ∈ bs, In a c
  apart : ∀ b ∈ bs', Apart (new, n) b
  frame : ∀ a, (∀ b ∈ bs, ¬ In a b) → h'.size a = h.size a

theorem carve_whole
    (hr : Ready base mem h (xs ++ pb :: qb :: ys)) (hexact : h.size qb.1 = n) :
    ∃ h', carve h n pb.1 qb.1 = (qb.1 + 16, h') ∧
      Carved base mem h (xs ++ pb :: qb :: ys) n.toNat qb.1 h' (xs ++ pb :: ys) := by
  have hh := hr.holds
  have hqn : qb.2 = n.toNat := by rw [← hh.sizes qb (by simp), hexact]
  refine ⟨_, by rw [carve, if_pos hexact], ?_⟩
  exact
    { holds := hh.unlink
      freep := by simp
      kernel := ⟨rfl, rfl⟩
      total := by
        simp only [total_append, total_cons]
        omega
      size := by rw [hexact]
      cover := by
        intro b hb a ha
        rcases List.mem_cons.mp hb with rfl | hb
        · exact ⟨qb, by simp, by rw [In, hqn]; exact ha⟩
        · exact ⟨b, mem_middle.mpr (.inr hb), ha⟩
      apart := by
        rintro b hb a ⟨h1, h2⟩ ⟨h3, h4⟩
        dsimp only at h1 h2
        rw [← hqn] at h2
        rcases hh.far b hb with hlow | hhigh <;> omega
      frame := fun _ _ => rfl }

theorem carve_end
    (hr : Ready base mem h (xs ++ pb :: qb :: ys)) (hpos : 0 < n.toNat)
    (hfit : n ≤ h.size qb.1) (hexact : h.size qb.1 ≠ n) :
    ∃ new h', carve h n pb.1 qb.1 = (new + 16, h') ∧
      Carved base mem h (xs ++ pb :: qb :: ys) n.toNat new h'
        (xs ++ pb :: (qb.1, qb.2 - n.toNat) :: ys) := by
  have hh := hr.holds
  have hqsize := hh.sizes qb (by simp)
  have hlt : n.toNat < qb.2 := by
    refine Nat.lt_of_le_of_ne (hqsize ▸ UInt32.le_iff_toNat_le.mp hfit) fun he => hexact ?_
    exact UInt32.toNat_inj.mp (by rw [hqsize, he])
  have hcut : (h.size qb.1 - n).toNat = qb.2 - n.toNat := by
    rw [UInt32.toNat_sub_of_le _ _ hfit, hqsize]
  obtain ⟨new, hnew⟩ : ∃ new, new = qb.1 + 16 * (qb.2 - n.toNat) := ⟨_, rfl⟩
  have hnewq : new ≠ qb.1 := by omega
  refine ⟨new,
    { h with
      size := update (update h.size qb.1 (h.size qb.1 - n)) new n
      freep := pb.1 },
    by simp only [carve, if_neg hexact, update_self, hcut, HSIZE, ← hnew], ?_⟩
  exact
    { holds := by
        refine hh.shrink (by omega) (by omega) ?_ fun b hb => ?_
        · dsimp only
          rw [update_of_ne (Ne.symm hnewq), update_self, hcut]
        · -- the new header is inside the old block
          have hfar := hh.far b hb
          dsimp only
          rw [update_of_ne (by omega), update_of_ne (by omega)]
      freep := by simp
      kernel := ⟨rfl, rfl⟩
      total := by
        simp only [total_append, total_cons]
        omega
      size := by
        dsimp only
        rw [update_self]
      cover := by
        rintro b hb a ⟨h1, h2⟩
        rcases List.mem_cons.mp hb with rfl | hb
        · exact ⟨qb, by simp, by omega, by omega⟩
        · rcases mem_middle.mp hb with rfl | hb
          · exact ⟨qb, by simp, h1, by omega⟩
          · exact ⟨b, mem_middle.mpr (.inr hb), h1, h2⟩
      apart := by
        rintro b hb a ⟨h1, h2⟩ ⟨h3, h4⟩
        dsimp only at h1 h2
        rcases mem_middle.mp hb with rfl | hb
        · dsimp only at h3 h4
          omega
        · rcases hh.far b hb with hlow | hhigh <;> omega
      frame := by
        intro a ha
        have hin : ∀ x, qb.1 ≤ x → x < qb.1 + 16 * qb.2 → a ≠ x := by
          rintro x h1 h2 rfl
          exact ha qb (by simp) ⟨h1, h2⟩
        dsimp only
        rw [update_of_ne (hin new (by omega) (by omega)),
          update_of_ne (hin qb.1 (by omega) (by omega))] }

theorem carve_ok (hr : Ready base mem h bs) (hpos : 0 < n.toNat)
    (hprev : prevp ∈ bs.map fst) (hptr : h.ptr prevp = p) (hfit : n ≤ h.size p) :
    ∃ new h' bs', carve h n prevp p = (new + 16, h') ∧ Carved base mem h bs n.toNat new h' bs' := by
  have hh := hr.holds
  have hpbase : p ≠ base := by
    rintro rfl
    obtain ⟨t, ht⟩ := hh.head
    have hzero := hh.sizes (p, 0) (by rw [ht]; exact mem_cons_self)
    have := UInt32.le_iff_toNat_le.mp hfit
    dsimp only at hzero
    omega
  obtain ⟨xs, pb, qb, ys, rfl, rfl, rfl⟩ := hh.pred hprev hptr hpbase
  by_cases hexact : h.size qb.1 = n
  · obtain ⟨h', hrun, hcarved⟩ := carve_whole hr hexact
    exact ⟨_, h', _, hrun, hcarved⟩
  · obtain ⟨new, h', hrun, hcarved⟩ := carve_end hr hpos hfit hexact
    exact ⟨new, h', _, hrun, hcarved⟩

/-! ### Looking for a block -/

theorem mallocLoop_skip {gaps : List (Option Nat)} :
    ∀ (l : List Nat) (prevp z fuel : Nat), Linked h.ptr l z →
      (∀ a ∈ l, ¬ n ≤ h.size a ∧ a ≠ h.freep) →
      mallocLoop mem n (l.length + fuel) gaps h prevp (l.headD z) =
        mallocLoop mem n fuel gaps h (l.getLastD prevp) z := by
  intro l
  induction l with
  | nil =>
    intro prevp z fuel _ _
    rw [List.length_nil, Nat.zero_add]
    rfl
  | cons a l ih =>
    intro prevp z fuel hl hall
    obtain ⟨hsmall, hfreep⟩ := hall a mem_cons_self
    rw [length_cons, Nat.succ_add, headD_cons, mallocLoop, if_neg hsmall,
      if_neg hfreep, hl.1, List.getLastD_cons]
    exact ih a z fuel hl.2 fun b hb => hall b (mem_cons_of_mem a hb)

/-- What `malloc` has done when it returns the block `new`: its bytes, like those of the free
    blocks, were free before or are new memory. -/
structure Taken (base mem : Nat) (h : Heap) (bs : List (Nat × Nat)) (n new : Nat) (h' : Heap)
    (bs' : List (Nat × Nat)) : Prop where
  ready : Ready base mem h' bs'
  brk : h.brk ≤ h'.brk
  total : total bs' + n + h.units = total bs + h'.units
  size : (h'.size new).toNat = n
  inside : ∀ a, In a (new, n) → base + 16 ≤ a ∧ a < h'.brk
  cover : ∀ b ∈ (new, n) :: bs', ∀ a, In a b → (∃ c ∈ bs, In a c) ∨ h.brk ≤ a
  apart : ∀ b ∈ bs', Apart (new, n) b
  frame : ∀ a, a ≠ base → a < h.brk → (∀ b ∈ bs, ¬ In a b) → h'.size a = h.size a

section

variable (hr : Ready base mem h bs)

include hr

theorem Ready.taken (hpos : 0 < n.toNat)
    (hprev : prevp ∈ bs.map fst) (hptr : h.ptr prevp = p) (hfit : n ≤ h.size p) :
    ∃ new h' bs', carve h n prevp p = (new + 16, h') ∧ Taken base mem h bs n.toNat new h' bs' := by
  obtain ⟨new, h', bs', hrun, hc⟩ := carve_ok hr hpos hprev hptr hfit
  have hinside : ∀ b ∈ (new, n.toNat) :: bs', ∀ a, In a b → base + 16 ≤ a ∧ a < h'.brk := by
    intro b hb a ha
    obtain ⟨c, hc', hac⟩ := hc.cover b hb a ha
    rw [hc.kernel.1]
    exact hr.inside c hc' a hac
  have htotal := hc.total
  have hfits := hr.fits
  refine ⟨new, h', bs', hrun, ?_⟩
  exact
    { ready :=
        { holds := hc.holds
          freep := hc.freep
          inside := fun b hb => hinside b (mem_cons_of_mem _ hb)
          start := by rw [hc.kernel.1]; exact hr.start
          fits := by rw [hc.kernel.2]; omega
          room := by rw [hc.kernel.2]; exact hr.room }
      brk := Nat.le_of_eq hc.kernel.1.symm
      total := by rw [hc.kernel.2, htotal]
      size := hc.size
      inside := hinside _ mem_cons_self
      cover := fun b hb a ha => .inl (hc.cover b hb a ha)
      apart := hc.apart
      frame := fun a _ _ ha => hc.frame a ha }

theorem tour_ok (hpos : 0 < n.toNat)
    (gaps : List (Option Nat)) :
    (∃ new h' bs', (∀ k, mallocLoop mem n (bs.length + k) gaps h h.freep (h.ptr h.freep) =
        some (new + 16, h')) ∧ Taken base mem h bs n.toNat new h' bs') ∨
    (∀ a ∈ bs.map fst, ¬ n ≤ h.size a) ∧
      ∀ k, mallocLoop mem n (bs.length + k) gaps h h.freep (h.ptr h.freep) =
        match morecore k mem h n (gaps.headD none) with
        | none => none
        | some none => some (0, h)
        | some (some (p', h')) => mallocLoop mem n k gaps.tail h' p' (h'.ptr p') := by
  have hh := hr.holds
  obtain ⟨l1, l2, hring⟩ := append_of_mem hr.freep
  have hlinks := hh.links
  rw [hring] at hlinks
  have hhead : l1.headD h.freep = base := by
    obtain ⟨t, rfl⟩ := hh.head
    cases l1 with
    | nil => exact (List.cons.inj hring).1.symm
    | cons a l => exact (List.cons.inj hring).1.symm
  obtain ⟨htour, hfirst⟩ := hlinks.tour hhead
  rw [← hfirst]
  have hlen : bs.length = (l2 ++ l1).length + 1 := by
    have := congrArg List.length hring
    simp only [List.length_map, List.length_append, length_cons] at this ⊢
    omega
  have hmem : ∀ a, a ∈ bs.map fst ↔ a ∈ l2 ++ l1 ∨ a = h.freep := by
    intro a
    rw [hring, mem_append, mem_append, List.mem_cons, or_left_comm, or_comm (a := a = _),
      or_comm (a := a ∈ l2)]
  -- freep is on the ring once
  have hother : ∀ a ∈ l2 ++ l1, a ≠ h.freep := by
    have hnodup : (bs.map fst).Nodup := by
      rw [List.Nodup, List.pairwise_map]
      refine hh.apart.imp ?_
      intro x y hxy
      omega
    rw [hring] at hnodup
    obtain ⟨-, hright, hcross⟩ := List.nodup_append.mp hnodup
    intro a ha he
    rcases List.mem_append.mp ha with ha | ha
    · exact (List.nodup_cons.mp hright).1 (he ▸ ha)
    · exact hcross a ha h.freep mem_cons_self he
  -- what is at q, after small blocks m
  have hstop : ∀ m q, Linked h.ptr m q → m.headD q = h.ptr h.freep →
      (∀ a ∈ m, a ∈ l2 ++ l1) → n ≤ h.size q →
      ∃ new h' bs', carve h n (m.getLastD h.freep) q = (new + 16, h') ∧
        Taken base mem h bs n.toNat new h' bs' := by
    intro m q hm hmq hsub hfit
    refine hr.taken hpos ?_ (Linked.last ⟨hmq.symm, hm⟩) hfit
    rw [hmem]
    rcases List.eq_nil_or_concat' m with rfl | ⟨m', x, rfl⟩
    · exact .inr rfl
    · left
      rw [List.getLastD_concat]
      exact hsub x (by simp)
  cases hfind : (l2 ++ l1).find? (fun a => decide (n ≤ h.size a)) with
  | some q =>
    -- the first block that is large enough comes before the end of the tour
    left
    obtain ⟨hfit, m, r, hsplit, hsmall⟩ := List.find?_eq_some_iff_append.mp hfind
    have hmq := (Linked.append_iff.mp (hsplit ▸ htour)).1
    rw [headD_cons] at hmq
    have hstart : m.headD q = (l2 ++ l1).headD h.freep := by
      rw [hsplit, Linked.headD_append, headD_cons]
    obtain ⟨new, h', bs', hcarve, htaken⟩ := hstop m q hmq (hstart.trans hfirst)
      (fun a ha => by rw [hsplit]; exact mem_append_left _ ha) (by simpa using hfit)
    refine ⟨new, h', bs', fun k => ?_, htaken⟩
    have hfuel : bs.length + k = m.length + ((r.length + 1 + k) + 1) := by
      rw [hlen, hsplit, List.length_append, length_cons]
      omega
    rw [hfuel, ← hstart, mallocLoop_skip m h.freep q _ hmq ?_, mallocLoop,
      if_pos (by simpa using hfit), hcarve]
    intro a ha
    refine ⟨by simpa using hsmall a ha, hother a ?_⟩
    rw [hsplit]
    exact mem_append_left _ ha
  | none =>
    have hsmall : ∀ a ∈ l2 ++ l1, ¬ n ≤ h.size a := by
      intro a ha
      simpa using List.find?_eq_none.mp hfind a ha
    have hskip : ∀ k, mallocLoop mem n (bs.length + k) gaps h h.freep
        ((l2 ++ l1).headD h.freep) =
        mallocLoop mem n (k + 1) gaps h ((l2 ++ l1).getLastD h.freep) h.freep := by
      intro k
      rw [hlen, Nat.add_assoc, Nat.add_comm 1 k]
      exact mallocLoop_skip _ _ _ _ htour fun a ha => ⟨hsmall a ha, hother a ha⟩
    by_cases hlast : n ≤ h.size h.freep
    · left
      obtain ⟨new, h', bs', hcarve, htaken⟩ := hstop (l2 ++ l1) h.freep htour hfirst
        (fun a ha => ha) hlast
      refine ⟨new, h', bs', fun k => ?_, htaken⟩
      rw [hskip, mallocLoop, if_pos hlast, hcarve]
    · right
      refine ⟨fun a ha => ?_, fun k => ?_⟩
      · rcases (hmem a).mp ha with ha | rfl
        · exact hsmall a ha
        · exact hlast
      · rewrite [hskip, mallocLoop, if_neg hlast, if_pos rfl]
        rcases morecore k mem h n (gaps.headD none) with _ | _ | ⟨p', h'⟩ <;> rfl

theorem morecore_ok (hmem : mem < 2 ^ 32) (n : UInt32)
    (gap : Option Nat) (hfuel : mem + 2 ≤ fuel) :
    morecore fuel mem h n gap = some none ∨
    ∃ h' bs', morecore fuel mem h n gap = some (some (h'.freep, h')) ∧ Ready base mem h' bs' ∧
      h.brk ≤ h'.brk ∧ total bs' + h.units = total bs + h'.units ∧ (∃ b ∈ bs', n.toNat ≤ b.2) ∧
      (∀ b ∈ bs', ∀ a, In a b → (∃ c ∈ bs, In a c) ∨ h.brk ≤ a) ∧
      ∀ a, a ≠ base → a < h.brk → (∀ b ∈ bs, ¬ In a b) → h'.size a = h.size a := by
  have hh := hr.holds
  have hstart := hr.start
  unfold morecore
  obtain ⟨nu, hnu⟩ : ∃ nu, nu = (if n < 4096 then 4096 else n) := ⟨_, rfl⟩
  have hlarge : n.toNat ≤ nu.toNat ∧ 0 < nu.toNat := by
    split_ifs at hnu with hlt
    · subst hnu
      have := UInt32.lt_iff_toNat_lt.mp hlt
      exact ⟨Nat.le_of_lt this, by decide⟩
    · subst hnu
      have := UInt32.le_iff_toNat_le.mp (UInt32.not_lt.mp hlt)
      have h4096 : (4096 : UInt32).toNat = 4096 := rfl
      omega
  simp only [← hnu]
  cases gap with
  | none => exact .inl rfl
  | some g =>
    unfold sbrk
    dsimp only
    split_ifs with hroom
    · right
      -- the new header is above all blocks of the ring
      have hfar : ∀ b ∈ bs, b.1 < h.brk := by
        intro b hb
        by_cases hbase : b.1 = base
        · omega
        · exact (hr.inside b hb b.1 (in_first (hh.pos b hb hbase))).2
      have hready : Ready base mem
          { h with
            brk := h.brk + g + HSIZE * nu.toNat
            units := h.units + nu.toNat
            size := update h.size (h.brk + g) nu } bs :=
        { holds :=
            { head := hh.head
              links := hh.links
              sizes := fun b hb => by
                have := hfar b hb
                dsimp only
                rw [update_of_ne (by omega)]
                exact hh.sizes b hb
              apart := hh.apart
              pos := hh.pos }
          freep := hr.freep
          inside := fun b hb a ha => by
            have := hr.inside b hb a ha
            dsimp only [HSIZE]
            omega
          start := by dsimp only [HSIZE]; omega
          fits := by have := hr.fits; dsimp only; omega
          room := hroom }
      obtain ⟨h', bs', hfree, hready', ⟨hbrk, hunits⟩, htotal, ⟨b, hb, hbn⟩, hcover, hframe⟩ :=
        free_ok hready hmem (by omega)
          (by dsimp only; rw [update_self]) hlarge.2
          (fun b hb a ha hnew => by
            have := (hr.inside b hb a ha).2
            have := hnew.1
            dsimp only at this
            omega)
          (by have := hr.fits; dsimp only; omega) (Nat.le_refl _) hfuel
      dsimp only at hbrk hunits hframe
      refine ⟨h', bs', by simp only [HSIZE] at hfree ⊢; rw [hfree], hready', ?_, ?_,
        ⟨b, hb, by omega⟩, ?_, ?_⟩
      · rw [hbrk]
        omega
      · rw [hunits, htotal]
        omega
      · intro b hb a ha
        rcases hcover b hb a ha with hold | hnew
        · exact .inl hold
        · have := hnew.1
          dsimp only at this
          exact .inr (by omega)
      · intro a hbase hlow hfree'
        rw [hframe a hbase hfree' fun hnew => by
          have := hnew.1
          dsimp only at this
          omega]
        exact update_of_ne (by omega) _ _
    · exact .inl rfl

theorem malloc_ok (hmem : mem < 2 ^ 32)
    (hpos : 0 < n.toNat) (gaps : List (Option Nat)) :
    mallocLoop mem n (rounds mem) gaps h h.freep (h.ptr h.freep) = some (0, h) ∨
    ∃ new h' bs', mallocLoop mem n (rounds mem) gaps h h.freep (h.ptr h.freep) =
        some (new + 16, h') ∧ Taken base mem h bs n.toNat new h' bs' := by
  have hlen : ∀ {h : Heap} {bs}, Ready base mem h bs → bs.length ≤ mem + 1 := by
    intro h bs hr
    have h1 := hr.holds.length_le
    have h2 := hr.fits
    have h3 := hr.room
    omega
  obtain ⟨k, hk⟩ : ∃ k, rounds mem = bs.length + k ∧ mem + 2 ≤ k := by
    have := hlen hr
    refine ⟨rounds mem - bs.length, ?_, ?_⟩ <;> unfold rounds <;> omega
  rw [hk.1]
  rcases tour_ok hr hpos gaps with ⟨new, h', bs', hloop, htaken⟩ | ⟨-, hloop⟩
  · exact .inr ⟨new, h', bs', hloop k, htaken⟩
  · rw [hloop]
    rcases morecore_ok hr hmem n (gaps.headD none) hk.2 with
      hmore | ⟨h₁, bs1, hmore, hready, hbrk, htotal, ⟨b, hb, hbn⟩, hcover, hframe⟩
    · rw [hmore]
      exact .inl rfl
    · -- the second tour finds the block
      rw [hmore]
      dsimp only
      have hlen1 := hlen hready
      obtain ⟨k', rfl⟩ : ∃ k', k = bs1.length + k' := ⟨k - bs1.length, by omega⟩
      rcases tour_ok hready hpos gaps.tail with ⟨new, h', bs', hloop', ht⟩ | ⟨hsmall, -⟩
      · refine .inr ⟨new, h', bs', hloop' k', ht.ready, Nat.le_trans hbrk ht.brk, ?_, ht.size,
          ht.inside, ?_, ht.apart, ?_⟩
        · have := ht.total
          omega
        · intro c hc a ha
          rcases ht.cover c hc a ha with ⟨d, hd, had⟩ | hhigh
          · exact hcover d hd a had
          · exact .inr (Nat.le_trans hbrk hhigh)
        · intro a hbase hlow hfree
          rw [ht.frame a hbase (Nat.lt_of_lt_of_le hlow hbrk) ?_, hframe a hbase hlow hfree]
          intro c hc hac
          rcases hcover c hc a hac with ⟨d, hd, had⟩ | hhigh
          · exact hfree d hd had
          · omega
      · refine absurd ?_ (hsmall b.1 (List.mem_map_of_mem hb))
        rw [UInt32.le_iff_toNat_le, hready.holds.sizes b hb]
        exact hbn

end

/-! ### Whole runs -/

/-- A live block as a piece of memory. -/
def Live.block (x : Live) : Nat × Nat := (x.addr, x.units)

/-- The free blocks, the live ones, and that there is nothing else. -/
structure Inv (base mem : Nat) (h : Heap) (live : List Live) (bs : List (Nat × Nat)) : Prop where
  ready : Ready base mem h bs
  sizes : ∀ x ∈ live, (h.size x.addr).toNat = x.units
  holds : ∀ x ∈ live, 0 < x.units ∧ x.nbytes.toNat ≤ 16 * (x.units - 1)
  inside : ∀ x ∈ live, ∀ a, In a x.block → base + 16 ≤ a ∧ a < h.brk
  free : ∀ x ∈ live, ∀ b ∈ bs, Apart b x.block
  apart : live.Pairwise fun x y => Apart x.block y.block
  sum : total bs + (live.map Live.units).sum = h.units

theorem Apart.symm {x y : Nat × Nat} (hxy : Apart x y) : Apart y x := fun a hy hx => hxy a hx hy

theorem Inv.size_eq (hi : Inv base mem h live bs)
    (hframe : ∀ a, a ≠ base → a < h.brk → (∀ b ∈ bs, ¬ In a b) → h'.size a = h.size a)
    (hx : x ∈ live) : h'.size x.addr = h.size x.addr := by
  have hfirst : In x.addr x.block := in_first (b := x.block) (hi.holds x hx).1
  have hin := hi.inside x hx _ hfirst
  exact hframe x.addr (by omega) hin.2 fun b hb hab => hi.free x hx b hb _ hab hfirst

theorem Inv.malloc {bs' : List (Nat × Nat)} {n new : Nat} (hi : Inv base mem h live bs)
    (ht : Taken base mem h bs n new h' bs')
    (hn : 0 < n) (hbytes : nbytes.toNat ≤ 16 * (n - 1)) :
    Inv base mem h' (⟨new, n, nbytes⟩ :: live) bs' := by
  -- a live block is apart from what was free and from new memory
  have hold : ∀ x ∈ live, ∀ b ∈ (new, n) :: bs', Apart b x.block := by
    intro x hx b hb a hab hax
    rcases ht.cover b hb a hab with ⟨c, hc, hac⟩ | hhigh
    · exact hi.free x hx c hc a hac hax
    · have := (hi.inside x hx a hax).2
      omega
  refine ⟨ht.ready, ?_, ?_, ?_, ?_, ?_, ?_⟩
  · intro x hx
    rcases List.mem_cons.mp hx with rfl | hx
    · exact ht.size
    · rw [hi.size_eq ht.frame hx]
      exact hi.sizes x hx
  · intro x hx
    rcases List.mem_cons.mp hx with rfl | hx
    · exact ⟨hn, hbytes⟩
    · exact hi.holds x hx
  · intro x hx a ha
    rcases List.mem_cons.mp hx with rfl | hx
    · exact ht.inside a ha
    · have := hi.inside x hx a ha
      have := ht.brk
      omega
  · intro x hx b hb
    rcases List.mem_cons.mp hx with rfl | hx
    · exact (ht.apart b hb).symm
    · exact hold x hx b (mem_cons_of_mem _ hb)
  · exact List.pairwise_cons.mpr ⟨fun x hx => hold x hx _ mem_cons_self, hi.apart⟩
  · have h1 := hi.sum
    have h2 := ht.total
    rw [map_cons, List.sum_cons]
    dsimp only
    omega

theorem Inv.free_live (hi : Inv base mem h live bs)
    (hmem : mem < 2 ^ 32) (hx : x ∈ live) :
    ∃ h' bs', Umalloc.free (rounds mem) h (x.addr + 16) = some h' ∧
      Inv base mem h' (live.erase x) bs' ∧ (h'.brk = h.brk ∧ h'.units = h.units) ∧
      ∀ b ∈ bs', ∀ a, In a b → (∃ c ∈ bs, In a c) ∨ In a x.block := by
  obtain ⟨hpos, -⟩ := hi.holds x hx
  have hperm := List.perm_cons_erase hx
  have hsum : (live.map Live.units).sum = x.units + ((live.erase x).map Live.units).sum := by
    rw [(hperm.map Live.units).sum_eq, map_cons, List.sum_cons]
  have htotal := hi.sum
  have hfirst := hi.inside x hx x.addr (in_first (b := x.block) hpos)
  have hlast := hi.inside x hx (x.addr + 16 * x.units - 1)
    ⟨by dsimp only [Live.block]; omega, by dsimp only [Live.block]; omega⟩
  obtain ⟨h', bs', hfree, hready, ⟨hbrk, hunits⟩, htotal', -, hcover, hframe⟩ :=
    free_ok hi.ready hmem hfirst.1 (hi.sizes x hx) hpos (hi.free x hx) (by omega) (by omega)
      (show mem + 2 ≤ rounds mem by unfold rounds; omega)
  -- the other live blocks are apart from this one
  have hothers : ∀ y ∈ live.erase x, Apart x.block y.block := by
    have hpw := (hperm.pairwise_iff fun {a b} hab => Apart.symm hab).mp hi.apart
    exact (List.pairwise_cons.mp hpw).1
  have hsub : ∀ y ∈ live.erase x, y ∈ live := fun y hy => List.mem_of_mem_erase hy
  refine ⟨h', bs', hfree, ⟨hready, ?_, fun y hy => hi.holds y (hsub y hy), ?_, ?_, ?_, ?_⟩,
    ⟨hbrk, hunits⟩, hcover⟩
  · intro y hy
    have hyfirst : In y.addr y.block := in_first (b := y.block) (hi.holds y (hsub y hy)).1
    have hin := hi.inside y (hsub y hy) _ hyfirst
    rw [hframe y.addr (by omega)
      (fun b hb hab => hi.free y (hsub y hy) b hb _ hab hyfirst)
      (fun hax => hothers y hy _ hax hyfirst)]
    exact hi.sizes y (hsub y hy)
  · rw [hbrk]
    exact fun y hy => hi.inside y (hsub y hy)
  · intro y hy b hb a hab hay
    rcases hcover b hb a hab with ⟨c, hc, hac⟩ | hax
    · exact hi.free y (hsub y hy) c hc a hac hay
    · exact hothers y hy a hax hay
  · exact hi.apart.sublist List.erase_sublist
  · rw [htotal', hunits]
    omega

theorem Ready.setUp_eq (hr : Ready base mem h bs) (hbase : 0 < base) : setUp base h = h := by
  refine if_neg ?_
  obtain ⟨b, hb, hfreep⟩ := List.mem_map.mp hr.freep
  have := hr.holds.base_le b hb
  omega

theorem inv_init {brk : Nat} (hbrk : base + 16 ≤ brk) :
    Inv base mem (setUp base (Sys.init brk).heap) [] [(base, 0)] := by
  have hempty : ∀ b ∈ [(base, 0)], b = (base, 0) := fun b hb => List.mem_singleton.mp hb
  refine ⟨⟨⟨⟨[], rfl⟩, ⟨?_, trivial⟩, ?_, List.pairwise_singleton _ _, ?_⟩, ?_, ?_, hbrk,
    Nat.zero_le _, Nat.zero_le _⟩, ?_, ?_, ?_, ?_, List.Pairwise.nil, rfl⟩
  · exact update_self ..
  · intro b hb
    rw [hempty b hb]
    simp [setUp, Sys.init]
  · intro b hb hne
    exact absurd (congrArg fst (hempty b hb)) hne
  · exact List.mem_singleton.mpr rfl
  · intro b hb a ha
    rw [hempty b hb] at ha
    have h1 := ha.1
    have h2 := ha.2
    dsimp only at h1 h2
    omega
  all_goals exact fun x hx => absurd hx not_mem_nil

/-- What a call sees: the heap with its ring, or no call was made yet. -/
structure Good (base mem : Nat) (s : Sys) (bs : List (Nat × Nat)) : Prop where
  pos : 0 < base
  inv : Inv base mem (setUp base s.heap) s.live bs
  unset : s.heap.freep = 0 → s.live = [] ∧ total bs = 0

theorem nunits_toNat (h : nunits nbytes * HSIZE < 2 ^ 31) :
    (nunits nbytes).toUInt32.toNat = nunits nbytes := by
  refine UInt32.toNat_ofNat_of_lt' ?_
  simp only [HSIZE] at h
  change nunits nbytes < 2 ^ 32
  omega

/-- The ring is there for good once it is set up. -/
theorem Good.of_ready (hbase : 0 < base) (hi : Inv base mem h live bs) :
    Good base mem ⟨h, live⟩ bs := by
  have heq := hi.ready.setUp_eq hbase
  refine ⟨hbase, by dsimp only; rw [heq]; exact hi, fun hzero => ?_⟩
  have := congrArg Heap.freep heq
  rw [setUp, if_pos hzero] at this
  dsimp only at this hzero
  omega

/-- `malloc` returns `0` and has done nothing, or it returns a block. -/
theorem Good.malloc (hg : Good base mem s bs) (hmem : mem < 2 ^ 32)
    (hsmall : nunits nbytes * HSIZE < 2 ^ 31) (gaps : List (Option Nat)) :
    (Umalloc.malloc base mem (rounds mem) s.heap nbytes gaps = some (0, setUp base s.heap) ∧
      Good base mem { s with heap := setUp base s.heap } bs) ∨
    ∃ new h' bs', Umalloc.malloc base mem (rounds mem) s.heap nbytes gaps = some (new + 16, h') ∧
      Taken base mem (setUp base s.heap) bs (nunits nbytes) new h' bs' ∧
      Good base mem ⟨h', ⟨new, nunits nbytes, nbytes⟩ :: s.live⟩ bs' := by
  have hi := hg.inv
  have hn := nunits_toNat hsmall
  have hpos : 0 < nunits nbytes := Nat.succ_pos _
  rcases malloc_ok hi.ready hmem (hn ▸ hpos) gaps with hloop | ⟨new, h', bs', hloop, ht⟩
  · exact .inl ⟨hloop, .of_ready hg.pos hi⟩
  · rw [hn] at ht
    refine .inr ⟨new, h', bs', hloop, ht, .of_ready hg.pos (hi.malloc ht hpos ?_)⟩
    rw [nunits, Nat.add_sub_cancel]
    simp only [HSIZE]
    omega

/-- `free` puts a block back. -/
theorem Good.free (hg : Good base mem s bs) (hmem : mem < 2 ^ 32) (hx : x ∈ s.live) :
    ∃ h' bs', Umalloc.free (rounds mem) s.heap (x.addr + 16) = some h' ∧
      Good base mem ⟨h', s.live.erase x⟩ bs' ∧
      (h'.brk = s.heap.brk ∧ h'.units = s.heap.units) ∧
      ∀ b ∈ bs', ∀ a, In a b → (∃ c ∈ bs, In a c) ∨ In a x.block := by
  -- a block is live, so the ring is there
  have hset : s.heap.freep ≠ 0 := fun hzero => by
    rw [(hg.unset hzero).1] at hx
    exact absurd hx not_mem_nil
  have hi := hg.inv
  rw [setUp, if_neg hset] at hi
  obtain ⟨h', bs', hfree, hinv, hkernel, hcover⟩ := hi.free_live hmem hx
  exact ⟨h', bs', hfree, .of_ready hg.pos hinv, hkernel, hcover⟩

/-- The three things a call can do: `malloc` returns `0`, `malloc` returns a block, and `free`
    puts one back. Each of them returns. -/
theorem Good.step (hg : Good base mem s bs) (hmem : mem < 2 ^ 32) (a : Act) :
    Umalloc.step base mem s a = none ∨
    ∃ r s' bs', Umalloc.step base mem s a = some (some (r, s')) ∧ Good base mem s' bs' ∧
      ((∃ nbytes gaps, a = .malloc nbytes gaps) → r = 0 →
        s' = { s with heap := setUp base s.heap }) := by
  cases a with
  | malloc nbytes gaps =>
    unfold Umalloc.step
    dsimp only
    split_ifs with hsmall
    · right
      rcases hg.malloc hmem hsmall gaps with ⟨hrun, hgood⟩ | ⟨new, h', bs', hrun, ht, hgood⟩
      · exact ⟨0, _, bs, by simp only [hrun]; rfl, hgood, fun _ _ => rfl⟩
      · refine ⟨new + 16, _, bs', ?_, hgood, fun _ hzero => absurd hzero (by omega)⟩
        simp only [hrun, HSIZE, Nat.add_sub_cancel, ht.size]
        rfl
    · exact .inl rfl
  | free ap =>
    unfold Umalloc.step
    dsimp only
    cases hfind : s.live.find? fun x => decide (x.addr + HSIZE = ap) with
    | none => exact .inl rfl
    | some x => grind [hg.free]

theorem Reach.good (hmem : mem < 2 ^ 32) (hr : Reach base mem s) : ∃ bs, Good base mem s bs := by
  induction hr with
  | init brk hbase hbrk =>
    exact ⟨[(base, 0)], hbase, inv_init hbrk, fun _ => ⟨rfl, rfl⟩⟩
  | step a _ hstep ih =>
    obtain ⟨bs, hg⟩ := ih
    rcases hg.step hmem a with hnone | ⟨r, s', bs', hs, hg', -⟩
    · rw [hnone] at hstep
      cases hstep
    · rw [hs] at hstep
      cases hstep
      exact ⟨bs', hg'⟩

theorem Reach.steps {t : Sys} {as : List Act} (hr : Reach base mem s)
    (hs : Umalloc.steps base mem s as = some t) : Reach base mem t := by
  induction as generalizing s with
  | nil =>
    cases hs
    exact hr
  | cons a as ih =>
    rw [Umalloc.steps] at hs
    split at hs
    · exact ih (.step a hr ‹_›) hs
    · cases hs

/-- The allocator on a machine that hands out less than `2 ^ 32` headers, which is what a
    size can count, after any calls: the free blocks are a ring in the order of their addresses
    with no two that touch, live blocks share no byte with each other or with free ones and hold
    what was asked for, and free and live blocks together are all the memory there is. Every
    call returns, and a `malloc` that returns `0` has changed nothing but set up the empty
    ring. -/
theorem heap_of_reach (hmem : mem < 2 ^ 32) (hr : Reach base mem s) :
    (∃ bs, (s.heap.freep = 0 ∧ bs = [] ∨
        Holds base s.heap.ptr s.heap.size bs ∧ s.heap.freep ∈ bs.map fst) ∧
      (∀ x ∈ s.live, (s.heap.size x.addr).toNat = x.units ∧
        x.nbytes.toNat ≤ 16 * (x.units - 1) ∧ ∀ b ∈ bs, Apart b x.block) ∧
      (s.live.Pairwise fun x y => Apart x.block y.block) ∧
      total bs + (s.live.map Live.units).sum = s.heap.units) ∧
    (∀ a, step base mem s a ≠ some none) ∧
    ∀ nbytes gaps s', step base mem s (.malloc nbytes gaps) = some (some (0, s')) →
      s' = { s with heap := setUp base s.heap } := by
  obtain ⟨bs, hg⟩ := hr.good hmem
  have hi := hg.inv
  refine ⟨?_, ?_, ?_⟩
  · have hunits : (setUp base s.heap).units = s.heap.units := by
      unfold setUp
      split_ifs <;> rfl
    have hsum := hi.sum
    by_cases hset : s.heap.freep = 0
    · obtain ⟨hlive, htotal⟩ := hg.unset hset
      refine ⟨[], .inl ⟨hset, rfl⟩, ?_, hi.apart, ?_⟩
      · intro x hx
        rw [hlive] at hx
        exact absurd hx not_mem_nil
      · rw [← hunits, ← hsum, htotal]
        rfl
    · have hsame : setUp base s.heap = s.heap := if_neg hset
      rw [hsame] at hi
      exact ⟨bs, .inr ⟨hi.ready.holds, hi.ready.freep⟩,
        fun x hx => ⟨hi.sizes x hx, (hi.holds x hx).2, hi.free x hx⟩, hi.apart, hi.sum⟩
  · grind [hg.step]
  · grind [hg.step]

/-- After two blocks are taken and the first given back. -/
theorem heap_after_three_calls : ∃ s, s.live = [⟨64400, 65, 1024⟩] ∧ Reach 16 8192 s ∧
      ∃ bs, (s.heap.freep = 0 ∧ bs = [] ∨
          Holds 16 s.heap.ptr s.heap.size bs ∧ s.heap.freep ∈ bs.map fst) ∧
        total bs + (s.live.map Live.units).sum = 4096 := by
  have htest : (match steps 16 8192 (Sys.init 32)
        [.malloc 100 [some 0], .malloc 1024 [], .free 65456] with
      | some s => s.live == [⟨64400, 65, 1024⟩] && s.heap.units == 4096
      | none => false) = true := by decide +kernel
  split at htest
  case h_2 => cases htest
  case h_1 s hs =>
    simp only [Bool.and_eq_true, beq_iff_eq] at htest
    have hr : Reach 16 8192 s := (Reach.init 32 (by decide) (by decide)).steps hs
    obtain ⟨bs, hring, -, -, hsum⟩ := (heap_of_reach (by decide) hr).1
    exact ⟨s, htest.1, hr, bs, hring, by rw [hsum, htest.2]⟩

theorem Holds.total_two {ptr : Nat → Nat} {size : Nat → UInt32} {x : Nat}
    (hh : Holds base ptr size bs) (hbase : ptr base = x) (hne : x ≠ base) (hx : ptr x = base) :
    total bs = (size x).toNat := by
  obtain ⟨t, rfl⟩ := hh.head
  obtain ⟨hfirst, hrest⟩ := hh.links
  change ptr base = (t.map fst).headD base at hfirst
  have hpw := (List.pairwise_cons.mp hh.apart).1
  have hsizes := hh.sizes
  rcases t with _ | ⟨b, t⟩
  · exact absurd (hbase.symm.trans hfirst) hne
  · obtain rfl : x = b.1 := hbase.symm.trans hfirst
    rcases t with _ | ⟨c, t⟩
    · rw [hsizes b (by simp)]
      simp [total]
    · have hc : ptr b.1 = c.1 := hrest.1
      have := hpw c (by simp)
      dsimp only at this
      omega

/-- Thirty-three blocks of almost two gigabytes, all given back. -/
def overflowing : List Act :=
  List.replicate 33 (.malloc (2 ^ 31 - 32) [some 0]) ++
    (List.range 33).map fun i => .free (48 + i * (2 ^ 31 - 16))

/-- With more memory than a size can count, `free` joins blocks to one whose size has wrapped
    around: the free list no longer accounts for the memory. -/
theorem sizes_overflow : ¬ ∀ s, Reach 16 (2 ^ 33) s → ∃ bs, (s.heap.freep = 0 ∧ bs = [] ∨
          Holds 16 s.heap.ptr s.heap.size bs ∧ s.heap.freep ∈ bs.map fst) ∧
        total bs + (s.live.map Live.units).sum = s.heap.units := by
  intro hall
  have htest : (match Umalloc.steps 16 (2 ^ 33) (Sys.init 32) overflowing with
      | some s => s.heap.freep == 32 && s.heap.ptr 16 == 32 && s.heap.ptr 32 == 16 &&
          s.heap.size 32 == 134217695 && s.heap.units == 4429184991 && s.live.isEmpty
      | none => false) = true := by decide +kernel
  split at htest
  case h_2 => cases htest
  case h_1 s hs =>
    simp only [Bool.and_eq_true, beq_iff_eq, List.isEmpty_iff] at htest
    obtain ⟨⟨⟨⟨⟨hfreep, hbase⟩, hblock⟩, hsize⟩, hunits⟩, hlive⟩ := htest
    have hr : Reach 16 (2 ^ 33) s := (Reach.init 32 (by decide) (by decide)).steps hs
    obtain ⟨bs, hring, hsum⟩ := hall s hr
    rcases hring with ⟨hzero, -⟩ | ⟨hh, -⟩
    · rw [hfreep] at hzero
      cases hzero
    · rw [hh.total_two hbase (by decide) hblock, hsize, hlive, hunits] at hsum
      cases hsum

end Xv6.Umalloc
