import Xv6.Theory.Vm.Table

/-!
# The Page Table as a Map

What `mappages`, `uvmunmap` and `uvmclear` do to the map from addresses to entries. Each is a
loop that goes to the entry of one page after another, so each is taken one page at a time
first, and then by induction on the number of pages.

Two things can go wrong that are not the fault of the tables. A range that goes round the end
of the address space has its last page before its first, and if the two meet, `mappages` maps
one page and reports success (`mappages_wraps`). And `uvmunmap` gives back whatever frames it
finds. So ranges do not wrap, and a frame that is given back is nobody else's (`Event.Ok`).

## Theorems

* `Vm.table_is_map`: the three levels are one map
-/

namespace Xv6.Vm

open Option (bind_some map_none map_some)
open BitVec (toNat_add toNat_ofNat toNat_sub)
open Bool (false_eq_true)

variable {doFree : Bool} {done : Bool}

/-- The entries below `level` on the way of `walk`. -/
def down (va : Word) : Nat → List Index
  | 0 => []
  | level + 1 => PX (level + 1) va :: down va level

variable {m m' : Phys} {r a c va v pa perm x kend : Word} {i j : Index} {l : List Word}

theorem walkFrom_false (va : Word) (level : Nat) :
    walkFrom va false level m a = (node (child m) a (down va level), m) := by
  induction level generalizing a with
  | zero => rfl
  | succ level ih =>
    simp only [walkFrom, down, node, child]
    split_ifs with hv
    · simp only [ih, bind_some]
    · rfl

theorem walk_false (hva : va.toNat < MAXVA) :
    walk m r va false = .ok ((node (child m) r (path va)).map fun a => (a, PX 0 va), m) := by
  have hd : down va 2 = path va := rfl
  simp only [walk, if_neg (Nat.not_le.2 hva), walkFrom_false, hd]

theorem walk_large (alloc : Bool) (hva : ¬ va.toNat < MAXVA) :
    walk m r va alloc = .error .walk := by
  simp only [walk, if_pos (Nat.le_of_not_lt hva)]

namespace Table

theorem walkFrom_alloc {p : List Index} (va : Word) (level : Nat) (h : Table m r l)
    (hp : node (child m) r p = some a) (hpath : p ++ down va level = path va) :
    ∃ l', Table (walkFrom va true level m a).2 r l' ∧
      (∀ v, lookup (walkFrom va true level m a).2 r v = lookup m r v) ∧
      ∀ b, (walkFrom va true level m a).1 = some b →
        node (child (walkFrom va true level m a).2) r (path va) = some b := by
  induction level generalizing m a p l with
  | zero =>
    refine ⟨l, h, fun _ => rfl, ?_⟩
    intro b hb
    rw [down, List.append_nil] at hpath
    rw [← hpath]
    exact hp.trans hb
  | succ level ih =>
    have hlen : p.length < 2 := by
      have hl := congrArg List.length hpath
      simp only [List.length_append, down, List.length_cons, path, List.length_nil] at hl
      omega
    have hpath' : (p ++ [PX (level + 1) va]) ++ down va level = path va := by
      rw [List.append_assoc, List.singleton_append]
      exact hpath
    by_cases hv : isValid (m.word a (PX (level + 1) va))
    · -- the page below is there
      have heq : walkFrom va true (level + 1) m a =
          walkFrom va true level m (PTE2PA (m.word a (PX (level + 1) va))) := by
        simp only [walkFrom, hv, if_true]
      rw [heq]
      refine ih h ?_ hpath'
      rw [node_snoc, hp]
      simp only [bind_some, child, hv, if_true]
    · rcases h.kalloc with ⟨-, hk⟩ | ⟨c, l', rfl, hk, hne, hal, hfresh, htab, hlook, hnode⟩
      · -- no page is left
        have heq : walkFrom va true (level + 1) m a = (none, m) := by
          simp only [walkFrom, hv, hk, Bool.true_eq_false, false_eq_true, if_false, if_true]
        rw [heq]
        exact ⟨l, h, fun _ => rfl, fun b hb => by cases hb⟩
      · -- a new page is hung in
        have hm : (Vm.kalloc m).2.word a (PX (level + 1) va) = m.word a (PX (level + 1) va) := by
          have hac : a ≠ m.freelist := by
            rintro rfl
            refine hfresh p (by omega) ?_
            rw [hp, ← hk]
            simp only [Vm.kalloc]
            split_ifs with hz
            · rw [hz]
            · rfl
          simp only [Vm.kalloc]
          split_ifs
          · rfl
          · rw [word_fill, if_neg hac]
        have hgrow := htab.grow (i := PX (level + 1) va) (c := c)
          (by rw [hnode p (by omega)]; exact hp) hlen
          (by rw [hm]; exact Bool.eq_false_iff.2 hv) hal
          (fun q hq => by rw [hnode q hq]; exact hfresh q hq)
          (List.nodup_cons.1 h.nodup).1
        obtain ⟨htab', hlook', hnew, -⟩ := hgrow
        have heq : walkFrom va true (level + 1) m a =
            walkFrom va true level (((Vm.kalloc m).2.fill c 0#64).set a (PX (level + 1) va)
              (PA2PTE c ||| PTE_V)) c := by
          simp only [walkFrom, hv, Bool.true_eq_false, if_false, false_eq_true, hk, hne]
        rw [heq]
        obtain ⟨l'', htab'', hlook'', hres⟩ := ih htab' hnew hpath'
        refine ⟨l'', htab'', ?_, hres⟩
        intro v
        rw [hlook'' v, hlook' v, hlook v]

theorem mapOne (h : Table m r l) (hs : Vm.mapOne m r a pa perm = .ok (done, m')) :
    a.toNat < MAXVA ∧ (∃ l', Table m' r l') ∧ (done = true → lookup m r a = none) ∧
    ∀ v, v.toNat < MAXVA → lookup m' r v =
      if done = true ∧ page v = page a then some (PA2PTE pa ||| perm ||| PTE_V)
      else lookup m r v := by
  by_cases ha : a.toNat < MAXVA
  swap
  · simp only [Vm.mapOne, walk_large true ha] at hs
    cases hs
  have hroot : node (child m) r [] = some r := rfl
  obtain ⟨l', htab, hlook, hres⟩ := walkFrom_alloc a 2 h hroot rfl
  refine ⟨ha, ?_⟩
  have hwalk : Vm.walk m r a true = .ok ((walkFrom a true 2 m r).1.map fun b => (b, PX 0 a),
      (walkFrom a true 2 m r).2) := by
    simp only [Vm.walk, if_neg (Nat.not_le.2 ha)]
  simp only [Vm.mapOne, hwalk] at hs
  cases hw : (walkFrom a true 2 m r).1 with
  | none =>
    simp only [hw, map_none] at hs
    cases hs
    refine ⟨⟨l', htab⟩, fun hx => (by cases hx), fun v _ => ?_⟩
    rw [if_neg (fun hx => Bool.false_ne_true hx.1)]
    exact hlook v
  | some b =>
    have hb := hres b hw
    simp only [hw, map_some] at hs
    have hs' : (if isValid ((walkFrom a true 2 m r).2.word b (PX 0 a)) then
        (.error .mappagesRemap : Except Panic (Bool × Phys))
      else .ok (true, (walkFrom a true 2 m r).2.set b (PX 0 a) (PA2PTE pa ||| perm ||| PTE_V))) =
        .ok (done, m') := hs
    split_ifs at hs' with hval
    cases hs'
    refine ⟨⟨l', (htab.setLeaf hb).1⟩, fun _ => ?_, fun v hv => ?_⟩
    · rw [← hlook a, lookup, hb]
      simp only [bind_some, hval, if_false, false_eq_true]
    · rw [htab.lookup_setLeaf hb ha hv, isValid_or, hlook v]
      simp only [true_and, if_true]

end Table

theorem toNat_next (ha : a.toNat < MAXVA) : (a + 4096#64).toNat = a.toNat + PGSIZE := by
  rw [toNat_add]
  simp only [MAXVA, PGSIZE] at ha ⊢
  simp only [toNat_ofNat]
  omega

theorem page_next (ha : a.toNat < MAXVA) : page (a + 4096#64) = page a + 1 := by
  simp only [page, toNat_next ha, PGSIZE]
  omega

/-- The entry for the page `k` after the first. -/
def entryAt (pa perm : Word) (k : Nat) : Word :=
  PA2PTE (pa + BitVec.ofNat 64 (k * PGSIZE)) ||| perm ||| PTE_V

theorem entryAt_succ (pa perm : Word) (k : Nat) :
    entryAt (pa + 4096#64) perm k = entryAt pa perm (k + 1) := by
  have hk : pa + 4096#64 + BitVec.ofNat 64 (k * PGSIZE) =
      pa + BitVec.ofNat 64 ((k + 1) * PGSIZE) := by
    rw [BitVec.add_assoc, BitVec.ofNat_add_ofNat]
    congr 2
    simp only [PGSIZE]
    ring
  rw [entryAt, entryAt, hk]

/-- `k` pages from `a` on are mapped to consecutive frames, and nothing else changes. -/
def Mapped (m m' : Phys) (r a pa perm : Word) (k : Nat) : Prop :=
  ∀ v, v.toNat < MAXVA → lookup m' r v =
    if page a ≤ page v ∧ page v < page a + k then some (entryAt pa perm (page v - page a))
    else lookup m r v

namespace Table

theorem mapFrom {n : Nat} (h : Table m r l) (hs : Vm.mapFrom r perm n m a pa = .ok (done, m')) :
    (∃ l', Table m' r l') ∧ ∃ k, Mapped m m' r a pa perm k ∧
      (if done = true then k = n else k < n) ∧ ∀ j < k, a.toNat + j * PGSIZE < MAXVA := by
  induction n generalizing m a pa l with
  | zero =>
    cases hs
    refine ⟨⟨l, h⟩, 0, ?_, rfl, fun j hj => absurd hj (Nat.not_lt_zero j)⟩
    intro v _
    rw [if_neg (by omega)]
  | succ n ih =>
    simp only [Vm.mapFrom] at hs
    cases h1 : Vm.mapOne m r a pa perm with
    | error e =>
      rw [h1] at hs
      cases hs
    | ok res =>
      obtain ⟨done1, m1⟩ := res
      rw [h1] at hs
      obtain ⟨ha, ⟨l1, htab1⟩, -, hlook1⟩ := h.mapOne h1
      cases done1 with
      | false =>
        cases hs
        refine ⟨⟨l1, htab1⟩, 0, ?_, ?_, fun j hj => absurd hj (Nat.not_lt_zero j)⟩
        · intro v hv
          rw [if_neg (by omega), hlook1 v hv, if_neg (fun hx => Bool.false_ne_true hx.1)]
        · rw [if_neg Bool.false_ne_true]
          omega
      | true =>
        obtain ⟨htab, k, hmap, hk, hlt⟩ := ih htab1 hs
        have hnext := page_next ha
        refine ⟨htab, k + 1, ?_, ?_, ?_⟩
        · intro v hv
          rw [hmap v hv, hlook1 v hv, hnext]
          -- the first page, one of the rest, or none of them
          by_cases hfirst : page v = page a
          · rw [if_neg (by omega), if_pos ⟨rfl, hfirst⟩, if_pos (by omega), hfirst, Nat.sub_self]
            simp only [entryAt, Nat.zero_mul, BitVec.add_zero]
          · rw [if_neg (fun hx : true = true ∧ page v = page a => hfirst hx.2)]
            by_cases hrest : page a + 1 ≤ page v ∧ page v < page a + 1 + k
            · rw [if_pos hrest, if_pos (by omega), entryAt_succ]
              congr 2
              omega
            · rw [if_neg hrest, if_neg (by omega)]
        · cases done with
          | true =>
            simp only [if_true] at hk ⊢
            omega
          | false =>
            simp only [false_eq_true, if_false] at hk ⊢
            omega
        · intro j hj
          cases j with
          | zero => omega
          | succ j =>
            have hx := hlt j (by omega)
            rw [toNat_next ha] at hx
            simp only [PGSIZE] at hx ⊢
            omega

end Table

theorem toNat_PGROUNDDOWN (a : Word) : (PGROUNDDOWN a).toNat = page a * PGSIZE := by
  have hbits : PGROUNDDOWN a = (a >>> 12) <<< 12 := by
    ext k hk
    have hmask : (0xFFF#64 : Word).getLsbD k = decide (k < 12) := by
      rw [show (0xFFF#64 : Word) = BitVec.ofNat 64 (2 ^ 12 - 1) from rfl, BitVec.getLsbD_ofNat,
        Nat.testBit_two_pow_sub_one]
      simp only [hk, decide_true, Bool.true_and]
    rw [BitVec.getLsbD_eq_getElem hk] at hmask
    simp only [PGROUNDDOWN, BitVec.getElem_and, BitVec.getElem_not, hmask, BitVec.getElem_shiftLeft,
      BitVec.getElem_ushiftRight]
    by_cases h12 : k < 12
    · simp only [h12, decide_true, Bool.not_true, Bool.and_false, Bool.false_and]
    · simp only [h12, decide_false, Bool.not_false, Bool.and_true, Bool.true_and]
      rw [← BitVec.getLsbD_eq_getElem hk]
      congr 1
      omega
  have hlt := a.isLt
  rw [hbits, BitVec.toNat_shiftLeft, BitVec.toNat_ushiftRight, Nat.shiftRight_eq_div_pow,
    Nat.shiftLeft_eq]
  simp only [page, PGSIZE]
  omega

/-- The number of pages that `[va, va + size)` meets. -/
def pagesOf (va size : Word) : Nat := (va.toNat + size.toNat - 1) / PGSIZE - page va + 1

theorem mappages_eq {size : Word} (hsize : size ≠ 0#64) (hwrap : va.toNat + size.toNat ≤ 2 ^ 64) :
    mappages m r va size pa perm = mapFrom r perm (pagesOf va size) m (PGROUNDDOWN va) pa := by
  have hpos : 0 < size.toNat := by
    rcases Nat.eq_zero_or_pos size.toNat with hz | hz
    · exact absurd (BitVec.eq_of_toNat_eq hz) hsize
    · exact hz
  have hlast : (va + size - 1#64).toNat = va.toNat + size.toNat - 1 := by
    have h1 := va.isLt
    have h2 := size.isLt
    rw [toNat_sub, toNat_add]
    simp only [toNat_ofNat]
    omega
  have hcount : (PGROUNDDOWN (va + size - 1#64) - PGROUNDDOWN va).toNat / PGSIZE + 1 =
      pagesOf va size := by
    have h1 := toNat_PGROUNDDOWN (va + size - 1#64)
    have h2 := toNat_PGROUNDDOWN va
    have h3 := va.isLt
    rw [toNat_sub, h1, h2]
    simp only [pagesOf, page, hlast, PGSIZE]
    omega
  simp only [mappages, if_neg hsize, hcount]

theorem page_PGROUNDDOWN (a : Word) : page (PGROUNDDOWN a) = page a := by
  simp only [page, toNat_PGROUNDDOWN, PGSIZE]
  omega

theorem entryAt_decodes {k : Nat} (hpa : pa.toNat % PGSIZE = 0) (hperm : perm.toNat < 1024) :
    PTE2PA (entryAt pa perm k) = pa + BitVec.ofNat 64 (k * PGSIZE) ∧
      PTE_FLAGS (entryAt pa perm k) = perm ||| PTE_V := by
  have hflags : (perm ||| PTE_V).toNat < 1024 := by
    rw [BitVec.toNat_or]
    exact Nat.or_lt_two_pow (n := 10) hperm (by decide)
  have hal : (pa + BitVec.ofNat 64 (k * PGSIZE)).toNat % PGSIZE = 0 := by
    rw [toNat_add, toNat_ofNat]
    simp only [PGSIZE] at hpa ⊢
    omega
  rw [entryAt, BitVec.or_assoc]
  refine ⟨PTE2PA_pte hal hflags, ?_⟩
  apply BitVec.eq_of_toNat_eq
  rw [PTE_FLAGS, BitVec.toNat_and, toNat_pte _ _ hflags]
  have hmask : (0x3FF#64 : Word).toNat = 2 ^ 10 - 1 := rfl
  rw [hmask, Nat.and_two_pow_sub_one_eq_mod]
  omega

/-! ## Taking entries away -/

/-- The frames of `n` pages from `a` on are all different, not free, and not part of the
    table. -/
def Releasable (m : Phys) (r : Word) (l : List Word) (n : Nat) (a : Word) : Prop :=
  ∀ v pte, v.toNat < MAXVA → page a ≤ page v → page v < page a + n → lookup m r v = some pte →
    PTE2PA pte ∉ l ∧ (∀ q, q.length ≤ 2 → node (child m) r q ≠ some (PTE2PA pte)) ∧
    ∀ v' pte', v'.toNat < MAXVA → page a ≤ page v' → page v' < page a + n →
      lookup m r v' = some pte' → page v' ≠ page v → PTE2PA pte' ≠ PTE2PA pte

namespace Table

theorem unmapOne (h : Table m r l) (hkend : KERNBASE ≤ kend)
    (hs : Vm.unmapOne kend m r a doFree = .ok m')
    (hok : doFree = true → ∀ pte, lookup m r a = some pte →
      PTE2PA pte ∉ l ∧ ∀ q, q.length ≤ 2 → node (child m) r q ≠ some (PTE2PA pte)) :
    a.toNat < MAXVA ∧ ∃ pte, lookup m r a = some pte ∧
      Table m' r (if doFree = true then PTE2PA pte :: l else l) ∧
      (∀ p, p.length ≤ 2 → node (child m') r p = node (child m) r p) ∧ ∀ v, v.toNat < MAXVA →
        lookup m' r v = if page v = page a then none else lookup m r v := by
  by_cases ha : a.toNat < MAXVA
  swap
  · simp only [Vm.unmapOne, walk_large false ha] at hs
    cases hs
  refine ⟨ha, ?_⟩
  simp only [Vm.unmapOne, walk_false ha] at hs
  cases hb : node (child m) r (path a) with
  | none =>
    simp only [hb, map_none] at hs
    cases hs
  | some b =>
    simp only [hb, map_some] at hs
    have hs' : (if isValid (m.word b (PX 0 a)) = false then
          (.error .uvmunmapMapped : Except Panic Phys)
        else if PTE_FLAGS (m.word b (PX 0 a)) = PTE_V then .error .uvmunmapLeaf
        else (release kend m (m.word b (PX 0 a)) doFree).bind
          fun m => .ok (m.set b (PX 0 a) 0#64)) = .ok m' := hs
    split_ifs at hs' with hval hleaf
    rw [Bool.not_eq_false] at hval
    have hlook : lookup m r a = some (m.word b (PX 0 a)) := by
      simp only [lookup, hb, bind_some, hval, if_true]
    refine ⟨_, hlook, ?_⟩
    cases doFree with
    | false =>
      cases hs'
      obtain ⟨htab, hnode⟩ := h.setLeaf (i := PX 0 a) (x := 0#64) hb
      refine ⟨htab, hnode, fun v hv => ?_⟩
      rw [h.lookup_setLeaf hb ha hv, isValid_zero]
      simp only [false_eq_true, if_false]
    | true =>
      obtain ⟨hfree, hfresh⟩ := hok rfl _ hlook
      simp only [release, if_true] at hs' ⊢
      cases hk : Vm.kfree kend m (PTE2PA (m.word b (PX 0 a))) with
      | error e =>
        rw [hk] at hs'
        cases hs'
      | ok m1 =>
        rw [hk] at hs'
        cases hs'
        -- `kfree` refuses addresses below the kernel's end
        have hzero : PTE2PA (m.word b (PX 0 a)) ≠ 0#64 := by
          intro hz
          have hlow : PTE2PA (m.word b (PX 0 a)) < kend := by
            have hbase : KERNBASE.toNat = 0x80000000 := rfl
            rw [BitVec.le_def, hbase] at hkend
            rw [hz, BitVec.lt_def, BitVec.toNat_zero]
            omega
          simp only [Vm.kfree, hlow, true_or, or_true, if_true] at hk
          cases hk
        obtain ⟨htab1, hlook1, hnode1, -⟩ := h.kfree hk hzero hfresh hfree
        have hb1 : node (child m1) r (path a) = some b := by
          rw [hnode1 (path a) (Nat.le_refl 2), hb]
        obtain ⟨htab, hnode⟩ := htab1.setLeaf (i := PX 0 a) (x := 0#64) hb1
        refine ⟨htab, fun p hp => (hnode p hp).trans (hnode1 p hp), fun v hv => ?_⟩
        rw [htab1.lookup_setLeaf hb1 ha hv, isValid_zero, hlook1 v]
        simp only [false_eq_true, if_false]

theorem unmapFrom {n : Nat} (h : Table m r l) (hkend : KERNBASE ≤ kend)
    (hs : Vm.unmapFrom kend r doFree n m a = .ok m') (hok : doFree = true → Releasable m r l n a) :
    (∃ l', Table m' r l') ∧ ∀ v, v.toNat < MAXVA → lookup m' r v =
      if page a ≤ page v ∧ page v < page a + n then none else lookup m r v := by
  induction n generalizing m a l with
  | zero =>
    cases hs
    refine ⟨⟨l, h⟩, fun v _ => ?_⟩
    rw [if_neg (by omega)]
  | succ n ih =>
    simp only [Vm.unmapFrom] at hs
    cases h1 : Vm.unmapOne kend m r a doFree with
    | error e =>
      rw [h1] at hs
      cases hs
    | ok m1 =>
      rw [h1] at hs
      have hlt : a.toNat < MAXVA := by
        by_contra hge
        simp only [Vm.unmapOne, walk_large false hge] at h1
        cases h1
      have hfirst : doFree = true → ∀ pte, lookup m r a = some pte →
          PTE2PA pte ∉ l ∧ ∀ q, q.length ≤ 2 → node (child m) r q ≠ some (PTE2PA pte) := by
        intro hdo pte hpte
        have hx := hok hdo a pte hlt (Nat.le_refl _) (by omega) hpte
        exact ⟨hx.1, hx.2.1⟩
      obtain ⟨ha, pte, hpte, htab1, hnode1, hlook1⟩ := h.unmapOne hkend h1 hfirst
      have hnext := page_next ha
      -- what is left is releasable: the frame just freed was none of the others
      have hrest : doFree = true →
          Releasable m1 r (if doFree = true then PTE2PA pte :: l else l) n (a + 4096#64) := by
        intro hdo v e hv hlo hhi he
        rw [if_pos hdo]
        rw [hnext] at hlo hhi
        rw [hlook1 v hv, if_neg (by omega)] at he
        obtain ⟨hfree, hfresh, hdiff⟩ := hok hdo v e hv (by omega) (by omega) he
        refine ⟨?_, ?_, ?_⟩
        · rw [List.mem_cons, not_or]
          exact ⟨(hdiff a pte hlt (Nat.le_refl _) (by omega) hpte (by omega)).symm, hfree⟩
        · intro q hq
          rw [hnode1 q hq]
          exact hfresh q hq
        · intro v' e' hv' hlo' hhi' he'
          rw [hnext] at hlo' hhi'
          rw [hlook1 v' hv', if_neg (by omega)] at he'
          exact hdiff v' e' hv' (by omega) (by omega) he'
      obtain ⟨htab, hlook⟩ := ih htab1 hs hrest
      refine ⟨htab, fun v hv => ?_⟩
      rw [hlook v hv, hlook1 v hv, hnext]
      by_cases hv0 : page v = page a
      · rw [if_pos hv0, if_neg (by omega), if_pos (by omega)]
      · rw [if_neg hv0]
        by_cases hin : page a + 1 ≤ page v ∧ page v < page a + 1 + n
        · rw [if_pos hin, if_pos (by omega)]
        · rw [if_neg hin, if_neg (by omega)]

theorem uvmclear (h : Table m r l) (hs : Vm.uvmclear m r va = .ok m') :
    Table m' r l ∧ ∀ v, v.toNat < MAXVA → lookup m' r v =
      if page v = page va then (lookup m r v).map (fun pte => pte &&& ~~~PTE_U)
      else lookup m r v := by
  by_cases hva : va.toNat < MAXVA
  swap
  · simp only [Vm.uvmclear, walk_large false hva] at hs
    cases hs
  simp only [Vm.uvmclear, walk_false hva] at hs
  cases hb : node (child m) r (path va) with
  | none =>
    simp only [hb, map_none] at hs
    cases hs
  | some b =>
    simp only [hb, map_some] at hs
    cases hs
    refine ⟨(h.setLeaf hb).1, fun v hv => ?_⟩
    rw [h.lookup_setLeaf hb hva hv, isValid_clear]
    split_ifs with hpage hval
    · obtain ⟨hpath, hidx⟩ := (px_inj hv hva).2 hpage
      simp only [lookup, hpath, hidx, hb, bind_some, hval, if_true, map_some]
    · obtain ⟨hpath, hidx⟩ := (px_inj hv hva).2 hpage
      simp only [lookup, hpath, hidx, hb, bind_some, hval, false_eq_true, if_false, map_none]
    · rfl

end Table

namespace Table

theorem mappages (h : Table m r l) {size : Word} (hwrap : va.toNat + size.toNat ≤ 2 ^ 64)
    (hs : Vm.mappages m r va size pa perm = .ok (done, m')) :
    (∃ l', Table m' r l') ∧ ∃ k, Mapped m m' r va pa perm k ∧
      if done = true then k = pagesOf va size else k < pagesOf va size := by
  have hsize : size ≠ 0#64 := by
    intro hz
    simp only [Vm.mappages, if_pos hz] at hs
    cases hs
  rw [mappages_eq hsize hwrap] at hs
  obtain ⟨htab, k, hmap, hk, -⟩ := h.mapFrom hs
  refine ⟨htab, k, ?_, hk⟩
  intro v hv
  rw [hmap v hv, page_PGROUNDDOWN]

theorem uvmunmap (h : Table m r l) (hkend : KERNBASE ≤ kend) {npages : Word}
    (hrange : va.toNat + npages.toNat * PGSIZE ≤ MAXVA)
    (hs : Vm.uvmunmap kend m r va npages doFree = .ok m')
    (hok : doFree = true → Releasable m r l npages.toNat va) :
    (∃ l', Table m' r l') ∧ ∀ v, v.toNat < MAXVA → lookup m' r v =
      if page va ≤ page v ∧ page v < page va + npages.toNat then none else lookup m r v := by
  have hstop : (va + npages * 4096#64).toNat = va.toNat + npages.toNat * PGSIZE := by
    rw [toNat_add, BitVec.toNat_mul]
    simp only [MAXVA, PGSIZE] at hrange ⊢
    simp only [toNat_ofNat]
    omega
  have hcount : (if va < va + npages * 4096#64 then
      (va + npages * 4096#64 - va).toNat / PGSIZE else 0) = npages.toNat := by
    have hlt := va.isLt
    by_cases hgo : va < va + npages * 4096#64
    · rw [if_pos hgo, toNat_sub, hstop]
      simp only [MAXVA, PGSIZE] at hrange ⊢
      omega
    · rw [if_neg hgo]
      rw [BitVec.lt_def, hstop] at hgo
      simp only [PGSIZE] at hgo
      omega
  by_cases hal : va.toNat % PGSIZE ≠ 0
  · simp only [Vm.uvmunmap, if_pos hal] at hs
    cases hs
  · simp only [Vm.uvmunmap, if_neg hal, hcount] at hs
    exact h.unmapFrom hkend hs hok

theorem create {m0 : Phys} (hchain : Chain m0 m0.freelist l) (hnodup : l.Nodup)
    (hal : ∀ a ∈ l, a ≠ 0#64 ∧ a.toNat % PGSIZE = 0) (hs : uvmcreate m0 = (some r, m)) :
    (∃ l', Table m r l') ∧ ∀ v, lookup m r v = none := by
  cases l with
  | nil =>
    have hz : m0.freelist = 0#64 := hchain
    simp only [uvmcreate, Vm.kalloc, hz, if_true] at hs
    cases hs
  | cons a l =>
    have hhead : m0.freelist = a := hchain.1
    have hne := (hal a List.mem_cons_self).1
    obtain ⟨hnot, hnodup⟩ := List.nodup_cons.1 hnodup
    simp only [uvmcreate, Vm.kalloc, hhead, hne, if_false, Prod.mk.injEq, Option.some.injEq] at hs
    obtain ⟨rfl, rfl⟩ := hs
    generalize hm : (({ m0 with freelist := m0.word a 0 } : Phys).fill a
      0x0505050505050505#64).fill a 0#64 = m
    have hword : ∀ b (j : Index), b ≠ a → m.word b j = m0.word b j := by
      intro b j hb
      rw [← hm, word_fill, if_neg hb, word_fill, if_neg hb]
    have hnone : ∀ i, child m a i = none := by
      intro i
      rw [← hm]
      simp only [child, word_fill, if_true, isValid_zero, false_eq_true, if_false]
    have hfree : m.freelist = m0.word a 0 := by
      rw [← hm]
      rfl
    -- the root is the only page of the tree
    have hroot : ∀ p b, node (child m) a p = some b → p = [] ∧ b = a := by
      intro p b hp
      cases p with
      | nil => exact ⟨rfl, (Option.some.inj hp).symm⟩
      | cons i p =>
        rw [node, hnone i] at hp
        cases hp
    refine ⟨⟨l, ?_, ?_, hnodup, fun b hb => hal b (List.mem_cons_of_mem a hb), ?_⟩, ?_⟩
    · intro p q b _ _ hpb hqb
      rw [(hroot p b hpb).1, (hroot q b hqb).1]
    · rw [hfree]
      refine chain_congr (fun b hb => hword b 0 ?_) hchain.2
      rintro rfl
      exact hnot hb
    · intro p b _ hpb
      rw [(hroot p b hpb).2]
      exact hnot
    · intro v
      rw [lookup, path, node, hnone]
      rfl

end Table

/-! ## Runs -/

/-- A call that changes the table, or a frame that someone takes. -/
inductive Event
  | mappages (va size pa perm : Word)
  | uvmunmap (va npages : Word) (doFree : Bool)
  | uvmclear (va : Word)
  | kalloc

def Event.run (kend : Word) (m : Phys) (r : Word) : Event → Except Panic Phys
  | .mappages va size pa perm => (Vm.mappages m r va size pa perm).map Prod.snd
  | .uvmunmap va npages doFree => Vm.uvmunmap kend m r va npages doFree
  | .uvmclear va => Vm.uvmclear m r va
  | .kalloc => .ok (Vm.kalloc m).2

/-- The range of `mappages` does not go round the end of the address space. That of `uvmunmap`
    is mapped, so it ends below `MAXVA`, and if its frames are given back they are releasable. -/
def Event.Ok (m : Phys) (r : Word) : Event → Prop
  | .mappages va size _ _ => va.toNat + size.toNat ≤ 2 ^ 64
  | .uvmunmap va npages doFree =>
    va.toNat + npages.toNat * PGSIZE ≤ MAXVA ∧
      (doFree = true → ∀ l, Chain m m.freelist l → Releasable m r l npages.toNat va)
  | .uvmclear _ | .kalloc => True

/-- The states of memory that calls on the table at `r` lead to, from an empty table on. -/
inductive Reach (kend r : Word) : Phys → Prop
  | create {m0 m : Phys} {l : List Word} (hchain : Chain m0 m0.freelist l) (hnodup : l.Nodup)
      (hal : ∀ a ∈ l, a ≠ 0#64 ∧ a.toNat % PGSIZE = 0) (hs : uvmcreate m0 = (some r, m)) :
      Reach kend r m
  | step {m m' : Phys} {e : Event} (h : Reach kend r m) (hok : e.Ok m r)
      (hs : e.run kend m r = .ok m') : Reach kend r m'

theorem table_of_reach (hkend : KERNBASE ≤ kend) (h : Reach kend r m) : ∃ l, Table m r l := by
  induction h with
  | create hchain hnodup hal hs => exact (Table.create hchain hnodup hal hs).1
  | @step m m' e _ hok hs ih =>
    obtain ⟨l, htab⟩ := ih
    cases e with
    | mappages va size pa perm =>
      simp only [Event.run] at hs
      cases hm : Vm.mappages m r va size pa perm with
      | error e =>
        rw [hm] at hs
        cases hs
      | ok res =>
        obtain ⟨done, m1⟩ := res
        rw [hm] at hs
        cases hs
        exact (htab.mappages hok hm).1
    | uvmunmap va npages doFree =>
      exact (htab.uvmunmap hkend hok.1 hs (fun hdo => hok.2 hdo l htab.chain)).1
    | uvmclear va => exact ⟨l, (htab.uvmclear hs).1⟩
    | kalloc =>
      cases hs
      rcases htab.kalloc with ⟨-, hk⟩ | ⟨c, l', -, -, -, -, -, htab', -⟩
      · rw [hk]
        exact ⟨l, htab⟩
      · exact ⟨l', htab'⟩

/-- In every table that calls lead to: `lookup` is the entry that `walk` finds; `mappages`
    changes it on the pages of its range, or on some first ones of them if it fails;
    `uvmunmap` takes away those of its range; `uvmclear` drops `PTE_U` on its page; nothing else
    changes; and different pages have different entries. -/
theorem table_is_map (hkend : KERNBASE ≤ kend) (h : Reach kend r m) :
    (∀ va, va.toNat < MAXVA → ∃ e, walk m r va false = .ok (e, m) ∧ lookup m r va = e.bind fun s =>
        if isValid (m.word s.1 s.2) then some (m.word s.1 s.2) else none) ∧
    (∀ va size pa perm done m', va.toNat + size.toNat ≤ 2 ^ 64 →
      mappages m r va size pa perm = .ok (done, m') → ∃ k, Mapped m m' r va pa perm k ∧
        if done = true then k = pagesOf va size else k < pagesOf va size) ∧
    (∀ pa perm k, pa.toNat % PGSIZE = 0 → perm.toNat < 1024 →
      PTE2PA (entryAt pa perm k) = pa + BitVec.ofNat 64 (k * PGSIZE) ∧
        PTE_FLAGS (entryAt pa perm k) = perm ||| PTE_V) ∧
    (∀ va npages doFree m', (Event.uvmunmap va npages doFree).Ok m r →
      uvmunmap kend m r va npages doFree = .ok m' → ∀ v, v.toNat < MAXVA → lookup m' r v =
        if page va ≤ page v ∧ page v < page va + npages.toNat then none else lookup m r v) ∧
    (∀ va m', uvmclear m r va = .ok m' → ∀ v, v.toNat < MAXVA → lookup m' r v =
      if page v = page va then (lookup m r v).map (fun pte => pte &&& ~~~PTE_U)
      else lookup m r v) ∧
    ∀ va va' e, va.toNat < MAXVA → va'.toNat < MAXVA → walk m r va false = .ok (some e, m) →
      walk m r va' false = .ok (some e, m) → page va = page va' := by
  obtain ⟨l, htab⟩ := table_of_reach hkend h
  refine ⟨?_, fun va size pa perm done m' hwrap hs => (htab.mappages hwrap hs).2,
    fun pa perm k hpa hperm => entryAt_decodes hpa hperm,
    fun va npages doFree m' hok hs =>
      (htab.uvmunmap hkend hok.1 hs (fun hdo => hok.2 hdo l htab.chain)).2,
    fun va m' hs => (htab.uvmclear hs).2, ?_⟩
  · intro va hva
    refine ⟨_, walk_false hva, ?_⟩
    rw [lookup]
    cases node (child m) r (path va) <;> rfl
  · intro va va' e hva hva' he he'
    rw [walk_false hva] at he
    rw [walk_false hva'] at he'
    cases hn : node (child m) r (path va) with
    | none =>
      rw [hn] at he
      cases he
    | some b =>
      cases hn' : node (child m) r (path va') with
      | none =>
        rw [hn'] at he'
        cases he'
      | some b' =>
        rw [hn] at he
        rw [hn'] at he'
        cases he
        have hbb : (b', PX 0 va') = (b, PX 0 va) := by
          simpa only [map_some, Except.ok.injEq, Prod.mk.injEq, Option.some.injEq,
            and_true] using he'
        have hb : b' = b := congrArg Prod.fst hbb
        have hidx : PX 0 va' = PX 0 va := congrArg Prod.snd hbb
        rw [hb] at hn'
        have hpath := htab.sep (path va) (path va') b (Nat.le_refl 2) (Nat.le_refl 2) hn hn'
        exact (px_inj hva hva').1 ⟨hpath, hidx.symm⟩

/-- Memory with four free pages. -/
def fourFree : Phys :=
  { word := fun a _ =>
      if a = 0x80001000#64 then 0x80002000#64
      else if a = 0x80002000#64 then 0x80003000#64
      else if a = 0x80003000#64 then 0x80004000#64
      else 0#64
    freelist := 0x80001000#64 }

/-- The table made in that memory. -/
def firstTable : Phys := (uvmcreate fourFree).2

theorem uvmcreate_fourFree : uvmcreate fourFree = (some 0x80001000#64, firstTable) := by
  have hpage : (uvmcreate fourFree).1 = some 0x80001000#64 := by decide +kernel
  rw [firstTable, ← hpage]

theorem reach_firstTable : Reach KERNBASE 0x80001000#64 firstTable := by
  refine .create (l := [0x80001000#64, 0x80002000#64, 0x80003000#64, 0x80004000#64]) ?_ ?_ ?_
    uvmcreate_fourFree
  · exact ⟨rfl, rfl, rfl, rfl, rfl⟩
  · decide
  · intro a ha
    simp only [List.mem_cons, List.not_mem_nil, or_false] at ha
    rcases ha with rfl | rfl | rfl | rfl
    all_goals exact ⟨by decide, by decide⟩

/-- Two pages are mapped at `0x1000`, and their entries are there. -/
theorem table_is_map_two : ∃ m', mappages firstTable 0x80001000#64 0x1000#64 0x2000#64
      0x87000000#64 6#64 = .ok (true, m') ∧
    lookup m' 0x80001000#64 0x2000#64 = some (entryAt 0x87000000#64 6#64 1) := by
  have hrun : ∃ m', mappages firstTable 0x80001000#64 0x1000#64 0x2000#64
      0x87000000#64 6#64 = .ok (true, m') := ⟨_, rfl⟩
  obtain ⟨m', hm⟩ := hrun
  refine ⟨m', hm, ?_⟩
  rcases (table_is_map (BitVec.le_refl KERNBASE) reach_firstTable).2.1 _ _ _ _ _ _
    (by decide) hm with ⟨k, hmap, hk⟩
  rw [if_pos rfl] at hk
  rw [hmap 0x2000#64 (by decide), hk, if_pos (by decide)]
  rfl

/-- A range that covers the address space and comes back to its first page: `mappages` maps
    that page and reports success. -/
theorem mappages_wraps : ∃ m', mappages firstTable 0x80001000#64 0xFFF#64 0xFFFFFFFFFFFFFFFF#64
      0x87000000#64 6#64 = .ok (true, m') ∧ (0xFFF#64).toNat ≤ (0x1000#64).toNat ∧
    (0x1000#64).toNat < (0xFFF#64).toNat + (0xFFFFFFFFFFFFFFFF#64).toNat ∧
    lookup m' 0x80001000#64 0x1000#64 = none := by
  have hrun : ∃ m', mappages firstTable 0x80001000#64 0xFFF#64 0xFFFFFFFFFFFFFFFF#64
      0x87000000#64 6#64 = .ok (true, m') ∧ lookup m' 0x80001000#64 0x1000#64 = none :=
    ⟨_, rfl, by decide +kernel⟩
  obtain ⟨m', hm, hnone⟩ := hrun
  exact ⟨m', hm, by decide, by decide, hnone⟩

end Xv6.Vm
