import Xv6.Theory.Vm.Space

/-!
# Giving a Table Back

`freewalk` goes down into every entry of a page before it gives the page back. When no address is
mapped any more, the pages it visits are those of the table, each once.

## Theorems

* `Vm.Sub.freewalk`, `Vm.Space.freewalk`
-/

namespace Xv6.Vm

open List (finRange length_cons)

/-- The pages `L` are a tree of depth `d` with its root at `a`, and nothing is mapped in it. -/
def Sub (m : Phys) : Nat → Word → List Word → Prop
  | 0, a, L => L = [a] ∧ ∀ i, isValid (m.word a i) = false
  | d + 1, a, L => ∃ Ls : Index → List Word, L = a :: (finRange 512).flatMap Ls ∧
      ∀ i, (isValid (m.word a i) = true ∧ m.word a i &&& (PTE_R ||| PTE_W ||| PTE_X) = 0#64 ∧
          Sub m d (PTE2PA (m.word a i)) (Ls i)) ∨
        (isValid (m.word a i) = false ∧ Ls i = [])

variable {kend : Word} {U A F T : Multiset Word} {m m' : Phys} {r a : Word}
  {l L : List Word} {f : Nat → Option Word} {d : Nat}

theorem Sub.congr (h : Sub m d a L) (hs : ∀ b ∈ L, m'.word b = m.word b) : Sub m' d a L := by
  induction d generalizing a L with
  | zero =>
    obtain ⟨rfl, hinv⟩ := h
    refine ⟨rfl, fun i => ?_⟩
    rw [hs a List.mem_cons_self]
    exact hinv i
  | succ d ih =>
    obtain ⟨Ls, rfl, hch⟩ := h
    refine ⟨Ls, rfl, fun i => ?_⟩
    rw [hs a List.mem_cons_self]
    rcases hch i with ⟨hv, hfl, hsub⟩ | hnone
    · refine .inl ⟨hv, hfl, ih hsub fun b hb => hs b ?_⟩
      exact List.mem_cons_of_mem a (List.mem_flatMap.2 ⟨i, List.mem_finRange i, hb⟩)
    · exact .inr hnone

section Entries

variable {Ls : Index → List Word} {free : Phys → Word → Except Panic Phys}

/-- What the call on the page below does. -/
def Frees (U : Multiset Word) (d : Nat)
    (free : Phys → Word → Except Panic Phys) : Prop :=
  ∀ (m : Phys) (a : Word) (l L : List Word) (A : Multiset Word), Sub m d a L →
    Pool U m l ((L : Multiset Word) + A) →
    ∃ m' l', free m a = .ok m' ∧ Pool U m' l' A ∧ Same m m' A

theorem Frees.entries (hfree : Frees U d free) (hU : Pages kend U) (is : List Index)
    (hnd : is.Nodup) (hpool : Pool U m l (a ::ₘ ((is.flatMap Ls : List Word) + A)))
    (hch : ∀ i ∈ is, (isValid (m.word a i) = true ∧
        m.word a i &&& (PTE_R ||| PTE_W ||| PTE_X) = 0#64 ∧ Sub m d (PTE2PA (m.word a i)) (Ls i)) ∨
      (isValid (m.word a i) = false ∧ Ls i = [])) :
    ∃ m' l', is.foldlM (freeEntry free a) m = .ok m' ∧ Pool U m' l' (a ::ₘ A) ∧ Same m m' A := by
  -- along the entries: what is below the later ones is left alone
  induction is generalizing m l with
  | nil =>
    refine ⟨m, l, rfl, hpool.cast ?_, Same.refl⟩
    simp only [List.flatMap_nil, Multiset.coe_nil, Multiset.zero_add]
  | cons i is ih =>
    rw [List.nodup_cons] at hnd
    rw [List.foldlM_cons]
    rcases hch i List.mem_cons_self with ⟨hv, hfl, hsub⟩ | ⟨hv, hnil⟩
    · have hcast : a ::ₘ (((i :: is).flatMap Ls : List Word) + A) =
          (Ls i : Multiset Word) + (a ::ₘ ((is.flatMap Ls : List Word) + A)) := by
        rw [List.flatMap_cons, ← Multiset.coe_add, Multiset.add_cons, Multiset.add_assoc]
      obtain ⟨m1, l1, hone, hpool1, hsame1⟩ := hfree m _ l (Ls i) _ hsub (hpool.cast hcast)
      have ha1 : m1.word a = m.word a := hsame1 a (Multiset.mem_cons_self a _)
      have hpool1' : Pool U m1 l1 ({a} + ((is.flatMap Ls : List Word) + A)) := by
        rw [Multiset.singleton_add]
        exact hpool1
      obtain ⟨hpool2, hsame2⟩ :=
        hpool1'.setOwn (i := i) (x := 0#64) hU (Multiset.mem_singleton_self a)
      rw [Multiset.singleton_add] at hpool2
      have hch2 : ∀ j ∈ is, (isValid ((m1.set a i 0#64).word a j) = true ∧
          (m1.set a i 0#64).word a j &&& (PTE_R ||| PTE_W ||| PTE_X) = 0#64 ∧
          Sub (m1.set a i 0#64) d (PTE2PA ((m1.set a i 0#64).word a j)) (Ls j)) ∨
          (isValid ((m1.set a i 0#64).word a j) = false ∧ Ls j = []) := by
        intro j hj
        have hji : j ≠ i := by
          rintro rfl
          exact hnd.1 hj
        have hw : (m1.set a i 0#64).word a j = m.word a j := by
          rw [word_set, if_neg (fun hx => hji hx.2), ha1]
        rw [hw]
        rcases hch j (List.mem_cons_of_mem i hj) with ⟨hv', hfl', hsub'⟩ | hnone
        · refine .inl ⟨hv', hfl', hsub'.congr fun b hb => ?_⟩
          have hin : b ∈ ((is.flatMap Ls : List Word) : Multiset Word) + A :=
            Multiset.mem_add.2 (.inl (Multiset.mem_coe.2 (List.mem_flatMap.2 ⟨j, hj, hb⟩)))
          rw [hsame2 b hin, hsame1 b (Multiset.mem_cons_of_mem hin)]
        · exact .inr hnone
      obtain ⟨m', l', hrest, hpool', hsame'⟩ := ih hnd.2 hpool2 hch2
      refine ⟨m', l', ?_, hpool', ?_⟩
      · have hstep : freeEntry free a m i = .ok (m1.set a i 0#64) := by
          simp only [freeEntry, hv, if_true, hfl, hone]
          rfl
        rw [hstep]
        exact hrest
      · intro b hb
        have hin : b ∈ ((is.flatMap Ls : List Word) : Multiset Word) + A :=
          Multiset.mem_add.2 (.inr hb)
        rw [hsame' b hb, hsame2 b hin, hsame1 b (Multiset.mem_cons_of_mem hin)]
    · have hcast : a ::ₘ (((i :: is).flatMap Ls : List Word) + A) =
          a ::ₘ ((is.flatMap Ls : List Word) + A) := by
        rw [List.flatMap_cons, hnil, List.nil_append]
      have hstep : freeEntry free a m i = .ok m := by
        simp only [freeEntry, hv, Bool.false_eq_true, if_false]
      rw [hstep]
      exact ih hnd.2 (hpool.cast hcast) fun j hj => hch j (List.mem_cons_of_mem i hj)

end Entries

theorem Sub.freewalk (hU : Pages kend U) {fuel : Nat} (hd : d < fuel) :
    Frees U d (Vm.freewalk kend fuel) := by
  induction d generalizing fuel with
  | zero =>
    rintro m a l L A ⟨rfl, hinv⟩ hpool
    cases fuel with
    | zero => exact absurd hd (Nat.lt_irrefl 0)
    | succ fuel =>
      -- At the bottom no entry is valid, and the loop only looks.
      have hloop : ∀ is : List Index,
          is.foldlM (freeEntry (Vm.freewalk kend fuel) a) m = .ok m := by
        intro is
        induction is with
        | nil => rfl
        | cons i is ih =>
          have hstep : freeEntry (Vm.freewalk kend fuel) a m i = .ok m := by
            simp only [freeEntry, hinv, Bool.false_eq_true, if_false]
          rw [List.foldlM_cons, hstep]
          exact ih
      obtain ⟨m', hk, hpool', hsame⟩ := (hpool.cast (F := a ::ₘ A) rfl).kfree hU
      refine ⟨m', _, ?_, hpool', hsame⟩
      simp only [Vm.freewalk, hloop]
      exact hk
  | succ d ih =>
    rintro m a l L A ⟨Ls, rfl, hch⟩ hpool
    cases fuel with
    | zero => exact absurd hd (Nat.not_lt_zero _)
    | succ fuel =>
      have hcast : ((a :: (finRange 512).flatMap Ls : List Word) : Multiset Word) + A =
          a ::ₘ (((finRange 512).flatMap Ls : List Word) + A) := by
        rw [← Multiset.cons_coe, Multiset.cons_add]
      -- First what hangs in the entries, then the page they are in.
      rcases (ih (show d < fuel by omega)).entries hU (finRange 512)
        (List.nodup_finRange 512) (hpool.cast hcast) (fun i _ => hch i) with
        ⟨m1, l1, hloop, hpool1, hsame1⟩
      obtain ⟨m', hk, hpool', hsame'⟩ := hpool1.kfree hU
      refine ⟨m', _, ?_, hpool', hsame1.trans hsame'⟩
      simp only [Vm.freewalk, hloop]
      exact hk

theorem exists_va (i2 i1 i0 : Index) (h : i2.val < 256) :
    ∃ va : Word, va.toNat < MAXVA ∧ path va = [i2, i1] ∧ PX 0 va = i0 := by
  have h1 := i1.isLt
  have h0 := i0.isLt
  have hlt : i2.val * 2 ^ 30 + i1.val * 2 ^ 21 + i0.val * 2 ^ 12 < 2 ^ 64 := by omega
  refine ⟨BitVec.ofNat 64 (i2.val * 2 ^ 30 + i1.val * 2 ^ 21 + i0.val * 2 ^ 12), ?_, ?_, ?_⟩
  · rw [BitVec.toNat_ofNat, Nat.mod_eq_of_lt hlt]
    simp only [MAXVA]
    omega
  · simp only [path, List.cons.injEq, and_true, Fin.ext_iff, val_PX, BitVec.toNat_ofNat,
      Nat.mod_eq_of_lt hlt]
    constructor <;> omega
  · rw [Fin.ext_iff, val_PX, BitVec.toNat_ofNat, Nat.mod_eq_of_lt hlt]
    omega

namespace Space

theorem subFrom (h : Space m r T fun _ => none) {p : List Index}
    (hp : node (child m) r p = some a) (hd : p.length + d = 2) : ∃ L, Sub m d a L ∧ L.Nodup ∧
      ∀ b, b ∈ L ↔ ∃ q : List Index, q.length ≤ d ∧ node (child m) a q = some b := by
  induction d generalizing a p with
  | zero =>
    -- the entries at the bottom are those of addresses
    have hinv : ∀ i, isValid (m.word a i) = false := by
      intro i
      match p, hp, hd with
      | [i2, i1], hp, _ =>
        have hi2 : i2.val < 256 := by
          by_contra hge
          simp only [node, child, h.low i2 (Nat.le_of_not_lt hge), Bool.false_eq_true,
            if_false, Option.bind_none, reduceCtorEq] at hp
        obtain ⟨va, hva, hpath, hidx⟩ := exists_va i2 i1 i hi2
        have hlook := h.map va hva
        rw [lookup, hpath, hp, hidx] at hlook
        simp only [Option.bind_some] at hlook
        split_ifs at hlook with hv
        exact Bool.eq_false_iff.2 hv
    refine ⟨[a], ⟨rfl, hinv⟩, List.nodup_singleton a, fun b => ?_⟩
    rw [List.mem_singleton]
    constructor
    · rintro rfl
      exact ⟨[], Nat.le_refl 0, rfl⟩
    · rintro ⟨q, hq, hb⟩
      rw [List.length_eq_zero_iff.1 (Nat.le_zero.1 hq)] at hb
      exact (Option.some.inj hb).symm
  | succ d ih =>
    have hlen : p.length < 2 := by omega
    have hbelow : ∀ i, ∃ Li : List Word, ((isValid (m.word a i) = true ∧
          m.word a i &&& (PTE_R ||| PTE_W ||| PTE_X) = 0#64 ∧
          Sub m d (PTE2PA (m.word a i)) Li) ∨ (isValid (m.word a i) = false ∧ Li = [])) ∧
        Li.Nodup ∧
        ∀ b, b ∈ Li ↔ ∃ q : List Index, q.length ≤ d ∧ node (child m) a (i :: q) = some b := by
      intro i
      by_cases hv : isValid (m.word a i) = true
      · have hchild : child m a i = some (PTE2PA (m.word a i)) := by
          simp only [child, hv, if_true]
        have hnode : node (child m) r (p ++ [i]) = some (PTE2PA (m.word a i)) := by
          rw [node_snoc, hp]
          exact hchild
        obtain ⟨Li, hsub, hnd, hmem⟩ :=
          ih hnode (by simp only [List.length_append, List.length_singleton]; omega)
        refine ⟨Li, .inl ⟨hv, h.inner p a i hlen hp hv, hsub⟩, hnd, fun b => ?_⟩
        rw [hmem b]
        simp only [node, hchild, Option.bind_some]
      · have hv' := Bool.eq_false_iff.2 hv
        refine ⟨[], .inr ⟨hv', rfl⟩, List.nodup_nil, fun b => ?_⟩
        simp only [List.not_mem_nil, node, child, hv', Bool.false_eq_true, if_false,
          Option.bind_none, reduceCtorEq, and_false, exists_false]
    choose Ls hLs hnd hmem using hbelow
    -- a path from `a` is a path from the root
    have hroot : ∀ q b, node (child m) a q = some b → node (child m) r (p ++ q) = some b := by
      intro q b hb
      rw [node_append, hp]
      exact hb
    have hsep : ∀ q q' b, q.length ≤ d + 1 → q'.length ≤ d + 1 →
        node (child m) a q = some b → node (child m) a q' = some b → q = q' := by
      intro q q' b hq hq' hb hb'
      have heq := h.sep (p ++ q) (p ++ q') b (by rw [List.length_append]; omega)
        (by rw [List.length_append]; omega) (hroot q b hb) (hroot q' b hb')
      exact List.append_cancel_left heq
    refine ⟨a :: (finRange 512).flatMap Ls, ⟨Ls, rfl, hLs⟩, ?_, fun b => ?_⟩
    · rw [List.nodup_cons]
      constructor
      · intro hin
        obtain ⟨i, -, hi⟩ := List.mem_flatMap.1 hin
        obtain ⟨q, hq, hb⟩ := (hmem i a).1 hi
        have heq := hsep [] (i :: q) a (Nat.zero_le _)
          (by rw [length_cons]; omega) rfl hb
        cases heq
      · rw [List.nodup_flatMap]
        refine ⟨fun i _ => hnd i, (List.nodup_finRange 512).imp fun {i j} hij => ?_⟩
        intro b hi hj
        obtain ⟨q, hq, hb⟩ := (hmem i b).1 hi
        obtain ⟨q', hq', hb'⟩ := (hmem j b).1 hj
        have heq := hsep (i :: q) (j :: q') b (by rw [length_cons]; omega)
          (by rw [length_cons]; omega) hb hb'
        exact hij (List.cons.inj heq).1
    · rw [List.mem_cons, List.mem_flatMap]
      constructor
      · rintro (rfl | ⟨i, -, hi⟩)
        · exact ⟨[], Nat.zero_le _, rfl⟩
        · obtain ⟨q, hq, hb⟩ := (hmem i b).1 hi
          exact ⟨i :: q, by rw [length_cons]; omega, hb⟩
      · rintro ⟨q, hq, hb⟩
        cases q with
        | nil => exact .inl (Option.some.inj hb).symm
        | cons i q =>
          refine .inr ⟨i, List.mem_finRange i, (hmem i b).2 ⟨q, ?_, hb⟩⟩
          rw [length_cons] at hq
          omega

theorem freewalk (h : Space m r T fun _ => none) (hU : Pages kend U)
    (hpool : Pool U m l (T + A)) :
    ∃ m' l', Vm.freewalk kend rounds m r = .ok m' ∧ Pool U m' l' A ∧ Same m m' A := by
  obtain ⟨L, hsub, hnd, hmem⟩ := h.subFrom (p := []) (d := 2) rfl rfl
  have hT : T.Nodup := (Multiset.nodup_add.1 (Multiset.nodup_add.1 (hpool.nodup hU)).2.1).1
  have hLT : (L : Multiset Word) = T := by
    rw [Multiset.Nodup.ext (Multiset.coe_nodup.2 hnd) hT]
    intro b
    rw [Multiset.mem_coe, hmem b, h.tree b]
  exact Sub.freewalk hU (by decide) m r l L A hsub (hpool.cast (by rw [hLT]))

end Space

end Xv6.Vm
