import Xv6.Core.Copy
import Xv6.Theory.Vm.Map

/-!
# User Memory, a Byte at a Time

What a process sees at an address is a byte of the page that its table maps there for it
(`vbyte`). The copies of `kernel/vm.c` go page by page, and start and end in the middle of one.
The specification knows no pages: bytes are copied one after the other, up to the first that a
user may not touch.

## Theorems

* `Vm.user_copies`: when the copies succeed, and what they transfer
-/

namespace Xv6.Vm

open List (length_append length_cons length_drop length_map length_range map_cons)
open Option (bind_some getD_some)
open Nat (mod_lt succ_pos)

variable {m m' : Phys} {r va : Word} {a b o n : Nat}

section Bytes

variable {o' : Nat} {pa pb : Word}

theorem index_eq (ho : o < PGSIZE) (ho' : o' < PGSIZE) :
    (Fin.ofNat 512 (o / 8) : Index) = Fin.ofNat 512 (o' / 8) ↔ o / 8 = o' / 8 := by
  simp only [Fin.ext_iff, Fin.ofNat, PGSIZE] at *
  omega

theorem byte_of_word (w : Word) (b : UInt8) {k j : Nat} (hk : k < 8) (hj : j < 8) :
    (((w &&& ~~~(0xFF#64 <<< (8 * k))) ||| (b.toBitVec.setWidth 64 <<< (8 * k))) >>>
      (8 * j)).setWidth 8 = if j = k then b.toBitVec else (w >>> (8 * j)).setWidth 8 := by
  have hmask : ∀ i < 64, (0xFF#64 : Word).getLsbD i = decide (i < 8) := by decide
  apply BitVec.eq_of_getLsbD_eq
  intro i hi
  have hshift : 8 * j + i < 64 := by omega
  have hgap : 8 * j + i - 8 * k < 64 := by omega
  simp only [BitVec.getLsbD_setWidth, BitVec.getLsbD_ushiftRight, BitVec.getLsbD_or,
    BitVec.getLsbD_and, BitVec.getLsbD_not, BitVec.getLsbD_shiftLeft, hmask _ hgap, hi,
    hshift, hgap,
    decide_true, Bool.true_and]
  by_cases hjk : j = k
  · have hsub : 8 * k + i - 8 * k = i := by omega
    have hnot : ¬ 8 * k + i < 8 * k := by omega
    simp only [hjk, if_true, hsub, hnot, hi, decide_true, decide_false, Bool.not_false,
      Bool.true_and, Bool.not_true, Bool.and_false, Bool.false_or]
  · rw [if_neg hjk]
    simp only [BitVec.getLsbD_setWidth, BitVec.getLsbD_ushiftRight, hi, decide_true, Bool.true_and]
    by_cases hlt : j < k
    · have hbelow : 8 * j + i < 8 * k := by omega
      simp only [hbelow, decide_true, Bool.not_true, Bool.false_and, Bool.not_false, Bool.and_true,
        Bool.or_false]
    · have habove : ¬ 8 * j + i < 8 * k := by omega
      have hfar : ¬ 8 * j + i - 8 * k < 8 := by omega
      have hzero : b.toBitVec.getLsbD (8 * j + i - 8 * k) = false :=
        BitVec.getLsbD_of_ge _ _ (by omega)
      simp only [habove, hfar, hzero, decide_false, Bool.not_false, Bool.true_and, Bool.and_true,
        Bool.or_false]

theorem byte_setByte {b : UInt8} (ho : o < PGSIZE) (ho' : o' < PGSIZE) :
    (m.setByte pa o b).byte pb o' = if pb = pa ∧ o' = o then b else m.byte pb o' := by
  unfold Phys.byte Phys.setByte
  rw [word_set]
  by_cases hword : pb = pa ∧ (Fin.ofNat 512 (o' / 8) : Index) = Fin.ofNat 512 (o / 8)
  · obtain ⟨rfl, hidx⟩ := hword
    have hdiv := (index_eq ho' ho).mp hidx
    rw [if_pos ⟨rfl, hidx⟩, byte_of_word _ _ (mod_lt _ (by decide)) (mod_lt _ (by decide)),
      hidx]
    by_cases hmod : o' % 8 = o % 8
    · rw [if_pos hmod, if_pos ⟨rfl, by omega⟩]
    · rw [if_neg hmod, if_neg fun h => hmod (by rw [h.2])]
  · rw [if_neg hword, if_neg]
    rintro ⟨rfl, rfl⟩
    exact hword ⟨rfl, rfl⟩

theorem word_setByte {b : UInt8} (h : pb ≠ pa) :
    (m.setByte pa o b).word pb = m.word pb := by
  funext i
  unfold Phys.setByte
  rw [word_set, if_neg fun h' => h h'.1]

end Bytes

section Frames

/-- The page that a table maps for a user at an address. -/
def frameOf (m : Phys) (r : Word) (a : Nat) : Option Word :=
  if a < MAXVA then
    (lookup m r (BitVec.ofNat 64 a)).bind fun pte =>
      if pte &&& PTE_U = 0#64 then none else some (PTE2PA pte)
  else none

/-- The byte that a user sees at an address. -/
def vbyte (m : Phys) (r : Word) (a : Nat) : Option UInt8 :=
  (frameOf m r a).map fun f => m.byte f (a % PGSIZE)

/-- No page of the user is at physical address `0`. -/
def Frames (m : Phys) (r : Word) : Prop := ∀ a, frameOf m r a ≠ some 0#64

/-- No page of the user is a page of the table. -/
def Clear (m : Phys) (r : Word) : Prop :=
  ∀ a f p, frameOf m r a = some f → p.length ≤ 2 → node (child m) r p ≠ some f

theorem toNat_addr (h : a < MAXVA) : (BitVec.ofNat 64 a : Word).toNat = a := by
  rw [BitVec.toNat_ofNat]
  simp only [MAXVA] at h
  omega

theorem frameOf_page (h : a / PGSIZE = b / PGSIZE) : frameOf m r a = frameOf m r b := by
  unfold frameOf
  by_cases ha : a < MAXVA
  · have hb : b < MAXVA := by
      simp only [MAXVA, PGSIZE] at *
      omega
    have hpage : page (BitVec.ofNat 64 a) = page (BitVec.ofNat 64 b) := by
      rw [page, page, toNat_addr ha, toNat_addr hb, h]
    obtain ⟨hpath, hentry⟩ := (px_inj (by rw [toNat_addr ha]; exact ha)
      (by rw [toNat_addr hb]; exact hb)).mpr hpage
    rw [if_pos ha, if_pos hb, lookup, lookup, hpath, hentry]
  · have hb : ¬ b < MAXVA := by
      simp only [MAXVA, PGSIZE] at *
      omega
    rw [if_neg ha, if_neg hb]

theorem frameOf_lt {f : Word} (h : frameOf m r a = some f) : a < MAXVA := by
  unfold frameOf at h
  split_ifs at h with ha
  exact ha

theorem walkaddr_ok (m : Phys) (r va : Word) :
    walkaddr m r va = .ok ((frameOf m r va.toNat).getD 0#64) := by
  unfold walkaddr frameOf
  by_cases hva : va.toNat < MAXVA
  · rw [if_neg (Nat.not_le.mpr hva), if_pos hva, BitVec.ofNat_toNat, BitVec.setWidth_eq,
      walk_false hva, lookup]
    cases hn : node (child m) r (path va) with
    | none => rfl
    | some p =>
      simp only [Option.map_some, bind_some, bind, Except.bind]
      cases hv : isValid (m.word p (PX 0 va)) with
      | false => rfl
      | true =>
        simp only [Bool.true_eq_false, if_false, if_true, bind_some]
        split_ifs <;> rfl
  · rw [if_pos (Nat.le_of_not_lt hva), if_neg hva]
    rfl

theorem frameOf_congr
    (h : ∀ p c, p.length ≤ 2 → node (child m) r p = some c → m'.word c = m.word c) :
    frameOf m' r = frameOf m r ∧ ∀ p : List Index, p.length ≤ 2 →
      node (child m') r p = node (child m) r p := by
  have hnode : ∀ p : List Index, p.length ≤ 2 → node (child m') r p = node (child m) r p := by
    refine fun p hp => node_congr (fun q c i hq hc => child_congr ?_) hp
    rw [h q c (Nat.le_of_lt hq) hc]
  refine ⟨?_, hnode⟩
  funext a
  unfold frameOf
  rw [lookup_congr (hnode (path _) (Nat.le_refl 2)) fun c hc => by
    rw [h (path _) c (Nat.le_refl 2) hc]]

end Frames

section Rounds

theorem toNat_nextPage (h : va.toNat < MAXVA) :
    (PGROUNDDOWN va + 4096#64).toNat = (va.toNat / PGSIZE + 1) * PGSIZE := by
  have h4096 : (4096#64 : Word).toNat = 4096 := rfl
  rw [BitVec.toNat_add, toNat_PGROUNDDOWN, h4096, page]
  simp only [PGSIZE, MAXVA] at *
  omega

theorem toNat_offset (va : Word) : (va - PGROUNDDOWN va).toNat = va.toNat % PGSIZE := by
  have hle : (PGROUNDDOWN va).toNat ≤ va.toNat := by
    rw [toNat_PGROUNDDOWN, page]
    exact Nat.div_mul_le_self _ _
  rw [BitVec.toNat_sub_of_le (BitVec.le_def.mpr hle), toNat_PGROUNDDOWN, page]
  simp only [PGSIZE]
  omega

theorem walkaddr_round (m : Phys) (r va : Word) :
    walkaddr m r (PGROUNDDOWN va) = .ok ((frameOf m r va.toNat).getD 0#64) := by
  rw [walkaddr_ok, frameOf_page (b := va.toNat)]
  rw [toNat_PGROUNDDOWN, page]
  simp only [PGSIZE]
  omega

theorem vbyte_round {f : Word} (hf : frameOf m r a = some f) {k : Nat}
    (hk : a % PGSIZE + k < PGSIZE) : vbyte m r (a + k) = some (m.byte f (a % PGSIZE + k)) := by
  have hdiv : (a + k) / PGSIZE = a / PGSIZE := by
    simp only [PGSIZE] at *
    omega
  have hmod : (a + k) % PGSIZE = a % PGSIZE + k := by
    simp only [PGSIZE] at *
    omega
  rw [vbyte, frameOf_page hdiv, hf, hmod]
  rfl

theorem round_next {len : Nat} (hlen : 0 < len) (hva : va.toNat < MAXVA) :
    let n := min (PGSIZE - (va - PGROUNDDOWN va).toNat) len
    0 < n ∧ n ≤ len ∧ va.toNat % PGSIZE + n ≤ PGSIZE ∧
      (n < len → (PGROUNDDOWN va + 4096#64).toNat = va.toNat + n) := by
  intro n
  have hn : n = min (PGSIZE - va.toNat % PGSIZE) len := by rw [← toNat_offset va]
  have hnext := toNat_nextPage hva
  have hmod := mod_lt va.toNat (show 0 < PGSIZE by decide)
  simp only [PGSIZE] at *
  refine ⟨by omega, by omega, by omega, fun hlt => ?_⟩
  rw [hnext]
  omega

/-- What the loops of `copyin` and `copyinstr` have stored is what is at the addresses. -/
def Read (m : Phys) (r : Word) (a : Nat) (l : List UInt8) : Prop :=
  ∀ k < l.length, vbyte m r (a + k) = l[k]?

theorem Read.nil : Read m r a [] := fun _ hk => absurd hk (Nat.not_lt_zero _)

theorem Read.append {l l' : List UInt8} (h : Read m r a l) (h' : Read m r (a + l.length) l') :
    Read m r a (l ++ l') := by
  intro k hk
  by_cases hlt : k < l.length
  · rw [h k hlt, List.getElem?_append_left hlt]
  · rw [length_append] at hk
    rw [List.getElem?_append_right (Nat.le_of_not_lt hlt), ← h' (k - l.length) (by omega)]
    congr 1
    omega

theorem Read.load {f : Word} (hf : frameOf m r a = some f) (hn : a % PGSIZE + n ≤ PGSIZE) :
    Read m r a (m.load f (a % PGSIZE) n) := by
  intro k hk
  rw [Phys.load, length_map, length_range] at hk
  rw [vbyte_round hf (by omega), Phys.load, List.getElem?_map, List.getElem?_range hk]
  rfl

end Rounds

section Copyin

/-- What `copyin` has done: it stored the bytes at the addresses, all of them or up to one that is
    not there. -/
structure Copied (m : Phys) (r : Word) (a len : Nat) (ok : Bool) (l : List UInt8) : Prop where
  read : Read m r a l
  all : ok = true → l.length = len
  stop : ok = false → l.length < len ∧ frameOf m r (a + l.length) = none

theorem Copied.le {len : Nat} {ok : Bool} {l : List UInt8} (h : Copied m r a len ok l) :
    l.length ≤ len := by
  cases ok with
  | true => exact Nat.le_of_eq (h.all rfl)
  | false => exact Nat.le_of_lt (h.stop rfl).1

theorem copyinFrom_spec (hframes : Frames m r) (fuel : Nat) :
    ∀ (va : Word) (len : Nat), len ≤ fuel →
      ∃ ok l, copyinFrom m r fuel va len = .ok (ok, l) ∧ Copied m r va.toNat len ok l := by
  induction fuel with
  | zero =>
    intro va len hlen
    refine ⟨true, [], ?_, Read.nil, fun _ => (Nat.le_zero.mp hlen).symm, nofun⟩
    rw [copyinFrom, if_neg (by omega)]
  | succ fuel ih =>
    intro va len hlen
    by_cases hpos : 0 < len
    · rw [copyinFrom, if_pos hpos]
      simp only [walkaddr_round, bind, Except.bind]
      cases hf : frameOf m r va.toNat with
      | none => exact ⟨false, [], rfl, Read.nil, nofun, fun _ => ⟨hpos, hf⟩⟩
      | some f =>
        have hne : f ≠ 0#64 := fun hz => hframes va.toNat (by rw [hf, hz])
        rw [getD_some, if_neg hne]
        obtain ⟨hn, hle, hpage, hnext⟩ := round_next hpos (frameOf_lt hf)
        generalize min (PGSIZE - (va - PGROUNDDOWN va).toNat) len = n at *
        obtain ⟨ok, l, hrun, h⟩ := ih (PGROUNDDOWN va + 4096#64) (len - n) (by omega)
        rw [hrun, toNat_offset]
        have hlen' : (m.load f (va.toNat % PGSIZE) n).length = n := by
          rw [Phys.load, length_map, length_range]
        refine ⟨ok, m.load f (va.toNat % PGSIZE) n ++ l, rfl, ?_, fun hok => ?_, fun hok => ?_⟩
        · refine (Read.load hf hpage).append ?_
          rw [hlen']
          by_cases hlt : n < len
          · rw [← hnext hlt]
            exact h.read
          · -- The last round: nothing is read after it.
            have hle' := h.le
            rw [List.length_eq_zero_iff.mp (show l.length = 0 by omega)]
            exact Read.nil
        · rw [length_append, hlen', h.all hok]
          omega
        · obtain ⟨hshort, hnone⟩ := h.stop hok
          rw [length_append, hlen', ← Nat.add_assoc, ← hnext (by omega)]
          exact ⟨by omega, hnone⟩
    · refine ⟨true, [], ?_, Read.nil, fun _ => ?_, nofun⟩
      · rw [copyinFrom, if_neg hpos]
      · rw [List.length_nil]
        omega

end Copyin

section Copyinstr

theorem copyStr_spec {f : Word} (n : Nat) : ∀ o, ∃ k, (copyStr m f n o).2 = m.load f o k ∧ k ≤ n ∧
      (∀ j < k, m.byte f (o + j) = 0 → (copyStr m f n o).1 = true ∧ j + 1 = k) ∧
      ((copyStr m f n o).1 = true → 0 < k ∧ m.byte f (o + (k - 1)) = 0) ∧
      ((copyStr m f n o).1 = false → k = n) := by
  induction n with
  | zero =>
    intro o
    exact ⟨0, rfl, Nat.le_refl 0, fun _ h => absurd h (Nat.not_lt_zero _), nofun, fun _ => rfl⟩
  | succ n ih =>
    intro o
    rw [copyStr]
    by_cases hz : m.byte f o = 0
    · rw [if_pos hz]
      refine ⟨1, ?_, by omega, fun j hj _ => ⟨rfl, by omega⟩, fun _ => ⟨Nat.one_pos, hz⟩, nofun⟩
      simp only [Phys.load, List.range_one, map_cons, List.map_nil, Nat.add_zero, hz]
    · rw [if_neg hz]
      obtain ⟨k, hl, hk, hin, hfound, hall⟩ := ih (o + 1)
      refine ⟨k + 1, ?_, by omega, fun j hj hj0 => ?_, fun h => ?_, fun h => by rw [hall h]⟩
      · dsimp only
        rw [hl, Phys.load, Phys.load, List.range_succ_eq_map, map_cons, List.map_map]
        simp only [Nat.add_zero, Function.comp_def, Nat.succ_eq_add_one, Nat.add_assoc,
          Nat.add_comm 1]
      · cases j with
        | zero => exact absurd hj0 hz
        | succ j =>
          have := hin j (by omega) (by rw [Nat.add_assoc, Nat.add_comm 1]; exact hj0)
          exact ⟨this.1, by omega⟩
      · obtain ⟨hpos, hlast⟩ := hfound h
        refine ⟨succ_pos k, ?_⟩
        have hsum : o + (k + 1 - 1) = o + 1 + (k - 1) := by omega
        rw [hsum]
        exact hlast

/-- What `copyinstr` has done: it stored the bytes at the addresses up to the first zero and that
    zero, or up to one that is not there, or as many as it may. -/
structure CopiedStr (m : Phys) (r : Word) (a max : Nat) (ok : Bool) (l : List UInt8) : Prop where
  read : Read m r a l
  le : l.length ≤ max
  zero : ∀ j < l.length, l[j]? = some 0 → ok = true ∧ j + 1 = l.length
  last : ok = true → 0 < l.length ∧ l[l.length - 1]? = some 0
  stop : ok = false → l.length < max → frameOf m r (a + l.length) = none

theorem CopiedStr.nil {max : Nat} (h : 0 < max → frameOf m r a = none) :
    CopiedStr m r a max false [] :=
  ⟨Read.nil, Nat.zero_le _, fun _ hj => absurd hj (Nat.not_lt_zero _), nofun, fun _ => h⟩

theorem copyinstrFrom_spec (hframes : Frames m r) (fuel : Nat) :
    ∀ (va : Word) (max : Nat), max ≤ fuel →
      ∃ ok l, copyinstrFrom m r fuel va max = .ok (ok, l) ∧ CopiedStr m r va.toNat max ok l := by
  induction fuel with
  | zero =>
    intro va max hmax
    refine ⟨false, [], ?_, .nil fun h => by omega⟩
    rw [copyinstrFrom, if_neg (by omega)]
  | succ fuel ih =>
    intro va max hmax
    by_cases hpos : 0 < max
    · rw [copyinstrFrom, if_pos hpos]
      simp only [walkaddr_round, bind, Except.bind]
      cases hf : frameOf m r va.toNat with
      | none => exact ⟨false, [], rfl, .nil fun _ => hf⟩
      | some f =>
        have hne : f ≠ 0#64 := fun hz => hframes va.toNat (by rw [hf, hz])
        rw [getD_some, if_neg hne]
        obtain ⟨hn, hle, hpage, hnext⟩ := round_next hpos (frameOf_lt hf)
        simp only [toNat_offset] at *
        generalize min (PGSIZE - va.toNat % PGSIZE) max = n at *
        obtain ⟨k, hl, hk, hin, hfound, hall⟩ :=
          copyStr_spec (m := m) (f := f) n (va.toNat % PGSIZE)
        have hlen : (m.load f (va.toNat % PGSIZE) k).length = k := by
          rw [Phys.load, length_map, length_range]
        have hget : ∀ j < k, (m.load f (va.toNat % PGSIZE) k)[j]? =
            some (m.byte f (va.toNat % PGSIZE + j)) := fun j hj => by
          rw [Phys.load, List.getElem?_map, List.getElem?_range hj]
          rfl
        have hread : Read m r va.toNat (m.load f (va.toNat % PGSIZE) k) := Read.load hf (by omega)
        by_cases hok : (copyStr m f n (va.toNat % PGSIZE)).1 = true
        · -- The zero is on this page.
          rw [if_pos hok, hl]
          obtain ⟨hkpos, hlast⟩ := hfound hok
          refine ⟨true, _, rfl, hread, by omega, fun j hj hj0 => ?_, fun _ => ?_, nofun⟩
          · rw [hlen] at hj ⊢
            rw [hget j hj] at hj0
            exact ⟨rfl, (hin j hj (Option.some.inj hj0)).2⟩
          · rw [hlen, hget _ (by omega), hlast]
            exact ⟨hkpos, rfl⟩
        · rw [if_neg hok, hl]
          obtain rfl : k = n := hall (by simpa only [Bool.not_eq_true] using hok)
          obtain ⟨ok, l, hrun, h⟩ := ih (PGROUNDDOWN va + 4096#64) (max - k) (by omega)
          have hle' := h.le
          rw [hrun]
          refine ⟨ok, m.load f (va.toNat % PGSIZE) k ++ l, rfl, ?_, ?_, fun j hj hj0 => ?_,
            fun hend => ?_, fun hend hshort => ?_⟩
          · refine hread.append ?_
            rw [hlen]
            by_cases hlt : k < max
            · rw [← hnext hlt]
              exact h.read
            · rw [List.length_eq_zero_iff.mp (show l.length = 0 by omega)]
              exact Read.nil
          · rw [length_append, hlen]
            omega
          · rw [length_append, hlen] at hj ⊢
            by_cases hjk : j < k
            · rw [List.getElem?_append_left (by omega), hget j hjk] at hj0
              exact absurd (hin j hjk (Option.some.inj hj0)).1 hok
            · rw [List.getElem?_append_right (by omega), hlen] at hj0
              have := h.zero (j - k) (by omega) hj0
              exact ⟨this.1, by omega⟩
          · obtain ⟨hlpos, hlast⟩ := h.last hend
            rw [length_append, hlen]
            refine ⟨by omega, ?_⟩
            rw [List.getElem?_append_right (by omega), hlen, ← hlast]
            congr 1
            omega
          · rw [length_append, hlen] at hshort ⊢
            rw [← Nat.add_assoc, ← hnext (by omega)]
            exact h.stop hend (by omega)
    · refine ⟨false, [], ?_, .nil fun h => absurd h hpos⟩
      rw [copyinstrFrom, if_neg hpos]

end Copyinstr

section Copyout

/-- Bytes stored one after the other, each on the page that `F` has for its address. -/
def poke (F : Nat → Option Word) : Phys → Nat → List UInt8 → Phys
  | m, _, [] => m
  | m, a, b :: l => poke F (match F a with
      | some f => m.setByte f (a % PGSIZE) b
      | none => m) (a + 1) l

variable {F : Nat → Option Word} {l l' : List UInt8} {f : Word}

theorem poke_cons (hf : F a = some f) (b : UInt8) :
    poke F m a (b :: l) = poke F (m.setByte f (a % PGSIZE) b) (a + 1) l := by
  rw [poke, hf]

theorem poke_append : poke F m a (l ++ l') = poke F (poke F m a l) (a + l.length) l' := by
  induction l generalizing m a with
  | nil => rfl
  | cons b l ih =>
    rw [List.cons_append, poke, poke, ih, length_cons, Nat.add_assoc, Nat.add_comm 1]

theorem store_eq_poke (hl : a % PGSIZE + l.length ≤ PGSIZE)
    (hF : ∀ k < l.length, F (a + k) = some f) : m.store f (a % PGSIZE) l = poke F m a l := by
  induction l generalizing m a with
  | nil => rfl
  | cons b l ih =>
    have hfirst : F a = some f := hF 0 (succ_pos _)
    rw [Phys.store, poke_cons hfirst]
    cases l with
    | nil => rfl
    | cons c l =>
      rw [length_cons, length_cons] at hl
      have hmod : (a + 1) % PGSIZE = a % PGSIZE + 1 := by
        simp only [PGSIZE] at *
        omega
      rw [← hmod]
      refine ih ?_ fun k hk => ?_
      · rw [length_cons, hmod]
        omega
      · rw [Nat.add_assoc, Nat.add_comm 1]
        exact hF (k + 1) (Nat.succ_lt_succ hk)

theorem word_poke {c : Word} (hc : ∀ k < l.length, F (a + k) ≠ some c) :
    (poke F m a l).word c = m.word c := by
  induction l generalizing m a with
  | nil => rfl
  | cons b l ih =>
    rw [poke, ih fun k hk => ?_]
    · cases hf : F a with
      | none => rfl
      | some f =>
        refine word_setByte fun heq => hc 0 (succ_pos _) ?_
        rw [Nat.add_zero, hf, heq]
    · rw [Nat.add_assoc, Nat.add_comm 1]
      exact hc (k + 1) (Nat.succ_lt_succ hk)

theorem byte_poke_of_ne {c : Word} (ho : o < PGSIZE)
    (hc : ∀ k < l.length, F (a + k) = some c → (a + k) % PGSIZE ≠ o) :
    (poke F m a l).byte c o = m.byte c o := by
  induction l generalizing m a with
  | nil => rfl
  | cons b l ih =>
    rw [poke, ih fun k hk => ?_]
    · cases hf : F a with
      | none => rfl
      | some f =>
        dsimp only
        rw [byte_setByte (mod_lt _ (by decide)) ho, if_neg]
        rintro ⟨rfl, heq⟩
        exact hc 0 (succ_pos _) hf heq.symm
    · rw [Nat.add_assoc, Nat.add_comm 1]
      exact hc (k + 1) (Nat.succ_lt_succ hk)

theorem byte_poke (hinj : ∀ a b f, F a = some f → F b = some f → a / PGSIZE = b / PGSIZE) {k : Nat}
    (hk : k < l.length) (hf : F (a + k) = some f) (hall : ∀ j < l.length, ∃ g, F (a + j) = some g) :
    some ((poke F m a l).byte f ((a + k) % PGSIZE)) = l[k]? := by
  induction l generalizing m a k with
  | nil => exact absurd hk (Nat.not_lt_zero _)
  | cons b l ih =>
    obtain ⟨g, hg⟩ : ∃ g, F a = some g := hall 0 (succ_pos _)
    rw [poke_cons hg]
    have hnext : ∀ j, a + 1 + j = a + (j + 1) := fun j => by omega
    cases k with
    | zero =>
      -- The first byte, which the others do not reach.
      obtain rfl : g = f := Option.some.inj (hg.symm.trans hf)
      rw [Nat.add_zero, byte_poke_of_ne (mod_lt _ (by decide)) fun j hj hj' => ?_,
        byte_setByte (mod_lt _ (by decide)) (mod_lt _ (by decide)), if_pos ⟨rfl, rfl⟩]
      · rfl
      · have hpage := hinj _ _ _ hj' hg
        simp only [PGSIZE, Nat.add_zero] at *
        omega
    | succ k =>
      have hrest := ih (m := m.setByte g (a % PGSIZE) b) (a := a + 1)
        (Nat.lt_of_succ_lt_succ hk) (by rw [hnext]; exact hf) fun j hj => by
          rw [hnext]
          exact hall (j + 1) (Nat.succ_lt_succ hj)
      rw [hnext] at hrest
      rw [List.getElem?_cons_succ]
      exact hrest

theorem frameOf_poke (hclear : Clear m r) :
    frameOf (poke (frameOf m r) m a l) r = frameOf m r ∧ ∀ p : List Index, p.length ≤ 2 →
      node (child (poke (frameOf m r) m a l)) r p = node (child m) r p := by
  refine frameOf_congr fun p c hp hc => word_poke fun k _ hk => ?_
  exact hclear _ _ p hk hp hc

theorem Clear.poke (hclear : Clear m r) : Clear (poke (frameOf m r) m a l) r := by
  obtain ⟨hframe, hnode⟩ := frameOf_poke (a := a) (l := l) hclear
  intro b f p hf hp
  rw [hframe] at hf
  rw [hnode p hp]
  exact hclear b f p hf hp

/-- What `copyout` has done: it stored the first `k` bytes one after the other, all of them or up
    to an address that is not there. -/
structure Stored (m : Phys) (r : Word) (a : Nat) (src : List UInt8) (ok : Bool) (m' : Phys)
    (k : Nat) : Prop where
  mem : m' = poke (frameOf m r) m a (src.take k)
  mapped : ∀ i < k, ∃ f, frameOf m r (a + i) = some f
  le : k ≤ src.length
  all : ok = true → k = src.length
  stop : ok = false → k < src.length ∧ frameOf m r (a + k) = none

theorem copyoutFrom_spec (fuel : Nat) :
    ∀ (m : Phys) (va : Word) (src : List UInt8), Frames m r → Clear m r → src.length ≤ fuel →
      ∃ ok m' k, copyoutFrom r fuel m va src = .ok (ok, m') ∧ Stored m r va.toNat src ok m' k := by
  induction fuel with
  | zero =>
    intro m va src _ _ hlen
    refine ⟨true, m, 0, ?_, rfl, fun _ h => absurd h (Nat.not_lt_zero _), Nat.zero_le _,
      fun _ => (Nat.le_zero.mp hlen).symm, nofun⟩
    rw [copyoutFrom, if_neg (by omega)]
  | succ fuel ih =>
    intro m va src hframes hclear hlen
    by_cases hpos : 0 < src.length
    · rw [copyoutFrom, if_pos hpos]
      simp only [walkaddr_round, bind, Except.bind]
      cases hf : frameOf m r va.toNat with
      | none =>
        exact ⟨false, m, 0, rfl, rfl, fun _ h => absurd h (Nat.not_lt_zero _), Nat.zero_le _,
          nofun, fun _ => ⟨hpos, hf⟩⟩
      | some f =>
        have hne : f ≠ 0#64 := fun hz => hframes va.toNat (by rw [hf, hz])
        rw [getD_some, if_neg hne]
        obtain ⟨hn, hle, hpage, hnext⟩ := round_next hpos (frameOf_lt hf)
        simp only [toNat_offset] at *
        generalize min (PGSIZE - va.toNat % PGSIZE) src.length = n at *
        have hlen' : (src.take n).length = n := by
          rw [List.length_take]
          omega
        have hsame : ∀ k < n, frameOf m r (va.toNat + k) = some f := fun k hk => by
          rw [frameOf_page (b := va.toNat), hf]
          simp only [PGSIZE] at *
          omega
        rw [store_eq_poke (F := frameOf m r) (by omega) fun k hk => hsame k (by omega)]
        have hframe := (frameOf_poke (a := va.toNat) (l := src.take n) hclear).1
        obtain ⟨ok, m', k, hrun, h⟩ := ih _ (PGROUNDDOWN va + 4096#64) (src.drop n)
          (fun a => by rw [hframe]; exact hframes a) hclear.poke
          (by rw [length_drop]; omega)
        have hk := h.le
        rw [length_drop] at hk
        refine ⟨ok, m', n + k, hrun, ?_, fun i hi => ?_, by omega, fun hok => ?_, fun hok => ?_⟩
        · rw [h.mem, hframe, List.take_add, poke_append, hlen']
          by_cases hlt : n < src.length
          · rw [hnext hlt]
          · obtain rfl : k = 0 := by omega
            simp only [List.take_zero, poke]
        · by_cases hin : i < n
          · exact ⟨f, hsame i hin⟩
          · obtain ⟨g, hg⟩ := h.mapped (i - n) (by omega)
            rw [hframe, hnext (by omega)] at hg
            refine ⟨g, ?_⟩
            rw [← hg]
            congr 1
            omega
        · have := h.all hok
          rw [length_drop] at this
          omega
        · obtain ⟨hshort, hnone⟩ := h.stop hok
          rw [length_drop] at hshort
          rw [hframe, hnext (by omega), Nat.add_assoc] at hnone
          exact ⟨by omega, hnone⟩
    · refine ⟨true, m, 0, ?_, rfl, fun _ h => absurd h (Nat.not_lt_zero _), Nat.zero_le _,
        fun _ => by omega, nofun⟩
      rw [copyoutFrom, if_neg hpos]

end Copyout

section Functions

/-- A user may touch all of these addresses. -/
def Allowed (m : Phys) (r : Word) (a len : Nat) : Prop :=
  ∀ i < len, (frameOf m r (a + i)).isSome = true

variable {ok : Bool} {l : List UInt8} {f c : Word}

theorem mapped_of_copied {len : Nat} (h : Copied m r a len ok l) :
    ok = true ↔ Allowed m r a len := by
  constructor
  · intro hok i hi
    have hread := h.read i (by rw [h.all hok]; exact hi)
    cases hf : frameOf m r (a + i) with
    | some f => rfl
    | none =>
      rw [vbyte, hf, List.getElem?_eq_getElem (by rw [h.all hok]; exact hi)] at hread
      cases hread
  · intro hall
    by_contra hok
    obtain ⟨hlt, hnone⟩ := h.stop (by simpa only [Bool.not_eq_true] using hok)
    have := hall _ hlt
    rw [hnone] at this
    cases this

theorem mapped_of_stored {src : List UInt8} {k : Nat} (h : Stored m r a src ok m' k) :
    ok = true ↔ Allowed m r a src.length := by
  constructor
  · intro hok i hi
    obtain ⟨f, hf⟩ := h.mapped i (by rw [h.all hok]; exact hi)
    rw [hf]
    rfl
  · intro hall
    by_contra hok
    obtain ⟨hlt, hnone⟩ := h.stop (by simpa only [Bool.not_eq_true] using hok)
    have := hall _ hlt
    rw [hnone] at this
    cases this

theorem found_of_copied {max : Nat} (h : CopiedStr m r a max ok l) :
    ok = true ↔ ∃ k < max, vbyte m r (a + k) = some 0 ∧ Allowed m r a k := by
  have hthere : ∀ k < l.length, (frameOf m r (a + k)).isSome = true := fun k hk => by
    have hread := h.read k hk
    cases hf : frameOf m r (a + k) with
    | some f => rfl
    | none =>
      rw [vbyte, hf, List.getElem?_eq_getElem hk] at hread
      cases hread
  have hle := h.le
  constructor
  · intro hok
    obtain ⟨hpos, hlast⟩ := h.last hok
    refine ⟨l.length - 1, by omega, ?_, fun j hj => hthere j (by omega)⟩
    rw [h.read _ (by omega), hlast]
  · rintro ⟨k, hk, hzero, hmapped⟩
    by_contra hok
    have hfalse : ok = false := by simpa only [Bool.not_eq_true] using hok
    by_cases hlt : k < l.length
    · rw [h.read k hlt] at hzero
      exact hok (h.zero k hlt hzero).1
    · -- The scan stopped before the zero, at an address that is not there.
      have hnone := h.stop hfalse (by omega)
      by_cases heq : k = l.length
      · rw [vbyte, heq, hnone] at hzero
        cases hzero
      · have := hmapped l.length (by omega)
        rw [hnone] at this
        cases this

/-- The copies between the kernel and a user. Each of them comes to an end without a panic, says
    whether all addresses are there (or a string is), copies one byte after the other, up to the
    first address that is not there, and touches nothing but the bytes of those addresses. -/
theorem user_copies (hframes : Frames m r) (va len max : Word) (src : List UInt8) :
    (∃ ok l, copyin m r va len = .ok (ok, l) ∧ (ok = true ↔ Allowed m r va.toNat len.toNat) ∧
      l.length ≤ len.toNat ∧ (ok = true → l.length = len.toNat) ∧ Read m r va.toNat l ∧
      (ok = false → l.length < len.toNat ∧ frameOf m r (va.toNat + l.length) = none)) ∧
    (∃ ok l, copyinstr m r va max = .ok (ok, l) ∧
      (ok = true ↔ ∃ k < max.toNat, vbyte m r (va.toNat + k) = some 0 ∧ Allowed m r va.toNat k) ∧
      l.length ≤ max.toNat ∧ Read m r va.toNat l ∧
      (ok = true → 0 < l.length ∧ ∀ j < l.length, l[j]? = some 0 ↔ j + 1 = l.length) ∧
      (ok = false → l.length < max.toNat → frameOf m r (va.toNat + l.length) = none)) ∧
    (Clear m r → ∃ ok m' k, copyout m r va src = .ok (ok, m') ∧
      (ok = true ↔ Allowed m r va.toNat src.length) ∧
      k ≤ src.length ∧ (ok = true → k = src.length) ∧ Allowed m r va.toNat k ∧
      (ok = false → k < src.length ∧ frameOf m r (va.toNat + k) = none) ∧
      m' = poke (frameOf m r) m va.toNat (src.take k) ∧
      (∀ c, (∀ i < k, frameOf m r (va.toNat + i) ≠ some c) → m'.word c = m.word c) ∧
      ((∀ a b f, frameOf m r a = some f → frameOf m r b = some f → a / PGSIZE = b / PGSIZE) →
        ∀ i < k, vbyte m' r (va.toNat + i) = src[i]?)) := by
  refine ⟨?_, ?_, fun hclear => ?_⟩
  · obtain ⟨ok, l, hrun, h⟩ := copyinFrom_spec hframes len.toNat va len.toNat (Nat.le_refl _)
    exact ⟨ok, l, hrun, mapped_of_copied h, h.le, h.all, h.read, h.stop⟩
  · obtain ⟨ok, l, hrun, h⟩ := copyinstrFrom_spec hframes max.toNat va max.toNat (Nat.le_refl _)
    refine ⟨ok, l, hrun, found_of_copied h, h.le, h.read,
      fun hok => ⟨(h.last hok).1, fun j hj => ?_⟩,
      h.stop⟩
    refine ⟨fun hzero => (h.zero j hj hzero).2, fun hj' => ?_⟩
    rw [← (h.last hok).2]
    congr 1
    omega
  · obtain ⟨ok, m', k, hrun, h⟩ := copyoutFrom_spec src.length m va src hframes hclear
      (Nat.le_refl _)
    have hlen : (src.take k).length = k := by
      rw [List.length_take]
      exact Nat.min_eq_left h.le
    refine ⟨ok, m', k, hrun, mapped_of_stored h, h.le, h.all, fun i hi => ?_, h.stop, h.mem,
      fun c hc => ?_, fun hinj i hi => ?_⟩
    · obtain ⟨f, hf⟩ := h.mapped i hi
      rw [hf]
      rfl
    · rw [h.mem]
      exact word_poke fun j hj => hc j (by omega)
    · obtain ⟨f, hf⟩ := h.mapped i hi
      rw [vbyte, h.mem, (frameOf_poke hclear).1, hf, ← List.getElem?_take_of_lt hi]
      exact byte_poke hinj (by omega) hf fun j hj => h.mapped j (by omega)

/-- A table that maps the first page for a user, to the page `f`, and nothing else. -/
def firstPage (f : Word) : Phys :=
  { word := fun pa i =>
      if i = 0 then
        if pa = 0x80001000#64 then PA2PTE 0x80002000#64 ||| PTE_V
        else if pa = 0x80002000#64 then PA2PTE 0x80003000#64 ||| PTE_V
        else if pa = 0x80003000#64 then PA2PTE f ||| PTE_U ||| PTE_V
        else 0#64
      else 0#64
    freelist := 0#64 }

theorem valid_firstPage {i : Index} (h : isValid ((firstPage f).word c i) = true) :
    (c = 0x80001000#64 ∧ (firstPage f).word c i = PA2PTE 0x80002000#64 ||| PTE_V) ∨
      (c = 0x80002000#64 ∧ (firstPage f).word c i = PA2PTE 0x80003000#64 ||| PTE_V) ∨
      (c = 0x80003000#64 ∧ (firstPage f).word c i = PA2PTE f ||| PTE_U ||| PTE_V) := by
  simp only [firstPage] at h ⊢
  by_cases hi : i = 0
  · simp only [hi, if_true] at h ⊢
    split_ifs at h with h1 h2 h3
    · exact .inl ⟨h1, if_pos h1⟩
    · exact .inr (.inl ⟨h2, by rw [if_neg h1, if_pos h2]⟩)
    · exact .inr (.inr ⟨h3, by rw [if_neg h1, if_neg h2, if_pos h3]⟩)
    · rw [isValid_zero] at h
      cases h
  · rw [if_neg hi, isValid_zero] at h
    cases h

theorem frameOf_firstPage {g : Word} (h : frameOf (firstPage f) r a = some g) :
    g = PTE2PA (PA2PTE f ||| PTE_U ||| PTE_V) := by
  have hlink2 : (PA2PTE 0x80002000#64 ||| PTE_V) &&& PTE_U = 0#64 := by decide
  have hlink1 : (PA2PTE 0x80003000#64 ||| PTE_V) &&& PTE_U = 0#64 := by decide
  unfold frameOf lookup at h
  split_ifs at h
  cases hn : node (child (firstPage f)) r (path (BitVec.ofNat 64 a)) with
  | none =>
    rw [hn] at h
    cases h
  | some c =>
    rw [hn] at h
    simp only [bind_some] at h
    by_cases hv : isValid ((firstPage f).word c (PX 0 (BitVec.ofNat 64 a))) = true
    swap
    · rw [if_neg hv] at h
      cases h
    rw [if_pos hv, bind_some] at h
    rcases valid_firstPage hv with ⟨-, hw⟩ | ⟨-, hw⟩ | ⟨-, hw⟩
    · rw [hw, if_pos hlink2] at h
      cases h
    · rw [hw, if_pos hlink1] at h
      cases h
    · rw [hw] at h
      split_ifs at h
      exact (Option.some.inj h).symm

theorem node_firstPage {p : List Index} (hp : p.length ≤ 2)
    (hc : node (child (firstPage f)) 0x80001000#64 p = some c) :
    c = 0x80001000#64 ∨ c = 0x80002000#64 ∨ c = 0x80003000#64 := by
  have hlink2 : PTE2PA (PA2PTE 0x80002000#64 ||| PTE_V) = 0x80002000#64 := by decide
  have hlink1 : PTE2PA (PA2PTE 0x80003000#64 ||| PTE_V) = 0x80003000#64 := by decide
  have hchild : ∀ a b i, (a = 0x80001000#64 ∨ a = 0x80002000#64) →
      child (firstPage f) a i = some b → b = if a = 0x80001000#64 then 0x80002000#64
        else 0x80003000#64 := by
    intro a b i ha hb
    unfold child at hb
    split_ifs at hb with hv
    rw [← Option.some.inj hb]
    rcases valid_firstPage hv with ⟨rfl, hw⟩ | ⟨rfl, hw⟩ | ⟨rfl, -⟩
    · rw [hw, hlink2, if_pos rfl]
    · rw [hw, hlink1, if_neg (by decide)]
    · exact absurd ha (by decide)
  match p with
  | [] => exact .inl (Option.some.inj hc).symm
  | [i] =>
    simp only [node, Option.bind_eq_some_iff] at hc
    obtain ⟨b, hb, hc⟩ := hc
    have hb' := hchild _ _ _ (.inl rfl) hb
    rw [if_pos rfl] at hb'
    exact .inr (.inl ((Option.some.inj hc).symm.trans hb'))
  | [i, j] =>
    simp only [node, Option.bind_eq_some_iff] at hc
    obtain ⟨b, hb, d, hd, hc⟩ := hc
    have hb' := hchild _ _ _ (.inl rfl) hb
    rw [if_pos rfl] at hb'
    have hd' := hchild _ _ _ (.inr hb') hd
    rw [hb', if_neg (by decide)] at hd'
    exact .inr (.inr ((Option.some.inj hc).symm.trans hd'))
  | _ :: _ :: _ :: _ => exact absurd hp (by simp only [length_cons]; omega)

/-- Two bytes at the end of the page go to the user and come back. Three do not fit. -/
theorem user_copies_firstPage :
    (∃ m', copyout (firstPage 0x80004000#64) 0x80001000#64 4094#64 [7, 0] = .ok (true, m')) ∧
    copyin (firstPage 0x80004000#64) 0x80001000#64 4094#64 3#64 = .ok (false, [0, 0]) := by
  have hframe : ∀ a g, frameOf (firstPage 0x80004000#64) 0x80001000#64 a = some g →
      g = 0x80004000#64 := fun a g h => by
    rw [frameOf_firstPage h]
    decide
  have hframes : Frames (firstPage 0x80004000#64) 0x80001000#64 := fun a h => by
    have := hframe a _ h
    revert this
    decide
  have hclear : Clear (firstPage 0x80004000#64) 0x80001000#64 := fun a g p hg hp hn => by
    have hn' := node_firstPage hp hn
    rw [hframe a g hg] at hn'
    revert hn'
    decide
  obtain ⟨ok, m', k, hout, hall, -⟩ := (user_copies hframes 4094#64 3#64 0#64 [7, 0]).2.2 hclear
  have hmapped : Allowed (firstPage 0x80004000#64) 0x80001000#64 4094 2 := by
    unfold Allowed
    decide +kernel
  refine ⟨⟨m', ?_⟩, by decide +kernel⟩
  rw [hout, hall.mpr hmapped]

/-- The first page is there for the user, but `walkaddr` answers `0` for it. -/
theorem page_zero_refused : Allowed (firstPage 0#64) 0x80001000#64 0 1 ∧
      copyin (firstPage 0#64) 0x80001000#64 0#64 1#64 = .ok (false, []) := by
  constructor
  · unfold Allowed
    decide +kernel
  · decide +kernel

end Functions

end Xv6.Vm
