import Xv6.Core.Shared
import Mathlib.Algebra.BigOperators.Group.Finset.Piecewise
import Mathlib.Algebra.Order.BigOperators.Group.Finset
import Mathlib.Data.Fintype.BigOperators

/-!
# Writes Through a Shared Descriptor

What is in the file at any moment is what the processes wrote, one chunk after the other, in the
order in which they held the lock.

## Theorems

* `Shared.shared_writes`
-/

namespace Xv6.Shared

open Function (comp update update_of_ne update_self)

/-! ### The bytes of a file -/

/-- Byte `k` of a file. -/
def Inode.byteAt (ip : Inode) (k : Nat) : UInt8 := (ip.block (k / BSIZE)).byte (k % BSIZE)

/-- The contents of a file. -/
def Inode.bytes (ip : Inode) : List UInt8 := (List.range ip.size).map ip.byteAt

theorem Inode.length_bytes (ip : Inode) : ip.bytes.length = ip.size := by
  simp [bytes]

theorem getD_take_drop (l : List UInt8) {tot m j : Nat} (hj : j < m) :
    ((l.drop tot).take m).getD j 0 = l.getD (tot + j) 0 := by
  rw [List.getD_eq_getElem?_getD, List.getD_eq_getElem?_getD, List.getElem?_take, if_pos hj,
    List.getElem?_drop]

theorem byteAt_blit (ip : Inode) (src : List UInt8) {tot off m : Nat} (hm : m ≤ 1024 - off % 1024)
    (hsrc : tot + m ≤ src.length) (k : Nat) :
    Inode.byteAt { ip with
        block := update ip.block (off / BSIZE)
          ((ip.block (off / BSIZE)).blit (off % BSIZE) ((src.drop tot).take m)) } k =
      if off ≤ k ∧ k < off + m then src.getD (tot + (k - off)) 0 else ip.byteAt k := by
  have hlen : ((src.drop tot).take m).length = m := by
    rw [List.length_take, List.length_drop]
    omega
  have hlt : k % 1024 < 1024 := Nat.mod_lt _ (by decide)
  unfold Inode.byteAt
  dsimp only
  simp only [BSIZE] at *
  by_cases hsame : k / 1024 = off / 1024
  · rw [hsame, update_self, Block.byte_blit hlt, hlen]
    by_cases hin : off ≤ k ∧ k < off + m
    · rw [if_pos hin, if_pos (by omega), getD_take_drop _ (by omega)]
      congr 1
      omega
    · rw [if_neg hin, if_neg (by omega)]
  · rw [update_of_ne hsame, if_neg (by omega)]

/-- The piece of a transfer that is in one block. -/
theorem chunk {n tot off : Nat} (hlt : tot < n) (hmax : off + (n - tot) ≤ MAXFILE * BSIZE) :
    off / BSIZE < MAXFILE ∧ ∃ m, m = min (n - tot) (BSIZE - off % BSIZE) ∧ 0 < m ∧
      m ≤ n - tot ∧ m ≤ 1024 - off % 1024 := by
  simp only [BSIZE, MAXFILE, NDIRECT, NINDIRECT] at hmax ⊢
  exact ⟨by omega, _, rfl, by omega, by omega, by omega⟩

theorem writeiFrom_ok (src : List UInt8) (n : Nat) (hsrc : n ≤ src.length) :
    ∀ (fuel tot off : Nat) (ip : Inode), n - tot ≤ fuel → tot ≤ n →
      off + (n - tot) ≤ MAXFILE * BSIZE →
      ∃ ip', writeiFrom src n fuel tot off ip = some (n, off + (n - tot), ip') ∧
        ip'.size = ip.size ∧ ∀ k, ip'.byteAt k =
          if off ≤ k ∧ k < off + (n - tot) then src.getD (tot + (k - off)) 0 else ip.byteAt k := by
  intro fuel
  induction fuel with
  | zero =>
    intro tot off ip hfuel htot _
    obtain rfl : tot = n := by omega
    refine ⟨ip, by rw [writeiFrom, Nat.sub_self, Nat.add_zero], rfl, fun k => ?_⟩
    rw [if_neg (by omega)]
  | succ fuel ih =>
    intro tot off ip hfuel htot hmax
    rw [writeiFrom]
    by_cases hlt : tot < n
    · obtain ⟨hrange, m, hm, hmpos⟩ := chunk hlt hmax
      rw [if_pos hlt, bmap, if_pos hrange]
      dsimp only
      rw [← hm]
      obtain ⟨ip', hrun, hsize, hbytes⟩ := ih (tot + m) (off + m)
        { ip with
          block := update ip.block (off / BSIZE)
            ((ip.block (off / BSIZE)).blit (off % BSIZE) ((src.drop tot).take m)) }
        (by omega) (by omega) (by omega)
      refine ⟨ip', ?_, hsize, fun k => ?_⟩
      · rw [hrun, show off + m + (n - (tot + m)) = off + (n - tot) by omega]
      · rw [hbytes, byteAt_blit ip src hmpos.2.2 (by omega)]
        by_cases hlow : off ≤ k ∧ k < off + m
        · rw [if_neg (by omega), if_pos hlow, if_pos (by omega)]
        · by_cases hhigh : off + m ≤ k ∧ k < off + m + (n - (tot + m))
          · rw [if_pos hhigh, if_pos (by omega)]
            congr 1
            omega
          · rw [if_neg hhigh, if_neg hlow, if_neg (by omega)]
    · grind

theorem writei_append (ip : Inode) (src : List UInt8) {n : Nat} (hsrc : n ≤ src.length)
    (hfit : ip.size + n ≤ MAXFILE * BSIZE) :
    ∃ ip', writei ip src ip.size n = some ((n : Int), ip') ∧
      ip'.bytes = ip.bytes ++ src.take n := by
  have hmax : ip.size + n < 2 ^ 32 := by
    simp only [BSIZE, MAXFILE, NDIRECT, NINDIRECT] at hfit
    omega
  obtain ⟨ip', hrun, hsize, hbytes⟩ :=
    writeiFrom_ok src n hsrc n 0 ip.size ip (by omega) (Nat.zero_le n) (by omega)
  rw [Nat.sub_zero] at hrun hbytes
  have hfinal : (if ip'.size < ip.size + n then ip.size + n else ip'.size) = ip.size + n := by
    rw [hsize]
    split_ifs <;> omega
  refine ⟨{ ip' with size := ip.size + n }, ?_, ?_⟩
  · rw [writei, if_neg (by rw [Nat.mod_eq_of_lt hmax]; omega), if_neg (by omega), hrun]
    dsimp only
    rw [hfinal]
  · change (List.range (ip.size + n)).map ip'.byteAt = _
    rw [List.range_add, List.map_append, List.map_map]
    congr 1
    · refine List.map_congr_left fun k hk => ?_
      rw [hbytes, if_neg (by have := List.mem_range.mp hk; omega)]
    · refine List.ext_getElem (by simp [hsrc]) fun j hj _ => ?_
      have hjn : j < n := by simpa using hj
      rw [List.getElem_map, List.getElem_range, comp, hbytes, if_pos (by omega),
        List.getElem_take, Nat.zero_add, Nat.add_sub_cancel_left,
        List.getD_eq_getElem _ _ (by omega)]

theorem readiFrom_ok (ip : Inode) (n : Nat) :
    ∀ (fuel tot off : Nat) (out : List UInt8), n - tot ≤ fuel → tot ≤ n →
      off + (n - tot) ≤ MAXFILE * BSIZE → readiFrom ip n fuel tot off out =
        some (n, out ++ (List.range (n - tot)).map fun j => ip.byteAt (off + j)) := by
  intro fuel
  induction fuel with
  | zero =>
    intro tot off out hfuel htot _
    obtain rfl : tot = n := by omega
    simp [readiFrom]
  | succ fuel ih =>
    intro tot off out hfuel htot hmax
    rw [readiFrom]
    by_cases hlt : tot < n
    · obtain ⟨hrange, m, hm, hmpos⟩ := chunk hlt hmax
      rw [if_pos hlt, bmap, if_pos hrange]
      dsimp only
      rw [← hm, ih (tot + m) (off + m) _ (by omega) (by omega) (by omega), List.append_assoc]
      congr 3
      rw [show n - tot = m + (n - (tot + m)) by omega, List.range_add, List.map_append,
        List.map_map]
      congr 1
      · -- the bytes of one block
        refine List.map_congr_left fun j hj => ?_
        have hjm := List.mem_range.mp hj
        unfold Inode.byteAt
        simp only [BSIZE] at *
        rw [show (off + j) / 1024 = off / 1024 by omega,
          show (off + j) % 1024 = off % 1024 + j by omega]
      · refine List.map_congr_left fun j _ => ?_
        rw [comp, Nat.add_assoc]
    · obtain rfl : tot = n := by omega
      rw [if_neg hlt]
      simp

theorem readi_ok (ip : Inode) (off n : Nat) (hfit : ip.size ≤ MAXFILE * BSIZE) :
    ∃ k, readi ip off n = some (k, (ip.bytes.drop off).take k) ∧ k ≤ ip.size - off ∧
      (off + n < 2 ^ 32 → k = min n (ip.size - off)) := by
  rw [readi]
  by_cases hnone : ip.size < off ∨ (off + n) % 2 ^ 32 < off
  · rw [if_pos hnone]
    refine ⟨0, by simp, Nat.zero_le _, fun hlt => ?_⟩
    rw [Nat.mod_eq_of_lt hlt] at hnone
    omega
  · rw [if_neg hnone]
    obtain ⟨k, hk⟩ : ∃ k, k = (if ip.size < off + n then ip.size - off else n) := ⟨_, rfl⟩
    have hle : k ≤ ip.size - off ∧ k = min n (ip.size - off) := by
      split_ifs at hk <;> omega
    dsimp only
    rw [← hk]
    refine ⟨k, ?_, hle.1, fun _ => hle.2⟩
    rw [readiFrom_ok ip k k 0 off [] (by omega) (Nat.zero_le k) (by omega), List.nil_append,
      Nat.sub_zero]
    congr 2
    refine List.ext_getElem (by simp [Inode.length_bytes]; omega) fun j hj _ => ?_
    simp [Inode.bytes]

/-! ### The machine -/

section

variable {P : Type} [DecidableEq P]

/-- What went into the file. -/
def content (chunks : List (P × List UInt8)) : List UInt8 := (chunks.map Prod.snd).flatten

/-- What `p` has put into the file. -/
def own (p : P) (chunks : List (P × List UInt8)) : List UInt8 :=
  content (chunks.filter fun c => c.1 = p)

omit [DecidableEq P] in
theorem content_append (xs ys : List (P × List UInt8)) :
    content (xs ++ ys) = content xs ++ content ys := by
  simp [content]

theorem own_append_self (p : P) (chunks : List (P × List UInt8)) (l : List UInt8) :
    own p (chunks ++ [(p, l)]) = own p chunks ++ l := by
  simp [own, content]

variable {p : P} {s t : Sys P}

theorem own_append_ne {q : P} (h : p ≠ q) (chunks : List (P × List UInt8)) (l : List UInt8) :
    own q (chunks ++ [(p, l)]) = own q chunks := by
  simp [own, h]

theorem length_content [Fintype P] (chunks : List (P × List UInt8)) :
    (content chunks).length = ∑ p, (own p chunks).length := by
  induction chunks using List.reverseRecOn with
  | nil => simp [content, own]
  | append_singleton chunks c ih =>
    obtain ⟨q, l⟩ := c
    have hterm : ∀ p, (own p (chunks ++ [(q, l)])).length =
        (own p chunks).length + if p = q then l.length else 0 := by
      intro p
      by_cases hp : p = q
      · rw [hp, own_append_self, List.length_append, if_pos rfl]
      · rw [own_append_ne (Ne.symm hp), if_neg hp, Nat.add_zero]
    rw [content_append, List.length_append, ih, Finset.sum_congr rfl fun p _ => hterm p,
      Finset.sum_add_distrib, Finset.sum_ite_eq' Finset.univ q, if_pos (Finset.mem_univ q)]
    simp [content]

/-- A process holds the lock. -/
def Pc.holds : Pc → Bool
  | .locked _ _ | .wrote _ _ _ | .moved _ _ _ | .fetching _ | .fetched _ _ | .advanced _ _ => true
  | _ => false

/-- What a call of `filewrite` has not written yet. -/
def Pc.todo : Pc → List UInt8
  | .loop buf i | .begun buf i | .locked buf i => buf.drop i
  | .wrote buf i _ | .moved buf i _ | .released buf i _ => buf.drop (i + n1 buf i)
  | _ => []

/-- By how much the offset lags behind. -/
def Pc.owed : Pc → Nat
  | .wrote buf i _ => n1 buf i
  | _ => 0

/-- What a process knows: it has bytes left to write when it goes for the lock, and `writei`
    wrote all it was given. -/
def Pc.Fine : Pc → Prop
  | .loop buf i => i ≤ buf.length
  | .begun buf i | .locked buf i => i < buf.length
  | .wrote buf i r | .moved buf i r | .released buf i r => i < buf.length ∧ r = n1 buf i
  | _ => True

/-- The invariant of the machine. -/
structure Inv (s : Sys P) : Prop where
  lock : ∀ p, (s.pc p).holds = true ↔ s.lock = some p
  fine : ∀ p, (s.pc p).Fine
  bytes : s.ip.bytes = content s.chunks
  off : s.off + (s.lock.elim 0 fun p => (s.pc p).owed) = (content s.chunks).length
  asked : ∀ p, s.asked p = own p s.chunks ++ (s.pc p).todo
  chunks : ∀ c ∈ s.chunks, 0 < c.2.length ∧ c.2.length ≤ MAX
  rets : ∀ x ∈ s.rets, x.2 = x.1

theorem inv_init (block : Nat → Block) (pos : P → Nat) : Inv (Sys.init block pos) := by
  refine ⟨fun p => ?_, fun p => trivial, rfl, rfl, fun p => rfl, ?_, ?_⟩
  · simp [Sys.init, Pc.holds]
  · exact fun c hc => absurd hc List.not_mem_nil
  · exact fun x hx => absurd hx List.not_mem_nil

theorem n1_le (buf : List UInt8) (i : Nat) : n1 buf i ≤ buf.length - i ∧ n1 buf i ≤ MAX := by
  unfold n1
  split_ifs <;> omega

theorem n1_pos {buf : List UInt8} {i : Nat} (h : i < buf.length) : 0 < n1 buf i := by
  unfold n1
  split_ifs
  · decide
  · omega

theorem Inv.room [Fintype P] (hi : Inv s)
    (hmax : ∑ p, (s.asked p).length ≤ MAXFILE * BSIZE) (p : P) :
    (content s.chunks).length + (s.pc p).todo.length ≤ MAXFILE * BSIZE := by
  have hsum : ∑ q, (s.asked q).length =
      ∑ q, (own q s.chunks).length + ∑ q, (s.pc q).todo.length := by
    rw [← Finset.sum_add_distrib]
    refine Finset.sum_congr rfl fun q _ => ?_
    rw [hi.asked q, List.length_append]
  have hone : (s.pc p).todo.length ≤ ∑ q, (s.pc q).todo.length :=
    Finset.single_le_sum (f := fun q => (s.pc q).todo.length) (fun _ _ => Nat.zero_le _)
      (Finset.mem_univ p)
  rw [length_content]
  omega

section Goto

variable {s : Sys P} {p : P} {c : Pc}

theorem goto_self : (s.goto p c).pc p = c := update_self ..

variable {q : P} {buf : List UInt8} {i : Nat}

theorem goto_ne (h : q ≠ p) : (s.goto p c).pc q = s.pc q := update_of_ne h ..

theorem Inv.goto (hi : Inv s) (hholds : c.holds = (s.pc p).holds) (hfine : c.Fine)
    (htodo : c.todo = (s.pc p).todo) (howed : c.owed = (s.pc p).owed) : Inv (s.goto p c) := by
  refine ⟨fun q => ?_, fun q => ?_, hi.bytes, ?_, fun q => ?_, hi.chunks, hi.rets⟩
  · by_cases hq : q = p
    · rw [hq, goto_self, hholds]
      exact hi.lock p
    · rw [goto_ne hq]
      exact hi.lock q
  · by_cases hq : q = p
    · rw [hq, goto_self]
      exact hfine
    · rw [goto_ne hq]
      exact hi.fine q
  · have hsame : ∀ q, ((s.goto p c).pc q).owed = (s.pc q).owed := by
      intro q
      by_cases hq : q = p
      · rw [hq, goto_self, howed]
      · rw [goto_ne hq]
    change s.off + s.lock.elim 0 _ = _
    simp only [hsame]
    exact hi.off
  · by_cases hq : q = p
    · rw [hq, goto_self, htodo]
      exact hi.asked p
    · rw [goto_ne hq]
      exact hi.asked q

theorem Inv.others (hi : Inv s) (hp : s.lock = some p) (hq : q ≠ p) :
    (s.pc q).holds = false := by
  rw [Bool.eq_false_iff]
  intro hholds
  have := (hi.lock q).mp hholds
  rw [hp] at this
  exact hq (Option.some.inj this).symm

theorem Inv.acquire {t : Sys P} (hi : Inv s) (hstep : s.ilock p c = .ok t)
    (hin : c.holds = true) (hfine : c.Fine) (htodo : c.todo = (s.pc p).todo)
    (howed : c.owed = 0) : Inv t := by
  unfold Sys.ilock at hstep
  cases hlock : s.lock with
  | some q => rw [hlock] at hstep; cases hstep
  | none =>
    rw [hlock] at hstep
    cases hstep
    have hfree : ∀ q, (s.pc q).holds = false := by
      intro q
      rw [Bool.eq_false_iff, ne_eq, hi.lock q, hlock]
      exact fun h => nomatch h
    refine ⟨fun q => ?_, fun q => ?_, hi.bytes, ?_, fun q => ?_, hi.chunks, hi.rets⟩
    · change ((s.goto p c).pc q).holds = true ↔ some p = some q
      by_cases hq : q = p
      · rw [hq, goto_self]
        simp [hin]
      · rw [goto_ne hq, hfree q]
        simp [Ne.symm hq]
    · change ((s.goto p c).pc q).Fine
      by_cases hq : q = p
      · rw [hq, goto_self]
        exact hfine
      · rw [goto_ne hq]
        exact hi.fine q
    · have hoff := hi.off
      rw [hlock] at hoff
      change s.off + ((s.goto p c).pc p).owed = _
      rw [goto_self, howed]
      exact hoff
    · change s.asked q = own q s.chunks ++ ((s.goto p c).pc q).todo
      by_cases hq : q = p
      · rw [hq, goto_self, htodo]
        exact hi.asked p
      · rw [goto_ne hq]
        exact hi.asked q

theorem Inv.release (hi : Inv s) (hin : (s.pc p).holds = true) (hzero : (s.pc p).owed = 0)
    (hout : c.holds = false) (hfine : c.Fine) (htodo : c.todo = (s.pc p).todo) :
    Inv { s.goto p c with lock := none } := by
  have hlock := (hi.lock p).mp hin
  refine ⟨fun q => ?_, fun q => ?_, hi.bytes, ?_, fun q => ?_, hi.chunks, hi.rets⟩
  · change ((s.goto p c).pc q).holds = true ↔ none = some q
    by_cases hq : q = p
    · rw [hq, goto_self, hout]
      simp
    · rw [goto_ne hq, hi.others hlock hq]
      simp
  · change ((s.goto p c).pc q).Fine
    by_cases hq : q = p
    · rw [hq, goto_self]
      exact hfine
    · rw [goto_ne hq]
      exact hi.fine q
  · have hoff := hi.off
    rw [hlock] at hoff
    change s.off + (s.pc p).owed = _ at hoff
    rw [hzero] at hoff
    exact hoff
  · change s.asked q = own q s.chunks ++ ((s.goto p c).pc q).todo
    by_cases hq : q = p
    · rw [hq, goto_self, htodo]
      exact hi.asked p
    · rw [goto_ne hq]
      exact hi.asked q

theorem Inv.finish (hi : Inv s) (hpc : s.pc p = .loop buf i)
    (hend : ¬ i < buf.length) : Inv (s.finish p buf i) := by
  have hle : i ≤ buf.length := by
    have := hi.fine p
    rwa [hpc] at this
  obtain rfl : i = buf.length := by omega
  have hgo : Inv (s.goto p .user) := by
    refine hi.goto ?_ trivial ?_ ?_ <;> rw [hpc]
    · rfl
    · exact (List.drop_length).symm
    · rfl
  refine ⟨hgo.lock, hgo.fine, hgo.bytes, hgo.off, hgo.asked, hgo.chunks, ?_⟩
  intro x hx
  rcases List.mem_append.mp hx with hx | hx
  · exact hi.rets x hx
  · rw [List.mem_singleton.mp hx]
    exact if_pos rfl

theorem Inv.write (hi : Inv s) (hpc : s.pc p = .user) (buf : List UInt8) :
    Inv { s.goto p (.loop buf 0) with
      asked := update s.asked p (s.asked p ++ buf) } := by
  refine ⟨fun q => ?_, fun q => ?_, hi.bytes, ?_, fun q => ?_, hi.chunks, hi.rets⟩
  · change ((s.goto p _).pc q).holds = true ↔ s.lock = some q
    by_cases hq : q = p
    · rw [hq, goto_self, ← hi.lock p, hpc]
      rfl
    · rw [goto_ne hq]
      exact hi.lock q
  · change ((s.goto p _).pc q).Fine
    by_cases hq : q = p
    · rw [hq, goto_self]
      exact Nat.zero_le _
    · rw [goto_ne hq]
      exact hi.fine q
  · have hsame : ∀ q, ((s.goto p (.loop buf 0)).pc q).owed = (s.pc q).owed := by
      intro q
      by_cases hq : q = p
      · rw [hq, goto_self, hpc]
        rfl
      · rw [goto_ne hq]
    change s.off + s.lock.elim 0 _ = _
    simp only [hsame]
    exact hi.off
  · change update s.asked p _ q = own q s.chunks ++ ((s.goto p _).pc q).todo
    by_cases hq : q = p
    · rw [hq, goto_self, update_self, hi.asked p, hpc, List.append_assoc]
      rfl
    · rw [goto_ne hq, update_of_ne hq]
      exact hi.asked q

theorem Inv.move {r : Int} (hi : Inv s)
    (hpc : s.pc p = .wrote buf i r) (hfit : (content s.chunks).length < 2 ^ 32) :
    Inv { s.goto p (.moved buf i r) with
      off := if 0 < r then (s.off + r.toNat) % 2 ^ 32 else s.off } := by
  have hlock : s.lock = some p := (hi.lock p).mp (by rw [hpc]; rfl)
  obtain ⟨hlt, hr⟩ : i < buf.length ∧ r = n1 buf i := by
    have := hi.fine p
    rwa [hpc] at this
  have hpos := n1_pos hlt
  have hoff := hi.off
  rw [hlock] at hoff
  change s.off + (s.pc p).owed = _ at hoff
  rw [hpc] at hoff
  change s.off + n1 buf i = _ at hoff
  refine ⟨fun q => ?_, fun q => ?_, hi.bytes, ?_, fun q => ?_, hi.chunks, hi.rets⟩
  · change ((s.goto p _).pc q).holds = true ↔ s.lock = some q
    by_cases hq : q = p
    · rw [hq, goto_self, hlock]
      simp [Pc.holds]
    · rw [goto_ne hq]
      exact hi.lock q
  · change ((s.goto p _).pc q).Fine
    by_cases hq : q = p
    · rw [hq, goto_self]
      exact ⟨hlt, hr⟩
    · rw [goto_ne hq]
      exact hi.fine q
  · change (if 0 < r then (s.off + r.toNat) % 2 ^ 32 else s.off) +
      s.lock.elim 0 (fun q => ((s.goto p _).pc q).owed) = _
    rw [hlock, if_pos (by omega), show r.toNat = n1 buf i by omega, hoff, Nat.mod_eq_of_lt hfit]
    change (content s.chunks).length + ((s.goto p _).pc p).owed = _
    rw [goto_self]
    rfl
  · change s.asked q = own q s.chunks ++ ((s.goto p _).pc q).todo
    by_cases hq : q = p
    · rw [hq, goto_self, hi.asked p, hpc]
      rfl
    · rw [goto_ne hq]
      exact hi.asked q

theorem Inv.writei [Fintype P] (hi : Inv s)
    (hmax : ∑ p, (s.asked p).length ≤ MAXFILE * BSIZE) (hpc : s.pc p = .locked buf i) :
    ∃ ip', Shared.writei s.ip (buf.drop i) s.off (n1 buf i) = some ((n1 buf i : Int), ip') ∧
      Inv { s.goto p (.wrote buf i (n1 buf i)) with
        ip := ip'
        chunks := s.chunks ++ [(p, (buf.drop i).take (n1 buf i : Int).toNat)] } := by
  have hlock : s.lock = some p := (hi.lock p).mp (by rw [hpc]; rfl)
  have hlt : i < buf.length := by
    have := hi.fine p
    rwa [hpc] at this
  have hn := n1_le buf i
  have hoff : s.off = s.ip.size := by
    have := hi.off
    rw [hlock] at this
    change s.off + (s.pc p).owed = _ at this
    rw [hpc, ← hi.bytes, Inode.length_bytes] at this
    exact this
  have hroom := hi.room hmax p
  rw [← hi.bytes, Inode.length_bytes, hpc] at hroom
  change s.ip.size + (buf.drop i).length ≤ _ at hroom
  rw [List.length_drop] at hroom
  obtain ⟨ip', hrun, hbytes⟩ := writei_append s.ip (buf.drop i) (n := n1 buf i)
    (by rw [List.length_drop]; exact hn.1) (by omega)
  have hlen : ((buf.drop i).take (n1 buf i)).length = n1 buf i := by
    rw [List.length_take, List.length_drop]
    omega
  refine ⟨ip', by rw [hoff]; exact hrun, fun q => ?_, fun q => ?_, ?_, ?_, fun q => ?_, ?_, hi.rets⟩
  · change ((s.goto p _).pc q).holds = true ↔ s.lock = some q
    by_cases hq : q = p
    · rw [hq, goto_self, hlock]
      simp [Pc.holds]
    · rw [goto_ne hq]
      exact hi.lock q
  · change ((s.goto p _).pc q).Fine
    by_cases hq : q = p
    · rw [hq, goto_self]
      exact ⟨hlt, rfl⟩
    · rw [goto_ne hq]
      exact hi.fine q
  · change ip'.bytes = content (s.chunks ++ _)
    rw [hbytes, content_append, hi.bytes, Int.toNat_natCast]
    simp [content]
  · change s.off + s.lock.elim 0 (fun q => ((s.goto p _).pc q).owed) =
      (content (s.chunks ++ _)).length
    rw [hlock, content_append, List.length_append, ← hi.bytes, Inode.length_bytes, hoff,
      Int.toNat_natCast]
    change s.ip.size + ((s.goto p _).pc p).owed = _
    rw [goto_self]
    change s.ip.size + n1 buf i = s.ip.size + (content [(p, _)]).length
    simp [content, hlen]
  · change s.asked q = own q (s.chunks ++ _) ++ ((s.goto p _).pc q).todo
    by_cases hq : q = p
    · rw [hq, goto_self, own_append_self, hi.asked p, hpc, Int.toNat_natCast, List.append_assoc]
      change _ ++ buf.drop i = _ ++ ((buf.drop i).take (n1 buf i) ++ buf.drop (i + n1 buf i))
      rw [← List.drop_drop, List.take_append_drop]
    · rw [goto_ne hq, own_append_ne (Ne.symm hq)]
      exact hi.asked q
  · intro c hc
    rcases List.mem_append.mp hc with hc | hc
    · exact hi.chunks c hc
    · rw [List.mem_singleton.mp hc]
      dsimp only
      rw [Int.toNat_natCast, hlen]
      exact ⟨n1_pos hlt, hn.2⟩

end Goto

/-- A step of one process, while what was asked for fits into a file: it does not panic, and
    keeps the invariant. -/
theorem Inv.run [Fintype P] (hi : Inv s)
    (hmax : ∑ p, (s.asked p).length ≤ MAXFILE * BSIZE) (p : P) :
    s.run p = .error .wait ∨ ∃ t, s.run p = .ok t ∧ Inv t := by
  have hfine := hi.fine p
  have hfit : s.ip.size ≤ MAXFILE * BSIZE := by
    have := hi.room hmax p
    rw [← hi.bytes, Inode.length_bytes] at this
    omega
  have htake : ∀ c, s.ilock p c = .error .wait ∨ ∃ t, s.ilock p c = .ok t := by
    intro c
    unfold Sys.ilock
    cases s.lock with
    | none => exact .inr ⟨_, rfl⟩
    | some q => exact .inl rfl
  unfold Sys.run
  cases hpc : s.pc p with
  | user => exact .inl rfl
  | loop buf i =>
    dsimp only
    split_ifs with hlt
    · refine .inr ⟨_, rfl, hi.goto ?_ hlt ?_ ?_⟩ <;> rw [hpc] <;> rfl
    · exact .inr ⟨_, rfl, hi.finish hpc hlt⟩
  | begun buf i =>
    rw [hpc] at hfine
    rcases htake (.locked buf i) with hwait | ⟨t, ht⟩
    · exact .inl hwait
    · exact .inr ⟨t, ht, hi.acquire ht rfl hfine (by rw [hpc]; rfl) rfl⟩
  | locked buf i =>
    obtain ⟨ip', hrun, hinv⟩ := hi.writei hmax hpc
    right
    dsimp only
    rw [hrun]
    exact ⟨_, rfl, hinv⟩
  | wrote buf i r =>
    refine .inr ⟨_, rfl, hi.move hpc ?_⟩
    rw [← hi.bytes, Inode.length_bytes]
    simp only [BSIZE, MAXFILE, NDIRECT, NINDIRECT] at hfit
    omega
  | moved buf i r =>
    rw [hpc] at hfine
    refine .inr ⟨_, rfl, hi.release ?_ ?_ rfl hfine ?_⟩ <;> rw [hpc] <;> rfl
  | released buf i r =>
    rw [hpc] at hfine
    obtain ⟨hlt, hr⟩ := hfine
    have hn := n1_le buf i
    dsimp only
    rw [if_neg (not_not.mpr hr), show r.toNat = n1 buf i by omega]
    refine .inr ⟨_, rfl, hi.goto ?_ ?_ ?_ ?_⟩
    · rw [hpc]; rfl
    · change i + n1 buf i ≤ buf.length
      omega
    · rw [hpc]; rfl
    · rw [hpc]; rfl
  | fetch n =>
    rcases htake (.fetching n) with hwait | ⟨t, ht⟩
    · exact .inl hwait
    · exact .inr ⟨t, ht, hi.acquire ht rfl trivial (by rw [hpc]; rfl) rfl⟩
  | fetching n =>
    obtain ⟨k, hread, -⟩ := readi_ok s.ip (s.pos p) n hfit
    right
    dsimp only
    rw [hread]
    refine ⟨_, rfl, hi.goto ?_ trivial ?_ ?_⟩ <;> rw [hpc] <;> rfl
  | fetched out r =>
    have hgo : Inv (s.goto p (.advanced out r)) := by
      refine hi.goto ?_ trivial ?_ ?_ <;> rw [hpc] <;> rfl
    exact .inr ⟨_, rfl, hgo.lock, hgo.fine, hgo.bytes, hgo.off, hgo.asked, hgo.chunks, hgo.rets⟩
  | advanced out r =>
    refine .inr ⟨_, rfl, hi.release ?_ ?_ rfl trivial ?_⟩ <;> rw [hpc] <;> rfl

theorem Inv.step [Fintype P] (hi : Inv s)
    (hmax : ∑ p, (s.asked p).length ≤ MAXFILE * BSIZE) (a : Act P) :
    Shared.step s a = .error .wait ∨ ∃ t, Shared.step s a = .ok t ∧ Inv t := by
  cases a with
  | run p => exact hi.run hmax p
  | write p buf =>
    unfold Shared.step
    dsimp only
    cases hpc : s.pc p with
    | user => exact .inr ⟨_, rfl, hi.write hpc buf⟩
    | _ => exact .inl rfl
  | read p n =>
    unfold Shared.step
    dsimp only
    cases hpc : s.pc p with
    | user =>
      refine .inr ⟨_, rfl, hi.goto ?_ trivial ?_ ?_⟩ <;> rw [hpc] <;> rfl
    | _ => exact .inl rfl

theorem asked_ilock {c : Pc} (h : s.ilock p c = .ok t) :
    t.asked = s.asked := by
  unfold Sys.ilock at h
  split at h <;> cases h
  rfl

theorem asked_run (h : s.run p = .ok t) : t.asked = s.asked := by
  unfold Sys.run at h
  cases hpc : s.pc p with
  | begun buf i | fetch n =>
    rw [hpc] at h
    exact asked_ilock h
  | locked buf i =>
    rw [hpc] at h
    cases hw : writei s.ip (buf.drop i) s.off (n1 buf i) with
    | none => simp only [hw] at h; cases h
    | some x => simp only [hw] at h; cases h; rfl
  | fetching n =>
    rw [hpc] at h
    cases hr : readi s.ip (s.pos p) n with
    | none => simp only [hr] at h; cases h
    | some x => simp only [hr] at h; cases h; rfl
  | loop buf i | released buf i r =>
    rw [hpc] at h
    dsimp only at h
    split_ifs at h <;> cases h <;> rfl
  | _ =>
    rw [hpc] at h
    cases h
    try rfl

theorem asked_le {a : Act P} (h : step s a = .ok t) (p : P) :
    (s.asked p).length ≤ (t.asked p).length := by
  cases a with
  | write q buf =>
    dsimp only [step] at h
    split at h
    · cases h
      change _ ≤ (update s.asked q _ p).length
      by_cases hp : p = q
      · rw [hp, update_self, List.length_append]
        omega
      · rw [update_of_ne hp]
    · cases h
  | read q n =>
    dsimp only [step] at h
    split at h
    · cases h
      exact Nat.le_refl _
    · cases h
  | run q =>
    rw [asked_run h]

theorem Reach.inv [Fintype P] (hr : Reach s)
    (hmax : ∑ p, (s.asked p).length ≤ MAXFILE * BSIZE) : Inv s := by
  induction hr with
  | init block pos => exact inv_init block pos
  | step a _ hstep ih =>
    have hle := Finset.sum_le_sum fun p (_ : p ∈ Finset.univ) => asked_le hstep p
    have hi := ih (Nat.le_trans hle hmax)
    rcases hi.step (Nat.le_trans hle hmax) a with hwait | ⟨t, ht, hinv⟩
    · rw [hwait] at hstep
      cases hstep
    · rw [ht] at hstep
      cases hstep
      exact hinv

theorem Reach.steps {as : List (Act P)} (hr : Reach s)
    (hs : Shared.steps s as = .ok t) : Reach t := by
  induction as generalizing s with
  | nil =>
    cases hs
    exact hr
  | cons a as ih =>
    rw [Shared.steps] at hs
    split at hs
    · exact ih (.step a hr ‹_›) hs
    · cases hs

/-- Whatever the processes were told to write, as long as it fits into a file, and however they
    take turns: the file is the chunks in the order in which they were written, each of at most
    `MAX` bytes and each put where the one before ended; what a process wrote is in the file in
    its order, all of it once its calls have returned, and they returned what they were asked for;
    the size, and the offset when nobody holds the lock, are the sum of the lengths; and a read
    gives bytes of the file as it is when the reader has the lock. No step panics. -/
theorem shared_writes [Fintype P] {s : Sys P} (hr : Reach s)
    (hmax : ∑ p, (s.asked p).length ≤ MAXFILE * BSIZE) :
    s.ip.bytes = content s.chunks ∧ (∀ c ∈ s.chunks, 0 < c.2.length ∧ c.2.length ≤ MAX) ∧
    (∀ p, ∃ rest, s.asked p = own p s.chunks ++ rest ∧ (s.pc p = .user → rest = [])) ∧
    (∀ x ∈ s.rets, x.2 = x.1) ∧ s.ip.size = (content s.chunks).length ∧
    (s.lock = none → s.off = (content s.chunks).length) ∧
    (∀ p buf i, s.pc p = .locked buf i → s.off = (content s.chunks).length) ∧
    (∀ p n, s.pc p = .fetching n → ∃ k,
      readi s.ip (s.pos p) n = some (k, ((content s.chunks).drop (s.pos p)).take k) ∧
      k ≤ (content s.chunks).length - s.pos p ∧
      (s.pos p + n < 2 ^ 32 → k = min n ((content s.chunks).length - s.pos p))) ∧
    ∀ a, step s a ≠ .error .panic := by
  have hi := hr.inv hmax
  have hsize : s.ip.size = (content s.chunks).length := by
    rw [← hi.bytes, Inode.length_bytes]
  have hoff := hi.off
  refine ⟨hi.bytes, hi.chunks, fun p => ⟨_, hi.asked p, fun hpc => by rw [hpc]; rfl⟩, hi.rets,
    hsize, ?_, ?_, ?_, ?_⟩
  · intro hlock
    rw [hlock] at hoff
    exact hoff
  · intro p buf i hpc
    rw [(hi.lock p).mp (by rw [hpc]; rfl)] at hoff
    change s.off + (s.pc p).owed = _ at hoff
    rw [hpc] at hoff
    exact hoff
  · intro p n _
    rw [← hsize, ← hi.bytes]
    refine readi_ok s.ip (s.pos p) n ?_
    have := hi.room hmax p
    omega
  · grind [hi.step]

end

/-- Two writers and a reader: the second writer waits for the lock while the first one holds it,
    and the reader sees the first chunk only. -/
theorem shared_writes_two :
    ∃ s : Sys Bool, Reach s ∧ content s.chunks = [1, 2, 3] ∧ s.lock = none ∧ s.off = 3 ∧
      s.ip.bytes = [1, 2, 3] := by
  have htest : (match Shared.steps (Sys.init (fun _ => Block.zero) fun _ => 0)
        ([.write true [1, 2], .run true, .write false [3], .run false, .run true, .run true,
          .run true, .run true, .run true, .run true, .read true 10, .run true, .run true,
          .run true, .run true] ++ List.replicate 6 (.run false)) with
      | .ok s => content s.chunks == [1, 2, 3] && s.lock.isNone && s.asked true == [1, 2] &&
          s.asked false == [3]
      | .error _ => false) = true := by decide +kernel
  split at htest
  case h_2 => cases htest
  case h_1 s hs =>
    simp only [Bool.and_eq_true, beq_iff_eq, Option.isNone_iff_eq_none] at htest
    obtain ⟨⟨⟨hcontent, hlock⟩, htrue⟩, hfalse⟩ := htest
    have hr : Reach s := (Reach.init _ _).steps hs
    obtain ⟨hbytes, -, -, -, -, hoff, -⟩ := shared_writes hr (by
      rw [Fintype.sum_bool, htrue, hfalse]
      decide)
    exact ⟨s, hr, hcontent, hlock, by rw [hoff hlock, hcontent]; rfl, by rw [hbytes, hcontent]⟩

end Xv6.Shared
