import Xv6.Core.Pipe
import Xv6.Core.Reads
import Xv6.Theory.Mkfs.Mounted

/-!
# What a Read Stores

A read of `n` bytes should store `n` at most, and say how many it stored. Pipes and the console
count up to `n` as an `int`, and a negative `n` is no bytes. `readi` takes `n` as a `uint`, and a
negative one is more than any file has: it stores all that is left of the file.

## Theorems

* `Reads.read_atMost_iff`
-/

namespace Xv6

open Prog (run_bind_ok)
open Function (update_self update_of_ne)

namespace Reads

/-- A read of `n` bytes stores `n` at most, and says how many it stored or fails. -/
def AtMost (n r : Int) (stored : Nat) : Prop := (stored : Int) ≤ max n 0 ∧ (r = -1 ∨ r = stored)

/-- A byte can be stored there. -/
def Writable (m : UserMem) (va : Nat) : Prop :=
  va / PGSIZE * PGSIZE < MAXVA ∧ m.mapped (va / PGSIZE) = true

instance (m : UserMem) (va : Nat) : Decidable (Writable m va) := instDecidableAnd

theorem span_spec (m : UserMem) (fuel : Nat) : ∀ va len, len ≤ fuel →
    (m.span fuel va len).1 ≤ len ∧ ((m.span fuel va len).2 = true → (m.span fuel va len).1 = len) ∧
      ((m.span fuel va len).2 = false → (m.span fuel va len).1 < len) ∧
      (0 < len → (0 < (m.span fuel va len).1 ↔ Writable m va)) := by
  induction fuel with
  | zero =>
    intro va len hlen
    obtain rfl : len = 0 := by omega
    exact ⟨Nat.le_refl _, fun _ => rfl, nofun, fun h => absurd h (Nat.lt_irrefl 0)⟩
  | succ fuel ih =>
    intro va len hlen
    rw [UserMem.span]
    by_cases hz : len = 0
    · rw [if_pos hz]
      exact ⟨Nat.zero_le _, fun _ => hz.symm, nofun, fun h => absurd hz (Nat.ne_of_gt h)⟩
    rw [if_neg hz]
    by_cases hbad : MAXVA ≤ va / PGSIZE * PGSIZE ∨ m.mapped (va / PGSIZE) = false
    · rw [if_pos hbad]
      refine ⟨Nat.zero_le _, nofun, fun _ => Nat.pos_of_ne_zero hz, fun _ =>
        iff_of_false (Nat.lt_irrefl 0) fun hw => ?_⟩
      rcases hbad with hbad | hbad
      · exact absurd hw.1 (Nat.not_lt.2 hbad)
      · rw [hw.2] at hbad
        cases hbad
    · rw [if_neg hbad]
      rw [not_or, Nat.not_le, Bool.not_eq_false] at hbad
      have hmod := Nat.mod_lt va (show 0 < PGSIZE by decide)
      obtain ⟨k, hk⟩ : ∃ k, k = min (PGSIZE - va % PGSIZE) len := ⟨_, rfl⟩
      obtain ⟨hle, hall, hstop, -⟩ := ih (va / PGSIZE * PGSIZE + PGSIZE) (len - k) (by omega)
      rw [← hk]
      refine ⟨?_, fun ht => ?_, fun hf => ?_, fun _ => iff_of_true ?_ hbad⟩
      · dsimp only
        omega
      · have := hall ht
        dsimp only
        omega
      · have := hstop hf
        dsimp only
        omega
      · dsimp only
        omega

/-- What a copy stores: all of it if it goes through, and at least a byte if there is a byte that
    can be stored. -/
theorem copyout_spec (m : UserMem) (addr tot : Nat) (l : List UInt8) :
    ((eitherCopyout (.user m addr) tot l).2 = true →
      (eitherCopyout (.user m addr) tot l).1.length = l.length) ∧
    ((eitherCopyout (.user m addr) tot l).2 = false →
      (eitherCopyout (.user m addr) tot l).1.length < l.length) ∧
    (0 < l.length → (0 < (eitherCopyout (.user m addr) tot l).1.length ↔
      Writable m (addr + tot))) := by
  obtain ⟨hle, hall, hstop, hpos⟩ := span_spec m l.length (addr + tot) l.length (Nat.le_refl _)
  have hlen : (eitherCopyout (.user m addr) tot l).1.length =
      (m.span l.length (addr + tot) l.length).1 := by
    simp only [eitherCopyout, copyout, List.length_take]
    omega
  rw [hlen]
  exact ⟨hall, hstop, hpos⟩

end Reads

/-! ## Pipes -/

namespace Pipe

variable {P : Type} [DecidableEq P] {s s' : Sys P} {p q : P} {c : Read} {k : Nat}

/-- The bytes that `p` stores in a step. -/
def gain (p : P) (a : Act P) (s s' : Sys P) : Nat :=
  match a with
  | .run q _ => if q = p then s'.stored.length - s.stored.length else 0
  | _ => 0

/-- `p` has called `piperead`, and stored `k` bytes since. Others do what they do, and `p` calls
    nothing else. -/
inductive Called (p : P) (c : Read) : Sys P → Nat → Prop
  | call {s s' : Sys P} : step s (.read p c) = some s' → Called p c s' 0
  | step {s s' : Sys P} {k : Nat} {a : Act P} : Called p c s k → step s a = some s' →
      (∀ c', a ≠ .read p c') → (∀ c', a ≠ .write p c') → Called p c s' (k + gain p a s s')

/-- Where the call is, and what it returned if it is over. -/
def Place (c : Read) (x : Pc) (r : Int) (k : Nat) : Prop :=
  match x with
  | .idle => Reads.AtMost c.n r k
  | .rlock c' => c' = c ∧ k = 0
  | .rloop c' => c' = c ∧ k = 0
  | .rsleep c' => c' = c ∧ k = 0
  | .rcopy c' i => c' = c ∧ k = i ∧ (i : Int) ≤ max c.n 0
  | _ => False

variable {pc : P → Pc} {r : Int} {killed : Bool}

omit [DecidableEq P] in
theorem Place.wakeReaders (h : Place c (pc p) r k) :
    Place c (Pipe.wakeReaders pc p) r k := by
  unfold Pipe.wakeReaders
  split
  next c' hc =>
    rw [hc] at h
    exact h
  · exact h

omit [DecidableEq P] in
theorem Place.wakeWriters (h : Place c (pc p) r k) :
    Place c (Pipe.wakeWriters pc p) r k := by
  unfold Pipe.wakeWriters
  split
  next c' i hc =>
    rw [hc] at h
    exact h.elim
  · exact h

theorem Place.other (h : Place c (s.pc p) (s.result p) k) (hq : p ≠ q)
    (hs : s.run q killed = some s') : Place c (s'.pc p) (s'.result p) k := by
  have hgoto : ∀ (t : Sys P) (x : Pc), Place c (t.pc p) (t.result p) k →
      Place c ((t.goto q x).pc p) ((t.goto q x).result p) k := fun t x ht => by
    simp only [Sys.goto, update_of_ne hq]
    exact ht
  have hleave : ∀ (t : Sys P) (r : Int), Place c (t.pc p) (t.result p) k →
      Place c ((t.leave q r).pc p) ((t.leave q r).result p) k := fun t r ht => by
    simp only [Sys.leave, update_of_ne hq]
    exact ht
  have hsleep : ∀ (t : Sys P) (x : Pc), Place c (t.pc p) (t.result p) k →
      Place c ((t.sleep q x).pc p) ((t.sleep q x).result p) k := fun t x ht => by
    simp only [Sys.sleep, update_of_ne hq]
    exact ht
  unfold Sys.run at hs
  split at hs
  · split_ifs at hs
    cases hs
    exact hgoto { s with lock := some q } _ h
  · split_ifs at hs
    cases hs
    exact hgoto { s with lock := some q } _ h
  next c' i =>
    cases hs
    unfold Sys.writeLoop Sys.writeDone
    split_ifs
    · exact hleave s _ h
    · exact hsleep { s with pc := Pipe.wakeReaders s.pc } _ h.wakeReaders
    · grind [h.wakeReaders]
    · exact hleave { s with pc := Pipe.wakeReaders s.pc } _ h.wakeReaders
  next c' =>
    cases hs
    unfold Sys.readLoop
    split_ifs
    · exact hleave s _ h
    · exact hsleep s _ h
    · exact hgoto s _ h
  next c' i =>
    cases hs
    unfold Sys.readCopy Sys.readDone
    split_ifs
    · exact hleave { s with pc := Pipe.wakeWriters s.pc } _ h.wakeWriters
    · exact hgoto { s.take q with stored := _ } _ h
    · exact hleave { s.take q with pc := Pipe.wakeWriters s.pc } _ h.wakeWriters
    · exact hleave { s with pc := Pipe.wakeWriters s.pc } _ h.wakeWriters
  · cases hs

theorem Place.self (h : Place c (s.pc p) (s.result p) k)
    (hs : s.run p killed = some s') :
    Place c (s'.pc p) (s'.result p) (k + (s'.stored.length - s.stored.length)) := by
  unfold Sys.run at hs
  split at hs
  next hpc =>
    rw [hpc] at h
    exact h.elim
  next c' hpc =>
    rw [hpc] at h
    split_ifs at hs
    cases hs
    simp only [Sys.goto, update_self, Nat.sub_self, Nat.add_zero]
    exact h
  next hpc =>
    rw [hpc] at h
    exact h.elim
  next c' hpc =>
    rw [hpc] at h
    obtain ⟨rfl, rfl⟩ := h
    cases hs
    unfold Sys.readLoop
    split_ifs
    · simp only [Sys.leave, update_self, Nat.sub_self, Nat.add_zero]
      exact ⟨le_max_right _ _, .inl rfl⟩
    · simp only [Sys.sleep, update_self, Nat.sub_self, Nat.add_zero]
      exact ⟨rfl, rfl⟩
    · simp only [Sys.goto, update_self, Nat.sub_self, Nat.add_zero]
      exact ⟨rfl, rfl, le_max_right _ _⟩
  next c' i hpc =>
    rw [hpc] at h
    obtain ⟨rfl, rfl, hle⟩ := h
    cases hs
    unfold Sys.readCopy
    split_ifs with hi
    · simp only [Sys.readDone, Sys.leave, update_self, Nat.sub_self, Nat.add_zero]
      exact ⟨hle, .inr rfl⟩
    · -- The byte is stored, and `i` goes up with it.
      simp only [Sys.goto, Sys.take, update_self, List.length_append, List.length_singleton,
        Nat.add_sub_cancel_left]
      exact ⟨rfl, rfl, by omega⟩
    · simp only [Sys.readDone, Sys.leave, Sys.take, update_self, Nat.sub_self, Nat.add_zero]
      exact ⟨hle, .inr rfl⟩
    · simp only [Sys.readDone, Sys.leave, update_self, Nat.sub_self, Nat.add_zero]
      exact ⟨hle, .inr rfl⟩
  · cases hs

theorem Called.place (h : Called p c s k) : Place c (s.pc p) (s.result p) k := by
  induction h with
  | @call s s' hs =>
    simp only [Pipe.step] at hs
    split at hs
    · cases hs
      simp only [Sys.goto, update_self]
      exact ⟨rfl, rfl⟩
    · cases hs
  | @step s s' k a _ hs hread hwrite ih =>
    cases a with
    | write q c' =>
      have hq : p ≠ q := fun heq => hwrite c' (by rw [heq])
      simp only [Pipe.step] at hs
      split at hs
      · cases hs
        simp only [Sys.goto, update_of_ne hq, gain, Nat.add_zero]
        exact ih
      · cases hs
    | read q c' =>
      have hq : p ≠ q := fun heq => hread c' (by rw [heq])
      simp only [Pipe.step] at hs
      split at hs
      · cases hs
        simp only [Sys.goto, update_of_ne hq, gain, Nat.add_zero]
        exact ih
      · cases hs
    | close w =>
      simp only [Pipe.step] at hs
      split_ifs at hs
      cases hs
      cases w
      · exact ih.wakeWriters
      · exact ih.wakeReaders
    | kill q =>
      by_cases hq : p = q
      · subst hq
        simp only [Pipe.step] at hs
        split at hs
        next hpc =>
          rw [hpc] at ih
          exact ih.elim
        next c' hpc =>
          rw [hpc] at ih
          cases hs
          simp only [Sys.goto, update_self, gain, Nat.add_zero]
          exact ih
        · cases hs
      · simp only [Pipe.step] at hs
        split at hs
        · cases hs
          simp only [Sys.goto, update_of_ne hq, gain, Nat.add_zero]
          exact ih
        · cases hs
          simp only [Sys.goto, update_of_ne hq, gain, Nat.add_zero]
          exact ih
        · cases hs
    | run q killed =>
      simp only [gain]
      by_cases hq : p = q
      · subst hq
        rw [if_pos rfl]
        exact ih.self hs
      · rw [if_neg fun heq => hq heq.symm, Nat.add_zero]
        exact ih.other hq hs

theorem Called.atMost (h : Called p c s k) (hidle : s.pc p = .idle) :
    Reads.AtMost c.n (s.result p) k := by
  have hplace := h.place
  rw [hidle] at hplace
  exact hplace

end Pipe

/-! ## The console -/

namespace Console

open Reads

theorem consolereadFrom_le (m : UserMem) (addr : Nat) (typed : Nat → Option UInt8) (n : Nat) :
    ∀ out : List UInt8, ∃ r stored, consolereadFrom (.user m addr) typed n out = (r, stored) ∧
      stored.length ≤ out.length + n ∧ (r = -1 ∨ r = stored.length) := by
  induction n with
  | zero =>
    intro out
    exact ⟨_, _, rfl, Nat.le_refl _, .inr rfl⟩
  | succ n ih =>
    intro out
    rw [consolereadFrom]
    cases typed out.length with
    | none => exact ⟨_, _, rfl, Nat.le_add_right _ _, .inl rfl⟩
    | some c =>
      dsimp only
      obtain ⟨hall, hstop, -⟩ := copyout_spec m addr out.length [c]
      rw [List.length_singleton] at hall hstop
      split_ifs with heof hfail hline
      · exact ⟨_, _, rfl, Nat.le_add_right _ _, .inr rfl⟩
      · -- A byte that cannot be stored is not counted.
        have hnone := List.length_eq_zero_iff.1 (Nat.lt_one_iff.1 (hstop hfail))
        rw [hnone, List.append_nil]
        exact ⟨_, _, rfl, Nat.le_add_right _ _, .inr rfl⟩
      · have hone := hall (Bool.eq_true_of_not_eq_false hfail)
        refine ⟨_, _, rfl, ?_, .inr ?_⟩
        · rw [List.length_append, hone]
          omega
        · rw [List.length_append, hone]
          push_cast
          rfl
      · have hone := hall (Bool.eq_true_of_not_eq_false hfail)
        obtain ⟨r, stored, hrun, hle, hr⟩ :=
          ih (out ++ (eitherCopyout (.user m addr) out.length [c]).1)
        rw [List.length_append, hone] at hle
        exact ⟨r, stored, hrun, by omega, hr⟩

theorem consoleread_atMost (m : UserMem) (addr : Nat) (typed : Nat → Option UInt8) (n : Int) :
    AtMost n (consoleread (.user m addr) typed n).1
      (consoleread (.user m addr) typed n).2.length := by
  obtain ⟨r, stored, hrun, hle, hr⟩ := consolereadFrom_le m addr typed n.toNat []
  unfold consoleread
  rw [hrun]
  rw [List.length_nil] at hle
  exact ⟨by dsimp only; omega, hr⟩

end Console

/-! ## Files -/

namespace Reads

open Mkfs

section Inode

variable {sb : Superblock} {D : Nat → Dinode} {v : Vol} {ip : Fin NINODE} {i : Nat}

theorem readiFrom_user (m : UserMem) (addr : Nat) (hheld : v.held = [])
    (hdin : (v.itable ip).din = D i) (n : Nat) :
    ∀ (fuel tot off : Nat) (out : List UInt8), n - tot ≤ fuel → tot ≤ n →
      (∀ k, off ≤ k → k < off + (n - tot) →
        k / BSIZE < MAXFILE ∧ ref D v.cur i (slot (k / BSIZE)) ≠ 0) →
      ∃ r more, (Fs.readiFrom sb ip (.user m addr) n fuel tot off out).run Vol.handle v =
          .ok ((r, out ++ more), v) ∧
        more.length ≤ n - tot ∧ (r = -1 ∨ (r = n ∧ more.length = n - tot)) ∧
        (tot < n → (0 < more.length ↔ Writable m (addr + tot))) := by
  intro fuel
  induction fuel with
  | zero =>
    intro tot off out hfuel htot _
    obtain rfl : tot = n := by omega
    refine ⟨tot, [], ?_, Nat.zero_le _, .inr ⟨rfl, (Nat.sub_self _).symm⟩,
      fun h => absurd h (Nat.lt_irrefl _)⟩
    rw [List.append_nil]
    rfl
  | succ fuel ih =>
    intro tot off out hfuel htot hmapped
    rw [Fs.readiFrom]
    by_cases hlt : tot < n
    swap
    · obtain rfl : tot = n := by omega
      rw [if_neg hlt]
      refine ⟨tot, [], ?_, Nat.zero_le _, .inr ⟨rfl, (Nat.sub_self _).symm⟩,
        fun h => absurd h (Nat.lt_irrefl _)⟩
      rw [List.append_nil]
      rfl
    obtain ⟨w, hw⟩ : ∃ w, w = min (n - tot) (BSIZE - off % BSIZE) := ⟨_, rfl⟩
    have hw' : 0 < w ∧ w ≤ n - tot := by
      simp only [BSIZE] at hw ⊢
      omega
    obtain ⟨hmax, hsome⟩ := hmapped off (Nat.le_refl _) (by omega)
    rw [if_pos hlt, run_bind_ok (bmap_run hheld hdin hmax hsome),
      run_bind_ok (bread_run hheld)]
    dsimp only
    rw [run_bind_ok (brelse_run hheld), ← hw]
    generalize hl : (v.cur (ref D v.cur i (slot (off / BSIZE)))).slice (off % BSIZE) w = l
    have hlen : l.length = w := by
      rw [← hl, Block.slice, List.length_map, List.length_range]
    obtain ⟨hall, hstop, hpos⟩ := copyout_spec m addr tot l
    rw [hlen] at hall hstop hpos
    by_cases hok : (eitherCopyout (.user m addr) tot l).2 = true
    · rw [if_pos hok]
      rcases ih (tot + w) (off + w) (out ++ (eitherCopyout (.user m addr) tot l).1) (by omega)
        (by omega) (fun k h1 h2 => hmapped k (by omega) (by omega)) with
        ⟨r, more, hrun, hle, hr, -⟩
      have hdone := hall hok
      refine ⟨r, (eitherCopyout (.user m addr) tot l).1 ++ more, ?_, ?_, ?_, fun _ => ?_⟩
      · rw [hrun, List.append_assoc]
      · rw [List.length_append, hdone]
        omega
      · rw [List.length_append, hdone]
        rcases hr with hr | ⟨hr, hm⟩
        · exact .inl hr
        · exact .inr ⟨hr, by omega⟩
      · rw [List.length_append, ← hpos hw'.1, hdone]
        omega
    · rw [if_neg hok]
      have hpart := hstop (Bool.eq_false_of_not_eq_true hok)
      exact ⟨-1, _, rfl, by omega, .inl rfl, fun _ => hpos hw'.1⟩

/-- `readi` to a user of a file that has its blocks. With a negative `n` it stores what is left of
    the file, if it can store anything. -/
theorem readi_user (sb : Superblock) (m : UserMem) (addr : Nat) (hheld : v.held = [])
    (hdin : (v.itable ip).din = D i)
    (hmapped : ∀ k < (D i).size.toNat, k / BSIZE < MAXFILE ∧ ref D v.cur i (slot (k / BSIZE)) ≠ 0)
    {off : Nat} (hoff : off < 2 ^ 32) {n : Int} (hn : -(2 ^ 31) ≤ n) (hn' : n < 2 ^ 31) :
    ∃ r stored, (Fs.readi sb ip (.user m addr) off (n % 2 ^ 32).toNat).run Vol.handle v =
        .ok ((r, stored), v) ∧ (AtMost n r stored.length ↔
        0 ≤ n ∨ (D i).size.toNat ≤ off ∨ -n ≤ off ∨ ¬ Writable m addr) := by
  have hcast : ((n % 2 ^ 32).toNat : Int) = if 0 ≤ n then n else n + 2 ^ 32 := by
    split_ifs <;> omega
  generalize (n % 2 ^ 32).toNat = u at hcast ⊢
  unfold Fs.readi
  rw [run_bind_ok inode_run, hdin]
  by_cases hend : (D i).size.toNat < off ∨ (off + u) % 2 ^ 32 < off
  · rw [if_pos hend]
    refine ⟨0, [], rfl, iff_of_true ⟨le_max_right _ _, .inr rfl⟩ ?_⟩
    split_ifs at hcast <;> omega
  rw [if_neg hend]
  dsimp only
  generalize hl : (if (D i).size.toNat < off + u then (D i).size.toNat - off else u) = left
  have hleft : left ≤ u ∧ left ≤ (D i).size.toNat - off ∧
      (left = 0 → u = 0 ∨ (D i).size.toNat ≤ off) := by
    split_ifs at hl <;> omega
  rcases readiFrom_user m addr hheld hdin left left 0 off [] (by omega)
    (Nat.zero_le _) (fun k h1 h2 => hmapped k (by omega)) with ⟨r, more, hrun, hle, hr, hfirst⟩
  rw [List.nil_append] at hrun
  refine ⟨r, more, hrun, ?_⟩
  rw [Nat.add_zero] at hfirst
  by_cases hneg : 0 ≤ n
  · rw [if_pos hneg] at hcast
    refine iff_of_true ⟨by omega, ?_⟩ (.inl hneg)
    rcases hr with hr | ⟨hr, hm⟩
    · exact .inl hr
    · exact .inr (by omega)
  · rw [if_neg hneg] at hcast
    by_cases hpos : 0 < left
    · -- Something is stored exactly when the first byte can be.
      constructor
      · rintro ⟨hmost, -⟩
        refine .inr (.inr (.inr fun hw => ?_))
        have := (hfirst hpos).2 hw
        omega
      · intro hor
        have hw : ¬ Writable m addr := by
          rcases hor with h | h | h | h
          · exact absurd h hneg
          · omega
          · omega
          · exact h
        have hzero : more.length = 0 := by
          by_contra hc
          exact hw ((hfirst hpos).1 (Nat.pos_of_ne_zero hc))
        refine ⟨by omega, ?_⟩
        rcases hr with hr | ⟨-, hm⟩
        · exact .inl hr
        · omega
    · refine iff_of_true ⟨by omega, ?_⟩ ?_
      · rcases hr with hr | ⟨hr, hm⟩
        · exact .inl hr
        · exact .inr (by omega)
      · rcases hleft.2.2 (by omega) with h | h
        · omega
        · exact .inr (.inl h)

end Inode

section Call

variable {sb : Superblock} {v : Vol} {p : Fin NPROC} {fd : Int} {f : Fin NFILE}

/-- Descriptor `fd` of `p` is the inode file `f`. Nobody has its inode locked, and the inode has all
    the blocks that its size says. -/
structure Open (v : Vol) (p : Fin NPROC) (fd : Int) (f : Fin NFILE) : Prop where
  fd : ∃ h : 0 ≤ fd ∧ fd.toNat < NOFILE, (v.procs.proc p).ofile ⟨fd.toNat, h.2⟩ = some f
  type : (v.procs.ftable f).type = .inode
  readable : (v.procs.ftable f).readable = true
  off : (v.procs.ftable f).off < 2 ^ 32
  ref : 1 ≤ (v.itable (v.procs.ftable f).ip).ref
  locked : (v.itable (v.procs.ftable f).ip).locked = false
  valid : (v.itable (v.procs.ftable f).ip).valid = true
  held : v.held = []
  blocks : ∀ k < (v.itable (v.procs.ftable f).ip).din.size.toNat, k / BSIZE < MAXFILE ∧
    Mkfs.ref (fun _ => (v.itable (v.procs.ftable f).ip).din) v.cur 0 (Mkfs.slot (k / BSIZE)) ≠ 0

/-- The state in which `fileread` calls `readi`. -/
def lock (v : Vol) (ip : Fin NINODE) : Vol := put v ip { v.itable ip with locked := true }

theorem procs_run : Ino.procs.run (Vol.handle.via (Ino.impl sb)) v = .ok (v.procs, v) :=
  op_run (o := .procs) rfl

theorem ilock_valid_run {ip : Fin NINODE} (href : 1 ≤ (v.itable ip).ref)
    (hlocked : (v.itable ip).locked = false) (hvalid : (v.itable ip).valid = true) :
    (Fs.ilock sb ip).run Vol.handle v = .ok ((), lock v ip) := by
  unfold Fs.ilock
  rw [run_bind_ok inode_run, if_neg (by omega), if_neg (by rw [hlocked]; decide),
    run_bind_ok setInode_run, if_pos hvalid]
  rfl

theorem Open.sysRead (h : Open v p fd f) {m : UserMem} {addr : Nat} {n : Int} {r : Int}
    {stored : List UInt8}
    (hread : (Fs.readi sb (v.procs.ftable f).ip (.user m addr) (v.procs.ftable f).off
      (n % 2 ^ 32).toNat).run Vol.handle (lock v (v.procs.ftable f).ip) =
        .ok ((r, stored), lock v (v.procs.ftable f).ip)) (other : Int) :
    ∃ w, Vol.runI sb (Ino.sysRead p fd m addr n other) v = .ok (r, w) := by
  obtain ⟨hfd, hofile⟩ := h.fd
  have hargfd : (Ino.argfd p fd).run (Vol.handle.via (Ino.impl sb)) v =
      .ok (some (⟨fd.toNat, hfd.2⟩, f), v) := by
    unfold Ino.argfd Ino.proc
    rw [run_bind_ok (run_bind_ok procs_run), dif_pos hfd, hofile]
    rfl
  have hfile : (Ino.file f).run (Vol.handle.via (Ino.impl sb)) v = .ok (v.procs.ftable f, v) := by
    unfold Ino.file
    rw [run_bind_ok procs_run]
    rfl
  have hlock : (Ino.ilock (v.procs.ftable f).ip).run (Vol.handle.via (Ino.impl sb)) v =
      .ok ((), lock v (v.procs.ftable f).ip) :=
    op_run (ilock_valid_run h.ref h.locked h.valid)
  have hreadi : (Ino.readi (v.procs.ftable f).ip (.user m addr) (v.procs.ftable f).off
      (n % 2 ^ 32).toNat).run (Vol.handle.via (Ino.impl sb)) (lock v (v.procs.ftable f).ip) =
      .ok ((r, stored), lock v (v.procs.ftable f).ip) := op_run hread
  have hunlock : ∀ w : Vol, w.itable (v.procs.ftable f).ip =
      { v.itable (v.procs.ftable f).ip with locked := true } →
      ∃ w', (Ino.iunlock (v.procs.ftable f).ip >>= fun _ => pure r).run
        (Vol.handle.via (Ino.impl sb)) w = .ok (r, w') := fun w hw => by
    have hrun : (Ino.iunlock (v.procs.ftable f).ip).run (Vol.handle.via (Ino.impl sb)) w = _ :=
      op_run (o := .iunlock _) (iunlock_run hw rfl h.ref)
    rw [run_bind_ok hrun]
    exact ⟨_, rfl⟩
  have hself : (lock v (v.procs.ftable f).ip).itable (v.procs.ftable f).ip =
      { v.itable (v.procs.ftable f).ip with locked := true } := itable_put_self
  unfold Vol.runI
  rw [Prog.run_expand]
  unfold Ino.sysRead
  rw [run_bind_ok hargfd]
  dsimp only
  unfold Ino.fileread
  rw [run_bind_ok hfile, if_neg (by rw [h.readable]; decide), h.type]
  dsimp only
  rw [run_bind_ok hlock, run_bind_ok hreadi]
  by_cases hpos : 0 < r
  · -- The offset moves, which does not touch the inode.
    have hset : ∀ x, (Ino.setFile f x).run (Vol.handle.via (Ino.impl sb))
        (lock v (v.procs.ftable f).ip) = .ok ((), { lock v (v.procs.ftable f).ip with
          procs := v.procs.setFile f x }) := fun x => by
      unfold Ino.setFile
      rw [run_bind_ok procs_run]
      exact op_run (o := .setProcs _) rfl
    rw [if_pos hpos, run_bind_ok (hset _)]
    exact hunlock _ hself
  · rw [if_neg hpos]
    exact hunlock _ hself

/-- What a read stores. A call of `piperead` that is over and a call of `consoleread` have stored
    `n` bytes at most, and say how many. `sys_read` of an inode file comes to an end, and does the
    same exactly when `n` is not negative, nothing is left of the file, the end of the read wraps
    around or not even the first byte can be stored. -/
theorem read_atMost_iff (m : UserMem) (addr : Nat) (n : Int) :
    (∀ (P : Type) [DecidableEq P] (p : P) (c : Pipe.Read) (s : Pipe.Sys P) (k : Nat),
      Pipe.Called p c s k → s.pc p = .idle → AtMost c.n (s.result p) k) ∧
    (∀ typed : Nat → Option UInt8, AtMost n (Console.consoleread (.user m addr) typed n).1
      (Console.consoleread (.user m addr) typed n).2.length) ∧
    ∀ (sb : Superblock) (v : Vol) (p : Fin NPROC) (fd : Int) (f : Fin NFILE) (other : Int),
      Open v p fd f → -(2 ^ 31) ≤ n → n < 2 ^ 31 → ∃ r stored w,
        (Fs.readi sb (v.procs.ftable f).ip (.user m addr) (v.procs.ftable f).off
          (n % 2 ^ 32).toNat).run Vol.handle (lock v (v.procs.ftable f).ip) =
            .ok ((r, stored), lock v (v.procs.ftable f).ip) ∧
        Vol.runI sb (Ino.sysRead p fd m addr n other) v = .ok (r, w) ∧ (AtMost n r stored.length ↔
          0 ≤ n ∨ (v.itable (v.procs.ftable f).ip).din.size.toNat ≤ (v.procs.ftable f).off ∨
            -n ≤ (v.procs.ftable f).off ∨ ¬ Writable m addr) := by
  refine ⟨fun P _ p c s k h hidle => h.atMost hidle,
    fun typed => Console.consoleread_atMost m addr typed n,
    fun sb v p fd f other h hn hn' => ?_⟩
  have hdin : ((lock v (v.procs.ftable f).ip).itable (v.procs.ftable f).ip).din =
      (fun _ : Nat => (v.itable (v.procs.ftable f).ip).din) 0 := by
    rw [lock, itable_put_self]
  rcases readi_user (D := fun _ => (v.itable (v.procs.ftable f).ip).din) (i := 0)
    (v := lock v (v.procs.ftable f).ip) sb m addr h.held hdin h.blocks h.off hn hn' with
    ⟨r, stored, hrun, hiff⟩
  obtain ⟨w, hw⟩ := h.sysRead hrun other
  exact ⟨r, stored, w, hrun, hw, hiff⟩

end Call

section First

/-- Memory whose first page is there. -/
def onePage : UserMem := { mapped := fun k => k == 0, byte := fun _ => 0 }

/-- What is to be seen of a state for file `0` to be open as descriptor `0`. -/
def opened (v : Vol) : Bool :=
  decide ((v.procs.proc 0).ofile 0 = some 0 ∧ (v.procs.ftable 0).type = .inode ∧
    (v.procs.ftable 0).readable = true ∧ (v.procs.ftable 0).off = 0 ∧
    1 ≤ (v.itable (v.procs.ftable 0).ip).ref ∧ (v.itable (v.procs.ftable 0).ip).locked = false ∧
    (v.itable (v.procs.ftable 0).ip).valid = true ∧ v.held = [] ∧
    (v.itable (v.procs.ftable 0).ip).din.size.toNat = 3 ∧
    Mkfs.ref (fun _ => (v.itable (v.procs.ftable 0).ip).din) v.cur 0 0 ≠ 0)

theorem exists_of_opens (fs : List Mkfs.File) (path : Path) (P : Vol → Bool)
    (h : (match Mkfs.main fs with
      | .ok s => match fsinit s.img with
        | some (sb, v) => decide (sb = mkfs.sb) &&
          match Vol.runI mkfs.sb (Ino.sysOpen 0 (some path) O_RDONLY) v with
          | .ok (fd, t) => decide (fd = 0) && P t
          | .error _ => false
        | none => false
      | .error _ => false) = true) :
    ∃ s v t, Mkfs.main fs = .ok s ∧ fsinit s.img = some (mkfs.sb, v) ∧
      Vol.runI mkfs.sb (Ino.sysOpen 0 (some path) O_RDONLY) v = .ok (0, t) ∧ P t = true := by
  split at h
  swap
  · cases h
  next s hs =>
    split at h
    swap
    · cases h
    next sb v hv =>
      rw [Bool.and_eq_true, decide_eq_true_eq] at h
      obtain ⟨rfl, h⟩ := h
      split at h
      swap
      · cases h
      next fd t ht =>
        rw [Bool.and_eq_true, decide_eq_true_eq] at h
        obtain ⟨rfl, h⟩ := h
        exact ⟨s, v, t, hs, hv, ht, h⟩

theorem open_letters : ∃ s v t, Mkfs.main letters = .ok s ∧ fsinit s.img = some (mkfs.sb, v) ∧
    Vol.runI mkfs.sb (Ino.sysOpen 0 (some (rootPath 97 (by decide))) O_RDONLY) v = .ok (0, t) ∧
    Open t 0 0 0 ∧ (t.procs.ftable 0).off = 0 ∧
    (t.itable (t.procs.ftable 0).ip).din.size.toNat = 3 := by
  obtain ⟨s, v, t, hs, hv, ht, hopen⟩ := exists_of_opens letters (rootPath 97 (by decide)) opened
    (by decide +kernel)
  rw [opened, decide_eq_true_eq] at hopen
  obtain ⟨hfd, htype, hreadable, hoff, href, hlocked, hvalid, hheld, hsize, hblock⟩ := hopen
  refine ⟨s, v, t, hs, hv, ht, ⟨⟨by decide, hfd⟩, htype, hreadable, ?_, href, hlocked, hvalid,
    hheld, fun k hk => ?_⟩, hoff, hsize⟩
  · rw [hoff]
    decide
  · -- Three bytes are in the first block.
    have hzero : k / BSIZE = 0 := Nat.div_eq_of_lt (by rw [hsize] at hk; simp only [BSIZE]; omega)
    rw [hzero]
    exact ⟨by decide, hblock⟩

/-- Two bytes of it are asked for and two at most are stored. -/
theorem read_atMost_letters : ∃ s v t, Mkfs.main letters = .ok s ∧
    fsinit s.img = some (mkfs.sb, v) ∧
    Vol.runI mkfs.sb (Ino.sysOpen 0 (some (rootPath 97 (by decide))) O_RDONLY) v = .ok (0, t) ∧
    ∃ r stored w, (Fs.readi mkfs.sb (t.procs.ftable 0).ip (.user onePage 0) (t.procs.ftable 0).off
        2).run Vol.handle (lock t (t.procs.ftable 0).ip) =
          .ok ((r, stored), lock t (t.procs.ftable 0).ip) ∧
      Vol.runI mkfs.sb (Ino.sysRead 0 0 onePage 0 2 0) t = .ok (r, w) ∧
      AtMost 2 r stored.length := by
  obtain ⟨s, v, t, hs, hv, ht, hopen, -, -⟩ := open_letters
  obtain ⟨r, stored, w, hread, hcall, hiff⟩ :=
    (read_atMost_iff onePage 0 2).2.2 mkfs.sb t 0 0 0 0 hopen (by decide) (by decide)
  exact ⟨s, v, t, hs, hv, ht, r, stored, w, hread, hcall, hiff.2 (.inl (by decide))⟩

/-- With `-1` bytes asked for, all three are stored. -/
theorem read_negative_letters : ∃ s v t, Mkfs.main letters = .ok s ∧
    fsinit s.img = some (mkfs.sb, v) ∧
    Vol.runI mkfs.sb (Ino.sysOpen 0 (some (rootPath 97 (by decide))) O_RDONLY) v = .ok (0, t) ∧
    ∃ r stored w, (Fs.readi mkfs.sb (t.procs.ftable 0).ip (.user onePage 0) (t.procs.ftable 0).off
        ((-1 : Int) % 2 ^ 32).toNat).run Vol.handle (lock t (t.procs.ftable 0).ip) =
          .ok ((r, stored), lock t (t.procs.ftable 0).ip) ∧
      Vol.runI mkfs.sb (Ino.sysRead 0 0 onePage 0 (-1) 0) t = .ok (r, w) ∧
      ¬ AtMost (-1) r stored.length := by
  obtain ⟨s, v, t, hs, hv, ht, hopen, hoff, hsize⟩ := open_letters
  have hdin : ((lock t (t.procs.ftable 0).ip).itable (t.procs.ftable 0).ip).din =
      (fun _ : Nat => (t.itable (t.procs.ftable 0).ip).din) 0 := by
    rw [lock, itable_put_self]
  rcases readi_user (D := fun _ => (t.itable (t.procs.ftable 0).ip).din) (i := 0)
    (v := lock t (t.procs.ftable 0).ip) mkfs.sb onePage 0 hopen.held hdin hopen.blocks hopen.off
    (n := -1) (by decide) (by decide) with ⟨r, stored, hrun, hiff⟩
  obtain ⟨w, hw⟩ := hopen.sysRead hrun 0
  refine ⟨s, v, t, hs, hv, ht, r, stored, w, hrun, hw, fun h => ?_⟩
  have hwritable : Writable onePage 0 := by decide
  rcases hiff.1 h with hc | hc | hc | hc
  · exact absurd hc (by decide)
  · omega
  · omega
  · exact hc hwritable

end First

end Reads

end Xv6
