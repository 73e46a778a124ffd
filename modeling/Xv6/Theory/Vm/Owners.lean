import Mathlib.Data.Fintype.BigOperators
import Xv6.Theory.Vm.Calls

/-!
# Who Owns a Page

All processes and pipes together. The invariant adds up what everybody has (`total`): the free
list and that sum are all the pages there are, at any moment, and every process has the table its
size says. A call is followed by taking one process out of the sum, using what is known of the
call for it, and putting it back.

## Theorems

* `Vm.Memory.address_space_shape`, `Vm.Memory.pages_owned_once`
-/

namespace Xv6.Vm.Memory

open Function (update update_self update_of_ne)
open Multiset (mem_coe mem_cons_of_mem mem_singleton nodup_add notMem_zero singleton_add)
open Finset (add_sum_erase mem_univ sum_congr)

/-- What a process adds to the sum. -/
def procPages (p : Proc) (T : Multiset Word) (n : Nat) (g : Nat → Word) : Multiset Word :=
  if p.state = .unused then 0 else T + (frames g 0 n + {p.trapframe})

def pipePages (a : Word) : Multiset Word := if a = 0#64 then 0 else {a}

variable {K : Type} [DecidableEq K] [Fintype K]

section Total

variable (s : Sys K) (T : Fin NPROC → Multiset Word) (n : Fin NPROC → Nat)
  (g : Fin NPROC → Nat → Word)

/-- All pages that are not free. -/
def total : Multiset Word :=
  ∑ i, procPages (s.procs i) (T i) (n i) (g i) + ∑ k, pipePages (s.pipes k)

/-- The same without those of process `i`. -/
def rest (i : Fin NPROC) : Multiset Word :=
  ∑ j ∈ Finset.univ.erase i, procPages (s.procs j) (T j) (n j) (g j) + ∑ k, pipePages (s.pipes k)

/-- The same without those of pipe `k`. -/
def restPipe (k : K) : Multiset Word :=
  ∑ i, procPages (s.procs i) (T i) (n i) (g i) +
    ∑ k' ∈ Finset.univ.erase k, pipePages (s.pipes k')

theorem total_eq (i : Fin NPROC) :
    total s T n g = procPages (s.procs i) (T i) (n i) (g i) + rest s T n g i := by
  rw [total, rest, ← add_sum_erase _ _ (mem_univ i), add_assoc]

theorem total_eq_pipe (k : K) : total s T n g = pipePages (s.pipes k) + restPipe s T n g k := by
  rw [total, restPipe, ← add_sum_erase _ (fun k => pipePages (s.pipes k))
    (mem_univ k)]
  ac_rfl

theorem total_setProc (m' : Phys) (i : Fin NPROC) (p' : Proc) (T' : Multiset Word) (n' : Nat)
    (g' : Nat → Word) : total (s.setProc m' i p') (update T i T') (update n i n')
      (update g i g') = procPages p' T' n' g' + rest s T n g i := by
  rw [total_eq _ _ _ _ i, rest, rest]
  simp only [Sys.setProc, update_self]
  congr 2
  refine sum_congr rfl fun j hj => ?_
  have hne := Finset.ne_of_mem_erase hj
  simp only [update_of_ne hne]

theorem total_setPipe (m' : Phys) (k : K) (a : Word) :
    total { s with mem := m', pipes := update s.pipes k a } T n g =
      pipePages a + restPipe s T n g k := by
  rw [total_eq_pipe _ _ _ _ k, restPipe, restPipe]
  simp only [update_self]
  congr 2
  refine sum_congr rfl fun j hj => ?_
  simp only [update_of_ne (Finset.ne_of_mem_erase hj)]

end Total

variable {kend trampoline : Word} {U : Multiset Word} {s s' : Sys K} {l l' : List Word}
  {T : Fin NPROC → Multiset Word} {n : Fin NPROC → Nat} {g : Fin NPROC → Nat → Word}
  {m m' : Phys} {i : Fin NPROC} {p' : Proc}

structure Inv (trampoline : Word) (U : Multiset Word) (s : Sys K) (l : List Word)
    (T : Fin NPROC → Multiset Word) (n : Fin NPROC → Nat) (g : Fin NPROC → Nat → Word) :
    Prop where
  pool : Pool U s.mem l (total s T n g)
  has : ∀ i, (s.procs i).state ≠ .unused → Has trampoline s.mem (s.procs i) (T i) (n i) (g i)

variable {p : Proc}

theorem procPages_of_used {T : Multiset Word} {n : Nat} {g : Nat → Word}
    (h : p.state ≠ .unused) : procPages p T n g = T + (frames g 0 n + {p.trapframe}) := by
  rw [procPages, if_neg h]

theorem procPages_add {T : Multiset Word} {n : Nat} {g : Nat → Word}
    (h : p.state ≠ .unused) (A : Multiset Word) :
    procPages p T n g + A = T + (frames g 0 n + (p.trapframe ::ₘ A)) := by
  rw [procPages_of_used h, ← singleton_add, add_assoc, add_assoc]

theorem ne_unused_of_used (h : p.state = .used) : p.state ≠ .unused := by
  rw [h]
  decide

namespace Inv

theorem split (h : Inv trampoline U s l T n g) (hi : (s.procs i).state ≠ .unused) :
    Pool U s.mem l (T i + (frames (g i) 0 (n i) + ((s.procs i).trapframe ::ₘ rest s T n g i))) := by
  refine h.pool.cast ?_
  rw [total_eq s T n g i, procPages_add hi]

theorem table_mem (hi : (s.procs i).state ≠ .unused) {b : Word} (hb : b ∈ T i) :
    b ∈ total s T n g := by
  rw [total_eq s T n g i, procPages_of_used hi]
  exact Multiset.mem_add.2 (.inl (Multiset.mem_add.2 (.inl hb)))

theorem table_mem_rest {j : Fin NPROC} (hj : (s.procs j).state ≠ .unused) (hne : j ≠ i) {b : Word}
    (hb : b ∈ T j) : b ∈ rest s T n g i := by
  refine Multiset.mem_add.2 (.inl (Multiset.mem_sum.2 ⟨j, Finset.mem_erase.2
    ⟨hne, mem_univ j⟩, ?_⟩))
  rw [procPages_of_used hj]
  exact Multiset.mem_add.2 (.inl hb)

theorem touch (h : Inv trampoline U s l T n g) (hpool : Pool U m' l' (total s T n g))
    (hs : ∀ i, (s.procs i).state ≠ .unused → Same s.mem m' (T i)) :
    Inv trampoline U { s with mem := m' } l' T n g :=
  ⟨hpool, fun i hi => (h.has i hi).congr (hs i hi)⟩

theorem replace (h : Inv trampoline U s l T n g) (p' : Proc) (T' : Multiset Word) (n' : Nat)
    (g' : Nat → Word) (hpool : Pool U m' l' (procPages p' T' n' g' + rest s T n g i))
    (hs : Same s.mem m' (rest s T n g i))
    (hhas : p'.state ≠ .unused → Has trampoline m' p' T' n' g') :
    Inv trampoline U (s.setProc m' i p') l' (update T i T') (update n i n') (update g i g') := by
  refine ⟨?_, ?_⟩
  · rw [total_setProc]
    exact hpool
  · intro j hj
    by_cases hji : j = i
    · subst hji
      simp only [Sys.setProc, update_self] at hj ⊢
      exact hhas hj
    · simp only [Sys.setProc, update_of_ne hji] at hj ⊢
      exact (h.has j hj).congr fun b hb => hs b (table_mem_rest hj hji hb)

theorem free_eq (h : Inv trampoline U s l T n g) (hpool : Pool U m' l' (total s T n g)) {a : Word}
    (ha : a ∈ l) : a ∈ l' := by
  have heq : (l : Multiset Word) = l' := add_right_cancel (h.pool.all.trans hpool.all.symm)
  rw [← mem_coe, ← heq]
  exact ha

end Inv

/-- The process that makes a call. -/
def Event.caller : Event K → Option (Fin NPROC)
  | .fork i | .exec i _ _ _ | .sbrk i _ | .exit i | .store i _ _ _ => some i
  | .wait _ | .pipe _ _ | .pipeclose _ => none

/-- What every call does: it comes to an end, and if it fails, the pages it has taken are free
    again or in the table of the caller. -/
def Good (kend trampoline : Word) (U : Multiset Word) (s : Sys K) (l : List Word)
    (e : Event K) : Prop :=
  ∃ r s' l' T' n' g', step kend trampoline s e = .ok (r, s') ∧ Inv trampoline U s' l' T' n' g' ∧
    (r = false → ∀ a ∈ l, a ∈ l' ∨
      ∃ i, e.caller = some i ∧ (s'.procs i).state ≠ .unused ∧ a ∈ T' i)

namespace Inv

variable {e : Event K} {r : Bool}

theorem nothing (h : Inv trampoline U s l T n g)
    (hs : step kend trampoline s e = .ok (r, s)) : Good kend trampoline U s l e :=
  ⟨r, s, l, T, n, g, hs, h, fun _ _ ha => .inl ha⟩

theorem fail (h : Inv trampoline U s l T n g)
    (hs : step kend trampoline s e = .ok (r, { s with mem := m' }))
    (hpool : Pool U m' l' (total s T n g)) (hsame : Same s.mem m' (total s T n g)) :
    Good kend trampoline U s l e :=
  ⟨r, _, l', T, n, g, hs, h.touch hpool fun _ hi b hb => hsame b (table_mem hi hb),
    fun _ _ ha => .inl (h.free_eq hpool ha)⟩

variable (h : Inv trampoline U s l T n g) (hU : Pages kend U)

include h hU

theorem fork (i : Fin NPROC) : Good kend trampoline U s l (.fork i) := by
  by_cases hi : (s.procs i).state = .used
  swap
  · refine h.nothing (r := false) ?_
    simp only [step, if_neg hi]
  have hused := ne_unused_of_used hi
  cases hfind : s.findUnused with
  | none =>
    refine h.nothing (r := false) ?_
    simp only [step, if_pos hi, hfind]
  | some j =>
    have hj : (s.procs j).state = .unused := by
      unfold Sys.findUnused at hfind
      have hfound := List.find?_some hfind
      exact of_decide_eq_true hfound
    rcases (h.has i hused).fork hU h.pool (fun b hb => table_mem hused hb)
      ((h.split hused).bound hU) with ⟨res, m', l', heq, hsame, hnone, hsome⟩
    have hstep : step kend trampoline s (.fork i) = .ok (s.call j (res, m')) := by
      simp only [step, if_pos hi, hfind, heq, ok_bind]
    cases res with
    | none => exact h.fail hstep (hnone rfl) hsame
    | some np =>
      obtain ⟨hstate, T', g', hhas, hpool⟩ := hsome np rfl
      -- a slot that was not in use had no pages
      have hrest : total s T n g = rest s T n g j := by
        rw [total_eq s T n g j, procPages, if_pos hj, zero_add]
      rw [hrest] at hpool hsame
      have hnp := ne_unused_of_used hstate
      refine ⟨true, _, l', _, _, _, hstep, h.replace np T' _ g' (hpool.cast ?_) hsame fun _ => hhas,
        fun hx => by cases hx⟩
      rw [procPages_of_used hnp, ← singleton_add]
      ac_rfl

theorem exec (i : Fin NPROC) (args : List Bool) (last : Bool) (image : Image) :
    Good kend trampoline U s l (.exec i args last image) := by
  by_cases hi : (s.procs i).state = .used
  swap
  · refine h.nothing (r := false) ?_
    simp only [step, if_neg hi]
  have hused := ne_unused_of_used hi
  obtain ⟨res, m', l', heq, hnone, hsame, hsome⟩ :=
    (h.has i hused).sysExec hU (h.split hused) args last image
  have hstep : step kend trampoline s (.exec i args last image) = .ok (s.call i (res, m')) := by
    simp only [step, if_pos hi, heq, ok_bind]
  have htotal : T i + (frames (g i) 0 (n i) + ((s.procs i).trapframe ::ₘ rest s T n g i)) =
      total s T n g := by
    rw [total_eq s T n g i, procPages_add hused]
  cases res with
  | none =>
    rw [htotal] at hnone
    exact h.fail hstep (hnone rfl).1 (hnone rfl).2
  | some np =>
    obtain ⟨hstate, htf, T', n', g', hhas, hpool⟩ := hsome np rfl
    have hnp := ne_unused_of_used (hstate.trans hi)
    refine ⟨true, _, l', _, _, _, hstep, h.replace np T' n' g' (hpool.cast ?_)
      (fun b hb => hsame b (mem_cons_of_mem hb)) fun _ => hhas, fun hx => by cases hx⟩
    rw [procPages_add hnp, htf]

theorem sbrk (i : Fin NPROC) (k : BitVec 32) : Good kend trampoline U s l (.sbrk i k) := by
  by_cases hi : (s.procs i).state = .used
  swap
  · refine h.nothing (r := false) ?_
    simp only [step, if_neg hi]
  have hused := ne_unused_of_used hi
  have hhas := h.has i hused
  obtain ⟨res, m', l', T', n', g', heq, hpool, huser, hsame, -, hnone, hsome⟩ :=
    hhas.growproc hU (h.split hused) k
  have hstep : step kend trampoline s (.sbrk i k) =
      .ok (s.call i (res.map fun sz => { s.procs i with sz := sz }, m')) := by
    simp only [step, if_pos hi, heq, ok_bind]
  have hrest : Same s.mem m' (rest s T n g i) := fun b hb => hsame b (mem_cons_of_mem hb)
  cases res with
  | none =>
    -- the table may have grown
    obtain ⟨rfl, hg⟩ := hnone rfl
    have hinv := h.replace (i := i) (s.procs i) T' (n i) g'
      (hpool.cast (procPages_add hused _).symm) hrest
      fun _ => ⟨huser, hhas.size, hhas.trapframe, hhas.pagetable⟩
    have hproc : s.setProc m' i (s.procs i) = { s with mem := m' } := by
      simp only [Sys.setProc, Function.update_eq_self]
    rw [hproc] at hinv
    refine ⟨false, _, l', _, _, _, hstep, hinv, fun _ a ha => ?_⟩
    have hsum : (l' : Multiset Word) + T' = (l : Multiset Word) + T i := by
      have hall := hpool.all.trans (h.split hused).all.symm
      rw [frames_congr (g := g') fun j _ hj => hg j (by omega)] at hall
      refine add_right_cancel (b := frames (g i) 0 (n i) +
        ((s.procs i).trapframe ::ₘ rest s T n g i)) ?_
      rw [add_assoc, add_assoc]
      exact hall
    have hin : a ∈ (l' : Multiset Word) + T' := by
      rw [hsum]
      exact Multiset.mem_add.2 (.inl ha)
    rcases Multiset.mem_add.1 hin with hl | hT
    · exact .inl hl
    · refine .inr ⟨i, rfl, hused, ?_⟩
      rw [update_self]
      exact hT
  | some sz =>
    have hused' : ({ s.procs i with sz := sz } : Proc).state ≠ .unused := hused
    refine ⟨true, _, l', _, _, _, hstep, h.replace _ T' n' g'
      (hpool.cast (procPages_add hused' _).symm) hrest
      fun _ => ⟨huser, hsome sz rfl, hhas.trapframe, hhas.pagetable⟩, fun hx => by cases hx⟩

theorem exit (i : Fin NPROC) : Good kend trampoline U s l (.exit i) := by
  by_cases hi : (s.procs i).state = .used
  swap
  · refine h.nothing (r := false) ?_
    simp only [step, if_neg hi]
  have hused := ne_unused_of_used hi
  have hhas := h.has i hused
  have hused' : ({ s.procs i with state := .zombie } : Proc).state ≠ .unused := by
    intro hx
    cases hx
  refine ⟨true, s.setProc s.mem i { s.procs i with state := .zombie }, l, _, _, _, ?_,
    h.replace _ (T i) (n i) (g i) ((h.split hused).cast (procPages_add hused' _).symm) Same.refl
      fun _ => ⟨hhas.user, hhas.size, hhas.trapframe, hhas.pagetable⟩, fun hx => by cases hx⟩
  simp only [step, if_pos hi]

theorem wait (i : Fin NPROC) : Good kend trampoline U s l (.wait i) := by
  by_cases hi : (s.procs i).state = .zombie
  swap
  · refine h.nothing (r := false) ?_
    simp only [step, if_neg hi]
  have hused : (s.procs i).state ≠ .unused := by
    rw [hi]
    decide
  obtain ⟨m', l', heq, hpool, hsame⟩ := (h.has i hused).freeproc hU (h.split hused)
  refine ⟨true, s.setProc m' i {}, l', _, _, _, ?_,
    h.replace _ 0 0 (fun _ => 0#64) (hpool.cast ?_) hsame
      (fun hx => absurd rfl hx), fun hx => by cases hx⟩
  · simp only [step, if_pos hi, heq, ok_bind]
  · rw [procPages, if_pos rfl, zero_add]

theorem pipe (k : K) (ok : Bool) : Good kend trampoline U s l (.pipe k ok) := by
  by_cases hk : s.pipes k = 0#64
  swap
  · refine h.nothing (r := false) ?_
    simp only [step, if_neg hk]
  rcases h.pool.kalloc hU with ⟨-, hkal⟩ | ⟨a, m1, l1, -, hkal, hne, hpool1, hsame1⟩
  · refine h.nothing (r := false) ?_
    simp only [step, if_pos hk, hkal, if_true]
  · cases ok with
    | true =>
      refine ⟨true, { s with mem := m1, pipes := update s.pipes k a }, l1, T, n, g, ?_,
        ⟨?_, fun i hi => (h.has i hi).congr fun b hb => hsame1 b (table_mem (s := s) hi hb)⟩,
        fun hx => by cases hx⟩
      · simp only [step, if_pos hk, hkal, hne, if_false, if_true]
      · rw [total_setPipe, pipePages, if_neg hne]
        refine hpool1.cast ?_
        rw [total_eq_pipe s T n g k, pipePages, if_pos hk, zero_add, singleton_add]
    | false =>
      obtain ⟨m2, hkf, hpool2, hsame2⟩ := hpool1.kfree hU
      refine h.fail (r := false) ?_ hpool2 (hsame1.trans hsame2)
      simp only [step, if_pos hk, hkal, hne, if_false, Bool.false_eq_true, hkf, ok_bind]

theorem pipeclose (k : K) : Good kend trampoline U s l (.pipeclose k) := by
  by_cases hk : s.pipes k = 0#64
  · refine h.nothing (r := false) ?_
    simp only [step, if_pos hk]
  · have hcast : total s T n g = s.pipes k ::ₘ restPipe s T n g k := by
      rw [total_eq_pipe s T n g k, pipePages, if_neg hk, singleton_add]
    obtain ⟨m1, hkf, hpool1, hsame1⟩ := (h.pool.cast hcast).kfree hU
    refine ⟨true, { s with mem := m1, pipes := update s.pipes k 0#64 }, s.pipes k :: l, T, n, g, ?_,
      ⟨?_, fun i hi => (h.has i hi).congr fun b hb => hsame1 b ?_⟩, fun hx => by cases hx⟩
    · simp only [step, if_neg hk, hkf, ok_bind]
    · rw [total_setPipe, pipePages, if_pos rfl, zero_add]
      exact hpool1
    · refine Multiset.mem_add.2 (.inl (Multiset.mem_sum.2 ⟨i, mem_univ i, ?_⟩))
      rw [procPages_of_used hi]
      exact Multiset.mem_add.2 (.inl hb)

omit hU in
theorem frame_notMem (hU : Pages kend U) (hi : (s.procs i).state ≠ .unused) {a : Word}
    (ha : a ∈ frames (g i) 0 (n i)) {j : Fin NPROC} (hj : (s.procs j).state ≠ .unused) :
    a ∉ T j := by
  have hnd := Multiset.nodup_add.1 (Multiset.nodup_add.1 ((h.split hj).nodup hU)).2.1
  intro hT
  refine Multiset.disjoint_left.1 hnd.2.2 hT ?_
  by_cases hij : i = j
  · subst hij
    exact Multiset.mem_add.2 (.inl ha)
  · refine Multiset.mem_add.2 (.inr (mem_cons_of_mem (Multiset.mem_add.2 (.inl
      (Multiset.mem_sum.2 ⟨i, Finset.mem_erase.2 ⟨hij, mem_univ i⟩, ?_⟩)))))
    rw [procPages_of_used hi]
    exact Multiset.mem_add.2 (.inr (Multiset.mem_add.2 (.inl ha)))

theorem store (i : Fin NPROC) (va : Word) (j : Index) (x : Word) :
    Good kend trampoline U s l (.store i va j x) := by
  by_cases hi : (s.procs i).state = .used
  swap
  · refine h.nothing (r := false) ?_
    simp only [step, if_neg hi]
  have hused := ne_unused_of_used hi
  have hhas := h.has i hused
  by_cases hva : va.toNat < MAXVA
  swap
  · refine h.nothing (r := false) ?_
    simp only [step, if_pos hi, Memory.store, if_pos (Nat.le_of_not_lt hva), ok_bind]
  cases hn : node (child s.mem) (s.procs i).pagetable (path va) with
  | none =>
    refine h.nothing (r := false) ?_
    simp only [step, if_pos hi, Memory.store, if_neg (Nat.not_le.2 hva), walk_false hva, hn,
      Option.map_none, ok_bind]
  | some b =>
    by_cases hok : isValid (s.mem.word b (PX 0 va)) = true ∧ s.mem.word b (PX 0 va) &&& PTE_U ≠ 0#64
    swap
    · refine h.nothing (r := false) ?_
      simp only [step, if_pos hi, Memory.store, if_neg (Nat.not_le.2 hva), walk_false hva, hn,
        Option.map_some, ok_bind, if_neg hok]
    · -- an entry with `PTE_U` is one of the pages of the process
      have hframe : PTE2PA (s.mem.word b (PX 0 va)) ∈ frames (g i) 0 (n i) := by
        have hlook := hhas.user.space.map va hva
        rw [lookup, hn, Option.bind_some, if_pos hok.1, shape] at hlook
        split_ifs at hlook with hlt h1 h2
        · rw [Option.some.inj hlook]
          exact mem_frames hlt
        · refine absurd ?_ hok.2
          rw [Option.some.inj hlook, BitVec.or_assoc]
          exact pte_and trampoline (by decide) (by decide)
        · refine absurd ?_ hok.2
          rw [Option.some.inj hlook, BitVec.or_assoc]
          exact pte_and _ (by decide) (by decide)
      have hword : ∀ c, c ≠ PTE2PA (s.mem.word b (PX 0 va)) →
          (s.mem.set (PTE2PA (s.mem.word b (PX 0 va))) j x).word c = s.mem.word c := by
        intro c hc
        funext k
        rw [word_set, if_neg (fun hx => hc hx.1)]
      have hin : PTE2PA (s.mem.word b (PX 0 va)) ∈ total s T n g := by
        grind [total_eq, procPages_of_used, Multiset.mem_add.2]
      refine ⟨true, { s with mem := s.mem.set (PTE2PA (s.mem.word b (PX 0 va))) j x }, l, T, n, g,
        ?_, h.touch (h.pool.touch hU hin hword rfl) ?_, fun hx => by cases hx⟩
      · simp only [step, if_pos hi, Memory.store, if_neg (Nat.not_le.2 hva), walk_false hva, hn,
          Option.map_some, ok_bind, if_pos hok]
      -- No table is changed, since no page of a process is one of a table.
      · intro j' hj' c hc
        refine hword c ?_
        rintro rfl
        exact h.frame_notMem hU hused hframe hj' hc

end Inv

theorem inv_step (h : Inv trampoline U s l T n g) (hU : Pages kend U) (e : Event K) :
    Good kend trampoline U s l e := by
  cases e with
  | fork i => exact h.fork hU i
  | exec i args last image => exact h.exec hU i args last image
  | sbrk i k => exact h.sbrk hU i k
  | exit i => exact h.exit hU i
  | wait i => exact h.wait hU i
  | pipe k ok => exact h.pipe hU k ok
  | pipeclose k => exact h.pipeclose hU k
  | store i va j x => exact h.store hU i va j x

/-- Before the first process. -/
def empty (m : Phys) : Sys K := { mem := m, procs := fun _ => {}, pipes := fun _ => 0#64 }

set_option linter.constructorNameAsVariable false in
theorem inv_start {l0 : List Word} {p : Proc} (hchain : Chain m m.freelist l0)
    (hU : Pages kend (l0 : Multiset Word)) (h : userinit kend trampoline m = .ok (true, p, m')) :
    ∃ l T n g, Inv trampoline (l0 : Multiset Word) (start m' p : Sys K) l T n g := by
  have hproc : ∀ T' n' g', procPages ({} : Proc) T' n' g' = 0 := fun _ _ _ => if_pos rfl
  have hpipe : pipePages 0#64 = 0 := if_pos rfl
  have hpool0 : Pool (l0 : Multiset Word) m l0 0 := ⟨hchain, add_zero _⟩
  have hinv : Inv trampoline (l0 : Multiset Word) (empty m : Sys K) l0 (fun _ => 0) (fun _ => 0)
      (fun _ _ => 0#64) := by
    refine ⟨hpool0.cast ?_, fun i hi => absurd rfl hi⟩
    simp only [total, empty, hproc, hpipe, Finset.sum_const_zero, add_zero]
  have hrest : rest (empty m : Sys K) (fun _ => 0) (fun _ => 0) (fun _ _ => 0#64)
      (⟨0, by decide⟩ : Fin NPROC) = 0 := by
    simp only [rest, empty, hproc, hpipe, Finset.sum_const_zero, add_zero]
  obtain ⟨hstate, l, T, g, hhas, hpool⟩ := userinit_spec hU hpool0 h
  have hused : p.state ≠ .unused := by
    rw [hstate]
    decide
  have hnew := hinv.replace (i := ⟨0, by decide⟩) p T 1 g (hpool.cast (by
      rw [hrest, procPages_of_used hused, add_zero]
      rfl)) (fun b hb => by
      rw [hrest] at hb
      exact absurd hb (notMem_zero b)) fun _ => hhas
  have hstart : (empty m : Sys K).setProc m' (⟨0, by decide⟩ : Fin NPROC) p = start m' p := by
    simp only [Sys.setProc, empty, start, Sys.mk.injEq, true_and, and_true]
    funext i
    rw [Function.update_apply]
    by_cases hi : i.val = 0
    · rw [if_pos (Fin.ext hi), if_pos hi]
    · rw [if_neg (fun hx => hi (congrArg Fin.val hx)), if_neg hi]
  rw [hstart] at hnew
  exact ⟨l, _, _, _, hnew⟩

theorem inv_reachable {l0 : List Word} (hchain : Chain m m.freelist l0)
    (hU : Pages kend (l0 : Multiset Word)) (hs : Reachable kend trampoline m s) :
    ∃ l T n g, Inv trampoline (l0 : Multiset Word) s l T n g := by
  induction hs with
  | start h => exact inv_start hchain hU h
  | step _ hstep ih =>
    obtain ⟨l, T, n, g, hinv⟩ := ih
    obtain ⟨r, s', l', T', n', g', hs', hinv', -⟩ := inv_step hinv hU _
    rw [hstep] at hs'
    cases hs'
    exact ⟨l', T', n', g', hinv'⟩

/-- In every state the table of a process maps the pages up to its size, the trapframe and the
    trampoline, and no system call panics. -/
theorem address_space_shape {l0 : List Word} (hchain : Chain m m.freelist l0)
    (hU : Pages kend (l0 : Multiset Word)) (hs : Reachable kend trampoline m s) :
    (∀ i, (s.procs i).state ≠ .unused →
      (∀ va, va.toNat < MAXVA → ((lookup s.mem (s.procs i).pagetable va).isSome = true ↔
        page va < (PGROUNDUP (s.procs i).sz).toNat / PGSIZE ∨ page va = page TRAPFRAME ∨
          page va = page TRAMPOLINE)) ∧
      (∀ va pte, va.toNat < MAXVA → lookup s.mem (s.procs i).pagetable va = some pte →
        page va < (PGROUNDUP (s.procs i).sz).toNat / PGSIZE →
          PTE2PA pte ∈ l0 ∧ PTE_FLAGS pte ≠ PTE_V) ∧
      (∀ va pte, va.toNat < MAXVA → lookup s.mem (s.procs i).pagetable va = some pte →
        page va = page TRAPFRAME ∨ page va = page TRAMPOLINE → pte &&& PTE_U = 0#64)) ∧
    ∀ e, ∃ r s', step kend trampoline s e = .ok (r, s') := by
  obtain ⟨l, T, n, g, hinv⟩ := inv_reachable hchain hU hs
  refine ⟨fun i hi => ?_, fun e => ?_⟩
  · have hhas := hinv.has i hi
    have hpool := hinv.split hi
    have hbound := hpool.bound hU
    -- What `sz` says, in pages.
    have hat : At (PGROUNDUP (s.procs i).sz) (n i) := by
      rw [← hhas.size]
      refine at_PGROUNDUP _ ?_
      have hsz := hhas.size
      simp only [pagesIn, PGSIZE] at hsz
      omega
    have hpages : (PGROUNDUP (s.procs i).sz).toNat / PGSIZE = n i := hat.page
    rw [hpages, at_TRAPFRAME.page, at_TRAMPOLINE.page]
    have hmap := hhas.user.space.map
    refine ⟨fun va hva => ?_, fun va pte hva hlook hlt => ?_, fun va pte hva hlook hpage => ?_⟩
    · rw [hmap va hva, shape]
      split_ifs with h1 h2 h3
      · simp only [Option.isSome_some, h1, true_or]
      · simp only [Option.isSome_some, h2, or_true]
      · simp only [Option.isSome_some, h3, true_or, or_true]
      · simp only [Option.isSome_none, Bool.false_eq_true, h1, h2, h3, or_self]
    · rw [hmap va hva, shape_of_lt hlt] at hlook
      rw [← Option.some.inj hlook]
      refine ⟨?_, (hhas.user.leaf _ hlt).flags⟩
      rw [← mem_coe, ← hpool.all]
      exact Multiset.mem_add.2 (.inr (Multiset.mem_add.2 (.inr (Multiset.mem_add.2
        (.inl (mem_frames hlt))))))
    · rw [hmap va hva, shape, if_neg (by omega)] at hlook
      split_ifs at hlook
      · rw [← Option.some.inj hlook, BitVec.or_assoc]
        exact pte_and trampoline (by decide) (by decide)
      · rw [← Option.some.inj hlook, BitVec.or_assoc]
        exact pte_and _ (by decide) (by decide)
  · obtain ⟨r, s', -, -, -, -, hstep, -⟩ := inv_step hinv hU e
    exact ⟨r, s', hstep⟩

/-! ## The first process -/

/-- Ten free pages after the kernel. -/
def tenFree : Phys :=
  { word := fun a i => if i = 0 ∧ a ≠ 0x8000A000#64 then a + 0x1000#64 else 0#64
    freelist := 0x80001000#64 }

def tenPages : List Word :=
  [0x80001000#64, 0x80002000#64, 0x80003000#64, 0x80004000#64, 0x80005000#64, 0x80006000#64,
    0x80007000#64, 0x80008000#64, 0x80009000#64, 0x8000A000#64]

theorem chain_tenFree : Chain tenFree tenFree.freelist tenPages := by
  simp only [tenPages, Chain, tenFree]
  decide

theorem pages_tenFree : Pages KERNBASE (tenPages : Multiset Word) := by
  refine ⟨by decide, ?_⟩
  intro a ha
  simp only [tenPages, mem_coe, List.mem_cons, List.not_mem_nil, or_false] at ha
  rcases ha with rfl | rfl | rfl | rfl | rfl | rfl | rfl | rfl | rfl | rfl <;>
    exact ⟨by decide, by decide, by decide, by decide⟩

theorem userinit_tenFree : ∃ p m', userinit KERNBASE KERNBASE tenFree = .ok (true, p, m') ∧
    p.state = .used ∧ (PGROUNDUP p.sz).toNat / PGSIZE = 1 := ⟨_, _, rfl, rfl, rfl⟩

/-- The first process has one page. -/
theorem address_space_shape_init : ∃ p m', userinit KERNBASE KERNBASE tenFree = .ok (true, p, m') ∧
    (∀ va, va.toNat < MAXVA → ((lookup m' p.pagetable va).isSome = true ↔
      page va < 1 ∨ page va = page TRAPFRAME ∨ page va = page TRAMPOLINE)) ∧
    ∀ e : Event Bool, ∃ r s', step KERNBASE KERNBASE (start m' p) e = .ok (r, s') := by
  obtain ⟨p, m', hinit, hstate, hsize⟩ := userinit_tenFree
  have hshape := address_space_shape (K := Bool) chain_tenFree pages_tenFree (.start hinit)
  have hused : p.state ≠ .unused := by
    rw [hstate]
    decide
  have hfirst := (hshape.1 ⟨0, by decide⟩ hused).1
  refine ⟨p, m', hinit, fun va hva => ?_, hshape.2⟩
  rw [← hsize]
  exact hfirst va hva

/-! ## Owners -/

inductive Owner (K : Type)
  | free
  | user (i : Fin NPROC) (k : Nat)
  | tree (i : Fin NPROC) (p : List Index)
  | trapframe (i : Fin NPROC)
  | pipe (k : K)

/-- Page `a` is free, is the frame of page `k` of process `i`, is the page at the end of path `p`
    in the table of process `i`, its trapframe, or a pipe. -/
def Owns (s : Sys K) : Owner K → Word → Prop
  | .free, a => ∃ l, Chain s.mem s.mem.freelist l ∧ (∀ b ∈ l, b ≠ 0#64) ∧ a ∈ l
  | .user i k, a => (s.procs i).state ≠ .unused ∧ k < pagesIn (s.procs i).sz ∧
      ∃ va pte, va.toNat < MAXVA ∧ page va = k ∧
        lookup s.mem (s.procs i).pagetable va = some pte ∧ PTE2PA pte = a
  | .tree i p, a => (s.procs i).state ≠ .unused ∧ p.length ≤ 2 ∧
      node (child s.mem) (s.procs i).pagetable p = some a
  | .trapframe i, a => (s.procs i).state ≠ .unused ∧ (s.procs i).trapframe = a
  | .pipe k, a => s.pipes k ≠ 0#64 ∧ s.pipes k = a

namespace Inv

variable (h : Inv trampoline U s l T n g) (hU : Pages kend U) {a : Word}

include h hU

theorem free_iff : Owns s .free a ↔ a ∈ l := by
  have hne : ∀ b ∈ l, b ≠ 0#64 := by
    intro b hb
    refine (hU.page b ?_).1
    rw [← h.pool.all]
    exact Multiset.mem_add.2 (.inl hb)
  constructor
  · rintro ⟨l', hchain, hl', ha⟩
    rw [chain_unique hne hl' h.pool.chain hchain]
    exact ha
  · intro ha
    exact ⟨l, h.pool.chain, hne, ha⟩

theorem user_iff {k : Nat} :
    Owns s (.user i k) a ↔ (s.procs i).state ≠ .unused ∧ k < n i ∧ PTE2PA (g i k) = a := by
  refine and_congr_right fun hi => ?_
  have hhas := h.has i hi
  rw [hhas.size]
  refine and_congr_right fun hk => ?_
  constructor
  · grind [hhas.user.space.map, shape_of_lt, Option.some.inj]
  · intro ha
    have hbound := (h.split hi).bound hU
    have hat : At (BitVec.ofNat 64 (k * PGSIZE)) k := by
      rw [At, BitVec.toNat_ofNat]
      simp only [PGSIZE]
      omega
    refine ⟨_, g i k, hat.lt (by omega), hat.page, ?_, ha⟩
    rw [hhas.user.space.map _ (hat.lt (by omega)), hat.page, shape_of_lt hk]

omit hU in
theorem tree_iff : (∃ p, Owns s (.tree i p) a) ↔ (s.procs i).state ≠ .unused ∧ a ∈ T i := by
  constructor
  · rintro ⟨p, hi, hp, hn⟩
    exact ⟨hi, (h.has i hi).user.space.node_mem hp hn⟩
  · rintro ⟨hi, ha⟩
    obtain ⟨p, hp, hn⟩ := ((h.has i hi).user.space.tree a).1 ha
    exact ⟨p, hi, hp, hn⟩

end Inv

/-- Whom an owner is part of. -/
def Owner.part : Owner K → Option (Fin NPROC ⊕ K)
  | .free => none
  | .user i _ | .tree i _ | .trapframe i => some (.inl i)
  | .pipe k => some (.inr k)

/-- The pages of the parts. -/
def partPages (s : Sys K) (l : List Word) (T : Fin NPROC → Multiset Word) (n : Fin NPROC → Nat)
    (g : Fin NPROC → Nat → Word) : Option (Fin NPROC ⊕ K) → Multiset Word
  | none => l
  | some (.inl i) => procPages (s.procs i) (T i) (n i) (g i)
  | some (.inr k) => pipePages (s.pipes k)

theorem sum_partPages (s : Sys K) (l : List Word) (T : Fin NPROC → Multiset Word)
    (n : Fin NPROC → Nat) (g : Fin NPROC → Nat → Word) :
    ∑ x, partPages s l T n g x = (l : Multiset Word) + total s T n g := by
  rw [Fintype.sum_option, Fintype.sum_sum_type]
  rfl

theorem eq_of_mem_sum {X : Type} [Fintype X] [DecidableEq X] {P : X → Multiset Word}
    (hnd : (∑ x, P x).Nodup) {x y : X} {a : Word} (hx : a ∈ P x) (hy : a ∈ P y) : x = y := by
  by_contra hne
  rw [← add_sum_erase _ _ (mem_univ x)] at hnd
  refine Multiset.disjoint_left.1 (Multiset.nodup_add.1 hnd).2.2 hx ?_
  exact Multiset.mem_sum.2 ⟨y, Finset.mem_erase.2 ⟨fun hyx => hne hyx.symm, mem_univ y⟩, hy⟩

namespace Inv

variable (h : Inv trampoline U s l T n g) (hU : Pages kend U) {a : Word} {o o' : Owner K}

include h hU

theorem mem_part (ho : Owns s o a) : a ∈ partPages s l T n g o.part := by
  cases o with
  | free => exact Multiset.mem_coe.2 ((h.free_iff hU).1 ho)
  | user i k =>
    obtain ⟨hi, hk, rfl⟩ := (h.user_iff hU).1 ho
    show _ ∈ procPages (s.procs i) (T i) (n i) (g i)
    rw [procPages_of_used hi]
    exact Multiset.mem_add.2 (.inr (Multiset.mem_add.2 (.inl (mem_frames hk))))
  | tree i p =>
    obtain ⟨hi, hT⟩ := h.tree_iff.1 ⟨p, ho⟩
    show _ ∈ procPages (s.procs i) (T i) (n i) (g i)
    rw [procPages_of_used hi]
    exact Multiset.mem_add.2 (.inl hT)
  | trapframe i =>
    obtain ⟨hi, rfl⟩ := ho
    show _ ∈ procPages (s.procs i) (T i) (n i) (g i)
    rw [procPages_of_used hi]
    exact Multiset.mem_add.2 (.inr (Multiset.mem_add.2 (.inr (Multiset.mem_singleton_self _))))
  | pipe k =>
    obtain ⟨hk, rfl⟩ := ho
    show _ ∈ pipePages (s.pipes k)
    rw [pipePages, if_neg hk]
    exact Multiset.mem_singleton_self _

theorem exists_owner {x : Option (Fin NPROC ⊕ K)} (ha : a ∈ partPages s l T n g x) :
    ∃ o, Owns s o a := by
  match x, ha with
  | none, ha => exact ⟨.free, (h.free_iff hU).2 (Multiset.mem_coe.1 ha)⟩
  | some (.inl i), ha =>
    by_cases hi : (s.procs i).state = .unused
    · simp only [partPages, procPages, if_pos hi, notMem_zero] at ha
    · simp only [partPages, procPages_of_used hi, Multiset.mem_add, mem_singleton] at ha
      rcases ha with hT | hF | rfl
      · obtain ⟨p, hp⟩ := h.tree_iff.2 ⟨hi, hT⟩
        exact ⟨_, hp⟩
      · obtain ⟨k, hk, rfl⟩ := List.mem_map.1 (Multiset.mem_coe.1 hF)
        rw [List.mem_range'_1] at hk
        exact ⟨.user i k, (h.user_iff hU).2 ⟨hi, by omega, rfl⟩⟩
      · exact ⟨.trapframe i, hi, rfl⟩
  | some (.inr k), ha =>
    by_cases hk : s.pipes k = 0#64
    · simp only [partPages, pipePages, if_pos hk, notMem_zero] at ha
    · simp only [partPages, pipePages, if_neg hk, mem_singleton] at ha
      exact ⟨.pipe k, hk, ha.symm⟩

theorem owner_unique_proc (hi : (s.procs i).state ≠ .unused) (ho : Owns s o a) (ho' : Owns s o' a)
    (hp : o.part = some (.inl i)) (hp' : o'.part = some (.inl i)) : o = o' := by
  have hnd := (Multiset.nodup_add.1 ((h.split hi).nodup hU)).2.1
  rw [nodup_add] at hnd
  obtain ⟨-, hndF, hdT⟩ := hnd
  rw [nodup_add] at hndF
  obtain ⟨hndF, -, hdF⟩ := hndF
  have hT : ∀ p, Owns s (.tree i p) a → a ∈ T i := fun p ht => (h.tree_iff.1 ⟨p, ht⟩).2
  have hF : ∀ k, Owns s (.user i k) a → a ∈ frames (g i) 0 (n i) := by
    intro k hk
    obtain ⟨-, hlt, rfl⟩ := (h.user_iff hU).1 hk
    exact mem_frames hlt
  have hX : Owns s (.trapframe i) a → a ∈ (s.procs i).trapframe ::ₘ rest s T n g i := by
    rintro ⟨-, rfl⟩
    exact Multiset.mem_cons_self _ _
  have hTF : ∀ p k, Owns s (.tree i p) a → ¬ Owns s (.user i k) a := fun p k ht hu =>
    Multiset.disjoint_left.1 hdT (hT p ht) (Multiset.mem_add.2 (.inl (hF k hu)))
  have hTX : ∀ p, Owns s (.tree i p) a → ¬ Owns s (.trapframe i) a := fun p ht hx =>
    Multiset.disjoint_left.1 hdT (hT p ht) (Multiset.mem_add.2 (.inr (hX hx)))
  have hFX : ∀ k, Owns s (.user i k) a → ¬ Owns s (.trapframe i) a := fun k hu hx =>
    Multiset.disjoint_left.1 hdF (hF k hu) (hX hx)
  cases o with
  | free => cases hp
  | pipe k => cases hp
  | user j k =>
    cases hp
    cases o' with
    | free => cases hp'
    | pipe k => cases hp'
    | user j k' =>
      cases hp'
      -- the frames are all different
      obtain ⟨-, hk, hka⟩ := (h.user_iff hU).1 ho
      obtain ⟨-, hk', hka'⟩ := (h.user_iff hU).1 ho'
      have hinj := List.inj_on_of_nodup_map (Multiset.coe_nodup.1 hndF)
      rw [hinj (List.mem_range'_1.2 ⟨Nat.zero_le k, by omega⟩)
        (List.mem_range'_1.2 ⟨Nat.zero_le k', by omega⟩) (hka.trans hka'.symm)]
    | tree j p =>
      cases hp'
      exact absurd ho (hTF p k ho')
    | trapframe j =>
      cases hp'
      exact absurd ho' (hFX k ho)
  | tree j p =>
    cases hp
    cases o' with
    | free => cases hp'
    | pipe k => cases hp'
    | user j k =>
      cases hp'
      exact absurd ho' (hTF p k ho)
    | tree j p' =>
      cases hp'
      rw [(h.has i hi).user.space.sep p p' a ho.2.1 ho'.2.1 ho.2.2 ho'.2.2]
    | trapframe j =>
      cases hp'
      exact absurd ho' (hTX p ho)
  | trapframe j =>
    cases hp
    cases o' with
    | free => cases hp'
    | pipe k => cases hp'
    | user j k =>
      cases hp'
      exact absurd ho (hFX k ho')
    | tree j p =>
      cases hp'
      exact absurd ho (hTX p ho')
    | trapframe j =>
      cases hp'
      rfl

theorem owner_unique (ho : Owns s o a) (ho' : Owns s o' a) : o = o' := by
  have hnd : (∑ x, partPages s l T n g x).Nodup := by
    rw [sum_partPages, h.pool.all]
    exact hU.nodup
  have hpart := eq_of_mem_sum hnd (h.mem_part hU ho) (h.mem_part hU ho')
  cases hx : o.part with
  | none =>
    rw [hx] at hpart
    cases o <;> cases hx
    cases o' <;> cases hpart
    rfl
  | some x =>
    cases x with
    | inl i =>
      have hi : (s.procs i).state ≠ .unused := by
        cases o <;> cases hx <;> exact ho.1
      exact h.owner_unique_proc hU hi ho ho' hx (hpart ▸ hx)
    | inr k =>
      rw [hx] at hpart
      cases o <;> cases hx
      cases o' <;> cases hpart
      rfl

end Inv

/-- The memory after something has been stored in the pages and the trapframes of processes. -/
def Touched (s : Sys K) (m : Phys) : Prop :=
  m.freelist = s.mem.freelist ∧
    ∀ a, (∀ i k, ¬ Owns s (.user i k) a) → (∀ i, ¬ Owns s (.trapframe i) a) →
      m.word a = s.mem.word a

theorem Inv.touched (h : Inv trampoline U s l T n g) (hU : Pages kend U)
    (hi : (s.procs i).state ≠ .unused) (hm : Touched s m) :
    Has trampoline m (s.procs i) (T i) (n i) (g i) ∧
      Pool U m l (T i + (frames (g i) 0 (n i) + ((s.procs i).trapframe ::ₘ rest s T n g i))) := by
  have hpool := h.split hi
  -- The tables and the free pages are nobody's memory.
  have hother : ∀ a o, Owns s o a → (∀ j k, o ≠ .user j k) → (∀ j, o ≠ .trapframe j) →
      m.word a = s.mem.word a :=
    fun a o ho hne hne' => hm.2 a (fun j k hk => hne j k (h.owner_unique hU ho hk))
      fun j hj => hne' j (h.owner_unique hU ho hj)
  refine ⟨(h.has i hi).congr fun a ha => ?_, ?_, hpool.all⟩
  · obtain ⟨q, hq⟩ := h.tree_iff.2 ⟨hi, ha⟩
    exact hother a _ hq nofun nofun
  · rw [hm.1]
    refine chain_congr (fun a ha => ?_) hpool.chain
    rw [hother a .free ((h.free_iff hU).2 ha) nofun nofun]

/-- Every page that the allocator started with has one owner in every state. The free list has no
    duplicates. A call that fails leaves no page taken, other than pages of the caller's table. -/
theorem pages_owned_once {l0 : List Word} (hchain : Chain m m.freelist l0)
    (hU : Pages kend (l0 : Multiset Word)) (hs : Reachable kend trampoline m s) :
    (∃ l, Chain s.mem s.mem.freelist l ∧ l.Nodup) ∧ (∀ a, a ∈ l0 ↔ ∃ o, Owns s o a) ∧
    (∀ a o o', Owns s o a → Owns s o' a → o = o') ∧
    ∀ e s', step kend trampoline s e = .ok (false, s') → ∀ a, Owns s .free a →
      Owns s' .free a ∨ ∃ i p, e.caller = some i ∧ Owns s' (.tree i p) a := by
  obtain ⟨l, T, n, g, hinv⟩ := inv_reachable hchain hU hs
  refine ⟨⟨l, hinv.pool.chain, ?_⟩, fun a => ⟨fun ha => ?_, ?_⟩,
    fun a o o' ho ho' => hinv.owner_unique hU ho ho', fun e s' he a ha => ?_⟩
  · exact Multiset.coe_nodup.1 (Multiset.nodup_add.1 (hinv.pool.nodup hU)).1
  · rw [← mem_coe, ← hinv.pool.all, ← sum_partPages] at ha
    obtain ⟨x, -, hx⟩ := Multiset.mem_sum.1 ha
    exact hinv.exists_owner hU hx
  · rintro ⟨o, ho⟩
    rw [← mem_coe, ← hinv.pool.all, ← sum_partPages]
    exact Multiset.mem_sum.2 ⟨o.part, mem_univ _, hinv.mem_part hU ho⟩
  · obtain ⟨r, s'', l', T', n', g', hstep, hinv', hfail⟩ := inv_step hinv hU e
    rw [he] at hstep
    cases hstep
    rcases hfail rfl a ((hinv.free_iff hU).1 ha) with hl | ⟨i, hcall, hi, hT⟩
    · exact .inl ((hinv'.free_iff hU).2 hl)
    · obtain ⟨p, hp⟩ := hinv'.tree_iff.2 ⟨hi, hT⟩
      exact .inr ⟨i, p, hcall, hp⟩

/-- The ten pages after `userinit`. -/
theorem pages_owned_once_init : ∃ p m', userinit KERNBASE KERNBASE tenFree = .ok (true, p, m') ∧
    (∀ a ∈ tenPages, ∃ o, Owns (start m' p : Sys Bool) o a) ∧
    ∀ a o o', Owns (start m' p : Sys Bool) o a → Owns (start m' p) o' a → o = o' := by
  obtain ⟨p, m', hinit, -, -⟩ := userinit_tenFree
  have howned := pages_owned_once (K := Bool) chain_tenFree pages_tenFree (.start hinit)
  exact ⟨p, m', hinit, fun a ha => (howned.2.1 a).1 ha, howned.2.2.1⟩

end Xv6.Vm.Memory
