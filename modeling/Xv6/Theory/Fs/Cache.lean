import Xv6.Lib.Agree
import Xv6.Theory.Fs.Synced
import Xv6.Theory.Fs.Text

/-!
# Recycling a Buffer

Whether a buffer is recycled between two system calls makes no difference to what the
calls do, as long as every `write` copies each piece of its source in full or not at
all. This is the invariant of `Theory.Fs.Synced` carried over whole runs.

## Theorems

* `Vol.cache_agrees`, `Vol.partial_copy_differs`
-/

namespace Xv6

variable {es : List Event} {m : UserMem}

theorem UserMem.span_of_mapped {last : Nat}
    (hm : ∀ va < last, va < MAXVA ∧ m.mapped (va / PGSIZE) = true) (fuel va len : Nat)
    (hlen : len ≠ 0 → va + len ≤ last) : (m.span fuel va len).2 = true := by
  induction fuel generalizing va len with
  | zero => rfl
  | succ fuel ih =>
    unfold span
    split_ifs with hzero hbad
    · rfl
    · have hle := hlen hzero
      obtain ⟨hva, hmapped⟩ := hm va (by omega)
      rcases hbad with hmax | hnot
      · have := Nat.div_mul_le_self va PGSIZE
        omega
      · rw [hmapped] at hnot
        cases hnot
    · -- The rest of the range starts at the next page.
      refine ih _ _ fun hrest => ?_
      have hle := hlen hzero
      have hdiv := Nat.div_add_mod' va PGSIZE
      have hmod := Nat.mod_lt va (show 0 < PGSIZE by decide)
      omega

theorem Src.whole_of_mapped {addr off n : Nat}
    (hm : ∀ va < addr + n, va < MAXVA ∧ m.mapped (va / PGSIZE) = true) :
    (Src.user m addr).Whole off n := by
  intro tot htot _
  refine .inl (UserMem.span_of_mapped hm _ _ _ ?_)
  omega

namespace Ino

open Prog

variable {sb : Superblock}

theorem whole_of_fromKernel {o : IOp} (ho : o.FromKernel) : Whole o := by
  cases o with
  | writei ip src off n =>
    cases src with
    | kernel l => exact Src.whole_kernel l off n
    | user m addr => exact ho.elim
  | _ => trivial

theorem keeps_expand {α : Type} {p : IProg α} (hp : p.All Whole) :
    Fs.Keeps sb [] (p.expand (impl sb)) :=
  leads_expand Vol.Holding.passing (fun _ ho => keeps_impl sb [] ho) hp

theorem whole_fromKernel {α : Type} {p : IProg α} (hp : FromKernel p) : p.All Whole :=
  all_mono (fun _ => whole_of_fromKernel) hp

theorem from_filewritePass {p : Fin NPROC} {f : Fin NFILE} {addr n i : Nat} {s : Vol}
    (h : s.Holding sb [])
    (hw : (Src.user m (addr + i)).Whole (s.procs.ftable f).off (min (n - i) WRITEMAX)) :
    ((filewritePass p f m addr n i).expand (impl sb)).From Vol.handle (Vol.Passing sb)
      (Vol.Holding sb []) s := by
  unfold filewritePass
  dsimp only
  rw [expand_bind]
  refine from_bind (keeps_expand (whole_fromKernel (fromKernel_file f)) s h) fun x u hrun hu => ?_
  have hfile : Except.ok (s.procs.ftable f, s) = Except.ok (x, u) := hrun
  cases hfile
  refine keeps_expand ?_ s h
  refine all_bind (all_call trivial) fun _ => all_bind (all_call trivial) fun _ => ?_
  refine all_bind (all_call hw) fun r => whole_fromKernel ?_
  refine all_ite (all_bind (fromKernel_setFile _ _) fun _ => ?_) ?_
  all_goals
    refine all_bind (fromKernel_op trivial) fun _ => all_bind (fromKernel_op trivial) fun _ => ?_
    refine all_ite ?_ (all_ite ?_ ?_) <;>
      exact all_bind (fromKernel_setTask _ _) fun _ => all_pure _

end Ino

namespace Vol

open Prog

variable {sb : Superblock} {s t : Vol}

/-- Going on with a `write` finds each piece of its source mapped in full, or its
    first byte not mapped. -/
def Whole (s : Vol) : Event → Prop
  | .resume p m => match (s.procs.proc p).task with
    | .writing f addr n i =>
      (Src.user m (addr + i)).Whole (s.procs.ftable f).off (min (n - i) Ino.WRITEMAX)
    | _ => True
  | _ => True

/-- Every step of a run does. -/
def WholeSteps (sb : Superblock) (s : Vol) : List Event → Prop
  | [] => True
  | a :: as => s.Whole a ∧ ∀ t, s.step sb a = some (.ok t) → t.WholeSteps sb as

/-- A state that a run passes through, between its steps or within one. -/
inductive Passes (sb : Superblock) : Vol → List Event → Vol → Prop
  | here (s : Vol) (es : List Event) : Passes sb s es s
  | inside {s t : Vol} {a : Event} {es : List Event} {p : IProg Int} (hc : s.code a = some p)
      (ht : Reaches handle (p.expand (Ino.impl sb)) s t) : Passes sb s (a :: es) t
  | next {s u t : Vol} {a : Event} {es : List Event} (hs : s.step sb a = some (.ok u))
      (ht : Passes sb u es t) : Passes sb s (a :: es) t

theorem passes_of_steps (hs : s.steps sb es = some (.ok t)) : Passes sb s es t := by
  induction es generalizing s with
  | nil =>
    cases hs
    exact .here _ []
  | cons a as ih =>
    unfold Vol.steps at hs
    split at hs
    · cases hs
    · cases hs
    next u hstep => exact .next hstep (ih hs)

theorem Synced.evict (h : s.Synced sb) (b : Nat) : (s.evict b).Synced sb := by
  unfold Vol.evict
  split
  · exact h
  · refine ⟨h.start, h.size, h.room, h.nodup, fun c hc hlh => ?_⟩
    by_cases hcb : c = b
    · rw [hcb]
      exact Function.update_self _ _ _
    · have hcur : Function.update s.cur b (s.disk b) c = s.cur c := Function.update_of_ne hcb _ _
      exact hcur.trans (h.agree c hc hlh)

theorem Holding.code (h : s.Holding sb []) {a : Event} (hw : s.Whole a) {p : IProg Int}
    (hc : s.code a = some p) :
    (p.expand (Ino.impl sb)).From Vol.handle (Passing sb) (Holding sb []) s := by
  cases a with
  | evict b =>
    cases hc
    exact Ino.keeps_expand (all_pure _) s h
  | call q c =>
    simp only [Vol.code] at hc
    split_ifs at hc
    cases hc
    exact Ino.keeps_expand (Ino.whole_fromKernel (Call.fromKernel q c)) s h
  | resume q m =>
    simp only [Vol.code] at hc
    split_ifs at hc
    simp only [Whole] at hw
    -- The only program with a condition is the loop of `filewrite`.
    cases htask : (s.procs.proc q).task with
    | idle =>
      rw [htask] at hc
      cases hc
    | writing f addr n i =>
      rw [htask] at hc hw
      cases hc
      exact Ino.from_filewritePass h hw
    | exiting fd =>
      rw [htask] at hc
      cases hc
      exact Ino.keeps_expand (Ino.whole_fromKernel (Ino.fromKernel_exitPass q fd)) s h

theorem Holding.step (h : s.Holding sb []) {a : Event} (hw : s.Whole a)
    (hs : s.step sb a = some (.ok t)) : t.Holding sb [] := by
  have hrun : ∀ b, (s.code b).map (fun p => (s.runI sb p).map Prod.snd) = some (.ok t) →
      s.Whole b → t.Holding sb [] := by
    intro b hb hwb
    obtain ⟨p, hc, hp⟩ := Option.map_eq_some_iff.mp hb
    unfold Vol.runI at hp
    cases hr : (p.expand (Ino.impl sb)).run Vol.handle s with
    | error e =>
      rw [hr] at hp
      cases hp
    | ok r =>
      rw [hr] at hp
      cases hp
      exact (h.code hwb hc).2 r.1 r.2 hr
  cases a with
  | evict b =>
    cases hs
    refine ⟨h.1.evict b, ?_⟩
    unfold Vol.evict
    split
    · exact h.2
    · exact h.2
  | call q c => exact hrun (.call q c) hs hw
  | resume q m => exact hrun (.resume q m) hs hw

theorem Holding.passes (h : s.Holding sb []) (hw : s.WholeSteps sb es)
    (ht : Passes sb s es t) : t.Passing sb := by
  induction ht with
  | here s es => exact h.passing
  | inside hc ht => exact (h.code hw.1 hc).1 _ ht
  | next hs ht ih => exact ih (h.step hw.1 hs) (hw.2 _ hs)

/-- In every run in which each `write` copies the pieces of its source in full or not
    at all, and at every moment of it, a block that is not logged and whose buffer is
    not held is the same in the cache and on the disk. So it makes no difference whether
    the buffer is recycled. -/
theorem cache_agrees {disk : Nat → Block} (hw : (boot sb disk).WholeSteps sb es)
    (ht : Passes sb (boot sb disk) es t) {b : Nat} (hb : ¬ sb.InLog b) (hheld : b ∉ t.held)
    (hlh : b ∉ t.log.lh) : t.cur b = t.disk b ∧ t.evict b = t := by
  have hboot : (boot sb disk).Holding sb [] := ⟨Synced.boot sb disk, rfl⟩
  have heq := hboot.passes hw ht b hb hheld hlh
  refine ⟨heq, ?_⟩
  unfold Vol.evict
  rw [if_neg hlh, ← heq, Function.update_eq_self]

section Run

/-- `/f`. -/
def pathF : Path := ⟨[SLASH, 102], by decide, by decide⟩

/-- Memory of one page. -/
def onePage : UserMem := { mapped := fun k => k == 0, byte := fun _ => 7 }

/-- Create a file and write a byte to it. -/
def oneByte : List Event :=
  [.call 0 (.open (some pathF) (O_CREATE ||| O_RDWR)), .call 0 (.write 0 0 1 0), .resume 0 onePage]

/-- Then write two bytes, the first of them the last one of the page. -/
def twoBytes : List Event := [.call 0 (.write 0 4095 2 0), .resume 0 onePage]

theorem cache_agrees_oneByte : ∃ u, (boot mkfs.sb mkfs.image).steps mkfs.sb oneByte = some (.ok u) ∧
    (u.disk 47).byte 0 = 7 ∧ u.cur 47 = u.disk 47 ∧ u.evict 47 = u := by
  have hrun : ∃ u, (boot mkfs.sb mkfs.image).steps mkfs.sb oneByte = some (.ok u) ∧
      47 ∉ u.held ∧ 47 ∉ u.log.lh ∧ (u.disk 47).byte 0 = 7 := exists_of_run (by decide +kernel)
  obtain ⟨u, hu, hheld, hlh, hbyte⟩ := hrun
  have htask : ∃ v, (boot mkfs.sb mkfs.image).steps mkfs.sb (oneByte.take 2) = some (.ok v) ∧
      (v.procs.proc 0).task = .writing 0 0 1 0 := exists_of_run (by decide +kernel)
  obtain ⟨v, hv, htask⟩ := htask
  have hw : (boot mkfs.sb mkfs.image).WholeSteps mkfs.sb oneByte := by
    refine ⟨trivial, fun a ha => ⟨trivial, fun b hb => ⟨?_, fun _ _ => trivial⟩⟩⟩
    have hbv : b = v := by
      simpa only [oneByte, List.take, Vol.steps, ha, hb, Option.some.injEq,
        Except.ok.injEq] using hv
    rw [hbv]
    simp only [Whole, htask]
    refine Src.whole_of_mapped fun va hva => ?_
    obtain rfl : va = 0 := by omega
    exact ⟨by decide, rfl⟩
  exact ⟨u, hu, hbyte, cache_agrees hw (passes_of_steps hu) (by decide) hheld hlh⟩

/-- The second byte of the file is 7 in the cache and 0 on the disk, with the block
    neither held nor logged: the write failed after it had copied one byte. -/
theorem partial_copy_differs :
    ∃ u, (boot mkfs.sb mkfs.image).steps mkfs.sb (oneByte ++ twoBytes) = some (.ok u) ∧
      ¬ mkfs.sb.InLog 47 ∧ u.held = [] ∧ 47 ∉ u.log.lh ∧ (u.cur 47).byte 1 = 7 ∧
      (u.disk 47).byte 1 = 0 :=
  exists_of_run (by decide +kernel)

end Run

end Vol

end Xv6
