import Xv6.Lib.Count
import Xv6.Theory.Files.Names
import Mathlib.Algebra.BigOperators.Fin

/-!
# What the Counts Count

The references to an open file are the descriptors that point to it, and the references to an
inode are the open files and the working directories. In the middle of a system call they
differ, by the references to files the call has in its hands: `Counted e` is the invariant with
`e` references to each file too many, or too few.

## Theorems

* `Counted.setFile`, `Counted.setFd`
-/

namespace Xv6

open Function (update update_self update_of_ne)
open Finset (mem_univ univ)

/-- The inode an open file stands for. -/
def File.inodeOf (x : File) : Option (Fin NINODE) :=
  if x.type = .inode ∨ x.type = .device then some x.ip else none

theorem File.inodeOf_eq_some {x : File} (h : x.type = .inode ∨ x.type = .device) :
    x.inodeOf = some x.ip := if_pos h

namespace Procs

variable {P : Procs} {f : Fin NFILE} {p : Fin NPROC}

/-- How many descriptors, of all processes, point to a file. -/
def slots (P : Procs) (f : Fin NFILE) : Nat := ∑ q, count (P.proc q).ofile univ f

/-- How many open files stand for an inode. -/
def opens (P : Procs) (ip : Fin NINODE) : Nat :=
  count (fun f => (P.ftable f).inodeOf) univ ip

/-- How many processes have an inode as their working directory. -/
def cwds (P : Procs) (ip : Fin NINODE) : Nat := count (fun q => (P.proc q).cwd) univ ip

theorem opens_setFile (y : File) (ip : Fin NINODE) :
    (P.setFile f y).opens ip + (if (P.ftable f).inodeOf = some ip then 1 else 0) =
      P.opens ip + if y.inodeOf = some ip then 1 else 0 := by
  have hfun : (fun g => ((P.setFile f y).ftable g).inodeOf) =
      update (fun g => (P.ftable g).inodeOf) f y.inodeOf :=
    Function.comp_update File.inodeOf P.ftable f y
  unfold opens
  rw [hfun]
  exact count_update (f := fun g => (P.ftable g).inodeOf) (mem_univ f) y.inodeOf ip

theorem cwds_setProc (y : Proc) (ip : Fin NINODE) :
    (P.setProc p y).cwds ip + (if (P.proc p).cwd = some ip then 1 else 0) =
      P.cwds ip + if y.cwd = some ip then 1 else 0 := by
  have hfun : (fun q => ((P.setProc p y).proc q).cwd) = update (fun q => (P.proc q).cwd) p y.cwd :=
    Function.comp_update Proc.cwd P.proc p y
  unfold cwds
  rw [hfun]
  exact count_update (f := fun q => (P.proc q).cwd) (mem_univ p) y.cwd ip

theorem slots_setProc (y : Proc) (f : Fin NFILE) :
    (P.setProc p y).slots f + count (P.proc p).ofile univ f =
      P.slots f + count y.ofile univ f := by
  -- One summand changes, the others are the same.
  have hrest : ∀ q ∈ Finset.univ.erase p, count ((P.setProc p y).proc q).ofile univ f =
      count (P.proc q).ofile univ f := by
    intro q hq
    have hne : q ≠ p := Finset.ne_of_mem_erase hq
    unfold setProc
    simp only [update_of_ne hne]
  have hself : (P.setProc p y).proc p = y := update_self _ _ _
  unfold slots
  rw [← Finset.add_sum_erase _ _ (mem_univ p),
    ← Finset.add_sum_erase _ _ (mem_univ p), Finset.sum_congr rfl hrest, hself]
  omega

end Procs

namespace Tally

def setFile (x : Tally) (f : Fin NFILE) (y : File) : Tally :=
  { x with procs := x.procs.setFile f y }

def setProc (x : Tally) (p : Fin NPROC) (y : Proc) : Tally :=
  { x with procs := x.procs.setProc p y }

/-- `p->ofile[fd] = v`. -/
def setFd (x : Tally) (p : Fin NPROC) (fd : Fin NOFILE) (v : Option (Fin NFILE)) : Tally :=
  x.setProc p { x.procs.proc p with ofile := update (x.procs.proc p).ofile fd v }

theorem proc_setFd (x : Tally) (p : Fin NPROC) (fd : Fin NOFILE) (v : Option (Fin NFILE)) :
    (x.setFd p fd v).procs.proc p =
      { x.procs.proc p with ofile := update (x.procs.proc p).ofile fd v } :=
  update_self _ _ _

end Tally

/-- The counts are right, but that each file has `e` references more than there are descriptors.
    A file that is not in use has no type, and a process that is not in use has no files. -/
structure Counted (e : Fin NFILE → Int) (x : Tally) : Prop where
  files : ∀ f, ((x.procs.ftable f).ref : Int) = x.procs.slots f + e f
  inodes : ∀ ip, x.refs ip = x.procs.opens ip + x.procs.cwds ip
  closed : ∀ f, (x.procs.ftable f).ref = 0 → (x.procs.ftable f).type = .none
  clean : ∀ q, (x.procs.proc q).cwd = none → ∀ fd, (x.procs.proc q).ofile fd = none
  exiting : ∀ q n, (x.procs.proc q).task = .exiting n → ∀ fd : Fin NOFILE, fd.val < n →
    (x.procs.proc q).ofile fd = none

namespace Counted

variable {e d : Fin NFILE → Int} {x : Tally} {f : Fin NFILE} {p : Fin NPROC}

theorem congr (h : Counted e x) (he : ∀ g, e g = d g) : Counted d x := by
  have heq : e = d := funext he
  rwa [heq] at h

variable {y : File} {r : Fin NINODE → Nat} {ip : Fin NINODE}

section

variable (h : Counted e x)

include h

theorem setFile
    (hr : ∀ jp, r jp + (if (x.procs.ftable f).inodeOf = some jp then 1 else 0) =
      x.refs jp + if y.inodeOf = some jp then 1 else 0) (hc : y.ref = 0 → y.type = .none)
    (he : ∀ g, d g = e g + if g = f then (y.ref : Int) - (x.procs.ftable f).ref else 0) :
    Counted d ⟨r, x.procs.setFile f y⟩ := by
  have hself : (x.procs.setFile f y).ftable f = y := update_self _ _ _
  have hne : ∀ g, g ≠ f → (x.procs.setFile f y).ftable g = x.procs.ftable g :=
    fun g hg => update_of_ne hg _ _
  refine ⟨fun g => ?_, fun jp => ?_, fun g hg => ?_, h.clean, h.exiting⟩
  · have hfiles := h.files g
    have hslots : (x.procs.setFile f y).slots g = x.procs.slots g := rfl
    dsimp only
    rw [he g, hslots]
    by_cases hg : g = f
    · subst hg
      rw [hself, if_pos rfl]
      omega
    · rw [hne g hg, if_neg hg]
      omega
  · have hinodes := h.inodes jp
    have hopens := Procs.opens_setFile (P := x.procs) (f := f) y jp
    have hcwds : (x.procs.setFile f y).cwds jp = x.procs.cwds jp := rfl
    have := hr jp
    dsimp only
    rw [hcwds]
    omega
  · grind [h.closed]

theorem setFile_same (hi : y.inodeOf = (x.procs.ftable f).inodeOf)
    (hc : y.ref = 0 → y.type = .none)
    (he : ∀ g, d g = e g + if g = f then (y.ref : Int) - (x.procs.ftable f).ref else 0) :
    Counted d (x.setFile f y) :=
  h.setFile (fun jp => by rw [hi]) hc he

theorem setProc {y : Proc}
    (hr : ∀ jp, r jp + (if (x.procs.proc p).cwd = some jp then 1 else 0) =
      x.refs jp + if y.cwd = some jp then 1 else 0)
    (hclean : y.cwd = none → ∀ fd, y.ofile fd = none)
    (hexit : ∀ n, y.task = .exiting n → ∀ fd : Fin NOFILE, fd.val < n → y.ofile fd = none)
    (he : ∀ g, d g + count y.ofile univ g =
      e g + count (x.procs.proc p).ofile univ g) : Counted d ⟨r, x.procs.setProc p y⟩ := by
  have hself : (x.procs.setProc p y).proc p = y := update_self _ _ _
  have hne : ∀ q, q ≠ p → (x.procs.setProc p y).proc q = x.procs.proc q :=
    fun q hq => update_of_ne hq _ _
  refine ⟨fun g => ?_, fun jp => ?_, h.closed, fun q => ?_, fun q => ?_⟩
  · have hfiles := h.files g
    have hslots := Procs.slots_setProc (P := x.procs) (p := p) y g
    have heg := he g
    have href : ((x.procs.setProc p y).ftable g).ref = (x.procs.ftable g).ref := rfl
    dsimp only
    rw [href]
    omega
  · have hinodes := h.inodes jp
    have hcwds := Procs.cwds_setProc (P := x.procs) (p := p) y jp
    have hopens : (x.procs.setProc p y).opens jp = x.procs.opens jp := rfl
    have := hr jp
    dsimp only
    rw [hopens]
    omega
  · dsimp only
    by_cases hq : q = p
    · subst hq
      rw [hself]
      exact hclean
    · rw [hne q hq]
      exact h.clean q
  · dsimp only
    by_cases hq : q = p
    · subst hq
      rw [hself]
      exact hexit
    · rw [hne q hq]
      exact h.exiting q

theorem setFd {fd : Fin NOFILE} {v : Option (Fin NFILE)}
    (hv : v = none ∨ (x.procs.proc p).cwd ≠ none ∧ (x.procs.proc p).task = .idle)
    (he : ∀ g, d g + (if v = some g then 1 else 0) =
      e g + if (x.procs.proc p).ofile fd = some g then 1 else 0) : Counted d (x.setFd p fd v) := by
  refine h.setProc (fun jp => rfl) (fun hcwd i => ?_) (fun n hn i hi => ?_) fun g => ?_
  -- A descriptor may go at any time, also in a process that exits.
  · grind [h.clean, Function.update_apply]
  · grind [h.exiting, Function.update_apply]
  · have hcount := count_update (f := (x.procs.proc p).ofile) (mem_univ fd) v g
    have heg := he g
    dsimp only
    split_ifs at hcount heg <;> omega

theorem setTask {t : Task}
    (ht : ∀ n, t = .exiting n → ∀ fd : Fin NOFILE, fd.val < n → (x.procs.proc p).ofile fd = none) :
    Counted e (x.setProc p { x.procs.proc p with task := t }) :=
  h.setProc (fun _ => rfl) (h.clean p) ht fun _ => rfl

theorem refs_cwd_pos (hip : (x.procs.proc p).cwd = some ip) :
    0 < x.refs ip := by
  rw [h.inodes ip]
  have hmem : p ∈ Finset.univ.filter fun q => (x.procs.proc q).cwd = some ip :=
    Finset.mem_filter.mpr ⟨mem_univ p, hip⟩
  have hpos : 0 < x.procs.cwds ip := Finset.card_pos.mpr ⟨p, hmem⟩
  omega

theorem refs_open_pos
    (hip : (x.procs.ftable f).inodeOf = some ip) : 0 < x.refs ip := by
  rw [h.inodes ip]
  have hmem : f ∈ Finset.univ.filter fun g => (x.procs.ftable g).inodeOf = some ip :=
    Finset.mem_filter.mpr ⟨mem_univ f, hip⟩
  have hpos : 0 < x.procs.opens ip := Finset.card_pos.mpr ⟨f, hmem⟩
  omega

end

end Counted

end Xv6
