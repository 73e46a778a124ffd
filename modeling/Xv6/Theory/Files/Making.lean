import Xv6.Lib.Leads
import Xv6.Theory.Files.Pipes

/-!
# Making a Pipe

What the functions of `Core.Kern` that make a pipe compute, as equations between states. In
particular `pipealloc` either leaves the state as it was, or has made two unused entries of the
file table the ends of a new pipe.

## Theorems

* `Kern.pipealloc_cases`
-/

namespace Xv6.Kern

open Function (update update_self update_of_ne update_idem update_eq_self update_comm)

variable {sb : Superblock} {k k' : Kern} {f g rf wf : Fin NFILE} {pi : Nat}

/-- The table of files. -/
abbrev files (k : Kern) : Fin NFILE → File := k.vol.procs.ftable

/-- The kernel with another entry in the table of files. -/
def withFile (k : Kern) (f : Fin NFILE) (x : File) : Kern :=
  { k with vol := { k.vol with procs := k.vol.procs.setFile f x } }

/-- The kernel with another pipe in a page, or none. -/
def withPage (k : Kern) (pi : Nat) (y : Option Pipe) : Kern :=
  { k with pipes := { k.pipes with page := update k.pipes.page pi y } }

/-- An entry of the file table that nobody uses has no type. -/
def Closed (k : Kern) : Prop := ∀ f, (k.files f).ref = 0 → (k.files f).type = .none

variable {α β : Type}

theorem run_bind_ok {c : KProg α} {g : α → KProg β} {a : α}
    (h : c.run (handle sb) k = .ok (a, k')) :
    (c >>= g).run (handle sb) k = (g a).run (handle sb) k' := by
  rw [Prog.run_bind, h]

theorem run_ino_bind {c : IProg α} {g : α → IProg β} {a : α}
    (h : (ino c).run (handle sb) k = .ok (a, k')) :
    (ino (c >>= g)).run (handle sb) k = (ino (g a)).run (handle sb) k' := by
  unfold ino at h ⊢
  rw [Prog.expand_bind, run_bind_ok h]

theorem run_file : (ino (Ino.file f)).run (handle sb) k = .ok (k.files f, k) := rfl

theorem run_setEnd {w : Bool} : (setEnd f pi w).run (handle sb) k = .ok ((),
    { k.withFile f { k.files f with type := .pipe, readable := !w, writable := w } with
      pipes := { k.pipes with pipe := update k.pipes.pipe f pi } }) := rfl

theorem run_setPage {y : Option Pipe} :
    (setPage pi y).run (handle sb) k = .ok ((), k.withPage pi y) := rfl

theorem run_close (sb : Superblock) (href : (k.files f).ref = 1)
    (htype : ¬ ((k.files f).type = .inode ∨ (k.files f).type = .device)) :
    (ino (Ino.fileclose f)).run (handle sb) k =
      .ok ((), k.withFile f { k.files f with ref := 0, type := .none }) := by
  unfold Ino.fileclose
  rw [run_ino_bind run_file, if_neg (by omega), if_neg (by omega), if_neg htype]
  rfl

/-- An entry that `filealloc` has taken. -/
def taken (k : Kern) (f : Fin NFILE) : Kern := k.withFile f { k.files f with ref := 1 }

theorem files_taken : (k.taken f).files f = { k.files f with ref := 1 } := update_self _ _ _

theorem files_taken_of_ne (hne : g ≠ f) : (k.taken f).files g = k.files g := update_of_ne hne _ _

theorem taken_comm (hne : f ≠ g) : (k.taken f).taken g = (k.taken g).taken f := by
  unfold taken withFile Procs.setFile
  simp only [files, update_of_ne hne, update_of_ne (Ne.symm hne), update_comm hne]

theorem close_taken (htype : (k.files f).type = .none) (hfree : (k.files f).ref = 0) :
    (fileclose f).run (handle sb) (k.taken f) = .ok ((), k) := by
  have hsame : { k.files f with ref := 0, type := .none } = k.files f := by rw [← htype, ← hfree]
  have hnone : ((k.taken f).files f).type = .none := by rw [files_taken]; exact htype
  have hclose := run_close sb (k := k.taken f) (f := f) (by rw [files_taken])
    (by rw [hnone]; decide)
  rw [files_taken, hsame] at hclose
  unfold fileclose
  rw [run_bind_ok run_file, run_bind_ok hclose, if_neg (fun hx => by rw [hnone] at hx; cases hx.2)]
  unfold taken withFile Procs.setFile
  simp only [files, update_idem, update_eq_self]
  rfl

theorem filealloc_cases (sb : Superblock) (k : Kern) :
    (ino Ino.filealloc).run (handle sb) k = .ok (none, k) ∨ ∃ f, (k.files f).ref = 0 ∧
      (ino Ino.filealloc).run (handle sb) k = .ok (some f, k.taken f) := by
  have hprocs : (ino Ino.procs).run (handle sb) k = .ok (k.vol.procs, k) := rfl
  unfold Ino.filealloc
  rw [run_ino_bind hprocs]
  cases hfind : (List.finRange NFILE).find? fun f => (k.files f).ref == 0 with
  | none => exact .inl rfl
  | some f =>
    exact .inr ⟨f, beq_iff_eq.mp (List.find?_some (p := fun f => (k.files f).ref == 0) hfind), rfl⟩

/-- A file made an end of a pipe. -/
def pipeEnd (x : File) (w : Bool) : File :=
  { x with ref := 1, type := .pipe, readable := !w, writable := w }

/-- The kernel after a `pipealloc` that succeeds. -/
def piped (k : Kern) (pi : Nat) (rf wf : Fin NFILE) : Kern :=
  { (k.withFile rf (pipeEnd (k.files rf) false)).withFile wf (pipeEnd (k.files wf) true) with
    pipes := { pipe := update (update k.pipes.pipe rf pi) wf pi
               page := update k.pipes.page pi (some Pipe.init) } }

/-- Two entries of the file table that nobody uses. -/
structure Fresh (k : Kern) (rf wf : Fin NFILE) : Prop where
  ne : rf ≠ wf
  left : (k.files rf).ref = 0
  right : (k.files wf).ref = 0

theorem Fresh.left_end (h : Fresh k rf wf) (pi : Nat) :
    (k.piped pi rf wf).files rf = pipeEnd (k.files rf) false :=
  (update_of_ne h.ne _ _).trans (update_self _ _ _)

theorem Fresh.right_end (_ : Fresh k rf wf) (pi : Nat) :
    (k.piped pi rf wf).files wf = pipeEnd (k.files wf) true := update_self _ _ _

theorem pipealloc_cases (sb : Superblock) (hclosed : k.Closed) (page : Option Nat) :
    (pipealloc page).run (handle sb) k = .ok (none, k) ∨
    ∃ pi rf wf, page = some pi ∧ Fresh k rf wf ∧
      (pipealloc page).run (handle sb) k = .ok (some (rf, wf), k.piped pi rf wf) := by
  unfold pipealloc
  rcases filealloc_cases sb k with h0 | ⟨rf, hrf, h0⟩
  · rw [run_bind_ok h0]
    exact .inl rfl
  rw [run_bind_ok h0]
  rcases filealloc_cases sb (k.taken rf) with h1 | ⟨wf, hwf, h1⟩
  · left
    refine (run_bind_ok h1).trans ?_
    rw [run_bind_ok (close_taken (hclosed rf hrf) hrf)]
    rfl
  have hne : rf ≠ wf := by
    rintro rfl
    rw [files_taken] at hwf
    cases hwf
  rw [files_taken_of_ne (Ne.symm hne)] at hwf
  cases page with
  | none =>
    left
    refine (run_bind_ok h1).trans ?_
    have hclose : (fileclose rf).run (handle sb) ((k.taken rf).taken wf) =
      .ok ((), k.taken wf) := by
      have hkeep := files_taken_of_ne (k := k) hne
      rw [taken_comm hne]
      exact close_taken (by rw [hkeep]; exact hclosed rf hrf) (by rw [hkeep]; exact hrf)
    refine (run_bind_ok hclose).trans ?_
    rw [run_bind_ok (close_taken (hclosed wf hwf) hwf)]
    rfl
  | some pi =>
    refine .inr ⟨pi, rf, wf, rfl, ⟨hne, hrf, hwf⟩, (run_bind_ok h1).trans ?_⟩
    refine (run_bind_ok run_setPage).trans ((run_bind_ok run_setEnd).trans
      ((run_bind_ok run_setEnd).trans ?_))
    refine congrArg (fun s => Except.ok (some (rf, wf), s)) ?_
    unfold piped pipeEnd taken withPage withFile Procs.setFile
    simp only [files, update_idem, update_self, update_of_ne hne, update_of_ne (Ne.symm hne),
      update_comm hne]

end Xv6.Kern
