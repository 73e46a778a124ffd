import Xv6.Theory.Files.Counts

/-!
# System Calls Count Their References

Each system call ends with the counts right, whatever it was given and wherever it gave up. The
calls that close a file are left for later, since that file may be a pipe.

## Theorems

* `Ino.good_call`: every call keeps the counts
-/

namespace Xv6

/-- The same files are ends of pipes, and the same ends. -/
def SameEnds (F G : Fin NFILE → File) : Prop :=
  ∀ f, ((G f).type = .pipe ↔ (F f).type = .pipe) ∧
    ((F f).type = .pipe → (G f).writable = (F f).writable)

theorem SameEnds.refl (F : Fin NFILE → File) : SameEnds F F := fun _ => ⟨Iff.rfl, fun _ => rfl⟩

/-- The counts are right, but for `e`, and the ends of pipes are as in `F`. -/
def Good (F : Fin NFILE → File) (e : Fin NFILE → Int) (x : Tally) : Prop :=
  Counted e x ∧ SameEnds F x.procs.ftable

theorem SameEnds.setFile {F : Fin NFILE → File} {P : Procs} (h : SameEnds F P.ftable)
    {f : Fin NFILE} {y : File} (htype : y.type = .pipe ↔ (P.ftable f).type = .pipe)
    (hend : y.writable = (P.ftable f).writable ∨ (P.ftable f).type ≠ .pipe) :
    SameEnds F (P.setFile f y).ftable := by
  intro g
  by_cases hg : g = f
  · subst hg
    have hself : (P.setFile g y).ftable g = y := Function.update_self _ _ _
    rw [hself]
    refine ⟨htype.trans (h g).1, fun hp => ?_⟩
    rcases hend with heq | hne
    · exact heq.trans ((h g).2 hp)
    · exact absurd ((h g).1.mpr hp) hne
  · have hne : (P.setFile f y).ftable g = P.ftable g := Function.update_of_ne hg _ _
    rw [hne]
    exact h g

namespace Ino

open Prog (spec_pure spec_bind spec_ite)

open Tally (drop_bump)

variable {sb : Superblock} {x : Tally} {ip : Fin NINODE} {p : Fin NPROC} {f : Fin NFILE}

section Tables

theorem spec_file {Q : File → Tally → Prop} (hq : Q (x.procs.ftable f) x) :
    Spec sb x (file f) Q := by
  unfold file
  exact spec_bind (spec_procs (spec_pure hq))

variable {Q : Unit → Tally → Prop}

theorem spec_setFile {y : File} (hq : Q () (x.setFile f y)) :
    Spec sb x (setFile f y) Q := by
  unfold Ino.setFile
  exact spec_bind (spec_procs (spec_setProcs hq))

theorem spec_proc {Q : Proc → Tally → Prop} (hq : Q (x.procs.proc p) x) : Spec sb x (proc p) Q := by
  unfold proc
  exact spec_bind (spec_procs (spec_pure hq))

theorem spec_setProc {y : Proc} (hq : Q () (x.setProc p y)) :
    Spec sb x (setProc p y) Q := by
  unfold Ino.setProc
  exact spec_bind (spec_procs (spec_setProcs hq))

theorem spec_setFd {fd : Fin NOFILE} {v : Option (Fin NFILE)}
    (hq : Q () (x.setFd p fd v)) : Spec sb x (setFd p fd v) Q := by
  unfold Ino.setFd
  exact spec_bind (spec_proc (spec_setProc hq))

theorem spec_setTask {t : Task}
    (hq : Q () (x.setProc p { x.procs.proc p with task := t })) : Spec sb x (setTask p t) Q := by
  unfold setTask
  exact spec_bind (spec_proc (spec_setProc hq))

theorem spec_filealloc {Q : Option (Fin NFILE) → Tally → Prop} (hnone : Q none x)
    (hsome : ∀ f, (x.procs.ftable f).ref = 0 →
      Q (some f) (x.setFile f { x.procs.ftable f with ref := 1 })) :
    Spec sb x filealloc Q := by
  unfold filealloc
  refine spec_bind (spec_procs ?_)
  cases hfind : (List.finRange NFILE).find? fun f => (x.procs.ftable f).ref == 0 with
  | none => exact spec_pure hnone
  | some f =>
    have hfree := beq_iff_eq.mp
      (List.find?_some (p := fun f => (x.procs.ftable f).ref == 0) hfind)
    exact spec_bind (spec_setFile (spec_pure (hsome f hfree)))

theorem spec_filedup
    (hq : Q () (x.setFile f { x.procs.ftable f with ref := (x.procs.ftable f).ref + 1 })) :
    Spec sb x (filedup f) Q := by
  unfold filedup
  refine spec_bind (spec_file ?_)
  exact spec_ite (fun _ => spec_panic _) fun _ => spec_setFile hq

theorem spec_argfd {fd : Int} {Q : Option (Fin NOFILE × Fin NFILE) → Tally → Prop}
    (hnone : Q none x) (hsome : ∀ fd f, (x.procs.proc p).ofile fd = some f → Q (some (fd, f)) x) :
    Spec sb x (argfd p fd) Q := by
  unfold argfd
  refine spec_bind (spec_proc ?_)
  split
  next hfd =>
    refine spec_pure ?_
    cases hof : (x.procs.proc p).ofile ⟨fd.toNat, hfd.2⟩ with
    | none => exact hnone
    | some f => exact hsome _ f hof
  · exact spec_pure hnone

theorem spec_fdalloc {Q : Option (Fin NOFILE) → Tally → Prop} (hnone : Q none x)
    (hsome : ∀ fd, (x.procs.proc p).ofile fd = none → Q (some fd) (x.setFd p fd (some f))) :
    Spec sb x (fdalloc p f) Q := by
  unfold fdalloc
  refine spec_bind (spec_proc ?_)
  cases hfind : (List.finRange NOFILE).find? fun fd => ((x.procs.proc p).ofile fd).isNone with
  | none => exact spec_pure hnone
  | some fd =>
    have hfree := Option.isNone_iff_eq_none.mp
      (List.find?_some (p := fun fd => ((x.procs.proc p).ofile fd).isNone) hfind)
    exact spec_bind (spec_setFd (spec_pure (hsome fd hfree)))

theorem spec_fileclose (hmore : 1 < (x.procs.ftable f).ref →
      Q () (x.setFile f { x.procs.ftable f with ref := (x.procs.ftable f).ref - 1 }))
    (hlast : (x.procs.ftable f).ref = 1 → (x.procs.ftable f).inodeOf = none →
      Q () (x.setFile f { x.procs.ftable f with ref := 0, type := .none }))
    (hinode : ∀ ip, (x.procs.ftable f).ref = 1 → (x.procs.ftable f).inodeOf = some ip →
      Q () ((x.setFile f { x.procs.ftable f with ref := 0, type := .none }).drop ip)) :
    Spec sb x (fileclose f) Q := by
  unfold fileclose
  refine spec_bind (spec_file ?_)
  refine spec_ite (fun _ => spec_panic _) fun hused => ?_
  refine spec_ite (fun hpos => spec_setFile (hmore (by omega))) fun hpos => ?_
  have hone : (x.procs.ftable f).ref = 1 := by omega
  -- The entry is free before the inode is let go: `ff` is a copy of it.
  refine spec_bind (spec_setFile ?_)
  refine spec_ite (fun htype => ?_) fun htype => ?_
  · refine spec_bind (spec_beginOp ?_)
    refine spec_bind (spec_iput ?_)
    exact spec_endOp (hinode _ hone (File.inodeOf_eq_some htype))
  · exact spec_pure (hlast hone (if_neg htype))

end Tables

section Reading

variable {F : Fin NFILE → File} {e : Fin NFILE → Int}

theorem Good.setOff (h : Good F e x) (off : Nat) :
    Good F e (x.setFile f { x.procs.ftable f with off := off }) := by
  refine ⟨h.1.setFile_same rfl (h.1.closed f) fun g => ?_, h.2.setFile Iff.rfl (.inl rfl)⟩
  split_ifs
  · dsimp only
    omega
  · omega

theorem good_filestat {copied : Bool} (h : Good F e x) :
    Spec sb x (filestat f copied) fun _ y => Good F e y := by
  unfold filestat
  refine spec_bind (spec_file ?_)
  refine spec_ite (fun _ => ?_) fun _ => spec_pure h
  refine spec_bind (spec_ilock ?_)
  refine spec_bind (spec_load fun a => ?_)
  exact spec_bind (spec_iunlock (spec_pure h))

variable {m : UserMem} {addr : Nat} {n other : Int}

theorem good_fileread (h : Good F e x) :
    Spec sb x (fileread f m addr n other) fun _ y => Good F e y := by
  unfold fileread
  refine spec_bind (spec_file ?_)
  refine spec_ite (fun _ => spec_pure h) fun _ => ?_
  split
  · exact spec_pure h
  · exact spec_pure h
  · refine spec_bind (spec_ilock ?_)
    refine spec_bind (spec_readi fun r => ?_)
    refine spec_ite (fun _ => ?_) fun _ => ?_
    · refine spec_bind (spec_setFile ?_)
      exact spec_bind (spec_iunlock (spec_pure (Good.setOff h _)))
    · exact spec_bind (spec_iunlock (spec_pure h))
  · exact spec_panic _

theorem Good.setTask (h : Good F e x) {t : Task}
    (ht : ∀ n, t = .exiting n → ∀ fd : Fin NOFILE, fd.val < n → (x.procs.proc p).ofile fd = none) :
    Good F e (x.setProc p { x.procs.proc p with task := t }) := ⟨h.1.setTask ht, h.2⟩

theorem good_filewriteStart (h : Good F e x) :
    Spec sb x (filewriteStart p f addr n other) fun _ y => Good F e y := by
  unfold filewriteStart
  refine spec_bind (spec_file ?_)
  refine spec_ite (fun _ => spec_pure h) fun _ => ?_
  split
  · exact spec_pure h
  · exact spec_pure h
  · refine spec_ite (fun _ => ?_) fun _ => spec_pure h
    refine spec_bind (spec_setTask ?_)
    refine spec_pure (Good.setTask h fun k hk => ?_)
    cases hk
  · exact spec_panic _

theorem good_filewritePass {n i : Nat} (h : Good F e x) :
    Spec sb x (filewritePass p f m addr n i) fun _ y => Good F e y := by
  have hend : ∀ (y : Tally) (r : Int), Good F e y → Spec sb y (do
      endOp
      if r ≠ (min (n - i) WRITEMAX : Nat) then
        setTask p .idle
        return (-1 : Int)
      else if i + min (n - i) WRITEMAX < n then
        setTask p (.writing f addr n (i + min (n - i) WRITEMAX))
        return (n : Int)
      else
        setTask p .idle
        return (n : Int)) fun _ y => Good F e y := by
    intro y r hy
    refine spec_bind (spec_endOp ?_)
    refine spec_ite (fun _ => ?_) fun _ => ?_
    · exact spec_bind (spec_setTask (spec_pure (Good.setTask hy fun k hk => nomatch hk)))
    · refine spec_ite (fun _ => ?_) fun _ => ?_
      · exact spec_bind (spec_setTask (spec_pure (Good.setTask hy fun k hk => nomatch hk)))
      · exact spec_bind (spec_setTask (spec_pure (Good.setTask hy fun k hk => nomatch hk)))
  unfold filewritePass
  refine spec_bind (spec_file ?_)
  refine spec_bind (spec_beginOp ?_)
  refine spec_bind (spec_ilock ?_)
  refine spec_bind (spec_writei fun r => ?_)
  refine spec_ite (fun _ => ?_) fun _ => ?_
  · refine spec_bind (spec_setFile ?_)
    exact spec_bind (spec_iunlock (hend _ r (Good.setOff h _)))
  · exact spec_bind (spec_iunlock (hend _ r h))

end Reading

section Calls

variable {F : Fin NFILE → File}

/-- The process that makes a call is there and has nothing else to finish. -/
def Calling (p : Fin NPROC) (x : Tally) : Prop :=
  (x.procs.proc p).cwd ≠ none ∧ (x.procs.proc p).task = .idle

variable {e : Fin NFILE → Int} {path : Option Path}

theorem Good.filedup (h : Good F e x) :
    Good F (fun g => e g + if g = f then 1 else 0)
      (x.setFile f { x.procs.ftable f with ref := (x.procs.ftable f).ref + 1 }) := by
  refine ⟨h.1.setFile_same rfl (fun hz => absurd hz (Nat.succ_ne_zero _)) fun g => ?_,
    h.2.setFile Iff.rfl (.inl rfl)⟩
  split_ifs
  · dsimp only
    omega
  · omega

theorem good_sysDup {fd : Int} (h : Good F 0 x) (hp : Calling p x) :
    Spec sb x (sysDup p fd) fun _ y => Good F 0 y := by
  unfold sysDup
  refine spec_bind (spec_argfd (spec_pure h) fun fd f _ => ?_)
  refine spec_bind (spec_fdalloc (spec_pure h) fun fd' hfree => ?_)
  -- The descriptor is there before it is counted.
  have hless : Counted (fun g => if g = f then -1 else 0) (x.setFd p fd' (some f)) := by
    refine h.1.setFd (.inr hp) fun g => ?_
    rw [hfree]
    by_cases hg : g = f
    · rw [hg]
      simp
    · simp [hg, Ne.symm hg]
  refine spec_bind (spec_filedup (spec_pure ?_))
  have hgood := Good.filedup (f := f) (x := x.setFd p fd' (some f)) ⟨hless, h.2⟩
  refine ⟨hgood.1.congr fun g => ?_, hgood.2⟩
  split_ifs <;> rfl

theorem good_openBad {y : Tally} (h : Good F 0 y) :
    Spec sb (y.bump ip) (openBad ip) fun _ y => Good F 0 y := by
  unfold openBad
  refine spec_bind (spec_iunlockput ?_)
  rw [drop_bump]
  exact spec_bind (spec_endOp (spec_pure h))

theorem Good.filealloc (h : Good F e x) (hfree : (x.procs.ftable f).ref = 0) :
    Good F (fun g => e g + if g = f then 1 else 0)
      (x.setFile f { x.procs.ftable f with ref := 1 }) := by
  refine ⟨h.1.setFile_same rfl (fun hz => absurd hz Nat.one_ne_zero) fun g => ?_,
    h.2.setFile Iff.rfl (.inl rfl)⟩
  split_ifs
  · dsimp only
    rw [hfree]
    rfl
  · rfl

/-- A file that has been taken, and has neither a type nor a descriptor. -/
structure Taken (F : Fin NFILE → File) (f : Fin NFILE) (x : Tally) : Prop where
  good : Good F (fun g => if g = f then 1 else 0) x
  type : (x.procs.ftable f).type = .none
  ref : (x.procs.ftable f).ref = 1

namespace Taken

theorem of_filealloc (h : Good F 0 x) (hfree : (x.procs.ftable f).ref = 0) :
    Taken F f (x.setFile f { x.procs.ftable f with ref := 1 }) := by
  have hself : (x.setFile f { x.procs.ftable f with ref := 1 }).procs.ftable f =
      { x.procs.ftable f with ref := 1 } := Function.update_self _ _ _
  have hgood := Good.filealloc h hfree
  refine ⟨⟨hgood.1.congr fun g => ?_, hgood.2⟩, ?_, ?_⟩
  · exact Int.zero_add _
  · rw [hself]
    exact h.1.closed f hfree
  · rw [hself]

theorem inodeOf_eq (h : Taken F f x) : (x.procs.ftable f).inodeOf = none := by
  unfold File.inodeOf
  rw [h.type]
  rfl

theorem drop (h : Taken F f x) :
    Good F 0 (x.setFile f { x.procs.ftable f with ref := 0, type := .none }) := by
  refine ⟨h.good.1.setFile_same ?_ (fun _ => rfl) fun g => ?_, h.good.2.setFile ?_ (.inl rfl)⟩
  · rw [h.inodeOf_eq]
    rfl
  · rw [h.ref]
    split_ifs <;> rfl
  · rw [h.type]

theorem install (h : Taken F f x) (hp : Calling p x) {fd : Fin NOFILE}
    (hfd : (x.procs.proc p).ofile fd = none) {y : File} (href : y.ref = 1)
    (hino : y.inodeOf = some ip) (htype : y.type ≠ .pipe) :
    Good F 0 (((x.bump ip).setFd p fd (some f)).setFile f y) := by
  have hzero : Counted 0 (x.setFd p fd (some f)) := by
    refine h.good.1.setFd (.inr hp) fun g => ?_
    rw [hfd]
    by_cases hg : g = f
    · rw [hg]
      simp
    · simp [hg, Ne.symm hg]
  have hnot : (x.procs.ftable f).type ≠ .pipe := by
    rw [h.type]
    decide
  refine ⟨hzero.setFile (fun jp => ?_) (fun hz => by omega) fun g => ?_, ?_⟩
  · have hold : ((x.setFd p fd (some f)).procs.ftable f).inodeOf = none := h.inodeOf_eq
    rw [hold, hino]
    change (x.bump ip).refs jp + _ = x.refs jp + _
    unfold Tally.bump
    by_cases hj : jp = ip
    · rw [hj]
      simp
    · simp [hj, Ne.symm hj]
  · have hold : ((x.setFd p fd (some f)).procs.ftable f).ref = 1 := h.ref
    rw [hold, href]
    split_ifs <;> rfl
  · refine SameEnds.setFile (P := (x.setFd p fd (some f)).procs) h.good.2 ?_ (.inr hnot)
    exact ⟨fun hx => absurd hx htype, fun hx => absurd hx hnot⟩

end Taken

/-- The exit of `sys_open` where there is a file but no descriptor. Only the reference to
    the file goes, because it has no type yet. -/
theorem good_openNoFd (h : Taken F f x) : Spec sb (x.bump ip) (do
    fileclose f
    openBad ip) fun _ y => Good F 0 y := by
  refine spec_bind (spec_fileclose (fun hmore => ?_) (fun _ _ => ?_) fun jp _ hjp => ?_)
  · have href : ((x.bump ip).procs.ftable f).ref = 1 := h.ref
    omega
  · exact good_openBad (y := x.setFile f { x.procs.ftable f with ref := 0, type := .none }) h.drop
  · have hnone : ((x.bump ip).procs.ftable f).inodeOf = none := h.inodeOf_eq
    rw [hnone] at hjp
    cases hjp

theorem good_sysOpen {omode : UInt32} (h : Good F 0 x) (hp : Calling p x) :
    Spec sb x (sysOpen p path omode) fun _ y => Good F 0 y := by
  unfold sysOpen
  split
  · exact spec_pure h
  · refine spec_bind (spec_beginOp ?_)
    refine spec_bind (spec_openInode ?_ fun ip => ?_)
    · exact spec_bind (spec_endOp (spec_pure h))
    refine spec_bind (spec_load fun a => ?_)
    refine spec_ite (fun _ => good_openBad h) fun _ => ?_
    refine spec_bind (spec_filealloc (good_openBad h) fun f hfree => ?_)
    -- From here on the file and the inode are both in hand.
    have htaken := Taken.of_filealloc h hfree
    have hcall : Calling p (x.setFile f { x.procs.ftable f with ref := 1 }) := hp
    change Spec sb (Tally.bump (x.setFile f { x.procs.ftable f with ref := 1 }) ip) _ _
    obtain ⟨x1, hx1⟩ : ∃ x1, x1 = x.setFile f { x.procs.ftable f with ref := 1 } := ⟨_, rfl⟩
    rw [← hx1] at htaken hcall ⊢
    refine spec_bind (spec_fdalloc (good_openNoFd htaken) fun fd hfd => ?_)
    have hend : ∀ z, Good F 0 z → Spec sb z (do
        iunlock ip
        endOp
        return (fd.val : Int)) fun _ y => Good F 0 y :=
      fun z hz => spec_bind (spec_iunlock (spec_bind (spec_endOp (spec_pure hz))))
    refine spec_bind (spec_file ?_)
    refine spec_bind (spec_setFile ?_)
    have hopen := htaken.install hcall hfd
      (y := { ((x1.bump ip).setFd p fd (some f)).procs.ftable f with
        type := if a.type = T_DEVICE then .device else .inode
        major := if a.type = T_DEVICE then a.major else
          (((x1.bump ip).setFd p fd (some f)).procs.ftable f).major
        off := if a.type = T_DEVICE then
          (((x1.bump ip).setFd p fd (some f)).procs.ftable f).off else 0
        ip := ip
        readable := omode &&& O_WRONLY == 0
        writable := omode &&& O_WRONLY != 0 || omode &&& O_RDWR != 0 })
      htaken.ref (File.inodeOf_eq_some (by dsimp only; split_ifs <;> simp))
      (by dsimp only; split_ifs <;> decide)
    refine spec_ite (fun _ => ?_) fun _ => hend _ hopen
    exact spec_bind (spec_itrunc (hend _ hopen))

theorem good_sysChdir (h : Good F 0 x) :
    Spec sb x (sysChdir p path) fun _ y => Good F 0 y := by
  unfold sysChdir
  refine spec_bind (spec_beginOp ?_)
  split
  · exact spec_bind (spec_endOp (spec_pure h))
  · refine spec_bind (spec_namei ?_ fun ip => ?_)
    · exact spec_bind (spec_endOp (spec_pure h))
    refine spec_bind (spec_ilock ?_)
    refine spec_bind (spec_load fun a => ?_)
    refine spec_ite (fun _ => ?_) fun _ => ?_
    · refine spec_bind (spec_iunlockput ?_)
      rw [drop_bump]
      exact spec_bind (spec_endOp (spec_pure h))
    · refine spec_bind (spec_iunlock ?_)
      refine spec_bind (spec_proc ?_)
      split
      · exact spec_stop _
      next cwd hcwd =>
        have hcwd' : (x.procs.proc p).cwd = some cwd := hcwd
        refine spec_bind (spec_iput ?_)
        refine spec_bind (spec_endOp ?_)
        refine spec_bind (spec_setProc (spec_pure ?_))
        refine ⟨h.1.setProc (fun jp => ?_) (fun hx => nomatch hx) (h.1.exiting p) fun g => rfl, h.2⟩
        -- The old directory is given up for the new one, which may be the same.
        have hpos := h.1.refs_cwd_pos hcwd'
        rw [hcwd']
        unfold Tally.drop Tally.bump
        by_cases hj : jp = cwd
        · subst hj
          by_cases hi : jp = ip
          · subst hi
            simp
          · simp [hi, Ne.symm hi]
            omega
        · by_cases hi : jp = ip
          · subst hi
            simp [hj, Ne.symm hj]
          · simp [hj, hi, Ne.symm hj, Ne.symm hi]

theorem good_exitStart (h : Good F 0 x) : Spec sb x (exitStart p) fun _ y => Good F 0 y := by
  unfold exitStart
  refine spec_ite (fun _ => spec_panic _) fun _ => ?_
  refine spec_bind (spec_setTask (spec_pure (Good.setTask h fun n hn fd hfd => ?_)))
  cases hn
  exact absurd hfd (Nat.not_lt_zero _)

theorem spec_dupFiles {ofile : Fin NOFILE → Option (Fin NFILE)} (l : List (Fin NOFILE))
    (h : Good F e x) {Q : Unit → Tally → Prop}
    (hq : ∀ y, Good F (fun g => e g + (l.filter fun fd => ofile fd = some g).length) y →
      y.procs.proc = x.procs.proc → y.refs = x.refs → Q () y) : Spec sb x (dupFiles ofile l) Q := by
  induction l generalizing x e with
  | nil =>
    refine spec_pure (hq x ⟨h.1.congr fun g => ?_, h.2⟩ rfl rfl)
    simp
  | cons fd fds ih =>
    rw [dupFiles]
    cases hof : ofile fd with
    | none =>
      refine ih h fun y hy hproc hrefs => hq y ⟨hy.1.congr fun g => ?_, hy.2⟩ hproc hrefs
      simp [hof]
    | some f =>
      refine spec_bind (spec_filedup (ih (Good.filedup h) fun y hy hproc hrefs => ?_))
      refine hq y ⟨hy.1.congr fun g => ?_, hy.2⟩ hproc hrefs
      by_cases hg : g = f
      · subst hg
        simp [hof]
        omega
      · simp [hof, hg, Ne.symm hg]

theorem good_fork {copied : Bool} (h : Good F 0 x) :
    Spec sb x (fork p copied) fun _ y => Good F 0 y := by
  unfold fork
  refine spec_bind (spec_procs ?_)
  cases hfind : (List.finRange NPROC).find? fun q => (x.procs.proc q).cwd.isNone with
  | none => exact spec_pure h
  | some np =>
    have hfree := Option.isNone_iff_eq_none.mp
      (List.find?_some (p := fun q => (x.procs.proc q).cwd.isNone) hfind)
    refine spec_ite (fun _ => spec_pure h) fun _ => ?_
    cases hcwd : (x.procs.proc p).cwd with
    | none => exact spec_stop _
    | some cwd =>
      refine spec_bind (spec_dupFiles _ h fun y hy hproc hrefs => ?_)
      refine spec_bind (spec_idup ?_)
      refine spec_bind (spec_setProc (spec_pure ?_))
      refine ⟨hy.1.setProc (fun jp => ?_) (fun hx => nomatch hx) (fun n hn => nomatch hn)
        fun g => ?_, hy.2⟩
      · rw [hproc, hfree]
        unfold Tally.bump
        by_cases hj : jp = cwd
        · subst hj
          simp
        · simp [hj, Ne.symm hj]
      · -- The slot was not in use and had no descriptors.
        have hnone : count (y.procs.proc np).ofile Finset.univ g = 0 := by
          rw [hproc]
          refine Finset.card_eq_zero.mpr (Finset.filter_eq_empty_iff.mpr fun fd _ hfd => ?_)
          rw [h.1.clean np hfree fd] at hfd
          cases hfd
        have hcount : count (x.procs.proc p).ofile Finset.univ g =
            ((List.finRange NOFILE).filter fun fd =>
              (x.procs.proc p).ofile fd = some g).length := rfl
        rw [hnone, hcount]
        simp

theorem good_call {c : Call} (hc : ∀ fd, c ≠ .close fd) (h : Good F 0 x) (hp : Calling p x) :
    Spec sb x (c.code p) fun _ y => Good F 0 y := by
  cases c with
  | «open» path omode => exact good_sysOpen h hp
  | link old new => exact spec_sysLink fun _ => h
  | unlink path => exact spec_sysUnlink fun _ => h
  | mkdir path => exact spec_sysMake fun _ => h
  | mknod path major minor => exact spec_sysMake fun _ => h
  | chdir path => exact good_sysChdir h
  | exec path env => exact spec_exec fun _ => h
  | close fd => exact absurd rfl (hc fd)
  | dup fd => exact good_sysDup h hp
  | read fd m addr n other =>
    exact spec_bind (spec_argfd (spec_pure h) fun _ _ _ => good_fileread h)
  | write fd addr n other =>
    exact spec_bind (spec_argfd (spec_pure h) fun _ _ _ => good_filewriteStart h)
  | fstat fd copied =>
    exact spec_bind (spec_argfd (spec_pure h) fun _ _ _ => good_filestat h)
  | fork copied => exact good_fork h
  | exit => exact good_exitStart h

end Calls

end Ino

end Xv6
