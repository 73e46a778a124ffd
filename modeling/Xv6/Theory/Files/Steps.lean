import Xv6.Lib.Agree
import Xv6.Theory.Files.Making

/-!
# The Counts Are Right

Between two steps of the kernel the reference count of each open file is the number of
descriptors that point to it, that of each inode is the number of open files and working
directories, and an end of a pipe is open exactly while a file in use is that end. This holds
after every sequence of system calls, wherever they fail.

## Theorems

* `Kern.counts_of_steps`: every run keeps the counts
* `Kern.nothing_left`
-/

namespace Xv6

open Function (update update_self update_of_ne)

/-- One reference to each of the files of a list. -/
def hand (l : List (Fin NFILE)) (g : Fin NFILE) : Int := l.count g

namespace Kern

open Prog (spec_pure spec_bind spec_ite)

variable {sb : Superblock} {x : Tally} {t : Pipes} {f : Fin NFILE} {p : Fin NPROC}

/-- The counts are right, but for `e`, and the pipes belong to their files. -/
def Sound (e : Fin NFILE → Int) (v : Tally × Pipes) : Prop :=
  Counted e v.1 ∧ Piped v.1.procs.ftable v.2

section Ends

theorem hand_cons (l : List (Fin NFILE)) (g : Fin NFILE) :
    hand (f :: l) g = hand l g + if g = f then 1 else 0 := by
  unfold hand
  rw [List.count_cons]
  by_cases hg : g = f
  · simp [hg]
  · simp [hg, Ne.symm hg]

theorem sound_fileclose {l : List (Fin NFILE)} (h : Sound (hand (f :: l)) (x, t))
    {Q : Unit → Tally × Pipes → Prop}
    (hq : ∀ y u, Sound (hand l) (y, u) → y.procs.proc = x.procs.proc → Q () (y, u)) :
    Spec sb x t (fileclose f) Q := by
  refine spec_fileclose h.1 h.2 fun y u hy hu hproc => hq y u ⟨hy.congr fun g => ?_, hu⟩ hproc
  rw [hand_cons]
  omega

theorem counted_pipeEnd {e : Fin NFILE → Int} (h : Counted e x)
    (hfree : (x.procs.ftable f).ref = 0) (w : Bool) :
    Counted (fun g => e g + if g = f then 1 else 0)
      (x.setFile f (pipeEnd (x.procs.ftable f) w)) := by
  refine h.setFile_same ?_ (fun hz => absurd hz Nat.one_ne_zero) fun g => ?_
  · unfold File.inodeOf
    rw [h.closed f hfree]
    rfl
  · rw [hfree]
    rfl

theorem sound_pipealloc {page : Option Nat} (h : Sound 0 (x, t))
    (hpage : ∀ pi ∈ page, t.page pi = none)
    {Q : Option (Fin NFILE × Fin NFILE) → Tally × Pipes → Prop}
    (hnone : ∀ y u, Sound 0 (y, u) → Q none (y, u))
    (hsome : ∀ rf wf y u, Sound (hand [rf, wf]) (y, u) → y.procs.proc = x.procs.proc →
      Q (some (rf, wf)) (y, u)) : Spec sb x t (pipealloc page) Q := by
  intro k hk
  obtain ⟨refs, procs⟩ := x
  obtain ⟨⟨hrefs, hprocs⟩, hpipes⟩ := hk
  have hprocs' : procs = k.vol.procs := hprocs.symm
  subst hprocs' hpipes
  unfold Prog.Wp
  rcases pipealloc_cases sb h.1.closed page with hrun | ⟨pi, rf, wf, rfl, hfresh, hrun⟩
  · rw [hrun]
    exact ⟨_, hnone _ _ h, ⟨hrefs, rfl⟩, rfl⟩
  · rw [hrun]
    refine ⟨(⟨refs, (k.piped pi rf wf).vol.procs⟩, (k.piped pi rf wf).pipes),
      hsome rf wf _ _ ⟨?_, ?_⟩ rfl, ⟨hrefs, rfl⟩, rfl⟩
    · have hleft := counted_pipeEnd h.1 hfresh.left false
      have hsame : ∀ y, ((Tally.mk refs k.vol.procs).setFile rf y).procs.ftable wf =
          k.vol.procs.ftable wf := fun y => update_of_ne (Ne.symm hfresh.ne) _ _
      have hright := counted_pipeEnd hleft (f := wf) (by rw [hsame]; exact hfresh.right) true
      rw [hsame] at hright
      refine hright.congr fun g => ?_
      rw [hand_cons, hand_cons]
      change (0 : Int) + _ + _ = 0 + _ + _
      omega
    · refine h.2.alloc (hpage pi rfl) ?_ ?_ hfresh.ne (fun g hg0 hg1 => ?_) ?_ ?_
      · rw [h.1.closed rf hfresh.left]
        exact nofun
      · rw [h.1.closed wf hfresh.right]
        exact nofun
      · exact (update_of_ne hg1 _ _).trans (update_of_ne hg0 _ _)
      · have hrf := hfresh.left_end pi
        exact ⟨congrArg File.type hrf, congrArg File.writable hrf⟩
      · have hwf := hfresh.right_end pi
        exact ⟨congrArg File.type hwf, congrArg File.writable hwf⟩

end Ends

section Calls

theorem sound_pipeBad {rf wf : Fin NFILE} (h : Sound (hand [rf, wf]) (x, t)) :
    Spec sb x t (pipeBad rf wf) fun _ v => Sound 0 v := by
  unfold pipeBad
  refine spec_bind (sound_fileclose h fun y u hy _ => ?_)
  refine spec_bind (sound_fileclose hy fun z v hz _ => spec_pure ?_)
  exact ⟨hz.1.congr fun g => rfl, hz.2⟩

variable {l : List (Fin NFILE)} {fd : Fin NOFILE} {n : Nat}

theorem sound_setFd (h : Sound (hand (f :: l)) (x, t))
    (hp : Ino.Calling p x) (hfd : (x.procs.proc p).ofile fd = none) :
    Sound (hand l) (x.setFd p fd (some f), t) := by
  refine ⟨h.1.setFd (.inr hp) fun g => ?_, h.2⟩
  rw [hfd, hand_cons]
  by_cases hgf : g = f
  · simp [hgf]
  · simp [hgf, Ne.symm hgf]

theorem sound_clearFd (h : Sound (hand l) (x, t))
    (hfd : (x.procs.proc p).ofile fd = some f) : Sound (hand (f :: l)) (x.setFd p fd none, t) := by
  refine ⟨h.1.setFd (.inl rfl) fun g => ?_, h.2⟩
  rw [hfd, hand_cons]
  by_cases hgf : g = f
  · simp [hgf]
  · simp [hgf, Ne.symm hgf]

theorem ofile_setFd_of_ne {fd' : Fin NOFILE} (hne : fd' ≠ fd) (v : Option (Fin NFILE)) :
    ((x.setFd p fd v).procs.proc p).ofile fd' = (x.procs.proc p).ofile fd' := by
  rw [Tally.proc_setFd]
  exact update_of_ne hne _ _

theorem ofile_setFd_self (v : Option (Fin NFILE)) :
    ((x.setFd p fd v).procs.proc p).ofile fd = v := by
  rw [Tally.proc_setFd]
  exact update_self _ _ _

theorem calling_setFd {v : Option (Fin NFILE)} (hp : Ino.Calling p x) :
    Ino.Calling p (x.setFd p fd v) := by
  unfold Ino.Calling
  rw [Tally.proc_setFd]
  exact hp

theorem sound_sysPipe {page : Option Nat} {copied : Bool} (h : Sound 0 (x, t))
    (hp : Ino.Calling p x) (hpage : ∀ pi ∈ page, t.page pi = none) :
    Spec sb x t (sysPipe p page copied) fun _ v => Sound 0 v := by
  unfold sysPipe
  refine spec_bind (sound_pipealloc h hpage (fun y u hy => spec_pure hy)
    fun rf wf y u hy hproc => ?_)
  have hpy : Ino.Calling p y := by
    unfold Ino.Calling
    rw [hproc]
    exact hp
  refine spec_bind (spec_ino (Ino.spec_fdalloc (sound_pipeBad hy) fun fd0 hfd0 => ?_))
  have hy0 := sound_setFd hy hpy hfd0
  have hat0 : ((y.setFd p fd0 (some rf)).procs.proc p).ofile fd0 = some rf :=
    ofile_setFd_self (some rf)
  refine spec_bind (spec_ino (Ino.spec_fdalloc ?_ fun fd1 hfd1 => ?_))
  · refine spec_bind (spec_ino (Ino.spec_setFd ?_))
    exact sound_pipeBad (sound_clearFd hy0 hat0)
  have hy1 := sound_setFd hy0 (calling_setFd hpy) hfd1
  refine spec_ite (fun _ => spec_pure ⟨hy1.1.congr fun g => rfl, hy1.2⟩) fun _ => ?_
  -- The second descriptor was free when the first was taken.
  have hne : fd0 ≠ fd1 := by
    intro hx
    rw [← hx, hat0] at hfd1
    cases hfd1
  refine spec_bind (spec_ino (Ino.spec_setFd ?_))
  refine spec_bind (spec_ino (Ino.spec_setFd ?_))
  have hclear0 := sound_clearFd hy1 ((ofile_setFd_of_ne hne _).trans hat0)
  have hclear1 := sound_clearFd hclear0
    ((ofile_setFd_of_ne (Ne.symm hne) _).trans (ofile_setFd_self (some wf)))
  refine sound_pipeBad ⟨hclear1.1.congr fun g => ?_, hclear1.2⟩
  rw [hand_cons, hand_cons, hand_cons, hand_cons]
  omega

theorem sound_sysClose {fd : Int} (h : Sound 0 (x, t)) :
    Spec sb x t (sysClose p fd) fun _ v => Sound 0 v := by
  unfold sysClose
  refine spec_bind (spec_ino (Ino.spec_argfd (spec_pure h) fun fd f hfd => ?_))
  refine spec_bind (spec_ino (Ino.spec_setFd ?_))
  have hhand : Sound (hand []) (x, t) := ⟨h.1.congr fun g => rfl, h.2⟩
  refine spec_bind (sound_fileclose (sound_clearFd hhand hfd) fun y u hy _ => spec_pure ?_)
  exact ⟨hy.1.congr fun g => rfl, hy.2⟩

theorem sound_exitEnd (h : Sound 0 (x, t)) (hn : ¬ n < NOFILE)
    (htask : (x.procs.proc p).task = .exiting n) :
    Spec sb x t (ino (Ino.exitPass p n)) fun _ v => Sound 0 v := by
  unfold Ino.exitPass
  refine spec_ino (spec_bind (Ino.spec_proc ?_))
  rw [dif_neg hn]
  cases hcwd : (x.procs.proc p).cwd with
  | none => exact Ino.spec_stop _
  | some cwd =>
    refine spec_bind (Ino.spec_beginOp ?_)
    refine spec_bind (Ino.spec_iput ?_)
    refine spec_bind (Ino.spec_endOp ?_)
    refine spec_bind (Ino.spec_setProc (spec_pure ⟨?_, h.2⟩))
    refine h.1.setProc (fun jp => ?_) (fun _ fd => ?_) (fun k hk => nomatch hk) fun g => rfl
    · have hpos : 0 < x.refs cwd := h.1.refs_cwd_pos hcwd
      rw [hcwd]
      change update x.refs cwd (x.refs cwd - 1) jp + _ = _
      by_cases hj : jp = cwd
      · subst hj
        simp only [update_self, if_true, reduceCtorEq, if_false]
        omega
      · simp [hj, Ne.symm hj]
    · exact h.1.exiting p n htask fd (by omega)

theorem sound_exitPass (h : Sound 0 (x, t)) (htask : (x.procs.proc p).task = .exiting n) :
    Spec sb x t (exitPass p n) fun _ v => Sound 0 v := by
  unfold exitPass
  refine spec_bind (spec_ino (Ino.spec_proc ?_))
  split
  next hn =>
    -- The descriptors before this one are closed already.
    have hbefore : ∀ y : Tally, (∀ fd : Fin NOFILE, fd.val < n →
        (x.procs.proc p).ofile fd = (y.procs.proc p).ofile fd) →
        (y.procs.proc p).ofile ⟨n, hn⟩ = none → ∀ k, Task.exiting (n + 1) = .exiting k →
        ∀ fd : Fin NOFILE, fd.val < k → (y.procs.proc p).ofile fd = none := by
      intro y hsame hnone k hk fd hfd
      cases hk
      by_cases hlt : fd.val < n
      · rw [← hsame fd hlt]
        exact h.1.exiting p n htask fd hlt
      · have hfn : fd = ⟨n, hn⟩ := Fin.ext (show fd.val = n by omega)
        rw [hfn]
        exact hnone
    cases hof : (x.procs.proc p).ofile ⟨n, hn⟩ with
    | none =>
      refine spec_bind (spec_ino (Ino.spec_setTask (spec_pure ⟨?_, h.2⟩)))
      exact h.1.setTask (hbefore x (fun _ _ => rfl) hof)
    | some f =>
      -- Here the file is closed before the descriptor goes: for a moment there is one
      -- reference too few.
      refine spec_bind (spec_fileclose h.1 h.2 fun y u hy hu hproc => ?_)
      refine spec_bind (spec_ino (Ino.spec_setFd ?_))
      have hof' : (y.procs.proc p).ofile ⟨n, hn⟩ = some f := by
        rw [hproc]
        exact hof
      have hzero : Counted 0 (y.setFd p ⟨n, hn⟩ none) := by
        refine hy.setFd (.inl rfl) fun g => ?_
        rw [hof']
        by_cases hg : g = f
        · simp [hg]
        · simp [hg, Ne.symm hg]
      refine spec_bind (spec_ino (Ino.spec_setTask (spec_pure ⟨?_, hu⟩)))
      refine hzero.setTask (hbefore _ (fun fd hfd => ?_) (ofile_setFd_self none))
      have hne : fd ≠ ⟨n, hn⟩ := fun hx => by
        rw [hx] at hfd
        exact absurd hfd (Nat.lt_irrefl n)
      rw [ofile_setFd_of_ne hne, hproc]
  next hn => exact sound_exitEnd h hn htask

theorem sound_ino {c : IProg Int} (h : Sound 0 (x, t))
    (hc : Good x.procs.ftable 0 x → Ino.Spec sb x c fun _ y => Good x.procs.ftable 0 y) :
    Spec sb x t (ino c) fun _ v => Sound 0 v := by
  refine spec_ino (Prog.spec_mono (hc ⟨h.1, SameEnds.refl _⟩) fun a y hy => ?_)
  exact ⟨hy.1, h.2.congr hy.2⟩

theorem sound_callCode {c : Call} (h : Sound 0 (x, t)) (hp : Ino.Calling p x) :
    Spec sb x t (callCode p c) fun _ v => Sound 0 v := by
  by_cases hc : ∃ fd, c = .close fd
  · obtain ⟨fd, rfl⟩ := hc
    exact sound_sysClose h
  · have hne : ∀ fd, c ≠ .close fd := fun fd hx => hc ⟨fd, hx⟩
    have hcode : callCode p c = ino (c.code p) := by
      cases c with
      | close fd => exact absurd rfl (hne fd)
      | _ => rfl
    rw [hcode]
    exact sound_ino h fun hg => Ino.good_call hne hg hp

end Calls

section Runs

variable {k k' : Kern}

/-- The file is one end of the pipe at `a`, the one for writing if `w`. -/
def IsEnd (k : Kern) (f : Fin NFILE) (a : Nat) (w : Bool) : Prop :=
  0 < (k.vol.procs.ftable f).ref ∧ (k.vol.procs.ftable f).type = .pipe ∧ k.pipes.pipe f = a ∧
    (k.vol.procs.ftable f).writable = w

/-- Files, inodes and pipes have the references they say. A file that is not in use has no
    type, so that it does not stand for an inode. -/
structure Counts (k : Kern) : Prop where
  files : ∀ f, (k.vol.procs.ftable f).ref = k.vol.procs.slots f
  inodes : ∀ ip, (k.vol.itable ip).ref = k.vol.procs.opens ip + k.vol.procs.cwds ip
  unused : ∀ f, (k.vol.procs.ftable f).ref = 0 → (k.vol.procs.ftable f).type = .none
  readopen : ∀ a y, k.pipes.page a = some y → (y.readopen = true ↔ ∃ f, k.IsEnd f a false)
  writeopen : ∀ a y, k.pipes.page a = some y → (y.writeopen = true ↔ ∃ f, k.IsEnd f a true)
  freed : ∀ a, k.pipes.page a = none ↔ ∀ f w, ¬ k.IsEnd f a w

/-- The invariant of the run. -/
def Right (k : Kern) : Prop := ∃ x t, Shows (x, t) k ∧ Sound 0 (x, t)

theorem right_boot (disk : Nat → Block) : (boot sb disk).Right := by
  refine ⟨⟨fun ip => if ip = 0 then 1 else 0, (boot sb disk).vol.procs⟩, (boot sb disk).pipes,
    ⟨⟨fun ip => rfl, rfl⟩, rfl⟩, ⟨fun f => ?_, fun ip => ?_, fun f _ => rfl, fun q _ fd => rfl,
      fun q n hn => (nomatch hn)⟩, ⟨fun f hf => (nomatch hf), fun f g hf => (nomatch hf),
      fun a y w ha => (nomatch ha), fun a y ha => (nomatch ha)⟩⟩
  · -- No descriptor is in use.
    have hnone : (boot sb disk).vol.procs.slots f = 0 := by
      refine Finset.sum_eq_zero fun q _ => ?_
      exact Finset.card_eq_zero.mpr (Finset.filter_eq_empty_iff.mpr fun fd _ hfd => nomatch hfd)
    dsimp only
    rw [hnone]
    rfl
  · have hopens : (boot sb disk).vol.procs.opens ip = 0 := by
      unfold Procs.opens count
      refine Finset.card_eq_zero.mpr (Finset.filter_eq_empty_iff.mpr fun f _ hf => ?_)
      cases hf
    have hcwds : (boot sb disk).vol.procs.cwds ip = if ip = 0 then 1 else 0 := by
      have hfun : (fun q => ((boot sb disk).vol.procs.proc q).cwd) =
          update (fun _ => none) 0 (some 0) := by
        funext q
        by_cases hq : q = 0
        · rw [hq]
          rfl
        · rw [update_of_ne hq]
          exact if_neg hq
      have hzero : count (fun _ : Fin NPROC => (none : Option (Fin NINODE))) Finset.univ ip = 0 :=
        Finset.card_eq_zero.mpr (Finset.filter_eq_empty_iff.mpr fun f _ hf => nomatch hf)
      have hcount := count_update (f := fun _ : Fin NPROC => (none : Option (Fin NINODE)))
        (Finset.mem_univ 0) (some 0) ip
      unfold Procs.cwds
      rw [hfun]
      rw [hzero] at hcount
      by_cases hip : ip = 0
      · subst hip
        simpa using hcount
      · simpa [hip, Ne.symm hip] using hcount
    dsimp only
    rw [hopens, hcwds, Nat.zero_add]

theorem right_of_run {c : KProg Int} (hk : k.Right)
    (hc : ∀ x t, Shows (x, t) k → Sound 0 (x, t) → Spec sb x t c fun _ v => Sound 0 v)
    (hrun : (c.run (handle sb) k).map Prod.snd = .ok k') : k'.Right := by
  obtain ⟨x, t, hshows, hsound⟩ := hk
  cases hr : c.run (handle sb) k with
  | error e =>
    rw [hr] at hrun
    cases hrun
  | ok r =>
    rw [hr] at hrun
    cases hrun
    obtain ⟨v, hv, hshows'⟩ := (hc x t hshows hsound).run hshows hr
    exact ⟨v.1, v.2, hshows', hv⟩

theorem right_step {a : Event} (hk : k.Right) (hs : k.step sb a = some (.ok k')) : k'.Right := by
  have hready : ∀ {q x t}, k.Ready q → Shows (x, t) k → Ino.Calling q x := by
    intro q x t hq hshows
    obtain ⟨hcwd, htask⟩ := hq
    unfold Ino.Calling
    rw [← hshows.1.2]
    refine ⟨fun hnone => ?_, htask⟩
    rw [hnone] at hcwd
    cases hcwd
  cases a with
  | call q c => grind [step, code, right_of_run, sound_callCode]
  | pipe q page copied =>
    simp only [step, code] at hs
    split_ifs at hs with hq
    · refine right_of_run hk (fun x t hshows hsound => ?_) (Option.some.inj hs)
      refine sound_sysPipe hsound (hready hq.1 hshows) fun pi hpi => ?_
      have hpipes : k.pipes = t := hshows.2
      rw [← hpipes]
      exact hq.2 pi hpi
    · cases hs
  | resume q m =>
    simp only [step, code] at hs
    split_ifs at hs
    · cases htask : (k.vol.procs.proc q).task with
      | idle =>
        rw [htask] at hs
        cases hs
      | writing f addr n i =>
        rw [htask] at hs
        refine right_of_run hk (fun x t hshows hsound => ?_) (Option.some.inj hs)
        exact sound_ino hsound fun hg => Ino.good_filewritePass hg
      | exiting n =>
        rw [htask] at hs
        refine right_of_run hk (fun x t hshows hsound => ?_) (Option.some.inj hs)
        have hprocs : k.vol.procs = x.procs := hshows.1.2
        refine sound_exitPass hsound ?_
        rw [← hprocs]
        exact htask
    · cases hs
  | evict b =>
    cases hs
    obtain ⟨x, t, ⟨hshows, hpipes⟩, hsound⟩ := hk
    have htab : (k.vol.evict b).itable = k.vol.itable ∧ (k.vol.evict b).procs = k.vol.procs := by
      unfold Vol.evict
      split_ifs
      · exact ⟨rfl, rfl⟩
      · exact ⟨rfl, rfl⟩
    refine ⟨x, t, ⟨⟨fun ip => ?_, ?_⟩, hpipes⟩, hsound⟩
    · dsimp only
      rw [htab.1]
      exact hshows.1 ip
    · dsimp only
      rw [htab.2]
      exact hshows.2

theorem right_steps {es : List Event} (hk : k.Right) (hs : k.steps sb es = some (.ok k')) :
    k'.Right := by
  induction es generalizing k with
  | nil =>
    cases hs
    exact hk
  | cons a es ih =>
    rw [steps] at hs
    split at hs
    · cases hs
    · cases hs
    next k1 hstep => exact ih (right_step hk hstep) hs

theorem Right.counts (hk : k.Right) : k.Counts := by
  obtain ⟨x, t, ⟨⟨hrefs, hprocs⟩, hpipes⟩, hcount, hpiped⟩ := hk
  replace hprocs : k.vol.procs = x.procs := hprocs
  replace hpipes : k.pipes = t := hpipes
  replace hcount : Counted 0 x := hcount
  replace hpiped : Piped x.procs.ftable t := hpiped
  -- A file with a type is in use.
  have huse : ∀ f, (k.vol.procs.ftable f).type = .pipe → 0 < (k.vol.procs.ftable f).ref := by
    intro f hf
    rw [hprocs] at hf ⊢
    by_contra hz
    have htype := hcount.closed f (by omega)
    rw [hf] at htype
    cases htype
  have hopen : ∀ a y w, k.pipes.page a = some y → (y.opened w = true ↔ ∃ f, k.IsEnd f a w) := by
    intro a y w ha
    rw [hpipes] at ha
    refine ⟨fun hw => ?_, fun ⟨f, _, hf, hpipe, hw⟩ => ?_⟩
    · obtain ⟨f, hf, hpipe, hfw⟩ := hpiped.owner a y w ha hw
      rw [← hprocs] at hf hfw
      refine ⟨f, huse f hf, hf, ?_, hfw⟩
      rw [hpipes]
      exact hpipe
    · grind [hpiped.page]
  refine ⟨fun f => ?_, fun ip => ?_, fun f hf => ?_, fun a y ha => hopen a y false ha,
    fun a y ha => hopen a y true ha, fun a => ⟨fun hnone f w hend => ?_, fun hno => ?_⟩⟩
  · have hfiles := hcount.files f
    rw [hprocs]
    dsimp only [Pi.zero_apply] at hfiles
    omega
  · rw [hrefs ip, hprocs]
    exact hcount.inodes ip
  · rw [hprocs] at hf ⊢
    exact hcount.closed f hf
  · obtain ⟨-, hf, hpipe, -⟩ := hend
    rw [hprocs] at hf
    rw [hpipes] at hpipe hnone
    obtain ⟨z, hz, -⟩ := hpiped.page f hf
    rw [hpipe, hnone] at hz
    cases hz
  · cases ha : k.pipes.page a with
    | none => rfl
    | some y => grind [hpiped.live]

/-- After every run of system calls from the start of the first process, on any disk, the
    references to files, inodes and pipes are counted right. -/
theorem counts_of_steps {disk : Nat → Block} {es : List Event}
    (hs : (boot sb disk).steps sb es = some (.ok k)) : k.Counts :=
  (right_steps (right_boot disk) hs).counts

/-- The first process makes a pipe, forks, and closes its end for reading. -/
theorem counts_of_pipe_fork_close : ∃ k, (boot mkfs.sb mkfs.image).steps mkfs.sb
    [.pipe 0 (some 7) true, .call 0 (.fork true), .call 0 (.close 0)] = some (.ok k) ∧
      (k.vol.procs.ftable 0).ref = 1 ∧ (k.vol.procs.ftable 1).ref = 2 ∧ k.Counts := by
  obtain ⟨k, hk, hrefs⟩ : ∃ k, (boot mkfs.sb mkfs.image).steps mkfs.sb
      [.pipe 0 (some 7) true, .call 0 (.fork true), .call 0 (.close 0)] = some (.ok k) ∧
      ((k.vol.procs.ftable 0).ref = 1 ∧ (k.vol.procs.ftable 1).ref = 2) :=
    exists_of_run (by decide +kernel)
  exact ⟨k, hk, hrefs.1, hrefs.2, counts_of_steps hk⟩

/-- Nothing is left behind. When all descriptors are closed, by whatever calls, forks and exits,
    no file is in use, the pages of all pipes are free, and only working directories keep inodes. -/
theorem nothing_left {disk : Nat → Block} {es : List Event}
    (hs : (boot sb disk).steps sb es = some (.ok k))
    (hclosed : ∀ q fd, (k.vol.procs.proc q).ofile fd = none) :
    (∀ f, (k.vol.procs.ftable f).ref = 0 ∧ (k.vol.procs.ftable f).type = .none) ∧
    (∀ a, k.pipes.page a = none) ∧ ∀ ip, (k.vol.itable ip).ref = k.vol.procs.cwds ip := by
  have hk := (right_steps (right_boot disk) hs).counts
  have hfile : ∀ f, (k.vol.procs.ftable f).ref = 0 ∧ (k.vol.procs.ftable f).type = .none := by
    intro f
    have hz : (k.vol.procs.ftable f).ref = 0 := by
      rw [hk.files, Procs.slots]
      simp [Xv6.count, hclosed]
    exact ⟨hz, hk.unused f hz⟩
  refine ⟨hfile, fun a => (hk.freed a).2 fun f w h => ?_, fun ip => ?_⟩
  · exact absurd (hfile f).1 h.1.ne'
  · rw [hk.inodes, Procs.opens]
    simp [Xv6.count, File.inodeOf, hfile]

/-- A pipe whose two ends are closed again. -/
theorem nothing_left_pipe : ∃ k, (boot mkfs.sb mkfs.image).steps mkfs.sb
    [.pipe 0 (some 7) true, .call 0 (.close 0), .call 0 (.close 1)] = some (.ok k) ∧
      k.pipes.page 7 = none := by
  obtain ⟨k, hk, hclosed⟩ : ∃ k, (boot mkfs.sb mkfs.image).steps mkfs.sb
      [.pipe 0 (some 7) true, .call 0 (.close 0), .call 0 (.close 1)] = some (.ok k) ∧
      ∀ q fd, (k.vol.procs.proc q).ofile fd = none :=
    exists_of_run (by decide +kernel)
  exact ⟨k, hk, (nothing_left hk hclosed).2.1 7⟩

end Runs

end Kern

end Xv6
