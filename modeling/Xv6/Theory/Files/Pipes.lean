import Xv6.Core.Kern
import Xv6.Theory.Files.Calls

/-!
# Closing Files

An end of a pipe is open exactly while there is a file for it, and each end has one file. So
when the last reference to that file goes, no other file for the same end is left, and the other
end is not touched. The page of a pipe is given back with its second end.

## Theorems

* `Kern.spec_ino`, `Kern.spec_fileclose`
-/

namespace Xv6

open Function (update update_self update_of_ne)

namespace Pipe

/-- Whether an end is open. -/
def opened (y : Pipe) (w : Bool) : Bool := if w then y.writeopen else y.readopen

/-- One end closed. -/
def closeEnd (y : Pipe) (w : Bool) : Pipe :=
  if w then { y with writeopen := false } else { y with readopen := false }

theorem opened_closeEnd (y : Pipe) (v w : Bool) :
    (y.closeEnd w).opened v = true ↔ v ≠ w ∧ y.opened v = true := by
  cases v <;> cases w <;> simp [opened, closeEnd]

theorem closed_iff (y : Pipe) :
    (y.readopen = false ∧ y.writeopen = false) ↔ ∀ w, y.opened w ≠ true := by
  refine ⟨fun h w => ?_, fun h => ⟨?_, ?_⟩⟩
  · cases w
    · simp [opened, h.1]
    · simp [opened, h.2]
  · simpa [opened] using h false
  · simpa [opened] using h true

end Pipe

/-- An end of a pipe is open while it has a file, and it has one file. A pipe with no open end is
    not there. -/
structure Piped (F : Fin NFILE → File) (t : Pipes) : Prop where
  page : ∀ f, (F f).type = .pipe → ∃ y, t.page (t.pipe f) = some y ∧ y.opened (F f).writable = true
  alone : ∀ f g, (F f).type = .pipe → (F g).type = .pipe → t.pipe f = t.pipe g →
    (F f).writable = (F g).writable → f = g
  owner : ∀ a y w, t.page a = some y → y.opened w = true →
    ∃ f, (F f).type = .pipe ∧ t.pipe f = a ∧ (F f).writable = w
  live : ∀ a y, t.page a = some y → ∃ w, y.opened w = true

namespace Piped

variable {F G : Fin NFILE → File} {t : Pipes} {f : Fin NFILE}

theorem congr (h : Piped F t) (hG : SameEnds F G) : Piped G t := by
  refine ⟨fun f hf => ?_, fun f g hf hg hpipe hw => ?_, fun a y w ha hw => ?_, h.live⟩
  · have hf' := (hG f).1.mp hf
    rw [(hG f).2 hf']
    exact h.page f hf'
  · have hf' := (hG f).1.mp hf
    have hg' := (hG g).1.mp hg
    rw [(hG f).2 hf', (hG g).2 hg'] at hw
    exact h.alone f g hf' hg' hpipe hw
  · obtain ⟨f, hf, hpipe, hfw⟩ := h.owner a y w ha hw
    exact ⟨f, (hG f).1.mpr hf, hpipe, ((hG f).2 hf).trans hfw⟩

/-- The page of a pipe after one of its ends is closed. -/
def rest (y : Pipe) (w : Bool) : Option Pipe :=
  if (y.closeEnd w).readopen = false ∧ (y.closeEnd w).writeopen = false then none
  else some (y.closeEnd w)

theorem rest_eq_some {y z : Pipe} {w : Bool} (h : rest y w = some z) :
    z = y.closeEnd w ∧ ∃ v, z.opened v = true := by
  unfold rest at h
  split_ifs at h with hc
  cases h
  refine ⟨rfl, ?_⟩
  rw [Pipe.closed_iff] at hc
  push Not at hc
  exact hc

theorem rest_of_opened {y : Pipe} {v w : Bool} (h : (y.closeEnd w).opened v = true) :
    rest y w = some (y.closeEnd w) := by
  unfold rest
  rw [if_neg]
  rw [Pipe.closed_iff]
  exact fun hall => hall v h

theorem close (h : Piped F t) (hf : (F f).type = .pipe) {y : Pipe}
    (hy : t.page (t.pipe f) = some y) (hG : ∀ g, g ≠ f → G g = F g) (hnone : (G f).type ≠ .pipe) :
    Piped G { t with page := update t.page (t.pipe f) (rest y (F f).writable) } := by
  have hne : ∀ g, (G g).type = .pipe → g ≠ f := fun g hg hx => hnone (hx ▸ hg)
  refine ⟨fun g hg => ?_, fun g g' hg hg' hpipe hw => ?_, fun a z w ha hw => ?_, fun a z ha => ?_⟩
  · have hgf := hne g hg
    rw [hG g hgf] at hg ⊢
    obtain ⟨z, hz, hopen⟩ := h.page g hg
    dsimp only
    by_cases hsame : t.pipe g = t.pipe f
    · -- The other end of the same pipe, which is still open.
      rw [hsame, hy] at hz
      cases hz
      have hw : (F g).writable ≠ (F f).writable := fun hx => hgf (h.alone g f hg hf hsame hx)
      have hstill := (Pipe.opened_closeEnd y _ (F f).writable).mpr ⟨hw, hopen⟩
      refine ⟨y.closeEnd (F f).writable, ?_, hstill⟩
      rw [hsame, update_self]
      exact rest_of_opened hstill
    · refine ⟨z, ?_, hopen⟩
      rw [update_of_ne hsame]
      exact hz
  · grind [h.alone]
  · dsimp only at ha
    -- What is open now was open before, and is not the end that was closed.
    have hkeep : ∃ z', t.page a = some z' ∧ z'.opened w = true ∧
        (a = t.pipe f → w ≠ (F f).writable) := by
      by_cases hsame : a = t.pipe f
      · rw [hsame, update_self] at ha
        obtain ⟨rfl, -⟩ := rest_eq_some ha
        obtain ⟨hw', hopen⟩ := (Pipe.opened_closeEnd y _ _).mp hw
        exact ⟨y, hsame ▸ hy, hopen, fun _ => hw'⟩
      · rw [update_of_ne hsame] at ha
        exact ⟨z, ha, hw, fun hx => absurd hx hsame⟩
    obtain ⟨z', hz', hopen, hother⟩ := hkeep
    obtain ⟨g, hg, hpipe, hgw⟩ := h.owner a z' w hz' hopen
    have hgf : g ≠ f := by
      intro hx
      subst hx
      exact hother hpipe.symm hgw.symm
    refine ⟨g, ?_, hpipe, ?_⟩
    · rw [hG g hgf]
      exact hg
    · rw [hG g hgf]
      exact hgw
  · dsimp only at ha
    by_cases hsame : a = t.pipe f
    · rw [hsame, update_self] at ha
      exact (rest_eq_some ha).2
    · rw [update_of_ne hsame] at ha
      exact h.live a z ha

theorem alloc (h : Piped F t) {f0 f1 : Fin NFILE} {pi : Nat} (hpi : t.page pi = none)
    (h0 : (F f0).type ≠ .pipe) (h1 : (F f1).type ≠ .pipe) (hne : f0 ≠ f1)
    (hG : ∀ g, g ≠ f0 → g ≠ f1 → G g = F g)
    (hr : (G f0).type = .pipe ∧ (G f0).writable = false)
    (hw : (G f1).type = .pipe ∧ (G f1).writable = true) :
    Piped G { pipe := update (update t.pipe f0 pi) f1 pi
              page := update t.page pi (some Pipe.init) } := by
  obtain ⟨pipe, hpipe⟩ : ∃ pipe, pipe = update (update t.pipe f0 pi) f1 pi := ⟨_, rfl⟩
  have hp0 : pipe f0 = pi := by
    rw [hpipe, update_of_ne hne, update_self]
  have hp1 : pipe f1 = pi := by
    rw [hpipe, update_self]
  have hold : ∀ g, g ≠ f0 → g ≠ f1 → pipe g = t.pipe g := by
    intro g hg0 hg1
    rw [hpipe, update_of_ne hg1, update_of_ne hg0]
  rw [← hpipe]
  -- A file is one of the two, or an old end of another pipe.
  have hcases : ∀ g, (G g).type = .pipe → g = f0 ∨ g = f1 ∨
      g ≠ f0 ∧ g ≠ f1 ∧ (F g).type = .pipe ∧ pipe g ≠ pi := by
    intro g hg
    by_cases hg0 : g = f0
    · exact .inl hg0
    · grind [h.page]
  refine ⟨fun g hg => ?_, fun g g' hg hg' hsame hww => ?_, fun a y w ha hopen => ?_,
    fun a y ha => ?_⟩
  · dsimp only
    rcases hcases g hg with rfl | rfl | ⟨hg0, hg1, hgF, hgp⟩
    · rw [hp0, update_self, hr.2]
      exact ⟨Pipe.init, rfl, rfl⟩
    · rw [hp1, update_self, hw.2]
      exact ⟨Pipe.init, rfl, rfl⟩
    · grind [h.page, Function.update_apply]
  · grind [h.alone]
  · grind [h.owner, Function.update_apply]
  · dsimp only at ha
    by_cases hap : a = pi
    · rw [hap, update_self] at ha
      cases ha
      exact ⟨true, rfl⟩
    · rw [update_of_ne hap] at ha
      exact h.live a y ha

end Piped

namespace Kern

/-- The counts, files and processes of a state, and its pipes. -/
def Shows (v : Tally × Pipes) (k : Kern) : Prop := k.vol.Shows v.1 ∧ k.pipes = v.2

/-- What a program of the kernel does to them. -/
abbrev Spec {α : Type} (sb : Superblock) (x : Tally) (t : Pipes) (p : KProg α)
    (Q : α → Tally × Pipes → Prop) : Prop :=
  Prog.Spec (handle sb) Shows (x, t) p Q

open Prog (spec_pure spec_bind spec_ite)

variable {sb : Superblock} {x : Tally} {t : Pipes} {f : Fin NFILE} {p : Fin NPROC}

section Lifting

theorem wp_ino {α : Type} {c : IProg α} {Q : α → Vol → Prop} {R : Stop → Prop} {k : Kern}
    (h : Prog.Wp (Vol.handle.via (Ino.impl sb)) c Q R k.vol) :
    Prog.Wp (handle sb) (ino c) (fun a k' => Q a k'.vol ∧ k'.pipes = k.pipes) R k := by
  -- By the text: each operation runs on the disk and tables and leaves the pipes.
  induction c generalizing k with
  | ret a => exact Prog.wp_ret.mpr ⟨Prog.wp_ret.mp h, rfl⟩
  | op o c ih =>
    unfold ino
    rw [Prog.expand, Prog.wp_bind_iff, Prog.wp_call]
    cases hrun : (Ino.impl sb o).run Vol.handle k.vol with
    | error e =>
      have hstop : handle sb (.ino o) k = .error e := by
        simp only [handle, hrun]
      rw [hstop]
      show R e
      refine Prog.wp_of_stop h ?_
      simp only [Prog.run, Handler.via, hrun]
    | ok r =>
      have hok : handle sb (.ino o) k = .ok (r.1, { k with vol := r.2 }) := by
        simp only [handle, hrun]
      rw [hok]
      refine ih r.1 (k := { k with vol := r.2 }) ?_
      unfold Prog.Wp at h ⊢
      simpa only [Prog.run, Handler.via, hrun] using h

theorem spec_ino {α : Type} {c : IProg α} {Q : α → Tally × Pipes → Prop}
    (h : Ino.Spec sb x c fun a y => Q a (y, t)) : Spec sb x t (ino c) Q := by
  intro k hk
  refine Prog.wp_mono (wp_ino (h k.vol hk.1)) ?_
  rintro a k' ⟨⟨y, hy, hshows⟩, hpipes⟩
  exact ⟨(y, t), hy, hshows, hpipes.trans hk.2⟩

theorem spec_getPipes {Q : Pipes → Tally × Pipes → Prop} (hq : Q t (x, t)) :
    Spec sb x t getPipes Q := by
  refine Prog.spec_call fun k hk r k' hrun => ?_
  cases hrun
  refine ⟨(x, t), ?_, hk⟩
  rw [hk.2]
  exact hq

theorem spec_setPipes {u : Pipes} {Q : Unit → Tally × Pipes → Prop} (hq : Q () (x, u)) :
    Spec sb x t (setPipes u) Q := by
  refine Prog.spec_call fun k hk r k' hrun => ?_
  cases hrun
  exact ⟨(x, u), hq, hk.1, rfl⟩

theorem spec_setPage {pi : Nat} {y : Option Pipe} {Q : Unit → Tally × Pipes → Prop}
    (hq : Q () (x, { t with page := update t.page pi y })) :
    Spec sb x t (setPage pi y) Q := by
  unfold setPage
  exact spec_bind (spec_getPipes (spec_setPipes hq))

end Lifting

section Closing

theorem spec_pipeclose {pi : Nat} {w : Bool} {y : Pipe} (hy : t.page pi = some y)
    {Q : Unit → Tally × Pipes → Prop}
    (hq : Q () (x, { t with page := update t.page pi (Piped.rest y w) })) :
    Spec sb x t (pipeclose pi w) Q := by
  unfold pipeclose
  refine spec_bind (spec_getPipes ?_)
  rw [hy]
  unfold Piped.rest at hq
  change Spec sb x t (if (y.closeEnd w).readopen = false ∧ (y.closeEnd w).writeopen = false then
    setPage pi none else setPage pi (some (y.closeEnd w))) Q
  refine spec_ite (fun hc => ?_) fun hc => ?_
  · rw [if_pos hc] at hq
    exact spec_setPage hq
  · rw [if_neg hc] at hq
    exact spec_setPage hq

theorem spec_fileclose {e : Fin NFILE → Int} (h : Counted e x) (hp : Piped x.procs.ftable t)
    {Q : Unit → Tally × Pipes → Prop}
    (hq : ∀ y u, Counted (fun g => e g - if g = f then 1 else 0) y → Piped y.procs.ftable u →
      y.procs.proc = x.procs.proc → Q () (y, u)) : Spec sb x t (fileclose f) Q := by
  have hclosed : ∀ y : File, (x.setFile f y).procs.ftable f = y := fun y => update_self _ _ _
  have hothers : ∀ (y : File) g, g ≠ f → (x.setFile f y).procs.ftable g = x.procs.ftable g :=
    fun y g hg => update_of_ne hg _ _
  -- A file that is no pipe takes no end of one with it.
  have hlost : (x.procs.ftable f).type ≠ .pipe → SameEnds x.procs.ftable
      (x.setFile f { x.procs.ftable f with ref := 0, type := .none }).procs.ftable := by
    intro hnot
    refine (SameEnds.refl _).setFile ⟨fun hx => ?_, fun hx => absurd hx hnot⟩ (.inl rfl)
    cases hx
  unfold fileclose
  refine spec_bind (spec_ino (Ino.spec_file ?_))
  refine spec_bind (spec_ino (Ino.spec_fileclose (fun hmore => ?_) (fun hone hno => ?_)
    fun ip hone hino => ?_))
  · refine spec_ite (fun hc => absurd hc.1 (by omega)) fun _ => spec_pure (hq _ t ?_ ?_ rfl)
    · refine h.setFile_same rfl (fun hz => ?_) fun g => ?_
      · have hz' : (x.procs.ftable f).ref - 1 = 0 := hz
        omega
      · split_ifs
        · dsimp only
          omega
        · omega
    · exact hp.congr ((SameEnds.refl _).setFile Iff.rfl (.inl rfl))
  · have hcount : Counted (fun g => e g - if g = f then 1 else 0)
        (x.setFile f { x.procs.ftable f with ref := 0, type := .none }) := by
      refine h.setFile_same ?_ (fun _ => rfl) fun g => ?_
      · rw [hno]
        rfl
      · rw [hone]
        split_ifs
        · rfl
        · omega
    refine spec_ite (fun hc => ?_) fun hc => ?_
    · obtain ⟨y, hy, -⟩ := hp.page f hc.2
      refine spec_bind (spec_getPipes (spec_pipeclose hy (hq _ _ hcount ?_ rfl)))
      refine hp.close hc.2 hy (hothers _) ?_
      rw [hclosed]
      exact fun hx => nomatch hx
    · have hnot : (x.procs.ftable f).type ≠ .pipe := fun hx => hc ⟨hone, hx⟩
      exact spec_pure (hq _ t hcount (hp.congr (hlost hnot)) rfl)
  · have hnot : (x.procs.ftable f).type ≠ .pipe := by
      intro hx
      unfold File.inodeOf at hino
      rw [hx] at hino
      cases hino
    refine spec_ite (fun hc => absurd hc.2 hnot) fun _ => spec_pure (hq _ t ?_ ?_ rfl)
    · refine h.setFile (fun jp => ?_) (fun _ => rfl) fun g => ?_
      · have hpos := h.refs_open_pos hino
        have hnone : File.inodeOf { x.procs.ftable f with ref := 0, type := .none } = none := rfl
        rw [hino, hnone]
        change update x.refs ip (x.refs ip - 1) jp + _ = _
        by_cases hj : jp = ip
        · subst hj
          simp only [update_self, if_true, reduceCtorEq, if_false]
          omega
        · simp [hj, Ne.symm hj]
      · rw [hone]
        split_ifs
        · rfl
        · omega
    · exact hp.congr (hlost hnot)

end Closing

end Kern

end Xv6
