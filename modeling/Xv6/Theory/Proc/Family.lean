import Xv6.Theory.Proc.Cpus

/-!
# Parents and Children

`exit` and `wait`. A process that exits passes its children on, wakes its parent and becomes
a zombie, in steps between which other processes run. What makes the pieces fit is
`wait_lock`: its holder is in `exit` or in the loop of `wait` (`Family.lock`), and only its
holder turns into a zombie, gives a zombie another parent or falls asleep in `wait`.

So the loop of `wait` can trust what it saw (`Family.scanned`), and a parent asleep when its
child begins to wake it stays out of `wait` until the child is a zombie (`Family.woken`). A
zombie has a parent asleep in `wait` only between `reparent` and the wakeup of the first
process, and then `wait_lock` is taken (`Family.missed`).

## Theorems

* `Ptable.exit_wait_match`: each exit is returned by one `wait` of the parent
-/

namespace Xv6.Ptable

open Function (update update_self update_of_ne update_apply)

variable {P C : Type}

/-- The holder of `wait_lock` is at one of these. -/
def Pc.holdsWait : Pc P → Prop
  | .reparent _ _ | .wakeInit _ _ _ | .wakeParent _ _ | .zombie _ | .scan _ _ _ => True
  | _ => False

/-- In `exit`. -/
def Pc.leaving : Pc P → Prop
  | .exiting _ | .reparent _ _ | .wakeInit _ _ _ | .wakeParent _ _ | .zombie _ | .dead => True
  | _ => False

/-- A process there may still be the parent of `q`. -/
def Pc.Keeps (q : P) : Pc P → Prop
  | .reparent _ todo => q ∈ todo
  | .wakeInit _ _ rest => q ∈ rest
  | .wakeParent _ _ | .zombie _ | .dead => False
  | _ => True

/-- The loop of `wait` has not come to `q` yet. -/
def Pc.Unseen (q : P) : Pc P → Prop
  | .scan _ todo _ => q ∈ todo
  | _ => True

/-- A process there has not tried to wake its parent `p` yet. -/
def Pc.ToWake (p : P) : Pc P → Prop
  | .wakeParent _ todo => p ∈ todo
  | .zombie _ => False
  | _ => True

/-- The wakeup in `reparent` is under way and has not come to `p` yet. -/
def Pc.Wakes (p : P) : Pc P → Prop
  | .wakeInit _ todo _ => p ∈ todo
  | _ => False

variable {x : Pc P} {e : Event P C} {r : P}

theorem Pc.unseen_of_not_holds (h : ¬ x.holdsWait) (q : P) : x.Unseen q := by
  cases x <;> first | trivial | exact absurd trivial h

theorem Pc.toWake_of_not_holds (h : ¬ x.holdsWait) (p : P) : x.ToWake p := by
  cases x <;> first | trivial | exact absurd trivial h

theorem Pc.holds_of_wakes {p : P} (h : x.Wakes p) : x.holdsWait := by
  cases x <;> trivial

theorem Pc.keeps_of_not_leaving (h : ¬ x.leaving) (q : P) : x.Keeps q := by
  cases x <;> first | trivial | exact absurd trivial h

/-- In `wait`, without `wait_lock`. -/
def Pc.waits : Pc P → Prop
  | .waiting _ => True
  | _ => False

/-- Asleep in `wait`. -/
def Asleep (s : Sys P C) (p : P) : Prop := (s.proc p).state = .SLEEPING ∧ (s.pc p).waits

/-- The exit from the slot that no `wait` has returned yet. -/
def pending (e : Entry P C) : List (Int × Int) :=
  if e.state = .ZOMBIE then [(e.pid, e.xstate)] else []

structure Family (T : Table P) (s : Sys P C) : Prop where
  lock : ∀ p, (s.pc p).holdsWait ↔ s.waitLock = some p
  resting : ∀ p, ¬ Alive (s.proc p).state → s.pc p = .run ∨ s.pc p = .dead
  alive : ∀ q p, (s.proc q).parent = some p → Alive (s.proc p).state
  keeps : ∀ q p, (s.proc q).parent = some p → (s.pc p).Keeps q
  init : Alive (s.proc T.initproc).state ∧ ¬ (s.pc T.initproc).leaving
  chan : ∀ p, Asleep s p → (s.proc p).chan = some (.proc p)
  /-- A zombie child is still to be seen by the loop of `wait`. -/
  scanned : ∀ q p, (s.proc q).parent = some p → (s.proc q).state = .ZOMBIE → (s.pc p).Unseen q
  /-- A parent asleep in `wait` will be woken by `exit`. -/
  woken : ∀ q p, (s.proc q).parent = some p → Asleep s p → (s.pc q).ToWake p
  /-- A zombie whose parent is asleep in `wait` has just been given to the first process. -/
  missed : ∀ q p, (s.proc q).parent = some p → (s.proc q).state = .ZOMBIE → Asleep s p →
    p = T.initproc ∧ ∃ r, (s.pc r).Wakes p
  books : ∀ q, s.exited q = s.reaped q ++ pending (s.proc q)

variable [DecidableEq P] {T : Table P} {s s' : Sys P C} {c : C} {p q : P}

theorem family_boot : Family T (boot T : Sys P C) := by
  constructor
  all_goals simp only [boot, Entry.unused, pending, Asleep]
  all_goals grind [Pc.holdsWait, Pc.leaving, Pc.waits, Alive]

/-- A step on the state or the lock of a process: nobody moves, is born or dies, or falls
    asleep. -/
structure Calm (s s' : Sys P C) : Prop where
  pc : s'.pc = s.pc
  waitLock : s'.waitLock = s.waitLock
  exited : s'.exited = s.exited
  reaped : s'.reaped = s.reaped
  entry : ∀ r, (s'.proc r).parent = (s.proc r).parent ∧ (s'.proc r).pid = (s.proc r).pid ∧
    (s'.proc r).xstate = (s.proc r).xstate
  zombie : ∀ r, (s'.proc r).state = .ZOMBIE ↔ (s.proc r).state = .ZOMBIE
  alive : ∀ r, Alive (s.proc r).state → Alive (s'.proc r).state
  asleep : ∀ r, Asleep s' r → Asleep s r ∧ (s'.proc r).chan = (s.proc r).chan

omit [DecidableEq P] in
theorem Quiet.calm (h : Quiet s s') : Calm s s' := by
  refine ⟨h.pc, h.waitLock, h.exited, h.reaped, fun r => ?_, fun r => ?_, fun r hr => ?_,
    fun r hr => ?_⟩
  · obtain ⟨hpar, hpid, hx, -⟩ := h.entry r
    exact ⟨hpar, hpid, hx⟩
  · rcases h.state r with heq | ⟨halive, halive', -⟩
    · rw [heq]
    · unfold Alive at halive halive'
      grind
  · rcases h.state r with heq | ⟨-, halive', -⟩
    · rwa [heq]
    · exact halive'
  · obtain ⟨hst, hwait⟩ := hr
    rw [h.pc] at hwait
    rcases h.chan r hst with hrun | ⟨hst, hchan⟩
    · rw [hrun] at hwait
      exact hwait.elim
    · exact ⟨⟨hst, hwait⟩, hchan⟩

theorem calm_edit {f : Entry P C → Entry P C}
    (hentry : (f (s.proc q)).parent = (s.proc q).parent ∧ (f (s.proc q)).pid = (s.proc q).pid ∧
      (f (s.proc q)).xstate = (s.proc q).xstate)
    (hst : (f (s.proc q)).state = (s.proc q).state ∧ (f (s.proc q)).chan = (s.proc q).chan ∨
      (s.proc q).state ≠ .ZOMBIE ∧ (f (s.proc q)).state = .RUNNABLE) : Calm s (s.edit q f) := by
  refine ⟨rfl, rfl, rfl, rfl, fun r => ?_, fun r => ?_, fun r => ?_, fun r => ?_⟩
  · rw [proc_edit]
    grind
  · rw [proc_edit]
    grind
  · rw [proc_edit]
    grind [Alive]
  · simp only [Asleep, proc_edit]
    have hpc : (s.edit q f).pc = s.pc := rfl
    grind

namespace Family

omit [DecidableEq P] in
theorem calm (h : Family T s) (hc : Calm s s')
    (hrest : ∀ r, ¬ Alive (s'.proc r).state → ¬ Alive (s.proc r).state) : Family T s' := by
  have hparent : ∀ q, (s'.proc q).parent = (s.proc q).parent := fun q => (hc.entry q).1
  constructor
  · rw [hc.pc, hc.waitLock]
    exact h.lock
  · intro p hp
    rw [hc.pc]
    exact h.resting p (hrest p hp)
  · intro q p hpar
    rw [hparent] at hpar
    exact hc.alive p (h.alive q p hpar)
  · intro q p hpar
    rw [hparent] at hpar
    rw [hc.pc]
    exact h.keeps q p hpar
  · rw [hc.pc]
    exact ⟨hc.alive _ h.init.1, h.init.2⟩
  · intro p hp
    obtain ⟨hp, hchan⟩ := hc.asleep p hp
    rw [hchan, h.chan p hp]
  · intro q p hpar hz
    rw [hparent] at hpar
    rw [hc.pc]
    exact h.scanned q p hpar ((hc.zombie q).1 hz)
  · intro q p hpar hp
    rw [hparent] at hpar
    rw [hc.pc]
    exact h.woken q p hpar (hc.asleep p hp).1
  · intro q p hpar hz hp
    rw [hparent] at hpar
    rw [hc.pc]
    exact h.missed q p hpar ((hc.zombie q).1 hz) (hc.asleep p hp).1
  · intro q
    obtain ⟨-, hpid, hx⟩ := hc.entry q
    rw [hc.exited, hc.reaped, h.books q]
    simp only [pending, hpid, hx, hc.zombie q]

variable {x y : Pc P} {f : Entry P C → Entry P C} {status : Int}

section

variable (h : Family T s)

include h

/-- A process that is not asleep moves on in the text, with or without taking `wait_lock` or
    letting go of it. -/
theorem move (hpc : s'.pc = update s.pc p x)
    (hproc : s'.proc = s.proc) (he : s'.exited = s.exited) (hr : s'.reaped = s.reaped)
    (hp : (s.proc p).state = .RUNNING) (hlock : x.holdsWait ↔ s'.waitLock = some p)
    (hother : ∀ r, r ≠ p → (s'.waitLock = some r ↔ s.waitLock = some r))
    (hkeeps : ∀ q, (s.proc q).parent = some p → (s.pc p).Keeps q → x.Keeps q)
    (hinit : p = T.initproc → ¬ x.leaving)
    (hscan : ∀ q, (s.proc q).parent = some p → (s.proc q).state = .ZOMBIE → (s.pc p).Unseen q →
      x.Unseen q)
    (hwoken : ∀ r, (s.proc p).parent = some r → Asleep s r → (s.pc p).ToWake r → x.ToWake r)
    (hmissed : Asleep s T.initproc → (s.pc p).Wakes T.initproc → x.Wakes T.initproc) :
    Family T s' := by
  -- whoever is asleep is another process, and stays where it is
  have hasleep : ∀ r, Asleep s' r → r ≠ p ∧ Asleep s r := by
    rintro r ⟨hst, hwait⟩
    rw [hproc] at hst
    have hne : r ≠ p := by
      rintro rfl
      rw [hp] at hst
      cases hst
    rw [hpc, update_of_ne hne] at hwait
    exact ⟨hne, hst, hwait⟩
  have hself : s'.pc p = x := by rw [hpc, update_self]
  have helse : ∀ r, r ≠ p → s'.pc r = s.pc r := by
    intro r hne
    rw [hpc, update_of_ne hne]
  constructor
  · intro r
    by_cases hrp : r = p
    · rw [hrp, hself]
      exact hlock
    · rw [helse r hrp, hother r hrp]
      exact h.lock r
  · intro r hdead
    rw [hproc] at hdead
    have hrp : r ≠ p := by
      rintro rfl
      exact hdead (.inr (.inl hp))
    rw [helse r hrp]
    exact h.resting r hdead
  · rw [hproc]
    exact h.alive
  · intro q r hpar
    rw [hproc] at hpar
    by_cases hrp : r = p
    · subst hrp
      rw [hself]
      exact hkeeps q hpar (h.keeps q r hpar)
    · rw [helse r hrp]
      exact h.keeps q r hpar
  · rw [hproc]
    refine ⟨h.init.1, ?_⟩
    by_cases hrp : T.initproc = p
    · rw [hrp, hself]
      exact hinit hrp.symm
    · rw [helse _ hrp]
      exact h.init.2
  · intro r hr
    rw [hproc]
    exact h.chan r (hasleep r hr).2
  · intro q r hpar hz
    rw [hproc] at hpar hz
    by_cases hrp : r = p
    · subst hrp
      rw [hself]
      exact hscan q hpar hz (h.scanned q r hpar hz)
    · rw [helse r hrp]
      exact h.scanned q r hpar hz
  · intro q r hpar hr
    rw [hproc] at hpar
    by_cases hqp : q = p
    · subst hqp
      rw [hself]
      exact hwoken r hpar (hasleep r hr).2 (h.woken q r hpar (hasleep r hr).2)
    · rw [helse q hqp]
      exact h.woken q r hpar (hasleep r hr).2
  · intro q r hpar hz hr
    rw [hproc] at hpar hz
    obtain ⟨rfl, w, hw⟩ := h.missed q r hpar hz (hasleep r hr).2
    refine ⟨rfl, w, ?_⟩
    by_cases hwp : w = p
    · subst hwp
      rw [hself]
      exact hmissed (hasleep _ hr).2 hw
    · rwa [helse w hwp]
  · rw [he, hr, hproc]
    exact h.books

theorem advance (hpc : s'.pc = update s.pc p x)
    (hproc : s'.proc = s.proc) (he : s'.exited = s.exited) (hr : s'.reaped = s.reaped)
    (hw : s'.waitLock = s.waitLock) (hp : (s.proc p).state = .RUNNING) (hy : s.pc p = y)
    (hlock : x.holdsWait ↔ y.holdsWait)
    (hkeeps : ∀ q, (s.proc q).parent = some p → y.Keeps q → x.Keeps q)
    (hleave : x.leaving → y.leaving)
    (hscan : ∀ q, (s.proc q).parent = some p → (s.proc q).state = .ZOMBIE → y.Unseen q → x.Unseen q)
    (hwoken : ∀ r, (s.proc p).parent = some r → Asleep s r → y.ToWake r → x.ToWake r)
    (hmissed : Asleep s T.initproc → y.Wakes T.initproc → x.Wakes T.initproc) : Family T s' := by
  subst hy
  refine h.move hpc hproc he hr hp ?_ (fun _ _ => by rw [hw]) hkeeps ?_ hscan hwoken hmissed
  · rw [hlock, hw]
    exact h.lock p
  · rintro rfl hx
    exact h.init.2 (hleave hx)

theorem goto (hpc : s'.pc = update s.pc p x)
    (hproc : s'.proc = s.proc) (he : s'.exited = s.exited) (hr : s'.reaped = s.reaped)
    (hp : (s.proc p).state = .RUNNING) (hlock : x.holdsWait ↔ s'.waitLock = some p)
    (hother : ∀ r, r ≠ p → (s'.waitLock = some r ↔ s.waitLock = some r))
    (hx : ∀ q, x.Keeps q) (hleave : ¬ x.leaving) (hseen : ∀ q, x.Unseen q)
    (hwake : ∀ r, x.ToWake r) (hy : s.pc p = y) (hfrom : ∀ r, ¬ y.Wakes r) : Family T s' :=
  h.move hpc hproc he hr hp hlock hother (fun q _ _ => hx q) (fun _ => hleave)
    (fun q _ _ _ => hseen q) (fun r _ _ _ => hwake r) (fun _ hw => absurd (hy ▸ hw) (hfrom _))

theorem free (hq : ¬ Alive (s.proc q).state)
    (hproc : s'.proc = (s.edit q f).proc) (hpc : s'.pc = s.pc) (hw : s'.waitLock = s.waitLock)
    (he : s'.exited = s.exited)
    (hr : s'.reaped = update s.reaped q (s.reaped q ++ pending (s.proc q)))
    (hpar : (f (s.proc q)).parent = none) (hst : (f (s.proc q)).state = .UNUSED) : Family T s' := by
  have hparent : ∀ r p, (s'.proc r).parent = some p → r ≠ q ∧ (s.proc r).parent = some p := by
    intro r p hrp
    rw [hproc, proc_edit] at hrp
    split_ifs at hrp with hrq
    · rw [hpar] at hrp
      cases hrp
    · exact ⟨hrq, hrp⟩
  have hother : ∀ r, r ≠ q → s'.proc r = s.proc r := by
    intro r hrq
    rw [hproc, proc_edit, if_neg hrq]
  have hself : s'.proc q = f (s.proc q) := by rw [hproc, proc_edit, if_pos rfl]
  have halive : ∀ r, Alive (s.proc r).state → s'.proc r = s.proc r := by
    intro r hr'
    apply hother
    rintro rfl
    exact hq hr'
  have hasleep : ∀ r, Asleep s' r → Asleep s r ∧ s'.proc r = s.proc r := by
    rintro r ⟨hsl, hwait⟩
    have hrq : r ≠ q := by
      rintro rfl
      rw [hself, hst] at hsl
      cases hsl
    rw [hother r hrq] at hsl
    rw [hpc] at hwait
    exact ⟨⟨hsl, hwait⟩, hother r hrq⟩
  constructor
  · rw [hpc, hw]
    exact h.lock
  · intro r hdead
    rw [hpc]
    apply h.resting r
    intro hal
    rw [halive r hal] at hdead
    exact hdead hal
  · intro r p hrp
    have hold := h.alive r p (hparent r p hrp).2
    rwa [halive p hold]
  · intro r p hrp
    rw [hpc]
    exact h.keeps r p (hparent r p hrp).2
  · rw [hpc, halive _ h.init.1]
    exact h.init
  · intro r hr'
    rw [(hasleep r hr').2]
    exact h.chan r (hasleep r hr').1
  · intro r p hrp hz
    obtain ⟨hrq, hrp⟩ := hparent r p hrp
    rw [hother r hrq] at hz
    rw [hpc]
    exact h.scanned r p hrp hz
  · intro r p hrp hsl
    rw [hpc]
    exact h.woken r p (hparent r p hrp).2 (hasleep p hsl).1
  · intro r p hrp hz hsl
    obtain ⟨hrq, hrp⟩ := hparent r p hrp
    rw [hother r hrq] at hz
    rw [hpc]
    exact h.missed r p hrp hz (hasleep p hsl).1
  · intro r
    rw [he, hr, update_apply]
    split_ifs with hrq
    · subst hrq
      rw [h.books r, hself]
      simp only [pending, hst, reduceCtorEq, if_false, List.append_nil]
    · rw [h.books r, hother r hrq]

theorem reserve (hu : (s.proc q).state = .UNUSED) : Family T (s.reserve c q) := by
  have hdead : ¬ Alive (s.proc q).state := by
    rw [hu]
    rintro (hx | hx | hx) <;> cases hx
  have hrest := h.resting q hdead
  have hlock := h.lock
  have hrest' := h.resting
  have halive := h.alive
  have hkeeps := h.keeps
  have hinit := h.init
  have hbooks := h.books
  constructor
  all_goals simp only [Sys.reserve, Sys.edit, update_apply, Asleep]
  · grind [Pc.holdsWait]
  · grind
  · grind [Alive]
  · grind [Pc.Keeps]
  · grind [Pc.leaving, Alive]
  · have hchan := h.chan
    simp only [Asleep] at hchan
    grind [Alive]
  · have hscan := h.scanned
    grind [Pc.Unseen]
  · have hwoken := h.woken
    simp only [Asleep] at hwoken
    grind [Pc.ToWake]
  · intro r p
    have hmiss := h.missed r p
    simp only [Asleep] at hmiss
    split_ifs with hrq hpq
    · intro _ hz
      cases hz
    · intro _ hz
      cases hz
    · intro _ _ hsl
      cases hsl.1
    · intro hrp hz hsl
      obtain ⟨hpi, w, hw⟩ := hmiss hrp hz hsl
      refine ⟨hpi, w, ?_⟩
      split_ifs with hwq
      · rw [hwq] at hw
        rcases hrest with hx | hx <;> rw [hx] at hw <;> exact hw.elim
      · exact hw
  · intro r
    rw [hbooks r]
    grind [pending]

theorem adopt (hu : (s.proc q).state = .USED) (hp : (s.proc p).state = .RUNNING)
    (hplain : ∀ r, (s.pc p).Keeps r ∧ (s.pc p).Unseen r) :
    Family T (s.edit q fun e => { e with parent := some p }) := by
  have hdead : ¬ Alive (s.proc q).state := by
    rw [hu]
    rintro (hx | hx | hx) <;> cases hx
  have hrest := h.resting q hdead
  have hbooks := h.books
  constructor
  all_goals simp only [Sys.edit, update_apply, Asleep]
  · exact h.lock
  · have hold := h.resting
    grind
  · have hold := h.alive
    grind [Alive]
  · have hold := h.keeps
    grind
  · have hold := h.init
    grind
  · have hold := h.chan
    simp only [Asleep] at hold
    grind
  · have hold := h.scanned
    grind
  · have hold := h.woken
    simp only [Asleep] at hold
    grind [Pc.ToWake]
  · intro r p'
    have hold := h.missed r p'
    simp only [Asleep] at hold
    grind
  · intro r
    rw [hbooks r]
    grind [pending]

theorem handOver {todo : List P}
    (hpc : s.pc p = .reparent status (q :: todo)) (hp : (s.proc p).state = .RUNNING)
    (hpar : (s.proc q).parent = some p) :
    Family T ((s.edit q fun e => { e with parent := some T.initproc }).goto p
      (.wakeInit status T.procs todo)) := by
  have hlock := h.lock
  have hinit := h.init
  have hmem := T.mem
  have hwl : s.waitLock = some p := by
    rw [← hlock p, hpc]
    trivial
  -- the first process is not exiting and does not hold the lock
  have hnot : ¬ (s.pc T.initproc).holdsWait := by
    rw [hlock, hwl]
    intro hx
    rw [← Option.some.inj hx, hpc] at hinit
    exact hinit.2 trivial
  have hne : p ≠ T.initproc := by
    rintro rfl
    rw [hpc] at hnot
    exact hnot trivial
  constructor
  all_goals simp only [Sys.goto, Sys.edit, update_apply, Asleep]
  · grind [Pc.holdsWait]
  · have hold := h.resting
    grind [Alive]
  · have hold := h.alive
    grind [Alive]
  · intro r p'
    have hold := h.keeps r p'
    split_ifs with hrq hpp hpp
    · intro hx
      exact absurd (hpp.symm.trans (Option.some.inj hx).symm) hne
    · intro hx
      rw [← Option.some.inj hx]
      exact Pc.keeps_of_not_leaving hinit.2 r
    · intro hx
      have hin := hold hx
      rw [hpp, hpc] at hin
      exact (List.mem_cons.1 hin).resolve_left hrq
    · exact hold
  · grind
  · have hold := h.chan
    simp only [Asleep] at hold
    grind [Pc.waits]
  · have hold := h.scanned
    grind [Pc.Unseen, Pc.unseen_of_not_holds]
  · have hold := h.woken
    simp only [Asleep] at hold
    grind [Pc.ToWake, Pc.toWake_of_not_holds]
  · intro r p'
    have hold := h.missed r p'
    simp only [Asleep] at hold
    intro hrp hz hsl
    have hpi : p' = T.initproc := by grind [Pc.waits]
    refine ⟨hpi, p, ?_⟩
    rw [if_pos rfl]
    exact hmem p'
  · intro r
    rw [h.books r]
    grind [pending]

theorem die (hpc : s.pc p = .zombie status)
    (hp : (s.proc p).state = .RUNNING) : Family T (s.die c p status) := by
  have hlock := h.lock
  have hinit := h.init
  have hwl : s.waitLock = some p := by
    rw [← hlock p, hpc]
    trivial
  have hne : p ≠ T.initproc := by
    rintro rfl
    rw [hpc] at hinit
    exact hinit.2 trivial
  -- the children have been given away
  have hnone : ∀ r, (s.proc r).parent ≠ some p := by
    intro r hr
    have hx := h.keeps r p hr
    rw [hpc] at hx
    exact hx
  constructor
  all_goals simp only [Sys.die, Sys.giveUp, Sys.goto, Sys.edit, update_apply, Asleep]
  · grind [Pc.holdsWait]
  · have hold := h.resting
    grind [Alive]
  · have hold := h.alive
    grind [Alive]
  · have hold := h.keeps
    grind
  · grind
  · have hold := h.chan
    simp only [Asleep] at hold
    grind [Pc.waits]
  · have hold := h.scanned
    grind [Pc.Unseen, Pc.unseen_of_not_holds]
  · have hold := h.woken
    simp only [Asleep] at hold
    grind [Pc.ToWake, Pc.waits]
  · intro r p'
    have hmiss := h.missed r p'
    have hwoken := h.woken p p'
    simp only [Asleep] at hmiss hwoken
    rw [hpc] at hwoken
    intro hrp hz hsl
    exfalso
    -- the new zombie has woken its parent, and no other wakeup is under way
    have hnowake : ∀ w, ¬ (s.pc w).Wakes p' := by
      intro w hw
      have hholds := Pc.holds_of_wakes hw
      rw [hlock, hwl] at hholds
      rw [← Option.some.inj hholds, hpc] at hw
      exact hw
    grind [Pc.ToWake, Pc.waits]
  · intro r
    have hold := h.books r
    grind [pending]

theorem sleepWait {addr : StatusAddr} {havekids : Bool}
    (hpc : s.pc p = .scan addr [] havekids) (hp : (s.proc p).state = .RUNNING) :
    Family T { (s.giveUp c p (fun e => { e with chan := some (.proc p), state := .SLEEPING })
      true).goto p (.waiting addr) with waitLock := none } := by
  have hlock := h.lock
  have hwl : s.waitLock = some p := by
    rw [← hlock p, hpc]
    trivial
  -- no child is a zombie
  have hnone : ∀ r, (s.proc r).parent = some p → (s.proc r).state ≠ .ZOMBIE := by
    intro r hr hz
    have hx := h.scanned r p hr hz
    rw [hpc] at hx
    cases hx
  constructor
  all_goals simp only [Sys.giveUp, Sys.goto, Sys.edit, update_apply, Asleep]
  · grind [Pc.holdsWait]
  · have hold := h.resting
    grind [Alive]
  · have hold := h.alive
    grind [Alive]
  · have hold := h.keeps
    grind [Pc.Keeps]
  · have hold := h.init
    grind [Pc.leaving, Alive]
  · have hold := h.chan
    simp only [Asleep] at hold
    grind [Pc.waits]
  · have hold := h.scanned
    grind [Pc.Unseen]
  · have hold := h.woken
    simp only [Asleep] at hold
    grind [Pc.ToWake, Pc.toWake_of_not_holds]
  · intro r p'
    have hmiss := h.missed r p'
    simp only [Asleep] at hmiss
    intro hrp hz hsl
    exfalso
    have hnowake : ∀ w, ¬ (s.pc w).Wakes p' := by
      intro w hw
      have hholds := Pc.holds_of_wakes hw
      rw [hlock, hwl] at hholds
      rw [← Option.some.inj hholds, hpc] at hw
      exact hw
    grind [Pc.waits]
  · intro r
    have hold := h.books r
    grind [pending]

theorem call (hp : (s.proc p).state = .RUNNING) (hrun : s.pc p = .run)
    {x : Call} (hs : s.call T p x = some s') : Family T s' := by
  have hlock := h.lock p
  rw [hrun] at hlock
  unfold Sys.call at hs
  split at hs
  case h_4 =>
    split_ifs at hs with hne
    cases hs
    refine h.move rfl rfl rfl rfl hp hlock (fun _ _ => Iff.rfl) (fun _ _ _ => trivial)
      (fun hx => absurd hx hne) (fun _ _ _ _ => trivial) (fun _ _ _ _ => trivial) ?_
    rw [hrun]
    exact fun _ hw => hw.elim
  case h_6 =>
    cases hs
    have hcalm : Calm s (s.edit p fun e => { e with killed := true }) :=
      calm_edit ⟨rfl, rfl, rfl⟩ (.inl ⟨rfl, rfl⟩)
    refine h.calm ⟨rfl, rfl, rfl, rfl, hcalm.entry, hcalm.zombie, hcalm.alive, hcalm.asleep⟩ ?_
    intro r
    simp only [proc_edit]
    split_ifs with hr
    · rw [hr]
      exact id
    · exact id
  all_goals
    cases hs
    exact h.goto rfl rfl rfl rfl hp hlock (fun _ _ => Iff.rfl)
      (fun _ => trivial) id (fun _ => trivial) (fun _ => trivial) hrun fun _ => id

theorem touch
    (hentry : (f (s.proc q)).parent = (s.proc q).parent ∧ (f (s.proc q)).pid = (s.proc q).pid ∧
      (f (s.proc q)).xstate = (s.proc q).xstate)
    (hst : (f (s.proc q)).state = (s.proc q).state ∧ (f (s.proc q)).chan = (s.proc q).chan ∨
      (s.proc q).state ≠ .ZOMBIE ∧ (f (s.proc q)).state = .RUNNABLE) : Family T (s.edit q f) := by
  refine h.calm (calm_edit hentry hst) ?_
  intro r
  simp only [proc_edit]
  grind [Alive]

theorem wakeup (chan : Option (Chan P)) :
    Family T (s.edit q (Entry.wakeup chan)) := by
  unfold Entry.wakeup
  refine h.touch ?_ ?_
  · grind
  · grind

theorem wakeup_asleep {r : P} (chan : Option (Chan P))
    (hr : Asleep (s.edit q (Entry.wakeup chan)) r) :
    Asleep s r ∧ (r = q → chan ≠ some (.proc r)) := by
  have hpc : (s.edit q (Entry.wakeup chan)).pc = s.pc := rfl
  have hchan := h.chan r
  simp only [Asleep, proc_edit, hpc] at hr hchan ⊢
  grind [Entry.wakeup]

theorem did (hf : Forks s) (hp : (s.proc p).state = .RUNNING)
    (hd : Did T s c p s') : Family T s' := by
  have hlock := h.lock p
  have hinit := h.init.2
  -- what a process forks is `USED`, so it is not the process that forks
  have hchild : ∀ np, (s.pc p).child = some np → (s.proc np).state = .USED ∧ p ≠ np := by
    intro np hx
    have hu := hf.used p np hx
    refine ⟨hu, ?_⟩
    rintro rfl
    rw [hp] at hu
    cases hu
  have hused : ∀ np, (s.proc np).state = .USED → ¬ Alive (s.proc np).state := by
    intro np hu
    rw [hu]
    rintro (hx | hx | hx) <;> cases hx
  cases hd with
  | wakeDone hpc | wakeSelf hpc | killNone hpc | killSkip hpc | allocNone hpc | allocSkip hpc =>
    rw [hpc] at hlock
    exact h.goto rfl rfl rfl rfl hp hlock (fun _ _ => Iff.rfl)
      (fun _ => trivial) id (fun _ => trivial) (fun _ => trivial) hpc fun _ => id
  | @wake n q todo hpc hne hl =>
    rw [hpc] at hlock
    have hq : (s.edit q (Entry.wakeup (some (.other n)))).proc p = s.proc p := by
      rw [proc_edit, if_neg hne.symm]
    exact (h.wakeup (q := q) (some (.other n))).goto rfl rfl rfl rfl (by rw [hq, hp]) hlock
      (fun _ _ => Iff.rfl) (fun _ => trivial) id (fun _ => trivial) (fun _ => trivial) hpc
      fun _ => id
  | @kill pid q todo hpc hl hpid =>
    rw [hpc] at hlock
    have hk : Family T (s.edit q Entry.kill) := by
      refine h.touch ⟨rfl, rfl, rfl⟩ ?_
      grind [Entry.kill]
    have hq : ((s.edit q Entry.kill).proc p).state = .RUNNING := by
      rw [proc_edit]
      grind [Entry.kill]
    exact hk.goto rfl rfl rfl rfl hq hlock (fun _ _ => Iff.rfl)
      (fun _ => trivial) id (fun _ => trivial) (fun _ => trivial) hpc fun _ => id
  | @alloc q todo hpc hl hu =>
    have hne : p ≠ q := by
      rintro rfl
      rw [hp] at hu
      cases hu
    rw [hpc] at hlock
    have hrun : ((s.reserve c q).proc p).state = .RUNNING := by
      simp only [Sys.reserve, proc_edit, if_neg hne, hp]
    have hstay : (s.reserve c q).pc p = s.pc p := by
      simp only [Sys.reserve, update_of_ne hne]
    exact (h.reserve hu).goto rfl rfl rfl rfl hrun hlock (fun _ _ => Iff.rfl)
      (fun _ => trivial) id (fun _ => trivial) (fun _ => trivial) (hstay.trans hpc) fun _ => id
  | @copied np hpc =>
    obtain ⟨hu, hne⟩ := hchild np (by rw [hpc]; rfl)
    rw [hpc] at hlock
    have hk : Family T (s.edit np fun e => { e with lock := none }) :=
      h.touch ⟨rfl, rfl, rfl⟩ (.inl ⟨rfl, rfl⟩)
    exact hk.goto rfl rfl rfl rfl (by rw [proc_edit, if_neg hne, hp]) hlock (fun _ _ => Iff.rfl)
      (fun _ => trivial) id (fun _ => trivial) (fun _ => trivial) hpc fun _ => id
  | @abandon np hpc =>
    obtain ⟨hu, hne⟩ := hchild np (by rw [hpc]; rfl)
    rw [hpc] at hlock
    have hk : Family T (s.edit np fun e => { e.freeproc with lock := none }) := by
      refine h.free (hused np hu) rfl rfl rfl rfl ?_ rfl rfl
      simp only [pending, hu, reduceCtorEq, if_false, List.append_nil, Function.update_eq_self]
      rfl
    exact hk.goto rfl rfl rfl rfl (by rw [proc_edit, if_neg hne, hp]) hlock (fun _ _ => Iff.rfl)
      (fun _ => trivial) id (fun _ => trivial) (fun _ => trivial) hpc fun _ => id
  | @adopt np pid hpc hw =>
    obtain ⟨hu, hne⟩ := hchild np (by rw [hpc]; rfl)
    rw [hpc] at hlock
    have hk : Family T (s.edit np fun e => { e with parent := some p }) := by
      refine h.adopt hu hp ?_
      rw [hpc]
      exact fun _ => ⟨trivial, trivial⟩
    exact hk.goto rfl rfl rfl rfl (by rw [proc_edit, if_neg hne, hp]) hlock (fun _ _ => Iff.rfl)
      (fun _ => trivial) id (fun _ => trivial) (fun _ => trivial) hpc fun _ => id
  | @launch np pid hpc hl =>
    obtain ⟨hu, hne⟩ := hchild np (by rw [hpc]; rfl)
    rw [hpc] at hlock
    have hk : Family T (s.edit np fun e => { e with state := .RUNNABLE }) := by
      refine h.touch ⟨rfl, rfl, rfl⟩ (.inr ⟨?_, rfl⟩)
      rw [hu]
      intro hx
      cases hx
    exact hk.goto rfl rfl rfl rfl (by rw [proc_edit, if_neg hne, hp]) hlock (fun _ _ => Iff.rfl)
      (fun _ => trivial) id (fun _ => trivial) (fun _ => trivial) hpc fun _ => id
  | exitLock hpc hw =>
    refine h.move rfl rfl rfl rfl hp ⟨fun _ => rfl, fun _ => trivial⟩ ?_
      (fun q _ _ => T.mem q) ?_ (fun _ _ _ _ => trivial) (fun _ _ _ _ => trivial) ?_
    · intro r hr
      simp only [hw, Option.some.injEq, reduceCtorEq, iff_false]
      exact hr.symm
    · rintro rfl
      rw [hpc] at hinit
      exact absurd trivial hinit
    · rw [hpc]
      exact fun _ hx => hx.elim
  | waitLock hpc hw =>
    refine h.move rfl rfl rfl rfl hp ⟨fun _ => rfl, fun _ => trivial⟩ ?_
      (fun _ _ _ => trivial) (fun _ => id) (fun q _ _ _ => T.mem q) (fun _ _ _ _ => trivial) ?_
    · intro r hr
      simp only [hw, Option.some.injEq, reduceCtorEq, iff_false]
      exact hr.symm
    · rw [hpc]
      exact fun _ hx => hx.elim
  | reparentDone hpc =>
    exact h.advance rfl rfl rfl rfl rfl hp hpc Iff.rfl (fun _ _ hx => List.not_mem_nil hx) id
      (fun _ _ _ _ => trivial) (fun r _ _ _ => T.mem r) fun _ hx => hx.elim
  | @reparentSkip status q todo hpc hpar =>
    refine h.advance rfl rfl rfl rfl rfl hp hpc Iff.rfl (fun r hr hx => ?_) id
      (fun _ _ _ _ => trivial) (fun _ _ _ _ => trivial) fun _ hx => hx.elim
    refine (List.mem_cons.1 hx).resolve_left ?_
    rintro rfl
    exact hpar hr
  | handOver hpc hpar => exact h.handOver hpc hp hpar
  | wakeInitDone hpc =>
    exact h.advance rfl rfl rfl rfl rfl hp hpc Iff.rfl (fun _ _ => id) id
      (fun _ _ _ _ => trivial) (fun _ _ _ _ => trivial) fun _ hx => absurd hx List.not_mem_nil
  | wakeInitSelf hpc =>
    have hne : p ≠ T.initproc := by
      rintro rfl
      rw [hpc] at hinit
      exact hinit trivial
    exact h.advance rfl rfl rfl rfl rfl hp hpc Iff.rfl (fun _ _ => id) id
      (fun _ _ _ _ => trivial) (fun _ _ _ _ => trivial)
      fun _ hx => (List.mem_cons.1 hx).resolve_left hne.symm
  | @wakeInit status q todo rest hpc hqp hl =>
    have hk := h.wakeup (q := q) (some (.proc T.initproc))
    refine hk.advance rfl rfl rfl rfl rfl (by rw [proc_edit, if_neg hqp.symm, hp]) hpc Iff.rfl
      (fun _ _ => id) id (fun _ _ _ _ => trivial) (fun _ _ _ _ => trivial) fun hsl hx => ?_
    -- the first process, if it is still asleep, was not the one just woken
    refine (List.mem_cons.1 hx).resolve_left ?_
    intro hxq
    exact (h.wakeup_asleep _ hsl).2 hxq rfl
  | wakeParentDone hpc =>
    exact h.advance rfl rfl rfl rfl rfl hp hpc Iff.rfl (fun _ _ => id) id
      (fun _ _ _ _ => trivial) (fun _ _ _ hx => List.not_mem_nil hx) fun _ hx => hx.elim
  | wakeParentSelf hpc =>
    refine h.advance rfl rfl rfl rfl rfl hp hpc Iff.rfl (fun _ _ => id) id
      (fun _ _ _ _ => trivial) (fun r _ hsl hx => ?_) fun _ hx => hx.elim
    refine (List.mem_cons.1 hx).resolve_left ?_
    rintro rfl
    rw [hsl.1] at hp
    cases hp
  | @wakeParent status q todo hpc hqp hl =>
    have hk := h.wakeup (q := q) ((s.proc p).parent.map .proc)
    have hsame : (s.edit q (Entry.wakeup ((s.proc p).parent.map .proc))).proc p = s.proc p := by
      rw [proc_edit, if_neg hqp.symm]
    refine hk.advance rfl rfl rfl rfl rfl (by rw [hsame, hp]) hpc Iff.rfl (fun _ _ => id) id
      (fun _ _ _ _ => trivial) (fun r hpar hsl hx => ?_) fun _ hx => hx.elim
    rw [hsame] at hpar
    refine (List.mem_cons.1 hx).resolve_left ?_
    intro hrq
    refine (h.wakeup_asleep _ hsl).2 hrq ?_
    rw [hpar]
    rfl
  | die hpc hl => exact h.die hpc hp
  | @scanSkip addr q todo havekids hpc hpar =>
    refine h.advance rfl rfl rfl rfl rfl hp hpc Iff.rfl (fun _ _ _ => trivial) id
      (fun r hr _ hx => ?_) (fun _ _ _ _ => trivial) fun _ hx => hx.elim
    refine (List.mem_cons.1 hx).resolve_left ?_
    rintro rfl
    exact hpar hr
  | @scanKid addr q todo havekids hpc hpar hz =>
    refine h.advance rfl rfl rfl rfl rfl hp hpc Iff.rfl (fun _ _ _ => trivial) id
      (fun r _ hrz hx => ?_) (fun _ _ _ _ => trivial) fun _ hx => hx.elim
    refine (List.mem_cons.1 hx).resolve_left ?_
    rintro rfl
    exact hz hrz
  | copyoutFails hpc | noKids hpc =>
    rw [hpc] at hlock
    have hw : s.waitLock = some p := hlock.1 trivial
    refine h.goto rfl rfl rfl rfl hp ⟨fun hx => hx.elim, fun hx => (by cases hx)⟩ ?_
      (fun _ => trivial) id (fun _ => trivial) (fun _ => trivial) hpc fun _ => id
    intro r hr
    simp only [hw, Option.some.injEq, reduceCtorEq, false_iff]
    exact hr.symm
  | @reap addr q todo havekids hpc haddr hpar hl hz =>
    rw [hpc] at hlock
    have hw : s.waitLock = some p := hlock.1 trivial
    have hdead : ¬ Alive (s.proc q).state := by
      rw [hz]
      rintro (hx | hx | hx) <;> cases hx
    have hne : p ≠ q := by
      rintro rfl
      rw [hp] at hz
      cases hz
    have hk : Family T { s.edit q Entry.freeproc with
        reaped := update s.reaped q
          (s.reaped q ++ [((s.proc q).pid, (s.proc q).xstate)]) } := by
      refine h.free hdead rfl rfl rfl rfl ?_ rfl rfl
      simp only [pending, hz, if_true]
    refine hk.goto rfl rfl rfl rfl (by rw [proc_edit, if_neg hne, hp])
      ⟨fun hx => hx.elim, fun hx => (by cases hx)⟩ ?_ (fun _ => trivial) id (fun _ => trivial)
      (fun _ => trivial) hpc fun _ => id
    intro r hr
    show none = some r ↔ s.waitLock = some r
    simp only [hw, Option.some.injEq, reduceCtorEq, false_iff]
    exact hr.symm
  | sleepWait hpc hl => exact h.sleepWait hpc hp

end

end Family

variable [DecidableEq C]

theorem Family.step (h : Family T s) (hpl : Placed s) (hf : Forks s)
    (hs : step T s e = some s') : Family T s' := by
  rcases step_cases hpl hs with hq | ⟨c, p, x, -, hp, hpc, hs⟩ | ⟨c, p, mem, -, hp, hd⟩
  · grind [h.calm, hq.calm, hq.state]
  · exact h.call (hpl.running hp).2 hpc hs
  · exact h.did hf (hpl.running hp).2 hd

theorem family_reachable {ok : Event P C → Prop} (h : Reachable T ok s) : Family T s := by
  induction h with
  | refl => exact family_boot
  | tail hr hn ih =>
    obtain ⟨e, -, hs⟩ := hn
    obtain ⟨hpl, hf⟩ := placed_reachable hr
    exact ih.step hpl hf hs

/-- The process `p` on a cpu is in `wait`, its address is good, and it returns its child `q`. -/
def Reaps (s s' : Sys P C) (p q : P) : Prop :=
  (∃ addr todo havekids, s.pc p = .scan addr (q :: todo) havekids ∧ addr ≠ .bad) ∧
    (s.proc q).parent = some p ∧ s'.pc p = .run ∧ s'.result p = (s.proc q).pid ∧
    (s'.proc q).state = .UNUSED ∧
    s'.reaped q = s.reaped q ++ [((s.proc q).pid, (s.proc q).xstate)]

omit [DecidableEq C] in
theorem reaps_of_did (hf : Forks s) (hp : (s.proc p).state = .RUNNING) (hd : Did T s c p s')
    (hchg : (s.proc q).state = .ZOMBIE ∧ (s'.proc q).state ≠ .ZOMBIE ∨
      s'.reaped q ≠ s.reaped q) : Reaps s s' p q := by
  have hused := hf.used p
  cases hd
  case reap addr q' todo havekids hpc haddr hpar hl hz =>
    have hqq : q = q' := by
      simp only [Sys.reap, Sys.ret, Sys.edit, update_apply] at hchg
      grind
    subst hqq
    refine ⟨⟨addr, todo, havekids, hpc, haddr⟩, hpar, ?_, ?_, ?_, ?_⟩
    · simp only [Sys.reap, Sys.ret, update_self]
    · simp only [Sys.reap, Sys.ret, update_self]
    · simp only [Sys.reap, Sys.ret, Sys.edit, Entry.freeproc, update_self]
    · simp only [Sys.reap, update_self]
  all_goals exfalso
  all_goals simp only [Sys.goto, Sys.ret, Sys.edit, Sys.giveUp, Sys.die, Sys.reserve, Sys.copyMem,
    update_apply] at hchg
  all_goals grind [Entry.wakeup, Entry.kill, Entry.freeproc, Pc.child]

theorem reaps_of_step (hpl : Placed s) (hf : Forks s) (hs : step T s e = some s')
    (hchg : (s.proc q).state = .ZOMBIE ∧ (s'.proc q).state ≠ .ZOMBIE ∨
      s'.reaped q ≠ s.reaped q) : ∃ c p, s.running c = some p ∧ Reaps s s' p q := by
  rcases step_cases hpl hs with hq | ⟨c, p, x, -, hp, hpc, hs⟩ | ⟨c, p, mem, -, hp, hd⟩
  · rcases hchg with ⟨hz, hz'⟩ | hne
    · exact absurd ((hq.calm.zombie q).2 hz) hz'
    · exact absurd (congrFun hq.reaped q) hne
  · rcases hchg with ⟨hz, hz'⟩ | hne
    · exact absurd (((call_eq hs).2 q).trans hz) hz'
    · refine absurd ?_ hne
      unfold Sys.call at hs
      split at hs
      case h_4 =>
        split_ifs at hs
        cases hs
        rfl
      all_goals
        cases hs
        rfl
  · exact ⟨c, p, hp, reaps_of_did hf (hpl.running hp).2 hd hchg⟩

omit [DecidableEq C] in
theorem parent_of_did (hf : Forks s) (hd : Did T s c p s') (hst : (s.proc q).state ≠ .USED)
    (hpar : (s.proc q).parent = some r) : (s'.proc q).parent = some r ∨
      (s'.proc q).parent = some T.initproc ∧ (∃ status todo, s.pc r = .reparent status todo) ∨
      (s'.proc q).state = .UNUSED := by
  have hused := hf.used p
  cases hd
  all_goals simp only [Sys.goto, Sys.ret, Sys.edit, Sys.giveUp, Sys.die, Sys.reserve, Sys.copyMem,
    Sys.reap, update_apply]
  all_goals grind [Entry.wakeup, Entry.kill, Entry.freeproc, Pc.child]

/-- The only other parent a process that has been forked can come to have is the first process,
    and only when its own parent is in `exit`. -/
theorem parent_of_step (hpl : Placed s) (hf : Forks s)
    (hs : step T s e = some s') (hst : (s.proc q).state ≠ .USED)
    (hpar : (s.proc q).parent = some r) : (s'.proc q).parent = some r ∨
      (s'.proc q).parent = some T.initproc ∧ (∃ status todo, s.pc r = .reparent status todo) ∨
      (s'.proc q).state = .UNUSED := by
  rcases step_cases hpl hs with hq | ⟨c, p, x, -, hp, hpc, hs⟩ | ⟨c, p, mem, -, hp, hd⟩
  · exact .inl ((hq.calm.entry q).1.trans hpar)
  · refine .inl (Eq.trans ?_ hpar)
    unfold Sys.call at hs
    split at hs
    case h_4 =>
      split_ifs at hs
      cases hs
      rfl
    case h_6 =>
      cases hs
      simp only [proc_edit]
      grind
    all_goals
      cases hs
      rfl
  · exact parent_of_did hf hd hst hpar

omit [DecidableEq P] [DecidableEq C] in
theorem Family.not_asleep (h : Family T s) (hw : s.waitLock = none)
    (hpar : (s.proc q).parent = some p) (hz : (s.proc q).state = .ZOMBIE) : ¬ Asleep s p := by
  intro hsl
  obtain ⟨-, r, hr⟩ := h.missed q p hpar hz hsl
  have hholds := (h.lock r).1 (Pc.holds_of_wakes hr)
  rw [hw] at hholds
  cases hholds

/-- In every state of every run: the exits from a slot are those that a `wait` has returned, in
    order, and the zombie there, if any; a zombie goes only by a `wait` of the process that is
    its parent then, which returns it; a `wait` whose address is bad leaves it; a parent is
    alive; a parent with a zombie child is not asleep in `wait` while `wait_lock` is free; and
    until it is freed, a process keeps its parent or is given to the first process when that
    parent exits. -/
theorem exit_wait_match (h : Reachable T (fun _ => True) s) :
    (∀ q, s.exited q = s.reaped q ++ pending (s.proc q)) ∧ (∀ e s' q, step T s e = some s' →
      (s.proc q).state = .ZOMBIE ∧ (s'.proc q).state ≠ .ZOMBIE ∨ s'.reaped q ≠ s.reaped q →
      ∃ c p, s.running c = some p ∧ Reaps s s' p q) ∧
    (∀ c mem s' p q todo havekids, s.running c = some p →
      s.pc p = .scan .bad (q :: todo) havekids → (s.proc q).parent = some p →
      (s.proc q).state = .ZOMBIE → step T s (.go c mem) = some s' →
      s'.pc p = .run ∧ s'.result p = -1 ∧ s'.proc = s.proc) ∧
    (∀ q p, (s.proc q).parent = some p → Alive (s.proc p).state) ∧
    (s.waitLock = none → ∀ q p, (s.proc q).parent = some p → (s.proc q).state = .ZOMBIE →
      ¬ Asleep s p) ∧
    (∀ e s' q p, step T s e = some s' → (s.proc q).state ≠ .USED → (s.proc q).parent = some p →
      (s'.proc q).parent = some p ∨
        (s'.proc q).parent = some T.initproc ∧ (∃ status todo, s.pc p = .reparent status todo) ∨
        (s'.proc q).state = .UNUSED) := by
  have hfam := family_reachable h
  obtain ⟨hpl, hf⟩ := placed_reachable h
  refine ⟨hfam.books, fun e s' q hs => reaps_of_step hpl hf hs, ?_, hfam.alive,
    fun hw q p hpar hz => hfam.not_asleep hw hpar hz,
    fun _ _ _ _ hs hst => parent_of_step hpl hf hs hst⟩
  intro c mem s' p q todo havekids hp hpc hpar hz hs
  obtain ⟨p', hp', hs⟩ := Option.bind_eq_some_iff.1 hs
  rw [hp] at hp'
  cases hp'
  simp only [Sys.go, hpc, Sys.scanOne, if_pos hpar, if_pos hz, if_true] at hs
  split_ifs at hs
  cases hs
  exact ⟨by simp only [Sys.ret, update_self], by simp only [Sys.ret, update_self], rfl⟩

/-- A table of two, the first process and one more. -/
def pair : Table Bool :=
  { procs := [false, true], mem := fun p => (by cases p <;> decide), initproc := false }

/-- The first process forks, and its child runs on the second cpu until it has exited. -/
def forkExit : List (Event Bool Bool) :=
  dispatch false false ++ [.call false .fork, .go false true, .go false true, .go false true,
    .go false true, .go false true] ++ dispatch true true ++
  [.call true (.exit 7)] ++ List.replicate 8 (.go true true) ++
  [.swtch true, .sched true, .sched true]

/-- The child exits with status `7`, and the exit is pending until the parent waits. -/
theorem exit_wait_match_pair : ∃ s t : Sys Bool Bool,
    steps pair (boot pair) forkExit = some s ∧ (s.proc true).state = .ZOMBIE ∧
    s.reaped true = [] ∧ s.exited true = [(2, 7)] ∧
    steps pair s [.call false (.wait .good), .go false true, .go false true, .go false true] =
      some t ∧ t.result false = 2 ∧ t.reaped true = [(2, 7)] ∧
    t.exited true = t.reaped true ++ pending (t.proc true) := by
  have hrun : ∃ s t : Sys Bool Bool,
      steps pair (boot pair) forkExit = some s ∧ (s.proc true).state = .ZOMBIE ∧
      s.reaped true = [] ∧ s.exited true = [(2, 7)] ∧
      steps pair s [.call false (.wait .good), .go false true, .go false true, .go false true] =
        some t ∧ t.result false = 2 ∧ t.reaped true = [(2, 7)] :=
    ⟨_, _, rfl, rfl, rfl, rfl, rfl, rfl, rfl⟩
  obtain ⟨s, t, hs, hz, hr, he, ht, hres, hreap⟩ := hrun
  have hreach : Reachable pair (fun _ => True) t := reachable_of_steps (fun _ _ => trivial)
      (reachable_of_steps (fun _ _ => trivial) .refl hs) ht
  exact ⟨s, t, hs, hz, hr, he, ht, hres, hreap, (exit_wait_match hreach).1 true⟩

end Xv6.Ptable
