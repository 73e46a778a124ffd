import Xv6.Theory.Proc.Steps

/-!
# Processes on Cpus

Which cpu a process is on. `c->proc`, `p->state` and `p->lock` change at different places of
the text, so no two of them agree all the time. What holds is what each place of the
scheduler's text implies about the process there (`Fits`), and that a process at no place is
not `RUNNING` (`Placed`). Seen while `p->lock` is free: a process is `RUNNING` exactly if
one cpu has it.

## Theorems

* `Ptable.running_iff_one_cpu`: a running process is on one cpu
-/

namespace Xv6.Ptable

open Function (update_apply)

variable {P C : Type}

/-- The process a cpu is at, if any. -/
def Cpu.proc : Cpu P → Option P
  | .idle => none
  | .chosen p | .loaded p | .thread p | .back p | .cleared p => some p

/-- What `c->proc` is there. -/
def Cpu.cur : Cpu P → Option P
  | .loaded p | .thread p | .back p => some p
  | .idle | .chosen _ | .cleared _ => none

/-- The states a process gives up its cpu in. -/
def Parked (x : ProcState) : Prop := x = .RUNNABLE ∨ x = .SLEEPING ∨ x = .ZOMBIE

/-- The process whose thread `c` is in. -/
def FitsThread (lock : Option C) (state : ProcState) (c : C) : Ctx → Prop
  | .on => lock = none ∧ state = .RUNNING
  | .resumed _ => lock = some c ∧ state = .RUNNING
  | .out _ => lock = some c ∧ Parked state

/-- What the place of `c` says about the process it is at. -/
def Fits (proc : P → Entry P C) (ctx : P → Ctx) (c : C) : Cpu P → Prop
  | .idle => True
  | .chosen p | .loaded p =>
    (proc p).lock = some c ∧ (proc p).state = .RUNNING ∧ ∃ slept, ctx p = .out slept
  | .thread p => FitsThread (proc p).lock (proc p).state c (ctx p)
  | .back p | .cleared p =>
    (proc p).lock = some c ∧ Parked (proc p).state ∧ ∃ slept, ctx p = .out slept

/-- On no cpu. -/
def Off (s : Sys P C) (p : P) : Prop := ∀ c, (s.cpu c).proc ≠ some p

structure Placed (s : Sys P C) : Prop where
  one : ∀ c c' p, (s.cpu c).proc = some p → (s.cpu c').proc = some p → c = c'
  cur : ∀ c, s.cur c = (s.cpu c).cur
  fits : ∀ c, Fits s.proc s.ctx c (s.cpu c)
  off : ∀ p, Off s p → (s.proc p).state ≠ .RUNNING ∧ ∃ slept, s.ctx p = .out slept

/-- The process that `fork` is making. -/
def Pc.child : Pc P → Option P
  | .forking np | .adopt np _ | .launch np _ => some np
  | _ => none

structure Forks (s : Sys P C) : Prop where
  used : ∀ f q, (s.pc f).child = some q → (s.proc q).state = .USED
  once : ∀ f f' q, (s.pc f).child = some q → (s.pc f').child = some q → f = f'

/-- The changes of `p->state`. -/
@[grind]
inductive Edge : ProcState → ProcState → Prop
  | alloc : Edge .UNUSED .USED
  | launch : Edge .USED .RUNNABLE
  | run : Edge .RUNNABLE .RUNNING
  | yield : Edge .RUNNING .RUNNABLE
  | sleep : Edge .RUNNING .SLEEPING
  | exit : Edge .RUNNING .ZOMBIE
  | wakeup : Edge .SLEEPING .RUNNABLE
  | reap : Edge .ZOMBIE .UNUSED
  | abandon : Edge .USED .UNUSED

variable [DecidableEq P] [DecidableEq C] {T : Table P} {s s' : Sys P C} {c : C} {p q : P}

theorem Fits.congr {e e' : P → Entry P C} {x x' : P → Ctx} {l : Cpu P} (h : Fits e x c l)
    (hl : ∀ p, l.proc = some p → (e' p).lock = (e p).lock)
    (hst : ∀ p, l.proc = some p → (e' p).state = (e p).state)
    (hx : ∀ p, l.proc = some p → x' p = x p) : Fits e' x' c l := by
  cases l with
  | idle => trivial
  | thread p =>
    simp only [Fits] at h ⊢
    rwa [hl p rfl, hst p rfl, hx p rfl]
  | chosen p | loaded p | back p | cleared p =>
    simp only [Fits] at h ⊢
    rwa [hl p rfl, hst p rfl, hx p rfl]

namespace Placed

theorem congr (h : Placed s) (hproc : s'.proc = s.proc) (hctx : s'.ctx = s.ctx)
    (hcpu : s'.cpu = s.cpu) (hcur : s'.cur = s.cur) : Placed s' := by
  constructor
  · rw [hcpu]
    exact h.one
  · rw [hcpu, hcur]
    exact h.cur
  · rw [hcpu, hproc, hctx]
    exact h.fits
  · unfold Off
    rw [hcpu, hproc, hctx]
    exact h.off

theorem state_of_at (h : Placed s) (hc : (s.cpu c).proc = some p) :
    (s.proc p).state = .RUNNING ∨ (s.proc p).lock = some c ∧ Parked (s.proc p).state := by
  have hfit := h.fits c
  cases hx : s.cpu c with
  | idle =>
    rw [hx] at hc
    cases hc
  | thread r =>
    rw [hx] at hc hfit
    cases hc
    simp only [Fits] at hfit
    cases hctx : s.ctx p with
    | on | resumed b =>
      rw [hctx] at hfit
      exact .inl hfit.2
    | out b =>
      rw [hctx] at hfit
      exact .inr hfit
  | chosen r | loaded r =>
    rw [hx] at hc hfit
    cases hc
    exact .inl hfit.2.1
  | back r | cleared r =>
    rw [hx] at hc hfit
    cases hc
    exact .inr ⟨hfit.1, hfit.2.1⟩

theorem off_of_free (h : Placed s) (hl : (s.proc p).lock = none)
    (hr : (s.proc p).state ≠ .RUNNING) : Off s p := by
  intro c hc
  rcases h.state_of_at hc with hrun | ⟨hlock, -⟩
  · exact hr hrun
  · rw [hl] at hlock
    cases hlock

theorem off_of_used (h : Placed s) (hu : (s.proc p).state = .USED) : Off s p := by
  intro c hc
  rcases h.state_of_at hc with hrun | ⟨-, hpark⟩
  · rw [hu] at hrun
    cases hrun
  · rw [hu] at hpark
    rcases hpark with hpark | hpark | hpark <;> cases hpark

variable {f : Entry P C → Entry P C}

section

variable (h : Placed s)

include h

theorem edit_same
    (hl : (f (s.proc q)).lock = (s.proc q).lock)
    (hst : (f (s.proc q)).state = (s.proc q).state) : Placed (s.edit q f) := by
  refine ⟨h.one, h.cur, ?_, ?_⟩
  · intro c
    refine (h.fits c).congr ?_ ?_ (fun _ _ => rfl)
    · intro r _
      grind [proc_edit]
    · intro r _
      grind [proc_edit]
  · intro r hr
    have hoff := h.off r hr
    show ((s.edit q f).proc r).state ≠ .RUNNING ∧ ∃ slept, s.ctx r = .out slept
    grind [proc_edit]

theorem edit_off (hoff : Off s q)
    (hst : (f (s.proc q)).state ≠ .RUNNING) : Placed (s.edit q f) := by
  refine ⟨h.one, h.cur, ?_, ?_⟩
  · intro c
    have hne : ∀ r, (s.cpu c).proc = some r → (s.edit q f).proc r = s.proc r := by
      intro r hr
      rw [proc_edit, if_neg]
      rintro rfl
      exact hoff c hr
    exact (h.fits c).congr (fun r hr => by rw [hne r hr]) (fun r hr => by rw [hne r hr])
      (fun _ _ => rfl)
  · intro r hr
    have hold := h.off r hr
    show ((s.edit q f).proc r).state ≠ .RUNNING ∧ ∃ slept, s.ctx r = .out slept
    grind [proc_edit]

theorem pick (hc : s.cpu c = .idle) (hl : (s.proc p).lock = none)
    (hr : (s.proc p).state = .RUNNABLE) : Placed (s.pick c p) := by
  have hoff : Off s p := h.off_of_free hl (by rw [hr]; intro hx; cases hx)
  have hctx := (h.off p hoff).2
  refine ⟨?_, ?_, ?_, ?_⟩
  · intro c1 c2 q h1 h2
    have hone := h.one c1 c2 q
    have hoff1 := hoff c1
    have hoff2 := hoff c2
    simp only [Sys.pick, Sys.edit, Sys.setCpu, update_apply] at h1 h2
    grind [Cpu.proc]
  · intro c'
    have hcur := h.cur c'
    simp only [Sys.pick, Sys.edit, Sys.setCpu, update_apply]
    grind [Cpu.cur]
  · intro c'
    have hfit := h.fits c'
    have hne := hoff c'
    simp only [Sys.pick, Sys.edit, Sys.setCpu, update_apply]
    cases hx : s.cpu c' <;> grind [Fits, FitsThread, Cpu.proc, update_apply]
  · intro q hq
    have hqc := hq c
    have hold := h.off q
    simp only [Off, Sys.pick, Sys.edit, Sys.setCpu, update_apply] at hq hqc hold ⊢
    grind [Cpu.proc]

theorem move (hc : (s.cpu c).proc = some p)
    (hother : ∀ c', c' ≠ c → s'.cpu c' = s.cpu c')
    (hproc : ∀ r, r ≠ p → s'.proc r = s.proc r) (hctx : ∀ r, r ≠ p → s'.ctx r = s.ctx r)
    (hcur : ∀ c', c' ≠ c → s'.cur c' = s.cur c') (hnow : s'.cur c = (s'.cpu c).cur)
    (hat : (s'.cpu c).proc = some p ∨ s'.cpu c = .idle ∧ (s'.proc p).state ≠ .RUNNING ∧
      ∃ slept, s'.ctx p = .out slept) (hfit : Fits s'.proc s'.ctx c (s'.cpu c)) : Placed s' := by
  -- a process seen at a cpu afterwards was at it before
  have hwas : ∀ c' q, (s'.cpu c').proc = some q → (s.cpu c').proc = some q := by
    intro c' q hq
    by_cases hcc : c' = c
    · subst hcc
      rcases hat with hat | ⟨hidle, -⟩
      · rw [hc, ← hat, hq]
      · rw [hidle] at hq
        cases hq
    · rwa [hother c' hcc] at hq
  refine ⟨?_, ?_, ?_, ?_⟩
  · intro c1 c2 q h1 h2
    exact h.one c1 c2 q (hwas c1 q h1) (hwas c2 q h2)
  · intro c'
    by_cases hcc : c' = c
    · rw [hcc]
      exact hnow
    · rw [hcur c' hcc, hother c' hcc]
      exact h.cur c'
  · intro c'
    by_cases hcc : c' = c
    · rw [hcc]
      exact hfit
    · -- another cpu is at another process
      have hne : ∀ r, (s.cpu c').proc = some r → r ≠ p := by
        rintro r hr rfl
        exact hcc (h.one c' c r hr hc)
      rw [hother c' hcc]
      exact (h.fits c').congr (fun r hr => by rw [hproc r (hne r hr)])
        (fun r hr => by rw [hproc r (hne r hr)]) (fun r hr => hctx r (hne r hr))
  · intro q hq
    by_cases hqp : q = p
    · subst hqp
      rcases hat with hat | ⟨-, hst, hout⟩
      · exact absurd hat (hq c)
      · exact ⟨hst, hout⟩
    · have hoff : Off s q := by
        intro c' hx
        by_cases hcc : c' = c
        · rw [hcc, hc] at hx
          exact hqp (Option.some.inj hx).symm
        · exact hq c' (by rw [hother c' hcc, hx])
      have hold := h.off q hoff
      rw [hproc q hqp, hctx q hqp]
      exact hold

theorem sched (hs : s.sched c = some s') : Placed s' := by
  have hfit := h.fits c
  have hcur := h.cur c
  unfold Sys.sched at hs
  split at hs
  · -- `c->proc = p`
    rename_i p hx
    cases hs
    rw [hx] at hfit
    apply h.move (c := c) (p := p)
    all_goals try simp only [Sys.load, Sys.setCpu, update_apply]
    all_goals grind [Fits, Cpu.proc, Cpu.cur]
  · rename_i p hx
    rw [hx] at hfit hcur
    split at hs
    · cases hs
      apply h.move (c := c) (p := p)
      all_goals try simp only [Sys.enter, Sys.setCpu, update_apply]
      all_goals grind [Fits, FitsThread, Cpu.proc, Cpu.cur]
    · cases hs
  · rename_i p hx
    cases hs
    rw [hx] at hfit
    apply h.move (c := c) (p := p)
    all_goals try simp only [Sys.clear, Sys.setCpu, update_apply]
    all_goals grind [Fits, Cpu.proc, Cpu.cur]
  · rename_i p hx
    cases hs
    rw [hx] at hfit hcur
    apply h.move (c := c) (p := p)
    all_goals try simp only [Sys.drop, Sys.edit, Sys.setCpu, update_apply]
    all_goals grind [Fits, Parked, Cpu.proc, Cpu.cur]
  · cases hs

theorem swtch (hs : s.swtch c = some s') : Placed s' := by
  have hfit := h.fits c
  have hcur := h.cur c
  unfold Sys.swtch at hs
  split at hs
  · rename_i p hx
    rw [hx] at hfit hcur
    split at hs
    · cases hs
      apply h.move (c := c) (p := p)
      all_goals try simp only [Sys.setCpu, update_apply]
      all_goals grind [Fits, FitsThread, Cpu.proc, Cpu.cur]
    · cases hs
      apply h.move (c := c) (p := p)
      all_goals try simp only [Sys.settle, Sys.edit, update_apply]
      all_goals grind [Fits, FitsThread, Cpu.proc, Cpu.cur]
    · cases hs
  · cases hs

theorem giveUp (hc : s.cpu c = .thread p)
    (hf : Parked (f (s.proc p)).state) (slept : Bool) : Placed (s.giveUp c p f slept) := by
  have hcur := h.cur c
  apply h.move (c := c) (p := p)
  all_goals try simp only [Sys.giveUp, Sys.edit, update_apply]
  all_goals grind [Fits, FitsThread, Cpu.proc, Cpu.cur]

theorem reserve (hl : (s.proc q).lock = none) (hu : (s.proc q).state = .UNUSED) :
    Placed (s.reserve c q) := by
  have hoff : Off s q := h.off_of_free hl (by rw [hu]; intro hx; cases hx)
  refine ⟨h.one, h.cur, ?_, ?_⟩
  · intro c'
    have hne : ∀ r, (s.cpu c').proc = some r → r ≠ q := by
      rintro r hr rfl
      exact hoff c' hr
    refine (h.fits c').congr ?_ ?_ ?_
    all_goals intro r hr; simp only [Sys.reserve, Sys.edit, Function.update_of_ne (hne r hr)]
  · intro r hr
    have hold := h.off r hr
    simp only [Sys.reserve, Sys.edit, update_apply]
    grind

theorem wakeup (hl : (s.proc q).lock = none) (chan : Option (Chan P)) :
    Placed (s.edit q (Entry.wakeup chan)) := by
  by_cases hst : (s.proc q).state = .SLEEPING
  · refine h.edit_off (h.off_of_free hl (by rw [hst]; intro hx; cases hx)) ?_
    grind [Entry.wakeup]
  · refine h.edit_same ?_ ?_ <;> grind [Entry.wakeup]

theorem kill (hl : (s.proc q).lock = none) : Placed (s.edit q Entry.kill) := by
  by_cases hst : (s.proc q).state = .SLEEPING
  · refine h.edit_off (h.off_of_free hl (by rw [hst]; intro hx; cases hx)) ?_
    grind [Entry.kill]
  · refine h.edit_same ?_ ?_ <;> grind [Entry.kill]

theorem did (hf : Forks s) (hc : s.cpu c = .thread p) (hd : Did T s c p s') :
    Placed s' := by
  cases hd with
  | wakeDone | wakeSelf | killNone | killSkip | allocNone | allocSkip | exitLock =>
    exact h.congr rfl rfl rfl rfl
  | reparentDone | reparentSkip | wakeInitDone | wakeInitSelf | wakeParentDone | wakeParentSelf =>
    exact h.congr rfl rfl rfl rfl
  | waitLock | scanSkip | scanKid | copyoutFails | noKids => exact h.congr rfl rfl rfl rfl
  | wake _ _ hl | wakeInit _ _ hl | wakeParent _ _ hl =>
    exact (h.wakeup hl _).congr rfl rfl rfl rfl
  | kill _ hl => exact (h.kill hl).congr rfl rfl rfl rfl
  | alloc _ hl hu => exact (h.reserve hl hu).congr rfl rfl rfl rfl
  | @copied np hpc =>
    -- the new process is `USED`, so no cpu is at it although its lock is taken
    have hu := hf.used p np (by rw [hpc]; rfl)
    refine (h.edit_off (f := fun e => { e with lock := none }) (h.off_of_used hu) ?_).congr
      rfl rfl rfl rfl
    simp only [hu, ne_eq, reduceCtorEq, not_false_eq_true]
  | @abandon np hpc =>
    have hu := hf.used p np (by rw [hpc]; rfl)
    refine (h.edit_off (f := fun e => { e.freeproc with lock := none })
      (h.off_of_used hu) ?_).congr rfl rfl rfl rfl
    simp only [Entry.freeproc, ne_eq, reduceCtorEq, not_false_eq_true]
  | adopt =>
    exact (h.edit_same (f := fun e => { e with parent := some p }) rfl rfl).congr rfl rfl rfl rfl
  | @launch np pid hpc =>
    have hu := hf.used p np (by rw [hpc]; rfl)
    refine (h.edit_off (f := fun e => { e with state := .RUNNABLE })
      (h.off_of_used hu) ?_).congr rfl rfl rfl rfl
    simp only [ne_eq, reduceCtorEq, not_false_eq_true]
  | handOver =>
    exact (h.edit_same (f := fun e => { e with parent := some T.initproc }) rfl rfl).congr
      rfl rfl rfl rfl
  | die =>
    exact (h.giveUp (f := fun e => { e with xstate := _, state := .ZOMBIE }) hc
      (.inr (.inr rfl)) false).congr rfl rfl rfl rfl
  | @reap addr q _ _ _ _ _ hl hz =>
    have hoff : Off s q := h.off_of_free hl (by rw [hz]; intro hx; cases hx)
    refine (h.edit_off (f := Entry.freeproc) hoff ?_).congr rfl rfl rfl rfl
    simp only [Entry.freeproc, ne_eq, reduceCtorEq, not_false_eq_true]
  | sleepWait =>
    exact (h.giveUp (f := fun e => { e with chan := some (.proc p), state := .SLEEPING }) hc
      (.inr (.inl rfl)) true).congr rfl rfl rfl rfl

theorem call {x : Call} (hs : s.call T p x = some s') : Placed s' := by
  unfold Sys.call at hs
  split at hs
  case h_4 =>
    split_ifs at hs
    cases hs
    exact h.congr rfl rfl rfl rfl
  case h_6 =>
    cases hs
    exact (h.edit_same (f := fun e => { e with killed := true }) rfl rfl).congr rfl rfl rfl rfl
  all_goals
    cases hs
    exact h.congr rfl rfl rfl rfl

theorem step (hf : Forks s) {e : Event P C} (hs : step T s e = some s') :
    Placed s' := by
  cases e with
  | pick c p =>
    simp only [Ptable.step] at hs
    split_ifs at hs with hg
    cases hs
    exact h.pick hg.1 hg.2.1 hg.2.2
  | sched c => exact h.sched hs
  | swtch c => exact h.swtch hs
  | yield c =>
    obtain ⟨p, hp, hs⟩ := Option.bind_eq_some_iff.1 hs
    split_ifs at hs
    cases hs
    exact h.giveUp (running_eq hp).1 (.inl rfl) false
  | sleep c n =>
    obtain ⟨p, hp, hs⟩ := Option.bind_eq_some_iff.1 hs
    split at hs
    · split_ifs at hs
      cases hs
      exact h.giveUp (running_eq hp).1 (.inr (.inl rfl)) true
    · cases hs
  | call c x =>
    obtain ⟨p, hp, hs⟩ := Option.bind_eq_some_iff.1 hs
    split at hs
    · exact h.call hs
    · cases hs
  | go c mem =>
    obtain ⟨p, hp, hs⟩ := Option.bind_eq_some_iff.1 hs
    exact h.did hf (running_eq hp).1 (did_of_go hs)
  | interrupt n q =>
    simp only [Ptable.step] at hs
    split_ifs at hs with hl
    cases hs
    exact h.wakeup hl _

end

end Placed

theorem Placed.running (h : Placed s) (hp : s.running c = some p) :
    (s.proc p).lock = none ∧ (s.proc p).state = .RUNNING := by
  obtain ⟨hc, hon⟩ := running_eq hp
  have hfit := h.fits c
  rw [hc] at hfit
  simp only [Fits] at hfit
  rwa [hon] at hfit

namespace Forks

theorem did (h : Forks s) (hr : (s.proc p).state = .RUNNING) (hd : Did T s c p s') : Forks s' := by
  have hused := h.used
  have honce := h.once
  cases hd
  all_goals constructor
  all_goals simp only [Sys.goto, Sys.ret, Sys.edit, Sys.giveUp, Sys.die, Sys.reap, Sys.reserve,
    Sys.copyMem, update_apply]
  all_goals intros
  all_goals grind [Entry.wakeup, Entry.kill, Entry.freeproc, Pc.child]

end Forks

theorem edge_of_did (hf : Forks s) (hr : (s.proc p).state = .RUNNING) (hd : Did T s c p s')
    (r : P) : (s'.proc r).state = (s.proc r).state ∨ Edge (s.proc r).state (s'.proc r).state := by
  have hused := hf.used p
  cases hd
  all_goals simp only [Sys.goto, Sys.ret, Sys.edit, Sys.giveUp, Sys.die, Sys.reap, Sys.reserve,
    Sys.copyMem, update_apply]
  all_goals grind [Entry.wakeup, Entry.kill, Entry.freeproc, Pc.child]

/-- Not yet forked, or exited, a process is not in one of these. -/
def Alive (x : ProcState) : Prop := x = .RUNNABLE ∨ x = .RUNNING ∨ x = .SLEEPING

/-- A step of the scheduler, of `yield` and `sleep`, or of an interrupt: processes get and lose
    cpus, and nothing else happens to the table. -/
structure Quiet (s s' : Sys P C) : Prop where
  pc : s'.pc = s.pc
  waitLock : s'.waitLock = s.waitLock
  exited : s'.exited = s.exited
  reaped : s'.reaped = s.reaped
  asked : s'.asked = s.asked
  entry : ∀ r, (s'.proc r).parent = (s.proc r).parent ∧ (s'.proc r).pid = (s.proc r).pid ∧
    (s'.proc r).xstate = (s.proc r).xstate ∧ (s'.proc r).killed = (s.proc r).killed
  state : ∀ r, (s'.proc r).state = (s.proc r).state ∨
    Alive (s.proc r).state ∧ Alive (s'.proc r).state ∧ Edge (s.proc r).state (s'.proc r).state
  /-- Only a process in none of the functions goes to sleep here. -/
  chan : ∀ r, (s'.proc r).state = .SLEEPING → s.pc r = .run ∨
    (s.proc r).state = .SLEEPING ∧ (s'.proc r).chan = (s.proc r).chan

theorem quiet_of_edit {f : Entry P C → Entry P C} (hproc : s'.proc = (s.edit q f).proc)
    (hpc : s'.pc = s.pc) (hw : s'.waitLock = s.waitLock) (he : s'.exited = s.exited)
    (hr : s'.reaped = s.reaped) (ha : s'.asked = s.asked)
    (hentry : (f (s.proc q)).parent = (s.proc q).parent ∧ (f (s.proc q)).pid = (s.proc q).pid ∧
      (f (s.proc q)).xstate = (s.proc q).xstate ∧ (f (s.proc q)).killed = (s.proc q).killed)
    (hst : (f (s.proc q)).state = (s.proc q).state ∨ Alive (s.proc q).state ∧
      Alive (f (s.proc q)).state ∧ Edge (s.proc q).state (f (s.proc q)).state)
    (hchan : (f (s.proc q)).state = .SLEEPING → s.pc q = .run ∨
      (s.proc q).state = .SLEEPING ∧ (f (s.proc q)).chan = (s.proc q).chan) : Quiet s s' := by
  refine ⟨hpc, hw, he, hr, ha, ?_, ?_, ?_⟩
  all_goals intro r; rw [hproc, proc_edit]
  · split_ifs with hrq
    · subst hrq
      exact hentry
    · exact ⟨rfl, rfl, rfl, rfl⟩
  · split_ifs with hrq
    · subst hrq
      exact hst
    · exact .inl rfl
  · split_ifs with hrq
    · subst hrq
      exact hchan
    · exact fun hx => .inr ⟨hx, rfl⟩

theorem quiet_of_proc_eq (hproc : s'.proc = s.proc) (hpc : s'.pc = s.pc)
    (hw : s'.waitLock = s.waitLock) (he : s'.exited = s.exited) (hr : s'.reaped = s.reaped)
    (ha : s'.asked = s.asked) : Quiet s s' := by
  refine ⟨hpc, hw, he, hr, ha, ?_, ?_, ?_⟩
  all_goals intro r; rw [hproc]
  · exact ⟨rfl, rfl, rfl, rfl⟩
  · exact .inl rfl
  · exact fun hx => .inr ⟨hx, rfl⟩

theorem quiet_sched (hs : s.sched c = some s') : Quiet s s' := by
  unfold Sys.sched at hs
  split at hs
  case h_2 =>
    split at hs
    · cases hs
      exact quiet_of_proc_eq rfl rfl rfl rfl rfl rfl
    · cases hs
  case h_4 p hx =>
    cases hs
    exact quiet_of_edit (q := p) (f := fun e => { e with lock := none }) rfl rfl rfl rfl rfl rfl
      ⟨rfl, rfl, rfl, rfl⟩ (.inl rfl) (fun hx => .inr ⟨hx, rfl⟩)
  all_goals cases hs
  all_goals exact quiet_of_proc_eq rfl rfl rfl rfl rfl rfl

theorem quiet_swtch (h : Placed s) (hs : s.swtch c = some s') : Quiet s s' := by
  have hfit := h.fits c
  unfold Sys.swtch at hs
  split at hs
  · rename_i p hx
    rw [hx] at hfit
    simp only [Fits] at hfit
    split at hs
    · cases hs
      exact quiet_of_proc_eq rfl rfl rfl rfl rfl rfl
    · rename_i slept hctx
      cases hs
      rw [hctx] at hfit
      refine quiet_of_edit (q := p)
        (f := fun e => { e with chan := if slept then none else e.chan, lock := none })
        rfl rfl rfl rfl rfl rfl ⟨rfl, rfl, rfl, rfl⟩ (.inl rfl) ?_
      -- back on its cpu the process is `RUNNING`, so its channel no longer matters
      intro hsleep
      rw [show (s.proc p).state = .SLEEPING from hsleep] at hfit
      cases hfit.2
    · cases hs
  · cases hs

variable {e : Event P C}

/-- The three kinds of steps: those of the scheduler, a process calling a function, and a
    process going on in one. -/
theorem step_cases (h : Placed s) (hs : step T s e = some s') : Quiet s s' ∨
    (∃ c p x, e = .call c x ∧ s.running c = some p ∧ s.pc p = .run ∧ s.call T p x = some s') ∨
    ∃ c p mem, e = .go c mem ∧ s.running c = some p ∧ Did T s c p s' := by
  cases e with
  | pick c p =>
    simp only [step] at hs
    split_ifs at hs with hg
    cases hs
    left
    refine quiet_of_edit (q := p) (f := fun e => { e with lock := some c, state := .RUNNING })
      rfl rfl rfl rfl rfl rfl ⟨rfl, rfl, rfl, rfl⟩ (.inr ⟨.inl hg.2.2, .inr (.inl rfl), ?_⟩) ?_
    · rw [hg.2.2]
      exact .run
    · intro hx
      cases hx
  | sched c => exact .inl (quiet_sched hs)
  | swtch c => exact .inl (quiet_swtch h hs)
  | yield c =>
    obtain ⟨p, hp, hs⟩ := Option.bind_eq_some_iff.1 hs
    have hrun := (h.running hp).2
    split_ifs at hs
    cases hs
    left
    refine quiet_of_edit (q := p)
      (f := fun e => { ({ e with state := .RUNNABLE } : Entry P C) with lock := some c })
      rfl rfl rfl rfl rfl rfl ⟨rfl, rfl, rfl, rfl⟩
      (.inr ⟨.inr (.inl hrun), .inl rfl, ?_⟩) ?_
    · rw [hrun]
      exact .yield
    · intro hx
      cases hx
  | sleep c n =>
    obtain ⟨p, hp, hs⟩ := Option.bind_eq_some_iff.1 hs
    have hrun := (h.running hp).2
    split at hs
    · rename_i hpc
      split_ifs at hs
      cases hs
      left
      refine quiet_of_edit (q := p)
        (f := fun e =>
          { ({ e with chan := some (.other n), state := .SLEEPING } : Entry P C) with
            lock := some c })
        rfl rfl rfl rfl rfl rfl ⟨rfl, rfl, rfl, rfl⟩
        (.inr ⟨.inr (.inl hrun), .inr (.inr rfl), ?_⟩) (fun _ => .inl hpc)
      rw [hrun]
      exact .sleep
    · cases hs
  | call c x =>
    obtain ⟨p, hp, hs⟩ := Option.bind_eq_some_iff.1 hs
    split at hs
    · rename_i hpc
      exact .inr (.inl ⟨c, p, x, rfl, hp, hpc, hs⟩)
    · cases hs
  | go c mem =>
    obtain ⟨p, hp, hs⟩ := Option.bind_eq_some_iff.1 hs
    exact .inr (.inr ⟨c, p, mem, rfl, hp, did_of_go hs⟩)
  | interrupt n q =>
    simp only [step] at hs
    split_ifs at hs with hl
    cases hs
    left
    refine quiet_of_edit (q := q) (f := Entry.wakeup (some (.other n)))
      rfl rfl rfl rfl rfl rfl ?_ ?_ ?_
    all_goals unfold Entry.wakeup; split_ifs with hg
    · exact ⟨rfl, rfl, rfl, rfl⟩
    · exact ⟨rfl, rfl, rfl, rfl⟩
    · refine .inr ⟨.inr (.inr hg.1), .inl rfl, ?_⟩
      rw [hg.1]
      exact .wakeup
    · exact .inl rfl
    · intro hx
      cases hx
    · exact fun hx => .inr ⟨hx, rfl⟩

theorem call_eq {x : Call} (hs : s.call T p x = some s') :
    (∃ y : Pc P, s'.pc = Function.update s.pc p y ∧ y.child = none ∨ s'.pc = s.pc) ∧
      ∀ r, (s'.proc r).state = (s.proc r).state := by
  unfold Sys.call at hs
  split at hs
  case h_4 =>
    split_ifs at hs
    cases hs
    exact ⟨⟨_, .inl ⟨rfl, rfl⟩⟩, fun _ => rfl⟩
  case h_6 =>
    cases hs
    refine ⟨⟨.run, .inr rfl⟩, fun r => ?_⟩
    simp only [proc_edit]
    split_ifs with hr
    · rw [hr]
    · rfl
  all_goals
    cases hs
    exact ⟨⟨_, .inl ⟨rfl, rfl⟩⟩, fun _ => rfl⟩

theorem Forks.step (h : Forks s) (hpl : Placed s)
    (hs : step T s e = some s') : Forks s' := by
  rcases step_cases hpl hs with hq | ⟨c, p, x, -, hp, hpc, hs⟩ | ⟨c, p, mem, -, hp, hd⟩
  · constructor
    · intro f q hfq
      rw [hq.pc] at hfq
      have hu := h.used f q hfq
      rcases hq.state q with heq | ⟨hal, -⟩
      · rw [heq, hu]
      · rw [hu] at hal
        rcases hal with hal | hal | hal <;> cases hal
    · rw [hq.pc]
      exact h.once
  · obtain ⟨hmove, hst⟩ := call_eq hs
    have hwas : ∀ f q, (s'.pc f).child = some q → (s.pc f).child = some q := by
      intro f q hq
      rcases hmove with ⟨y, ⟨hy, hnone⟩ | heq⟩
      · rw [hy, update_apply] at hq
        split_ifs at hq
        · rw [hnone] at hq
          cases hq
        · exact hq
      · rwa [heq] at hq
    constructor
    · intro f q hq
      rw [hst q]
      exact h.used f q (hwas f q hq)
    · intro f f' q hq hq'
      exact h.once f f' q (hwas f q hq) (hwas f' q hq')
  · exact h.did (hpl.running hp).2 hd

theorem edge_of_step (hpl : Placed s) (hf : Forks s)
    (hs : step T s e = some s') (r : P) :
    (s'.proc r).state = (s.proc r).state ∨ Edge (s.proc r).state (s'.proc r).state := by
  rcases step_cases hpl hs with hq | ⟨c, p, x, -, hp, hpc, hs⟩ | ⟨c, p, mem, -, hp, hd⟩
  · exact (hq.state r).imp id (fun hx => hx.2.2)
  · exact .inl ((call_eq hs).2 r)
  · exact edge_of_did hf (hpl.running hp).2 hd r

theorem placed_boot : Placed (boot T : Sys P C) := by
  refine ⟨?_, fun _ => rfl, fun _ => trivial, ?_⟩
  · intro c c' p hp
    cases hp
  · intro p _
    refine ⟨?_, false, rfl⟩
    simp only [boot, Entry.unused]
    split_ifs <;> intro hx <;> cases hx

theorem forks_boot : Forks (boot T : Sys P C) := by
  constructor
  · intro f q hq
    cases hq
  · intro f f' q hq
    cases hq

variable {ok : Event P C → Prop}

theorem placed_reachable (h : Reachable T ok s) : Placed s ∧ Forks s := by
  induction h with
  | refl => exact ⟨placed_boot, forks_boot⟩
  | tail _ hn ih =>
    obtain ⟨e, -, hs⟩ := hn
    exact ⟨ih.1.step ih.2 hs, ih.2.step ih.1 hs⟩

theorem Placed.running_of_cur (h : Placed s) (hl : (s.proc p).lock = none)
    (hc : s.cur c = some p) : (s.proc p).state = .RUNNING := by
  have hat : (s.cpu c).proc = some p := by
    rw [h.cur c] at hc
    cases hx : s.cpu c <;> rw [hx] at hc <;> first | exact hc | cases hc
  rcases h.state_of_at hat with hrun | ⟨hlock, -⟩
  · exact hrun
  · rw [hl] at hlock
    cases hlock

theorem Placed.cur_of_running (h : Placed s) (hl : (s.proc p).lock = none)
    (hr : (s.proc p).state = .RUNNING) : ∃ c, s.cur c = some p := by
  by_contra hno
  push Not at hno
  -- not in a thread either, it could only be at a place where its lock is taken
  have hoff : Off s p := by
    intro c hc
    have hfit := h.fits c
    have hcur := h.cur c
    have hne := hno c
    cases hx : s.cpu c <;> grind [Fits, Cpu.proc, Cpu.cur]
  exact (h.off p hoff).1 hr

theorem Placed.one_cur (h : Placed s) {c' : C} (hc : s.cur c = some p) (hc' : s.cur c' = some p) :
    c = c' := by
  have hat : ∀ d, s.cur d = some p → (s.cpu d).proc = some p := by
    intro d hd
    rw [h.cur d] at hd
    cases hx : s.cpu d <;> rw [hx] at hd <;> first | exact hd | cases hd
  exact h.one c c' p (hat c hc) (hat c' hc')

/-- In every state of every run: while `p->lock` is free, `p` is `RUNNING` exactly if one cpu
    has `c->proc == p`, and then only; and a step changes `p->state` along an edge. -/
theorem running_iff_one_cpu (h : Reachable T (fun _ => True) s) :
    (∀ p, (s.proc p).lock = none → ((s.proc p).state = .RUNNING ↔ ∃! c, s.cur c = some p) ∧
      ∀ c, s.cur c = some p → (s.proc p).state = .RUNNING) ∧ ∀ e s', step T s e = some s' → ∀ p,
      (s'.proc p).state = (s.proc p).state ∨ Edge (s.proc p).state (s'.proc p).state := by
  obtain ⟨hpl, hf⟩ := placed_reachable h
  refine ⟨?_, fun e s' hs p => edge_of_step hpl hf hs p⟩
  intro p hl
  refine ⟨⟨?_, ?_⟩, fun c hc => hpl.running_of_cur hl hc⟩
  · intro hr
    obtain ⟨c, hc⟩ := hpl.cur_of_running hl hr
    exact ⟨c, hc, fun c' hc' => hpl.one_cur hc' hc⟩
  · rintro ⟨c, hc, -⟩
    exact hpl.running_of_cur hl hc

theorem reachable_of_steps {es : List (Event P C)} (hok : ∀ e ∈ es, ok e)
    (hr : Reachable T ok s) (h : steps T s es = some s') : Reachable T ok s' := by
  induction es generalizing s with
  | nil =>
    cases h
    exact hr
  | cons e es ih =>
    obtain ⟨t, ht, h⟩ := Option.bind_eq_some_iff.1 h
    refine ih (fun x hx => hok x (List.mem_cons_of_mem e hx)) ?_ h
    exact hr.tail ⟨e, hok e List.mem_cons_self, ht⟩

/-- The scheduler of `c` takes `p` and switches to it, and `p` lets go of its lock. -/
def dispatch (c : C) (p : P) : List (Event P C) := [.pick c p, .sched c, .sched c, .swtch c]

/-- With two cpus, the first process is put on the second of them. -/
theorem running_iff_one_cpu_init : ∃ s : Sys (Fin NPROC) (Fin 2),
    steps proc (boot proc) (dispatch 1 0) = some s ∧
      (s.proc 0).state = .RUNNING ∧ ∃! c, s.cur c = some 0 := by
  have hrun : ∃ s : Sys (Fin NPROC) (Fin 2), steps proc (boot proc) (dispatch 1 0) = some s ∧
      (s.proc 0).lock = none ∧ (s.proc 0).state = .RUNNING := ⟨_, rfl, rfl, rfl⟩
  obtain ⟨s, hs, hl, hr⟩ := hrun
  have hreach : Reachable proc (fun _ => True) s := reachable_of_steps (fun _ _ => trivial) .refl hs
  exact ⟨s, hs, hr, (((running_iff_one_cpu hreach).1 0 hl).1).1 hr⟩

end Xv6.Ptable
