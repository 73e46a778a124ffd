import Xv6.Theory.Proc.Cpus

/-!
# Who Gets Killed

`kill` goes by the pid alone. A slot that is not in use has pid `0`, and `allocproc` does not look
at `p->killed`. So `kill(0)` marks an empty slot and reports success, and the process that is
forked into the slot next is born killed (`kill_zero_marks_unborn`). As long as nobody calls
`kill` with `0`, empty slots are clean (`Clean`) and only the process named is killed
(`killed_only_if_asked`).

## Theorems

* `Ptable.killed_only_if_asked`, `Ptable.kill_zero_marks_unborn`
-/

namespace Xv6.Ptable

open Function (update_apply)

variable {P C : Type}

/-- `kill` is called with the pid of a process, if at all. -/
def NamesPid : Event P C → Prop
  | .call _ (.kill pid) => pid ≠ 0
  | _ => True

structure Clean (s : Sys P C) : Prop where
  unused : ∀ p, (s.proc p).state = .UNUSED → (s.proc p).pid = 0 ∧ (s.proc p).killed = false
  asked : ∀ p, (s.proc p).killed = true → s.asked p = true
  named : ∀ p pid todo, s.pc p = .killing pid todo → pid ≠ 0

variable [DecidableEq P] [DecidableEq C] {T : Table P} {s s' : Sys P C} {c : C} {p : P}

theorem clean_boot : Clean (boot T : Sys P C) := by
  constructor
  · intro p hp
    simp only [boot, Entry.unused] at hp ⊢
    split_ifs at hp ⊢
    exact ⟨rfl, rfl⟩
  · intro p hp
    simp only [boot, Entry.unused] at hp
    split_ifs at hp
  · intro p pid todo hp
    cases hp

namespace Clean

section

variable (h : Clean s)

include h

theorem quiet (hq : Quiet s s') : Clean s' := by
  constructor
  · intro p hp
    obtain ⟨-, hpid, -, hkilled⟩ := hq.entry p
    rw [hpid, hkilled]
    apply h.unused p
    rcases hq.state p with heq | ⟨-, halive, -⟩
    · rw [← heq, hp]
    · rw [hp] at halive
      rcases halive with halive | halive | halive <;> cases halive
  · intro p hp
    rw [(hq.entry p).2.2.2] at hp
    rw [hq.asked]
    exact h.asked p hp
  · rw [hq.pc]
    exact h.named

theorem call (hr : (s.proc p).state = .RUNNING) {x : Call}
    (hx : ∀ pid, x = .kill pid → pid ≠ 0) (hs : s.call T p x = some s') : Clean s' := by
  have hunused := h.unused
  have hasked := h.asked
  have hnamed := h.named
  unfold Sys.call at hs
  split at hs
  case h_4 =>
    split_ifs at hs
    cases hs
    refine ⟨hunused, hasked, ?_⟩
    simp only [Sys.goto, update_apply]
    grind
  all_goals cases hs
  all_goals refine ⟨?_, ?_, ?_⟩
  all_goals simp only [Sys.goto, Sys.edit, update_apply]
  all_goals grind

/-- `allocproc` takes a clean slot, `freeproc` leaves one, and the pid that `kill` is given is not
    that of an empty slot. -/
theorem did_unused (hf : Forks s) (hd : Did T s c p s') (q : P)
    (hu : (s'.proc q).state = .UNUSED) :
    (s'.proc q).pid = 0 ∧ (s'.proc q).killed = false := by
  have hunused := h.unused
  have hnamed := h.named
  have hused := hf.used p
  cases hd
  all_goals simp only [Sys.goto, Sys.ret, Sys.edit, Sys.giveUp, Sys.die, Sys.reap, Sys.reserve,
    Sys.copyMem, update_apply] at hu ⊢
  all_goals grind [Entry.wakeup, Entry.kill, Entry.freeproc, Pc.child]

theorem did_asked (hd : Did T s c p s') (q : P)
    (hk : (s'.proc q).killed = true) : s'.asked q = true := by
  have hunused := h.unused
  have hasked := h.asked
  cases hd
  all_goals simp only [Sys.goto, Sys.ret, Sys.edit, Sys.giveUp, Sys.die, Sys.reap, Sys.reserve,
    Sys.copyMem, update_apply] at hk ⊢
  all_goals grind [Entry.wakeup, Entry.kill, Entry.freeproc]

theorem did_named (hd : Did T s c p s') (q : P) {pid : Int} {todo : List P}
    (hpc : s'.pc q = .killing pid todo) : pid ≠ 0 := by
  have hnamed := h.named
  cases hd
  all_goals simp only [Sys.goto, Sys.ret, Sys.edit, Sys.giveUp, Sys.die, Sys.reap, Sys.reserve,
    Sys.copyMem, update_apply] at hpc
  all_goals grind

theorem did (hf : Forks s) (hd : Did T s c p s') : Clean s' :=
  ⟨h.did_unused hf hd, h.did_asked hd, fun q _ _ hpc => h.did_named hd q hpc⟩

theorem step (hpl : Placed s) (hf : Forks s) {e : Event P C} (hok : NamesPid e)
    (hs : step T s e = some s') : Clean s' := by
  rcases step_cases hpl hs with hq | ⟨c, p, x, rfl, hp, -, hs⟩ | ⟨c, p, mem, -, hp, hd⟩
  · exact h.quiet hq
  · refine h.call (hpl.running hp).2 ?_ hs
    rintro pid rfl
    exact hok
  · exact h.did hf hd

end

end Clean

theorem clean_reachable (h : Reachable T NamesPid s) : Clean s := by
  induction h with
  | refl => exact clean_boot
  | tail hr hn ih =>
    obtain ⟨e, hok, hs⟩ := hn
    obtain ⟨hpl, hf⟩ := placed_reachable hr
    exact ih.step hpl hf hok hs

theorem Clean.kill_finds (h : Clean s) (hd : Did T s c p s') {pid : Int} {todo : List P}
    (hpc : s.pc p = .killing pid todo) (hret : s'.pc p = .run) (hzero : s'.result p = 0) :
    ∃ q, (s.proc q).pid = pid ∧ (s.proc q).state ≠ .UNUSED := by
  have hnamed := h.named p pid todo hpc
  cases hd with
  | @kill pid' q todo' hpc' hl hpid =>
    rw [hpc] at hpc'
    cases hpc'
    refine ⟨q, hpid, ?_⟩
    intro hu
    exact hnamed (hpid ▸ (h.unused q hu).1)
  | killNone =>
    simp only [Sys.ret, Function.update_self] at hzero
    cases hzero
  | killSkip =>
    simp only [Sys.goto, Function.update_self] at hret
    cases hret
  | wakeDone hx | wakeSelf hx | wake hx | allocNone hx | allocSkip hx | alloc hx | copied hx
  | abandon hx | adopt hx | launch hx | exitLock hx | reparentDone hx | reparentSkip hx
  | handOver hx | wakeInitDone hx | wakeInitSelf hx | wakeInit hx | wakeParentDone hx
  | wakeParentSelf hx | wakeParent hx | die hx | waitLock hx | scanSkip hx | scanKid hx
  | copyoutFails hx | reap hx | noKids hx | sleepWait hx =>
    rw [hpc] at hx
    cases hx

theorem Clean.fresh (h : Clean s) (hpl : Placed s) {e : Event P C}
    (hs : Ptable.step T s e = some s') {q : P} (hu : (s.proc q).state = .UNUSED)
    (hu' : (s'.proc q).state ≠ .UNUSED) : (s'.proc q).killed = false := by
  have hclean := (h.unused q hu).2
  rcases step_cases hpl hs with hq | ⟨c, p, x, rfl, hp, -, hs⟩ | ⟨c, p, mem, -, hp, hd⟩
  · rw [(hq.entry q).2.2.2, hclean]
  · exact absurd (((call_eq hs).2 q).trans hu) hu'
  · revert hu'
    cases hd
    all_goals simp only [Sys.goto, Sys.ret, Sys.edit, Sys.giveUp, Sys.die, Sys.reap, Sys.reserve,
      Sys.copyMem, update_apply]
    all_goals grind [Entry.wakeup, Entry.kill, Entry.freeproc]

/-- In every run without `kill(0)`: a `kill` returns `0` only if a process with its pid is in
    use; a process has its flag up only if, since its slot was taken, a `kill` with its pid has
    come by or it has trapped; and a slot is taken with the flag down. -/
theorem killed_only_if_asked (h : Reachable T NamesPid s) :
    (∀ c mem s' p pid todo, s.running c = some p → s.pc p = .killing pid todo →
      step T s (.go c mem) = some s' → s'.pc p = .run → s'.result p = 0 →
      ∃ q, (s.proc q).pid = pid ∧ (s.proc q).state ≠ .UNUSED) ∧
    (∀ p, (s.proc p).killed = true → s.asked p = true) ∧
    ∀ e s' q, step T s e = some s' → (s.proc q).state = .UNUSED →
      (s'.proc q).state ≠ .UNUSED → (s'.proc q).killed = false := by
  have hclean := clean_reachable h
  have hpl := (placed_reachable h).1
  refine ⟨?_, hclean.asked, fun e s' q hs hu hu' => hclean.fresh hpl hs hu hu'⟩
  intro c mem s' p pid todo hp hpc hs hret hzero
  obtain ⟨p', hp', hs⟩ := Option.bind_eq_some_iff.1 hs
  rw [hp] at hp'
  cases hp'
  exact hclean.kill_finds (did_of_go hs) hpc hret hzero

/-- The first process calls `kill(pid)`, which looks at the first slot. -/
def killing (pid : Int) : List (Event (Fin NPROC) (Fin 1)) :=
  dispatch 0 0 ++ [.call 0 (.kill pid), .go 0 true]

/-- `kill(1)` by the first process names that process. -/
theorem killed_only_if_asked_self : ∃ s : Sys (Fin NPROC) (Fin 1),
    steps proc (boot proc) (killing 1) = some s ∧ (s.proc 0).killed = true ∧ s.asked 0 = true := by
  have hrun : ∃ s : Sys (Fin NPROC) (Fin 1), steps proc (boot proc) (killing 1) = some s ∧
      (s.proc 0).killed = true := ⟨_, rfl, rfl⟩
  obtain ⟨s, hs, hk⟩ := hrun
  have hok : ∀ e ∈ killing 1, NamesPid e := by
    intro e he
    simp only [killing, dispatch, List.cons_append, List.nil_append, List.mem_cons,
      List.not_mem_nil, or_false] at he
    rcases he with rfl | rfl | rfl | rfl | rfl | rfl
    all_goals first | trivial | exact Int.one_ne_zero
  have hreach : Reachable proc NamesPid s := reachable_of_steps hok .refl hs
  exact ⟨s, hs, hk, (killed_only_if_asked hreach).2.1 0 hk⟩

/-- `kill(0)` returns `0` although every process in use has another pid, and the process forked
    next has its flag up with nobody having asked. -/
theorem kill_zero_marks_unborn : ∃ s s' t : Sys (Fin NPROC) (Fin 1),
    steps proc (boot proc) (killing 0) = some s ∧
    (∃ todo, s.pc 0 = .killing 0 todo) ∧ step proc s (.go 0 true) = some s' ∧
    s'.pc 0 = .run ∧ s'.result 0 = 0 ∧ (∀ q, (s.proc q).state ≠ .UNUSED → (s.proc q).pid ≠ 0) ∧
    steps proc s' [.call 0 .fork, .go 0 true, .go 0 true, .go 0 true] = some t ∧
    (t.proc 1).state = .USED ∧ (t.proc 1).killed = true ∧ t.asked 1 = false := by
  refine ⟨_, _, _, rfl, ⟨_, rfl⟩, rfl, rfl, rfl, ?_, rfl, rfl, rfl, ?_⟩
  · decide +kernel
  · rfl

end Xv6.Ptable
