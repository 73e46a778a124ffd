import Xv6.Core.Log
import Mathlib.Algebra.BigOperators.Group.Finset.Basic
import Mathlib.Algebra.Order.BigOperators.Group.Finset
import Mathlib.Algebra.Order.Ring.Int

/-!
# Operations Sharing a Transaction

What holds of the log however the processes using it interleave. Each lock
section is one step, and `commit` runs between two of them with no lock held.

The centre of `Inv` is `count`: `outstanding` is the number of processes inside an
operation. So the process that brings it to zero knows that nobody is left inside, and
`quiet` keeps it so until the commit is over, because `begin_op` sleeps while `committing`
is set. `covers` says that the header holds exactly the blocks that the operations since
the last commit have passed to `log_write`.

## Theorems

* `Ops.commit_isolation`, `Ops.log_space_exact`
-/

namespace Xv6.Ops

open Function (update update_apply update_of_ne update_self)

variable {P : Type}

theorem wakeup_eq_iff (m : P → Mode) (q : P) (x : Mode) (h1 : x ≠ .asleep) (h2 : x ≠ .awake) :
    wakeup m q = x ↔ m q = x := by
  unfold wakeup
  by_cases hq : m q = .asleep
  · grind
  · rw [if_neg hq]

theorem wakeup_ne_asleep (m : P → Mode) (q : P) : wakeup m q ≠ .asleep := by
  unfold wakeup
  by_cases hq : m q = .asleep
  · rw [if_pos hq]
    decide
  · rw [if_neg hq]
    exact hq

section Active

variable [Fintype P]

/-- The processes inside an operation. -/
def active (m : P → Mode) : Finset P := Finset.univ.filter fun p => m p = .inOp

theorem mem_active {m : P → Mode} {p : P} : p ∈ active m ↔ m p = .inOp := by
  simp only [active, Finset.mem_filter, Finset.mem_univ, true_and]

theorem active_wakeup (m : P → Mode) : active (wakeup m) = active m := by
  ext q
  rw [mem_active, mem_active]
  exact wakeup_eq_iff m q .inOp (by decide) (by decide)

end Active

variable [DecidableEq P]

/-- The steps that do not panic, one constructor for each outcome. -/
inductive Move (s : Ops P) : Act P → Ops P → Prop
  | enter (p : P) (hp : s.mode p = .idle ∨ s.mode p = .awake) (hc : s.log.committing = false)
      (hroom : s.log.lh.length + (s.log.outstanding + 1) * MAXOPBLOCKS ≤ LOGSIZE) :
      Move s (.beginOp p) { s with
        log := { s.log with outstanding := s.log.outstanding + 1 }
        mode := update s.mode p .inOp
        writes := update s.writes p [] }
  | sleep (p : P) (hp : s.mode p = .idle ∨ s.mode p = .awake)
      (hwait : s.log.committing = true ∨
        (LOGSIZE : Int) < s.log.lh.length + (s.log.outstanding + 1) * MAXOPBLOCKS) :
      Move s (.beginOp p) { s with mode := update s.mode p .asleep }
  | wake (p : P) (hp : s.mode p = .asleep) :
      Move s (.wake p) { s with mode := update s.mode p .awake }
  | absorb (p : P) (b : Nat) (hp : s.mode p = .inOp) (hb : b ∈ s.log.lh) :
      Move s (.logWrite p b) { s with writes := update s.writes p (s.writes p ++ [b]) }
  | record (p : P) (b : Nat) (hp : s.mode p = .inOp) (hb : b ∉ s.log.lh)
      (hroom : s.log.lh.length < LOGSIZE ∧ (s.log.lh.length : Int) < s.log.size - 1) :
      Move s (.logWrite p b) { s with
        log := { s.log with lh := s.log.lh ++ [b] }
        writes := update s.writes p (s.writes p ++ [b]) }
  | leave (p : P) (hp : s.mode p = .inOp) (hc : s.log.committing = false)
      (hout : s.log.outstanding - 1 ≠ 0) :
      Move s (.endOp p) { s with
        log := { s.log with outstanding := s.log.outstanding - 1 }
        mode := wakeup (update s.mode p .idle)
        txn := s.txn ++ [s.writes p] }
  | last (p : P) (hp : s.mode p = .inOp) (hc : s.log.committing = false)
      (hout : s.log.outstanding - 1 = 0) :
      Move s (.endOp p) { s with
        log := { s.log with outstanding := s.log.outstanding - 1, committing := true }
        mode := update s.mode p .committing
        txn := s.txn ++ [s.writes p] }
  | commit (p : P) (hp : s.mode p = .committing) :
      Move s (.commit p) { s with
        log := { s.log with lh := [] }
        mode := update s.mode p .committed
        txn := [] }
  | finish (p : P) (hp : s.mode p = .committed) :
      Move s (.finish p) { s with
        log := { s.log with committing := false }
        mode := wakeup (update s.mode p .idle) }

theorem move_of_step {s s' : Ops P} {a : Act P} (h : s.step a = some (.ok s')) : Move s a s' := by
  cases a with
  | beginOp p => grind [step, Log.beginOp, Move.sleep, Move.enter]
  | wake p => grind [step, Move.wake]
  | logWrite p b => grind [step, Log.logWrite, Move.absorb, Move.record]
  | endOp p => grind [step, Log.endOp, Move.last, Move.leave]
  | commit p => grind [step, Move.commit]
  | finish p => grind [step, Move.finish]

section Finite

variable [Fintype P]

theorem active_enter (m : P → Mode) (p : P) : active (update m p .inOp) = insert p (active m) := by
  ext q
  rw [mem_active, Finset.mem_insert, mem_active]
  by_cases hq : q = p
  · rw [hq, update_self]
    exact ⟨fun _ => .inl rfl, fun _ => rfl⟩
  · rw [update_of_ne hq]
    exact ⟨.inr, fun h => h.resolve_left hq⟩

theorem active_leave (m : P → Mode) (p : P) (x : Mode) (hx : x ≠ .inOp) :
    active (update m p x) = (active m).erase p := by
  ext q
  rw [mem_active, Finset.mem_erase, mem_active]
  by_cases hq : q = p
  · grind [update_apply]
  · rw [update_of_ne hq]
    exact ⟨fun h => ⟨hq, h⟩, fun h => h.2⟩

theorem active_other (m : P → Mode) (p : P) (x : Mode) (hp : m p ≠ .inOp) (hx : x ≠ .inOp) :
    active (update m p x) = active m := by
  rw [active_leave m p x hx]
  exact Finset.erase_eq_of_notMem fun h => hp (mem_active.mp h)

/-- The process is running `commit` or the section after it. -/
def Committer (m : Mode) : Prop := m = .committing ∨ m = .committed

/-- The invariant of the log and its users. -/
structure Inv (s : Ops P) : Prop where
  count : s.log.outstanding = ((active s.mode).card : Int)
  quiet : s.log.committing = true → s.log.outstanding = 0
  flagged : ∀ p, Committer (s.mode p) → s.log.committing = true
  unique : ∀ p q, Committer (s.mode p) → Committer (s.mode q) → p = q
  erased : ∀ p, s.mode p = .committed → s.log.lh = [] ∧ s.txn = []
  rest : s.log.committing = false → s.log.outstanding = 0 →
    s.log.lh = [] ∧ s.txn = [] ∧ ∀ p, s.mode p ≠ .asleep
  nodup : s.log.lh.Nodup
  covers : ∀ b, b ∈ s.log.lh ↔
    (∃ w ∈ s.txn, b ∈ w) ∨ ∃ p, s.mode p = .inOp ∧ b ∈ s.writes p

theorem inv_init (size : Nat) : Inv (init P size) := by
  refine ⟨?_, fun h => rfl, ?_, ?_, ?_, ?_, List.nodup_nil, ?_⟩
  · have hnone : active (init P size).mode = ∅ := by
      ext p
      simp only [mem_active, init, reduceCtorEq, Finset.notMem_empty]
    rw [hnone]
    rfl
  · rintro p (hp | hp) <;> cases hp
  · rintro p q (hp | hp) <;> cases hp
  · intro p hp
    cases hp
  · intro _ _
    exact ⟨rfl, rfl, fun p hp => by cases hp⟩
  · intro b
    simp only [init, Log.init, List.not_mem_nil, false_and, exists_false, and_false, or_self]

variable {m : P → Mode} {p q : P} {x : Mode} {a : Act P} {s' : Ops P}

/-- Updating one process to a mode that is not the committer's leaves any
    committer some other process, as it was. -/
theorem committer_of_update (hx : ¬ Committer x)
    (hq : Committer (update m p x q)) : q ≠ p ∧ Committer (m q) := by
  by_cases hqp : q = p
  · rw [hqp, update_self] at hq
    exact absurd hq hx
  · rw [update_of_ne hqp] at hq
    exact ⟨hqp, hq⟩

theorem committer_of_wakeup (hq : Committer (wakeup m q)) :
    Committer (m q) := by
  rcases hq with hq | hq
  · exact .inl ((wakeup_eq_iff m q _ (by decide) (by decide)).mp hq)
  · exact .inr ((wakeup_eq_iff m q _ (by decide) (by decide)).mp hq)

theorem not_committer_idle : ¬ Committer .idle := by rintro (h | h) <;> cases h

theorem not_committer_asleep : ¬ Committer .asleep := by rintro (h | h) <;> cases h

theorem not_committer_awake : ¬ Committer .awake := by rintro (h | h) <;> cases h

theorem not_committer_inOp : ¬ Committer .inOp := by rintro (h | h) <;> cases h

variable {s : Ops P}

section

variable (hi : Inv s)

include hi

theorem Inv.not_committing (hp : s.mode p = .inOp) :
    s.log.committing = false := by
  by_contra hc
  have hout := hi.quiet (by simpa only [Bool.not_eq_false] using hc)
  have hcard : 0 < (active s.mode).card := Finset.card_pos.mpr ⟨p, mem_active.mpr hp⟩
  have := hi.count
  omega

theorem Inv.no_committer (hc : s.log.committing = false) (p : P) :
    ¬ Committer (s.mode p) := by
  intro hp
  rw [hi.flagged p hp] at hc
  cases hc

theorem Inv.outstanding_pos (hp : s.mode p = .inOp) :
    1 ≤ s.log.outstanding := by
  have hcard : 0 < (active s.mode).card := Finset.card_pos.mpr ⟨p, mem_active.mpr hp⟩
  have := hi.count
  omega

theorem Inv.enter (p : P) (hp : s.mode p = .idle ∨ s.mode p = .awake)
    (hc : s.log.committing = false) :
    Inv { s with
      log := { s.log with outstanding := s.log.outstanding + 1 }
      mode := update s.mode p .inOp
      writes := update s.writes p [] } := by
  have hpin : s.mode p ≠ .inOp := by
    rcases hp with hp | hp <;> rw [hp] <;> decide
  have hnew : p ∉ active s.mode := fun h => hpin (mem_active.mp h)
  refine ⟨?_, ?_, ?_, ?_, ?_, ?_, hi.nodup, ?_⟩
  · grind [hi.count, active_enter, Finset.card_insert_of_notMem]
  · intro h
    rw [show s.log.committing = true from h] at hc
    cases hc
  · intro q hq
    exact hi.flagged q (committer_of_update not_committer_inOp hq).2
  · intro q r hq hr
    exact hi.unique q r (committer_of_update not_committer_inOp hq).2
      (committer_of_update not_committer_inOp hr).2
  · intro q hq
    exact absurd (committer_of_update not_committer_inOp (.inr hq)).2 (hi.no_committer hc q)
  · intro _ hout
    have := hi.count
    simp only at hout
    omega
  · intro b
    rw [hi.covers b]
    refine or_congr Iff.rfl ?_
    simp only
    constructor
    · rintro ⟨q, hq, hb⟩
      have hqp : q ≠ p := fun h => hpin (h ▸ hq)
      exact ⟨q, by rw [update_of_ne hqp]; exact hq, by rw [update_of_ne hqp]; exact hb⟩
    · grind [update_apply]

/-- A process that neither enters nor leaves an operation, and is not the
    committer before or after, changes nothing the invariant looks at beyond
    who is asleep. -/
theorem Inv.shift (p : P) (x : Mode) (hp : s.mode p ≠ .inOp) (hx : x ≠ .inOp)
    (hxc : ¬ Committer x) (hrest : s.log.committing = false → s.log.outstanding = 0 → x ≠ .asleep) :
    Inv { s with mode := update s.mode p x } := by
  refine ⟨?_, hi.quiet, ?_, ?_, ?_, ?_, hi.nodup, ?_⟩
  · simp only [active_other s.mode p x hp hx]
    exact hi.count
  · intro q hq
    exact hi.flagged q (committer_of_update hxc hq).2
  · grind [hi.unique]
  · intro q hq
    have hqp : q ≠ p := (committer_of_update hxc (.inr hq)).1
    simp only [update_of_ne hqp] at hq
    exact hi.erased q hq
  · grind [hi.rest, update_apply]
  · grind [hi.covers, update_apply]

theorem Inv.write (p : P) (b : Nat) (hp : s.mode p = .inOp) (lh' : List Nat)
    (hnodup : lh'.Nodup) (hmem : ∀ c, c ∈ lh' ↔ c ∈ s.log.lh ∨ c = b) :
    Inv { s with
      log := { s.log with lh := lh' }
      writes := update s.writes p (s.writes p ++ [b]) } := by
  have hc := hi.not_committing hp
  refine ⟨hi.count, hi.quiet, hi.flagged, hi.unique, ?_, ?_, hnodup, ?_⟩
  · intro q hq
    exact absurd (.inr hq) (hi.no_committer hc q)
  · intro _ hout
    have := hi.outstanding_pos hp
    simp only at hout
    omega
  · grind [hi.covers, update_apply]

/-- An operation's blocks move from the running ones to the ended ones when it
    leaves, so the header still covers both. -/
theorem Inv.covers_leave (p : P) (hp : s.mode p = .inOp) (m : P → Mode)
    (hm : ∀ q, m q = .inOp ↔ q ≠ p ∧ s.mode q = .inOp) (b : Nat) :
    b ∈ s.log.lh ↔ (∃ w ∈ s.txn ++ [s.writes p], b ∈ w) ∨ ∃ q, m q = .inOp ∧ b ∈ s.writes q := by
  rw [hi.covers b]
  constructor
  · grind
  · grind

end

theorem inOp_update (hx : x ≠ .inOp) :
    update m p x q = .inOp ↔ q ≠ p ∧ m q = .inOp := by
  by_cases hqp : q = p
  · grind [update_apply]
  · rw [update_of_ne hqp]
    exact ⟨fun h => ⟨hqp, h⟩, fun h => h.2⟩

theorem Inv.leave (hi : Inv s) (p : P) (hp : s.mode p = .inOp)
    (hout : s.log.outstanding - 1 ≠ 0) :
    Inv { s with
      log := { s.log with outstanding := s.log.outstanding - 1 }
      mode := wakeup (update s.mode p .idle)
      txn := s.txn ++ [s.writes p] } := by
  have hc := hi.not_committing hp
  have hmem : p ∈ active s.mode := mem_active.mpr hp
  refine ⟨?_, ?_, ?_, ?_, ?_, ?_, hi.nodup, ?_⟩
  · simp only [active_wakeup, active_leave s.mode p .idle (by decide)]
    have hpos := Finset.card_pos.mpr ⟨p, hmem⟩
    have := hi.count
    rw [Finset.card_erase_of_mem hmem]
    omega
  · intro h
    rw [show s.log.committing = true from h] at hc
    cases hc
  · intro q hq
    exact hi.flagged q (committer_of_update not_committer_idle (committer_of_wakeup hq)).2
  · intro q r hq hr
    exact hi.unique q r (committer_of_update not_committer_idle (committer_of_wakeup hq)).2
      (committer_of_update not_committer_idle (committer_of_wakeup hr)).2
  · intro q hq
    exact absurd (committer_of_update not_committer_idle (committer_of_wakeup (.inr hq))).2
      (hi.no_committer hc q)
  · intro _ h
    exact absurd h hout
  · intro b
    refine hi.covers_leave p hp _ (fun q => ?_) b
    rw [wakeup_eq_iff _ _ _ (by decide) (by decide)]
    exact inOp_update (by decide)

theorem Inv.last (hi : Inv s) (p : P) (hp : s.mode p = .inOp)
    (hout : s.log.outstanding - 1 = 0) :
    Inv { s with
      log := { s.log with outstanding := s.log.outstanding - 1, committing := true }
      mode := update s.mode p .committing
      txn := s.txn ++ [s.writes p] } := by
  have hc := hi.not_committing hp
  have hmem : p ∈ active s.mode := mem_active.mpr hp
  -- Nobody was committing, so the process that just left is the committer.
  have honly : ∀ q, Committer (update s.mode p .committing q) → q = p := by
    intro q hq
    by_contra hqp
    rw [update_of_ne hqp] at hq
    exact hi.no_committer hc q hq
  refine ⟨?_, fun _ => hout, fun _ _ => rfl, ?_, ?_, ?_, hi.nodup, ?_⟩
  · simp only [active_leave s.mode p .committing (by decide)]
    have hpos := Finset.card_pos.mpr ⟨p, hmem⟩
    have := hi.count
    rw [Finset.card_erase_of_mem hmem]
    omega
  · intro q r hq hr
    rw [honly q hq, honly r hr]
  · intro q hq
    simp only at hq
    rw [honly q (.inr hq), update_self] at hq
    cases hq
  · intro h
    cases h
  · intro b
    exact hi.covers_leave p hp _ (fun q => inOp_update (by decide)) b

theorem Inv.commit (hi : Inv s) (p : P) (hp : s.mode p = .committing) :
    Inv { s with
      log := { s.log with lh := [] }
      mode := update s.mode p .committed
      txn := [] } := by
  have hc := hi.flagged p (.inl hp)
  have hout := hi.quiet hc
  have honly : ∀ q, Committer (update s.mode p .committed q) → q = p := by
    intro q hq
    by_contra hqp
    rw [update_of_ne hqp] at hq
    exact hqp (hi.unique q p hq (.inl hp))
  have hpin : s.mode p ≠ .inOp := by
    rw [hp]
    decide
  refine ⟨?_, hi.quiet, fun _ _ => hc, ?_, fun _ _ => ⟨rfl, rfl⟩, ?_, List.nodup_nil, ?_⟩
  · simp only [active_other s.mode p .committed hpin (by decide)]
    exact hi.count
  · intro q r hq hr
    rw [honly q hq, honly r hr]
  · intro h
    simp only [hc, reduceCtorEq] at h
  · -- The commit found nobody inside, so there is nothing left to cover.
    intro b
    have hempty : active s.mode = ∅ := by
      rw [← Finset.card_eq_zero]
      have := hi.count
      omega
    simp only [List.not_mem_nil, false_and, exists_false, false_or, false_iff]
    rintro ⟨q, hq, -⟩
    rw [inOp_update (by decide)] at hq
    have := mem_active.mpr hq.2
    rw [hempty] at this
    exact absurd this (Finset.notMem_empty q)

theorem Inv.finish (hi : Inv s) (p : P) (hp : s.mode p = .committed) :
    Inv { s with
      log := { s.log with committing := false }
      mode := wakeup (update s.mode p .idle) } := by
  have hpin : s.mode p ≠ .inOp := by
    rw [hp]
    decide
  obtain ⟨hlh, htxn⟩ := hi.erased p hp
  have hnone : ∀ q, ¬ Committer (wakeup (update s.mode p .idle) q) := by
    intro q hq
    obtain ⟨hqp, hq'⟩ := committer_of_update not_committer_idle (committer_of_wakeup hq)
    exact hqp (hi.unique q p hq' (.inr hp))
  refine ⟨?_, ?_, fun q hq => absurd hq (hnone q), fun q _ hq => absurd hq (hnone q),
    fun q hq => absurd (.inr hq) (hnone q), ?_, hi.nodup, ?_⟩
  · simp only [active_wakeup, active_other s.mode p .idle hpin (by decide)]
    exact hi.count
  · intro h
    cases h
  · intro _ _
    exact ⟨hlh, htxn, fun q => wakeup_ne_asleep _ q⟩
  · intro b
    rw [hi.covers b]
    refine or_congr Iff.rfl (exists_congr fun q => and_congr_left fun _ => ?_)
    simp only [wakeup_eq_iff _ q .inOp (by decide) (by decide)]
    rw [inOp_update (x := .idle) (by decide)]
    exact ⟨fun h => ⟨fun hqp => hpin (hqp ▸ h), h⟩, fun h => h.2⟩

theorem inv_move (hi : Inv s) (h : Move s a s') : Inv s' := by
  cases h with
  | enter p hp hc hroom => exact hi.enter p hp hc
  | sleep p hp hwait =>
    refine hi.shift p .asleep ?_ (by decide) not_committer_asleep ?_
    · rcases hp with hp | hp <;> rw [hp] <;> decide
    · grind [hi.rest]
  | wake p hp =>
    refine hi.shift p .awake ?_ (by decide) not_committer_awake (fun _ _ => by decide)
    rw [hp]
    decide
  | absorb p b hp hb =>
    exact hi.write p b hp s.log.lh hi.nodup
      (fun c => ⟨.inl, fun h => h.elim id (fun h => h ▸ hb)⟩)
  | record p b hp hb hroom => grind [hi.write, hi.nodup]
  | leave p hp hc hout => exact hi.leave p hp hout
  | last p hp hc hout => exact hi.last p hp hout
  | commit p hp => exact hi.commit p hp
  | finish p hp => exact hi.finish p hp

theorem inv_reachable (size : Nat)
    (h : Relation.ReflTransGen Next (init P size) s) : Inv s := by
  induction h with
  | refl => exact inv_init size
  | tail _ hstep ih =>
    obtain ⟨a, ha⟩ := hstep
    exact inv_move ih (move_of_step ha)

theorem steps_append (s : Ops P) (as bs : List (Act P)) :
    s.steps (as ++ bs) = match s.steps as with
      | some (.ok s') => s'.steps bs
      | r => r := by
  induction as generalizing s with
  | nil => rfl
  | cons a as ih =>
    simp only [List.cons_append, steps]
    rcases s.step a with _ | (e | s')
    · rfl
    · rfl
    · exact ih s'

theorem reach_of_steps (as : List (Act P)) (h : s.steps as = some (.ok s')) :
    Relation.ReflTransGen Next s s' := by
  induction as generalizing s with
  | nil =>
    simp only [steps, Option.some.injEq, Except.ok.injEq] at h
    rw [h]
  | cons a as ih =>
    simp only [steps] at h
    rcases hstep : s.step a with _ | (e | t)
    · rw [hstep] at h
      cases h
    · rw [hstep] at h
      cases h
    · rw [hstep] at h
      exact Relation.ReflTransGen.head ⟨a, hstep⟩ (ih h)

theorem size_reachable {size : Nat}
    (h : Relation.ReflTransGen Next (init P size) s) : s.log.size = size := by
  induction h with
  | refl => rfl
  | tail _ hstep ih =>
    obtain ⟨a, ha⟩ := hstep
    cases move_of_step ha <;> exact ih

/-- Commit isolation. A commit runs only while no operation is between its
    `begin_op` and `end_op`; what it commits is exactly what the operations
    ended since the last commit passed to `log_write`, each of them whole; a
    running operation has everything it passed in the transaction still being
    gathered; nothing is logged while the commit flag is up; neither of the two
    bracketing panics is reachable; and nobody sleeps in `begin_op` once the
    log is idle. -/
theorem commit_isolation (size : Nat) {s : Ops P} (h : Relation.ReflTransGen Next (init P size) s) :
    (∀ p, Committer (s.mode p) → ∀ q, s.mode q ≠ .inOp) ∧
    (∀ p, s.mode p = .committing → ∀ b, b ∈ s.log.lh ↔ ∃ w ∈ s.txn, b ∈ w) ∧
    (∀ p, s.mode p = .inOp → ∀ b ∈ s.writes p, b ∈ s.log.lh) ∧
    (∀ p b, (s.step (.logWrite p b)).isSome → s.log.committing = false) ∧
    (∀ a, s.step a ≠ some (.error .logCommitting) ∧
      s.step a ≠ some (.error .logWriteOutsideTrans)) ∧
    (s.log.committing = false → s.log.outstanding = 0 → ∀ p, s.mode p ≠ .asleep) := by
  have hi := inv_reachable size h
  have hnobody : ∀ p, Committer (s.mode p) → ∀ q, s.mode q ≠ .inOp := by
    intro p hp q hq
    exact hi.no_committer (hi.not_committing hq) p hp
  refine ⟨hnobody, ?_, ?_, ?_, ?_, fun hc hout => (hi.rest hc hout).2.2⟩
  · intro p hp b
    rw [hi.covers b]
    constructor
    -- Nobody is inside an operation, so the header is what has been handed in.
    · rintro (htxn | ⟨q, hq, -⟩)
      · exact htxn
      · exact absurd hq (hnobody p (.inl hp) q)
    · exact .inl
  · intro p hp b hb
    exact (hi.covers b).mpr (.inr ⟨p, hp, hb⟩)
  · grind [hi.not_committing, step, Option.isSome_none, Bool.false_eq_true]
  · intro a
    cases a with
    | beginOp p =>
      simp only [step]
      split_ifs
      · cases s.log.beginOp <;> simp only [ne_eq, Option.some.injEq, reduceCtorEq,
          not_false_eq_true, and_self]
      · simp only [ne_eq, reduceCtorEq, not_false_eq_true, and_self]
    | wake p =>
      simp only [step]
      split_ifs <;> simp only [ne_eq, Option.some.injEq, reduceCtorEq, not_false_eq_true, and_self]
    | logWrite p b =>
      simp only [step, Log.logWrite]
      split_ifs with hp hbig hout hb
      · simp only [ne_eq, Option.some.injEq, Except.error.injEq, reduceCtorEq,
          not_false_eq_true, and_self]
      · -- Inside an operation `outstanding` is positive.
        have := hi.outstanding_pos hp
        omega
      · simp only [ne_eq, Option.some.injEq, reduceCtorEq, not_false_eq_true, and_self]
      · simp only [ne_eq, Option.some.injEq, reduceCtorEq, not_false_eq_true, and_self]
      · simp only [ne_eq, reduceCtorEq, not_false_eq_true, and_self]
    | endOp p =>
      simp only [step, Log.endOp]
      split_ifs with hp hc hout
      · rw [hi.not_committing hp] at hc
        cases hc
      · simp only [ne_eq, Option.some.injEq, reduceCtorEq, not_false_eq_true, and_self]
      · simp only [ne_eq, Option.some.injEq, reduceCtorEq, not_false_eq_true, and_self]
      · simp only [ne_eq, reduceCtorEq, not_false_eq_true, and_self]
    | commit p =>
      simp only [step]
      split_ifs <;> simp only [ne_eq, Option.some.injEq, reduceCtorEq, not_false_eq_true, and_self]
    | finish p =>
      simp only [step]
      split_ifs <;> simp only [ne_eq, Option.some.injEq, reduceCtorEq, not_false_eq_true, and_self]

/-- One operation that logs two blocks and is the last out: its commit runs
    with nobody inside. -/
theorem commit_isolation_last_out : ∃ s : Ops (Fin 2),
      (init (Fin 2) nlog).steps [.beginOp 0, .logWrite 0 50, .beginOp 1, .logWrite 0 51,
        .endOp 1, .endOp 0] = some (.ok s) ∧ s.mode 0 = .committing ∧ ∀ q, s.mode q ≠ .inOp :=
  ⟨_, rfl, rfl, (commit_isolation nlog (reach_of_steps [.beginOp 0, .logWrite 0 50, .beginOp 1,
    .logWrite 0 51, .endOp 1, .endOp 0] rfl)).1 0 (.inl rfl)⟩

theorem passed_eq (hi : Inv s) : s.passed = s.log.lh.toFinset := by
  ext b
  simp only [passed, Finset.mem_union, List.mem_toFinset, List.mem_flatten, Finset.mem_biUnion,
    Finset.mem_univ, true_and, hi.covers b]
  refine or_congr Iff.rfl (exists_congr fun p => ?_)
  by_cases hp : s.mode p = .inOp
  · grind [List.mem_toFinset]
  · grind

theorem card_passed (hi : Inv s) : s.passed.card = s.log.lh.length := by
  rw [passed_eq hi, List.toFinset_card_of_nodup hi.nodup]

/-- Over an image made by `mkfs`, `log_write` finds no room exactly when its
    transaction has all the blocks the log can hold, whatever block it is
    called with: the test comes before absorption. -/
theorem log_write_panics_iff (hi : Inv s) (hsize : s.log.size = nlog) (p : P) (b : Nat)
    (hp : s.mode p = .inOp) :
    s.step (.logWrite p b) = some (.error .tooBigTransaction) ↔ nlog - 1 ≤ s.passed.card := by
  rw [card_passed hi]
  simp only [step, if_pos hp, Log.logWrite, hsize]
  by_cases hbig : LOGSIZE ≤ s.log.lh.length ∨ ((nlog : Nat) : Int) - 1 ≤ s.log.lh.length
  · grind
  · grind [hi.outstanding_pos]

theorem tooBig_only_logWrite (h : s.step a = some (.error .tooBigTransaction)) :
    ∃ p b, a = .logWrite p b ∧ s.mode p = .inOp := by
  cases a with
  | logWrite p b => grind [step]
  | endOp p =>
    simp only [step, Log.endOp] at h
    split_ifs at h <;> cases h
  | beginOp p => grind [step]
  | wake p =>
    simp only [step] at h
    split_ifs at h
    cases h
  | commit p =>
    simp only [step] at h
    split_ifs at h
    cases h
  | finish p =>
    simp only [step] at h
    split_ifs at h
    cases h

theorem steps_error {e : Panic} (as : List (Act P)) (h : s.steps as = some (.error e)) :
    ∃ as1 a as2 t, as = as1 ++ a :: as2 ∧ s.steps as1 = some (.ok t) ∧
      t.step a = some (.error e) := by
  induction as generalizing s with
  | nil => cases h
  | cons a as ih =>
    simp only [steps] at h
    rcases hstep : s.step a with _ | (e' | s')
    · rw [hstep] at h
      cases h
    · rw [hstep] at h
      cases h
      exact ⟨[], a, as, s, rfl, rfl, hstep⟩
    · grind [steps]

/-- A run over a `mkfs` image reaches the panic exactly when one of its
    operations calls `log_write` after the operations sharing the transaction
    have together passed all the blocks the log can hold. -/
theorem log_space_exact (as : List (Act P)) :
    (init P nlog).steps as = some (.error .tooBigTransaction) ↔
      ∃ as1 p b as2 s, as = as1 ++ .logWrite p b :: as2 ∧
        (init P nlog).steps as1 = some (.ok s) ∧ s.mode p = .inOp ∧ nlog - 1 ≤ s.passed.card := by
  constructor
  · intro h
    obtain ⟨as1, a, as2, s, has, hs, hlast⟩ := steps_error as h
    obtain ⟨p, b, rfl, hp⟩ := tooBig_only_logWrite hlast
    have hreach := reach_of_steps as1 hs
    refine ⟨as1, p, b, as2, s, has, hs, hp, ?_⟩
    exact (log_write_panics_iff (inv_reachable nlog hreach) (size_reachable hreach) p b hp).mp
      hlast
  · rintro ⟨as1, p, b, as2, s, has, hs, hp, hfull⟩
    have hreach := reach_of_steps as1 hs
    have hlast := (log_write_panics_iff (inv_reachable nlog hreach) (size_reachable hreach)
      p b hp).mpr hfull
    rw [has, steps_append, hs]
    simp only [steps, hlast]

/-- Three operations admitted together, each passing ten blocks of its own. -/
def threeFullBudgets : List (Act (Fin 3)) :=
  [.beginOp 0, .beginOp 1, .beginOp 2] ++ (List.range 30).map fun i =>
    .logWrite (Fin.ofNat 3 i) (46 + i)

/-- They keep to their budget and the last write finds the log full: of the
    thirty blocks of a `mkfs` log one is the header. -/
theorem three_full_budgets_panic : (init (Fin 3) nlog).fitRun MAXOPBLOCKS threeFullBudgets = true ∧
    (init (Fin 3) nlog).steps threeFullBudgets = some (.error .tooBigTransaction) := by
  constructor
  · decide +kernel
  · rfl

end Finite

end Xv6.Ops
