import Mathlib.Logic.Function.Basic

/-!
# Monitors

Data behind a lock, and calls that wait for it to change: a call takes the lock, sleeps as long as
a test fails, and then changes the data. `sleep` gives the lock back and `wakeup` makes all
sleepers test again, so a section between two of these is one step, and the sections of different
processes come in any order.

A sleeper is forgotten if its test would succeed. That cannot happen
if every change that makes a failing test succeed comes with a `wakeup`.

## Theorems

* `Monitor.Reach.data`, `Monitor.Reach.asleep`
-/

namespace Xv6

open Function (update update_self update_of_ne)

/-- Calls `A` by processes `P` on data `σ`. A call goes on when it is `ready`. -/
structure Monitor (P σ A : Type) where
  ready : A → σ → Bool
  body : P → A → σ → σ
  wakes : A → σ → Bool

namespace Monitor

inductive Pc (A : Type)
  | out
  /-- Waiting for the lock, to test again. -/
  | woken (a : A)
  | asleep (a : A)

/-- What `wakeup` does to a process. -/
def Pc.wake {A : Type} : Pc A → Pc A
  | .asleep a => .woken a
  | x => x

structure Conf (P σ A : Type) where
  data : σ
  pc : P → Pc A

inductive Act (P A : Type)
  | call (p : P) (a : A)
  | resume (p : P)
  /-- `kill` wakes a process too. -/
  | kill (p : P)

variable {P σ A : Type} [DecidableEq P] (M : Monitor P σ A)

/-- From the test to where the lock is given back. -/
def attempt (s : Conf P σ A) (p : P) (a : A) : Conf P σ A :=
  if M.ready a s.data then
    { data := M.body p a s.data
      pc := update (fun q => if M.wakes a s.data then (s.pc q).wake else s.pc q) p .out }
  else { s with pc := update s.pc p (.asleep a) }

def step (s : Conf P σ A) : Act P A → Option (Conf P σ A)
  | .call p a => match s.pc p with
    | .out => some (M.attempt s p a)
    | _ => none
  | .resume p => match s.pc p with
    | .woken a => some (M.attempt s p a)
    | _ => none
  | .kill p => match s.pc p with
    | .asleep a => some { s with pc := update s.pc p (.woken a) }
    | _ => none

/-- The states after calls that `ok` allows. -/
inductive Reach (ok : σ → P → A → Prop) (d : σ) : Conf P σ A → Prop
  | init : Reach ok d ⟨d, fun _ => .out⟩
  | step {s s' : Conf P σ A} {e : Act P A} (h : Reach ok d s)
      (hok : ∀ p a, e = .call p a → ok s.data p a)
      (hs : M.step s e = some s') : Reach ok d s'

variable {M} {ok : σ → P → A → Prop} {d : σ} {s s' : Conf P σ A}

/-- A step is a test, by a call that begins or has slept, or wakes one sleeper. -/
theorem step_cases {e : Act P A} (hs : M.step s e = some s') :
    (∃ p a, (e = .call p a ∨ s.pc p = .woken a) ∧ s' = M.attempt s p a) ∨
      ∃ p a, s.pc p = .asleep a ∧ s' = { s with pc := update s.pc p (.woken a) } := by
  cases e with
  | call p a =>
    simp only [step] at hs
    split at hs <;> cases hs
    exact .inl ⟨p, a, .inl rfl, rfl⟩
  | resume p =>
    simp only [step] at hs
    split at hs <;> cases hs
    next a hp => exact .inl ⟨p, a, .inr hp, rfl⟩
  | kill p =>
    simp only [step] at hs
    split at hs <;> cases hs
    next a hp => exact .inr ⟨p, a, hp, rfl⟩

/-- The rule for what holds of each process: it is told from the data and where the process is. -/
theorem Reach.each {Q : σ → Pc A → Prop} (hout : ∀ x, Q x .out)
    (hsleep : ∀ x a, M.ready a x = false → Q x (.asleep a))
    (hkill : ∀ x a, Q x (.asleep a) → Q x (.woken a))
    (hbody : ∀ x p a pc, M.ready a x = true → Q x pc →
      Q (M.body p a x) (if M.wakes a x then pc.wake else pc))
    (h : M.Reach ok d s) (q : P) : Q s.data (s.pc q) := by
  induction h with
  | init => exact hout d
  | step _ _ hs ih =>
    rcases step_cases hs with ⟨p, a, -, rfl⟩ | ⟨p, a, hp, rfl⟩
    · unfold attempt
      split
      next hready =>
        by_cases hq : q = p
        · simp only [hq, update_self]
          exact hout _
        · simp only [update_of_ne hq]
          exact hbody _ _ _ _ hready ih
      next hready =>
        by_cases hq : q = p
        · simp only [hq, update_self]
          exact hsleep _ _ (Bool.eq_false_iff.2 hready)
        · simpa only [update_of_ne hq] using ih
    · by_cases hq : q = p
      · subst hq
        simp only [update_self]
        exact hkill _ _ (hp ▸ ih)
      · simpa only [update_of_ne hq] using ih

variable {p : P} {a : A}

theorem Reach.asleep (hwakes : ∀ p a b x, M.ready a x = true → M.ready b x = false →
    M.wakes a x = false → M.ready b (M.body p a x) = false) (h : M.Reach ok d s)
    (hp : s.pc p = .asleep a) : M.ready a s.data = false := by
  refine h.each (Q := fun x pc => ∀ b, pc = .asleep b → M.ready b x = false) ?_ ?_ ?_ ?_ p a hp
  · intro x b hb
    cases hb
  · intro x a hready b hb
    cases hb
    exact hready
  · intro x a _ b hb
    cases hb
  · intro x p a pc hready hQ b hb
    cases hw : M.wakes a x
    · simp only [hw] at hb
      exact hwakes p a b x hready (hQ b hb) hw
    · simp only [hw] at hb
      cases pc <;> cases hb

/-- A call that has slept has seen its test fail. -/
theorem Reach.failed (h : M.Reach ok d s) (hp : s.pc p = .woken a) :
    ∃ x, M.ready a x = false := by
  refine h.each (Q := fun _ pc => ∀ b, pc.wake = .woken b → ∃ x,
    M.ready b x = false) ?_ ?_ ?_ ?_ p a
    (by rw [hp]; rfl)
  · intro x b hb
    cases hb
  · intro x a hready b hb
    cases hb
    exact ⟨x, hready⟩
  · intro x a hQ
    exact hQ
  · intro x p a pc _ hQ b hb
    refine hQ b (Eq.trans ?_ hb)
    cases pc <;> split <;> rfl

theorem Reach.data {I : σ → Prop} (hd : I d) (hI : ∀ x p a, I x → M.ready a x = true →
    (ok x p a ∨ ∃ y, M.ready a y = false) → I (M.body p a x)) (h : M.Reach ok d s) : I s.data := by
  induction h with
  | init => exact hd
  | step h hok hs ih =>
    rcases step_cases hs with ⟨p, a, hp, rfl⟩ | ⟨p, a, -, rfl⟩
    · unfold attempt
      split
      next hready => exact hI _ p a ih hready (hp.imp (hok p a) h.failed)
      · exact ih
    · exact ih

end Monitor

end Xv6
