import Mathlib.Logic.Function.Basic

/-!
# Programs Over an Interface

A program that calls operations it does not define. `Prog Op Ret` is the free
monad over an interface: a tree that either returns or performs one operation
and continues with whatever the operation answers. Nothing about the answer is
fixed here, so one program text can be run against several machines, and what
the runs have in common is a fact about the text.

A `Handler` gives the interface a meaning on a state, and may refuse: the
refusal is the machine stopping, and no later operation runs. `run` threads a
program through a handler.

`Wp` is the precondition transformer of `run`, with one postcondition for
returning and one for stopping.

## Theorems

* `Prog.run_bind`, `Prog.wp_bind`, `Prog.wp_mono`
-/

namespace Xv6

/-- A program over the interface `Op`, where `o : Op` answers with `Ret o`. -/
inductive Prog (Op : Type) (Ret : Op → Type) (α : Type) : Type
  | ret (a : α)
  | op (o : Op) (k : Ret o → Prog Op Ret α)

/-- A meaning for every operation on a state `S`, or a reason to stop. -/
abbrev Handler (Op : Type) (Ret : Op → Type) (S E : Type) : Type :=
  (o : Op) → S → Except E (Ret o × S)

namespace Prog

variable {Op : Type} {Ret : Op → Type} {S E α β : Type}

/-- Run the first program, then the one its answer selects. -/
def bind : Prog Op Ret α → (α → Prog Op Ret β) → Prog Op Ret β
  | .ret a, f => f a
  | .op o k, f => .op o fun r => (k r).bind f

instance : Monad (Prog Op Ret) where
  pure := Prog.ret
  bind := Prog.bind

/-- The program that performs one operation and returns its answer. -/
def call (o : Op) : Prog Op Ret (Ret o) := .op o .ret

theorem bind_eq (p : Prog Op Ret α) (f : α → Prog Op Ret β) : (p >>= f) = p.bind f := rfl

/-- Thread a program through a handler. The first refusal ends the run. -/
def run (h : Handler Op Ret S E) : Prog Op Ret α → S → Except E (α × S)
  | .ret a, s => .ok (a, s)
  | .op o k, s => match h o s with
    | .ok (r, s') => (k r).run h s'
    | .error e => .error e

@[simp] theorem run_call (h : Handler Op Ret S E) (o : Op) (s : S) :
    (call o : Prog Op Ret (Ret o)).run h s = h o s := by
  unfold call
  simp only [run]
  cases h o s with
  | ok r => rfl
  | error e => rfl

/-- A sequence runs its first part, and its second from where that stopped. -/
theorem run_bind (h : Handler Op Ret S E) (p : Prog Op Ret α) (f : α → Prog Op Ret β) (s : S) :
    (p >>= f).run h s = match p.run h s with
      | .ok (a, s') => (f a).run h s'
      | .error e => .error e := by
  induction p generalizing s with
  | ret a => rfl
  | op o k ih =>
    rw [bind_eq]
    simp only [bind, run]
    cases h o s with
    | error e => rfl
    | ok r => exact ih r.1 r.2

/-- What must hold of a state for the run from it to end in `Q` if it returns
    and in `R` if it stops. -/
def Wp (h : Handler Op Ret S E) (p : Prog Op Ret α) (Q : α → S → Prop) (R : E → Prop) (s : S) :
    Prop :=
  match p.run h s with
  | .ok (a, s') => Q a s'
  | .error e => R e

section Rules

variable {h : Handler Op Ret S E} {Q : α → S → Prop} {R : E → Prop} {s : S}

variable {a : α} {p : Prog Op Ret α} {f : β → Prog Op Ret α} {o : Op} {s' : S} {e : E}

@[simp] theorem wp_pure : Wp h (pure a) Q R s ↔ Q a s := Iff.rfl

@[simp] theorem wp_ret : Wp h (.ret a) Q R s ↔ Q a s := Iff.rfl

theorem wp_bind_iff {p : Prog Op Ret β} :
    Wp h (p >>= f) Q R s ↔ Wp h p (fun b s' => Wp h (f b) Q R s') R s := by
  unfold Wp
  rw [run_bind]
  cases p.run h s with
  | ok r => exact Iff.rfl
  | error e => exact Iff.rfl

theorem wp_mono {Q' : α → S → Prop} (hp : Wp h p Q' R s)
    (hq : ∀ a s', Q' a s' → Q a s') : Wp h p Q R s := by
  unfold Wp at hp ⊢
  cases hr : p.run h s with
  | error e =>
    rw [hr] at hp
    exact hp
  | ok r =>
    rw [hr] at hp
    exact hq r.1 r.2 hp

/-- Sequencing: a specification of the first part, then the second part from
    every state that specification allows. -/
theorem wp_bind {p : Prog Op Ret β} {Q' : β → S → Prop}
    (hp : Wp h p Q' R s) (hf : ∀ b s', Q' b s' → Wp h (f b) Q R s') : Wp h (p >>= f) Q R s :=
  wp_bind_iff.mpr (wp_mono hp hf)

theorem wp_call {Q : Ret o → S → Prop} :
    Wp h (call o) Q R s ↔ match h o s with
      | .ok (r, s') => Q r s'
      | .error e => R e := by
  unfold Wp
  rw [run_call]
  cases h o s with
  | ok r => exact Iff.rfl
  | error e => exact Iff.rfl

theorem wp_op_ok {k : Ret o → Prog Op Ret α} {r : Ret o}
    (ho : h o s = .ok (r, s')) (hk : Wp h (k r) Q R s') : Wp h (.op o k) Q R s := by
  unfold Wp at hk ⊢
  simp only [run, ho]
  exact hk

theorem wp_op_error {k : Ret o → Prog Op Ret α} (ho : h o s = .error e)
    (hr : R e) : Wp h (.op o k) Q R s := by
  unfold Wp
  simp only [run, ho]
  exact hr

theorem wp_of_run (hp : Wp h p Q R s)
    (hr : p.run h s = .ok (a, s')) : Q a s' := by
  unfold Wp at hp
  rw [hr] at hp
  exact hp

theorem wp_of_stop (hp : Wp h p Q R s)
    (hr : p.run h s = .error e) : R e := by
  unfold Wp at hp
  rw [hr] at hp
  exact hp

theorem returns_of_wp {p : Prog Op Ret Unit} {Q : Unit → S → Prop} (hp : Wp h p Q R s)
    (hr : ∀ e, ¬ R e) : ∃ s', p.run h s = .ok ((), s') := by
  cases hrun : p.run h s with
  | ok r => exact ⟨r.2, rfl⟩
  | error e => exact absurd (wp_of_stop hp hrun) (hr e)

end Rules

-- Proofs go by the rules. Unfolding would run the program inside the unifier.
attribute [irreducible] Wp

end Prog

end Xv6
