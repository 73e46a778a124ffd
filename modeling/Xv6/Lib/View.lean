import Xv6.Lib.Refine

/-!
# Specifications in Terms of a View

Most of a state does not matter to an invariant. A view `rel x s` says what of the state `s` does,
as a value `x`, and `Spec` is a specification that speaks of nothing else: from a state that shows
`x`, a program that returns ends in a state that shows some `y` that the postcondition accepts.

The postcondition is a parameter of every rule, so a proof about a program goes through its text
from the top, with the view after each operation written out in the goal.

## Theorems

* `Prog.spec_bind`, `Prog.Spec.run`
-/

namespace Xv6.Prog

variable {Op Op' : Type} {Ret : Op → Type} {Ret' : Op' → Type} {S X E α β : Type}

/-- From a state that shows `x`, the program ends, if it returns, in one that shows a view that
    `Q` accepts. -/
def Spec (h : Handler Op Ret S E) (rel : X → S → Prop) (x : X) (p : Prog Op Ret α)
    (Q : α → X → Prop) : Prop :=
  ∀ s, rel x s → Wp h p (fun a t => ∃ y, Q a y ∧ rel y t) (fun _ => True) s

variable {h : Handler Op Ret S E} {rel : X → S → Prop} {x : X} {Q : α → X → Prop}

variable {a : α} {p : Prog Op Ret α} {o : Op}

theorem spec_pure (hq : Q a x) : Spec h rel x (pure a) Q :=
  fun _ hx => wp_pure.mpr ⟨x, hq, hx⟩

theorem spec_bind {p : Prog Op Ret β} {f : β → Prog Op Ret α}
    (hp : Spec h rel x p fun b y => Spec h rel y (f b) Q) : Spec h rel x (p >>= f) Q := by
  intro s hx
  refine wp_bind (hp s hx) ?_
  rintro b t ⟨y, hf, hy⟩
  exact hf t hy

theorem spec_mono {Q' : α → X → Prop} (hp : Spec h rel x p Q')
    (hq : ∀ a y, Q' a y → Q a y) : Spec h rel x p Q := by
  intro s hx
  refine wp_mono (hp s hx) ?_
  rintro a t ⟨y, hy, hrel⟩
  exact ⟨y, hq a y hy, hrel⟩

theorem spec_call {Q : Ret o → X → Prop}
    (ho : ∀ s, rel x s → ∀ r t, h o s = .ok (r, t) → ∃ y, Q r y ∧ rel y t) :
    Spec h rel x (call o) Q := by
  intro s hx
  rw [wp_call]
  cases hrun : h o s with
  | ok v => exact ho s hx v.1 v.2 hrun
  | error e => trivial

theorem spec_stop {k : Ret o → Prog Op Ret α} (ho : ∀ s, ∃ e, h o s = .error e) :
    Spec h rel x (.op o k) Q := by
  intro s _
  obtain ⟨e, he⟩ := ho s
  exact wp_op_error he trivial

theorem spec_ite {c : Prop} [Decidable c] {q : Prog Op Ret α} (hp : c → Spec h rel x p Q)
    (hq : ¬ c → Spec h rel x q Q) : Spec h rel x (if c then p else q) Q := by
  by_cases hc : c
  · rw [if_pos hc]
    exact hp hc
  · rw [if_neg hc]
    exact hq hc

theorem spec_via {h : Handler Op' Ret' S E} {f : (o : Op) → Prog Op' Ret' (Ret o)}
    {Q : Ret o → X → Prop} (hf : Spec h rel x (f o) Q) : Spec (h.via f) rel x (call o) Q := by
  refine spec_call fun s hx r t hrun => ?_
  exact wp_of_run (hf s hx) hrun

theorem Spec.run (hp : Spec h rel x p Q) {s t : S} (hx : rel x s)
    (hrun : p.run h s = .ok (a, t)) : ∃ y, Q a y ∧ rel y t := wp_of_run (hp s hx) hrun

end Xv6.Prog
