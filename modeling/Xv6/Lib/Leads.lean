import Xv6.Lib.Refine

/-!
# What a Program Passes Through

A specification that is about the way as well as the end: a program started in `I`
ends in `I'` if it returns, and no state on the way is outside `J`, also if it never
returns because the machine stops. `Leads` is closed under everything a program is
built with, so it can be read off the text of a program once it is known for the
operations.

`All` is a property of the text alone: every operation it can come to is of some kind.
It is shown once for a program and then serves every invariant that the operations of
the kind keep, which is `leads_expand`.

## Theorems

* `Prog.leads_bind`, `Prog.leads_expand`
-/

namespace Xv6

variable {Op Op' : Type} {Ret : Op → Type} {Ret' : Op' → Type} {S E α β : Type}

namespace Prog

/-- The run from `s` passes only through `J`, and ends in `I'` if it returns. -/
def From (h : Handler Op Ret S E) (J : S → Prop) (p : Prog Op Ret α) (I' : S → Prop) (s : S) :
    Prop :=
  (∀ t, Reaches h p s t → J t) ∧ ∀ a t, p.run h s = .ok (a, t) → I' t

/-- So does the run from any state in `I`. -/
def Leads (h : Handler Op Ret S E) (J I : S → Prop) (p : Prog Op Ret α) (I' : S → Prop) : Prop :=
  ∀ s, I s → p.From h J I' s

theorem bind_assoc {γ : Type} (p : Prog Op Ret α) (f : α → Prog Op Ret β) (g : β → Prog Op Ret γ) :
    (p >>= f) >>= g = p >>= fun a => f a >>= g := by
  induction p with
  | ret a => rfl
  | op o k ih =>
    simp only [bind_eq, bind] at ih ⊢
    exact congrArg _ (funext ih)

/-- A run of a sequence is in its first part, or in the second after the first is done. -/
theorem reaches_bind {h : Handler Op Ret S E} {p : Prog Op Ret α} {f : α → Prog Op Ret β} {s t : S}
    (ht : Reaches h (p >>= f) s t) :
    Reaches h p s t ∨ ∃ a u, p.run h s = .ok (a, u) ∧ Reaches h (f a) u t := by
  induction p generalizing s with
  | ret a => exact Or.inr ⟨a, s, rfl, ht⟩
  | op o k ih =>
    rw [bind_eq, bind] at ht
    cases ht with
    | here => exact Or.inl (.here _ _)
    | op ho hk =>
      rcases ih _ hk with hfst | ⟨a, u, hrun, hsnd⟩
      · exact Or.inl (.op ho hfst)
      · refine Or.inr ⟨a, u, ?_, hsnd⟩
        rw [run, ho]
        exact hrun

section Rules

variable {h : Handler Op Ret S E} {J I I' I'' : S → Prop}

variable {o : Op} {s : S} {p : Prog Op Ret α} {f : α → Prog Op Ret β}

theorem from_op {k : Ret o → Prog Op Ret α} {r : Ret o} {s' : S} (hJ : J s)
    (ho : h o s = .ok (r, s')) (hk : (k r).From h J I' s') : (Prog.op o k).From h J I' s := by
  refine ⟨fun t ht => ?_, fun a t hr => hk.2 a t ?_⟩
  · cases ht with
    | here => exact hJ
    | op ho' hk' =>
      rw [ho] at ho'
      cases ho'
      exact hk.1 t hk'
  · rw [run, ho] at hr
    exact hr

theorem from_error {k : Ret o → Prog Op Ret α} {e : E} (hJ : J s)
    (ho : h o s = .error e) : (Prog.op o k).From h J I' s := by
  refine ⟨fun t ht => ?_, fun a t hr => ?_⟩
  · cases ht with
    | here => exact hJ
    | op hr hk =>
      rw [ho] at hr
      cases hr
  · rw [run, ho] at hr
    cases hr

theorem leads_pure (hJ : ∀ s, I s → J s) (a : α) : Leads h J I (pure a : Prog Op Ret α) I := by
  intro s hI
  refine ⟨fun t ht => ?_, fun b t hr => ?_⟩
  · cases ht
    exact hJ s hI
  · cases hr
    exact hI

theorem from_bind (hp : p.From h J I'' s)
    (hf : ∀ a u, p.run h s = .ok (a, u) → I'' u → (f a).From h J I' u) :
    (p >>= f).From h J I' s := by
  refine ⟨fun t ht => ?_, fun b t hr => ?_⟩
  · rcases reaches_bind ht with hfst | ⟨a, u, hrun, hsnd⟩
    · exact hp.1 t hfst
    · exact (hf a u hrun (hp.2 a u hrun)).1 t hsnd
  · rw [run_bind] at hr
    cases hrun : p.run h s with
    | error e =>
      rw [hrun] at hr
      cases hr
    | ok r =>
      rw [hrun] at hr
      exact (hf r.1 r.2 hrun (hp.2 r.1 r.2 hrun)).2 b t hr

theorem leads_bind (hp : Leads h J I p I'')
    (hf : ∀ a, Leads h J I'' (f a) I') : Leads h J I (p >>= f) I' :=
  fun s hI => from_bind (hp s hI) fun a u _ hu => hf a u hu

theorem leads_call (hJ : ∀ s, I s → J s) (hJ' : ∀ s, I' s → J s)
    (ho : ∀ s r t, I s → h o s = .ok (r, t) → I' t) :
    Leads h J I (call o : Prog Op Ret (Ret o)) I' := by
  intro s hI
  refine ⟨fun t ht => ?_, fun a t hr => ?_⟩
  · cases ht with
    | here => exact hJ s hI
    | op hr hk =>
      cases hk
      exact hJ' t (ho s _ t hI hr)
  · rw [run_call] at hr
    exact ho s a t hI hr

theorem leads_stop {k : Ret o → Prog Op Ret α} (hJ : ∀ s, I s → J s)
    (ho : ∀ s, ∃ e, h o s = .error e) : Leads h J I (.op o k) I' := by
  intro s hI
  obtain ⟨e, he⟩ := ho s
  exact from_error (hJ s hI) he

end Rules

/-- Every operation the program can come to is of the kind `P`. -/
def All (P : Op → Prop) : Prog Op Ret α → Prop
  | .ret _ => True
  | .op o k => P o ∧ ∀ r, (k r).All P

section All

variable {P : Op → Prop}

theorem all_pure (a : α) : All P (pure a : Prog Op Ret α) := trivial

variable {o : Op} {p : Prog Op Ret α}

theorem all_op {k : Ret o → Prog Op Ret α} (ho : P o) (hk : ∀ r, (k r).All P) :
    All P (.op o k) := ⟨ho, hk⟩

theorem all_call (ho : P o) : All P (call o : Prog Op Ret (Ret o)) :=
  all_op ho fun r => all_pure r

theorem all_bind {f : α → Prog Op Ret β} (hp : p.All P)
    (hf : ∀ a, (f a).All P) : (p >>= f).All P := by
  induction p with
  | ret a => exact hf a
  | op o k ih => exact ⟨hp.1, fun r => ih r (hp.2 r)⟩

theorem all_ite {c : Prop} [Decidable c] {q : Prog Op Ret α} (hp : p.All P) (hq : q.All P) :
    (if c then p else q).All P := by
  by_cases hc : c
  · rwa [if_pos hc]
  · rwa [if_neg hc]

theorem all_mono {Q : Op → Prop} (hPQ : ∀ o, P o → Q o) (hp : p.All P) :
    p.All Q := by
  induction p with
  | ret a => exact all_pure a
  | op o k ih => exact ⟨hPQ o hp.1, fun r => ih r (hp.2 r)⟩

theorem expand_bind (f : (o : Op) → Prog Op' Ret' (Ret o)) (p : Prog Op Ret α)
    (g : α → Prog Op Ret β) : (p >>= g).expand f = p.expand f >>= fun a => (g a).expand f := by
  induction p with
  | ret a => rfl
  | op o k ih =>
    rw [bind_eq, bind, expand, expand, bind_assoc]
    exact congrArg _ (funext ih)

/-- A program over a layer, from what implements the operations in its text. -/
theorem leads_expand {h : Handler Op' Ret' S E} {J I : S → Prop}
    {f : (o : Op) → Prog Op' Ret' (Ret o)} (hJ : ∀ s, I s → J s)
    (hP : ∀ o, P o → Leads h J I (f o) I) (hp : p.All P) :
    Leads h J I (p.expand f) I := by
  induction p with
  | ret a => exact leads_pure hJ a
  | op o k ih => exact leads_bind (hP o hp.1) fun r => ih r (hp.2 r)

end All

-- As with `Wp`, unfolding would evaluate the conditions in the program.
attribute [irreducible] All

end Prog

end Xv6
