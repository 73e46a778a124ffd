import Xv6.Lib.Prog

/-!
# One Interface Built on Another

A layer of a system is a set of programs over the interface below it, one for
each operation it offers. `Prog.expand` replaces the operations of a program by
the programs that implement them, and running the result is the same as running
the program on the handler `Handler.via`.

`Prog.Reaches` are the states that a run passes through, those in the middle of it
included.

## Theorems

* `Prog.run_expand`
-/

namespace Xv6

variable {Op Op' : Type} {Ret : Op → Type} {Ret' : Op' → Type} {S E α : Type}

/-- Replace every operation by the program that implements it. -/
def Prog.expand (f : (o : Op) → Prog Op' Ret' (Ret o)) : Prog Op Ret α → Prog Op' Ret' α
  | .ret a => .ret a
  | .op o k => f o >>= fun r => (k r).expand f

/-- The handler an implementation gives. -/
def Handler.via (h : Handler Op' Ret' S E) (f : (o : Op) → Prog Op' Ret' (Ret o)) :
    Handler Op Ret S E := fun o s => (f o).run h s

theorem Prog.run_expand (h : Handler Op' Ret' S E) (f : (o : Op) → Prog Op' Ret' (Ret o))
    (p : Prog Op Ret α) (s : S) : (p.expand f).run h s = p.run (h.via f) s := by
  induction p generalizing s with
  | ret a => rfl
  | op o k ih =>
    rw [expand, run_bind, run, Handler.via]
    cases (f o).run h s with
    | error e => rfl
    | ok r => exact ih r.1 r.2

namespace Prog

/-- The run of a program passes through a state. -/
inductive Reaches (h : Handler Op Ret S E) : Prog Op Ret α → S → S → Prop
  | here (p : Prog Op Ret α) (s : S) : Reaches h p s s
  | op {o : Op} {k : Ret o → Prog Op Ret α} {s s' t : S} {r : Ret o} (ho : h o s = .ok (r, s'))
      (hk : Reaches h (k r) s' t) : Reaches h (.op o k) s t

end Prog

end Xv6
