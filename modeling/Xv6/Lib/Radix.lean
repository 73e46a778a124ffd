import Mathlib.Data.List.Induction

/-!
# Trees in Memory

A tree of nodes at addresses, each with numbered children, as it stands in a memory that
something keeps changing. `node ch r p` is where the path `p` leads from the root `r`, for
the relation `ch` between an address, a number and a child that the memory holds at the
moment.

The tree is shared by nothing, and shares nothing with itself, if no two paths lead to one
address (`Sep`). Then a change at one node is seen on one path only. Two changes are followed
through here: one that leaves the children of the inner nodes alone (`node_congr`), and one
that hangs a new node without children under an old one (`node_link`).

## Theorems

* `node_append`, `node_congr`, `node_link`
-/

namespace Xv6

variable {A I : Type}

/-- Where the path `p` leads from `a`. -/
def node (ch : A → I → Option A) : A → List I → Option A
  | a, [] => some a
  | a, i :: p => (ch a i).bind fun b => node ch b p

variable {ch ch' : A → I → Option A} {r a b c : A} {D : Nat} {p q : List I} {i : I}

@[simp] theorem node_nil : node ch r [] = some r := rfl

theorem node_append : node ch a (p ++ q) = (node ch a p).bind fun b => node ch b q := by
  induction p generalizing a with
  | nil => rfl
  | cons i p ih =>
    simp only [List.cons_append, node]
    cases ch a i with
    | none => rfl
    | some b => exact ih

theorem node_snoc : node ch a (p ++ [i]) = (node ch a p).bind fun b => ch b i := by
  rw [node_append]
  congr 1
  funext b
  simp only [node]
  cases ch b i <;> rfl

/-- No two paths of at most `D` steps lead to one node. -/
def Sep (ch : A → I → Option A) (D : Nat) (r : A) : Prop :=
  ∀ p q a, p.length ≤ D → q.length ≤ D → node ch r p = some a → node ch r q = some a → p = q

theorem node_congr (h : ∀ p a i, p.length < D → node ch r p = some a → ch' a i = ch a i)
    (hp : p.length ≤ D) : node ch' r p = node ch r p := by
  -- from the root down: the last step of the path starts at an inner node
  induction p using List.reverseRecOn with
  | nil => rfl
  | append_singleton p i ih =>
    simp only [List.length_append, List.length_singleton] at hp
    rw [node_snoc, node_snoc, ih (by omega)]
    cases hn : node ch r p with
    | none => rfl
    | some a => exact h p a i (by omega) hn

theorem Sep.congr (hs : Sep ch D r)
    (h : ∀ p a i, p.length < D → node ch r p = some a → ch' a i = ch a i) : Sep ch' D r := by
  intro p q a hp hq hpa hqa
  rw [node_congr h hp] at hpa
  rw [node_congr h hq] at hqa
  exact hs p q a hp hq hpa hqa

section Link

variable (hs : Sep ch D r) (hp : node ch r p = some a) (hlen : p.length < D)
  (hnone : ch a i = none) (hlink : ch' a i = some c)
  (hother : ∀ b j, b ≠ c → ¬ (b = a ∧ j = i) → ch' b j = ch b j)
  (hempty : ∀ j, ch' c j = none)
  (hfresh : ∀ q, q.length ≤ D → node ch r q ≠ some c)

include hs hp hlen hnone hlink hother hempty hfresh in
/-- A new node `c`, without children, hangs as child `i` under the node at `p`. -/
theorem node_link [DecidableEq I] (hq : q.length ≤ D) :
    node ch' r q = if q = p ++ [i] then some c else node ch r q := by
  induction q using List.reverseRecOn with
  | nil =>
    rw [if_neg]
    · rfl
    · intro hx
      exact List.append_ne_nil_of_right_ne_nil p (List.cons_ne_nil i []) hx.symm
  | append_singleton q j ih =>
    simp only [List.length_append, List.length_singleton] at hq
    rw [node_snoc, ih (by omega)]
    by_cases hqi : q = p ++ [i]
    · -- below the new node there is nothing, and there was nothing before
      have hne : q ++ [j] ≠ p ++ [i] := by
        intro hx
        have hl := congrArg List.length hx
        rw [hqi] at hl
        simp only [List.length_append, List.length_singleton] at hl
        omega
      rw [if_pos hqi, if_neg hne, node_snoc, hqi, node_snoc, hp]
      simp only [Option.bind_some, hempty, hnone, Option.bind_none]
    · rw [if_neg hqi, node_snoc]
      cases hn : node ch r q with
      | none =>
        rw [if_neg]
        · rfl
        · intro hx
          rw [(List.append_inj' hx rfl).1, hp] at hn
          cases hn
      | some b =>
        have hbc : b ≠ c := by
          rintro rfl
          exact hfresh q (by omega) hn
        simp only [Option.bind_some]
        by_cases hba : b = a
        · -- the path to `a` is `p`, so the step is the new one or an old one
          subst hba
          have hqp : q = p := hs q p b (by omega) (by omega) hn hp
          by_cases hji : j = i
          · rw [hqp, hji, if_pos rfl, hlink]
          · rw [if_neg, hother b j hbc (fun hx => hji hx.2)]
            intro hx
            exact hji (List.cons.inj (List.append_inj' hx rfl).2).1
        · rw [if_neg, hother b j hbc (fun hx => hba hx.1)]
          intro hx
          rw [(List.append_inj' hx rfl).1, hp] at hn
          exact hba (Option.some.inj hn).symm

include hs hp hlen hnone hlink hother hempty hfresh in
theorem Sep.link : Sep ch' D r := by
  classical
  intro q q' b hq hq' hqb hqb'
  rw [node_link hs hp hlen hnone hlink hother hempty hfresh hq] at hqb
  rw [node_link hs hp hlen hnone hlink hother hempty hfresh hq'] at hqb'
  split_ifs at hqb hqb' with h1 h2 h2
  · rw [h1, h2]
  · cases hqb
    exact absurd hqb' (hfresh q' hq')
  · cases hqb'
    exact absurd hqb (hfresh q hq)
  · exact hs q q' b hq hq' hqb hqb'

end Link

end Xv6
