import Mathlib.Data.List.Nodup

/-!
# Sequences of Single-Cell Writes

A memory that is only ever changed one cell at a time, in a known order. A
crash keeps some prefix of the order, so what can be said about a memory after
a crash is what can be said about `replay` of a prefix.

## Theorems

* `replay_append`, `replay_of_notMem`, `replay_of_mem`
-/

namespace Xv6

section Writes

variable {A B : Type} [DecidableEq A]

/-- The memory after the writes, oldest first. -/
def replay (ws : List (A × B)) (m : A → B) : A → B :=
  ws.foldl (fun m w => Function.update m w.1 w.2) m

@[simp] theorem replay_nil (m : A → B) : replay [] m = m := rfl

theorem replay_cons (w : A × B) (ws : List (A × B)) (m : A → B) :
    replay (w :: ws) m = replay ws (Function.update m w.1 w.2) := rfl

theorem replay_append (ws vs : List (A × B)) (m : A → B) :
    replay (ws ++ vs) m = replay vs (replay ws m) := List.foldl_append

variable {ws : List (A × B)} {m : A → B} {a : A}

theorem replay_of_notMem (h : a ∉ ws.map Prod.fst) :
    replay ws m a = m a := by
  induction ws generalizing m with
  | nil => rfl
  | cons w ws ih =>
    simp only [List.map_cons, List.mem_cons, not_or] at h
    rw [replay_cons, ih h.2, Function.update_of_ne h.1]

theorem replay_of_mem {x : B}
    (hnd : (ws.map Prod.fst).Nodup) (h : (a, x) ∈ ws) : replay ws m a = x := by
  induction ws generalizing m with
  | nil => exact absurd h List.not_mem_nil
  | cons w ws ih =>
    rw [List.map_cons, List.nodup_cons] at hnd
    rcases List.mem_cons.mp h with rfl | h
    · rw [replay_cons, replay_of_notMem hnd.1, Function.update_self]
    · rw [replay_cons, ih hnd.2 h]

theorem replay_congr_of_mem {m' : A → B}
    (h : a ∈ ws.map Prod.fst) : replay ws m a = replay ws m' a := by
  induction ws generalizing m m' with
  | nil => exact absurd h List.not_mem_nil
  | cons w ws ih =>
    rw [replay_cons, replay_cons]
    by_cases hws : a ∈ ws.map Prod.fst
    · exact ih hws
    · rw [List.map_cons, List.mem_cons] at h
      rcases h with h | h
      · rw [replay_of_notMem hws, replay_of_notMem hws, h, Function.update_self,
          Function.update_self]
      · exact absurd h hws

omit [DecidableEq A] in
theorem take_append_cases (ws vs : List (A × B)) (k : Nat) :
    (k ≤ ws.length ∧ (ws ++ vs).take k = ws.take k) ∨
      ∃ j, k = ws.length + j ∧ (ws ++ vs).take k = ws ++ vs.take j := by
  rcases Nat.le_total k ws.length with h | h
  · exact Or.inl ⟨h, List.take_append_of_le_length h⟩
  · refine Or.inr ⟨k - ws.length, by omega, ?_⟩
    rw [List.take_append, List.take_of_length_le h]

end Writes

end Xv6
