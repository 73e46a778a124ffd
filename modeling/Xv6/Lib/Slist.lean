import Mathlib.Data.List.Basic

/-!
# Linked Segments

Nodes with one pointer each. A list of nodes is linked up to a node `z` when every pointer leads
to the next of them, and the last one to `z`. A ring is a list that is linked up to its own first
node, and from anywhere on a ring there is a way to any of its nodes that goes through each node
at most once.

## Theorems

* `Linked.append_iff`, `Linked.tour`
-/

namespace Xv6

variable {N : Type} {f g : N → N} {l l1 l2 : List N} {x z : N}

/-- Every node of `l` points to the next, and the last to `z`. -/
def Linked (f : N → N) : List N → N → Prop
  | [], _ => True
  | a :: l, z => f a = l.headD z ∧ Linked f l z

namespace Linked

theorem headD_append (l1 l2 : List N) (z : N) : (l1 ++ l2).headD z = l1.headD (l2.headD z) := by
  cases l1 with
  | nil => rfl
  | cons a l => rfl

theorem append_iff : Linked f (l1 ++ l2) z ↔ Linked f l1 (l2.headD z) ∧ Linked f l2 z := by
  induction l1 with
  | nil => simp [Linked]
  | cons a l ih =>
    rw [List.cons_append, Linked, Linked, ih, headD_append, and_assoc]

theorem congr (h : Linked f l z) (hfg : ∀ a ∈ l, g a = f a) : Linked g l z := by
  induction l with
  | nil => trivial
  | cons a l ih =>
    exact ⟨(hfg a List.mem_cons_self).trans h.1,
      ih h.2 fun b hb => hfg b (List.mem_cons_of_mem a hb)⟩

theorem route {p base : N} (h : Linked f (l1 ++ p :: l2) base)
    (hhead : l1.headD p = base) (hx : x ∈ l1 ++ p :: l2) :
    ∃ l, Linked f l p ∧ l.headD p = x ∧ (∀ a ∈ l, a ∈ l1 ∨ a ∈ l2) ∧
      l.length ≤ l1.length + l2.length := by
  obtain ⟨hleft, -, hright⟩ := append_iff.mp h
  rw [List.headD_cons] at hleft
  rcases List.mem_append.mp hx with hx | hx
  · obtain ⟨m1, m2, rfl⟩ := List.append_of_mem hx
    refine ⟨x :: m2, (append_iff.mp hleft).2, rfl, ?_, ?_⟩
    · exact fun a ha => .inl (List.mem_append_right m1 ha)
    · simp only [List.length_append, List.length_cons]
      omega
  · rcases List.mem_cons.mp hx with rfl | hx
    · exact ⟨[], trivial, rfl, fun a ha => absurd ha List.not_mem_nil, Nat.zero_le _⟩
    · -- over the end of the list and on from its start
      obtain ⟨m1, m2, rfl⟩ := List.append_of_mem hx
      refine ⟨x :: m2 ++ l1, append_iff.mpr ⟨?_, hleft⟩, rfl, ?_, ?_⟩
      · rw [hhead]
        exact (append_iff.mp hright).2
      · intro a ha
        rcases List.mem_append.mp ha with ha | ha
        · exact .inr (List.mem_append_right m1 ha)
        · exact .inl ha
      · simp only [List.length_append, List.length_cons]
        omega

theorem tour {p base : N} (h : Linked f (l1 ++ p :: l2) base) (hhead : l1.headD p = base) :
    Linked f (l2 ++ l1) p ∧ (l2 ++ l1).headD p = f p := by
  obtain ⟨hleft, hp, hright⟩ := append_iff.mp h
  rw [List.headD_cons] at hleft
  constructor
  · rw [append_iff, hhead]
    exact ⟨hright, hleft⟩
  · rw [headD_append, hhead, hp]

theorem last (h : Linked f (x :: l) z) : f (l.getLastD x) = z := by
  induction l generalizing x with
  | nil => exact h.1
  | cons a l ih =>
    rw [List.getLastD_cons]
    exact ih h.2

end Linked

end Xv6
