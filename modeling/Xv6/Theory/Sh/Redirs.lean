import Xv6.Theory.Sh.Parse
import Xv6.Theory.Sh.Wiring

/-!
# Redirections of One Descriptor

`parseredirs` puts each redirection around those before it, and `runcmd` opens from the outside
in. So the file that is opened last, and stays, is that of the redirection written first: with
`cmd > x > y` both files are opened and `x` is written to.

## Theorems

* `first_redirection_wins`
-/

namespace Xv6.Sh

variable {W F : Type}

/-- The text of a simple command or block: what is inside of the redirections, and these in the
    order in which they are written. -/
inductive Redirected : List (Tk W) → Cmd W → List (Redir × W) → Prop
  | simple (its : List (Item W)) : (words its).length < MAXARGS →
      Redirected (its.flatMap Item.tokens) (.exec (words its)) (redirs its)
  | block {c : Cmd W} {ts : List (Tk W)} (rs : List (Redir × W)) : Gram 0 .line c ts →
      Redirected (.lparen :: ts ++ .rparen :: rs.flatMap fun r => [.redir r.1, .word r.2]) c rs

/-- The first redirection of a descriptor: its file and mode. -/
def first (fd : Fin NOFILE) (rs : List (Redir × W)) : Option (W × UInt32) :=
  rs.findSome? fun r => if r.1.fd = fd then some (r.2, r.1.mode) else none

/-- The last one. -/
def last (fd : Fin NOFILE) (rs : List (Redir × W)) : Option (W × UInt32) := first fd rs.reverse

/-- A descriptor is on the file of a redirection, or as it was if there is none. -/
def IsOn (f old : File W F) : Option (W × UInt32) → Prop
  | none => f = old
  | some (name, mode) => ∃ node, f = .opened node name mode

theorem first_snoc (fd : Fin NOFILE) (rs : List (Redir × W)) (r : Redir × W) :
    first fd (rs ++ [r]) =
      (first fd rs).or (if r.1.fd = fd then some (r.2, r.1.mode) else none) := by
  rw [first, List.findSome?_append, List.findSome?_singleton]
  rfl

/-- A redirection put around others is opened before them, and decides if they do not. -/
theorem IsOn.snoc {fd : Fin NOFILE} {rs : List (Redir × W)} {op : Redir} {file : W} {node : Place}
    {f a : File W F}
    (h : IsOn f (if op.fd = fd then .opened node file op.mode else a) (first fd rs)) :
    IsOn f a (first fd (rs ++ [(op, file)])) := by
  rw [first_snoc]
  cases hfirst : first fd rs with
  | some x => rwa [hfirst] at h
  | none =>
    rw [hfirst] at h
    split_ifs at h ⊢
    · exact ⟨node, h⟩
    · exact h

theorem runcmd_wrap (c : Cmd W) (rs : List (Redir × W)) (e : File W F) :
    ∀ (node : Place) (a b : File W F), ∃ node' a' b',
      runcmd (wrap c rs) node (three a b e) = runcmd c node' (three a' b' e) ∧
      IsOn a' a (first 0 rs) ∧ IsOn b' b (first 1 rs) := by
  -- The last redirection is the outermost, so it is opened first.
  induction rs using List.reverseRecOn with
  | nil => exact fun node a b => ⟨node, a, b, rfl, rfl, rfl⟩
  | append_singleton rs r ih =>
    intro node a b
    obtain ⟨op, file⟩ := r
    have hwrap : wrap c (rs ++ [(op, file)]) = .redir (wrap c rs) op file := wrap_append ..
    have hrun : runcmd (wrap c (rs ++ [(op, file)])) node (three a b e) =
        runcmd (wrap c rs) (.body :: node)
          (three (if op.fd = 0 then .opened node file op.mode else a)
            (if op.fd = 1 then .opened node file op.mode else b) e) := by
      rw [hwrap, runcmd]
      cases op with
      | input => rw [Redir.fd, fdalloc_close_zero]; rfl
      | output => rw [Redir.fd, fdalloc_close_one]; rfl
      | append => rw [Redir.fd, fdalloc_close_one]; rfl
    obtain ⟨node', a', b', heq, ha, hb⟩ := ih (.body :: node)
      (if op.fd = 0 then .opened node file op.mode else a)
      (if op.fd = 1 then .opened node file op.mode else b)
    exact ⟨node', a', b', hrun.trans heq, ha.snoc, hb.snoc⟩

theorem IsOn.unique {f : File W F} {d : F} {x y : Option (W × UInt32)}
    (hx : IsOn f (.inherited d) x) (hy : IsOn f (.inherited d) y) : x = y := by
  cases x <;> cases y <;> grind [IsOn]

/-- A simple command with redirections among its words, or a block with some behind it, however
    it is spelled, is parsed to what is inside with the redirections around it. Wherever that
    is run, the inside is run with descriptors `0` and `1` on the file of the first redirection of
    each. This is the file of the last one just if the two name the same file in the same
    mode. -/
theorem first_redirection_wins {ts : List (Tk (List UInt8))} {c : Cmd (List UInt8)}
    {rs : List (Redir × List UInt8)} {b : List UInt8} (hform : Redirected ts c rs)
    (hb : Printed ts b) (after : List UInt8) (node : Place) (f0 f1 f2 : F) :
    (∃ c' m, parsecmd (b ++ 0 :: after) = .ok (c', m) ∧
      c'.Rel (fun x w => IsStr m x.1 w) (wrap c rs)) ∧
    ∃ node' i o,
      runcmd (wrap c rs) node (three (.inherited f0) (.inherited f1) (.inherited f2)) =
        runcmd c node' (three i o (.inherited f2)) ∧
      IsOn i (.inherited f0) (first 0 rs) ∧ IsOn o (.inherited f1) (first 1 rs) ∧
      (IsOn i (.inherited f0) (last 0 rs) ∧ IsOn o (.inherited f1) (last 1 rs) ↔
        first 0 rs = last 0 rs ∧ first 1 rs = last 1 rs) := by
  have hgram : Gram 0 .exec (wrap c rs) ts := by
    cases hform with
    | simple its hlen => exact .simple its (Nat.zero_le _) hlen
    | block rs hg => exact .block rs hg
  refine ⟨parse_printed (.last (.fore (.one hgram))) hb after, ?_⟩
  obtain ⟨node', i, o, hrun, hi, ho⟩ := runcmd_wrap c rs (.inherited f2) node (.inherited f0)
    (.inherited f1)
  refine ⟨node', i, o, hrun, hi, ho, ?_⟩
  constructor
  · rintro ⟨hi', ho'⟩
    exact ⟨hi.unique hi', ho.unique ho'⟩
  · rintro ⟨h0, h1⟩
    exact ⟨h0 ▸ hi, h1 ▸ ho⟩

/-- `c > x`. -/
theorem one_redirection_wins : ∃ node i o,
    runcmd (W := List UInt8) (wrap (.exec [[99]]) [(.output, [120])]) []
        (three (.inherited ()) (.inherited ()) (.inherited ())) =
      runcmd (.exec [[99]]) node (three i o (.inherited ())) ∧
    IsOn o (.inherited ()) (some ([120], Redir.output.mode)) := by
  have hwords : ∀ w, Tk.word w ∈ [Tk.word [99], .redir .output, .word [120]] → IsWord w := by
    simp [IsWord, inWord, whitespace, symbols]
  obtain ⟨-, node, i, o, hrun, -, ho, -⟩ := first_redirection_wins
    (.simple [.word [99], .redir .output [120]] (by decide)) (printed_blanks hwords) [] [] () () ()
  exact ⟨node, i, o, hrun, ho⟩

/-- `c > x > y` does not write to `y`. -/
theorem last_redirection_loses : ¬ ∀ (ts : List (Tk (List UInt8))) (c : Cmd (List UInt8))
    (rs : List (Redir × List UInt8)), Redirected ts c rs → ∃ node i o,
      runcmd (wrap c rs) [] (three (.inherited ()) (.inherited ()) (.inherited ())) =
        runcmd c node (three i o (.inherited ())) ∧
      IsOn i (.inherited ()) (last 0 rs) ∧ IsOn o (.inherited ()) (last 1 rs) := by
  intro hall
  obtain ⟨node, i, o, hrun, -, ho⟩ := hall _ (.exec [[99]]) [(.output, [120]), (.output, [121])]
    (.simple [.word [99], .redir .output [120], .redir .output [121]] (by decide))
  obtain ⟨node', i', o', hrun', -, ho'⟩ := runcmd_wrap (W := List UInt8) (.exec [[99]])
    [(.output, [120]), (.output, [121])] (.inherited ()) [] (.inherited ()) (.inherited ())
  -- Both are the one call of `exec`, with one table.
  rw [hrun] at hrun'
  obtain ⟨-, -, htable⟩ := Event.exec.inj (List.cons.inj hrun').1
  have heq : o = o' := Option.some.inj (congrFun htable 1)
  have hname := ho.unique (heq ▸ ho')
  exact absurd (congrArg (Option.map Prod.fst) hname) (by decide)

end Xv6.Sh
