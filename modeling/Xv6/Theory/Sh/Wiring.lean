import Xv6.Core.Sh
import Mathlib.Tactic.IntervalCases

/-!
# The Wiring of a Command

Which descriptors the commands of a tree are run with.

A leaf has nodes above it, and some of them set its standard input or output: a `REDIR` sets
one of the two to its file, a `PIPE` sets the input of its right side and the output of its
left. The nearest node that sets it decides. `Leaf` is a leaf with the nodes above it, nearest
first, and `stdin` and `stdout` look for that node.

## Theorems

* `runcmd_wires`
-/

namespace Xv6.Sh

open Function (update)
open List (filterMap_append map_append mem_append mem_cons)

variable {W F A : Type}

/-- A node above another, and on which side of it the other is. -/
inductive Above (W : Type)
  | redir (node : Place) (op : Redir) (file : W)
  | pipeLeft (node : Place)
  | pipeRight (node : Place)
  | list (node : Place)
  | back (node : Place)

namespace Above

def node : Above W → Place
  | .redir n _ _ => n
  | .pipeLeft n => n
  | .pipeRight n => n
  | .list n => n
  | .back n => n

/-- What the node sets descriptor `0` to. -/
def setsIn : Above W → Option (File W F)
  | .redir n .input file => some (.opened n file Redir.input.mode)
  | .pipeRight n => some (.pipeRead n)
  | _ => none

/-- What the node sets descriptor `1` to. -/
def setsOut : Above W → Option (File W F)
  | .redir n .output file => some (.opened n file Redir.output.mode)
  | .redir n .append file => some (.opened n file Redir.append.mode)
  | .pipeLeft n => some (.pipeWrite n)
  | _ => none

end Above

/-- Descriptor `0` under the nodes `up`, nearest first, where it is `f` outside of them. -/
def stdin (up : List (Above W)) (f : File W F) : File W F := (up.findSome? Above.setsIn).getD f

/-- The same for descriptor `1`. -/
def stdout (up : List (Above W)) (f : File W F) : File W F := (up.findSome? Above.setsOut).getD f

/-- An `EXEC` node with the nodes above it. -/
structure Leaf (W : Type) where
  node : Place
  argv : List W
  up : List (Above W)

/-- The `EXEC` nodes of a tree that stands at a place under the nodes `up`. -/
def leaves : Cmd W → Place → List (Above W) → List (Leaf W)
  | .exec argv, node, up => [⟨node, argv, up⟩]
  | .redir cmd op file, node, up => leaves cmd (.body :: node) (.redir node op file :: up)
  | .list left right, node, up =>
    leaves left (.left :: node) (.list node :: up) ++
      leaves right (.right :: node) (.list node :: up)
  | .pipe left right, node, up =>
    leaves left (.left :: node) (.pipeLeft node :: up) ++
      leaves right (.right :: node) (.pipeRight node :: up)
  | .back cmd, node, up => leaves cmd (.body :: node) (.back node :: up)

/-- The `PIPE` nodes of a tree. -/
def pipes : Cmd W → Place → List Place
  | .exec _, _ => []
  | .redir cmd _ _, node => pipes cmd (.body :: node)
  | .list left right, node => pipes left (.left :: node) ++ pipes right (.right :: node)
  | .pipe left right, node => node :: (pipes left (.left :: node) ++ pipes right (.right :: node))
  | .back cmd, node => pipes cmd (.body :: node)

/-- The calls of `wait` in a tree: one at a `LIST`, two at a `PIPE`. -/
def waits : Cmd W → Place → List (Above W) → List (Place × List (Above W))
  | .exec _, _, _ => []
  | .redir cmd op file, node, up => waits cmd (.body :: node) (.redir node op file :: up)
  | .list left right, node, up =>
    waits left (.left :: node) (.list node :: up) ++
      (node, up) :: waits right (.right :: node) (.list node :: up)
  | .pipe left right, node, up =>
    waits left (.left :: node) (.pipeLeft node :: up) ++
      (waits right (.right :: node) (.pipeRight node :: up) ++ [(node, up), (node, up)])
  | .back cmd, node, up => waits cmd (.body :: node) (.back node :: up)

namespace Event

def exec? : Event W F → Option (Place × List W × Ofile (File W F))
  | .exec node argv t => some (node, argv, t)
  | .wait _ _ => none

def wait? : Event W F → Option (Place × Ofile (File W F))
  | .exec _ _ _ => none
  | .wait node t => some (node, t)

end Event

/-! ### Tables with three open descriptors -/

/-- Descriptors `0`, `1` and `2` are open and no others. -/
def three (a b c : A) : Ofile A := fun fd =>
  if fd = 0 then some a else if fd = 1 then some b else if fd = 2 then some c else none

theorem fdalloc_eq {t : Ofile A} (fd : Fin NOFILE) (f : A) (hfree : t fd = none)
    (hlow : ∀ i < fd, t i ≠ none) : t.fdalloc f = some (fd, update t fd (some f)) := by
  have hfind : (List.finRange NOFILE).find? (fun i => (t i).isNone) = some fd := by
    rw [List.find?_eq_some_iff_getElem]
    refine ⟨by rw [hfree]; rfl, fd.val, by simp, by simp, ?_⟩
    intro j hj
    have hne := hlow ⟨j, hj.trans fd.isLt⟩ hj
    simpa [Option.isNone_iff_eq_none, ← Option.ne_none_iff_isSome] using hne
  rw [Ofile.fdalloc, hfind]
  rfl

theorem fdalloc_close_zero (a b c f : A) :
    ((three a b c).close 0).fdalloc f = some (0, three f b c) := by
  rw [fdalloc_eq 0 f (by rfl) (by intro i hi; exact absurd hi (by simp))]
  congr 2
  funext i
  by_cases h0 : i = 0
  · rw [h0]; rfl
  · simp [Ofile.close, three, h0]

theorem fdalloc_close_one (a b c f : A) :
    ((three a b c).close 1).fdalloc f = some (1, three a f c) := by
  have hlow : ∀ i < (1 : Fin NOFILE), (three a b c).close 1 i ≠ none := by
    rintro ⟨n, hn⟩ (hi : n < 1)
    interval_cases n
    exact nofun
  rw [fdalloc_eq 1 f (by rfl) hlow]
  congr 2
  funext i
  by_cases h1 : i = 1
  · rw [h1]; rfl
  · simp [Ofile.close, three, h1]

/-- The five descriptors after `pipe`. -/
def five (a b c r w : A) : Ofile A :=
  update (update (three a b c) 3 (some r)) 4 (some w)

theorem pipe_three (a b c r w : A) : (three a b c).pipe r w = some ((3, 4), five a b c r w) := by
  have hlow3 : ∀ i < (3 : Fin NOFILE), three a b c i ≠ none := by
    rintro ⟨n, hn⟩ (hi : n < 3)
    interval_cases n <;> exact nofun
  have hlow4 : ∀ i < (4 : Fin NOFILE), update (three a b c) 3 (some r) i ≠ none := by
    rintro ⟨n, hn⟩ (hi : n < 4)
    interval_cases n <;> exact nofun
  rw [Ofile.pipe, fdalloc_eq 3 r (by rfl) hlow3]
  simp only
  rw [fdalloc_eq 4 w (by rfl) hlow4]
  rfl

theorem close_five (a b c r w : A) : ((five a b c r w).close 3).close 4 = three a b c := by
  funext i
  by_cases h4 : i = 4
  · rw [h4]; rfl
  · by_cases h3 : i = 3
    · rw [h3]; rfl
    · simp [Ofile.close, five, h3, h4]

theorem pipeLeft_five (a b c r w : File W F) : pipeLeft (five a b c r w) (3, 4) = three a w c := by
  have hlow : ∀ i < (1 : Fin NOFILE), (five a b c r w).close 1 i ≠ none := by
    rintro ⟨n, hn⟩ (hi : n < 1)
    interval_cases n
    exact nofun
  have hdup : ((five a b c r w).close 1).dup 4 = update ((five a b c r w).close 1) 1 (some w) := by
    have hend : (five a b c r w).close 1 4 = some w := rfl
    simp only [Ofile.dup, hend, fdalloc_eq 1 w (by rfl) hlow]
  rw [pipeLeft, hdup]
  have heq : update ((five a b c r w).close 1) 1 (some w) = five a w c r w := by
    funext i
    by_cases h1 : i = 1
    · rw [h1]; rfl
    · by_cases h4 : i = 4
      · rw [h4]; rfl
      · by_cases h3 : i = 3
        · rw [h3]; rfl
        · simp [Ofile.close, five, three, h1, h3, h4]
  rw [heq]
  exact close_five a w c r w

theorem pipeRight_five (a b c r w : File W F) :
    pipeRight (five a b c r w) (3, 4) = three r b c := by
  have hdup : ((five a b c r w).close 0).dup 3 = update ((five a b c r w).close 0) 0 (some r) := by
    have hend : (five a b c r w).close 0 3 = some r := rfl
    simp only [Ofile.dup, hend,
      fdalloc_eq 0 r (t := (five a b c r w).close 0) (by rfl) (fun i hi => absurd hi (by simp))]
  rw [pipeRight, hdup]
  have heq : update ((five a b c r w).close 0) 0 (some r) = five r b c r w := by
    funext i
    by_cases h0 : i = 0
    · rw [h0]; rfl
    · by_cases h4 : i = 4
      · rw [h4]; rfl
      · by_cases h3 : i = 3
        · rw [h3]; rfl
        · simp [Ofile.close, five, three, h0, h3, h4]
  rw [heq]
  exact close_five r b c r w

/-! ### What the processes of a tree do -/

section Runs

variable (f0 f1 f2 : File W F)

/-- The descriptors under the nodes `up`. -/
def table (up : List (Above W)) : Ofile (File W F) := three (stdin up f0) (stdout up f1) f2

theorem table_redir (up : List (Above W)) (node : Place) (op : Redir) (file : W) :
    ((table f0 f1 f2 up).close op.fd).fdalloc (.opened node file op.mode) =
      some (op.fd, table f0 f1 f2 (.redir node op file :: up)) := by
  cases op with
  | input => exact fdalloc_close_zero _ _ _ _
  | output => exact fdalloc_close_one _ _ _ _
  | append => exact fdalloc_close_one _ _ _ _

theorem runcmd_redir (cmd : Cmd W) (op : Redir) (file : W) (node : Place) (up : List (Above W)) :
    runcmd (.redir cmd op file) node (table f0 f1 f2 up) =
      runcmd cmd (.body :: node) (table f0 f1 f2 (.redir node op file :: up)) := by
  rw [runcmd, table_redir]

theorem runcmd_pipe (left right : Cmd W) (node : Place) (up : List (Above W)) :
    runcmd (.pipe left right) node (table f0 f1 f2 up) =
      runcmd left (.left :: node) (table f0 f1 f2 (.pipeLeft node :: up)) ++
        (runcmd right (.right :: node) (table f0 f1 f2 (.pipeRight node :: up)) ++
          [.wait node (table f0 f1 f2 up), .wait node (table f0 f1 f2 up)]) := by
  rw [runcmd, table, pipe_three]
  simp only [pipeLeft_five, pipeRight_five, close_five]
  rfl

theorem execs_runcmd (c : Cmd W) : ∀ (node : Place) (up : List (Above W)),
    (runcmd c node (table f0 f1 f2 up)).filterMap Event.exec? =
      ((leaves c node up).filter fun l => !l.argv.isEmpty).map
        fun l => (l.node, l.argv, table f0 f1 f2 l.up) := by
  induction c with
  | exec argv =>
    intro node up
    cases argv with
    | nil => rfl
    | cons a as => rfl
  | redir cmd op file ih =>
    intro node up
    rw [runcmd_redir, ih, leaves]
  | pipe left right ihl ihr =>
    intro node up
    rw [runcmd_pipe, leaves]
    simp only [filterMap_append, ihl, ihr, List.filter_append, map_append]
    simp [Event.exec?]
  | list left right ihl ihr =>
    intro node up
    have hl := ihl (.left :: node) (.list node :: up)
    have hr := ihr (.right :: node) (.list node :: up)
    rw [runcmd, leaves]
    simp only [filterMap_append, List.filterMap_cons, Event.exec?, List.filter_append, map_append]
    -- a LIST sets no descriptor, so the tables above and below it are the same
    exact congrArg₂ _ hl hr
  | back cmd ih =>
    intro node up
    exact ih (.body :: node) (.back node :: up)

theorem waits_runcmd (c : Cmd W) : ∀ (node : Place) (up : List (Above W)),
    (runcmd c node (table f0 f1 f2 up)).filterMap Event.wait? =
      (waits c node up).map fun x => (x.1, table f0 f1 f2 x.2) := by
  induction c with
  | exec argv =>
    intro node up
    cases argv with
    | nil => rfl
    | cons a as => rfl
  | redir cmd op file ih =>
    intro node up
    rw [runcmd_redir, ih, waits]
  | pipe left right ihl ihr =>
    intro node up
    rw [runcmd_pipe, waits]
    simp only [filterMap_append, ihl, ihr, map_append]
    simp [Event.wait?]
  | list left right ihl ihr =>
    intro node up
    have hl := ihl (.left :: node) (.list node :: up)
    have hr := ihr (.right :: node) (.list node :: up)
    rw [runcmd, waits]
    simp only [filterMap_append, List.filterMap_cons, Event.wait?, map_append, List.map_cons]
    exact congrArg₂ _ hl (congrArg₂ _ rfl hr)
  | back cmd ih =>
    intro node up
    exact ih (.body :: node) (.back node :: up)

end Runs

theorem waits_below (c : Cmd W) : ∀ (node : Place) (up : List (Above W)),
    (∀ x ∈ up, x.node.length < node.length) →
    ∀ w ∈ waits c node up, ∀ x ∈ w.2, x.node.length < w.1.length := by
  -- going down, the node just left is put on top of `up`, and its place is one shorter
  have hdown : ∀ (d : Dir) (node : Place) (up : List (Above W)) (y : Above W), y.node = node →
      (∀ x ∈ up, x.node.length < node.length) →
      ∀ x ∈ y :: up, x.node.length < (d :: node).length := by
    intro d node up y hy hup x hx
    rw [List.length_cons]
    rcases List.mem_cons.mp hx with rfl | hx
    · rw [hy]
      exact Nat.lt_succ_self _
    · exact (hup x hx).trans (Nat.lt_succ_self _)
  induction c with
  | exec argv => exact fun _ _ _ w hw => nomatch hw
  | redir cmd op file ih =>
    intro node up hup
    exact ih _ _ (hdown _ _ _ _ rfl hup)
  | pipe left right ihl ihr =>
    intro node up hup w hw
    simp only [waits, mem_append, mem_cons, List.not_mem_nil, or_false, or_self] at hw
    rcases hw with hw | hw | rfl
    · exact ihl _ (.pipeLeft node :: up) (hdown _ _ _ _ rfl hup) w hw
    · exact ihr _ (.pipeRight node :: up) (hdown _ _ _ _ rfl hup) w hw
    · exact hup
  | list left right ihl ihr =>
    intro node up hup w hw
    simp only [waits, mem_append, mem_cons] at hw
    rcases hw with hw | rfl | hw
    · exact ihl _ (.list node :: up) (hdown _ _ _ _ rfl hup) w hw
    · exact hup
    · exact ihr _ (.list node :: up) (hdown _ _ _ _ rfl hup) w hw
  | back cmd ih =>
    intro node up hup
    exact ih _ _ (hdown _ _ _ _ rfl hup)

theorem waits_of_pipes (c : Cmd W) : ∀ (node : Place) (up : List (Above W)),
    ∀ p ∈ pipes c node, ∃ w ∈ waits c node up, w.1 = p := by
  induction c with
  | exec argv => exact fun _ _ p hp => nomatch hp
  | redir cmd op file ih => exact fun node up => ih _ _
  | pipe left right ihl ihr =>
    intro node up p hp
    simp only [pipes, mem_cons, mem_append] at hp
    simp only [waits, mem_append, mem_cons]
    rcases hp with rfl | hp | hp
    · exact ⟨(p, up), .inr (.inr (.inl rfl)), rfl⟩
    · obtain ⟨w, hw, rfl⟩ := ihl _ (.pipeLeft node :: up) p hp
      exact ⟨w, .inl hw, rfl⟩
    · obtain ⟨w, hw, rfl⟩ := ihr _ (.pipeRight node :: up) p hp
      exact ⟨w, .inr (.inl hw), rfl⟩
  | list left right ihl ihr =>
    intro node up p hp
    simp only [pipes, mem_append] at hp
    simp only [waits, mem_append, mem_cons]
    rcases hp with hp | hp
    · obtain ⟨w, hw, rfl⟩ := ihl _ (.list node :: up) p hp
      exact ⟨w, .inl hw, rfl⟩
    · obtain ⟨w, hw, rfl⟩ := ihr _ (.list node :: up) p hp
      exact ⟨w, .inr (.inr hw), rfl⟩
  | back cmd ih => exact fun node up => ih _ _

theorem findSome_ne {sets : Above W → Option (File W F)} {node : Place} {up : List (Above W)}
    (hsets : ∀ x f, sets x = some f → f ≠ .pipeRead node ∧ f ≠ .pipeWrite node ∨ x.node = node)
    (hup : ∀ x ∈ up, x.node.length < node.length) (f : F) :
    (up.findSome? sets).getD (.inherited f) ≠ .pipeRead node ∧
      (up.findSome? sets).getD (.inherited f) ≠ .pipeWrite node := by
  cases hfind : up.findSome? sets with
  | none => exact ⟨nofun, nofun⟩
  | some g =>
    obtain ⟨x, hx, hg⟩ := List.exists_of_findSome?_eq_some hfind
    rcases hsets x g hg with hne | hnode
    · exact hne
    · have hlt := hup x hx
      rw [hnode] at hlt
      exact absurd hlt (lt_irrefl _)

theorem setsIn_ne (node : Place) (x : Above W) (f : File W F) (h : x.setsIn = some f) :
    f ≠ .pipeRead node ∧ f ≠ .pipeWrite node ∨ x.node = node := by
  cases x with
  | redir n op file =>
    cases op <;> simp only [Above.setsIn, Option.some.injEq, reduceCtorEq] at h
    rw [← h]
    exact .inl ⟨nofun, nofun⟩
  | pipeRight n =>
    by_cases hn : n = node
    · exact .inr hn
    · simp only [Above.setsIn, Option.some.injEq] at h
      rw [← h]
      exact .inl ⟨fun he => hn (File.pipeRead.inj he), nofun⟩
  | pipeLeft n => exact nomatch h
  | list n => exact nomatch h
  | back n => exact nomatch h

theorem setsOut_ne (node : Place) (x : Above W) (f : File W F) (h : x.setsOut = some f) :
    f ≠ .pipeRead node ∧ f ≠ .pipeWrite node ∨ x.node = node := by
  cases x with
  | redir n op file =>
    cases op <;> simp only [Above.setsOut, Option.some.injEq, reduceCtorEq] at h <;>
      rw [← h] <;> exact .inl ⟨nofun, nofun⟩
  | pipeLeft n =>
    by_cases hn : n = node
    · exact .inr hn
    · simp only [Above.setsOut, Option.some.injEq] at h
      rw [← h]
      exact .inl ⟨nofun, fun he => hn (File.pipeWrite.inj he)⟩
  | pipeRight n => exact nomatch h
  | list n => exact nomatch h
  | back n => exact nomatch h

/-- Run from a process with descriptors `0`, `1` and `2`, every leaf of a tree that has a word
    is run with exactly these three open, and set by the nearest node above it that sets
    them. Nothing else is run. Every pipe is waited for, and whoever waits has exactly three
    descriptors open, none of them an end of the pipe of that node. -/
theorem runcmd_wires (c : Cmd W) (f0 f1 f2 : F) :
    (runcmd c [] (three (.inherited f0) (.inherited f1) (.inherited f2))).filterMap Event.exec? =
      ((leaves c [] []).filter fun l => !l.argv.isEmpty).map (fun l =>
        (l.node, l.argv, three (stdin l.up (.inherited f0)) (stdout l.up (.inherited f1))
          (.inherited f2))) ∧ (∀ p ∈ pipes c [], ∃ t,
      .wait p t ∈ runcmd c [] (three (.inherited f0) (.inherited f1) (.inherited f2))) ∧
    ∀ p t, .wait p t ∈ runcmd c [] (three (.inherited f0) (.inherited f1) (.inherited f2)) →
      (∀ fd, (t fd).isSome ↔ fd = 0 ∨ fd = 1 ∨ fd = 2) ∧
      ∀ fd, t fd ≠ some (.pipeRead p) ∧ t fd ≠ some (.pipeWrite p) := by
  have hmem : ∀ p t, .wait p t ∈ runcmd c []
      (three (.inherited f0) (.inherited f1) (.inherited f2) : Ofile (File W F)) ↔
      ∃ w ∈ waits c [] [],
        w.1 = p ∧ table (.inherited f0) (.inherited f1) (.inherited f2) w.2 = t := by
    intro p t
    have hw := waits_runcmd (.inherited f0) (.inherited f1) (.inherited f2) c [] []
    have hiff : (p, t) ∈ (runcmd c [] (table (.inherited f0) (.inherited f1) (.inherited f2)
        [])).filterMap Event.wait? ↔
        .wait p t ∈ runcmd c [] (table (.inherited f0) (.inherited f1) (.inherited f2) []) := by
      rw [List.mem_filterMap]
      constructor
      · rintro ⟨e, he, heq⟩
        cases e with
        | exec n a t' => exact nomatch heq
        | wait n t' =>
          obtain ⟨rfl, rfl⟩ := Prod.mk.inj (Option.some.inj heq)
          exact he
      · exact fun he => ⟨_, he, rfl⟩
    rw [hw] at hiff
    exact hiff.symm.trans (by simp only [List.mem_map, Prod.mk.injEq])
  refine ⟨execs_runcmd _ _ _ c [] [], ?_, ?_⟩
  · intro p hp
    obtain ⟨w, hw, rfl⟩ := waits_of_pipes c [] [] p hp
    exact ⟨_, (hmem _ _).mpr ⟨w, hw, rfl, rfl⟩⟩
  · intro p t ht
    obtain ⟨w, hw, rfl, rfl⟩ := (hmem p t).mp ht
    have hup := waits_below c [] [] (fun _ hx => nomatch hx) w hw
    have hin := findSome_ne (setsIn_ne w.1) hup f0
    have hout := findSome_ne (setsOut_ne w.1) hup f1
    constructor
    · intro fd
      simp only [table, three]
      split_ifs with h0 h1 h2 <;> simp_all
    · intro fd
      simp only [table, three]
      split_ifs
      · exact ⟨fun h => hin.1 (Option.some.inj h), fun h => hin.2 (Option.some.inj h)⟩
      · exact ⟨fun h => hout.1 (Option.some.inj h), fun h => hout.2 (Option.some.inj h)⟩
      · exact ⟨nofun, nofun⟩
      · exact ⟨nofun, nofun⟩

end Xv6.Sh
