import Xv6.Core.Setpixel
import Mathlib.Tactic.IntervalCases

/-!
# Where Pixels Go

A call of `sys_setpixel` that nobody disturbs checks its coordinates, reads its colour and
stores it at its pixel. `At` says what the shared variables hold before each of its
statements, and `exec_next` takes it through all of them, so the call comes to its end and
the store at the end is the one that was asked for.

## Theorems

* `Setpixel.setpixel_confined`: calls that do not overlap store on the screen
* `Setpixel.store_off_screen`: two that overlap do not
-/

namespace Xv6.Setpixel

open Function (update update_self update_of_ne)
open Nat (lt_succ_self)

namespace Args

def x (a : Args) : Int32 := a.a0.toUInt32.toInt32

def y (a : Args) : Int32 := a.a1.toUInt32.toInt32

/-- The colour as it is passed, red first. -/
def rgb (a : Args) : Nat → Int32
  | 0 => a.a2.toUInt32.toInt32
  | 1 => a.a3.toUInt32.toInt32
  | _ => a.a4.toUInt32.toInt32

/-- The pixel is on the screen. -/
def InBounds (a : Args) : Prop := 0 ≤ a.x ∧ 0 ≤ a.y ∧ a.x < WIDTH ∧ a.y < HEIGHT

instance (a : Args) : Decidable a.InBounds := inferInstanceAs (Decidable (_ ∧ _ ∧ _ ∧ _))

/-- The place of the pixel in the frame buffer. -/
def offset (a : Args) : Int := WIDTH.toInt * a.y.toInt + a.x.toInt

/-- The index of the closest colour. -/
def colour (a : Args) : UInt8 :=
  let green := a.rgb 1 / 8
  (a.rgb 0 - a.rgb 0 % 64 + (green - green % 4) + a.rgb 2 / 64).toInt8.toUInt8

end Args

/-- A whole call: its own colour at its own pixel, or nothing. -/
def draw (mem : Int → UInt8) (a : Args) : Int → UInt8 :=
  if a.InBounds then update mem (FRAMEBUFFER + a.offset) a.colour else mem

/-- Between the first statement and the store. -/
def Pc.Inside : Pc → Prop
  | .idle => False
  | .argx => False
  | .ret => False
  | .exited => False
  | _ => True

/-- The checked coordinates are those of the call. -/
structure OnScreen (a : Args) (v : Statics) : Prop where
  x : v.x = a.x
  y : v.y = a.y
  bounds : a.InBounds

/-- The variables before a statement of a call that nobody disturbs. -/
def At (a : Args) (v : Statics) : Pc → Prop
  | .argy => v.x = a.x
  | .check => v.x = a.x ∧ v.y = a.y
  | .init => OnScreen a v
  | .test => OnScreen a v ∧ ∃ n ≤ 3, v.i = Int32.ofNat n ∧ ∀ k < n, v.rgb k = a.rgb k
  | .arg => OnScreen a v ∧ ∃ n < 3, v.i = Int32.ofNat n ∧ ∀ k < n, v.rgb k = a.rgb k
  | .incr => OnScreen a v ∧ ∃ n < 3, v.i = Int32.ofNat n ∧ ∀ k < n + 1, v.rgb k = a.rgb k
  | .red => OnScreen a v ∧ ∀ k < 3, v.rgb (k : Nat) = a.rgb k
  | .green => OnScreen a v ∧ v.rgb 0 = a.rgb 0 - a.rgb 0 % 64 ∧ v.rgb 1 = a.rgb 1 ∧
      v.rgb 2 = a.rgb 2
  | .greenLow => OnScreen a v ∧ v.rgb 0 = a.rgb 0 - a.rgb 0 % 64 ∧ v.rgb 1 = a.rgb 1 / 8 ∧
      v.rgb 2 = a.rgb 2
  | .blue => OnScreen a v ∧ v.rgb 0 = a.rgb 0 - a.rgb 0 % 64 ∧
      v.rgb 1 = a.rgb 1 / 8 - a.rgb 1 / 8 % 4 ∧ v.rgb 2 = a.rgb 2
  | .store => OnScreen a v ∧ v.val = a.colour
  | _ => True

/-- A bound on the statements that are left. -/
def togo (v : Statics) : Pc → Nat
  | .argx => 20
  | .argy => 19
  | .check => 18
  | .init => 17
  | .test => 7 + 3 * (3 - v.i.toInt).toNat
  | .arg => 6 + 3 * (3 - v.i.toInt).toNat
  | .incr => 5 + 3 * (3 - v.i.toInt).toNat
  | .red => 6
  | .green => 5
  | .greenLow => 4
  | .blue => 3
  | .store => 2
  | .ret => 1
  | .idle => 0
  | .exited => 0

/-- What follows a statement of an undisturbed call: another one, an exit where the pixel is
    off the screen, or the end of the call where it is stored. -/
inductive Next (a : Args) (v : Statics) : Pc → Effect → Prop
  | inside {x : Pc} (hx : x.Inside) (h : At a v x) : Next a v x .quiet
  | exit (h : ¬ a.InBounds) : Next a v .exited .exit
  | store (h : a.InBounds) : Next a v .ret (.store (FRAMEBUFFER + a.offset) a.colour)

section Statements

variable {a : Args} {v : Statics}

theorem offset_bounds (h : a.InBounds) : 0 ≤ a.offset ∧ a.offset < WIDTH.toInt * HEIGHT.toInt := by
  obtain ⟨hx0, hy0, hx, hy⟩ := h
  have h0 : (0 : Int32).toInt = 0 := rfl
  have hw : WIDTH.toInt = 320 := rfl
  have hh : HEIGHT.toInt = 200 := rfl
  rw [Int32.le_iff_toInt_le, h0] at hx0 hy0
  rw [Int32.lt_iff_toInt_lt, hw] at hx
  rw [Int32.lt_iff_toInt_lt, hh] at hy
  unfold Args.offset
  rw [hw, hh]
  omega

theorem addr_eq (h : OnScreen a v) : v.addr = FRAMEBUFFER + a.offset := by
  obtain ⟨-, hy0, -, hy⟩ := h.bounds
  have h0 : (0 : Int32).toInt = 0 := rfl
  have hw : WIDTH.toInt = 320 := rfl
  have hh : HEIGHT.toInt = 200 := rfl
  rw [Int32.le_iff_toInt_le, h0] at hy0
  rw [Int32.lt_iff_toInt_lt, hh] at hy
  have hmul : (WIDTH * a.y).toInt = WIDTH.toInt * a.y.toInt := by
    rw [Int32.toInt_mul, hw]
    apply Int.bmod_eq_of_le <;> omega
  unfold Statics.addr Args.offset
  rw [h.x, h.y, hmul, Int.add_assoc]

theorem outside_iff (hx : v.x = a.x) (hy : v.y = a.y) : v.Outside ↔ ¬ a.InBounds := by
  unfold Statics.Outside Args.InBounds
  rw [hx, hy]
  simp only [Int32.lt_iff_toInt_lt, Int32.le_iff_toInt_le]
  omega

theorem OnScreen.setRgb (h : OnScreen a v) (k : Int) (c : Int32) : OnScreen a (v.setRgb k c) :=
  ⟨h.x, h.y, h.bounds⟩

theorem argint_rgb {n : Nat} (h : n < 3) : argint a (Int32.ofNat n + 2) = some (a.rgb n) := by
  interval_cases n <;> rfl

theorem exec_test (h : At a v .test) :
    ∃ v' x, v.exec a .test = some (v', x, .quiet) ∧ Next a v' x .quiet ∧
      togo v' x < togo v .test := by
  obtain ⟨hon, n, hn, hi, hrgb⟩ := h
  unfold Statics.exec
  -- `i` is the number of colours read so far.
  by_cases hlt : n < 3
  · have hlt32 : v.i < 3 := by
      rw [hi]
      interval_cases n <;> decide
    refine ⟨v, .arg, if_pos hlt32, .inside trivial ⟨hon, n, hlt, hi, hrgb⟩, ?_⟩
    simp only [togo]
    omega
  · obtain rfl : n = 3 := by omega
    have hge : ¬ v.i < 3 := by
      rw [hi]
      decide
    refine ⟨v, .red, if_neg hge, .inside trivial ⟨hon, hrgb⟩, ?_⟩
    simp only [togo]
    omega

theorem exec_arg (h : At a v .arg) :
    ∃ v' x, v.exec a .arg = some (v', x, .quiet) ∧ Next a v' x .quiet ∧
      togo v' x < togo v .arg := by
  obtain ⟨hon, n, hn, hi, hrgb⟩ := h
  have hidx : v.i.toInt = (n : Int) := by
    rw [hi]
    interval_cases n <;> rfl
  refine ⟨v.setRgb v.i.toInt (a.rgb n), .incr, ?_, .inside trivial ⟨hon.setRgb _ _, n, hn, hi, ?_⟩,
    ?_⟩
  · simp only [Statics.exec, hi, argint_rgb hn, Option.map_some]
  · -- The new cell is the last one, the others keep what they have.
    intro k hk
    simp only [Statics.setRgb, hidx]
    by_cases hkn : k = n
    · rw [hkn, update_self]
    · have hne : (k : Int) ≠ n := by omega
      rw [update_of_ne hne]
      exact hrgb k (by omega)
  · simp only [togo, Statics.setRgb]
    omega

theorem exec_incr (h : At a v .incr) :
    ∃ v' x, v.exec a .incr = some (v', x, .quiet) ∧ Next a v' x .quiet ∧
      togo v' x < togo v .incr := by
  obtain ⟨hon, n, hn, hi, hrgb⟩ := h
  have hnext : v.i + 1 = Int32.ofNat (n + 1) := by
    rw [hi]
    interval_cases n <;> rfl
  refine ⟨{ v with i := v.i + 1 }, .test, rfl,
    .inside trivial ⟨⟨hon.x, hon.y, hon.bounds⟩, n + 1, hn, hnext, hrgb⟩, ?_⟩
  simp only [togo, hi]
  interval_cases n <;> decide

theorem exec_next {x : Pc} (hx : x = .argx ∨ x.Inside) (h : At a v x) :
    ∃ v' x' e, v.exec a x = some (v', x', e) ∧ Next a v' x' e ∧ togo v' x' < togo v x := by
  cases x with
  | argx => exact ⟨_, _, _, rfl, .inside trivial rfl, lt_succ_self _⟩
  | argy => exact ⟨_, _, _, rfl, .inside trivial ⟨h, rfl⟩, lt_succ_self _⟩
  | check =>
    -- The test is about the statics, which are still the arguments of this call.
    unfold Statics.exec
    by_cases hout : v.Outside
    · exact ⟨v, .exited, .exit, if_pos hout, .exit ((outside_iff h.1 h.2).mp hout),
        Nat.zero_lt_succ _⟩
    · have hin : a.InBounds := by
        by_contra hin
        exact hout ((outside_iff h.1 h.2).mpr hin)
      exact ⟨v, .init, .quiet, if_neg hout, .inside trivial ⟨h.1, h.2, hin⟩, lt_succ_self _⟩
  | init =>
    refine ⟨_, _, _, rfl, .inside trivial ⟨⟨h.x, h.y, h.bounds⟩, 0, by decide, rfl, ?_⟩, ?_⟩
    · intro k hk
      omega
    · exact lt_succ_self 16
  | test =>
    obtain ⟨v', x', hrest⟩ := exec_test h
    exact ⟨v', x', _, hrest⟩
  | arg =>
    obtain ⟨v', x', hrest⟩ := exec_arg h
    exact ⟨v', x', _, hrest⟩
  | incr =>
    obtain ⟨v', x', hrest⟩ := exec_incr h
    exact ⟨v', x', _, hrest⟩
  | red =>
    obtain ⟨hon, hrgb⟩ := h
    have h0 : v.rgb 0 = a.rgb 0 := hrgb 0 (by decide)
    refine ⟨_, _, _, rfl, .inside trivial ⟨hon.setRgb _ _, ?_, hrgb 1 (by decide),
      hrgb 2 (by decide)⟩, lt_succ_self _⟩
    rw [← h0]
    rfl
  | green =>
    obtain ⟨hon, h0, h1, h2⟩ := h
    refine ⟨_, _, _, rfl, .inside trivial ⟨hon.setRgb _ _, h0, ?_, h2⟩, lt_succ_self _⟩
    rw [← h1]
    rfl
  | greenLow =>
    obtain ⟨hon, h0, h1, h2⟩ := h
    refine ⟨_, _, _, rfl, .inside trivial ⟨hon.setRgb _ _, h0, ?_, h2⟩, lt_succ_self _⟩
    rw [← h1]
    rfl
  | blue =>
    obtain ⟨hon, h0, h1, h2⟩ := h
    refine ⟨_, _, _, rfl, .inside trivial ⟨hon.setRgb _ _, ?_⟩, lt_succ_self _⟩
    simp only [Statics.val, Args.colour, ← h0, ← h1, ← h2]
    rfl
  | store =>
    obtain ⟨hon, hval⟩ := h
    refine ⟨v, .ret, _, rfl, ?_, lt_succ_self _⟩
    rw [addr_eq hon, hval]
    exact .store hon.bounds
  | idle => exact absurd hx (by rintro (hx | hx) <;> cases hx)
  | ret => exact absurd hx (by rintro (hx | hx) <;> cases hx)
  | exited => exact absurd hx (by rintro (hx | hx) <;> cases hx)

end Statements

section Runs

variable {P : Type} [DecidableEq P] {s s' : Sys P} {mem : Int → UInt8} {p : P}

/-- The step is the first statement of a call, with another call not yet at its end. -/
def Overlaps (s : Sys P) : Act P → Prop
  | .run p => s.pc p = .argx ∧ ∃ q, (s.pc q).Inside
  | _ => False

/-- Reached by steps in which calls take turns. -/
inductive Turns (mem : Int → UInt8) : Sys P → Prop
  | init : Turns mem (Sys.init P mem)
  | step {s s' : Sys P} {a : Act P} (h : Turns mem s) (hs : step s a = some s')
      (ha : ¬ Overlaps s a) : Turns mem s'

/-- The stores that a list of calls should make. -/
def wanted (as : List Args) : List (Int × UInt8) :=
  (as.filter fun a => a.InBounds).map fun a => (FRAMEBUFFER + a.offset, a.colour)

/-- One call at most has begun, it is undisturbed, and the calls before it have done what
    they should. -/
structure Orderly (mem : Int → UInt8) (s : Sys P) : Prop where
  alone : ∀ p q, (s.pc p).Inside → (s.pc q).Inside → p = q
  undisturbed : ∀ p, (s.pc p).Inside → At (s.args p) s.vars (s.pc p)
  calm : s.panicked = false
  stores : s.stores = wanted s.done
  mem : s.mem = s.done.foldl draw mem

variable {x : Pc} {v : Statics} {e : Effect}

theorem Orderly.outside (h : Orderly mem s) (hx : ¬ x.Inside)
    (hpc : s'.pc = update s.pc p x) (hargs : ∀ q, q ≠ p → s'.args q = s.args q)
    (hvars : s'.vars = s.vars) (hcalm : s'.panicked = s.panicked) (hstores : s'.stores = s.stores)
    (hdone : s'.done = s.done) (hmem : s'.mem = s.mem) : Orderly mem s' := by
  have hback : ∀ q, (s'.pc q).Inside → q ≠ p ∧ s'.pc q = s.pc q := by
    intro q hq
    rw [hpc] at hq ⊢
    by_cases hqp : q = p
    · rw [hqp, update_self] at hq
      exact absurd hq hx
    · exact ⟨hqp, update_of_ne hqp _ _⟩
  refine ⟨fun q r hq hr => ?_, fun q hq => ?_, hcalm.trans h.calm, ?_, ?_⟩
  · exact h.alone q r ((hback q hq).2 ▸ hq) ((hback r hr).2 ▸ hr)
  · obtain ⟨hqp, heq⟩ := hback q hq
    rw [heq] at hq ⊢
    rw [hargs q hqp, hvars]
    exact h.undisturbed q hq
  · rw [hstores, hdone, h.stores]
  · rw [hmem, hdone, h.mem]

theorem Orderly.after (h : Orderly mem s)
    (hothers : ∀ q, q ≠ p → ¬ (s.pc q).Inside) (hnext : Next (s.args p) v x e) :
    Orderly mem (s.after p v x e) := by
  -- After the step `p` is the only one that can be inside.
  have honly : ∀ q, (update s.pc p x q).Inside → q = p := by
    intro q hq
    by_contra hqp
    rw [update_of_ne hqp] at hq
    exact hothers q hqp hq
  have halone : ∀ q r, (update s.pc p x q).Inside → (update s.pc p x r).Inside → q = r := by
    intro q r hq hr
    rw [honly q hq, honly r hr]
  cases hnext with
  | inside hx hat =>
    refine ⟨halone, fun q hq => ?_, h.calm, h.stores, h.mem⟩
    obtain rfl := honly q hq
    simp only [Sys.after, Sys.apply, update_self]
    exact hat
  | exit hout =>
    -- A call outside the screen counts as done, and nothing was wanted of it.
    refine ⟨halone, fun q hq => ?_, h.calm, ?_, ?_⟩
    · obtain rfl := honly q hq
      have hpc : (s.after q v .exited .exit).pc q = .exited := update_self q _ s.pc
      rw [hpc] at hq
      cases hq
    · have hfilter : wanted (s.done ++ [s.args p]) = wanted s.done := by
        simp [wanted, hout]
      exact h.stores.trans hfilter.symm
    · have hfold : (s.done ++ [s.args p]).foldl draw mem = s.done.foldl draw mem := by
        simp [draw, hout]
      exact h.mem.trans hfold.symm
  | store hin =>
    refine ⟨halone, fun q hq => ?_, h.calm, ?_, ?_⟩
    · obtain rfl := honly q hq
      have hpc : (s.after q v .ret (.store (FRAMEBUFFER + (s.args q).offset)
        (s.args q).colour)).pc q = .ret := update_self q _ s.pc
      rw [hpc] at hq
      cases hq
    · simp only [Sys.after, Sys.apply, h.stores, wanted]
      simp [hin]
    · simp only [Sys.after, Sys.apply, h.mem, List.foldl_append]
      simp [draw, hin]

theorem Orderly.run (h : Orderly mem s) (hi : s.pc p ≠ .idle) (he : s.pc p ≠ .exited) :
    ∃ v x e, step s (.run p) = some (s.after p v x e) ∧ togo v x < togo s.vars (s.pc p) ∧
      (s.pc p = .ret ∧ v = s.vars ∧ x = .idle ∧ e = .quiet ∨
        (s.pc p = .argx ∨ (s.pc p).Inside) ∧ Next (s.args p) v x e) := by
  have hgo : ¬ (s.panicked = true ∨ s.pc p = .idle ∨ s.pc p = .exited) := by
    rintro (hx | hx | hx)
    · rw [h.calm] at hx
      cases hx
    · exact hi hx
    · exact he hx
  have hstep : ∀ {v x e}, s.vars.exec (s.args p) (s.pc p) = some (v, x, e) →
      step s (.run p) = some (s.after p v x e) := by
    intro v x e hexec
    simp only [step, if_neg hgo, hexec]
  by_cases hret : s.pc p = .ret
  · refine ⟨s.vars, .idle, .quiet, hstep ?_, ?_, .inl ⟨hret, rfl, rfl, rfl⟩⟩
    · rw [hret]
      rfl
    · rw [hret]
      exact Nat.zero_lt_one
  · have hcall : s.pc p = .argx ∨ (s.pc p).Inside := by
      cases hpc : s.pc p
      all_goals first | exact absurd hpc hi | exact absurd hpc he | exact absurd hpc hret | skip
      · exact .inl rfl
      all_goals exact .inr trivial
    have hat : At (s.args p) s.vars (s.pc p) := by
      rcases hcall with hx | hx
      · rw [hx]
        trivial
      · exact h.undisturbed p hx
    obtain ⟨v, x, e, hexec, hnext, hless⟩ := exec_next hcall hat
    exact ⟨v, x, e, hstep hexec, hless, .inr ⟨hcall, hnext⟩⟩

theorem orderly_step {a : Act P} (h : Orderly mem s) (hs : step s a = some s')
    (ha : ¬ Overlaps s a) : Orderly mem s' := by
  cases a with
  | call p a =>
    simp only [step] at hs
    split_ifs at hs with hp
    cases hs
    exact h.outside (x := .argx) id rfl (fun q hqp => update_of_ne hqp _ _)
      rfl rfl rfl rfl
      rfl
  | run p =>
    have hgo : s.pc p ≠ .idle ∧ s.pc p ≠ .exited := by grind [step]
    obtain ⟨v, x, e, hrun, -, hcase⟩ := h.run hgo.1 hgo.2
    rw [hrun] at hs
    cases hs
    rcases hcase with ⟨-, rfl, rfl, rfl⟩ | ⟨hcall, hnext⟩
    · exact h.outside (x := .idle) id rfl (fun _ _ => rfl) rfl rfl rfl rfl rfl
    · refine h.after (fun q hqp hq => ?_) hnext
      rcases hcall with hx | hx
      · exact ha ⟨hx, q, hq⟩
      · exact hqp (h.alone q p hq hx)

theorem orderly_turns (h : Turns mem s) : Orderly mem s := by
  induction h with
  | init =>
    refine ⟨?_, ?_, rfl, rfl, rfl⟩
    · intro p q hp
      cases hp
    · intro p hp
      cases hp
  | step _ hs ha ih => exact orderly_step ih hs ha

theorem pc_run (hs : step s (.run p) = some s') {q : P} (hq : q ≠ p) : s'.pc q = s.pc q := by
  simp only [step] at hs
  split_ifs at hs
  split at hs
  · cases hs
    rfl
  next v x e _ =>
    cases hs
    cases e <;> exact update_of_ne hq x s.pc

theorem Turns.solo (h : Turns mem s) (hothers : ∀ q, q ≠ p → ¬ (s.pc q).Inside) (n : Nat)
    (hs : steps s (List.replicate n (.run p)) = some s') : Turns mem s' := by
  induction n generalizing s with
  | zero =>
    cases hs
    exact h
  | succ n ih =>
    rw [List.replicate_succ, steps] at hs
    split at hs
    · cases hs
    next s1 hrun =>
      refine ih (h.step hrun ?_) ?_ hs
      · rintro ⟨hx, q, hq⟩
        by_cases hqp : q = p
        · rw [hqp, hx] at hq
          cases hq
        · exact hothers q hqp hq
      · intro q hqp
        rw [pc_run hrun hqp]
        exact hothers q hqp

/-- A statement that ends a call has drawn or has found the pixel off the screen. -/
theorem exec_ends {v' : Statics} {a : Args} {x' : Pc}
    (h : v.exec a x = some (v', x', e)) (hx : x' = .ret ∨ x' = .exited) : e ≠ .quiet := by
  rintro rfl
  cases x <;> simp only [Statics.exec, Option.map_eq_some_iff] at h <;> grind

theorem done_after (v : Statics) (x : Pc) (he : e ≠ .quiet) :
    (s.after p v x e).done = s.done ++ [s.args p] := by
  cases e with
  | quiet => exact absurd rfl he
  | store | exit => rfl

/-- A call that returns or has ended its process has been noted. -/
theorem done_of_ended (h : Turns mem s) :
    ∀ p, s.pc p = .ret ∨ s.pc p = .exited → s.args p ∈ s.done := by
  induction h with
  | init =>
    rintro p (hp | hp) <;> cases hp
  | @step s _ a _ hs _ ih =>
    intro q hq
    cases a with
    | call p b =>
      simp only [step] at hs
      split_ifs at hs
      cases hs
      simp only [Function.update_apply] at hq ⊢
      grind
    | run p =>
      simp only [step] at hs
      split_ifs at hs
      split at hs
      · cases hs
        exact ih q hq
      next v x e hexec =>
        cases hs
        have hargs : (s.after p v x e).args = s.args := by cases e <;> rfl
        have hpc : (s.after p v x e).pc = update s.pc p x := by cases e <;> rfl
        rw [hpc, Function.update_apply] at hq
        rw [hargs]
        by_cases hqp : q = p
        · rw [if_pos hqp] at hq
          rw [done_after v x (exec_ends hexec hq), hqp]
          exact List.mem_append_right _ (List.mem_singleton_self _)
        · rw [if_neg hqp] at hq
          have hmem := ih q hq
          cases e with
          | quiet => exact hmem
          | store | exit => exact List.mem_append_left _ hmem

/-- In a run in which calls take turns, every store goes to a pixel of the frame buffer. The
    calls that have come to their end have each stored their own colour at their own pixel
    where it is on the screen and nothing else, the display shows what they draw one after the
    other, a call that returns is one of them, and every other call can go on towards its end
    and becomes one. -/
theorem setpixel_confined (h : Turns mem s) :
    (∀ st ∈ s.stores, ∃ k : Int, 0 ≤ k ∧ k < WIDTH.toInt * HEIGHT.toInt ∧ st.1 = FRAMEBUFFER + k) ∧
    s.stores = (s.done.filter fun a => a.InBounds).map
      (fun a => (FRAMEBUFFER + a.offset, a.colour)) ∧
    s.mem = s.done.foldl draw mem ∧
    (∀ p, s.pc p = .ret ∨ s.pc p = .exited → s.args p ∈ s.done) ∧
    ∀ p, s.pc p ≠ .idle → s.pc p ≠ .exited → ∃ s', step s (.run p) = some s' ∧
      s'.panicked = false ∧ togo s'.vars (s'.pc p) < togo s.vars (s.pc p) ∧
      (s'.pc p = .idle → s.pc p = .ret) := by
  have ho := orderly_turns h
  refine ⟨?_, ho.stores, ho.mem, done_of_ended h, ?_⟩
  · intro st hst
    rw [ho.stores, wanted, List.mem_map] at hst
    obtain ⟨a, ha, rfl⟩ := hst
    have hin : a.InBounds := by simpa using (List.mem_filter.mp ha).2
    exact ⟨a.offset, (offset_bounds hin).1, (offset_bounds hin).2, rfl⟩
  · intro p hi he
    obtain ⟨v, x, e, hrun, hless, hcase⟩ := ho.run hi he
    have hpc : (s.after p v x e).pc p = x := by
      cases e <;> exact update_self p x s.pc
    have hvars : (s.after p v x e).vars = v := by
      cases e <;> rfl
    have hcalm : (s.after p v x e).panicked = false := by
      cases e <;> exact ho.calm
    refine ⟨_, hrun, hcalm, ?_, ?_⟩
    · rw [hpc, hvars]
      exact hless
    · rw [hpc]
      rintro rfl
      rcases hcase with ⟨hret, -⟩ | ⟨-, hnext⟩
      · exact hret
      · cases hnext with
        | inside hx => cases hx

end Runs

/-- A call that draws on the screen, and one that asks for a row behind the last one. -/
def first : Args := ⟨0, 0, 255, 255, 255, 0⟩

def second : Args := ⟨0, 200, 255, 255, 255, 0⟩

theorem setpixel_confined_first : ∃ s : Sys Bool, Turns (fun _ => 0) s ∧
    s.stores = [(FRAMEBUFFER + first.offset, first.colour)] ∧ s.mem = draw (fun _ => 0) first := by
  have hcall : Turns (fun _ => 0) _ := Turns.init.step (P := Bool) (a := .call true first) rfl id
  have hend : Turns _ _ := hcall.solo (p := true) (fun q hq hin => by cases q <;> trivial) 19 rfl
  exact ⟨_, hend, rfl, (setpixel_confined hend).2.2.1⟩

/-- The first call passes the check, the second one sets `x` and `y`, and the first goes on. -/
def tangled : List (Act Bool) :=
  [.call true first, .run true, .run true, .run true, .call false second, .run false, .run false] ++
    List.replicate 16 (.run true)

/-- The first call, whose pixel is on the screen, stores behind the frame buffer. -/
theorem store_off_screen : first.InBounds ∧ ∃ s, steps (Sys.init Bool fun _ => 0) tangled = some s ∧
    s.done = [first] ∧ s.stores = [(FRAMEBUFFER + WIDTH.toInt * HEIGHT.toInt, first.colour)] := by
  refine ⟨by decide, _, rfl, rfl, rfl⟩

end Xv6.Setpixel
