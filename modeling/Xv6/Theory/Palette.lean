import Mathlib.Data.List.GetD
import Xv6.Theory.Setpixel

/-!
# Pixels in the Colours of the Palette

`vgainit` numbers its colours in the order of three loops: 32 numbers to a level of red, four to a
level of green, one to a level of blue. `sys_setpixel` works out the number again. Green and blue
come out as the closest level that is not above the one asked for. Red is rounded down to a
multiple of 64, so every other level of red is never used.

## Theorems

* `Setpixel.matches_colour_iff`, `Setpixel.setpixel_matches_iff`
-/

namespace Xv6.Setpixel

open Function (update update_self update_of_ne)

/-- `l` is the largest level not above `v`. -/
def Best (k v l : Nat) : Prop := l ∈ levels k ∧ l ≤ v ∧ ∀ m ∈ levels k, m ≤ v → m ≤ l

instance decidableBest (k v l : Nat) : Decidable (Best k v l) :=
  inferInstanceAs (Decidable (_ ∧ _ ∧ _))

/-- The colour with number `i` is the best one for red, green and blue out of 256. -/
def Matches (c : Nat → Nat) (i : UInt8) : Prop :=
  Best 8 (c 0 / 4) (entry i.toNat).1 ∧ Best 8 (c 1 / 4) (entry i.toNat).2.1 ∧
    Best 16 (c 2 / 4) (entry i.toNat).2.2

section Numbers

variable {a : Args} {c : Nat → Nat}

theorem getD_flatMap {α : Type} {f : α → List Nat} {n j : Nat} (hf : ∀ a, (f a).length = n)
    (hj : j < n) (l : List α) (i : Nat) (hi : i < l.length) :
    (l.flatMap f).getD (n * i + j) 0 = (f l[i]).getD j 0 := by
  induction l generalizing i with
  | nil => cases hi
  | cons a l ih =>
    rw [List.flatMap_cons]
    cases i with
    | zero =>
      rw [Nat.mul_zero, Nat.zero_add, List.getD_append _ _ _ _ (by rw [hf]; exact hj)]
      rfl
    | succ i =>
      have hskip : n * (i + 1) + j = n + (n * i + j) := by
        rw [Nat.mul_succ]
        omega
      rw [hskip, List.getD_append_right _ _ _ _ (by rw [hf]; omega), hf, Nat.add_sub_cancel_left]
      exact ih i (Nat.lt_of_succ_lt_succ hi)

theorem entry_eq {i j k : Nat} (hi : i < 8) (hj : j < 8) (hk : k < 4) :
    entry (32 * i + 4 * j + k) = (8 * i, 8 * j, 16 * k) := by
  have hloops : vgainit = (List.range 256).flatMap fun n =>
      [8 * (n / 32), 8 * (n / 4 % 8), 16 * (n % 4)] := by decide +kernel
  have hbyte : ∀ c < 3, vgainit.getD (3 * (32 * i + 4 * j + k) + c) 0 =
      [8 * i, 8 * j, 16 * k].getD c 0 := by
    intro c hc
    rw [hloops, getD_flatMap (n := 3) (fun _ => rfl) hc _ _ (by rw [List.length_range]; omega),
      List.getElem_range, show (32 * i + 4 * j + k) / 32 = i by omega,
      show (32 * i + 4 * j + k) / 4 % 8 = j by omega, show (32 * i + 4 * j + k) % 4 = k by omega]
  exact Prod.ext (hbyte 0 (by decide)) (Prod.ext (hbyte 1 (by decide)) (hbyte 2 (by decide)))

theorem red_eq : ∀ r < 256, Int32.ofNat r - Int32.ofNat r % 64 = Int32.ofNat (64 * (r / 64)) := by
  decide +kernel

theorem green_eq : ∀ g < 256, Int32.ofNat g / 8 - Int32.ofNat g / 8 % 4 =
    Int32.ofNat (4 * (g / 32)) := by
  decide +kernel

theorem blue_eq : ∀ b < 256, Int32.ofNat b / 64 = Int32.ofNat (b / 64) := by
  decide +kernel

theorem toUInt8_ofNat : ∀ n < 256, (Int32.ofNat n).toInt8.toUInt8.toNat = n := by
  decide +kernel

theorem colour_eq (hc : ∀ k < 3, c k < 256 ∧ a.rgb k = Int32.ofNat (c k)) :
    a.colour.toNat = 32 * (2 * (c 0 / 64)) + 4 * (c 1 / 32) + c 2 / 64 := by
  obtain ⟨hr, hred⟩ := hc 0 (by decide)
  obtain ⟨hg, hgreen⟩ := hc 1 (by decide)
  obtain ⟨hb, hblue⟩ := hc 2 (by decide)
  simp only [Args.colour, hred, hgreen, hblue, red_eq _ hr, green_eq _ hg, blue_eq _ hb,
    ← Int32.ofNat_add]
  rw [toUInt8_ofNat _ (by omega)]
  omega

theorem matches_colour_iff (hc : ∀ k < 3, c k < 256 ∧ a.rgb k = Int32.ofNat (c k)) :
    Matches c a.colour ↔ c 0 % 64 < 32 := by
  have hred : ∀ r < 256, Best 8 (r / 4) (8 * (2 * (r / 64))) ↔ r % 64 < 32 := by decide +kernel
  have hgreen : ∀ g < 256, Best 8 (g / 4) (8 * (g / 32)) := by decide +kernel
  have hblue : ∀ b < 256, Best 16 (b / 4) (16 * (b / 64)) := by decide +kernel
  have h0 := (hc 0 (by decide)).1
  have h1 := (hc 1 (by decide)).1
  have h2 := (hc 2 (by decide)).1
  rw [Matches, colour_eq hc, entry_eq (by omega) (by omega) (by omega), hred _ h0]
  exact and_iff_left ⟨hgreen _ h1, hblue _ h2⟩

end Numbers

section Calls

variable {P : Type} [DecidableEq P] {s : Sys P} {mem : Int → UInt8} {p : P} {a : Args}

theorem Turns.finish (h : Turns mem s) (hothers : ∀ q, q ≠ p → ¬ (s.pc q).Inside)
    (hargs : s.args p = a) (ha : a.InBounds) (hpc : s.pc p = .argx ∨ (s.pc p).Inside) :
    ∃ n s', steps s (List.replicate n (.run p)) = some s' ∧ s'.pc p = .idle ∧
      s'.mem = update s.mem (FRAMEBUFFER + a.offset) a.colour := by
  induction hn : togo s.vars (s.pc p) using Nat.strong_induction_on generalizing s with
  | _ m ih =>
    have hi : s.pc p ≠ .idle := by
      intro hx
      rw [hx] at hpc
      rcases hpc with hx | hx <;> cases hx
    have he : s.pc p ≠ .exited := by
      intro hx
      rw [hx] at hpc
      rcases hpc with hx | hx <;> cases hx
    obtain ⟨v, x, e, hrun, hless, ⟨hret, -⟩ | ⟨-, hnext⟩⟩ := (orderly_turns h).run hi he
    · rw [hret] at hpc
      rcases hpc with hx | hx <;> cases hx
    · have hturn : Turns mem (s.after p v x e) :=
        h.solo hothers 1 (by simp only [List.replicate, steps, hrun])
      rw [hargs] at hnext
      cases hnext with
      | inside hx hat =>
        have hpc' : (s.after p v x .quiet).pc p = x := by
          exact update_self p x s.pc
        have hothers' : ∀ q, q ≠ p → ¬ ((s.after p v x .quiet).pc q).Inside := by
          intro q hq
          rw [pc_run hrun hq]
          exact hothers q hq
        obtain ⟨n, s', hsteps, hidle, hmem⟩ := ih (togo v x) (hn ▸ hless) hturn hothers' hargs
          (.inr (hpc'.symm ▸ hx)) (by rw [hpc']; rfl)
        refine ⟨n + 1, s', ?_, hidle, hmem⟩
        simp only [List.replicate_succ, steps, hrun, hsteps]
      | exit hout => exact absurd ha hout
      | store hin =>
        -- What is left is `return 0`.
        have hpc' : (s.after p v .ret (.store (FRAMEBUFFER + a.offset) a.colour)).pc p = .ret := by
          exact update_self p .ret s.pc
        obtain ⟨w, y, f, hlast, -, ⟨-, -, rfl, rfl⟩ | ⟨hcall, -⟩⟩ :=
          (orderly_turns hturn).run (p := p) (by rw [hpc']; decide) (by rw [hpc']; decide)
        · refine ⟨2, (s.after p v .ret (.store (FRAMEBUFFER + a.offset) a.colour)).after p w .idle
            .quiet, ?_, ?_, rfl⟩
          · simp only [List.replicate, steps, hrun, hlast]
          · exact update_self p .idle (update s.pc p .ret)
        · rw [hpc'] at hcall
          rcases hcall with hx | hx <;> cases hx

/-- A call on the screen with a colour out of 256 levels, by a process that has the system call to
    itself: it returns, the one byte of its pixel is changed, and the number there is that of the
    best colour exactly where red is less than 32 above a multiple of 64. -/
theorem setpixel_matches_iff (h : Turns mem s) (hidle : s.pc p = .idle)
    (hothers : ∀ q, q ≠ p → ¬ (s.pc q).Inside) (ha : a.InBounds) {c : Nat → Nat}
    (hc : ∀ k < 3, c k < 256 ∧ a.rgb k = Int32.ofNat (c k)) :
    ∃ n s' i, steps s (.call p a :: List.replicate n (.run p)) = some s' ∧ s'.pc p = .idle ∧
      s'.mem = update s.mem (FRAMEBUFFER + a.offset) i ∧ (Matches c i ↔ c 0 % 64 < 32) := by
  have hcall : step s (.call p a) =
      some { s with pc := update s.pc p .argx, args := update s.args p a } :=
    if_pos ⟨(orderly_turns h).calm, hidle⟩
  have hothers' : ∀ q, q ≠ p → ¬ (update s.pc p .argx q).Inside := by
    intro q hq
    rw [update_of_ne hq]
    exact hothers q hq
  obtain ⟨n, s', hsteps, hend, hmem⟩ := (h.step hcall id).finish hothers'
    (update_self p a s.args) ha (.inl (update_self p .argx s.pc))
  refine ⟨n, s', a.colour, ?_, hend, hmem, matches_colour_iff hc⟩
  simp only [steps, hcall, hsteps]

theorem setpixel_matches_dark : ∃ n s' i,
    steps (Sys.init Bool fun _ => 0) (.call true ⟨1, 0, 31, 255, 255, 0⟩ ::
      List.replicate n (.run true)) = some s' ∧ s'.mem = update (fun _ => 0) (FRAMEBUFFER + 1) i ∧
    Matches (fun k => if k = 0 then 31 else 255) i := by
  have hinit : Turns (fun _ => 0) (Sys.init Bool fun _ => 0) := .init
  obtain ⟨n, s', i, hsteps, -, hmem, hiff⟩ := setpixel_matches_iff (p := true)
    (a := ⟨1, 0, 31, 255, 255, 0⟩) (c := fun k => if k = 0 then 31 else 255) hinit rfl
    (fun _ _ => id) (by decide) (by decide)
  exact ⟨n, s', i, hsteps, hmem, hiff.mpr (by decide)⟩

theorem red_too_dark : ∃ s, steps (Sys.init Bool fun _ => 0)
      (.call true first :: List.replicate 19 (.run true)) = some s ∧
    s.mem FRAMEBUFFER = 223 ∧ entry 223 = (48, 56, 48) ∧ 56 ∈ levels 8 ∧
    ¬ Matches (fun _ => 255) (s.mem FRAMEBUFFER) := by
  refine ⟨_, rfl, rfl, by decide +kernel, by decide, fun h => ?_⟩
  exact absurd h.1 (by decide +kernel)

end Calls

end Xv6.Setpixel
