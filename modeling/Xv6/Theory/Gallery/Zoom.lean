import Xv6.Theory.Gallery.Buffers

/-!
# Zooming In and Out

`i` doubles an `int` and `o` halves it again where it is more than one. What a run does to `zoom`
depends on its messages alone (`run_zoom`): `depth` counts how far they zoom in, and `zoom` is two
to that power while the count stays below 31. The next doubling makes it negative, the one after
that zero, for good.

## Theorems

* `Gallery.zoom_reversible_iff`: when `k` times `o` undo `k` times `i`
-/

namespace Xv6.Gallery

open Int32 (ofInt)
open List (foldl_cons replicate)

variable {g g' : Gallery} {io : Io} {c : Cmd} {z : Int32} {d k : Nat} {es : List (UInt8 × Io)}

/-- What a message does to `zoom`. -/
def zoomed (z : Int32) (e : UInt8 × Io) : Int32 :=
  match Cmd.ofMsg e.1 with
  | .r => 1
  | .i => z * 2
  | .o => if 1 < z then z / 2 else z
  | _ => z

/-- How often `zoom` has been doubled, not counting what was halved again. -/
def depth (d : Nat) (e : UInt8 × Io) : Nat :=
  match Cmd.ofMsg e.1 with
  | .r => 0
  | .i => d + 1
  | .o => d - 1
  | _ => d

/-- A power of two. -/
def Doubled (z : Int32) : Prop := ∃ k : Nat, z.toInt = 2 ^ k

/-- The values of `zoom` after an overflow. -/
def Stuck (z : Int32) : Prop := z = -2147483648 ∨ z = 0

section Process

theorem OnlyScreen.zoom (h : OnlyScreen g g') : g'.zoom = g.zoom := by
  obtain ⟨sc, rfl⟩ := h
  rfl

theorem OnlyMem.zoom (h : OnlyMem g g') : g'.zoom = g.zoom := by
  obtain ⟨m, rfl⟩ := h
  rfl

theorem rrotate_zoom (hs : g.rrotate = .ok g') : g'.zoom = g.zoom := by
  obtain ⟨m, rfl⟩ := rrotate_eq hs
  rfl

theorem imgread_zoom (hs : g.imgread io = .ok g') : g'.zoom = g.zoom := by
  obtain ⟨m, s, q, r, o, rfl⟩ := imgread_eq hs
  rfl

theorem command_zoom {msg : UInt8} (hs : g.command io (Cmd.ofMsg msg) = .ok g') :
    g'.zoom = zoomed g.zoom (msg, io) := by
  unfold zoomed
  cases hc : Cmd.ofMsg msg with
  | r =>
    obtain ⟨t, ht, hsc⟩ := thenDraw_eq (hc ▸ hs)
    exact hsc.zoom.trans (imgread_zoom ht)
  | h =>
    obtain ⟨t, ht, hsc⟩ := thenDraw_eq (hc ▸ hs)
    exact hsc.zoom.trans (hflip_onlyMem ht).zoom
  | v =>
    obtain ⟨t, ht, hsc⟩ := thenDraw_eq (hc ▸ hs)
    exact hsc.zoom.trans (vflip_onlyMem ht).zoom
  | o =>
    simp only [hc, command] at hs
    split_ifs at hs with hz
    · simp only [if_pos hz]
      exact (draw_onlyScreen hs).zoom
    · simp only [if_neg hz]
      cases hs
      rfl
  | d =>
    obtain ⟨t, ht, hsc⟩ := thenDraw_eq (hc ▸ hs)
    have hkeep : t.zoom = g.zoom := Loop.upto_keeps (I := fun t => t.zoom = g.zoom) ht rfl
      fun _ _ _ _ ht hs => (rrotate_zoom hs).trans ht
    exact hsc.zoom.trans hkeep
  | f =>
    obtain ⟨t, ht, hsc⟩ := thenDraw_eq (hc ▸ hs)
    exact hsc.zoom.trans (rrotate_zoom ht)
  | i | up | down | right | left =>
    rw [hc] at hs
    exact (draw_onlyScreen hs).zoom
  | x | other =>
    rw [hc] at hs
    cases hs
    rfl

theorem run_zoom (hs : es.foldl event (.running g) = .running g') :
    g'.zoom = es.foldl zoomed g.zoom := by
  induction es generalizing g with
  | nil =>
    cases hs
    rfl
  | cons e es ih =>
    obtain ⟨msg, io⟩ := e
    rw [foldl_cons] at hs ⊢
    cases hev : event (.running g) (msg, io) with
    | exited l =>
      rw [hev, event_exited_eq] at hs
      cases hs
    | running g2 =>
      rw [hev] at hs
      rw [ih hs]
      rcases event_running hev with ⟨hmsg, rfl⟩ | hcmd
      · have hnone : Cmd.ofMsg msg = .other := by
          rw [hmsg]
          decide
        simp only [zoomed, hnone]
      · rw [command_zoom hcmd]

theorem zooms_run (hbuf : g.Buffer g.pixels)
    (hes : ∀ e ∈ es, Cmd.ofMsg e.1 = .i ∨ Cmd.ofMsg e.1 = .o) :
    ∃ t, es.foldl event (.running g) = .running t := by
  induction es generalizing g with
  | nil => exact ⟨g, rfl⟩
  | cons e es ih =>
    obtain ⟨msg, io⟩ := e
    have hcmd : Cmd.ofMsg msg = .i ∨ Cmd.ofMsg msg = .o := hes _ List.mem_cons_self
    have hstep : ∃ t, g.command io (Cmd.ofMsg msg) = .ok t ∧ t.Buffer t.pixels := by
      have hdraw : ∀ z, ∃ t, draw { g with zoom := z } = .ok t ∧ t.Buffer t.pixels := by
        intro z
        obtain ⟨t, ht, sc, rfl⟩ := draw_ok (g := { g with zoom := z }) hbuf
        exact ⟨_, ht, hbuf⟩
      rcases hcmd with hc | hc
      · rw [hc]
        exact hdraw (g.zoom * 2)
      · simp only [hc, command]
        split_ifs
        · exact hdraw (g.zoom / 2)
        · exact ⟨g, rfl, hbuf⟩
    obtain ⟨t, hs, ht⟩ := hstep
    have hne : msg ≠ 0 ∧ Cmd.ofMsg msg ≠ .x := by
      rcases hcmd with hc | hc <;> refine ⟨?_, ?_⟩ <;> intro h
      all_goals
        rw [h] at hc
        exact absurd hc (by decide)
    rw [foldl_cons, event_of_command hne.1 hne.2 hs]
    exact ih ht fun e he => hes e (List.mem_cons_of_mem _ he)

end Process

section Powers

theorem eq_ofInt (hz : z.toInt = 2 ^ d) : z = ofInt (2 ^ d) := by
  rw [← hz, Int32.ofInt_toInt]

theorem zoomed_doubled (hz : z.toInt = 2 ^ d) (hd : d ≤ 30) (e : UInt8 × Io) :
    depth d e ≤ 30 ∧ (zoomed z e).toInt = 2 ^ depth d e ∨ depth d e = 31 ∧ Stuck (zoomed z e) := by
  have hin : ∀ d < 31, d + 1 ≤ 30 ∧ (ofInt (2 ^ d) * 2).toInt = 2 ^ (d + 1) ∨
      d + 1 = 31 ∧ ofInt (2 ^ d) * 2 = -2147483648 := by decide
  have hout : ∀ d < 31, (if 1 < ofInt (2 ^ d) then ofInt (2 ^ d) / 2
      else ofInt (2 ^ d)).toInt = 2 ^ (d - 1) := by decide
  unfold zoomed depth
  cases Cmd.ofMsg e.1 with
  | r => exact .inl ⟨Nat.zero_le 30, rfl⟩
  | i =>
    rw [eq_ofInt hz]
    exact (hin d (by omega)).imp id fun h => ⟨h.1, .inl h.2⟩
  | o =>
    rw [eq_ofInt hz]
    exact .inl ⟨show d - 1 ≤ 30 by omega, hout d (by omega)⟩
  | _ => exact .inl ⟨hd, hz⟩

theorem Stuck.not_doubled (h : Stuck z) : ¬ Doubled z := by
  rintro ⟨k, hk⟩
  have hpos : (0 : Int) < 2 ^ k := Int.pow_pos (by decide)
  rw [← hk] at hpos
  rcases h with rfl | rfl <;> exact absurd hpos (by decide)

theorem foldl_doubled (hz : z.toInt = 2 ^ d) (hd : d ≤ 30) :
    (∀ p, p <+: es → p.foldl depth d ≤ 30 ∧ (p.foldl zoomed z).toInt = 2 ^ p.foldl depth d) ∨
      ∃ p, p <+: es ∧ 30 < p.foldl depth d ∧ Stuck (p.foldl zoomed z) := by
  induction es generalizing z d with
  | nil =>
    left
    intro p hp
    rw [List.prefix_nil.mp hp]
    exact ⟨hd, hz⟩
  | cons e es ih =>
    have hcons : ∀ {p}, p <+: es → e :: p <+: e :: es :=
      fun hp => List.cons_prefix_cons.mpr ⟨rfl, hp⟩
    rcases zoomed_doubled hz hd e with ⟨hle, hz'⟩ | ⟨heq, hstuck⟩
    · rcases ih hz' hle with hall | ⟨p, hp, hgt⟩
      · left
        intro p hp
        rcases List.prefix_cons_iff.mp hp with rfl | ⟨q, rfl, hq⟩
        · exact ⟨hd, hz⟩
        · exact hall q hq
      · exact .inr ⟨e :: p, hcons hp, hgt⟩
    · exact .inr ⟨[e], hcons List.nil_prefix, by rw [foldl_cons, heq]; decide, hstuck⟩

theorem doubled_iff (hz : z.toInt = 2 ^ d) (hd : d ≤ 30) :
    (∀ p, p <+: es → Doubled (p.foldl zoomed z)) ↔ ∀ p, p <+: es → p.foldl depth d ≤ 30 := by
  rcases foldl_doubled hz hd with hall | ⟨p, hp, hgt, hstuck⟩
  · exact iff_of_true (fun p hp => ⟨_, (hall p hp).2⟩) fun p hp => (hall p hp).1
  · exact iff_of_false (fun h => hstuck.not_doubled (h p hp)) fun h => absurd (h p hp) (by omega)

theorem Stuck.foldl (h : Stuck z) (hes : ∀ e ∈ es, Cmd.ofMsg e.1 = .i ∨ Cmd.ofMsg e.1 = .o) :
    Stuck (es.foldl zoomed z) := by
  induction es generalizing z with
  | nil => exact h
  | cons e es ih =>
    refine ih ?_ fun e he => hes e (List.mem_cons_of_mem _ he)
    unfold zoomed
    rcases hes e List.mem_cons_self with hc | hc <;> rw [hc] <;> rcases h with rfl | rfl
    · exact .inr (by decide)
    · exact .inr (by decide)
    · exact .inl (by decide)
    · exact .inr (by decide)

end Powers

section Reversal

theorem ofMsg_i : Cmd.ofMsg 0x69 = .i := by decide

theorem ofMsg_o : Cmd.ofMsg 0x6f = .o := by decide

/-- `k` times `i`, then `k` times `o`. -/
def inAndOut (io : Io) (k : Nat) : List (UInt8 × Io) :=
  replicate k (0x69, io) ++ replicate k (0x6f, io)

theorem mem_inAndOut {e : UInt8 × Io} (he : e ∈ inAndOut io k) :
    Cmd.ofMsg e.1 = .i ∨ Cmd.ofMsg e.1 = .o := by
  rcases List.mem_append.mp he with h | h
  · rw [List.eq_of_mem_replicate h]
    exact .inl ofMsg_i
  · rw [List.eq_of_mem_replicate h]
    exact .inr ofMsg_o

theorem ins_zoom (hz : z.toInt = 2 ^ d) (hd : d ≤ 30) (io : Io) (k : Nat) :
    d + k ≤ 30 ∧ ((replicate k (0x69, io)).foldl zoomed z).toInt = 2 ^ (d + k) ∨
      30 < d + k ∧ Stuck ((replicate k (0x69, io)).foldl zoomed z) := by
  induction k generalizing z d with
  | zero => exact .inl ⟨hd, hz⟩
  | succ k ih =>
    rw [List.replicate_succ, foldl_cons, show d + (k + 1) = d + 1 + k by omega]
    rcases zoomed_doubled hz hd (0x69, io) with ⟨hle, hz'⟩ | ⟨heq, hstuck⟩
    · exact ih hz' hle
    · have hd' : d + 1 = 31 := heq
      refine .inr ⟨by omega, hstuck.foldl fun e he => ?_⟩
      rw [List.eq_of_mem_replicate he]
      exact .inl ofMsg_i

theorem outs_zoom (hz : z.toInt = 2 ^ (d + k)) (hd : d + k ≤ 30) (io : Io) :
    ((replicate k (0x6f, io)).foldl zoomed z).toInt = 2 ^ d := by
  induction k generalizing z with
  | zero => exact hz
  | succ k ih =>
    rw [List.replicate_succ, foldl_cons]
    have hless : depth (d + (k + 1)) (0x6f, io) = d + k := rfl
    rcases zoomed_doubled hz hd (0x6f, io) with ⟨-, hz'⟩ | ⟨heq, -⟩
    · exact ih (hless ▸ hz') (by omega)
    · omega

theorem inAndOut_iff (hz : z.toInt = 2 ^ d) (hd : d ≤ 30) (io : Io) (k : Nat) :
    (inAndOut io k).foldl zoomed z = z ↔ d + k ≤ 30 := by
  rw [inAndOut, List.foldl_append]
  rcases ins_zoom hz hd io k with ⟨hle, hin⟩ | ⟨hgt, hstuck⟩
  · refine iff_of_true (Int32.toInt_inj.mp ?_) hle
    rw [outs_zoom hin hle, hz]
  · refine iff_of_false (fun h => ?_) (by omega)
    have hend : Stuck ((replicate k (0x6f, io)).foldl zoomed
        ((replicate k (0x69, io)).foldl zoomed z)) := by
      refine hstuck.foldl fun e he => ?_
      rw [List.eq_of_mem_replicate he]
      exact .inr ofMsg_o
    exact (h ▸ hend).not_doubled ⟨d, hz⟩

theorem exists_of_prefix {p : List (UInt8 × Io)} (hp : p <+: es)
    (hs : es.foldl event (.running g) = .running g') :
    ∃ t, p.foldl event (.running g) = .running t := by
  obtain ⟨q, rfl⟩ := hp
  rw [List.foldl_append] at hs
  cases hrun : p.foldl event (.running g) with
  | running t => exact ⟨t, rfl⟩
  | exited l =>
    rw [hrun, event_exited_eq] at hs
    cases hs

/-- In a run from the first load on, `zoom` is a power of two, and so nothing to divide by zero,
    exactly for as long as it has not been doubled more than 30 times over. From such a state
    `k` times `i` and `k` times `o` can be run, and they bring `zoom` back exactly when the count
    stays below 31 on the way. -/
theorem zoom_reversible_iff {g0 g1 : Gallery} (hzoom : g0.zoom = 1)
    (hmain : main g0 io = .running g1) (hrun : es.foldl event (.running g1) = .running g) :
    ((∀ p t, p <+: es → p.foldl event (.running g1) = .running t → Doubled t.zoom ∧ t.zoom ≠ 0) ↔
        ∀ p, p <+: es → p.foldl depth 0 ≤ 30) ∧ ((∀ p, p <+: es → p.foldl depth 0 ≤ 30) → ∀ io k,
        (g.Buffer g.pixels → ∃ t, (inAndOut io k).foldl event (.running g) = .running t) ∧
        ∀ t, (inAndOut io k).foldl event (.running g) = .running t →
          (t.zoom = g.zoom ↔ es.foldl depth 0 + k ≤ 30)) := by
  have hone : g1.zoom = 1 := by
    obtain ⟨t, sc, ht, rfl⟩ := main_running hmain
    exact (imgread_zoom ht).trans hzoom
  have hfirst : (1 : Int32).toInt = 2 ^ 0 := by decide
  refine ⟨?_, fun hdepth io k => ⟨fun hbuf => zooms_run hbuf fun e => mem_inAndOut, ?_⟩⟩
  · rw [← doubled_iff hfirst (Nat.zero_le 30), ← hone]
    constructor
    · intro h p hp
      obtain ⟨t, ht⟩ := exists_of_prefix hp hrun
      rw [← run_zoom ht]
      exact (h p t hp ht).1
    · intro h p t hp ht
      have hz := h p hp
      rw [← run_zoom ht] at hz
      exact ⟨hz, fun hzero => Stuck.not_doubled (.inr hzero) hz⟩
  · intro t ht
    have hz : g.zoom.toInt = 2 ^ es.foldl depth 0 := by
      rw [run_zoom hrun, hone]
      rcases foldl_doubled hfirst (Nat.zero_le 30) with hall | ⟨p, hp, hgt, -⟩
      · exact (hall es (List.prefix_refl es)).2
      · exact absurd (hdepth p hp) (by omega)
    rw [run_zoom ht]
    exact inAndOut_iff hz (hdepth es (List.prefix_refl es)) io k

theorem buffer_dot (h : main blank dot = .running g) : g.Buffer g.pixels := by
  obtain ⟨t, sc, ht, rfl⟩ := main_running h
  obtain ⟨hpa, hbuf, -⟩ := imgread_buffers (image_dot blank).toFits ht
  exact hpa ▸ hbuf

theorem zoom_reversible_dot : ∃ g t, main blank dot = .running g ∧
    (inAndOut dot 30).foldl event (.running g) = .running t ∧ t.zoom = g.zoom := by
  obtain ⟨g, hg⟩ := main_blank
  have hnil : [].foldl event (.running g) = .running g := rfl
  have hiff := (zoom_reversible_iff rfl hg hnil).2
    (fun p hp => by rw [List.prefix_nil.mp hp]; decide) dot 30
  obtain ⟨t, ht⟩ := hiff.1 (buffer_dot hg)
  exact ⟨g, t, hg, ht, (hiff.2 t ht).mpr (by decide)⟩

theorem zoom_lost : ∃ g t u, main blank dot = .running g ∧ g.zoom = 1 ∧
    (replicate 32 (0x69, dot)).foldl event (.running g) = .running t ∧ t.zoom = 0 ∧
    (inAndOut dot 32).foldl event (.running g) = .running u ∧ u.zoom = 0 := by
  obtain ⟨g, hg⟩ := main_blank
  have hrun : ∃ u, (inAndOut dot 32).foldl event (.running g) = .running u :=
    zooms_run (buffer_dot hg) fun e => mem_inAndOut
  obtain ⟨u, hu⟩ := hrun
  obtain ⟨t, ht⟩ := exists_of_prefix (List.prefix_append _ _) hu
  have hone : g.zoom = 1 := by
    obtain ⟨r, sc, hr, rfl⟩ := main_running hg
    exact imgread_zoom hr
  refine ⟨g, t, u, hg, hone, ht, ?_, hu, ?_⟩
  · rw [run_zoom ht, hone]
    decide +kernel
  · rw [run_zoom hu, hone]
    decide +kernel

end Reversal

end Xv6.Gallery
