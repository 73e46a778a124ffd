import Xv6.Theory.Gallery.Mirror

/-!
# Giving the Keyboard Back

The kernel sends keys to the viewer until it calls `listenmsgs(0)`, after its event loop, so
every other way out of the loop leaves the console deaf. There are some: the error exits of
`imgread`, when a reset finds no file, no descriptor or nothing to read, and a page fault,
when a rotation stores behind the last page. `deaf_console` takes the first.

## Theorems

* `Gallery.keyboard_given_back`: runs in which no call fails give it back
* `Gallery.deaf_console`: a reset without the file does not
-/

namespace Xv6.Gallery

variable {g g' : Gallery} {io : Io} {msg : UInt8} {c : Cmd}

/-- The picture has its memory, in one of the two buffers, and the keys come here. -/
structure Safe (g : Gallery) : Prop where
  listening : g.listening = 1
  pixels : g.pixels = g.pa ∨ g.pixels = g.pb
  first : g.Buffer g.pa
  second : g.Buffer g.pb

/-- Every call made for a reset succeeds, and rotations have room for two pixels more. -/
structure Served (g : Gallery) (io : Io) (c : Cmd) : Prop where
  reset : c = .r → Answers g io
  right : c = .f → g.Roomy g.newPixels
  left : c = .d → g.Roomy g.pa ∧ g.Roomy g.pb

theorem Safe.current (h : Safe g) : g.Buffer g.pixels := by
  rcases h.pixels with heq | heq
  · rw [heq]
    exact h.first
  · rw [heq]
    exact h.second

theorem Safe.view (h : Safe g) (sc : Screen) (x y z : Int32) :
    Safe { g with screen := sc, xpos := x, ypos := y, zoom := z } :=
  ⟨h.listening, h.pixels, h.first, h.second⟩

theorem Safe.mem (h : Safe g) (m : Nat → UInt8) : Safe { g with mem := m } :=
  ⟨h.listening, h.pixels, h.first, h.second⟩

theorem Safe.rrotate (h : Safe g) (hs : g.rrotate = .ok g') : Safe g' := by
  obtain ⟨m, rfl⟩ := rrotate_eq hs
  refine ⟨h.listening, ?_, h.first.turned rfl rfl rfl, h.second.turned rfl rfl rfl⟩
  dsimp only [newPixels]
  split_ifs
  · exact .inr rfl
  · exact .inl rfl

theorem safe_imgread (h : Fits g io) (hl : g.listening = 1) (hs : g.imgread io = .ok g') :
    Safe g' := by
  obtain ⟨hpa, hfirst, hsecond⟩ := imgread_buffers h hs
  exact ⟨(imgread_listening hs).trans hl, .inl hpa, hfirst, hsecond⟩

theorem Roomy.turned {q : Nat} (h : g.Roomy q) (hw : g'.width = g.height)
    (hh : g'.height = g.width) (hsz : g'.sz = g.sz) : g'.Roomy q := by
  intro hpos hpos'
  rw [hw, hh, hsz, Int.mul_comm g.height]
  exact h (by omega) (by omega)

theorem lrotate_ok (h : Safe g) (hroom : g.Roomy g.pa ∧ g.Roomy g.pb) :
    ∃ t, g.lrotate = .ok t ∧ Safe t := by
  have hloop : ∃ t, g.lrotate = .ok t ∧ Safe t ∧ t.Roomy t.pa ∧ t.Roomy t.pb := by
    refine Loop.upto_reaches (J := fun _ t => Safe t ∧ t.Roomy t.pa ∧ t.Roomy t.pb) ⟨h, hroom⟩ ?_
    rintro i - t ⟨ht, hpa, hpb⟩
    have hnew : t.Roomy t.newPixels := by
      unfold newPixels
      split_ifs
      · exact hpb
      · exact hpa
    obtain ⟨t', ht'⟩ := rrotate_ok ht.current hnew
    obtain ⟨m, heq⟩ := rrotate_eq ht'
    refine ⟨t', ht', ht.rrotate ht', ?_⟩
    rw [heq]
    exact ⟨hpa.turned rfl rfl rfl, hpb.turned rfl rfl rfl⟩
  obtain ⟨t, ht, hsafe, -⟩ := hloop
  exact ⟨t, ht, hsafe⟩

theorem thenDraw_safe {r : Except Stop Gallery} (h : ∃ t, r = .ok t ∧ Safe t) :
    ∃ g', thenDraw r = .ok g' := by
  obtain ⟨t, rfl, ht⟩ := h
  obtain ⟨g', hg', -⟩ := thenDraw_ok ht.current
  exact ⟨g', hg'⟩

theorem command_ok (h : Safe g) (hok : Served g io c) : ∃ g', g.command io c = .ok g' := by
  have hview : ∀ x y z, ∃ g', draw { g with xpos := x, ypos := y, zoom := z } = .ok g' := by
    intro x y z
    obtain ⟨g', hg', -⟩ := draw_ok (h.view g.screen x y z).current
    exact ⟨g', hg'⟩
  have hflip : ∀ {t}, OnlyMem g t → Safe t := by
    rintro t ⟨m, rfl⟩
    exact h.mem m
  cases c with
  | r =>
    obtain ⟨t, g', -, hg', -⟩ := reset_ok (hok.reset rfl)
    exact ⟨g', hg'⟩
  | h =>
    obtain ⟨t, ht, hmem, -⟩ := hflip_ok h.current
    exact thenDraw_safe ⟨t, ht, hflip hmem⟩
  | v =>
    obtain ⟨t, ht, hmem, -⟩ := vflip_ok h.current
    exact thenDraw_safe ⟨t, ht, hflip hmem⟩
  | i => exact hview g.xpos g.ypos (g.zoom * 2)
  | o =>
    simp only [command]
    split_ifs
    · exact hview g.xpos g.ypos (g.zoom / 2)
    · exact ⟨g, rfl⟩
  | up => exact hview g.xpos (g.ypos - 8) g.zoom
  | down => exact hview g.xpos (g.ypos + 8) g.zoom
  | right => exact hview (g.xpos + 8) g.ypos g.zoom
  | left => exact hview (g.xpos - 8) g.ypos g.zoom
  | d => exact thenDraw_safe (lrotate_ok h (hok.left rfl))
  | f =>
    obtain ⟨t, ht⟩ := rrotate_ok h.current (hok.right rfl)
    exact thenDraw_safe ⟨t, ht, h.rrotate ht⟩
  | x => exact ⟨g, rfl⟩
  | other => exact ⟨g, rfl⟩

theorem safe_command (h : Safe g) (hok : Served g io c) (hs : g.command io c = .ok g') :
    Safe g' := by
  refine command_keeps h (fun t sc x y z ht => ht.view sc x y z) (fun t m ht => ht.mem m)
    (fun t t' ht hr => ht.rrotate hr) (fun t' hc ht' => ?_) hs
  have hans := hok.reset hc
  have hfits : Fits { g with xpos := 0, ypos := 0, zoom := 1 } io :=
    ⟨hans.roomA, hans.roomB, hans.size⟩
  exact safe_imgread hfits h.listening ht'

theorem safe_runs (h : Runs Served g) : Safe g := by
  induction h with
  | start hmain _ hok =>
    obtain ⟨t, sc, ht, rfl⟩ := main_running hmain
    obtain ⟨hpa, hfirst, hsecond⟩ := imgread_buffers (hok.reset rfl).toFits ht
    exact ⟨rfl, .inl hpa, hfirst, hsecond⟩
  | event _ he hok ih =>
    rcases event_running he with ⟨-, rfl⟩ | hs
    · exact ih
    · exact safe_command ih hok hs

/-- In a run in which every call made for a load succeeds and every rotation has room for the
    two pixels it writes behind its buffer, the process leaves the event loop only after
    `listenmsgs(0)`. -/
theorem keyboard_given_back {l : Int} (h : Runs Served g) (hok : Served g io (Cmd.ofMsg msg))
    (he : event (.running g) (msg, io) = .exited l) : l = 0 := by
  rcases event_exited he with hzero | ⟨-, e, herr⟩
  · exact hzero
  · obtain ⟨g', hg'⟩ := command_ok (safe_runs h) hok
    rw [herr] at hg'
    cases hg'

theorem keyboard_given_back_dot : ∃ g l, main blank dot = .running g ∧
    event (.running g) (0x78, dot) = .exited l ∧ l = 0 := by
  obtain ⟨g, hg⟩ := main_blank
  have hruns : Runs Served g := .start hg rfl
    ⟨fun _ => answers_dot (by decide) (by decide), fun hc => absurd hc (by decide),
      fun hc => absurd hc (by decide)⟩
  have hexit : event (.running g) (0x78, dot) = .exited 0 := rfl
  exact ⟨g, 0, hg, hexit, keyboard_given_back hruns
    ⟨fun hc => absurd hc (by decide), fun hc => absurd hc (by decide),
      fun hc => absurd hc (by decide)⟩ hexit⟩

/-- A file that is not there any more. -/
def gone : Io := { dot with found := false }

/-- The reset ends the process, and the keys still go to it. -/
theorem deaf_console : ∃ g, main blank dot = .running g ∧
    event (.running g) (0x72, gone) = .exited 1 := by
  obtain ⟨g, hg⟩ := main_blank
  obtain ⟨t, sc, -, rfl⟩ := main_running hg
  exact ⟨_, hg, rfl⟩

end Xv6.Gallery
