import Xv6.Core.Gallery
import Mathlib.Tactic.Linarith
import Mathlib.Tactic.Ring

/-!
# What the Viewer's Functions Touch

The functions of the viewer go over the picture in loops of loads and stores, any of which
could end the process. This module says once what they leave alone and when they come to
their end.

Those that change pixels leave alone everything but the memory, and `draw` everything but
the display; both are equations between records. They come to their end as soon as the
buffer they work on lies in the memory of the process. A rotation goes two pixels further
than the picture, and so needs two pixels more.

## Theorems

* `Gallery.draw_ok`, `Gallery.rrotate_eq`
-/

namespace Xv6.Gallery

open Loop (upto_keeps upto_reaches)

variable {g g' : Gallery} {x y u v : Int} {p : Pixel}

/-- The pixel of the picture at column `x` of row `y`. -/
def px (g : Gallery) (x y : Int) : Pixel := pixelAt g.mem (index g.pixels (y * g.width + x))

/-- There is memory for the picture at `q`. -/
def Buffer (g : Gallery) (q : Nat) : Prop :=
  0 < g.width → 0 < g.height → (q : Int) + 3 * (g.width * g.height) ≤ g.sz

def OnlyMem (g g' : Gallery) : Prop := ∃ m, g' = { g with mem := m }

def OnlyScreen (g g' : Gallery) : Prop := ∃ sc, g' = { g with screen := sc }

theorem OnlyMem.refl (g : Gallery) : OnlyMem g g := ⟨g.mem, rfl⟩

variable {g1 g2 g3 : Gallery}

theorem OnlyMem.trans : OnlyMem g1 g2 → OnlyMem g2 g3 → OnlyMem g1 g3 := by
  rintro ⟨m, rfl⟩ ⟨m', rfl⟩
  exact ⟨m', rfl⟩

theorem OnlyScreen.refl (g : Gallery) : OnlyScreen g g := ⟨g.screen, rfl⟩

theorem OnlyScreen.trans :
    OnlyScreen g1 g2 → OnlyScreen g2 g3 → OnlyScreen g1 g3 := by
  rintro ⟨sc, rfl⟩ ⟨sc', rfl⟩
  exact ⟨sc', rfl⟩

section Bytes

theorem le_pgRoundUp (n : Nat) : n ≤ pgRoundUp n := by
  unfold pgRoundUp
  simp only [PGSIZE]
  omega

theorem pixelAt_setPixelAt_self (mem : Nat → UInt8) (addr : Nat) (p : Pixel) :
    pixelAt (setPixelAt mem addr p) addr = p := by
  simp [pixelAt, setPixelAt]

theorem pixelAt_setPixelAt_of_ne (mem : Nat → UInt8) {addr other : Nat} (p : Pixel)
    (h : addr + 3 ≤ other ∨ other + 3 ≤ addr) :
    pixelAt (setPixelAt mem addr p) other = pixelAt mem other := by
  unfold pixelAt setPixelAt
  congr 1 <;> (split_ifs <;> first | omega | rfl)

end Bytes

section Coordinates

theorem inside_iff : ¬ g.Outside x y ↔ (0 ≤ x ∧ x < g.width) ∧ 0 ≤ y ∧ y < g.height := by
  unfold Outside
  omega

theorem coord_lt {w h : Int} (hx : 0 ≤ x ∧ x < w) (hy : 0 ≤ y ∧ y < h) :
    0 ≤ y * w + x ∧ y * w + x < w * h := by
  have hw : 0 ≤ w := by omega
  have hrow : 0 ≤ y * w := Int.mul_nonneg hy.1 hw
  have hrest : 0 ≤ (h - 1 - y) * w := Int.mul_nonneg (by omega) hw
  have hsplit : w * h = (h - 1 - y) * w + y * w + w := by ring
  omega

theorem coord_inj {w : Int} (hx : 0 ≤ x ∧ x < w) (hu : 0 ≤ u ∧ u < w)
    (h : y * w + x = v * w + u) : x = u ∧ y = v := by
  have hcol : ∀ {a b : Int}, 0 ≤ a ∧ a < w → (b * w + a) % w = a := by
    intro a b ha
    rw [Int.add_comm, Int.add_mul_emod_self_right]
    exact Int.emod_eq_of_lt ha.1 ha.2
  have hxu : x = u := by
    rw [← hcol (b := y) hx, h, hcol hu]
  have hw : w ≠ 0 := by omega
  refine ⟨hxu, Int.eq_of_mul_eq_mul_right hw ?_⟩
  omega

end Coordinates

section Pixels

theorem index_apart {q : Nat} {j k : Int} (hj : 0 ≤ j) (hk : 0 ≤ k) (h : j ≠ k) :
    index q j + 3 ≤ index q k ∨ index q k + 3 ≤ index q j := by
  unfold index
  omega

theorem Buffer.mapped {q : Nat} (h : g.Buffer q) {k : Int} (hk : 0 ≤ k)
    (hlt : k < g.width * g.height) (hw : 0 < g.width) (hh : 0 < g.height) :
    index q k + 3 ≤ pgRoundUp g.sz := by
  have hend := h hw hh
  have hround := le_pgRoundUp g.sz
  unfold index
  omega

theorem getPixel_ok (h : g.Buffer g.pixels) (hin : ¬ g.Outside x y) :
    g.getPixel x y = .ok (g.px x y) := by
  obtain ⟨hx, hy⟩ := inside_iff.mp hin
  obtain ⟨h0, hlt⟩ := coord_lt hx hy
  unfold getPixel load
  rw [if_neg hin, if_pos (h.mapped h0 hlt (by omega) (by omega))]
  rfl

theorem getPixel_total (h : g.Buffer g.pixels) (x y : Int) : ∃ p, g.getPixel x y = .ok p := by
  by_cases hout : g.Outside x y
  · exact ⟨_, if_pos hout⟩
  · exact ⟨_, getPixel_ok h hout⟩

theorem setPixel_ok (h : g.Buffer g.pixels) (hin : ¬ g.Outside x y) (p : Pixel) :
    ∃ m, g.setPixel x y p = .ok { g with mem := m } ∧ ∀ u v, ¬ g.Outside u v →
        px { g with mem := m } u v = if u = x ∧ v = y then p else g.px u v := by
  obtain ⟨hx, hy⟩ := inside_iff.mp hin
  obtain ⟨h0, hlt⟩ := coord_lt hx hy
  refine ⟨setPixelAt g.mem (index g.pixels (y * g.width + x)) p, ?_, fun u v huv => ?_⟩
  · unfold setPixel store
    rw [if_neg hin, if_pos (h.mapped h0 hlt (by omega) (by omega))]
  · obtain ⟨hu, hv⟩ := inside_iff.mp huv
    obtain ⟨h0', -⟩ := coord_lt hu hv
    unfold px
    split_ifs with heq
    · rw [heq.1, heq.2]
      exact pixelAt_setPixelAt_self _ _ _
    · have hne : y * g.width + x ≠ v * g.width + u := by
        intro hx'
        obtain ⟨hxu, hyv⟩ := coord_inj hx hu hx'
        exact heq ⟨hxu.symm, hyv.symm⟩
      exact pixelAt_setPixelAt_of_ne _ _ (index_apart h0 h0' hne)

theorem swap_ok (h : g.Buffer g.pixels) (hin : ¬ g.Outside x y) (huv : ¬ g.Outside u v) :
    ∃ m, g.swap x y u v = .ok { g with mem := m } ∧ ∀ s t, ¬ g.Outside s t →
        px { g with mem := m } s t =
          if s = u ∧ t = v then g.px x y else if s = x ∧ t = y then g.px u v else g.px s t := by
  obtain ⟨m, hset, hpx⟩ := setPixel_ok h hin (g.px u v)
  have hbuf : Buffer { g with mem := m } g.pixels := h
  obtain ⟨m', hset', hpx'⟩ := setPixel_ok (g := { g with mem := m }) hbuf huv (g.px x y)
  refine ⟨m', ?_, fun s t hst => ?_⟩
  · simp only [swap, getPixel_ok h hin, getPixel_ok h huv, hset]
    exact hset'
  · rw [← hpx s t hst]
    exact hpx' s t hst

end Pixels

section Frames

variable {addr new : Nat}

theorem store_ok (h : addr + 3 ≤ pgRoundUp g.sz) (p : Pixel) :
    ∃ m, g.store addr p = .ok { g with mem := m } := ⟨_, if_pos h⟩

theorem store_onlyMem (hs : g.store addr p = .ok g') : OnlyMem g g' := by
  unfold store at hs
  split_ifs at hs
  cases hs
  exact ⟨_, rfl⟩

theorem setPixel_onlyMem (hs : g.setPixel x y p = .ok g') : OnlyMem g g' := by
  unfold setPixel at hs
  split_ifs at hs
  exact store_onlyMem hs

theorem swap_onlyMem (hs : g.swap x y u v = .ok g') : OnlyMem g g' := by
  unfold swap at hs
  split at hs
  · cases hs
  split at hs
  · cases hs
  split at hs
  · cases hs
  next t ht => exact (setPixel_onlyMem ht).trans (setPixel_onlyMem hs)

theorem flip_onlyMem {n m : Nat} {x y u v : Nat → Nat → Gallery → Int}
    (hs : Loop.upto n (fun i => Loop.upto m fun j g =>
      g.swap (x i j g) (y i j g) (u i j g) (v i j g)) g = .ok g') : OnlyMem g g' := by
  refine upto_keeps hs (.refl g) fun i _ t t' ht hrow => ?_
  exact ht.trans (upto_keeps hrow (.refl t) fun j _ r r' hr hbody =>
    hr.trans (swap_onlyMem hbody))

theorem hflip_onlyMem (hs : g.hflip = .ok g') : OnlyMem g g' := flip_onlyMem hs

theorem vflip_onlyMem (hs : g.vflip = .ok g') : OnlyMem g g' := flip_onlyMem hs

theorem rcopy_onlyMem (hs : g.rcopy new = .ok g') : OnlyMem g g' := by
  unfold rcopy at hs
  refine upto_keeps hs (.refl g) fun i _ t t' ht hrow => ?_
  refine ht.trans (upto_keeps hrow (.refl t) fun j _ r r' hr hbody => ?_)
  split at hbody
  · cases hbody
  · exact hr.trans (store_onlyMem hbody)

theorem rrotate_eq (hs : g.rrotate = .ok g') :
    ∃ m, g' = { g with
      mem := m, a := !g.a, pixels := g.newPixels, width := g.height, height := g.width } := by
  unfold rrotate at hs
  dsimp only at hs
  split at hs
  · cases hs
  next t ht =>
    cases hs
    obtain ⟨m, rfl⟩ := rcopy_onlyMem ht
    exact ⟨m, rfl⟩

theorem rcopy_first (hs : g.rcopy new = .ok g') :
    pixelAt g'.mem new = pixelAt g.mem new := by
  let I : Gallery → Prop := fun t => OnlyMem g t ∧ pixelAt t.mem new = pixelAt g.mem new
  have hI : I g' := by
    unfold rcopy at hs
    refine upto_keeps hs ⟨.refl g, rfl⟩ fun i _ t t' ht hrow => ?_
    refine upto_keeps hrow ht fun j hj r r' hr hbody => ?_
    have hrow : (j : Int) < r.height := by
      obtain ⟨⟨m, rfl⟩, -⟩ := hr
      obtain ⟨⟨m', rfl⟩, -⟩ := ht
      exact Int.lt_toNat.mp hj
    split at hbody
    · cases hbody
    · refine ⟨hr.1.trans (store_onlyMem hbody), ?_⟩
      unfold store at hbody
      split_ifs at hbody
      cases hbody
      -- Column `j` is left of the height, so the index is two at least.
      have hpos : 0 ≤ (i : Int) * r.height := Int.mul_nonneg (by omega) (by omega)
      refine (pixelAt_setPixelAt_of_ne _ _ (.inr ?_)).trans hr.2
      unfold index
      omega
  exact hI.2

theorem rrotate_first (hs : g.rrotate = .ok g') : g'.px 0 0 = pixelAt g.mem g.newPixels := by
  unfold rrotate at hs
  dsimp only at hs
  split at hs
  · cases hs
  next t ht =>
    cases hs
    have hfirst : pixelAt t.mem g.newPixels = pixelAt g.mem g.newPixels :=
      rcopy_first (g := { g with a := !g.a }) ht
    simpa [px, index] using hfirst

theorem setpixel_onlyScreen (hs : g.setpixel x y p = .ok g') : OnlyScreen g g' := by
  unfold setpixel at hs
  split_ifs at hs
  cases hs
  exact ⟨_, rfl⟩

theorem drawSquare_onlyScreen {i j : Nat} (hs : g.drawSquare i j p = .ok g') : OnlyScreen g g' := by
  unfold drawSquare at hs
  refine upto_keeps hs (.refl g) fun k _ t t' ht hrow => ?_
  exact ht.trans (upto_keeps hrow (.refl t) fun l _ r r' hr hbody =>
    hr.trans (setpixel_onlyScreen hbody))

theorem draw_onlyScreen (hs : g.draw = .ok g') : OnlyScreen g g' := by
  unfold draw at hs
  refine upto_keeps hs (.refl g) fun i _ t t' ht hrow => ?_
  refine ht.trans (upto_keeps hrow (.refl t) fun j _ r r' hr hbody => ?_)
  split at hbody
  · cases hbody
  · exact hr.trans (drawSquare_onlyScreen hbody)

end Frames

section Ends

theorem drawSquare_ok {i j : Nat} (hi : i * g.zoom.toInt + g.zoom.toInt ≤ 320)
    (hj : j * g.zoom.toInt + g.zoom.toInt ≤ 200) (p : Pixel) :
    ∃ g', g.drawSquare i j p = .ok g' ∧ OnlyScreen g g' := by
  unfold drawSquare
  refine upto_reaches (J := fun _ t => OnlyScreen g t) (.refl g) fun k hk t ht => ?_
  refine upto_reaches (J := fun _ t => OnlyScreen g t) ht fun l hl r hr => ?_
  have hi0 : 0 ≤ (i : Int) * g.zoom.toInt := Int.mul_nonneg (by omega) (by omega)
  have hj0 : 0 ≤ (j : Int) * g.zoom.toInt := Int.mul_nonneg (by omega) (by omega)
  have hon : ¬ ((i * g.zoom.toInt + k : Int) < 0 ∨ (j * g.zoom.toInt + l : Int) < 0 ∨
      320 ≤ (i * g.zoom.toInt + k : Int) ∨ 200 ≤ (j * g.zoom.toInt + l : Int)) := by
    omega
  refine ⟨_, if_neg hon, hr.trans ⟨_, rfl⟩⟩

theorem divZoom_fits {n : Int32} {zoom : Int32} (hn : 0 ≤ n.toInt) (hn' : n.toInt < 2 ^ 30)
    {i : Nat} (hi : i < (divZoom n zoom).toNat) : i * zoom.toInt + zoom.toInt ≤ n.toInt := by
  unfold divZoom at hi
  split_ifs at hi with hz
  · cases hi
  · have habs := Int.natAbs_tdiv_le_natAbs n.toInt zoom.toInt
    have hdiv : (n / zoom).toInt = n.toInt.tdiv zoom.toInt := by
      rw [Int32.toInt_div]
      apply Int.bmod_eq_of_le <;> omega
    rw [hdiv] at hi
    rcases lt_trichotomy zoom.toInt 0 with hneg | hzero | hpos
    · grind [Int.tdiv_nonpos_of_nonneg_of_nonpos]
    · exact absurd (Int32.toInt_inj.mp (hzero.trans (by decide : (0 : Int) = (0 : Int32).toInt))) hz
    · rw [Int.tdiv_eq_ediv_of_nonneg hn] at hi
      have hle : (i : Int) + 1 ≤ n.toInt / zoom.toInt := by omega
      calc (i : Int) * zoom.toInt + zoom.toInt = (i + 1) * zoom.toInt := by ring
        _ ≤ n.toInt / zoom.toInt * zoom.toInt := Int.mul_le_mul_of_nonneg_right hle (by omega)
        _ ≤ n.toInt := Int.ediv_mul_le _ (by omega)

theorem draw_ok (h : g.Buffer g.pixels) : ∃ g', g.draw = .ok g' ∧ OnlyScreen g g' := by
  unfold draw
  refine upto_reaches (J := fun _ t => OnlyScreen g t) (.refl g) fun i hi t ht => ?_
  refine upto_reaches (J := fun _ t => OnlyScreen g t) ht fun j hj r hr => ?_
  obtain ⟨sc, rfl⟩ := hr
  have hbuf : Buffer { g with screen := sc } g.pixels := h
  obtain ⟨p, hp⟩ := getPixel_total (g := { g with screen := sc }) hbuf
    (g.xpos + Int32.ofNat i).toInt (g.ypos + Int32.ofNat j).toInt
  obtain ⟨t, ht, hsc⟩ := drawSquare_ok (g := { g with screen := sc })
    (divZoom_fits (n := 320) (by decide) (by decide) hi)
    (divZoom_fits (n := 200) (by decide) (by decide) hj) p
  refine ⟨t, ?_, OnlyScreen.trans ⟨sc, rfl⟩ hsc⟩
  simp only [hp]
  exact ht

/-- The last store of a rotation is two pixels behind the buffer. -/
def Roomy (g : Gallery) (q : Nat) : Prop :=
  0 < g.width → 0 < g.height → (q : Int) + 3 * (g.width * g.height + 2) ≤ pgRoundUp g.sz

theorem rcopy_ok {new : Nat} (h : g.Buffer g.pixels) (hnew : g.Roomy new) :
    ∃ g', g.rcopy new = .ok g' := by
  have hloop : ∃ g', g.rcopy new = .ok g' ∧ OnlyMem g g' := by
    unfold rcopy
    refine upto_reaches (J := fun _ t => OnlyMem g t) (.refl g) fun i hi t ht => ?_
    have hlen : t.height = g.height := by
      obtain ⟨m, rfl⟩ := ht
      rfl
    rw [hlen]
    refine upto_reaches (J := fun _ t => OnlyMem g t) ht fun j hj r hr => ?_
    obtain ⟨m, rfl⟩ := hr
    have hbuf : Buffer { g with mem := m } g.pixels := h
    obtain ⟨p, hp⟩ := getPixel_total (g := { g with mem := m }) hbuf i j
    have hroom := hnew (by omega) (by omega)
    -- The index grows with `i` and falls with `j`.
    obtain ⟨h0, hlt⟩ := coord_lt (x := g.height - 1 - j) (y := i) (w := g.height) (h := g.width)
      (by omega) (by omega)
    rw [Int.mul_comm g.height] at hlt
    have haddr : index new (i * g.height + g.height - j + 1) + 3 ≤ pgRoundUp g.sz := by
      unfold index
      omega
    obtain ⟨m', hm'⟩ := store_ok (g := { g with mem := m }) haddr p
    refine ⟨{ g with mem := m' }, ?_, m', rfl⟩
    simp only [hp]
    exact hm'
  obtain ⟨g', hg', -⟩ := hloop
  exact ⟨g', hg'⟩

theorem rrotate_ok (h : g.Buffer g.pixels) (hnew : g.Roomy g.newPixels) :
    ∃ g', g.rrotate = .ok g' := by
  obtain ⟨t, ht⟩ := rcopy_ok (g := { g with a := !g.a }) h hnew
  unfold rrotate
  simp only [ht]
  exact ⟨_, rfl⟩

end Ends

end Xv6.Gallery
