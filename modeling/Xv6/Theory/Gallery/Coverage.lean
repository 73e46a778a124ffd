import Xv6.Theory.Gallery.Buffers
import Mathlib.Data.List.Nodup

/-!
# What the Viewer Stores and Draws

`rrotate` stores through two loops and `draw` calls `setpixel` through four. Both are read here as
one pass over a list: the indices at which the one stores, the calls that the other makes. What
they cover is then a question about the list.

## Theorems

* `Gallery.rotate_strays`, `Gallery.draw_repaints_iff`
-/

namespace Xv6.Gallery

open List (mem_product mem_range)

variable {g t : Gallery}

section Rotation

/-- The coordinates that a rotation goes through. -/
def coords (g : Gallery) : List (Nat × Nat) :=
  List.range g.width.toNat ×ˢ List.range g.height.toNat

/-- Where a rotation puts the pixel at `c`. -/
def turnedIndex (g : Gallery) (c : Nat × Nat) : Int := c.1 * g.height + g.height - c.2 + 1

/-- The indices at which a rotation stores, in order. -/
def stores (g : Gallery) : List Int := g.coords.map g.turnedIndex

/-- One round of the loops of a rotation. -/
def turnPixel (g : Gallery) (new : Nat) (c : Nat × Nat) (t : Gallery) : Except Stop Gallery :=
  match t.getPixel c.1 c.2 with
  | .error e => .error e
  | .ok p => t.store (index new (g.turnedIndex c)) p

variable {c : Nat × Nat}

theorem turnPixel_onlyMem {new : Nat} {t' : Gallery}
    (hs : g.turnPixel new c t = .ok t') : OnlyMem t t' := by
  unfold turnPixel at hs
  split at hs
  · cases hs
  · exact store_onlyMem hs

theorem rcopy_eq_foldlM (g : Gallery) (new : Nat) :
    g.rcopy new = g.coords.foldlM (fun t c => g.turnPixel new c t) g := by
  have hrow : ∀ i j t t', OnlyMem g t → g.turnPixel new (i, j) t = .ok t' → OnlyMem g t' :=
    fun i j t t' ht hs => ht.trans (turnPixel_onlyMem hs)
  have hloops : g.rcopy new = Loop.upto g.width.toNat
      (fun i => Loop.upto g.height.toNat fun j => g.turnPixel new (i, j)) g := by
    refine Loop.upto_congr (I := OnlyMem g) (.refl g) (fun i _ t ht => ?_) fun i _ t t' ht hs => ?_
    · have hlen : t.height = g.height := by
        obtain ⟨m, rfl⟩ := ht
        rfl
      rw [hlen]
      refine Loop.upto_congr (I := OnlyMem g) ht (fun j _ r hr => ?_) fun j _ => hrow i j
      obtain ⟨m, rfl⟩ := hr
      rfl
    · exact Loop.upto_keeps hs ht fun j _ => hrow i j
  rw [hloops, Loop.upto_upto]
  rfl

theorem turnedIndex_eq (c : Nat × Nat) :
    g.turnedIndex c = c.1 * g.height + (g.height - 1 - c.2) + 2 := by
  unfold turnedIndex
  omega

theorem mem_coords :
    c ∈ g.coords ↔ (c.1 : Int) < g.width ∧ (c.2 : Int) < g.height := by
  rw [coords, mem_product, mem_range, mem_range]
  omega

theorem nodup_stores (g : Gallery) : g.stores.Nodup := by
  refine List.Nodup.map_on (fun c hc d hd h => ?_) (List.nodup_range.product List.nodup_range)
  rw [turnedIndex_eq, turnedIndex_eq, Int.add_left_inj] at h
  have hc' := mem_coords.mp hc
  have hd' := mem_coords.mp hd
  obtain ⟨h2, h1⟩ := coord_inj (by omega) (by omega) h
  exact Prod.ext (by omega) (by omega)

theorem mem_stores {k : Int} : k ∈ g.stores ↔ 2 ≤ k ∧ k < g.width * g.height + 2 ∧
    0 < g.height := by
  rw [stores, List.mem_map]
  constructor
  · rintro ⟨c, hc, rfl⟩
    have hc' := mem_coords.mp hc
    have hlt := coord_lt (x := g.height - 1 - c.2) (y := c.1) (w := g.height) (h := g.width)
      (by omega) (by omega)
    rw [Int.mul_comm g.height] at hlt
    rw [turnedIndex_eq]
    omega
  · rintro ⟨hlo, hhi, hpos⟩
    have hdiv := Int.mul_ediv_add_emod (k - 2) g.height
    have hmod := Int.emod_nonneg (k - 2) hpos.ne'
    have hmod' := Int.emod_lt_of_pos (k - 2) hpos
    have hrow := Int.ediv_nonneg (a := k - 2) (b := g.height) (by omega) hpos.le
    have hrow' : (k - 2) / g.height < g.width := Int.ediv_lt_of_lt_mul hpos (by omega)
    refine ⟨(((k - 2) / g.height).toNat, (g.height - 1 - (k - 2) % g.height).toNat),
      mem_coords.mpr ⟨by omega, by omega⟩, ?_⟩
    rw [turnedIndex_eq, Int.toNat_of_nonneg hrow, Int.toNat_of_nonneg (by omega),
      Int.mul_comm ((k - 2) / g.height)]
    omega

/-- A rotation stores at one index after the other, each once, but they are those from two to
    `width * height + 1`. So it stores outside the buffer and does not fill it, whatever the
    picture is. -/
theorem rotate_strays (hw : 0 < g.width) (hh : 0 < g.height) :
    (∀ new, g.rcopy new = g.coords.foldlM (fun t c => g.turnPixel new c t) g) ∧
      g.stores.Nodup ∧ (∀ k, k ∈ g.stores ↔ 2 ≤ k ∧ k < g.width * g.height + 2) ∧
      ¬ (∀ k ∈ g.stores, 0 ≤ k ∧ k < g.width * g.height) ∧
      ¬ ∀ k, 0 ≤ k → k < g.width * g.height → k ∈ g.stores := by
  have hpos := Int.mul_pos hw hh
  refine ⟨rcopy_eq_foldlM g, nodup_stores g, fun k => ?_, fun hall => ?_, fun hall => ?_⟩
  · rw [mem_stores]
    omega
  · have := hall (g.width * g.height + 1) (mem_stores.mpr ⟨by omega, by omega, hh⟩)
    omega
  · have := mem_stores.mp (hall 0 (by omega) hpos)
    omega

theorem rotate_strays_dot : ∃ g, main blank dot = .running g ∧
    ¬ ∀ k ∈ g.stores, 0 ≤ k ∧ k < g.width * g.height := by
  obtain ⟨g, hg⟩ := main_blank
  obtain ⟨⟨hw, hh, -⟩, -⟩ := main_dot hg
  exact ⟨g, hg, (rotate_strays (by rw [hw]; decide) (by rw [hh]; decide)).2.2.2.1⟩

/-- The rotation of a picture of one white pixel, whose buffer is the last three bytes of the
    process, stores it six bytes further on. -/
theorem rotate_behind_buffer : ∃ g t, main blank dot = .running g ∧ g.rrotate = .ok t ∧
    g.sz = 20486 ∧ g.newPixels = 20483 ∧ pixelAt t.mem 20489 = ⟨255, 255, 255⟩ := by
  obtain ⟨g, hg⟩ := main_blank
  obtain ⟨⟨hw, hh, hsz, hpx⟩, hnew, -, -, hwhite, -⟩ := main_dot hg
  obtain ⟨t, -, ht, -⟩ := rotate_dot hg
  refine ⟨g, t, hg, ht, hsz, hnew, ?_⟩
  have hcopy : ∀ u : Gallery, u.width = 1 → u.height = 1 → u.sz = 20486 → u.pixels = 20480 →
      u.rcopy 20483 = .ok { u with mem := setPixelAt u.mem 20489 (pixelAt u.mem 20480) } := by
    intro u hw hh hsz hpx
    have hget : u.getPixel 0 0 = .ok (pixelAt u.mem 20480) := by
      rw [getPixel_ok (fun _ _ => by rw [hw, hh, hsz, hpx]; decide) (inside_iff.mpr (by omega)), px,
        hpx]
      simp [index]
    have haddr : index 20483 (u.turnedIndex (0, 0)) = 20489 := by
      rw [turnedIndex, hh]
      rfl
    rw [rcopy_eq_foldlM, coords, hw, hh]
    change ((u.turnPixel 20483 (0, 0) u) >>= pure) = _
    rw [bind_pure, turnPixel]
    simp only [Nat.cast_zero, hget, haddr]
    refine (if_pos (by rw [hsz]; decide)).trans ?_
    rw [hw, hh]
  unfold rrotate at ht
  simp only [hnew, hcopy { g with a := !g.a } hw hh hsz hpx] at ht
  cases ht
  rw [← hwhite]
  exact pixelAt_setPixelAt_self _ _ _

end Rotation

section Screen

/-- The colour of the picture at a place on it or off it. -/
def shade (g : Gallery) (x y : Int) : Pixel := if g.Outside x y then ⟨0, 0, 0⟩ else g.px x y

/-- The squares that `draw` paints. -/
def squares (g : Gallery) : List (Nat × Nat) :=
  List.range (divZoom 320 g.zoom).toNat ×ˢ List.range (divZoom 200 g.zoom).toNat

/-- The pixels of a square. -/
def cells (g : Gallery) : List (Nat × Nat) :=
  List.range g.zoom.toInt.toNat ×ˢ List.range g.zoom.toInt.toNat

/-- The call for one pixel of a square: where, and in which colour. -/
def call (g : Gallery) (c : (Nat × Nat) × Nat × Nat) : (Int × Int) × Pixel :=
  ((c.1.1 * g.zoom.toInt + c.2.1, c.1.2 * g.zoom.toInt + c.2.2),
    g.shade (g.xpos.toInt + c.1.1) (g.ypos.toInt + c.1.2))

/-- The calls of `setpixel`, in order. -/
def calls (g : Gallery) : List ((Int × Int) × Pixel) := (g.squares ×ˢ g.cells).map g.call

/-- Every pixel of the screen once, in the colour of the pixel of the picture that is there. -/
def Repaints (g : Gallery) (l : List ((Int × Int) × Pixel)) : Prop :=
  (l.map Prod.fst).Nodup ∧ ∀ x y p, ((x, y), p) ∈ l ↔ (0 ≤ x ∧ x < 320) ∧ (0 ≤ y ∧ y < 200) ∧
    p = g.shade (g.xpos.toInt + x / g.zoom.toInt) (g.ypos.toInt + y / g.zoom.toInt)

variable {i : Nat} {x y : Int} {p : Pixel}

theorem wrapped {a : Int32} {w : Int} (hi : i < 320) (hw : w < 2 ^ 31) :
    (a + Int32.ofNat i).toInt = a.toInt + i ∨ (a + Int32.ofNat i).toInt < 0 ∧ w ≤ a.toInt + i := by
  have hofNat : (Int32.ofNat i).toInt = i := Int32.toInt_ofNat_of_lt (by omega)
  have hlo := a.le_toInt
  have hhi := a.toInt_lt
  rw [Int32.toInt_add, hofNat]
  by_cases hfit : a.toInt + i < 2 ^ 31
  · exact .inl (Int.bmod_eq_of_le (by omega) (by omega))
  · right
    have hwrap : (a.toInt + (i : Int)).bmod (2 ^ 32) = a.toInt + i - 2 ^ 32 := by
      simp only [Int.bmod_def]
      omega
    omega

theorem getPixel_shade (hbuf : g.Buffer g.pixels) (hw : g.width < 2 ^ 31) (hh : g.height < 2 ^ 31)
    {j : Nat} (hi : i < 320) (hj : j < 320) :
    g.getPixel (g.xpos + Int32.ofNat i).toInt (g.ypos + Int32.ofNat j).toInt =
      .ok (g.shade (g.xpos.toInt + i) (g.ypos.toInt + j)) := by
  have hblack : ∀ {x y x' y'}, g.Outside x y → g.Outside x' y' →
      g.getPixel x y = .ok (g.shade x' y') := by
    intro x y x' y' h h'
    rw [getPixel, if_pos h, shade, if_pos h']
  rcases wrapped (a := g.xpos) hi hw with hx | hx
  · rcases wrapped (a := g.ypos) hj hh with hy | hy
    · rw [hx, hy]
      by_cases hout : g.Outside (g.xpos.toInt + i) (g.ypos.toInt + j)
      · exact hblack hout hout
      · rw [getPixel_ok hbuf hout, shade, if_neg hout]
    · exact hblack (.inr (.inr (.inl hy.1))) (.inr (.inr (.inr hy.2)))
  · exact hblack (.inl hx.1) (.inr (.inl hx.2))

theorem divZoom_eq {n zoom : Int32} (hn : 0 ≤ n.toInt) (hn' : n.toInt < 2 ^ 30)
    (hz : 1 ≤ zoom.toInt) : divZoom n zoom = n.toInt / zoom.toInt := by
  have hne : zoom ≠ 0 := by
    rintro rfl
    exact absurd hz (by decide)
  have habs := Int.natAbs_tdiv_le_natAbs n.toInt zoom.toInt
  rw [divZoom, if_neg hne, Int32.toInt_div, ← Int.tdiv_eq_ediv_of_nonneg hn]
  apply Int.bmod_eq_of_le <;> omega

theorem mem_squares (hz : 1 ≤ g.zoom.toInt) {c : Nat × Nat} : c ∈ g.squares ↔
    (c.1 : Int) < 320 / g.zoom.toInt ∧ (c.2 : Int) < 200 / g.zoom.toInt := by
  rw [squares, mem_product, mem_range, mem_range,
    divZoom_eq (by decide) (by decide) hz, divZoom_eq (by decide) (by decide) hz]
  have h320 : (320 : Int32).toInt = 320 := by decide
  have h200 : (200 : Int32).toInt = 200 := by decide
  rw [h320, h200]
  omega

theorem draw_eq_foldlM (hbuf : g.Buffer g.pixels) (hw : g.width < 2 ^ 31) (hh : g.height < 2 ^ 31)
    (hz : 1 ≤ g.zoom.toInt) :
    g.draw = g.calls.foldlM (fun t c => t.setpixel c.1.1 c.1.2 c.2) g := by
  let paint : Nat × Nat → Gallery → Except Stop Gallery := fun c t => t.drawSquare c.1 c.2
    (g.shade (g.xpos.toInt + c.1) (g.ypos.toInt + c.2))
  have hkeep : ∀ i j t t', OnlyScreen g t → paint (i, j) t = .ok t' → OnlyScreen g t' :=
    fun i j t t' ht hs => ht.trans (drawSquare_onlyScreen hs)
  have hloops : g.draw = Loop.upto (divZoom 320 g.zoom).toNat
      (fun i => Loop.upto (divZoom 200 g.zoom).toNat fun j => paint (i, j)) g := by
    refine Loop.upto_congr (I := OnlyScreen g) (.refl g) (fun i hi t ht => ?_)
      fun i _ t t' ht hs => Loop.upto_keeps hs ht fun j _ => hkeep i j
    refine Loop.upto_congr (I := OnlyScreen g) ht (fun j hj r hr => ?_) fun j _ => hkeep i j
    have hc : (i, j) ∈ g.squares :=
      List.mem_product.mpr ⟨List.mem_range.mpr hi, List.mem_range.mpr hj⟩
    have hc' := (mem_squares hz).mp hc
    have hi' : (320 : Int) / g.zoom.toInt ≤ 320 := Int.ediv_le_self _ (by decide)
    have hj' : (200 : Int) / g.zoom.toInt ≤ 200 := Int.ediv_le_self _ (by decide)
    obtain ⟨sc, rfl⟩ := hr
    have hget := getPixel_shade (g := { g with screen := sc }) hbuf hw hh (i := i) (j := j)
      (by omega) (by omega)
    simp only [hget]
    rfl
  rw [hloops, Loop.upto_upto, calls, List.foldlM_map, Loop.foldlM_product g.squares]
  -- One square is one pass over its cells.
  refine Loop.foldlM_congr (I := OnlyScreen g) (.refl g) (fun c t ht => ?_)
    fun (c : Nat × Nat) t t' ht hs => hkeep c.1 c.2 t t' ht hs
  obtain ⟨sc, rfl⟩ := ht
  exact Loop.upto_upto

theorem mem_calls (hz : 1 ≤ g.zoom.toInt) : ((x, y), p) ∈ g.calls ↔
    (0 ≤ x ∧ x < 320 / g.zoom.toInt * g.zoom.toInt) ∧
      (0 ≤ y ∧ y < 200 / g.zoom.toInt * g.zoom.toInt) ∧
      p = g.shade (g.xpos.toInt + x / g.zoom.toInt) (g.ypos.toInt + y / g.zoom.toInt) := by
  have hpos : 0 < g.zoom.toInt := by omega
  rw [calls, List.mem_map]
  constructor
  · rintro ⟨⟨c, d⟩, hcd, heq⟩
    obtain ⟨hc, hd⟩ := List.mem_product.mp hcd
    have hc' := (mem_squares hz).mp hc
    rw [cells, mem_product, mem_range, mem_range] at hd
    have hstrip : ∀ {i k : Nat} {n : Int}, (i : Int) < n → k < g.zoom.toInt.toNat →
        (0 ≤ (i : Int) * g.zoom.toInt + k ∧ (i : Int) * g.zoom.toInt + k < n * g.zoom.toInt) ∧
          ((i : Int) * g.zoom.toInt + k) / g.zoom.toInt = i := by
      intro i k n hi hk
      have hlt := coord_lt (x := k) (y := i) (w := g.zoom.toInt) (h := n) (by omega) (by omega)
      rw [Int.mul_comm g.zoom.toInt] at hlt
      refine ⟨hlt, ?_⟩
      rw [Int.add_comm, Int.add_mul_ediv_right _ _ hpos.ne', Int.ediv_eq_zero_of_lt (by omega)
        (by omega), Int.zero_add]
    cases heq
    obtain ⟨hx, hxd⟩ := hstrip hc'.1 hd.1
    obtain ⟨hy, hyd⟩ := hstrip hc'.2 hd.2
    refine ⟨hx, hy, ?_⟩
    rw [hxd, hyd]
  · rintro ⟨hx, hy, rfl⟩
    have hsplit : ∀ {a n : Int}, 0 ≤ a ∧ a < n * g.zoom.toInt → 0 ≤ a / g.zoom.toInt ∧
        a / g.zoom.toInt < n ∧ 0 ≤ a % g.zoom.toInt ∧ a % g.zoom.toInt < g.zoom.toInt ∧
        a / g.zoom.toInt * g.zoom.toInt + a % g.zoom.toInt = a := fun {a n} ha =>
      ⟨Int.ediv_nonneg ha.1 hpos.le, Int.ediv_lt_of_lt_mul hpos ha.2, Int.emod_nonneg a hpos.ne',
        Int.emod_lt_of_pos a hpos, Int.ediv_mul_add_emod a _⟩
    obtain ⟨hx1, hx2, hx3, hx4, hx5⟩ := hsplit hx
    obtain ⟨hy1, hy2, hy3, hy4, hy5⟩ := hsplit hy
    refine ⟨(((x / g.zoom.toInt).toNat, (y / g.zoom.toInt).toNat),
      ((x % g.zoom.toInt).toNat, (y % g.zoom.toInt).toNat)), List.mem_product.mpr
      ⟨(mem_squares hz).mpr ⟨by omega, by omega⟩, ?_⟩, ?_⟩
    · rw [cells, mem_product, mem_range, mem_range]
      omega
    · simp only [call, Int.toNat_of_nonneg hx1, Int.toNat_of_nonneg hx3, Int.toNat_of_nonneg hy1,
        Int.toNat_of_nonneg hy3, hx5, hy5]

theorem nodup_calls (g : Gallery) : (g.calls.map Prod.fst).Nodup := by
  rw [calls, List.map_map]
  refine List.Nodup.map_on (fun c hc d hd h => ?_)
    ((List.nodup_range.product List.nodup_range).product
      (List.nodup_range.product List.nodup_range))
  have hin : ∀ {c d : Nat × Nat}, (c, d) ∈ g.squares ×ˢ g.cells →
      (d.1 : Int) < g.zoom.toInt ∧ (d.2 : Int) < g.zoom.toInt := by
    intro c d he
    have he' := (List.mem_product.mp he).2
    rw [cells, mem_product, mem_range, mem_range] at he'
    omega
  have hc' := hin hc
  have hd' := hin hd
  obtain ⟨hx, hy⟩ := Prod.ext_iff.mp h
  obtain ⟨h21, h11⟩ := coord_inj (by omega) (by omega) hx
  obtain ⟨h22, h12⟩ := coord_inj (by omega) (by omega) hy
  exact Prod.ext (Prod.ext (by omega) (by omega)) (Prod.ext (by omega) (by omega))

theorem setpixel_calls (hs : g.setpixel x y p = .ok t) :
    t.screen.calls = g.screen.calls ++ [((x, y), p)] := by
  unfold setpixel at hs
  split_ifs at hs
  cases hs
  rfl

theorem calls_foldlM {l : List ((Int × Int) × Pixel)}
    (hs : l.foldlM (fun t c => t.setpixel c.1.1 c.1.2 c.2) g = .ok t) :
    t.screen.calls = g.screen.calls ++ l := by
  induction l generalizing g with
  | nil =>
    cases hs
    rw [List.append_nil]
  | cons c l ih =>
    rw [List.foldlM_cons] at hs
    cases hc : g.setpixel c.1.1 c.1.2 c.2 with
    | error e =>
      rw [hc] at hs
      cases hs
    | ok u =>
      rw [hc] at hs
      rw [ih hs, setpixel_calls hc, List.append_assoc, List.singleton_append]

/-- `draw` comes to its end, and `calls` are the calls of `setpixel` it has made, in this order.
    They repaint the screen exactly when `zoom` divides both sides of it. -/
theorem draw_repaints_iff (hbuf : g.Buffer g.pixels) (hw : g.width < 2 ^ 31)
    (hh : g.height < 2 ^ 31) (hz : 1 ≤ g.zoom.toInt) :
    (∃ t, g.draw = .ok t ∧ t.screen.calls = g.screen.calls ++ g.calls) ∧
      g.draw = g.calls.foldlM (fun t c => t.setpixel c.1.1 c.1.2 c.2) g ∧
      (Repaints g g.calls ↔ g.zoom.toInt ∣ 320 ∧ g.zoom.toInt ∣ 200) := by
  obtain ⟨t, ht, -⟩ := draw_ok hbuf
  have hfold := draw_eq_foldlM hbuf hw hh hz
  refine ⟨⟨t, ht, calls_foldlM (hfold.symm.trans ht)⟩, hfold, fun hall => ?_, fun hdvd => ?_⟩
  · -- The last pixel of the screen is in the last square.
    have hlast := (hall.2 319 199 _).mpr ⟨by decide, by decide, rfl⟩
    obtain ⟨hx, hy, -⟩ := (mem_calls hz).mp hlast
    have hx' := Int.ediv_mul_le 320 (b := g.zoom.toInt) (by omega)
    have hy' := Int.ediv_mul_le 200 (b := g.zoom.toInt) (by omega)
    exact ⟨Dvd.intro_left (320 / g.zoom.toInt) (by omega),
      Dvd.intro_left (200 / g.zoom.toInt) (by omega)⟩
  · refine ⟨nodup_calls g, fun x y p => ?_⟩
    rw [mem_calls hz, Int.ediv_mul_cancel hdvd.1, Int.ediv_mul_cancel hdvd.2]

theorem draw_repaints_blank : ∃ t, draw { blank with zoom := 8 } = .ok t ∧
    Repaints { blank with zoom := 8 } t.screen.calls := by
  obtain ⟨⟨t, ht, hcalls⟩, -, hiff⟩ := draw_repaints_iff (g := { blank with zoom := 8 })
    (fun h => absurd h (by decide)) (by decide) (by decide) (by decide)
  refine ⟨t, ht, ?_⟩
  rw [hcalls]
  exact hiff.mpr ⟨by decide, by decide⟩

/-- At the fourth step of zooming in, the last eight lines of the screen stay as they were. -/
theorem draw_leaves_strip : let g := { blank with zoom := 1 * 2 * 2 * 2 * 2 }
    ∃ t, g.draw = .ok t ∧ (∀ p, ((0, 192), p) ∉ t.screen.calls) ∧ ¬ Repaints g t.screen.calls := by
  intro g
  have hbuf : g.Buffer g.pixels := fun h => absurd h (by decide)
  have hz : g.zoom.toInt = 16 := by decide
  obtain ⟨t, ht, -⟩ := draw_ok hbuf
  have hcalls : t.screen.calls = g.calls :=
    calls_foldlM ((draw_eq_foldlM hbuf (by decide) (by decide) (by omega)).symm.trans ht)
  have hnone : ∀ p, ((0, 192), p) ∉ t.screen.calls := by
    intro p hp
    rw [hcalls] at hp
    have hy := ((mem_calls (by omega)).mp hp).2.1.2
    rw [hz] at hy
    exact absurd hy (by decide)
  exact ⟨t, ht, hnone, fun hall => hnone _ ((hall.2 0 192 _).mpr ⟨by decide, by decide, rfl⟩)⟩

end Screen

end Xv6.Gallery
