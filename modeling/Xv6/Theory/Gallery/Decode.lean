import Mathlib.Data.List.GetD
import Xv6.Theory.Gallery.Buffers

/-!
# Reading a Bitmap

A file is the bitmap of a picture when its rows follow the headers from the last to the first,
each padded to a multiple of four bytes (`Encodes`). `imgread` asks for `3 * width` bytes and then
for `width % 4`, which is the same padding (`stride_eq`).

## Theorems

* `Gallery.imgread_decodes`: a load has the pixels the file encodes
-/

namespace Xv6.Gallery

variable {g : Gallery} {file : List UInt8} {w h k : Nat} {p : Nat → Nat → Pixel}

/-- The length of a row with its padding. -/
def stride (w : Nat) : Nat := (3 * w + 3) / 4 * 4

/-- `file` is a bitmap of `w` times `h` pixels of 24 bits without compression. -/
structure Encodes (file : List UInt8) (w h : Nat) (p : Nat → Nat → Pixel) : Prop where
  length : file.length = 54 + h * stride w
  /-- `bfOffBits` -/
  start : field file 10 = 54
  /-- `biWidth` -/
  width : field file 18 = w
  /-- `biHeight` -/
  height : field file 22 = h
  /-- `biBitCount` -/
  bits : (file.getD 28 0).toNat + 256 * (file.getD 29 0).toNat = 24
  /-- `biCompression` -/
  plain : field file 30 = 0
  pixel : ∀ x < w, ∀ y < h, pixelAt (file.getD · 0) (54 + (h - 1 - y) * stride w + 3 * x) = p x y

theorem stride_eq (w : Nat) : stride w = 3 * w + w % 4 := by
  unfold stride
  omega

theorem field_congr {ih ih' : List UInt8} {j : Nat}
    (heq : ∀ i < 4, ih.getD (j + i) 0 = ih'.getD (k + i) 0) : field ih j = field ih' k := by
  have h0 : ih.getD j 0 = ih'.getD k 0 := heq 0 (by decide)
  unfold field
  rw [h0, heq 1 (by decide), heq 2 (by decide), heq 3 (by decide)]

theorem opened_ofFile (henc : Encodes file w h p) : (opened g (ofFile file)).width = w ∧
    (opened g (ofFile file)).height = h ∧ (opened g (ofFile file)).off = 54 := by
  have hlen := henc.length
  have hfirst : firstRead (ofFile file) = file.take 14 := rfl
  have hlen14 : (firstRead (ofFile file)).length = 14 := by
    rw [hfirst, List.length_take]
    omega
  have hsecond : secondRead (ofFile file) = (file.drop 14).take 40 := by
    rw [secondRead, hlen14]
    rfl
  have hlen40 : ((file.drop 14).take 40).length = 40 := by
    rw [List.length_take, List.length_drop]
    omega
  have hbyte : ∀ k < 40, (header g (ofFile file)).getD k 0 = file.getD (14 + k) 0 := by
    intro k hk
    rw [header, hsecond, List.getD_append _ _ _ _ (by omega), List.getD_eq_getElem?_getD,
      List.getElem?_take_of_lt hk, List.getElem?_drop, ← List.getD_eq_getElem?_getD]
  have hfield : ∀ j, j + 4 ≤ 40 → field (header g (ofFile file)) j = field file (14 + j) := by
    intro j hj
    refine field_congr fun i hi => ?_
    rw [hbyte (j + i) (by omega), Nat.add_assoc]
  simp only [opened, hfield 4 (by decide), hfield 8 (by decide), hlen14, hsecond, hlen40, and_true]
  exact ⟨henc.width, henc.height⟩

/-- The rows from `h - k` on are loaded. -/
def Loaded (g : Gallery) (p : Nat → Nat → Pixel) (w h k : Nat) : Prop :=
  ∀ x < w, ∀ y < h, h ≤ y + k → pixelAt g.mem (g.pixels + 3 * (y * w + x)) = p x y

theorem pixelAt_congr {m m' : Nat → UInt8} {a b : Nat} (heq : ∀ c < 3, m (a + c) = m' (b + c)) :
    pixelAt m a = pixelAt m' b := by
  have h0 : m a = m' b := heq 0 (by decide)
  simp only [pixelAt, h0, heq 1 (by decide), heq 2 (by decide)]

theorem count_eq {off n : Nat} (h : off + n < 2 ^ 32) : count off n = n := by
  unfold count
  rw [if_pos (by omega)]
  omega

/-- A bitmap whose pixels fit an `int` ends where a `uint` can still point. -/
theorem Encodes.small (henc : Encodes file w h p) (hsize : (w : Int) * h * 3 < 2 ^ 31) :
    file.length < 2 ^ 32 := by
  have hmod : w % 4 * h ≤ w * h := Nat.mul_le_mul_right h (Nat.mod_le w 4)
  have harea : ((w * h : Nat) : Int) = w * h := Int.natCast_mul w h
  rw [henc.length, stride_eq, Nat.mul_comm, Nat.add_mul, Nat.mul_assoc]
  omega

variable {t : Gallery}

theorem Loaded.next (henc : Encodes file w h p) (hsmall : file.length < 2 ^ 32)
    (hl : Loaded g p w h k) (hk : k < h) (hoff : g.off = 54 + k * stride w)
    (hs : g.read (g.pixels + 3 * ((h - 1 - k : Nat) * w : Nat)) ((3 * w : Nat) : Int)
      ((ofFile file).reads (2 + 2 * k)) = .ok t) :
    Loaded t p w h (k + 1) ∧ t.off = g.off + 3 * w := by
  have hlen := henc.length
  have hrows : (k + 1) * stride w ≤ h * stride w := Nat.mul_le_mul_right _ hk
  rw [Nat.add_mul, Nat.one_mul, stride_eq] at hrows
  have hend : g.off + 3 * w ≤ file.length := by
    rw [hoff, hlen, stride_eq]
    omega
  obtain ⟨bs, hbs, -, rfl⟩ := read_eq hs
  obtain rfl : file.drop g.off = bs := Option.some.inj hbs
  have hfull : ((file.drop g.off).take (count g.off ((3 * w : Nat) : Int))).length = 3 * w := by
    rw [count_eq (by omega), List.length_take, List.length_drop]
    omega
  refine ⟨fun x hx y hy hrow => ?_, by rw [hfull]⟩
  rw [hfull, count_eq (by omega)]
  by_cases hlast : y = h - 1 - k
  · -- A byte of the row, as the file has it.
    rw [← henc.pixel x hx y hy]
    refine pixelAt_congr fun c hc => ?_
    dsimp only
    rw [hlast, if_pos (by omega), show ((g.pixels + 3 * ((h - 1 - k) * w + x) + c : Nat) -
        ((g.pixels : Int) + 3 * ((h - 1 - k) * w : Nat))).toNat = 3 * x + c by omega,
      show h - 1 - (h - 1 - k) = k by omega, List.getD_eq_getElem?_getD,
      List.getElem?_take_of_lt (by omega), List.getElem?_drop, ← List.getD_eq_getElem?_getD,
      hoff, Nat.add_assoc _ (3 * x)]
  · have hbehind : (h - 1 - k + 1) * w ≤ y * w := Nat.mul_le_mul_right w (by omega)
    rw [Nat.add_mul, Nat.one_mul] at hbehind
    rw [← hl x hx y hy (by omega)]
    refine pixelAt_congr fun c hc => ?_
    dsimp only
    rw [if_neg (by omega)]

theorem OnlyRead.sides {g' : Gallery} (hg : OnlyRead g g') :
    g'.width = g.width ∧ g'.height = g.height := by
  obtain ⟨m, o, rfl⟩ := hg
  exact ⟨rfl, rfl⟩

/-- One round of the loop: a row and its padding. -/
theorem Loaded.row {u : Gallery} (henc : Encodes file w h p) (hsize : (w : Int) * h * 3 < 2 ^ 31)
    (hw : g.width = w) (hh : g.height = h) (hl : Loaded g p w h k) (hk : k < h)
    (hoff : g.off = 54 + k * stride w)
    (hread : g.read (g.rowAddr (ofFile file) (g.height - 1 - k)) (g.width * 3)
      ((ofFile file).reads (2 + 2 * k)) = .ok u)
    (hskip : u.skip (u.width.tmod 4) ((ofFile file).reads (3 + 2 * k)) = .ok t) :
    Loaded t p w h (k + 1) ∧ t.off = 54 + (k + 1) * stride w := by
  have hsmall := henc.small hsize
  have hlen := henc.length
  have hu := (read_onlyRead hread).sides.1
  have hrow : g.height - 1 - k = (h - 1 - k : Nat) := by omega
  have haddr := (rowAddr_eq (g := g) (y := (h - 1 - k : Nat)) (show (ofFile file).roomA = true from rfl)
    (by omega) (by omega) (by omega) (by rw [hw, hh]; exact hsize)).1
  rw [hrow, haddr, hw, show (w : Int) * 3 = ((3 * w : Nat) : Int) by omega, ← Int.natCast_mul]
    at hread
  obtain ⟨hnext, hoff'⟩ := hl.next henc hsmall hk hoff hread
  obtain ⟨bs, hbs, rfl⟩ := skip_eq hskip
  obtain rfl : file.drop u.off = bs := Option.some.inj hbs
  refine ⟨hnext, ?_⟩
  have hpad : u.width.tmod 4 = ((w % 4 : Nat) : Int) := by
    rw [hu, hw]
    exact (tmod_four (by omega)).1
  have hrows : (k + 1) * stride w ≤ h * stride w := Nat.mul_le_mul_right _ hk
  rw [Nat.add_mul, Nat.one_mul] at hrows ⊢
  have hstride := stride_eq w
  have hend : u.off + w % 4 ≤ file.length := by omega
  dsimp only
  rw [hpad, count_eq (by omega), List.length_take, List.length_drop]
  omega

theorem readRows_pixels (henc : Encodes file w h p)
    (hsize : (w : Int) * h * 3 < 2 ^ 31) (hw : g.width = w) (hh : g.height = h) (hoff : g.off = 54)
    (hs : g.readRows (ofFile file) = .ok t) : Loaded t p w h h ∧ t.off = file.length := by
  have hh' : g.height.toNat = h := by rw [hh, Int.toNat_natCast]
  have hall : (t.width = w ∧ t.height = h) ∧ Loaded t p w h g.height.toNat ∧
      t.off = 54 + g.height.toNat * stride w := by
    refine Loop.upto_tracks (J := fun k (t : Gallery) => (t.width = w ∧ t.height = h) ∧
      Loaded t p w h k ∧
      t.off = 54 + k * stride w) hs ⟨⟨hw, hh⟩, fun x _ y hy hle => absurd hy (by omega),
        by rw [hoff, Nat.zero_mul]⟩ fun k hk t t' ht hbody => ?_
    obtain ⟨⟨hw, hh⟩, hl, ho⟩ := ht
    split at hbody
    · cases hbody
    next u hread =>
      have hsides := (read_onlyRead hread).trans (skip_onlyRead hbody) |>.sides
      exact ⟨⟨hsides.1.trans hw, hsides.2.trans hh⟩,
        hl.row henc hsize hw hh (by omega) ho hread hbody⟩
  rw [hh'] at hall
  exact ⟨hall.2.1, hall.2.2.trans henc.length.symm⟩

/-- For every picture whose bytes fit an `int`, and whatever else is in the headers and the padding:
    a load of its bitmap gives the picture, with each channel in its place, and leaves the offset
    at the end of the file. -/
theorem imgread_decodes (henc : Encodes file w h p) (hsize : (w : Int) * h * 3 < 2 ^ 31)
    (hfd : g.nfd < NOFILE) (hheap : g.heap ≤ g.sz) : ∃ t, g.imgread (ofFile file) = .ok t ∧
      t.width = w ∧ t.height = h ∧
      (∀ x < w, ∀ y < h, pixelAt t.mem (t.pixels + 3 * (y * w + x)) = p x y) ∧
      t.off = file.length := by
  obtain ⟨hw, hh, hoff⟩ := opened_ofFile (g := g) henc
  have hanswers : Answers g (ofFile file) :=
    ⟨⟨rfl, rfl, fun _ _ => by rw [hw, hh]; exact hsize⟩, by omega, hheap, rfl, hfd,
      fun _ _ _ => ⟨_, rfl⟩⟩
  obtain ⟨t, ht⟩ := imgread_ok hanswers
  obtain ⟨u, hu, hrows, -⟩ := imgread_rows ht
  obtain ⟨hw', hh', hoff'⟩ : u.width = w ∧ u.height = h ∧ u.off = 54 := by
    obtain ⟨m, s, q, r, rfl⟩ := allocate_eq hu
    dsimp only
    exact ⟨hw, hh, hoff⟩
  obtain ⟨hloaded, hend⟩ := readRows_pixels henc hsize hw' hh' hoff' hrows
  have hsides := (readRows_onlyRead hrows).sides
  exact ⟨t, ht, hsides.1.trans hw', hsides.2.trans hh',
    fun x hx y hy => hloaded x hx y hy (by omega), hend⟩

theorem imgread_decodes_white : ∃ t, imgread blank (ofFile white) = .ok t ∧
    pixelAt t.mem t.pixels = ⟨255, 255, 255⟩ ∧ t.off = 58 := by
  have henc : Encodes white 1 1 fun _ _ => ⟨255, 255, 255⟩ :=
    ⟨by decide, by decide, by decide, by decide, by decide, by decide, by decide⟩
  obtain ⟨t, ht, -, -, hpixel, hend⟩ :=
    imgread_decodes henc (by decide) (g := blank) (by decide) (by decide)
  exact ⟨t, ht, hpixel 0 (by decide) 0 (by decide), hend⟩

end Xv6.Gallery
