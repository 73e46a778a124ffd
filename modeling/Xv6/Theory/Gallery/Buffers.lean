import Xv6.Theory.Gallery.Memory
import Mathlib.Tactic.IntervalCases

/-!
# Loading and the Two Buffers

A rotation copies the picture from one buffer to the other, and the flag `a` says which one is
which. `imgread` takes two new buffers and puts the picture into the first, but leaves the
flag as it is, so a reset after an odd number of rotations parts them (`reset_unpairs`).

## Theorems

* `Gallery.double_buffered`, `Gallery.reset_unpairs`, `Gallery.reset_never_restores`,
  `Gallery.reset_leaks`
-/

namespace Xv6.Gallery

variable {g g' : Gallery} {io : Io} {msg : UInt8} {c : Cmd}

section Load

/-- What the first `read` gives. -/
def firstRead (io : Io) : List UInt8 := ((io.reads 0 0).getD []).take 14

/-- What the second `read` gives, where the first one ended. -/
def secondRead (io : Io) : List UInt8 := ((io.reads 1 (firstRead io).length).getD []).take 40

/-- `ih` after a load has read it. -/
def header (g : Gallery) (io : Io) : List UInt8 :=
  secondRead io ++ g.ih.drop (secondRead io).length

/-- What a load has set before it takes memory. -/
def opened (g : Gallery) (io : Io) : Gallery :=
  { g with
    nfd := g.nfd + 1
    off := (firstRead io).length + (secondRead io).length
    fh := firstRead io ++ g.fh.drop (firstRead io).length
    ih := header g io
    height := field (header g io) 8
    width := field (header g io) 4 }

/-- There is memory for the picture, whose size in bytes is a positive `int`. -/
structure Fits (g : Gallery) (io : Io) : Prop where
  roomA : io.roomA = true
  roomB : io.roomB = true
  size : 0 < (opened g io).width → 0 < (opened g io).height →
    (opened g io).width * (opened g io).height * 3 < 2 ^ 31

/-- The file is a picture of at least one pixel, and there is memory for it. -/
structure Image (g : Gallery) (io : Io) : Prop extends Fits g io where
  width : 0 < (opened g io).width
  height : 0 < (opened g io).height

variable {n dst : Int} {r : Nat → Option (List UInt8)} {off : Nat}

theorem sbrk_eq {room : Bool} {q : Nat} (hs : g.sbrk n room = .ok (q, g')) :
    ∃ m s, g' = { g with mem := m, sz := s } := by
  unfold sbrk at hs
  split_ifs at hs <;> cases hs
  · exact ⟨g.mem, g.sz, rfl⟩
  · exact ⟨_, _, rfl⟩
  · exact ⟨g.mem, g.sz, rfl⟩
  · exact ⟨g.mem, _, rfl⟩

theorem allocate_eq (hs : g.allocate io = .ok g') :
    ∃ m s q r, g' = { g with mem := m, sz := s, pa := q, pb := r, pixels := q } := by
  unfold allocate at hs
  split at hs
  · cases hs
  next hA =>
    split at hs
    · cases hs
    next hB =>
      cases hs
      obtain ⟨m, s, rfl⟩ := sbrk_eq hA
      obtain ⟨m', s', rfl⟩ := sbrk_eq hB
      exact ⟨_, _, _, _, rfl⟩

theorem allocate_fits (hA : io.roomA = true) (hB : io.roomB = true) (hw : 0 ≤ g.width)
    (hh : 0 ≤ g.height) (hsize : g.width * g.height * 3 < 2 ^ 31) : ∃ u, g.allocate io = .ok u ∧
      u.pa = g.sz ∧ (u.pb : Int) = g.sz + 3 * (g.width * g.height) ∧
      (u.sz : Int) = g.sz + 3 * (g.width * g.height) + 3 * (g.width * g.height) := by
  have hnonneg : 0 ≤ g.width * g.height := Int.mul_nonneg hw hh
  have hgrow : ∀ t : Gallery, t.width = g.width → t.height = g.height → ∃ m,
      t.sbrk t.bytes true = .ok (t.sz,
        { t with mem := m, sz := t.sz + (3 * (g.width * g.height)).toNat }) := by
    intro t hw' hh'
    have hbytes : t.bytes = 3 * (g.width * g.height) := by
      unfold bytes
      rw [hw', hh', Int.bmod_eq_of_le (by omega) (by omega)]
      omega
    unfold sbrk
    rw [hbytes, if_neg (by decide), if_pos (by omega)]
    exact ⟨_, rfl⟩
  obtain ⟨m, hfirst⟩ := hgrow g rfl rfl
  obtain ⟨m', hsecond⟩ := hgrow
    { g with mem := m, sz := g.sz + (3 * (g.width * g.height)).toNat } rfl rfl
  have hrun : g.allocate io = .ok { g with
      mem := m'
      sz := g.sz + (3 * (g.width * g.height)).toNat + (3 * (g.width * g.height)).toNat
      pa := g.sz
      pb := g.sz + (3 * (g.width * g.height)).toNat
      pixels := g.sz } := by
    unfold allocate
    rw [hA, hB, hfirst]
    dsimp only
    rw [hsecond]
  refine ⟨_, hrun, rfl, ?_, ?_⟩
  · dsimp only
    omega
  · dsimp only
    omega

/-- What reading from the file changes, headers apart. -/
def OnlyRead (g g' : Gallery) : Prop := ∃ m o, g' = { g with mem := m, off := o }

theorem OnlyRead.refl (g : Gallery) : OnlyRead g g := ⟨g.mem, g.off, rfl⟩

theorem OnlyRead.trans {g1 g2 g3 : Gallery} : OnlyRead g1 g2 → OnlyRead g2 g3 → OnlyRead g1 g3 := by
  rintro ⟨m, o, rfl⟩ ⟨m', o', rfl⟩
  exact ⟨m', o', rfl⟩

theorem skip_eq (hs : g.skip n r = .ok g') :
    ∃ bs, r g.off = some bs ∧ g' = { g with off := g.off + (bs.take (count g.off n)).length } := by
  unfold skip at hs
  split at hs
  · cases hs
  next bs hbs =>
    dsimp only at hs
    split_ifs at hs
    cases hs
    exact ⟨bs, hbs, rfl⟩

theorem read_eq (hs : g.read dst n r = .ok g') :
    ∃ bs, r g.off = some bs ∧
      (bs.take (count g.off n) = [] ∨ 0 ≤ dst ∧ g.heap ≤ dst) ∧ g' = { g with
        off := g.off + (bs.take (count g.off n)).length
        mem := fun x => if dst ≤ x ∧ x < dst + (bs.take (count g.off n)).length then
          (bs.take (count g.off n)).getD (x - dst).toNat 0 else g.mem x } := by
  unfold read at hs
  split at hs
  · cases hs
  next bs hbs =>
    refine ⟨bs, hbs, ?_⟩
    dsimp only at hs
    split_ifs at hs with hnil hlow hfit
    · cases hs
      refine ⟨.inl hnil, ?_⟩
      have hnone : (fun x : Nat => if dst ≤ x ∧
        (x : Int) < dst + (([] : List UInt8).length : Int) then
          ([] : List UInt8).getD (x - dst).toNat 0 else g.mem x) = g.mem := by
        funext x
        rw [if_neg]
        rw [List.length_nil]
        omega
      rw [hnil, hnone]
      rfl
    · cases hs
      exact ⟨.inr ⟨hfit.1, by omega⟩, rfl⟩

theorem read_onlyRead (hs : g.read dst n r = .ok g') :
    OnlyRead g g' := by
  obtain ⟨bs, -, -, rfl⟩ := read_eq hs
  exact ⟨_, _, rfl⟩

theorem skip_onlyRead (hs : g.skip n r = .ok g') :
    OnlyRead g g' := by
  obtain ⟨bs, -, rfl⟩ := skip_eq hs
  exact ⟨_, _, rfl⟩

theorem readRows_onlyRead (hs : g.readRows io = .ok g') : OnlyRead g g' := by
  unfold readRows at hs
  refine Loop.upto_keeps hs (.refl g) fun k _ t t' ht hbody => ?_
  split at hbody
  · cases hbody
  next r hr => exact (ht.trans (read_onlyRead hr)).trans (skip_onlyRead hbody)

theorem readHeaders_ok {bs bs' : List UInt8} (h0 : io.reads 0 0 = some bs)
    (h1 : io.reads 1 (firstRead io).length = some bs') :
    readHeaders { g with nfd := g.nfd + 1 } io = .ok { g with
      nfd := g.nfd + 1
      off := (firstRead io).length + (secondRead io).length
      fh := firstRead io ++ g.fh.drop (firstRead io).length
      ih := header g io } := by
  have hfirst : firstRead io = bs.take 14 := by rw [firstRead, h0, Option.getD_some]
  have hsecond : secondRead io = bs'.take 40 := by rw [secondRead, h1, Option.getD_some]
  rw [hfirst] at h1
  simp only [readHeaders, h0, h1, header, hfirst, hsecond]

theorem imgread_rows (hs : g.imgread io = .ok g') : ∃ u, (opened g io).allocate io = .ok u ∧
    u.readRows io = .ok g' ∧ io.found = true ∧ g.nfd < NOFILE ∧
    (∃ bs, io.reads 0 0 = some bs) ∧ ∃ bs, io.reads 1 (firstRead io).length = some bs := by
  unfold imgread at hs
  split_ifs at hs with hopen
  cases h0 : io.reads 0 0 with
  | none =>
    simp only [readHeaders, h0] at hs
    cases hs
  | some bs =>
    have hfirst : firstRead io = bs.take 14 := by rw [firstRead, h0, Option.getD_some]
    cases h1 : io.reads 1 (firstRead io).length with
    | none =>
      rw [hfirst] at h1
      simp only [readHeaders, h0, h1] at hs
      cases hs
    | some bs' =>
      rw [readHeaders_ok h0 h1] at hs
      dsimp only at hs
      rw [← opened] at hs
      split at hs
      · cases hs
      next u hu => exact ⟨u, hu, hs, hopen.1, hopen.2, ⟨bs, rfl⟩, bs', rfl⟩

theorem imgread_eq (hs : g.imgread io = .ok g') : ∃ m s q r o, g' = { opened g io with
    mem := m, sz := s, pa := q, pb := r, pixels := q, off := o } := by
  obtain ⟨u, hu, hrows, -⟩ := imgread_rows hs
  obtain ⟨m, s, q, r, rfl⟩ := allocate_eq hu
  obtain ⟨m', o, rfl⟩ := readRows_onlyRead hrows
  refine ⟨m', s, q, r, o, ?_⟩
  dsimp only

theorem allocate_buffers {u : Gallery} (h : Fits g io) (hu : (opened g io).allocate io = .ok u) :
    u.pixels = u.pa ∧ u.Buffer u.pa ∧ u.Buffer u.pb := by
  obtain ⟨m, s, q, r, rfl⟩ := allocate_eq hu
  have hfits : 0 < (opened g io).width → 0 < (opened g io).height →
      q = (opened g io).sz ∧
        (r : Int) = (opened g io).sz + 3 * ((opened g io).width * (opened g io).height) ∧
        (s : Int) = (opened g io).sz + 3 * ((opened g io).width * (opened g io).height) +
          3 * ((opened g io).width * (opened g io).height) := by
    intro hw hh
    obtain ⟨u, hu', hpa, hpb, hsz⟩ := allocate_fits h.roomA h.roomB hw.le hh.le (h.size hw hh)
    rw [hu] at hu'
    cases hu'
    exact ⟨hpa, hpb, hsz⟩
  refine ⟨rfl, fun hw hh => ?_, fun hw hh => ?_⟩
  · dsimp only at hw hh ⊢
    obtain ⟨hpa, -, hsz⟩ := hfits hw hh
    have hpos := Int.mul_pos hw hh
    omega
  · dsimp only at hw hh ⊢
    obtain ⟨-, hpb, hsz⟩ := hfits hw hh
    omega

/-- Every call that a load makes succeeds, for a picture whose sides are not negative. -/
structure Answers (g : Gallery) (io : Io) : Prop extends Fits g io where
  sides : 0 ≤ (opened g io).width ∧ 0 ≤ (opened g io).height
  heap : g.heap ≤ g.sz
  found : io.found = true
  descriptor : g.nfd < NOFILE
  reads : ∀ k < 2 + 2 * (opened g io).height.toNat, ∀ off, ∃ bs, io.reads k off = some bs

theorem count_le (o : Nat) (hn : 0 ≤ n) : (count o n : Int) ≤ n := by
  unfold count
  split_ifs <;> omega

theorem length_take_count (o : Nat) (hn : 0 ≤ n) (bs : List UInt8) :
    ((bs.take (count o n)).length : Int) ≤ n := by
  have hlen : (bs.take (count o n)).length ≤ count o n := List.length_take_le _ bs
  have hcount := count_le o hn
  omega

theorem read_ok {d : Int} (hn : 0 ≤ n)
    (h : n = 0 ∨ g.heap ≤ d ∧ d + n ≤ pgRoundUp g.sz) (hr : ∃ bs, r g.off = some bs) :
    ∃ g', g.read d n r = .ok g' := by
  obtain ⟨bs, hbs⟩ := hr
  have hlen := length_take_count g.off hn bs
  unfold read
  rw [hbs]
  dsimp only
  by_cases hnil : bs.take (count g.off n) = []
  · exact ⟨_, if_pos hnil⟩
  · have hpos := List.length_pos_iff.mpr hnil
    have hlow : ¬ (0 ≤ d ∧ d < g.heap) := by omega
    have hfit : 0 ≤ d ∧ d + (bs.take (count g.off n)).length ≤ pgRoundUp g.sz := by omega
    rw [if_neg hnil, if_neg hlow]
    exact ⟨_, if_pos hfit⟩

theorem skip_ok (hn : 0 ≤ n) (hsmall : n ≤ 12)
    (hr : ∃ bs, r g.off = some bs) : ∃ g', g.skip n r = .ok g' := by
  obtain ⟨bs, hbs⟩ := hr
  have hlen := length_take_count g.off hn bs
  unfold skip
  rw [hbs]
  exact ⟨_, if_neg (by omega)⟩

/-- In a picture whose bytes fit an `int` a row is where it should be. -/
theorem rowAddr_eq {y : Int} (hA : io.roomA = true) (hw : 0 ≤ g.width) (hy : 0 ≤ y)
    (hyh : y < g.height) (hsize : g.width * g.height * 3 < 2 ^ 31) :
    g.rowAddr io y = g.pixels + 3 * (y * g.width) ∧
      3 * (y * g.width) + g.width * 3 ≤ 3 * (g.width * g.height) ∧ 0 ≤ y * g.width := by
  have hrow : (y + 1) * g.width ≤ g.height * g.width := Int.mul_le_mul_of_nonneg_right (by omega) hw
  have hnonneg : 0 ≤ y * g.width := Int.mul_nonneg hy hw
  rw [Int.add_mul, Int.one_mul, Int.mul_comm g.height] at hrow
  refine ⟨?_, by omega, hnonneg⟩
  rw [rowAddr, if_pos hA, Int.bmod_eq_of_le (by omega) (by omega)]

theorem tmod_four {w : Int} (hw : 0 ≤ w) : w.tmod 4 = w % 4 ∧ 0 ≤ w % 4 ∧ w % 4 < 4 :=
  ⟨Int.tmod_eq_emod_of_nonneg hw, Int.emod_nonneg _ (by decide), Int.emod_lt_of_pos _ (by decide)⟩

theorem readRows_ok (h : g.Buffer g.pixels) (hA : io.roomA = true) (hw : 0 ≤ g.width)
    (hsize : 0 < g.width → 0 < g.height → g.width * g.height * 3 < 2 ^ 31)
    (hheap : g.heap ≤ g.pixels)
    (hreads : ∀ k < 2 + 2 * g.height.toNat, ∀ off, ∃ bs, io.reads k off = some bs) :
    ∃ g', g.readRows io = .ok g' := by
  have hloop : ∃ g', g.readRows io = .ok g' ∧ OnlyRead g g' := by
    unfold readRows
    refine Loop.upto_reaches (J := fun _ t => OnlyRead g t) (.refl g) fun k hk t ht => ?_
    obtain ⟨m, o, rfl⟩ := ht
    have hfit : g.width * 3 = 0 ∨ (g.heap : Int) ≤ g.rowAddr io (g.height - 1 - k) ∧
        g.rowAddr io (g.height - 1 - k) + g.width * 3 ≤ pgRoundUp g.sz := by
      by_cases hpos : 0 < g.width
      · right
        have hbuf := h hpos (by omega)
        have hround := le_pgRoundUp g.sz
        obtain ⟨haddr, hrow, hnonneg⟩ := rowAddr_eq (g := g) (y := g.height - 1 - k) hA hw
          (by omega) (by omega) (hsize hpos (by omega))
        omega
      · left
        omega
    obtain ⟨u, hu⟩ := read_ok (g := { g with mem := m, off := o }) (by omega : 0 ≤ g.width * 3)
      hfit (hreads (2 + 2 * k) (by omega) o)
    have hu' := read_onlyRead hu
    obtain ⟨v, hv⟩ := skip_ok (g := u) (n := u.width.tmod 4) (by
        obtain ⟨m', o', rfl⟩ := hu'
        exact Int.tmod_nonneg _ hw) (by
        obtain ⟨m', o', rfl⟩ := hu'
        have := tmod_four hw
        dsimp only
        omega) (hreads (3 + 2 * k) (by omega) u.off)
    refine ⟨v, ?_, (OnlyRead.trans ⟨m, o, rfl⟩ hu').trans (skip_onlyRead hv)⟩
    have haddr : rowAddr { g with mem := m, off := o } io (g.height - 1 - k) =
        g.rowAddr io (g.height - 1 - k) := rfl
    simp only [haddr, hu, hv]
  obtain ⟨g', hg', -⟩ := hloop
  exact ⟨g', hg'⟩

theorem imgread_ok (h : Answers g io) : ∃ g', g.imgread io = .ok g' := by
  obtain ⟨b0, h0⟩ := h.reads 0 (by omega) 0
  obtain ⟨b1, h1⟩ := h.reads 1 (by omega) (firstRead io).length
  have hsize : (opened g io).width * (opened g io).height * 3 < 2 ^ 31 := by
    by_cases hpos : 0 < (opened g io).width ∧ 0 < (opened g io).height
    · exact h.size hpos.1 hpos.2
    · have hzero : (opened g io).width = 0 ∨ (opened g io).height = 0 := by
        have := h.sides
        omega
      rcases hzero with hz | hz <;> simp [hz]
  obtain ⟨u, hu, hpa, -⟩ := allocate_fits h.roomA h.roomB h.sides.1 h.sides.2 hsize
  obtain ⟨hpx, hbuf, -⟩ := allocate_buffers h.toFits hu
  obtain ⟨m, s, q, r, heq⟩ := allocate_eq hu
  have hrows : ∃ g', u.readRows io = .ok g' := by
    rw [← hpx] at hbuf
    have hheap : u.heap ≤ u.pixels := by
      rw [hpx, hpa, heq]
      exact h.heap
    refine readRows_ok hbuf h.roomA ?_ ?_ hheap ?_ <;> rw [heq] <;> dsimp only
    · exact h.sides.1
    · exact h.size
    · exact h.reads
  obtain ⟨g', hg'⟩ := hrows
  refine ⟨g', ?_⟩
  unfold imgread
  rw [if_pos ⟨h.found, h.descriptor⟩, readHeaders_ok h0 h1]
  dsimp only
  rw [← opened, hu]
  exact hg'

/-- A process that has just started. -/
def blank : Gallery :=
  { mem := fun _ => 0, sz := 5 * PGSIZE, heap := 5 * PGSIZE, nfd := 3, off := 0
    fh := List.replicate 14 0, ih := List.replicate 40 0, width := 0, height := 0
    pixels := 0, pa := 0, pb := 0, a := true, xpos := 0, ypos := 0, zoom := 1
    screen := ⟨fun _ => ⟨0, 0, 0⟩, []⟩, listening := 0 }

/-- The file is there, and so is memory for the picture. -/
def ofFile (file : List UInt8) : Io :=
  { found := true, roomA := true, roomB := true, reads := fun _ off => some (file.drop off) }

/-- The bitmap of one white pixel. -/
def white : List UInt8 :=
  [66, 77, 58, 0, 0, 0, 0, 0, 0, 0, 54, 0, 0, 0, 40, 0, 0, 0, 1, 0, 0, 0, 1, 0, 0, 0, 1,
    0, 24, 0] ++
    List.replicate 24 0 ++ [255, 255, 255, 0]

def dot : Io := ofFile white

theorem field_one {ih : List UInt8} {k : Nat} (h0 : ih.getD k 0 = 1) (h1 : ih.getD (k + 1) 0 = 0)
    (h2 : ih.getD (k + 2) 0 = 0) (h3 : ih.getD (k + 3) 0 = 0) : field ih k = 1 := by
  unfold field
  rw [h0, h1, h2, h3]
  decide

theorem opened_dot (g : Gallery) : (opened g dot).width = 1 ∧ (opened g dot).height = 1 := by
  have hih : ∀ k < 16, (header g dot).getD k 0 =
      [40, 0, 0, 0, 1, 0, 0, 0, 1, 0, 0, 0, 1, 0, 24, (0 : UInt8)].getD k 0 := by
    intro k hk
    interval_cases k <;> rfl
  simp only [opened]
  exact ⟨field_one (hih 4 (by decide)) (hih 5 (by decide)) (hih 6 (by decide)) (hih 7 (by decide)),
    field_one (hih 8 (by decide)) (hih 9 (by decide)) (hih 10 (by decide)) (hih 11 (by decide))⟩

theorem image_dot (g : Gallery) : Image g dot := by
  obtain ⟨hw, hh⟩ := opened_dot g
  refine ⟨⟨rfl, rfl, fun _ _ => ?_⟩, ?_, ?_⟩
  · rw [hw, hh]
    decide
  · rw [hw]
    decide
  · rw [hh]
    decide

/-- A test of the state that a function returns. -/
def returns (r : Except Stop Gallery) (f : Gallery → Bool) : Bool :=
  match r with
  | .ok t => f t
  | .error _ => false

theorem exists_of_returns {r : Except Stop Gallery} {f : Gallery → Bool} (h : returns r f = true) :
    ∃ t, r = .ok t ∧ f t = true := by
  cases r with
  | error e => cases h
  | ok t => exact ⟨t, rfl, h⟩

theorem imgread_dot : ∃ t, imgread blank dot = .ok t ∧ t.width = 1 ∧ t.height = 1 ∧ t.sz = 20486 ∧
    t.pa = 20480 ∧ t.pb = 20483 ∧ t.pixels = 20480 ∧ t.a = true ∧ t.nfd = 4 ∧
    pixelAt t.mem 20480 = ⟨255, 255, 255⟩ ∧ pixelAt t.mem 20483 = ⟨0, 0, 0⟩ ∧ t.heap ≤ t.sz := by
  have hrun : returns (imgread blank dot) (fun t => decide (t.width = 1 ∧ t.height = 1 ∧
      t.sz = 20486 ∧ t.pa = 20480 ∧ t.pb = 20483 ∧ t.pixels = 20480 ∧ t.a = true ∧ t.nfd = 4 ∧
      pixelAt t.mem 20480 = ⟨255, 255, 255⟩ ∧ pixelAt t.mem 20483 = ⟨0, 0, 0⟩ ∧
      t.heap ≤ t.sz)) = true := by
    decide +kernel
  obtain ⟨t, ht, hall⟩ := exists_of_returns hrun
  exact ⟨t, ht, of_decide_eq_true hall⟩

theorem answers_dot (hg : g.nfd < NOFILE) (hheap : g.heap ≤ g.sz) : Answers g dot := by
  obtain ⟨hw, hh⟩ := opened_dot g
  exact ⟨(image_dot g).toFits, by omega, hheap, rfl, hg, fun _ _ _ => ⟨_, rfl⟩⟩

end Load

section Commands

theorem thenDraw_eq {r : Except Stop Gallery} (hs : thenDraw r = .ok g') :
    ∃ t, r = .ok t ∧ OnlyScreen t g' := by
  cases r with
  | error e => cases hs
  | ok t => exact ⟨t, rfl, draw_onlyScreen hs⟩

/-- What keeps an invariant that does not mention the display, the position and the zoom: the
    functions that change pixels, the rotation and the load do. -/
theorem command_keeps {I : Gallery → Prop} (hI : I g)
    (hview : ∀ t sc x y z, I t → I { t with screen := sc, xpos := x, ypos := y, zoom := z })
    (hmem : ∀ t m, I t → I { t with mem := m })
    (hrotate : ∀ t t', I t → t.rrotate = .ok t' → I t')
    (hload : ∀ t', c = .r → imgread { g with xpos := 0, ypos := 0, zoom := 1 } io = .ok t' → I t')
    (hs : g.command io c = .ok g') : I g' := by
  -- `draw`, with which most commands end, changes the display alone.
  have hscreen : ∀ t t', I t → OnlyScreen t t' → I t' := by
    rintro t - ht ⟨sc, rfl⟩
    exact hview t sc t.xpos t.ypos t.zoom ht
  have hflip : ∀ t t', I t → OnlyMem t t' → I t' := by
    rintro t - ht ⟨m, rfl⟩
    exact hmem t m ht
  cases c with
  | r =>
    obtain ⟨t, ht, hsc⟩ := thenDraw_eq hs
    exact hscreen t g' (hload t rfl ht) hsc
  | h =>
    obtain ⟨t, ht, hsc⟩ := thenDraw_eq hs
    exact hscreen t g' (hflip g t hI (hflip_onlyMem ht)) hsc
  | v =>
    obtain ⟨t, ht, hsc⟩ := thenDraw_eq hs
    exact hscreen t g' (hflip g t hI (vflip_onlyMem ht)) hsc
  | i => exact hscreen _ g' (hview g g.screen g.xpos g.ypos (g.zoom * 2) hI) (draw_onlyScreen hs)
  | o =>
    simp only [command] at hs
    split_ifs at hs
    · exact hscreen _ g' (hview g g.screen g.xpos g.ypos (g.zoom / 2) hI) (draw_onlyScreen hs)
    · cases hs
      exact hI
  | up => exact hscreen _ g' (hview g g.screen g.xpos (g.ypos - 8) g.zoom hI) (draw_onlyScreen hs)
  | down => exact hscreen _ g' (hview g g.screen g.xpos (g.ypos + 8) g.zoom hI) (draw_onlyScreen hs)
  | right =>
    exact hscreen _ g' (hview g g.screen (g.xpos + 8) g.ypos g.zoom hI) (draw_onlyScreen hs)
  | left => exact hscreen _ g' (hview g g.screen (g.xpos - 8) g.ypos g.zoom hI) (draw_onlyScreen hs)
  | d =>
    obtain ⟨t, ht, hsc⟩ := thenDraw_eq hs
    exact hscreen t g' (Loop.upto_keeps ht hI fun _ _ => hrotate) hsc
  | f =>
    obtain ⟨t, ht, hsc⟩ := thenDraw_eq hs
    exact hscreen t g' (hrotate g t hI ht) hsc
  | x =>
    cases hs
    exact hI
  | other =>
    cases hs
    exact hI

theorem event_running (hs : event (.running g) (msg, io) = .running g') :
    msg = 0 ∧ g' = g ∨ g.command io (Cmd.ofMsg msg) = .ok g' := by
  unfold event at hs
  dsimp only at hs
  by_cases hmsg : msg = 0
  · rw [if_pos hmsg] at hs
    cases hs
    exact .inl ⟨hmsg, rfl⟩
  · grind

theorem event_exited {l : Int} (hs : event (.running g) (msg, io) = .exited l) :
    l = 0 ∨ l = g.listening ∧ ∃ e, g.command io (Cmd.ofMsg msg) = .error e := by
  unfold event at hs
  dsimp only at hs
  by_cases hmsg : msg = 0
  · rw [if_pos hmsg] at hs
    cases hs
  · grind

theorem main_running (hs : main g io = .running g') :
    ∃ t sc, g.imgread io = .ok t ∧ g' = { t with screen := sc, listening := 1 } := by
  unfold main at hs
  split at hs
  · cases hs
  next t ht =>
    cases hs
    obtain ⟨r, hr, sc, rfl⟩ := thenDraw_eq ht
    exact ⟨r, sc, hr, rfl⟩

theorem event_of_command (hmsg : msg ≠ 0) (hx : Cmd.ofMsg msg ≠ .x)
    (hs : g.command io (Cmd.ofMsg msg) = .ok g') : event (.running g) (msg, io) = .running g' := by
  simp only [event, if_neg hmsg, hs, if_neg hx]

theorem thenDraw_ok (h : g.Buffer g.pixels) :
    ∃ g', thenDraw (.ok g) = .ok g' ∧ OnlyScreen g g' := draw_ok h

theorem imgread_buffers (h : Fits g io) (hs : g.imgread io = .ok g') :
    g'.pixels = g'.pa ∧ g'.Buffer g'.pa ∧ g'.Buffer g'.pb := by
  obtain ⟨u, hu, hrows, -⟩ := imgread_rows hs
  obtain ⟨m, o, rfl⟩ := readRows_onlyRead hrows
  obtain ⟨hpx, hpa, hpb⟩ := allocate_buffers h hu
  exact ⟨hpx, hpa, hpb⟩

theorem main_ok (h : Answers g io) : ∃ g', main g io = .running g' := by
  obtain ⟨t, ht⟩ := imgread_ok h
  obtain ⟨hpa, hbuf, -⟩ := imgread_buffers h.toFits ht
  obtain ⟨r, hr, -⟩ := thenDraw_ok (g := t) (by rw [hpa]; exact hbuf)
  refine ⟨{ r with listening := 1 }, ?_⟩
  simp only [main, ht, hr]

theorem main_blank : ∃ g, main blank dot = .running g :=
  main_ok (answers_dot (by decide) (by decide))

theorem reset_ok (h : Answers g io) :
    ∃ t g', imgread { g with xpos := 0, ypos := 0, zoom := 1 } io = .ok t ∧
      g.command io .r = .ok g' ∧ OnlyScreen t g' := by
  have h' : Answers { g with xpos := 0, ypos := 0, zoom := 1 } io :=
    ⟨⟨h.roomA, h.roomB, h.size⟩, h.sides, h.heap, h.found, h.descriptor, h.reads⟩
  obtain ⟨t, ht⟩ := imgread_ok h'
  obtain ⟨hpa, hbuf, -⟩ := imgread_buffers h'.toFits ht
  obtain ⟨r, hr, hsc⟩ := thenDraw_ok (g := t) (by rw [hpa]; exact hbuf)
  refine ⟨t, r, ht, ?_, hsc⟩
  simp only [command, ht]
  exact hr

theorem Buffer.turned {q : Nat} (h : g.Buffer q) (hw : g'.width = g.height)
    (hh : g'.height = g.width) (hsz : g'.sz = g.sz) : g'.Buffer q := by
  intro hpos hpos'
  rw [hw, hh, hsz, Int.mul_comm g.height]
  exact h (by omega) (by omega)

theorem rotate_ok (h : g.Buffer g.pixels) (hbuf : g.Buffer g.newPixels)
    (hroom : g.Roomy g.newPixels) (io : Io) :
    ∃ t g', g.rrotate = .ok t ∧ g.command io .f = .ok g' ∧ OnlyScreen t g' := by
  obtain ⟨t, ht⟩ := rrotate_ok h hroom
  obtain ⟨m, heq⟩ := rrotate_eq ht
  have hnew : t.Buffer t.pixels := by
    rw [heq]
    exact hbuf.turned rfl rfl rfl
  obtain ⟨r, hr, hsc⟩ := thenDraw_ok hnew
  refine ⟨t, r, ht, ?_, hsc⟩
  simp only [command, ht]
  exact hr

/-- The states at the head of the event loop, along runs in which every load and every command
    meets the condition `ok`. The process starts with the flag up. -/
inductive Runs (ok : Gallery → Io → Cmd → Prop) : Gallery → Prop
  | start {g0 g : Gallery} {io : Io} (hmain : main g0 io = .running g) (ha : g0.a = true)
      (hok : ok g0 io .r) : Runs ok g
  | event {g g' : Gallery} {msg : UInt8} {io : Io} (h : Runs ok g)
      (he : event (.running g) (msg, io) = .running g') (hok : ok g io (Cmd.ofMsg msg)) : Runs ok g'

end Commands

section Pairing

/-- The picture is in the buffer that the flag says, and the two buffers are memory of the
    process and do not overlap. -/
structure Paired (g : Gallery) : Prop where
  width : 0 < g.width
  height : 0 < g.height
  current : g.pixels = if g.a then g.pa else g.pb
  apart : (g.pa : Int) + 3 * (g.width * g.height) ≤ g.pb
  fits : (g.pb : Int) + 3 * (g.width * g.height) ≤ g.sz

theorem Paired.rrotate (h : Paired g) (hs : g.rrotate = .ok g') : Paired g' := by
  obtain ⟨m, rfl⟩ := rrotate_eq hs
  refine ⟨h.height, h.width, ?_, ?_, ?_⟩
  · dsimp only [newPixels]
    cases g.a <;> rfl
  · dsimp only
    rw [Int.mul_comm g.height]
    exact h.apart
  · dsimp only
    rw [Int.mul_comm g.height]
    exact h.fits

theorem imgread_image (hi : Image g io) (hs : g.imgread io = .ok g') :
    ∃ u, (opened g io).allocate io = .ok u ∧ u.pa = g.sz ∧
      (u.pb : Int) = g.sz + 3 * ((opened g io).width * (opened g io).height) ∧
      (u.sz : Int) = g.sz + 3 * ((opened g io).width * (opened g io).height) +
        3 * ((opened g io).width * (opened g io).height) ∧ OnlyRead u g' := by
  obtain ⟨u, hu, hrows, -⟩ := imgread_rows hs
  obtain ⟨u', hu', hpa, hpb, hsz⟩ := allocate_fits hi.roomA hi.roomB hi.width.le hi.height.le
    (hi.size hi.width hi.height)
  rw [hu] at hu'
  cases hu'
  exact ⟨u, hu, hpa, hpb, hsz, readRows_onlyRead hrows⟩

theorem paired_imgread (hi : Image g io) (ha : g.a = true) (hs : g.imgread io = .ok g') :
    Paired g' := by
  obtain ⟨u, hu, hpa, hpb, hsz, hrows⟩ := imgread_image hi hs
  obtain ⟨m, s, q, r, rfl⟩ := allocate_eq hu
  obtain ⟨m', o, rfl⟩ := hrows
  dsimp only at hpa hpb hsz
  refine ⟨?_, ?_, (if_pos ha).symm, ?_, ?_⟩
  · dsimp only
    exact hi.width
  · dsimp only
    exact hi.height
  · dsimp only
    omega
  · dsimp only
    omega

theorem unpaired_imgread (hi : Image g io) (ha : g.a = false) (hs : g.imgread io = .ok g') :
    g'.pixels ≠ (if g'.a then g'.pa else g'.pb) := by
  obtain ⟨u, hu, hpa, hpb, -, hrows⟩ := imgread_image hi hs
  obtain ⟨m, s, q, r, rfl⟩ := allocate_eq hu
  obtain ⟨m', o, rfl⟩ := hrows
  have hpos := Int.mul_pos hi.width hi.height
  have hflag : (opened g io).a = false := ha
  dsimp only at hpa hpb ⊢
  rw [hflag]
  intro hqr
  have hqr' : q = r := hqr
  omega

/-- The condition under which commands keep the pairing. -/
def FlagUp (g : Gallery) (io : Io) (c : Cmd) : Prop := c = .r → g.a = true ∧ Image g io

theorem paired_command (h : Paired g) (hok : FlagUp g io c) (hs : g.command io c = .ok g') :
    Paired g' := by
  refine command_keeps h ?_ ?_ (fun t t' ht hr => ht.rrotate hr) ?_ hs
  · intro t sc x y z ht
    exact ⟨ht.width, ht.height, ht.current, ht.apart, ht.fits⟩
  · intro t m ht
    exact ⟨ht.width, ht.height, ht.current, ht.apart, ht.fits⟩
  · intro t' hc ht'
    obtain ⟨ha, hi⟩ := hok hc
    have hi' : Image { g with xpos := 0, ypos := 0, zoom := 1 } io :=
      ⟨⟨hi.roomA, hi.roomB, hi.size⟩, hi.width, hi.height⟩
    exact paired_imgread hi' ha ht'

theorem paired_runs (h : Runs FlagUp g) : Paired g := by
  induction h with
  | start hmain _ hok =>
    obtain ⟨t, sc, ht, rfl⟩ := main_running hmain
    obtain ⟨ha, hi⟩ := hok rfl
    have hp := paired_imgread hi ha ht
    exact ⟨hp.width, hp.height, hp.current, hp.apart, hp.fits⟩
  | event _ he hok ih =>
    rcases event_running he with ⟨-, rfl⟩ | hs
    · exact ih
    · exact paired_command ih hok hs

/-- In a run in which every load finds a picture and memory for it and every reset comes with
    the flag up: the picture is in the buffer that the flag says, the buffers are two ranges of
    `width * height` pixels that do not overlap, and so the one that `rrotate` writes to is not
    the one it reads from. -/
theorem double_buffered (h : Runs FlagUp g) : g.pixels = (if g.a then g.pa else g.pb) ∧
      ((g.pa : Int) + 3 * (g.width * g.height) ≤ g.pb ∧
        (g.pb : Int) + 3 * (g.width * g.height) ≤ g.sz) ∧
      ((g.pixels : Int) + 3 * (g.width * g.height) ≤ g.newPixels ∨
        (g.newPixels : Int) + 3 * (g.width * g.height) ≤ g.pixels) ∧ g.newPixels ≠ g.pixels := by
  have hp := paired_runs h
  have hpos : 0 < g.width * g.height := Int.mul_pos hp.width hp.height
  have hcur := hp.current
  have hapart := hp.apart
  refine ⟨hcur, ⟨hapart, hp.fits⟩, ?_, ?_⟩
  · grind [newPixels]
  · unfold newPixels
    rw [hcur]
    cases g.a <;> simp <;> omega

theorem main_dot (h : main blank dot = .running g) :
    (g.width = 1 ∧ g.height = 1 ∧ g.sz = 20486 ∧ g.pixels = 20480) ∧ g.newPixels = 20483 ∧
      g.a = true ∧ g.nfd = 4 ∧ pixelAt g.mem 20480 = ⟨255, 255, 255⟩ ∧
      pixelAt g.mem 20483 = ⟨0, 0, 0⟩ ∧ g.heap ≤ g.sz := by
  obtain ⟨t, sc, ht, rfl⟩ := main_running h
  obtain ⟨r, hr, hw, hh, hsz, -, hpb, hpx, ha, hnfd, hwhite, hblack, hheap⟩ := imgread_dot
  obtain rfl : r = t := Except.ok.inj (hr.symm.trans ht)
  refine ⟨⟨hw, hh, hsz, hpx⟩, ?_, ha, hnfd, hwhite, hblack, hheap⟩
  simp only [newPixels, ha, hpb, if_pos]

/-- A picture of one pixel can be turned as long as there is a page for it. -/
theorem rotate_small (hw : g.width = 1) (hh : g.height = 1) (hsz : g.sz = 20486)
    (hpx : g.pixels ≤ 20483) (hnew : g.newPixels ≤ 20483) (io : Io) : ∃ t g', g.rrotate = .ok t ∧
      event (.running g) (0x66, io) = .running g' ∧ OnlyScreen t g' := by
  have hbuf : ∀ q ≤ 20483, g.Buffer q := by
    intro q hq _ _
    rw [hw, hh, hsz]
    omega
  have hroom : g.Roomy g.newPixels := by
    have hround : pgRoundUp 20486 = 24576 := by decide
    intro _ _
    rw [hw, hh, hsz, hround]
    omega
  obtain ⟨t, g', ht, hcmd, hsc⟩ := rotate_ok (hbuf g.pixels hpx) (hbuf g.newPixels hnew) hroom io
  exact ⟨t, g', ht, event_of_command (by decide) (by decide) hcmd, hsc⟩

theorem rotate_dot (h : main blank dot = .running g) :
    ∃ t g', g.rrotate = .ok t ∧ event (.running g) (0x66, dot) = .running g' ∧ OnlyScreen t g' := by
  obtain ⟨⟨hw, hh, hsz, hpx⟩, hnew, -⟩ := main_dot h
  exact rotate_small hw hh hsz (by rw [hpx]; decide) (by rw [hnew]) dot

/-- The picture of one pixel is loaded, turned twice and loaded again. -/
theorem double_buffered_turns : ∃ g1 g2 g3 g4, main blank dot = .running g1 ∧
    event (.running g1) (0x66, dot) = .running g2 ∧ event (.running g2) (0x66, dot) = .running g3 ∧
    event (.running g3) (0x72, dot) = .running g4 ∧ g2.newPixels ≠ g2.pixels ∧
    g4.newPixels ≠ g4.pixels := by
  obtain ⟨g1, h1⟩ := main_blank
  obtain ⟨⟨hw, hh, hsz, hpx⟩, hnew, ha, hnfd, -, -, hheap⟩ := main_dot h1
  obtain ⟨t2, g2, hrot2, hf2, sc2, hg2⟩ := rotate_dot h1
  obtain ⟨m2, ht2⟩ := rrotate_eq hrot2
  rw [ht2] at hg2
  have hpb : g1.pb = 20483 := by simpa only [newPixels, ha, if_true] using hnew
  have hpa : g1.pa = 20480 := by
    have hcur := (paired_runs (.start h1 rfl fun _ => ⟨rfl, image_dot blank⟩)).current
    rw [hpx, ha, if_pos rfl] at hcur
    exact hcur.symm
  obtain ⟨t3, g3, hrot3, hf3, sc3, hg3⟩ := rotate_small (g := g2) (by rw [hg2]; exact hh)
    (by rw [hg2]; exact hw) (by rw [hg2]; exact hsz) (by rw [hg2]; exact hnew.le)
    (by rw [hg2]; simp [newPixels, ha, hpa]) dot
  obtain ⟨m3, ht3⟩ := rrotate_eq hrot3
  rw [ht3, hg2] at hg3
  have ha3 : g3.a = true := by
    rw [hg3]
    simp only [ha, Bool.not_true, Bool.not_false]
  obtain ⟨t4, g4, -, hreset, -⟩ := reset_ok (answers_dot (g := g3)
    (by rw [hg3]; simp only [hnfd]; decide) (by rw [hg3]; exact hheap))
  have hr1 : Runs FlagUp g1 := .start h1 rfl fun _ => ⟨rfl, image_dot blank⟩
  have hr2 : Runs FlagUp g2 := hr1.event hf2 fun hc => absurd hc (by decide)
  have hr3 : Runs FlagUp g3 := hr2.event hf3 fun hc => absurd hc (by decide)
  have hf4 : event (.running g3) (0x72, dot) = .running g4 :=
    event_of_command (by decide) (by decide) hreset
  have hr4 : Runs FlagUp g4 := hr3.event hf4 fun _ => ⟨ha3, image_dot g3⟩
  exact ⟨g1, g2, g3, g4, h1, hf2, hf3, hf4, (double_buffered hr2).2.2.2,
    (double_buffered hr4).2.2.2⟩

/-- After a rotation and a reset the picture is in the first buffer and the flag says the
    second. -/
theorem reset_unpairs : ∃ g1 g2 g3, main blank dot = .running g1 ∧
    event (.running g1) (0x66, dot) = .running g2 ∧ event (.running g2) (0x72, dot) = .running g3 ∧
    g3.pixels ≠ (if g3.a then g3.pa else g3.pb) := by
  obtain ⟨g1, h1⟩ := main_blank
  obtain ⟨-, -, ha, hnfd, -, -, hheap⟩ := main_dot h1
  obtain ⟨t2, g2, hrot, hf, sc2, hg2⟩ := rotate_dot h1
  obtain ⟨m, ht2⟩ := rrotate_eq hrot
  have ha2 : g2.a = false := by
    rw [hg2, ht2]
    simp only [ha, Bool.not_true]
  have hnfd2 : g2.nfd < NOFILE := by
    rw [hg2, ht2]
    simp only [hnfd]
    decide
  have hheap2 : g2.heap ≤ g2.sz := by
    rw [hg2, ht2]
    exact hheap
  obtain ⟨t3, g3, hread, hreset, sc3, rfl⟩ := reset_ok (answers_dot hnfd2 hheap2)
  have hdown := unpaired_imgread (g := { g2 with xpos := 0, ypos := 0, zoom := 1 }) (image_dot _)
    ha2 hread
  exact ⟨g1, g2, _, h1, hf, event_of_command (by decide) (by decide) hreset, hdown⟩

end Pairing

section Descriptors

/-- The process is as the first load `g1` left it. -/
structure Restored (g1 g : Gallery) : Prop where
  width : g.width = g1.width
  height : g.height = g1.height
  pixels : ∀ x y, ¬ g1.Outside x y → g.px x y = g1.px x y
  xpos : g.xpos = 0
  ypos : g.ypos = 0
  zoom : g.zoom = 1
  flag : g.a = true
  descriptors : g.nfd = g1.nfd

theorem imgread_nfd (hs : g.imgread io = .ok g') : g'.nfd = g.nfd + 1 := by
  obtain ⟨m, s, q, r, o, rfl⟩ := imgread_eq hs
  rfl

theorem imgread_listening (hs : g.imgread io = .ok g') : g'.listening = g.listening := by
  obtain ⟨m, s, q, r, o, rfl⟩ := imgread_eq hs
  rfl

theorem reset_nfd (hs : g.command io .r = .ok g') : g'.nfd = g.nfd + 1 := by
  obtain ⟨t, ht, sc, rfl⟩ := thenDraw_eq hs
  have hnfd : t.nfd = g.nfd + 1 := imgread_nfd (g := { g with xpos := 0, ypos := 0, zoom := 1 }) ht
  exact hnfd

theorem command_nfd {n : Nat} (h : n ≤ g.nfd) (hs : g.command io c = .ok g') : n ≤ g'.nfd := by
  refine command_keeps (I := fun t => n ≤ t.nfd) h (fun t sc x y z ht => ht) (fun t m ht => ht)
    ?_ ?_ hs
  · intro t t' ht hr
    obtain ⟨m, rfl⟩ := rrotate_eq hr
    exact ht
  · intro t' _ ht'
    have hnfd : t'.nfd = g.nfd + 1 :=
      imgread_nfd (g := { g with xpos := 0, ypos := 0, zoom := 1 }) ht'
    omega

theorem event_exited_eq (l : Int) (es : List (UInt8 × Io)) :
    es.foldl event (.exited l) = .exited l := by
  induction es with
  | nil => rfl
  | cons e es ih => exact ih

theorem events_nfd {g1 : Gallery} {es : List (UInt8 × Io)}
    (hs : es.foldl event (.running g1) = .running g) : g1.nfd ≤ g.nfd := by
  induction es generalizing g1 with
  | nil =>
    cases hs
    exact Nat.le_refl _
  | cons e es ih =>
    obtain ⟨msg, io⟩ := e
    rw [List.foldl_cons] at hs
    cases hev : event (.running g1) (msg, io) with
    | exited l =>
      rw [hev, event_exited_eq] at hs
      cases hs
    | running g2 =>
      rw [hev] at hs
      refine Nat.le_trans ?_ (ih hs)
      rcases event_running hev with ⟨-, rfl⟩ | hcmd
      · exact Nat.le_refl _
      · exact command_nfd (Nat.le_refl _) hcmd

/-- Whatever the process has done since its first load, a reset does not put it back where
    it was then: it ends the process, or it leaves one more descriptor open. -/
theorem reset_never_restores {g1 : Gallery} (es : List (UInt8 × Io))
    (hs : es.foldl event (.running g1) = .running g) (io : Io) :
    ¬ ∃ g', event (.running g) (0x72, io) = .running g' ∧ Restored g1 g' := by
  rintro ⟨g', hev, hres⟩
  have hmore := events_nfd hs
  rcases event_running hev with ⟨hzero, -⟩ | hcmd
  · exact absurd hzero (by decide)
  · have hnfd := reset_nfd hcmd
    have hsame := hres.descriptors
    omega

theorem reset_never_restores_dot : ∃ g1, main blank dot = .running g1 ∧
    ¬ ∃ g', event (.running g1) (0x72, dot) = .running g' ∧ Restored g1 g' := by
  obtain ⟨g1, h1⟩ := main_blank
  exact ⟨g1, h1, reset_never_restores [] rfl dot⟩

theorem reset_exits (h : NOFILE ≤ g.nfd) (io : Io) :
    event (.running g) (0x72, io) = .exited g.listening := by
  have hcmd : g.command io (Cmd.ofMsg 0x72) = .error .exit := by
    have hopen : ¬ (io.found = true ∧ g.nfd < NOFILE) := by omega
    have hread : imgread { g with xpos := 0, ypos := 0, zoom := 1 } io = .error .exit :=
      if_neg hopen
    have hr : Cmd.ofMsg 0x72 = .r := by decide
    simp only [hr, command, hread, thenDraw]
  have hmsg : (0x72 : UInt8) ≠ 0 := by decide
  simp only [event, if_neg hmsg, hcmd]

theorem imgread_heap (hi : Image g io) (h : g.heap ≤ g.sz) (hs : g.imgread io = .ok g') :
    g'.heap ≤ g'.sz := by
  obtain ⟨u, hu, -, -, hsz, hrows⟩ := imgread_image hi hs
  have hpos := Int.mul_pos hi.width hi.height
  obtain ⟨m, s, q, r, rfl⟩ := allocate_eq hu
  obtain ⟨m', o, rfl⟩ := hrows
  dsimp only at hsz
  change g.heap ≤ s
  omega

theorem resets_nfd (g1 : Gallery) (k : Nat) (h : g1.nfd + k ≤ NOFILE) (hheap : g1.heap ≤ g1.sz) :
    ∃ g, (List.replicate k ((0x72 : UInt8), dot)).foldl event (.running g1) = .running g ∧
      g.nfd = g1.nfd + k ∧ g.listening = g1.listening := by
  induction k generalizing g1 with
  | zero => exact ⟨g1, rfl, rfl, rfl⟩
  | succ k ih =>
    obtain ⟨t, g2, hread, hcmd, sc, rfl⟩ := reset_ok (answers_dot (g := g1) (by omega) hheap)
    have hheap' : t.heap ≤ t.sz :=
      imgread_heap (g := { g1 with xpos := 0, ypos := 0, zoom := 1 }) (image_dot _) hheap hread
    have hnfd : t.nfd = g1.nfd + 1 :=
      imgread_nfd (g := { g1 with xpos := 0, ypos := 0, zoom := 1 }) hread
    have hlisten : t.listening = g1.listening :=
      imgread_listening (g := { g1 with xpos := 0, ypos := 0, zoom := 1 }) hread
    obtain ⟨g, hrun, hn, hl⟩ := ih { t with screen := sc } (by simp only [hnfd]; omega) hheap'
    refine ⟨g, ?_, ?_, hl.trans hlisten⟩
    · rw [List.replicate_succ, List.foldl_cons, event_of_command (by decide) (by decide)
          (show g1.command dot (Cmd.ofMsg 0x72) = _ from hcmd)]
      exact hrun
    · rw [hn]
      simp only [hnfd]
      omega

/-- The first reset leaves a fifth descriptor open, and the thirteenth ends the process. -/
theorem reset_leaks : ∃ g1, main blank dot = .running g1 ∧ g1.nfd = 4 ∧
    (∃ g2, event (.running g1) (0x72, dot) = .running g2 ∧ g2.nfd = 5) ∧
    (List.replicate 13 ((0x72 : UInt8), dot)).foldl event (.running g1) = .exited 1 := by
  obtain ⟨g1, h1⟩ := main_blank
  obtain ⟨t, sc, ht, rfl⟩ := main_running h1
  have hnfd : t.nfd = 4 := imgread_nfd ht
  have hheap : t.heap ≤ t.sz := imgread_heap (image_dot blank) (by decide) ht
  refine ⟨_, h1, hnfd, ?_, ?_⟩
  · obtain ⟨g, hg, hn, -⟩ := resets_nfd { t with screen := sc, listening := 1 } 1
      (by simp only [hnfd]; decide) hheap
    exact ⟨g, hg, by rw [hn]; simp only [hnfd]⟩
  · obtain ⟨g, hg, hn, hl⟩ := resets_nfd { t with screen := sc, listening := 1 } 12
      (by simp only [hnfd]; decide) hheap
    have hfull : NOFILE ≤ g.nfd := by
      rw [hn]
      simp only [hnfd]
      decide
    rw [List.replicate_succ', List.foldl_append, hg]
    exact (reset_exits hfull dot).trans (by rw [hl])

end Descriptors

end Xv6.Gallery
