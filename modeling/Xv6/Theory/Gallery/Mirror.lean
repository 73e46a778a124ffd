import Xv6.Theory.Gallery.Buffers

/-!
# Mirrors and Rotations

What the four commands that turn a picture should do is a matter of pictures, not of
buffers: a mirror or a quarter turn is a map of coordinates. `Picture` has the four of
them.

A flip exchanges pixels in place along such a map `σ`, each pair once. `flip_ok` goes through both
loops of a flip, for any `σ` that is its own inverse. The two flips of the program are instances.

## Theorems

* `Gallery.mirrors_exact`, `Gallery.flips_exact`: flips are mirrors
* `Gallery.rotate_loses`: a rotation loses a pixel
-/

namespace Xv6

open Prod (ext)

/-- Pixels in rows, the first row on top. -/
structure Picture (α : Type) where
  width : Int
  height : Int
  px : Int → Int → α

namespace Picture

variable {α : Type}

/-- Left and right exchanged. -/
def mirrorH (p : Picture α) : Picture α := { p with px := fun x y => p.px (p.width - 1 - x) y }

/-- Top and bottom exchanged. -/
def mirrorV (p : Picture α) : Picture α := { p with px := fun x y => p.px x (p.height - 1 - y) }

/-- A quarter turn clockwise: what was on the left is on top. -/
def turnRight (p : Picture α) : Picture α :=
  { width := p.height, height := p.width, px := fun x y => p.px y (p.height - 1 - x) }

/-- A quarter turn counter-clockwise: what was on the right is on top. -/
def turnLeft (p : Picture α) : Picture α :=
  { width := p.height, height := p.width, px := fun x y => p.px (p.width - 1 - y) x }

end Picture

namespace Gallery

variable {g t : Gallery} {io : Io}

/-- What a command should do to the picture. -/
def transform (p : Picture Pixel) : Cmd → Picture Pixel
  | .h => p.mirrorH
  | .v => p.mirrorV
  | .d => p.turnLeft
  | .f => p.turnRight
  | _ => p

/-- The picture in memory. -/
def picture (g : Gallery) : Picture Pixel := ⟨g.width, g.height, g.px⟩

/-- The process has the picture `p` in memory. -/
structure Shows (g : Gallery) (p : Picture Pixel) : Prop where
  width : g.width = p.width
  height : g.height = p.height
  px : ∀ x y, ¬ g.Outside x y → g.px x y = p.px x y

theorem shows_picture (g : Gallery) : Shows g g.picture := ⟨rfl, rfl, fun _ _ _ => rfl⟩

section Flips

/-- A coordinate of the picture. -/
def In (g : Gallery) (c : Int × Int) : Prop := ¬ g.Outside c.1 c.2

/-- A map of the picture to itself that is its own inverse. -/
structure Involution (g : Gallery) (σ : Int × Int → Int × Int) : Prop where
  inside : ∀ c, In g c → In g (σ c)
  self : ∀ c, σ (σ c) = c

/-- The pixels at the coordinates in `S` have been exchanged with those that `σ` takes them
    to, and no others. -/
structure Swapped (g : Gallery) (σ : Int × Int → Int × Int) (S : Int × Int → Prop)
    (t : Gallery) : Prop where
  mem : OnlyMem g t
  moved : ∀ c, In g c → S c ∨ S (σ c) → t.px c.1 c.2 = g.px (σ c).1 (σ c).2
  stayed : ∀ c, In g c → ¬ (S c ∨ S (σ c)) → t.px c.1 c.2 = g.px c.1 c.2

variable {σ : Int × Int → Int × Int} {S S' : Int × Int → Prop}

theorem Swapped.congr (h : Swapped g σ S t) (hS : ∀ c, S c ↔ S' c) : Swapped g σ S' t := by
  refine ⟨h.mem, fun c hc hm => h.moved c hc ?_, fun c hc hm => h.stayed c hc ?_⟩
  · rwa [hS, hS]
  · rwa [hS, hS]

theorem Swapped.swap (h : Swapped g σ S t) (hbuf : g.Buffer g.pixels) (hσ : Involution g σ)
    {c : Int × Int} (hc : In g c) (hnew : ¬ (S c ∨ S (σ c))) :
    ∃ t', t.swap c.1 c.2 (σ c).1 (σ c).2 = .ok t' ∧ Swapped g σ (fun e => S e ∨ e = c) t' := by
  obtain ⟨m, rfl⟩ := h.mem
  have hbuf' : Buffer { g with mem := m } g.pixels := hbuf
  obtain ⟨m', hswap, hpx⟩ := swap_ok (g := { g with mem := m }) hbuf' hc (hσ.inside c hc)
  refine ⟨_, hswap, ⟨m', rfl⟩, fun e he hm => ?_, fun e he hm => ?_⟩
  · refine (hpx e.1 e.2 he).trans ?_
    by_cases hfar : e = σ c
    · -- The partner of the pair gets what was at `c`.
      rw [if_pos ⟨congrArg Prod.fst hfar, congrArg Prod.snd hfar⟩, hfar, hσ.self]
      exact h.stayed c hc hnew
    · rw [if_neg fun hx => hfar (ext hx.1 hx.2)]
      by_cases hsame : e = c
      · rw [if_pos ⟨congrArg Prod.fst hsame, congrArg Prod.snd hsame⟩, hsame]
        refine h.stayed (σ c) (hσ.inside c hc) ?_
        rw [hσ.self]
        exact fun hx => hnew hx.symm
      · rw [if_neg fun hx => hsame (ext hx.1 hx.2)]
        refine h.moved e he ?_
        rcases hm with (hm | hm) | (hm | hm)
        · exact .inl hm
        · exact absurd hm hsame
        · exact .inr hm
        · exact absurd (by rw [← hm, hσ.self]) hfar
  · refine (hpx e.1 e.2 he).trans ?_
    have hfar : e ≠ σ c := by
      rintro rfl
      exact hm (.inr (.inr (hσ.self c)))
    have hsame : e ≠ c := fun hx => hm (.inl (.inr hx))
    rw [if_neg fun hx => hfar (ext hx.1 hx.2), if_neg fun hx => hsame (ext hx.1 hx.2)]
    exact h.stayed e he fun hx => hm (hx.imp .inl .inl)

theorem flip_ok {n m : Nat} {κ : Nat → Nat → Int × Int}
    {body : Nat → Nat → Gallery → Except Stop Gallery}
    (hbuf : g.Buffer g.pixels) (hσ : Involution g σ) (hbody : ∀ i j t, OnlyMem g t →
      body i j t = t.swap (κ i j).1 (κ i j).2 (σ (κ i j)).1 (σ (κ i j)).2)
    (hin : ∀ i < n, ∀ j < m, In g (κ i j)) (hinj : ∀ i j i' j', κ i j = κ i' j' → i = i' ∧ j = j')
    (hfar : ∀ i < n, ∀ j < m, ∀ i' < n, ∀ j' < m, σ (κ i j) ≠ κ i' j') :
    ∃ t, Loop.upto n (fun i t => Loop.upto m (body i) t) g = .ok t ∧
      Swapped g σ (fun e => ∃ i < n, ∃ j < m, e = κ i j) t := by
  refine Loop.upto_reaches (J := fun n' t => Swapped g σ (fun e => ∃ i < n', ∃ j < m, e = κ i j) t)
    ?_ fun i hi t ht => ?_
  · refine ⟨.refl g, fun c _ hm => ?_, fun _ _ _ => rfl⟩
    rcases hm with ⟨i, hi, -⟩ | ⟨i, hi, -⟩
    · cases hi
    · cases hi
  · -- Inside round `i`, the rounds before it are done and so is the beginning of it.
    let done : Nat → Int × Int → Prop := fun m' e =>
      (∃ i' < i, ∃ j < m, e = κ i' j) ∨ ∃ j < m', e = κ i j
    have hround : ∃ t', Loop.upto m (body i) t = .ok t' ∧ Swapped g σ (done m) t' := by
      refine Loop.upto_reaches (J := fun m' t => Swapped g σ (done m') t) ?_ fun j hj r hr => ?_
      · refine ht.congr fun e => ⟨.inl, ?_⟩
        rintro (he | ⟨j, hj, -⟩)
        · exact he
        · cases hj
      · have hnew : ¬ (done j (κ i j) ∨ done j (σ (κ i j))) := by
          rintro ((⟨i', hi', j', hj', he⟩ | ⟨j', hj', he⟩) |
            (⟨i', hi', j', hj', he⟩ | ⟨j', hj', he⟩))
          · have := (hinj _ _ _ _ he).1
            omega
          · have := (hinj _ _ _ _ he).2
            omega
          · exact hfar i hi j hj i' (by omega) j' hj' he
          · exact hfar i hi j hj i hi j' (by omega) he
        obtain ⟨r', hswap, hr'⟩ := hr.swap hbuf hσ (hin i hi j hj) hnew
        refine ⟨r', (hbody i j r hr.mem).trans hswap, hr'.congr fun e => ?_⟩
        refine ⟨?_, ?_⟩
        · rintro ((he | ⟨j', hj', he⟩) | he)
          · exact .inl he
          · exact .inr ⟨j', by omega, he⟩
          · exact .inr ⟨j, by omega, he⟩
        · rintro (he | ⟨j', hj', he⟩)
          · exact .inl (.inl he)
          · rcases Nat.lt_succ_iff_lt_or_eq.mp hj' with hlt | rfl
            · exact .inl (.inr ⟨j', hlt, he⟩)
            · exact .inr he
    obtain ⟨t', hloop, ht'⟩ := hround
    refine ⟨t', hloop, ht'.congr fun e => ⟨?_, ?_⟩⟩
    · rintro (⟨i', hi', he⟩ | he)
      · exact ⟨i', by omega, he⟩
      · exact ⟨i, by omega, he⟩
    · rintro ⟨i', hi', he⟩
      rcases Nat.lt_succ_iff_lt_or_eq.mp hi' with hlt | rfl
      · exact .inl ⟨i', hlt, he⟩
      · exact .inr he

theorem Swapped.all (h : Swapped g σ S t) (hS : ∀ c, In g c → S c ∨ S (σ c) ∨ σ c = c)
    (c : Int × Int) (hc : In g c) : t.px c.1 c.2 = g.px (σ c).1 (σ c).2 := by
  by_cases hm : S c ∨ S (σ c)
  · exact h.moved c hc hm
  · have hfix : σ c = c := by
      rcases hS c hc with hx | hx | hx
      · exact absurd (.inl hx) hm
      · exact absurd (.inr hx) hm
      · exact hx
    rw [hfix]
    exact h.stayed c hc hm

theorem two_mul_half (n : Int) :
    2 * (n.tdiv 2).toNat ≤ n.toNat ∧ n.toNat ≤ 2 * (n.tdiv 2).toNat + 1 := by
  rcases Int.le_total 0 n with hn | hn
  · rw [Int.tdiv_eq_ediv_of_nonneg hn]
    omega
  · have hneg : n.tdiv 2 = -((-n) / 2) := by
      rw [← Int.tdiv_eq_ediv_of_nonneg (by omega), Int.neg_tdiv, Int.neg_neg]
    omega

/-- A flip along the first coordinate of `e c`, of which there are `n`, where `e` is one of the
    two ways to read a pair of coordinates. -/
theorem mirror_ok {n m : Int} {e : Int × Int → Int × Int}
    (body : Nat → Nat → Gallery → Except Stop Gallery) (hbuf : g.Buffer g.pixels)
    (he : ∀ c, e (e c) = c) (hside : ∀ c, In g (e c) ↔ (0 ≤ c.1 ∧ c.1 < n) ∧ 0 ≤ c.2 ∧ c.2 < m)
    (hbody : ∀ (b a : Nat) t, OnlyMem g t → body b a t =
      t.swap (e (a, b)).1 (e (a, b)).2 (e (n - 1 - a, b)).1 (e (n - 1 - a, b)).2) :
    ∃ t, Loop.upto m.toNat (fun b t => Loop.upto (n.tdiv 2).toNat (body b) t) g = .ok t ∧
      OnlyMem g t ∧ ∀ c, In g (e c) →
        t.px (e c).1 (e c).2 = g.px (e (n - 1 - c.1, c.2)).1 (e (n - 1 - c.1, c.2)).2 := by
  obtain ⟨hlo, hhi⟩ := two_mul_half n
  have hinj : ∀ {c d}, e c = e d → c = d := fun {c d} h => by rw [← he c, h, he]
  let σ : Int × Int → Int × Int := fun c => e (n - 1 - (e c).1, (e c).2)
  have hσe : ∀ c, σ (e c) = e (n - 1 - c.1, c.2) := fun c => by
    dsimp only [σ]
    rw [he]
  have hσ : Involution g σ := by
    refine ⟨fun c hc => ?_, fun c => ?_⟩
    · rw [← he c] at hc
      have hc' := (hside _).mp hc
      exact (hside _).mpr ⟨by dsimp only; omega, hc'.2⟩
    · refine (hσe _).trans ((congrArg e ?_).trans (he c))
      exact ext (by dsimp only; omega) rfl
  let κ : Nat → Nat → Int × Int := fun b a => e ((a : Int), (b : Int))
  have hin : ∀ b < m.toNat, ∀ a < (n.tdiv 2).toNat, In g (κ b a) := by
    intro b hb a ha
    refine (hside _).mpr ?_
    dsimp only
    omega
  have hswap : ∀ b a t, OnlyMem g t →
      body b a t = t.swap (κ b a).1 (κ b a).2 (σ (κ b a)).1 (σ (κ b a)).2 := fun b a t ht => by
    rw [hbody b a t ht, hσe]
  obtain ⟨t, hloop, ht⟩ := flip_ok hbuf hσ hswap hin
    (fun b a b' a' h => by
      have h' := Prod.ext_iff.mp (hinj h)
      dsimp only at h'
      omega)
    (fun b _ a ha b' _ a' ha' h => by
      rw [hσe] at h
      have h' := (Prod.ext_iff.mp (hinj h)).1
      dsimp only at h'
      omega)
  refine ⟨t, hloop, ht.mem, fun c hc => ?_⟩
  rw [ht.all (fun d hd => ?_) (e c) hc, hσe]
  -- A place is in the first half, in the second half, or in the middle.
  rw [← he d] at hd
  have hd' := (hside _).mp hd
  by_cases hfirst : (e d).1 < (n.tdiv 2).toNat
  · refine .inl ⟨(e d).2.toNat, by omega, (e d).1.toNat, by omega, ?_⟩
    dsimp only [κ]
    rw [Int.toNat_of_nonneg hd'.1.1, Int.toNat_of_nonneg hd'.2.1, Prod.mk.eta, he]
  · by_cases hsecond : n - 1 - (e d).1 < (n.tdiv 2).toNat
    · refine .inr (.inl ⟨(e d).2.toNat, by omega, (n - 1 - (e d).1).toNat, by omega, ?_⟩)
      dsimp only [κ]
      rw [Int.toNat_of_nonneg (by omega), Int.toNat_of_nonneg hd'.2.1]
    · refine .inr (.inr ((congrArg e ?_).trans (he d)))
      exact ext (by dsimp only; omega) rfl

theorem hflip_ok (hbuf : g.Buffer g.pixels) : ∃ t, g.hflip = .ok t ∧ OnlyMem g t ∧
      ∀ x y, ¬ g.Outside x y → t.px x y = g.px (g.width - 1 - x) y := by
  obtain ⟨t, ht, hmem, hpx⟩ := mirror_ok (e := id)
    (fun y x t => t.swap x y (t.width - x - 1) y) hbuf (fun _ => rfl)
    (fun _ => inside_iff) (by
      rintro y x t ⟨m, rfl⟩
      dsimp only [id]
      rw [sub_right_comm])
  exact ⟨t, ht, hmem, fun x y hxy => hpx (x, y) hxy⟩

theorem vflip_ok (hbuf : g.Buffer g.pixels) : ∃ t, g.vflip = .ok t ∧ OnlyMem g t ∧
      ∀ x y, ¬ g.Outside x y → t.px x y = g.px x (g.height - 1 - y) := by
  obtain ⟨t, ht, hmem, hpx⟩ := mirror_ok (e := Prod.swap)
    (fun x y t => t.swap x y x (t.height - y - 1)) hbuf (fun _ => rfl)
    (fun _ => inside_iff.trans and_comm) (by
      rintro x y t ⟨m, rfl⟩
      dsimp only [Prod.swap]
      rw [sub_right_comm])
  exact ⟨t, ht, hmem, fun x y hxy => hpx (y, x) hxy⟩

end Flips

section Sequences

variable {p : Picture Pixel}

theorem Shows.mirrorH (h : Shows g p) (ht : OnlyMem g t)
    (hpx : ∀ x y, ¬ g.Outside x y → t.px x y = g.px (g.width - 1 - x) y) : Shows t p.mirrorH := by
  obtain ⟨m, rfl⟩ := ht
  refine ⟨h.width, h.height, fun x y hxy => (hpx x y hxy).trans ?_⟩
  obtain ⟨hx, hy⟩ := inside_iff.mp hxy
  have hmirrored : ¬ g.Outside (g.width - 1 - x) y :=
    inside_iff.mpr ⟨by dsimp only at hx; omega, hy⟩
  rw [h.px _ _ hmirrored, h.width]
  rfl

theorem Shows.mirrorV (h : Shows g p) (ht : OnlyMem g t)
    (hpx : ∀ x y, ¬ g.Outside x y → t.px x y = g.px x (g.height - 1 - y)) : Shows t p.mirrorV := by
  obtain ⟨m, rfl⟩ := ht
  refine ⟨h.width, h.height, fun x y hxy => (hpx x y hxy).trans ?_⟩
  obtain ⟨hx, hy⟩ := inside_iff.mp hxy
  have hmirrored : ¬ g.Outside x (g.height - 1 - y) :=
    inside_iff.mpr ⟨hx, by dsimp only at hy; omega⟩
  rw [h.px _ _ hmirrored, h.height]
  rfl

theorem Shows.screen {sc : Screen} (h : Shows g p) : Shows { g with screen := sc } p :=
  ⟨h.width, h.height, h.px⟩

theorem event_flip {msg : UInt8} (hbuf : g.Buffer g.pixels) (hshows : Shows g p)
    (hmsg : Cmd.ofMsg msg = .h ∨ Cmd.ofMsg msg = .v) (io : Io) :
    ∃ g', event (.running g) (msg, io) = .running g' ∧ g'.Buffer g'.pixels ∧
      Shows g' (transform p (Cmd.ofMsg msg)) := by
  have hzero : msg ≠ 0 := by
    rintro rfl
    exact absurd hmsg (by decide)
  -- Both flips leave a picture in the same buffer, and then it is drawn.
  have hdraw : ∀ t q, OnlyMem g t → Shows t q → ∃ g', thenDraw (.ok t) = .ok g' ∧
      g'.Buffer g'.pixels ∧ Shows g' q := by
    rintro t q ⟨m, rfl⟩ hq
    obtain ⟨g', hg', sc, rfl⟩ := thenDraw_ok (g := { g with mem := m }) hbuf
    exact ⟨_, hg', hbuf, hq.screen⟩
  rcases hmsg with hc | hc
  · obtain ⟨t, ht, hmem, hpx⟩ := hflip_ok hbuf
    obtain ⟨g', hg', hbuf', hshows'⟩ := hdraw t _ hmem (hshows.mirrorH hmem hpx)
    refine ⟨g', event_of_command hzero (by rw [hc]; decide) ?_, hbuf', ?_⟩
    · simp only [hc, command, ht]
      exact hg'
    · rw [hc]
      exact hshows'
  · obtain ⟨t, ht, hmem, hpx⟩ := vflip_ok hbuf
    obtain ⟨g', hg', hbuf', hshows'⟩ := hdraw t _ hmem (hshows.mirrorV hmem hpx)
    refine ⟨g', event_of_command hzero (by rw [hc]; decide) ?_, hbuf', ?_⟩
    · simp only [hc, command, ht]
      exact hg'
    · rw [hc]
      exact hshows'

theorem events_flip (hbuf : g.Buffer g.pixels) (hshows : Shows g p) (es : List (UInt8 × Io))
    (hes : ∀ e ∈ es, Cmd.ofMsg e.1 = .h ∨ Cmd.ofMsg e.1 = .v) :
    ∃ g', es.foldl event (.running g) = .running g' ∧
      Shows g' ((es.map fun e => Cmd.ofMsg e.1).foldl transform p) := by
  induction es generalizing g p with
  | nil => exact ⟨g, rfl, hshows⟩
  | cons e es ih =>
    obtain ⟨g1, hev, hbuf1, hshows1⟩ := event_flip hbuf hshows
      (hes e List.mem_cons_self) e.2
    obtain ⟨g', hrun, hg'⟩ := ih hbuf1 hshows1 fun e' he' => hes e' (List.mem_cons_of_mem e he')
    refine ⟨g', ?_, hg'⟩
    rw [List.foldl_cons, hev]
    exact hrun

/-- Any sequence of flips, after a picture for which there was memory has been loaded, comes to
    its end and shows the picture after the same sequence of exact mirrors. -/
theorem mirrors_exact {g0 : Gallery} (hload : Fits g0 io) (hmain : main g0 io = .running g)
    (es : List (UInt8 × Io)) (hes : ∀ e ∈ es, Cmd.ofMsg e.1 = .h ∨ Cmd.ofMsg e.1 = .v) :
    ∃ g', es.foldl event (.running g) = .running g' ∧
      Shows g' ((es.map fun e => Cmd.ofMsg e.1).foldl transform g.picture) := by
  obtain ⟨t, sc, ht, rfl⟩ := main_running hmain
  obtain ⟨hpa, hbuf, -⟩ := imgread_buffers hload ht
  refine events_flip ?_ (shows_picture _) es hes
  have hbuf' : t.Buffer t.pixels := by
    rw [hpa]
    exact hbuf
  exact hbuf'

/-- A picture of two times two pixels, all different. -/
def square : Io :=
  ofFile ([66, 77, 70, 0, 0, 0, 0, 0, 0, 0, 54, 0, 0, 0, 40, 0, 0, 0, 2, 0, 0, 0, 2, 0, 0,
    0, 1, 0, 24,
    0] ++ List.replicate 24 0 ++ [1, 1, 1, 2, 2, 2, 0, 0, 3, 3, 3, 4, 4, 4, 0, 0])

theorem answers_square : Answers blank square :=
  ⟨⟨rfl, rfl, by decide +kernel⟩, by decide +kernel, by decide, rfl, by decide,
    fun _ _ _ => ⟨_, rfl⟩⟩

theorem mirrors_exact_square : ∃ g g', main blank square = .running g ∧
    event (event (.running g) (0x68, square)) (0x76, square) = .running g' ∧
    Shows g' g.picture.mirrorH.mirrorV ∧ g.px 0 0 = ⟨3, 3, 3⟩ ∧ g.px 1 1 = ⟨2, 2, 2⟩ := by
  obtain ⟨g, hg⟩ := main_ok answers_square
  obtain ⟨g', hrun, hg'⟩ := mirrors_exact answers_square.toFits hg
    [((0x68 : UInt8), square), ((0x76 : UInt8), square)] (by
      intro e he
      simp only [List.mem_cons, List.not_mem_nil, or_false] at he
      rcases he with rfl | rfl
      · exact .inl rfl
      · exact .inr rfl)
  have hread : returns (imgread blank square) (fun t => decide (t.px 0 0 = ⟨3, 3, 3⟩ ∧
      t.px 1 1 = ⟨2, 2, 2⟩)) = true := by
    decide +kernel
  obtain ⟨t, ht, hall⟩ := exists_of_returns hread
  obtain ⟨r, sc, hr, rfl⟩ := main_running hg
  obtain rfl : t = r := Except.ok.inj (ht.symm.trans hr)
  exact ⟨_, g', hg, hrun, hg', of_decide_eq_true hall⟩

/-- A flip comes to its end, leaves everything but the pixels alone and mirrors the picture. It
    undoes itself, and the two flips commute. -/
theorem flips_exact (hbuf : g.Buffer g.pixels) :
    ∃ t u, g.hflip = .ok t ∧ g.vflip = .ok u ∧ OnlyMem g t ∧ OnlyMem g u ∧
      (∀ x y, ¬ g.Outside x y → t.px x y = g.px (g.width - 1 - x) y) ∧
      (∀ x y, ¬ g.Outside x y → u.px x y = g.px x (g.height - 1 - y)) ∧
      (∃ t', t.hflip = .ok t' ∧ Shows t' g.picture) ∧
      (∃ u', u.vflip = .ok u' ∧ Shows u' g.picture) ∧ ∃ tv uh, t.vflip = .ok tv ∧ u.hflip = .ok uh ∧
        Shows tv g.picture.mirrorH.mirrorV ∧ Shows uh g.picture.mirrorH.mirrorV := by
  -- What a flip of any picture in the same place shows.
  have hh : ∀ {t p}, OnlyMem g t → Shows t p →
      ∃ t', t.hflip = .ok t' ∧ OnlyMem g t' ∧ Shows t' p.mirrorH := by
    rintro t p ⟨m, rfl⟩ hp
    obtain ⟨t', ht', hmem, hpx⟩ := hflip_ok (g := { g with mem := m }) hbuf
    exact ⟨t', ht', OnlyMem.trans ⟨m, rfl⟩ hmem, hp.mirrorH hmem hpx⟩
  have hv : ∀ {t p}, OnlyMem g t → Shows t p →
      ∃ t', t.vflip = .ok t' ∧ OnlyMem g t' ∧ Shows t' p.mirrorV := by
    rintro t p ⟨m, rfl⟩ hp
    obtain ⟨t', ht', hmem, hpx⟩ := vflip_ok (g := { g with mem := m }) hbuf
    exact ⟨t', ht', OnlyMem.trans ⟨m, rfl⟩ hmem, hp.mirrorV hmem hpx⟩
  have hback : ∀ p : Picture Pixel, p.mirrorH.mirrorH = p ∧ p.mirrorV.mirrorV = p := fun p => by
    simp only [Picture.mirrorH, Picture.mirrorV, sub_sub_cancel, and_self]
  obtain ⟨t, ht, hmem, hpx⟩ := hflip_ok hbuf
  obtain ⟨u, hu, hmem', hpx'⟩ := vflip_ok hbuf
  have hst := (shows_picture g).mirrorH hmem hpx
  have hsu := (shows_picture g).mirrorV hmem' hpx'
  obtain ⟨t', ht', -, hst'⟩ := hh hmem hst
  obtain ⟨u', hu', -, hsu'⟩ := hv hmem' hsu
  obtain ⟨tv, htv, -, hstv⟩ := hv hmem hst
  obtain ⟨uh, huh, -, hsuh⟩ := hh hmem' hsu
  rw [(hback _).1] at hst'
  rw [(hback _).2] at hsu'
  exact ⟨t, u, ht, hu, hmem, hmem', hpx, hpx', ⟨t', ht', hst'⟩, ⟨u', hu', hsu'⟩, tv, uh, htv, huh,
    hstv, hsuh⟩

theorem flips_exact_pair : ∃ t u, hflip { blank with width := 2, height := 1 } = .ok t ∧
    vflip { blank with width := 2, height := 1 } = .ok u ∧
    t.px 0 0 = px { blank with width := 2, height := 1 } 1 0 := by
  obtain ⟨t, u, ht, hu, -, -, hpx, -⟩ := flips_exact (g := { blank with width := 2, height := 1 })
    (fun _ _ => by decide)
  exact ⟨t, u, ht, hu, hpx 0 0 (by decide)⟩

/-- Turning a picture of one white pixel leaves a black one. -/
theorem rotate_loses : ∃ g g', main blank dot = .running g ∧
    event (.running g) (0x66, dot) = .running g' ∧ g.px 0 0 = ⟨255, 255, 255⟩ ∧
    g'.px 0 0 = ⟨0, 0, 0⟩ ∧ ¬ Shows g' g.picture.turnRight := by
  obtain ⟨g1, h1⟩ := main_blank
  obtain ⟨⟨hw, hh, -, hpx⟩, hnew, -, -, hwhite, hblack, -⟩ := main_dot h1
  obtain ⟨t, g2, hrot, hf, sc, hg2⟩ := rotate_dot h1
  have hold : g1.px 0 0 = ⟨255, 255, 255⟩ := by
    rw [← hwhite]
    simp [px, index, hpx]
  have hlost : g2.px 0 0 = ⟨0, 0, 0⟩ := by
    rw [← hblack, ← hnew, ← rrotate_first hrot, hg2]
    rfl
  refine ⟨g1, g2, h1, hf, hold, hlost, fun hshows => ?_⟩
  -- The only pixel of the turned picture is the white one.
  have hin : ¬ g2.Outside 0 0 := by
    refine inside_iff.mpr ?_
    rw [hshows.width, hshows.height]
    simp [Picture.turnRight, picture, hw, hh]
  have hturned : g2.px 0 0 = g1.px 0 0 := by
    rw [hshows.px 0 0 hin]
    simp [Picture.turnRight, picture, hh]
  rw [hold, hlost] at hturned
  exact absurd hturned (by decide)

end Sequences

end Gallery

end Xv6
