import Xv6.Theory.Bio.Cached

/-!
# What a Commit Writes

The programs of `log.c` keep to the rules of the cache, and the disk writes they
issue are known in full. A commit of the blocks `L` writes their contents to the
log, then the header, then the contents to their homes, then the header with a
count of zero. Recovery does the second half of that from the disk.

## Theorems

* `ok_commit`, `ok_recover`
-/

namespace Xv6

open Function (update update_self update_of_ne update_eq_self)
open List (map_cons mem_cons mem_cons_of_mem mem_cons_self not_mem_nil)
open View (held_get_of_ne held_get_same held_put_of_ne held_put_same ok_bind ok_bread ok_brelse
  ok_getLog refs_get_of_ne refs_get_same refs_put_of_ne refs_put_same)
open Nat (succ_lt_succ succ_pos)

variable {ws : List (Nat × Block)} {rest : BProg Unit} {start size : Nat} {xs : List Block}
    {lh : List Nat} {i j : Fin NBUF} {src dst : Nat} {a : Nat}

/-- No buffer is held and exactly the blocks of `pins` are pinned, once. -/
structure Quiet (v : View) (pins : List Nat) : Prop where
  held : ∀ b, v.held b = none
  want : v.want = none
  drop : v.drop = none
  refs : ∀ b, v.refs b = if b ∈ pins then 1 else 0

/-- From `v` to `v'` the writes `ws` were made, to the cache and to the disk. -/
structure Wrote (v v' : View) (ws : List (Nat × Block)) : Prop where
  view : v'.view = replay ws v.view
  disk : v'.disk = replay ws v.disk
  issued : v'.issued = v.issued ++ ws
  log : v'.log = v.log

theorem Wrote.refl (v : View) : Wrote v v [] :=
  { view := rfl, disk := rfl, issued := (List.append_nil _).symm, log := rfl }

theorem Wrote.trans {v v' v'' : View} {ws vs : List (Nat × Block)} (h : Wrote v v' ws)
    (h' : Wrote v' v'' vs) : Wrote v v'' (ws ++ vs) :=
  { view := by rw [h'.view, h.view, replay_append]
    disk := by rw [h'.disk, h.disk, replay_append]
    issued := by rw [h'.issued, h.issued, List.append_assoc]
    log := h'.log.trans h.log }

namespace Quiet

variable {v : View} {pins : List Nat}

theorem full (hv : Quiet v pins) (h : ¬ v.Room) : NBUF ≤ pins.length := by
  by_contra hlen
  refine h ⟨pins, by omega, fun b hb => ?_⟩
  by_contra hnot
  rw [hv.refs b, if_neg hnot] at hb
  exact Nat.lt_irrefl 0 hb

theorem pinned (hv : Quiet v pins) {b : Nat} (h : b ∈ pins) : 0 < v.refs b := by
  rw [hv.refs b, if_pos h]
  exact Nat.one_pos

theorem room_get (hv : Quiet v pins) (h : pins.length + 1 < NBUF) (b : Nat) (i : Fin NBUF) :
    (v.get b i).Room := by
  refine ⟨b :: pins, h, fun c hc => ?_⟩
  by_cases hcb : c = b
  · rw [hcb]
    exact mem_cons_self
  · rw [v.refs_get_of_ne i hcb] at hc
    by_contra hnot
    rw [hv.refs c, if_neg (fun hin => hnot (mem_cons_of_mem b hin))] at hc
    exact Nat.lt_irrefl 0 hc

end Quiet

section Steps

variable {v : View} {pins : List Nat} {ρ : View.Rules} {Q : Unit → View → Prop}

/-- Two buffers released: every other block was as quiet before, and these two
    have one reference more than `pins` gives them. -/
theorem release_pair {w : View} (hne : src ≠ dst)
    (hwant : w.want = none) (hheld : ∀ b, b ≠ src → b ≠ dst → w.held b = none)
    (hother : ∀ b, b ≠ src → b ≠ dst → w.refs b = if b ∈ pins then 1 else 0)
    (hsrc : w.refs src = (if src ∈ pins then 1 else 0) + 1)
    (hdst : w.refs dst = (if dst ∈ pins then 1 else 0) + 1) :
    Quiet ((w.put src j).put dst i) pins := by
  refine ⟨?_, hwant, rfl, ?_⟩
  · intro b
    by_cases h1 : b = dst
    · rw [h1, held_put_same]
    · rw [held_put_of_ne _ i h1]
      by_cases h2 : b = src
      · rw [h2, held_put_same]
      · rw [held_put_of_ne _ j h2]
        exact hheld b h2 h1
  · grind [refs_put_same, refs_put_of_ne, Nat.add_sub_cancel]

/-- Block `src` copied over block `dst`, and `dst` written out. -/
def View.copyOut (v : View) (dst src : Nat) : View :=
  { v with
    view := update v.view dst (v.view src)
    disk := update v.disk dst (v.view src)
    issued := v.issued ++ [(dst, v.view src)] }

theorem ok_copyOut
    (hi : v.held dst = some i) (hj : v.held src = some j) (hw : ρ.write dst (v.view src))
    (hq : View.Ok ρ rest Q (v.copyOut dst src)) :
    View.Ok ρ (do memmove i j; bwrite i; rest) Q v := by
  refine ok_bind (ok_bind ⟨src, hj, dst, hi, ?_⟩)
  refine ok_bind ⟨dst, hi, ?_, ?_⟩
  · simp only [View.store, update_self]
    exact hw
  · simp only [View.write, View.store, update_self]
    exact hq

theorem ok_brelsePair
    (hne : src ≠ dst) (hwant : v.want = none) (hdrop : v.drop = none)
    (hi : v.held dst = some i) (hj : v.held src = some j)
    (hsrc : v.refs src = 1 → v.view src = v.disk src) (hdst : v.view dst = v.disk dst)
    (hq : View.Ok ρ rest Q ((v.put src j).put dst i)) :
    View.Ok ρ (do brelse j; brelse i; rest) Q v := by
  refine ok_bind (ok_brelse hwant hdrop hj hsrc ?_)
  refine ok_bind (ok_brelse hwant rfl ?_ (fun _ => hdst) hq)
  rw [held_put_of_ne _ j hne.symm]
  exact hi

variable {f disk : Nat → Block} {bs : List Nat} {b c : Nat} {l : Log}

theorem ok_writeLogFrom
    (hroom : NBUF ≤ pins.length → ρ.stop (.panic .bgetNoBuffers)) (bs : List Nat) :
    ∀ (tail : Nat) (v : View), Quiet v pins → (∀ b ∈ bs, b ∈ pins) →
    (∀ k < bs.length, start + tail + 1 + k ∉ pins) →
    (∀ w ∈ logWrites (start + tail + 1) (bs.map v.view), ρ.write w.1 w.2) →
    (∀ v', Quiet v' pins → Wrote v v' (logWrites (start + tail + 1) (bs.map v.view)) → Q () v') →
    View.Ok ρ (writeLogFrom start tail bs) Q v := by
  induction bs with
  | nil =>
    intro tail v hv _ _ _ hq
    exact hq v hv (Wrote.refl v)
  | cons b bs ih =>
    intro tail v hv hin hout hw hq
    have hb : b ∈ pins := hin b mem_cons_self
    have hdst : start + tail + 1 ∉ pins := hout 0 (succ_pos _)
    have hne : b ≠ start + tail + 1 := fun h => hdst (h ▸ hb)
    have hsrc1 : v.refs b = 1 := by rw [hv.refs, if_pos hb]
    rw [map_cons, logWrites, List.forall_mem_cons] at hw
    unfold writeLogFrom
    refine ok_bind (ok_bread hv.want (hv.held _) (fun _ h => hroom (hv.full h))
      fun i => ?_)
    refine ok_bind (ok_bread rfl ?_ ?_ fun j => ?_)
    · rw [v.held_get_of_ne i hne]
      exact hv.held b
    · intro h0
      rw [v.refs_get_of_ne i hne, hsrc1] at h0
      exact absurd h0 Nat.one_ne_zero
    have hi : ((v.get (start + tail + 1) i).get b j).held (start + tail + 1) = some i := by
      rw [held_get_of_ne _ j hne.symm, held_get_same]
    refine ok_copyOut hi (held_get_same _ j b) hw.1 ?_
    refine ok_brelsePair hne rfl hv.drop hi (held_get_same _ j b) ?_ ?_ ?_
    · -- The source is pinned, so this is not its last reference.
      intro h1
      have h2 : ((v.get (start + tail + 1) i).get b j).refs b = 2 := by
        rw [refs_get_same, v.refs_get_of_ne i hne, hsrc1]
      have h3 : ((v.get (start + tail + 1) i).get b j).refs b = 1 := h1
      omega
    · simp only [View.copyOut, update_self]
    have hstep : Wrote v ((((v.get (start + tail + 1) i).get b j).copyOut (start + tail + 1) b
        |>.put b j).put (start + tail + 1) i) [(start + tail + 1, v.view b)] :=
      { view := rfl, disk := rfl, issued := rfl, log := rfl }
    -- The remaining blocks are not log blocks, so the copy left them alone.
    have hmap : bs.map (update v.view (start + tail + 1) (v.view b)) = bs.map v.view := by
      refine List.map_congr_left fun c hcin => ?_
      refine update_of_ne ?_ _ _
      exact fun h => hdst (h ▸ hin c (mem_cons_of_mem b hcin))
    refine ih (tail + 1) _ (release_pair hne rfl ?_ ?_ ?_ ?_)
      (fun c hcin => hin c (mem_cons_of_mem b hcin)) ?_ ?_ ?_
    · intro c h1 h2
      simp only [View.copyOut]
      rw [held_get_of_ne _ j h1, v.held_get_of_ne i h2]
      exact hv.held c
    · intro c h1 h2
      simp only [View.copyOut]
      rw [refs_get_of_ne _ j h1, v.refs_get_of_ne i h2]
      exact hv.refs c
    · simp only [View.copyOut]
      rw [refs_get_same, v.refs_get_of_ne i hne, hv.refs]
    · simp only [View.copyOut]
      rw [refs_get_of_ne _ j hne.symm, refs_get_same, hv.refs]
    · intro k hk
      have := hout (k + 1) (succ_lt_succ hk)
      rwa [show start + (tail + 1) + 1 + k = start + tail + 1 + (k + 1) from by omega]
    · simp only [View.put, View.unlock, View.unref, View.copyOut, View.get, View.bget, View.acquire]
      rw [hmap]
      exact hw.2
    · intro v' hv' hw'
      refine hq v' hv' ?_
      have := hstep.trans hw'
      simp only [View.put, View.unlock, View.unref, View.copyOut, View.get, View.bget,
        View.acquire] at this
      rw [hmap] at this
      rw [map_cons, logWrites]
      exact this

theorem ok_writeHead (hv : Quiet v pins)
    (hroom : NBUF ≤ pins.length → ρ.stop (.panic .bgetNoBuffers)) (hstart : v.log.start ∉ pins)
    (hw : ρ.write v.log.start ((v.view v.log.start).setHead v.log.lh)) (hq : ∀ v', Quiet v' pins →
      Wrote v v' [(v.log.start, (v.view v.log.start).setHead v.log.lh)] → Q () v') :
    View.Ok ρ writeHead Q v := by
  have href : v.refs v.log.start = 0 := by rw [hv.refs, if_neg hstart]
  refine ok_bind (ok_bind (ok_bread hv.want (hv.held _)
    (fun _ h => hroom (hv.full h)) fun i => ?_))
  have hi : (v.get v.log.start i).held v.log.start = some i := held_get_same _ i _
  refine ok_bind ⟨v.log.start, hi, ok_bind ⟨v.log.start, hi, ?_, ?_⟩⟩
  · simp only [View.store, update_self]
    exact hw
  refine ok_brelse rfl hv.drop hi (fun _ => ?_) (hq _ ⟨?_, rfl, rfl, ?_⟩ ⟨?_, ?_, ?_, ?_⟩)
  · simp only [View.write, View.store, update_self]
  · intro b
    by_cases hb : b = v.log.start
    · rw [hb, held_put_same]
    · rw [held_put_of_ne _ i hb]
      simp only [View.write, View.store]
      rw [v.held_get_of_ne i hb]
      exact hv.held b
  · intro b
    by_cases hb : b = v.log.start
    · rw [hb, refs_put_same]
      simp only [View.write, View.store]
      rw [v.refs_get_same, href, if_neg hstart]
    · rw [refs_put_of_ne _ i hb]
      simp only [View.write, View.store]
      rw [v.refs_get_of_ne i hb]
      exact hv.refs b
  · rfl
  · simp only [View.put, View.unlock, View.unref, View.write, View.store, View.get, View.bget,
      View.acquire, replay_cons, replay_nil, update_self]
  · simp only [View.put, View.unlock, View.unref, View.write, View.store, View.get, View.bget,
      View.acquire, update_self]
  · rfl

/-- The writes that install the blocks of a header from the log at `a`, in a
    memory whose log blocks are given by `f`. -/
def homeWrites (f : Nat → Block) (a : Nat) : List Nat → List (Nat × Block)
  | [] => []
  | b :: bs => (b, f a) :: homeWrites f (a + 1) bs

theorem homeWrites_congr {g : Nat → Block}
    (h : ∀ k < bs.length, f (a + k) = g (a + k)) : homeWrites f a bs = homeWrites g a bs := by
  induction bs generalizing a with
  | nil => rfl
  | cons b bs ih =>
    have hhead : f a = g a := h 0 (succ_pos _)
    have htail : homeWrites f (a + 1) bs = homeWrites g (a + 1) bs := by
      refine ih fun k hk => ?_
      have := h (k + 1) (succ_lt_succ hk)
      rwa [Nat.add_assoc, Nat.add_comm 1 k]
    rw [homeWrites, homeWrites, hhead, htail]

theorem homeWrites_fst (f : Nat → Block) (a : Nat) (bs : List Nat) :
    (homeWrites f a bs).map Prod.fst = bs := by
  induction bs generalizing a with
  | nil => rfl
  | cons b bs ih => rw [homeWrites, map_cons, ih]

/-- One pass of `install_trans`: the log block `a` copied to its home `b`. In
    memory the home is pinned and loses its pin, at boot it is not. -/
theorem ok_installOne
    (left : List Nat) (recovering : Bool) (hv : Quiet v pins) (hclean : v.view a = v.disk a)
    (hne : a ≠ b) (ha : a ∉ pins) (hroom : NBUF ≤ pins.length → ρ.stop (.panic .bgetNoBuffers))
    (hb : b ∉ left) (hpins : ∀ c, c ≠ b → (c ∈ pins ↔ c ∈ left))
    (hpinned : if recovering then b ∉ pins ∧ pins.length + 1 < NBUF else b ∈ pins)
    (hw : ρ.write b (v.view a)) (hu : recovering = false → ρ.unpin b (v.view a))
    (hq : ∀ v', Quiet v' left → Wrote v v' [(b, v.view a)] → View.Ok ρ rest Q v') :
    View.Ok ρ (do
      let lbuf ← bread a
      let dbuf ← bread b
      memmove dbuf lbuf
      bwrite dbuf
      if recovering then pure () else piece (.bunpin dbuf)
      brelse lbuf
      brelse dbuf
      rest) Q v := by
  have ha0 : v.refs a = 0 := by rw [hv.refs, if_neg ha]
  refine ok_bind (ok_bread hv.want (hv.held a) (fun _ h => hroom (hv.full h)) fun j => ?_)
  refine ok_bind (ok_bread rfl ?_ ?_ fun i => ?_)
  · rw [v.held_get_of_ne j hne.symm]
    exact hv.held b
  · intro h0 hfull
    cases recovering with
    | true => exact absurd (hv.room_get hpinned.2 a j) hfull
    | false =>
      rw [v.refs_get_of_ne j hne.symm] at h0
      exact absurd (hv.pinned hpinned) (by omega)
  have hj : ((v.get a j).get b i).held a = some j := by
    rw [held_get_of_ne _ i hne, held_get_same]
  have hi : ((v.get a j).get b i).held b = some i := held_get_same _ i b
  refine ok_copyOut hi hj hw ?_
  -- With or without the unpin, `b` is left with the one reference of its holder.
  have hrest : ∀ w : View, w.held = ((v.get a j).get b i).held → w.want = none → w.drop = none →
      Wrote v w [(b, v.view a)] → w.refs b = 1 →
      (∀ c, c ≠ b → w.refs c = ((v.get a j).get b i).refs c) →
      View.Ok ρ (do brelse j; brelse i; rest) Q w := by
    intro w hheld hwant hdrop hw hb1 hrefs
    refine ok_brelsePair hne hwant hdrop (hheld ▸ hi) (hheld ▸ hj) (fun _ => ?_) ?_
      (hq _ (release_pair hne hwant ?_ ?_ ?_ ?_) ⟨hw.view, hw.disk, hw.issued, hw.log⟩)
    · rw [hw.view, hw.disk, replay_cons, replay_cons]
      simp only [replay_nil, update_of_ne hne]
      exact hclean
    · rw [hw.view, hw.disk, replay_cons, replay_cons]
      simp only [replay_nil, update_self]
    · intro c h1 h2
      rw [hheld, held_get_of_ne _ i h2, v.held_get_of_ne j h1]
      exact hv.held c
    · intro c h1 h2
      rw [hrefs c h2, refs_get_of_ne _ i h2, v.refs_get_of_ne j h1, hv.refs]
      simp only [hpins c h2]
    · have ha' : a ∉ left := fun h => ha ((hpins a hne).mpr h)
      rw [hrefs a hne, refs_get_of_ne _ i hne, refs_get_same, ha0, if_neg ha']
    · rw [hb1, if_neg hb]
  have hbrefs : ((v.get a j).get b i).refs b = v.refs b + 1 := by
    rw [refs_get_same, v.refs_get_of_ne j hne.symm]
  have hw : Wrote v (((v.get a j).get b i).copyOut b a) [(b, v.view a)] :=
    { view := rfl, disk := rfl, issued := rfl, log := rfl }
  cases recovering with
  | true =>
    have hb0 : v.refs b = 0 := by rw [hv.refs, if_neg hpinned.1]
    refine hrest _ rfl rfl hv.drop hw ?_ fun _ _ => rfl
    simp only [View.copyOut]
    rw [hbrefs, hb0]
  | false =>
    have hb1 : v.refs b = 1 := (hv.refs b).trans (if_pos hpinned)
    refine ok_bind ⟨b, hi, rfl, hv.drop, ?_, ?_, ?_⟩
    · simp only [View.copyOut]
      omega
    · simp only [View.copyOut, update_self]
      exact hu rfl
    · refine hrest _ rfl rfl hv.drop ⟨hw.view, hw.disk, hw.issued, hw.log⟩ ?_ fun c hcb => ?_
      · simp only [View.unpin, View.copyOut, update_self]
        omega
      · simp only [View.unpin, View.copyOut, update_of_ne hcb]

/-- `install_trans` copies each log block home. When the transaction is still in
    memory the homes are pinned, and each loses its pin on the way. -/
theorem ok_installFrom (recovering : Bool)
    (bs : List Nat) : ∀ (tail : Nat) (v : View), Quiet v (if recovering then [] else bs) →
    (recovering = false → NBUF ≤ bs.length → ρ.stop (.panic .bgetNoBuffers)) → bs.Nodup →
    (∀ k < bs.length, start + tail + 1 + k ∉ bs) →
    (∀ k < bs.length, v.view (start + tail + 1 + k) = v.disk (start + tail + 1 + k)) →
    (∀ w ∈ homeWrites v.view (start + tail + 1) bs, ρ.write w.1 w.2) →
    (recovering = false → ∀ w ∈ homeWrites v.view (start + tail + 1) bs, ρ.unpin w.1 w.2) →
    (∀ v', Quiet v' [] → Wrote v v' (homeWrites v.view (start + tail + 1) bs) → Q () v') →
    View.Ok ρ (installFrom recovering start tail bs) Q v := by
  induction bs with
  | nil =>
    intro tail v hv _ _ _ _ _ _ hq
    rw [ite_self] at hv
    exact hq v hv (Wrote.refl v)
  | cons b bs ih =>
    intro tail v hv hroom hnd hout hclean hw hu hq
    rw [List.nodup_cons] at hnd
    rw [List.length_cons] at hroom
    rw [homeWrites, List.forall_mem_cons] at hw hu
    have hnot : start + tail + 1 ∉ b :: bs := hout 0 (succ_pos _)
    have hne : start + tail + 1 ≠ b := fun h => hnot (h ▸ mem_cons_self)
    unfold installFrom
    refine ok_installOne (if recovering then [] else bs) recovering hv
      (hclean 0 (succ_pos _)) hne ?_ ?_ ?_ ?_ ?_ hw.1 (fun h => (hu h).1) fun v1 hv1 hw1 => ?_
    · cases recovering with
      | true => exact not_mem_nil
      | false => exact hnot
    · cases recovering with
      | true => exact fun h => absurd h (Nat.not_succ_le_zero _)
      | false => exact hroom rfl
    · cases recovering with
      | true => exact not_mem_nil
      | false => exact hnd.1
    · intro c hcb
      cases recovering with
      | true => exact Iff.rfl
      | false =>
        simp only [Bool.false_eq_true, if_false, mem_cons]
        exact ⟨fun h => h.resolve_left hcb, .inr⟩
    · cases recovering with
      | true => exact ⟨not_mem_nil, succ_lt_succ (succ_pos _)⟩
      | false => exact mem_cons_self
    -- The home just written is not one of the log blocks still to be read.
    have hlog : ∀ k < bs.length, start + tail + 1 + 1 + k ≠ b := by
      intro k hk h
      have := hout (k + 1) (succ_lt_succ hk)
      rw [show start + tail + 1 + (k + 1) = start + tail + 1 + 1 + k from by omega, h] at this
      exact this mem_cons_self
    have hcongr : homeWrites v1.view (start + (tail + 1) + 1) bs =
        homeWrites v.view (start + tail + 1 + 1) bs := by
      rw [show start + (tail + 1) + 1 = start + tail + 1 + 1 from by omega]
      refine homeWrites_congr fun k hk => ?_
      rw [hw1.view, replay_cons, replay_nil]
      exact update_of_ne (hlog k hk) _ _
    refine ih (tail + 1) v1 hv1 (fun h hle => hroom h (by omega)) hnd.2 ?_ ?_ ?_ ?_ ?_
    · intro k hk hin
      have := hout (k + 1) (succ_lt_succ hk)
      rw [show start + tail + 1 + (k + 1) = start + (tail + 1) + 1 + k from by omega] at this
      exact this (mem_cons_of_mem b hin)
    · intro k hk
      have := hclean (k + 1) (succ_lt_succ hk)
      rw [show start + tail + 1 + (k + 1) = start + tail + 1 + 1 + k from by omega] at this
      rw [show start + (tail + 1) + 1 + k = start + tail + 1 + 1 + k from by omega, hw1.view,
        hw1.disk, replay_cons, replay_cons, replay_nil, replay_nil,
        update_of_ne (hlog k hk), update_of_ne (hlog k hk)]
      exact this
    · rw [hcongr]
      exact hw.2
    · rw [hcongr]
      exact fun h => (hu h).2
    · intro v' hv' hw'
      refine hq v' hv' ?_
      have := hw1.trans hw'
      rw [hcongr] at this
      exact this

theorem mem_logWrites :
    c ∈ (logWrites a xs).map Prod.fst ↔ a ≤ c ∧ c < a + xs.length := by
  induction xs generalizing a with
  | nil =>
    simp only [logWrites, List.map_nil, not_mem_nil, List.length_nil, false_iff]
    omega
  | cons x xs ih =>
    simp only [logWrites, map_cons, mem_cons, ih, List.length_cons]
    omega

theorem eq_of_mem_logWrites {w : Nat × Block}
    (hw : w ∈ logWrites a xs) : ∃ k, ∃ hk : k < xs.length, w = (a + k, xs[k]) := by
  induction xs generalizing a with
  | nil => exact absurd hw not_mem_nil
  | cons x xs ih =>
    rw [logWrites, mem_cons] at hw
    rcases hw with rfl | hw
    · exact ⟨0, succ_pos _, rfl⟩
    · obtain ⟨k, hk, rfl⟩ := ih hw
      refine ⟨k + 1, succ_lt_succ hk, ?_⟩
      rw [List.getElem_cons_succ, show a + 1 + k = a + (k + 1) from by omega]

theorem replay_logWrites {k : Nat} {m : Nat → Block} (hk : k < xs.length) :
    replay (logWrites a xs) m (a + k) = xs[k] := by
  induction xs generalizing a k m with
  | nil => exact absurd hk (Nat.not_lt_zero k)
  | cons x xs ih =>
    rw [logWrites, replay_cons]
    cases k with
    | zero =>
      rw [replay_of_notMem, Nat.add_zero, update_self, List.getElem_cons_zero]
      rw [mem_logWrites]
      omega
    | succ k =>
      have := ih (a := a + 1) (m := update m a x) (Nat.lt_of_succ_lt_succ hk)
      rw [show a + (k + 1) = a + 1 + k from by omega, this, List.getElem_cons_succ]

theorem homeWrites_eq_zip
    (hlen : bs.length = xs.length) (h : ∀ k (hk : k < xs.length), f (a + k) = xs[k]) :
    homeWrites f a bs = bs.zip xs := by
  induction bs generalizing a xs with
  | nil => rfl
  | cons b bs ih =>
    cases xs with
    | nil => exact absurd hlen (Nat.succ_ne_zero _)
    | cons x xs =>
      have hhead : f a = x := h 0 (succ_pos _)
      have htail : homeWrites f (a + 1) bs = bs.zip xs := by
        refine ih (Nat.succ.inj hlen) fun k hk => ?_
        have := h (k + 1) (succ_lt_succ hk)
        rwa [show a + 1 + k = a + (k + 1) from by omega]
      rw [homeWrites, hhead, htail, List.zip_cons_cons]

/-- A header that leaves the log's own blocks alone. -/
structure Fits (start : Nat) (lh : List Nat) : Prop where
  nodup : lh.Nodup
  out : ∀ k ≤ lh.length, start + k ∉ lh

theorem ok_commit (hv : Quiet v v.log.lh)
    (hclean : ∀ b, b ∉ v.log.lh → v.view b = v.disk b) (hfits : Fits v.log.start v.log.lh)
    (hne : v.log.lh ≠ []) (hroom : NBUF ≤ v.log.lh.length → ρ.stop (.panic .bgetNoBuffers))
    (hw : ∀ w ∈ commitWrites v.log.start (v.disk v.log.start) v.log.lh (v.log.lh.map v.view),
      ρ.write w.1 w.2) (hu : ∀ w ∈ v.log.lh.zip (v.log.lh.map v.view), ρ.unpin w.1 w.2)
    (hnil : ρ.log { v.log with lh := [] })
    (hq : ∀ v', Quiet v' [] → v'.log = { v.log with lh := [] } → v'.issued = v.issued ++
        commitWrites v.log.start (v.disk v.log.start) v.log.lh (v.log.lh.map v.view) →
      v'.disk = replay (commitWrites v.log.start (v.disk v.log.start) v.log.lh
        (v.log.lh.map v.view)) v.disk → Q () v') :
    View.Ok ρ commit Q v := by
  have hstart : v.log.start ∉ v.log.lh := hfits.out 0 (Nat.zero_le _)
  have hhead : v.view v.log.start = v.disk v.log.start := hclean _ hstart
  have hout : ∀ k < v.log.lh.length, v.log.start + 0 + 1 + k ∉ v.log.lh := by
    intro k hk
    have := hfits.out (k + 1) hk
    rwa [show v.log.start + 0 + 1 + k = v.log.start + (k + 1) from by omega]
  unfold commitWrites at hw
  rw [List.forall_mem_append, List.forall_mem_cons, List.forall_mem_append] at hw
  obtain ⟨hwlog, hwhead, hwhome, hwerase⟩ := hw
  unfold commit
  refine ok_bind (ok_getLog ?_)
  rw [if_pos (List.length_pos_of_ne_nil hne)]
  refine ok_bind (ok_bind ?_)
  refine ok_writeLogFrom hroom v.log.lh 0 v hv (fun _ h => h) hout hwlog fun v1 hv1 hw1 => ?_
  -- The header block is neither a log block nor a home, so it is what was stored last.
  have hview1 : v1.view v.log.start = v.disk v.log.start := by
    rw [hw1.view, replay_of_notMem, hhead]
    rw [mem_logWrites]
    omega
  refine ok_bind (ok_writeHead hv1 hroom (hw1.log ▸ hstart) ?_ fun v2 hv2 hw2 => ?_)
  · rw [hw1.log, hview1]
    exact hwhead
  rw [hw1.log, hview1] at hw2
  have hlog2 : v2.log = v.log := hw2.log.trans hw1.log
  have hview2 : v2.view v.log.start = (v.disk v.log.start).setHead v.log.lh := by
    rw [hw2.view, replay_cons, replay_nil, update_self]
  have hhome : homeWrites v2.view (v.log.start + 0 + 1) v.log.lh =
      v.log.lh.zip (v.log.lh.map v.view) := by
    refine homeWrites_eq_zip (List.length_map ..).symm fun k hk => ?_
    rw [hw2.view, replay_cons, replay_nil, update_of_ne (by omega), hw1.view, replay_logWrites hk]
  refine ok_bind (ok_bind (ok_getLog ?_))
  rw [hlog2]
  refine ok_installFrom false v.log.lh 0 v2 hv2 (fun _ => hroom) hfits.nodup hout ?_ ?_ ?_
    fun v3 hv3 hw3 => ?_
  · -- The log blocks have been written out.
    intro k hk
    have hin : v.log.start + 0 + 1 + k ∈
        (logWrites (v.log.start + 0 + 1) (v.log.lh.map v.view)).map Prod.fst := by
      rw [mem_logWrites, List.length_map]
      omega
    rw [hw2.view, hw2.disk, replay_cons, replay_cons, replay_nil, replay_nil,
      update_of_ne (by omega), update_of_ne (by omega), hw1.view, hw1.disk]
    exact replay_congr_of_mem hin
  · rw [hhome]
    exact hwhome
  · rw [hhome]
    exact fun _ => hu
  rw [hhome] at hw3
  have hlog3 : v3.log = v.log := hw3.log.trans hlog2
  have hview3 : v3.view v.log.start = (v.disk v.log.start).setHead v.log.lh := by
    rw [hw3.view, replay_of_notMem, hview2]
    intro hin
    obtain ⟨w, hwin, hws⟩ := List.mem_map.mp hin
    exact hstart (hws ▸ (List.of_mem_zip hwin).1)
  refine ok_bind ⟨by rw [hlog3]; exact hnil, ?_⟩
  refine ok_writeHead ⟨hv3.held, hv3.want, hv3.drop, hv3.refs⟩ (fun h => absurd h (by decide))
    not_mem_nil ?_ fun v5 hv5 hw5 => ?_
  · simp only [hlog3, hview3]
    exact hwerase _ (List.mem_singleton.mpr rfl)
  simp only [hlog3, hview3] at hw5
  have hall := (hw1.trans hw2).trans hw3
  refine hq v5 hv5 hw5.log ?_ ?_
  · rw [hw5.issued, hall.issued]
    simp only [commitWrites, List.append_assoc, List.cons_append, List.nil_append, Nat.add_zero]
  · rw [hw5.disk, hall.disk, ← replay_append]
    simp only [commitWrites, List.append_assoc, List.cons_append, List.nil_append, Nat.add_zero]

/-- The writes of a recovery: what the header on disk names, and the header
    erased. -/
def recoverWrites (start : Nat) (disk : Nat → Block) : List (Nat × Block) :=
  homeWrites disk (start + 1) (disk start).head ++ [(start, (disk start).setHead [])]

theorem ok_readHead
    (hhead : ρ.log { l with lh := (disk l.start).head })
    (hq : Q () (View.fresh disk { l with lh := (disk l.start).head })) :
    View.Ok ρ readHead Q (View.fresh disk l) := by
  have hquiet : Quiet (View.fresh disk l) [] := ⟨fun _ => rfl, rfl, rfl, fun _ => rfl⟩
  refine ok_bind (ok_getLog (ok_bind (ok_bread rfl rfl ?_ fun i => ?_)))
  · exact fun _ h => absurd (hquiet.full h) (by decide)
  have hi : ((View.fresh disk l).get l.start i).held l.start = some i := held_get_same _ i l.start
  refine ok_bind ⟨l.start, hi, ok_bind ⟨hhead, ok_brelse rfl rfl hi (fun _ => rfl) ?_⟩⟩
  have hput : ({ (View.fresh disk l).get l.start i with
      log := { l with lh := (disk l.start).head } } : View).put l.start i =
      View.fresh disk { l with lh := (disk l.start).head } := by
    simp only [View.put, View.unlock, View.unref, View.get, View.bget, View.acquire, View.fresh,
      update_self, Function.update_idem, Nat.add_sub_cancel]
    rw [update_eq_self l.start, update_eq_self l.start]
  rw [← hput] at hq
  exact hq

theorem ok_recover
    (hfits : Fits start (disk start).head) (hw : ∀ w ∈ recoverWrites start disk, ρ.write w.1 w.2)
    (hlog : ∀ l, ρ.log l) (hq : ∀ v', Quiet v' [] → v'.log = Log.init start size →
      v'.issued = recoverWrites start disk → v'.disk = replay (recoverWrites start disk) disk →
      Q () v') : View.Ok ρ recoverFromLog Q (View.fresh disk (Log.init start size)) := by
  have hout : ∀ k < (disk start).head.length, start + 0 + 1 + k ∉ (disk start).head := by
    intro k hk
    have := hfits.out (k + 1) hk
    rwa [show start + 0 + 1 + k = start + (k + 1) from by omega]
  unfold recoverWrites at hw
  rw [List.forall_mem_append] at hw
  unfold recoverFromLog
  refine ok_bind (ok_readHead (hlog _) (ok_bind (ok_bind (ok_getLog ?_))))
  refine ok_installFrom true (disk start).head 0 _ ⟨fun _ => rfl, rfl, rfl, fun _ => rfl⟩
    (fun h => by cases h) hfits.nodup hout (fun _ _ => rfl) hw.1 (fun h => by cases h)
    fun v4 hv4 hw4 => ?_
  have hview4 : v4.view start = disk start := by
    rw [hw4.view, replay_of_notMem]
    · rfl
    · rw [homeWrites_fst]
      exact hfits.out 0 (Nat.zero_le _)
  have hlog4 : v4.log = { Log.init start size with lh := (disk start).head } := hw4.log
  refine ok_bind ⟨hlog _, ?_⟩
  refine ok_writeHead ⟨hv4.held, hv4.want, hv4.drop, hv4.refs⟩ (fun h => absurd h (by decide))
    not_mem_nil ?_ fun v6 hv6 hw6 => ?_
  · simp only [hlog4, Log.init, hview4]
    exact hw.2 _ (List.mem_singleton.mpr rfl)
  simp only [hlog4, Log.init, hview4] at hw6
  refine hq v6 hv6 hw6.log ?_ ?_
  · rw [hw6.issued, hw4.issued]
    rfl
  · rw [hw6.disk, hw4.disk, ← replay_append]
    rfl

/-- The header after one more block is logged. -/
def absorb (lh : List Nat) (b : Nat) : List Nat := if b ∈ lh then lh else lh ++ [b]

/-- The header after a list of updates is logged. -/
def logged (lh : List Nat) (ws : List (Nat × Block)) : List Nat :=
  ws.foldl (fun l w => absorb l w.1) lh

/-- Room for one more call of `log_write`. -/
def Roomy (size : Nat) (lh : List Nat) : Prop := lh.length < LOGSIZE ∧ lh.length < size - 1

/-- Every update finds room in a log of `size` blocks, and a commit a buffer. -/
def Admits (size : Nat) (lh : List Nat) : List (Nat × Block) → Prop
  | [] => lh.length < NBUF
  | w :: ws => Roomy size lh ∧ Admits size (absorb lh w.1) ws

theorem mem_absorb : c ∈ absorb lh b ↔ c ∈ lh ∨ c = b := by
  unfold absorb
  by_cases hb : b ∈ lh
  · rw [if_pos hb]
    exact ⟨.inl, fun h => h.elim id fun h => h ▸ hb⟩
  · rw [if_neg hb, List.mem_append, List.mem_singleton]

theorem nodup_absorb (h : lh.Nodup) : (absorb lh b).Nodup := by
  unfold absorb
  by_cases hb : b ∈ lh
  · rwa [if_pos hb]
  · rw [if_neg hb]
    exact List.nodup_append.mpr ⟨h, List.nodup_singleton b, fun x hx y hy hxy =>
      hb (List.mem_singleton.mp hy ▸ hxy ▸ hx)⟩

theorem length_absorb_le (lh : List Nat) (b : Nat) : (absorb lh b).length ≤ lh.length + 1 := by
  unfold absorb
  split_ifs
  · exact Nat.le_succ _
  · rw [List.length_append, List.length_singleton]

theorem mem_logged : c ∈ logged lh ws ↔ c ∈ lh ∨ c ∈ ws.map Prod.fst := by
  induction ws generalizing lh with
  | nil => simp only [logged, List.foldl_nil, List.map_nil, not_mem_nil, or_false]
  | cons w ws ih =>
    have : c ∈ logged lh (w :: ws) ↔ c ∈ logged (absorb lh w.1) ws := Iff.rfl
    rw [this, ih, mem_absorb, map_cons, mem_cons, or_assoc]

theorem nodup_logged (h : lh.Nodup) : (logged lh ws).Nodup := by
  induction ws generalizing lh with
  | nil => exact h
  | cons w ws ih => exact ih (nodup_absorb h)

theorem logWrite_eq (b : Nat) (hout : 1 ≤ l.outstanding) :
    (Roomy l.size l.lh → l.logWrite b = .ok ({ l with lh := absorb l.lh b }, b ∉ l.lh)) ∧
    (¬ Roomy l.size l.lh → l.logWrite b = .error .tooBigTransaction) := by
  unfold Log.logWrite absorb Roomy
  constructor
  · intro h
    rw [if_neg (by omega), if_neg (by omega)]
    by_cases hb : b ∈ l.lh
    · simp only [hb, if_true, not_true, decide_false]
    · simp only [hb, if_false, not_false_iff, decide_true]
  · intro h
    rw [if_pos (by omega)]

theorem ok_update (b : Nat) (x : Block)
    (hv : Quiet v v.log.lh) (hout : 1 ≤ v.log.outstanding)
    (hq : ∀ v', Roomy v.log.size v.log.lh → Quiet v' v'.log.lh →
      v'.view = update v.view b x → v'.disk = v.disk → v'.issued = v.issued →
      v'.log = { v.log with lh := absorb v.log.lh b } → View.Ok ρ rest Q v')
    (hr : ∀ e, ¬ Roomy v.log.size v.log.lh → ρ.stop e) :
    View.Ok ρ (do
      let i ← bread b
      piece (.store i fun _ => x)
      piece (.logWrite i)
      brelse i
      rest) Q v := by
  have hspec := logWrite_eq b hout
  refine ok_bind (ok_bread hv.want (hv.held b) ?_ fun i => ?_)
  · -- A cache full of pins is a full log.
    intro _ hfull
    refine hr _ fun hroomy => ?_
    have := hv.full hfull
    have := hroomy.1
    simp only [LOGSIZE, NBUF] at *
    omega
  have hi : (v.get b i).held b = some i := held_get_same _ i b
  refine ok_bind ⟨b, hi, ok_bind ⟨b, hi, ?_⟩⟩
  by_cases hfit : Roomy v.log.size v.log.lh
  · have hlog : ((v.get b i).store b fun _ => x).log.logWrite b = _ := hspec.1 hfit
    -- The holder's reference and the pin: what is released is not the last one.
    have hrest : ∀ w : View, w.held = (v.get b i).held → w.want = none → w.drop = none →
        w.view = update v.view b x → w.disk = v.disk → w.issued = v.issued →
        w.log = { v.log with lh := absorb v.log.lh b } → w.refs b = 2 →
        (∀ c, c ≠ b → w.refs c = v.refs c) → View.Ok ρ (do brelse i; rest) Q w := by
      intro w hheld hwant hdrop hview hdisk hissued hlog hb2 hother
      refine ok_bind (ok_brelse hwant hdrop (hheld ▸ hi) (fun h => by omega)
        (hq _ hfit ⟨fun c => ?_, hwant, rfl, fun c => ?_⟩ hview hdisk hissued hlog))
      · by_cases hcb : c = b
        · rw [hcb, held_put_same]
        · rw [held_put_of_ne _ i hcb, hheld, v.held_get_of_ne i hcb]
          exact hv.held c
      · rw [show (w.put b i).log.lh = absorb v.log.lh b from by
          simp only [View.put, View.unlock, View.unref, hlog]]
        simp only [mem_absorb]
        by_cases hcb : c = b
        · rw [hcb, refs_put_same, hb2, if_pos (.inr rfl)]
        · rw [refs_put_of_ne _ i hcb, hother c hcb, hv.refs]
          simp only [hcb, or_false]
    rw [hlog]
    by_cases hb : b ∈ v.log.lh
    · simp only [hb, not_true, decide_false]
      refine hrest _ rfl rfl hv.drop rfl rfl rfl rfl ?_ fun c hcb => v.refs_get_of_ne i hcb
      simp only [View.store]
      rw [v.refs_get_same, hv.refs, if_pos hb]
    · simp only [hb, not_false_iff, decide_true]
      refine hrest _ rfl rfl hv.drop rfl rfl rfl rfl ?_ fun c hcb => ?_
      · simp only [View.pin, View.store, update_self]
        rw [v.refs_get_same, hv.refs, if_neg hb]
      · simp only [View.pin, View.store, update_of_ne hcb]
        exact v.refs_get_of_ne i hcb
  · have hlog : ((v.get b i).store b fun _ => x).log.logWrite b = _ := hspec.2 hfit
    rw [hlog]
    exact hr _ hfit

/-- A header the log can hold, in memory and on the disk. -/
def Bounded (size : Nat) (lh : List Nat) : Prop := lh.length ≤ LOGSIZE ∧ lh.length < size

theorem ok_updates (ws : List (Nat × Block)) :
    ∀ v : View, Quiet v v.log.lh → 1 ≤ v.log.outstanding → Bounded v.log.size v.log.lh →
    (∀ v', Quiet v' v'.log.lh → v'.view = replay ws v.view →
      v'.disk = v.disk → v'.issued = v.issued →
      v'.log = { v.log with lh := logged v.log.lh ws } → Bounded v.log.size v'.log.lh →
      (NBUF ≤ v'.log.lh.length → ¬ Admits v.log.size v.log.lh ws) → Q () v') →
    (∀ e, ¬ Admits v.log.size v.log.lh ws → ρ.stop e) →
    View.Ok ρ (updates ws) Q v := by
  induction ws with
  | nil =>
    intro v hv _ hlen hq _
    exact hq v hv rfl rfl rfl rfl hlen fun h => Nat.not_lt.mpr h
  | cons w ws ih =>
    intro v hv hout hlen hq hr
    unfold updates
    refine ok_update w.1 w.2 hv hout ?_ fun e hfull => hr e fun h => hfull h.1
    intro v1 hfit hv1 hview hdisk hissued hlog
    have hlen1 : Bounded v.log.size (absorb v.log.lh w.1) := by
      have := length_absorb_le v.log.lh w.1
      have h1 := hfit.1
      have h2 := hfit.2
      exact ⟨by omega, by omega⟩
    refine ih v1 hv1 (by rw [hlog]; exact hout) (by rw [hlog]; exact hlen1) ?_ ?_
    · intro v2 hv2 hview2 hdisk2 hissued2 hlog2 hlen2 hbig
      refine hq v2 hv2 ?_ (hdisk2.trans hdisk) (hissued2.trans hissued) ?_ ?_ ?_
      · rw [hview2, hview]
        rfl
      · rw [hlog2, hlog]
        rfl
      · rw [hlog] at hlen2
        exact hlen2
      · intro h hadmits
        rw [hlog] at hbig
        exact hbig h hadmits.2
    · intro e hnot
      rw [hlog] at hnot
      exact hr e fun h => hnot h.2

/-- All writes of one operation run alone. -/
def txnWrites (start : Nat) (disk : Nat → Block) (ws : List (Nat × Block)) : List (Nat × Block) :=
  if ws = [] then []
  else commitWrites start (disk start) (logged [] ws) ((logged [] ws).map (replay ws disk))

theorem fits_logged (h : Outside start size ws)
    (hlen : (logged [] ws).length < size) : Fits start (logged [] ws) := by
  refine ⟨nodup_logged List.nodup_nil, ?_⟩
  intro k hk hin
  rcases mem_logged.mp hin with hin | hin
  · exact not_mem_nil hin
  · obtain ⟨w, hw, hwk⟩ := List.mem_map.mp hin
    have := (h w hw).1
    omega

/-- One operation run alone either makes all its writes or finds the log or the
    cache full before it has made any. -/
theorem ok_transaction
    (hv : Quiet v []) (hlog : v.log = Log.init start size) (hclean : v.view = v.disk)
    (hpos : 0 < size) (hws : Outside start size ws) (hw : ∀ b x, ρ.write b x)
    (hu : ∀ b x, ρ.unpin b x)
    (hrec : ∀ l, ρ.log l) (hq : ∀ v', Quiet v' [] → v'.log = Log.init start size →
      v'.issued = v.issued ++ txnWrites start v.disk ws →
      v'.disk = replay (txnWrites start v.disk ws) v.disk → Bounded size (logged [] ws) → Q () v')
    (hr : ∀ e, ¬ Admits size [] ws → ρ.stop e) : View.Ok ρ (transaction ws) Q v := by
  -- `begin_op` finds an empty log.
  refine ok_bind ⟨{ Log.init start size with outstanding := 1 }, by rw [hlog]; rfl, ?_⟩
  refine ok_bind (ok_updates ws _ ⟨hv.held, hv.want, hv.drop, hv.refs⟩ (le_refl 1)
    ⟨Nat.zero_le _, hpos⟩ ?_ hr)
  intro v2 hv2 hview2 hdisk2 hissued2 hlog2 hlen2 hbig2
  simp only [Log.init] at hlog2 hlen2 hbig2
  rw [hlog2] at hlen2 hbig2 hv2
  -- `end_op` is the last one out, and commits.
  have hend : v2.log.endOp = .ok ({ Log.init start size with
      committing := true, lh := logged [] ws }, true) := by
    rw [hlog2]
    rfl
  refine ok_bind ?_
  simp only [piece, Prog.call, View.Ok, View.OpOk, hend, if_true]
  refine ok_bind ?_
  by_cases hempty : ws = []
  · subst hempty
    unfold commit
    refine ok_bind (ok_getLog ?_)
    rw [if_neg (by simp only [logged, List.foldl_nil, List.length_nil]; omega)]
    refine ⟨hrec _, hq _ ⟨hv2.held, hv2.want, hv2.drop, hv2.refs⟩ rfl ?_ ?_ hlen2⟩
    · simp only [txnWrites, if_true, List.append_nil]
      exact hissued2
    · simp only [txnWrites, if_true, replay_nil]
      exact hdisk2
  · have hlh : logged [] ws ≠ [] := by
      obtain ⟨w, ws', rfl⟩ := List.exists_cons_of_ne_nil hempty
      refine List.ne_nil_of_mem (a := w.1) (mem_logged.mpr (.inr ?_))
      rw [map_cons]
      exact mem_cons_self
    have hwrites : commitWrites start (v2.disk start) (logged [] ws) ((logged [] ws).map v2.view) =
        txnWrites start v.disk ws := by
      rw [txnWrites, if_neg hempty, hdisk2, hview2]
      simp only [hclean]
    refine ok_commit ⟨hv2.held, hv2.want, hv2.drop, hv2.refs⟩ ?_ (fits_logged hws hlen2.2) hlh
      (fun h => hr _ (hbig2 h)) (fun w _ => hw w.1 w.2) (fun w _ => hu w.1 w.2) (hrec _)
      fun v4 hv4 hlog4 hissued4 hdisk4 => ?_
    · intro b hb
      have hnot : b ∉ ws.map Prod.fst := fun h => hb (mem_logged.mpr (.inr h))
      simp only [hview2, hdisk2]
      rw [replay_of_notMem hnot, hclean]
    · refine ⟨hrec _, hq _ ⟨hv4.held, hv4.want, hv4.drop, hv4.refs⟩ (by simp only [hlog4]; rfl)
        ?_ ?_ hlen2⟩
      · simp only
        rw [hissued4, ← hwrites, hissued2]
        rfl
      · simp only
        rw [hdisk4, ← hwrites, hdisk2]
        rfl

end Steps

/-- The device between operations: nothing held, nothing pinned, nothing
    logged. -/
structure Idle (start size : Nat) (d : Dev Unit) (v : View) : Prop where
  cached : Cached (some ()) Others.nobody d v
  quiet : Quiet v []
  log : v.log = Log.init start size

theorem Idle.view_eq {d : Dev Unit} {v : View} (h : Idle start size d v) : v.view = v.disk := by
  funext b
  exact h.cached.clean b (h.quiet.refs b) fun _ _ => id

end Xv6
