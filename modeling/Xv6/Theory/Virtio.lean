import Xv6.Core.Virtio
import Xv6.Lib.Agree
import Xv6.Lib.Window
import Mathlib.Algebra.Group.Nat.Defs
import Mathlib.Data.Fintype.Card

/-!
# Requests in Flight

Where the requests of the disk driver are, at every moment.

A request that was sent and not yet handled is in `avail` where the device has not looked, in
the device, or in `used` where the driver has not looked. The heads there are all different,
each being a descriptor that belongs to one waiting process, so neither ring overflows, wherever
its 16-bit index stands.

## Theorems

* `Virtio.requests_match`: each request is answered once, and to its caller
-/

namespace Xv6.Virtio

open Function (update update_apply update_of_ne update_self)
open UInt16 (toNat_add toNat_one)
open List (append_assoc length_append length_cons mem_append mem_cons_self)

variable {P B : Type} [DecidableEq P] [DecidableEq B]

/-- The descriptors of a chain. -/
def Chain.Has (c : Chain B) (i : Nat) : Prop := i = c.i0 ∨ i = c.i1 ∨ i = c.i2

/-- A chain as it was laid out. -/
structure Linked (d : Disk B) (c : Chain B) : Prop where
  lt : ∀ i, c.Has i → i < NUM
  ne01 : c.i0 ≠ c.i1
  ne02 : c.i0 ≠ c.i2
  ne12 : c.i1 ≠ c.i2
  taken : ∀ i, c.Has i → d.free i = false
  first : (d.desc c.i0).flags &&& VRING_DESC_F_NEXT ≠ 0 ∧ (d.desc c.i0).next = c.i1
  second : (d.desc c.i1).flags &&& VRING_DESC_F_NEXT ≠ 0 ∧ (d.desc c.i1).next = c.i2 ∧
    (d.desc c.i1).addr = .data c.b
  third : (d.desc c.i2).flags &&& VRING_DESC_F_NEXT = 0 ∧ (d.desc c.i2).addr = .status c.i0

/-- The chain of a request that is under way, with its buffer noted. -/
structure Formed (d : Disk B) (c : Chain B) : Prop extends Linked d c where
  info : (d.info c.i0).b = some c.b

/-- A head is in `avail`, in the device, or in `used`. -/
def heads (s : Sys P B) (queued finished : List Nat) : List Nat :=
  queued ++ (s.inflight ++ finished)

/-- The invariant. `queued` is what the device has not seen of `avail`, and `finished` what the
    driver has not looked at of `used`. -/
structure Inv (s : Sys P B) (queued finished : List Nat) : Prop where
  chain : ∀ p c, s.pc p = .waiting c → Formed s.disk c
  apart : ∀ p q c c' i, s.pc p = .waiting c → s.pc q = .waiting c' → c.Has i → c'.Has i → p = q
  busy : ∀ p q b, (s.pc p).buf = some b → (s.pc q).buf = some b → p = q
  cover : ∀ i < NUM, s.disk.free i = false → ∃ p c, s.pc p = .waiting c ∧ c.Has i
  heads : ∀ h ∈ heads s queued finished, ∃ p c, s.pc p = .waiting c ∧ c.i0 = h
  nodup : (Virtio.heads s queued finished).Nodup
  flag : ∀ p c, s.pc p = .waiting c →
    (s.disk.flag c.b = true ↔ c.i0 ∈ Virtio.heads s queued finished)
  avail : Window NUM s.disk.avail s.seen.toNat queued
  availIdx : s.disk.availIdx.toNat = (s.seen.toNat + queued.length) % 2 ^ 16
  used : Window NUM s.disk.used s.disk.lookedAt.toNat finished
  usedIdx : s.disk.usedIdx.toNat = (s.disk.lookedAt.toNat + finished.length) % 2 ^ 16
  seen : s.seen.toNat = (s.disk.usedIdx.toNat + s.inflight.length) % 2 ^ 16
  status : ∀ h ∈ finished, (s.disk.info h).status = 0
  clears : ∀ p c, s.pc p = .waiting c → s.clears c.b = if s.disk.flag c.b then 0 else 1
  done : ∀ p c, s.pc p = .waiting c → s.disk.flag c.b = false ∨ c.i0 ∈ finished → s.done c.b = true

/-! ### Descriptors -/

theorem Chain.has0 (c : Chain B) : c.Has c.i0 := .inl rfl

theorem Chain.has1 (c : Chain B) : c.Has c.i1 := .inr (.inl rfl)

theorem Chain.has2 (c : Chain B) : c.Has c.i2 := .inr (.inr rfl)

variable {d d' : Disk B} {c : Chain B} {i : Nat}

theorem Linked.frame (h : Linked d c)
    (hdesc : ∀ i, c.Has i → d'.desc i = d.desc i)
    (hfree : ∀ i, c.Has i → d'.free i = d.free i) : Linked d' c where
  lt := h.lt
  ne01 := h.ne01
  ne02 := h.ne02
  ne12 := h.ne12
  taken := fun i hi => by rw [hfree i hi, h.taken i hi]
  first := by rw [hdesc _ c.has0]; exact h.first
  second := by rw [hdesc _ c.has1]; exact h.second
  third := by rw [hdesc _ c.has2]; exact h.third

theorem Formed.frame (h : Formed d c)
    (hdesc : ∀ i, c.Has i → d'.desc i = d.desc i) (hfree : ∀ i, c.Has i → d'.free i = d.free i)
    (hinfo : (d'.info c.i0).b = (d.info c.i0).b) : Formed d' c :=
  { h.toLinked.frame hdesc hfree with info := hinfo.trans h.info }

theorem allocDesc_eq_some (h : d.allocDesc = some (i, d')) :
    i < NUM ∧ d.free i = true ∧ d' = { d with free := update d.free i false } := by
  simp only [Disk.allocDesc, Option.map_eq_some_iff, Prod.mk.injEq] at h
  obtain ⟨j, hj, rfl, rfl⟩ := h
  exact ⟨List.mem_range.mp (List.mem_of_find?_eq_some hj), List.find?_some hj, rfl⟩

theorem freeDesc_ok (hi : i < NUM) (hf : d.free i = false) :
    d.freeDesc i = .ok { d with
      desc := update d.desc i Desc.zero
      free := update d.free i true } := by
  rw [Disk.freeDesc, if_neg (Nat.not_le.mpr hi), hf]
  rfl

theorem alloc3Desc_cases (d : Disk B) :
    (∃ i0 i1 i2, d.alloc3Desc = .ok (some (i0, i1, i2), { d with
        free := update (update (update d.free i0 false) i1 false)
          i2 false }) ∧
      (i0 < NUM ∧ i1 < NUM ∧ i2 < NUM) ∧ (i0 ≠ i1 ∧ i0 ≠ i2 ∧ i1 ≠ i2) ∧
      d.free i0 = true ∧ d.free i1 = true ∧ d.free i2 = true) ∨
    ∃ desc, d.alloc3Desc = .ok (none, { d with desc := desc }) ∧
      ∀ i, d.free i = false → desc i = d.desc i := by
  unfold Disk.alloc3Desc
  cases h0 : d.allocDesc with
  | none => exact .inr ⟨d.desc, rfl, fun _ _ => rfl⟩
  | some x0 =>
    obtain ⟨i0, d1⟩ := x0
    obtain ⟨hlt0, hfree0, rfl⟩ := allocDesc_eq_some h0
    dsimp only
    cases h1 : Disk.allocDesc { d with free := update d.free i0 false } with
    | none =>
      right
      dsimp only
      rw [freeDesc_ok hlt0 (by simp)]
      refine ⟨update d.desc i0 Desc.zero, ?_, ?_⟩
      · simp only [Function.update_idem]
        rw [← hfree0, Function.update_eq_self]
      · intro i hi
        exact update_of_ne (fun he => by rw [he, hfree0] at hi; cases hi) _ _
    | some x1 =>
      obtain ⟨i1, d2⟩ := x1
      obtain ⟨hlt1, hfree1, rfl⟩ := allocDesc_eq_some h1
      have hne1 : i1 ≠ i0 := by
        rintro rfl
        simp at hfree1
      simp only [update_of_ne hne1] at hfree1
      dsimp only
      cases h2 : Disk.allocDesc { d with
          free := update (update d.free i0 false) i1 false } with
      | none =>
        right
        dsimp only
        rw [freeDesc_ok hlt0 (by simp [update_of_ne (Ne.symm hne1)])]
        dsimp only
        rw [freeDesc_ok hlt1 (by simp [update_of_ne hne1])]
        refine ⟨update (update d.desc i0 Desc.zero) i1 Desc.zero, ?_, ?_⟩
        · have hback : update (update (update (update d.free
              i0 false) i1 false) i0 true) i1 true = d.free := by
            funext i
            by_cases hi1 : i = i1
            · rw [hi1, update_self, hfree1]
            · by_cases hi0 : i = i0
              · rw [hi0, update_of_ne (Ne.symm hne1), update_self, hfree0]
              · simp only [update_of_ne hi1, update_of_ne hi0]
          simp only [hback]
        · intro i hi
          rw [update_of_ne (fun he => by rw [he, hfree1] at hi; cases hi),
            update_of_ne (fun he => by rw [he, hfree0] at hi; cases hi)]
      | some x2 =>
        obtain ⟨i2, d3⟩ := x2
        obtain ⟨hlt2, hfree2, rfl⟩ := allocDesc_eq_some h2
        have hne2 : i2 ≠ i1 := by
          rintro rfl
          simp at hfree2
        simp only [update_of_ne hne2] at hfree2
        have hne3 : i2 ≠ i0 := by
          rintro rfl
          simp at hfree2
        rw [update_of_ne hne3] at hfree2
        exact .inl ⟨i0, i1, i2, rfl, ⟨hlt0, hlt1, hlt2⟩,
          ⟨Ne.symm hne1, Ne.symm hne3, Ne.symm hne2⟩, hfree0, hfree1, hfree2⟩

theorem freeChain_ok (h : Linked d c) :
    d.freeChain (NUM + 1) c.i0 = .ok { d with
      desc := update (update (update d.desc c.i0 Desc.zero) c.i1
        Desc.zero) c.i2 Desc.zero
      free := update (update (update d.free c.i0 true) c.i1 true)
        c.i2 true } := by
  have hne1 := Ne.symm h.ne01
  have hne2 := Ne.symm h.ne02
  have hne3 := Ne.symm h.ne12
  rw [Disk.freeChain, freeDesc_ok (h.lt _ c.has0) (h.taken _ c.has0)]
  simp only [h.first.1, h.first.2, ne_eq, not_false_eq_true, if_true]
  rw [Disk.freeChain, freeDesc_ok (h.lt _ c.has1)
    (by simp only [update_of_ne hne1]; exact h.taken _ c.has1)]
  simp only [update_of_ne hne1, h.second.1, h.second.2.1, ne_eq, not_false_eq_true, if_true]
  rw [Disk.freeChain, freeDesc_ok (h.lt _ c.has2) (by
    simp only [update_of_ne hne2, update_of_ne hne3]
    exact h.taken _ c.has2)]
  simp only [update_of_ne hne2, update_of_ne hne3, h.third.1, ne_eq, not_true_eq_false, if_false]

/-! ### The steps -/

namespace Inv

variable {s : Sys P B} {queued finished : List Nat}

theorem init : Inv (Sys.init P B) [] [] where
  chain := fun _ _ h => nomatch h
  apart := fun _ _ _ _ _ h => nomatch h
  busy := fun _ _ _ h => nomatch h
  cover := fun _ _ h => nomatch h
  heads := fun _ h => nomatch h
  nodup := List.nodup_nil
  flag := fun _ _ h => nomatch h
  avail := Window.nil
  availIdx := rfl
  used := Window.nil
  usedIdx := rfl
  seen := rfl
  status := fun _ h => nomatch h
  clears := fun _ _ h => nomatch h
  done := fun _ _ h => nomatch h

theorem length_le (hi : Inv s queued finished) : (Virtio.heads s queued finished).length ≤ NUM := by
  have hsub : Virtio.heads s queued finished ⊆ List.range NUM := by
    intro h hh
    obtain ⟨p, c, hp, rfl⟩ := hi.heads h hh
    exact List.mem_range.mpr ((hi.chain p c hp).lt _ c.has0)
  have hle := (hi.nodup.subperm hsub).length_le
  rwa [List.length_range] at hle

theorem outstanding (hi : Inv s queued finished) :
    (s.disk.availIdx - s.disk.lookedAt).toNat = (Virtio.heads s queued finished).length := by
  have hle := hi.length_le
  have havail := hi.availIdx
  have hused := hi.usedIdx
  have hseen := hi.seen
  have hlt := s.disk.lookedAt.toNat_lt
  simp only [Virtio.heads, length_append, NUM] at hle ⊢
  rw [UInt16.toNat_sub]
  omega

variable {p q : P} {c c' : Chain B} {x : Pc B} {b : B}

theorem same_head (hi : Inv s queued finished)
    (hp : s.pc p = .waiting c) (hq : s.pc q = .waiting c') (hh : c.i0 = c'.i0) : c = c' := by
  obtain rfl := hi.apart p q c c' c.i0 hp hq c.has0 (.inl hh)
  exact Pc.waiting.inj (hp.symm.trans hq)

theorem same_buf (hi : Inv s queued finished)
    (hp : s.pc p = .waiting c) (hq : s.pc q = .waiting c') (hb : c.b = c'.b) : c = c' := by
  obtain rfl := hi.busy p q c.b (by rw [hp]; rfl) (by rw [hq, hb]; rfl)
  exact Pc.waiting.inj (hp.symm.trans hq)

theorem waiting_update (h : update s.pc p x q = .waiting c) :
    q = p ∧ x = .waiting c ∨ q ≠ p ∧ s.pc q = .waiting c := by
  by_cases hq : q = p
  · rw [hq, update_self] at h
    exact .inl ⟨hq, h⟩
  · rw [update_of_ne hq] at h
    exact .inr ⟨hq, h⟩

theorem buf_update (h : (update s.pc p x q).buf = some b) :
    q = p ∧ x.buf = some b ∨ q ≠ p ∧ (s.pc q).buf = some b := by
  by_cases hq : q = p
  · rw [hq, update_self] at h
    exact .inl ⟨hq, h⟩
  · rw [update_of_ne hq] at h
    exact .inr ⟨hq, h⟩

section

variable (hi : Inv s queued finished)

include hi

theorem busy_update
    (hx : ∀ q b, x.buf = some b → (s.pc q).buf = some b → q = p) (q q' : P) (b : B)
    (hq : (update s.pc p x q).buf = some b) (hq' : (update s.pc p x q').buf = some b) : q = q' := by
  rcases buf_update hq with ⟨rfl, hb⟩ | ⟨hne, hb⟩ <;>
    rcases buf_update hq' with ⟨rfl, hb'⟩ | ⟨hne', hb'⟩
  · rfl
  · exact (hx q' b hb hb').symm
  · exact hx q b hb' hb
  · exact hi.busy q q' b hb hb'

theorem short (hp : ∀ c, s.pc p ≠ .waiting c)
    (hbuf : ∀ q, (s.pc q).buf = some b → q = p) (write : Bool) (blockno : UInt32)
    {desc : Nat → Desc B} (hdesc : ∀ i, s.disk.free i = false → desc i = s.disk.desc i) :
    Inv { s with
      disk := { s.disk with desc := desc }
      pc := update s.pc p (.short b write blockno) } queued finished := by
  -- the waiting processes are the same
  have hwait : ∀ {q c}, update s.pc p (.short b write blockno) q = .waiting c →
      s.pc q = .waiting c := by
    intro q c h
    rcases waiting_update h with ⟨-, hx⟩ | ⟨-, hx⟩
    · exact nomatch hx
    · exact hx
  have hstay : ∀ {q c}, s.pc q = .waiting c →
      update s.pc p (.short b write blockno) q = .waiting c := by
    intro q c h
    have hqp : q ≠ p := by
      rintro rfl
      exact hp c h
    rw [update_of_ne hqp]
    exact h
  exact
    { hi with
      chain := fun q c h => (hi.chain q c (hwait h)).frame
        (fun i hh => hdesc i ((hi.chain q c (hwait h)).taken i hh)) (fun _ _ => rfl) rfl
      apart := fun q q' c c' i h h' => hi.apart q q' c c' i (hwait h) (hwait h')
      busy := hi.busy_update fun q b' hx hq => hbuf q (by rw [← hx] at hq; exact hq)
      cover := fun i hlt hf => by
        obtain ⟨q, c, hq, hc⟩ := hi.cover i hlt hf
        exact ⟨q, c, hstay hq, hc⟩
      heads := fun h hh => by
        obtain ⟨q, c, hq, hc⟩ := hi.heads h hh
        exact ⟨q, c, hstay hq, hc⟩
      flag := fun q c h => hi.flag q c (hwait h)
      clears := fun q c h => hi.clears q c (hwait h)
      done := fun q c h => hi.done q c (hwait h) }

theorem send
    (hbuf : ∀ q, (s.pc q).buf = some b → q = p) (hp : ∀ c, s.pc p ≠ .waiting c) (write : Bool)
    (blockno : UInt32) {i0 i1 i2 : Nat} (hlt : i0 < NUM ∧ i1 < NUM ∧ i2 < NUM)
    (hne : i0 ≠ i1 ∧ i0 ≠ i2 ∧ i1 ≠ i2) (h0 : s.disk.free i0 = true)
    (h1 : s.disk.free i1 = true) (h2 : s.disk.free i2 = true) :
    Inv { s with
      disk := Disk.format { s.disk with
        free := update (update (update s.disk.free i0 false) i1 false)
          i2 false } b write blockno i0 i1 i2
      pc := update s.pc p (.waiting ⟨b, i0, i1, i2⟩)
      clears := update s.clears b 0
      done := update s.done b false } (queued ++ [i0]) finished := by
  -- the new descriptors belong to no other process
  have hfresh : ∀ q c i, s.pc q = .waiting c → c.Has i → i ≠ i0 ∧ i ≠ i1 ∧ i ≠ i2 := by
    intro q c i hq hh
    have htaken := (hi.chain q c hq).taken i hh
    refine ⟨?_, ?_, ?_⟩ <;> rintro rfl
    · rw [h0] at htaken; cases htaken
    · rw [h1] at htaken; cases htaken
    · rw [h2] at htaken; cases htaken
  have hstay : ∀ {q c}, s.pc q = .waiting c →
      update s.pc p (.waiting ⟨b, i0, i1, i2⟩) q = .waiting c := by
    intro q c h
    have hqp : q ≠ p := by
      rintro rfl
      exact hp c h
    rw [update_of_ne hqp]
    exact h
  have hother : ∀ q c, q ≠ p → s.pc q = .waiting c → c.b ≠ b := by
    intro q c hqp hq he
    exact hqp (hbuf q (by rw [hq, ← he]; rfl))
  have hnot : i0 ∉ Virtio.heads s queued finished := by
    intro hm
    obtain ⟨q, c, hq, hc⟩ := hi.heads i0 hm
    exact (hfresh q c i0 hq (.inl hc.symm)).1 rfl
  have hmem : ∀ h, h ∈ queued ++ [i0] ++ (s.inflight ++ finished) ↔
      h = i0 ∨ h ∈ Virtio.heads s queued finished := by
    intro h
    simp only [Virtio.heads, mem_append, List.mem_singleton]
    tauto
  have hnodup : (queued ++ [i0] ++ (s.inflight ++ finished)).Nodup := by
    rw [append_assoc, List.singleton_append]
    exact List.perm_middle.nodup_iff.mpr (List.nodup_cons.mpr ⟨hnot, hi.nodup⟩)
  have hlen : queued.length < NUM := by
    have hsub : i0 :: Virtio.heads s queued finished ⊆ List.range NUM := by
      intro h hh
      rcases List.mem_cons.mp hh with rfl | hh
      · exact List.mem_range.mpr hlt.1
      · obtain ⟨q, c, hq, rfl⟩ := hi.heads h hh
        exact List.mem_range.mpr ((hi.chain q c hq).lt _ c.has0)
    have hle := ((List.nodup_cons.mpr ⟨hnot, hi.nodup⟩).subperm hsub).length_le
    simp only [Virtio.heads, length_cons, length_append, List.length_range] at hle
    omega
  exact
    { hi with
      chain := fun q c h => by
        rcases waiting_update h with ⟨rfl, hx⟩ | ⟨hqp, hq⟩
        · cases hx
          exact
            { lt := by rintro i (rfl | rfl | rfl); exacts [hlt.1, hlt.2.1, hlt.2.2]
              ne01 := hne.1
              ne02 := hne.2.1
              ne12 := hne.2.2
              taken := by
                rintro i (rfl | rfl | rfl)
                · simp [Disk.format, update_of_ne hne.1, update_of_ne hne.2.1]
                · simp [Disk.format, update_of_ne hne.2.2]
                · simp [Disk.format]
              first := by
                simp only [Disk.format, update_of_ne hne.1, update_of_ne hne.2.1, update_self]
                exact ⟨by decide, trivial⟩
              second := by
                simp only [Disk.format, update_of_ne hne.2.2, update_self]
                cases write <;> exact ⟨by decide, trivial, trivial⟩
              third := by
                simp only [Disk.format, update_self]
                exact ⟨by decide, trivial⟩
              info := by simp [Disk.format] }
        · refine (hi.chain q c hq).frame ?_ ?_ ?_
          · intro i hh
            obtain ⟨hn0, hn1, hn2⟩ := hfresh q c i hq hh
            simp only [Disk.format, update_of_ne hn0, update_of_ne hn1, update_of_ne hn2]
          · intro i hh
            obtain ⟨hn0, hn1, hn2⟩ := hfresh q c i hq hh
            simp only [Disk.format, update_of_ne hn0, update_of_ne hn1, update_of_ne hn2]
          · simp only [Disk.format, update_of_ne (hfresh q c _ hq c.has0).1]
      apart := fun q q' c c' i h h' hc hc' => by
        rcases waiting_update h with ⟨rfl, hx⟩ | ⟨hqp, hq⟩ <;>
          rcases waiting_update h' with ⟨rfl, hx'⟩ | ⟨hqp', hq'⟩
        · rfl
        · cases hx
          obtain ⟨hn0, hn1, hn2⟩ := hfresh q' c' i hq' hc'
          rcases hc with rfl | rfl | rfl
          exacts [absurd rfl hn0, absurd rfl hn1, absurd rfl hn2]
        · cases hx'
          obtain ⟨hn0, hn1, hn2⟩ := hfresh q c i hq hc
          rcases hc' with rfl | rfl | rfl
          exacts [absurd rfl hn0, absurd rfl hn1, absurd rfl hn2]
        · exact hi.apart q q' c c' i hq hq' hc hc'
      busy := hi.busy_update fun q b' hx hq => hbuf q (by rw [← hx] at hq; exact hq)
      cover := fun i hlt' hf => by
        by_cases hown : i = i0 ∨ i = i1 ∨ i = i2
        · exact ⟨p, _, update_self _ _ _, hown⟩
        · rw [not_or, not_or] at hown
          simp only [Disk.format, update_of_ne hown.1, update_of_ne hown.2.1,
            update_of_ne hown.2.2] at hf
          obtain ⟨q, c, hq, hc⟩ := hi.cover i hlt' hf
          exact ⟨q, c, hstay hq, hc⟩
      heads := fun h hh => by
        rcases (hmem h).mp hh with rfl | hh
        · exact ⟨p, _, update_self _ _ _, rfl⟩
        · grind [hi.heads]
      nodup := hnodup
      flag := fun q c h => by
        change update s.disk.flag b true c.b = true ↔
          c.i0 ∈ queued ++ [i0] ++ (s.inflight ++ finished)
        rw [hmem]
        rcases waiting_update h with ⟨rfl, hx⟩ | ⟨hqp, hq⟩
        · cases hx
          simp
        · rw [update_of_ne (hother q c hqp hq), hi.flag q c hq]
          exact ⟨.inr, fun h => h.resolve_left (hfresh q c _ hq c.has0).1⟩
      avail := by
        have hpush := hi.avail.push hlen i0
        simp only [Disk.format, hi.availIdx]
        rw [Nat.mod_mod_of_dvd _ (by decide)]
        exact hpush
      availIdx := by
        have hidx := hi.availIdx
        simp only [Disk.format, toNat_add, hidx, length_append, List.length_singleton, toNat_one]
        omega
      status := fun h hh => by
        have hn : h ≠ i0 := fun he =>
          hnot (by rw [← he]; simp only [Virtio.heads, mem_append]; exact .inr (.inr hh))
        simp only [Disk.format, update_of_ne hn]
        exact hi.status h hh
      clears := fun q c h => by
        rcases waiting_update h with ⟨rfl, hx⟩ | ⟨hqp, hq⟩
        · cases hx
          simp [Disk.format]
        · simp only [Disk.format, update_of_ne (hother q c hqp hq)]
          exact hi.clears q c hq
      done := fun q c h hd => by
        rcases waiting_update h with ⟨rfl, hx⟩ | ⟨hqp, hq⟩
        · cases hx
          rcases hd with hd | hd
          · simp [Disk.format] at hd
          · exact absurd hd fun hm =>
              hnot (by simp only [Virtio.heads, mem_append]; exact .inr (.inr hm))
        · simp only [Disk.format, update_of_ne (hother q c hqp hq)] at hd ⊢
          exact hi.done q c hq hd }

theorem start
    (hbuf : ∀ q, (s.pc q).buf = some b → q = p) (hp : ∀ c, s.pc p ≠ .waiting c) (write : Bool)
    (blockno : UInt32) : ∃ s' queued', s.start p b write blockno = .ok s' ∧
      Inv s' queued' finished := by
  rcases alloc3Desc_cases s.disk with ⟨i0, i1, i2, he, hlt, hne, h0, h1, h2⟩ | ⟨desc, he, hdesc⟩
  · refine ⟨_, queued ++ [i0], by rw [Sys.start, he], ?_⟩
    exact hi.send hbuf hp write blockno hlt hne h0 h1 h2
  · refine ⟨_, queued, by rw [Sys.start, he], ?_⟩
    exact hi.short hp hbuf write blockno hdesc

theorem leave (hp : s.pc p = .waiting c)
    (hflag : s.disk.flag c.b = false) : ∃ s', s.leave p c = .ok s' ∧ Inv s' queued finished := by
  have hc := hi.chain p c hp
  have hout : c.i0 ∉ Virtio.heads s queued finished := fun hm => by
    rw [(hi.flag p c hp).mpr hm] at hflag
    cases hflag
  -- free_chain reads the links only
  have hlinks : Linked { s.disk with
      info := update s.disk.info c.i0 { s.disk.info c.i0 with b := none } } c :=
    hc.toLinked.frame (fun _ _ => rfl) (fun _ _ => rfl)
  have hfree := freeChain_ok hlinks
  refine ⟨_, by rw [Sys.leave, hfree], ?_⟩
  -- the others have none of these descriptors
  have hwait : ∀ {q c'}, update s.pc p .idle q = .waiting c' → q ≠ p ∧ s.pc q = .waiting c' := by
    intro q c' h
    rcases waiting_update h with ⟨-, hx⟩ | hx
    · exact nomatch hx
    · exact hx
  have hstay : ∀ {q c'}, q ≠ p → s.pc q = .waiting c' → update s.pc p .idle q = .waiting c' := by
    intro q c' hqp hq
    rw [update_of_ne hqp]
    exact hq
  have hapart : ∀ {q c' i}, update s.pc p .idle q = .waiting c' → c'.Has i →
      i ≠ c.i0 ∧ i ≠ c.i1 ∧ i ≠ c.i2 := by
    intro q c' i h hh
    obtain ⟨hqp, hq⟩ := hwait h
    refine ⟨?_, ?_, ?_⟩ <;> rintro rfl
    · exact hqp (hi.apart q p c' c _ hq hp hh c.has0)
    · exact hqp (hi.apart q p c' c _ hq hp hh c.has1)
    · exact hqp (hi.apart q p c' c _ hq hp hh c.has2)
  exact
    { hi with
      chain := fun q c' h => by
        refine (hi.chain q c' (hwait h).2).frame ?_ ?_ ?_
        · grind [update_apply]
        · grind [update_apply]
        · simp only [update_of_ne (hapart h c'.has0).1]
      apart := fun q q' c1 c2 i h h' => hi.apart q q' c1 c2 i (hwait h).2 (hwait h').2
      busy := hi.busy_update fun q b hx _ => nomatch hx
      cover := fun i hlt hf => by
        by_cases hown : i = c.i0 ∨ i = c.i1 ∨ i = c.i2
        · grind [hc.ne01, hc.ne02, hc.ne12, update_apply]
        · rw [not_or, not_or] at hown
          simp only [update_of_ne hown.1, update_of_ne hown.2.1, update_of_ne hown.2.2] at hf
          obtain ⟨q, c', hq, hh⟩ := hi.cover i hlt hf
          have hqp : q ≠ p := by
            rintro rfl
            obtain rfl := Pc.waiting.inj (hp.symm.trans hq)
            rcases hh with hh | hh | hh
            exacts [hown.1 hh, hown.2.1 hh, hown.2.2 hh]
          exact ⟨q, c', hstay hqp hq, hh⟩
      heads := fun h hh => by
        obtain ⟨q, c', hq, hh'⟩ := hi.heads h hh
        have hqp : q ≠ p := by
          rintro rfl
          obtain rfl := Pc.waiting.inj (hp.symm.trans hq)
          exact hout (hh' ▸ hh)
        exact ⟨q, c', hstay hqp hq, hh'⟩
      flag := fun q c' h => hi.flag q c' (hwait h).2
      status := fun h hh => by
        have hn : h ≠ c.i0 := fun he =>
          hout (by rw [← he]; simp only [Virtio.heads, mem_append]; exact .inr (.inr hh))
        simp only [update_of_ne hn]
        exact hi.status h hh
      clears := fun q c' h => hi.clears q c' (hwait h).2
      done := fun q c' h => hi.done q c' (hwait h).2 }

theorem fetch (hne : s.seen ≠ s.disk.availIdx) :
    ∃ queued', Inv s.fetch queued' finished := by
  cases queued with
  | nil =>
    have hidx := hi.availIdx
    have hlt := s.seen.toNat_lt
    rw [List.length_nil, Nat.add_zero, Nat.mod_eq_of_lt hlt] at hidx
    exact absurd (UInt16.toNat_inj.mp hidx.symm) hne
  | cons h queued =>
    obtain ⟨hh, havail⟩ := Window.pop hi.avail
    have hseen1 : (s.seen + 1).toNat = (s.seen.toNat + 1) % 2 ^ 16 := by
      rw [toNat_add, toNat_one]
    -- the head moves from the ring into the device
    have hperm : (Virtio.heads s.fetch queued finished).Perm
        (Virtio.heads s (h :: queued) finished) := by
      simp only [Virtio.heads, Sys.fetch, hh, append_assoc, List.cons_append]
      rw [← append_assoc, ← append_assoc]
      exact List.perm_middle
    refine ⟨queued, ?_⟩
    exact
      { hi with
        heads := fun x hx => hi.heads x (hperm.mem_iff.mp hx)
        nodup := hperm.nodup_iff.mpr hi.nodup
        flag := fun p c hp => (hi.flag p c hp).trans hperm.mem_iff.symm
        avail := by
          simp only [Sys.fetch, hseen1]
          exact havail.mod (by decide)
        availIdx := by
          have hidx := hi.availIdx
          rw [length_cons] at hidx
          simp only [Sys.fetch, hseen1, hidx]
          omega
        seen := by
          have hseen := hi.seen
          simp only [Sys.fetch, hseen1, length_append, List.length_singleton]
          omega }

theorem finish {h : Nat} (hh : h ∈ s.inflight) :
    Inv (s.finish h) queued (finished ++ [h]) := by
  have hin : h ∈ Virtio.heads s queued finished := by
    simp only [Virtio.heads, mem_append]
    exact .inr (.inl hh)
  obtain ⟨p, c, hp, rfl⟩ := hi.heads h hin
  have hc := hi.chain p c hp
  have hinfo : (s.disk.finish c.i0).info = update s.disk.info c.i0
      { s.disk.info c.i0 with status := 0 } := by
    simp only [Disk.finish, hc.first.2, hc.second.2.1, hc.third.2]
  have hdone : (s.finish c.i0).done = update s.done c.b true := by
    simp only [Sys.finish, hc.first.2, hc.second.2.2]
  have hperm : (Virtio.heads (s.finish c.i0) queued (finished ++ [c.i0])).Perm
      (Virtio.heads s queued finished) := by
    simp only [Virtio.heads, Sys.finish]
    refine List.Perm.append_left queued ?_
    have hback : (s.inflight.erase c.i0 ++ (finished ++ [c.i0])).Perm
        (c.i0 :: (s.inflight.erase c.i0 ++ finished)) := by
      rw [← append_assoc]
      exact List.perm_append_singleton _ _
    exact hback.trans ((List.perm_cons_erase hh).append_right finished).symm
  have hlen : finished.length < NUM := by
    have hle := hi.length_le
    have hpos := List.length_pos_of_mem hh
    simp only [Virtio.heads, length_append] at hle
    omega
  have hused1 : (s.disk.usedIdx + 1).toNat = (s.disk.usedIdx.toNat + 1) % 2 ^ 16 := by
    rw [toNat_add, toNat_one]
  exact
    { hi with
      chain := fun q c' hq => (hi.chain q c' hq).frame (fun _ _ => rfl) (fun _ _ => rfl) (by
        change ((s.disk.finish c.i0).info c'.i0).b = _
        rw [hinfo]
        by_cases he : c'.i0 = c.i0
        · rw [he, update_self]
        · rw [update_of_ne he])
      heads := fun x hx => hi.heads x (hperm.mem_iff.mp hx)
      nodup := hperm.nodup_iff.mpr hi.nodup
      flag := fun q c' hq => (hi.flag q c' hq).trans hperm.mem_iff.symm
      used := by
        have hpush := hi.used.push hlen c.i0
        simp only [Sys.finish, Disk.finish, hi.usedIdx]
        rw [Nat.mod_mod_of_dvd _ (by decide)]
        exact hpush
      usedIdx := by
        have hidx := hi.usedIdx
        simp only [Sys.finish, Disk.finish, hused1, hidx, length_append, List.length_singleton]
        omega
      seen := by
        have hseen := hi.seen
        have hpos := List.length_pos_of_mem hh
        simp only [Sys.finish, Disk.finish, hused1, List.length_erase_of_mem hh]
        omega
      status := fun x hx => by
        change ((s.disk.finish c.i0).info x).status = 0
        rw [hinfo]
        by_cases he : x = c.i0
        · rw [he, update_self]
        · grind [hi.status, update_apply]
      done := fun q c' hq hd => by
        rw [hdone]
        by_cases he : c'.b = c.b
        · rw [he, update_self]
        · rw [update_of_ne he]
          refine hi.done q c' hq (hd.imp id fun hm => ?_)
          rcases List.mem_append.mp hm with hm | hm
          · exact hm
          · -- another request has another head
            exact absurd (congrArg Chain.b (hi.same_head hq hp (List.mem_singleton.mp hm))) he }

theorem intr (hne : s.disk.lookedAt ≠ s.disk.usedIdx) :
    ∃ s' finished', s.intr = .ok s' ∧ Inv s' queued finished' ∧
      ∃ p c, s.pc p = .waiting c ∧ c.i0 = s.disk.used (s.disk.lookedAt.toNat % NUM) ∧
        s.disk.flag c.b = true ∧ s'.disk.flag = update s.disk.flag c.b false ∧
        s'.disk.lookedAt = s.disk.lookedAt + 1 := by
  cases finished with
  | nil =>
    have hidx := hi.usedIdx
    have hlt := s.disk.lookedAt.toNat_lt
    rw [List.length_nil, Nat.add_zero, Nat.mod_eq_of_lt hlt] at hidx
    exact absurd (UInt16.toNat_inj.mp hidx.symm) hne
  | cons h finished =>
    obtain ⟨hh, hused⟩ := Window.pop hi.used
    have hin : h ∈ Virtio.heads s queued (h :: finished) := by
      simp [Virtio.heads]
    obtain ⟨p, c, hp, rfl⟩ := hi.heads h hin
    have hc := hi.chain p c hp
    have hflag := (hi.flag p c hp).mpr hin
    have hlook1 : (s.disk.lookedAt + 1).toNat = (s.disk.lookedAt.toNat + 1) % 2 ^ 16 := by
      rw [toNat_add, toNat_one]
    have hperm : (Virtio.heads s queued (c.i0 :: finished)).Perm
        (c.i0 :: Virtio.heads s queued finished) := by
      simp only [Virtio.heads]
      rw [← append_assoc, ← append_assoc]
      exact List.perm_middle
    obtain ⟨hnot, hnodup⟩ := List.nodup_cons.mp (hperm.nodup_iff.mp hi.nodup)
    have hok : s.intr = .ok { s with
        disk := { s.disk with
          flag := update s.disk.flag c.b false
          lookedAt := s.disk.lookedAt + 1 }
        clears := update s.clears c.b (s.clears c.b + 1) } := by
      simp only [Sys.intr, hh, hi.status _ mem_cons_self, hc.info, ne_eq, not_true_eq_false,
        if_false]
    refine ⟨_, finished, hok, ?_, p, c, hp, hh.symm, hflag, rfl, rfl⟩
    exact
      { hi with
        chain := fun q c' hq => (hi.chain q c' hq).frame (fun _ _ => rfl) (fun _ _ => rfl) rfl
        heads := fun x hx => hi.heads x (hperm.mem_iff.mpr (List.mem_cons_of_mem _ hx))
        nodup := hnodup
        flag := fun q c' hq => by
          by_cases he : c'.b = c.b
          · obtain rfl := hi.same_buf hq hp he
            simp only [update_self, Bool.false_eq_true, false_iff]
            exact hnot
          · simp only [update_of_ne he]
            rw [hi.flag q c' hq, hperm.mem_iff, List.mem_cons]
            refine ⟨fun hm => hm.resolve_left fun hn => ?_, .inr⟩
            exact he (congrArg Chain.b (hi.same_head hq hp hn))
        used := by
          simp only [hlook1]
          exact hused.mod (by decide)
        usedIdx := by
          have hidx := hi.usedIdx
          rw [length_cons] at hidx
          simp only [hlook1, hidx]
          omega
        status := fun x hx => hi.status x (List.mem_cons_of_mem _ hx)
        clears := fun q c' hq => by
          by_cases he : c'.b = c.b
          · grind [hi.clears]
          · simp only [update_of_ne he]
            exact hi.clears q c' hq
        done := fun q c' hq hd => by
          by_cases he : c'.b = c.b
          · rw [he]
            exact hi.done p c hp (.inr mem_cons_self)
          · simp only [update_of_ne he] at hd
            exact hi.done q c' hq (hd.imp id (List.mem_cons_of_mem _)) }

end

end Inv

/-! ### Every run -/

variable [Fintype P] {s : Sys P B}

theorem Inv.step {queued finished : List Nat} (hi : Inv s queued finished) (a : Act P B)
    {r : Except Fault (Sys P B)} (hs : Virtio.step s a = some r) :
    ∃ s' queued' finished', r = .ok s' ∧ Inv s' queued' finished' := by
  cases a with
  | call p b write blockno =>
    simp only [Virtio.step] at hs
    cases hp : s.pc p with
    | idle =>
      rw [hp] at hs
      dsimp only at hs
      split_ifs at hs with hbuf
      obtain ⟨s', queued', he, hi'⟩ := hi.start (fun q hq => absurd hq (hbuf q))
        (by rw [hp]; exact nofun) write blockno
      exact ⟨s', queued', finished, (Option.some.inj hs).symm.trans he, hi'⟩
    | short b' w' n' => rw [hp] at hs; cases hs
    | waiting c => rw [hp] at hs; cases hs
  | retry p =>
    simp only [Virtio.step] at hs
    cases hp : s.pc p with
    | idle => rw [hp] at hs; cases hs
    | short b write blockno =>
      rw [hp] at hs
      obtain ⟨s', queued', he, hi'⟩ := hi.start
        (fun q hq => hi.busy q p b hq (by rw [hp]; rfl)) (by rw [hp]; exact nofun) write blockno
      exact ⟨s', queued', finished, (Option.some.inj hs).symm.trans he, hi'⟩
    | waiting c => rw [hp] at hs; cases hs
  | resume p => grind [hi.leave, Virtio.step]
  | fetch =>
    simp only [Virtio.step] at hs
    split_ifs at hs with hne
    obtain ⟨queued', hi'⟩ := hi.fetch hne
    exact ⟨_, queued', finished, (Option.some.inj hs).symm, hi'⟩
  | finish h =>
    simp only [Virtio.step] at hs
    split_ifs at hs with hh
    exact ⟨_, queued, _, (Option.some.inj hs).symm, hi.finish hh⟩
  | intr =>
    simp only [Virtio.step] at hs
    split_ifs at hs with hne
    obtain ⟨s', finished', he, hi', -⟩ := hi.intr hne
    exact ⟨s', queued, finished', (Option.some.inj hs).symm.trans he, hi'⟩

theorem inv_of_reach (h : Reach s) : ∃ queued finished, Inv s queued finished := by
  induction h with
  | init => exact ⟨[], [], Inv.init⟩
  | step a _ hs ih =>
    obtain ⟨queued, finished, hi⟩ := ih
    obtain ⟨s', queued', finished', he, hi'⟩ := hi.step a hs
    cases he
    exact ⟨queued', finished', hi'⟩

/-- In every run, whatever the order of callers, device and interrupts and wherever the indices
    have wrapped: a descriptor is free or in the chain of one waiting process; a chain has three
    descriptors, and its buffer is noted under the first; the flag of the buffer is cleared at
    most once, never before the device is done with that request, and has been cleared once when
    the caller goes on; no more than `NUM` requests are outstanding; no step ends in a panic;
    the flag of a waiting buffer is set exactly while its head is in `avail` before the device,
    in the device, or in `used` before the driver; and the interrupt takes the next head of
    `used` and clears the flag of its buffer, and no other. -/
theorem requests_match (s : Sys P B) (h : Reach s) :
    (∀ i < NUM, (s.disk.free i = true ∧ ∀ p c, s.pc p = .waiting c → ¬ c.Has i) ∨
      s.disk.free i = false ∧ ∃! p, ∃ c, s.pc p = .waiting c ∧ c.Has i) ∧
    (∀ p c, s.pc p = .waiting c → Linked s.disk c ∧ (s.disk.info c.i0).b = some c.b) ∧
    (∀ p c, s.pc p = .waiting c → s.clears c.b ≤ 1 ∧
      (s.disk.flag c.b = false ↔ s.clears c.b = 1) ∧ (s.clears c.b = 1 → s.done c.b = true)) ∧
    (s.disk.availIdx - s.disk.lookedAt).toNat ≤ NUM ∧ (∀ a e, step s a ≠ some (.error e)) ∧
    (∃ queued finished, Window NUM s.disk.avail s.seen.toNat queued ∧
      s.disk.availIdx.toNat = (s.seen.toNat + queued.length) % 2 ^ 16 ∧
      Window NUM s.disk.used s.disk.lookedAt.toNat finished ∧
      s.disk.usedIdx.toNat = (s.disk.lookedAt.toNat + finished.length) % 2 ^ 16 ∧
      ∀ p c, s.pc p = .waiting c →
        (s.disk.flag c.b = true ↔ c.i0 ∈ heads s queued finished)) ∧
    (s.disk.lookedAt ≠ s.disk.usedIdx → ∃ s' p c, step s .intr = some (.ok s') ∧
      s.pc p = .waiting c ∧ c.i0 = s.disk.used (s.disk.lookedAt.toNat % NUM) ∧
      s.disk.flag c.b = true ∧ s'.disk.flag = update s.disk.flag c.b false ∧
      s'.disk.lookedAt = s.disk.lookedAt + 1) := by
  obtain ⟨queued, finished, hi⟩ := inv_of_reach h
  refine ⟨?_, ?_, ?_, ?_, ?_,
    ⟨queued, finished, hi.avail, hi.availIdx, hi.used, hi.usedIdx, hi.flag⟩, fun hne => ?_⟩
  · intro i hlt
    cases hf : s.disk.free i with
    | true =>
      refine .inl ⟨rfl, fun p c hp hh => ?_⟩
      have htaken := (hi.chain p c hp).taken i hh
      rw [hf] at htaken
      cases htaken
    | false =>
      obtain ⟨p, c, hp, hh⟩ := hi.cover i hlt hf
      refine .inr ⟨rfl, p, ⟨c, hp, hh⟩, ?_⟩
      rintro q ⟨c', hq, hh'⟩
      exact hi.apart q p c' c i hq hp hh' hh
  · exact fun p c hp => ⟨(hi.chain p c hp).toLinked, (hi.chain p c hp).info⟩
  · grind [hi.clears, hi.done]
  · rw [hi.outstanding]
    exact hi.length_le
  · intro a e hs
    obtain ⟨s', -, -, he, -⟩ := hi.step a hs
    cases he
  · obtain ⟨s', -, hok, -, p, c, hintr⟩ := hi.intr hne
    refine ⟨s', p, c, ?_, hintr⟩
    rw [step, if_pos hne, hok]

theorem reach_of_steps {as : List (Act P B)} : ∀ {s s' : Sys P B}, Reach s →
    steps s as = some (.ok s') → Reach s' := by
  induction as with
  | nil =>
    intro s s' h hs
    cases hs
    exact h
  | cons a as ih =>
    intro s s' h hs
    simp only [steps] at hs
    split at hs
    · cases hs
    · cases hs
    · rename_i t ht
      exact ih (h.step a ht) hs

/-- Two callers; the device does the second request first. -/
theorem requests_match_two : ∃ s : Sys Bool Bool, steps (Sys.init Bool Bool)
      [.call true true false 5, .call false false true 6, .fetch, .fetch, .finish 3, .intr,
        .resume false] = some (.ok s) ∧
    s.disk.free 3 = true ∧ s.clears false = 1 ∧ s.disk.flag true = true ∧
    (s.disk.availIdx - s.disk.lookedAt).toNat ≤ NUM := by
  obtain ⟨s, hs, hfree, hclears, hflag⟩ : ∃ s : Sys Bool Bool, steps (Sys.init Bool Bool)
      [.call true true false 5, .call false false true 6, .fetch, .fetch, .finish 3, .intr,
        .resume false] = some (.ok s) ∧
      (s.disk.free 3 = true ∧ s.clears false = 1 ∧ s.disk.flag true = true) :=
    exists_of_run (by decide +kernel)
  exact ⟨s, hs, hfree, hclears, hflag, (requests_match s (reach_of_steps .init hs)).2.2.2.1⟩

end Xv6.Virtio
