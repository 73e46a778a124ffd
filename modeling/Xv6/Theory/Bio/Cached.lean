import Xv6.Theory.Bio.View
import Mathlib.Data.Fintype.EquivFin

/-!
# Buffers That Implement a View

`Cached p u d v` says that the buffers of `d` give process `p` the view `v` while
other processes have on the cache what `u` says: references, locks, and buffers
changed but not yet logged. With nobody else around, `u` is `Others.nobody`.

A block has at most one buffer, so a reader cannot be shown an old copy. A reference count is
the sum of what the view and the others account for. And a block without references, which
nobody has changed, is the same in the view as on the disk, so recycling its buffer loses
nothing.

## Theorems

* `cache_is_transparent`
-/

namespace Xv6

open Function (update update_self update_of_ne update_eq_self)

/-- Buffer `i` is the buffer of block `b`. -/
def Dev.Has {P : Type} (d : Dev P) (i : Fin NBUF) (b : Nat) : Prop :=
  (d.buf i).dev = ROOTDEV ∧ (d.buf i).blockno = b

/-- What other processes have on each buffer. -/
structure Others where
  refs : Fin NBUF → Nat
  locked : Fin NBUF → Prop
  dirty : Fin NBUF → Prop

def Others.nobody : Others :=
  { refs := fun _ => 0, locked := fun _ => False, dirty := fun _ => False }

/-- The buffers of `d` implement `v` for process `p`, or for nobody in
    particular. -/
structure Cached {P : Type} (p : Option P) (u : Others) (d : Dev P) (v : View) : Prop where
  listed : ∀ i, i ∈ d.cache.lru
  once : ∀ i j b, d.Has i b → d.Has j b → i = j
  unused : ∀ i, (d.buf i).dev ≠ ROOTDEV →
    (d.buf i).refcnt = 0 ∧ (d.buf i).lock = none ∧ u.refs i = 0
  count : ∀ i b, d.Has i b → (d.buf i).refcnt = v.refs b + u.refs i
  absent : ∀ b, (∀ i, ¬ d.Has i b) → v.refs b = 0
  shows : ∀ i b, d.Has i b → (d.buf i).valid = true → (d.buf i).data = v.view b
  unread : ∀ i b, d.Has i b → (d.buf i).valid = false → v.view b = v.disk b
  filled : ∀ i, (d.buf i).lock ≠ none → (d.buf i).valid = true
  clean : ∀ b, v.refs b = 0 → (∀ i, d.Has i b → ¬ u.dirty i) → v.view b = v.disk b
  holds : ∀ b i, v.held b = some i → d.Has i b ∧ (d.buf i).lock ≠ none ∧ (d.buf i).lock = p
  wants : ∀ b i, v.want = some (b, i) → d.Has i b
  drops : ∀ b i, v.drop = some (b, i) → d.Has i b
  kept : ∀ b i, v.held b = some i ∨ v.want = some (b, i) ∨ v.drop = some (b, i) → 0 < v.refs b
  owned : ∀ i, (d.buf i).lock ≠ none → v.held (d.buf i).blockno = some i ∨ u.locked i
  foreign : ∀ i, u.locked i → (d.buf i).lock ≠ none ∧ v.held (d.buf i).blockno ≠ some i
  used : ∀ i, u.locked i ∨ u.dirty i → 0 < u.refs i
  disk : d.disk = v.disk
  log : d.log = v.log
  issued : d.issued = v.issued

theorem cached_boot {P : Type} (p : Option P) (disk : Nat → Block) (start size : Nat) :
    Cached p Others.nobody (Dev.boot P disk start size)
      (View.fresh disk (Log.init start size)) := by
  have hdev : ∀ i b, ¬ (Dev.boot P disk start size).Has i b := fun i b h => by
    cases h.1
  exact
    { listed := fun i => List.mem_reverse.mpr (List.mem_finRange i)
      once := fun i _ b h => absurd h (hdev i b)
      unused := fun _ _ => ⟨rfl, rfl, rfl⟩
      count := fun i b h => absurd h (hdev i b)
      absent := fun _ _ => rfl
      shows := fun i b h => absurd h (hdev i b)
      unread := fun i b h => absurd h (hdev i b)
      filled := fun _ h => absurd rfl h
      clean := fun _ _ _ => rfl
      holds := fun _ _ h => by cases h
      wants := fun _ _ h => by cases h
      drops := fun _ _ h => by cases h
      kept := fun _ _ h => by rcases h with h | h | h <;> cases h
      owned := fun _ h => absurd rfl h
      foreign := fun _ h => h.elim
      used := fun _ h => h.elim False.elim False.elim
      disk := rfl
      log := rfl
      issued := rfl }

/-- The views agree on every block but `b`. -/
structure View.SameBut (b : Nat) (v v' : View) : Prop where
  view : ∀ c, c ≠ b → v'.view c = v.view c
  refs : ∀ c, c ≠ b → v'.refs c = v.refs c
  held : ∀ c, c ≠ b → v'.held c = v.held c
  want : ∀ c i, c ≠ b → v'.want = some (c, i) → v.want = some (c, i)
  drop : ∀ c i, c ≠ b → v'.drop = some (c, i) → v.drop = some (c, i)
  disk : ∀ c, c ≠ b → v'.disk c = v.disk c

/-- The others have the same on every buffer but `i`. -/
structure Others.SameBut (i : Fin NBUF) (u u' : Others) : Prop where
  refs : ∀ j, j ≠ i → u'.refs j = u.refs j
  locked : ∀ j, j ≠ i → (u'.locked j ↔ u.locked j)
  dirty : ∀ j, j ≠ i → (u'.dirty j ↔ u.dirty j)

/-- What the new buffer of block `b` has to satisfy. -/
structure Fresh {P : Type} (p : Option P) (u : Others) (v : View) (i : Fin NBUF) (b : Nat)
    (x : Buf P) :
    Prop where
  dev : x.dev = ROOTDEV
  blockno : x.blockno = b
  count : x.refcnt = v.refs b + u.refs i
  shows : x.valid = true → x.data = v.view b
  unread : x.valid = false → v.view b = v.disk b
  filled : x.lock ≠ none → x.valid = true
  clean : v.refs b = 0 → ¬ u.dirty i → v.view b = v.disk b
  holds : ∀ j, v.held b = some j → j = i ∧ x.lock ≠ none ∧ x.lock = p
  wants : ∀ j, v.want = some (b, j) → j = i
  drops : ∀ j, v.drop = some (b, j) → j = i
  kept : ∀ j, v.held b = some j ∨ v.want = some (b, j) ∨ v.drop = some (b, j) → 0 < v.refs b
  owned : x.lock ≠ none → v.held b = some i ∨ u.locked i
  foreign : u.locked i → x.lock ≠ none ∧ v.held b ≠ some i
  used : u.locked i ∨ u.dirty i → 0 < u.refs i

namespace Cached

variable {P : Type} {p : Option P} {u u' : Others} {d d' : Dev P} {v v' : View} {b : Nat}
  {i : Fin NBUF}

section

variable (hc : Cached p u d v)

include hc

theorem free (h0 : (d.buf i).refcnt = 0) (hi : d.Has i b) :
    v.refs b = 0 ∧ u.refs i = 0 ∧ ¬ u.dirty i ∧ v.view b = v.disk b := by
  have hcount := hc.count i b hi
  have hdirty : ¬ u.dirty i := by
    intro h
    have := hc.used i (.inr h)
    omega
  refine ⟨by omega, by omega, hdirty, hc.clean b (by omega) fun j hj => ?_⟩
  rwa [hc.once j i b hj hi]

/-- One buffer changes. It was the buffer of block `b` already, or it had no
    references and becomes the buffer of `b` now. -/
theorem assign {x : Buf P} (hothers : ∀ j, j ≠ i → ¬ d.Has j b)
    (hown : d.Has i b ∨ (d.buf i).refcnt = 0) (hx : Fresh p u' v' i b x)
    (hv : View.SameBut b v v') (hu : Others.SameBut i u u')
    (hbuf : d'.cache.buf = update d.cache.buf i x) (hlru : ∀ j, j ∈ d'.cache.lru)
    (hdisk : d'.disk = v'.disk) (hlog : d'.log = v'.log) (hissued : d'.issued = v'.issued) :
    Cached p u' d' v' := by
  have hsame : d'.buf i = x := by
    simp only [Dev.buf, hbuf, update_self]
  have hne : ∀ {j}, j ≠ i → d'.buf j = d.buf j := by
    intro j hj
    simp only [Dev.buf, hbuf, update_of_ne hj]
  have hhasi : d'.Has i b := by
    unfold Dev.Has
    rw [hsame]
    exact ⟨hx.dev, hx.blockno⟩
  have hhas : ∀ {j c}, j ≠ i → (d'.Has j c ↔ d.Has j c) := by
    intro j c hj
    unfold Dev.Has
    rw [hne hj]
  have hblock : ∀ {c}, d'.Has i c → c = b := fun h => h.2.symm.trans hhasi.2
  -- A buffer the view has something on is not the one that was recycled.
  have hkeep : ∀ {j c}, c ≠ b → d.Has j c → 0 < v.refs c → j ≠ i := by
    rintro j c hcb hj hpos rfl
    rcases hown with h | h
    · exact hcb (hj.2.symm.trans h.2)
    · have := (hc.free h hj).1
      omega
  refine
    { listed := hlru
      once := ?_, unused := ?_, count := ?_, absent := ?_, shows := ?_, unread := ?_, filled := ?_
      clean := ?_, holds := ?_, wants := ?_, drops := ?_, kept := ?_, owned := ?_, foreign := ?_
      used := ?_, disk := hdisk, log := hlog, issued := hissued }
  · grind [hc.once]
  · grind [hx.dev, hu.refs, hc.unused]
  · grind [hx.count, hv.refs, hu.refs, hc.count]
  · grind [hv.refs, hc.free, hc.absent]
  · grind [hx.shows, hv.view, hc.shows]
  · grind [hx.unread, hv.view, hv.disk, hc.unread]
  · grind [hx.filled, hc.filled]
  · intro c hc0 hnot
    by_cases hcb : c = b
    · subst hcb
      exact hx.clean hc0 (hnot i hhasi)
    · rw [hv.refs c hcb] at hc0
      rw [hv.view c hcb, hv.disk c hcb]
      -- A block that lost its buffer here had nothing on it.
      by_cases hi : d.Has i c
      · rcases hown with h | h
        · exact absurd (hi.2.symm.trans h.2) hcb
        · exact (hc.free h hi).2.2.2
      · grind [hc.clean, hu.dirty]
  · grind [hx.holds, hv.held, hc.holds, hc.kept]
  · intro c j hcj
    by_cases hcb : c = b
    · subst hcb
      rw [hx.wants j hcj]
      exact hhasi
    · have hold := hv.want c j hcb hcj
      have hj := hc.wants c j hold
      exact (hhas (hkeep hcb hj (hc.kept c j (.inr (.inl hold))))).mpr hj
  · intro c j hcj
    by_cases hcb : c = b
    · subst hcb
      rw [hx.drops j hcj]
      exact hhasi
    · have hold := hv.drop c j hcb hcj
      have hj := hc.drops c j hold
      exact (hhas (hkeep hcb hj (hc.kept c j (.inr (.inr hold))))).mpr hj
  · intro c j hcj
    by_cases hcb : c = b
    · subst hcb
      exact hx.kept j hcj
    · rw [hv.refs c hcb]
      refine hc.kept c j ?_
      rcases hcj with h | h | h
      · rw [hv.held c hcb] at h
        exact .inl h
      · exact .inr (.inl (hv.want c j hcb h))
      · exact .inr (.inr (hv.drop c j hcb h))
  · intro j hj
    by_cases h1 : j = i
    · rw [h1, hsame] at hj ⊢
      rw [hx.blockno]
      exact hx.owned hj
    · rw [hne h1] at hj ⊢
      rcases hc.owned j hj with h | h
      · have hcb : (d.buf j).blockno ≠ b := by
          intro hcb
          exact hothers j h1 (hcb ▸ (hc.holds _ j h).1)
        rw [hv.held _ hcb]
        exact .inl h
      · exact .inr ((hu.locked j h1).mpr h)
  · intro j hj
    by_cases h1 : j = i
    · rw [h1] at hj ⊢
      rw [hsame, hx.blockno]
      exact hx.foreign hj
    · obtain ⟨hlock, hnot⟩ := hc.foreign j ((hu.locked j h1).mp hj)
      rw [hne h1]
      refine ⟨hlock, ?_⟩
      by_cases hcb : (d.buf j).blockno = b
      · -- A locked buffer is in use, and `i` is the only one in use for `b`.
        refine absurd ⟨?_, hcb⟩ (hothers j h1)
        by_contra hdev
        exact hlock (hc.unused j hdev).2.1
      · rwa [hv.held _ hcb]
  · intro j hj
    by_cases h1 : j = i
    · rw [h1] at hj ⊢
      exact hx.used hj
    · rw [hu.refs j h1]
      refine hc.used j ?_
      rcases hj with h | h
      · exact .inl ((hu.locked j h1).mp h)
      · exact .inr ((hu.dirty j h1).mp h)

theorem exists_unused (hroom : v.Room) (hu : ∀ i, u.refs i = 0) :
    ∃ i, (d.buf i).refcnt = 0 := by
  by_contra hall
  obtain ⟨l, hlen, hmem⟩ := hroom
  have hpos : ∀ i, 0 < (d.buf i).refcnt := fun i => Nat.pos_of_ne_zero fun h => hall ⟨i, h⟩
  have hhas : ∀ i, d.Has i (d.buf i).blockno := by
    intro i
    refine ⟨?_, rfl⟩
    by_contra hne
    have := (hc.unused i hne).1
    have := hpos i
    omega
  -- Otherwise the buffers' blocks are thirty different members of a shorter list.
  have hin : ∀ i, (d.buf i).blockno ∈ l.toFinset := by grind [hc.count, List.mem_toFinset]
  have hcard : Fintype.card (Fin NBUF) ≤ l.toFinset.card := by
    rw [← Finset.card_univ]
    refine Finset.card_le_card_of_injOn (fun i => (d.buf i).blockno) (fun i _ => hin i) ?_
    intro i _ j _ hij
    exact hc.once i j _ (hhas i) ⟨(hhas j).1, hij.symm⟩
  have hle := List.toFinset_card_le l
  rw [Fintype.card_fin] at hcard
  omega

/-- `bget` takes a reference to the block's buffer if it has one, and recycles a
    buffer without references if not. It panics when every buffer has some. -/
theorem bget_eq (b : Nat) : (∃ i, d.Has i b ∧ d.cache.bget ROOTDEV b =
      .ok (i, d.cache.set i { d.buf i with refcnt := (d.buf i).refcnt + 1 })) ∨
    ((∀ i, ¬ d.Has i b) ∧ ∃ i, (d.buf i).refcnt = 0 ∧ d.cache.bget ROOTDEV b = .ok (i, d.cache.set i
        { d.buf i with dev := ROOTDEV, blockno := b, valid := false, refcnt := 1 })) ∨
    ((∀ i, ¬ d.Has i b) ∧ (∀ i, (d.buf i).refcnt ≠ 0) ∧
      d.cache.bget ROOTDEV b = .error .bgetNoBuffers) := by
  unfold Bcache.bget
  cases hfind : d.cache.lru.find? fun i =>
      (d.cache.buf i).dev == ROOTDEV && (d.cache.buf i).blockno == b with
  | some i =>
    have hi := List.find?_some hfind
    rw [Bool.and_eq_true, beq_iff_eq, beq_iff_eq] at hi
    exact .inl ⟨i, hi, rfl⟩
  | none =>
    have hnone : ∀ j, ¬ d.Has j b := by
      intro j hj
      have := List.find?_eq_none.mp hfind j (hc.listed j)
      rw [Bool.and_eq_true, beq_iff_eq, beq_iff_eq] at this
      exact this hj
    refine .inr ?_
    cases hfree : d.cache.lru.reverse.find? fun i => (d.cache.buf i).refcnt == 0 with
    | none =>
      refine .inr ⟨hnone, fun i hi => ?_, rfl⟩
      have := List.find?_eq_none.mp hfree i (List.mem_reverse.mpr (hc.listed i))
      rw [beq_iff_eq] at this
      exact this hi
    | some i =>
      have hi := List.find?_some hfree
      rw [beq_iff_eq] at hi
      exact .inl ⟨hnone, i, hi, rfl⟩

theorem idle (h0 : (d.buf i).refcnt = 0) :
    (d.buf i).lock = none ∧ u.refs i = 0 := by
  by_cases hdev : (d.buf i).dev = ROOTDEV
  · have hfree := hc.free h0 ⟨hdev, rfl⟩
    refine ⟨?_, hfree.2.1⟩
    by_contra hlock
    rcases hc.owned i hlock with h | h
    · have := hc.kept _ i (.inl h)
      omega
    · have := hc.used i (.inl h)
      omega
  · exact (hc.unused i hdev).2

end

theorem sameBut_refl (u : Others) (i : Fin NBUF) : Others.SameBut i u u :=
  ⟨fun _ _ => rfl, fun _ _ => Iff.rfl, fun _ _ => Iff.rfl⟩

end Cached

section Step

variable {P : Type} {p : Option P} {u : Others} {d : Dev P} {v : View} {b : Nat} {i : Fin NBUF}

variable {v' : View} {d' : Dev P} {q : P} {ρ : View.Rules}

theorem View.sameBut_of (hview : ∀ c, c ≠ b → v'.view c = v.view c)
    (hrefs : ∀ c, c ≠ b → v'.refs c = v.refs c) (hheld : ∀ c, c ≠ b → v'.held c = v.held c)
    (hdisk : ∀ c, c ≠ b → v'.disk c = v.disk c)
    (hwant : v'.want = v.want ∨ v'.want = none ∨ ∃ j, v'.want = some (b, j))
    (hdrop : v'.drop = v.drop ∨ v'.drop = none ∨ ∃ j, v'.drop = some (b, j)) :
    View.SameBut b v v' := by
  refine ⟨hview, hrefs, hheld, ?_, ?_, hdisk⟩
  · intro c j hcb h
    rcases hwant with hw | hw | ⟨k, hw⟩
    · rwa [hw] at h
    · rw [hw] at h
      cases h
    · rw [hw] at h
      cases h
      exact absurd rfl hcb
  · intro c j hcb h
    rcases hdrop with hw | hw | ⟨k, hw⟩
    · rwa [hw] at h
    · rw [hw] at h
      cases h
    · rw [hw] at h
      cases h
      exact absurd rfl hcb

theorem Cached.bget (hc : Cached p u d v) (hb : v.held b = none) :
    (∃ i c, d.cache.bget ROOTDEV b = .ok (i, c) ∧ Cached p u { d with cache := c } (v.bget b i)) ∨
    (d.cache.bget ROOTDEV b = .error .bgetNoBuffers ∧ v.refs b = 0 ∧
      ∀ i, (d.buf i).refcnt ≠ 0) := by
  have hsame : ∀ i, View.SameBut b v (v.bget b i) := fun i =>
    View.sameBut_of (fun _ _ => rfl) (fun c hcb => by simp only [View.bget, update_of_ne hcb])
      (fun _ _ => rfl) (fun _ _ => rfl) (.inr (.inr ⟨i, rfl⟩)) (.inl rfl)
  have hrefs : ∀ i, (v.bget b i).refs b = v.refs b + 1 := fun i => by
    simp only [View.bget, update_self]
  -- The block is cached, an unused buffer is recycled for it, or there is none.
  rcases hc.bget_eq b with ⟨i, hi, hget⟩ | ⟨hnone, i, h0, hget⟩ | ⟨hnone, hall, hget⟩
  · refine .inl ⟨i, _, hget, ?_⟩
    have hcount := hc.count i b hi
    refine hc.assign (i := i) (b := b) (x := { d.buf i with refcnt := (d.buf i).refcnt + 1 })
      (fun j hji hj => hji (hc.once j i b hj hi)) (.inl hi) ?_ (hsame i) (Cached.sameBut_refl u i)
      rfl hc.listed hc.disk hc.log hc.issued
    refine
      { dev := hi.1, blockno := hi.2, count := ?_, shows := hc.shows i b hi
        unread := hc.unread i b hi, filled := hc.filled i, clean := ?_, holds := ?_
        wants := ?_, drops := ?_, kept := ?_, owned := ?_, foreign := ?_, used := hc.used i }
    · simp only [hrefs, hcount]
      omega
    · intro h
      rw [hrefs] at h
      exact absurd h (Nat.succ_ne_zero _)
    · intro j hj
      rw [show (v.bget b i).held b = none from hb] at hj
      cases hj
    · intro j hj
      cases hj
      rfl
    · exact fun j hj => hc.once j i b (hc.drops b j hj) hi
    · intro j _
      rw [hrefs]
      exact Nat.succ_pos _
    · intro hlock
      have := hc.owned i hlock
      rwa [hi.2] at this
    · intro hlocked
      have := hc.foreign i hlocked
      rwa [hi.2] at this
  · refine .inl ⟨i, _, hget, ?_⟩
    have hb0 : v.refs b = 0 := hc.absent b hnone
    -- A buffer without references is locked by nobody, so its contents can go.
    obtain ⟨hlock, hu0⟩ := hc.idle h0
    refine hc.assign (i := i) (b := b)
      (x := { d.buf i with dev := ROOTDEV, blockno := b, valid := false, refcnt := 1 })
      (fun j _ => hnone j) (.inr h0) ?_ (hsame i) (Cached.sameBut_refl u i) rfl hc.listed hc.disk
      hc.log hc.issued
    refine
      { dev := rfl, blockno := rfl, count := ?_, shows := fun h => by cases h
        unread := fun _ => hc.clean b hb0 fun j hj => absurd hj (hnone j)
        filled := fun h => absurd hlock h, clean := ?_, holds := ?_, wants := ?_, drops := ?_
        kept := ?_, owned := fun h => absurd hlock h
        foreign := fun h => absurd hlock (hc.foreign i h).1, used := hc.used i }
    · rw [hrefs, hb0, hu0]
    · intro h
      rw [hrefs] at h
      exact absurd h (Nat.succ_ne_zero _)
    · intro j hj
      rw [show (v.bget b i).held b = none from hb] at hj
      cases hj
    · intro j hj
      cases hj
      rfl
    · exact fun j hj => absurd (hc.drops b j hj) (hnone j)
    · intro j _
      rw [hrefs]
      exact Nat.succ_pos _
  · exact .inr ⟨hget, hc.absent b hnone, hall⟩

theorem Cached.modify (hc : Cached p u d v) {u' : Others} (hi : d.Has i b)
    (x : Buf P) (hx : Fresh p u' v' i b x) (hv : View.SameBut b v v') (hu : Others.SameBut i u u')
    (hbuf : d'.cache.buf = update d.cache.buf i x) (hlru : ∀ j, j ∈ d'.cache.lru)
    (hdisk : d'.disk = v'.disk) (hlog : d'.log = v'.log) (hissued : d'.issued = v'.issued) :
    Cached p u' d' v' :=
  hc.assign (fun j hji hj => hji (hc.once j i b hj hi)) (.inl hi) hx hv hu hbuf hlru hdisk hlog
    hissued

theorem Cached.acquire (hc : Cached (some q) u d v) (hwant : v.want = some (b, i))
    (hlock : (d.buf i).lock = none) :
    Cached (some q) u (d.setBuf i { d.buf i with
      lock := some q
      valid := true
      data := if (d.buf i).valid then (d.buf i).data else d.disk (d.buf i).blockno })
      (v.acquire b i) := by
  have hi := hc.wants b i hwant
  have hpos := hc.kept b i (.inr (.inl hwant))
  have hdata : (if (d.buf i).valid then (d.buf i).data else d.disk (d.buf i).blockno) =
      v.view b := by
    cases hval : (d.buf i).valid with
    | true => exact hc.shows i b hi hval
    | false =>
      rw [if_neg (by decide), hc.disk, hi.2]
      exact (hc.unread i b hi hval).symm
  refine hc.modify hi _ ?_ ?_ (Cached.sameBut_refl u i) rfl hc.listed hc.disk hc.log hc.issued
  · exact
      { dev := hi.1, blockno := hi.2, count := hc.count i b hi, shows := fun _ => hdata
        unread := fun h => by cases h
        filled := fun _ => rfl
        clean := fun h => absurd h (Nat.pos_iff_ne_zero.mp hpos)
        holds := fun j hj => by
          simp only [View.acquire, update_self] at hj
          cases hj
          exact ⟨rfl, Option.some_ne_none q, rfl⟩
        wants := fun j hj => by cases hj
        drops := fun j hj => hc.once j i b (hc.drops b j hj) hi
        kept := fun _ _ => hpos
        owned := fun _ => .inl (update_self _ _ _)
        foreign := fun h => absurd hlock (hc.foreign i h).1
        used := hc.used i }
  · exact View.sameBut_of (fun _ _ => rfl) (fun _ _ => rfl)
      (fun c hcb => by simp only [View.acquire, update_of_ne hcb]) (fun _ _ => rfl)
      (.inr (.inl rfl)) (.inl rfl)

section

variable (hc : Cached p u d v)

include hc

theorem Cached.unlock (hheld : v.held b = some i) :
    Cached p u (d.setBuf i { d.buf i with lock := none }) (v.unlock b i) := by
  have hi := (hc.holds b i hheld).1
  have hpos := hc.kept b i (.inl hheld)
  refine hc.modify hi _ ?_ ?_ (Cached.sameBut_refl u i) rfl hc.listed hc.disk hc.log hc.issued
  · exact
      { dev := hi.1, blockno := hi.2, count := hc.count i b hi, shows := hc.shows i b hi
        unread := hc.unread i b hi
        filled := fun h => absurd rfl h
        clean := fun h => absurd h (Nat.pos_iff_ne_zero.mp hpos)
        holds := fun j hj => by
          simp only [View.unlock, update_self] at hj
          cases hj
        wants := fun j hj => hc.once j i b (hc.wants b j hj) hi
        drops := fun j hj => by
          cases hj
          rfl
        kept := fun _ _ => hpos
        owned := fun h => absurd rfl h
        foreign := fun h => by
          have := (hc.foreign i h).2
          rw [hi.2, hheld] at this
          exact absurd rfl this
        used := hc.used i }
  · exact View.sameBut_of (fun _ _ => rfl) (fun _ _ => rfl)
      (fun c hcb => by simp only [View.unlock, update_of_ne hcb]) (fun _ _ => rfl)
      (.inl rfl) (.inr (.inr ⟨i, rfl⟩))

theorem Cached.listed_unref (i : Fin NBUF) :
    ∀ j, j ∈ (d.cache.unref i).lru := by
  intro j
  unfold Bcache.unref
  by_cases h0 : (d.cache.buf i).refcnt - 1 = 0
  · simp only [h0, if_true]
    by_cases hji : j = i
    · rw [hji]
      exact List.mem_cons_self
    · exact List.mem_cons_of_mem _ ((List.mem_erase_of_ne hji).mpr (hc.listed j))
  · simp only [h0, if_false]
    exact hc.listed j

theorem Cached.unref (hdrop : v.drop = some (b, i)) (hb : v.held b = none)
    (hwant : v.want = none) (hlast : v.refs b = 1 → v.view b = v.disk b) :
    Cached p u { d with cache := d.cache.unref i } (v.unref b) := by
  have hi := hc.drops b i hdrop
  have hpos := hc.kept b i (.inr (.inr hdrop))
  have hcount := hc.count i b hi
  have hrefs : (v.unref b).refs b = v.refs b - 1 := by
    simp only [View.unref, update_self]
  -- What is shown for the block may come from the disk again only once nobody
  -- has a reference, which is why the last one needs `hlast`.
  refine hc.modify hi { d.buf i with refcnt := (d.buf i).refcnt - 1 } ?_ ?_
    (Cached.sameBut_refl u i) rfl (hc.listed_unref i) hc.disk hc.log hc.issued
  · exact
      { dev := hi.1, blockno := hi.2
        count := by
          simp only [hrefs, hcount]
          omega
        shows := hc.shows i b hi
        unread := hc.unread i b hi
        filled := hc.filled i
        clean := fun h _ => hlast (by omega)
        holds := fun j hj => by
          rw [show (v.unref b).held b = none from hb] at hj
          cases hj
        wants := fun j hj => by
          rw [show (v.unref b).want = none from hwant] at hj
          cases hj
        drops := fun j hj => by cases hj
        kept := fun j hj => by
          rcases hj with h | h | h
          · rw [show (v.unref b).held b = none from hb] at h
            cases h
          · rw [show (v.unref b).want = none from hwant] at h
            cases h
          · cases h
        owned := fun hlock => by
          have := hc.owned i hlock
          rwa [hi.2] at this
        foreign := fun h => by
          have := hc.foreign i h
          rwa [hi.2] at this
        used := hc.used i }
  · exact View.sameBut_of (fun _ _ => rfl)
      (fun c hcb => by simp only [View.unref, update_of_ne hcb]) (fun _ _ => rfl)
      (fun _ _ => rfl) (.inl rfl) (.inr (.inl rfl))

/-- A held buffer gets new contents, a new reference count, or is written out.
    The rest of the view stays. -/
theorem Cached.touch (hheld : v.held b = some i)
    (x : Block) (n : Nat) (hview : v'.view = update v.view b x)
    (hrefs : v'.refs = update v.refs b n) (hpos : 0 < n)
    (hdisk : ∀ c, c ≠ b → v'.disk c = v.disk c) (hheld' : v'.held = v.held)
    (hwant : v'.want = v.want) (hdrop : v'.drop = v.drop)
    (hbuf : d'.cache.buf = update d.cache.buf i
      { d.buf i with data := x, refcnt := n + u.refs i })
    (hlru : d'.cache.lru = d.cache.lru) (hd : d'.disk = v'.disk) (hlog : d'.log = v'.log)
    (hissued : d'.issued = v'.issued) : Cached p u d' v' := by
  obtain ⟨hi, hlock⟩ := hc.holds b i hheld
  have hval : (d.buf i).valid = true := hc.filled i hlock.1
  have hb : v'.refs b = n := by rw [hrefs, update_self]
  refine hc.modify hi _ ?_ ?_ (Cached.sameBut_refl u i) hbuf (by rw [hlru]; exact hc.listed) hd
    hlog hissued
  · exact
      { dev := hi.1, blockno := hi.2
        count := by rw [hb]
        shows := fun _ => by rw [hview, update_self]
        unread := fun h => by
          rw [show _ = true from hval] at h
          cases h
        filled := fun _ => hval
        clean := fun h => by omega
        holds := fun j hj => by
          rw [hheld', hheld] at hj
          cases hj
          exact ⟨rfl, hlock⟩
        wants := fun j hj => hc.once j i b (hc.wants b j (hwant ▸ hj)) hi
        drops := fun j hj => hc.once j i b (hc.drops b j (hdrop ▸ hj)) hi
        kept := fun _ _ => by omega
        owned := fun _ => by
          rw [hheld']
          exact .inl hheld
        foreign := fun h => by
          have := (hc.foreign i h).2
          rw [hi.2, hheld] at this
          exact absurd rfl this
        used := hc.used i }
  · exact View.sameBut_of (fun c hcb => by rw [hview, update_of_ne hcb])
      (fun c hcb => by rw [hrefs, update_of_ne hcb]) (fun c _ => by rw [hheld']) hdisk
      (.inl hwant) (.inl hdrop)

theorem Cached.relog (l : Log) :
    Cached p u { d with log := l } { v with log := l } :=
  { hc with log := rfl }

end

/-- A reason to stop that is the others' doing: a lock they have, or a cache they
    have filled. -/
def Blocked (u : Others) (e : Stop) : Prop :=
  (e = .stuck ∧ ∃ i, u.locked i) ∨ (e = .panic .bgetNoBuffers ∧ ∃ i, u.refs i ≠ 0)

/-- A write to the disk, if there was one, is one that the rules allow. -/
def Wrote1 (ρ : View.Rules) (d d' : Dev P) : Prop :=
  d'.issued = d.issued ∨ ∃ b x, d'.issued = d.issued ++ [(b, x)] ∧ ρ.write b x

/-- A piece that keeps to the rules takes the view along, unless it stops for a
    reason that is allowed or is the others' doing. -/
theorem Cached.step [DecidableEq P] (hc : Cached (some q) u d v) {o : BOp}
    {K : o.Ret → View → Prop} (hok : v.OpOk ρ o K) :
    (∃ r d' v', Dev.handle q o d = .ok (r, d') ∧ Cached (some q) u d' v' ∧ Wrote1 ρ d d' ∧ K r v') ∨
    (∃ e, Dev.handle q o d = .error e ∧ (ρ.stop e ∨ Blocked u e)) := by
  cases o with
  | bget b =>
    obtain ⟨-, hb, hr, hk⟩ := hok
    rcases hc.bget hb with ⟨i, c, hget, hc'⟩ | ⟨hget, hb0, hall⟩
    · exact .inl ⟨i, _, _, by simp only [Dev.handle, hget], hc', .inl rfl, hk i⟩
    · refine .inr ⟨.panic .bgetNoBuffers, by simp only [Dev.handle, hget], ?_⟩
      -- Either others have the buffers, or the pins of the log alone fill the cache.
      by_cases hu : ∃ i, u.refs i ≠ 0
      · exact .inr (.inr ⟨rfl, hu⟩)
      · refine .inl (hr hb0 fun hroom => ?_)
        obtain ⟨i, hi⟩ := hc.exists_unused hroom (fun i => by_contra fun h => hu ⟨i, h⟩)
        exact hall i hi
  | acquire i =>
    obtain ⟨b, hwant, hb, hk⟩ := hok
    by_cases hlock : (d.buf i).lock = none
    · exact .inl ⟨(), _, _, by simp only [Dev.handle, hlock, if_true], hc.acquire hwant hlock,
        .inl rfl, hk⟩
    · refine .inr ⟨.stuck, by simp only [Dev.handle, hlock, if_false], .inr (.inl ⟨rfl, ?_⟩)⟩
      -- The process does not wait for itself.
      rcases hc.owned i hlock with h | h
      · rw [(hc.wants b i hwant).2, hb] at h
        cases h
      · exact ⟨i, h⟩
  | load i =>
    obtain ⟨b, hheld, hk⟩ := hok
    obtain ⟨hi, hlock⟩ := hc.holds b i hheld
    refine .inl ⟨v.view b, d, v, ?_, hc, .inl rfl, hk⟩
    have hval := hc.filled i hlock.1
    simp only [Dev.handle, hc.shows i b hi hval]
  | store i f =>
    obtain ⟨b, hheld, hk⟩ := hok
    obtain ⟨hi, hlock⟩ := hc.holds b i hheld
    have hval := hc.filled i hlock.1
    refine .inl ⟨(), _, _, rfl, ?_, .inl rfl, hk⟩
    refine hc.touch hheld (f (v.view b)) (v.refs b) rfl ?_ (hc.kept b i (.inl hheld))
      (fun _ _ => rfl) rfl rfl rfl ?_ rfl hc.disk hc.log hc.issued
    · simp only [View.store, update_eq_self]
    · rw [← hc.count i b hi, ← hc.shows i b hi hval]
      rfl
  | bwrite i =>
    obtain ⟨b, hheld, hw, hk⟩ := hok
    obtain ⟨hi, hlock⟩ := hc.holds b i hheld
    have hval := hc.filled i hlock.1
    have hdata := hc.shows i b hi hval
    refine .inl ⟨(), { d with
      disk := update d.disk b (v.view b)
      issued := d.issued ++ [(b, v.view b)] }, v.write b, ?_, ?_, .inr ⟨b, _, rfl, hw⟩, hk⟩
    · simp only [Dev.handle, hlock.2, if_true, hdata, hi.2]
    refine hc.touch hheld (v.view b) (v.refs b) ?_ ?_ (hc.kept b i (.inl hheld)) ?_ rfl rfl rfl
      ?_ rfl ?_ hc.log ?_
    · simp only [View.write, update_eq_self]
    · simp only [View.write, update_eq_self]
    · intro c hcb
      simp only [View.write, update_of_ne hcb]
    · rw [← hc.count i b hi, ← hdata]
      exact (update_eq_self i d.cache.buf).symm
    · simp only [View.write, hc.disk]
    · simp only [View.write, hc.issued]
  | unlock i =>
    obtain ⟨b, hheld, -, hk⟩ := hok
    have hlock := (hc.holds b i hheld).2.2
    exact .inl ⟨(), _, _, by simp only [Dev.handle, hlock, if_true], hc.unlock hheld, .inl rfl, hk⟩
  | unref i =>
    obtain ⟨b, hdrop, hb, hwant, hlast, hk⟩ := hok
    exact .inl ⟨(), _, _, rfl, hc.unref hdrop hb hwant hlast, .inl rfl, hk⟩
  | bunpin i =>
    obtain ⟨b, hheld, -, -, hmore, -, hk⟩ := hok
    obtain ⟨hi, hlock⟩ := hc.holds b i hheld
    have hval := hc.filled i hlock.1
    have hcount := hc.count i b hi
    refine .inl ⟨(), _, _, rfl, ?_, .inl rfl, hk⟩
    refine hc.touch hheld (v.view b) (v.refs b - 1) ?_ rfl (by omega) (fun _ _ => rfl) rfl rfl rfl
      ?_ rfl hc.disk hc.log hc.issued
    · simp only [View.unpin, update_eq_self]
    · rw [← hc.shows i b hi hval, show v.refs b - 1 + u.refs i = (d.buf i).refcnt - 1 from by omega]
      rfl
  | getLog => exact .inl ⟨v.log, d, v, by simp only [Dev.handle, hc.log], hc, .inl rfl, hok⟩
  | setLh lh =>
    refine .inl ⟨(), _, _, rfl, ?_, .inl rfl, hok.2⟩
    rw [hc.log]
    exact hc.relog _
  | beginOp =>
    obtain ⟨l, hl, hk⟩ := hok
    exact .inl ⟨(), _, _, by simp only [Dev.handle, hc.log, hl], hc.relog l, .inl rfl, hk⟩
  | endOp =>
    simp only [View.OpOk] at hok
    cases hl : v.log.endOp with
    | ok r =>
      rw [hl] at hok
      exact .inl ⟨r.2, _, _, by simp only [Dev.handle, hc.log, hl], hc.relog r.1, .inl rfl, hok⟩
    | error e =>
      rw [hl] at hok
      exact .inr ⟨.panic e, by simp only [Dev.handle, hc.log, hl], .inl hok⟩
  | finish =>
    refine .inl ⟨(), _, _, rfl, ?_, .inl rfl, hok.2⟩
    rw [hc.log]
    exact hc.relog _
  | logWrite i =>
    obtain ⟨b, hheld, hk⟩ := hok
    obtain ⟨hi, hlock⟩ := hc.holds b i hheld
    have hval := hc.filled i hlock.1
    have hcount := hc.count i b hi
    have hwrite : d.log.logWrite (d.buf i).blockno = v.log.logWrite b := by rw [hc.log, hi.2]
    cases hl : v.log.logWrite b with
    | error e =>
      rw [hl] at hk hwrite
      exact .inr ⟨.panic e, by simp only [Dev.handle, hwrite], .inl hk⟩
    | ok r =>
      rw [hl] at hk hwrite
      -- Absorbed, or new to the header and pinned.
      rcases r with ⟨l, _ | _⟩
      · exact .inl ⟨(), _, _, by simp only [Dev.handle, hwrite], hc.relog l, .inl rfl, hk⟩
      · refine .inl ⟨(), { d with log := l, cache := d.cache.bpin i }, _,
          by simp only [Dev.handle, hwrite], ?_, .inl rfl, hk⟩
        refine hc.touch hheld (v.view b) (v.refs b + 1) ?_ rfl (Nat.succ_pos _) (fun _ _ => rfl)
          rfl rfl rfl ?_ rfl hc.disk rfl hc.issued
        · simp only [View.pin, update_eq_self]
        · rw [← hc.shows i b hi hval,
            show v.refs b + 1 + u.refs i = (d.buf i).refcnt + 1 from by omega]
          rfl

theorem Cached.wp_of_ok [DecidableEq P] {α : Type} {c : BProg α}
    {Q : α → View → Prop} (hc : Cached (some q) Others.nobody d v) (hok : View.Ok ρ c Q v) :
    Prog.Wp (Dev.handle q) c (fun a d' => ∃ v', Cached (some q) Others.nobody d' v' ∧ Q a v')
      ρ.stop d := by
  induction c generalizing d v with
  | ret a => exact Prog.wp_ret.mpr ⟨v, hc, hok⟩
  | op o k ih =>
    rcases hc.step hok with ⟨r, d', v', hrun, hc', -, hk⟩ | ⟨e, hrun, he⟩
    · exact Prog.wp_op_ok hrun (ih r hc' hk)
    · refine Prog.wp_op_error hrun (he.resolve_right ?_)
      rintro (⟨-, i, hi⟩ | ⟨-, i, hi⟩)
      · exact hi
      · exact hi rfl

/-- Thirty buffers are as good as blocks that are always there. What a program that keeps to the
    rules of the cache does from the boot on is what it does to the view, and in the end the disk
    and the buffers are as the view says. -/
theorem cache_is_transparent [DecidableEq P] (q : P) (disk : Nat → Block) (start size : Nat)
    {α : Type} {ρ : View.Rules} {c : BProg α} {Q : α → View → Prop}
    (hok : View.Ok ρ c Q (View.fresh disk (Log.init start size))) :
    Prog.Wp (Dev.handle q) c
      (fun a d' => ∃ v', Q a v' ∧ d'.disk = v'.disk ∧ d'.issued = v'.issued ∧
        ∀ i b, d'.Has i b → (d'.buf i).valid = true → (d'.buf i).data = v'.view b)
      ρ.stop (Dev.boot P disk start size) :=
  Prog.wp_mono ((cached_boot (some q) disk start size).wp_of_ok hok)
    fun _ _ ⟨v', hc, hq⟩ => ⟨v', hq, hc.disk, hc.issued, hc.shows⟩

/-- Reading a block finds a buffer, and gives what the disk has of it. -/
theorem cache_is_transparent_read : Prog.Wp (Dev.handle ())
    (bread 1 >>= fun i => piece (.load i) >>= fun data => brelse i >>= fun _ => pure data)
    (fun data _ => data = Block.zero) (fun _ => False)
    (Dev.boot Unit (fun _ => Block.zero) 2 30) := by
  refine Prog.wp_mono (cache_is_transparent () _ 2 30 (ρ := .stopping fun _ => False)
    (Q := fun data _ => data = Block.zero) ?_) fun _ _ ⟨_, hq, _⟩ => hq
  refine View.ok_bind (View.ok_bread rfl rfl (fun _ hr => hr ⟨[], by decide, ?_⟩) fun i => ?_)
  · simp [View.fresh]
  · exact View.ok_bind ⟨1, View.held_get_same _ _ _, View.ok_bind
      (View.ok_brelse rfl rfl (View.held_get_same _ _ _) (fun _ => rfl) rfl)⟩

end Step

end Xv6
