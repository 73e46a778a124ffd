import Xv6.Core.Clients
import Xv6.Lib.Count
import Xv6.Theory.Bio.Cached

/-!
# Clients of the Cache

What holds of the cache while any number of processes use it and commits run among them.
The view of `Theory.Bio.View` is the log's own: it accounts for the pins and for the
buffers a commit holds, and every other process is one of the `Others`. A client's step
changes what the others have and leaves the view alone, except for a store and a
`log_write`. A step of the commit does the opposite (`Cached.step`).

## Theorems

* `Sys.Shares.bget`, `Sys.Shares.ownStep`
-/

namespace Xv6

open Function (update update_self update_of_ne)
open Prod (snd)

namespace Others

/-- One more reference to buffer `i`. -/
def addRef (u : Others) (i : Fin NBUF) : Others :=
  { u with refs := update u.refs i (u.refs i + 1) }

def dropRef (u : Others) (i : Fin NBUF) : Others :=
  { u with refs := update u.refs i (u.refs i - 1) }

def setLocked (u : Others) (i : Fin NBUF) (x : Prop) : Others :=
  { u with locked := update u.locked i x }

def setDirty (u : Others) (i : Fin NBUF) (x : Prop) : Others :=
  { u with dirty := update u.dirty i x }

theorem sameBut_addRef (u : Others) (i : Fin NBUF) : SameBut i u (u.addRef i) :=
  ⟨fun j h => by simp only [addRef, update_of_ne h], fun _ _ => Iff.rfl, fun _ _ => Iff.rfl⟩

theorem sameBut_dropRef (u : Others) (i : Fin NBUF) : SameBut i u (u.dropRef i) :=
  ⟨fun j h => by simp only [dropRef, update_of_ne h], fun _ _ => Iff.rfl, fun _ _ => Iff.rfl⟩

theorem sameBut_setLocked (u : Others) (i : Fin NBUF) (x : Prop) : SameBut i u (u.setLocked i x) :=
  ⟨fun _ _ => rfl, fun j h => by simp only [setLocked, update_of_ne h], fun _ _ => Iff.rfl⟩

theorem sameBut_setDirty (u : Others) (i : Fin NBUF) (x : Prop) : SameBut i u (u.setDirty i x) :=
  ⟨fun _ _ => rfl, fun _ _ => Iff.rfl, fun j h => by simp only [setDirty, update_of_ne h]⟩

end Others

namespace Cached

variable {P : Type} {p : Option P} {u : Others} {d : Dev P} {v : View} {b : Nat} {i : Fin NBUF}

theorem sameBut_view (v : View) (b : Nat) : View.SameBut b v v :=
  ⟨fun _ _ => rfl, fun _ _ => rfl, fun _ _ => rfl, fun _ _ _ h => h, fun _ _ _ h => h,
    fun _ _ => rfl⟩

section

variable (hc : Cached p u d v)

include hc

theorem fresh (hi : d.Has i b) : Fresh p u v i b (d.buf i) :=
  { dev := hi.1, blockno := hi.2, count := hc.count i b hi, shows := hc.shows i b hi
    unread := hc.unread i b hi, filled := hc.filled i
    clean := fun h hd => hc.clean b h fun j hj => by rwa [hc.once j i b hj hi]
    holds := fun j hj => by
      obtain ⟨hhas, hlock⟩ := hc.holds b j hj
      cases hc.once j i b hhas hi
      exact ⟨rfl, hlock⟩
    wants := fun j hj => hc.once j i b (hc.wants b j hj) hi
    drops := fun j hj => hc.once j i b (hc.drops b j hj) hi
    kept := fun j hj => hc.kept b j hj
    owned := fun h => by
      have := hc.owned i h
      rwa [hi.2] at this
    foreign := fun h => by
      have := hc.foreign i h
      rwa [hi.2] at this
    used := hc.used i }

theorem has_of_refs (h : 0 < u.refs i) : d.Has i (d.buf i).blockno := by
  refine ⟨?_, rfl⟩
  by_contra hdev
  have := (hc.unused i hdev).2.2
  omega

theorem otherBget {c : Bcache P} (hget : d.cache.bget ROOTDEV b = .ok (i, c)) :
    Cached p (u.addRef i) { d with cache := c } v := by
  have hrefs : (u.addRef i).refs i = u.refs i + 1 := by
    simp only [Others.addRef, update_self]
  rcases hc.bget_eq b with ⟨j, hj, heq⟩ | ⟨hnone, j, h0, heq⟩ | ⟨-, -, heq⟩
  · rw [heq] at hget
    cases hget
    refine hc.modify hj _ ?_ (sameBut_view v b) (u.sameBut_addRef i) rfl hc.listed hc.disk hc.log
      hc.issued
    exact
      { hc.fresh hj with
        count := by
          have := hc.count i b hj
          simp only [hrefs, this]
          omega
        used := fun _ => by
          rw [hrefs]
          exact Nat.succ_pos _ }
  · rw [heq] at hget
    cases hget
    have hb0 : v.refs b = 0 := hc.absent b hnone
    obtain ⟨hlock, hu0⟩ := hc.idle h0
    have hdisk : v.view b = v.disk b := hc.clean b hb0 fun j hj => absurd hj (hnone j)
    have hnotheld : ∀ j, ¬ (v.held b = some j ∨ v.want = some (b, j) ∨ v.drop = some (b, j)) := by
      intro j hj
      have := hc.kept b j hj
      omega
    refine hc.assign (fun j _ => hnone j) (.inr h0) ?_ (sameBut_view v b) (u.sameBut_addRef i) rfl
      hc.listed hc.disk hc.log hc.issued
    exact
      { dev := rfl, blockno := rfl
        count := by rw [hrefs, hb0, hu0]
        shows := fun h => by cases h
        unread := fun _ => hdisk
        filled := fun h => absurd hlock h
        clean := fun _ _ => hdisk
        holds := fun j hj => absurd (.inl hj) (hnotheld j)
        wants := fun j hj => absurd (.inr (.inl hj)) (hnotheld j)
        drops := fun j hj => absurd (.inr (.inr hj)) (hnotheld j)
        kept := fun j hj => absurd hj (hnotheld j)
        owned := fun h => absurd hlock h
        foreign := fun h => absurd hlock (hc.foreign i h).1
        used := fun _ => by
          rw [hrefs]
          exact Nat.succ_pos _ }
  · rw [heq] at hget
    cases hget

theorem otherAcquire (q : P) (hrefs : 0 < u.refs i)
    (hlock : (d.buf i).lock = none) :
    Cached p (u.setLocked i True) (d.setBuf i { d.buf i with
      lock := some q
      valid := true
      data := if (d.buf i).valid then (d.buf i).data else d.disk (d.buf i).blockno }) v := by
  have hi := hc.has_of_refs hrefs
  have hdata : (if (d.buf i).valid then (d.buf i).data else d.disk (d.buf i).blockno) =
      v.view (d.buf i).blockno := by
    cases hval : (d.buf i).valid with
    | true => exact hc.shows i _ hi hval
    | false =>
      rw [if_neg (by decide), hc.disk]
      exact (hc.unread i _ hi hval).symm
  have hnot : ∀ j, v.held (d.buf i).blockno ≠ some j := by
    intro j hj
    obtain ⟨hhas, hne, -⟩ := hc.holds _ j hj
    rw [hc.once j i _ hhas hi] at hne
    exact hne hlock
  refine hc.modify hi _ ?_ (sameBut_view v _) (u.sameBut_setLocked i True) rfl hc.listed hc.disk
    hc.log hc.issued
  exact
    { hc.fresh hi with
      shows := fun _ => hdata
      unread := fun h => by cases h
      filled := fun _ => rfl
      holds := fun j hj => absurd hj (hnot j)
      owned := fun _ => .inr (by simp only [Others.setLocked, update_self])
      foreign := fun _ => ⟨Option.some_ne_none q, hnot i⟩
      used := fun _ => hrefs }

theorem otherUnlock (hlocked : u.locked i) (hclean : ¬ u.dirty i) :
    Cached p (u.setLocked i False) (d.setBuf i { d.buf i with lock := none }) v := by
  have hi := hc.has_of_refs (hc.used i (.inl hlocked))
  have hnot : ∀ j, v.held (d.buf i).blockno ≠ some j := by
    intro j hj
    have := hc.once j i _ (hc.holds _ j hj).1 hi
    exact (hc.foreign i hlocked).2 (this ▸ hj)
  have hfree : ¬ (u.setLocked i False).locked i := by
    simp only [Others.setLocked, update_self, not_false_iff]
  refine hc.modify hi _ ?_ (sameBut_view v _) (u.sameBut_setLocked i False) rfl hc.listed hc.disk
    hc.log hc.issued
  exact
    { hc.fresh hi with
      filled := fun h => absurd rfl h
      holds := fun j hj => absurd hj (hnot j)
      owned := fun h => absurd rfl h
      foreign := fun h => absurd h hfree
      used := fun h => h.elim (fun h => absurd h hfree) fun h => absurd h hclean }

theorem otherUnref (hrefs : 0 < u.refs i)
    (hmore : u.locked i ∨ u.dirty i → 1 < u.refs i) :
    Cached p (u.dropRef i) { d with cache := d.cache.unref i } v := by
  have hi := hc.has_of_refs hrefs
  have hcount := hc.count i _ hi
  have hnew : (u.dropRef i).refs i = u.refs i - 1 := by
    simp only [Others.dropRef, update_self]
  refine hc.modify hi { d.buf i with refcnt := (d.buf i).refcnt - 1 } ?_ (sameBut_view v _)
    (u.sameBut_dropRef i) rfl (hc.listed_unref i) hc.disk hc.log hc.issued
  exact
    { hc.fresh hi with
      count := by
        simp only [hnew, hcount]
        omega
      used := fun h => by
        have := hmore h
        omega }

theorem otherStore (hlocked : u.locked i) (f : Block → Block) :
    Cached p (u.setDirty i True) (d.setBuf i { d.buf i with data := f (d.buf i).data })
      (v.store (d.buf i).blockno f) := by
  have hrefs := hc.used i (.inl hlocked)
  have hi := hc.has_of_refs hrefs
  have hval := hc.filled i (hc.foreign i hlocked).1
  have hdirty : (u.setDirty i True).dirty i := by
    simp only [Others.setDirty, update_self]
  refine hc.modify hi _ ?_ ?_ (u.sameBut_setDirty i True) rfl hc.listed hc.disk hc.log hc.issued
  · exact
      { hc.fresh hi with
        shows := fun _ => by
          simp only [View.store, update_self, hc.shows i _ hi hval]
        unread := fun h => by
          rw [show _ = true from hval] at h
          cases h
        clean := fun _ h => absurd hdirty h
        used := fun _ => hrefs }
  · exact View.sameBut_of (fun c hcb => by simp only [View.store, update_of_ne hcb])
      (fun _ _ => rfl) (fun _ _ => rfl) (fun _ _ => rfl) (.inl rfl) (.inl rfl)

theorem otherPin (hlocked : u.locked i) (l : Log) :
    Cached p (u.setDirty i False) { d with log := l, cache := d.cache.bpin i }
      { v.pin (d.buf i).blockno with log := l } := by
  have hrefs := hc.used i (.inl hlocked)
  have hi := hc.has_of_refs hrefs
  have hcount := hc.count i _ hi
  have hnew : (v.pin (d.buf i).blockno).refs (d.buf i).blockno = v.refs (d.buf i).blockno + 1 := by
    simp only [View.pin, update_self]
  refine hc.modify hi { d.buf i with refcnt := (d.buf i).refcnt + 1 } ?_ ?_
    (u.sameBut_setDirty i False) rfl hc.listed hc.disk rfl hc.issued
  · exact
      { hc.fresh hi with
        count := by
          simp only [hnew, hcount, Others.setDirty]
          omega
        clean := fun h => by
          simp only [hnew] at h
          omega
        kept := fun _ _ => by
          simp only [hnew]
          exact Nat.succ_pos _
        used := fun _ => hrefs }
  · exact View.sameBut_of (fun _ _ => rfl)
      (fun c hcb => by simp only [View.pin, update_of_ne hcb]) (fun _ _ => rfl)
      (fun _ _ => rfl) (.inl rfl) (.inl rfl)

/-- A client logs a block that is in the log already. The pin it has keeps its
    contents from counting as the disk's. -/
theorem otherAbsorb (hlocked : u.locked i)
    (hpinned : 0 < v.refs (d.buf i).blockno) : Cached p (u.setDirty i False) d v := by
  have hrefs := hc.used i (.inl hlocked)
  have hi := hc.has_of_refs hrefs
  refine hc.modify hi (d.buf i) ?_ (sameBut_view v _) (u.sameBut_setDirty i False)
    (Function.update_eq_self i d.cache.buf).symm hc.listed hc.disk hc.log hc.issued
  exact
    { hc.fresh hi with
      clean := fun h => absurd h (Nat.pos_iff_ne_zero.mp hpinned)
      used := fun _ => hrefs }

end

end Cached

/-- The references the view's own program has to block `b`. -/
def View.own (v : View) (b : Nat) : Nat :=
  (v.held b).isSome.toNat + (v.want.any fun w => w.1 == b).toNat +
    (v.drop.any fun w => w.1 == b).toNat

namespace Sys

variable {P : Type} [DecidableEq P]

variable [Fintype P]

/-- Everybody but the process that is committing. -/
def rest (c : Option P) : Finset P := Finset.univ.filter fun q => c ≠ some q

variable {c : Option P} {q : P}

theorem mem_rest : q ∈ rest c ↔ c ≠ some q := by
  simp only [rest, Finset.mem_filter, Finset.mem_univ, true_and]

/-- The references other processes than `c` have to buffer `i`, locks apart, when
    `f` is on its way in and `g` on its way out. -/
def waiting (f g : P → Option (Fin NBUF)) (c : Option P) (i : Fin NBUF) : Nat :=
  count f (rest c) i + count g (rest c) i

theorem waiting_in (f g : P → Option (Fin NBUF)) (hq : c ≠ some q)
    (x : Option (Fin NBUF)) (i : Fin NBUF) :
    waiting (update f q x) g c i + (if f q = some i then 1 else 0) =
      waiting f g c i + if x = some i then 1 else 0 := by
  have := count_update (f := f) (mem_rest.mpr hq) x i
  unfold waiting
  omega

theorem waiting_out (f g : P → Option (Fin NBUF)) (hq : c ≠ some q)
    (x : Option (Fin NBUF)) (i : Fin NBUF) :
    waiting f (update g q x) c i + (if g q = some i then 1 else 0) =
      waiting f g c i + if x = some i then 1 else 0 := by
  have := count_update (f := g) (mem_rest.mpr hq) x i
  unfold waiting
  omega

/-- The cache while processes use it. The view `v` is the log's, with the pins
    and with what `c` has while it commits. -/
structure Shares (s : Sys P) (c : Option P) (u : Others) (v : View) : Prop where
  cached : Cached c u s.dev v
  locked : ∀ i, u.locked i → u.refs i = waiting s.want s.drop c i + 1
  unlocked : ∀ i, ¬ u.locked i → u.refs i = waiting s.want s.drop c i
  marks : ∀ i, u.dirty i ↔ s.dirty i = true
  changing : ∀ i, s.dirty i = true → u.locked i ∧
    ∃ q, (s.dev.buf i).lock = some q ∧ s.mode q = .inOp
  balance : ∀ b, (v.refs b : Int) = s.pins b + v.own b
  points : ∀ p, c = some p → s.want p = v.want.map snd ∧ s.drop p = v.drop.map snd

namespace Shares

variable {s : Sys P} {c : Option P} {u : Others} {v : View} {q : P} {i : Fin NBUF}

theorem points_note (hs : Shares s c u v) (hq : c ≠ some q) (d : Dev P) (o : BOp) (r : o.Ret)
    (p : P) (hp : c = some p) : (s.note q d o r).want p = v.want.map snd ∧
      (s.note q d o r).drop p = v.drop.map snd := by
  have hpq : p ≠ q := fun h => hq (hp.trans (congrArg some h))
  cases o <;> simp only [note, update_of_ne hpq] <;> exact hs.points p hp

theorem locked_of_lock (hs : Shares s c u v) (hq : c ≠ some q)
    (hlock : (s.dev.buf i).lock = some q) :
    u.locked i := by
  have hne : (s.dev.buf i).lock ≠ none := by
    rw [hlock]
    exact Option.some_ne_none q
  refine (hs.cached.owned i hne).resolve_left fun h => ?_
  have := (hs.cached.holds _ i h).2.2
  exact hq (this.symm.trans hlock)

variable {b : Nat} {cache : Bcache P}

section

variable (hs : Shares s c u v)

include hs

theorem lock_bget
    (hget : s.dev.cache.bget ROOTDEV b = .ok (i, cache)) (j : Fin NBUF) :
    (cache.buf j).lock = (s.dev.buf j).lock := by
  have hset : ∀ x : Buf P, x.lock = (s.dev.buf i).lock →
      ((s.dev.cache.set i x).buf j).lock = (s.dev.buf j).lock := by
    intro x hx
    simp only [Bcache.set]
    by_cases hji : j = i
    · rw [hji, update_self, hx]
    · rw [update_of_ne hji]
      rfl
  rcases hs.cached.bget_eq b with ⟨k, -, heq⟩ | ⟨-, k, -, heq⟩ | ⟨-, -, heq⟩
  · rw [heq] at hget
    cases hget
    exact hset _ rfl
  · rw [heq] at hget
    cases hget
    exact hset _ rfl
  · rw [heq] at hget
    cases hget

section

variable (hq : c ≠ some q)

include hq

theorem bget (hwant : s.want q = none) (hget : s.dev.cache.bget ROOTDEV b = .ok (i, cache)) :
    Shares (s.note q { s.dev with cache := cache } (.bget b) i) c (u.addRef i) v := by
  have hwait : ∀ j, (u.addRef i).refs j + waiting s.want s.drop c j =
      u.refs j + waiting (update s.want q (some i)) s.drop c j := by
    intro j
    have := waiting_in s.want s.drop hq (some i) j
    rw [hwant, if_neg (Option.some_ne_none j).symm] at this
    by_cases hji : j = i
    · rw [hji, if_pos rfl] at this
      simp only [Others.addRef, hji, update_self]
      omega
    · rw [if_neg (fun h => hji (Option.some.inj h).symm)] at this
      simp only [Others.addRef, update_of_ne hji]
      omega
  exact
    { hs with
      cached := hs.cached.otherBget hget
      locked := fun j hj => by
        have := hwait j
        have := hs.locked j hj
        simp only [note]
        omega
      unlocked := fun j hj => by
        have := hwait j
        have := hs.unlocked j hj
        simp only [note]
        omega
      changing := fun j hj => by
        obtain ⟨hlocked, r, hlock, hr⟩ := hs.changing j hj
        exact ⟨hlocked, r, (hs.lock_bget hget j).trans hlock, hr⟩
      points := hs.points_note hq _ _ _ }

theorem acquire (hwant : s.want q = some i)
    (hlock : (s.dev.buf i).lock = none) :
    Shares (s.note q (s.dev.setBuf i { s.dev.buf i with
      lock := some q
      valid := true
      data := if (s.dev.buf i).valid then (s.dev.buf i).data
        else s.dev.disk (s.dev.buf i).blockno }) (.acquire i) ()) c (u.setLocked i True) v := by
  have hfree : ¬ u.locked i := fun h => (hs.cached.foreign i h).1 hlock
  have hrefs : u.refs i = waiting s.want s.drop c i := hs.unlocked i hfree
  have hmove := waiting_in s.want s.drop hq none
  simp only [hwant, reduceCtorEq, if_false, add_zero] at hmove
  have hother : ∀ {j}, j ≠ i →
      waiting (update s.want q none) s.drop c j = waiting s.want s.drop c j := by
    intro j hji
    have := hmove j
    rwa [if_neg (fun h => hji (Option.some.inj h).symm)] at this
  have hi := hmove i
  rw [if_pos rfl] at hi
  exact
    { hs with
      cached := hs.cached.otherAcquire q (by omega) hlock
      locked := fun j hj => by
        by_cases hji : j = i
        · subst hji
          simp only [note, Others.setLocked]
          omega
        · simp only [Others.setLocked, update_of_ne hji] at hj
          simp only [note, Others.setLocked, hother hji]
          exact hs.locked j hj
      unlocked := fun j hj => by
        by_cases hji : j = i
        · subst hji
          simp only [Others.setLocked, update_self, not_true_eq_false] at hj
        · simp only [Others.setLocked, update_of_ne hji] at hj
          simp only [note, Others.setLocked, hother hji]
          exact hs.unlocked j hj
      changing := fun j hj => by
        obtain ⟨hlocked, r, hr⟩ := hs.changing j hj
        have hji : j ≠ i := fun h => hfree (h ▸ hlocked)
        simp only [Others.setLocked, update_of_ne hji, note, Dev.buf_setBuf_of_ne _ _ hji]
        exact ⟨hlocked, r, hr⟩
      points := hs.points_note hq _ _ _ }

theorem unlock (hlock : (s.dev.buf i).lock = some q)
    (hclean : s.dirty i = false) (hdrop : s.drop q = none) :
    Shares (s.note q (s.dev.setBuf i { s.dev.buf i with lock := none }) (.unlock i) ()) c
      (u.setLocked i False) v := by
  have hlocked := hs.locked_of_lock hq hlock
  have hrefs := hs.locked i hlocked
  have hdirty : ¬ u.dirty i := by
    rw [hs.marks, hclean]
    decide
  have hmove := waiting_out s.want s.drop hq (some i)
  simp only [hdrop, reduceCtorEq, if_false, add_zero] at hmove
  have hother : ∀ {j}, j ≠ i →
      waiting s.want (update s.drop q (some i)) c j = waiting s.want s.drop c j := by
    intro j hji
    have := hmove j
    rwa [if_neg (fun h => hji (Option.some.inj h).symm)] at this
  have hi := hmove i
  rw [if_pos rfl] at hi
  exact
    { hs with
      cached := hs.cached.otherUnlock hlocked hdirty
      locked := fun j hj => by
        by_cases hji : j = i
        · subst hji
          simp only [Others.setLocked, update_self] at hj
        · simp only [Others.setLocked, update_of_ne hji] at hj
          simp only [note, Others.setLocked, hother hji]
          exact hs.locked j hj
      unlocked := fun j hj => by
        by_cases hji : j = i
        · subst hji
          simp only [note, Others.setLocked]
          omega
        · simp only [Others.setLocked, update_of_ne hji] at hj
          simp only [note, Others.setLocked, hother hji]
          exact hs.unlocked j hj
      changing := fun j hj => by
        have hji : j ≠ i := by
          rintro rfl
          rw [show s.dirty j = true from hj] at hclean
          cases hclean
        simp only [Others.setLocked, update_of_ne hji, note, Dev.buf_setBuf_of_ne _ _ hji]
        exact hs.changing j hj
      points := hs.points_note hq _ _ _ }

theorem unref (hdrop : s.drop q = some i) :
    Shares (s.note q { s.dev with cache := s.dev.cache.unref i } (.unref i) ()) c
      (u.dropRef i) v := by
  have hmove := waiting_out s.want s.drop hq none
  simp only [hdrop, reduceCtorEq, if_false, add_zero] at hmove
  have hi := hmove i
  rw [if_pos rfl] at hi
  have hpos : 0 < u.refs i ∧ (u.locked i → 1 < u.refs i) := by
    by_cases hlocked : u.locked i
    · have := hs.locked i hlocked
      exact ⟨by omega, fun _ => by omega⟩
    · have := hs.unlocked i hlocked
      exact ⟨by omega, fun h => absurd h hlocked⟩
  have hmore : u.locked i ∨ u.dirty i → 1 < u.refs i := fun h =>
    h.elim hpos.2 fun h => hpos.2 (hs.changing i ((hs.marks i).mp h)).1
  have hwait : ∀ j, u.refs j + waiting s.want (update s.drop q none) c j =
      (u.dropRef i).refs j + waiting s.want s.drop c j := by
    intro j
    have := hmove j
    by_cases hji : j = i
    · subst hji
      simp only [Others.dropRef, update_self]
      have := hpos.1
      omega
    · rw [if_neg (fun h => hji (Option.some.inj h).symm)] at this
      simp only [Others.dropRef, update_of_ne hji]
      omega
  exact
    { hs with
      cached := hs.cached.otherUnref hpos.1 hmore
      locked := fun j hj => by
        have := hwait j
        have := hs.locked j hj
        simp only [note]
        omega
      unlocked := fun j hj => by
        have := hwait j
        have := hs.unlocked j hj
        simp only [note]
        omega
      changing := fun j hj => by
        obtain ⟨hlocked, r, hlock, hr⟩ := hs.changing j hj
        refine ⟨hlocked, r, ?_, hr⟩
        rw [← hlock]
        simp only [note, Dev.buf, Bcache.unref]
        by_cases hji : j = i
        · rw [hji, update_self]
        · rw [update_of_ne hji]
      points := hs.points_note hq _ _ _ }

theorem store (hlock : (s.dev.buf i).lock = some q)
    (hmode : s.mode q = .inOp) (f : Block → Block) :
    Shares ((s.note q (s.dev.setBuf i { s.dev.buf i with data := f (s.dev.buf i).data })
      (.store i f) ()).mark (.store i f)) c (u.setDirty i True)
      (v.store (s.dev.buf i).blockno f) := by
  have hlocked := hs.locked_of_lock hq hlock
  exact
    { hs with
      cached := hs.cached.otherStore hlocked f
      marks := fun j => by
        by_cases hji : j = i
        · subst hji
          simp only [Others.setDirty, mark, update_self]
        · simp only [Others.setDirty, mark, note, update_of_ne hji]
          exact hs.marks j
      changing := fun j hj => by
        by_cases hji : j = i
        · subst hji
          refine ⟨hlocked, q, ?_, hmode⟩
          simp only [mark, note, Dev.buf_setBuf_same]
          exact hlock
        · simp only [mark, note, update_of_ne hji] at hj
          simp only [mark, note, Dev.buf_setBuf_of_ne _ _ hji]
          exact hs.changing j hj }

end

theorem changing_logWrite {d : Dev P}
    (hlocks : ∀ j, (d.buf j).lock = (s.dev.buf j).lock) (j : Fin NBUF)
    (hj : update s.dirty i false j = true) :
    u.locked j ∧ ∃ q, (d.buf j).lock = some q ∧ s.mode q = .inOp := by
  by_cases hji : j = i
  · rw [hji, update_self] at hj
    cases hj
  · rw [update_of_ne hji] at hj
    rw [hlocks j]
    exact hs.changing j hj

theorem marks_logWrite (j : Fin NBUF) :
    (u.setDirty i False).dirty j ↔ update s.dirty i false j = true := by
  by_cases hji : j = i
  · subst hji
    simp only [Others.setDirty, update_self, Bool.false_eq_true]
  · simp only [Others.setDirty, update_of_ne hji]
    exact hs.marks j

theorem pin (hq : c ≠ some q) (hlock : (s.dev.buf i).lock = some q)
    {l : Log} (hl : l.lh ≠ s.dev.log.lh) :
    Shares (s.note q { s.dev with log := l, cache := s.dev.cache.bpin i } (.logWrite i) ()) c
      (u.setDirty i False) { v.pin (s.dev.buf i).blockno with log := l } := by
  have hlocked := hs.locked_of_lock hq hlock
  exact
    { hs with
      cached := hs.cached.otherPin hlocked l
      marks := hs.marks_logWrite
      changing := hs.changing_logWrite fun j => by
        simp only [note, Dev.buf, Bcache.bpin, Bcache.set]
        by_cases hji : j = i
        · rw [hji, update_self]
        · rw [update_of_ne hji]
      balance := fun b => by
        have := hs.balance b
        simp only [note, hl, if_false, View.pin, View.own] at this ⊢
        by_cases hb : b = (s.dev.buf i).blockno
        · rw [← hb, update_self, update_self]
          push_cast
          omega
        · rw [update_of_ne hb, update_of_ne hb]
          exact this }

theorem absorb (hq : c ≠ some q) (hlock : (s.dev.buf i).lock = some q)
    (hpinned : 0 < v.refs (s.dev.buf i).blockno) :
    Shares (s.note q s.dev (.logWrite i) ()) c (u.setDirty i False) v :=
  { hs with
    cached := hs.cached.otherAbsorb (hs.locked_of_lock hq hlock) hpinned
    marks := hs.marks_logWrite
    changing := hs.changing_logWrite fun _ => rfl
    balance := fun b => by
      simp only [note, if_true]
      exact hs.balance b }

/-- A section of `begin_op` or `end_op`: the log record and the modes change, and
    nobody with a changed buffer leaves its operation. -/
theorem relog (l : Log) {m : P → Mode} {job : P → Option (BProg Unit)}
    (hm : ∀ q, s.mode q = .inOp → (∃ i, s.dirty i = true ∧ (s.dev.buf i).lock = some q) →
      m q = .inOp) :
    Shares { s with dev := { s.dev with log := l }, mode := m, job := job } c u
      { v with log := l } :=
  { hs with
    cached := hs.cached.relog l
    changing := fun i hi => by
      obtain ⟨hlocked, q, hlock, hq⟩ := hs.changing i hi
      exact ⟨hlocked, q, hlock, hm q hq ⟨i, hi, hlock⟩⟩ }

end

theorem ownStep {p : P} {s' : Sys P} {v' : View} (hs : Shares s (some p) u v)
    (hclean : ∀ i, s.dirty i = false) (hc : Cached (some p) u s'.dev v')
    (hdirty : s'.dirty = s.dirty) (hwant : ∀ q, q ≠ p → s'.want q = s.want q)
    (hdrop : ∀ q, q ≠ p → s'.drop q = s.drop q)
    (hpoints : s'.want p = v'.want.map snd ∧ s'.drop p = v'.drop.map snd)
    (hbalance : ∀ b, (v'.refs b : Int) = s'.pins b + v'.own b) : Shares s' (some p) u v' := by
  have hrest : ∀ {q}, q ∈ rest (some p) → q ≠ p := fun h hqp =>
    mem_rest.mp h (congrArg some hqp.symm)
  have hwait : ∀ i, waiting s'.want s'.drop (some p) i = waiting s.want s.drop (some p) i := by
    intro i
    unfold waiting
    rw [count_congr (fun q hq => hwant q (hrest hq)), count_congr (fun q hq => hdrop q (hrest hq))]
  exact
    { cached := hc
      locked := fun i hi => by rw [hwait, hs.locked i hi]
      unlocked := fun i hi => by rw [hwait, hs.unlocked i hi]
      marks := fun i => by rw [hdirty, hs.marks]
      changing := fun i hi => by
        rw [hdirty, hclean] at hi
        cases hi
      balance := hbalance
      points := fun q hq => by
        cases hq
        exact hpoints }

end Shares

end Sys

end Xv6
