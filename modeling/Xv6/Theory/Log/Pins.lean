import Xv6.Theory.Log.Processes

/-!
# Uncommitted Blocks Stay Cached

Processes that keep to the rules of `Core.Clients` never lose a logged block from the
cache before its commit has installed it.

## Theorems

* `Sys.uncommitted_stay_cached`: a logged block keeps its buffer
-/

namespace Xv6.Sys

open Function (update update_self update_of_ne)

variable {i : Fin NBUF} {b : Nat}

variable {P : Type} [DecidableEq P] [Fintype P]

section Steps

variable {s : Sys P} {c : Option P} {u : Others} {v : View} {o : Ops P} {p q : P}

variable {d : Dev P} {w : BOp} {s' : Sys P}

theorem handle_keeps {d' : Dev P} {r : w.Ret} (hrun : Dev.handle p w d = .ok (r, d'))
    (href : (d.buf i).refcnt ≠ 0) (hi : d.Has i b) : d'.Has i b := by
  have hset : ∀ {e : Dev P} (j : Fin NBUF) (x : Buf P), e.cache.buf = update d.cache.buf j x →
      x.dev = (d.buf j).dev → x.blockno = (d.buf j).blockno → e.Has i b := by
    intro e j x hbuf hdev hblock
    unfold Dev.Has Dev.buf
    rw [hbuf]
    by_cases hij : i = j
    · rw [hij, update_self, hdev, hblock, ← hij]
      exact hi
    · rw [update_of_ne hij]
      exact hi
  cases w with
  | bget c =>
    simp only [Dev.handle, Bcache.bget] at hrun
    cases hfind : d.cache.lru.find? fun j =>
        (d.cache.buf j).dev == ROOTDEV && (d.cache.buf j).blockno == c with
    | some j =>
      rw [hfind] at hrun
      cases hrun
      exact hset r _ rfl rfl rfl
    | none =>
      rw [hfind] at hrun
      cases hfree : d.cache.lru.reverse.find? fun j => (d.cache.buf j).refcnt == 0 with
      | none =>
        rw [hfree] at hrun
        cases hrun
      | some j =>
        rw [hfree] at hrun
        cases hrun
        -- The recycled buffer has no references, so it is another one.
        have hij : i ≠ r := by
          rintro rfl
          have h0 := List.find?_some hfree
          rw [beq_iff_eq] at h0
          exact href h0
        simp only [Dev.Has, Dev.buf, Bcache.set, update_of_ne hij]
        exact hi
  | acquire j =>
    by_cases hlock : (d.buf j).lock = none
    · rw [Dev.handle, if_pos hlock] at hrun
      cases hrun
      exact hset j _ rfl rfl rfl
    · rw [Dev.handle, if_neg hlock] at hrun
      cases hrun
  | load j =>
    cases hrun
    exact hi
  | store j f =>
    cases hrun
    exact hset j _ rfl rfl rfl
  | bwrite j =>
    simp only [Dev.handle] at hrun
    split_ifs at hrun
    cases hrun
    exact hi
  | unlock j =>
    simp only [Dev.handle] at hrun
    split_ifs at hrun
    cases hrun
    exact hset j _ rfl rfl rfl
  | unref j =>
    cases hrun
    exact hset j _ rfl rfl rfl
  | bunpin j =>
    cases hrun
    exact hset j _ rfl rfl rfl
  | getLog =>
    cases hrun
    exact hi
  | setLh lh =>
    cases hrun
    exact hi
  | beginOp =>
    simp only [Dev.handle] at hrun
    split at hrun
    · cases hrun
      exact hi
    · cases hrun
  | endOp =>
    simp only [Dev.handle] at hrun
    split at hrun
    · cases hrun
      exact hi
    · cases hrun
  | finish =>
    cases hrun
    exact hi
  | logWrite j =>
    simp only [Dev.handle] at hrun
    split at hrun
    · cases hrun
      exact hset j _ rfl rfl rfl
    · cases hrun
      exact hi
    · cases hrun

theorem Inv.read (hi : Inv s c u v o) {u' : Others} (hs : Shares s' c u' v)
    (hmode : s'.mode = s.mode) (hjob : s'.job = s.job) (hlog : s'.dev.log = s.dev.log)
    (hdisk : s'.dev.disk = s.dev.disk) (hlast : s'.last = s.last) (hpins : s'.pins = s.pins)
    (hdirty : s'.dirty = s.dirty)
    (hhas : ∀ i b, s.dirty i = true → s.dev.Has i b → s'.dev.Has i b) : Inv s' c u' v o := by
  refine ⟨hs, ⟨hi.follows.inv, ?_, ?_, ?_⟩, hi.homes.relog (hlog ▸ ⟨rfl, rfl, rfl⟩), ?_⟩
  · rw [hmode, hi.follows.mode]
  · rw [hlog]
    exact hi.follows.log
  · rw [hmode, hlog]
    exact hi.follows.header
  cases c with
  | none =>
    have hg : Gathering s v := hi.phase
    refine ⟨by rw [hmode]; exact hg.modes, by rw [hjob]; exact hg.jobs,
      by rw [hlog]; exact hg.quiet, by rw [hlog]; exact hg.nodup, ?_⟩
    intro b hb hall
    rw [hlog] at hb
    rw [hlast]
    refine hg.latest b hb fun i hi' => ?_
    by_contra hd
    rw [Bool.not_eq_false] at hd
    have := hall i (hhas i b hd hi')
    rw [hdirty, hd] at this
    cases this
  | some p =>
    obtain ⟨lh, prog, hk⟩ := hi.phase
    refine ⟨lh, prog, ⟨?_, ?_, ?_, hk.nodup, ?_, ?_, ?_, ?_⟩⟩
    · rw [hmode, hk.mode]
    · rw [hjob, hk.job]
    · rw [hjob]
      exact hk.jobs
    · rw [hlog]
      exact hk.header
    · rw [hlog, hlast]
      exact hk.ok
    · rw [hpins]
      exact hk.pins
    · rw [hpins, hdisk, hlast]
      exact hk.installed

theorem Inv.refcnt_of_dirty (hi : Inv s c u v o) (hd : s.dirty i = true) :
    (s.dev.buf i).refcnt ≠ 0 := by
  intro h0
  have hu := hi.shares.cached.used i (.inl (hi.shares.changing i hd).1)
  have := (hi.shares.cached.idle h0).2
  omega

theorem Inv.store (hi : Inv s c u v o) (hp : s.mode p = .inOp)
    (hlock : (s.dev.buf i).lock = some p) (f : Block → Block) :
    ∃ u' v', Inv ((s.note p (s.dev.setBuf i { s.dev.buf i with data := f (s.dev.buf i).data })
      (.store i f) ()).mark (.store i f)) c u' v' o := by
  obtain ⟨rfl, hg⟩ := hi.gathering hp
  have hs := hi.shares.store (Option.some_ne_none p).symm hlock hp f
  have hlocked := hi.shares.locked_of_lock (Option.some_ne_none p).symm hlock
  have hhas := hi.shares.cached.has_of_refs (hi.shares.cached.used i (.inl hlocked))
  refine ⟨_, _, hs, ⟨hi.follows.inv, hi.follows.mode, hi.follows.log, hi.follows.header⟩,
    hi.homes.relog ⟨rfl, rfl, rfl⟩, ⟨hg.modes, hg.jobs, ?_, hg.nodup, ?_⟩⟩
  · exact ⟨hg.quiet.held, hg.quiet.want, hg.quiet.drop, hg.quiet.refs⟩
  · intro b hb hall
    simp only [mark, note] at hb hall ⊢
    -- The changed block is excused until it is logged again.
    have hbi : b ≠ (s.dev.buf i).blockno := by
      rintro rfl
      have := hall i ?_
      · rw [update_self] at this
        cases this
      · unfold Dev.Has
        rw [Dev.buf_setBuf_same]
        exact hhas
    simp only [View.store, update_of_ne hbi]
    refine hg.latest b hb fun j hj => ?_
    have hji : j ≠ i := by
      rintro rfl
      exact hbi hj.2.symm
    have := hall j ?_
    · rwa [update_of_ne hji] at this
    · unfold Dev.Has
      rw [Dev.buf_setBuf_of_ne _ _ hji]
      exact hj

theorem has_bpin {l : Log} {j : Fin NBUF} :
    ({ d with log := l, cache := d.cache.bpin i } : Dev P).Has j b ↔ d.Has j b := by
  simp only [Dev.Has, Dev.buf, Bcache.bpin, Bcache.set]
  by_cases hji : j = i
  · rw [hji, update_self]
  · rw [update_of_ne hji]

theorem Gathering.latest_logWrite (hg : Gathering s v) (hs : Shares s c u v) (hlocked : u.locked i)
    (hb : b = (s.dev.buf i).blockno ∨ b ∈ s.dev.log.lh)
    (hall : ∀ j, s.dev.Has j b → update s.dirty i false j = false) :
    v.view b = update s.last (s.dev.buf i).blockno (s.dev.buf i).data b := by
  have hhas := hs.cached.has_of_refs (hs.cached.used i (.inl hlocked))
  have hval := hs.cached.filled i (hs.cached.foreign i hlocked).1
  by_cases hbi : b = (s.dev.buf i).blockno
  · rw [hbi, update_self, hs.cached.shows i _ hhas hval]
  · rw [update_of_ne hbi]
    refine hg.latest b (hb.resolve_left hbi) fun j hj => ?_
    have hji : j ≠ i := by
      rintro rfl
      exact hbi hj.2.symm
    have := hall j hj
    rwa [update_of_ne hji] at this

theorem Inv.logWrite (hi : Inv s c u v o) (hp : s.mode p = .inOp)
    (hlock : (s.dev.buf i).lock = some p) (hhome : s.home (s.dev.buf i).blockno = true)
    (hrun : Dev.handle p (.logWrite i) s.dev = .ok ((), d)) :
    ∃ u' v' o', Inv (s.note p d (.logWrite i) ()) c u' v' o' := by
  obtain ⟨rfl, hg⟩ := hi.gathering hp
  have hnone : (none : Option P) ≠ some p := (Option.some_ne_none p).symm
  have hlocked := hi.shares.locked_of_lock hnone hlock
  have hlog := hi.follows.log_eq hg.modes
  have hop : o.mode p = .inOp := by rw [hi.follows.mode, hp]
  simp only [Dev.handle, Log.logWrite] at hrun
  split_ifs at hrun with hbig hout hb
  · cases hrun
    -- The block is in the log already, and pinned.
    have hpos : 0 < v.refs (s.dev.buf i).blockno := hg.quiet.pinned hb
    have hmove := Ops.Move.absorb (s := o) p _ hop (by rw [hlog]; exact hb)
    refine ⟨_, v, _, hi.shares.absorb hnone hlock hpos,
      ⟨Ops.inv_move hi.follows.inv hmove, hi.follows.mode, hi.follows.log, hi.follows.header⟩,
      hi.homes.relog ⟨rfl, rfl, rfl⟩, ⟨hg.modes, hg.jobs, hg.quiet, hg.nodup, ?_⟩⟩
    exact fun b hb' hall => hg.latest_logWrite hi.shares hlocked (.inr hb') hall
  · cases hrun
    have hne : s.dev.log.lh ++ [(s.dev.buf i).blockno] ≠ s.dev.log.lh := by
      intro h
      have := congrArg List.length h
      rw [List.length_append, List.length_singleton] at this
      omega
    have hmove := Ops.Move.record (s := o) p (s.dev.buf i).blockno hop (by rw [hlog]; exact hb)
      (by rw [hlog]; omega)
    refine ⟨_, _, _, hi.shares.pin hnone hlock hne,
      ⟨Ops.inv_move hi.follows.inv hmove, hi.follows.mode, ?_, ?_⟩, ⟨?_, ?_⟩,
      ⟨hg.modes, hg.jobs, ?_, ?_, ?_⟩⟩
    · simp only [note, hlog]
    · exact fun _ => by simp only [note, hlog]
    · intro b hb'
      rcases List.mem_append.mp hb' with h | h
      · exact hi.homes.home b h
      · rw [List.mem_singleton.mp h]
        exact hhome
    · refine .inr ?_
      simp only [note, List.length_append, List.length_singleton]
      omega
    · exact hg.quiet.pin hb _
    · exact List.nodup_append.mpr ⟨hg.nodup, List.nodup_singleton _, fun a ha b hb' h =>
        hb (List.mem_singleton.mp hb' ▸ h ▸ ha)⟩
    · intro b hb' hall
      refine hg.latest_logWrite hi.shares hlocked ?_ fun j hj => hall j (has_bpin.mpr hj)
      rcases List.mem_append.mp hb' with h | h
      · exact .inr h
      · exact .inl (List.mem_singleton.mp h)

theorem Inv.client (hi : Inv s c u v o) {r : w.Ret}
    (hp : s.mode p = .idle ∨ s.mode p = .inOp) (hallow : s.allowed p w = true)
    (hrun : Dev.handle p w s.dev = .ok (r, d)) :
    d.issued = s.dev.issued ∧ ∃ u' v' o', Inv ((s.note p d w r).mark w) c u' v' o' := by
  have hq : c ≠ some p := hi.not_committer (by rcases hp with h | h <;> rw [h] <;> decide)
  -- A changed buffer is held, so no piece of this process takes it from its block.
  have hkeeps : ∀ i b, s.dirty i = true → s.dev.Has i b → d.Has i b :=
    fun i b hd => handle_keeps hrun (hi.refcnt_of_dirty hd)
  cases w with
  | bget b =>
    simp only [allowed, decide_eq_true_eq] at hallow
    simp only [Dev.handle] at hrun
    cases hget : s.dev.cache.bget ROOTDEV b with
    | error e =>
      rw [hget] at hrun
      cases hrun
    | ok x =>
      rw [hget] at hrun
      cases hrun
      exact ⟨rfl, _, v, o, hi.read (hi.shares.bget hq hallow.1 hget) rfl rfl rfl rfl rfl rfl rfl
        hkeeps⟩
  | acquire i =>
    simp only [allowed, decide_eq_true_eq] at hallow
    by_cases hlock : (s.dev.buf i).lock = none
    · rw [Dev.handle, if_pos hlock] at hrun
      cases hrun
      exact ⟨rfl, _, v, o, hi.read (hi.shares.acquire hq hallow hlock) rfl rfl rfl rfl rfl rfl rfl
        hkeeps⟩
    · rw [Dev.handle, if_neg hlock] at hrun
      cases hrun
  | load i =>
    cases hrun
    exact ⟨rfl, u, v, o, hi⟩
  | store i f =>
    simp only [allowed, decide_eq_true_eq] at hallow
    cases hrun
    obtain ⟨u', v', hi'⟩ := hi.store hallow.1 hallow.2.1 f
    exact ⟨rfl, u', v', o, hi'⟩
  | unlock i =>
    simp only [allowed, decide_eq_true_eq] at hallow
    rw [Dev.handle, if_pos hallow.1] at hrun
    cases hrun
    exact ⟨rfl, _, v, o, hi.read (hi.shares.unlock hq hallow.1 hallow.2.1 hallow.2.2) rfl rfl rfl
      rfl rfl rfl rfl hkeeps⟩
  | unref i =>
    simp only [allowed, decide_eq_true_eq] at hallow
    cases hrun
    exact ⟨rfl, _, v, o, hi.read (hi.shares.unref hq hallow) rfl rfl rfl rfl rfl rfl rfl hkeeps⟩
  | logWrite i =>
    simp only [allowed, decide_eq_true_eq] at hallow
    obtain ⟨u', v', o', hi'⟩ := hi.logWrite hallow.1 hallow.2.1 hallow.2.2 hrun
    refine ⟨?_, u', v', o', hi'⟩
    simp only [Dev.handle] at hrun
    split at hrun
    · cases hrun
      rfl
    · cases hrun
      rfl
    · cases hrun
  | bwrite i => cases hallow
  | bunpin i => cases hallow
  | getLog => cases hallow
  | setLh lh => cases hallow
  | beginOp => cases hallow
  | endOp => cases hallow
  | finish => cases hallow

/-- Every step keeps the invariant. A write that is issued is one that the commit's
    rules allow, and a buffer with references stays with its block. -/
theorem inv_next (hi : Inv s c u v o) (h : s.Next s') :
    (∃ c' u' v' o', Inv s' c' u' v' o') ∧
    (s'.dev.issued = s.dev.issued ∨ ∃ lh b x, (s.dev.log.lh = lh ∨ s.dev.log.lh = []) ∧
      s'.dev.issued = s.dev.issued ++ [(b, x)] ∧
      (commitRules s.dev.log.start lh s.last).write b x) ∧
    ∀ i b, (s.dev.buf i).refcnt ≠ 0 → s.dev.Has i b → s'.dev.Has i b := by
  obtain ⟨a, h⟩ := h
  cases a with
  | beginOp p =>
    simp only [step] at h
    split_ifs at h with hp
    have hp' : s.mode p = .idle ∨ s.mode p = .awake := hp.imp And.left id
    cases hl : s.dev.log.beginOp with
    | none =>
      rw [hl] at h
      cases h
      obtain ⟨o', hi'⟩ := hi.sleep hp' hl
      exact ⟨⟨c, u, v, o', hi'⟩, .inl rfl, fun _ _ _ => id⟩
    | some l =>
      rw [hl] at h
      cases h
      obtain ⟨u', v', o', hi'⟩ := hi.enter hp' hl
      exact ⟨⟨none, u', v', o', hi'⟩, .inl rfl, fun _ _ _ => id⟩
  | wake p =>
    simp only [step] at h
    split_ifs at h with hp
    cases h
    obtain ⟨o', hi'⟩ := hi.wake hp
    exact ⟨⟨c, u, v, o', hi'⟩, .inl rfl, fun _ _ _ => id⟩
  | endOp p =>
    simp only [step] at h
    split_ifs at h with hp
    split at h
    · cases h
    · rename_i l hl
      cases h
      obtain ⟨u', v', o', hi'⟩ := hi.last hp.1 hp.2 hl
      exact ⟨⟨some p, u', v', o', hi'⟩, .inl rfl, fun _ _ _ => id⟩
    · rename_i l hl
      cases h
      obtain ⟨u', v', o', hi'⟩ := hi.leave hp.1 hp.2 hl
      exact ⟨⟨none, u', v', o', hi'⟩, .inl rfl, fun _ _ _ => id⟩
  | client p w =>
    simp only [step, perform] at h
    split_ifs at h with hp
    cases hrun : Dev.handle p w s.dev with
    | error e =>
      rw [hrun] at h
      cases e <;> cases h
    | ok x =>
      rw [hrun] at h
      cases h
      obtain ⟨hissued, u', v', o', hi'⟩ := hi.client hp.1 hp.2 hrun
      -- The bookkeeping leaves the device alone.
      have hdev : ((s.note p x.2 w x.1).mark w).dev = x.2 := by
        rw [← s.dev_note p x.2 w x.1]
        cases w <;> rfl
      refine ⟨⟨c, u', v', o', hi'⟩, .inl (by rw [hdev, hissued]), fun i b href hhas => ?_⟩
      rw [hdev]
      exact handle_keeps hrun href hhas
  | commit p =>
    simp only [step, perform] at h
    cases hjob : s.job p with
    | none =>
      rw [hjob] at h
      cases h
    | some prog =>
      rw [hjob] at h
      cases prog with
      | ret a => cases h
      | op w k =>
        simp only at h
        cases hrun : Dev.handle p w s.dev with
        | error e =>
          rw [hrun] at h
          cases e <;> cases h
        | ok x =>
          rw [hrun] at h
          cases h
          -- The next piece of the commit, under the rules its program was shown to keep.
          obtain ⟨⟨lh, hlh, hw⟩, v', hi'⟩ := hi.commit hjob hrun
          have hdev := s.dev_note p x.2 w x.1
          have hjobs : (s.note p x.2 w x.1).job = s.job := by cases w <;> rfl
          rw [hjobs]
          refine ⟨⟨c, u, v', o, hi'⟩, ?_, fun i b href hhas => ?_⟩
          · simp only [hdev]
            rcases hw with hw | ⟨b, y, hw, hrule⟩
            · exact .inl hw
            · exact .inr ⟨lh, b, y, hlh, hw, hrule⟩
          · simp only [hdev]
            exact handle_keeps hrun href hhas
  | finish p =>
    simp only [step] at h
    cases hjob : s.job p with
    | none =>
      rw [hjob] at h
      cases h
    | some prog =>
      rw [hjob] at h
      cases prog with
      | op w k => cases h
      | ret a =>
        cases h
        obtain ⟨-, u', v', o', hi'⟩ := hi.finish hjob
        exact ⟨⟨none, u', v', o', hi'⟩, .inl rfl, fun _ _ _ => id⟩

theorem count_all (hs : Shares s c u v) {f : P → Option (Fin NBUF)} {w : Option (Nat × Fin NBUF)}
    (hi : s.dev.Has i b) (hnone : c = none → w = none)
    (hpoint : ∀ p, c = some p → f p = w.map Prod.snd)
    (hhas : ∀ b' j, w = some (b', j) → s.dev.Has j b') :
    count f Finset.univ i = count f (rest c) i + (w.any fun x => x.1 == b).toNat := by
  cases c with
  | none =>
    have hrest : rest (none : Option P) = Finset.univ := by
      ext q
      simp only [mem_rest, ne_eq, reduceCtorEq, not_false_iff, Finset.mem_univ]
    rw [hrest, hnone rfl, Option.any_none, Bool.toNat_false, add_zero]
  | some p =>
    have hrest : rest (some p) = Finset.univ.erase p := by
      ext q
      simp only [mem_rest, Finset.mem_erase, ne_eq, Option.some.injEq, Finset.mem_univ, and_true,
        eq_comm]
    rw [hrest, count_erase (Finset.mem_univ p), hpoint p rfl]
    cases hw : w with
    | none => rfl
    | some x =>
      have hx := hhas x.1 x.2 hw
      rw [Option.map_some, Option.any_some]
      by_cases hxi : x.2 = i
      · have hxb : x.1 = b := by
          rw [hxi] at hx
          exact hx.2.symm.trans hi.2
        rw [if_pos (congrArg some hxi), hxb, beq_self_eq_true, Bool.toNat_true]
      · have hxb : x.1 ≠ b := fun h => hxi (hs.cached.once _ _ b (h ▸ hx) hi)
        rw [if_neg (fun h => hxi (Option.some.inj h)), beq_eq_false_iff_ne.mpr hxb,
          Bool.toNat_false]

theorem Shares.lock_eq (hs : Shares s c u v) (hi : s.dev.Has i b) :
    u.refs i + (v.held b).isSome.toNat = waiting s.want s.drop c i +
      if (s.dev.buf i).lock = none then 0 else 1 := by
  have hheld : ∀ {j}, v.held b = some j → j = i ∧ (s.dev.buf i).lock ≠ none := by
    intro j hj
    obtain ⟨hhas, hlock, -⟩ := hs.cached.holds b j hj
    cases hs.cached.once j i b hhas hi
    exact ⟨rfl, hlock⟩
  by_cases hlock : (s.dev.buf i).lock = none
  · have hfree : v.held b = none := by
      cases h : v.held b with
      | none => rfl
      | some j => exact absurd hlock (hheld h).2
    have hnot : ¬ u.locked i := fun h => (hs.cached.foreign i h).1 hlock
    rw [if_pos hlock, hfree, hs.unlocked i hnot, Option.isSome_none, Bool.toNat_false]
  · rw [if_neg hlock]
    rcases hs.cached.owned i hlock with h | h
    · have hnot : ¬ u.locked i := fun hl => (hs.cached.foreign i hl).2 h
      rw [hi.2] at h
      rw [h, hs.unlocked i hnot, Option.isSome_some, Bool.toNat_true]
    · have hfree : v.held b = none := by
        cases hb : v.held b with
        | none => rfl
        | some j =>
          have := (hs.cached.foreign i h).2
          rw [hi.2, hb, (hheld hb).1] at this
          exact absurd rfl this
      rw [hfree, hs.locked i h, Option.isSome_none, Bool.toNat_false, add_zero]

theorem Inv.refcnt_eq (hi : Inv s c u v o) (hhas : s.dev.Has i b) :
    ((s.dev.buf i).refcnt : Int) = s.users i + s.pins b := by
  have hquiet : c = none → v.want = none ∧ v.drop = none := by
    rintro rfl
    have hg : Gathering s v := hi.phase
    exact ⟨hg.quiet.want, hg.quiet.drop⟩
  have hwant := count_all hi.shares (f := s.want) hhas (fun h => (hquiet h).1)
    (fun p hp => (hi.shares.points p hp).1) hi.shares.cached.wants
  have hdrop := count_all hi.shares (f := s.drop) hhas (fun h => (hquiet h).2)
    (fun p hp => (hi.shares.points p hp).2) hi.shares.cached.drops
  have hlock := hi.shares.lock_eq hhas
  have hcount := hi.shares.cached.count i b hhas
  have hbalance := hi.shares.balance b
  unfold View.own at hbalance
  unfold waiting at hlock
  unfold users
  unfold count at hwant hdrop hlock
  omega

theorem inv_init (disk : Nat → Block) (start size : Nat) :
    Inv (init P disk start size) none Others.nobody (View.fresh disk (Log.init start size))
      { Ops.init P size with log := Log.init start size } :=
  { shares :=
      { cached := cached_boot none disk start size
        locked := fun _ h => h.elim
        unlocked := fun i _ => by
          unfold waiting count init
          simp only [reduceCtorEq, Finset.filter_false, Finset.card_empty]
          rfl
        marks := fun _ => ⟨fun h => h.elim, fun h => by cases h⟩
        changing := fun _ h => by cases h
        balance := fun _ => rfl
        points := fun _ h => by cases h }
    follows :=
      { inv := { Ops.inv_init (P := P) size with }
        mode := rfl
        log := rfl
        header := fun _ => rfl }
    homes := ⟨fun _ h => absurd h List.not_mem_nil, .inl rfl⟩
    phase :=
      { modes := fun _ h => by cases h
        jobs := fun _ => rfl
        quiet := ⟨fun _ => rfl, rfl, rfl, fun _ => rfl⟩
        nodup := List.nodup_nil
        latest := fun _ h => absurd h List.not_mem_nil } }

theorem inv_reachable {disk : Nat → Block} {start size : Nat}
    (h : Relation.ReflTransGen Next (init P disk start size) s) : ∃ c u v o, Inv s c u v o := by
  induction h with
  | refl => exact ⟨_, _, _, _, inv_init disk start size⟩
  | tail _ hnext ih =>
    obtain ⟨c, u, v, o, hi⟩ := ih
    exact (inv_next hi hnext).1

theorem Inv.pins (hi : Inv s c u v o) : s.dev.log.lh.Nodup ∧ (∀ b, s.pins b = 0 ∨ s.pins b = 1) ∧
    ((∀ q, s.mode q ≠ .committing) → ∀ b, s.pins b = 1 ↔ b ∈ s.dev.log.lh) ∧
    ∀ b ∈ s.dev.log.lh, s.pins b = 1 ∨ s.dev.disk b = s.last b := by
  cases c with
  | none =>
    have hg : Gathering s v := hi.phase
    have hpins := hi.shares.pins_of_quiet hg.quiet
    have hiff : ∀ b, s.pins b = 1 ↔ b ∈ s.dev.log.lh := by grind
    refine ⟨hg.nodup, fun b => ?_, fun _ => hiff, fun b hb => .inl ((hiff b).mpr hb)⟩
    rw [hpins]
    by_cases hb : b ∈ s.dev.log.lh
    · rw [if_pos hb]
      exact .inr rfl
    · rw [if_neg hb]
      exact .inl rfl
  | some p =>
    obtain ⟨lh, prog, hk⟩ := hi.phase
    refine ⟨?_, fun b => (hk.pins b).imp id And.left, fun hno => absurd hk.mode (hno p), ?_⟩
    · rcases hk.header with h | h
      · rw [h]
        exact hk.nodup
      · rw [h]
        exact List.nodup_nil
    · grind [hk.header, hk.installed]

theorem Inv.pinned (hi : Inv s c u v o) (hb : s.pins b = 1) :
    ∃ i, s.dev.Has i b ∧ (∀ j, s.dev.Has j b → j = i) ∧ (s.dev.buf i).refcnt = s.users i + 1 := by
  have hhas : ∃ i, s.dev.Has i b := by
    by_contra hnone
    have h0 := hi.shares.cached.absent b fun i h => hnone ⟨i, h⟩
    have := hi.shares.balance b
    omega
  obtain ⟨i, hhas⟩ := hhas
  refine ⟨i, hhas, fun j hj => hi.shares.cached.once j i b hj hhas, ?_⟩
  have := hi.refcnt_eq hhas
  omega

end Steps

/-- Uncommitted blocks stay cached. In every state that processes keeping to the
    rules can reach, the header has no block twice, and no block is pinned twice.
    Outside a commit exactly the header's blocks are pinned, and during one a block
    of the header is pinned until its last logged contents are home. A pinned block
    has one buffer, with a reference besides those of its users, and no step takes
    it away. What a commit writes to a log block is what was last logged, and when
    it is over no pin is left. -/
theorem uncommitted_stay_cached {disk : Nat → Block} {start size : Nat} {s : Sys P}
    (h : Relation.ReflTransGen Next (init P disk start size) s) : s.dev.log.lh.Nodup ∧
    (∀ b, s.pins b = 0 ∨ s.pins b = 1) ∧
    ((∀ q, s.mode q ≠ .committing) → ∀ b, s.pins b = 1 ↔ b ∈ s.dev.log.lh) ∧
    (∀ b ∈ s.dev.log.lh, s.pins b = 1 ∨ s.dev.disk b = s.last b) ∧
    (∀ b, s.pins b = 1 → ∃ i, s.dev.Has i b ∧ (∀ j, s.dev.Has j b → j = i) ∧
      (s.dev.buf i).refcnt = s.users i + 1) ∧ (∀ s', s.Next s' →
      (∀ b i, s.pins b = 1 → s.dev.Has i b → s'.dev.Has i b) ∧ ∀ t (ht : t < s.dev.log.lh.length) x,
        s'.dev.issued = s.dev.issued ++ [(s.dev.log.start + 1 + t, x)] →
        x = s.last s.dev.log.lh[t]) ∧
    ∀ p s', s.step (.finish p) = some (.ok s') → s'.dev.log.lh = [] ∧ ∀ b, s'.pins b = 0 := by
  obtain ⟨c, u, v, o, hi⟩ := inv_reachable h
  obtain ⟨hnodup, honce, hexact, hinstalled⟩ := hi.pins
  refine ⟨hnodup, honce, hexact, hinstalled, fun b => hi.pinned, fun s' hnext => ⟨?_, ?_⟩, ?_⟩
  · intro b i hb hhas
    refine (inv_next hi hnext).2.2 i b ?_ hhas
    have := hi.refcnt_eq hhas
    omega
  · intro t ht x hx
    -- Only the commit writes, and what it writes to the log it has from `last`.
    rcases (inv_next hi hnext).2.1 with heq | ⟨lh, b, y, hlh, heq, hrule⟩
    · have := congrArg List.length hx
      rw [heq, List.length_append, List.length_singleton] at this
      omega
    · rw [heq] at hx
      cases List.append_cancel_left hx
      rcases hlh with rfl | hnil
      · exact hrule.1 t ht rfl
      · rw [hnil] at ht
        exact absurd ht (Nat.not_lt_zero t)
  · intro p s' hstep
    simp only [step] at hstep
    cases hjob : s.job p with
    | none =>
      rw [hjob] at hstep
      cases hstep
    | some prog =>
      rw [hjob] at hstep
      cases prog with
      | op w k => cases hstep
      | ret a =>
        cases hstep
        exact (hi.finish hjob).1

theorem reachable_of_steps {s s' : Sys P} (as : List (SAct P)) (h : s.steps as = some (.ok s')) :
    Relation.ReflTransGen Next s s' := by
  induction as generalizing s with
  | nil =>
    cases h
    exact Relation.ReflTransGen.refl
  | cons a as ih =>
    simp only [steps] at h
    cases hstep : s.step a with
    | none =>
      rw [hstep] at h
      cases h
    | some x =>
      rw [hstep] at h
      cases x with
      | error e => cases h
      | ok t => exact Relation.ReflTransGen.head ⟨a, hstep⟩ (ih h)

/-- A block is logged and let go, and another process reads a block. The logged
    block's buffer has nobody using it and one reference. -/
theorem uncommitted_stay_cached_unused :
    ∃ s : Sys Bool, (init Bool (fun _ => Block.zero) 2 30).steps
      [.beginOp true, .client true (.bget 50), .client true (.acquire 0),
        .client true (.store 0 fun b => b.setU32 0 7), .client true (.logWrite 0),
        .client true (.unlock 0), .client true (.unref 0), .client false (.bget 51)] =
        some (.ok s) ∧ s.dev.log.lh = [50] ∧ s.users 0 = 0 ∧
      ∃ i, s.dev.Has i 50 ∧ (s.dev.buf i).refcnt = s.users i + 1 := by
  have hrun : ∃ s : Sys Bool, (init Bool (fun _ => Block.zero) 2 30).steps
      [.beginOp true, .client true (.bget 50), .client true (.acquire 0),
        .client true (.store 0 fun b => b.setU32 0 7), .client true (.logWrite 0),
        .client true (.unlock 0), .client true (.unref 0), .client false (.bget 51)] =
        some (.ok s) ∧ s.dev.log.lh = [50] ∧ s.users 0 = 0 ∧ s.pins 50 = 1 :=
    ⟨_, rfl, rfl, rfl, rfl⟩
  obtain ⟨s, hsteps, hlh, husers, hpin⟩ := hrun
  refine ⟨s, hsteps, hlh, husers, ?_⟩
  obtain ⟨i, hhas, -, href⟩ :=
    (uncommitted_stay_cached (reachable_of_steps _ hsteps)).2.2.2.2.1 50 hpin
  exact ⟨i, hhas, href⟩

end Xv6.Sys
