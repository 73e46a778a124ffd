import Xv6.Theory.Log.Phases
import Xv6.Theory.Log.Ops

/-!
# Processes and the Log

The invariant of processes that share a cache and a log, and the steps that have
to do with the log: entering and leaving an operation, and committing. The
processes inside operations are counted by the machine of `Core.Log`, which this
one follows. So `Theory.Log.Ops` says when nobody is left inside.

## Theorems

* `Sys.Inv.last`, `Sys.Inv.finish`, `Sys.Inv.commit`
-/

namespace Xv6.Sys

open Function (update update_self update_of_ne)

variable {P : Type} [DecidableEq P] [Fintype P]

/-- The machine of `Core.Log` in the same position. It keeps its header until a
    commit is over. -/
structure Follows (s : Sys P) (o : Ops P) : Prop where
  inv : o.Inv
  mode : o.mode = s.mode
  log : s.dev.log = { o.log with lh := s.dev.log.lh }
  header : (∀ q, s.mode q ≠ .committing) → o.log.lh = s.dev.log.lh

/-- The logged blocks are outside the log, and the log has room for them. -/
structure Homes (s : Sys P) : Prop where
  home : ∀ b ∈ s.dev.log.lh, s.home b = true
  room : s.dev.log.lh = [] ∨ s.dev.log.lh.length < s.dev.log.size

/-- Where the transaction is. -/
def Phase (s : Sys P) : Option P → View → Prop
  | none, v => Gathering s v
  | some p, v => ∃ lh prog, Committing s p lh prog v

/-- The invariant of processes sharing the cache and the log. -/
structure Inv (s : Sys P) (c : Option P) (u : Others) (v : View) (o : Ops P) : Prop where
  shares : Shares s c u v
  follows : Follows s o
  homes : Homes s
  phase : Phase s c v

theorem dev_note (s : Sys P) (p : P) (d : Dev P) (w : BOp) (r : w.Ret) :
    (s.note p d w r).dev = d := by
  cases w <;> rfl

theorem mode_note (s : Sys P) (p : P) (d : Dev P) (w : BOp) (r : w.Ret) :
    (s.note p d w r).mode = s.mode := by
  cases w <;> rfl

section Steps

variable {s : Sys P} {c : Option P} {u : Others} {v : View} {o : Ops P} {p q : P}

namespace Follows

section

variable (hf : Follows s o)

include hf

theorem log_eq (hno : ∀ q, s.mode q ≠ .committing) : o.log = s.dev.log := by
  rw [hf.log, ← hf.header hno]

theorem committing_eq : o.log.committing = s.dev.log.committing := by rw [hf.log]

theorem outstanding_eq : o.log.outstanding = s.dev.log.outstanding := by
  rw [hf.log]

theorem no_committer (h : s.dev.log.committing = false) :
    ∀ q, s.mode q ≠ .committing := by
  intro q hq
  exact hf.inv.no_committer (hf.committing_eq.trans h) q (.inl (by rw [hf.mode, hq]))

theorem no_committer_of_inOp (hp : s.mode p = .inOp) :
    ∀ q, s.mode q ≠ .committing :=
  hf.no_committer (hf.committing_eq.symm.trans (hf.inv.not_committing (by rw [hf.mode, hp])))

theorem committer (hp : s.mode p = .committing) :
    s.dev.log.committing = true ∧ s.dev.log.outstanding = 0 ∧ ∀ q, s.mode q ≠ .inOp := by
  have hflag := hf.inv.flagged p (.inl (by rw [hf.mode, hp]))
  refine ⟨hf.committing_eq.symm.trans hflag, hf.outstanding_eq.symm.trans (hf.inv.quiet hflag), ?_⟩
  intro q hq
  exact hf.no_committer_of_inOp hq p hp

end

end Follows

theorem Inv.gathering (hi : Inv s c u v o) (hp : s.mode p = .inOp) : c = none ∧ Gathering s v := by
  cases c with
  | none => exact ⟨rfl, hi.phase⟩
  | some r =>
    obtain ⟨lh, prog, hk⟩ := hi.phase
    exact absurd hk.mode (hi.follows.no_committer_of_inOp hp r)

theorem Inv.not_committer (hi : Inv s c u v o) (hp : s.mode p ≠ .committing) : c ≠ some p := by
  rintro rfl
  obtain ⟨lh, prog, hk⟩ := hi.phase
  exact hp hk.mode

theorem Inv.clean (hi : Inv s (some p) u v o) (i : Fin NBUF) : s.dirty i = false := by
  by_contra h
  rw [Bool.not_eq_false] at h
  obtain ⟨-, q, -, hq⟩ := hi.shares.changing i h
  cases (hi.gathering hq).1

variable {m : P → Mode} {o' : Ops P} {l : Log}

theorem Inv.remode (hi : Inv s c u v o) (hmode : o'.mode = m)
    (hlog : o'.log = o.log) (hinv : o'.Inv) (hin : ∀ q, s.mode q = .inOp → m q = .inOp)
    (hcommit : ∀ q, m q = .committing ↔ s.mode q = .committing) :
    Inv { s with mode := m } c u v o' := by
  have hphase : Phase { s with mode := m } c v := by
    cases c with
    | none =>
      have hg : Gathering s v := hi.phase
      exact { hg with modes := fun q hq => hg.modes q ((hcommit q).mp hq) }
    | some p =>
      obtain ⟨lh, prog, hk⟩ := hi.phase
      exact ⟨lh, prog, { hk with mode := (hcommit p).mpr hk.mode }⟩
  exact
    { shares :=
        { hi.shares with
          changing := fun i hd => by
            obtain ⟨hlocked, q, hlock, hq⟩ := hi.shares.changing i hd
            exact ⟨hlocked, q, hlock, hin q hq⟩ }
      follows :=
        { inv := hinv
          mode := hmode
          log := by rw [hlog]; exact hi.follows.log
          header := fun h => by
            rw [hlog]
            exact hi.follows.header fun q hq => h q ((hcommit q).mpr hq) }
      homes := ⟨hi.homes.home, hi.homes.room⟩
      phase := hphase }

/-- Only the count of operations in the log record changes. -/
structure SameLog (l l' : Log) : Prop where
  start : l'.start = l.start
  size : l'.size = l.size
  lh : l'.lh = l.lh

theorem Homes.relog (hh : Homes s) {s' : Sys P} (h : SameLog s.dev.log s'.dev.log) : Homes s' := by
  refine ⟨fun b hb => ?_, ?_⟩
  · rw [h.lh] at hb
    have := hh.home b hb
    simp only [Sys.home, h.start, h.size] at this ⊢
    exact this
  · rw [h.lh, h.size]
    exact hh.room

theorem Inv.relog (hi : Inv s none u v o)
    (hl : SameLog s.dev.log l) (hmode : o'.mode = m) (hlog : o'.log = l) (hinv : o'.Inv)
    (hin : ∀ q, s.mode q = .inOp → (∃ i, s.dirty i = true ∧ (s.dev.buf i).lock = some q) →
      m q = .inOp) (hno : ∀ q, m q ≠ .committing) :
    Inv { s.setLog l with mode := m } none u { v with log := l } o' := by
  have hg : Gathering s v := hi.phase
  exact
    { shares := hi.shares.relog l hin
      follows :=
        { inv := hinv
          mode := hmode
          log := by simp only [setLog, hlog]
          header := fun _ => by simp only [setLog, hlog] }
      homes := hi.homes.relog hl
      phase :=
        { modes := hno
          jobs := hg.jobs
          quiet := by
            simp only [setLog, hl.lh]
            exact ⟨hg.quiet.held, hg.quiet.want, hg.quiet.drop, hg.quiet.refs⟩
          nodup := by
            simp only [setLog, hl.lh]
            exact hg.nodup
          latest := by
            simp only [setLog, hl.lh]
            exact hg.latest } }

theorem Inv.enter (hi : Inv s c u v o) (hp : s.mode p = .idle ∨ s.mode p = .awake)
    (hl : s.dev.log.beginOp = some l) :
    ∃ u' v' o', Inv { s.setLog l with mode := update s.mode p .inOp } none u' v' o' := by
  simp only [Log.beginOp] at hl
  split_ifs at hl with hc hroom
  cases hl
  rw [Bool.not_eq_true] at hc
  have hno := hi.follows.no_committer hc
  have hlog := hi.follows.log_eq hno
  have hnone : c = none := by
    cases c with
    | none => rfl
    | some r =>
      obtain ⟨lh, prog, hk⟩ := hi.phase
      exact absurd hk.mode (hno r)
  subst hnone
  have hmove := Ops.Move.enter (s := o) p (by rwa [hi.follows.mode]) (by rw [hlog, hc])
    (by rw [hlog]; omega)
  refine ⟨u, _, _, hi.relog ⟨rfl, rfl, rfl⟩ ?_ ?_ (Ops.inv_move hi.follows.inv hmove) ?_ ?_⟩
  · simp only [hi.follows.mode]
  · simp only [hlog]
  · intro q hq _
    by_cases hqp : q = p
    · rw [hqp, update_self]
    · rwa [update_of_ne hqp]
  · intro q
    by_cases hqp : q = p
    · rw [hqp, update_self]
      decide
    · rw [update_of_ne hqp]
      exact hno q

theorem Inv.sleep (hi : Inv s c u v o) (hp : s.mode p = .idle ∨ s.mode p = .awake)
    (hl : s.dev.log.beginOp = none) :
    ∃ o', Inv { s with mode := update s.mode p .asleep } c u v o' := by
  have hnot : s.mode p ≠ .inOp ∧ s.mode p ≠ .committing := by
    rcases hp with h | h <;> rw [h] <;> decide
  have hwait : o.log.committing = true ∨
      (LOGSIZE : Int) < o.log.lh.length + (o.log.outstanding + 1) * MAXOPBLOCKS := by
    simp only [Log.beginOp] at hl
    split_ifs at hl with hc hroom
    · exact .inl (hi.follows.committing_eq.trans hc)
    · rw [Bool.not_eq_true] at hc
      rw [hi.follows.log_eq (hi.follows.no_committer hc)]
      exact .inr (by omega)
  have hmove := Ops.Move.sleep (s := o) p (by rwa [hi.follows.mode]) hwait
  refine ⟨_, hi.remode ?_ ?_ (Ops.inv_move hi.follows.inv hmove) ?_ ?_⟩
  · simp only [hi.follows.mode]
  · rfl
  · intro q hq
    have hqp : q ≠ p := fun h => hnot.1 (h ▸ hq)
    rwa [update_of_ne hqp]
  · grind [Function.update_apply]

theorem Inv.wake (hi : Inv s c u v o) (hp : s.mode p = .asleep) :
    ∃ o', Inv { s with mode := update s.mode p .awake } c u v o' := by
  have hmove := Ops.Move.wake (s := o) p (by rw [hi.follows.mode, hp])
  refine ⟨_, hi.remode ?_ ?_ (Ops.inv_move hi.follows.inv hmove) ?_ ?_⟩
  · simp only [hi.follows.mode]
  · rfl
  · intro q hq
    have hqp : q ≠ p := by
      rintro rfl
      rw [hp] at hq
      cases hq
    rwa [update_of_ne hqp]
  · grind [Function.update_apply]

theorem settled_iff (s : Sys P) (p : P) : s.settled p = true ↔ s.want p = none ∧ s.drop p = none ∧
    ∀ i, (s.dev.buf i).lock = some p → s.dirty i = false := by
  simp only [settled, decide_eq_true_eq]

theorem Inv.leave (hi : Inv s c u v o) (hp : s.mode p = .inOp) (hset : s.settled p = true)
    (hl : s.dev.log.endOp = .ok (l, false)) :
    ∃ u' v' o', Inv { s.setLog l with
      mode := Ops.wakeup (update s.mode p .idle) } none u' v' o' := by
  obtain ⟨rfl, hg⟩ := hi.gathering hp
  have hlog := hi.follows.log_eq hg.modes
  simp only [Log.endOp] at hl
  split_ifs at hl with hc hout
  · cases hl
  cases hl
  rw [Bool.not_eq_true] at hc
  have hmove := Ops.Move.leave (s := o) p (by rw [hi.follows.mode, hp]) (by rw [hlog, hc])
    (by rw [hlog]; exact hout)
  refine ⟨u, _, _, hi.relog ⟨rfl, rfl, rfl⟩ ?_ ?_ (Ops.inv_move hi.follows.inv hmove) ?_ ?_⟩
  · simp only [hi.follows.mode]
  · simp only [hlog]
  · -- The process that leaves has no changed buffer.
    rintro q hq ⟨i, hdirty, hlock⟩
    have hqp : q ≠ p := by
      rintro rfl
      rw [((s.settled_iff q).mp hset).2.2 i hlock] at hdirty
      cases hdirty
    rw [Ops.wakeup_eq_iff _ _ _ (by decide) (by decide), update_of_ne hqp, hq]
  · intro q hq
    rw [Ops.wakeup_eq_iff _ _ _ (by decide) (by decide)] at hq
    by_cases hqp : q = p
    · rw [hqp, update_self] at hq
      cases hq
    · rw [update_of_ne hqp] at hq
      exact hg.modes q hq

theorem waiting_commit (hwant : s.want p = none) (hdrop : s.drop p = none) (i : Fin NBUF) :
    waiting s.want s.drop (some p) i = waiting s.want s.drop none i := by
  have hrest : rest (some p) = (rest none).erase p := by
    ext q
    simp only [mem_rest, Finset.mem_erase, ne_eq, Option.some.injEq, reduceCtorEq, not_false_iff,
      and_true, eq_comm]
  have hin : p ∈ rest none := mem_rest.mpr (Option.some_ne_none p).symm
  unfold waiting
  rw [count_erase (f := s.want) hin, count_erase (f := s.drop) hin, hrest, hwant, hdrop]
  simp only [reduceCtorEq, if_false, add_zero]

theorem Shares.handOver (hs : Shares s c u v) {c' : Option P} (hquiet : ∀ b, v.held b = none)
    (hwait : ∀ i, waiting s.want s.drop c' i = waiting s.want s.drop c i)
    (hpoints : ∀ p, c' = some p → s.want p = v.want.map Prod.snd ∧ s.drop p = v.drop.map Prod.snd) :
    Shares s c' u v :=
  { hs with
    cached :=
      { hs.cached with
        holds := fun b i h => by
          rw [hquiet] at h
          cases h }
    locked := fun i h => by rw [hwait, hs.locked i h]
    unlocked := fun i h => by rw [hwait, hs.unlocked i h]
    points := hpoints }

theorem Shares.pins_of_quiet (hs : Shares s c u v) {pins : List Nat} (hv : Quiet v pins) (b : Nat) :
    s.pins b = if b ∈ pins then 1 else 0 := by
  have hown : v.own b = 0 := by
    simp only [View.own, hv.held, hv.want, hv.drop, Option.any_none, Option.isSome_none,
      Bool.toNat_false]
  have := hs.balance b
  rw [hv.refs, hown] at this
  by_cases hb : b ∈ pins
  · rw [if_pos hb] at this ⊢
    omega
  · rw [if_neg hb] at this ⊢
    omega

section

variable (hi : Inv s c u v o)

include hi

theorem Inv.alone (hp : s.mode p = .inOp)
    (hout : s.dev.log.outstanding - 1 = 0) (hq : s.mode q = .inOp) : q = p := by
  have hcount := hi.follows.inv.count
  rw [hi.follows.outstanding_eq] at hcount
  have hcard : (Ops.active o.mode).card ≤ 1 := by omega
  refine Finset.card_le_one.mp hcard q (Ops.mem_active.mpr ?_) p (Ops.mem_active.mpr ?_)
  · rw [hi.follows.mode, hq]
  · rw [hi.follows.mode, hp]

theorem Inv.last (hp : s.mode p = .inOp) (hset : s.settled p = true)
    (hl : s.dev.log.endOp = .ok (l, true)) :
    ∃ u' v' o', Inv { s.setLog l with
      mode := update s.mode p .committing
      job := update s.job p (some Xv6.commit) } (some p) u' v' o' := by
  obtain ⟨rfl, hg⟩ := hi.gathering hp
  have hlog := hi.follows.log_eq hg.modes
  obtain ⟨hwant, hdrop, hdirty⟩ := (s.settled_iff p).mp hset
  simp only [Log.endOp] at hl
  split_ifs at hl with hc hout
  swap
  · cases hl
  cases hl
  rw [Bool.not_eq_true] at hc
  have hmove := Ops.Move.last (s := o) p (by rw [hi.follows.mode, hp]) (by rw [hlog, hc])
    (by rw [hlog]; exact hout)
  -- Whoever was changing a buffer has left, and `p` has logged all it changed.
  have hclean : ∀ i, s.dirty i = false := by
    intro i
    by_contra h
    rw [Bool.not_eq_false] at h
    obtain ⟨-, q, hlock, hq⟩ := hi.shares.changing i h
    rw [hi.alone hp hout hq] at hlock
    rw [hdirty i hlock] at h
    cases h
  have hshares : Shares s (some p) u v := by
    refine hi.shares.handOver hg.quiet.held (waiting_commit hwant hdrop) ?_
    intro q hq
    cases hq
    rw [hwant, hdrop, hg.quiet.want, hg.quiet.drop]
    exact ⟨rfl, rfl⟩
  have hpins := hi.shares.pins_of_quiet hg.quiet
  refine ⟨u, _, _, hshares.relog _ ?_, ⟨Ops.inv_move hi.follows.inv hmove, ?_, ?_, ?_⟩,
    hi.homes.relog ⟨rfl, rfl, rfl⟩, s.dev.log.lh, Xv6.commit, ?_⟩
  · rintro q - ⟨i, h, -⟩
    rw [hclean i] at h
    cases h
  · simp only [hi.follows.mode]
  · simp only [setLog, hlog]
  · intro hno
    exact absurd (update_self p _ s.mode) (hno p)
  · exact
      { mode := update_self p _ s.mode
        job := update_self p _ s.job
        jobs := fun q hq => by
          simp only [update_of_ne hq]
          exact hg.jobs q
        nodup := hg.nodup
        header := .inl rfl
        ok := by
          refine ok_commitRules (v := { v with log := { s.dev.log with
            outstanding := s.dev.log.outstanding - 1, committing := true } }) ?_ hg.nodup ?_ ?_ ?_
            hi.homes.room rfl
          · exact ⟨hg.quiet.held, hg.quiet.want, hg.quiet.drop, hg.quiet.refs⟩
          · grind [hi.shares.cached.clean, hg.quiet.refs, hi.shares.marks]
          · exact fun b hb => hg.latest b hb fun i _ => hclean i
          · intro b hb
            have := hi.homes.home b hb
            simpa only [Sys.home, Bool.or_eq_true, decide_eq_true_eq] using this
        pins := fun b => by
          simp only [setLog]
          rw [hpins]
          by_cases hb : b ∈ s.dev.log.lh
          · rw [if_pos hb]
            exact .inr ⟨rfl, hb⟩
          · rw [if_neg hb]
            exact .inl rfl
        installed := fun b hb => by
          simp only [setLog]
          rw [hpins, if_pos hb]
          exact .inl rfl }

theorem Inv.committing_of_job {prog : BProg Unit} (hjob : s.job p = some prog) :
    ∃ lh, c = some p ∧ Committing s p lh prog v := by
  cases c with
  | none =>
    have hg : Gathering s v := hi.phase
    rw [hg.jobs p] at hjob
    cases hjob
  | some q =>
    obtain ⟨lh, prog', hk⟩ := hi.phase
    by_cases hpq : p = q
    · subst hpq
      rw [hk.job] at hjob
      cases hjob
      exact ⟨lh, rfl, hk⟩
    · rw [hk.jobs p hpq] at hjob
      cases hjob

theorem Inv.finish {a : Unit} (hjob : s.job p = some (.ret a)) :
    (s.dev.log.lh = [] ∧ ∀ b, s.pins b = 0) ∧
    ∃ u' v' o', Inv { s.setLog { s.dev.log with committing := false } with
      mode := Ops.wakeup (update s.mode p .idle)
      job := update s.job p none } none u' v' o' := by
  obtain ⟨lh, rfl, hk⟩ := hi.committing_of_job hjob
  obtain ⟨hquiet, hnil⟩ := hk.ok
  have hlh : s.dev.log.lh = [] := by rw [hi.shares.cached.log, hnil]
  have hpins : ∀ b, s.pins b = 0 := fun b => by
    rw [hi.shares.pins_of_quiet hquiet, if_neg List.not_mem_nil]
  refine ⟨⟨hlh, hpins⟩, ?_⟩
  have hmode : o.mode p = .committing := by rw [hi.follows.mode, hk.mode]
  have hinv1 := Ops.inv_move hi.follows.inv (Ops.Move.commit p hmode)
  have hinv2 := Ops.inv_move hinv1 (Ops.Move.finish p (update_self p _ o.mode))
  obtain ⟨hwant, hdrop⟩ := hi.shares.points p rfl
  rw [hquiet.want] at hwant
  rw [hquiet.drop] at hdrop
  have hshares : Shares s none u v :=
    hi.shares.handOver hquiet.held (fun i => (waiting_commit hwant hdrop i).symm)
      fun q hq => by cases hq
  have hno : ∀ q, Ops.wakeup (update s.mode p .idle) q ≠ .committing := by
    intro q hq
    rw [Ops.wakeup_eq_iff _ _ _ (by decide) (by decide)] at hq
    by_cases hqp : q = p
    · rw [hqp, update_self] at hq
      cases hq
    · rw [update_of_ne hqp] at hq
      exact hqp (hi.follows.inv.unique q p (.inl (by rw [hi.follows.mode, hq])) (.inl hmode))
  refine ⟨u, _, _, hshares.relog _ ?_, ⟨hinv2, ?_, ?_, ?_⟩, hi.homes.relog ⟨rfl, rfl, rfl⟩, ?_⟩
  · rintro q - ⟨i, h, -⟩
    rw [hi.clean i] at h
    cases h
  · simp only [hi.follows.mode, Function.update_idem]
  · simp only [setLog, hlh]
    rw [hi.follows.log]
  · intro _
    simp only [setLog, hlh]
  · exact
      { modes := hno
        jobs := fun q => by
          by_cases hqp : q = p
          · rw [hqp]
            exact update_self p _ s.job
          · simp only [update_of_ne hqp]
            exact hk.jobs q hqp
        quiet := by
          simp only [setLog, hlh]
          exact ⟨hquiet.held, hquiet.want, hquiet.drop, hquiet.refs⟩
        nodup := by
          simp only [setLog, hlh]
          exact List.nodup_nil
        latest := by
          simp only [setLog, hlh]
          exact fun b hb => absurd hb List.not_mem_nil }

theorem Inv.commit {w : BOp} {k : w.Ret → BProg Unit} {r : w.Ret} {d : Dev P}
    (hjob : s.job p = some (.op w k)) (hrun : Dev.handle p w s.dev = .ok (r, d)) :
    (∃ lh, (s.dev.log.lh = lh ∨ s.dev.log.lh = []) ∧
      Wrote1 (commitRules s.dev.log.start lh s.last) s.dev d) ∧
    ∃ v', Inv { s.note p d w r with job := update s.job p (some (k r)) } c u v' o := by
  obtain ⟨lh, rfl, hk⟩ := hi.committing_of_job hjob
  obtain ⟨hflag, hout, -⟩ := hi.follows.committer hk.mode
  obtain ⟨v', hs', hk', hlog, hw⟩ := hk.step hi.shares hi.clean hflag hout hrun
  have hdev : (s.note p d w r).dev = d := s.dev_note p d w r
  have hmode : (s.note p d w r).mode = s.mode := s.mode_note p d w r
  refine ⟨⟨lh, hk.header, hw⟩, v', hs', ⟨hi.follows.inv, ?_, ?_, ?_⟩, ?_, lh, k r, hk'⟩
  · simp only [hmode, hi.follows.mode]
  · simp only [hdev]
    rcases hlog with h | h
    · rw [h]
      exact hi.follows.log
    · rw [h, hi.follows.log]
  · intro hno
    simp only [hmode] at hno
    exact absurd hk.mode (hno p)
  · rcases hlog with h | h
    · exact hi.homes.relog (by simp only [hdev, h]; exact ⟨rfl, rfl, rfl⟩)
    · refine ⟨fun b hb => ?_, .inl (by simp only [hdev, h])⟩
      simp only [hdev, h] at hb
      exact absurd hb List.not_mem_nil

end

end Steps

end Xv6.Sys
