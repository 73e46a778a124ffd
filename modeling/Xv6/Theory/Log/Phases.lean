import Xv6.Theory.Bio.Clients
import Xv6.Theory.Log.Commit

/-!
# The Two Phases of a Transaction

While operations are running, exactly the logged blocks are pinned, and the view shows of
them what was last logged, unless a holder is changing the block again (`Gathering`). When
the last operation ends nobody is, so the commit keeps to the rules (`ok_commit`). From
then on the rules hold of what is left to run, whatever readers do in the meantime
(`Committing`).

## Theorems

* `Sys.Committing.step`, `Sys.ok_commitRules`
-/

namespace Xv6

open Function (update update_self update_of_ne)
open Bool (toNat_false toNat_true)
open Option (any_none any_some isSome_some map_none map_some)

theorem Quiet.pin {v : View} {pins : List Nat} (hv : Quiet v pins) {b : Nat} (hb : b ∉ pins)
    (l : Log) : Quiet { v.pin b with log := l } (pins ++ [b]) := by
  refine ⟨hv.held, hv.want, hv.drop, fun c => ?_⟩
  simp only [View.pin]
  by_cases hcb : c = b
  · rw [hcb, update_self, hv.refs, if_neg hb,
      if_pos (List.mem_append_right _ (List.mem_singleton.mpr rfl))]
  · rw [update_of_ne hcb, hv.refs]
    simp only [List.mem_append, List.mem_singleton, hcb, or_false]

namespace Sys

variable {P : Type} [DecidableEq P] [Fintype P]

/-- The operations are gathering a transaction: exactly the logged blocks are
    pinned, and they show what was last logged unless a holder is changing them. -/
structure Gathering (s : Sys P) (v : View) : Prop where
  modes : ∀ q, s.mode q ≠ .committing
  jobs : ∀ q, s.job q = none
  quiet : Quiet v s.dev.log.lh
  nodup : s.dev.log.lh.Nodup
  latest : ∀ b ∈ s.dev.log.lh, (∀ i, s.dev.Has i b → s.dirty i = false) → v.view b = s.last b

/-- What a commit of the blocks `lh` may write, unpin and record. -/
def commitRules (start : Nat) (lh : List Nat) (last : Nat → Block) : View.Rules :=
  { stop := fun _ => True
    write := fun b x => (∀ t (ht : t < lh.length), b = start + 1 + t → x = last lh[t]) ∧
      (b ∈ lh → x = last b)
    unpin := fun b x => b ∈ lh ∧ x = last b
    log := fun l => l.lh = [] ∧ l.committing = true }

/-- Process `p` is committing the blocks `lh` and has `prog` left to run. -/
structure Committing (s : Sys P) (p : P) (lh : List Nat) (prog : BProg Unit) (v : View) : Prop where
  mode : s.mode p = .committing
  job : s.job p = some prog
  jobs : ∀ q, q ≠ p → s.job q = none
  nodup : lh.Nodup
  header : s.dev.log.lh = lh ∨ s.dev.log.lh = []
  ok : View.Ok (commitRules s.dev.log.start lh s.last) prog
    (fun _ v' => Quiet v' [] ∧ v'.log.lh = []) v
  pins : ∀ b, s.pins b = 0 ∨ (s.pins b = 1 ∧ b ∈ lh)
  installed : ∀ b ∈ lh, s.pins b = 1 ∨ s.dev.disk b = s.last b

namespace Committing

variable {s : Sys P} {p : P} {u : Others} {v : View} {lh : List Nat}

theorem advance {prog prog' : BProg Unit} {s' : Sys P} {v' : View} (hk : Committing s p lh prog v)
    (hmode : s'.mode = s.mode) (hjob : s'.job = update s.job p (some prog'))
    (hlast : s'.last = s.last)
    (hlog : s'.dev.log = s.dev.log ∨ s'.dev.log = { s.dev.log with lh := [] })
    (hpins : ∀ b, s'.pins b = 0 ∨ (s'.pins b = 1 ∧ b ∈ lh))
    (hinstalled : ∀ b ∈ lh, s'.pins b = 1 ∨ s'.dev.disk b = s.last b)
    (hok : View.Ok (commitRules s.dev.log.start lh s.last) prog'
      (fun _ v' => Quiet v' [] ∧ v'.log.lh = []) v') : Committing s' p lh prog' v' := by
  have hstart : s'.dev.log.start = s.dev.log.start := by
    rcases hlog with h | h <;> rw [h]
  exact
    { mode := by rw [hmode, hk.mode]
      job := by rw [hjob, update_self]
      jobs := fun q hq => by rw [hjob, update_of_ne hq, hk.jobs q hq]
      nodup := hk.nodup
      header := by
        rcases hlog with h | h
        · rw [h]
          exact hk.header
        · rw [h]
          exact .inr rfl
      ok := by rwa [hstart, hlast]
      pins := hpins
      installed := by rwa [hlast] }

section Balance

variable {v : View} {b : Nat} {i : Fin NBUF}

theorem own_bget (hwant : v.want = none) (c : Nat) :
    (v.bget b i).own c = v.own c + if c = b then 1 else 0 := by
  simp only [View.own, View.bget, hwant, any_none, any_some, toNat_false]
  by_cases hcb : c = b
  · simp only [hcb, beq_self_eq_true, toNat_true, if_true]
    omega
  · rw [beq_eq_false_iff_ne.mpr (Ne.symm hcb), if_neg hcb]
    rfl

theorem own_acquire (hwant : v.want = some (b, i)) (hb : v.held b = none) (c : Nat) :
    (v.acquire b i).own c = v.own c := by
  simp only [View.own, View.acquire, hwant, any_none, any_some, toNat_false]
  by_cases hcb : c = b
  · simp only [hcb, update_self, hb, isSome_some, Option.isSome_none,
      beq_self_eq_true, toNat_true, toNat_false]
  · rw [update_of_ne hcb, beq_eq_false_iff_ne.mpr (Ne.symm hcb)]
    rfl

theorem own_unlock (hb : v.held b = some i) (hdrop : v.drop = none) (c : Nat) :
    (v.unlock b i).own c = v.own c := by
  simp only [View.own, View.unlock, hdrop, any_none, any_some, toNat_false]
  by_cases hcb : c = b
  · simp only [hcb, update_self, hb, isSome_some, Option.isSome_none,
      beq_self_eq_true, toNat_true, toNat_false]
    omega
  · rw [update_of_ne hcb, beq_eq_false_iff_ne.mpr (Ne.symm hcb)]
    rfl

theorem own_unref (hdrop : v.drop = some (b, i)) (c : Nat) :
    (v.unref b).own c + (if c = b then 1 else 0) = v.own c := by
  simp only [View.own, View.unref, hdrop, any_none, any_some, toNat_false]
  by_cases hcb : c = b
  · simp only [hcb, beq_self_eq_true, toNat_true, if_true]
  · rw [beq_eq_false_iff_ne.mpr (Ne.symm hcb), if_neg hcb]
    rfl

theorem own_held (hb : v.held b = some i) (hwant : v.want = none) (hdrop : v.drop = none) :
    v.own b = 1 := by
  simp only [View.own, hb, hwant, hdrop, any_none, isSome_some, toNat_true, toNat_false]

end Balance

/-- One piece of the commit. The sections of `begin_op`, `end_op` and `log_write`
    are no pieces of it, and would have stopped here if they were. -/
theorem step {o : BOp} {k : o.Ret → BProg Unit} {r : o.Ret} {d : Dev P}
    (hk : Committing s p lh (.op o k) v) (hs : Shares s (some p) u v)
    (hclean : ∀ i, s.dirty i = false) (hcommitting : s.dev.log.committing = true)
    (hout : s.dev.log.outstanding = 0) (hrun : Dev.handle p o s.dev = .ok (r, d)) :
    ∃ v', Shares { s.note p d o r with job := update s.job p (some (k r)) } (some p) u v' ∧
      Committing { s.note p d o r with job := update s.job p (some (k r)) } p lh (k r) v' ∧
      (d.log = s.dev.log ∨ d.log = { s.dev.log with lh := [] }) ∧
      Wrote1 (commitRules s.dev.log.start lh s.last) s.dev d := by
  have hc := hs.cached
  have hok := hk.ok
  -- What the piece did to the device is what it did to the view.
  have hview : ∀ {f : o.Ret → View},
      v.OpOk (commitRules s.dev.log.start lh s.last) o (fun r v' => v' = f r) →
      Cached (some p) u d (f r) ∧ Wrote1 (commitRules s.dev.log.start lh s.last) s.dev d ∧
        ((f r).log = v.log → d.log = s.dev.log) := by
    intro f hf
    rcases hc.step hf with ⟨r', d', v', hrun', hc', hw, rfl⟩ | ⟨e, hrun', -⟩
    · rw [hrun] at hrun'
      cases hrun'
      exact ⟨hc', hw, fun heq => (hc'.log.trans heq).trans hc.log.symm⟩
    · rw [hrun] at hrun'
      cases hrun'
  have hdisk : ∀ {v'}, Cached (some p) u d v' → v'.disk = v.disk →
      ∀ b ∈ lh, s.pins b = 1 ∨ d.disk b = s.last b := by
    intro v' hc' heq b hb
    rw [hc'.disk, heq, ← hc.disk]
    exact hk.installed b hb
  cases o with
  | bget b =>
    obtain ⟨hwant, hb, hr, hrest⟩ := hok
    obtain ⟨hc', hw, hlog⟩ := hview (f := fun i => v.bget b i) ⟨hwant, hb, hr, fun i => rfl⟩
    refine ⟨v.bget b r, hs.ownStep hclean hc' rfl ?_ (fun _ _ => rfl) ?_ ?_,
      hk.advance rfl rfl rfl (.inl (hlog rfl)) hk.pins (hdisk hc' rfl) (hrest r),
      .inl (hlog rfl), hw⟩
    · exact fun q hq => by simp only [note, update_of_ne hq]
    · refine ⟨?_, (hs.points p rfl).2⟩
      simp only [note, update_self, View.bget, map_some]
    · intro c
      have := hs.balance c
      rw [own_bget hwant]
      simp only [View.bget]
      by_cases hcb : c = b
      · rw [hcb] at this
        rw [hcb, update_self, if_pos rfl]
        push_cast
        simp only [note]
        omega
      · rw [update_of_ne hcb, if_neg hcb]
        exact this
  | acquire i =>
    obtain ⟨b, hwant, hb, hrest⟩ := hok
    obtain ⟨hc', hw, hlog⟩ := hview (f := fun _ => v.acquire b i) ⟨b, hwant, hb, rfl⟩
    refine ⟨v.acquire b i, hs.ownStep hclean hc' rfl ?_ (fun _ _ => rfl) ?_ ?_,
      hk.advance rfl rfl rfl (.inl (hlog rfl)) hk.pins (hdisk hc' rfl) hrest, .inl (hlog rfl), hw⟩
    · exact fun q hq => by simp only [note, update_of_ne hq]
    · refine ⟨?_, (hs.points p rfl).2⟩
      simp only [note, update_self, View.acquire, map_none]
    · intro c
      rw [own_acquire hwant hb]
      exact hs.balance c
  | load i =>
    obtain ⟨b, hheld, hrest⟩ := hok
    obtain ⟨hc', hw, hlog⟩ := hview (f := fun _ => v) ⟨b, hheld, rfl⟩
    have hr : r = v.view b := by
      rcases hc.step (ρ := commitRules s.dev.log.start lh s.last)
        (K := fun r _ => r = v.view b) (o := .load i) ⟨b, hheld, rfl⟩ with
        ⟨r', d', v', hrun', -, -, rfl⟩ | ⟨e, hrun', -⟩
      · rw [hrun] at hrun'
        cases hrun'
        rfl
      · rw [hrun] at hrun'
        cases hrun'
    exact ⟨v, hs.ownStep hclean hc' rfl (fun _ _ => rfl) (fun _ _ => rfl) (hs.points p rfl)
      hs.balance, hk.advance rfl rfl rfl (.inl (hlog rfl)) hk.pins (hdisk hc' rfl) (hr ▸ hrest),
      .inl (hlog rfl), hw⟩
  | store i f =>
    obtain ⟨b, hheld, hrest⟩ := hok
    obtain ⟨hc', hw, hlog⟩ := hview (f := fun _ => v.store b f) ⟨b, hheld, rfl⟩
    exact ⟨v.store b f, hs.ownStep hclean hc' rfl (fun _ _ => rfl) (fun _ _ => rfl)
      (hs.points p rfl) hs.balance,
      hk.advance rfl rfl rfl (.inl (hlog rfl)) hk.pins (hdisk hc' rfl) hrest, .inl (hlog rfl), hw⟩
  | bwrite i =>
    obtain ⟨b, hheld, hwrite, hrest⟩ := hok
    obtain ⟨hc', hw, hlog⟩ := hview (f := fun _ => v.write b) ⟨b, hheld, hwrite, rfl⟩
    refine ⟨v.write b, hs.ownStep hclean hc' rfl (fun _ _ => rfl) (fun _ _ => rfl)
      (hs.points p rfl) hs.balance,
      hk.advance rfl rfl rfl (.inl (hlog rfl)) hk.pins ?_ hrest, .inl (hlog rfl), hw⟩
    intro c hclh
    simp only [note]
    rw [hc'.disk]
    simp only [View.write]
    -- A home block is only ever written with what was last logged for it.
    by_cases hcb : c = b
    · rw [hcb, update_self]
      exact .inr (hwrite.2 (hcb ▸ hclh))
    · rw [update_of_ne hcb, ← hc.disk]
      exact hk.installed c hclh
  | unlock i =>
    obtain ⟨b, hheld, hdrop, hrest⟩ := hok
    obtain ⟨hc', hw, hlog⟩ := hview (f := fun _ => v.unlock b i) ⟨b, hheld, hdrop, rfl⟩
    refine ⟨v.unlock b i, hs.ownStep hclean hc' rfl (fun _ _ => rfl) ?_ ?_ ?_,
      hk.advance rfl rfl rfl (.inl (hlog rfl)) hk.pins (hdisk hc' rfl) hrest, .inl (hlog rfl), hw⟩
    · exact fun q hq => by simp only [note, update_of_ne hq]
    · refine ⟨(hs.points p rfl).1, ?_⟩
      simp only [note, update_self, View.unlock, map_some]
    · intro c
      rw [own_unlock hheld hdrop]
      exact hs.balance c
  | unref i =>
    obtain ⟨b, hdrop, hb, hwant, hlast, hrest⟩ := hok
    obtain ⟨hc', hw, hlog⟩ := hview (f := fun _ => v.unref b) ⟨b, hdrop, hb, hwant, hlast, rfl⟩
    refine ⟨v.unref b, hs.ownStep hclean hc' rfl (fun _ _ => rfl) ?_ ?_ ?_,
      hk.advance rfl rfl rfl (.inl (hlog rfl)) hk.pins (hdisk hc' rfl) hrest, .inl (hlog rfl), hw⟩
    · exact fun q hq => by simp only [note, update_of_ne hq]
    · refine ⟨(hs.points p rfl).1, ?_⟩
      simp only [note, update_self, View.unref, map_none]
    · intro c
      have := hs.balance c
      have hown := own_unref hdrop c
      have hpos := hc.kept b i (.inr (.inr hdrop))
      simp only [View.unref, note] at hown ⊢
      by_cases hcb : c = b
      · rw [hcb, if_pos rfl] at hown
        rw [hcb] at this ⊢
        rw [update_self]
        omega
      · rw [if_neg hcb] at hown
        rw [update_of_ne hcb]
        omega
  | bunpin i =>
    obtain ⟨b, hheld, hwant, hdrop, hmore, hunpin, hrest⟩ := hok
    obtain ⟨hc', hw, hlog⟩ :=
      hview (f := fun _ => v.unpin b) ⟨b, hheld, hwant, hdrop, hmore, hunpin, rfl⟩
    have hi : (s.dev.buf i).blockno = b := (hc.holds b i hheld).1.2
    have hbal := hs.balance b
    rw [own_held hheld hwant hdrop] at hbal
    have hpin : s.pins b = 1 := by
      rcases hk.pins b with h | h
      · omega
      · exact h.1
    refine ⟨v.unpin b, hs.ownStep hclean hc' rfl (fun _ _ => rfl) (fun _ _ => rfl)
      (hs.points p rfl) ?_, hk.advance rfl rfl rfl (.inl (hlog rfl)) ?_ ?_ hrest,
      .inl (hlog rfl), hw⟩
    · intro c
      have := hs.balance c
      rw [show (v.unpin b).own c = v.own c from rfl]
      simp only [note, hi, View.unpin]
      by_cases hcb : c = b
      · rw [hcb] at this ⊢
        rw [update_self, update_self]
        omega
      · rw [update_of_ne hcb, update_of_ne hcb]
        exact this
    · intro c
      simp only [note, hi]
      by_cases hcb : c = b
      · rw [hcb, update_self, hpin]
        exact .inl rfl
      · rw [update_of_ne hcb]
        exact hk.pins c
    · intro c hclh
      simp only [note, hi]
      rw [hc'.disk]
      by_cases hcb : c = b
      · rw [hcb]
        exact .inr hunpin.2
      · rw [update_of_ne hcb]
        rcases hk.installed c hclh with h | h
        · exact .inl h
        · rw [hc.disk] at h
          exact .inr h
  | getLog =>
    obtain ⟨hc', hw, hlog⟩ := hview (f := fun _ => v) rfl
    cases hrun
    exact ⟨v, hs.ownStep hclean hc' rfl (fun _ _ => rfl) (fun _ _ => rfl) (hs.points p rfl)
      hs.balance, hk.advance rfl rfl rfl (.inl (hlog rfl)) hk.pins (hdisk hc' rfl) (hc.log ▸ hok),
      .inl (hlog rfl), hw⟩
  | setLh lh' =>
    obtain ⟨hrule, hrest⟩ := hok
    rcases hview (f := fun _ => { v with log := { v.log with lh := lh' } }) ⟨hrule, rfl⟩ with
      ⟨hc', hw, -⟩
    have hlog : d.log = { s.dev.log with lh := [] } := by
      rw [hc'.log, hc.log, ← hrule.1]
    exact ⟨_, hs.ownStep hclean hc' rfl (fun _ _ => rfl) (fun _ _ => rfl) (hs.points p rfl)
      hs.balance, hk.advance rfl rfl rfl (.inr hlog) hk.pins (hdisk hc' rfl) hrest,
      .inr hlog, hw⟩
  | beginOp =>
    obtain ⟨l, hl, -⟩ := hok
    rw [← hc.log] at hl
    simp only [Log.beginOp, hcommitting, if_true, reduceCtorEq] at hl
  | endOp => simp only [Dev.handle, Log.endOp, hcommitting, if_true, reduceCtorEq] at hrun
  | finish => exact absurd hok.1.2 Bool.false_ne_true
  | logWrite i => grind [Log.logWrite, Dev.handle]

end Committing

theorem ok_commitRules {v : View} {last : Nat → Block} (hv : Quiet v v.log.lh)
    (hnodup : v.log.lh.Nodup)
    (hclean : ∀ b, b ∉ v.log.lh → v.view b = v.disk b) (hlatest : ∀ b ∈ v.log.lh, v.view b = last b)
    (hhome : ∀ b ∈ v.log.lh, b < v.log.start ∨ v.log.start + v.log.size ≤ b)
    (hroom : v.log.lh = [] ∨ v.log.lh.length < v.log.size) (hflag : v.log.committing = true) :
    View.Ok (commitRules v.log.start v.log.lh last) commit
      (fun _ v' => Quiet v' [] ∧ v'.log.lh = []) v := by
  by_cases hne : v.log.lh = []
  · refine View.ok_bind (View.ok_getLog ?_)
    rw [hne] at hv ⊢
    exact ⟨hv, hne⟩
  have hlen := hroom.resolve_left hne
  have hzip : ∀ w ∈ v.log.lh.zip (v.log.lh.map v.view), w.1 ∈ v.log.lh ∧ w.2 = last w.1 := by
    intro w hw
    obtain ⟨k, hk, rfl⟩ := List.mem_iff_getElem.mp hw
    rw [List.getElem_zip, List.getElem_map]
    exact ⟨List.getElem_mem _, hlatest _ (List.getElem_mem _)⟩
  refine ok_commit hv hclean ⟨hnodup, fun k hk hin => ?_⟩ hne (fun _ => trivial) ?_
    hzip ⟨rfl, hflag⟩ fun v' h1 h2 _ _ => ⟨h1, by rw [h2]⟩
  · have := hhome _ hin
    omega
  · intro w hw
    unfold commitWrites at hw
    rw [List.mem_append, List.mem_cons, List.mem_append, List.mem_singleton] at hw
    -- A write is to a log block, to the header, to a home, or to the header again.
    rcases hw with hw | rfl | hw | rfl
    · obtain ⟨k, hk, rfl⟩ := eq_of_mem_logWrites hw
      rw [List.length_map] at hk
      refine ⟨fun t ht h => ?_, fun h => ?_⟩
      · have hkt : k = t := by
          simp only at h
          omega
        subst hkt
        rw [List.getElem_map]
        exact hlatest _ (List.getElem_mem _)
      · have := hhome _ h
        simp only at this
        omega
    · exact ⟨fun t _ h => by simp only at h; omega, fun h => by
        have := hhome _ h
        simp only at this
        omega⟩
    · obtain ⟨hin, hx⟩ := hzip w hw
      refine ⟨fun t ht h => ?_, fun _ => hx⟩
      have := hhome _ hin
      omega
    · exact ⟨fun t _ h => by simp only at h; omega, fun h => by
        have := hhome _ h
        simp only at this
        omega⟩

end Sys

end Xv6
