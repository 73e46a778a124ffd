import Xv6.Theory.Log.Commit

/-!
# Crash Atomicity

A machine that loses power again and again, in the middle of commits and in the
middle of recoveries, and whose home blocks still always come back as some
number of whole transactions left them.

`Recoverable` relates a disk without power to the contents it stands for: the blocks its
header names are found in the log, every other home block in place. Before a commit has
written the header only log blocks change, which a cleared header does not name. From then
on the disk stands for the new contents, and what is left of the commit is word for word a
recovery (`commitWrites_eq`), so one lemma covers crashes of both.

## Theorems

* `crash_atomic`: after recovery a transaction is there in full or not at all
-/

namespace Xv6

open Function (update update_of_ne update_self)
open Prod (fst)

/-- Two memories agree outside the log. -/
def HomeEq (start size : Nat) (m m' : Nat → Block) : Prop :=
  ∀ b, b < start ∨ start + size ≤ b → m b = m' b

/-- The disk stands for `home`: blocks its header names are in the log, the
    others in place. -/
structure Recoverable (start size : Nat) (disk home : Nat → Block) : Prop where
  len : (disk start).head.length < size
  nodup : (disk start).head.Nodup
  out : ∀ b ∈ (disk start).head, b < start ∨ start + size ≤ b
  inPlace : ∀ b, b < start ∨ start + size ≤ b → b ∉ (disk start).head → disk b = home b
  inLog : ∀ k (hk : k < (disk start).head.length), disk (start + 1 + k) = home (disk start).head[k]

theorem recoverable_of_clear {start size : Nat} {disk home : Nat → Block} (hpos : 0 < size)
    (hhead : (disk start).head = []) (hhome : HomeEq start size disk home) :
    Recoverable start size disk home :=
  { len := by
      rw [hhead]
      exact hpos
    nodup := by
      rw [hhead]
      exact List.nodup_nil
    out := fun b hb => by
      rw [hhead] at hb
      exact absurd hb List.not_mem_nil
    inPlace := fun b hb _ => hhome b hb
    inLog := fun k hk => by
      rw [hhead] at hk
      exact absurd hk (Nat.not_lt_zero k) }

theorem head_of_count {b : Block} (h : b.u32 0 = 0) : b.head = [] := by
  unfold Block.head
  rw [h]
  rfl

theorem count_setHead_nil (b : Block) : (b.setHead []).u32 0 = 0 :=
  Block.u32_setU32 (by decide)

section

variable {start size : Nat} {disk home : Nat → Block}

theorem Recoverable.fits (h : Recoverable start size disk home) : Fits start (disk start).head := by
  have hlen := h.len
  refine ⟨h.nodup, fun k hk hin => ?_⟩
  have := h.out _ hin
  omega

variable {f : Nat → Block} {ws : List (Nat × Block)} {lh : List Nat}

theorem mem_homeWrites {a k : Nat} {bs : List Nat} (hk : k < bs.length) :
    (bs[k], f (a + k)) ∈ homeWrites f a bs := by
  induction bs generalizing a k with
  | nil => exact absurd hk (Nat.not_lt_zero k)
  | cons b bs ih =>
    rw [homeWrites]
    cases k with
    | zero => exact List.mem_cons_self
    | succ k => grind

section

variable (h : Recoverable start size disk home)

include h

theorem Recoverable.installed :
    HomeEq start size (replay (homeWrites disk (start + 1) (disk start).head) disk) home := by
  intro b hb
  by_cases hin : b ∈ (disk start).head
  · obtain ⟨k, hk, rfl⟩ := List.getElem_of_mem hin
    rw [replay_of_mem (by rw [homeWrites_fst]; exact h.nodup) (mem_homeWrites hk)]
    exact h.inLog k hk
  · rw [replay_of_notMem (by rw [homeWrites_fst]; exact hin)]
    exact h.inPlace b hb hin

theorem Recoverable.done (hpos : 0 < size) :
    HomeEq start size (replay (recoverWrites start disk) disk) home ∧
      (replay (recoverWrites start disk) disk start).u32 0 = 0 := by
  unfold recoverWrites
  rw [replay_append, replay_cons, replay_nil]
  constructor
  · intro b hb
    rw [update_of_ne (by omega)]
    exact h.installed b hb
  · rw [update_self]
    exact count_setHead_nil _

/-- Writes to the homes the header names, whatever they are, change nothing: the
    header and the log are as they were. -/
theorem Recoverable.installing
    (hws : ∀ c ∈ ws.map fst, c ∈ (disk start).head) :
    Recoverable start size (replay ws disk) home := by
  have hlen := h.len
  have hlog : ∀ c, start ≤ c → c < start + size → replay ws disk c = disk c := by
    intro c h1 h2
    refine replay_of_notMem fun hin => ?_
    have := h.out c (hws c hin)
    omega
  have hhead := hlog start (le_refl _) (by omega)
  refine ⟨?_, ?_, ?_, ?_, ?_⟩
  · rw [hhead]
    exact h.len
  · rw [hhead]
    exact h.nodup
  · rw [hhead]
    exact h.out
  · rw [hhead]
    intro b hb hnot
    rw [replay_of_notMem fun hin => hnot (hws b hin)]
    exact h.inPlace b hb hnot
  · simp only [hhead]
    intro k hk
    rw [hlog _ (by omega) (by omega)]
    exact h.inLog k hk

theorem Recoverable.take (hpos : 0 < size) (k : Nat) :
    Recoverable start size (replay ((recoverWrites start disk).take k) disk) home := by
  rcases Nat.lt_or_ge k (recoverWrites start disk).length with hk | hk
  · -- The header is the last write, so only homes were written.
    refine h.installing fun c hc => ?_
    unfold recoverWrites at hk hc
    rw [List.length_append, List.length_singleton] at hk
    rw [List.take_append_of_le_length (by omega), List.map_take, homeWrites_fst] at hc
    exact List.mem_of_mem_take hc
  · rw [List.take_of_length_le hk]
    have hdone := h.done hpos
    exact recoverable_of_clear hpos (head_of_count hdone.2) hdone.1

end

theorem commitWrites_eq {xs : List Block} (hlen : lh.length = xs.length)
    (hle : lh.length ≤ LOGSIZE) (hnum : ∀ b ∈ lh, b < 2 ^ 32) :
    commitWrites start (disk start) lh xs =
      logWrites (start + 1) xs ++ (start, (disk start).setHead lh) ::
        recoverWrites start (update (replay (logWrites (start + 1) xs) disk) start
          ((disk start).setHead lh)) := by
  unfold commitWrites recoverWrites
  rw [update_self, Block.head_setHead hle hnum]
  rw [homeWrites_eq_zip hlen]
  intro k hk
  rw [update_of_ne (by omega), replay_logWrites hk]

/-- The disk with the copies of `lh` and its header written. -/
def written (start : Nat) (disk f : Nat → Block) (lh : List Nat) : Nat → Block :=
  update (replay (logWrites (start + 1) (lh.map f)) disk) start ((disk start).setHead lh)

theorem recoverable_written {home' : Nat → Block}
    (hhome : HomeEq start size disk home) (hlen : Bounded size lh) (hnd : lh.Nodup)
    (hout : ∀ b ∈ lh, (b < start ∨ start + size ≤ b) ∧ b < 2 ^ 32)
    (hnew : ∀ b ∈ lh, f b = home' b) (hold : ∀ b, b ∉ lh → home' b = home b) :
    Recoverable start size (written start disk f lh) home' := by
  have hlt := hlen.2
  have hhead : (written start disk f lh start).head = lh := by
    unfold written
    rw [update_self, Block.head_setHead hlen.1 fun b hb => (hout b hb).2]
  refine ⟨?_, ?_, ?_, ?_, ?_⟩
  · rw [hhead]
    exact hlen.2
  · rw [hhead]
    exact hnd
  · rw [hhead]
    exact fun b hb => (hout b hb).1
  · rw [hhead]
    intro b hb hnot
    have hlog : b ∉ (logWrites (start + 1) (lh.map f)).map fst := by
      rw [mem_logWrites, List.length_map]
      omega
    unfold written
    rw [update_of_ne (by omega), replay_of_notMem hlog, hold b hnot]
    exact hhome b hb
  · simp only [hhead]
    intro k hk
    unfold written
    rw [update_of_ne (by omega), replay_logWrites (by rwa [List.length_map]), List.getElem_map]
    exact hnew _ (List.getElem_mem hk)

theorem recoverable_copies (hpos : 0 < size) (hhome : HomeEq start size disk home)
    (hhead : (disk start).head = [])
    (hws : ∀ c ∈ ws.map fst, start + 1 ≤ c ∧ c < start + size) :
    Recoverable start size (replay ws disk) home := by
  refine recoverable_of_clear hpos ?_ fun b hb => ?_
  · rw [replay_of_notMem]
    · exact hhead
    · intro hin
      have := hws start hin
      omega
  · rw [replay_of_notMem]
    · exact hhome b hb
    · intro hin
      have := hws b hin
      omega

end

section Commit

variable {start size : Nat} {disk home : Nat → Block} {ws : List (Nat × Block)}

theorem txnWrites_eq (hws : Outside start size ws) (hlen : Bounded size (logged [] ws))
    (hne : ws ≠ []) : txnWrites start disk ws =
      logWrites (start + 1) ((logged [] ws).map (replay ws disk)) ++
        (start, (disk start).setHead (logged [] ws)) ::
        recoverWrites start (written start disk (replay ws disk) (logged [] ws)) := by
  rw [txnWrites, if_neg hne, commitWrites_eq (by rw [List.length_map]) hlen.1]
  · rfl
  · intro b hb
    rcases mem_logged.mp hb with hb | hb
    · exact absurd hb List.not_mem_nil
    · obtain ⟨w, hw, rfl⟩ := List.mem_map.mp hb
      exact (hws w hw).2

theorem recoverable_header (hhome : HomeEq start size disk home) (hws : Outside start size ws)
    (hlen : Bounded size (logged [] ws)) :
    Recoverable start size (written start disk (replay ws disk) (logged [] ws))
      (replay ws home) := by
  have hmem : ∀ b, b ∈ logged [] ws ↔ b ∈ ws.map fst := by
    intro b
    rw [mem_logged]
    exact ⟨fun h => h.resolve_left List.not_mem_nil, .inr⟩
  refine recoverable_written hhome hlen (nodup_logged List.nodup_nil) ?_ ?_ ?_
  · intro b hb
    obtain ⟨w, hw, rfl⟩ := List.mem_map.mp ((hmem b).mp hb)
    exact hws w hw
  · exact fun b hb => replay_congr_of_mem ((hmem b).mp hb)
  · exact fun b hb => replay_of_notMem fun h => hb ((hmem b).mpr h)

/-- A crash anywhere in an operation leaves the old contents, or the new ones if
    the header had been written. -/
theorem recoverable_crash (hpos : 0 < size) (hhome : HomeEq start size disk home)
    (hhead : (disk start).head = []) (hws : Outside start size ws)
    (hlen : Bounded size (logged [] ws)) (k : Nat) :
    Recoverable start size (replay ((txnWrites start disk ws).take k) disk)
      (if start ∈ ((txnWrites start disk ws).take k).map fst then replay ws home
        else home) := by
  have hcopies : ∀ c ∈ (logWrites (start + 1) ((logged [] ws).map (replay ws disk))).map fst,
      start + 1 ≤ c ∧ c < start + size := by
    intro c hc
    rw [mem_logWrites, List.length_map] at hc
    have := hlen.2
    omega
  by_cases hne : ws = []
  · subst hne
    rw [show txnWrites start disk [] = [] from rfl, List.take_nil, List.map_nil,
      if_neg List.not_mem_nil]
    exact recoverable_of_clear hpos hhead hhome
  rw [txnWrites_eq hws hlen hne]
  rcases take_append_cases (logWrites (start + 1) ((logged [] ws).map (replay ws disk)))
    ((start, (disk start).setHead (logged [] ws)) ::
      recoverWrites start (written start disk (replay ws disk) (logged [] ws))) k
    with ⟨-, htake⟩ | ⟨j, -, htake⟩
  · grind [List.map_take, recoverable_copies]
  · rw [htake]
    cases j with
    | zero =>
      rw [List.take_zero, List.append_nil, if_neg fun hin => by have := hcopies start hin; omega]
      exact recoverable_copies hpos hhome hhead hcopies
    | succ j =>
      rw [List.take_succ_cons, replay_append, replay_cons, if_pos]
      · exact (recoverable_header hhome hws hlen).take hpos j
      · rw [List.map_append, List.map_cons]
        exact List.mem_append_right _ List.mem_cons_self

theorem txn_done (hpos : 0 < size) (hhome : HomeEq start size disk home)
    (hcount : (disk start).u32 0 = 0) (hws : Outside start size ws)
    (hlen : Bounded size (logged [] ws)) :
    HomeEq start size (replay (txnWrites start disk ws) disk) (replay ws home) ∧
      (replay (txnWrites start disk ws) disk start).u32 0 = 0 := by
  by_cases hne : ws = []
  · subst hne
    exact ⟨hhome, hcount⟩
  · rw [txnWrites_eq hws hlen hne, replay_append, replay_cons]
    exact (recoverable_header hhome hws hlen).done hpos

end Commit

section Machine

variable {start size : Nat}

/-- What holds of the machine: with power, the home blocks are in place under a
    cleared header. Without, the disk stands for them. -/
def Sound (start size : Nat) : Phase × (Nat → Block) → Prop
  | (.up d, home) => ∃ v, Idle start size d v ∧ HomeEq start size v.disk home ∧
      (v.disk start).u32 0 = 0
  | (.down disk, home) => Recoverable start size disk home

variable {disk home : Nat → Block} {s : Phase × (Nat → Block)}

theorem recover_spec {R : Stop → Prop}
    (h : Recoverable start size disk home) (hpos : 0 < size) :
    Prog.Wp (Dev.handle ()) recoverFromLog
      (fun _ d' => Sound start size (.up d', home) ∧ d'.issued = recoverWrites start disk) R
      (Dev.boot Unit disk start size) := by
  have hok : View.Ok (.stopping R) recoverFromLog (fun _ v' => Quiet v' [] ∧
      v'.log = Log.init start size ∧ v'.issued = recoverWrites start disk ∧
      v'.disk = replay (recoverWrites start disk) disk)
      (View.fresh disk (Log.init start size)) :=
    ok_recover h.fits (fun _ _ => trivial) (fun _ => trivial) fun v' h1 h2 h3 h4 => ⟨h1, h2, h3, h4⟩
  refine Prog.wp_mono ((cached_boot (some ()) disk start size).wp_of_ok hok) ?_
  intro _ d' ⟨v', hc', hv', hlog', hissued', hdisk'⟩
  have hdone := h.done hpos
  rw [← hdisk'] at hdone
  exact ⟨⟨v', ⟨hc', hv', hlog'⟩, hdone.1, hdone.2⟩, hc'.issued.trans hissued'⟩

theorem transaction_spec {d : Dev Unit} {ws : List (Nat × Block)}
    (h : Sound start size (.up d, home)) (hpos : 0 < size) (hws : Outside start size ws) :
    Prog.Wp (Dev.handle ()) (transaction ws)
      (fun _ d' => Sound start size (.up d', replay ws home) ∧ Bounded size (logged [] ws) ∧
        d'.issued.drop d.issued.length = txnWrites start d.disk ws)
      (fun _ => ¬ Admits size [] ws) d := by
  obtain ⟨v, hidle, hhome, hcount⟩ := h
  have hok : View.Ok (.stopping fun _ => ¬ Admits size [] ws) (transaction ws)
      (fun _ v' => Quiet v' [] ∧ v'.log = Log.init start size ∧
        v'.issued = v.issued ++ txnWrites start v.disk ws ∧
        v'.disk = replay (txnWrites start v.disk ws) v.disk ∧ Bounded size (logged [] ws)) v :=
    ok_transaction hidle.quiet hidle.log hidle.view_eq hpos hws (fun _ _ => trivial)
      (fun _ _ => trivial) (fun _ => trivial)
      (fun v' h1 h2 h3 h4 h5 => ⟨h1, h2, h3, h4, h5⟩) fun _ => id
  refine Prog.wp_mono (hidle.cached.wp_of_ok hok) ?_
  intro _ d' ⟨v', hc', hv', hlog', hissued', hdisk', hlen'⟩
  have hdone := txn_done hpos hhome hcount hws hlen'
  rw [← hdisk'] at hdone
  refine ⟨⟨v', ⟨hc', hv', hlog'⟩, hdone.1, hdone.2⟩, hlen', ?_⟩
  rw [hc'.issued, hidle.cached.issued, hidle.cached.disk, hissued', List.drop_left]

theorem sound_step (hpos : 0 < size) {s' : Phase × (Nat → Block)}
    (hs : Sound start size s) (h : CrashStep start size s s') : Sound start size s' := by
  cases h with
  | txn ws hws hrun => exact (Prog.wp_of_run (transaction_spec hs hpos hws) hrun).1
  | crash ws k hws hrun =>
    obtain ⟨-, hlen, hissued⟩ := Prog.wp_of_run (transaction_spec hs hpos hws) hrun
    obtain ⟨v, hidle, hhome, hcount⟩ := hs
    rw [← hidle.cached.disk] at hhome hcount
    rw [hissued]
    exact recoverable_crash hpos hhome (head_of_count hcount) hws hlen k
  | powerOff =>
    obtain ⟨v, hidle, hhome, hcount⟩ := hs
    rw [← hidle.cached.disk] at hhome hcount
    exact recoverable_of_clear hpos (head_of_count hcount) hhome
  | recover hrun =>
    exact (Prog.wp_of_run (recover_spec (R := fun _ => True) hs hpos) hrun).1
  | crashRecovering k hrun =>
    have := Prog.wp_of_run (recover_spec (R := fun _ => True) hs hpos) hrun
    rw [this.2]
    exact hs.take hpos k

theorem sound_reachable (hpos : 0 < size)
    (hclear : (disk start).u32 0 = 0)
    (h : Relation.ReflTransGen (CrashStep start size) (.down disk, disk) s) :
    Sound start size s := by
  induction h with
  | refl => exact recoverable_of_clear hpos (head_of_count hclear) fun _ _ => rfl
  | tail _ hstep ih => exact sound_step hpos ih hstep

/-- Crash atomicity of the log. Whatever transactions a machine runs, wherever
    in their commits and in the recoveries after them it loses power, a completed
    recovery has put in the home blocks what the transactions whose header
    reached the disk wrote, and nothing else, under a header with a count of
    zero. A recovery always completes, and so does a transaction that fits. -/
theorem crash_atomic (hpos : 0 < size) {disk : Nat → Block}
    (hclear : (disk start).u32 0 = 0) {phase : Phase} {home : Nat → Block}
    (h : Relation.ReflTransGen (CrashStep start size) (.down disk, disk) (phase, home)) :
    (∀ d, phase = .up d →
      (∀ b, b < start ∨ start + size ≤ b → d.disk b = home b) ∧ (d.disk start).u32 0 = 0) ∧
    (∀ m, phase = .down m → ∃ d',
      recoverFromLog.run (Dev.handle ()) (Dev.boot Unit m start size) = .ok ((), d')) ∧
    (∀ d, phase = .up d → ∀ ws, Outside start size ws → Admits size [] ws → ∃ d',
      (transaction ws).run (Dev.handle ()) d = .ok ((), d')) := by
  have hs := sound_reachable hpos hclear h
  refine ⟨?_, ?_, ?_⟩
  · rintro d rfl
    obtain ⟨v, hidle, hhome, hcount⟩ := hs
    rw [hidle.cached.disk]
    exact ⟨hhome, hcount⟩
  · rintro m rfl
    exact Prog.returns_of_wp (recover_spec (R := fun _ => False) hs hpos) fun _ => id
  · rintro d rfl ws hws hadmits
    exact Prog.returns_of_wp (transaction_spec hs hpos hws) fun _ hnot => hnot hadmits

/-- A disk that was never written. -/
def blank : Nat → Block := fun _ => Block.zero

/-- A blank disk with the log of `mkfs`: it boots, changes one block, loses power
    and boots again with the change. -/
theorem crash_atomic_reboot : ∃ d1 d2 d3 : Dev Unit,
      recoverFromLog.run (Dev.handle ()) (Dev.boot Unit blank 2 nlog) = .ok ((), d1) ∧
      (transaction [(50, fun _ => 7)]).run (Dev.handle ()) d1 = .ok ((), d2) ∧
      recoverFromLog.run (Dev.handle ()) (Dev.boot Unit d2.disk 2 nlog) = .ok ((), d3) ∧
      d3.disk 50 = (fun _ => 7) ∧ (d3.disk 2).u32 0 = 0 := by
  have hpos : 0 < nlog := by decide
  have hclear : (blank 2).u32 0 = 0 := by decide +kernel
  have hws : Outside 2 nlog [(50, fun _ => 7)] := by
    intro w hw
    rw [List.mem_singleton.mp hw]
    decide
  have hfew : (absorb [] 50).length < NBUF := by decide
  have hadmits : Admits nlog [] [(50, fun _ => 7)] := ⟨⟨by decide, by decide⟩, hfew⟩
  have hreach0 : Relation.ReflTransGen (CrashStep 2 nlog) (.down blank, blank)
    (.down blank, blank) := .refl
  obtain ⟨d1, hrun1⟩ := (crash_atomic hpos hclear hreach0).2.1 _ rfl
  have hreach1 := hreach0.tail (.recover hrun1)
  obtain ⟨d2, hrun2⟩ := (crash_atomic hpos hclear hreach1).2.2 d1 rfl _ hws hadmits
  have hreach2 := (hreach1.tail (.txn _ hws hrun2)).tail .powerOff
  obtain ⟨d3, hrun3⟩ := (crash_atomic hpos hclear hreach2).2.1 _ rfl
  have hdone := (crash_atomic hpos hclear (hreach2.tail (.recover hrun3))).1 d3 rfl
  exact ⟨d1, d2, d3, hrun1, hrun2, hrun3, hdone.1 50 (by decide), hdone.2⟩

end Machine

end Xv6
