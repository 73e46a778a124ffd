import Xv6.Theory.Pipe

/-!
# Who Sleeps on a Pipe

Whoever fills an empty pipe or empties a full one while holding the lock has to call
`wakeup` before letting go of it. So what holds of sleepers holds up to the process
inside: a writer that has copied a byte owes the readers a wakeup, and a reader in its
second loop owes one to the writers.

## Theorems

* `Pipe.no_forgotten_sleeper`, `Pipe.forgotten_reader`, `Pipe.read_zero_is_end`
-/

namespace Xv6

open Function (update update_apply update_of_ne update_self)

namespace Pipe

variable {P : Type}

/-- Between `acquire` and `release` of the lock. -/
def Pc.Inside : Pc → Prop
  | .wloop _ _ => True
  | .rloop _ => True
  | .rcopy _ _ => True
  | _ => False

/-- The step is the early return of `pipewrite`, with a reader asleep. -/
def Quits (s : Sys P) : Act P → Prop
  | .run p killed => match s.pc p with
    | .wloop c i => (i : Int) < c.n ∧ (s.pipe.readopen = false ∨ killed = true) ∧
        ∃ q d, s.pc q = .rsleep d
    | _ => False
  | _ => False

/-- Whether the process inside has copied a byte since it took the lock, after a step. -/
def copied (s s' : Sys P) (was : Bool) : Bool :=
  if s'.pipe.nwrite ≠ s.pipe.nwrite then true else if s.lock = none then false else was

/-- Reached by steps of which none is an early return, past a sleeping reader, of a writer
    that has copied a byte since it took the lock. -/
inductive Prompt [DecidableEq P] : Sys P → Bool → Prop
  | init : Prompt (Sys.init P) false
  | step {s s' : Sys P} {a : Act P} {b : Bool} (h : Prompt s b) (hs : step s a = some s')
      (hq : Quits s a → b = false) : Prompt s' (copied s s' b)

/-- Readers sleep on an empty pipe and writers on a full one, or the process inside owes
    them a wakeup. -/
structure Awake (s : Sys P) (b : Bool) : Prop where
  holder : ∀ p, s.lock = some p ↔ (s.pc p).Inside
  readers : ∀ q c, s.pc q = .rsleep c → (s.pipe.nread = s.pipe.nwrite ∧ s.pipe.writeopen = true) ∨
      (b = true ∧ ∃ p d i, s.lock = some p ∧ s.pc p = .wloop d i)
  writers : ∀ q c i, s.pc q = .wsleep c i →
    (s.pipe.nwrite = s.pipe.nread + 512 ∧ s.pipe.readopen = true) ∨
      ∃ p d j, s.lock = some p ∧ s.pc p = .rcopy d j

section Wake

variable {pc : P → Pc} {p : P}

theorem wakeReaders_ne (c : Read) : wakeReaders pc p ≠ .rsleep c := by
  unfold wakeReaders
  split
  · nofun
  next h => exact fun hx => h c hx

theorem wakeWriters_ne (c : Write) (i : Nat) : wakeWriters pc p ≠ .wsleep c i := by
  unfold wakeWriters
  split
  · nofun
  next h => exact fun hx => h c i hx

theorem wakeReaders_eq {x : Pc} (hx : ∀ c, x ≠ .rlock c) (h : wakeReaders pc p = x) : pc p = x := by
  unfold wakeReaders at h
  split at h
  next c hc => exact absurd h.symm (hx c)
  · exact h

theorem wakeWriters_eq {x : Pc} (hx : ∀ c i, x ≠ .wlock c i) (h : wakeWriters pc p = x) :
    pc p = x := by
  unfold wakeWriters at h
  split at h
  next c i hc => exact absurd h.symm (hx c i)
  · exact h

theorem inside_wakeReaders : (wakeReaders pc p).Inside ↔ (pc p).Inside := by
  unfold wakeReaders
  split
  next c hc =>
    rw [hc]
    rfl
  · rfl

theorem inside_wakeWriters : (wakeWriters pc p).Inside ↔ (pc p).Inside := by
  unfold wakeWriters
  split
  next c i hc =>
    rw [hc]
    rfl
  · rfl

end Wake

section Steps

variable [DecidableEq P] {s s' : Sys P} {b b' : Bool} {p : P}

variable {q : P} {c : Read} {i : Nat} {x : Pc}

omit [DecidableEq P] in
theorem Awake.outside (h : Awake s b) (hp : s.lock = some p) (hq : q ≠ p) :
    ¬ (s.pc q).Inside := by
  intro hin
  have hlock := (h.holder q).mpr hin
  rw [hp] at hlock
  exact hq (Option.some.inj hlock).symm

omit [DecidableEq P] in
theorem Awake.readers_of (h : Awake s b) (hp : s.lock = some p)
    (hpc : b = false ∨ ∀ c i, s.pc p ≠ .wloop c i) (hq : s.pc q = .rsleep c) :
    s.pipe.nread = s.pipe.nwrite ∧ s.pipe.writeopen = true := by
  rcases h.readers q c hq with hleft | ⟨hb, p', d, i, hp', hd⟩
  · exact hleft
  · grind

omit [DecidableEq P] in
theorem Awake.writers_of (h : Awake s b) (hp : s.lock = some p) (hpc : ∀ c i, s.pc p ≠ .rcopy c i)
    {c : Write} (hq : s.pc q = .wsleep c i) :
    s.pipe.nwrite = s.pipe.nread + 512 ∧ s.pipe.readopen = true := by
  rcases h.writers q c i hq with hleft | ⟨p', d, j, hp', hd⟩
  · exact hleft
  · rw [hp] at hp'
    cases hp'
    exact absurd hd (hpc d j)

section

variable (h : Awake s b)

include h

theorem Awake.goto (hout : ¬ (s.pc p).Inside) (hx : ¬ x.Inside)
    (hr : ∀ c, x ≠ .rsleep c) (hw : ∀ c i, x ≠ .wsleep c i) (hlock : s'.lock = s.lock)
    (hpipe : s'.pipe = s.pipe) (hpc : s'.pc = update s.pc p x) :
    Awake s' (copied s s' b) := by
  have hother : ∀ q, q ≠ p → s'.pc q = s.pc q := fun q hq => by
    rw [hpc, update_of_ne hq]
  have hself : s'.pc p = x := by rw [hpc, update_self]
  -- The process inside, if there is one, is another, and its debt stays what it was.
  have hstay : ∀ r, s.lock = some r → s'.lock = some r ∧ s'.pc r = s.pc r ∧ copied s s' b = b := by
    grind [h.holder, copied]
  refine ⟨fun q => ?_, fun q c hq => ?_, fun q c i hq => ?_⟩
  · by_cases hqp : q = p
    · rw [hqp, hself, hlock, h.holder p]
      exact iff_of_false hout hx
    · rw [hother q hqp, hlock]
      exact h.holder q
  · have hqp : q ≠ p := by
      rintro rfl
      exact hr c (hself.symm.trans hq)
    rw [hother q hqp] at hq
    rw [hpipe]
    rcases h.readers q c hq with hleft | ⟨hb, r, d, i, hr, hd⟩
    · exact .inl hleft
    · grind
  · have hqp : q ≠ p := by
      rintro rfl
      exact hw c i (hself.symm.trans hq)
    rw [hother q hqp] at hq
    rw [hpipe]
    rcases h.writers q c i hq with hleft | ⟨r, d, j, hr, hd⟩
    · exact .inl hleft
    · grind

theorem Awake.inside (hfree : s.lock = none ∨ s.lock = some p)
    (hx : x.Inside) (hlock : s'.lock = some p) (hpc : s'.pc = update s.pc p x)
    (hr : ∀ q c, q ≠ p → s.pc q = .rsleep c →
      (s'.pipe.nread = s'.pipe.nwrite ∧ s'.pipe.writeopen = true) ∨
        (b' = true ∧ ∃ d i, x = .wloop d i)) (hw : ∀ q c i, q ≠ p → s.pc q = .wsleep c i →
      (s'.pipe.nwrite = s'.pipe.nread + 512 ∧ s'.pipe.readopen = true) ∨ ∃ d j, x = .rcopy d j) :
    Awake s' b' := by
  have hother : ∀ q, q ≠ p → s'.pc q = s.pc q := fun q hq => by
    rw [hpc, update_of_ne hq]
  have hself : s'.pc p = x := by rw [hpc, update_self]
  have hne : ∀ q y, s'.pc q = y → ¬ y.Inside → q ≠ p := by
    rintro q y hq hy rfl
    rw [← hq, hself] at hy
    exact hy hx
  refine ⟨fun q => ?_, fun q c hq => ?_, fun q c i hq => ?_⟩
  · by_cases hqp : q = p
    · rw [hqp, hself]
      exact iff_of_true hlock hx
    · grind [h.holder]
  · have hqp := hne q _ hq id
    rw [hother q hqp] at hq
    exact (hr q c hqp hq).imp_right fun ⟨hb, d, i, hd⟩ => ⟨hb, p, d, i, hlock, hself.trans hd⟩
  · have hqp := hne q _ hq id
    rw [hother q hqp] at hq
    exact (hw q c i hqp hq).imp_right fun ⟨d, j, hd⟩ => ⟨p, d, j, hlock, hself.trans hd⟩

theorem Awake.release (pc : P → Pc) (hp : s.lock = some p)
    (hx : ¬ x.Inside) (hin : ∀ q, (pc q).Inside ↔ (s.pc q).Inside) (hlock : s'.lock = none)
    (hpc : s'.pc = update pc p x) (hr : (∃ c, x = .rsleep c) ∨ (∃ q c, pc q = .rsleep c) →
      s'.pipe.nread = s'.pipe.nwrite ∧ s'.pipe.writeopen = true)
    (hw : (∃ c i, x = .wsleep c i) ∨ (∃ q c i, pc q = .wsleep c i) →
      s'.pipe.nwrite = s'.pipe.nread + 512 ∧ s'.pipe.readopen = true) : Awake s' b' := by
  have hcases : ∀ q y, s'.pc q = y → x = y ∨ pc q = y := by
    intro q y hq
    rw [hpc] at hq
    by_cases hqp : q = p
    · rw [hqp, update_self] at hq
      exact .inl hq
    · rw [update_of_ne hqp] at hq
      exact .inr hq
  refine ⟨fun q => ?_, fun q c hq => .inl (hr ?_), fun q c i hq => .inl (hw ?_)⟩
  · rw [hlock, hpc]
    refine iff_of_false nofun ?_
    by_cases hqp : q = p
    · rw [hqp, update_self]
      exact hx
    · rw [update_of_ne hqp, hin q]
      exact h.outside hp hqp
  · exact (hcases q _ hq).imp (fun hx => ⟨c, hx⟩) fun hx => ⟨q, c, hx⟩
  · grind

section

variable (hp : s.lock = some p)

include hp

theorem Awake.writeDone {c : Write}
    (hpc : s.pc p = .wloop c i) (n : Nat) : Awake (s.writeDone p n) b' := by
  refine h.release (x := .idle) (wakeReaders s.pc) hp id (fun q => inside_wakeReaders) rfl rfl ?_ ?_
  · rintro (⟨d, hd⟩ | ⟨q, d, hq⟩)
    · cases hd
    · exact absurd hq (wakeReaders_ne d)
  · rintro (⟨d, j, hd⟩ | ⟨q, d, j, hq⟩)
    · cases hd
    · have hold := wakeReaders_eq (fun _ hx => by cases hx) hq
      exact h.writers_of hp (fun d j hx => by rw [hpc] at hx; cases hx) hold

theorem Awake.writeLoop {c : Write}
    (hpc : s.pc p = .wloop c i) (killed : Bool) (hq : Quits s (.run p killed) → b = false) :
    Awake (s.writeLoop p killed c i) (copied s (s.writeLoop p killed c i) b) := by
  have hcopy : ∀ d j, s.pc p ≠ .rcopy d j := fun d j hx => by
    rw [hpc] at hx
    cases hx
  unfold Sys.writeLoop
  split_ifs with hi hstop hfull
  · refine h.release (x := .idle) s.pc hp id (fun q => Iff.rfl) rfl rfl ?_ ?_
    · rintro (⟨d, hd⟩ | ⟨q, d, hd⟩)
      · cases hd
      · -- The early return pays nothing, so nothing may be owed to the sleeper.
        have hquits : Quits s (.run p killed) := by
          simp only [Quits, hpc]
          exact ⟨hi, hstop, q, d, hd⟩
        exact h.readers_of hp (.inl (hq hquits)) hd
    · rintro (⟨d, j, hd⟩ | ⟨q, d, j, hq⟩)
      · cases hd
      · exact h.writers_of hp hcopy hq
  · refine h.release (x := .wsleep c i) (wakeReaders s.pc) hp id (fun q => inside_wakeReaders) rfl
      rfl ?_ ?_
    · rintro (⟨d, hd⟩ | ⟨q, d, hq⟩)
      · cases hd
      · exact absurd hq (wakeReaders_ne d)
    · -- The caller sleeps on a full pipe that has readers, and so do the other writers.
      intro _
      have hopen : s.pipe.readopen = true := by
        cases hro : s.pipe.readopen with
        | true => rfl
        | false => exact absurd (.inl hro) hstop
      exact ⟨hfull, hopen⟩
  · split
    · exact h.writeDone hp hpc i
    next ch hch =>
      have hnew : (s.pipe.push ch).nwrite ≠ s.pipe.nwrite := by
        intro hx
        have hval := congrArg UInt32.toNat hx
        have h1 : (1 : UInt32).toNat = 1 := rfl
        have hlt := s.pipe.nwrite.toNat_lt
        simp only [push, UInt32.toNat_add, h1] at hval
        omega
      refine h.inside (x := .wloop c (i + 1)) (.inr hp) trivial hp rfl ?_ ?_
      · intro q d _ _
        refine .inr ⟨?_, c, i + 1, rfl⟩
        unfold copied
        exact if_pos hnew
      · intro q d j _ hq
        exact absurd (h.writers_of hp hcopy hq).1 hfull
  · exact h.writeDone hp hpc i

theorem Awake.readLoop
    (hpc : s.pc p = .rloop c) (killed : Bool) : Awake (s.readLoop p killed c) b' := by
  have hcopy : ∀ d j, s.pc p ≠ .rcopy d j := fun d j hx => by
    rw [hpc] at hx
    cases hx
  have hloop : ∀ d j, s.pc p ≠ .wloop d j := fun d j hx => by
    rw [hpc] at hx
    cases hx
  unfold Sys.readLoop
  split_ifs with hempty
  · refine h.release (x := .idle) s.pc hp id (fun q => Iff.rfl) rfl rfl (fun _ => hempty) ?_
    rintro (⟨d, j, hd⟩ | ⟨q, d, j, hq⟩)
    · cases hd
    · exact h.writers_of hp hcopy hq
  · refine h.release (x := .rsleep c) s.pc hp id (fun q => Iff.rfl) rfl rfl (fun _ => hempty) ?_
    rintro (⟨d, j, hd⟩ | ⟨q, d, j, hq⟩)
    · cases hd
    · exact h.writers_of hp hcopy hq
  · refine h.inside (x := .rcopy c 0) (.inr hp) trivial hp rfl ?_ ?_
    · intro q d _ hq
      exact .inl (h.readers_of hp (.inr hloop) hq)
    · intro q d j _ _
      exact .inr ⟨c, 0, rfl⟩

theorem Awake.readDone (hs : s'.pc = s.pc)
    (hr : ∀ q d, s.pc q = .rsleep d → s'.pipe.nread = s'.pipe.nwrite ∧ s'.pipe.writeopen = true)
    (n : Nat) : Awake (s'.readDone p n) b' := by
  refine h.release (x := .idle) (wakeWriters s.pc) hp id (fun q => inside_wakeWriters) rfl ?_ ?_ ?_
  · rw [← hs]
    rfl
  · rintro (⟨d, hd⟩ | ⟨q, d, hq⟩)
    · cases hd
    · exact hr q d (wakeWriters_eq (fun _ _ hx => by cases hx) hq)
  · rintro (⟨d, j, hd⟩ | ⟨q, d, j, hq⟩)
    · cases hd
    · exact absurd hq (wakeWriters_ne d j)

theorem Awake.readCopy
    (hpc : s.pc p = .rcopy c i) : Awake (s.readCopy p c i) b' := by
  have hloop : ∀ d j, s.pc p ≠ .wloop d j := fun d j hx => by
    rw [hpc] at hx
    cases hx
  have hsleep : ∀ q d, s.pc q = .rsleep d →
      s.pipe.nread = s.pipe.nwrite ∧ s.pipe.writeopen = true :=
    fun q d hq => h.readers_of hp (.inr hloop) hq
  unfold Sys.readCopy
  split_ifs with hi hempty hdst
  · exact h.readDone hp rfl hsleep i
  · refine h.inside (x := .rcopy c (i + 1)) (.inr hp) trivial hp rfl ?_ ?_
    · intro q d _ hq
      exact absurd (hsleep q d hq).1 hempty
    · intro q d j _ _
      exact .inr ⟨c, i + 1, rfl⟩
  · have hnone : ∀ q d, s.pc q ≠ .rsleep d := fun q d hq => hempty (hsleep q d hq).1
    have htake : (s.take p).pc = s.pc := rfl
    exact h.readDone hp htake (fun q d hq => absurd hq (hnone q d)) i
  · exact h.readDone hp rfl hsleep i

end

theorem Awake.acquire (hnone : s.lock = none) (hx : x.Inside) :
    Awake (Sys.goto { s with lock := some p } p x) b' := by
  -- Nobody is inside while the lock is free, so the sleepers are where they should be.
  refine h.inside (x := x) (.inl hnone) hx rfl rfl ?_ ?_
  · intro q d _ hq
    rcases h.readers q d hq with hleft | ⟨-, r, e, j, hr, -⟩
    · exact .inl hleft
    · rw [hnone] at hr
      cases hr
  · intro q d j _ hq
    rcases h.writers q d j hq with hleft | ⟨r, e, k, hr, -⟩
    · exact .inl hleft
    · rw [hnone] at hr
      cases hr

theorem Awake.run {killed : Bool} (hs : s.run p killed = some s')
    (hq : Quits s (.run p killed) → b = false) : Awake s' (copied s s' b) := by
  have hlock : ∀ x, s.pc p = x → x.Inside → s.lock = some p := by
    rintro x rfl hx
    exact (h.holder p).mpr hx
  unfold Sys.run at hs
  split at hs
  next c i hpc =>
    split_ifs at hs with hnone
    cases hs
    exact h.acquire hnone trivial
  next c hpc =>
    split_ifs at hs with hnone
    cases hs
    exact h.acquire hnone trivial
  next c i hpc =>
    cases hs
    exact h.writeLoop (hlock _ hpc trivial) hpc killed hq
  next c hpc =>
    cases hs
    exact h.readLoop (hlock _ hpc trivial) hpc killed
  next c i hpc =>
    cases hs
    exact h.readCopy (hlock _ hpc trivial) hpc
  · cases hs

end

omit [DecidableEq P] in
theorem Awake.close (h : Awake s b) (hnone : s.lock = none) (w : Bool) : Awake (s.close w) b' := by
  have hreaders : ∀ q c, s.pc q = .rsleep c →
      s.pipe.nread = s.pipe.nwrite ∧ s.pipe.writeopen = true := by
    intro q c hq
    rcases h.readers q c hq with hleft | ⟨-, r, e, j, hr, -⟩
    · exact hleft
    · rw [hnone] at hr
      cases hr
  have hwriters : ∀ q c i, s.pc q = .wsleep c i →
      s.pipe.nwrite = s.pipe.nread + 512 ∧ s.pipe.readopen = true := by
    intro q c i hq
    rcases h.writers q c i hq with hleft | ⟨r, e, j, hr, -⟩
    · exact hleft
    · rw [hnone] at hr
      cases hr
  cases w with
  | true =>
    refine ⟨fun q => ?_, fun q c hq => absurd hq (wakeReaders_ne c), fun q c i hq => .inl ?_⟩
    · exact (h.holder q).trans inside_wakeReaders.symm
    · exact hwriters q c i (wakeReaders_eq (fun _ hx => by cases hx) hq)
  | false =>
    refine ⟨fun q => ?_, fun q c hq => .inl ?_, fun q c i hq => absurd hq (wakeWriters_ne c i)⟩
    · exact (h.holder q).trans inside_wakeWriters.symm
    · exact hreaders q c (wakeWriters_eq (fun _ _ hx => by cases hx) hq)

theorem awake_step {a : Act P} (h : Awake s b) (hs : step s a = some s')
    (hq : Quits s a → b = false) : Awake s' (copied s s' b) := by
  have hout : ∀ q x, s.pc q = x → ¬ x.Inside → ¬ (s.pc q).Inside := by
    rintro q x rfl hx
    exact hx
  cases a with
  | write p c =>
    simp only [step] at hs
    split at hs
    next hpc =>
      cases hs
      exact h.goto (hout p _ hpc id) (x := .wlock c 0) id
        (fun _ hx => by cases hx) (fun _ _ hx => by cases hx) rfl rfl rfl
    · cases hs
  | read p c =>
    simp only [step] at hs
    split at hs
    next hpc =>
      cases hs
      exact h.goto (hout p _ hpc id) (x := .rlock c) id
        (fun _ hx => by cases hx) (fun _ _ hx => by cases hx) rfl rfl rfl
    · cases hs
  | close w => grind [h.close, step]
  | kill p =>
    simp only [step] at hs
    split at hs
    next c i hpc =>
      cases hs
      exact h.goto (hout p _ hpc id) (x := .wlock c i) id
        (fun _ hx => by cases hx) (fun _ _ hx => by cases hx) rfl rfl rfl
    next c hpc =>
      cases hs
      exact h.goto (hout p _ hpc id) (x := .rlock c) id
        (fun _ hx => by cases hx) (fun _ _ hx => by cases hx) rfl rfl rfl
    · cases hs
  | run p killed => exact h.run hs hq

theorem awake_prompt (h : Prompt s b) : Awake s b := by
  induction h with
  | init =>
    refine ⟨fun p => iff_of_false ?_ ?_, ?_, ?_⟩
    · intro hp
      cases hp
    · intro hp
      exact hp
    · intro q c hq
      cases hq
    · intro q c i hq
      cases hq
  | step _ hs hq ih => exact awake_step ih hs hq

/-- In a run in which no `pipewrite` returns early, past a sleeping reader, after it has
    copied a byte since it took the lock: while the lock is free, no reader is asleep on a
    pipe that is not empty or has no writers, and no writer on one that has room or no readers. -/
theorem no_forgotten_sleeper (h : Prompt s b) (hfree : s.lock = none) :
    (∀ q c, s.pc q = .rsleep c → ¬ (s.pipe.nread ≠ s.pipe.nwrite ∨ s.pipe.writeopen = false)) ∧
    ∀ q c i, s.pc q = .wsleep c i → ¬ (s.pipe.count < PIPESIZE ∨ s.pipe.readopen = false) := by
  have hi := awake_prompt h
  refine ⟨fun q c hq => ?_, fun q c i hq => ?_⟩
  · grind [hi.readers]
  · grind [hi.writers, count_eq_size_iff.mpr]

/-- A reader goes to sleep on an empty pipe, and is not forgotten there. -/
theorem no_forgotten_sleeper_waiting : ∃ (s : Sys Bool) (b : Bool), Prompt s b ∧ s.lock = none ∧
    (∃ c, s.pc true = .rsleep c) ∧ ¬ (s.pipe.nread ≠ s.pipe.nwrite ∨ s.pipe.writeopen = false) := by
  have hcall : Prompt _ _ := Prompt.init.step (P := Bool) (a := .read true ⟨fun _ => true, 1⟩) rfl
    fun _ => rfl
  have hlock : Prompt _ _ := hcall.step (a := .run true false) rfl fun _ => rfl
  have hsleep : Prompt _ _ := hlock.step (a := .run true false) rfl fun _ => rfl
  exact ⟨_, _, hsleep, rfl, ⟨_, rfl⟩, (no_forgotten_sleeper hsleep rfl).1 true _ rfl⟩

end Steps

/-- A reader that finds the pipe empty, and a writer of two bytes that is killed after the first. -/
def forgetful : List (Act Bool) :=
  [.read true ⟨fun _ => true, 1⟩, .run true false, .run true false,
    .write false ⟨fun _ => some 7, 2⟩, .run false false, .run false false, .run false true]

/-- The early return of `pipewrite` forgets the reader: it is asleep on a pipe that holds the
    byte the killed writer left, with the lock free. -/
theorem forgotten_reader : ∃ s, steps (Sys.init Bool) forgetful = some s ∧ s.lock = none ∧
    (∃ c, s.pc true = .rsleep c) ∧ s.pipe.nread ≠ s.pipe.nwrite := by
  refine ⟨_, rfl, rfl, ⟨_, rfl⟩, ?_⟩
  decide

section Ends

variable [DecidableEq P] {s s' : Sys P} {p : P}

/-- Only the holder of the lock is inside, and a reader goes on to copy from an empty ring only
    if nobody can write any more. -/
structure Ends (s : Sys P) : Prop where
  inside : ∀ q, (s.pc q).Inside → s.lock = some q
  empty : ∀ q c, s.pc q = .rcopy c 0 → s.pipe.nread = s.pipe.nwrite → s.pipe.writeopen = false

theorem Ends.outside (h : Ends s) {x : Pc} (hx : ¬ x.Inside) (taken : P → Nat) :
    Ends (Sys.goto { s with taken := taken } p x) := by
  refine ⟨fun q hq => h.inside q ?_, fun q c hq => h.empty q c ?_⟩
  all_goals
    simp only [Sys.goto, update_apply] at hq
    grind [Pc.Inside]

/-- A step of the process that has the lock, or gets it. -/
theorem Ends.turn (h : Ends s) (hlock : s.lock = none ∨ s.lock = some p)
    (hout : ∀ q, q ≠ p → (s'.pc q).Inside → (s.pc q).Inside)
    (hin : (s'.pc p).Inside → s'.lock = some p) (hempty : ∀ c, s'.pc p = .rcopy c 0 →
      s'.pipe.nread = s'.pipe.nwrite → s'.pipe.writeopen = false) : Ends s' := by
  have honly : ∀ q, (s'.pc q).Inside → q = p := by
    intro q hq
    by_contra hne
    have hheld := h.inside q (hout q hne hq)
    grind
  refine ⟨fun q hq => ?_, fun q c hq => ?_⟩
  · cases honly q hq
    exact hin hq
  · cases honly q (hq ▸ trivial)
    exact hempty c hq

theorem Ends.run (h : Ends s) {killed : Bool} (hs : s.run p killed = some s') : Ends s' := by
  have hin := h.inside p
  unfold Sys.run at hs
  split at hs
  case h_1 | h_2 =>
    split_ifs at hs with hnone
    cases hs
    refine h.turn (p := p) (.inl hnone) ?_ ?_ ?_
    all_goals
      simp only [Sys.goto, update_apply]
      grind [Pc.Inside]
  case h_3 | h_4 | h_5 =>
    -- Once round a loop.
    cases hs
    simp only [Sys.writeLoop, Sys.readLoop, Sys.readCopy]
    repeat' split
    all_goals
      refine h.turn (p := p) (.inr (hin (by simp_all [Pc.Inside]))) ?_ ?_ ?_
      all_goals
        simp only [Sys.take, Sys.goto, Sys.leave, Sys.sleep, Sys.writeDone, Sys.readDone,
          update_apply]
        grind [inside_wakeReaders, inside_wakeWriters, Pc.Inside]
  case h_6 => cases hs

theorem Ends.step {a : Act P} (h : Ends s) (hs : step s a = some s') : Ends s' := by
  cases a with
  | run p killed => exact h.run hs
  | close w =>
    simp only [Pipe.step] at hs
    split_ifs at hs with hnone
    cases hs
    have hout : ∀ q, ¬ (s.pc q).Inside := by
      intro q hq
      simp [h.inside q hq] at hnone
    cases w
    all_goals
      simp only [Sys.close]
      constructor <;> grind [Pc.Inside, inside_wakeReaders, inside_wakeWriters]
  | write p c | read p c | kill p =>
    simp only [Pipe.step] at hs
    split at hs <;> cases hs
    all_goals exact h.outside id _

theorem ends_reachable {ok : Act P → Prop} (h : Relation.ReflTransGen (Next ok) (Sys.init P) s) :
    Ends s := by
  induction h with
  | refl => exact ⟨fun q hq => False.elim hq, fun q c hq => by cases hq⟩
  | tail _ hstep ih => exact ih.step hstep.choose_spec.2

/-- A read that returns `0` has seen the end: the pipe is empty and nobody can write to it any
    more. It is so unless it was to read nothing, or had no memory for the first byte. -/
theorem read_zero_is_end {ok : Act P → Prop} (h : Relation.ReflTransGen (Next ok) (Sys.init P) s)
    {c : Read} {i : Nat} {killed : Bool} (hpc : s.pc p = .rcopy c i)
    (hs : s.run p killed = some s') (hidle : s'.pc p = .idle) (hzero : s'.result p = 0)
    (hn : 0 < c.n) (hdst : c.dst 0 = true) : s'.pipe.writeopen = false ∧ s'.pipe.window = [] := by
  simp only [Sys.run, hpc, Option.some.injEq] at hs
  subst hs
  unfold Sys.readCopy at hidle hzero ⊢
  split_ifs at hidle hzero ⊢ with hlt hempty hmem
  · simp only [Sys.readDone, Sys.leave, update_self] at hzero
    have hi : i = 0 := by omega
    refine ⟨(ends_reachable h).empty p c (hi ▸ hpc) hempty, ?_⟩
    simp only [Sys.readDone, Sys.leave, window, count_eq_zero_iff.2 hempty, List.range_zero,
      List.map_nil]
  · simp [Sys.goto] at hidle
  · simp only [Sys.readDone, Sys.leave, update_self] at hzero
    have hi : i = 0 := by omega
    exact absurd hdst (hi ▸ hmem)
  · simp only [Sys.readDone, Sys.leave, update_self] at hzero
    omega

/-- The end for writing is closed before anything was written. -/
theorem read_zero_is_end_closed : ∃ s : Sys Bool, s.result true = 0 ∧
    s.pipe.writeopen = false ∧ s.pipe.window = [] := by
  have hsteps : steps (Sys.init Bool) [.read true ⟨fun _ => true, 1⟩, .close true, .run true false,
    .run true false] = some _ := rfl
  have hreach := reachable_of_steps (fun _ _ => trivial : ∀ _ ∈ _, True) hsteps
  exact ⟨_, rfl, read_zero_is_end hreach rfl (show Sys.run _ true false = _ from rfl) rfl rfl
    (by decide) rfl⟩

end Ends

end Pipe
end Xv6
