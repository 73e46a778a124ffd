import Xv6.Core.Msg
import Mathlib.Data.List.Induction
import Mathlib.Data.List.Nodup

/-!
# Which Message a Call Returns

The ring is a queue that forgets its oldest entry when it is full, and messages leave it in
the order in which they arrived, whatever the schedule. `Ordered` says this in one line: what
has been taken out, followed by what is in the ring, is a sublist of what has arrived.

## Theorems

* `Msg.delivered_once`, `Msg.twice_returned`, `Msg.queue_is_fifo`
-/

namespace Xv6.Msg

open Function (update update_self update_of_ne)
open Prod (snd)

/-- The messages of a list of arrivals. -/
def numbered (cs : List UInt8) : List Msg := cs.mapIdx fun i ch => ⟨ch, i⟩

theorem numbered_append (cs : List UInt8) (ch : UInt8) :
    numbered (cs ++ [ch]) = numbered cs ++ [⟨ch, cs.length⟩] := by
  unfold numbered
  rw [List.mapIdx_append]
  simp

theorem nodup_numbered (cs : List UInt8) : (numbered cs).Nodup := by
  induction cs using List.reverseRecOn with
  | nil => exact List.nodup_nil
  | append_singleton cs ch ih =>
    rw [numbered_append]
    refine ih.append (List.nodup_singleton _) ?_
    intro m hm hlast
    rw [List.mem_singleton] at hlast
    -- A number that was given out is below the length.
    obtain ⟨i, hi, rfl⟩ := List.mem_mapIdx.mp hm
    have hno : i = cs.length := congrArg Msg.no hlast
    omega

namespace Queue

/-- The messages in the ring, oldest first. -/
def window (q : Queue) : List Msg :=
  Ring.items NMSG q.msgqueue q.front (Ring.used NMSG q.front q.back)

/-- Both indices are indices of `msgqueue`. -/
structure Valid (q : Queue) : Prop where
  front : q.front < NMSG
  back : q.back < NMSG

theorem increase_lt (x : Nat) : increase x < NMSG := Ring.next_lt (by decide) x

variable {q : Queue}

theorem valid_zero (hf : q.front = 0) (hb : q.back = 0) : q.Valid := by
  refine ⟨?_, ?_⟩
  · rw [hf]
    decide
  · rw [hb]
    decide

theorem Valid.putmsg (h : q.Valid) (m : Msg) : (q.putmsg m).Valid := by
  unfold Queue.putmsg
  dsimp only
  split_ifs
  · exact ⟨increase_lt _, increase_lt _⟩
  · exact ⟨h.front, increase_lt _⟩

theorem Valid.drop (h : q.Valid) : q.drop.Valid := ⟨increase_lt _, h.back⟩

theorem Valid.listenmsgs (h : q.Valid) (n : Int) : (q.listenmsgs n).Valid := by
  unfold Queue.listenmsgs
  dsimp only
  split_ifs
  · exact valid_zero rfl rfl
  · exact ⟨h.front, h.back⟩

theorem window_drop (h : q.Valid) (hne : q.front ≠ q.back) :
    q.window = q.msgqueue q.front :: q.drop.window :=
  Ring.items_pop h.front h.back hne

theorem window_putmsg (h : q.Valid) (m : Msg) : (q.putmsg m).window =
      if q.window.length + 1 = NMSG then (q.window ++ [m]).tail else q.window ++ [m] := by
  have hlen : q.window.length = Ring.used NMSG q.front q.back := Ring.length_items
  have hfull := Ring.next_back_eq_front_iff h.front h.back
  have hpush : Ring.items NMSG (update q.msgqueue q.back m) q.front
      (Ring.used NMSG q.front q.back + 1) =
        Ring.items NMSG q.msgqueue q.front (Ring.used NMSG q.front q.back) ++ [m] :=
    Ring.items_push h.front h.back m
  unfold Queue.putmsg
  dsimp only
  rw [hlen]
  by_cases hroom : q.front = increase q.back
  · -- The ring was one short of full: the new walk starts one slot on.
    rw [if_pos hroom, if_pos (hfull.mp hroom)]
    exact Ring.items_push_full h.front h.back hroom m
  · rw [if_neg hroom, if_neg fun hx => hroom (hfull.mpr hx)]
    unfold window
    rw [← hpush]
    exact congrArg _ (Ring.used_next_back h.front h.back hroom)

theorem window_listenmsgs (q : Queue) (n : Int) :
    (q.listenmsgs n).window = if n = 1 then [] else q.window := by
  unfold Queue.listenmsgs
  dsimp only
  split_ifs
  · rfl
  · rfl

end Queue

variable {P : Type} [DecidableEq P] {s s' : Sys P}

/-- Reached by any steps. -/
inductive Reach : Sys P → Prop
  | init : Reach (Sys.init P)
  | step {s s' : Sys P} {a : Act P} (h : Reach s) (hs : step s a = some s') : Reach s'

/-- The step takes a message out while an earlier one is yet to be returned. -/
def Overlaps (s : Sys P) : Act P → Prop
  | .get _ => s.queue.front ≠ s.queue.back ∧ ∃ p m, s.pc p = .took m
  | _ => False

/-- Reached by steps of which none takes a message out before an earlier one is returned. -/
inductive Alone : Sys P → Prop
  | init : Alone (Sys.init P)
  | step {s s' : Sys P} {a : Act P} (h : Alone s) (hs : step s a = some s')
      (ha : ¬ Overlaps s a) : Alone s'

/-- What has left the ring and what is in it came in this order. -/
structure Ordered (s : Sys P) : Prop where
  valid : s.queue.Valid
  sublist : (s.removed ++ s.queue.window).Sublist (numbered s.arrived)

section Order

omit [DecidableEq P] in
theorem Ordered.putmsg (h : Ordered s) (ch : UInt8) : Ordered (s.putmsg ch) := by
  refine ⟨h.valid.putmsg _, ?_⟩
  have hmore : (s.removed ++ (s.queue.window ++ [(⟨ch, s.arrived.length⟩ : Msg)])).Sublist
      (numbered (s.arrived ++ [ch])) := by
    rw [numbered_append, ← List.append_assoc]
    exact h.sublist.append (List.Sublist.refl _)
  simp only [Sys.putmsg, Queue.window_putmsg h.valid]
  -- A full ring loses its oldest message, which leaves a sublist.
  split_ifs
  · exact ((List.Sublist.refl _).append (List.tail_sublist _)).trans hmore
  · exact hmore

omit [DecidableEq P] in
theorem Ordered.listenmsgs (h : Ordered s) (n : Int) :
    Ordered { s with queue := s.queue.listenmsgs n } := by
  refine ⟨h.valid.listenmsgs n, ?_⟩
  simp only [Queue.window_listenmsgs]
  split_ifs
  · exact ((List.Sublist.refl _).append (List.nil_sublist _)).trans h.sublist
  · exact h.sublist

theorem Ordered.take (h : Ordered s) (p : P) (hne : s.queue.front ≠ s.queue.back) :
    Ordered (s.take p) := by
  refine ⟨h.valid.drop, ?_⟩
  have hsub := h.sublist
  rw [Queue.window_drop h.valid hne] at hsub
  simp only [Sys.take, List.append_assoc, List.singleton_append]
  exact hsub

theorem ordered_step {a : Act P} (h : Ordered s) (hs : step s a = some s') : Ordered s' := by
  cases a with
  | put ch =>
    cases hs
    exact h.putmsg ch
  | listen n =>
    cases hs
    exact h.listenmsgs n
  | get p =>
    simp only [step] at hs
    split at hs
    · split_ifs at hs with hne
      · cases hs
        exact ⟨h.valid, h.sublist⟩
      · cases hs
        exact h.take p hne
    · cases hs
  | ret p =>
    simp only [step] at hs
    split at hs
    · cases hs
    · cases hs
      exact ⟨h.valid, h.sublist⟩
    · cases hs
      exact ⟨h.valid, h.sublist⟩

theorem ordered_reach (h : Reach s) : Ordered s := by
  induction h with
  | init => exact ⟨Queue.valid_zero rfl rfl, List.nil_sublist _⟩
  | step _ hs ih => exact ordered_step ih hs

theorem removed_sublist (h : Reach s) : s.removed.Sublist (numbered s.arrived) :=
  (List.sublist_append_left _ _).trans (ordered_reach h).sublist

end Order

section Calls

/-- The messages returned are those taken out, but for the one in `c` that a call has yet
    to return. -/
inductive Settled (s : Sys P) : Prop
  | none (hnone : ∀ p m, s.pc p ≠ .took m) (heq : s.returned.map snd = s.removed)
  | one (p : P) (hp : s.pc p = .took s.c) (hone : ∀ q m, s.pc q = .took m → q = p)
      (heq : s.returned.map snd ++ [s.c] = s.removed)

/-- Calls return what they took, and at most one has yet to return. -/
structure Own (s : Sys P) : Prop where
  same : ∀ r ∈ s.returned, r.2 = r.1
  settled : Settled s

omit [DecidableEq P] in
theorem Own.keep (h : Own s) (hpc : s'.pc = s.pc) (hc : s'.c = s.c)
    (hrem : s'.removed = s.removed) (hret : s'.returned = s.returned) : Own s' := by
  refine ⟨fun r hr => h.same r (hret ▸ hr), ?_⟩
  rcases h.settled with ⟨hnone, heq⟩ | ⟨r, hr, hone, heq⟩
  · refine .none (fun q m hq => hnone q m (hpc ▸ hq)) ?_
    rw [hret, hrem, heq]
  · refine .one r ?_ (fun q m hq => hone q m (hpc ▸ hq)) ?_
    · rw [hpc, hc, hr]
    · rw [hret, hrem, hc, heq]

variable {p : P}

/-- A step that leaves `c` and the lists alone, and moves a process from or to a place where
    it has taken nothing. -/
theorem Own.goto {x : Pc} (h : Own s) (hold : ∀ m, s.pc p ≠ .took m)
    (hx : ∀ m, x ≠ .took m) (hpc : s'.pc = update s.pc p x) (hc : s'.c = s.c)
    (hrem : s'.removed = s.removed) (hret : s'.returned = s.returned) : Own s' := by
  -- Nobody has a message in hand now who had none before.
  have hback : ∀ q m, s'.pc q = .took m → s.pc q = .took m := by
    intro q m hq
    rw [hpc] at hq
    by_cases hqp : q = p
    · rw [hqp, update_self] at hq
      exact absurd hq (hx m)
    · rwa [update_of_ne hqp] at hq
  refine ⟨fun r hr => h.same r (hret ▸ hr), ?_⟩
  rcases h.settled with ⟨hnone, heq⟩ | ⟨r, hr, hone, heq⟩
  · refine .none (fun q m hq => hnone q m (hback q m hq)) ?_
    rw [hret, hrem, heq]
  · have hrp : r ≠ p := by
      rintro rfl
      exact hold _ hr
    refine .one r ?_ (fun q m hq => hone q m (hback q m hq)) ?_
    · rw [hpc, update_of_ne hrp, hc, hr]
    · rw [hret, hrem, hc, heq]

theorem Own.take (h : Own s) (hne : s.queue.front ≠ s.queue.back)
    (ha : ¬ Overlaps s (.get p)) : Own (s.take p) := by
  -- No call has yet to return, so overwriting `c` loses nothing.
  have hfree : ∀ q m, s.pc q ≠ .took m := fun q m hq => ha ⟨hne, q, m, hq⟩
  refine ⟨h.same, .one p (update_self p _ s.pc) ?_ ?_⟩
  · intro q m hq
    by_contra hqp
    exact hfree q m ((update_of_ne hqp _ s.pc).symm.trans hq)
  · rcases h.settled with ⟨-, heq⟩ | ⟨r, hr, -, -⟩
    · exact congrArg (· ++ [s.queue.msgqueue s.queue.front]) heq
    · exact absurd hr (hfree r s.c)

theorem Own.giveBack {m : Msg} (h : Own s) (hp : s.pc p = .took m) :
    Own (s.giveBack p m) := by
  rcases h.settled with ⟨hnone, -⟩ | ⟨r, hr, hone, heq⟩
  · exact absurd hp (hnone p m)
  · -- The only call that has yet to return is this one, and `c` is what it took.
    have hrp : p = r := hone p m hp
    have hm : m = s.c := by
      rw [hrp, hr] at hp
      exact (Pc.took.inj hp).symm
    refine ⟨?_, .none ?_ ?_⟩
    · intro t ht
      rcases List.mem_append.mp ht with ht | ht
      · exact h.same t ht
      · rw [List.mem_singleton.mp ht, hm]
    · intro q n hq
      by_cases hqp : q = p
      · rw [hqp] at hq
        simp only [Sys.giveBack, update_self] at hq
        cases hq
      · simp only [Sys.giveBack, update_of_ne hqp] at hq
        exact hqp ((hone q n hq).trans hrp.symm)
    · simp only [Sys.giveBack, List.map_append, List.map_singleton]
      exact heq

theorem own_step {a : Act P} (h : Own s) (hs : step s a = some s') (ha : ¬ Overlaps s a) :
    Own s' := by
  cases a with
  | put ch =>
    cases hs
    exact h.keep rfl rfl rfl rfl
  | listen n =>
    cases hs
    exact h.keep rfl rfl rfl rfl
  | get p => grind [h.goto, h.take, step]
  | ret p =>
    simp only [step] at hs
    split at hs
    · cases hs
    next hempty =>
      cases hs
      exact h.goto (x := .idle) (fun m hm => by rw [hempty] at hm; cases hm) (fun m => nofun)
        rfl rfl rfl rfl
    next m hm =>
      cases hs
      exact h.giveBack hm

theorem own_alone (h : Alone s) : Own s := by
  induction h with
  | init => exact ⟨fun r hr => absurd hr List.not_mem_nil, .none (fun p m => nofun) rfl⟩
  | step _ hs ha ih => exact own_step ih hs ha

theorem Alone.reach (h : Alone s) : Reach s := by
  induction h with
  | init => exact .init
  | step _ hs _ ih => exact .step ih hs

omit [DecidableEq P] in
theorem Own.sublist (h : Own s) : (s.returned.map snd).Sublist s.removed := by
  rcases h.settled with ⟨-, heq⟩ | ⟨p, -, -, heq⟩
  · rw [heq]
  · rw [← heq]
    exact List.sublist_append_left _ _

end Calls

/-- In a run in which no call takes a message out while another call has yet to return one: no
    message is returned twice, every call that found the ring not empty returns the message it
    took out, and messages are taken out in the order in which they arrived. -/
theorem delivered_once (h : Alone s) : (s.returned.map snd).Nodup ∧
    (∀ r ∈ s.returned, r.2 = r.1) ∧ s.removed.Sublist (numbered s.arrived) := by
  have hord := removed_sublist h.reach
  have hown := own_alone h
  exact ⟨(hown.sublist.trans hord).nodup (nodup_numbered _), hown.same, hord⟩

/-- One call takes a message out and returns it before the next one does. -/
theorem delivered_once_turns : ∃ s : Sys Bool, Alone s ∧ s.removed = [⟨97, 0⟩, ⟨98, 1⟩] ∧
    (s.returned.map snd).Nodup := by
  have hputs : Alone _ :=
    (Alone.init.step (P := Bool) (a := .put 97) rfl id).step (a := .put 98) rfl id
  have hfirst : Alone _ := hputs.step (a := .get true) rfl (by rintro ⟨-, p, m, hp⟩; cases hp)
  have hturn : Alone _ := hfirst.step (a := .ret true) rfl id
  have hsecond : Alone _ := hturn.step (a := .get false) rfl
    (by rintro ⟨-, p, m, hp⟩; cases p <;> cases hp)
  have hend : Alone _ := hsecond.step (a := .ret false) rfl id
  exact ⟨_, hend, rfl, (delivered_once hend).1⟩

/-- Two messages arrive and two calls take one each, before either returns. -/
def crossing : List (Act Bool) :=
  [.put 97, .put 98, .get true, .get false, .ret true, .ret false]

/-- Both calls return the second message, and nobody returns the first. -/
theorem twice_returned : ∃ s, steps (Sys.init Bool) crossing = some s ∧
    s.returned = [(⟨97, 0⟩, ⟨98, 1⟩), (⟨98, 1⟩, ⟨98, 1⟩)] ∧
    ¬ (s.returned.map snd).Nodup ∧ ¬ ∀ r ∈ s.returned, r.2 = r.1 := by
  refine ⟨_, rfl, rfl, ?_, ?_⟩
  · decide
  · decide

section Fifo

/-- A call with nothing in between. -/
inductive Call (P : Type)
  | putmsg (ch : UInt8)
  | getmsg (p : P)
  | listenmsgs (n : Int)

def Call.acts : Call P → List (Act P)
  | .putmsg ch => [.put ch]
  | .getmsg p => [.get p, .ret p]
  | .listenmsgs n => [.listen n]

/-- What a call does to a list of at most `NMSG - 1` characters, oldest first. -/
def fifo (l : List UInt8) : Call P → List UInt8
  | .putmsg ch => if l.length = NMSG - 1 then l.tail ++ [ch] else l ++ [ch]
  | .getmsg _ => l.tail
  | .listenmsgs n => if n = 1 then [] else l

/-- The list that the ring stands for. -/
def Queue.chars (q : Queue) : List UInt8 := q.window.map Msg.c

/-- Between two calls. -/
structure Quiet (s : Sys P) : Prop where
  valid : s.queue.Valid
  idle : ∀ p, s.pc p = .idle

theorem Queue.Valid.length_lt {q : Queue} (h : q.Valid) : q.window.length < NMSG := by
  have hlen : q.window.length = Ring.used NMSG q.front q.back := Ring.length_items
  have hf := h.front
  have hb := h.back
  rw [hlen]
  unfold Ring.used
  split <;> omega

omit [DecidableEq P] in
theorem Queue.Valid.chars_putmsg {q : Queue} (h : q.Valid) (m : Msg) :
    (q.putmsg m).chars = fifo (P := P) q.chars (.putmsg m.c) := by
  have hlt := h.length_lt
  simp only [Queue.chars, fifo, List.length_map, Queue.window_putmsg h]
  by_cases hfull : q.window.length + 1 = NMSG
  · rw [if_pos hfull, if_pos (by omega), List.map_tail, List.map_append, List.tail_append_of_ne_nil]
    · rfl
    · intro hnil
      have hzero := congrArg List.length hnil
      simp only [List.length_map, List.length_nil] at hzero
      rw [hzero] at hfull
      exact absurd hfull (by decide)
  · rw [if_neg hfull, if_neg (by omega), List.map_append]
    rfl

theorem Quiet.call (h : Quiet s) (c : Call P) :
    ∃ s', steps s c.acts = some s' ∧ Quiet s' ∧ s'.queue.chars = fifo s.queue.chars c ∧
      ∀ p, c = .getmsg p → s'.result p = (s.queue.chars.headD 0).toUInt64 := by
  cases c with
  | putmsg ch =>
    refine ⟨_, rfl, ⟨h.valid.putmsg _, h.idle⟩, h.valid.chars_putmsg _, fun p hp => ?_⟩
    cases hp
  | listenmsgs n =>
    refine ⟨_, rfl, ⟨h.valid.listenmsgs n, h.idle⟩, ?_, fun p hp => ?_⟩
    · simp only [Queue.chars, fifo, Queue.window_listenmsgs]
      split_ifs <;> rfl
    · cases hp
  | getmsg p =>
    have hidle : ∀ {x : Pc} q, update (update s.pc p x) p .idle q = .idle := by
      intro x q
      rw [Function.update_idem]
      by_cases hq : q = p
      · rw [hq, update_self]
      · rw [update_of_ne hq, h.idle]
    by_cases hempty : s.queue.front = s.queue.back
    · -- The list is empty, and the answer is zero.
      have hnil : s.queue.chars = [] := by
        unfold Queue.chars Queue.window
        rw [hempty, Ring.used_self]
        rfl
      refine ⟨Sys.giveZero { s with pc := update s.pc p .empty } p, ?_, ⟨h.valid, hidle⟩,
        ?_, fun q hq => ?_⟩
      · simp only [Call.acts, steps, step, h.idle, if_pos hempty, update_self]
      · change s.queue.chars = _
        rw [hnil]
        rfl
      · cases hq
        rw [hnil]
        exact update_self ..
    · have hwindow : s.queue.chars = (s.queue.msgqueue s.queue.front).c :: s.queue.drop.chars := by
        unfold Queue.chars
        rw [Queue.window_drop h.valid hempty, List.map_cons]
      refine ⟨(s.take p).giveBack p (s.queue.msgqueue s.queue.front), ?_, ⟨h.valid.drop, hidle⟩, ?_,
        fun q hq => ?_⟩
      · simp only [Call.acts, steps, step, h.idle, if_neg hempty, Sys.take, update_self]
      · rw [hwindow]
        rfl
      · cases hq
        rw [hwindow]
        exact update_self ..

theorem steps_append {as bs : List (Act P)} (h : steps s as = some s') :
    steps s (as ++ bs) = steps s' bs := by
  induction as generalizing s with
  | nil =>
    cases h
    rfl
  | cons a as ih =>
    rw [List.cons_append, steps]
    rw [steps] at h
    split at h
    · cases h
    · exact ih h

theorem Quiet.calls (h : Quiet s) (cs : List (Call P)) :
    ∃ s', steps s (cs.flatMap Call.acts) = some s' ∧ Quiet s' ∧
      s'.queue.chars = cs.foldl fifo s.queue.chars := by
  induction cs generalizing s with
  | nil => exact ⟨s, rfl, h, rfl⟩
  | cons c cs ih =>
    obtain ⟨s1, hrun, h1, hchars, -⟩ := h.call c
    obtain ⟨s', hrest, h', heq⟩ := ih h1
    refine ⟨s', ?_, h', ?_⟩
    · rw [List.flatMap_cons, steps_append hrun, hrest]
    · rw [heq, hchars, List.foldl_cons]

/-- After any calls, one at a time, the ring stands for the list that they make of the empty one.
    It has at most `NMSG - 1` characters, and the next call does what it does to the list, where
    `sys_getmsg` returns the oldest, or zero if there is none. -/
theorem queue_is_fifo (cs : List (Call P)) (c : Call P) :
    ∃ s s', steps (Sys.init P) (cs.flatMap Call.acts) = some s ∧ steps s c.acts = some s' ∧
      s.queue.chars = cs.foldl fifo [] ∧ s.queue.chars.length ≤ NMSG - 1 ∧
      s'.queue.chars = fifo s.queue.chars c ∧
      ∀ p, c = .getmsg p → s'.result p = (s.queue.chars.headD 0).toUInt64 := by
  have hinit : Quiet (Sys.init P) := ⟨Queue.valid_zero rfl rfl, fun _ => rfl⟩
  obtain ⟨s, hrun, hs, hchars⟩ := hinit.calls cs
  obtain ⟨s', hcall, -, hnext, hret⟩ := hs.call c
  refine ⟨s, s', hrun, hcall, hchars, ?_, hnext, hret⟩
  have hlt := hs.valid.length_lt
  rw [Queue.chars, List.length_map]
  omega

end Fifo

end Xv6.Msg
