import Xv6.Lib.Ring

/-!
# Key Messages

`msg.c` and the two system calls over it. The interrupt handler puts a character into a
ring of `NMSG` slots, and drops the oldest one when the ring is full. `sys_getmsg` takes the
oldest out. `sys_listenmsgs` sets `listening`, and empties the ring when it is set to one.

All of them hold `msglock`. What `sys_getmsg` has taken out it keeps in a variable `c` that is
`static`, so there is one for all processes, and it reads it again for the `return` after the
lock is released. A call is therefore two steps, the section under the lock and the
`return`, and anything may come in between.

A character is kept together with its number, counted from the first that arrived, so
that two presses of one key are two messages. The numbers and the three lists at the end of
the state are bookkeeping.
-/

namespace Xv6

open Function (update)

/-- Max number of buffered messages. -/
def NMSG : Nat := 128

/-- A character, and how many had arrived before it. -/
structure Msg where
  c : UInt8
  no : Nat
deriving DecidableEq

namespace Msg

/-- The macro `increase`. -/
def increase (x : Nat) : Nat := Ring.next NMSG x

/-- The variables of `msg.c`. -/
structure Queue where
  msgqueue : Nat → Msg
  listening : Int
  front : Nat
  back : Nat

namespace Queue

def init : Queue := { msgqueue := fun _ => ⟨0, 0⟩, listening := 0, front := 0, back := 0 }

/-- `putmsg`, which makes room by dropping the oldest. -/
def putmsg (q : Queue) (m : Msg) : Queue :=
  let q := { q with msgqueue := update q.msgqueue q.back m, back := increase q.back }
  if q.front = q.back then { q with front := increase q.front } else q

/-- `increase(front)` in `sys_getmsg`. -/
def drop (q : Queue) : Queue := { q with front := increase q.front }

/-- `sys_listenmsgs` with argument `n`. -/
def listenmsgs (q : Queue) (n : Int) : Queue :=
  let q := { q with listening := n }
  if q.listening = 1 then { q with front := 0, back := 0 } else q

end Queue

/-- Where a process is. -/
inductive Pc
  | idle
  /-- In `sys_getmsg`, before `return 0`. -/
  | empty
  /-- In `sys_getmsg`, before `return c`, having taken out a message. -/
  | took (m : Msg)

structure Sys (P : Type) where
  queue : Queue
  /-- The variable `c` of `sys_getmsg`. -/
  c : Msg
  pc : P → Pc
  result : P → UInt64
  /-- The characters given to `putmsg`. -/
  arrived : List UInt8
  /-- The messages taken out of the ring. -/
  removed : List Msg
  /-- For each call that did not find the ring empty, what it took out and what it returned. -/
  returned : List (Msg × Msg)

/-- What can happen: an interrupt, `sys_listenmsgs`, the section of a `sys_getmsg`, or its
    `return`. -/
inductive Act (P : Type)
  | put (ch : UInt8)
  | listen (n : Int)
  | get (p : P)
  | ret (p : P)

variable {P : Type} [DecidableEq P]

namespace Sys

def init (P : Type) : Sys P :=
  { queue := Queue.init, c := ⟨0, 0⟩, pc := fun _ => .idle, result := fun _ => 0
    arrived := [], removed := [], returned := [] }

def putmsg (s : Sys P) (ch : UInt8) : Sys P :=
  { s with queue := s.queue.putmsg ⟨ch, s.arrived.length⟩, arrived := s.arrived ++ [ch] }

/-- The section of `sys_getmsg` on a ring that is not empty. -/
def take (s : Sys P) (p : P) : Sys P :=
  let m := s.queue.msgqueue s.queue.front
  { s with
    queue := s.queue.drop
    c := m
    pc := update s.pc p (.took m)
    removed := s.removed ++ [m] }

/-- `return c` of a call that took out `m`. -/
def giveBack (s : Sys P) (p : P) (m : Msg) : Sys P :=
  { s with
    pc := update s.pc p .idle
    result := update s.result p s.c.c.toUInt64
    returned := s.returned ++ [(m, s.c)] }

/-- `return 0`. -/
def giveZero (s : Sys P) (p : P) : Sys P :=
  { s with pc := update s.pc p .idle, result := update s.result p 0 }

end Sys

/-- One step of the machine, or `none` where it cannot be taken. -/
def step (s : Sys P) : Act P → Option (Sys P)
  | .put ch => some (s.putmsg ch)
  | .listen n => some { s with queue := s.queue.listenmsgs n }
  | .get p => match s.pc p with
    | .idle =>
      if s.queue.front = s.queue.back then some { s with pc := update s.pc p .empty }
      else some (s.take p)
    | _ => none
  | .ret p => match s.pc p with
    | .idle => none
    | .empty => some (s.giveZero p)
    | .took m => some (s.giveBack p m)

/-- A list of steps taken one after the other. -/
def steps (s : Sys P) : List (Act P) → Option (Sys P)
  | [] => some s
  | a :: as => match step s a with
    | none => none
    | some s' => steps s' as

end Msg

end Xv6
