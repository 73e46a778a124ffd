import Mathlib.Data.List.Basic

/-!
# The Console's Input

`consoleread` and `consoleintr` of `kernel/console.c`. Typed characters go into a ring of
`INPUT_BUF` bytes between three counters of 32 bits: `r`, up to which they were read, `w`, up to
which they may be read, and `e`, up to which they were typed. What is between `w` and `e` can
still be erased. Nothing else is in the model of what the handler prints on the screen.

Both functions hold `cons.lock`, and a reader lets go of it where it sleeps. So a step is the
whole of `consoleintr`, or `consoleread` from its start or from a wakeup up to the next sleep or
its end. A sleeper may be woken at any time and looks again. The readers' buffers are valid and
they are not killed.
-/

namespace Xv6.Console

def INPUT_BUF : Nat := 128

/-- The macro `C(x)`. -/
def ctrl (x : Char) : UInt8 := x.toNat.toUInt8 - 64

/-- `'\n'`. -/
def newline : UInt8 := 10

/-- The structure `cons`. -/
structure Cons where
  buf : Nat → UInt8
  r : UInt32
  w : UInt32
  e : UInt32

def Cons.init : Cons := { buf := fun _ => 0, r := 0, w := 0, e := 0 }

/-- The loop for `C('U')`, which makes at most `e - w` rounds. -/
def killLine : Nat → Cons → Cons
  | 0, c => c
  | k + 1, c =>
    if c.e ≠ c.w ∧ c.buf ((c.e - 1).toNat % INPUT_BUF) ≠ newline then
      killLine k { c with e := c.e - 1 }
    else c

/-- The default case of the switch. -/
def store (c : Cons) (ch : UInt8) : Cons :=
  if ch ≠ 0 ∧ c.e - c.r < 128 then
    let ch := if ch = 13 then newline else ch
    let c := { c with
      buf := Function.update c.buf (c.e.toNat % INPUT_BUF) ch
      e := c.e + 1 }
    if ch = newline ∨ ch = ctrl 'D' ∨ c.e = c.r + 128 then { c with w := c.e } else c
  else c

def consoleintr (c : Cons) (ch : UInt8) : Cons :=
  -- procdump
  if ch = ctrl 'P' then c
  else if ch = ctrl 'U' then killLine (c.e - c.w).toNat c
  else if ch = ctrl 'H' ∨ ch = 0x7f then if c.e ≠ c.w then { c with e := c.e - 1 } else c
  else store c ch

/-- The loop of `consoleread` with `n` bytes to go and `got` copied out. The last component is
    the `n` of a reader that goes to sleep, and `none` at the end. -/
def readLoop (target : Nat) : Nat → Cons → List UInt8 → Cons × List UInt8 × Option Nat
  | 0, c, got => (c, got, none)
  | n + 1, c, got =>
    if c.r = c.w then (c, got, some (n + 1))
    else
      let ch := c.buf (c.r.toNat % INPUT_BUF)
      let c := { c with r := c.r + 1 }
      if ch = ctrl 'D' then
        -- save ^D for next time
        (if n + 1 < target then { c with r := c.r - 1 } else c, got, none)
      else if ch = newline then (c, got ++ [ch], none)
      else readLoop target n c (got ++ [ch])

/-- The variables of a sleeping `consoleread`. -/
structure Reading where
  target : Nat
  n : Nat
  got : List UInt8
deriving DecidableEq

/-- The console and its readers. `results` has what each finished read copied out, in the
    order in which they finished; the length is the return value. -/
structure Sys (P : Type) where
  cons : Cons
  reading : P → Option Reading
  results : List (P × List UInt8)

/-- A character, a call of `consoleread`, or a sleeper that runs again. -/
inductive Act (P : Type)
  | intr (ch : UInt8)
  | call (p : P) (n : Int)
  | wake (p : P)

variable {P : Type} [DecidableEq P]

def Sys.init (P : Type) : Sys P :=
  { cons := Cons.init, reading := fun _ => none, results := [] }

/-- `consoleread` in process `p` until it sleeps or returns. -/
def Sys.read (s : Sys P) (p : P) (target n : Nat) (got : List UInt8) : Sys P :=
  match readLoop target n s.cons got with
  | (c, got, some n) =>
    { s with cons := c, reading := Function.update s.reading p (some ⟨target, n, got⟩) }
  | (c, got, none) =>
    { cons := c, reading := Function.update s.reading p none, results := s.results ++ [(p, got)] }

/-- One step, or `none` where it cannot be taken. A call with `n <= 0` does not enter the loop. -/
def step (s : Sys P) : Act P → Option (Sys P)
  | .intr ch => some { s with cons := consoleintr s.cons ch }
  | .call p n => match s.reading p with
    | none => some (s.read p n.toNat n.toNat [])
    | some _ => none
  | .wake p => match s.reading p with
    | none => none
    | some x => some (s.read p x.target x.n x.got)

/-- A list of steps taken one after the other. -/
def steps (s : Sys P) : List (Act P) → Option (Sys P)
  | [] => some s
  | a :: as => match step s a with
    | none => none
    | some s' => steps s' as

end Xv6.Console
