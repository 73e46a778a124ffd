import Mathlib.Logic.Function.Basic

/-!
# Drawing a Pixel

`sys_setpixel`, statement by statement. Its variables are `static`, so there is one `x`, one
`y`, one `i` and one `rgb` for all processes that are in the call, and no lock. Each statement
is one step of the process that executes it, and the steps of different processes come in any
order.

The arguments of a call are the registers `a0` to `a5` of the process. `argint` takes the low
half of a register, and `argraw` panics on a number that is none of the six, which
`argint(i + 2, ...)` can ask for when `i` has been moved by somebody else. `rgb + i` may then
also lie behind the array. Arithmetic on `int` wraps, division and remainder round to zero.

`stores` and `done` are bookkeeping: the stores to the frame buffer, and the arguments of the
calls that have come to their end, in order.
-/

namespace Xv6.Setpixel

open Function (update)

def FRAMEBUFFER : Int := 0x40000000

def WIDTH : Int32 := 320

def HEIGHT : Int32 := 200

/-- The registers that hold the arguments of a system call. -/
structure Args where
  a0 : UInt64
  a1 : UInt64
  a2 : UInt64
  a3 : UInt64
  a4 : UInt64
  a5 : UInt64
deriving DecidableEq

/-- `argraw`, or `none` where it panics. -/
def argraw (a : Args) (n : Int32) : Option UInt64 :=
  if n = 0 then some a.a0
  else if n = 1 then some a.a1
  else if n = 2 then some a.a2
  else if n = 3 then some a.a3
  else if n = 4 then some a.a4
  else if n = 5 then some a.a5
  else none

/-- `argint`, or `none` where `argraw` panics. -/
def argint (a : Args) (n : Int32) : Option Int32 := (argraw a n).map fun u => u.toUInt32.toInt32

/-- The static variables. `rgb` from 3 on is whatever lies behind the array. -/
structure Statics where
  x : Int32
  y : Int32
  i : Int32
  rgb : Int → Int32

/-- The next statement of a process. -/
inductive Pc
  | idle
  /-- `argint(0, &x)` -/
  | argx
  /-- `argint(1, &y)` -/
  | argy
  /-- The test of the bounds. -/
  | check
  /-- `i = 0` -/
  | init
  /-- `i < 3` -/
  | test
  /-- `argint(i + 2, rgb + i)` -/
  | arg
  /-- `i++` -/
  | incr
  /-- `rgb[0] -= rgb[0] % 64` -/
  | red
  /-- `rgb[1] /= 8` -/
  | green
  /-- `rgb[1] -= rgb[1] % 4` -/
  | greenLow
  /-- `rgb[2] /= 64` -/
  | blue
  /-- The store to the frame buffer. -/
  | store
  /-- `return 0` -/
  | ret
  /-- After `exit(0)`. -/
  | exited
deriving DecidableEq

/-- What a statement does besides setting static variables. -/
inductive Effect
  | quiet
  | store (addr : Int) (val : UInt8)
  | exit

namespace Statics

/-- The coordinates are off the screen. -/
def Outside (v : Statics) : Prop := v.x < 0 ∨ v.y < 0 ∨ WIDTH ≤ v.x ∨ HEIGHT ≤ v.y

instance (v : Statics) : Decidable v.Outside := inferInstanceAs (Decidable (_ ∨ _ ∨ _ ∨ _))

/-- `rgb[k] = c`. -/
def setRgb (v : Statics) (k : Int) (c : Int32) : Statics :=
  { v with rgb := update v.rgb k c }

/-- `FRAMEBUFFER + WIDTH * y + x`, where the product is an `int`. -/
def addr (v : Statics) : Int := FRAMEBUFFER + (WIDTH * v.y).toInt + v.x.toInt

/-- `rgb[0] + rgb[1] + rgb[2]` as a `char`. -/
def val (v : Statics) : UInt8 := (v.rgb 0 + v.rgb 1 + v.rgb 2).toInt8.toUInt8

/-- One statement of a call with arguments `a`: the variables after it, the next statement and
    what else it does. `none` where `argraw` panics or there is no statement. -/
def exec (v : Statics) (a : Args) : Pc → Option (Statics × Pc × Effect)
  | .argx => (argint a 0).map fun c => ({ v with x := c }, .argy, .quiet)
  | .argy => (argint a 1).map fun c => ({ v with y := c }, .check, .quiet)
  | .check => if v.Outside then some (v, .exited, .exit) else some (v, .init, .quiet)
  | .init => some ({ v with i := 0 }, .test, .quiet)
  | .test => if v.i < 3 then some (v, .arg, .quiet) else some (v, .red, .quiet)
  | .arg => (argint a (v.i + 2)).map fun c => (v.setRgb v.i.toInt c, .incr, .quiet)
  | .incr => some ({ v with i := v.i + 1 }, .test, .quiet)
  | .red => some (v.setRgb 0 (v.rgb 0 - v.rgb 0 % 64), .green, .quiet)
  | .green => some (v.setRgb 1 (v.rgb 1 / 8), .greenLow, .quiet)
  | .greenLow => some (v.setRgb 1 (v.rgb 1 - v.rgb 1 % 4), .blue, .quiet)
  | .blue => some (v.setRgb 2 (v.rgb 2 / 64), .store, .quiet)
  | .store => some (v, .ret, .store v.addr v.val)
  | .ret => some (v, .idle, .quiet)
  | .idle => none
  | .exited => none

end Statics

/-- The processes, the variables they share and the memory of the display. -/
structure Sys (P : Type) where
  vars : Statics
  mem : Int → UInt8
  pc : P → Pc
  args : P → Args
  panicked : Bool
  stores : List (Int × UInt8)
  done : List Args

/-- What can happen: a process enters the call, or executes a statement of it. -/
inductive Act (P : Type)
  | call (p : P) (a : Args)
  | run (p : P)

variable {P : Type} [DecidableEq P]

namespace Sys

/-- Nobody has called anything yet, and the display shows `mem`. -/
def init (P : Type) (mem : Int → UInt8) : Sys P :=
  { vars := ⟨0, 0, 0, fun _ => 0⟩, mem := mem, pc := fun _ => .idle
    args := fun _ => ⟨0, 0, 0, 0, 0, 0⟩
    panicked := false, stores := [], done := [] }

/-- What a statement of `p` does besides setting static variables. -/
def apply (s : Sys P) (p : P) : Effect → Sys P
  | .quiet => s
  | .store addr val =>
    { s with
      mem := update s.mem addr val
      stores := s.stores ++ [(addr, val)]
      done := s.done ++ [s.args p] }
  | .exit => { s with done := s.done ++ [s.args p] }

/-- The state after a statement of `p`. -/
def after (s : Sys P) (p : P) (v : Statics) (x : Pc) (e : Effect) : Sys P :=
  Sys.apply { s with vars := v, pc := update s.pc p x } p e

end Sys

/-- One step of the machine, or `none` where it cannot be taken. After a panic nothing can. -/
def step (s : Sys P) : Act P → Option (Sys P)
  | .call p a =>
    if s.panicked = false ∧ s.pc p = .idle then
      some { s with pc := update s.pc p .argx, args := update s.args p a }
    else none
  | .run p =>
    if s.panicked = true ∨ s.pc p = .idle ∨ s.pc p = .exited then none
    else match s.vars.exec (s.args p) (s.pc p) with
      | none => some { s with panicked := true }
      | some (v, x, e) => some (s.after p v x e)

/-- A list of steps taken one after the other. -/
def steps (s : Sys P) : List (Act P) → Option (Sys P)
  | [] => some s
  | a :: as => match step s a with
    | none => none
    | some s' => steps s' as

/-- The values of `for (int c = 0; c < 64; c += k)`. -/
def levels (k : Nat) : List Nat := (List.range (64 / k)).map (k * ·)

/-- What `vgainit` writes to `0x3c9`, one after the other. -/
def vgainit : List Nat :=
  (levels 8).flatMap fun r => (levels 8).flatMap fun g => (levels 16).flatMap fun b => [r, g, b]

/-- An entry of the palette: three bytes each, from the entry on that `0x3c8` was set to, which
    is the first. -/
def entry (i : Nat) : Nat × Nat × Nat :=
  (vgainit.getD (3 * i) 0, vgainit.getD (3 * i + 1) 0, vgainit.getD (3 * i + 2) 0)

end Xv6.Setpixel
