import Xv6.Core.Console
import Xv6.Core.Tables

/-!
# One Call of `consoleread`

`consoleread` of `kernel/console.c` from its call to its return, with the bytes that it stores. What
happens while it sleeps is up to others: of them it sees the character that it takes from the ring
when it runs again, or that it has been killed.
-/

namespace Xv6.Console

/-- The loop with `n` bytes to go, of which `out` are stored. `typed k` is the character that it
    gets when it has stored `k`, or `none` if it is killed. The result is `target - n`. -/
def consolereadFrom (dst : Dst) (typed : Nat → Option UInt8) :
    (n : Nat) → (out : List UInt8) → Int × List UInt8
  | 0, out => (out.length, out)
  | n + 1, out => match typed out.length with
    | none => (-1, out)
    | some c =>
      if c = ctrl 'D' then (out.length, out)
      else
        let r := eitherCopyout dst out.length [c]
        if r.2 = false then (out.length, out ++ r.1)
        else if c = newline then (out.length + 1, out ++ r.1)
        else consolereadFrom dst typed n (out ++ r.1)

/-- The call. Nothing is asked for with `n <= 0`. -/
def consoleread (dst : Dst) (typed : Nat → Option UInt8) (n : Int) : Int × List UInt8 :=
  consolereadFrom dst typed n.toNat []

end Xv6.Console
