import Mathlib.Tactic.SplitIfs

/-!
# The grep Program

The matcher of `user/grep.c` and the loop that finds the lines of its input. Strings are their
bytes up to the terminating zero, so `*text != '\0'` is a list that is not empty.

`matchhere` and `matchstar` call each other. A call has a shorter pattern, or the same pattern
and a shorter text, or is the call of `matchhere` that `matchstar` begins with.

The buffer is the `m` bytes in it that count. Call number `i` of `read` gives `pick i` bytes, but
at least one, unless it is given no room or there is nothing left.
-/

namespace Xv6.Grep

/-- `'^'`. -/
abbrev CARET : UInt8 := 94

/-- `'*'`. -/
abbrev STAR : UInt8 := 42

/-- `'$'`. -/
abbrev DOLLAR : UInt8 := 36

/-- `'.'`. -/
abbrev DOT : UInt8 := 46

/-- `'\n'`. -/
abbrev NEWLINE : UInt8 := 10

/-- `sizeof(buf)`. -/
abbrev BUFSIZE : Nat := 1024

mutual

/-- `matchhere`. -/
def matchhere (re text : List UInt8) : Bool :=
  match re with
  | [] => true
  | c :: re =>
    if re.head? = some STAR then matchstar c re.tail text
    else if c = DOLLAR ∧ re = [] then text.isEmpty
    else match text with
      | [] => false
      | t :: text => (c = DOT || c = t) && matchhere re text
termination_by (re.length, text.length, 0)

/-- `matchstar`. -/
def matchstar (c : UInt8) (re text : List UInt8) : Bool :=
  matchhere re text ||
    match text with
    | [] => false
    | t :: text => (t = c || c = DOT) && matchstar c re text
termination_by (re.length, text.length, 1)

end

/-- The loop of `match`. -/
def matchFrom (re : List UInt8) : List UInt8 → Bool
  | [] => matchhere re []
  | t :: text => matchhere re (t :: text) || matchFrom re text

/-- `match`. -/
def matchRe (re text : List UInt8) : Bool :=
  match re with
  | [] => matchFrom [] text
  | c :: re => if c = CARET then matchhere re text else matchFrom (c :: re) text

/-- `strchr`, as the distance from `s`. -/
def strchr : List UInt8 → UInt8 → Option Nat
  | [], _ => none
  | d :: s, c =>
    if d = 0 then none
    else if d = c then some 0
    else (strchr s c).map (· + 1)

theorem strchr_lt {s : List UInt8} {c : UInt8} {q : Nat} (h : strchr s c = some q) :
    q < s.length := by
  induction s generalizing q with
  | nil => cases h
  | cons d s ih =>
    unfold strchr at h
    split_ifs at h
    · cases h
      exact Nat.succ_pos _
    · obtain ⟨k, hk, rfl⟩ := Option.map_eq_some_iff.mp h
      exact Nat.succ_lt_succ (ih hk)

/-- The loop over the lines in the buffer, from `p`: what is written, and what is left. -/
def linesFrom (pattern p : List UInt8) : List UInt8 × List UInt8 :=
  match _hq : strchr p NEWLINE with
  | none => ([], p)
  | some q =>
    let (out, left) := linesFrom pattern (p.drop (q + 1))
    (if matchRe pattern (p.take q) then p.take (q + 1) ++ out else out, left)
termination_by p.length
decreasing_by
  have := strchr_lt _hq
  rw [List.length_drop]
  omega

/-- What `read` returns when it is given `room` bytes and `rest` is left of the input. -/
def readSize (pick room : Nat) (rest : List UInt8) : Nat :=
  if room = 0 then 0 else min (max 1 pick) (min room rest.length)

theorem readSize_le (pick room : Nat) (rest : List UInt8) :
    readSize pick room rest ≤ rest.length := by
  unfold readSize
  split_ifs <;> omega

/-- The loop of `grep`: what is written, with `buf` in the buffer. -/
def grepFrom (pattern : List UInt8) (pick : Nat → Nat) (i : Nat) (buf rest : List UInt8) :
    List UInt8 :=
  let n := readSize (pick i) (BUFSIZE - buf.length - 1) rest
  if n = 0 then []
  else
    let (out, left) := linesFrom pattern (buf ++ rest.take n)
    out ++ grepFrom pattern pick (i + 1) left (rest.drop n)
termination_by rest.length
decreasing_by
  have : n ≤ rest.length := readSize_le ..
  rw [List.length_drop]
  omega

/-- `grep` of an input. -/
def grep (pattern : List UInt8) (pick : Nat → Nat) (input : List UInt8) : List UInt8 :=
  grepFrom pattern pick 0 [] input

end Xv6.Grep
