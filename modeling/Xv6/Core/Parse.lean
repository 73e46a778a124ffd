import Xv6.Core.Sh

/-!
# The Shell's Parser

The parser of `user/sh.c`, from `gettoken` to `nulterminate`. It works on a buffer in place: a word
of the command is a pair of positions in the buffer, and only when the whole line has been parsed
does `nulterminate` put a zero behind each word.

A pointer is a position in the bytes before the terminating zero, and `es` is their number. A
loop of the form `while(s < es && p(*s)) s++` is `span p`. The other reads are made without
looking at `es` first, and reading past the terminating zero is `Stop.bounds`.

`parseexec` fills in the arguments of an `EXEC` node after `parseredirs` has put `REDIR` nodes
around it. The redirections are kept as a list here, in the order in which they are put around,
and `wrap` makes the tree when the node is done.

The recursion is bounded by `fuel`. The loops have rounds enough for the whole buffer.
-/

namespace Xv6.Sh

/-- `" \t\r\n\v"`. -/
def whitespace : List UInt8 := [32, 9, 13, 10, 11]

/-- `"<|>&;()"`. -/
def symbols : List UInt8 := [60, 124, 62, 38, 59, 40, 41]

abbrev MAXARGS : Nat := 10

/-- The calls of `panic`. -/
inductive Panic
  | leftovers
  | unexpected
  | missingFile
  | missingParen
  | parseblock
  | tooManyArgs
deriving DecidableEq, Repr

/-- Why a parse does not return. -/
inductive Stop
  | panic (p : Panic)
  | bounds
  | fuel
deriving DecidableEq, Repr

/-- What `gettoken` returns: `0`, a symbol, `'+'` for `>>`, or `'a'`. -/
inductive Tok
  | zero
  | bar
  | lparen
  | rparen
  | semi
  | amp
  | lt
  | gt
  | plus
  | a
deriving DecidableEq, Repr

/-- A word: where it starts, and where it ends. -/
abbrev Span := Nat × Nat

/-- Redirections put around a command, the first one innermost. -/
def wrap {W : Type} (c : Cmd W) (rs : List (Redir × W)) : Cmd W :=
  rs.foldl (fun c r => .redir c r.1 r.2) c

section

variable (buf : List UInt8)

/-- `while(s < es && p(*s)) s++`. -/
def span (p : UInt8 → Bool) (s : Nat) : Nat := s + ((buf.drop s).takeWhile p).length

/-- `*s`. -/
def load (s : Nat) : Except Stop UInt8 :=
  if s < buf.length then .ok (buf.getD s 0)
  else if s = buf.length then .ok 0
  else .error .bounds

/-- The characters that go on with a word. -/
def inWord (c : UInt8) : Bool := !whitespace.contains c && !symbols.contains c

/-- The `switch` of `gettoken`: what is at `s`, and where it ends. -/
def classify (s : Nat) : Except Stop (Tok × Nat) := do
  let c ← load buf s
  if c = 0 then return (.zero, s)
  else if c = 124 then return (.bar, s + 1)
  else if c = 40 then return (.lparen, s + 1)
  else if c = 41 then return (.rparen, s + 1)
  else if c = 59 then return (.semi, s + 1)
  else if c = 38 then return (.amp, s + 1)
  else if c = 60 then return (.lt, s + 1)
  else if c = 62 then
    let c ← load buf (s + 1)
    if c = 62 then return (.plus, s + 2) else return (.gt, s + 1)
  else return (.a, span buf inWord s)

/-- `gettoken`: the token, `q` and `eq`, and where `*ps` is left. -/
def gettoken (s : Nat) : Except Stop (Tok × Span × Nat) := do
  let q := span buf whitespace.contains s
  let (ret, eq) ← classify buf q
  return (ret, (q, eq), span buf whitespace.contains eq)

/-- `peek`, and where `*ps` is left. -/
def peek (s : Nat) (toks : List UInt8) : Except Stop (Bool × Nat) := do
  let s := span buf whitespace.contains s
  let c ← load buf s
  return (c ≠ 0 && toks.contains c, s)

/-- The redirection of a token. -/
def Tok.redir : Tok → Span → List (Redir × Span)
  | .lt, w => [(.input, w)]
  | .gt, w => [(.output, w)]
  | .plus, w => [(.append, w)]
  | _, _ => []

/-- The loop of `parseredirs`, after the redirections `rs`. -/
def redirsFrom : Nat → List (Redir × Span) → Nat → Except Stop (List (Redir × Span) × Nat)
  | 0, _, _ => .error .fuel
  | fuel + 1, rs, s => do
    let (more, s) ← peek buf s [60, 62]
    if more then
      let (tok, _, s) ← gettoken buf s
      let (file, w, s) ← gettoken buf s
      if file ≠ .a then throw (.panic .missingFile)
      else redirsFrom fuel (rs ++ tok.redir w) s
    else return (rs, s)

/-- `parseredirs`. -/
def parseredirs (rs : List (Redir × Span)) (s : Nat) :
    Except Stop (List (Redir × Span) × Nat) := redirsFrom buf (buf.length + 1) rs s

/-- The loop of `parseexec`, with the arguments and redirections so far. -/
def argsFrom : Nat → List Span → List (Redir × Span) → Nat →
    Except Stop (List Span × List (Redir × Span) × Nat)
  | 0, _, _, _ => .error .fuel
  | fuel + 1, argv, rs, s => do
    let (done, s) ← peek buf s [124, 41, 38, 59]
    if done then return (argv, rs, s)
    else
      let (tok, w, s) ← gettoken buf s
      if tok = .zero then return (argv, rs, s)
      else if tok ≠ .a then throw (.panic .unexpected)
      else if MAXARGS ≤ argv.length + 1 then throw (.panic .tooManyArgs)
      else
        let (rs, s) ← parseredirs buf rs s
        argsFrom fuel (argv ++ [w]) rs s

/-- `parseblock`, with `parseline` as a parameter. -/
def parseblock (parseline : Nat → Except Stop (Cmd Span × Nat)) (s : Nat) :
    Except Stop (Cmd Span × Nat) := do
  let (opened, s) ← peek buf s [40]
  if !opened then throw (.panic .parseblock)
  else
    let (_, _, s) ← gettoken buf s
    let (cmd, s) ← parseline s
    let (closed, s) ← peek buf s [41]
    if !closed then throw (.panic .missingParen)
    else
      let (_, _, s) ← gettoken buf s
      let (rs, s) ← parseredirs buf [] s
      return (wrap cmd rs, s)

/-- `parseexec`, with `parseline` as a parameter. -/
def parseexec (parseline : Nat → Except Stop (Cmd Span × Nat)) (s : Nat) :
    Except Stop (Cmd Span × Nat) := do
  let (opened, s) ← peek buf s [40]
  if opened then parseblock buf parseline s
  else
    let (rs, s) ← parseredirs buf [] s
    let (argv, rs, s) ← argsFrom buf (buf.length + 1) [] rs s
    return (wrap (.exec argv) rs, s)

/-- The loop of `parseline` over `&`. -/
def ampsFrom : Nat → Cmd Span → Nat → Except Stop (Cmd Span × Nat)
  | 0, _, _ => .error .fuel
  | fuel + 1, cmd, s => do
    let (more, s) ← peek buf s [38]
    if more then
      let (_, _, s) ← gettoken buf s
      ampsFrom fuel (.back cmd) s
    else return (cmd, s)

mutual

/-- `parseline`. -/
def parseline : Nat → Nat → Except Stop (Cmd Span × Nat)
  | 0, _ => .error .fuel
  | fuel + 1, s => do
    let (cmd, s) ← parsepipe fuel s
    let (cmd, s) ← ampsFrom buf (buf.length + 1) cmd s
    let (more, s) ← peek buf s [59]
    if more then
      let (_, _, s) ← gettoken buf s
      let (right, s) ← parseline fuel s
      return (.list cmd right, s)
    else return (cmd, s)

/-- `parsepipe`. -/
def parsepipe : Nat → Nat → Except Stop (Cmd Span × Nat)
  | 0, _ => .error .fuel
  | fuel + 1, s => do
    let (cmd, s) ← parseexec buf (parseline fuel) s
    let (more, s) ← peek buf s [124]
    if more then
      let (_, _, s) ← gettoken buf s
      let (right, s) ← parsepipe fuel s
      return (.pipe cmd right, s)
    else return (cmd, s)

end

end

/-- `nulterminate`, on the memory `m` of the buffer. -/
def nulterminate : Cmd Span → (Nat → UInt8) → (Nat → UInt8)
  | .exec argv, m => argv.foldl (fun m w => Function.update m w.2 0) m
  | .redir c _ file, m => Function.update (nulterminate c m) file.2 0
  | .pipe l r, m => nulterminate r (nulterminate l m)
  | .list l r, m => nulterminate r (nulterminate l m)
  | .back c, m => nulterminate c m

/-- Rounds enough for a buffer. -/
def rounds (n : Nat) : Nat := 2 * n + 2

/-- `parsecmd` on the string at the start of `s`: the tree, and the memory of the string, with a
    zero behind it. -/
def parsecmd (s : List UInt8) : Except Stop (Cmd Span × (Nat → UInt8)) := do
  -- es = s + strlen(s)
  let buf := s.takeWhile (· ≠ 0)
  let (cmd, s) ← parseline buf (rounds buf.length) 0
  let (_, s) ← peek buf s []
  if s ≠ buf.length then throw (.panic .leftovers)
  else return (cmd, nulterminate cmd fun i => buf.getD i 0)

end Xv6.Sh
