import Xv6.Core.Sysfile

/-!
# The Shell's Commands

The command trees of `user/sh.c` and `runcmd`, which runs one.

`runcmd` never returns. It changes the descriptors of the process it runs in and forks
processes for parts of the tree, and each of them goes its own way with a copy of the
descriptors. No process sees the descriptors of another, so what a tree does is told by what
each of its processes does. `runcmd` here answers that as a list: each `exec` and each `wait`
with the descriptors open at that moment. A process is named by the place in the tree of the
node it runs, and so is the pipe of a `PIPE` node and the file of a `REDIR` node, which is
what makes them differ from all others.

`open`, `dup` and `pipe` take the lowest free descriptors, as `fdalloc` does. Opening a file
and forking succeed; a full table still makes `open` and `pipe` fail as in the source.
-/

namespace Xv6.Sh

/-- The three tokens `parseredirs` makes a `REDIR` from: `<`, `>` and `>>`. -/
inductive Redir
  | input
  | output
  | append
deriving DecidableEq, Repr

/-- The `mode` of the `REDIR`. -/
def Redir.mode : Redir → UInt32
  | .input => O_RDONLY
  | .output => O_WRONLY ||| O_CREATE ||| O_TRUNC
  | .append => O_WRONLY ||| O_CREATE

/-- The `fd` of the `REDIR`. -/
def Redir.fd : Redir → Fin NOFILE
  | .input => 0
  | .output => 1
  | .append => 1

/-- `struct cmd` and the structures it stands for, over words of type `W`. `argv` is the array
    up to its null pointer. -/
inductive Cmd (W : Type)
  | exec (argv : List W)
  | redir (cmd : Cmd W) (op : Redir) (file : W)
  | pipe (left right : Cmd W)
  | list (left right : Cmd W)
  | back (cmd : Cmd W)
deriving DecidableEq, Repr

/-- One step down a tree. -/
inductive Dir
  | body
  | left
  | right
deriving DecidableEq, Repr

/-- A node of a tree: the way up to the root. -/
abbrev Place := List Dir

/-- What a descriptor stands for: something open before, the file opened by the `REDIR` node
    at a place, or an end of the pipe made by the `PIPE` node at a place. -/
inductive File (W F : Type)
  | inherited (f : F)
  | opened (node : Place) (name : W) (mode : UInt32)
  | pipeRead (node : Place)
  | pipeWrite (node : Place)
deriving DecidableEq, Repr

/-- `ofile` of a process. -/
abbrev Ofile (A : Type) := Fin NOFILE → Option A

namespace Ofile

variable {A : Type}

/-- `fdalloc`. -/
def fdalloc (t : Ofile A) (f : A) : Option (Fin NOFILE × Ofile A) :=
  ((List.finRange NOFILE).find? fun fd => (t fd).isNone).map
    fun fd => (fd, Function.update t fd (some f))

/-- `close`, which does nothing on a descriptor that is not open. -/
def close (t : Ofile A) (fd : Fin NOFILE) : Ofile A := Function.update t fd none

/-- `dup`, with its result not looked at. -/
def dup (t : Ofile A) (fd : Fin NOFILE) : Ofile A :=
  match t fd with
  | none => t
  | some f => match t.fdalloc f with
    | none => t
    | some (_, t') => t'

/-- `pipe`, with the two descriptors it stores. -/
def pipe (t : Ofile A) (rf wf : A) : Option ((Fin NOFILE × Fin NOFILE) × Ofile A) :=
  match t.fdalloc rf with
  | none => none
  | some (fd0, t') => match t'.fdalloc wf with
    | none => none
    | some (fd1, t'') => some ((fd0, fd1), t'')

end Ofile

/-- What a process of the tree does at a node. -/
inductive Event (W F : Type)
  | exec (node : Place) (argv : List W) (ofile : Ofile (File W F))
  | wait (node : Place) (ofile : Ofile (File W F))

variable {W F : Type}

/-- The part of a `PIPE` that runs in the child for its left side, up to `runcmd`. -/
def pipeLeft (t : Ofile (File W F)) (p : Fin NOFILE × Fin NOFILE) : Ofile (File W F) :=
  (((t.close 1).dup p.2).close p.1).close p.2

/-- The same for its right side. -/
def pipeRight (t : Ofile (File W F)) (p : Fin NOFILE × Fin NOFILE) : Ofile (File W F) :=
  (((t.close 0).dup p.1).close p.1).close p.2

/-- `runcmd` of the node at a place, in a process with descriptors `t`. What a forked process
    does stands at the place of its `fork1`. A simple command of no words is `exit(1)`. -/
def runcmd : Cmd W → Place → Ofile (File W F) → List (Event W F)
  | .exec argv, node, t => if argv = [] then [] else [.exec node argv t]
  | .redir cmd op file, node, t =>
    match (t.close op.fd).fdalloc (.opened node file op.mode) with
    -- open failed: exit(1)
    | none => []
    | some (_, t') => runcmd cmd (.body :: node) t'
  | .list left right, node, t =>
    runcmd left (.left :: node) t ++ .wait node t :: runcmd right (.right :: node) t
  | .pipe left right, node, t =>
    match t.pipe (.pipeRead node) (.pipeWrite node) with
    -- panic("pipe")
    | none => []
    | some (p, t') =>
      runcmd left (.left :: node) (pipeLeft t' p) ++
        (runcmd right (.right :: node) (pipeRight t' p) ++
          -- the two calls of wait, with the same descriptors
          [.wait node ((t'.close p.1).close p.2), .wait node ((t'.close p.1).close p.2)])
  | .back cmd, node, t => runcmd cmd (.body :: node) t

end Xv6.Sh
