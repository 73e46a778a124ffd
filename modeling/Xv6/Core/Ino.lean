import Xv6.Core.Fs

/-!
# Directories and Names

The upper half of `kernel/fs.c`. It uses inodes only through the functions of the
lower half, so those functions are its interface, `IOp`, and `Ino.impl` is what
implements them. Nothing here looks at a block.

A change to the fields of a locked inode is always followed by `iupdate`. The two
together are the operation `update`, and what may be changed in this way is `Meta`:
everything else about an inode on disk is changed by `itrunc`, `writei` and
`ialloc`.

A path is the bytes before its terminating zero. `skipelem` is called in a loop, and
`elems` is the list of names the loop sees. Nothing of the path but that is used.

## Theorems

* `elems_eq`
-/

namespace Xv6

/-- What can be read of a locked inode. -/
structure Attr where
  dev : Nat
  inum : Nat
  type : UInt16
  major : UInt16
  minor : UInt16
  nlink : UInt16
  size : Nat
  deriving DecidableEq, Repr

/-- The fields the code above the inode layer changes itself. -/
structure Meta where
  major : UInt16
  minor : UInt16
  nlink : UInt16
  deriving DecidableEq, Repr

/-- The inode layer. -/
inductive IOp
  | iget (dev inum : Nat)
  | idup (ip : Fin NINODE)
  | ilock (ip : Fin NINODE)
  | iunlock (ip : Fin NINODE)
  | iput (ip : Fin NINODE)
  | ialloc (dev : Nat) (type : UInt16)
  /-- Reading fields of a locked inode. -/
  | load (ip : Fin NINODE)
  /-- Changing fields of a locked inode, and `iupdate`. -/
  | update (ip : Fin NINODE) (f : Meta → Meta)
  | itrunc (ip : Fin NINODE)
  | readi (ip : Fin NINODE) (dst : Dst) (off n : Nat)
  | writei (ip : Fin NINODE) (src : Src) (off n : Nat)
  | beginOp
  | endOp
  | procs
  | setProcs (x : Procs)
  | stop (e : Stop)

/-- What each operation answers. -/
abbrev IOp.Ret : IOp → Type
  | .iget _ _ => Fin NINODE
  | .ialloc _ _ => Fin NINODE
  | .load _ => Attr
  | .readi _ _ _ _ => Int × List UInt8
  | .writei _ _ _ _ => Int
  | .procs => Procs
  | .stop _ => Empty
  | _ => Unit

abbrev IProg : Type → Type := Prog IOp IOp.Ret

def Dinode.getMeta (d : Dinode) : Meta := { major := d.major, minor := d.minor, nlink := d.nlink }

def Dinode.setMeta (d : Dinode) (m : Meta) : Dinode :=
  { d with major := m.major, minor := m.minor, nlink := m.nlink }

def Inode.attr (x : Inode) : Attr :=
  { dev := x.dev, inum := x.inum, type := x.din.type, major := x.din.major, minor := x.din.minor
    nlink := x.din.nlink, size := x.din.size.toNat }

/-- Changing fields of an inode in memory, and then the inode on disk. -/
def Fs.update (sb : Superblock) (ip : Fin NINODE) (f : Meta → Meta) : FProg Unit := do
  let x ← Fs.inode ip
  Fs.setInode ip { x with din := x.din.setMeta (f x.din.getMeta) }
  Fs.iupdate sb ip

/-- The file system's implementation of the inode layer. -/
def Ino.impl (sb : Superblock) : (o : IOp) → FProg o.Ret
  | .iget dev inum => Fs.iget dev inum
  | .idup ip => Fs.idup ip
  | .ilock ip => Fs.ilock sb ip
  | .iunlock ip => Fs.iunlock ip
  | .iput ip => Fs.iput sb ip
  | .ialloc dev type => Fs.ialloc sb dev type
  | .load ip => do return (← Fs.inode ip).attr
  | .update ip f => Fs.update sb ip f
  | .itrunc ip => Fs.itrunc sb ip
  | .readi ip dst off n => Fs.readi sb ip dst off n
  | .writei ip src off n => Fs.writei sb ip src off n
  | .beginOp => Fs.op .beginOp
  | .endOp => Fs.op .endOp
  | .procs => Fs.op .procs
  | .setProcs x => Fs.op (.setProcs x)
  | .stop e => Fs.stop e

/-- A path as `argstr` gives it to a system call, without the zero at its end. -/
structure Path where
  bytes : List UInt8
  noZero : 0 ∉ bytes
  short : bytes.length < MAXPATH

instance : Coe Path (List UInt8) := ⟨Path.bytes⟩

/-- `'/'`. -/
abbrev SLASH : UInt8 := 47

/-- The names `"."` and `".."`. -/
abbrev DOT : List UInt8 := [46]
abbrev DOTDOT : List UInt8 := [46, 46]

/-- `skipelem`: the next name, cut to `DIRSIZ` bytes, and what follows it. -/
def skipelem (path : List UInt8) : Option (List UInt8 × List UInt8) :=
  match path.dropWhile (· = SLASH) with
  | [] => none
  | s => some ((s.takeWhile (· ≠ SLASH)).take DIRSIZ,
      (s.dropWhile (· ≠ SLASH)).dropWhile (· = SLASH))

/-- The names that calling `skipelem` again and again gives. -/
def elemsFrom : (fuel : Nat) → List UInt8 → List (List UInt8)
  | 0, _ => []
  | fuel + 1, path => match skipelem path with
    | none => []
    | some (name, rest) => name :: elemsFrom fuel rest

def elems (path : List UInt8) : List (List UInt8) := elemsFrom path.length path

theorem length_dropWhile_le {α : Type} (p : α → Bool) (l : List α) :
    (l.dropWhile p).length ≤ l.length := (List.dropWhile_sublist p).length_le

theorem length_lt_of_skipelem {path name rest : List UInt8}
    (h : skipelem path = some (name, rest)) :
    rest.length < path.length := by
  unfold skipelem at h
  split at h
  · cases h
  next s hs =>
    rcases hcons : path.dropWhile (· = SLASH) with _ | ⟨c, t⟩
    · exact absurd hcons hs
    · have hc : c ≠ SLASH := by
        have := List.head?_dropWhile_not (· = SLASH) path
        simpa [hcons] using this
      rw [hcons, Option.some.injEq, Prod.mk.injEq, List.dropWhile_cons_of_pos (by simp [hc])] at h
      have h1 := length_dropWhile_le (· = SLASH) (t.dropWhile (· ≠ SLASH))
      have h2 := length_dropWhile_le (· ≠ SLASH) t
      have h3 := length_dropWhile_le (· = SLASH) path
      rw [hcons, List.length_cons] at h3
      rw [← h.2]
      omega

theorem elemsFrom_eq {fuel : Nat} {path : List UInt8} (h : path.length ≤ fuel) :
    elemsFrom fuel path = elems path := by
  induction fuel using Nat.strong_induction_on generalizing path with
  | _ fuel ih =>
    unfold elems
    cases fuel with
    | zero => rw [Nat.le_zero.mp h]
    | succ fuel =>
      cases hlen : path.length with
      | zero =>
        rw [List.length_eq_zero_iff.mp hlen]
        rfl
      | succ n =>
        rw [elemsFrom, elemsFrom]
        rcases hs : skipelem path with _ | ⟨name, rest⟩
        · rfl
        · have hlt := length_lt_of_skipelem hs
          simp only [ih fuel (Nat.lt_succ_self fuel) (show rest.length ≤ fuel by omega)]
          rw [ih n (by omega) (show rest.length ≤ n by omega)]

theorem elems_eq (path : List UInt8) :
    elems path = match skipelem path with
      | none => []
      | some (name, rest) => name :: elems rest := by
  conv_lhs => rw [← elemsFrom_eq (Nat.le_succ path.length), elemsFrom]
  rcases hs : skipelem path with _ | ⟨name, rest⟩
  · rfl
  · have hlt := length_lt_of_skipelem hs
    simp only [elemsFrom_eq (Nat.le_of_lt hlt)]

namespace Ino

/-- The program of one operation. -/
def op (o : IOp) : IProg o.Ret := Prog.call o

def iget (dev inum : Nat) : IProg (Fin NINODE) := op (.iget dev inum)

def idup (ip : Fin NINODE) : IProg Unit := op (.idup ip)

def ilock (ip : Fin NINODE) : IProg Unit := op (.ilock ip)

def iunlock (ip : Fin NINODE) : IProg Unit := op (.iunlock ip)

def iput (ip : Fin NINODE) : IProg Unit := op (.iput ip)

def iunlockput (ip : Fin NINODE) : IProg Unit := do
  iunlock ip
  iput ip

def ialloc (dev : Nat) (type : UInt16) : IProg (Fin NINODE) := op (.ialloc dev type)

def load (ip : Fin NINODE) : IProg Attr := op (.load ip)

def update (ip : Fin NINODE) (f : Meta → Meta) : IProg Unit := op (.update ip f)

def itrunc (ip : Fin NINODE) : IProg Unit := op (.itrunc ip)

def readi (ip : Fin NINODE) (dst : Dst) (off n : Nat) : IProg (Int × List UInt8) :=
  op (.readi ip dst off n)

def writei (ip : Fin NINODE) (src : Src) (off n : Nat) : IProg Int := op (.writei ip src off n)

def beginOp : IProg Unit := op .beginOp

def endOp : IProg Unit := op .endOp

def procs : IProg Procs := op .procs

def setProcs (x : Procs) : IProg Unit := op (.setProcs x)

def stop {α : Type} (e : Stop) : IProg α := .op (.stop e) fun r => nomatch r

def panic {α : Type} (p : Panic) : IProg α := stop (.panic p)

/-- The loop of `dirlookup` from byte `off` on. -/
def dirlookupFrom (dp : Fin NINODE) (a : Attr) (name : List UInt8) :
    (fuel off : Nat) → IProg (Option (Fin NINODE × Nat))
  | 0, _ => pure none
  | fuel + 1, off =>
    if off < a.size then do
      let r ← readi dp .kernel off DIRENT
      if r.1 ≠ DIRENT then panic .dirlookupRead
      else if (Dirent.dec r.2).inum = 0 then dirlookupFrom dp a name fuel (off + DIRENT)
      else if namecmp name (Dirent.dec r.2).name = 0 then do
        let ip ← iget a.dev (Dirent.dec r.2).inum.toNat
        return some (ip, off)
      else dirlookupFrom dp a name fuel (off + DIRENT)
    else pure none

/-- `dirlookup`: the inode an entry names, and the offset of the entry. -/
def dirlookup (dp : Fin NINODE) (name : List UInt8) : IProg (Option (Fin NINODE × Nat)) := do
  let a ← load dp
  if a.type ≠ T_DIR then panic .dirlookupNotDir
  else dirlookupFrom dp a name (a.size / DIRENT + 1) 0

/-- The second loop of `dirlink`: the offset of an unused entry, or the end. -/
def freeSlotFrom (dp : Fin NINODE) (size : Nat) : (fuel off : Nat) → IProg Nat
  | 0, off => pure off
  | fuel + 1, off =>
    if off < size then do
      let r ← readi dp .kernel off DIRENT
      if r.1 ≠ DIRENT then panic .dirlinkRead
      else if (Dirent.dec r.2).inum = 0 then return off
      else freeSlotFrom dp size fuel (off + DIRENT)
    else pure off

/-- `dirlink`, answering whether the entry was written. -/
def dirlink (dp : Fin NINODE) (name : List UInt8) (inum : Nat) : IProg Bool := do
  match ← dirlookup dp name with
  | some (ip, _) => do
    iput ip
    return false
  | none => do
    let a ← load dp
    let off ← freeSlotFrom dp a.size (a.size / DIRENT + 1) 0
    let r ← writei dp (.kernel (Dirent.enc (UInt16.ofNat inum) name)) off DIRENT
    if r ≠ DIRENT then panic .dirlink else return true

/-- The loop of `namex` over the names that are left. -/
def namexFrom (parent : Bool) : Fin NINODE → List (List UInt8) →
    IProg (Option (Fin NINODE × List UInt8))
  | ip, [] =>
    if parent then do
      iput ip
      return none
    else return some (ip, [])
  | ip, name :: rest => do
    ilock ip
    let a ← load ip
    if a.type ≠ T_DIR then
      iunlockput ip
      return none
    else if parent = true ∧ rest = [] then
      iunlock ip
      return some (ip, name)
    else
      match ← dirlookup ip name with
      | none => do
        iunlockput ip
        return none
      | some (next, _) => do
        iunlockput ip
        namexFrom parent next rest

/-- `namex` in process `p`, with the last name of the path if it is the parent that
    is asked for. -/
def namex (p : Fin NPROC) (path : List UInt8) (parent : Bool) :
    IProg (Option (Fin NINODE × List UInt8)) := do
  if path.head? = some SLASH then
    let ip ← iget ROOTDEV ROOTINO
    namexFrom parent ip (elems path)
  else
    match ((← procs).proc p).cwd with
    | none => stop .stuck
    | some ip => do
      idup ip
      namexFrom parent ip (elems path)

def namei (p : Fin NPROC) (path : List UInt8) : IProg (Option (Fin NINODE)) := do
  return (← namex p path false).map Prod.fst

def nameiparent (p : Fin NPROC) (path : List UInt8) : IProg (Option (Fin NINODE × List UInt8)) :=
  namex p path true

end Ino

end Xv6
