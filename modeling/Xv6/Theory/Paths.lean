import Xv6.Lib.Agree
import Xv6.Theory.Icache
import Xv6.Theory.Mkfs.Mounted

/-!
# Paths

`namex` follows a path from the root or a working directory, one name after the other. It takes a
reference to an inode for every name and drops the one before, so at its end it has a reference
to the inode it returns and to no other.

What the path leads to is said by the disk alone: `follow` looks the names up in the blocks of
directories, whatever is in the table of inodes. The names are those between the slashes.

## Theorems

* `Paths.path_resolution`
-/

namespace Xv6.Paths

open Prog (run_bind_ok)
open Mkfs (itable_put_self itable_put_of_ne ref slot fileByte)
open List (mem_cons_of_mem mem_cons_self splitOn)
open Prod (fst)

/-! ## Names -/

/-- The names of a path: what is between slashes, cut to `DIRSIZ` bytes. -/
def names (path : List UInt8) : List (List UInt8) :=
  ((path.splitOn SLASH).filter (· ≠ [])).map (·.take DIRSIZ)

theorem names_slash (l : List UInt8) : names (SLASH :: l) = names l := by
  unfold names splitOn
  rw [List.splitOnP_cons_eq_if_modifyHead, if_pos (beq_self_eq_true SLASH),
    List.filter_cons_of_neg (by simp)]

theorem names_dropWhile (l : List UInt8) : names (l.dropWhile (· = SLASH)) = names l := by
  induction l with
  | nil => rfl
  | cons a l ih =>
    by_cases ha : a = SLASH
    · rw [List.dropWhile_cons_of_pos (by simpa using ha), ih, ha, names_slash]
    · rw [List.dropWhile_cons_of_neg (by simpa using ha)]

variable {w l : List UInt8}

theorem splitOn_append (hw : SLASH ∉ w) :
    (w ++ l).splitOn SLASH = (l.splitOn SLASH).modifyHead (w ++ ·) := by
  induction w with
  | nil =>
    rw [List.nil_append]
    generalize l.splitOn SLASH = ws
    cases ws <;> rfl
  | cons a w ih =>
    have ha : ¬ (a == SLASH) = true := fun h => hw (beq_iff_eq.1 h ▸ mem_cons_self ..)
    have hrest := ih fun h => hw (mem_cons_of_mem _ h)
    unfold splitOn at hrest ⊢
    rw [List.cons_append, List.splitOnP_cons_eq_if_modifyHead, if_neg ha, hrest,
      List.modifyHead_modifyHead]
    rfl

theorem names_append (hne : w ≠ []) (hw : SLASH ∉ w)
    (hl : l = [] ∨ ∃ l', l = SLASH :: l') : names (w ++ l) = w.take DIRSIZ :: names l := by
  rcases hl with rfl | ⟨l', rfl⟩
  · unfold names
    rw [splitOn_append hw]
    simp [splitOn, hne]
  · rw [names_slash]
    unfold names
    rw [splitOn_append hw]
    unfold splitOn
    rw [List.splitOnP_cons_eq_if_modifyHead, if_pos (beq_self_eq_true SLASH),
      List.modifyHead_cons, List.append_nil,
      List.filter_cons_of_pos (by simpa using hne), List.map_cons]

theorem dropWhile_slash (l : List UInt8) :
    l.dropWhile (· ≠ SLASH) = [] ∨ ∃ l', l.dropWhile (· ≠ SLASH) = SLASH :: l' := by
  induction l with
  | nil => exact .inl rfl
  | cons a l ih =>
    by_cases ha : a = SLASH
    · exact .inr ⟨l, by rw [List.dropWhile_cons_of_neg (by simpa using ha), ha]⟩
    · rw [List.dropWhile_cons_of_pos (by simpa using ha)]
      exact ih

theorem elems_eq_names (path : List UInt8) : elems path = names path := by
  induction h : path.length using Nat.strong_induction_on generalizing path with
  | _ n ih =>
    rw [elems_eq]
    cases hs : skipelem path with
    | none =>
      unfold skipelem at hs
      split at hs
      · next hdrop =>
        rw [← names_dropWhile, hdrop]
        rfl
      · cases hs
    | some x =>
      obtain ⟨name, rest⟩ := x
      have hlt := length_lt_of_skipelem hs
      dsimp only
      rw [ih rest.length (by omega) rest rfl, ← names_dropWhile path]
      unfold skipelem at hs
      cases hd : path.dropWhile (· = SLASH) with
      | nil =>
        rw [hd] at hs
        cases hs
      | cons a l =>
        rw [hd] at hs
        cases hs
        have ha : a ≠ SLASH := by
          intro heq
          have hhead := List.head?_dropWhile_not (fun c => decide (c = SLASH)) path
          rw [hd] at hhead
          simp [heq] at hhead
        rw [names_dropWhile]
        conv_rhs => rw [← List.takeWhile_append_dropWhile (p := (· ≠ SLASH)) (l := a :: l)]
        refine (names_append ?_ ?_ (dropWhile_slash _)).symm
        · rw [List.takeWhile_cons_of_pos (by simpa using ha)]
          exact List.cons_ne_nil _ _
        · intro hmem
          have := List.mem_takeWhile_imp hmem
          simp at this

/-! ## Directories on the disk -/

section Disk

variable (sb : Superblock) (c : Nat → Block)

/-- The inode `i` of a disk. -/
def dinodeAt (i : Nat) : Dinode := (c (sb.IBLOCK i)).dinode (i % IPB)

/-- Entry `j` of the directory `i`. -/
def direntAt (i j : Nat) : Dirent :=
  Dirent.dec ((List.range DIRENT).map fun k => fileByte (dinodeAt sb c) c i (DIRENT * j + k))

/-- The entry is in use and has the name. -/
def Names (i j : Nat) (name : List UInt8) : Prop :=
  (direntAt sb c i j).inum ≠ 0 ∧ cstr DIRSIZ (direntAt sb c i j).name = name

instance (i j : Nat) (name : List UInt8) : Decidable (Names sb c i j name) := instDecidableAnd

/-- The inode that the directory `i` has under the name: that of the first entry with it. -/
def entry (i : Nat) (name : List UInt8) : Option Nat :=
  ((List.range ((dinodeAt sb c i).size.toNat / DIRENT)).find? fun j => Names sb c i j name).map
    fun j => (direntAt sb c i j).inum.toNat

/-- The inode that names lead to, from the inode `i`. -/
def follow : Nat → List (List UInt8) → Option Nat
  | i, [] => some i
  | i, name :: rest =>
    if (dinodeAt sb c i).type = T_DIR then (entry sb c i name).bind fun j => follow j rest
    else none

/-- The directory that all names but the last lead to, and the last. -/
def parent (i : Nat) (l : List (List UInt8)) : Option (Nat × List UInt8) :=
  match l.getLast? with
  | none => none
  | some name => (follow sb c i l.dropLast).bind fun d =>
    if (dinodeAt sb c d).type = T_DIR then some (d, name) else none

/-- What `namex` looks for, name by name. -/
def walk (up : Bool) : Nat → List (List UInt8) → Option (Nat × List UInt8)
  | i, [] => if up then none else some (i, [])
  | i, name :: rest =>
    if (dinodeAt sb c i).type = T_DIR then
      if up = true ∧ rest = [] then some (i, name)
      else (entry sb c i name).bind fun j => walk up j rest
    else none

variable {sb c}

theorem walk_false (i : Nat) (l : List (List UInt8)) :
    (walk sb c false i l).map fst = follow sb c i l := by
  induction l generalizing i with
  | nil => rfl
  | cons name rest ih =>
    rw [walk, follow]
    rw [if_neg fun hup : false = true ∧ rest = [] => Bool.false_ne_true hup.1]
    split_ifs with hdir
    · cases entry sb c i name with
      | none => rfl
      | some j => exact ih j
    · rfl

theorem walk_true (i : Nat) (l : List (List UInt8)) : walk sb c true i l = parent sb c i l := by
  induction l generalizing i with
  | nil => rfl
  | cons name rest ih =>
    rw [walk]
    cases rest with
    | nil =>
      rw [if_pos (⟨rfl, rfl⟩ : true = true ∧ ([] : List (List UInt8)) = [])]
      rfl
    | cons name' rest =>
      rw [if_neg fun h : true = true ∧ name' :: rest = [] => List.cons_ne_nil _ _ h.2]
      unfold parent
      rw [List.getLast?_cons_cons, List.dropLast_cons_cons, follow]
      by_cases hdir : (dinodeAt sb c i).type = T_DIR
      · rw [if_pos hdir, if_pos hdir]
        cases entry sb c i name with
        | none =>
          cases (name' :: rest).getLast? <;> rfl
        | some j => exact ih j
      · rw [if_neg hdir, if_neg hdir]
        cases (name' :: rest).getLast? <;> rfl

end Disk

/-! ## The walk -/

section Walks

variable (sb : Superblock) (v0 : Vol)

/-- An inode that is in use, and which dropping a reference does not free: it has a link, or
    somebody refers to it. -/
structure Kept (i : Nat) : Prop where
  lt : i < sb.ninodes
  type : (dinodeAt sb v0.cur i).type ≠ 0
  named : (dinodeAt sb v0.cur i).nlink ≠ 0 ∨
    ∃ jp, 0 < (v0.itable jp).ref ∧ (v0.itable jp).inum = i

/-- A directory that can be searched: whole entries, in blocks that are there, each of them unused
    or for an inode in use. -/
structure TreeDir (i : Nat) : Prop where
  size : (dinodeAt sb v0.cur i).size.toNat ≤ MAXFILE * BSIZE
  whole : (dinodeAt sb v0.cur i).size.toNat % DIRENT = 0
  mapped : ∀ k < (dinodeAt sb v0.cur i).size.toNat,
    ref (dinodeAt sb v0.cur) v0.cur i (slot (k / BSIZE)) ≠ 0
  entries : ∀ j < (dinodeAt sb v0.cur i).size.toNat / DIRENT, (direntAt sb v0.cur i j).inum ≠ 0 →
    Kept sb v0 (direntAt sb v0.cur i j).inum.toNat

/-- An entry of the table in the middle of a walk that began in `v0`, has taken the references
    `own` and locked `lk`. -/
structure Entry (lk : Option (Fin NINODE)) (own : List (Fin NINODE)) (jp : Fin NINODE) (x : Inode) :
    Prop where
  refs : x.ref = (v0.itable jp).ref + own.count jp
  old : 0 < (v0.itable jp).ref → x.inum = (v0.itable jp).inum
  kept : 0 < x.ref → Kept sb v0 x.inum
  inode : 0 < x.ref → x.dev = ROOTDEV ∧ (x.valid = true → x.din = dinodeAt sb v0.cur x.inum)
  locked : x.locked = true ↔ lk = some jp

/-- How far a walk has got: the blocks are those it began with, and an inode has one entry. -/
structure Walking (lk : Option (Fin NINODE)) (own : List (Fin NINODE)) (v : Vol) : Prop where
  cur : v.cur = v0.cur
  held : v.held = []
  procs : v.procs = v0.procs
  entries : ∀ jp, Entry sb v0 lk own jp (v.itable jp)
  once : ∀ ip jp, 0 < (v.itable ip).ref → 0 < (v.itable jp).ref →
    (v.itable ip).inum = (v.itable jp).inum → ip = jp

/-- A state whose directories are in order, with nothing locked: the inodes in memory are those of
    the disk, one entry each. -/
structure Tree : Prop where
  idle : Walking sb v0 none [] v0
  dirs : ∀ i < sb.ninodes, (dinodeAt sb v0.cur i).type = T_DIR → TreeDir sb v0 i
  root : Kept sb v0 ROOTINO

variable {sb v0}
variable {lk lk' : Option (Fin NINODE)} {own own' : List (Fin NINODE)} {v : Vol}
  {ip dp : Fin NINODE}

variable {y : Inode} {i : Nat} {name : List UInt8}

section

variable (h : Walking sb v0 lk own v)

include h

theorem Walking.put (hy : Entry sb v0 lk' own' ip y)
    (hown : ∀ jp, jp ≠ ip → own'.count jp = own.count jp ∧ (lk' = some jp ↔ lk = some jp))
    (honce : 0 < y.ref → ∀ jp, jp ≠ ip → 0 < (v.itable jp).ref → (v.itable jp).inum ≠ y.inum) :
    Walking sb v0 lk' own' (Mkfs.put v ip y) := by
  have hself : (Mkfs.put v ip y).itable ip = y := itable_put_self
  have hother : ∀ jp, jp ≠ ip → (Mkfs.put v ip y).itable jp = v.itable jp := fun jp hjp =>
    itable_put_of_ne hjp
  refine ⟨h.cur, h.held, h.procs, fun jp => ?_, fun jp kp hjp hkp heq => ?_⟩
  · by_cases hj : jp = ip
    · rw [hj, hself]
      exact hy
    · have hx := h.entries jp
      rw [hother jp hj]
      exact ⟨by rw [hx.refs, (hown jp hj).1], hx.old, hx.kept, hx.inode,
        hx.locked.trans (hown jp hj).2.symm⟩
  · grind [h.once]

theorem Walking.update (href : 0 < (v.itable ip).ref)
    (hnum : y.inum = (v.itable ip).inum) (hy : Entry sb v0 lk' own' ip y)
    (hown : ∀ jp, jp ≠ ip → own'.count jp = own.count jp ∧ (lk' = some jp ↔ lk = some jp)) :
    Walking sb v0 lk' own' (Mkfs.put v ip y) ∧
      ∀ jp, ((Mkfs.put v ip y).itable jp).inum = (v.itable jp).inum := by
  refine ⟨h.put hy hown fun _ jp hjp hpos heq => hjp (h.once jp ip hpos href (heq.trans hnum)),
    fun jp => ?_⟩
  by_cases hj : jp = ip
  · rw [hj, itable_put_self, hnum]
  · rw [itable_put_of_ne hj]

theorem Walking.ref_pos (hip : ip ∈ own) : 0 < (v.itable ip).ref := by
  rw [(h.entries ip).refs]
  have := List.count_pos_iff.mpr hip
  omega

theorem Walking.take (href : 0 < (v.itable ip).ref) :
    let w := Mkfs.put v ip { v.itable ip with ref := (v.itable ip).ref + 1 }
    Walking sb v0 lk (ip :: own) w ∧ ∀ jp, (w.itable jp).inum = (v.itable jp).inum := by
  have hx := h.entries ip
  refine h.update href rfl ⟨?_, hx.old, fun _ => hx.kept href, fun _ => hx.inode href, hx.locked⟩
    fun jp hjp => ⟨List.count_cons_of_ne (Ne.symm hjp), Iff.rfl⟩
  change (v.itable ip).ref + 1 = _
  rw [hx.refs, List.count_cons_self]
  omega

theorem Walking.iget (hi : Kept sb v0 i)
    (hfree : ∃ jp, (v.itable jp).ref = 0) :
    ∃ jp w, (Ino.iget ROOTDEV i).run (Vol.handle.via (Ino.impl sb)) v = .ok (jp, w) ∧
      Walking sb v0 lk (jp :: own) w ∧ (w.itable jp).inum = i := by
  by_cases hhit : ∃ kp, 0 < (v.itable kp).ref ∧ (v.itable kp).inum = i
  · obtain ⟨kp, hkp, hinum⟩ := hhit
    have hfind : ∃ jp, Fs.lookup (fun jp => (v.itable jp).toSlot) ROOTDEV i = some (jp, true) := by
      unfold Fs.lookup
      have hsome : ((List.finRange NINODE).find?
          (Fs.holds (fun jp => (v.itable jp).toSlot) ROOTDEV i)).isSome := by
        rw [List.find?_isSome]
        refine ⟨kp, List.mem_finRange kp, ?_⟩
        simp only [Fs.holds, Bool.and_eq_true, decide_eq_true_eq, beq_iff_eq]
        exact ⟨⟨hkp, ((h.entries kp).inode hkp).1⟩, hinum⟩
      obtain ⟨jp, hjp⟩ := Option.isSome_iff_exists.mp hsome
      exact ⟨jp, by rw [hjp]⟩
    obtain ⟨jp, hl⟩ := hfind
    obtain ⟨href, -, hnum⟩ := Icache.lookup_hit hl
    obtain ⟨hw, hnums⟩ := h.take href
    exact ⟨jp, _, Mkfs.op_run (Mkfs.iget_hit_run hl), hw, (hnums jp).trans hnum⟩
  · have hnone : ∀ jp, 0 < (v.itable jp).ref → (v.itable jp).inum ≠ i := fun jp hjp heq =>
      hhit ⟨jp, hjp, heq⟩
    obtain ⟨jp, hl, hzero⟩ := Mkfs.lookup_unused (t := fun jp => (v.itable jp).toSlot) ROOTDEV i
      hnone hfree
    change (v.itable jp).ref = 0 at hzero
    have hx := h.entries jp
    have hnew := hx.refs
    refine ⟨jp, _, Mkfs.op_run (Mkfs.iget_miss_run hl), h.put
      ⟨?_, fun hpos => by omega, fun _ => hi, fun _ => ⟨rfl, fun h => by cases h⟩, hx.locked⟩
      (fun kp hkp => ⟨List.count_cons_of_ne (Ne.symm hkp), Iff.rfl⟩)
      fun _ kp _ hpos heq => hnone kp hpos heq, ?_⟩
    · rw [List.count_cons_self]
      change 1 = _
      omega
    · rw [itable_put_self]

end

theorem Walking.ilock (h : Walking sb v0 none own v) (hip : ip ∈ own) :
    ∃ w, (Ino.ilock ip).run (Vol.handle.via (Ino.impl sb)) v = .ok ((), w) ∧
      Walking sb v0 (some ip) own w ∧ (w.itable ip).valid = true ∧
      (w.itable ip).inum = (v.itable ip).inum := by
  have href := h.ref_pos hip
  have hx := h.entries ip
  have hlocked : (v.itable ip).locked = false := by
    rw [← Bool.not_eq_true, hx.locked]
    nofun
  -- Read now or before, the inode in memory is that of the disk.
  let x : Inode := { v.itable ip with
    locked := true, valid := true, din := dinodeAt sb v0.cur (v.itable ip).inum }
  have hrun : (Fs.ilock sb ip).run Vol.handle v = .ok ((), Mkfs.put v ip x) := by
    cases hvalid : (v.itable ip).valid with
    | true =>
      unfold Fs.ilock
      rw [run_bind_ok Mkfs.inode_run, if_neg (by omega), if_neg (by rw [hlocked]; decide),
        run_bind_ok Mkfs.setInode_run, if_pos hvalid]
      unfold x
      rw [← (hx.inode href).2 hvalid, ← hvalid]
      rfl
    | false =>
      exact Mkfs.ilock_run h.held rfl href hlocked hvalid (by rw [h.cur]; rfl) (hx.kept href).type
  have hy : Entry sb v0 (some ip) own ip x := ⟨hx.refs, hx.old, fun _ => hx.kept href,
    fun _ => ⟨(hx.inode href).1, fun _ => rfl⟩, iff_of_true rfl rfl⟩
  obtain ⟨hw, hnums⟩ := h.update (y := x) href rfl hy fun jp hjp =>
    ⟨rfl, iff_of_false (fun heq => hjp (Option.some.inj heq).symm) nofun⟩
  refine ⟨_, Mkfs.op_run hrun, hw, ?_, hnums ip⟩
  rw [itable_put_self]

theorem Walking.iunlock (h : Walking sb v0 (some ip) own v) (hip : ip ∈ own) :
    ∃ w, (Ino.iunlock ip).run (Vol.handle.via (Ino.impl sb)) v = .ok ((), w) ∧
      Walking sb v0 none own w ∧ ∀ jp, (w.itable jp).inum = (v.itable jp).inum := by
  have href := h.ref_pos hip
  have hx := h.entries ip
  exact ⟨_, Mkfs.op_run (o := .iunlock ip) (Mkfs.iunlock_run rfl (hx.locked.2 rfl) href),
    h.update href rfl ⟨hx.refs, hx.old, fun _ => hx.kept href, fun _ => hx.inode href,
      iff_of_false nofun nofun⟩ fun jp hjp =>
        ⟨rfl, iff_of_false nofun fun heq => hjp (Option.some.inj heq).symm⟩⟩

theorem Walking.iput (h : Walking sb v0 lk own v) (hperm : own.Perm (ip :: own')) :
    ∃ w, (Ino.iput ip).run (Vol.handle.via (Ino.impl sb)) v = .ok ((), w) ∧
      Walking sb v0 lk own' w ∧ ∀ jp, (w.itable jp).inum = (v.itable jp).inum := by
  have href := h.ref_pos (hperm.mem_iff.mpr (mem_cons_self ..))
  have hx := h.entries ip
  have hcount := hx.refs
  rw [hperm.count_eq, List.count_cons_self] at hcount
  have hsafe : ¬ ((v.itable ip).ref = 1 ∧ (v.itable ip).valid = true ∧
      (v.itable ip).din.nlink = 0) := by
    rintro ⟨hone, hvalid, hnlink⟩
    rw [(hx.inode href).2 hvalid] at hnlink
    rcases (hx.kept href).named with hlink | ⟨jp, hjp, hnum⟩
    · exact hlink hnlink
    · -- Whoever else refers to the inode does so through the same entry.
      have hpos : 0 < (v.itable jp).ref := by
        rw [(h.entries jp).refs]
        omega
      obtain rfl : jp = ip := h.once jp ip hpos href (((h.entries jp).old hjp).trans hnum)
      omega
  refine ⟨_, Mkfs.op_run (o := .iput ip) (Mkfs.iput_run rfl hsafe), h.update href rfl
    ⟨?_, hx.old, fun _ => hx.kept href, fun _ => hx.inode href, hx.locked⟩ fun jp hjp =>
      ⟨by rw [hperm.count_eq, List.count_cons_of_ne (Ne.symm hjp)], Iff.rfl⟩⟩
  change (v.itable ip).ref - 1 = _
  omega

theorem Walking.iunlockput (h : Walking sb v0 (some ip) own v) (hperm : own.Perm (ip :: own')) :
    ∃ w, (Ino.iunlockput ip).run (Vol.handle.via (Ino.impl sb)) v = .ok ((), w) ∧
      Walking sb v0 none own' w ∧ ∀ jp, (w.itable jp).inum = (v.itable jp).inum := by
  obtain ⟨u, hrun, hu, hnum⟩ := h.iunlock (hperm.mem_iff.mpr (mem_cons_self ..))
  obtain ⟨w, hrun', hw, hnum'⟩ := hu.iput hperm
  refine ⟨w, ?_, hw, fun jp => (hnum' jp).trans (hnum jp)⟩
  unfold Ino.iunlockput
  rw [run_bind_ok hrun, hrun']

section

variable (h : Walking sb v0 lk own v)

include h

theorem Walking.din (hip : ip ∈ own)
    (hvalid : (v.itable ip).valid = true) :
    (v.itable ip).din = dinodeAt sb v0.cur (v.itable ip).inum :=
  ((h.entries ip).inode (h.ref_pos hip)).2 hvalid

theorem Walking.load (hip : ip ∈ own)
    (hvalid : (v.itable ip).valid = true) (hi : (v.itable ip).inum = i) :
    ∃ a, (Ino.load ip).run (Vol.handle.via (Ino.impl sb)) v = .ok (a, v) ∧ a.dev = ROOTDEV ∧
      a.type = (dinodeAt sb v0.cur i).type ∧ a.size = (dinodeAt sb v0.cur i).size.toNat := by
  refine ⟨(v.itable ip).attr, Mkfs.op_run (o := .load ip) rfl,
    ((h.entries ip).inode (h.ref_pos hip)).1, ?_, ?_⟩
  · rw [← hi, ← h.din hip hvalid]
    rfl
  · rw [← hi, ← h.din hip hvalid]
    rfl

theorem Walking.readDirent (hdp : dp ∈ own)
    (hvalid : (v.itable dp).valid = true) (hdir : TreeDir sb v0 (v.itable dp).inum) {j : Nat}
    (hj : j < (dinodeAt sb v0.cur (v.itable dp).inum).size.toNat / DIRENT) :
    ∃ l, (Ino.readi dp .kernel (DIRENT * j) DIRENT).run (Vol.handle.via (Ino.impl sb)) v =
      .ok ((((DIRENT : Nat) : Int), l), v) ∧
      Dirent.dec l = direntAt sb v0.cur (v.itable dp).inum j := by
  have hsize := hdir.size
  simp only [MAXFILE, NDIRECT, NINDIRECT, BSIZE, DIRENT] at hsize hj
  have hdst : Mkfs.Dst.Takes .kernel := fun _ _ => rfl
  have hmapped : ∀ k, DIRENT * j ≤ k → k < DIRENT * j + DIRENT →
      k < (dinodeAt sb v0.cur (v.itable dp).inum).size.toNat → k / BSIZE < MAXFILE ∧
        ref (dinodeAt sb v0.cur) v.cur (v.itable dp).inum (slot (k / BSIZE)) ≠ 0 := by
    intro k _ _ hk
    rw [h.cur]
    refine ⟨?_, hdir.mapped k hk⟩
    simp only [BSIZE, MAXFILE, NDIRECT, NINDIRECT]
    omega
  have hrun : (Fs.readi sb dp .kernel (DIRENT * j) DIRENT).run Vol.handle v = _ :=
    Mkfs.readi_run hdst h.held (h.din hdp hvalid) (by simp only [DIRENT]; omega) hmapped
  have hmin : min DIRENT ((dinodeAt sb v0.cur (v.itable dp).inum).size.toNat - DIRENT * j) =
      DIRENT := by
    simp only [DIRENT]
    omega
  rw [hmin, h.cur] at hrun
  exact ⟨_, Mkfs.op_run (o := .readi dp .kernel (DIRENT * j) DIRENT) hrun, rfl⟩

theorem Walking.dirlookupFrom (hdp : dp ∈ own)
    (hvalid : (v.itable dp).valid = true) (hdir : TreeDir sb v0 (v.itable dp).inum) {a : Attr}
    (hsize : a.size = (dinodeAt sb v0.cur (v.itable dp).inum).size.toNat)
    (hname : cstr DIRSIZ name = name) :
    ∀ n j fuel, j + n = a.size / DIRENT → n < fuel →
      (Ino.dirlookupFrom dp a name fuel (DIRENT * j)).run (Vol.handle.via (Ino.impl sb)) v =
        match (List.range' j n).find? fun k => Names sb v0.cur (v.itable dp).inum k name with
        | none => .ok (none, v)
        | some k => (do
            let ip ← Ino.iget a.dev (direntAt sb v0.cur (v.itable dp).inum k).inum.toNat
            return some (ip, DIRENT * k) : IProg _).run (Vol.handle.via (Ino.impl sb)) v := by
  have hwhole := hdir.whole
  intro n
  induction n with
  | zero =>
    intro j fuel hj hfuel
    obtain ⟨fuel, rfl⟩ : ∃ m, fuel = m + 1 := ⟨fuel - 1, by omega⟩
    have hend : ¬ DIRENT * j < a.size := by
      simp only [DIRENT] at hj hwhole ⊢
      omega
    rw [Ino.dirlookupFrom, if_neg hend]
    rfl
  | succ n ih =>
    intro j fuel hj hfuel
    obtain ⟨fuel, rfl⟩ : ∃ m, fuel = m + 1 := ⟨fuel - 1, by omega⟩
    have hlt : DIRENT * j < a.size := by
      simp only [DIRENT] at hj ⊢
      omega
    obtain ⟨l, hrun, hdec⟩ := h.readDirent hdp hvalid hdir (j := j) (by rw [← hsize]; omega)
    have hnext : DIRENT * j + DIRENT = DIRENT * (j + 1) := (Nat.mul_succ _ _).symm
    have hrest := ih (j + 1) fuel (by omega) (by omega)
    have hcmp : namecmp name (direntAt sb v0.cur (v.itable dp).inum j).name = 0 ↔
        name = cstr DIRSIZ (direntAt sb v0.cur (v.itable dp).inum j).name := by
      rw [namecmp_eq_zero_iff, hname]
    rw [Ino.dirlookupFrom, if_pos hlt, run_bind_ok hrun, if_neg (by simp), hdec, hnext,
      List.range'_succ]
    -- An unused entry and one with another name are passed over alike.
    by_cases hfree : (direntAt sb v0.cur (v.itable dp).inum j).inum = 0
    · rw [if_pos hfree, List.find?_cons_of_neg (by simp [Names, hfree]), hrest]
    · rw [if_neg hfree]
      by_cases heq : cstr DIRSIZ (direntAt sb v0.cur (v.itable dp).inum j).name = name
      · rw [if_pos (hcmp.mpr heq.symm), List.find?_cons_of_pos (by simp [Names, hfree, heq])]
      · rw [if_neg fun hzero => heq (hcmp.mp hzero).symm,
          List.find?_cons_of_neg (by simp [Names, heq]), hrest]

theorem Walking.dirlookup (hdp : dp ∈ own)
    (hvalid : (v.itable dp).valid = true) (hdir : TreeDir sb v0 (v.itable dp).inum)
    (htype : (dinodeAt sb v0.cur (v.itable dp).inum).type = T_DIR)
    (hname : cstr DIRSIZ name = name) (hfree : ∃ jp, (v.itable jp).ref = 0) :
    (entry sb v0.cur (v.itable dp).inum name = none ∧
      (Ino.dirlookup dp name).run (Vol.handle.via (Ino.impl sb)) v = .ok (none, v)) ∨
    ∃ jp off w, entry sb v0.cur (v.itable dp).inum name = some (w.itable jp).inum ∧
      (Ino.dirlookup dp name).run (Vol.handle.via (Ino.impl sb)) v = .ok (some (jp, off), w) ∧
      Walking sb v0 lk (jp :: own) w := by
  obtain ⟨a, hload, hdev, hatype, hasize⟩ := h.load hdp hvalid rfl
  have hloop := h.dirlookupFrom hdp hvalid hdir hasize hname (a.size / DIRENT) 0
    (a.size / DIRENT + 1) (Nat.zero_add _) (Nat.lt_succ_self _)
  have hrun : (Ino.dirlookup dp name).run (Vol.handle.via (Ino.impl sb)) v =
      (Ino.dirlookupFrom dp a name (a.size / DIRENT + 1) (DIRENT * 0)).run
        (Vol.handle.via (Ino.impl sb)) v := by
    unfold Ino.dirlookup
    rw [run_bind_ok hload, if_neg (by rw [hatype, htype]; decide), Nat.mul_zero]
  rw [hrun, hloop, ← List.range_eq_range', hasize]
  unfold entry
  cases hfind : (List.range ((dinodeAt sb v0.cur (v.itable dp).inum).size.toNat / DIRENT)).find?
      fun k => Names sb v0.cur (v.itable dp).inum k name with
  | none => exact .inl ⟨rfl, rfl⟩
  | some k =>
    have hk : Names sb v0.cur (v.itable dp).inum k name := by
      simpa using List.find?_some hfind
    have hlt := List.mem_range.mp (List.mem_of_find?_eq_some hfind)
    obtain ⟨jp, w, hget, hw, hnum⟩ := h.iget (hdir.entries k hlt hk.1) hfree
    refine .inr ⟨jp, DIRENT * k, w, congrArg some hnum.symm, ?_, hw⟩
    dsimp only
    rw [hdev, run_bind_ok hget]
    rfl

end

/-- Two entries of the table are unused. -/
def Spare (v : Vol) : Prop :=
  ∃ a b : Fin NINODE, a ≠ b ∧ (v.itable a).ref = 0 ∧ (v.itable b).ref = 0

theorem Walking.unused (h : Walking sb v0 lk [ip] v) (hspare : Spare v0) :
    ∃ jp, (v.itable jp).ref = 0 := by
  obtain ⟨a, b, hab, ha, hb⟩ := hspare
  have hcount : ∀ jp, jp ≠ ip → [ip].count jp = 0 := fun jp hjp =>
    List.count_eq_zero.mpr (by simpa using hjp)
  by_cases hip : a = ip
  · exact ⟨b, by rw [(h.entries b).refs, hb, hcount b (fun heq => hab (hip.trans heq.symm))]⟩
  · exact ⟨a, by rw [(h.entries a).refs, ha, hcount a hip]⟩

theorem Walking.namexFrom (ht : Tree sb v0) (hspare : Spare v0) (up : Bool) :
    ∀ (l : List (List UInt8)) (ip : Fin NINODE) (v : Vol), (∀ name ∈ l, cstr DIRSIZ name = name) →
      Walking sb v0 none [ip] v →
      ∃ r w, (Ino.namexFrom up ip l).run (Vol.handle.via (Ino.impl sb)) v = .ok (r, w) ∧
        r.map (fun x => ((w.itable x.1).inum, x.2)) = walk sb v0.cur up (v.itable ip).inum l ∧
        Walking sb v0 none (r.map fst).toList w := by
  intro l
  induction l with
  | nil =>
    intro ip v _ h
    cases up with
    | false => exact ⟨some (ip, []), v, rfl, rfl, h⟩
    | true =>
      obtain ⟨w, hput, hw, -⟩ := h.iput (List.Perm.refl _)
      refine ⟨none, w, ?_, rfl, hw⟩
      rw [Ino.namexFrom, if_pos rfl, run_bind_ok hput]
      rfl
  | cons name rest ih =>
    intro ip v hnames h
    have hmem : ip ∈ [ip] := List.mem_singleton.mpr rfl
    obtain ⟨u, hlock, hu, hvalid, hnum⟩ := h.ilock hmem
    obtain ⟨a, hload, -, htype, -⟩ := hu.load hmem hvalid hnum
    rw [Ino.namexFrom, walk, run_bind_ok hlock, run_bind_ok hload, htype]
    by_cases hdir : (dinodeAt sb v0.cur (v.itable ip).inum).type = T_DIR
    · rw [if_neg (not_not.mpr hdir), if_pos hdir]
      by_cases hlast : up = true ∧ rest = []
      · -- The parent of the last name stays referred to.
        obtain ⟨w, hunlock, hw, hnum'⟩ := hu.iunlock hmem
        refine ⟨some (ip, name), w, ?_, ?_, hw⟩
        · rw [if_pos hlast, run_bind_ok hunlock]
          rfl
        · rw [if_pos hlast, Option.map_some, hnum' ip, hnum]
      · rw [if_neg hlast, if_neg hlast]
        have hkept := (hu.entries ip).kept (hu.ref_pos hmem)
        rcases hu.dirlookup hmem hvalid (ht.dirs _ hkept.lt (by rw [hnum]; exact hdir))
          (by rw [hnum]; exact hdir) (hnames name (mem_cons_self ..)) (hu.unused hspare)
          with ⟨hnone, hlook⟩ | ⟨jp, off, t, hsome, hlook, ht'⟩
        · obtain ⟨w, hput, hw, -⟩ := hu.iunlockput (List.Perm.refl _)
          rw [hnum] at hnone
          refine ⟨none, w, ?_, by rw [hnone]; rfl, hw⟩
          rw [run_bind_ok hlook]
          dsimp only
          rw [run_bind_ok hput]
          rfl
        · obtain ⟨w, hput, hw, hnum'⟩ := ht'.iunlockput (List.Perm.swap ip jp [])
          obtain ⟨r, z, hrun, hr, hz⟩ := ih jp w
            (fun x hx => hnames x (mem_cons_of_mem _ hx)) hw
          rw [hnum] at hsome
          refine ⟨r, z, ?_, ?_, hz⟩
          · rw [run_bind_ok hlook]
            dsimp only
            rw [run_bind_ok hput]
            exact hrun
          · rw [hr, hnum' jp, hsome]
            rfl
    · obtain ⟨w, hput, hw, -⟩ := hu.iunlockput (List.Perm.refl _)
      refine ⟨none, w, ?_, by rw [if_neg hdir]; rfl, hw⟩
      rw [if_pos hdir, run_bind_ok hput]
      rfl

end Walks

/-! ## The calls -/

section Calls

variable {sb : Superblock} {v : Vol} {p : Fin NPROC} {path : List UInt8} {i : Nat}

theorem mem_of_mem_splitOn {w : List UInt8} {b : UInt8} (hw : w ∈ path.splitOn SLASH) (hb : b ∈ w) :
    b ∈ path := by
  unfold splitOn at hw
  induction path generalizing w with
  | nil =>
    rw [List.mem_singleton.mp hw] at hb
    cases hb
  | cons a l ih =>
    rw [List.splitOnP_cons_eq_if_modifyHead] at hw
    split_ifs at hw
    · rcases List.mem_cons.mp hw with rfl | hw
      · cases hb
      · exact mem_cons_of_mem _ (ih hw hb)
    · cases hs : l.splitOnP (· == SLASH) with
      | nil =>
        rw [hs] at hw
        cases hw
      | cons x xs =>
        rw [hs] at hw ih
        rcases List.mem_cons.mp hw with rfl | hw
        · rcases List.mem_cons.mp hb with rfl | hb
          · exact mem_cons_self ..
          · exact mem_cons_of_mem _ (ih (mem_cons_self ..) hb)
        · exact mem_cons_of_mem _ (ih (mem_cons_of_mem _ hw) hb)

theorem cstr_of_mem_names {name : List UInt8} (hzero : 0 ∉ path) (h : name ∈ names path) :
    cstr DIRSIZ name = name := by
  obtain ⟨w, hw, rfl⟩ := List.mem_map.mp h
  unfold cstr
  rw [List.take_take, Nat.min_self, List.takeWhile_eq_self_iff]
  intro b hb
  have hne : b ≠ 0 := fun heq => hzero
    (heq ▸ mem_of_mem_splitOn (List.mem_of_mem_filter hw) (List.mem_of_mem_take hb))
  simpa using hne

/-- The inode where a path begins: the root, or the working directory of the process. -/
def Begins (v : Vol) (p : Fin NPROC) (path : List UInt8) (i : Nat) : Prop :=
  if path.head? = some SLASH then i = ROOTINO
  else ∃ ip, (v.procs.proc p).cwd = some ip ∧ 0 < (v.itable ip).ref ∧ (v.itable ip).inum = i

/-- One reference to the inode returned is new, and nothing else is. -/
def Leaves (v w : Vol) (r : Option (Fin NINODE)) : Prop :=
  w.cur = v.cur ∧ w.procs = v.procs ∧
    ∀ jp, (w.itable jp).ref = (v.itable jp).ref + if r = some jp then 1 else 0

theorem Tree.namex (h : Tree sb v) (hspare : Spare v) (hzero : 0 ∉ path)
    (hi : Begins v p path i) (up : Bool) :
    ∃ r w, (Ino.namex p path up).run (Vol.handle.via (Ino.impl sb)) v = .ok (r, w) ∧
      r.map (fun x => ((w.itable x.1).inum, x.2)) = walk sb v.cur up i (names path) ∧
      Leaves v w (r.map fst) := by
  -- The first reference, and the loop from there.
  have hloop : ∀ ip u, Walking sb v none [ip] u → (u.itable ip).inum = i →
      ∃ r w, (Ino.namexFrom up ip (elems path)).run (Vol.handle.via (Ino.impl sb)) u = .ok (r, w) ∧
        r.map (fun x => ((w.itable x.1).inum, x.2)) = walk sb v.cur up i (names path) ∧
        Leaves v w (r.map fst) := by
    intro ip u hu hnum
    obtain ⟨r, w, hrun, hr, hw⟩ := Walking.namexFrom h hspare up (names path) ip u
      (fun name hname => cstr_of_mem_names hzero hname) hu
    refine ⟨r, w, by rw [elems_eq_names]; exact hrun, by rw [hr, hnum], hw.cur, hw.procs,
      fun jp => ?_⟩
    rw [(hw.entries jp).refs]
    cases r with
    | none => rfl
    | some x => simp [List.count_singleton]
  unfold Ino.namex
  unfold Begins at hi
  split_ifs at hi ⊢ with hslash
  · obtain ⟨a, -, -, ha, -⟩ := hspare
    obtain ⟨ip, u, hget, hu, hnum⟩ := h.idle.iget h.root ⟨a, ha⟩
    rw [run_bind_ok hget]
    exact hloop ip u hu (hnum.trans hi.symm)
  · obtain ⟨ip, hcwd, href, hnum⟩ := hi
    obtain ⟨hu, hnums⟩ := h.idle.take href
    have hprocs : Ino.procs.run (Vol.handle.via (Ino.impl sb)) v = .ok (v.procs, v) :=
      Mkfs.op_run (o := .procs) rfl
    have hdup : (Ino.idup ip).run (Vol.handle.via (Ino.impl sb)) v = .ok ((), _) :=
      Mkfs.op_run (o := .idup ip) rfl
    rw [run_bind_ok hprocs, hcwd]
    dsimp only
    rw [run_bind_ok hdup]
    exact hloop ip _ hu ((hnums ip).trans hnum)

/-- `namei` and `nameiparent` find what the names of a path lead to, and keep a reference to that
    alone, as long as the table of inodes has two entries to spare. -/
theorem path_resolution (h : Tree sb v) (hspare : Spare v) (hzero : 0 ∉ path)
    (hi : Begins v p path i) : (∃ r w, Vol.runI sb (Ino.namei p path) v = .ok (r, w) ∧
      r.map (fun ip => (w.itable ip).inum) = follow sb v.cur i (names path) ∧ Leaves v w r) ∧
    ∃ r w, Vol.runI sb (Ino.nameiparent p path) v = .ok (r, w) ∧
      r.map (fun x => ((w.itable x.1).inum, x.2)) = parent sb v.cur i (names path) ∧
      Leaves v w (r.map fst) := by
  unfold Vol.runI
  simp only [Prog.run_expand]
  constructor
  · obtain ⟨r, w, hrun, hr, hw⟩ := h.namex hspare hzero hi false
    refine ⟨r.map fst, w, ?_, ?_, hw⟩
    · unfold Ino.namei
      rw [run_bind_ok hrun]
      rfl
    · rw [← walk_false, ← hr, Option.map_map, Option.map_map]
      rfl
  · obtain ⟨r, w, hrun, hr, hw⟩ := h.namex hspare hzero hi true
    exact ⟨r, w, hrun, by rw [hr, walk_true], hw⟩

/-- A disk with the file `a` in its root, and forty-nine files that have lost their names. -/
def nameless : Nat → Block := fun b =>
  if b = 46 then Block.zero.blit 0 (Dirent.enc 1 DOT ++ Dirent.enc 1 DOTDOT ++ Dirent.enc 2 [97])
  else Block.ofBytes fun o =>
    let i := IPB * (b - 32) + o / 64
    let d : Dinode :=
      if i = 1 then { Dinode.zero with type := T_DIR, nlink := 1, size := 48, addrs := fun _ => 46 }
      else if i = 2 then { Dinode.zero with type := T_FILE, nlink := 1 }
      else if i < 52 then { Dinode.zero with type := T_FILE }
      else Dinode.zero
    d.enc (o % 64)

/-- The root is in use, and so are `n` of the files without a name. -/
def opened (n : Nat) : Vol :=
  { Vol.boot mkfs.sb nameless with itable := fun jp =>
      let inum := if jp.val = 0 then ROOTINO else jp.val + 2
      { dev := ROOTDEV, inum := inum, ref := if jp.val ≤ n then 1 else 0, locked := false,
        valid := true, din := dinodeAt mkfs.sb nameless inum } }

theorem opened_tree (n : Nat) : Tree mkfs.sb (opened n) := by
  have hlinks : ∀ i < 3, i ≠ 0 → (dinodeAt mkfs.sb nameless i).type ≠ 0 ∧
      (dinodeAt mkfs.sb nameless i).nlink ≠ 0 := by
    decide +kernel
  have hnamed : ∀ i < 3, i ≠ 0 → Kept mkfs.sb (opened n) i := fun i hi hne =>
    ⟨hi.trans (by decide), (hlinks i hi hne).1, .inl (hlinks i hi hne).2⟩
  have htable : ∀ jp : Fin NINODE, (if jp.val = 0 then ROOTINO else jp.val + 2) < mkfs.sb.ninodes ∧
      (dinodeAt mkfs.sb nameless (if jp.val = 0 then ROOTINO else jp.val + 2)).type ≠ 0 := by
    decide +kernel
  refine ⟨⟨rfl, rfl, rfl, fun jp => ⟨rfl, fun _ => rfl, fun href => ?_,
    fun _ => ⟨rfl, fun _ => rfl⟩, iff_of_false nofun nofun⟩, fun ip jp _ _ heq => ?_⟩,
    fun i hi htype => ?_, hnamed 1 (by decide) (by decide)⟩
  · exact ⟨(htable jp).1, (htable jp).2, .inr ⟨jp, href, rfl⟩⟩
  · change (if ip.val = 0 then ROOTINO else ip.val + 2) =
      if jp.val = 0 then ROOTINO else jp.val + 2 at heq
    simp only [ROOTINO] at heq
    exact Fin.ext (by split_ifs at heq <;> omega)
  · -- The root is the only directory.
    have hone : ∀ i < mkfs.sb.ninodes, (dinodeAt mkfs.sb nameless i).type = T_DIR → i = 1 := by
      decide +kernel
    have hmapped : ∀ k < 48, ref (dinodeAt mkfs.sb nameless) nameless 1 (slot (k / BSIZE)) ≠ 0 := by
      decide +kernel
    have hinum : ∀ j < 3, (direntAt mkfs.sb nameless 1 j).inum.toNat < 3 ∧
        (direntAt mkfs.sb nameless 1 j).inum.toNat ≠ 0 := by
      decide +kernel
    have hsize : (dinodeAt mkfs.sb nameless 1).size.toNat = 48 := by decide +kernel
    obtain rfl := hone i hi htype
    refine ⟨hsize.trans_le (by decide), (congrArg (· % DIRENT) hsize).trans (by decide),
      fun k hk => hmapped k (hsize ▸ hk), fun j hj _ => ?_⟩
    have hentry := hinum j ((congrArg (j < · / DIRENT) hsize).mp hj)
    exact hnamed _ hentry.1 hentry.2

/-- With two entries of the table unused, `/a` is found. -/
theorem path_resolution_opened :
    ∃ r w, Vol.runI mkfs.sb (Ino.namei 0 [SLASH, 97]) (opened 47) = .ok (r, w) ∧
      r.map (fun ip => (w.itable ip).inum) = some 2 := by
  have hspare : Spare (opened 47) := ⟨48, 49, by decide, rfl, rfl⟩
  have hbegins : Begins (opened 47) 0 [SLASH, 97] ROOTINO := rfl
  obtain ⟨⟨r, w, hrun, hr, -⟩, -⟩ := path_resolution (opened_tree 47) hspare (by decide) hbegins
  exact ⟨r, w, hrun, hr.trans (by decide +kernel)⟩

/-- With none, looking for it is a panic. -/
theorem full_table_panics : Tree mkfs.sb (opened 49) ∧ Begins (opened 49) 0 [SLASH, 97] ROOTINO ∧
    follow mkfs.sb (opened 49).cur ROOTINO (names [SLASH, 97]) = some 2 ∧
    Vol.runI mkfs.sb (Ino.namei 0 [SLASH, 97]) (opened 49) = .error (.panic .igetNoInodes) := by
  refine ⟨opened_tree 49, rfl, by decide +kernel, ?_⟩
  exact Option.some.inj (stops_of_run (by decide +kernel))

end Calls

end Xv6.Paths
