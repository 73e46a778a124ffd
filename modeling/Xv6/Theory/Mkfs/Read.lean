import Xv6.Theory.Mkfs.Contents
import Xv6.Lib.View

/-!
# The Kernel Reads

What the functions of the kernel do that only read: `bmap` and `readi` of a file that has its
blocks, `ilock` of an inode that is not in memory yet, and the search of a directory. They come
back to the state they started from, but for the table of inodes, so a proof can rewrite with
them one after the other.

## Theorems

* `Mkfs.bmap_run`, `Mkfs.readi_run`
-/

namespace Xv6

namespace Prog

variable {Op : Type} {Ret : Op → Type} {S E α β : Type}

theorem run_bind_ok {h : Handler Op Ret S E} {p : Prog Op Ret α} {f : α → Prog Op Ret β} {s s' : S}
    {a : α} (hp : p.run h s = .ok (a, s')) : (p >>= f).run h s = (f a).run h s' := by
  rw [run_bind, hp]

end Prog

namespace Mkfs

section Blocks

variable {sb : Superblock} {D : Nat → Dinode} {v : Vol} {ip : Fin NINODE} {i bn : Nat}

theorem inode_run : (Fs.inode ip).run Vol.handle v = .ok (v.itable ip, v) := rfl

/-- The machine with the buffer of one block held. -/
def hold (v : Vol) (b : Nat) : Vol := { v with held := [b] }

variable {b off : Nat} {dst : Dst}

theorem bread_run (h : v.held = []) :
    (Fs.bread b).run Vol.handle v = .ok (v.cur b, hold v b) := by
  unfold Fs.bread Fs.op
  rw [Prog.run_call]
  simp only [Vol.handle, h, List.not_mem_nil, if_false]
  rfl

theorem brelse_run (h : v.held = []) :
    (Fs.brelse b).run Vol.handle (hold v b) = .ok ((), v) := by
  have hmem : b ∈ [b] := List.mem_singleton.mpr rfl
  unfold Fs.brelse Fs.op
  rw [Prog.run_call]
  simp only [Vol.handle, hold, if_pos hmem, List.erase_cons_head]
  rw [← h]

theorem bmapAddr_run {k : Fin (NDIRECT + 1)} (hk : (v.itable ip).din.addrs k ≠ 0) :
    (Fs.bmapAddr sb ip k).run Vol.handle v = .ok (((v.itable ip).din.addrs k).toNat, v) := by
  unfold Fs.bmapAddr
  rw [Prog.run_bind_ok inode_run, if_neg hk]
  rfl

theorem bmap_run (hheld : v.held = []) (hdin : (v.itable ip).din = D i) (hbn : bn < MAXFILE)
    (hsome : ref D v.cur i (slot bn) ≠ 0) :
    (Fs.bmap sb ip bn).run Vol.handle v = .ok (ref D v.cur i (slot bn), v) := by
  by_cases hdirect : bn < NDIRECT
  · have hk : bn < NDIRECT + 1 := by omega
    have hslot : slot bn = bn := if_pos hdirect
    rw [hslot, ref_addr hk] at hsome ⊢
    unfold Fs.bmap
    rw [dif_pos hdirect, bmapAddr_run]
    · rw [hdin]
    · rw [hdin]
      exact fun hz => hsome (by rw [hz]; rfl)
  · have hslot : slot bn = NDIRECT + 1 + (bn - NDIRECT) := by
      rw [slot, if_neg hdirect]
      omega
    have hrange : bn - NDIRECT < NINDIRECT := by
      simp only [MAXFILE] at hbn
      omega
    -- A file block behind the direct ones is found in the indirect block.
    have hind : ref D v.cur i NDIRECT ≠ 0 := by
      intro hz
      rw [hslot, ref_entry_none hz] at hsome
      exact hsome rfl
    rw [hslot, ref_entry hind, ref_indirect] at hsome ⊢
    rw [ref_indirect] at hind
    have haddr : (v.itable ip).din.addrs (Fin.last NDIRECT) ≠ 0 := by
      rw [hdin]
      exact fun hz => hind (congrArg UInt32.toNat hz)
    have hentry : (v.cur ((D i).addrs indirect).toNat).u32 (4 * (bn - NDIRECT)) ≠ 0 :=
      fun hz => hsome (by rw [hz]; rfl)
    unfold Fs.bmap
    rw [dif_neg hdirect, if_pos hrange, Prog.run_bind_ok (bmapAddr_run haddr), hdin]
    change (Fs.bread ((D i).addrs indirect).toNat >>= _).run Vol.handle v = _
    rw [Prog.run_bind_ok (bread_run hheld), if_neg hentry]
    change (Fs.brelse ((D i).addrs indirect).toNat >>= _).run Vol.handle _ = _
    rw [Prog.run_bind_ok (brelse_run hheld)]
    rfl

theorem slice_eq {m : Nat} (hm : off % BSIZE + m ≤ BSIZE) :
    (v.cur (ref D v.cur i (slot (off / BSIZE)))).slice (off % BSIZE) m =
      (List.range m).map fun j => fileByte D v.cur i (off + j) := by
  refine List.map_congr_left fun j hj => ?_
  have hlt := List.mem_range.mp hj
  have hdiv : (off + j) / BSIZE = off / BSIZE := by
    simp only [BSIZE] at hm ⊢
    omega
  have hmod : (off + j) % BSIZE = off % BSIZE + j := by
    simp only [BSIZE] at hm ⊢
    omega
  rw [fileByte, hdiv, hmod]

/-- A place that bytes can be copied to. -/
def Dst.Takes (dst : Dst) : Prop := ∀ tot l, eitherCopyout dst tot l = (l, true)

theorem readiFrom_run (hdst : Dst.Takes dst) (hheld : v.held = [])
    (hdin : (v.itable ip).din = D i) (n : Nat) :
    ∀ (fuel tot off : Nat) (out : List UInt8), n - tot ≤ fuel → tot ≤ n →
      (∀ k, off ≤ k → k < off + (n - tot) →
        k / BSIZE < MAXFILE ∧ ref D v.cur i (slot (k / BSIZE)) ≠ 0) →
      (Fs.readiFrom sb ip dst n fuel tot off out).run Vol.handle v =
        .ok (((n : Int), out ++ (List.range (n - tot)).map fun j =>
          fileByte D v.cur i (off + j)), v) := by
  intro fuel
  induction fuel with
  | zero =>
    intro tot off out hfuel htot _
    obtain rfl : tot = n := by omega
    rw [Fs.readiFrom, Nat.sub_self, List.range_zero, List.map_nil, List.append_nil]
    rfl
  | succ fuel ih =>
    intro tot off out hfuel htot hmapped
    rw [Fs.readiFrom]
    by_cases hlt : tot < n
    · obtain ⟨m, hm⟩ : ∃ m, m = min (n - tot) (BSIZE - off % BSIZE) := ⟨_, rfl⟩
      have hm' : 0 < m ∧ m ≤ n - tot ∧ off % BSIZE + m ≤ BSIZE := by
        simp only [BSIZE] at hm ⊢
        omega
      obtain ⟨hmax, hsome⟩ := hmapped off (Nat.le_refl _) (by omega)
      rw [if_pos hlt, Prog.run_bind_ok (bmap_run hheld hdin hmax hsome),
        Prog.run_bind_ok (bread_run hheld)]
      dsimp only
      rw [Prog.run_bind_ok (brelse_run hheld), ← hm, hdst, if_pos rfl,
        ih (tot + m) (off + m) _ (by omega) (by omega)
          (fun k h1 h2 => hmapped k (by omega) (by omega)), slice_eq hm'.2.2]
      have hsplit : n - tot = m + (n - (tot + m)) := by omega
      rw [hsplit, List.range_add, List.map_append, List.append_assoc, List.map_map]
      simp only [Function.comp_def, Nat.add_assoc]
    · obtain rfl : tot = n := by omega
      rw [if_neg hlt, Nat.sub_self, List.range_zero, List.map_nil, List.append_nil]
      rfl

theorem readi_run (hdst : Dst.Takes dst) (hheld : v.held = [])
    (hdin : (v.itable ip).din = D i) {n : Nat} (hwrap : off + n < 2 ^ 32)
    (hmapped : ∀ k, off ≤ k → k < off + n → k < (D i).size.toNat →
      k / BSIZE < MAXFILE ∧ ref D v.cur i (slot (k / BSIZE)) ≠ 0) :
    (Fs.readi sb ip dst off n).run Vol.handle v =
      .ok (((min n ((D i).size.toNat - off) : Nat),
      (List.range (min n ((D i).size.toNat - off))).map
        fun j => fileByte D v.cur i (off + j)), v) := by
  unfold Fs.readi
  rw [Prog.run_bind_ok inode_run, hdin]
  by_cases hend : (D i).size.toNat < off
  · rw [if_pos (.inl hend), Nat.sub_eq_zero_of_le (Nat.le_of_lt hend), Nat.min_zero]
    rfl
  · have hmod : (off + n) % 2 ^ 32 = off + n := Nat.mod_eq_of_lt hwrap
    rw [if_neg (by rw [hmod]; omega)]
    have hn : (if (D i).size.toNat < off + n then (D i).size.toNat - off else n) =
        min n ((D i).size.toNat - off) := by
      split_ifs <;> omega
    dsimp only
    rw [hn, readiFrom_run hdst hheld hdin _ _ 0 off [] (Nat.le_of_eq (Nat.sub_zero _))
      (Nat.zero_le _) fun k h1 h2 => hmapped k h1 (by omega) (by omega), Nat.sub_zero,
      List.nil_append]

theorem map_fileByte {c : List UInt8} (hc : ∀ k < c.length, fileByte D v.cur i k = c.getD k 0)
    (off n : Nat) :
    ((List.range (min n (c.length - off))).map fun j => fileByte D v.cur i (off + j)) =
      (c.drop off).take n := by
  refine List.ext_getElem (by simp) fun j h1 h2 => ?_
  rw [List.length_map, List.length_range] at h1
  rw [List.getElem_map, List.getElem_range, hc _ (by omega), List.getElem_take, List.getElem_drop,
    List.getD_eq_getElem _ _ (by omega)]

end Blocks

section Inodes

variable {sb : Superblock} {v : Vol} {ip jp : Fin NINODE} {dev inum : Nat} {x : Inode}

/-- The machine with another inode in an entry of the table. -/
def put (v : Vol) (ip : Fin NINODE) (x : Inode) : Vol :=
  { v with itable := Function.update v.itable ip x }

@[simp] theorem cur_put : (put v ip x).cur = v.cur := rfl

@[simp] theorem held_put : (put v ip x).held = v.held := rfl

@[simp] theorem itable_put_self : (put v ip x).itable ip = x := by
  simp only [put, Function.update_self]

theorem itable_put_of_ne (h : jp ≠ ip) : (put v ip x).itable jp = v.itable jp := by
  simp only [put, Function.update_of_ne h]

theorem put_put (v : Vol) (ip : Fin NINODE) (x y : Inode) : put (put v ip x) ip y = put v ip y := by
  unfold put
  rw [Function.update_idem]

theorem setInode_run : (Fs.setInode ip x).run Vol.handle v = .ok ((), put v ip x) := rfl

theorem iget_hit_run (h : Fs.lookup (fun jp => (v.itable jp).toSlot) dev inum = some (ip, true)) :
    (Fs.iget dev inum).run Vol.handle v =
      .ok (ip, put v ip { v.itable ip with ref := (v.itable ip).ref + 1 }) := by
  have hread : (Fs.op .itable).run Vol.handle v = .ok (v.itable, v) := rfl
  unfold Fs.iget
  rw [Prog.run_bind_ok hread, h]
  rfl

theorem iget_miss_run (h : Fs.lookup (fun jp => (v.itable jp).toSlot) dev inum = some (ip, false)) :
    (Fs.iget dev inum).run Vol.handle v =
      .ok (ip, put v ip
        { v.itable ip with dev := dev, inum := inum, ref := 1, valid := false }) := by
  have hread : (Fs.op .itable).run Vol.handle v = .ok (v.itable, v) := rfl
  unfold Fs.iget
  rw [Prog.run_bind_ok hread, h]
  rfl

theorem ilock_read_run (hheld : v.held = []) (hx : v.itable ip = x) (href : 1 ≤ x.ref)
    (hlocked : x.locked = false) (hvalid : x.valid = false) {d : Dinode}
    (hd : (v.cur (sb.IBLOCK x.inum)).dinode (x.inum % IPB) = d) :
    (Fs.ilock sb ip).run Vol.handle v =
      (if d.type = 0 then Fs.panic .ilockNoType else pure () : FProg Unit).run Vol.handle
        (put v ip { x with locked := true, valid := true, din := d }) := by
  unfold Fs.ilock
  rw [Prog.run_bind_ok inode_run, hx, if_neg (by omega), if_neg (by rw [hlocked]; decide),
    Prog.run_bind_ok setInode_run, if_neg (by rw [hvalid]; decide),
    Prog.run_bind_ok (bread_run (v := put v ip _) hheld), cur_put,
    Prog.run_bind_ok setInode_run, hd]
  -- The buffer is given back with the inode already in the table.
  have hput : put (hold (put v ip { x with locked := true }) (sb.IBLOCK x.inum)) ip
      { x with locked := true, valid := true, din := d } =
      hold (put v ip { x with locked := true, valid := true, din := d }) (sb.IBLOCK x.inum) := by
    exact congrArg (fun w => hold w (sb.IBLOCK x.inum)) (put_put v ip { x with locked := true } _)
  rw [hput, Prog.run_bind_ok (brelse_run (v := put v ip _) hheld)]

theorem ilock_run (hheld : v.held = []) (hx : v.itable ip = x) (href : 1 ≤ x.ref)
    (hlocked : x.locked = false) (hvalid : x.valid = false) {d : Dinode}
    (hd : (v.cur (sb.IBLOCK x.inum)).dinode (x.inum % IPB) = d) (htype : d.type ≠ 0) :
    (Fs.ilock sb ip).run Vol.handle v =
      .ok ((), put v ip { x with locked := true, valid := true, din := d }) := by
  rw [ilock_read_run hheld hx href hlocked hvalid hd, if_neg htype]
  rfl

theorem iunlock_run (hx : v.itable ip = x) (hlocked : x.locked = true) (href : 1 ≤ x.ref) :
    (Fs.iunlock ip).run Vol.handle v = .ok ((), put v ip { x with locked := false }) := by
  unfold Fs.iunlock
  rw [Prog.run_bind_ok inode_run, hx, if_neg]
  · rfl
  · rw [hlocked]
    simp only [Bool.true_eq_false, false_or]
    omega

theorem iput_run (hx : v.itable ip = x) (hkeep : ¬ (x.ref = 1 ∧ x.valid = true ∧ x.din.nlink = 0)) :
    (Fs.iput sb ip).run Vol.handle v = .ok ((), put v ip { x with ref := x.ref - 1 }) := by
  unfold Fs.iput
  rw [Prog.run_bind_ok inode_run, hx, if_neg hkeep]
  unfold Fs.dropRef
  rw [Prog.run_bind_ok inode_run, hx]
  rfl

end Inodes

section Directories

variable {sb : Superblock} {v : Vol} {dp : Fin NINODE} {a : Attr} {name : List UInt8}

/-- The bytes of a name in an entry. -/
def padded (name : List UInt8) : List UInt8 := (name ++ List.replicate DIRSIZ 0).take DIRSIZ

theorem dirlookupFrom_run {E : Nat → UInt16 × List UInt8} {k : Nat}
    (hread : ∀ j ≤ k, (Fs.readi sb dp .kernel (DIRENT * j) DIRENT).run Vol.handle v =
      .ok (((DIRENT : Nat), Dirent.enc (E j).1 (E j).2), v))
    (hsize : DIRENT * (k + 1) ≤ a.size) (hinum : (E k).1 ≠ 0)
    (hname : namecmp name (padded (E k).2) = 0)
    (hfirst : ∀ j < k, namecmp name (padded (E j).2) ≠ 0) :
    ∀ n j fuel, k - j = n → j ≤ k → n < fuel →
      (Ino.dirlookupFrom dp a name fuel (DIRENT * j)).run (Vol.handle.via (Ino.impl sb)) v = (do
          let ip ← Ino.iget a.dev (E k).1.toNat
          return some (ip, DIRENT * k) : IProg _).run (Vol.handle.via (Ino.impl sb)) v := by
  have hlt : ∀ j ≤ k, DIRENT * j < a.size := fun j hj => by
    simp only [DIRENT] at hsize ⊢
    omega
  have hop : ∀ j ≤ k, (Ino.readi dp .kernel (DIRENT * j) DIRENT).run
      (Vol.handle.via (Ino.impl sb)) v =
        .ok (((DIRENT : Nat), Dirent.enc (E j).1 (E j).2), v) := fun j hj => by
    unfold Ino.readi Ino.op
    rw [Prog.run_call]
    exact hread j hj
  intro n
  induction n with
  | zero =>
    intro j fuel hn hj hfuel
    obtain ⟨fuel, rfl⟩ : ∃ m, fuel = m + 1 := ⟨fuel - 1, by omega⟩
    obtain rfl : j = k := by omega
    have hfound : namecmp name ((E j).2 ++ List.replicate DIRSIZ 0 |>.take DIRSIZ) = 0 := hname
    rw [Ino.dirlookupFrom, if_pos (hlt j hj), Prog.run_bind_ok (hop j hj), if_neg (by simp),
      Dirent.dec_enc, if_neg hinum, if_pos hfound]
  | succ n ih =>
    intro j fuel hn hj hfuel
    obtain ⟨fuel, rfl⟩ : ∃ m, fuel = m + 1 := ⟨fuel - 1, by omega⟩
    have hnext : DIRENT * j + DIRENT = DIRENT * (j + 1) := (Nat.mul_succ _ _).symm
    have hrest := ih (j + 1) fuel (by omega) (by omega) (by omega)
    rw [Ino.dirlookupFrom, if_pos (hlt j hj), Prog.run_bind_ok (hop j hj), if_neg (by simp),
      Dirent.dec_enc, hnext]
    -- An unused entry and one with another name are passed over alike.
    by_cases hfree : (E j).1 = 0
    · rw [if_pos hfree]
      exact hrest
    · have hother : ¬ namecmp name ((E j).2 ++ List.replicate DIRSIZ 0 |>.take DIRSIZ) = 0 :=
        hfirst j (by omega)
      rw [if_neg hfree, if_neg hother]
      exact hrest

end Directories

end Mkfs

end Xv6
