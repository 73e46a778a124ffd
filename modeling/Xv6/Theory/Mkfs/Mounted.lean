import Xv6.Core.Mount
import Xv6.Theory.Log.Crash
import Xv6.Theory.Mkfs.Finished
import Xv6.Theory.Mkfs.Read
import Mathlib.Data.List.TakeWhile

/-!
# The Kernel Reads What Was Written

Two programs that never run together have to agree on the layout of a disk: `mkfs` writes it and
the kernel reads it. For every list of files that fits, the image mounts, the path of a file
leads to its inode, and reading there gives the bytes of the file.

## Theorems

* `Mkfs.kernel_reads_files`, `Mkfs.unreadable_files`
-/

namespace Xv6.Mkfs

open Prog (run_bind_ok)

variable {name : List UInt8} {j : Nat} {v : Vol}

section Mount

variable {fs : List File} {s : St}

theorem readsb_sbBlock : sbBlock.u32 0 = FSMAGIC ∧ readsb sbBlock = mkfs.sb := by decide +kernel

theorem fsinit_made (h : Made fs s) : ∃ disk, fsinit s.img = some (mkfs.sb, Vol.boot mkfs.sb disk) ∧
    ∀ b, mkfs.sb.inodestart ≤ b → disk b = s.img b := by
  have hsuper : s.img 1 = sbBlock := by
    rw [h.head 1 (by decide)]
    exact Function.update_self 1 sbBlock fun _ => Block.zero
  have hlog : s.img mkfs.sb.logstart = Block.zero := by
    have hne : mkfs.sb.logstart ≠ 1 := by decide
    rw [h.head _ (by decide)]
    exact Function.update_of_ne hne sbBlock fun _ => Block.zero
  have hempty : (s.img mkfs.sb.logstart).head = [] := by
    rw [hlog]
    exact head_of_count (u32_zero 0)
  have hpos : 0 < mkfs.sb.nlog := by decide
  have hrec : Recoverable mkfs.sb.logstart mkfs.sb.nlog s.img s.img :=
    recoverable_of_clear hpos hempty fun _ _ => rfl
  have hspec := recover_spec (R := fun _ => False) hrec hpos
  obtain ⟨d, hrun⟩ := Prog.returns_of_wp hspec fun _ => id
  obtain ⟨⟨v, hidle, hhome, -⟩, -⟩ := Prog.wp_of_run hspec hrun
  refine ⟨d.disk, ?_, fun b hb => ?_⟩
  · unfold fsinit
    rw [hsuper, if_neg (not_not.mpr readsb_sbBlock.1), readsb_sbBlock.2]
    dsimp only
    rw [hrun]
  · rw [hidle.cached.disk]
    refine hhome b (.inr ?_)
    have hle : mkfs.sb.logstart + mkfs.sb.nlog ≤ mkfs.sb.inodestart := by decide
    omega

end Mount

section Names

theorem takeWhile_ne_zero {l : List UInt8} (h : 0 ∉ l) : l.takeWhile (· ≠ 0) = l := by
  rw [List.takeWhile_eq_self_iff]
  intro c hc
  rw [decide_eq_true_eq]
  exact fun hz => h (hz ▸ hc)

variable {e : List UInt8}

theorem cstr_take (h : 0 ∉ e) : cstr DIRSIZ (e.take DIRSIZ) = e.take DIRSIZ := by
  rw [cstr, List.take_take, Nat.min_self]
  exact takeWhile_ne_zero fun hz => h (List.mem_of_mem_take hz)

theorem cstr_padded (h : 0 ∉ e) : cstr DIRSIZ (padded e) = e.take DIRSIZ := by
  have hpos : ∀ c ∈ e.take DIRSIZ, decide (c ≠ 0) = true := by
    intro c hc
    rw [decide_eq_true_eq]
    exact fun hz => h (hz ▸ List.mem_of_mem_take hc)
  rw [cstr, padded, List.take_take, Nat.min_self, List.take_append,
    List.takeWhile_append_of_pos hpos, List.take_replicate, List.takeWhile_replicate]
  simp

theorem namecmp_padded {e' : List UInt8} (h : 0 ∉ e) (h' : 0 ∉ e') :
    namecmp (e.take DIRSIZ) (padded e') = 0 ↔ e.take DIRSIZ = e'.take DIRSIZ := by
  rw [namecmp_eq_zero_iff, cstr_take h, cstr_padded h']

theorem elems_root (hne : name ≠ []) (hslash : SLASH ∉ name) :
    elems (SLASH :: name) = [name.take DIRSIZ] := by
  have hall : ∀ c ∈ name, decide (c ≠ SLASH) = true := by
    intro c hc
    rw [decide_eq_true_eq]
    exact fun hx => hslash (hx ▸ hc)
  have hskip : (SLASH :: name).dropWhile (· = SLASH) = name := by
    cases name with
    | nil => exact absurd rfl hne
    | cons c t =>
      have hc : c ≠ SLASH := fun hx => hslash (hx ▸ List.mem_cons_self)
      simp [hc]
  have helem : skipelem (SLASH :: name) = some (name.take DIRSIZ, []) := by
    grind [skipelem, List.takeWhile_eq_self_iff.mpr, List.dropWhile_eq_nil_iff.mpr]
  rw [elems_eq, helem]
  rfl

end Names

section Lookup

variable {fs : List File} {s : St} {disk : Nat → Block}

variable {e : UInt16 × List UInt8} {i : Nat}

theorem dirBytes_slice {es : List (UInt16 × List UInt8)}
    (h : es[j]? = some e) : ((dirBytes es).drop (DIRENT * j)).take DIRENT = Dirent.enc e.1 e.2 := by
  induction es generalizing j with
  | nil => simp at h
  | cons e' es ih =>
    have hcons : dirBytes (e' :: es) = Dirent.enc e'.1 e'.2 ++ dirBytes es := List.flatMap_cons
    have hlen := Dirent.length_enc e'.1 e'.2
    cases j with
    | zero =>
      cases h
      rw [hcons, Nat.mul_zero, List.drop_zero, List.take_left' hlen]
    | succ j =>
      rw [List.getElem?_cons_succ] at h
      rw [hcons, Nat.mul_succ, Nat.add_comm, ← List.drop_drop, List.drop_left' hlen]
      exact ih h

/-- What is the same on the mounted disk as in the image. -/
structure Mounted (fs : List File) (s : St) (disk : Nat → Block) : Prop where
  made : Made fs s
  disk : ∀ b, mkfs.sb.inodestart ≤ b → disk b = s.img b

variable (h : Mounted fs s disk)

include h

theorem Mounted.dinode (i : Nat) : (disk (mkfs.sb.IBLOCK i)).dinode (i % IPB) = dinodes s i := by
  have hle : mkfs.sb.inodestart ≤ mkfs.sb.IBLOCK i := Nat.le_add_left _ _
  rw [h.disk _ hle]
  rfl

theorem Mounted.ref_eq (hi : i < fs.length + 2) (l : Nat) :
    ref (dinodes s) disk i l = ref (dinodes s) s.img i l := by
  refine ref_congr rfl (fun hne => h.disk _ ?_) l
  have hrange := (h.made.refs.range i NDIRECT hi (by decide) hne).1
  have hle : mkfs.sb.inodestart ≤ nmeta := by decide
  omega

theorem Mounted.file {n : Nat} (hi : i < fs.length + 2) (hn : n ≤ MAXFILE * BSIZE)
    (hmapped : Mapped (dinodes s) s.img i n) :
    (∀ k < n, k / BSIZE < MAXFILE ∧ ref (dinodes s) disk i (slot (k / BSIZE)) ≠ 0) ∧
      ∀ k < n, fileByte (dinodes s) disk i k = fileByte (dinodes s) s.img i k := by
  have hle : mkfs.sb.inodestart ≤ nmeta := by decide
  refine ⟨fun k hk => ?_, fun k hk => ?_⟩
  · have hmax : k / BSIZE < MAXFILE := by
      simp only [BSIZE, MAXFILE, NDIRECT, NINDIRECT] at hn ⊢
      omega
    rw [h.ref_eq hi]
    exact ⟨hmax, (hmapped _ hmax).mpr (Nat.lt_of_le_of_lt (Nat.div_mul_le_self k BSIZE) hk)⟩
  · exact h.made.refs.fileByte_move hi rfl
      (fun b hb => h.disk b (Nat.le_trans hle hb)) hmapped hn hk

theorem Mounted.readi_root {dp : Fin NINODE} (hcur : v.cur = disk) (hheld : v.held = [])
    (hdin : (v.itable dp).din = dinodes s ROOTINO) (hfew : fs.length < mkfs.sb.ninodes)
    (hj : (rootEntries fs)[j]? = some e) :
    (Fs.readi mkfs.sb dp .kernel (DIRENT * j) DIRENT).run Vol.handle v =
      .ok (((DIRENT : Nat), Dirent.enc e.1 e.2), v) := by
  obtain ⟨-, hsize, hmapped, hbytes⟩ := h.made.root
  have hsize' : DIRENT * (fs.length + 2) ≤ (dinodes s ROOTINO).size.toNat := hsize
  have hninodes : mkfs.sb.ninodes = 200 := rfl
  have hlen : (rootEntries fs).length = fs.length + 2 := by
    rw [rootEntries, List.length_cons, List.length_cons, length_entriesFrom]
  have hjlt : j < fs.length + 2 := by
    rw [← hlen]
    exact (List.getElem?_eq_some_iff.mp hj).1
  have hmax : DIRENT * (fs.length + 2) ≤ MAXFILE * BSIZE := by
    simp only [DIRENT, MAXFILE, NDIRECT, NINDIRECT, BSIZE]
    omega
  obtain ⟨hsome, hsame⟩ := h.file (i := ROOTINO) (Nat.lt_of_lt_of_le (by decide)
    (Nat.le_add_left 2 _)) hmax hmapped
  have hin : DIRENT * j + DIRENT ≤ DIRENT * (fs.length + 2) := by
    simp only [DIRENT]
    omega
  have hsmall : DIRENT * (fs.length + 2) < 2 ^ 32 := by
    simp only [DIRENT]
    omega
  have hmin : min DIRENT ((dinodes s ROOTINO).size.toNat - DIRENT * j) = DIRENT := by omega
  have hlen' : (dirBytes (rootEntries fs)).length = DIRENT * (fs.length + 2) := by
    rw [length_dirBytes, hlen]
  have hmin' : min DIRENT ((dirBytes (rootEntries fs)).length - DIRENT * j) = DIRENT := by
    rw [hlen']
    omega
  rw [readi_run (D := dinodes s) (i := ROOTINO) (fun _ _ => rfl) hheld hdin (by omega)
    fun k _ hk _ => by rw [hcur]; exact hsome k (by omega), hmin]
  have hbytes' := map_fileByte (D := dinodes s) (v := v) (i := ROOTINO)
    (c := dirBytes (rootEntries fs))
    (fun k hk => by
      rw [hlen'] at hk
      rw [hcur, hsame k hk, hbytes k hk]) (DIRENT * j) DIRENT
  rw [hmin', dirBytes_slice hj] at hbytes'
  rw [hbytes']

end Lookup

section Namei

variable {fs : List File} {s : St} {disk : Nat → Block}

variable {k : Nat} {e : UInt16 × List UInt8}

theorem op_run {sb : Superblock} {o : IOp} {v' : Vol} {r : o.Ret}
    (h : (Ino.impl sb o).run Vol.handle v = .ok (r, v')) :
    (Ino.op o).run (Vol.handle.via (Ino.impl sb)) v = .ok (r, v') := by
  unfold Ino.op
  rw [Prog.run_call]
  exact h

theorem lookup_unused {t : Fin NINODE → Slot} (dev inum : Nat)
    (hnone : ∀ jp, 0 < (t jp).ref → (t jp).inum ≠ inum) (hfree : ∃ jp, (t jp).ref = 0) :
    ∃ ip, Fs.lookup t dev inum = some (ip, false) ∧ (t ip).ref = 0 := by
  have hmiss : (List.finRange NINODE).find? (Fs.holds t dev inum) = none := by
    rw [List.find?_eq_none]
    intro jp _ hjp
    simp only [Fs.holds, Bool.and_eq_true, decide_eq_true_eq, beq_iff_eq] at hjp
    exact hnone jp hjp.1.1 hjp.2
  obtain ⟨jp, hjp⟩ := hfree
  have hsome : ((List.finRange NINODE).find? fun ip => (t ip).ref == 0).isSome := by
    rw [List.find?_isSome]
    exact ⟨jp, List.mem_finRange jp, beq_iff_eq.mpr hjp⟩
  obtain ⟨ip, hip⟩ := Option.isSome_iff_exists.mp hsome
  have hzero := List.find?_some hip
  refine ⟨ip, ?_, beq_iff_eq.mp hzero⟩
  unfold Fs.lookup
  rw [hmiss, hip]
  rfl

theorem Mounted.dirlookup (h : Mounted fs s disk) (hfit : Fits fs) (dp : Fin NINODE)
    (hcur : v.cur = disk) (hheld : v.held = []) (hdin : (v.itable dp).din = dinodes s ROOTINO)
    (hname : 0 ∉ name)
    (hk : (rootEntries fs)[k]? = some e) (hinum : e.1 ≠ 0)
    (hsame : name.take DIRSIZ = e.2.take DIRSIZ)
    (hfirst : ∀ j < k, ∀ e', (rootEntries fs)[j]? = some e' → name.take DIRSIZ ≠ e'.2.take DIRSIZ) :
    (Ino.dirlookup dp (name.take DIRSIZ)).run (Vol.handle.via (Ino.impl mkfs.sb)) v = (do
        let ip ← Ino.iget (v.itable dp).dev e.1.toNat
        return some (ip, DIRENT * k) : IProg _).run (Vol.handle.via (Ino.impl mkfs.sb)) v := by
  obtain ⟨htype, hsize, -, -⟩ := h.made.root
  have hload : (Ino.load dp).run (Vol.handle.via (Ino.impl mkfs.sb)) v =
    .ok ((v.itable dp).attr, v) := op_run rfl
  have hattr : (v.itable dp).attr.size = rootSize s := by
    unfold Inode.attr rootSize
    rw [hdin]
  have hdir : (v.itable dp).attr.type = T_DIR := by
    unfold Inode.attr
    rw [hdin]
    exact htype
  -- No entry has a zero in its name.
  have hzero : ∀ (j : Nat) (e' : UInt16 × List UInt8), (rootEntries fs)[j]? = some e' →
      0 ∉ e'.2 := by
    intro j e' hj
    have hmem : e' ∈ rootEntries fs := List.mem_of_getElem? hj
    rw [rootEntries, List.mem_cons, List.mem_cons] at hmem
    rcases hmem with rfl | rfl | hmem
    · decide
    · decide
    · obtain ⟨m, hm⟩ := List.mem_iff_getElem?.mp hmem
      have hmlt : m < fs.length := by
        rw [← length_entriesFrom 2 fs]
        exact (List.getElem?_eq_some_iff.mp hm).1
      have hf := getElem?_entriesFrom (n := 2) (List.getElem?_eq_getElem hmlt)
      rw [hm] at hf
      cases hf
      exact (hfit.named _ (List.getElem_mem hmlt)).2.2
  have hlen : (rootEntries fs).length = fs.length + 2 := by
    rw [rootEntries, List.length_cons, List.length_cons, length_entriesFrom]
  have hklt : k < fs.length + 2 := by
    rw [← hlen]
    exact (List.getElem?_eq_some_iff.mp hk).1
  have hget : ∀ j ≤ k, (rootEntries fs)[j]? = some ((rootEntries fs).getD j (0, [])) := by
    intro j hj
    have hjlt : j < (rootEntries fs).length := by omega
    rw [List.getD_eq_getElem _ _ hjlt, List.getElem?_eq_getElem hjlt]
  have hke : (rootEntries fs).getD k (0, []) = e := by
    have := hget k (Nat.le_refl k)
    rw [hk] at this
    exact (Option.some.inj this).symm
  have hfuel : k < (v.itable dp).attr.size / DIRENT + 1 := by
    rw [hattr]
    simp only [DIRENT] at hsize ⊢
    omega
  have hread : ∀ j ≤ k, (Fs.readi mkfs.sb dp .kernel (DIRENT * j) DIRENT).run Vol.handle v =
      .ok (((DIRENT : Nat), Dirent.enc ((rootEntries fs).getD j (0, [])).1
        ((rootEntries fs).getD j (0, [])).2), v) := fun j hj =>
    h.readi_root hcur hheld hdin hfit.few (hget j hj)
  have hsearch := dirlookupFrom_run (a := (v.itable dp).attr)
    (E := fun j => (rootEntries fs).getD j (0, [])) hread
    (by
      rw [hattr]
      simp only [DIRENT] at hsize ⊢
      omega)
    (by rw [hke]; exact hinum)
    (by
      rw [hke, namecmp_padded hname (hzero k e hk)]
      exact hsame)
    (fun j hj => by
      have hj' := hget j (Nat.le_of_lt hj)
      rw [Ne, namecmp_padded hname (hzero j _ hj')]
      exact hfirst j hj _ hj')
    k 0 ((v.itable dp).attr.size / DIRENT + 1) (Nat.sub_zero k) (Nat.zero_le k) hfuel
  rw [hke, Nat.mul_zero] at hsearch
  unfold Ino.dirlookup
  rw [run_bind_ok hload, if_neg (not_not.mpr hdir), hsearch]
  rfl

/-- From the root, which is in the table and refers to nothing read yet, the name of an entry leads
    to the inode of the first entry that has it. -/
theorem Mounted.namexFrom (h : Mounted fs s disk) (hfit : Fits fs) (dp : Fin NINODE)
    {x : Inode} (hcur : v.cur = disk) (hheld : v.held = []) (hx : v.itable dp = x)
    (href : 2 ≤ x.ref) (hlocked : x.locked = false) (hvalid : x.valid = false)
    (hroot : x.inum = ROOTINO) (hothers : ∀ jp, jp ≠ dp →
      (v.itable jp).ref = 0 ∧ (v.itable jp).locked = false) (hfree : ∃ jp, jp ≠ dp)
    (hname : 0 ∉ name)
    (hk : (rootEntries fs)[k]? = some e) (hinum : ROOTINO < e.1.toNat)
    (hsame : name.take DIRSIZ = e.2.take DIRSIZ)
    (hfirst : ∀ j < k, ∀ e', (rootEntries fs)[j]? = some e' → name.take DIRSIZ ≠ e'.2.take DIRSIZ) :
    ∃ ip t, (Ino.namexFrom false dp [name.take DIRSIZ]).run (Vol.handle.via (Ino.impl mkfs.sb)) v =
        .ok (some (ip, []), t) ∧
      t.cur = disk ∧ t.held = [] ∧ (t.itable ip).inum = e.1.toNat ∧ (t.itable ip).ref = 1 ∧
      (t.itable ip).locked = false ∧ (t.itable ip).valid = false := by
  have htype : (dinodes s ROOTINO).type ≠ 0 := by
    rw [h.made.root.1]
    decide
  -- The root is locked and read.
  obtain ⟨y, hy⟩ : ∃ y : Inode,
    y = { x with locked := true, valid := true, din := dinodes s ROOTINO } := ⟨_, rfl⟩
  have hlock : (Ino.ilock dp).run (Vol.handle.via (Ino.impl mkfs.sb)) v = .ok ((), put v dp y) := by
    rw [hy]
    exact op_run (ilock_run hheld hx (by omega) hlocked hvalid
      (by rw [hroot, hcur]; exact h.dinode ROOTINO) htype)
  have hload : (Ino.load dp).run (Vol.handle.via (Ino.impl mkfs.sb)) (put v dp y) =
    .ok (((put v dp y).itable dp).attr, put v dp y) := op_run rfl
  rw [itable_put_self] at hload
  have hdir : y.attr.type = T_DIR := by
    rw [hy]
    exact h.made.root.1
  -- The entry is found, and its inode gets an entry of the table that nobody uses.
  obtain ⟨ip, hfind, hunused⟩ := lookup_unused (t := fun jp => ((put v dp y).itable jp).toSlot)
    y.dev e.1.toNat
    (fun jp hjp => by
      by_cases hdp : jp = dp
      · rw [hdp, itable_put_self, hy]
        change x.inum ≠ _
        rw [hroot]
        exact Nat.ne_of_lt hinum
      · rw [itable_put_of_ne hdp, (hothers jp hdp).1] at hjp
        exact absurd hjp (Nat.lt_irrefl 0))
    (by
      obtain ⟨jp, hjp⟩ := hfree
      exact ⟨jp, by rw [itable_put_of_ne hjp]; exact (hothers jp hjp).1⟩)
  have hip : ip ≠ dp := by
    intro heq
    rw [heq, itable_put_self, hy] at hunused
    change x.ref = 0 at hunused
    omega
  obtain ⟨z, hz⟩ : ∃ z : Inode, z = { v.itable ip with
    dev := y.dev, inum := e.1.toNat, ref := 1, valid := false } := ⟨_, rfl⟩
  have htake : (Ino.iget y.dev e.1.toNat).run (Vol.handle.via (Ino.impl mkfs.sb)) (put v dp y) =
      .ok (ip, put (put v dp y) ip z) := by
    have hrun := iget_miss_run hfind
    rw [itable_put_of_ne hip, ← hz] at hrun
    exact op_run hrun
  have hinum' : e.1 ≠ 0 := by
    intro hzero
    rw [hzero] at hinum
    cases hinum
  have hsearch := h.dirlookup hfit (v := put v dp y) dp hcur hheld
    (by rw [itable_put_self, hy]) hname hk hinum' hsame hfirst
  rw [itable_put_self, run_bind_ok htake] at hsearch
  -- The root is given back, and the first process keeps its reference.
  have hitem : (put (put v dp y) ip z).itable dp = y := by
    rw [itable_put_of_ne (Ne.symm hip), itable_put_self]
  have hunlock : (Ino.iunlock dp).run (Vol.handle.via (Ino.impl mkfs.sb)) (put (put v dp y) ip z) =
      .ok ((), put (put (put v dp y) ip z) dp { y with locked := false }) :=
    op_run (iunlock_run hitem (by rw [hy]) (by rw [hy]; change 1 ≤ x.ref; omega))
  have hput : (Ino.iput dp).run (Vol.handle.via (Ino.impl mkfs.sb))
      (put (put (put v dp y) ip z) dp { y with locked := false }) =
      .ok ((), put (put (put (put v dp y) ip z) dp { y with locked := false }) dp
        { y with locked := false, ref := y.ref - 1 }) :=
    op_run (iput_run itable_put_self fun hfree => by
      rw [hy] at hfree
      have hone : x.ref = 1 := hfree.1
      omega)
  rw [put_put] at hput
  obtain ⟨t, ht⟩ : ∃ t, t = put (put (put v dp y) ip z) dp
    { y with locked := false, ref := y.ref - 1 } := ⟨_, rfl⟩
  rw [← ht] at hput
  have hend : t.itable ip = z := by
    rw [ht, itable_put_of_ne hip, itable_put_self]
  refine ⟨ip, t, ?_, by rw [ht]; exact hcur, by rw [ht]; exact hheld, ?_, ?_, ?_, ?_⟩
  · have hparent : ¬ (false = true ∧ ([] : List (List UInt8)) = []) := fun hx => nomatch hx.1
    rw [Ino.namexFrom, run_bind_ok hlock, run_bind_ok hload, if_neg (not_not.mpr hdir),
      if_neg hparent, run_bind_ok hsearch]
    dsimp only
    unfold Ino.iunlockput
    rw [run_bind_ok (run_bind_ok hunlock |>.trans hput)]
    rfl
  all_goals rw [hend, hz]
  exact (hothers ip hip).2

theorem namei_made (h : Mounted fs s disk) (hfit : Fits fs) {f : File}
    (hj : fs[j]? = some f) (hdot : f.entry ≠ DOT ∧ f.entry ≠ DOTDOT) {path : Path}
    (hpath : path.bytes = SLASH :: name) (hslash : SLASH ∉ name)
    (hname : name.take DIRSIZ = f.entry.take DIRSIZ) (p : Fin NPROC) :
    ∃ ip t, Vol.runI mkfs.sb (Ino.namei p path) (Vol.boot mkfs.sb disk) = .ok (some ip, t) ∧
      t.cur = disk ∧ t.held = [] ∧ (t.itable ip).inum = j + 2 ∧ (t.itable ip).ref = 1 ∧
      (t.itable ip).locked = false ∧ (t.itable ip).valid = false := by
  have hninodes : mkfs.sb.ninodes = 200 := rfl
  have hrootino : ROOTINO = 1 := rfl
  have hfew := hfit.few
  have hjlt : j < fs.length := (List.getElem?_eq_some_iff.mp hj).1
  have hf : f ∈ fs := List.mem_of_getElem? hj
  have hzero : 0 ∉ name := by
    intro hz
    refine path.noZero ?_
    rw [hpath]
    exact List.mem_cons_of_mem _ hz
  have hcut : ∀ l : List UInt8, l.length < DIRSIZ → f.entry.take DIRSIZ = l.take DIRSIZ →
      f.entry = l := by
    intro l hl heq
    rw [List.take_of_length_le (Nat.le_of_lt hl)] at heq
    have hlen := congrArg List.length heq
    rw [List.length_take] at hlen
    rw [← heq, List.take_of_length_le (by omega)]
  have hne : name ≠ [] := by
    rintro rfl
    exact (hfit.named f hf).1 (hcut [] (by decide) hname.symm)
  have hentry : (rootEntries fs)[j + 2]? = some (UInt16.ofNat (2 + j), f.entry) :=
    getElem?_entriesFrom hj
  have htoNat : (UInt16.ofNat (2 + j)).toNat = j + 2 := by
    rw [UInt16.toNat_ofNat_of_lt' (by simp only [UInt16.size]; omega), Nat.add_comm]
  -- No entry before that of the file has its name.
  have hfirst : ∀ i < j + 2, ∀ e', (rootEntries fs)[i]? = some e' →
      name.take DIRSIZ ≠ e'.2.take DIRSIZ := by
    intro i hi e' he' heq
    rw [hname] at heq
    match i, hi, he' with
    | 0, _, he' =>
      cases he'
      exact hdot.1 (hcut DOT (by decide) heq)
    | 1, _, he' =>
      cases he'
      exact hdot.2 (hcut DOTDOT (by decide) heq)
    | i + 2, hi, he' =>
      have hilt : i < fs.length := by omega
      have hg := getElem?_entriesFrom (n := 2) (List.getElem?_eq_getElem hilt)
      have he'' : (entriesFrom 2 fs)[i]? = some e' := he'
      rw [hg] at he''
      cases he''
      have hfj : fs[j] = f := (List.getElem?_eq_some_iff.mp hj).2
      have hnodup := List.nodup_iff_injective_get.mp hfit.distinct
      have hij := @hnodup ⟨i, by rw [List.length_map]; exact hilt⟩
        ⟨j, by rw [List.length_map]; exact hjlt⟩ (by
          simp only [List.get_eq_getElem, List.getElem_map]
          rw [hfj]
          exact heq.symm)
      have := congrArg Fin.val hij
      simp only at this
      omega
  -- The root is in the table already, as the working directory of the first process.
  have hlook : Fs.lookup (fun jp => ((Vol.boot mkfs.sb disk).itable jp).toSlot) ROOTDEV ROOTINO =
    some (0, true) := rfl
  have hget : (Ino.iget ROOTDEV ROOTINO).run (Vol.handle.via (Ino.impl mkfs.sb))
    (Vol.boot mkfs.sb disk) = _ := op_run (iget_hit_run hlook)
  obtain ⟨ip, t, hrun, hcur, hheld, hinum, hrest⟩ := h.namexFrom hfit 0
    (v := put (Vol.boot mkfs.sb disk) 0 { (Vol.boot mkfs.sb disk).itable 0 with
      ref := ((Vol.boot mkfs.sb disk).itable 0).ref + 1 }) rfl rfl itable_put_self (Nat.le_refl 2)
    rfl rfl rfl
    (fun jp hjp => by
      rw [itable_put_of_ne hjp]
      exact ⟨if_neg hjp, rfl⟩)
    ⟨1, by decide⟩ hzero hentry (by rw [htoNat]; omega) hname hfirst
  rw [htoNat] at hinum
  have hhead : path.bytes.head? = some SLASH := by
    rw [hpath]
    rfl
  refine ⟨ip, t, ?_, hcur, hheld, hinum, hrest⟩
  have hnamex : (Ino.namex p path false).run (Vol.handle.via (Ino.impl mkfs.sb))
      (Vol.boot mkfs.sb disk) = .ok (some (ip, []), t) := by
    unfold Ino.namex
    rw [if_pos hhead, hpath, elems_root hne hslash, run_bind_ok hget]
    exact hrun
  unfold Vol.runI
  rw [Prog.run_expand]
  unfold Ino.namei
  rw [run_bind_ok hnamex]
  rfl

end Namei

section Reading

variable {ip : Fin NINODE} {dst : Dst} {off n : Nat}

theorem Mounted.readi_file {fs : List File} {s : St} {disk : Nat → Block} (h : Mounted fs s disk)
    (hfit : Fits fs) {f : File} (hj : fs[j]? = some f) {u : Vol}
    (hcur : u.cur = disk) (hheld : u.held = []) (hdin : (u.itable ip).din = dinodes s (j + 2))
    (hdst : Dst.Takes dst) (hwrap : off + n < 2 ^ 32) :
    (Fs.readi mkfs.sb ip dst off n).run Vol.handle u =
      .ok ((((f.contents.drop off).take n).length, (f.contents.drop off).take n), u) := by
  have hjlt : j < fs.length := (List.getElem?_eq_some_iff.mp hj).1
  obtain ⟨-, hsize, hmapped, hbytes⟩ := h.made.files j f hj
  obtain ⟨hsome, hsame⟩ := h.file (i := j + 2) (by omega)
    (hfit.small f (List.mem_of_getElem? hj)) hmapped
  have hread : (Fs.readi mkfs.sb ip dst off n).run Vol.handle u = _ := readi_run (D := dinodes s)
    (i := j + 2) hdst hheld hdin hwrap (fun k _ _ hk => by
      rw [hcur]
      exact hsome k (by omega))
  have hmap := map_fileByte (D := dinodes s) (i := j + 2) (c := f.contents) (v := u)
    (fun k hk => by rw [hcur, hsame k hk, hbytes k hk]) off n
  rw [hsize, hmap] at hread
  rw [hread, List.length_take, List.length_drop]

/-- For every list of files that fits, the image is made and mounts, and a path to a file that is
    not called `.` or `..` leads to an inode of the file's size, where a read gives the bytes the
    file has there, as long as the end of the read is a 32-bit number. -/
theorem kernel_reads_files (fs : List File) (hfit : Fits fs) :
    ∃ s v, main fs = .ok s ∧ fsinit s.img = some (mkfs.sb, v) ∧
      ∀ f ∈ fs, f.entry ≠ DOT → f.entry ≠ DOTDOT →
        ∀ (p : Fin NPROC) (path : Path) (name : List UInt8), path.bytes = SLASH :: name →
          SLASH ∉ name → name.take DIRSIZ = f.entry.take DIRSIZ →
          ∃ ip t u, Vol.runI mkfs.sb (Ino.namei p path) v = .ok (some ip, t) ∧
            Vol.runI mkfs.sb (Ino.ilock ip) t = .ok ((), u) ∧
            (u.itable ip).din.size.toNat = f.contents.length ∧
            ∀ dst, Dst.Takes dst → ∀ off n, off + n < 2 ^ 32 →
              Vol.runI mkfs.sb (Ino.readi ip dst off n) u =
                .ok ((((f.contents.drop off).take n).length, (f.contents.drop off).take n), u) := by
  obtain ⟨s, hmain, hmade⟩ := main_made hfit
  obtain ⟨disk, hmount, hdisk⟩ := fsinit_made hmade
  have h : Mounted fs s disk := ⟨hmade, hdisk⟩
  refine ⟨s, _, hmain, hmount, fun f hf hdot hdotdot p path name hpath hslash hname => ?_⟩
  obtain ⟨j, hj⟩ := List.mem_iff_getElem?.mp hf
  obtain ⟨htype, hsize, -, -⟩ := hmade.files j f hj
  obtain ⟨ip, t, hnamei, hcur, hheld, hinum, href, hlocked, hvalid⟩ :=
    namei_made h hfit hj ⟨hdot, hdotdot⟩ hpath hslash hname p
  have hlock : (Fs.ilock mkfs.sb ip).run Vol.handle t = _ := ilock_run (d := dinodes s (j + 2))
    hheld rfl (Nat.le_of_eq href.symm) hlocked hvalid (by rw [hcur, hinum]; exact h.dinode (j + 2))
    (by rw [htype]; decide)
  refine ⟨ip, t, put t ip { t.itable ip with
    locked := true, valid := true, din := dinodes s (j + 2) }, hnamei, ?_, ?_,
    fun dst hdst off n hwrap => ?_⟩
  · unfold Vol.runI
    rw [Prog.run_expand]
    exact op_run hlock
  · rw [itable_put_self]
    exact hsize
  · unfold Vol.runI
    rw [Prog.run_expand]
    exact op_run (h.readi_file hfit hj (u := put t ip _) hcur hheld (by rw [itable_put_self]) hdst
      hwrap)

/-- A file that was read in two pieces. -/
def letters : List File := [⟨[95, 97], [[65, 66], [67]]⟩]

/-- A file whose entry is a dot. -/
def dotted : List File := [⟨[95, 46], [[65]]⟩]

/-- The path of a name in the root directory. -/
def rootPath (c : UInt8) (h : 0 ∉ [SLASH, c]) : Path :=
  ⟨[SLASH, c], h, Nat.lt_of_lt_of_le (Nat.lt_succ_self 2) (by decide)⟩

theorem fits_letters : Fits letters :=
  ⟨by decide, by decide, by decide +kernel, by decide, by decide⟩

theorem kernel_reads_letters : ∃ s v ip t u, main letters = .ok s ∧
    fsinit s.img = some (mkfs.sb, v) ∧
    Vol.runI mkfs.sb (Ino.namei 0 (rootPath 97 (by decide))) v = .ok (some ip, t) ∧
    Vol.runI mkfs.sb (Ino.ilock ip) t = .ok ((), u) ∧
    Vol.runI mkfs.sb (Ino.readi ip .kernel 1 5) u = .ok ((2, [66, 67]), u) := by
  obtain ⟨s, v, hmain, hmount, hread⟩ := kernel_reads_files letters fits_letters
  obtain ⟨ip, t, u, hnamei, hlock, -, hbytes⟩ :=
    hread _ List.mem_cons_self (by decide) (by decide) 0
    (rootPath 97 (by decide)) [97] rfl (by decide) (by decide)
  exact ⟨s, v, ip, t, u, hmain, hmount, hnamei, hlock,
    hbytes .kernel (fun _ _ => rfl) 1 5 (by decide)⟩

theorem exists_of_reads (fs : List File) (path : Path) (P : Fin NINODE → Vol → Bool)
    (h : (match main fs with
      | .ok s => match fsinit s.img with
        | some (sb, v) => decide (sb = mkfs.sb) &&
          match Vol.runI mkfs.sb (Ino.namei 0 path) v with
          | .ok (some ip, t) => match Vol.runI mkfs.sb (Ino.ilock ip) t with
            | .ok (_, u) => P ip u
            | .error _ => false
          | _ => false
        | none => false
      | .error _ => false) = true) :
    ∃ s v ip t u, main fs = .ok s ∧ fsinit s.img = some (mkfs.sb, v) ∧
      Vol.runI mkfs.sb (Ino.namei 0 path) v = .ok (some ip, t) ∧
      Vol.runI mkfs.sb (Ino.ilock ip) t = .ok ((), u) ∧ P ip u = true := by
  split at h
  · next s hs =>
    split at h
    · next sb v hv =>
      rw [Bool.and_eq_true, decide_eq_true_eq] at h
      obtain ⟨rfl, h⟩ := h
      split at h
      · next ip t ht =>
        split at h
        · next u hu => exact ⟨s, v, ip, t, u, hs, hv, ht, hu, h⟩
        · cases h
      · cases h
    · cases h
  · cases h

theorem readi_wrap_run {sb : Superblock}
    (hwrap : (off + n) % 2 ^ 32 < off) :
    Vol.runI sb (Ino.readi ip dst off n) v = .ok ((0, []), v) := by
  unfold Vol.runI
  rw [Prog.run_expand]
  refine op_run ?_
  change (Fs.readi sb ip dst off n).run Vol.handle v = _
  unfold Fs.readi
  rw [run_bind_ok inode_run, if_pos (.inr hwrap)]
  rfl

/-- A file called `.` cannot be found, its name being that of the root, and the end of a read can
    wrap around, which gives no bytes of a file that has some there. -/
theorem unreadable_files :
    (Fits dotted ∧ ∃ s v ip t u, main dotted = .ok s ∧ fsinit s.img = some (mkfs.sb, v) ∧
      Vol.runI mkfs.sb (Ino.namei 0 (rootPath 46 (by decide))) v = .ok (some ip, t) ∧
      Vol.runI mkfs.sb (Ino.ilock ip) t = .ok ((), u) ∧
      (u.itable ip).din.size.toNat = 1024 ∧ (u.itable ip).din.type = T_DIR) ∧
    Fits letters ∧ ∃ s v ip t u, main letters = .ok s ∧ fsinit s.img = some (mkfs.sb, v) ∧
      Vol.runI mkfs.sb (Ino.namei 0 (rootPath 97 (by decide))) v = .ok (some ip, t) ∧
      Vol.runI mkfs.sb (Ino.ilock ip) t = .ok ((), u) ∧ (u.itable ip).din.size.toNat = 3 ∧
      Vol.runI mkfs.sb (Ino.readi ip .kernel 1 (2 ^ 32 - 1)) u = .ok ((0, []), u) := by
  refine ⟨⟨⟨by decide, by decide, by decide +kernel, by decide, by decide⟩, ?_⟩, fits_letters, ?_⟩
  · obtain ⟨s, v, ip, t, u, hs, hv, ht, hu, htest⟩ := exists_of_reads dotted
      (rootPath 46 (by decide))
      (fun ip u => decide ((u.itable ip).din.size.toNat = 1024 ∧ (u.itable ip).din.type = T_DIR))
      (by decide +kernel)
    exact ⟨s, v, ip, t, u, hs, hv, ht, hu, of_decide_eq_true htest⟩
  · obtain ⟨s, v, ip, t, u, hs, hv, ht, hu, htest⟩ := exists_of_reads letters
      (rootPath 97 (by decide)) (fun ip u => decide ((u.itable ip).din.size.toNat = 3))
      (by decide +kernel)
    exact ⟨s, v, ip, t, u, hs, hv, ht, hu, of_decide_eq_true htest, readi_wrap_run (by decide)⟩

end Reading

end Xv6.Mkfs
