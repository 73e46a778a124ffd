import Xv6.Core.Kernel
import Xv6.Lib.Leads
import Xv6.Theory.Log.Commit

/-!
# Buffers and the Disk

A block that is not waiting in the log is the same in the cache and on the disk: every function of
the lower half of `fs.c` that changes a buffer logs it before it lets go of it, and a commit
writes what was logged. The exception is the error exit of `writei`: bytes that `either_copyin`
stored before it failed stay in a buffer that is not logged.

## Theorems

* `Fs.leads_edit`, `Fs.keeps_writei`
-/

namespace Xv6

/-- The header of the log and the copies after it. -/
def Superblock.InLog (sb : Superblock) (b : Nat) : Prop :=
  sb.logstart ≤ b ∧ b < sb.logstart + sb.nlog

instance (sb : Superblock) (b : Nat) : Decidable (sb.InLog b) := by
  unfold Superblock.InLog
  infer_instance

/-- Outside the log, a block that is not logged is as the disk has it. The rest
    says what the log is like, for the next commit. -/
structure Vol.Synced (sb : Superblock) (s : Vol) : Prop where
  start : s.log.start = sb.logstart
  size : s.log.size = sb.nlog
  room : s.log.lh = [] ∨ s.log.lh.length < sb.nlog
  nodup : s.log.lh.Nodup
  agree : ∀ b, ¬ sb.InLog b → b ∉ s.log.lh → s.cur b = s.disk b

/-- The invariant, with the buffers `C` held, the last one taken first. -/
def Vol.Holding (sb : Superblock) (C : List Nat) (s : Vol) : Prop := s.Synced sb ∧ s.held = C

/-- A block that is not logged and whose buffer is not held is as the disk has it. -/
def Vol.Passing (sb : Superblock) (s : Vol) : Prop :=
  ∀ b, ¬ sb.InLog b → b ∉ s.held → b ∉ s.log.lh → s.cur b = s.disk b

/-- Operations that take, change and release no buffer. -/
def FOp.Quiet : FOp → Prop
  | .bread _ => False
  | .bmod _ _ => False
  | .brelse _ => False
  | _ => True

/-- Each of the pieces `writei` cuts the source into at the ends of blocks is copied
    in full, or nothing of it is. -/
def Src.Whole (src : Src) (off n : Nat) : Prop :=
  ∀ tot < n, tot = 0 ∨ (off + tot) % BSIZE = 0 →
    (eitherCopyin src tot (min (n - tot) (BSIZE - (off + tot) % BSIZE))).2 = true ∨
      (eitherCopyin src tot (min (n - tot) (BSIZE - (off + tot) % BSIZE))).1 = []

theorem Src.whole_kernel (l : List UInt8) (off n : Nat) : (Src.kernel l).Whole off n :=
  fun _ _ _ => .inl rfl

namespace Vol

variable {sb : Superblock} {s : Vol}

theorem Synced.boot (sb : Superblock) (disk : Nat → Block) : (boot sb disk).Synced sb where
  start := rfl
  size := rfl
  room := .inl rfl
  nodup := List.nodup_nil
  agree := fun _ _ _ => rfl

variable {t : Vol} {b : Nat} {C : List Nat}

theorem Synced.congr (h : s.Synced sb) (hcur : t.cur = s.cur) (hdisk : t.disk = s.disk)
    (hstart : t.log.start = s.log.start) (hsize : t.log.size = s.log.size)
    (hlh : t.log.lh = s.log.lh) : t.Synced sb where
  start := hstart.trans h.start
  size := hsize.trans h.size
  room := by
    rw [hlh]
    exact h.room
  nodup := by
    rw [hlh]
    exact h.nodup
  agree := by
    rw [hlh, hcur, hdisk]
    exact h.agree

theorem Synced.disk_commit (h : s.Synced sb) (hb : ¬ sb.InLog b) :
    s.commit.disk b = s.cur b := by
  unfold Superblock.InLog at hb
  by_cases hnil : s.log.lh = []
  · -- Nothing is written.
    have hw : s.commitWrites = [] := by
      unfold commitWrites
      rw [if_pos hnil]
    have hdisk : s.commit.disk b = s.disk b := by
      unfold commit
      rw [hw]
      rfl
    rw [hdisk, h.agree b hb (by rw [hnil]; exact List.not_mem_nil)]
  · have hroom := h.room.resolve_left hnil
    have hw : s.commitWrites = Xv6.commitWrites sb.logstart (s.disk sb.logstart) s.log.lh
        (s.log.lh.map s.cur) := by
      unfold commitWrites
      rw [if_neg hnil, h.start]
    have hcopies : ∀ m : Nat → Block,
        replay (logWrites (sb.logstart + 1) (s.log.lh.map s.cur)) m b = m b := by
      intro m
      refine replay_of_notMem ?_
      rw [mem_logWrites, List.length_map]
      omega
    have hne : b ≠ sb.logstart := by omega
    have hzip : (s.log.lh.zip (s.log.lh.map s.cur)).map Prod.fst = s.log.lh :=
      List.map_fst_zip (by rw [List.length_map])
    unfold commit
    simp only [hw, Xv6.commitWrites]
    -- The last write is to the header, and of the others only the homes matter.
    rw [replay_append, replay_cons, replay_append, replay_cons, replay_nil,
      Function.update_of_ne hne]
    by_cases hmem : b ∈ s.log.lh
    · obtain ⟨k, hk, rfl⟩ := List.getElem_of_mem hmem
      refine replay_of_mem (by rw [hzip]; exact h.nodup) ?_
      exact List.mem_iff_getElem.mpr ⟨k, by simpa using hk, by simp⟩
    · rw [replay_of_notMem (by rwa [hzip]), Function.update_of_ne hne, hcopies, h.agree b hb hmem]

theorem Synced.commit (h : s.Synced sb) : s.commit.Synced sb where
  start := h.start
  size := h.size
  room := .inl rfl
  nodup := List.nodup_nil
  agree := fun _ hb _ => (h.disk_commit hb).symm

theorem Synced.logged (h : s.Synced sb) {l : Log} {new : Bool}
    (hw : s.log.logWrite b = .ok (l, new)) (hlog : t.log = l) (hdisk : t.disk = s.disk)
    (hcur : ∀ c, c ≠ b → t.cur c = s.cur c) : t.Synced sb := by
  unfold Log.logWrite at hw
  split_ifs at hw with hfull hout hmem
  · -- The write is absorbed.
    cases hw
    refine ⟨?_, ?_, ?_, ?_, ?_⟩
    · rw [hlog]
      exact h.start
    · rw [hlog]
      exact h.size
    · rw [hlog]
      exact h.room
    · rw [hlog]
      exact h.nodup
    · intro c hc hlh
      rw [hlog] at hlh
      rw [hcur c fun e => hlh (e ▸ hmem), hdisk, h.agree c hc hlh]
  · cases hw
    have hsize := h.size
    refine ⟨?_, ?_, ?_, ?_, ?_⟩
    · rw [hlog]
      exact h.start
    · rw [hlog]
      exact h.size
    · rw [hlog]
      refine .inr ?_
      simp only [List.length_append, List.length_singleton]
      omega
    · rw [hlog]
      exact List.nodup_append.mpr ⟨h.nodup, List.nodup_singleton b, by grind⟩
    · intro c hc hlh
      rw [hlog, List.mem_append, not_or, List.mem_singleton] at hlh
      rw [hcur c hlh.2, hdisk, h.agree c hc hlh.1]

theorem Holding.handle (h : s.Holding sb C) {o : FOp} (ho : o.Quiet) {r : o.Ret}
    (hr : Vol.handle o s = .ok (r, t)) : t.Holding sb C := by
  obtain ⟨h, hheld⟩ := h
  cases o with
  | bread b | bmod b f | brelse b => exact ho.elim
  | logWrite b =>
    simp only [Vol.handle] at hr
    split at hr
    next l new hw =>
      cases hr
      exact ⟨h.logged hw rfl rfl fun _ _ => rfl, hheld⟩
    · cases hr
  | beginOp =>
    simp only [Vol.handle, Log.beginOp] at hr
    split_ifs at hr
    cases hr
    exact ⟨h.congr rfl rfl rfl rfl rfl, hheld⟩
  | endOp =>
    simp only [Vol.handle, Log.endOp] at hr
    split_ifs at hr
    · -- The last one out commits.
      cases hr
      have hl : Synced sb { s with
          log := { s.log with outstanding := s.log.outstanding - 1, committing := true } } :=
        h.congr rfl rfl rfl rfl rfl
      exact ⟨hl.commit.congr rfl rfl rfl rfl rfl, hheld⟩
    · cases hr
      exact ⟨h.congr rfl rfl rfl rfl rfl, hheld⟩
  | itable | procs =>
    cases hr
    exact ⟨h, hheld⟩
  | setInode ip x =>
    cases hr
    exact ⟨h.congr rfl rfl rfl rfl rfl, hheld⟩
  | setProcs x =>
    cases hr
    exact ⟨h.congr rfl rfl rfl rfl rfl, hheld⟩
  | stop e => cases hr

theorem Holding.passing (s : Vol) (h : s.Holding sb C) : s.Passing sb :=
  fun b hb _ hlh => h.1.agree b hb hlh

end Vol

open Prog

namespace Fs

/-- A program over blocks that is started with the buffers `C` held and ends with `C'`. -/
abbrev Leads {α : Type} (sb : Superblock) (C : List Nat) (p : FProg α) (C' : List Nat) : Prop :=
  Prog.Leads Vol.handle (Vol.Passing sb) (Vol.Holding sb C) p (Vol.Holding sb C')

/-- One that releases what it takes. -/
abbrev Keeps {α : Type} (sb : Superblock) (C : List Nat) (p : FProg α) : Prop := Leads sb C p C

variable {sb : Superblock} {C C' : List Nat}

variable {α : Type} {src : Src} {off n : Nat}

theorem keeps_pure (a : α) : Keeps sb C (pure a) := leads_pure Vol.Holding.passing a

theorem keeps_op {o : FOp} (ho : o.Quiet) : Keeps sb C (op o) :=
  leads_call Vol.Holding.passing Vol.Holding.passing fun _ _ _ h hr => h.handle ho hr

theorem leads_bread (b : Nat) : Leads sb C (bread b) (b :: C) := by
  refine leads_call Vol.Holding.passing Vol.Holding.passing fun s r t h hr => ?_
  simp only [Vol.handle] at hr
  split_ifs at hr
  cases hr
  exact ⟨h.1.congr rfl rfl rfl rfl rfl, congrArg (b :: ·) h.2⟩

theorem leads_brelse (b : Nat) : Leads sb (b :: C) (brelse b) C := by
  refine leads_call Vol.Holding.passing Vol.Holding.passing fun s r t h hr => ?_
  simp only [Vol.handle] at hr
  split_ifs at hr
  cases hr
  refine ⟨h.1.congr rfl rfl rfl rfl rfl, ?_⟩
  change s.held.erase b = C
  rw [h.2, List.erase_cons_head]

theorem keeps_inode (ip : Fin NINODE) : Keeps sb C (inode ip) :=
  leads_bind (keeps_op trivial) fun _ => keeps_pure _

theorem keeps_setInode (ip : Fin NINODE) (x : Inode) : Keeps sb C (setInode ip x) :=
  keeps_op trivial

theorem keeps_stop (e : Stop) : Leads sb C (stop e : FProg α) C' :=
  leads_stop Vol.Holding.passing fun _ => ⟨e, rfl⟩

theorem leads_logged (b : Nat) (f : Block → Block) {k : Unit → FProg α}
    (hk : Leads sb (b :: C) (k ()) C') :
    Leads sb (b :: C) (bmod b f >>= fun _ => logWrite b >>= k) C' := by
  intro s h
  -- Between the two the invariant fails at `b`, which is held.
  have hmid : Vol.Passing sb { s with cur := Function.update s.cur b (f (s.cur b)) } := by
    intro c hc hheld hlh
    have hcb : c ≠ b := by
      rintro rfl
      refine hheld ?_
      change c ∈ s.held
      rw [h.2]
      exact List.mem_cons_self
    have hcur : Function.update s.cur b (f (s.cur b)) c = s.cur c := Function.update_of_ne hcb _ _
    exact hcur.trans (h.1.agree c hc hlh)
  refine from_op (Vol.Holding.passing s h) rfl ?_
  cases hw : s.log.logWrite b with
  | error e =>
    refine from_error hmid (e := .panic e) ?_
    simp only [Vol.handle, hw]
  | ok r =>
    have hlogged : Vol.Holding sb (b :: C)
        { s with cur := Function.update s.cur b (f (s.cur b)), log := r.1 } :=
      ⟨h.1.logged hw rfl rfl fun c hc => Function.update_of_ne hc _ _, h.2⟩
    have hrun : Vol.handle (.logWrite b) { s with cur := Function.update s.cur b (f (s.cur b)) } =
        .ok ((), { s with cur := Function.update s.cur b (f (s.cur b)), log := r.1 }) := by
      simp only [Vol.handle, hw]
    exact from_op hmid hrun (hk _ hlogged)

theorem leads_edit (b : Nat) (f : Block → Block) : Leads sb (b :: C) (edit b f) C :=
  leads_logged b f (leads_brelse b)

theorem keeps_bmod_self (b : Nat) {f : Block → Block} (hf : ∀ d, f d = d) :
    Keeps sb C (bmod b f) := by
  refine leads_call Vol.Holding.passing Vol.Holding.passing fun s r t h hr => ?_
  cases hr
  refine ⟨h.1.congr ?_ rfl rfl rfl rfl, h.2⟩
  rw [hf, Function.update_eq_self]

theorem keeps_bzero (b : Nat) : Keeps sb C (bzero b) :=
  leads_bind (leads_bread b) fun _ => leads_edit b _

theorem keeps_ballocFrom (fuel b : Nat) : Keeps sb C (ballocFrom sb fuel b) := by
  induction fuel generalizing b with
  | zero => exact keeps_stop _
  | succ fuel ih =>
    unfold ballocFrom
    split
    · refine leads_bind (leads_bread _) fun d => ?_
      split
      · exact leads_bind (leads_edit _ _) fun _ => leads_bind (keeps_bzero _) fun _ => keeps_pure _
      · exact leads_bind (leads_brelse _) fun _ => ih _
    · exact keeps_stop _

theorem keeps_balloc : Keeps sb C (balloc sb) := keeps_ballocFrom _ _

theorem keeps_bfree (b : Nat) : Keeps sb C (bfree sb b) := by
  refine leads_bind (leads_bread _) fun d => ?_
  split
  · exact keeps_stop _
  · exact leads_edit _ _

theorem keeps_iget (dev inum : Nat) : Keeps sb C (iget dev inum) := by
  refine leads_bind (keeps_op trivial) fun t => ?_
  split
  · exact leads_bind (keeps_setInode _ _) fun _ => keeps_pure _
  · exact leads_bind (keeps_setInode _ _) fun _ => keeps_pure _
  · exact keeps_stop _

theorem keeps_iallocFrom (dev : Nat) (type : UInt16) (fuel inum : Nat) :
    Keeps sb C (iallocFrom sb dev type fuel inum) := by
  induction fuel generalizing inum with
  | zero => exact keeps_stop _
  | succ fuel ih =>
    unfold iallocFrom
    split
    · refine leads_bind (leads_bread _) fun d => ?_
      split
      · exact leads_bind (leads_edit _ _) fun _ => keeps_iget _ _
      · exact leads_bind (leads_brelse _) fun _ => ih _
    · exact keeps_stop _

theorem keeps_iupdate (ip : Fin NINODE) : Keeps sb C (iupdate sb ip) :=
  leads_bind (keeps_inode ip) fun _ => leads_bind (leads_bread _) fun _ => leads_edit _ _

theorem keeps_idup (ip : Fin NINODE) : Keeps sb C (idup ip) :=
  leads_bind (keeps_inode ip) fun _ => keeps_setInode _ _

theorem keeps_ilock (ip : Fin NINODE) : Keeps sb C (ilock sb ip) := by
  refine leads_bind (keeps_inode ip) fun x => ?_
  split_ifs
  · exact keeps_stop _
  · exact keeps_stop _
  · exact leads_bind (keeps_setInode _ _) fun _ => keeps_pure _
  · refine leads_bind (keeps_setInode _ _) fun _ => ?_
    refine leads_bind (leads_bread _) fun d => ?_
    refine leads_bind (keeps_setInode _ _) fun _ => leads_bind (leads_brelse _) fun _ => ?_
    split
    · exact keeps_stop _
    · exact keeps_pure _

theorem keeps_iunlock (ip : Fin NINODE) : Keeps sb C (iunlock ip) := by
  refine leads_bind (keeps_inode ip) fun x => ?_
  split
  · exact keeps_stop _
  · exact keeps_setInode _ _

theorem keeps_setAddr (ip : Fin NINODE) (i : Fin (NDIRECT + 1)) (a : Nat) :
    Keeps sb C (setAddr ip i a) :=
  leads_bind (keeps_inode ip) fun _ => keeps_setInode _ _

theorem keeps_bmapAddr (ip : Fin NINODE) (i : Fin (NDIRECT + 1)) :
    Keeps sb C (bmapAddr sb ip i) := by
  refine leads_bind (keeps_inode ip) fun x => ?_
  split
  · exact leads_bind keeps_balloc fun _ => leads_bind (keeps_setAddr _ _ _) fun _ => keeps_pure _
  · exact keeps_pure _

theorem keeps_bmap (ip : Fin NINODE) (bn : Nat) : Keeps sb C (bmap sb ip bn) := by
  unfold bmap
  split
  · exact keeps_bmapAddr _ _
  · split
    · refine leads_bind (keeps_bmapAddr _ _) fun addr => leads_bind (leads_bread _) fun d => ?_
      split
      · exact leads_bind keeps_balloc fun _ => leads_bind (leads_edit _ _) fun _ => keeps_pure _
      · exact leads_bind (leads_brelse _) fun _ => keeps_pure _
    · exact keeps_stop _

theorem keeps_truncDirect (ip : Fin NINODE) (l : List (Fin (NDIRECT + 1))) :
    Keeps sb C (truncDirect sb ip l) := by
  induction l with
  | nil => exact keeps_pure _
  | cons i l ih =>
    refine leads_bind (keeps_inode ip) fun x => ?_
    split
    · exact leads_bind (keeps_bfree _) fun _ => leads_bind (keeps_setAddr _ _ _) fun _ => ih
    · exact ih

theorem keeps_truncEntries (d : Block) (l : List Nat) : Keeps sb C (truncEntries sb d l) := by
  induction l with
  | nil => exact keeps_pure _
  | cons j l ih =>
    unfold truncEntries
    split
    · exact leads_bind (keeps_bfree _) fun _ => ih
    · exact ih

theorem keeps_truncIndirect (ip : Fin NINODE) : Keeps sb C (truncIndirect sb ip) := by
  refine leads_bind (keeps_inode ip) fun x => ?_
  dsimp only
  split
  · refine leads_bind (leads_bread _) fun d => leads_bind (keeps_truncEntries _ _) fun _ => ?_
    exact leads_bind (leads_brelse _) fun _ => leads_bind (keeps_bfree _) fun _ =>
      keeps_setAddr _ _ _
  · exact keeps_pure _

theorem keeps_itrunc (ip : Fin NINODE) : Keeps sb C (itrunc sb ip) := by
  refine leads_bind (keeps_truncDirect _ _) fun _ => leads_bind (keeps_truncIndirect _) fun _ => ?_
  refine leads_bind (keeps_inode ip) fun x => ?_
  exact leads_bind (keeps_setInode _ _) fun _ => keeps_iupdate _

theorem keeps_dropRef (ip : Fin NINODE) : Keeps sb C (dropRef ip) :=
  leads_bind (keeps_inode ip) fun _ => keeps_setInode _ _

theorem keeps_ifree (ip : Fin NINODE) : Keeps sb C (ifree sb ip) := by
  refine leads_bind (keeps_inode ip) fun x => ?_
  split
  · exact keeps_stop _
  · refine leads_bind (keeps_setInode _ _) fun _ => leads_bind (keeps_itrunc _) fun _ => ?_
    refine leads_bind (keeps_inode ip) fun y => leads_bind (keeps_setInode _ _) fun _ => ?_
    exact leads_bind (keeps_iupdate _) fun _ => leads_bind (keeps_inode ip) fun _ =>
      keeps_setInode _ _

theorem keeps_iput (ip : Fin NINODE) : Keeps sb C (iput sb ip) := by
  refine leads_bind (keeps_inode ip) fun x => ?_
  split
  · exact leads_bind (keeps_ifree _) fun _ => keeps_dropRef _
  · exact keeps_dropRef _

theorem keeps_readiFrom (ip : Fin NINODE) (dst : Dst) (n fuel tot off : Nat) (out : List UInt8) :
    Keeps sb C (readiFrom sb ip dst n fuel tot off out) := by
  induction fuel generalizing tot off out with
  | zero => exact keeps_pure _
  | succ fuel ih =>
    unfold readiFrom
    split
    · refine leads_bind (keeps_bmap _ _) fun a => leads_bind (leads_bread _) fun d => ?_
      refine leads_bind (leads_brelse _) fun _ => ?_
      split
      · exact ih _ _ _
      · exact keeps_pure _
    · exact keeps_pure _

theorem keeps_readi (ip : Fin NINODE) (dst : Dst) (off n : Nat) :
    Keeps sb C (readi sb ip dst off n) := by
  refine leads_bind (keeps_inode ip) fun x => ?_
  split
  · exact keeps_pure _
  · exact keeps_readiFrom _ _ _ _ _ _ _

theorem keeps_writeiFrom (ip : Fin NINODE) (hsrc : src.Whole off n)
    (fuel tot : Nat) (htot : tot < n → tot = 0 ∨ (off + tot) % BSIZE = 0) :
    Keeps sb C (writeiFrom sb ip src n fuel tot (off + tot)) := by
  induction fuel generalizing tot with
  | zero => exact keeps_pure _
  | succ fuel ih =>
    unfold writeiFrom
    split
    next hlt =>
      refine leads_bind (keeps_bmap _ _) fun a => leads_bind (leads_bread _) fun d => ?_
      dsimp only
      by_cases hc : (eitherCopyin src tot (min (n - tot) (BSIZE - (off + tot) % BSIZE))).2 = true
      · -- A piece that was copied is logged, and the next starts where a block does.
        simp only [if_pos hc]
        refine leads_logged _ _ (leads_bind (leads_brelse _) fun _ => ?_)
        rw [Nat.add_assoc]
        refine ih _ fun hlt' => .inr ?_
        unfold BSIZE at hlt' ⊢
        omega
      · -- A piece that was not copied has not changed the buffer.
        have hnil := (hsrc tot hlt (htot hlt)).resolve_left hc
        simp only [if_neg hc, hnil]
        refine leads_bind (keeps_bmod_self _ fun d => Block.blit_nil) fun _ => ?_
        exact leads_bind (leads_brelse _) fun _ => keeps_pure _
    · exact keeps_pure _

theorem keeps_writei (ip : Fin NINODE) (hsrc : src.Whole off n) :
    Keeps sb C (writei sb ip src off n) := by
  refine leads_bind (keeps_inode ip) fun x => ?_
  split_ifs
  · exact keeps_pure _
  · exact keeps_pure _
  · refine leads_bind (keeps_writeiFrom ip hsrc n 0 fun _ => .inl rfl) fun r => ?_
    refine leads_bind (keeps_inode ip) fun x => leads_bind (keeps_setInode _ _) fun _ => ?_
    exact leads_bind (keeps_iupdate _) fun _ => keeps_pure _

theorem keeps_update (ip : Fin NINODE) (f : Meta → Meta) : Keeps sb C (update sb ip f) :=
  leads_bind (keeps_inode ip) fun _ => leads_bind (keeps_setInode _ _) fun _ => keeps_iupdate _

end Fs

namespace Ino

/-- What is asked of an operation: only a write from user memory can go wrong. -/
def Whole : IOp → Prop
  | .writei _ src off n => src.Whole off n
  | _ => True

theorem keeps_impl (sb : Superblock) (C : List Nat) {o : IOp} (ho : Whole o) :
    Fs.Keeps sb C (impl sb o) := by
  cases o with
  | iget dev inum => exact Fs.keeps_iget dev inum
  | idup ip => exact Fs.keeps_idup ip
  | ilock ip => exact Fs.keeps_ilock ip
  | iunlock ip => exact Fs.keeps_iunlock ip
  | iput ip => exact Fs.keeps_iput ip
  | ialloc dev type => exact Fs.keeps_iallocFrom dev type _ _
  | load ip => exact leads_bind (Fs.keeps_inode ip) fun _ => Fs.keeps_pure _
  | update ip f => exact Fs.keeps_update ip f
  | itrunc ip => exact Fs.keeps_itrunc ip
  | readi ip dst off n => exact Fs.keeps_readi ip dst off n
  | writei ip src off n => exact Fs.keeps_writei ip ho
  | beginOp | endOp | procs => exact Fs.keeps_op trivial
  | setProcs x => exact Fs.keeps_op trivial
  | stop e => exact Fs.keeps_stop e

end Ino

end Xv6
