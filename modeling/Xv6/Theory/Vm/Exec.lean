import Xv6.Theory.Vm.Load
import Xv6.Theory.Vm.Owners

/-!
# All or Nothing

`exec` builds the memory of the new program beside the old one, and only when nothing can fail any
more it puts the one in the place of the other. Before that point it stores in pages that it took
itself, and `bad` gives all of them back.

## Theorems

* `Vm.Exec.exec_all_or_nothing`: a call that fails leaves the process and the pages as they were
* `Vm.Exec.exec_passes_args`: one that succeeds has the arguments on the stack
-/

namespace Xv6.Vm.Exec

open Multiset (add_cons mem_cons_of_mem)

/-- The call returned `-1` and nothing happened: the pages `A` of all processes are as before, and
    the other pages are free. -/
structure Failed (U A : Multiset Word) (m : Phys) (p : Proc) (res : Result) : Prop where
  ret : res.ret = -1#64
  proc : res.proc = p
  pool : ∃ l, Pool U res.mem l A
  same : Same m res.mem A

/-- The process runs the program in `f`, whose headers are at `off`. `A` are the pages of others. -/
structure Started (trampoline : Word) (U A : Multiset Word) (f : File) (off left : Nat)
    (elf : ElfHdr) (path : List UInt8) (argv : List (List UInt8)) (m : Phys) (p : Proc)
    (res : Result) : Prop where
  ret : res.ret = BitVec.ofNat 64 argv.length
  proc : res.proc =
    { setName p path with pagetable := res.proc.pagetable, sz := res.proc.sz }
  fits : need argv ≤ PGSIZE
  same : Same m res.mem A
  memory : ∃ (l : List Word) (T : Multiset Word) (n : Nat) (g : Nat → Word) (sp : Word),
    Memory.Has trampoline res.mem res.proc.toProc T (n + 2) g ∧
    Pool U res.mem l (T + (frames g 0 (n + 2) + (p.trapframe ::ₘ A))) ∧
    res.proc.sz.toNat = (n + 2) * PGSIZE ∧
    Loaded f off left res.mem res.proc.pagetable n (fun _ => 0) ∧
    (∀ a, a / PGSIZE = n → vbyte res.mem res.proc.pagetable a = none) ∧
    Args res.mem res.proc.pagetable ((n + 2) * PGSIZE) sp.toNat argv ∧
    res.mem.word p.trapframe 3 = elf.entry ∧ res.mem.word p.trapframe 6 = sp ∧
    res.mem.word p.trapframe 15 = sp

variable {kend trampoline trapframe : Word} {U A T T1 : Multiset Word} {m m' : Phys} {p : Proc}
  {r sz : Word} {l : List Word} {n n1 off left : Nat} {g g1 : Nat → Word} {f : File}
  {path : List UInt8} {argv : List (List UInt8)}

theorem bad_spec (h : User trampoline trapframe m r T n g) (hU : Pages kend U) (hr : r ≠ 0#64)
    (hpool : Pool U m l (T + (frames g 0 n + A))) (hsz : pagesIn sz = n) (p : Proc) (ip : Bool)
    (calls : List FsCall) : ∃ res, bad kend m p r sz ip calls = .ok res ∧ Failed U A m p res ∧
      res.calls = if ip then calls ++ [.iunlockput, .endOp] else calls := by
  obtain ⟨m', l', heq, hpool', hsame⟩ := h.procFreepagetable hU hpool hsz
  refine ⟨⟨-1#64, p, m', if ip then calls ++ [.iunlockput, .endOp] else calls⟩, ?_,
    ⟨rfl, rfl, ⟨l', hpool'⟩, hsame⟩, rfl⟩
  unfold bad
  rw [if_neg hr, heq, ok_bind]

variable {res : Result}

theorem Failed.of_same (h : Failed U A m' p res) (hsame : Same m m' A) : Failed U A m p res :=
  ⟨h.ret, h.proc, h.pool, hsame.trans h.same⟩

theorem commit_spec (h : Memory.Has trampoline m p.toProc T n g) (hU : Pages kend U)
    (h1 : User trampoline p.trapframe m r T1 n1 g1)
    (hpool : Pool U m l (T1 + (frames g1 0 n1 + (T + (frames g 0 n + (p.trapframe ::ₘ A))))))
    (path : List UInt8) (elf : ElfHdr) (argc : Nat) (sp : Word) (calls : List FsCall) :
    ∃ m' l', commit kend m p path elf r sz argc sp calls =
        .ok ⟨BitVec.ofNat 64 argc, { setName p path with pagetable := r, sz := sz }, m', calls⟩ ∧
      User trampoline p.trapframe m' r T1 n1 g1 ∧
      Pool U m' l' (T1 + (frames g1 0 n1 + (p.trapframe ::ₘ A))) ∧
      Same m m' (T1 + frames g1 0 n1) ∧ Same m m' A ∧
      m'.word p.trapframe 3 = elf.entry ∧ m'.word p.trapframe 6 = sp ∧
      m'.word p.trapframe 15 = sp := by
  -- The trapframe is a page of its own.
  have hword : ∀ b, b ≠ p.trapframe →
      (((m.set p.trapframe 15 sp).set p.trapframe 3 elf.entry).set p.trapframe 6 sp).word b =
        m.word b := by
    intro b hb
    funext j
    rw [word_set, if_neg (fun hx => hb hx.1), word_set, if_neg (fun hx => hb hx.1), word_set,
      if_neg (fun hx => hb hx.1)]
  have hcast : T1 + (frames g1 0 n1 + (T + (frames g 0 n + (p.trapframe ::ₘ A)))) =
      p.trapframe ::ₘ (T1 + (frames g1 0 n1 + (T + (frames g 0 n + A)))) := by
    simp only [add_cons]
  obtain ⟨hpool1, hu1, hsame1⟩ := h1.fresh _ hU (hpool.cast hcast) hword rfl
  have hcast1 : p.trapframe ::ₘ (T1 + (frames g1 0 n1 + (T + (frames g 0 n + A)))) =
      T + (frames g 0 n + (T1 + (frames g1 0 n1 + (p.trapframe ::ₘ A)))) := by
    simp only [add_cons]
    ac_rfl
  obtain ⟨m2, l2, heq, hpool2, hsame2⟩ :=
    (h.user.congr hsame1.right.right.left).procFreepagetable hU (hpool1.cast hcast1) h.size
  have htf := hsame2.right.right p.trapframe (Multiset.mem_cons_self _ _)
  refine ⟨m2, l2, ?_, hu1.congr hsame2.left, hpool2, ?_, ?_, ?_, ?_, ?_⟩
  · simp only [commit, heq, ok_bind]
  · intro b hb
    rcases Multiset.mem_add.1 hb with hT | hF
    · rw [hsame2 b (Multiset.mem_add.2 (.inl hT)), hsame1.left b hT]
    · rw [hsame2 b (Multiset.mem_add.2 (.inr (Multiset.mem_add.2 (.inl hF)))),
        hsame1.right.left b hF]
  · intro b hb
    rw [hsame2.right.right b (mem_cons_of_mem hb), hsame1.right.right.right.right b hb]
  · rw [htf, word_set, if_neg fun hx => absurd hx.2 (by decide), word_set, if_pos ⟨rfl, rfl⟩]
  · rw [htf, word_set, if_pos ⟨rfl, rfl⟩]
  · rw [htf, word_set, if_neg fun hx => absurd hx.2 (by decide), word_set,
      if_neg fun hx => absurd hx.2 (by decide), word_set, if_pos ⟨rfl, rfl⟩]

/-- Whether the call failed or not, and what it asked of the file system. -/
def Outcome (trampoline : Word) (U A A' : Multiset Word) (f : File) (off left : Nat) (elf : ElfHdr)
    (path : List UInt8) (argv : List (List UInt8)) (m : Phys) (p : Proc) (res : Result) : Prop :=
  Failed U A m p res ∨ Started trampoline U A' f off left elf path argv m p res

theorem execStack_spec (h : Memory.Has trampoline m p.toProc T n g) (hU : Pages kend U)
    (h₁ : User trampoline p.trapframe m r T₁ n₁ g₁) (hr : r ≠ 0#64)
    (hpool : Pool U m l (T₁ + (frames g₁ 0 n₁ + (T + (frames g 0 n + (p.trapframe ::ₘ A))))))
    (hsz : At sz n₁) (hload : Loaded f off left m r n₁ (fun _ => 0))
    (hargv : ∀ s ∈ argv, s.length < PGSIZE) (hmax : argv.length < Memory.MAXARG) (elf : ElfHdr)
    (path : List UInt8) (calls : List FsCall) :
    ∃ res, execStack kend m p path argv elf r sz calls = .ok res ∧ res.calls = calls ∧
      Outcome trampoline U (T + (frames g 0 n + (p.trapframe ::ₘ A))) A f off left elf path argv m p
        res := by
  have hbound := hpool.bound hU
  unfold execStack
  obtain ⟨sz1, m1, l1, T1, n1, g1, heq, hpool1, hu1, hsame, -, hg1, hn1, hblank, hsz1⟩ :=
    h₁.uvmalloc hU hpool hsz.pagesIn (sz + 8192#64)
  have hbound1 := hpool1.bound hU
  simp only [heq, ok_bind]
  by_cases hz : sz1 = 0#64
  · rw [if_pos hz] at hn1 ⊢
    obtain ⟨res, hrun, hfail, hcalls⟩ :=
      bad_spec hu1 hU hr hpool1 (hsz.pagesIn.trans hn1.symm) p false calls
    exact ⟨res, hrun, hcalls, .inl (hfail.of_same hsame.right)⟩
  rw [if_neg hz] at hn1 ⊢
  have hat := hsz.stack hbound hz hsz1
  rw [hat.pagesIn] at hn1
  subst hn1
  have hshow1 := hload.shows.grow hload.zero h₁ hu1 hbound hbound1 hg1 hsame hblank
  obtain ⟨m2, g2, heq2, hpool2, hu2, hsame2, hg2, hclear⟩ :=
    Memory.clear_spec hu1 hU hpool1 (by omega) hat.guard
  have hbyte2 : ∀ a, a / PGSIZE < n₁ → vbyte m2 r a = vbyte m1 r a := fun a ha =>
    hu1.vbyte_eq hu2 hbound1 hbound1 (by omega) (by omega) (hg2 _ (by omega))
      (hsame2 _ (Multiset.mem_add.2 (.inl (mem_frames (by omega)))))
  simp only [heq2, ok_bind]
  -- The upper one is the stack.
  have hstack : Stack trampoline p.trapframe U (T + (frames g 0 n + (p.trapframe ::ₘ A))) T1 l1 r
      (n₁ + 2) g2 ((n₁ + 2) * PGSIZE) m2 := by
    refine ⟨hu2, hpool2, fun a h1 h2 => ?_, Nat.mul_mod_left _ _, ?_, ?_⟩
    · have hpage : a / PGSIZE = n₁ + 1 := by
        simp only [PGSIZE] at *
        omega
      refine ⟨PTE2PA (g2 (n₁ + 1)), ?_⟩
      rw [hu2.frameOf_eq hbound1, hpage, if_pos (by omega), if_neg]
      rw [hg2 _ (by omega)]
      exact (hblank (n₁ + 1) (by omega) (by omega)).1
    · simp only [PGSIZE]
      omega
    · simp only [PGSIZE, MAXVA]
      omega
  have htop : sz1 = BitVec.ofNat 64 ((n₁ + 2) * PGSIZE) := by
    rw [← hat, BitVec.ofNat_toNat, BitVec.setWidth_eq]
  have hbase : sz1 - 4096#64 = BitVec.ofNat 64 ((n₁ + 2) * PGSIZE - PGSIZE) := by
    have h4096 : (4096#64 : Word).toNat = 4096 := rfl
    have hlt := sz1.isLt
    apply BitVec.eq_of_toNat_eq
    rw [BitVec.toNat_sub, h4096, hat, BitVec.toNat_ofNat]
    simp only [PGSIZE] at *
    omega
  obtain ⟨res, m3, heq3, hstack3, hwithin, hnone, hsome⟩ := hstack.pushStack hU hargv hmax
  rw [← htop, ← hbase] at heq3
  simp only [heq3, ok_bind]
  have hsame3 : Same m m3 (T + (frames g 0 n + (p.trapframe ::ₘ A))) :=
    (hsame.right.trans hsame2.right).trans hwithin.same
  cases res with
  | none =>
    obtain ⟨res, hrun, hfail, hcalls⟩ :=
      bad_spec hstack3.user hU hr hstack3.pool hat.pagesIn p false calls
    exact ⟨res, hrun, hcalls, .inl (hfail.of_same hsame3)⟩
  | some res =>
    obtain ⟨argc, sp⟩ := res
    obtain ⟨rfl, hargs⟩ := hsome argc sp rfl
    rcases commit_spec (h.congr hsame3.left) hU hstack3.user hstack3.pool
      path elf argv.length sp calls with
      ⟨m4, l4, hrun, hu4, hpool4, hsame4, hsameA, hepc, hsp, ha1⟩
    have hbyte4 := hstack3.user.vbyte_congr hbound1 hsame4
    refine ⟨_, hrun, rfl, .inr ⟨rfl, rfl, ?_, fun b hb => ?_, l4, T1, n₁, g2, sp,
      ⟨hu4, hat.pagesIn, h.trapframe, hr⟩, hpool4, hat, ?_, fun a ha => ?_, ?_, hepc, hsp, ha1⟩⟩
    · by_contra hc
      cases hnone.2 (Nat.lt_of_not_le hc)
    · rw [hsameA b hb, hsame3.right.right b (mem_cons_of_mem hb)]
    · refine ⟨hload.read, fun a ha => ?_, hload.zero, hload.placed⟩
      rw [hbyte4, hwithin.byte a (.inl ?_), hbyte2 a ha]
      · exact hshow1 a (by omega)
      · simp only [PGSIZE] at *
        omega
    · rw [hbyte4]
      unfold vbyte
      rw [hwithin.frame, hu2.frameOf_eq hbound1, ha, if_pos (by omega), if_pos hclear]
      rfl
    · refine hargs.congr fun b _ _ => ?_
      rw [hbyte4]

theorem bad_zero (kend : Word) (m : Phys) (p : Proc) (calls : List FsCall) :
    bad kend m p 0#64 0#64 true calls = .ok ⟨-1#64, p, m, calls ++ [.iunlockput, .endOp]⟩ := rfl

/-- The header that `exec` reads. -/
def File.elf (f : File) : ElfHdr := ElfHdr.ofBytes (f.bytes.take 64)

theorem exec_spec (h : Memory.Has trampoline m p.toProc T n g) (hU : Pages kend U)
    (hpool : Pool U m l (T + (frames g 0 n + (p.trapframe ::ₘ A))))
    (hargv : ∀ s ∈ argv, s.length < PGSIZE) (hmax : argv.length < Memory.MAXARG) (f : File)
    (path : List UInt8) : ∃ res, exec kend trampoline m p (some f) path argv = .ok res ∧
      res.calls = [.beginOp, .namei, .ilock, .iunlockput, .endOp] ∧
      Outcome trampoline U (T + (frames g 0 n + (p.trapframe ::ₘ A))) A f
        (f.elf.phoff.toNat % 2 ^ 32) f.elf.phnum.toNat f.elf path argv m p res := by
  -- Where the file is found not to be a program.
  have hstay : ∀ x : Except Panic Result,
    x = bad kend m p 0#64 0#64 true [.beginOp, .namei, .ilock] →
      ∃ res, x = .ok res ∧ res.calls = [.beginOp, .namei, .ilock, .iunlockput, .endOp] ∧
        Outcome trampoline U (T + (frames g 0 n + (p.trapframe ::ₘ A))) A f
          (f.elf.phoff.toNat % 2 ^ 32) f.elf.phnum.toNat f.elf path argv m p res := by
    intro x hx
    rw [bad_zero] at hx
    exact ⟨_, hx, rfl, .inl ⟨rfl, rfl, ⟨l, hpool⟩, Same.refl⟩⟩
  unfold exec
  simp only
  by_cases hshort : (f.readi 0#32 64#32).length ≠ 64
  · exact hstay _ (if_pos hshort)
  rw [if_neg hshort]
  have hread : ElfHdr.ofBytes (f.readi 0#32 64#32) = f.elf := by
    rw [(readi_full (k := 64#32) (by decide) (Classical.not_not.1 hshort)).1]
    rfl
  rw [hread]
  by_cases hmagic : f.elf.magic ≠ ELF_MAGIC
  · exact hstay _ (if_pos hmagic)
  rw [if_neg hmagic]
  obtain ⟨res, m1, l1, heq1, hsame1, hnone1, hsome1⟩ :=
    procPagetable_spec trampoline p.trapframe hU hpool (fun _ => 0#64)
  simp only [heq1, ok_bind]
  cases res with
  | none =>
    refine ⟨_, bad_zero kend m1 p _, rfl, .inl ⟨rfl, rfl, ⟨l1, hnone1 rfl⟩, hsame1⟩⟩
  | some r =>
    obtain ⟨hr, T1, hpool1, hu1⟩ := hsome1 r rfl
    -- From here on both memories exist, the old one among the pages of others.
    have hcut : (f.elf.phoff.setWidth 32).toNat = f.elf.phoff.toNat % 2 ^ 32 :=
      BitVec.toNat_setWidth ..
    rcases loadFrom_spec (f := f) hU f.elf.phnum.toNat (f.elf.phoff.setWidth 32) hu1 hpool1
      (show pagesIn 0#64 = 0 by decide) (fun a ha => absurd ha (Nat.not_lt_zero _))
      (fun _ _ => rfl) with ⟨ok, sz, m2, l2, T2, n2, g2, heq2, hpool2, hu2, hsame2, hsz2, -, hok⟩
    have hsame02 := hsame1.trans hsame2
    rw [hcut] at hok
    simp only [heq2, ok_bind]
    cases ok with
    | false =>
      obtain ⟨res, hrun, hfail, hcalls⟩ :=
        bad_spec hu2 hU hr hpool2 hsz2 p true [.beginOp, .namei, .ilock]
      exact ⟨res, hrun, hcalls, .inl (hfail.of_same hsame02)⟩
    | true =>
      have hbound := hpool2.bound hU
      have hat : At (PGROUNDUP sz) n2 := by
        rw [← hsz2]
        refine at_PGROUNDUP _ ?_
        simp only [pagesIn, PGSIZE] at hsz2
        omega
      rcases execStack_spec (h.congr hsame02.left) hU hu2 hr hpool2 hat (hok rfl) hargv hmax
        f.elf path ([.beginOp, .namei, .ilock] ++ [.iunlockput, .endOp]) with
        ⟨res, hrun, hcalls, hout⟩
      refine ⟨res, hrun, hcalls, ?_⟩
      rcases hout with hfail | hstart
      · exact .inl (hfail.of_same hsame02)
      · refine .inr { hstart with same := fun b hb => ?_ }
        rw [hstart.same b hb, hsame02.right.right b (mem_cons_of_mem hb)]

/-! ## Calls of processes -/

section Calls

variable {K : Type} [DecidableEq K] [Fintype K] {s : Memory.Sys K} {m0 : Phys} {i : Fin NPROC}

/-- The memory when `sys_exec` calls `exec`: a page for every argument has been taken, and its
    string is there. -/
def Fetched (argv : List (List UInt8)) (m m' : Phys) : Prop :=
  ∃ pages m1, Memory.fetchArgs true (argv.map fun _ => true) m [] = (true, pages, m1) ∧
    m'.freelist = m1.freelist ∧ ∀ a, a ∉ pages → m'.word a = m1.word a

/-- Process `i` calls `exec` with `argv`, which are fewer than `MAXARG` strings, each in a page. -/
structure Calling (s : Memory.Sys K) (i : Fin NPROC) (m : Phys) (p : Proc)
    (argv : List (List UInt8)) : Prop where
  used : (s.procs i).state ≠ .unused
  proc : p.toProc = s.procs i
  memory : ∃ m1, Memory.Touched s m1 ∧ Fetched argv m1 m
  strings : ∀ t ∈ argv, t.length < PGSIZE
  count : argv.length < Memory.MAXARG

theorem Calling.has {l0 : List Word} (hc : Calling s i m p argv) (hchain : Chain m0 m0.freelist l0)
    (hU : Pages kend (l0 : Multiset Word)) (hs : Memory.Reachable kend trampoline m0 s) :
    ∃ l T n g A, Memory.Has trampoline m p.toProc T n g ∧
      Pool (l0 : Multiset Word) m l (T + (frames g 0 n + (p.trapframe ::ₘ A))) := by
  obtain ⟨l, T, n, g, hinv⟩ := Memory.inv_reachable hchain hU hs
  obtain ⟨m1, htouched, pages, m2, hfetch, hfree, hword⟩ := hc.memory
  obtain ⟨hhas, hpool⟩ := hinv.touched hU hc.used htouched
  rw [← hc.proc] at hhas hpool
  have hnone : (([] : List Word) : Multiset Word) +
      (T i + (frames (g i) 0 (n i) + (p.trapframe ::ₘ Memory.rest s T n g i))) =
      T i + (frames (g i) 0 (n i) + (p.trapframe ::ₘ Memory.rest s T n g i)) := zero_add _
  obtain ⟨ok, pages', m2', l2, heq, hpool2, hsame2⟩ :=
    Memory.fetchArgs_spec hU true (argv.map fun _ => true) (hpool.cast hnone.symm)
  rw [hfetch] at heq
  cases heq
  -- The strings are in the pages that were taken, and nobody else's.
  have hnd := Multiset.nodup_add.1 (hpool2.nodup hU)
  have hdis := (Multiset.nodup_add.1 hnd.2.1).2.2
  have hsame : Same m2 m
      (T i + (frames (g i) 0 (n i) + (p.trapframe ::ₘ Memory.rest s T n g i))) :=
    fun b hb => hword b fun hp => Multiset.disjoint_left.1 hdis (Multiset.mem_coe.2 hp) hb
  refine ⟨l2, T i, n i, g i, (pages : Multiset Word) + Memory.rest s T n g i,
    hhas.congr (hsame2.trans hsame).left, ?_, ?_⟩
  · rw [hfree]
    refine chain_congr (fun b hb => ?_) hpool2.chain
    rw [hword b fun hp => Multiset.disjoint_left.1 hnd.2.2 (Multiset.mem_coe.2 hb)
      (Multiset.mem_add.2 (.inl (Multiset.mem_coe.2 hp)))]
  · rw [← hpool2.all]
    simp only [add_cons]
    ac_rfl

/-- `exec` never panics. When it returns `-1`, the process, its memory and its registers are as
    before, the same pages are free, and the file and the transaction were closed once. -/
theorem exec_all_or_nothing {l0 : List Word} (hchain : Chain m0 m0.freelist l0)
    (hU : Pages kend (l0 : Multiset Word)) (hs : Memory.Reachable kend trampoline m0 s)
    (hc : Calling s i m p argv) (file : Option File) (path : List UInt8) :
    ∃ res, exec kend trampoline m p file path argv = .ok res ∧
      res.calls = (if file.isSome then [.beginOp, .namei, .ilock, .iunlockput, .endOp]
        else [.beginOp, .namei, .endOp]) ∧ (res.ret = -1#64 → res.proc = p ∧
        (∀ va, va.toNat < MAXVA → lookup res.mem p.pagetable va = lookup m p.pagetable va) ∧
        vbyte res.mem p.pagetable = vbyte m p.pagetable ∧
        res.mem.word p.trapframe = m.word p.trapframe ∧
        ∃ l l', Chain m m.freelist l ∧ Chain res.mem res.mem.freelist l' ∧ l'.Perm l) := by
  obtain ⟨l, T, n, g, A, hhas, hpool⟩ := hc.has hchain hU hs
  cases file with
  | none =>
    exact ⟨_, rfl, rfl, fun _ => ⟨rfl, fun _ _ => rfl, rfl, rfl, l, l, hpool.chain, hpool.chain,
      List.Perm.refl _⟩⟩
  | some f =>
    obtain ⟨res, hrun, hcalls, hout⟩ := exec_spec hhas hU hpool hc.strings hc.count f path
    refine ⟨res, hrun, hcalls, fun hret => ?_⟩
    rcases hout with hfail | hstart
    · obtain ⟨l', hpool'⟩ := hfail.pool
      have hcongr := hhas.congr hfail.same.left
      refine ⟨hfail.proc, fun va hva => ?_, ?_, ?_, l, l', hpool.chain, hpool'.chain, ?_⟩
      · rw [hcongr.user.space.map va hva, hhas.user.space.map va hva]
      · refine hhas.user.vbyte_congr (hpool.bound hU) fun b hb => ?_
        rcases Multiset.mem_add.1 hb with hT | hF
        · exact hfail.same.left b hT
        · exact hfail.same.right.left b hF
      · exact hfail.same.right.right _ (Multiset.mem_cons_self _ _)
      · exact Multiset.coe_eq_coe.1 (add_right_cancel (hpool'.all.trans hpool.all.symm))
    · -- The number of arguments is no `-1`.
      have hcount := hc.count
      rw [hstart.ret] at hret
      have := congrArg BitVec.toNat hret
      rw [BitVec.toNat_ofNat, show (-1#64).toNat = 2 ^ 64 - 1 from rfl] at this
      simp only [Memory.MAXARG] at hcount
      omega

/-- A program that starts finds its arguments: `a0` is their number, `a1` and `sp` are where the
    pointers to them are. What does not fit in a page makes the call fail, and whether it does or
    not, the pushes change nothing below the stack. -/
theorem exec_passes_args {l0 : List Word} (hchain : Chain m0 m0.freelist l0)
    (hU : Pages kend (l0 : Multiset Word)) (hs : Memory.Reachable kend trampoline m0 s)
    (hc : Calling s i m p argv) (file : Option File) (path : List UInt8) :
    (∃ res, sysExec kend trampoline m p file path argv = .ok res ∧
      (res.ret ≠ -1#64 → ∃ sp, res.mem.word p.trapframe 14 = BitVec.ofNat 64 argv.length ∧
        res.mem.word p.trapframe 15 = sp ∧ res.mem.word p.trapframe 6 = sp ∧
        Args res.mem res.proc.pagetable res.proc.sz.toNat sp.toNat argv) ∧
      (PGSIZE < need argv → res.ret = -1#64)) ∧
    ∀ (A T : Multiset Word) (l : List Word) (r : Word) (n : Nat) (g : Nat → Word) (top : Nat)
      (m1 : Phys), Stack trampoline p.trapframe l0 A T l r n g top m1 →
      ∃ out m2, pushStack m1 r (BitVec.ofNat 64 (top - PGSIZE)) (BitVec.ofNat 64 top) argv =
          .ok (out, m2) ∧ (out = none ↔ PGSIZE < need argv) ∧
        ∀ b, b < top - PGSIZE → vbyte m2 r b = vbyte m1 r b := by
  obtain ⟨l, T, n, g, A, hhas, hpool⟩ := hc.has hchain hU hs
  constructor
  swap
  · intro A T l r n g top m1 hstack
    obtain ⟨out, m2, hrun, -, hwithin, hnone, -⟩ := hstack.pushStack hU hc.strings hc.count
    exact ⟨out, m2, hrun, hnone, fun b hb => hwithin.byte b (.inl hb)⟩
  · cases file with
    | none => exact ⟨_, rfl, fun hret => absurd rfl hret, fun _ => rfl⟩
    | some f =>
      obtain ⟨res, hrun, -, hout⟩ := exec_spec hhas hU hpool hc.strings hc.count f path
      refine ⟨{ res with mem := res.mem.set res.proc.trapframe 14 res.ret }, ?_, ?_, ?_⟩
      · unfold sysExec
        rw [hrun, ok_bind]
      · intro hret
        rcases hout with hfail | hstart
        · exact absurd hfail.ret hret
        · obtain ⟨l', T', n', g', sp, hhas', hpool', hsz, -, -, hargs, -, hsp, ha1⟩ := hstart.memory
          have htf : res.proc.trapframe = p.trapframe := by
            rw [hstart.proc]
            rfl
          -- The trapframe is no page that the program sees.
          have hword : ∀ b, b ≠ p.trapframe →
              (res.mem.set p.trapframe 14 res.ret).word b = res.mem.word b := by
            intro b hb
            funext j
            rw [word_set, if_neg (fun hx => hb hx.1)]
          have hcast : T' + (frames g' 0 (n' + 2) + (p.trapframe ::ₘ A)) =
              p.trapframe ::ₘ (T' + (frames g' 0 (n' + 2) + A)) := by
            simp only [add_cons]
          obtain ⟨-, -, hsame⟩ := hhas'.user.fresh _ hU (hpool'.cast hcast) hword rfl
          have hown : Same res.mem (res.mem.set p.trapframe 14 res.ret)
              (T' + frames g' 0 (n' + 2)) := fun b hb => by
            rcases Multiset.mem_add.1 hb with hT | hF
            · exact hsame.left b hT
            · exact hsame.right.left b hF
          have hbyte := hhas'.user.vbyte_congr (hpool'.bound hU) hown
          rw [htf]
          refine ⟨sp, ?_, ?_, ?_, ?_⟩
          · rw [word_set, if_pos ⟨rfl, rfl⟩, hstart.ret]
          · rw [word_set, if_neg fun hx => absurd hx.2 (by decide)]
            exact ha1
          · rw [word_set, if_neg fun hx => absurd hx.2 (by decide)]
            exact hsp
          · show Args _ _ res.proc.sz.toNat _ _
            rw [hsz]
            refine hargs.congr fun b _ _ => ?_
            rw [hbyte]
      · intro hneed
        rcases hout with hfail | hstart
        · exact hfail.ret
        · exact absurd hstart.fits (Nat.not_le.2 hneed)

end Calls

/-! ## A program of four bytes -/

/-- Twenty free pages after the kernel. -/
def twentyFree : Phys :=
  { word := fun a i => if i = 0 ∧ a ≠ 0x80014000#64 then a + 0x1000#64 else 0#64
    freelist := 0x80001000#64 }

def twentyPages : List Word := (List.range 20).map fun k =>
    BitVec.ofNat 64 (0x80001000 + k * 0x1000)

theorem chain_twentyFree : Chain twentyFree twentyFree.freelist twentyPages := by
  simp only [twentyPages, List.range, List.range.loop, List.map, Chain, twentyFree]
  decide

theorem pages_twentyFree : Pages KERNBASE (twentyPages : Multiset Word) := by
  refine ⟨Multiset.coe_nodup.2 (by decide), fun a ha => ?_⟩
  have hall : ∀ k ∈ List.range 20, IsPage KERNBASE (BitVec.ofNat 64 (0x80001000 + k * 0x1000)) := by
    unfold IsPage
    decide
  obtain ⟨k, hk, rfl⟩ := List.mem_map.1 (Multiset.mem_coe.1 ha)
  exact hall k hk

theorem ret_of_commit {sp : Word}
    {elf : ElfHdr} {argc : Nat} {calls : List FsCall}
    (h : commit kend m p path elf r sz argc sp calls = .ok res) :
    res.ret = BitVec.ofNat 64 argc := by
  unfold commit at h
  simp only at h
  cases hfree : procFreepagetable kend
      (((m.set p.trapframe 15 sp).set p.trapframe 3 elf.entry).set p.trapframe 6 sp)
      p.pagetable p.sz with
  | error e =>
    rw [hfree] at h
    cases h
  | ok m' =>
    rw [hfree, ok_bind] at h
    cases h
    rfl

/-- Whether the first process after `userinit` has the memory for a call of `exec`: for its
    arguments, a table, the segments and a stack. -/
def enough (f : File) (argv : List (List UInt8)) : Bool :=
  match Memory.userinit KERNBASE KERNBASE twentyFree with
  | .ok (true, p, m) =>
    p.state = .used &&
    match Memory.fetchArgs true (argv.map fun _ => true) m [] with
    | (true, _, m) =>
      match procPagetable KERNBASE KERNBASE m p.trapframe with
      | .ok (some r, m) =>
        match loadFrom KERNBASE f r f.elf.phnum.toNat (f.elf.phoff.setWidth 32) m 0#64 with
        | .ok (true, sz, m) =>
          match uvmalloc KERNBASE m r (PGROUNDUP sz) (PGROUNDUP sz + 8192#64) with
          | .ok (sz, m) =>
            sz ≠ 0#64 &&
            match uvmclear m r (sz - 8192#64) with
            | .ok m =>
              match pushStack m r (sz - 4096#64) sz argv with
              | .ok (some (argc, _), _) => BitVec.ofNat 64 argc ≠ -1#64
              | _ => false
            | _ => false
          | _ => false
        | _ => false
      | _ => false
    | _ => false
  | _ => false

theorem starts (hlen : (f.readi 0#32 64#32).length = 64)
    (hhead : f.readi 0#32 64#32 = f.bytes.take 64) (hmagic : f.elf.magic = ELF_MAGIC)
    (hstrings : ∀ t ∈ argv, t.length < PGSIZE) (hcount : argv.length < Memory.MAXARG)
    (henough : enough f argv = true) :
    ∃ p m' m res, Memory.userinit KERNBASE KERNBASE twentyFree = .ok (true, p, m') ∧
      Calling (Memory.start m' p : Memory.Sys Bool) ⟨0, by decide⟩ m ⟨p, []⟩ argv ∧
      exec KERNBASE KERNBASE m ⟨p, []⟩ (some f) [] argv = .ok res ∧ res.ret ≠ -1#64 := by
  unfold enough at henough
  split at henough
  swap
  · cases henough
  next p m' hinit =>
    rw [Bool.and_eq_true, decide_eq_true_eq] at henough
    obtain ⟨hstate, henough⟩ := henough
    split at henough
    swap
    · cases henough
    next pages m hfetch =>
      have hcall : Calling (Memory.start m' p : Memory.Sys Bool) ⟨0, by decide⟩ m ⟨p, []⟩ argv := by
        refine ⟨?_, rfl, ⟨m', ⟨rfl, fun _ _ _ => rfl⟩, pages, m, hfetch, rfl, fun _ _ => rfl⟩,
          hstrings, hcount⟩
        show p.state ≠ .unused
        rw [hstate]
        decide
      obtain ⟨l, T, n, g, A, hhas, hpool⟩ :=
        hcall.has chain_twentyFree pages_twentyFree (.start hinit)
      obtain ⟨res, hrun, -, -⟩ := exec_spec hhas pages_twentyFree hpool hstrings hcount f []
      refine ⟨p, m', m, res, hinit, hcall, hrun, ?_⟩
      split at henough
      swap
      · cases henough
      next r m1 htable =>
        split at henough
        swap
        · cases henough
        next sz0 m2 hload =>
          split at henough
          swap
          · cases henough
          next sz m3 halloc =>
            rw [Bool.and_eq_true, decide_eq_true_eq] at henough
            obtain ⟨hsz, henough⟩ := henough
            split at henough
            swap
            · cases henough
            next m4 hclear =>
              split at henough
              swap
              · cases henough
              next argc sp m5 hpush =>
                rw [decide_eq_true_eq] at henough
                unfold exec at hrun
                have helf : ElfHdr.ofBytes (f.readi 0#32 64#32) = f.elf := by rw [hhead, File.elf]
                simp only [hlen, ne_eq, not_true_eq_false, if_false, helf, hmagic, htable, ok_bind,
                  hload, execStack, halloc, hsz, hclear, hpush] at hrun
                rw [ret_of_commit hrun]
                exact henough

/-- A file with one segment of four bytes, after the two headers, for address `0`. -/
def tiny : File where
  bytes := [0x7F, 0x45, 0x4C, 0x46] ++ List.replicate 28 0 ++ [64] ++ List.replicate 23 0 ++
    [1, 0] ++ List.replicate 6 0 ++ [1, 0, 0, 0, 0, 0, 0, 0, 120] ++ List.replicate 23 0 ++
    [4, 0, 0, 0, 0, 0, 0, 0, 4] ++ List.replicate 15 0 ++ [0x13, 0, 0, 0]
  small := by
    simp only [List.length_append, List.length_replicate, List.length_cons, List.length_nil]
    decide

theorem tiny_starts : ∃ p m' m res,
    Memory.userinit KERNBASE KERNBASE twentyFree = .ok (true, p, m') ∧
    Calling (Memory.start m' p : Memory.Sys Bool) ⟨0, by decide⟩ m ⟨p, []⟩ [[104, 105]] ∧
    exec KERNBASE KERNBASE m ⟨p, []⟩ (some tiny) [] [[104, 105]] = .ok res ∧ res.ret ≠ -1#64 :=
  starts (by decide +kernel) (by decide +kernel) (by decide +kernel) (by decide) (by decide)
    (by decide +kernel)

/-- Whatever file it names, the call comes back. -/
theorem exec_all_or_nothing_first : ∃ p m' m,
    Memory.userinit KERNBASE KERNBASE twentyFree = .ok (true, p, m') ∧
    ∀ file path, ∃ res, exec KERNBASE KERNBASE m ⟨p, []⟩ file path [[104, 105]] = .ok res ∧
      (res.ret = -1#64 → res.proc = ⟨p, []⟩) := by
  obtain ⟨p, m', m, -, hinit, hcall, -⟩ := tiny_starts
  refine ⟨p, m', m, hinit, fun file path => ?_⟩
  obtain ⟨res, hrun, -, hfail⟩ :=
    exec_all_or_nothing chain_twentyFree pages_twentyFree (.start hinit) hcall file path
  exact ⟨res, hrun, fun hret => (hfail hret).1⟩

/-- The program starts and finds its one argument. -/
theorem exec_passes_args_tiny : ∃ p m' m res sp,
    Memory.userinit KERNBASE KERNBASE twentyFree = .ok (true, p, m') ∧
    sysExec KERNBASE KERNBASE m ⟨p, []⟩ (some tiny) [] [[104, 105]] = .ok res ∧
    res.ret ≠ -1#64 ∧ res.mem.word p.trapframe 14 = 1#64 ∧ res.mem.word p.trapframe 15 = sp ∧
    Args res.mem res.proc.pagetable res.proc.sz.toNat sp.toNat [[104, 105]] := by
  obtain ⟨p, m', m, res0, hinit, hcall, hrun0, hret⟩ := tiny_starts
  rcases (exec_passes_args chain_twentyFree pages_twentyFree (.start hinit) hcall (some tiny) []).1
    with ⟨res, hrun, hargs, -⟩
  have hres : res.ret ≠ -1#64 := by
    have heq := hrun
    rw [sysExec, hrun0, ok_bind] at heq
    cases heq
    exact hret
  obtain ⟨sp, ha0, ha1, -, h⟩ := hargs hres
  exact ⟨p, m', m, res, sp, hinit, hrun, hres, ha0, ha1, h⟩

end Xv6.Vm.Exec
