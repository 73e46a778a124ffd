import Xv6.Theory.Vm.Stack

/-!
# The Segments of a Program

What `exec` makes of the program headers. The memory is described by its bytes, an `image` that
starts as zeros. `uvmalloc` adds pages of zeros, which it does not change, and `loadseg` lays the
bytes of a segment over it.

## Theorems

* `Vm.Exec.loadseg_spec`, `Vm.Exec.loadFrom_spec`
-/

namespace Xv6.Vm.Exec

open BitVec (lt_def toNat_add toNat_setWidth)

/-- The bytes of the first `n` pages. -/
def Shows (m : Phys) (r : Word) (n : Nat) (img : Nat → UInt8) : Prop :=
  ∀ a, a / PGSIZE < n → vbyte m r a = some (img a)

/-- `k` program headers from `off` on. -/
def headers (f : File) (off : Nat) : Nat → List ProgHdr
  | 0 => []
  | k + 1 => ProgHdr.ofBytes ((f.bytes.drop off).take 56) :: headers f (off + 56) k

/-- `k` bytes of the file from `off` on are laid over the image at `va`. -/
def laid (f : File) (img : Nat → UInt8) (va off k : Nat) (a : Nat) : UInt8 :=
  if va ≤ a ∧ a < va + k then f.bytes.getD (off + (a - va)) 0 else img a

/-- The segments that are to be loaded, with offsets of 32 bits. -/
def image (f : File) : List ProgHdr → (Nat → UInt8) → Nat → UInt8
  | [], img => img
  | ph :: phs, img => image f phs (if ph.type = ELF_PROG_LOAD then
      laid f img ph.vaddr.toNat (ph.off.toNat % 2 ^ 32) ph.filesz.toNat else img)

variable {kend trampoline trapframe : Word} {U A T : Multiset Word} {m m' : Phys} {r va : Word}
  {l : List Word} {n : Nat} {g : Nat → Word} {img : Nat → UInt8} {f : File} {off k : BitVec 32}

theorem File.lt (f : File) : f.bytes.length < 2 ^ 31 := Nat.lt_of_le_of_lt f.small (by decide)

theorem readi_le (f : File) (off k : BitVec 32) : (f.readi off k).length ≤ k.toNat := by
  unfold File.readi
  split_ifs
  · exact Nat.zero_le _
  · exact List.length_take_le _ _

theorem readi_full (hk : 0 < k.toNat) (h : (f.readi off k).length = k.toNat) :
    f.readi off k = (f.bytes.drop off.toNat).take k.toNat ∧
      off.toNat + k.toNat ≤ f.bytes.length := by
  unfold File.readi at *
  by_cases hc : f.bytes.length < off.toNat ∨ off + k < off
  · rw [if_pos hc, List.length_nil] at h
    omega
  · rw [if_neg hc] at h ⊢
    rw [List.length_take, List.length_drop] at h
    exact ⟨rfl, by omega⟩

theorem laid_zero (f : File) (img : Nat → UInt8) (va off : Nat) : laid f img va off 0 = img := by
  funext a
  rw [laid, if_neg (by omega)]

theorem Shows.frameOf (h : Shows m r n img) {a : Nat} (ha : a / PGSIZE < n) :
    ∃ f, frameOf m r a = some f := by
  have hv := h a ha
  unfold vbyte at hv
  obtain ⟨f, hf, -⟩ := Option.map_eq_some_iff.1 hv
  exact ⟨f, hf⟩

theorem Shows.page {done : Nat} (hshow : Shows m r n (laid f img va.toNat off.toNat done))
    (h : User trampoline trapframe m r T n g) (hU : Pages kend U)
    (hpool : Pool U m l (T + (frames g 0 n + A))) {fr : Word} (bytes : List UInt8)
    (hva : (va.toNat + done) % PGSIZE = 0)
    (hfr : Vm.frameOf m r (va.toNat + done) = some fr) (hlen : bytes.length ≤ PGSIZE) :
    Pool U (m.store fr 0 bytes) l (T + (frames g 0 n + A)) ∧
      User trampoline trapframe (m.store fr 0 bytes) r T n g ∧ Same m (m.store fr 0 bytes) A ∧
      (bytes = (f.bytes.drop (off.toNat + done)).take bytes.length →
        Shows (m.store fr 0 bytes) r n (laid f img va.toNat off.toNat (done + bytes.length))) := by
  have hframe : ∀ i < bytes.length, Vm.frameOf m r (va.toNat + done + i) = some fr := fun i hi => by
    rw [← hfr]
    apply frameOf_page
    simp only [PGSIZE] at *
    omega
  have hstore : m.store fr 0 bytes = poke (Vm.frameOf m r) m (va.toNat + done) bytes := by
    rw [← hva]
    exact store_eq_poke (by omega) hframe
  obtain ⟨hpool', huser, hsame, -, hbyte⟩ := h.poke hU hpool (fun i hi => ⟨fr, hframe i hi⟩)
  rw [hstore]
  refine ⟨hpool', huser, hsame, fun hbytes a ha => ?_⟩
  rw [hbyte]
  by_cases hin : va.toNat + done ≤ a ∧ a < va.toNat + done + bytes.length
  · rw [if_pos hin, laid, if_pos (by omega), hbytes, List.getElem?_take, List.getElem?_drop,
      if_pos (by omega)]
    have hidx : off.toNat + done + (a - (va.toNat + done)) = off.toNat + (a - va.toNat) := by omega
    have hlt : off.toNat + (a - va.toNat) < f.bytes.length := by
      have hl := congrArg List.length hbytes
      rw [List.length_take, List.length_drop] at hl
      omega
    rw [hidx, List.getD_eq_getElem?_getD, List.getElem?_eq_getElem hlt]
    rfl
  · rw [if_neg hin, hshow a ha, laid, laid]
    congr 1
    by_cases hold : va.toNat ≤ a ∧ a < va.toNat + done
    · rw [if_pos hold, if_pos (by omega)]
    · rw [if_neg hold, if_neg (by omega)]

theorem loadsegFrom_spec (hU : Pages kend U) (hva : va.toNat % PGSIZE = 0)
    (hroom : va.toNat + k.toNat ≤ n * PGSIZE) (fuel : Nat) :
    ∀ {i : BitVec 32} {m : Phys}, i.toNat % PGSIZE = 0 → i.toNat < k.toNat + PGSIZE →
      k.toNat < i.toNat + fuel * PGSIZE + 1 →
      (i.toNat = 0 ∨ off.toNat + min i.toNat k.toNat ≤ f.bytes.length) →
      User trampoline trapframe m r T n g → Pool U m l (T + (frames g 0 n + A)) →
      Shows m r n (laid f img va.toNat off.toNat (min i.toNat k.toNat)) →
      ∃ ok m', loadsegFrom f r va off k fuel i m = .ok (ok, m') ∧
        User trampoline trapframe m' r T n g ∧ Pool U m' l (T + (frames g 0 n + A)) ∧ Same m m' A ∧
        (ok = true → (k.toNat = 0 ∨ off.toNat + k.toNat ≤ f.bytes.length) ∧
          Shows m' r n (laid f img va.toNat off.toNat k.toNat)) := by
  induction fuel with
  | zero =>
    intro i m hi hik hfuel hread h hpool hshow
    have hmin : min i.toNat k.toNat = k.toNat := by omega
    refine ⟨true, m, ?_, h, hpool, Same.refl, fun _ => ⟨by omega, hmin ▸ hshow⟩⟩
    rw [loadsegFrom, if_neg (by rw [lt_def]; omega)]
  | succ fuel ih =>
    intro i m hi hik hfuel hread h hpool hshow
    have hbound := hpool.bound hU
    have hsmall := f.lt
    rw [loadsegFrom]
    by_cases hlt : i < k
    swap
    · have hmin : min i.toNat k.toNat = k.toNat := by
        rw [lt_def] at hlt
        omega
      rw [if_neg hlt]
      exact ⟨true, m, rfl, h, hpool, Same.refl, fun _ => ⟨by omega, hmin ▸ hshow⟩⟩
    rw [if_pos hlt]
    rw [lt_def] at hlt
    have hmin : min i.toNat k.toNat = i.toNat := by omega
    rw [hmin] at hread hshow
    -- The address is in one of the pages, so `walkaddr` finds it.
    have haddr : (va + i.setWidth 64).toNat = va.toNat + i.toNat := by
      rw [toNat_add, toNat_setWidth]
      simp only [PGSIZE] at *
      omega
    have hpage : (va.toNat + i.toNat) / PGSIZE < n := by
      simp only [PGSIZE] at *
      omega
    obtain ⟨fr, hfr⟩ := hshow.frameOf hpage
    have hne : fr ≠ 0#64 := fun hz => h.nonzero hU hpool _ (hz ▸ hfr)
    have hpiece : (if k - i < 4096#32 then k - i else 4096#32).toNat =
        min PGSIZE (k.toNat - i.toNat) := by
      have hsub : (k - i).toNat = k.toNat - i.toNat :=
        BitVec.toNat_sub_of_le (BitVec.le_def.2 (by omega))
      have h4096 : (4096#32).toNat = PGSIZE := rfl
      split_ifs with hc
      · rw [lt_def, hsub, h4096] at hc
        omega
      · rw [lt_def, hsub, h4096] at hc
        omega
    have hoff : (i.toNat = 0 ∨ off.toNat + i.toNat ≤ f.bytes.length) →
        (off + i).toNat = off.toNat + i.toNat := fun hor => by
      rw [toNat_add]
      rcases hor with hz | hle
      · rw [hz]
        exact Nat.mod_eq_of_lt off.isLt
      · omega
    rw [walkaddr_ok, haddr, hfr, ok_bind]
    simp only [Option.getD_some, if_neg hne]
    generalize (if k - i < 4096#32 then k - i else 4096#32) = q at hpiece ⊢
    have hcap := readi_le f (off + i) q
    rcases hshow.page h hU hpool (f.readi (off + i) q) (by
      simp only [PGSIZE] at *
      omega) hfr (by omega) with ⟨hpool1, h1, hsame1, hshow1⟩
    by_cases hshort : (f.readi (off + i) q).length ≠ q.toNat
    · rw [if_pos hshort]
      exact ⟨false, _, rfl, h1, hpool1, hsame1, nofun⟩
    · rw [if_neg hshort]
      have hfull := Classical.not_not.1 hshort
      have hpos : 0 < q.toNat := by
        simp only [PGSIZE] at *
        omega
      obtain ⟨hbytes, hend⟩ := readi_full hpos hfull
      rw [hoff hread] at hbytes hend
      have hnext : (i + 4096#32).toNat = i.toNat + PGSIZE := by
        have h4096 : (4096#32).toNat = PGSIZE := rfl
        rw [toNat_add, h4096]
        simp only [PGSIZE] at *
        omega
      have hdone : min (i + 4096#32).toNat k.toNat = i.toNat + q.toNat := by omega
      rw [hfull] at hshow1
      rcases ih (i := i + 4096#32) (by rw [hnext]; simp only [PGSIZE] at *; omega) (by omega)
        (by rw [hnext]; simp only [PGSIZE] at *; omega) (.inr (by omega)) h1 hpool1
        (hdone ▸ hshow1 hbytes) with ⟨ok, m', hrun, h', hpool', hsame', hok⟩
      exact ⟨ok, m', hrun, h', hpool', hsame1.trans hsame', hok⟩

theorem loadseg_spec (f : File) (off k : BitVec 32) (h : User trampoline trapframe m r T n g)
    (hU : Pages kend U) (hpool : Pool U m l (T + (frames g 0 n + A))) (hva : va.toNat % PGSIZE = 0)
    (hroom : va.toNat + k.toNat ≤ n * PGSIZE) (hshow : Shows m r n img) :
    ∃ ok m', loadseg f m r va off k = .ok (ok, m') ∧ User trampoline trapframe m' r T n g ∧
      Pool U m' l (T + (frames g 0 n + A)) ∧ Same m m' A ∧
      (ok = true → (k.toNat = 0 ∨ off.toNat + k.toNat ≤ f.bytes.length) ∧
        Shows m' r n (laid f img va.toNat off.toNat k.toNat)) := by
  refine loadsegFrom_spec hU hva hroom (k.toNat / PGSIZE + 1) rfl ?_ ?_ (.inl rfl) h hpool ?_
  · show 0 < k.toNat + PGSIZE
    simp only [PGSIZE]
    omega
  · show k.toNat < 0 + _ + 1
    simp only [PGSIZE]
    omega
  · rw [show min (0#32).toNat k.toNat = 0 from Nat.zero_min _, laid_zero]
    exact hshow

/-- A segment is where `exec` has put it, in pages that there are. -/
structure Placed (f : File) (n : Nat) (ph : ProgHdr) : Prop where
  aligned : ph.vaddr.toNat % PGSIZE = 0
  fits : ph.filesz.toNat ≤ ph.memsz.toNat
  room : ph.vaddr.toNat + ph.memsz.toNat ≤ n * PGSIZE
  read : ph.filesz.toNat = 0 ∨ ph.off.toNat % 2 ^ 32 + ph.filesz.toNat ≤ f.bytes.length

variable {n' : Nat} {ph : ProgHdr}

theorem Placed.mono (h : Placed f n ph) (hn : n ≤ n') : Placed f n' ph :=
  ⟨h.aligned, h.fits, Nat.le_trans h.room (Nat.mul_le_mul_right _ hn), h.read⟩

/-- What the loop over the program headers has loaded. -/
structure Loaded (f : File) (off left : Nat) (m : Phys) (r : Word) (n : Nat)
    (img : Nat → UInt8) : Prop where
  read : left = 0 ∨ off + 56 * left ≤ f.bytes.length
  shows : Shows m r n (image f (headers f off left) img)
  zero : ∀ a, n ≤ a / PGSIZE → image f (headers f off left) img a = 0
  placed : ∀ ph ∈ headers f off left, ph.type = ELF_PROG_LOAD → Placed f n ph

theorem Loaded.cons {off left n0 : Nat} {img1 : Nat → UInt8}
    (h : Loaded f (off + 56) left m r n img1) (hoff : off + 56 ≤ f.bytes.length)
    (hph : ProgHdr.ofBytes ((f.bytes.drop off).take 56) = ph)
    (himg : img1 = if ph.type = ELF_PROG_LOAD then
      laid f img ph.vaddr.toNat (ph.off.toNat % 2 ^ 32) ph.filesz.toNat else img)
    (hplaced : ph.type = ELF_PROG_LOAD → Placed f n0 ph) (hn : n0 ≤ n) :
    Loaded f off (left + 1) m r n img := by
  subst hph himg
  refine ⟨.inr ?_, h.shows, h.zero, fun qh hq htype => ?_⟩
  · rcases h.read with hz | hle <;> omega
  · rw [headers] at hq
    rcases List.mem_cons.1 hq with rfl | hq
    · exact (hplaced htype).mono hn
    · exact h.placed qh hq htype

theorem Shows.grow {T' : Multiset Word} {g' : Nat → Word} (hshow : Shows m r n img)
    (hzero : ∀ a, n ≤ a / PGSIZE → img a = 0) (h : User trampoline trapframe m r T n g)
    (h' : User trampoline trapframe m' r T' n' g') (hn : n ≤ 0x88000) (hn' : n' ≤ 0x88000)
    (hg : ∀ j < n, g' j = g j) (hsame : Same m m' (frames g 0 n + A))
    (hblank : ∀ j, n ≤ j → j < n' → User.Blank m' (g' j)) : Shows m' r n' img := by
  intro a ha
  by_cases hold : a / PGSIZE < n
  · rw [h.vbyte_eq h' hn hn' hold ha (hg _ hold)
      (hsame _ (Multiset.mem_add.2 (.inl (mem_frames hold))))]
    exact hshow a hold
  · rw [h'.vbyte_blank hn' ha (hblank _ (Nat.le_of_not_lt hold) ha),
      hzero a (Nat.le_of_not_lt hold)]

theorem loadFrom_spec (hU : Pages kend U) (left : Nat) :
    ∀ (off : BitVec 32) {m : Phys} {l : List Word} {T : Multiset Word} {n : Nat} {g : Nat → Word}
      {sz : Word} {img : Nat → UInt8}, User trampoline trapframe m r T n g →
      Pool U m l (T + (frames g 0 n + A)) → pagesIn sz = n → Shows m r n img →
      (∀ a, n ≤ a / PGSIZE → img a = 0) →
      ∃ ok sz' m' l' T' n' g', loadFrom kend f r left off m sz = .ok (ok, sz', m') ∧
        Pool U m' l' (T' + (frames g' 0 n' + A)) ∧ User trampoline trapframe m' r T' n' g' ∧
        Same m m' A ∧ pagesIn sz' = n' ∧ n ≤ n' ∧
        (ok = true → Loaded f off.toNat left m' r n' img) := by
  induction left with
  | zero =>
    intro off m l T n g sz img h hpool hsz hshow hzero
    exact ⟨true, sz, m, l, T, n, g, rfl, hpool, h, Same.refl, hsz, Nat.le_refl _,
      fun _ => ⟨.inl rfl, hshow, hzero, nofun⟩⟩
  | succ left ih =>
    intro off m l T n g sz img h hpool hsz hshow hzero
    have hbound := hpool.bound hU
    have hsmall := f.lt
    -- Where the loop gives up before it has changed anything.
    have hstay : ∀ x : Except Panic (Bool × Word × Phys), x = .ok (false, sz, m) →
        ∃ ok sz' m' l' T' n' g', x = .ok (ok, sz', m') ∧
          Pool U m' l' (T' + (frames g' 0 n' + A)) ∧ User trampoline trapframe m' r T' n' g' ∧
          Same m m' A ∧ pagesIn sz' = n' ∧ n ≤ n' ∧
          (ok = true → Loaded f off.toNat (left + 1) m' r n' img) :=
      fun x hx => ⟨false, sz, m, l, T, n, g, hx, hpool, h, Same.refl, hsz, Nat.le_refl _, nofun⟩
    rw [loadFrom]
    simp only
    by_cases hshort : (f.readi off 56#32).length ≠ 56
    · exact hstay _ (if_pos hshort)
    rw [if_neg hshort]
    obtain ⟨hread, hend⟩ := readi_full (k := 56#32) (by decide) (Classical.not_not.1 hshort)
    change f.readi off 56#32 = (f.bytes.drop off.toNat).take 56 at hread
    change off.toNat + 56 ≤ f.bytes.length at hend
    have hnext : (off + 56#32).toNat = off.toNat + 56 := by
      have h56 : (56#32).toNat = 56 := rfl
      rw [toNat_add, h56]
      omega
    rw [hread]
    generalize hph : ProgHdr.ofBytes ((f.bytes.drop off.toNat).take 56) = ph
    by_cases htype : ph.type ≠ ELF_PROG_LOAD
    · rw [if_pos htype]
      obtain ⟨ok, sz', m', l', T', n', g', heq, hpool', h', hsame, hsz', hn', hok⟩ :=
        ih (off + 56#32) h hpool hsz hshow hzero
      rw [hnext] at hok
      exact ⟨ok, sz', m', l', T', n', g', heq, hpool', h', hsame, hsz', hn', fun ht =>
        (hok ht).cons hend hph (if_neg htype).symm (fun hl => absurd hl htype) (Nat.le_refl _)⟩
    rw [if_neg htype]
    have hload := Classical.not_not.1 htype
    by_cases hmem : ph.memsz < ph.filesz
    · exact hstay _ (if_pos hmem)
    rw [if_neg hmem]
    by_cases hwrap : ph.vaddr + ph.memsz < ph.vaddr
    · exact hstay _ (if_pos hwrap)
    rw [if_neg hwrap]
    obtain ⟨sz1, m1, l1, T1, n1, g1, heq, hpool1, h1, hsame, -, hg1, hn1, hblank, hsz1⟩ :=
      h.uvmalloc hU hpool hsz (ph.vaddr + ph.memsz)
    simp only [heq, ok_bind]
    by_cases hz : sz1 = 0#64
    · rw [if_pos hz] at hn1 ⊢
      exact ⟨false, sz, m1, l1, T1, n1, g1, rfl, hpool1, h1, hsame.right, hsz.trans hn1.symm,
        Nat.le_of_eq hn1.symm, nofun⟩
    rw [if_neg hz] at hn1 ⊢
    have hbound1 := hpool1.bound hU
    -- The end of the segment is in the pages that there are now.
    have hsum : (ph.vaddr + ph.memsz).toNat = ph.vaddr.toNat + ph.memsz.toNat := by
      have hv := ph.vaddr.isLt
      have hm := ph.memsz.isLt
      rw [lt_def, toNat_add] at hwrap
      rw [toNat_add]
      omega
    have hcover : ph.vaddr.toNat + ph.memsz.toNat ≤ n1 * PGSIZE ∧ n ≤ n1 := by
      rw [← hsum, hn1, ← hsz]
      simp only [pagesIn, PGSIZE]
      rcases hsz1 with hx | ⟨hlt, hx⟩ | ⟨hge, hx⟩
      · exact absurd hx hz
      · rw [lt_def] at hlt
        rw [hx]
        omega
      · rw [lt_def] at hge
        rw [hx]
        omega
    rw [lt_def] at hmem
    by_cases hbad : ph.vaddr.toNat % PGSIZE ≠ 0
    · rw [if_pos hbad]
      exact ⟨false, sz1, m1, l1, T1, n1, g1, rfl, hpool1, h1, hsame.right, hn1.symm, hcover.2,
        nofun⟩
    rw [if_neg hbad]
    have hva := Classical.not_not.1 hbad
    have hlen : (ph.filesz.setWidth 32).toNat = ph.filesz.toNat := by
      rw [toNat_setWidth]
      simp only [PGSIZE] at *
      omega
    have hcut : (ph.off.setWidth 32).toNat = ph.off.toNat % 2 ^ 32 := toNat_setWidth ..
    have hshow1 := hshow.grow hzero h h1 hbound hbound1 hg1 hsame hblank
    rcases loadseg_spec f (ph.off.setWidth 32) (ph.filesz.setWidth 32) h1 hU hpool1 hva
      (by omega) hshow1 with
      ⟨done, m2, heq2, h2, hpool2, hsame2, hdone⟩
    rw [hlen, hcut] at hdone
    simp only [heq2, ok_bind]
    cases done with
    | false =>
      exact ⟨false, sz1, m2, l1, T1, n1, g1, rfl, hpool2, h2, hsame.right.trans hsame2,
        hn1.symm, hcover.2, nofun⟩
    | true =>
      obtain ⟨hbytes, hshow2⟩ := hdone rfl
      -- The segment ends before the pages do, so above them the image stays zero.
      have hzero2 : ∀ a, n1 ≤ a / PGSIZE → laid f img ph.vaddr.toNat (ph.off.toNat % 2 ^ 32)
          ph.filesz.toNat a = 0 := fun a ha => by
        rw [laid, if_neg]
        · exact hzero a (by omega)
        · simp only [PGSIZE] at *
          omega
      obtain ⟨ok, sz', m', l', T', n', g', heq', hpool', h', hsame', hsz', hn', hok⟩ :=
        ih (off + 56#32) h2 hpool2 hn1.symm hshow2 hzero2
      rw [hnext] at hok
      exact ⟨ok, sz', m', l', T', n', g', heq', hpool', h',
        (hsame.right.trans hsame2).trans hsame', hsz', Nat.le_trans hcover.2 hn', fun ht =>
        (hok ht).cons hend hph (if_pos hload).symm
          (fun _ => ⟨hva, by omega, hcover.1, hbytes⟩) hn'⟩

end Xv6.Vm.Exec
