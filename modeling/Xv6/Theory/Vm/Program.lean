import Xv6.Theory.Vm.Exec

/-!
# The Program in the File

What a program finds in its memory is what its file says, byte by byte, as long as the file says it
with small numbers. `exec` cuts the offsets of the program headers and of the segments to 32 bits. A
file whose offsets are larger has no such bytes and should be refused. `exec` looks for them
elsewhere in the file, and starts what it finds there.

## Theorems

* `Vm.Exec.exec_faithful_iff`: when the memory is what the file says
-/

namespace Xv6.Vm.Exec

/-- The segments that the file describes, with numbers of 64 bits. -/
def segments (f : File) : List ProgHdr :=
  (headers f f.elf.phoff.toNat f.elf.phnum.toNat).filter fun ph => ph.type = ELF_PROG_LOAD

/-- Each segment is above the one before it. -/
def Ascending (phs : List ProgHdr) : Prop :=
  phs.Pairwise fun ph qh => ph.vaddr.toNat + ph.memsz.toNat ≤ qh.vaddr.toNat

/-- The memory that the file asks for, in a process of `sz` bytes: the headers and the bytes of the
    segments exist, they are where they belong with zeros everywhere else, and the page below the
    stack is not there. -/
structure Faithful (f : File) (m : Phys) (r : Word) (sz : Nat) : Prop where
  header : f.elf.phnum.toNat = 0 ∨
    f.elf.phoff.toNat + 56 * f.elf.phnum.toNat ≤ f.bytes.length
  bytes : ∀ ph ∈ segments f, ph.filesz.toNat = 0 ∨
    ph.off.toNat + ph.filesz.toNat ≤ f.bytes.length
  memory : Ascending (segments f) → ∀ ph ∈ segments f, ph.vaddr.toNat % PGSIZE = 0 ∧
    (∀ i < ph.filesz.toNat, vbyte m r (ph.vaddr.toNat + i) = f.bytes[ph.off.toNat + i]?) ∧
    ∀ i, ph.filesz.toNat ≤ i → i < ph.memsz.toNat → vbyte m r (ph.vaddr.toNat + i) = some 0
  rest : Ascending (segments f) → ∀ a, a + 2 * PGSIZE < sz →
    (∀ ph ∈ segments f, ¬ (ph.vaddr.toNat ≤ a ∧ a < ph.vaddr.toNat + ph.memsz.toNat)) →
    vbyte m r a = some 0
  guard : ∀ a, sz ≤ a + 2 * PGSIZE → a + PGSIZE < sz → vbyte m r a = none

/-- The offsets that are used have 32 bits. -/
def File.Small (f : File) : Prop :=
  (f.elf.phnum.toNat = 0 ∨ f.elf.phoff.toNat < 2 ^ 32) ∧
    ∀ ph ∈ segments f, ph.filesz.toNat = 0 ∨ ph.off.toNat < 2 ^ 32

variable {f : File} {img : Nat → UInt8} {phs : List ProgHdr} {ph : ProgHdr} {a : Nat}

theorem image_filter : image f (phs.filter fun ph => ph.type = ELF_PROG_LOAD) img =
    image f phs img := by
  induction phs generalizing img with
  | nil => rfl
  | cons ph phs ih =>
    by_cases hload : ph.type = ELF_PROG_LOAD
    · rw [List.filter_cons_of_pos (by simpa using hload), image, image, ih]
    · rw [List.filter_cons_of_neg (by simpa using hload), image, if_neg hload, ih]

theorem image_outside (h : ∀ ph ∈ phs, ¬ (ph.vaddr.toNat ≤ a ∧ a < ph.vaddr.toNat +
    ph.filesz.toNat)) : image f phs img a = img a := by
  induction phs generalizing img with
  | nil => rfl
  | cons ph phs ih =>
    rw [image, ih fun qh hq => h qh (List.mem_cons_of_mem _ hq)]
    split_ifs
    · rw [laid, if_neg (h ph (List.mem_cons_self ..))]
    · rfl

theorem image_inside (hasc : Ascending phs) (hload : ∀ ph ∈ phs, ph.type = ELF_PROG_LOAD)
    (hfits : ∀ ph ∈ phs, ph.filesz.toNat ≤ ph.memsz.toNat) (hph : ph ∈ phs)
    (hlo : ph.vaddr.toNat ≤ a) (hhi : a < ph.vaddr.toNat + ph.filesz.toNat) :
    image f phs img a = f.bytes.getD (ph.off.toNat % 2 ^ 32 + (a - ph.vaddr.toNat)) 0 := by
  induction phs generalizing img with
  | nil => cases hph
  | cons qh phs ih =>
    obtain ⟨hfirst, hrest⟩ := List.pairwise_cons.1 hasc
    rw [image, if_pos (hload qh (List.mem_cons_self ..))]
    rcases List.mem_cons.1 hph with rfl | hph
    · have hle := hfits ph (List.mem_cons_self ..)
      rw [image_outside fun qh hq => ?_, laid, if_pos ⟨hlo, hhi⟩]
      have := hfirst qh hq
      omega
    · exact ih hrest (fun ph hp => hload ph (List.mem_cons_of_mem _ hp))
        (fun ph hp => hfits ph (List.mem_cons_of_mem _ hp)) hph

theorem image_after (hasc : Ascending phs) (hfits : ∀ ph ∈ phs, ph.filesz.toNat ≤ ph.memsz.toNat)
    (hph : ph ∈ phs) (hlo : ph.vaddr.toNat + ph.filesz.toNat ≤ a)
    (hhi : a < ph.vaddr.toNat + ph.memsz.toNat) : image f phs img a = img a := by
  refine image_outside fun qh hq => ?_
  by_cases heq : qh = ph
  · rw [heq]
    omega
  · -- Of two segments one is above the other.
    have hor : ph.vaddr.toNat + ph.memsz.toNat ≤ qh.vaddr.toNat ∨
        qh.vaddr.toNat + qh.memsz.toNat ≤ ph.vaddr.toNat := by
      refine List.Pairwise.forall_of_forall_of_flip (l := phs)
        (R := fun x y => x = y ∨ x.vaddr.toNat + x.memsz.toNat ≤ y.vaddr.toNat ∨
          y.vaddr.toNat + y.memsz.toNat ≤ x.vaddr.toNat)
          (fun _ _ => .inl rfl) ?_ ?_ hph hq |>.resolve_left
          (fun h => heq h.symm)
      · exact hasc.imp fun h => .inr (.inl h)
      · exact hasc.imp fun h => .inr (.inr h)
    have := hfits qh hq
    omega

section Programs

variable {K : Type} [DecidableEq K] [Fintype K] {s : Memory.Sys K} {m0 m : Phys} {i : Fin NPROC}
  {kend trampoline : Word} {p : Proc} {argv : List (List UInt8)} {path : List UInt8} {res : Result}

theorem File.Small.headers (h : f.Small) :
    headers f (f.elf.phoff.toNat % 2 ^ 32) f.elf.phnum.toNat =
      Exec.headers f f.elf.phoff.toNat f.elf.phnum.toNat := by
  rcases h.1 with hz | hlt
  · rw [hz]
    rfl
  · rw [Nat.mod_eq_of_lt hlt]

theorem mem_segments : ph ∈ segments f ↔
    ph ∈ headers f f.elf.phoff.toNat f.elf.phnum.toNat ∧ ph.type = ELF_PROG_LOAD := by
  rw [segments, List.mem_filter, decide_eq_true_eq]

theorem Loaded.faithful {r : Word} {n : Nat} (h : f.Small)
    (hload : Loaded f (f.elf.phoff.toNat % 2 ^ 32) f.elf.phnum.toNat m r n (fun _ => 0))
    (hguard : ∀ a, a / PGSIZE = n → vbyte m r a = none) : Faithful f m r ((n + 2) * PGSIZE) := by
  have hshow := hload.shows
  have hplaced := hload.placed
  rw [h.headers, ← image_filter] at hshow
  rw [h.headers] at hplaced
  have hseg : ∀ ph ∈ segments f, Placed f n ph := fun ph hph =>
    hplaced ph (mem_segments.1 hph).1 (mem_segments.1 hph).2
  have hpage : ∀ a, a < n * PGSIZE → a / PGSIZE < n := fun a ha =>
    (Nat.div_lt_iff_lt_mul (by decide)).2 ha
  refine ⟨?_, fun ph hph => ?_, fun hasc ph hph => ⟨(hseg ph hph).aligned, fun i hi => ?_,
    fun i h1 h2 => ?_⟩, fun hasc a ha hout => ?_, fun a h1 h2 => hguard a ?_⟩
  · rcases h.1 with hz | hlt
    · exact .inl hz
    · rw [← Nat.mod_eq_of_lt hlt]
      exact hload.read
  · rcases h.2 ph hph with hz | hlt
    · exact .inl hz
    · rw [← Nat.mod_eq_of_lt hlt]
      exact (hseg ph hph).read
  · have hroom := (hseg ph hph).room
    have hle := (hseg ph hph).fits
    have hoff : ph.off.toNat % 2 ^ 32 = ph.off.toNat := by
      rcases h.2 ph hph with hz | hlt
      · omega
      · exact Nat.mod_eq_of_lt hlt
    have hthere := (hseg ph hph).read
    rw [hoff] at hthere
    rw [hshow _ (hpage _ (by omega))]
    change some (image f (segments f) _ _) = _
    rw [image_inside hasc (fun qh hq => (mem_segments.1 hq).2) (fun qh hq => (hseg qh hq).fits) hph
      (Nat.le_add_right _ _) (by omega), hoff, Nat.add_sub_cancel_left,
      List.getD_eq_getElem?_getD, List.getElem?_eq_getElem (by omega)]
    rfl
  · have hroom := (hseg ph hph).room
    rw [hshow _ (hpage _ (by omega))]
    change some (image f (segments f) _ _) = _
    rw [image_after hasc (fun qh hq => (hseg qh hq).fits) hph (by omega) (by omega)]
  · rw [hshow _ (hpage _ (by simp only [PGSIZE] at *; omega))]
    change some (image f (segments f) _ _) = _
    rw [image_outside fun qh hq => ?_]
    have := hout qh hq
    have := (hseg qh hq).fits
    omega
  · simp only [PGSIZE] at *
    omega

/-- A program that starts is the one in the file, exactly when the offsets in the file are small. -/
theorem exec_faithful_iff {l0 : List Word} (hchain : Chain m0 m0.freelist l0)
    (hU : Pages kend (l0 : Multiset Word)) (hs : Memory.Reachable kend trampoline m0 s)
    (hc : Calling s i m p argv)
    (hrun : exec kend trampoline m p (some f) path argv = .ok res) (hret : res.ret ≠ -1#64) :
    Faithful f res.mem res.proc.pagetable res.proc.sz.toNat ↔ f.Small := by
  have hsmall := f.lt
  constructor
  · intro h
    refine ⟨?_, fun ph hph => ?_⟩
    · rcases h.header with hz | hle
      · exact .inl hz
      · exact .inr (by omega)
    · rcases h.bytes ph hph with hz | hle
      · exact .inl hz
      · exact .inr (by omega)
  · intro h
    obtain ⟨l, T, n, g, A, hhas, hpool⟩ := hc.has hchain hU hs
    obtain ⟨res', hrun', -, hout⟩ := exec_spec hhas hU hpool hc.strings hc.count f path
    rw [hrun] at hrun'
    cases hrun'
    rcases hout with hfail | hstart
    · exact absurd hfail.ret hret
    · obtain ⟨l', T', n', g', sp, -, -, hsz, hload, hguard, -⟩ := hstart.memory
      rw [hsz]
      exact hload.faithful h hguard

end Programs

/-! ## A file that is nothing but its header -/

/-- An ELF header with one program header, at `high * 2 ^ 32`. In the file there is nothing else,
    and at `0` is the header itself, which is no segment. -/
def bare (high : UInt8) : File where
  bytes := [0x7F, 0x45, 0x4C, 0x46] ++ List.replicate 28 0 ++ [0, 0, 0, 0, high, 0, 0, 0] ++
    List.replicate 16 0 ++ [1, 0] ++ List.replicate 6 0
  small := by
    simp only [List.length_append, List.length_replicate, List.length_cons, List.length_nil]
    decide

theorem bare_starts {high : UInt8} (hhigh : high = 0 ∨ high = 1) :
    ∃ p m' m res, Memory.userinit KERNBASE KERNBASE twentyFree = .ok (true, p, m') ∧
      Calling (Memory.start m' p : Memory.Sys Bool) ⟨0, by decide⟩ m ⟨p, []⟩ [] ∧
      exec KERNBASE KERNBASE m ⟨p, []⟩ (some (bare high)) [] [] = .ok res ∧ res.ret ≠ -1#64 := by
  rcases hhigh with rfl | rfl <;>
    exact starts (by decide) (by decide) (by decide) (by decide) (by decide) (by decide +kernel)

/-- The program of four bytes is in memory as it is in the file. -/
theorem exec_faithful_tiny : ∃ p m' m res,
    Memory.userinit KERNBASE KERNBASE twentyFree = .ok (true, p, m') ∧
    exec KERNBASE KERNBASE m ⟨p, []⟩ (some tiny) [] [[104, 105]] = .ok res ∧ res.ret ≠ -1#64 ∧
    (segments tiny).map (fun ph => ph.filesz.toNat) = [4] ∧
    Faithful tiny res.mem res.proc.pagetable res.proc.sz.toNat := by
  obtain ⟨p, m', m, res, hinit, hcall, hrun, hret⟩ := tiny_starts
  have hsmall : tiny.Small := ⟨.inr (by decide), by decide⟩
  exact ⟨p, m', m, res, hinit, hrun, hret, by decide, (exec_faithful_iff chain_twentyFree
    pages_twentyFree (.start hinit) hcall hrun hret).2 hsmall⟩

/-- With its one program header at `2 ^ 32`, where the file has nothing, it starts all the same. -/
theorem exec_stray_bare : ∃ p m' m res,
    Memory.userinit KERNBASE KERNBASE twentyFree = .ok (true, p, m') ∧
    exec KERNBASE KERNBASE m ⟨p, []⟩ (some (bare 1)) [] [] = .ok res ∧ res.ret ≠ -1#64 ∧
    (bare 1).elf.phoff.toNat = 2 ^ 32 ∧ (bare 1).bytes.length = 64 ∧
    ¬ Faithful (bare 1) res.mem res.proc.pagetable res.proc.sz.toNat := by
  obtain ⟨p, m', m, res, hinit, -, hrun, hret⟩ := bare_starts (.inr rfl)
  have hoff : (bare 1).elf.phoff.toNat = 2 ^ 32 := by decide
  have hnum : (bare 1).elf.phnum.toNat = 1 := by decide
  have hlen : (bare 1).bytes.length = 64 := by decide
  refine ⟨p, m', m, res, hinit, hrun, hret, hoff, hlen, fun h => ?_⟩
  have hheader := h.header
  omega

end Xv6.Vm.Exec
