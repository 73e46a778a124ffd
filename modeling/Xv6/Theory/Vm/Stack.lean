import Xv6.Core.Exec
import Xv6.Theory.Vm.Bytes

/-!
# The Stack of a New Program

`exec` pushes the arguments, each a string with its zero, and then the pointers to them with a `0`
at the end. Every push goes down to the next multiple of 16, so what is used is a rounded sum
(`need`). The pushes fail exactly when that is more than a page, before anything is stored below
the stack.

## Theorems

* `Vm.Exec.Stack.push`, `Vm.Exec.Stack.pushStack`
-/

namespace Xv6.Vm

open List (length_append length_cons length_singleton)

variable {argv : List (List UInt8)} {ptrs : List Word}

namespace Exec

/-- What is used after `len` more bytes. -/
def grow (used len : Nat) : Nat := (used + len + 15) / 16 * 16

/-- What is used after the strings. -/
def needFrom (used : Nat) : List (List UInt8) → Nat
  | [] => used
  | s :: argv => needFrom (grow used (s.length + 1)) argv

/-- What is used after the pointers. -/
def need (argv : List (List UInt8)) : Nat := grow (needFrom 0 argv) (8 * (argv.length + 1))

theorem grow_le (used len : Nat) : used + len ≤ grow used len := by
  unfold grow
  omega

theorem grow_mod (used len : Nat) : grow used len % 16 = 0 := Nat.mul_mod_left _ _

theorem le_needFrom (used : Nat) (argv : List (List UInt8)) : used ≤ needFrom used argv := by
  induction argv generalizing used with
  | nil => exact Nat.le_refl _
  | cons s argv ih =>
    have := grow_le used (s.length + 1)
    have := ih (grow used (s.length + 1))
    rw [needFrom]
    omega

/-- A memory of a process with all of the stack, which is the page up to `top`, in it. -/
structure Stack (trampoline trapframe : Word) (U A T : Multiset Word) (l : List Word) (r : Word)
    (n : Nat) (g : Nat → Word) (top : Nat) (m : Phys) : Prop where
  user : User trampoline trapframe m r T n g
  pool : Pool U m l (T + (frames g 0 n + A))
  mapped : ∀ a, top - PGSIZE ≤ a → a < top → ∃ f, frameOf m r a = some f
  aligned : top % PGSIZE = 0
  two : 2 * PGSIZE ≤ top
  small : top < MAXVA

/-- `m'` differs from `m` in the bytes from `lo` to `hi` that the user sees, at most. -/
structure Within (m m' : Phys) (r : Word) (A : Multiset Word) (lo hi : Nat) : Prop where
  same : Same m m' A
  frame : frameOf m' r = frameOf m r
  byte : ∀ b, b < lo ∨ hi ≤ b → vbyte m' r b = vbyte m r b

variable {kend trampoline trapframe : Word} {U A T : Multiset Word} {m m' m'' : Phys} {r : Word}
  {l : List Word} {n top used lo lo' hi hi' : Nat} {g : Nat → Word}

theorem Within.refl : Within m m r A lo hi := ⟨Same.refl, rfl, fun _ _ => rfl⟩

theorem Within.trans (h : Within m m' r A lo hi) (h' : Within m' m'' r A lo hi) :
    Within m m'' r A lo hi :=
  ⟨h.same.trans h'.same, h'.frame.trans h.frame, fun b hb => (h'.byte b hb).trans (h.byte b hb)⟩

theorem Within.mono (h : Within m m' r A lo hi) (hlo : lo' ≤ lo) (hhi : hi ≤ hi') :
    Within m m' r A lo' hi' := ⟨h.same, h.frame, fun b hb => h.byte b (by omega)⟩

theorem Within.read (h : Within m m' r A lo hi) {a : Nat} {bytes : List UInt8}
    (hread : Read m r a bytes) (hout : a + bytes.length ≤ lo ∨ hi ≤ a) : Read m' r a bytes := by
  intro k hk
  rw [h.byte _ (by omega)]
  exact hread k hk

namespace Stack

variable (h : Stack trampoline trapframe U A T l r n g top m) (hU : Pages kend U)

include h hU

theorem poke {a : Nat} (bytes : List UInt8) (hlo : top - PGSIZE ≤ a)
    (hhi : a + bytes.length ≤ top) :
    Stack trampoline trapframe U A T l r n g top (Vm.poke (frameOf m r) m a bytes) ∧
      Within m (Vm.poke (frameOf m r) m a bytes) r A a (a + bytes.length) ∧
      Read (Vm.poke (frameOf m r) m a bytes) r a bytes := by
  have hmapped : ∀ i < bytes.length, ∃ f, frameOf m r (a + i) = some f := fun i hi =>
    h.mapped (a + i) (by omega) (by omega)
  obtain ⟨hpool, huser, hsame, hframe, hbyte⟩ := h.user.poke hU h.pool hmapped
  refine ⟨⟨huser, hpool, fun b h1 h2 => ?_, h.aligned, h.two, h.small⟩,
    ⟨hsame, hframe, fun b hb => ?_⟩, fun k hk => ?_⟩
  · rw [hframe]
    exact h.mapped b h1 h2
  · rw [hbyte, if_neg (by omega)]
  · rw [hbyte, if_pos (by omega), Nat.add_sub_cancel_left]

theorem push {sp : Word} (bytes : List UInt8) (hsp : sp.toNat = top - used) (hused : used ≤ PGSIZE)
    (hmod : used % 16 = 0) (hlen : bytes.length ≤ PGSIZE) :
    ∃ res m', Exec.push m r (BitVec.ofNat 64 (top - PGSIZE)) sp bytes = .ok (res, m') ∧
      Stack trampoline trapframe U A T l r n g top m' ∧
      (res = none ↔ PGSIZE < grow used bytes.length) ∧
      (res = none → m' = m) ∧ ∀ sp', res = some sp' → sp'.toNat = top - grow used bytes.length ∧
        Within m m' r A sp'.toNat sp.toNat ∧ Read m' r sp'.toNat bytes := by
  have htwo := h.two
  have hsmall := h.small
  have haligned := h.aligned
  have hgrow := grow_le used bytes.length
  have hsub : (sp - BitVec.ofNat 64 bytes.length).toNat = top - used - bytes.length := by
    have hl : (BitVec.ofNat 64 bytes.length).toNat = bytes.length := by
      rw [BitVec.toNat_ofNat]
      simp only [PGSIZE] at *
      omega
    rw [BitVec.toNat_sub_of_le, hl, hsp]
    rw [BitVec.le_def, hl, hsp]
    simp only [PGSIZE] at *
    omega
  have hdown : (sp - BitVec.ofNat 64 bytes.length -
      (sp - BitVec.ofNat 64 bytes.length) % 16#64).toNat = top - grow used bytes.length := by
    have h16 : ((sp - BitVec.ofNat 64 bytes.length) % 16#64).toNat =
        (top - used - bytes.length) % 16 := by
      rw [BitVec.toNat_umod, hsub]
      rfl
    rw [BitVec.toNat_sub_of_le, hsub, h16]
    · unfold grow
      simp only [PGSIZE] at *
      omega
    · rw [BitVec.le_def, hsub, h16]
      exact Nat.mod_le _ _
  have hbase : (BitVec.ofNat 64 (top - PGSIZE)).toNat = top - PGSIZE := toNat_addr (by omega)
  unfold Exec.push
  simp only
  by_cases hlow : PGSIZE < grow used bytes.length
  · refine ⟨none, m, if_pos ?_, h, iff_of_true rfl hlow, fun _ => rfl, nofun⟩
    rw [BitVec.lt_def, hdown, hbase]
    simp only [PGSIZE] at *
    omega
  · rw [if_neg (by rw [BitVec.lt_def, hdown, hbase]; omega)]
    rcases copyoutFrom_spec bytes.length m
      (sp - BitVec.ofNat 64 bytes.length - (sp - BitVec.ofNat 64 bytes.length) % 16#64) bytes
      (h.user.nonzero hU h.pool) (h.user.clear hU h.pool) (Nat.le_refl _) with
      ⟨ok, m', k, hrun, hstored⟩
    rw [hdown] at hstored
    -- All of the page is mapped, so the copy does not stop.
    have hok : ok = true := (mapped_of_stored hstored).2 fun i hi => by
      obtain ⟨f, hf⟩ := h.mapped (top - grow used bytes.length + i) (by omega) (by omega)
      rw [hf]
      rfl
    have hmem := hstored.mem
    rw [hstored.all hok, List.take_length] at hmem
    obtain ⟨hstack, hwithin, hread⟩ :=
      h.poke hU (a := top - grow used bytes.length) bytes (by omega) (by omega)
    rw [← hmem] at hstack hwithin hread
    rw [copyout, hrun, hok]
    refine ⟨some _, m', rfl, hstack, iff_of_false nofun hlow, nofun, fun sp' hsp' => ?_⟩
    rw [← Option.some.inj hsp', hdown]
    exact ⟨rfl, hwithin.mono (Nat.le_refl _) (by omega), hread⟩

end Stack

/-- The strings are there, one below the other, and the last of them is at `sp`. -/
def Laid (m : Phys) (r : Word) : Nat → List (List UInt8) → List Word → Nat → Prop
  | top, [], [], sp => sp = top
  | top, s :: argv, p :: ptrs, sp =>
    p.toNat + s.length + 1 ≤ top ∧ Read m r p.toNat (s ++ [0]) ∧ Laid m r p.toNat argv ptrs sp
  | _, _, _, _ => False

variable {sp : Nat}

theorem Laid.le
    (h : Laid m r top argv ptrs sp) : sp ≤ top ∧ ptrs.length = argv.length := by
  induction argv generalizing top ptrs with
  | nil =>
    cases ptrs with
    | nil => exact ⟨Nat.le_of_eq h, rfl⟩
    | cons p ptrs => exact h.elim
  | cons s argv ih =>
    cases ptrs with
    | nil => exact h.elim
    | cons p ptrs =>
      obtain ⟨hp, -, hrest⟩ := h
      obtain ⟨hle, hlen⟩ := ih hrest
      refine ⟨by omega, ?_⟩
      rw [length_cons, length_cons, hlen]

theorem Laid.within
    (h : Laid m r top argv ptrs sp) (hw : Within m m' r A lo sp) : Laid m' r top argv ptrs sp := by
  induction argv generalizing top ptrs with
  | nil => cases ptrs <;> exact h
  | cons s argv ih =>
    cases ptrs with
    | nil => exact h
    | cons p ptrs =>
      obtain ⟨hp, hread, hrest⟩ := h
      exact ⟨hp, hw.read hread (.inr hrest.le.1), ih hrest⟩

theorem Laid.get
    (h : Laid m r top argv ptrs sp) {i : Nat} {p : Word} {s : List UInt8} (hp : ptrs[i]? = some p)
    (hs : argv[i]? = some s) :
    Read m r p.toNat (s ++ [0]) ∧ sp ≤ p.toNat ∧ p.toNat + s.length + 1 ≤ top ∧
      ∀ j q, j < i → ptrs[j]? = some q → p.toNat + s.length + 1 ≤ q.toNat := by
  induction argv generalizing top ptrs i with
  | nil => cases hs
  | cons t argv ih =>
    cases ptrs with
    | nil => cases hp
    | cons q ptrs =>
      obtain ⟨hq, hread, hrest⟩ := h
      cases i with
      | zero =>
        cases hp
        cases hs
        exact ⟨hread, hrest.le.1, hq, nofun⟩
      | succ i =>
        obtain ⟨hr, hsp, htop, hbelow⟩ := ih hrest hp hs
        refine ⟨hr, hsp, by omega, fun j q' hj hq' => ?_⟩
        cases j with
        | zero =>
          cases hq'
          exact htop
        | succ j => exact hbelow j q' (by omega) hq'

namespace Stack

theorem pushArgs (hU : Pages kend U) (argv : List (List UInt8))
    (hargv : ∀ s ∈ argv, s.length < PGSIZE) :
    ∀ {m : Phys} {sp : Word} {used : Nat} (ustack : List Word),
      Stack trampoline trapframe U A T l r n g top m → sp.toNat = top - used → used ≤ PGSIZE →
      used % 16 = 0 → ustack.length + argv.length < Memory.MAXARG →
      ∃ res m', Exec.pushArgs r (BitVec.ofNat 64 (top - PGSIZE)) argv m sp ustack = .ok (res, m') ∧
        Stack trampoline trapframe U A T l r n g top m' ∧ Within m m' r A (top - PGSIZE) sp.toNat ∧
        (res = none ↔ PGSIZE < needFrom used argv) ∧
        ∀ sp' us, res = some (sp', us) → sp'.toNat = top - needFrom used argv ∧
          needFrom used argv % 16 = 0 ∧
          ∃ ptrs, us = ustack ++ ptrs ∧ Laid m' r sp.toNat argv ptrs sp'.toNat ∧
            Within m m' r A sp'.toNat sp.toNat := by
  induction argv with
  | nil =>
    intro m sp used ustack h hsp hused hmod _
    refine ⟨some (sp, ustack), m, rfl, h, Within.refl, iff_of_false nofun (by rw [needFrom]; omega),
      fun sp' us hres => ?_⟩
    cases hres
    exact ⟨hsp, hmod, [], (List.append_nil _).symm, rfl, Within.refl⟩
  | cons s argv ih =>
    intro m sp used ustack h hsp hused hmod hmax
    have htwo := h.two
    have hs := hargv s (List.mem_cons_self ..)
    have hlen : (s ++ [(0 : UInt8)]).length = s.length + 1 := by
      rw [length_append, length_singleton]
    rw [length_cons] at hmax
    obtain ⟨res, m1, hrun, h1, hnone, hsame, hsome⟩ :=
      h.push hU (s ++ [0]) hsp hused hmod (by omega)
    rw [hlen] at hnone hsome
    rw [Exec.pushArgs, if_neg (by omega), hrun]
    cases res with
    | none =>
      -- What comes after would not fit either.
      have hfull := hnone.1 rfl
      have hle := le_needFrom (grow used (s.length + 1)) argv
      refine ⟨none, m1, rfl, h1, ?_, iff_of_true rfl (by rw [needFrom]; omega), nofun⟩
      rw [hsame rfl]
      exact Within.refl
    | some sp1 =>
      obtain ⟨hsp1, hwithin1, hread1⟩ := hsome sp1 rfl
      have hfit : grow used (s.length + 1) ≤ PGSIZE := by
        by_contra hc
        cases hnone.2 (by omega)
      have hgrow := grow_le used (s.length + 1)
      rcases ih (fun t ht => hargv t (List.mem_cons_of_mem _ ht)) (ustack ++ [sp1]) h1
        hsp1 hfit (grow_mod _ _) (by rw [length_append, length_singleton]; omega) with
        ⟨res, m2, hrun2, h2, hwithin2, hnone2, hsome2⟩
      refine ⟨res, m2, hrun2, h2, ?_, hnone2, fun sp' us hres => ?_⟩
      · exact (hwithin1.mono (by omega) (Nat.le_refl _)).trans
          (hwithin2.mono (Nat.le_refl _) (by omega))
      · obtain ⟨hsp', hmod', ptrs, hus, hlaid, hwithin⟩ := hsome2 sp' us hres
        have hle := hlaid.le.1
        refine ⟨hsp', hmod', sp1 :: ptrs, ?_, ⟨by omega, ?_, hlaid⟩, ?_⟩
        · rw [hus, List.append_assoc, List.singleton_append]
        · -- The later strings are below this one.
          exact hwithin.read hread1 (.inr (Nat.le_refl _))
        · exact (hwithin1.mono hle (Nat.le_refl _)).trans
            (hwithin.mono (Nat.le_refl _) (by omega))

end Stack

theorem length_wordBytes (l : List Word) : (l.flatMap wordBytes).length = 8 * l.length := by
  induction l with
  | nil => rfl
  | cons x l ih =>
    rw [List.flatMap_cons, length_append, ih, wordBytes, List.length_map, List.length_range,
      length_cons]
    omega

/-- The stack that a program is to find: a multiple of 16 in the page up to `top`, the pointers and
    a `0`, and each pointer at its string. The strings are above the pointers, each below the one
    before it. -/
structure Args (m : Phys) (r : Word) (top sp : Nat) (argv : List (List UInt8)) : Prop where
  aligned : sp % 16 = 0
  above : top - PGSIZE ≤ sp
  below : sp + 8 * (argv.length + 1) ≤ top
  strings : ∃ ptrs : List Word, ptrs.length = argv.length ∧
    Read m r sp ((ptrs ++ [0#64]).flatMap wordBytes) ∧
    ∀ (i : Nat) (p : Word) (s : List UInt8), ptrs[i]? = some p → argv[i]? = some s →
      Read m r p.toNat (s ++ [0]) ∧ sp + 8 * (argv.length + 1) ≤ p.toNat ∧
      p.toNat + s.length + 1 ≤ top ∧
      ∀ (j : Nat) (q : Word), j < i → ptrs[j]? = some q → p.toNat + s.length + 1 ≤ q.toNat

theorem Args.congr (h : Args m r top sp argv)
    (hb : ∀ b, top - PGSIZE ≤ b → b < top → vbyte m' r b = vbyte m r b) :
    Args m' r top sp argv := by
  obtain ⟨ptrs, hlen, hread, hall⟩ := h.strings
  have habove := h.above
  have hread' : ∀ a bytes, Read m r a bytes → sp ≤ a → a + bytes.length ≤ top →
      Read m' r a bytes := fun a bytes hr hlo hhi k hk => by
    rw [hb (a + k) (by omega) (by omega)]
    exact hr k hk
  refine ⟨h.aligned, h.above, h.below, ptrs, hlen, hread' _ _ hread (Nat.le_refl _) ?_, ?_⟩
  · rw [length_wordBytes, length_append, length_singleton, hlen]
    exact h.below
  · intro i p s hp hs
    obtain ⟨hr, hsp, htop, hbelow⟩ := hall i p s hp hs
    refine ⟨hread' _ _ hr (by omega) ?_, hsp, htop, hbelow⟩
    rw [length_append, length_singleton]
    exact htop

namespace Stack

/-- The arguments and the pointers to them fit in the page, or nothing comes of it. Nothing below
    the stack is written. -/
theorem pushStack (h : Stack trampoline trapframe U A T l r n g top m) (hU : Pages kend U)
    (hargv : ∀ s ∈ argv, s.length < PGSIZE) (hmax : argv.length < Memory.MAXARG) :
    ∃ res m', Exec.pushStack m r (BitVec.ofNat 64 (top - PGSIZE)) (BitVec.ofNat 64 top) argv =
        .ok (res, m') ∧
      Stack trampoline trapframe U A T l r n g top m' ∧ Within m m' r A (top - PGSIZE) top ∧
      (res = none ↔ PGSIZE < need argv) ∧
      ∀ argc sp, res = some (argc, sp) → argc = argv.length ∧ Args m' r top sp.toNat argv := by
  have htop : (BitVec.ofNat 64 top).toNat = top - 0 := toNat_addr h.small
  have htwo := h.two
  have haligned := h.aligned
  rcases Stack.pushArgs hU argv hargv [] h htop (Nat.zero_le _) rfl (by
    rw [List.length_nil]
    omega) with ⟨res, m1, hrun, h1, hwithin, hnone, hsome⟩
  rw [htop, Nat.sub_zero] at hwithin hsome
  unfold Exec.pushStack
  rw [hrun]
  cases res with
  | none =>
    have hfull := hnone.1 rfl
    have hgrow := grow_le (needFrom 0 argv) (8 * (argv.length + 1))
    exact ⟨none, m1, rfl, h1, hwithin, iff_of_true rfl (by rw [need]; omega), nofun⟩
  | some res =>
    obtain ⟨sp, us⟩ := res
    obtain ⟨hsp, hmod, ptrs, hus, hlaid, hwithin1⟩ := hsome sp us rfl
    rw [List.nil_append] at hus
    subst hus
    have hcount := hlaid.le.2
    have hfit : needFrom 0 argv ≤ PGSIZE := by
      by_contra hc
      cases hnone.2 (by omega)
    have hbytes : ((us ++ [0#64]).flatMap wordBytes).length = 8 * (argv.length + 1) := by
      rw [length_wordBytes, length_append, length_singleton, hcount]
    rcases h1.push hU ((us ++ [0#64]).flatMap wordBytes) hsp hfit hmod (by
      rw [hbytes]
      simp only [PGSIZE, Memory.MAXARG] at *
      omega) with ⟨res, m2, hrun2, h2, hnone2, hsame2, hsome2⟩
    rw [hbytes] at hnone2 hsome2
    simp only [ok_bind, if_neg (show ¬ Memory.MAXARG ≤ us.length by omega), hrun2]
    cases res with
    | none =>
      refine ⟨none, m2, rfl, h2, ?_, iff_of_true rfl (hnone2.1 rfl), nofun⟩
      rw [hsame2 rfl]
      exact hwithin
    | some sp2 =>
      obtain ⟨hsp2, hwithin2, hread2⟩ := hsome2 sp2 rfl
      have hgrow := grow_le (needFrom 0 argv) (8 * (argv.length + 1))
      have hfit2 : need argv ≤ PGSIZE := by
        by_contra hc
        cases hnone2.2 (Nat.lt_of_not_le hc)
      rw [need] at hfit2
      have hmod2 := grow_mod (needFrom 0 argv) (8 * (argv.length + 1))
      refine ⟨some (us.length, sp2), m2, rfl, h2, ?_, iff_of_false nofun (Nat.not_lt.2 hfit2),
        fun argc sp' hres => ?_⟩
      · exact hwithin.trans (hwithin2.mono (by omega) (by omega))
      · cases hres
        refine ⟨hcount, ⟨?_, by omega, by omega, us, hcount, hread2, fun i p s hp hs => ?_⟩⟩
        · rw [hsp2]
          simp only [PGSIZE] at *
          omega
        · obtain ⟨hr, hle, htop', hbelow⟩ := (hlaid.within hwithin2).get hp hs
          exact ⟨hr, by omega, htop', hbelow⟩

end Stack

end Exec

end Xv6.Vm
