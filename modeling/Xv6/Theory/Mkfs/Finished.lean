import Xv6.Theory.Mkfs.Contents

/-!
# The Finished Image

What a run of the program leaves behind, for every list of files that fits: an inode for each
file that holds the bytes its reads returned, and a root directory whose entries are `.`, `..`
and then the files in their order. The program does not fail on such a list.

## Theorems

* `Mkfs.main_made`: what `main` has made when it exits with 0
-/

namespace Xv6.Mkfs

open Function (update update_self update_of_ne update_idem update_eq_self)
open Dirent (length_enc)
open List (append_nil length_append length_cons length_nil)

/-- What the reads return, up to the first that returns nothing. -/
def chunks (ps : List (List UInt8)) : List UInt8 := (ps.takeWhile (· ≠ [])).flatten

/-- The bytes of an input file. -/
def File.contents (f : File) : List UInt8 := chunks f.reads

theorem chunks_cons_nil (ps : List (List UInt8)) : chunks ([] :: ps) = [] := by
  simp [chunks]

theorem chunks_cons {p : List UInt8} (hp : p ≠ []) (ps : List (List UInt8)) :
    chunks (p :: ps) = p ++ chunks ps := by
  simp [chunks, hp]

/-- The entries for files whose inodes begin with `n`. -/
def entriesFrom (n : Nat) : List File → List (UInt16 × List UInt8)
  | [] => []
  | f :: fs => (UInt16.ofNat n, f.entry) :: entriesFrom (n + 1) fs

/-- The entries of the root directory. -/
def rootEntries (fs : List File) : List (UInt16 × List UInt8) :=
  (1, DOT) :: (1, DOTDOT) :: entriesFrom 2 fs

/-- The bytes of a directory with these entries. -/
def dirBytes (es : List (UInt16 × List UInt8)) : List UInt8 :=
  es.flatMap fun e => Dirent.enc e.1 e.2

theorem dirBytes_append (es es' : List (UInt16 × List UInt8)) :
    dirBytes (es ++ es') = dirBytes es ++ dirBytes es' := List.flatMap_append

theorem length_dirBytes (es : List (UInt16 × List UInt8)) :
    (dirBytes es).length = DIRENT * es.length := by
  induction es with
  | nil => rfl
  | cons e es ih =>
    rw [dirBytes, List.flatMap_cons, length_append, length_enc, length_cons]
    change DIRENT + (dirBytes es).length = _
    rw [ih, Nat.mul_succ, Nat.add_comm]

theorem length_entriesFrom (n : Nat) (fs : List File) : (entriesFrom n fs).length = fs.length := by
  induction fs generalizing n with
  | nil => rfl
  | cons f fs ih => rw [entriesFrom, length_cons, length_cons, ih]

theorem getElem?_entriesFrom {n j : Nat} {fs : List File} {f : File} (h : fs[j]? = some f) :
    (entriesFrom n fs)[j]? = some (UInt16.ofNat (n + j), f.entry) := by
  induction fs generalizing n j with
  | nil => simp at h
  | cons g fs ih =>
    cases j with
    | zero =>
      cases h
      rfl
    | succ j =>
      rw [List.getElem?_cons_succ] at h
      rw [entriesFrom, List.getElem?_cons_succ, ih h, Nat.add_right_comm, Nat.add_assoc]

section Files

variable {s : St} {a : Nat} {C : Nat → List UInt8}

theorem Holds.appendAll (h : Holds s C) (hn : s.freeinode ≤ ROOM) (ha : a < s.freeinode)
    {l : List (List UInt8)} (hsize : (C a).length + (chunks l).length ≤ MAXFILE * BSIZE)
    (hroom : s.freeblock + blocks ((C a).length + (chunks l).length) ≤
      FSSIZE + blocks (C a).length) :
    ∃ s', Mkfs.appendAll s a l = .ok s' ∧ Holds s' (update C a (C a ++ chunks l)) ∧
      s'.freeinode = s.freeinode ∧ s'.freeblock + blocks (C a).length =
        s.freeblock + blocks ((C a).length + (chunks l).length) ∧
      ∀ i < s.freeinode, (dinodes s' i).type = (dinodes s i).type := by
  have hdone : Holds s (update C a (C a ++ [])) := by
    rw [append_nil, update_eq_self]
    exact h
  induction l generalizing s C with
  | nil => exact ⟨s, rfl, hdone, rfl, rfl, fun _ _ => rfl⟩
  | cons p l ih =>
    by_cases hp : p = []
    · subst hp
      rw [chunks_cons_nil]
      exact ⟨s, if_pos rfl, hdone, rfl, rfl, fun _ _ => rfl⟩
    · rw [chunks_cons hp, length_append] at hsize hroom ⊢
      have hmono : blocks ((C a).length + p.length) ≤
        blocks ((C a).length + (p.length + (chunks l).length)) := blocks_mono (by omega)
      obtain ⟨s1, happ, h1, hn1, hcount, htype⟩ := h.iappend (p := p) hn ha (by omega) (by omega)
      have hlen : (update C a (C a ++ p) a).length = (C a).length + p.length := by
        rw [update_self, length_append]
      obtain ⟨s', hall, h', hn', hcount', htype'⟩ := ih h1 (by omega) (by omega)
        (by rw [hlen]; omega) (by rw [hlen, Nat.add_assoc]; omega)
        (by rw [append_nil, update_eq_self]; exact h1)
      rw [hlen, Nat.add_assoc] at hcount'
      rw [update_self, update_idem, List.append_assoc] at h'
      refine ⟨s', ?_, h', hn'.trans hn1, by omega, fun i hi => ?_⟩
      · rw [Mkfs.appendAll, if_neg hp, bind_ok happ]
        exact hall
      · rw [htype' i (by omega), htype i hi]

/-- What adding files to an image has made of it. -/
structure Added (s : St) (C : Nat → List UInt8) (fs : List File) (s' : St)
    (C' : Nat → List UInt8) : Prop where
  holds : Holds s' C'
  inodes : s'.freeinode = s.freeinode + fs.length
  counter : s'.freeblock + blocks (C ROOTINO).length =
    s.freeblock + blocks ((C ROOTINO).length + DIRENT * fs.length) +
      (fs.map fun f => blocks f.contents.length).sum
  root : C' ROOTINO = C ROOTINO ++ dirBytes (entriesFrom s.freeinode fs)
  files : ∀ j f, fs[j]? = some f →
    C' (s.freeinode + j) = f.contents ∧ (dinodes s' (s.freeinode + j)).type = T_FILE
  others : ∀ i < s.freeinode, i ≠ ROOTINO → C' i = C i
  types : ∀ i < s.freeinode, (dinodes s' i).type = (dinodes s i).type

theorem Holds.addFile (h : Holds s C) (hroot : ROOTINO < s.freeinode) (hn : s.freeinode < ROOM)
    {f : File} (hslash : 47 ∉ f.shortname) (hsize : f.contents.length ≤ MAXFILE * BSIZE)
    (hdir : (C ROOTINO).length + DIRENT ≤ MAXFILE * BSIZE)
    (hroom : s.freeblock + blocks ((C ROOTINO).length + DIRENT) + blocks f.contents.length ≤
      FSSIZE + blocks (C ROOTINO).length) :
    ∃ s' C', Mkfs.addFile s f = .ok s' ∧ Added s C [f] s' C' := by
  have hne : ROOTINO ≠ s.freeinode := Nat.ne_of_lt hroot
  obtain ⟨s1, halloc, h1, hn1, hcount1, htype1, htypes1⟩ := h.ialloc hn T_FILE
  have hC1 : update C s.freeinode [] ROOTINO = C ROOTINO := update_of_ne hne _ _
  obtain ⟨s2, happ, h2, hn2, hcount2, htypes2⟩ := h1.iappend (a := ROOTINO)
    (p := Dirent.enc (UInt16.ofNat s.freeinode) f.entry) (by omega) (by omega)
    (by rw [hC1, length_enc]; exact hdir) (by rw [hC1, length_enc]; omega)
  rw [hC1, length_enc] at hcount2
  rw [hC1] at h2
  obtain ⟨C2, hC2⟩ : ∃ C2, C2 = update (update C s.freeinode []) ROOTINO
    (C ROOTINO ++ Dirent.enc (UInt16.ofNat s.freeinode) f.entry) := ⟨_, rfl⟩
  rw [← hC2] at h2
  have hnew : C2 s.freeinode = [] := by
    rw [hC2, update_of_ne hne.symm, update_self]
  obtain ⟨s', hall, h', hn', hcount', htypes'⟩ := h2.appendAll (a := s.freeinode) 
    (l := f.reads) (by omega) (by omega)
    (by rw [hnew, length_nil, Nat.zero_add]; exact hsize)
    (by
      rw [hnew, length_nil, Nat.zero_add]
      change s2.freeblock + blocks f.contents.length ≤ FSSIZE + 0
      omega)
  have hcount'' : s'.freeblock = s2.freeblock + blocks f.contents.length := by
    rw [hnew, length_nil, Nat.zero_add] at hcount'
    exact hcount'
  rw [hnew, List.nil_append] at h'
  refine ⟨s', _, ?_, h', ?_, ?_, ?_, fun j g hj => ?_, fun i hi hiroot => ?_, fun i hi => ?_⟩
  · unfold Mkfs.addFile
    rw [if_neg hslash, bind_ok halloc]
    dsimp only
    rw [bind_ok happ]
    exact hall
  · rw [List.length_singleton]
    omega
  · rw [List.length_singleton, Nat.mul_one, List.map_singleton, List.sum_singleton]
    omega
  · rw [update_of_ne hne, hC2, update_self]
    simp [entriesFrom, dirBytes]
  · cases j with
    | zero =>
      cases hj
      rw [Nat.add_zero, update_self, htypes' _ (by omega), htypes2 _ (by omega)]
      exact ⟨rfl, htype1⟩
    | succ j => simp at hj
  · rw [update_of_ne (Nat.ne_of_lt hi), hC2, update_of_ne hiroot, update_of_ne (Nat.ne_of_lt hi)]
  · rw [htypes' i (by omega), htypes2 i (by omega), htypes1 i hi]

theorem Holds.addFiles (h : Holds s C) (hroot : ROOTINO < s.freeinode) {fs : List File}
    (hn : s.freeinode + fs.length ≤ ROOM) (hslash : ∀ f ∈ fs, 47 ∉ f.shortname)
    (hsize : ∀ f ∈ fs, f.contents.length ≤ MAXFILE * BSIZE)
    (hdir : (C ROOTINO).length + DIRENT * fs.length ≤ MAXFILE * BSIZE)
    (hroom : s.freeblock + blocks ((C ROOTINO).length + DIRENT * fs.length) +
      (fs.map fun f => blocks f.contents.length).sum ≤ FSSIZE + blocks (C ROOTINO).length) :
    ∃ s' C', Mkfs.addFiles s fs = .ok s' ∧ Added s C fs s' C' := by
  induction fs generalizing s C with
  | nil =>
    refine ⟨s, C, rfl, h, rfl, rfl, ?_, fun j f hj => ?_, fun _ _ _ => rfl, fun _ _ => rfl⟩
    · exact (append_nil _).symm
    · simp at hj
  | cons f fs ih =>
    rw [length_cons] at hn
    rw [length_cons, Nat.mul_succ] at hdir
    rw [length_cons, Nat.mul_succ, List.map_cons, List.sum_cons] at hroom
    have hmono : blocks ((C ROOTINO).length + DIRENT) ≤
      blocks ((C ROOTINO).length + (DIRENT * fs.length + DIRENT)) := blocks_mono (by omega)
    obtain ⟨s1, C1, hadd, h1⟩ := h.addFile hroot (by omega) (hslash f List.mem_cons_self)
      (hsize f List.mem_cons_self) (by omega) (by omega)
    have hn1 : s1.freeinode = s.freeinode + 1 := h1.inodes
    have hcount1 := h1.counter
    rw [List.length_singleton, Nat.mul_one, List.map_singleton, List.sum_singleton] at hcount1
    have hroot1 : C1 ROOTINO = C ROOTINO ++ Dirent.enc (UInt16.ofNat s.freeinode) f.entry := by
      rw [h1.root]
      simp [entriesFrom, dirBytes]
    have hlen1 : (C1 ROOTINO).length = (C ROOTINO).length + DIRENT := by
      rw [hroot1, length_append, length_enc]
    have hsum : (C ROOTINO).length + DIRENT + DIRENT * fs.length =
      (C ROOTINO).length + (DIRENT * fs.length + DIRENT) := by omega
    obtain ⟨s', C', hrest, h'⟩ := ih h1.holds (by omega) (by omega)
      (fun g hg => hslash g (List.mem_cons_of_mem f hg))
      (fun g hg => hsize g (List.mem_cons_of_mem f hg)) (by omega)
      (by rw [hlen1, hsum]; omega)
    have hcount' := h'.counter
    rw [hlen1, hsum] at hcount'
    refine ⟨s', C', ?_, h'.holds, ?_, ?_, ?_, fun j g hj => ?_, fun i hi hiroot => ?_,
      fun i hi => ?_⟩
    · rw [Mkfs.addFiles, bind_ok hadd]
      exact hrest
    · rw [h'.inodes, hn1, length_cons]
      omega
    · rw [length_cons, Nat.mul_succ, List.map_cons, List.sum_cons]
      omega
    · rw [h'.root, hroot1, hn1, entriesFrom, List.append_assoc]
      rfl
    · cases j with
      | zero =>
        cases hj
        -- The first file is among the others for the rest of the loop.
        obtain ⟨hc, ht⟩ := h1.files 0 f rfl
        rw [Nat.add_zero] at hc ht ⊢
        exact ⟨(h'.others _ (by omega) (by omega)).trans hc, (h'.types _ (by omega)).trans ht⟩
      | succ j =>
        have hshift : s.freeinode + (j + 1) = s1.freeinode + j := by omega
        rw [hshift]
        exact h'.files j g hj
    · rw [h'.others i (by omega) hiroot, h1.others i hi hiroot]
    · rw [h'.types i (by omega), h1.types i hi]

end Files

section Main

variable {s : St}

theorem holds_init : Holds init fun _ => [] := by
  have hzero : ∀ i < init.freeinode, i = 0 := fun i hi => Nat.lt_one_iff.mp hi
  refine ⟨whole_init, fun i hi => ?_, fun i hi => ?_, fun i _ k hk => ?_, fun _ _ => rfl⟩
  · rw [hzero i hi, dinodes_init]
    exact congrArg UInt32.toNat (u32_zero 8)
  · have hnone : ref (dinodes init) init.img i NDIRECT = 0 := by
      rw [ref_indirect, hzero i hi]
      exact congrArg UInt32.toNat (u32_zero _)
    exact iff_of_false (fun hx => hx hnone) (Nat.not_lt_zero _)
  · exact absurd hk (Nat.not_lt_zero k)

theorem makeRoot_holds : ∃ s0 C0, makeRoot init = .ok s0 ∧ Holds s0 C0 ∧ s0.freeinode = 2 ∧
    s0.freeblock = nmeta + 1 ∧ C0 ROOTINO = dirBytes [(1, DOT), (1, DOTDOT)] ∧
    (dinodes s0 ROOTINO).type = T_DIR := by
  have hrootino : ROOTINO = 1 := rfl
  have hroom : 2 ≤ ROOM := by decide
  have hroom' : init.freeinode < ROOM := by decide
  have hsmall : DIRENT + DIRENT ≤ MAXFILE * BSIZE := by decide
  have hblocks : nmeta + 1 ≤ FSSIZE ∧ blocks 0 = 0 ∧ blocks DIRENT = 1 ∧
    blocks (DIRENT + DIRENT) = 1 := by decide
  obtain ⟨s1, halloc, h1, hn1, hcount1, htype1, -⟩ := holds_init.ialloc hroom' T_DIR
  have hinit : init.freeinode = ROOTINO := rfl
  have hfb : init.freeblock = nmeta := rfl
  rw [hinit] at halloc h1 hn1 htype1
  have hC1 : update (fun _ => ([] : List UInt8)) ROOTINO [] ROOTINO = [] := update_self _ _ _
  obtain ⟨s2, happ, h2, hn2, hcount2, htype2⟩ := h1.iappend (a := ROOTINO)
    (p := Dirent.enc (UInt16.ofNat ROOTINO) DOT) (by omega) (by omega)
    (by rw [hC1, length_enc, length_nil, Nat.zero_add]; omega)
    (by rw [hC1, length_enc, length_nil, Nat.zero_add]; omega)
  rw [hC1, length_enc, length_nil, Nat.zero_add] at hcount2
  rw [update_idem, hC1, List.nil_append] at h2
  have hC2 : update (fun _ => ([] : List UInt8)) ROOTINO
      (Dirent.enc (UInt16.ofNat ROOTINO) DOT) ROOTINO = Dirent.enc (UInt16.ofNat ROOTINO) DOT :=
    update_self _ _ _
  obtain ⟨s3, happ', h3, hn3, hcount3, htype3⟩ := h2.iappend (a := ROOTINO)
    (p := Dirent.enc (UInt16.ofNat ROOTINO) DOTDOT) (by omega) (by omega)
    (by rw [hC2, length_enc, length_enc]; omega)
    (by rw [hC2, length_enc, length_enc]; omega)
  rw [hC2, length_enc, length_enc] at hcount3
  rw [update_idem, hC2] at h3
  refine ⟨s3, _, ?_, h3, by omega, by omega, ?_, ?_⟩
  · unfold makeRoot
    rw [bind_ok halloc]
    dsimp only
    rw [if_pos rfl, bind_ok happ]
    exact happ'
  · rw [update_self]
    rfl
  · rw [htype3 _ (by omega), htype2 _ (by omega), htype1]

/-- A list of files there is room for: on the disk, in the table of inodes and in each inode.
    The names in the directory are there, are C strings, have no slash and differ in the bytes
    that are kept of them. -/
structure Fits (fs : List File) : Prop where
  few : fs.length < mkfs.sb.ninodes
  small : ∀ f ∈ fs, f.contents.length ≤ MAXFILE * BSIZE
  blocks : nmeta + blocks (DIRENT * (fs.length + 2)) +
    (fs.map fun f => Mkfs.blocks f.contents.length).sum ≤ FSSIZE
  named : ∀ f ∈ fs, f.entry ≠ [] ∧ SLASH ∉ f.entry ∧ 0 ∉ f.entry
  distinct : (fs.map fun f => f.entry.take DIRSIZ).Nodup

/-- The image that was made of a list of files. -/
structure Made (fs : List File) (s : St) : Prop where
  root : (dinodes s ROOTINO).type = T_DIR ∧ DIRENT * (fs.length + 2) ≤ rootSize s ∧
    Mapped (dinodes s) s.img ROOTINO (DIRENT * (fs.length + 2)) ∧
    ∀ k < DIRENT * (fs.length + 2),
      fileByte (dinodes s) s.img ROOTINO k = (dirBytes (rootEntries fs)).getD k 0
  files : ∀ j f, fs[j]? = some f → (dinodes s (j + 2)).type = T_FILE ∧
    (dinodes s (j + 2)).size.toNat = f.contents.length ∧
    Mapped (dinodes s) s.img (j + 2) f.contents.length ∧
    ∀ k < f.contents.length, fileByte (dinodes s) s.img (j + 2) k = f.contents.getD k 0
  head : ∀ b < mkfs.sb.inodestart, s.img b = init.img b
  refs : Refs (ref (dinodes s) s.img) (fs.length + 2) FSSIZE

theorem slash_notMem {f : File} (h : SLASH ∉ f.entry) : 47 ∉ f.shortname := by
  unfold File.entry at h
  split_ifs at h with hu
  · cases hs : f.shortname with
    | nil => exact List.not_mem_nil
    | cons c t =>
      rw [hs] at h hu
      rw [List.headD_cons] at hu
      rw [List.tail_cons] at h
      rw [hu, List.mem_cons, not_or]
      exact ⟨by decide, h⟩
  · exact h

theorem main_made {fs : List File} (hfit : Fits fs) : ∃ s, main fs = .ok s ∧ Made fs s := by
  have hrootino : ROOTINO = 1 := rfl
  have hroom : ROOM = 208 := by decide
  have hround : ∀ n, n ≤ (n / BSIZE + 1) * BSIZE := fun n => by
    simp only [BSIZE]
    omega
  have hninodes : mkfs.sb.ninodes = 200 := rfl
  have hfew := hfit.few
  have hblocks : blocks (2 * DIRENT) = 1 := by decide
  have hbits : FSSIZE < BSIZE * 8 := by decide
  have hbmap : mkfs.sb.bmapstart < nmeta := by decide
  have hbmap' : mkfs.sb.bmapstart < FSSIZE := by decide
  have hstart : mkfs.sb.inodestart < mkfs.sb.bmapstart := by decide
  have hrootroom : ROOTINO < ROOM := by decide
  obtain ⟨s0, C0, h0, hh0, hn0, hfb0, hC0, ht0⟩ := makeRoot_holds
  have hlen0 : (C0 ROOTINO).length = 2 * DIRENT := by
    rw [hC0, length_dirBytes]
    rfl
  have hsum : 2 * DIRENT + DIRENT * fs.length = DIRENT * (fs.length + 2) := by
    simp only [DIRENT]
    omega
  have hdirsize : DIRENT * (fs.length + 2) ≤ MAXFILE * BSIZE := by
    simp only [DIRENT, MAXFILE, NDIRECT, NINDIRECT, BSIZE]
    omega
  have hfb := hfit.blocks
  obtain ⟨s1, C1, h1, hadd⟩ := hh0.addFiles (by omega)
    (show s0.freeinode + fs.length ≤ ROOM by omega) (fun f hf => slash_notMem (hfit.named f hf).2.1)
    hfit.small (by rw [hlen0, hsum]; exact hdirsize)
    (by rw [hlen0, hsum, hblocks, hfb0]; omega)
  have hn1 : s1.freeinode = fs.length + 2 := by
    rw [hadd.inodes, hn0, Nat.add_comm]
  have hw1 := hadd.holds.whole
  have hroot1 : ROOTINO < s1.freeinode := by omega
  have hC1 : C1 ROOTINO = dirBytes (rootEntries fs) := by
    rw [hadd.root, hC0, hn0, ← dirBytes_append]
    rfl
  have hlen1 : (C1 ROOTINO).length = DIRENT * (fs.length + 2) := by
    rw [hadd.root, length_append, hlen0, length_dirBytes, length_entriesFrom, hsum]
  -- The last two steps touch the inode of the root and the free map.
  obtain ⟨s2, hput, hfb2⟩ := winode_runs hw1.disk.len hrootroom
    { dinodes s1 ROOTINO with
      size := UInt32.ofNat (((dinodes s1 ROOTINO).size.toNat / BSIZE + 1) * BSIZE) }
  have hfix : fixRoot s1 = .ok s2 := by
    unfold fixRoot
    rw [bind_ok (rinode_runs hw1.disk.len hrootroom)]
    exact hput
  have hcounter := hw1.counter
  have hused : s2.freeblock < BSIZE * 8 := by omega
  have hrun : main fs = .ok (wsect s2 mkfs.sb.bmapstart
      ((List.range s2.freeblock).foldl Block.setBit Block.zero)) := by
    unfold main
    rw [bind_ok h0, bind_ok h1, bind_ok hfix]
    unfold balloc
    rw [if_pos hused]
  refine ⟨_, hrun, ?_⟩
  obtain ⟨s, hs⟩ : ∃ s, s = wsect s2 mkfs.sb.bmapstart
    ((List.range s2.freeblock).foldl Block.setBit Block.zero) := ⟨_, rfl⟩
  rw [← hs] at hrun ⊢
  obtain ⟨hdisk, hcount, -, hmapped, hrootmapped, hrootsize⟩ := main_whole (by omega) hrun
  obtain ⟨-, -, hlen2, himg2, hput'⟩ := winode_ok hw1.disk.len hrootroom hput
  have hn : s.freeinode = fs.length + 2 := freeinode_main hrun
  have himg : ∀ b, b ≠ mkfs.sb.bmapstart → s.img b = s2.img b := by
    intro b hb
    rw [hs, wsect_small (hlen2.trans hw1.disk.len) hbmap']
    exact update_of_ne hb _ _
  have hdata : ∀ b, nmeta ≤ b → s.img b = s1.img b := by
    intro b hb
    rw [himg b (by omega), himg2 b (by omega)]
  have hinode : ∀ i < s1.freeinode, dinodes s i = dinodes s2 i := by
    intro i hi
    have hblock := IBLOCK_lt (a := i) (by omega)
    unfold dinodes
    rw [himg _ (by omega)]
  have haddrs : ∀ i < s1.freeinode, (dinodes s i).addrs = (dinodes s1 i).addrs ∧
      (dinodes s i).type = (dinodes s1 i).type := by
    intro i hi
    rw [hinode i hi, hput' i]
    split_ifs with hir
    · rw [hir]
      exact ⟨rfl, rfl⟩
    · exact ⟨rfl, rfl⟩
  have hbyte : ∀ i < s1.freeinode, ∀ k < (C1 i).length,
      fileByte (dinodes s) s.img i k = (C1 i).getD k 0 := by
    intro i hi k hk
    rw [hw1.disk.refs.fileByte_move hi (haddrs i hi).1 hdata (hw1.mapped i hi) (hw1.size i hi)
      (by rw [hadd.holds.length i hi]; exact hk)]
    exact hadd.holds.bytes i hi k hk
  refine ⟨⟨?_, ?_, hrootmapped, fun k hk => ?_⟩, fun j f hj => ?_, fun b hb => ?_, ?_⟩
  · rw [(haddrs _ hroot1).2, hadd.types _ (by omega), ht0]
  · rw [hrootsize]
    exact hround _
  · rw [hbyte _ hroot1 k (by rw [hlen1]; exact hk), hC1]
  · have hjlt : j < fs.length := (List.getElem?_eq_some_iff.mp hj).1
    have hshift : s0.freeinode + j = j + 2 := by omega
    obtain ⟨hc, ht⟩ := hadd.files j f hj
    rw [hshift] at hc ht
    have hj1 : j + 2 < s1.freeinode := by omega
    have hsize : (dinodes s (j + 2)).size.toNat = f.contents.length := by
      rw [hinode _ hj1, hput' (j + 2), if_neg (by omega), hadd.holds.length _ hj1, hc]
    refine ⟨(haddrs _ hj1).2.trans ht, hsize, ?_, fun k hk => ?_⟩
    · rw [← hsize]
      exact (hmapped (j + 2) (by omega) (by omega)).1
    · rw [hbyte _ hj1 k (by rw [hc]; exact hk), hc]
  · rw [himg b (by omega), winode_head hw1.disk.len hrootroom hput hb, hadd.holds.head b hb]
  · have hrefs := hdisk.refs
    rw [hn] at hrefs
    refine ⟨fun i k hi hk hne => ?_, hrefs.once⟩
    have := hrefs.range i k hi hk hne
    omega

end Main

end Xv6.Mkfs
