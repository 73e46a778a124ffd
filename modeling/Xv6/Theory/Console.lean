import Xv6.Core.Console
import Xv6.Lib.Window
import Mathlib.Algebra.Group.Nat.Defs
import Mathlib.Data.List.Induction

/-!
# The Line Editor

What the console is for: a line editor. `Desk` has the bytes that are ready to be read and the
tail that is still being edited. Erasing works on the tail, a newline, a `^D` or a full desk makes
it ready, and what does not fit is dropped. A read takes bytes up to a newline or a `^D`; the `^D`
itself it takes only if it has nothing else.

## Theorems

* `Console.console_edits`
-/

namespace Xv6.Console

open Function (update update_self update_of_ne)
open UInt32 (toNat_add toNat_one toNat_sub)
open List (append_assoc append_nil filter_append length_append length_singleton mem_append
  not_mem_nil)
open Prod (snd)

variable {P : Type} [DecidableEq P]

/-! ### The editor -/

/-- A desk. `committed` has every byte that was ever made ready, and `consumed` every byte that
    was taken off again, with its reader. -/
structure Desk (P : Type) where
  ready : List UInt8
  tail : List UInt8
  reading : P → Option (Nat × List UInt8)
  results : List (P × List UInt8)
  committed : List UInt8
  consumed : List (P × UInt8)

namespace Desk

def init (P : Type) : Desk P :=
  { ready := [], tail := [], reading := fun _ => none, results := [], committed := []
    consumed := [] }

/-- The tail becomes ready. -/
def commit (d : Desk P) : Desk P :=
  { d with ready := d.ready ++ d.tail, tail := [], committed := d.committed ++ d.tail }

/-- A character other than those that edit. -/
def type (d : Desk P) (ch : UInt8) : Desk P :=
  if ch ≠ 0 ∧ d.ready.length + d.tail.length < INPUT_BUF then
    let ch := if ch = 13 then newline else ch
    let d := { d with tail := d.tail ++ [ch] }
    if ch = newline ∨ ch = ctrl 'D' ∨ d.ready.length + d.tail.length = INPUT_BUF then d.commit
    else d
  else d

def key (d : Desk P) (ch : UInt8) : Desk P :=
  if ch = ctrl 'P' then d
  else if ch = ctrl 'U' then { d with tail := [] }
  else if ch = ctrl 'H' ∨ ch = 0x7f then { d with tail := d.tail.dropLast }
  else d.type ch

/-- Take up to `n` bytes off the front after having got some: the bytes taken, what is left, and
    whether to go on waiting and for how many. -/
def take (had : Bool) : Nat → List UInt8 → List UInt8 × List UInt8 × Option Nat
  | 0, l => ([], l, none)
  | n + 1, [] => ([], [], some (n + 1))
  | n + 1, b :: l =>
    if b = ctrl 'D' then if had then ([], b :: l, none) else ([b], l, none)
    else if b = newline then ([b], l, none)
    else
      let x := take true n l
      (b :: x.1, x.2)

/-- A reader at work, with `got` from before. -/
def read (d : Desk P) (p : P) (n : Nat) (got : List UInt8) : Desk P :=
  let x := take (!got.isEmpty) n d.ready
  -- a ^D is taken and not handed on
  let got := got ++ x.1.filter (· ≠ ctrl 'D')
  let d := { d with ready := x.2.1, consumed := d.consumed ++ x.1.map fun b => (p, b) }
  match x.2.2 with
  | some n => { d with reading := update d.reading p (some (n, got)) }
  | none => { d with
      reading := update d.reading p none, results := d.results ++ [(p, got)] }

def step (d : Desk P) : Act P → Option (Desk P)
  | .intr ch => some (d.key ch)
  | .call p n => match d.reading p with
    | none => some (d.read p n.toNat [])
    | some _ => none
  | .wake p => match d.reading p with
    | none => none
    | some (n, got) => some (d.read p n got)

def steps (d : Desk P) : List (Act P) → Option (Desk P)
  | [] => some d
  | a :: as => match d.step a with
    | none => none
    | some d' => d'.steps as

/-! ### Every committed byte is read once -/

/-- What process `p` has got so far, in finished reads and in the one it is in. -/
def given (d : Desk P) (p : P) : List UInt8 :=
  (d.results.filter (·.1 = p)).flatMap (·.2) ++
    match d.reading p with
    | none => []
    | some (_, got) => got

/-- The bytes are read in the order in which they were committed, each by one reader, who is
    given all of its own but `^D`. A read ends at the first newline. -/
structure Fair (d : Desk P) : Prop where
  order : d.committed = d.consumed.map snd ++ d.ready
  given : ∀ p, d.given p = ((d.consumed.filter (·.1 = p)).map snd).filter (· ≠ ctrl 'D')
  line : ∀ x ∈ d.results, newline ∉ x.2.dropLast
  going : ∀ p n got, d.reading p = some (n, got) → newline ∉ got

theorem Fair.init : (Desk.init P).Fair :=
  ⟨rfl, fun _ => rfl, fun _ h => absurd h not_mem_nil, fun _ _ _ h => nomatch h⟩

theorem take_append (n : Nat) : ∀ (had : Bool) (l : List UInt8),
    (take had n l).1 ++ (take had n l).2.1 = l := by
  induction n with
  | zero => exact fun _ _ => rfl
  | succ n ih =>
    intro had l
    cases l with
    | nil => rfl
    | cons b l =>
      simp only [take]
      split_ifs
      · rfl
      · rfl
      · rfl
      · rw [List.cons_append, ih true l]

theorem newline_take (n : Nat) : ∀ (had : Bool) (l : List UInt8),
    newline ∉ ((take had n l).1.filter (· ≠ ctrl 'D')).dropLast ∧
      ((take had n l).2.2 ≠ none → newline ∉ (take had n l).1) := by
  induction n with
  | zero => exact fun _ _ => ⟨not_mem_nil, fun h => absurd rfl h⟩
  | succ n ih =>
    intro had l
    cases l with
    | nil => exact ⟨not_mem_nil, fun _ => not_mem_nil⟩
    | cons b l =>
      obtain ⟨hlast, hwait⟩ := ih true l
      simp only [take]
      split_ifs with hd hh hn
      · exact ⟨not_mem_nil, fun _ => not_mem_nil⟩
      · exact ⟨by simp [hd], fun h => absurd rfl h⟩
      · exact ⟨by simp [hd], fun h => absurd rfl h⟩
      · constructor
        · rw [List.filter_cons_of_pos (by simpa using hd)]
          cases hx : (take true n l).1.filter (· ≠ ctrl 'D') with
          | nil => exact not_mem_nil
          | cons y ys =>
            rw [hx] at hlast
            rw [List.dropLast_cons_cons, List.mem_cons, not_or]
            exact ⟨Ne.symm hn, hlast⟩
        · intro h
          rw [List.mem_cons, not_or]
          exact ⟨Ne.symm hn, hwait h⟩

variable {d : Desk P}

theorem Fair.key (h : d.Fair) (ch : UInt8) : (d.key ch).Fair := by
  have hcommit : ∀ t, ({ d with tail := t } : Desk P).commit.Fair := fun t =>
    ⟨by simp only [commit, h.order, append_assoc], h.given, h.line, h.going⟩
  have htail : ∀ t, ({ d with tail := t } : Desk P).Fair := fun t =>
    ⟨h.order, h.given, h.line, h.going⟩
  unfold Desk.key
  split_ifs
  · exact h
  · exact htail _
  · exact htail _
  · grind [type]

theorem filter_pair {p q : P} (hq : q ≠ p) (l : List UInt8) :
    (l.map fun b => (p, b)).filter (·.1 = q) = [] := by
  rw [List.filter_eq_nil_iff]
  intro x hx
  obtain ⟨b, -, rfl⟩ := List.mem_map.mp hx
  simpa using Ne.symm hq

theorem filter_pair_self (p : P) (l : List UInt8) :
    ((l.map fun b => (p, b)).filter (·.1 = p)).map snd = l := by
  rw [List.filter_eq_self.mpr]
  · rw [List.map_map]
    exact List.map_id l
  · intro x hx
    obtain ⟨b, -, rfl⟩ := List.mem_map.mp hx
    simp

theorem Fair.read (h : d.Fair) (p : P) (n : Nat) (got : List UInt8)
    (hgot : d.given p = (d.results.filter (·.1 = p)).flatMap (·.2) ++ got)
    (hline : newline ∉ got) : (d.read p n got).Fair := by
  have happ := take_append n (!got.isEmpty) d.ready
  obtain ⟨hlast, hwait⟩ := newline_take n (!got.isEmpty) d.ready
  have hp := h.given p
  have horder : d.committed = (d.consumed ++ (take (!got.isEmpty) n d.ready).1.map
      fun b => (p, b)).map snd ++ (take (!got.isEmpty) n d.ready).2.1 := by
    rw [List.map_append, List.map_map, append_assoc]
    change _ = _ ++ ((take (!got.isEmpty) n d.ready).1.map id ++ _)
    rw [List.map_id, happ, h.order]
  have hown : ((d.consumed ++ (take (!got.isEmpty) n d.ready).1.map fun b => (p, b)).filter
      (·.1 = p)).map snd =
      (d.consumed.filter (·.1 = p)).map snd ++ (take (!got.isEmpty) n d.ready).1 := by
    rw [filter_append, List.map_append, filter_pair_self]
  have hothers : ∀ q, q ≠ p →
      (d.consumed ++ (take (!got.isEmpty) n d.ready).1.map fun b => (p, b)).filter (·.1 = q) =
      d.consumed.filter (·.1 = q) := by
    intro q hq
    rw [filter_append, filter_pair hq, append_nil]
  unfold Desk.read
  dsimp only
  cases hx : (take (!got.isEmpty) n d.ready).2.2 with
  | some k =>
    refine ⟨horder, ?_, h.line, ?_⟩
    · intro q
      by_cases hq : q = p
      · subst hq
        simp only [Desk.given, update_self]
        rw [hown, filter_append, ← hp, hgot, append_assoc]
      · simp only [Desk.given, update_of_ne hq]
        rw [hothers q hq]
        exact h.given q
    · intro q m g hg
      by_cases hq : q = p
      · subst hq
        simp only [update_self, Option.some.injEq, Prod.mk.injEq] at hg
        rw [← hg.2, mem_append, not_or]
        exact ⟨hline, fun hm => hwait (by rw [hx]; exact nofun) (List.mem_filter.mp hm).1⟩
      · simp only [update_of_ne hq] at hg
        exact h.going q m g hg
  | none =>
    refine ⟨horder, ?_, ?_, ?_⟩
    · intro q
      by_cases hq : q = p
      · subst hq
        rw [hown, filter_append, ← hp, hgot]
        simp [Desk.given, update_self, filter_append, List.flatMap_append]
      · rw [hothers q hq, ← h.given q]
        simp [Desk.given, update_of_ne hq, Ne.symm hq]
    · intro x hx'
      rcases List.mem_append.mp hx' with hx' | hx'
      · exact h.line x hx'
      · rw [List.mem_singleton.mp hx']
        dsimp only
        intro hm
        -- what was got before has no newline, and what is taken has one at its end only
        rcases List.eq_nil_or_concat' ((take (!got.isEmpty) n d.ready).1.filter (· ≠ ctrl 'D'))
          with hnil | ⟨ys, y, hy⟩
        · rw [hnil, append_nil] at hm
          exact hline (List.dropLast_subset _ hm)
        · rw [hy, List.dropLast_concat] at hlast
          rw [hy, ← append_assoc, List.dropLast_concat, mem_append] at hm
          exact hm.elim hline hlast
    · intro q m g hg
      by_cases hq : q = p
      · subst hq
        simp only [update_self, reduceCtorEq] at hg
      · simp only [update_of_ne hq] at hg
        exact h.going q m g hg

theorem Fair.step (h : d.Fair) {a : Act P} {d' : Desk P} (hs : d.step a = some d') : d'.Fair := by
  cases a with
  | intr ch =>
    rw [← Option.some.inj hs]
    exact h.key ch
  | call p n =>
    simp only [Desk.step] at hs
    split at hs
    · rename_i hidle
      rw [← Option.some.inj hs]
      exact h.read p _ [] (by simp only [Desk.given, hidle]) not_mem_nil
    · exact nomatch hs
  | wake p =>
    simp only [Desk.step] at hs
    split at hs
    · exact nomatch hs
    · rename_i n got hread
      rw [← Option.some.inj hs]
      exact h.read p n got (by simp only [Desk.given, hread]) (h.going p n got hread)

end Desk

/-! ### The ring shows a desk -/

/-- The ready bytes are from `r` to `w`, and the tail from `w` to `e`. -/
structure Shows (c : Cons) (ready tail : List UInt8) : Prop where
  room : ready.length + tail.length ≤ INPUT_BUF
  full : ready.length + tail.length = INPUT_BUF → tail = []
  plain : newline ∉ tail
  w : c.w.toNat = (c.r.toNat + ready.length) % 2 ^ 32
  e : c.e.toNat = (c.r.toNat + ready.length + tail.length) % 2 ^ 32
  window : Window INPUT_BUF c.buf c.r.toNat (ready ++ tail)

namespace Shows

variable {c : Cons} {ready tail : List UInt8} {x : UInt8}

theorem init : Shows Cons.init [] [] :=
  ⟨Nat.zero_le _, fun _ => rfl, not_mem_nil, rfl, rfl, Window.nil⟩

section

variable (h : Shows c ready tail)

include h

theorem tail_length : (c.e - c.w).toNat = tail.length := by
  have hroom := h.room
  rw [toNat_sub, h.e, h.w]
  simp only [INPUT_BUF] at hroom
  omega

theorem length : (c.e - c.r).toNat = ready.length + tail.length := by
  have hroom := h.room
  have hr := c.r.toNat_lt
  rw [toNat_sub, h.e]
  simp only [INPUT_BUF] at hroom
  omega

theorem ready_length : (c.w - c.r).toNat = ready.length := by
  have hroom := h.room
  have hr := c.r.toNat_lt
  rw [toNat_sub, h.w]
  simp only [INPUT_BUF] at hroom
  omega

theorem e_eq_w_iff : c.e = c.w ↔ tail = [] := by
  have hroom := h.room
  simp only [INPUT_BUF] at hroom
  rw [← UInt32.toNat_inj, h.e, h.w, ← List.length_eq_zero_iff]
  omega

theorem r_eq_w_iff : c.r = c.w ↔ ready = [] := by
  have hroom := h.room
  have hr := c.r.toNat_lt
  simp only [INPUT_BUF] at hroom
  rw [← UInt32.toNat_inj, h.w, ← List.length_eq_zero_iff]
  omega

end

theorem erase (h : Shows c ready (tail ++ [x])) :
    c.buf ((c.e - 1).toNat % INPUT_BUF) = x ∧ Shows { c with e := c.e - 1 } ready tail := by
  have hroom := h.room
  have hr := c.r.toNat_lt
  have he := h.e
  rw [length_append, length_singleton] at hroom he
  have hwin := h.window
  rw [← append_assoc] at hwin
  obtain ⟨hlast, hwin⟩ := hwin.unpush
  have hdec : (c.e - 1).toNat = (c.r.toNat + ready.length + tail.length) % 2 ^ 32 := by
    rw [toNat_sub, he, toNat_one]
    omega
  refine ⟨?_, ?_⟩
  · rw [hdec, Nat.mod_mod_of_dvd _ (by decide), Nat.add_assoc, ← length_append]
    exact hlast
  · exact
      { room := by omega
        full := fun hfull => by omega
        plain := fun hm => h.plain (List.mem_append_left _ hm)
        w := h.w
        e := hdec
        window := hwin }

theorem killLine (tail : List UInt8) : ∀ {c : Cons}, Shows c ready tail →
    Shows (killLine tail.length c) ready [] := by
  induction tail using List.reverseRecOn with
  | nil => exact fun h => h
  | append_singleton tail x ih =>
    intro c h
    obtain ⟨hlast, hrest⟩ := h.erase
    have hne : c.e ≠ c.w := fun he => by simpa using h.e_eq_w_iff.mp he
    have hx : x ≠ newline := fun he => h.plain (by simp [he])
    rw [length_append, length_singleton, Console.killLine, hlast, if_pos ⟨hne, hx⟩]
    exact ih hrest

theorem append (h : Shows c ready tail) (hroom : ready.length + tail.length < INPUT_BUF)
    (ch : UInt8) : Window INPUT_BUF (update c.buf (c.e.toNat % INPUT_BUF) ch) c.r.toNat
      (ready ++ (tail ++ [ch])) ∧
      (c.e + 1).toNat = (c.r.toNat + ready.length + (tail ++ [ch]).length) % 2 ^ 32 := by
  constructor
  · have hpush := h.window.push (by rw [length_append]; exact hroom) ch
    rw [length_append, ← Nat.add_assoc] at hpush
    rw [h.e, Nat.mod_mod_of_dvd _ (by decide), ← append_assoc]
    exact hpush
  · rw [toNat_add, h.e, length_append, length_singleton, toNat_one]
    omega

variable {d : Desk P}

omit [DecidableEq P] in
theorem store (h : Shows c d.ready d.tail) (ch : UInt8) :
    Shows (store c ch) (d.type ch).ready (d.type ch).tail := by
  have hlt : c.e - c.r < 128 ↔ d.ready.length + d.tail.length < INPUT_BUF := by
    rw [UInt32.lt_iff_toNat_lt, h.length]
    rfl
  unfold Console.store Desk.type
  by_cases hin : ch ≠ 0 ∧ d.ready.length + d.tail.length < INPUT_BUF
  · rw [if_pos hin, if_pos ⟨hin.1, hlt.mpr hin.2⟩]
    generalize (if ch = 13 then newline else ch) = ch'
    obtain ⟨hwin, he⟩ := h.append hin.2 ch'
    have hr := c.r.toNat_lt
    have hfull : c.e + 1 = c.r + 128 ↔
        d.ready.length + (d.tail ++ [ch']).length = INPUT_BUF := by
      have hroom := hin.2
      rw [← UInt32.toNat_inj, he, toNat_add, length_append, length_singleton]
      simp only [INPUT_BUF, UInt32.toNat_ofNat] at hroom ⊢
      omega
    dsimp only
    by_cases hcommit : ch' = newline ∨ ch' = ctrl 'D' ∨
        d.ready.length + (d.tail ++ [ch']).length = INPUT_BUF
    · rw [if_pos hcommit, if_pos (hcommit.imp id (Or.imp id hfull.mpr))]
      rw [length_append, length_singleton] at he
      exact
        { room := by
            have hroom := hin.2
            simp only [Desk.commit, length_append, length_singleton, List.length_nil]
            omega
          full := fun _ => rfl
          plain := not_mem_nil
          w := by
            simp only [Desk.commit, length_append, length_singleton, he]
            omega
          e := by
            simp only [Desk.commit, length_append, length_singleton, List.length_nil, he]
            omega
          window := by
            simp only [Desk.commit, append_nil]
            exact hwin }
    · rw [if_neg hcommit, if_neg (fun hc => hcommit (hc.imp id (Or.imp id hfull.mp)))]
      rw [not_or, not_or] at hcommit
      exact
        { room := by
            have hroom := hin.2
            simp only [length_append, length_singleton]
            omega
          full := fun hf => absurd hf hcommit.2.2
          plain := by
            rw [mem_append, not_or]
            exact ⟨h.plain, by simpa using Ne.symm hcommit.1⟩
          w := h.w
          e := he
          window := hwin }
  · rw [if_neg hin, if_neg (fun hc => hin ⟨hc.1, hlt.mp hc.2⟩)]
    exact h

omit [DecidableEq P] in
theorem consoleintr (h : Shows c d.ready d.tail) (ch : UInt8) :
    Shows (consoleintr c ch) (d.key ch).ready (d.key ch).tail := by
  unfold Console.consoleintr Desk.key
  by_cases hp : ch = ctrl 'P'
  · rw [if_pos hp, if_pos hp]
    exact h
  rw [if_neg hp, if_neg hp]
  by_cases hu : ch = ctrl 'U'
  · rw [if_pos hu, if_pos hu, h.tail_length]
    exact killLine d.tail h
  rw [if_neg hu, if_neg hu]
  by_cases hh : ch = ctrl 'H' ∨ ch = 0x7f
  · rw [if_pos hh, if_pos hh]
    rcases List.eq_nil_or_concat' d.tail with hnil | ⟨ys, y, hy⟩
    · rw [if_neg (not_not.mpr (h.e_eq_w_iff.mpr hnil))]
      have hsame : d.tail.dropLast = d.tail := by rw [hnil]; rfl
      dsimp only
      rw [hsame]
      exact h
    · have hne : c.e ≠ c.w := fun he => by
        have := h.e_eq_w_iff.mp he
        rw [hy] at this
        simp at this
      rw [hy] at h
      rw [if_pos hne]
      dsimp only
      rw [hy, List.dropLast_concat]
      exact h.erase.2
  · rw [if_neg hh, if_neg hh]
    exact h.store ch

theorem pop {b : UInt8} (h : Shows c (b :: ready) tail) :
    c.buf (c.r.toNat % INPUT_BUF) = b ∧ Shows { c with r := c.r + 1 } ready tail := by
  obtain ⟨hb, hwin⟩ := Window.pop h.window
  have hroom := h.room
  have hw := h.w
  have he := h.e
  rw [List.length_cons] at hroom hw he
  have hr1 : (c.r + 1).toNat = (c.r.toNat + 1) % 2 ^ 32 := by
    rw [toNat_add, toNat_one]
  refine ⟨hb, ?_⟩
  exact
    { room := by omega
      full := fun hfull => by omega
      plain := h.plain
      w := by
        rw [hw, hr1]
        omega
      e := by
        rw [he, hr1]
        omega
      window := by
        rw [hr1]
        exact hwin.mod (by decide) }

theorem readLoop (target : Nat) (n : Nat) : ∀ {c : Cons} {ready : List UInt8}
    (got : List UInt8), Shows c ready tail → got.length + n = target →
    (readLoop target n c got).2.1 =
      got ++ (Desk.take (!got.isEmpty) n ready).1.filter (· ≠ ctrl 'D') ∧
    (readLoop target n c got).2.2 = (Desk.take (!got.isEmpty) n ready).2.2 ∧
    (∀ k, (readLoop target n c got).2.2 = some k →
      (readLoop target n c got).2.1.length + k = target) ∧
    Shows (readLoop target n c got).1 (Desk.take (!got.isEmpty) n ready).2.1 tail := by
  induction n with
  | zero =>
    intro c ready got h htarget
    exact ⟨by simp [Console.readLoop, Desk.take], rfl, fun k hk => (nomatch hk), h⟩
  | succ n ih =>
    intro c ready got h htarget
    cases ready with
    | nil =>
      rw [Console.readLoop, if_pos (h.r_eq_w_iff.mpr rfl)]
      refine ⟨by simp [Desk.take], rfl, ?_, h⟩
      intro k hk
      rw [← Option.some.inj hk]
      exact htarget
    | cons b l =>
      obtain ⟨hb, hrest⟩ := h.pop
      have hne : c.r ≠ c.w := fun he => by simpa using h.r_eq_w_iff.mp he
      rw [Console.readLoop, if_neg hne]
      simp only [hb, Desk.take]
      by_cases hd : b = ctrl 'D'
      · -- ^D ends the read, and stays if there is something to return
        rw [if_pos hd, if_pos hd]
        cases got with
        | nil =>
          rw [if_neg (by simp at htarget; omega)]
          exact ⟨by simp [hd], rfl, fun k hk => (nomatch hk), hrest⟩
        | cons g gs =>
          rw [if_pos (by rw [List.length_cons] at htarget; omega)]
          refine ⟨by simp, rfl, fun k hk => (nomatch hk), ?_⟩
          have hback : c.r + 1 - 1 = c.r := UInt32.add_sub_cancel c.r 1
          simp only [hback]
          exact h
      · rw [if_neg hd, if_neg hd]
        by_cases hn : b = newline
        · rw [if_pos hn, if_pos hn]
          exact ⟨by simp [hd], rfl, fun k hk => (nomatch hk), hrest⟩
        · rw [if_neg hn, if_neg hn]
          have hnext := ih (got ++ [b]) hrest
            (by rw [length_append, length_singleton]; omega)
          have hhad : (!(got ++ [b]).isEmpty) = true := by simp
          rw [hhad] at hnext
          refine ⟨?_, hnext.2.1, hnext.2.2.1, hnext.2.2.2⟩
          rw [hnext.1, List.filter_cons_of_pos (by simpa using hd), append_assoc]
          rfl

end Shows

/-! ### The console is the editor -/

/-- A sleeping reader wants and has the same in both. -/
def SameReading : Option Reading → Option (Nat × List UInt8) → Prop
  | none, y => y = none
  | some x, y => y = some (x.n, x.got) ∧ x.got.length + x.n = x.target

/-- The console and the editor are in the same position. -/
structure Same (s : Sys P) (d : Desk P) : Prop where
  shows : Shows s.cons d.ready d.tail
  reading : ∀ p, SameReading (s.reading p) (d.reading p)
  results : s.results = d.results

variable {s : Sys P} {d : Desk P}

omit [DecidableEq P] in
theorem Same.init : Same (Sys.init P) (Desk.init P) := ⟨Shows.init, fun _ => rfl, rfl⟩

theorem Same.read (h : Same s d) (p : P) (target n : Nat) (got : List UInt8)
    (htarget : got.length + n = target) : Same (s.read p target n got) (d.read p n got) := by
  obtain ⟨hgot, hleft, hcount, hshows⟩ := Shows.readLoop target n got h.shows htarget
  unfold Sys.read Desk.read
  obtain ⟨⟨c, g, m⟩, hx⟩ : ∃ x, readLoop target n s.cons got = x := ⟨_, rfl⟩
  rw [hx] at hgot hleft hcount hshows ⊢
  dsimp only at hgot hleft hcount hshows ⊢
  rw [← hleft, ← hgot]
  cases m with
  | some k =>
    refine ⟨hshows, ?_, h.results⟩
    intro q
    by_cases hq : q = p
    · subst hq
      simp only [update_self]
      exact ⟨rfl, hcount k rfl⟩
    · simp only [update_of_ne hq]
      exact h.reading q
  | none =>
    refine ⟨hshows, ?_, ?_⟩
    · intro q
      by_cases hq : q = p
      · subst hq
        simp only [update_self]
        rfl
      · simp only [update_of_ne hq]
        exact h.reading q
    · dsimp only
      rw [h.results]

theorem Same.step (h : Same s d) {a : Act P} {s' : Sys P} (hs : step s a = some s') :
    ∃ d', d.step a = some d' ∧ Same s' d' := by
  cases a with
  | intr ch =>
    refine ⟨_, rfl, ?_⟩
    have hkey : (d.key ch).reading = d.reading ∧ (d.key ch).results = d.results := by
      unfold Desk.key Desk.type
      generalize (if ch = 13 then newline else ch) = ch'
      dsimp only
      split_ifs <;> exact ⟨rfl, rfl⟩
    rw [← Option.some.inj hs]
    exact ⟨h.shows.consoleintr ch, by rw [hkey.1]; exact h.reading, by rw [hkey.2, ← h.results]⟩
  | call p n =>
    have hp := h.reading p
    simp only [Console.step] at hs
    cases hx : s.reading p with
    | none =>
      rw [hx] at hs hp
      refine ⟨_, by simp only [Desk.step, show d.reading p = none from hp]; rfl, ?_⟩
      rw [← Option.some.inj hs]
      exact h.read p _ _ [] (by simp)
    | some x =>
      rw [hx] at hs
      cases hs
  | wake p =>
    have hp := h.reading p
    simp only [Console.step] at hs
    cases hx : s.reading p with
    | none =>
      rw [hx] at hs
      cases hs
    | some x =>
      rw [hx] at hs hp
      refine ⟨_, by simp only [Desk.step, hp.1]; rfl, ?_⟩
      rw [← Option.some.inj hs]
      exact h.read p _ _ _ hp.2

theorem Same.steps {as : List (Act P)} : ∀ {s : Sys P} {d : Desk P} {s' : Sys P}, Same s d →
    d.Fair → steps s as = some s' → ∃ d', d.steps as = some d' ∧ Same s' d' ∧ d'.Fair := by
  induction as with
  | nil =>
    intro s d s' h hf hs
    rw [← Option.some.inj hs]
    exact ⟨d, rfl, h, hf⟩
  | cons a as ih =>
    intro s d s' h hf hs
    simp only [Console.steps] at hs
    split at hs
    · exact nomatch hs
    · rename_i t ht
      obtain ⟨d1, hd1, hsame⟩ := h.step ht
      obtain ⟨d2, hd2, hrest⟩ := ih hsame (hf.step hd1) hs
      exact ⟨d2, by simp only [Desk.steps, hd1, hd2], hrest⟩

/-- However characters and reads are mixed, the console does what the line editor does, with the
    same results. The counters are in order and at most `INPUT_BUF` apart, across wraps too, and
    a full buffer is all committed. And the editor is fair: every committed byte is taken
    once, in order, and handed to the process that took it unless it is `^D`; no read goes
    beyond a newline. -/
theorem console_edits (as : List (Act P)) (s : Sys P) (hs : steps (Sys.init P) as = some s) :
    ∃ d : Desk P, (Desk.init P).steps as = some d ∧ s.results = d.results ∧
      (∀ p, SameReading (s.reading p) (d.reading p)) ∧
      (s.cons.w - s.cons.r).toNat = d.ready.length ∧
      (s.cons.e - s.cons.r).toNat = d.ready.length + d.tail.length ∧
      s.cons.w - s.cons.r ≤ s.cons.e - s.cons.r ∧ (s.cons.e - s.cons.r).toNat ≤ INPUT_BUF ∧
      ((s.cons.e - s.cons.r).toNat = INPUT_BUF → s.cons.w = s.cons.e) ∧
      d.committed = d.consumed.map snd ++ d.ready ∧ (∀ p, d.given p =
        ((d.consumed.filter (·.1 = p)).map snd).filter (· ≠ ctrl 'D')) ∧
      ∀ x ∈ s.results, newline ∉ x.2.dropLast := by
  obtain ⟨d, hd, hsame, hfair⟩ := Same.init.steps Desk.Fair.init hs
  have hshows := hsame.shows
  refine ⟨d, hd, hsame.results, hsame.reading, hshows.ready_length, hshows.length, ?_, ?_, ?_,
    hfair.order, hfair.given, ?_⟩
  · rw [UInt32.le_iff_toNat_le, hshows.ready_length, hshows.length]
    exact Nat.le_add_right _ _
  · rw [hshows.length]
    exact hshows.room
  · intro hfull
    rw [hshows.length] at hfull
    exact (hshows.e_eq_w_iff.mpr (hshows.full hfull)).symm
  · rw [hsame.results]
    exact hfair.line

/-- `a`, a backspace, `b` and return; a process reads ten bytes and gets the line. -/
theorem console_edits_line : ∃ s : Sys Unit,
    steps (Sys.init Unit) [.call () 10, .intr 97, .intr 8, .intr 98, .intr 13, .wake ()] = some s ∧
    s.results = [((), [98, 10])] ∧ (s.cons.e - s.cons.r).toNat ≤ INPUT_BUF := by
  have hrun : ∃ s : Sys Unit,
      steps (Sys.init Unit) [.call () 10, .intr 97, .intr 8, .intr 98, .intr 13, .wake ()] =
        some s ∧
      s.results = [((), [98, 10])] := ⟨_, rfl, by decide⟩
  obtain ⟨s, hs, hres⟩ := hrun
  obtain ⟨d, -, -, -, -, -, -, hle, -⟩ := console_edits _ s hs
  exact ⟨s, hs, hres, hle⟩

end Xv6.Console
