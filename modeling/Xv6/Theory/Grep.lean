import Mathlib.Data.List.Basic
import Xv6.Core.Grep
import Mathlib.Data.List.TakeWhile

/-!
# What grep Prints

Behind a leading `^` a pattern is a list of items: any number of bytes that fit a character, one
byte that fits it, or the end of the text. A text matches if the items read a piece of it, which
starts at the beginning if there is a `^`.

What `grep` prints is told from the lines of its input alone. They are looked at until one does
not fit into the buffer or has no newline, and those that match are printed. How `read` cuts the
input does not matter, but the lines from there on are lost.

## Theorems

* `matchRe_iff_reads`, `grep_prints`, `grep_grep`
-/

namespace Xv6.Grep

open List (append_assoc cons_append nil_append not_mem_nil)

/-! ### Patterns -/

inductive Item
  | star (c : UInt8)
  | one (c : UInt8)
  | eol

/-- The items of a pattern without its `^`. A `*` belongs to the character before it, whatever
    that is, and a `$` is the end only where it is last. -/
def items : List UInt8 → List Item
  | [] => []
  | [c] => if c = DOLLAR then [.eol] else [.one c]
  | c :: d :: re => if d = STAR then .star c :: items re else .one c :: items (d :: re)

/-- The byte `d` fits the character `c` of a pattern. -/
def Fits (c d : UInt8) : Prop := c = DOT ∨ c = d

/-- The items read `s`, with `after` behind it in the text. -/
def Reads : List Item → List UInt8 → List UInt8 → Prop
  | [], s, _ => s = []
  | .star c :: is, s, after => ∃ run t, s = run ++ t ∧ (∀ d ∈ run, Fits c d) ∧ Reads is t after
  | .one c :: is, s, after => ∃ d t, s = d :: t ∧ Fits c d ∧ Reads is t after
  | .eol :: is, s, after => s ++ after = [] ∧ Reads is s after

/-- A pattern without its `^`. -/
def body (re : List UInt8) : List UInt8 := if re.head? = some CARET then re.tail else re

theorem matchstar_iff (c : UInt8) (re text : List UInt8) :
    matchstar c re text = true ↔ ∃ run rest, text = run ++ rest ∧ (∀ d ∈ run, Fits c d) ∧
      matchhere re rest = true := by
  induction text with
  | nil =>
    rw [matchstar]
    simp
  | cons t text ih =>
    have hfits : t = c ∨ c = DOT ↔ Fits c t := or_comm.trans (or_congr Iff.rfl eq_comm)
    rw [matchstar]
    simp only [Bool.or_eq_true, Bool.and_eq_true, decide_eq_true_eq, hfits, ih]
    constructor
    · rintro (hhere | ⟨ht, run, rest, rfl, hrun, hrest⟩)
      · exact ⟨[], t :: text, rfl, by simp, hhere⟩
      · exact ⟨t :: run, rest, rfl, List.forall_mem_cons.mpr ⟨ht, hrun⟩, hrest⟩
    · rintro ⟨_ | ⟨d, run⟩, rest, heq, hrun, hrest⟩
      · rw [nil_append] at heq
        exact .inl (heq ▸ hrest)
      · obtain ⟨rfl, rfl⟩ := List.cons.inj heq
        exact .inr ⟨hrun _ List.mem_cons_self, run, rest, rfl,
          fun d hd => hrun d (List.mem_cons_of_mem _ hd), hrest⟩

/-- A character that is not special takes one byte. -/
theorem matchhere_one {c : UInt8} {re : List UInt8} (hstar : re.head? ≠ some STAR)
    (hend : ¬ (c = DOLLAR ∧ re = [])) (text : List UInt8) :
    matchhere (c :: re) text = true ↔
      ∃ d t, text = d :: t ∧ Fits c d ∧ matchhere re t = true := by
  rw [matchhere.eq_def]
  simp only [if_neg hstar, if_neg hend]
  cases text with
  | nil => simp
  | cons t text => simp [Fits]

/-- `matchhere` finds what the items read at the beginning of the text. -/
theorem matchhere_iff (re text : List UInt8) :
    matchhere re text = true ↔ ∃ s after, text = s ++ after ∧ Reads (items re) s after := by
  have hstep : ∀ {c : UInt8} {re text : List UInt8}, (∀ text, matchhere re text = true ↔
      ∃ s after, text = s ++ after ∧ Reads (items re) s after) →
      ((∃ d t, text = d :: t ∧ Fits c d ∧ matchhere re t = true) ↔
        ∃ s after, text = s ++ after ∧ Reads (.one c :: items re) s after) := by
    intro c re text ih
    constructor
    · rintro ⟨d, t, rfl, hd, ht⟩
      obtain ⟨s, after, rfl, hs⟩ := (ih t).mp ht
      exact ⟨d :: s, after, rfl, d, s, rfl, hd, hs⟩
    · rintro ⟨_, after, rfl, d, s, rfl, hd, hs⟩
      exact ⟨d, s ++ after, rfl, hd, (ih _).mpr ⟨s, after, rfl, hs⟩⟩
  -- The induction is along the reading of the pattern.
  fun_induction items re generalizing text with
  | case1 =>
    rw [matchhere.eq_def]
    exact iff_of_true rfl ⟨[], text, rfl, rfl⟩
  | case2 =>
    rw [matchhere.eq_def]
    simp [Reads]
  | case3 c hc =>
    rw [matchhere_one (by simp) fun h => hc h.1]
    refine hstep fun text => ?_
    rw [matchhere.eq_def]
    exact iff_of_true rfl ⟨[], text, rfl, rfl⟩
  | case4 c re ih =>
    have hstar : matchhere (c :: STAR :: re) text = matchstar c re text := by
      rw [matchhere.eq_def]
      rfl
    rw [hstar, matchstar_iff]
    constructor
    · rintro ⟨run, rest, rfl, hrun, hrest⟩
      obtain ⟨s, after, rfl, hs⟩ := (ih rest).mp hrest
      exact ⟨run ++ s, after, (append_assoc ..).symm, run, s, rfl, hrun, hs⟩
    · rintro ⟨_, after, rfl, run, s, rfl, hrun, hs⟩
      exact ⟨run, s ++ after, append_assoc .., hrun, (ih _).mpr ⟨s, after, rfl, hs⟩⟩
  | case5 c d re hd ih =>
    rw [matchhere_one (by simpa using hd) (by simp)]
    exact hstep ih

/-- The loop of `match` goes over the text as `.*` does. -/
theorem matchFrom_iff (re text : List UInt8) : matchFrom re text = true ↔
    ∃ before rest, text = before ++ rest ∧ matchhere re rest = true := by
  have hdot : matchFrom re text = matchstar DOT re text := by
    induction text with
    | nil => simp [matchFrom, matchstar]
    | cons t text ih => simp [matchFrom, matchstar, ih]
  simp only [hdot, matchstar_iff, Fits, true_or, implies_true, true_and]

/-- The matcher is right: it finds a piece of the text that the pattern reads, one at the
    beginning if the pattern starts with `^`. -/
theorem matchRe_iff_reads (re text : List UInt8) : matchRe re text = true ↔
    ∃ before s after, text = before ++ (s ++ after) ∧ (re.head? = some CARET → before = []) ∧
      Reads (items (body re)) s after := by
  have hfrom : re.head? ≠ some CARET → matchRe re text = matchFrom re text := by
    intro hcaret
    cases re with
    | nil => rfl
    | cons c re => exact if_neg fun hc => hcaret (by rw [hc]; rfl)
  by_cases hcaret : re.head? = some CARET
  · obtain ⟨re, rfl⟩ : ∃ r, re = CARET :: r := ⟨re.tail, (List.cons_head?_tail hcaret).symm⟩
    have hbody : body (CARET :: re) = re := rfl
    have hhere : matchRe (CARET :: re) text = matchhere re text := rfl
    rw [hhere, hbody, matchhere_iff]
    constructor
    · rintro ⟨s, after, rfl, hs⟩
      exact ⟨[], s, after, rfl, fun _ => rfl, hs⟩
    · rintro ⟨before, s, after, rfl, hbefore, hs⟩
      rw [hbefore hcaret]
      exact ⟨s, after, rfl, hs⟩
  · have hbody : body re = re := if_neg hcaret
    rw [hfrom hcaret, hbody, matchFrom_iff]
    constructor
    · rintro ⟨before, rest, rfl, hrest⟩
      obtain ⟨s, after, rfl, hs⟩ := (matchhere_iff _ _).mp hrest
      exact ⟨before, s, after, rfl, fun h => absurd h hcaret, hs⟩
    · rintro ⟨before, s, after, rfl, -, hs⟩
      exact ⟨before, s ++ after, rfl, (matchhere_iff _ _).mpr ⟨s, after, rfl, hs⟩⟩

/-! ### Lines -/

/-- The lines of an input, each with its newline, which the last one may lack. -/
def lines : List UInt8 → List (List UInt8)
  | [] => []
  | c :: s =>
    if c = NEWLINE then [c] :: lines s
    else match lines s with
      | [] => [[c]]
      | l :: ls => (c :: l) :: ls

/-- A line matches, its newline left away. -/
def hit (pattern l : List UInt8) : Bool := matchRe pattern (l.takeWhile (· ≠ NEWLINE))

/-- The lines that match, one after the other. -/
def matching (pattern : List UInt8) (ls : List (List UInt8)) : List UInt8 :=
  (ls.filter (hit pattern)).flatten

/-- The line has a newline and fits into the buffer, with a zero behind it. -/
def whole (l : List UInt8) : Bool := l.getLast? = some NEWLINE && l.length < BUFSIZE

theorem lines_newline {l : List UInt8} (hl : NEWLINE ∉ l) (s : List UInt8) :
    lines (l ++ NEWLINE :: s) = (l ++ [NEWLINE]) :: lines s := by
  induction l with
  | nil => rfl
  | cons c l ih =>
    obtain ⟨hc, hl⟩ := List.ne_and_not_mem_of_not_mem_cons hl
    rw [cons_append, lines, if_neg (Ne.symm hc), ih hl]
    rfl

theorem lines_last {l : List UInt8} (hl : NEWLINE ∉ l) (hne : l ≠ []) : lines l = [l] := by
  induction l with
  | nil => exact absurd rfl hne
  | cons c l ih =>
    obtain ⟨hc, hl⟩ := List.ne_and_not_mem_of_not_mem_cons hl
    rw [lines, if_neg (Ne.symm hc)]
    cases l with
    | nil => rfl
    | cons d l => rw [ih hl (List.cons_ne_nil d l)]

/-- With no newline in a full buffer, or none left to read, nothing more is printed. -/
theorem takeWhile_lines {buf : List UInt8} (hbuf : NEWLINE ∉ buf) {rest : List UInt8}
    (hend : rest = [] ∨ BUFSIZE ≤ buf.length + 1) : (lines (buf ++ rest)).takeWhile whole = [] := by
  by_cases hmem : NEWLINE ∈ rest
  · obtain ⟨l, s, rfl, hl⟩ := List.eq_append_cons_of_mem hmem
    have hlong : whole (buf ++ l ++ [NEWLINE]) = false := by
      rcases hend with hnil | hfull
      · exact absurd hnil (by simp)
      · simp only [whole, List.length_append, List.length_singleton]
        simp
        omega
    rw [← append_assoc, lines_newline (by simp [hbuf, hl]), List.takeWhile_cons_of_neg]
    rw [hlong]
    exact Bool.false_ne_true
  · have hnone : NEWLINE ∉ buf ++ rest := by simp [hbuf, hmem]
    by_cases hnil : buf ++ rest = []
    · rw [hnil]
      rfl
    · rw [lines_last hnone hnil, List.takeWhile_cons_of_neg]
      intro hwhole
      simp only [whole, Bool.and_eq_true, decide_eq_true_eq] at hwhole
      exact hnone (List.mem_of_getLast? hwhole.1)

theorem strchr_none {s : List UInt8} {c : UInt8} (hs : 0 ∉ s) (h : strchr s c = none) : c ∉ s := by
  induction s with
  | nil => exact not_mem_nil
  | cons d s ih =>
    obtain ⟨hd, hs⟩ := List.ne_and_not_mem_of_not_mem_cons hs
    rw [strchr, if_neg (Ne.symm hd)] at h
    split_ifs at h with hc
    exact List.not_mem_cons_of_ne_of_not_mem (Ne.symm hc) (ih hs (Option.map_eq_none_iff.mp h))

theorem strchr_some {s : List UInt8} {c : UInt8} {q : Nat} (h : strchr s c = some q) :
    s.take (q + 1) = s.take q ++ [c] ∧ c ∉ s.take q := by
  induction s generalizing q with
  | nil => cases h
  | cons d s ih =>
    unfold strchr at h
    split_ifs at h with h0 hc
    · cases h
      exact ⟨by rw [hc]; rfl, not_mem_nil⟩
    · obtain ⟨k, hk, rfl⟩ := Option.map_eq_some_iff.mp h
      obtain ⟨heq, hmem⟩ := ih hk
      exact ⟨congrArg (d :: ·) heq, List.not_mem_cons_of_ne_of_not_mem (Ne.symm hc) hmem⟩

/-- The lines in the buffer are dealt with, and what is left is the beginning of one. -/
theorem linesFrom_ok (pattern p s : List UInt8) (hp : 0 ∉ p) (hlen : p.length < BUFSIZE) :
    matching pattern ((lines (p ++ s)).takeWhile whole) = (linesFrom pattern p).1 ++
      matching pattern ((lines ((linesFrom pattern p).2 ++ s)).takeWhile whole) ∧
    NEWLINE ∉ (linesFrom pattern p).2 ∧ (linesFrom pattern p).2 <:+ p := by
  fun_induction linesFrom pattern p with
  | case1 p hq => exact ⟨rfl, strchr_none hp hq, List.suffix_rfl⟩
  | case2 p q hq out left hrun ih =>
    obtain ⟨heq, hline⟩ := strchr_some hq
    have hdrop : p.drop (q + 1) <:+ p := List.drop_suffix ..
    rw [hrun] at ih
    obtain ⟨ih, hnone, hsuffix⟩ := ih (fun h => hp (hdrop.subset h))
      (Nat.lt_of_le_of_lt hdrop.length_le hlen)
    refine ⟨?_, hnone, hsuffix.trans hdrop⟩
    have hwhole : whole (p.take (q + 1)) = true := by
      rw [whole, List.length_take, heq]
      simp
      omega
    have hhit : hit pattern (p.take (q + 1)) = matchRe pattern (p.take q) := by
      rw [hit, heq, List.takeWhile_append_of_pos]
      · simp
      · intro d hd
        simpa using ne_of_mem_of_not_mem hd hline
    have hlines : lines (p ++ s) = p.take (q + 1) :: lines (p.drop (q + 1) ++ s) := by
      conv_lhs => rw [← List.take_append_drop (q + 1) p, heq]
      rw [append_assoc, append_assoc, List.singleton_append, lines_newline hline, heq]
    rw [hlines, List.takeWhile_cons_of_pos hwhole]
    dsimp only
    rw [matching, List.filter_cons, hhit]
    split_ifs
    · rw [List.flatten_cons, append_assoc]
      exact congrArg _ ih
    · exact ih

theorem grepFrom_eq (pattern : List UInt8) (pick : Nat → Nat) (i : Nat) (buf rest : List UInt8)
    (hbuf : NEWLINE ∉ buf) (hlen : buf.length < BUFSIZE) (hzero : 0 ∉ buf ++ rest) :
    grepFrom pattern pick i buf rest =
      matching pattern ((lines (buf ++ rest)).takeWhile whole) := by
  fun_induction grepFrom pattern pick i buf rest with
  | case1 i buf rest n hn =>
    rw [takeWhile_lines hbuf]
    · rfl
    · simp only [n, readSize] at hn
      cases rest with
      | nil => exact .inl rfl
      | cons c rest =>
        simp only [List.length_cons] at hn
        split_ifs at hn <;> omega
  | case2 i buf rest n hn out left hrun ih =>
    have hroom : n ≤ BUFSIZE - buf.length - 1 := by
      simp only [n, readSize]
      split_ifs <;> omega
    have hsplit : buf ++ rest = buf ++ rest.take n ++ rest.drop n := by
      rw [append_assoc, List.take_append_drop]
    rw [hsplit] at hzero ⊢
    have hok := linesFrom_ok pattern (buf ++ rest.take n) (rest.drop n)
      (fun h => hzero (List.mem_append_left _ h)) (by
        rw [List.length_append, List.length_take]
        omega)
    rw [hrun] at hok
    obtain ⟨heq, hnone, hsuffix⟩ := hok
    rw [heq, ih hnone]
    · refine Nat.lt_of_le_of_lt hsuffix.length_le ?_
      rw [List.length_append, List.length_take]
      omega
    · intro h
      rcases List.mem_append.mp h with h | h
      · exact hzero (List.mem_append_left _ (hsuffix.subset h))
      · exact hzero (List.mem_append_right _ h)

theorem matching_eq_nil {pattern : List UInt8} {ls : List (List UInt8)} (hne : ∀ l ∈ ls, l ≠ []) :
    matching pattern ls = [] ↔ ∀ l ∈ ls, hit pattern l = false := by
  rw [matching, List.flatten_eq_nil_iff]
  constructor
  · intro h l hl
    by_contra hhit
    exact hne l hl (h l (List.mem_filter.mpr ⟨hl, by simpa using hhit⟩))
  · intro h l hl
    obtain ⟨hl, hhit⟩ := List.mem_filter.mp hl
    rw [h l hl] at hhit
    cases hhit

theorem ne_nil_of_mem_lines {s l : List UInt8} (hl : l ∈ lines s) : l ≠ [] := by
  induction s with
  | nil => cases hl
  | cons c s ih => grind [lines]

/-- `grep` prints the lines that match up to the first one that is too long for the buffer or
    has no newline, however the input is cut. These are all the lines that match just if that
    one and those after it do not. -/
theorem grep_prints (pattern : List UInt8) (pick : Nat → Nat) (input : List UInt8)
    (hzero : 0 ∉ input) :
    grep pattern pick input = matching pattern ((lines input).takeWhile whole) ∧
    (grep pattern pick input = matching pattern (lines input) ↔
      ∀ l ∈ (lines input).dropWhile whole, hit pattern l = false) := by
  have heq : grep pattern pick input = matching pattern ((lines input).takeWhile whole) :=
    grepFrom_eq pattern pick 0 [] input not_mem_nil (by decide) hzero
  have hall : matching pattern (lines input) =
      matching pattern ((lines input).takeWhile whole) ++
        matching pattern ((lines input).dropWhile whole) := by
    unfold matching
    rw [← List.flatten_append, ← List.filter_append, List.takeWhile_append_dropWhile]
  refine ⟨heq, ?_⟩
  rw [heq, hall, List.self_eq_append_right]
  refine matching_eq_nil fun l hl => ?_
  exact ne_nil_of_mem_lines ((List.dropWhile_sublist whole).subset hl)

/-- One line, in two pieces. -/
theorem grep_one_line : (0 : UInt8) ∉ [97, 10] ∧ grep [97] (fun _ => 1) [97, 10] = [97, 10] := by
  have hzero : (0 : UInt8) ∉ [97, 10] := by decide
  refine ⟨hzero, (grep_prints [97] (fun _ => 1) _ hzero).1.trans ?_⟩
  have hlines : (lines [97, 10]).takeWhile whole = [[97, 10]] := by decide
  have hhit : hit [97] [97, 10] = true := by
    change (matchhere [97] [97] || matchhere [97] []) = true
    simp [matchhere]
  rw [hlines]
  simp [matching, hhit]

/-- The line of an input that does not end in a newline is not printed. -/
theorem grep_loses_last_line : ¬ ∀ pattern pick input, (0 : UInt8) ∉ input →
    grep pattern pick input = matching pattern (lines input) := by
  intro hall
  have hnone : grep [97] (fun _ => 1) [97] = [] :=
    grepFrom_eq [97] (fun _ => 1) 0 [] [97] not_mem_nil (by decide) (by decide)
  have hhit : hit [97] [97] = true := by
    change (matchhere [97] [97] || matchhere [97] []) = true
    simp [matchhere]
  have hline : matching [97] (lines [97]) = [97] := by
    simp [matching, lines, hhit]
  have heq := hall [97] (fun _ => 1) [97] (by decide)
  rw [hnone, hline] at heq
  cases heq

theorem flatten_lines (s : List UInt8) : (lines s).flatten = s := by
  induction s with
  | nil => rfl
  | cons c s ih => grind [lines]

theorem not_mem_dropLast {s l : List UInt8} (hl : l ∈ lines s) : NEWLINE ∉ l.dropLast := by
  induction s generalizing l with
  | nil => cases hl
  | cons c s ih =>
    have hne := @ne_nil_of_mem_lines s
    grind [lines, List.dropLast_cons_of_ne_nil]

theorem lines_flatten {ls : List (List UInt8)}
    (hls : ∀ l ∈ ls, whole l = true ∧ NEWLINE ∉ l.dropLast) : lines ls.flatten = ls := by
  induction ls with
  | nil => rfl
  | cons l ls ih =>
    obtain ⟨⟨hwhole, hline⟩, hls⟩ := List.forall_mem_cons.1 hls
    simp only [whole, Bool.and_eq_true, decide_eq_true_eq] at hwhole
    rw [List.flatten_cons, ← List.dropLast_append_getLast? _ hwhole.1, append_assoc,
      List.singleton_append, lines_newline hline, ih hls]

/-- The output of one `grep` as the input of another: the lines that match both patterns. A
    second one with the same pattern changes nothing. -/
theorem grep_grep (p q : List UInt8) (pick pick' : Nat → Nat) (input : List UInt8)
    (hzero : 0 ∉ input) : grep p pick (grep q pick' input) =
      (((lines input).takeWhile whole).filter fun l => hit p l && hit q l).flatten := by
  have hq : grep q pick' input = matching q ((lines input).takeWhile whole) :=
    grepFrom_eq q pick' 0 [] input not_mem_nil (by decide) hzero
  have hsub : ∀ l ∈ ((lines input).takeWhile whole).filter (hit q), l ∈ lines input ∧ whole l := by
    intro l hl
    have hmem := (List.mem_filter.1 hl).1
    exact ⟨List.takeWhile_subset _ hmem, List.mem_takeWhile_imp hmem⟩
  have hls : ∀ l ∈ ((lines input).takeWhile whole).filter (hit q),
      whole l = true ∧ NEWLINE ∉ l.dropLast :=
    fun l hl => ⟨(hsub l hl).2, not_mem_dropLast (hsub l hl).1⟩
  have hzero' : 0 ∉ grep q pick' input := by
    rw [hq, matching, List.mem_flatten]
    rintro ⟨l, hl, h⟩
    rw [← flatten_lines input] at hzero
    exact hzero (List.mem_flatten.2 ⟨l, (hsub l hl).1, h⟩)
  have hp : grep p pick (grep q pick' input) =
      matching p ((lines (grep q pick' input)).takeWhile whole) :=
    grepFrom_eq p pick 0 [] _ not_mem_nil (by decide) hzero'
  rw [hp, hq, matching, matching, lines_flatten hls,
    List.takeWhile_eq_self_iff.2 fun l hl => (hsub l hl).2, List.filter_filter]

theorem grep_grep_one_line :
    grep [97] (fun _ => 1) (grep [97] (fun _ => 0) [97, 10]) = [97, 10] := by
  rw [grep_grep _ _ _ _ _ (by decide)]
  have hlines : (lines [97, 10]).takeWhile whole = [[97, 10]] := by decide
  have hhit : hit [97] [97, 10] = true := by
    change (matchhere [97] [97] || matchhere [97] []) = true
    simp [matchhere]
  simp [hlines, hhit]

end Xv6.Grep
