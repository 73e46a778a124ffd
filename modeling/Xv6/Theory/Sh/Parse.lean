import Xv6.Theory.Sh.Grammar
import Mathlib.Data.List.TakeWhile

/-!
# The Parser and the Grammar

The parser of `sh.c` on a buffer does what the reader of `Grammar` does on the tokens that the
buffer spells.

`Printed ts b` says that the bytes `b` are the texts of the tokens `ts` with enough whitespace
between them: a word ends where the next token begins, and `>` is not followed by another `>`.
`At` says that the rest of the buffer from a position on is printed tokens, and each function of
the parser takes such a position to one that spells what the reader leaves.

## Theorems

* `Sh.parsecmd_round_trip`
-/

namespace Xv6.Sh

open List (append_nil drop_drop getD_eq_getElem length_append length_cons length_drop
  mem_append mem_append_right mem_cons mem_cons_of_mem mem_cons_self not_mem_nil)

variable {b : List UInt8} {t : Tk (List UInt8)} {V U : Type} {W : Type}

/-! ### Tokens as bytes -/

/-- The text of a token. -/
def Tk.text : Tk (List UInt8) → List UInt8
  | .bar => [124]
  | .lparen => [40]
  | .rparen => [41]
  | .semi => [59]
  | .amp => [38]
  | .redir .input => [60]
  | .redir .output => [62]
  | .redir .append => [62, 62]
  | .word w => w

/-- What `gettoken` returns for it. -/
def Tk.tok : Tk (List UInt8) → Tok
  | .bar => .bar
  | .lparen => .lparen
  | .rparen => .rparen
  | .semi => .semi
  | .amp => .amp
  | .redir .input => .lt
  | .redir .output => .gt
  | .redir .append => .plus
  | .word _ => .a

/-- A word: not empty, of characters that are neither whitespace nor symbols. -/
def IsWord (w : List UInt8) : Prop := w ≠ [] ∧ ∀ c ∈ w, c ≠ 0 ∧ inWord c = true

/-- The token is one, and ends where `b` begins. -/
def Tk.Before : Tk (List UInt8) → List UInt8 → Prop
  | .word w, b => IsWord w ∧ ∀ c ∈ b.head?, inWord c = false
  | .redir .output, b => b.head? ≠ some 62
  | _, _ => True

/-- Tokens with whitespace between them. -/
inductive Printed : List (Tk (List UInt8)) → List UInt8 → Prop
  | nil {ws : List UInt8} : (∀ c ∈ ws, whitespace.contains c = true) → Printed [] ws
  | cons {ws b : List UInt8} {t : Tk (List UInt8)} {ts : List (Tk (List UInt8))} :
      (∀ c ∈ ws, whitespace.contains c = true) → t.Before b → Printed ts b →
      Printed (t :: ts) (ws ++ (t.text ++ b))

variable {ts : List (Tk (List UInt8))} {r : V → U → Prop} {c : Cmd V} {d : Cmd U}
  {buf w : List UInt8} {x : Span} {j : Nat}

theorem Printed.first
    (ht : t.Before b) (h : Printed ts b) : Printed (t :: ts) (t.text ++ b) := by
  have hnil : ∀ c ∈ ([] : List UInt8), whitespace.contains c = true :=
    fun c hc => absurd hc not_mem_nil
  exact Printed.cons hnil ht h

theorem text_cons (h : t.Before b) :
    ∃ c r, t.text = c :: r ∧ whitespace.contains c = false ∧ c ≠ 0 := by
  rcases t with _ | _ | _ | _ | _ | (_ | _ | _) | w
  case word =>
    obtain ⟨⟨hne, hw⟩, -⟩ := h
    rcases w with _ | ⟨c, r⟩
    · exact absurd rfl hne
    · obtain ⟨hzero, hc⟩ := hw c mem_cons_self
      refine ⟨c, r, rfl, ?_, hzero⟩
      unfold inWord at hc
      simp only [Bool.and_eq_true, Bool.not_eq_true'] at hc
      exact hc.1
  all_goals exact ⟨_, _, rfl, by decide, by decide⟩

theorem Printed.length_le (h : Printed ts b) :
    ts.length ≤ b.length := by
  induction h with
  | nil => exact Nat.zero_le _
  | cons _ ht _ ih =>
    obtain ⟨c, r, htext, -⟩ := text_cons ht
    rw [htext]
    simp only [length_cons, length_append]
    omega

theorem Printed.no_zero (h : Printed ts b) : 0 ∉ b := by
  have hspace : ∀ ws : List UInt8, (∀ c ∈ ws, whitespace.contains c = true) → 0 ∉ ws := by
    intro ws hws hzero
    exact absurd (hws 0 hzero) (by decide)
  induction h with
  | nil hws => exact hspace _ hws
  | @cons ws b t ts hws ht _ ih =>
    intro hmem
    rcases List.mem_append.mp hmem with hmem | hmem
    · exact hspace _ hws hmem
    · rcases List.mem_append.mp hmem with hmem | hmem
      · rcases t with _ | _ | _ | _ | _ | (_ | _ | _) | w
        case word => exact (ht.1.2 0 hmem).1 rfl
        all_goals exact absurd hmem (by decide)
      · exact ih hmem

theorem Printed.space {ws : List UInt8} (h : Printed ts b)
    (hws : ∀ c ∈ ws, whitespace.contains c = true) : Printed ts (ws ++ b) := by
  have hall : ∀ ws' : List UInt8, (∀ c ∈ ws', whitespace.contains c = true) →
      ∀ c ∈ ws ++ ws', whitespace.contains c = true := by
    intro ws' hws' c hc
    rcases List.mem_append.mp hc with hc | hc
    · exact hws c hc
    · exact hws' c hc
  cases h with
  | nil hws' => exact .nil (hall _ hws')
  | cons hws' ht hrest =>
    rw [← List.append_assoc]
    exact .cons (hall _ hws') ht hrest

theorem exists_printed (n : Nat) : ∀ b : List UInt8, b.length ≤ n → 0 ∉ b → ∃ ts, Printed ts b := by
  induction n with
  | zero =>
    intro b hb _
    rw [List.eq_nil_of_length_eq_zero (Nat.le_zero.mp hb)]
    exact ⟨[], .nil fun c hc => absurd hc not_mem_nil⟩
  | succ n ih =>
    intro b hb hzero
    rcases b with _ | ⟨c, b⟩
    · exact ⟨[], .nil fun c hc => absurd hc not_mem_nil⟩
    rw [length_cons] at hb
    have hzero' : 0 ∉ b := fun h => hzero (mem_cons_of_mem c h)
    -- a token of one character
    have hone : ∀ t : Tk (List UInt8), t.text = [c] → t.Before b → ∃ ts, Printed ts (c :: b) := by
      intro t htext ht
      obtain ⟨ts, hts⟩ := ih b (by omega) hzero'
      refine ⟨t :: ts, ?_⟩
      have := hts.first ht
      rwa [htext] at this
    by_cases hspace : whitespace.contains c = true
    · obtain ⟨ts, hts⟩ := ih b (by omega) hzero'
      have hws : ∀ d ∈ [c], whitespace.contains d = true := by
        intro d hd
        rw [List.mem_singleton.mp hd]
        exact hspace
      exact ⟨ts, hts.space hws⟩
    by_cases hsym : symbols.contains c = true
    · have hcases : c = 60 ∨ c = 124 ∨ c = 62 ∨ c = 38 ∨ c = 59 ∨ c = 40 ∨ c = 41 := by
        simpa [symbols] using hsym
      rcases hcases with rfl | rfl | rfl | rfl | rfl | rfl | rfl
      · exact hone (.redir .input) rfl trivial
      · exact hone .bar rfl trivial
      · -- one or two of them
        by_cases htwo : b.head? = some 62
        · rcases b with _ | ⟨d, b⟩
          · cases htwo
          · obtain rfl : d = 62 := Option.some.inj htwo
            rw [length_cons] at hb
            obtain ⟨ts, hts⟩ := ih b (by omega) fun h => hzero' (mem_cons_of_mem _ h)
            exact ⟨.redir .append :: ts, hts.first trivial⟩
        · exact hone (.redir .output) rfl htwo
      · exact hone .amp rfl trivial
      · exact hone .semi rfl trivial
      · exact hone .lparen rfl trivial
      · exact hone .rparen rfl trivial
    -- a word
    have hin : inWord c = true := by
      unfold inWord
      simp only [Bool.not_eq_true] at hspace hsym
      rw [hspace, hsym]
      rfl
    have hsplit := List.takeWhile_append_dropWhile (p := inWord) (l := c :: b)
    have htake : (c :: b).takeWhile inWord = c :: b.takeWhile inWord := by
      rw [List.takeWhile_cons, if_pos hin]
    have hdrop : (c :: b).dropWhile inWord = b.dropWhile inWord := by
      rw [List.dropWhile_cons, if_pos hin]
    obtain ⟨ts, hts⟩ := ih (b.dropWhile inWord)
      (Nat.le_trans (List.dropWhile_sublist inWord).length_le (by omega))
      fun h => hzero' (List.dropWhile_subset _ h)
    refine ⟨.word ((c :: b).takeWhile inWord) :: ts, ?_⟩
    have := hts.first (t := .word ((c :: b).takeWhile inWord)) ?_
    · rwa [← hdrop, Tk.text, hsplit] at this
    · refine ⟨⟨by rw [htake]; exact List.cons_ne_nil _ _, fun d hd => ⟨?_, ?_⟩⟩, fun d hd => ?_⟩
      · rintro rfl
        exact hzero (List.takeWhile_subset _ hd)
      · exact List.mem_takeWhile_imp hd
      · have := List.head?_dropWhile_not inWord b
        rw [Option.mem_def] at hd
        rw [hd] at this
        simpa using this

/-! ### Tokens of a buffer -/

section

variable {buf : List UInt8} {s : Nat} {ts : List (Tk (List UInt8))}

/-- The buffer from `s` on spells the tokens. -/
def At (buf : List UInt8) (s : Nat) (ts : List (Tk (List UInt8))) : Prop :=
  s ≤ buf.length ∧ Printed ts (buf.drop s)

/-- A pair of positions and the word it stands for. -/
def Spells (buf : List UInt8) (x : Span) (w : List UInt8) : Prop :=
  x.2 = x.1 + w.length ∧ IsWord w ∧ ∃ b, buf.drop x.1 = w ++ b ∧ ∀ c ∈ b.head?, inWord c = false

theorem load_eq (hs : s ≤ buf.length) : load buf s = .ok ((buf.drop s).headD 0) := by
  unfold load
  by_cases hlt : s < buf.length
  · rw [if_pos hlt, List.drop_eq_getElem_cons hlt, List.headD_cons, getD_eq_getElem _ _ hlt]
  · obtain rfl : s = buf.length := by omega
    rw [if_neg hlt, if_pos rfl, List.drop_length]
    rfl

variable {rs : List (Redir × Span)} {rs' : List (Redir × List UInt8)}
  {line : Nat → Except Stop (Cmd Span × Nat)}

theorem span_eq {p : UInt8 → Bool} {l : List UInt8} (hdrop : buf.drop s = l ++ b)
    (hl : ∀ c ∈ l, p c = true) (hb : ∀ c ∈ b.head?, p c = false) :
    span buf p s = s + l.length ∧ buf.drop (s + l.length) = b := by
  have htake : (l ++ b).takeWhile p = l := by
    rw [List.takeWhile_append_of_pos hl]
    rcases b with _ | ⟨c, b⟩
    · rw [List.takeWhile_nil, append_nil]
    · rw [List.takeWhile_cons, if_neg (by rw [hb c rfl]; exact Bool.false_ne_true), append_nil]
  refine ⟨by rw [span, hdrop, htake], ?_⟩
  rw [← drop_drop, hdrop, List.drop_left]

theorem skip_ok (h : At buf s ts) : span buf whitespace.contains s ≤ buf.length ∧
    (ts = [] ∧ buf.drop (span buf whitespace.contains s) = [] ∨
      ∃ t ts' b, ts = t :: ts' ∧ buf.drop (span buf whitespace.contains s) = t.text ++ b ∧
        t.Before b ∧ Printed ts' b) := by
  obtain ⟨hs, hp⟩ := h
  have hlen := congrArg List.length (rfl : buf.drop s = buf.drop s)
  rw [length_drop] at hlen
  generalize hd : buf.drop s = d at hp
  cases hp with
  | nil hws =>
    obtain ⟨hspan, hrest⟩ := span_eq (p := whitespace.contains) (l := d) (b := [])
      (by rw [hd, append_nil]) hws (fun c hc => nomatch hc)
    have hdlen : d.length = buf.length - s := by rw [← hd, length_drop]
    rw [hspan]
    exact ⟨by omega, .inl ⟨rfl, hrest⟩⟩
  | @cons ws b t ts' hws ht hrest =>
    obtain ⟨c, r, htext, hc, -⟩ := text_cons ht
    obtain ⟨hspan, hdrop⟩ := span_eq (p := whitespace.contains) hd hws (by
      rw [htext]
      rintro c' ⟨⟩
      exact hc)
    have hdlen : ws.length ≤ buf.length - s := by
      rw [← length_drop, hd, length_append]
      omega
    rw [hspan]
    exact ⟨by omega, .inr ⟨t, ts', b, rfl, hdrop, ht, hrest⟩⟩

theorem At.skip (h : At buf s ts) : At buf (span buf whitespace.contains s) ts := by
  obtain ⟨hs, ⟨rfl, hd⟩ | ⟨t, ts', b, rfl, hd, ht, hp⟩⟩ := skip_ok h
  · refine ⟨hs, ?_⟩
    rw [hd]
    exact .nil fun c hc => absurd hc not_mem_nil
  · refine ⟨hs, ?_⟩
    rw [hd]
    exact hp.first ht

/-- The first token is one of the symbols. -/
def starts (toks : List UInt8) : List (Tk (List UInt8)) → Bool
  | [] => false
  | .word _ :: _ => false
  | t :: _ => toks.contains (t.text.headD 0)

theorem peek_ok (toks : List UInt8) (htoks : toks.all symbols.contains = true) (h : At buf s ts) :
    ∃ s', peek buf s toks = .ok (starts toks ts, s') ∧ At buf s' ts ∧
      (ts = [] ↔ s' = buf.length) := by
  refine ⟨span buf whitespace.contains s, ?_, h.skip, ?_⟩
  · obtain ⟨hs, ⟨rfl, hd⟩ | ⟨t, ts', b, rfl, hd, ht, hp⟩⟩ := skip_ok h
    · unfold peek
      dsimp only
      rw [load_eq hs, hd]
      rfl
    · obtain ⟨c, r, htext, -, hzero⟩ := text_cons ht
      unfold peek
      dsimp only
      rw [load_eq hs, hd, htext]
      change Except.ok (decide (c ≠ 0) && toks.contains c, _) = _
      rw [decide_eq_true hzero, Bool.true_and]
      congr 2
      rcases t with _ | _ | _ | _ | _ | (_ | _ | _) | w
      case word =>
        -- the first character of a word is no symbol
        obtain ⟨-, hin⟩ := ht.1.2 c (by rw [show w = c :: r from htext]; exact mem_cons_self)
        unfold inWord at hin
        simp only [Bool.and_eq_true, Bool.not_eq_true'] at hin
        change toks.contains c = false
        rw [Bool.eq_false_iff]
        intro hmem
        rw [List.all_eq_true.mp htoks c (by simpa using hmem)] at hin
        exact absurd hin.2 (by decide)
      all_goals
        cases htext
        rfl
  · obtain ⟨hs, ⟨rfl, hd⟩ | ⟨t, ts', b, rfl, hd, ht, hp⟩⟩ := skip_ok h
    · have := List.drop_eq_nil_iff.mp hd
      exact ⟨fun _ => by omega, fun _ => rfl⟩
    · obtain ⟨c, r, htext, -, -⟩ := text_cons ht
      refine ⟨fun hnil => (nomatch hnil), fun heq => ?_⟩
      rw [heq, List.drop_length, htext] at hd
      cases hd

theorem classify_ok (hs : s ≤ buf.length) (hd : buf.drop s = t.text ++ b) (ht : t.Before b) :
    classify buf s = .ok (t.tok, s + t.text.length) ∧ buf.drop (s + t.text.length) = b := by
  refine ⟨?_, by rw [← drop_drop, hd, List.drop_left]⟩
  unfold classify
  rw [load_eq hs, hd]
  rcases t with _ | _ | _ | _ | _ | (_ | _ | _) | w
  case word =>
    obtain ⟨⟨hne, hw⟩, hb⟩ := ht
    obtain ⟨hspan, -⟩ := span_eq (p := inWord) (l := w) hd (fun c hc => (hw c hc).2) hb
    rcases w with _ | ⟨c, r⟩
    · exact absurd rfl hne
    · obtain ⟨hzero, hin⟩ := hw c mem_cons_self
      have hsym : ∀ d ∈ symbols, c ≠ d := by
        rintro d hd rfl
        unfold inWord at hin
        simp only [Bool.and_eq_true, Bool.not_eq_true'] at hin
        rw [List.contains_iff_mem.mpr hd] at hin
        exact absurd hin.2 (by decide)
      simp only [symbols, mem_cons, not_mem_nil, or_false, forall_eq_or_imp, forall_eq] at hsym
      change (do
        let c ← Except.ok c
        _ : Except Stop (Tok × Nat)) = _
      simp only [bind, Except.bind, if_neg hzero, if_neg hsym.2.1, if_neg hsym.2.2.2.2.2.1,
        if_neg hsym.2.2.2.2.2.2, if_neg hsym.2.2.2.2.1, if_neg hsym.2.2.2.1, if_neg hsym.1,
        if_neg hsym.2.2.1, hspan]
      rfl
  case redir.output =>
    have hlen : s + 1 ≤ buf.length := by
      have := congrArg List.length hd
      rw [length_drop, length_append] at this
      simp only [Tk.text, List.length_singleton] at this
      omega
    have hd' : buf.drop (s + 1) = b := by rw [← drop_drop, hd]; rfl
    have hne : b.headD 0 ≠ 62 := by
      rcases b with _ | ⟨c, b⟩
      · decide
      · intro h
        exact ht (congrArg some h)
    change (do
      let c ← load buf (s + 1)
      if c = 62 then return (Tok.plus, s + 2) else return (Tok.gt, s + 1)) = _
    rw [load_eq hlen, hd']
    change (if b.headD 0 = 62 then _ else _) = _
    rw [if_neg hne]
    rfl
  case redir.append =>
    have hlen : s + 1 ≤ buf.length := by
      have := congrArg List.length hd
      rw [length_drop, length_append] at this
      simp only [Tk.text, length_cons] at this
      omega
    have hd' : buf.drop (s + 1) = 62 :: b := by rw [← drop_drop, hd]; rfl
    change (do
      let c ← load buf (s + 1)
      if c = 62 then return (Tok.plus, s + 2) else return (Tok.gt, s + 1)) = _
    rw [load_eq hlen, hd']
    rfl
  all_goals rfl

theorem gettoken_nil (h : At buf s []) :
    ∃ x s', gettoken buf s = .ok (.zero, x, s') ∧ At buf s' [] := by
  obtain ⟨hs, ⟨-, hd⟩ | ⟨t, ts', b, hts, -⟩⟩ := skip_ok h
  · refine ⟨(span buf whitespace.contains s, span buf whitespace.contains s), _, ?_, h.skip.skip⟩
    unfold gettoken classify
    dsimp only
    rw [load_eq hs, hd]
    rfl
  · cases hts

theorem gettoken_ok (h : At buf s (t :: ts)) :
    ∃ x s', gettoken buf s = .ok (t.tok, x, s') ∧ At buf s' ts ∧
      ∀ w, t = .word w → Spells buf x w := by
  obtain ⟨hs, ⟨hts, -⟩ | ⟨t', ts', b, hts, hd, ht, hp⟩⟩ := skip_ok h
  · cases hts
  · cases hts
    obtain ⟨hclass, hrest⟩ := classify_ok hs hd ht
    have hat : At buf (span buf whitespace.contains s + t.text.length) ts := by
      refine ⟨?_, by rw [hrest]; exact hp⟩
      have := congrArg List.length hd
      rw [length_drop, length_append] at this
      omega
    refine ⟨(span buf whitespace.contains s, span buf whitespace.contains s + t.text.length), _, ?_,
      hat.skip, ?_⟩
    · unfold gettoken
      dsimp only
      rw [hclass]
      rfl
    · rintro w rfl
      exact ⟨rfl, ht.1, b, hd, ht.2⟩

/-! ### The parser and the reader -/

/-- Two trees of the same shape, with related words. -/
def Cmd.Rel {V U : Type} (r : V → U → Prop) : Cmd V → Cmd U → Prop
  | .exec a, .exec b => List.Forall₂ r a b
  | .redir c op f, .redir c' op' f' => Cmd.Rel r c c' ∧ op = op' ∧ r f f'
  | .pipe c d, .pipe c' d' => Cmd.Rel r c c' ∧ Cmd.Rel r d d'
  | .list c d, .list c' d' => Cmd.Rel r c c' ∧ Cmd.Rel r d d'
  | .back c, .back c' => Cmd.Rel r c c'
  | _, _ => False

/-- The same redirections. -/
def RedirsRel (buf : List UInt8) (rs : List (Redir × Span)) (rs' : List (Redir × List UInt8)) :
    Prop :=
  List.Forall₂ (fun a b => a.1 = b.1 ∧ Spells buf a.2 b.2) rs rs'

theorem wrap_rel {c : Cmd Span}
    {c' : Cmd (List UInt8)} (h : RedirsRel buf rs rs') (hc : c.Rel (Spells buf) c') :
    (wrap c rs).Rel (Spells buf) (wrap c' rs') := by
  induction h generalizing c c' with
  | nil => exact hc
  | cons hr _ ih => exact ih ⟨hc, hr.1, hr.2⟩

theorem forall₂_snoc {r : V → U → Prop} {xs : List V} {ys : List U} {x : V} {y : U}
    (h : List.Forall₂ r xs ys) (hxy : r x y) : List.Forall₂ r (xs ++ [x]) (ys ++ [y]) := by
  induction h with
  | nil => exact .cons hxy .nil
  | cons hab _ ih => exact .cons hab ih

theorem sim_redirsFrom (fuel : Nat) : ∀ {s : Nat} {ts : List (Tk (List UInt8))}
    {rs : List (Redir × Span)} {rs' : List (Redir × List UInt8)},
    At buf s ts → ts.length < fuel → RedirsRel buf rs rs' →
    Agree (fun a b => RedirsRel buf a.1 b.1 ∧ At buf a.2 b.2) (redirsFrom buf fuel rs s)
      (readRedirs rs' ts) := by
  induction fuel with
  | zero => exact fun _ h => absurd h (Nat.not_lt_zero _)
  | succ fuel ih =>
    intro s ts rs rs' h hlen hrs
    obtain ⟨s1, hpeek, h1, -⟩ := peek_ok [60, 62] rfl h
    rw [redirsFrom, hpeek]
    dsimp only [bind, Except.bind]
    rcases ts with _ | ⟨t, ts⟩
    · exact ⟨hrs, h1⟩
    obtain ⟨x, s2, hget, h2, -⟩ := gettoken_ok h1
    rw [hget]
    cases t with
    | redir op =>
      have hstart : starts [60, 62] (.redir op :: ts) = true := by cases op <;> rfl
      rw [if_pos hstart]
      dsimp only
      rcases ts with _ | ⟨t', ts⟩
      · -- nothing behind the symbol
        obtain ⟨y, s3, hget', -⟩ := gettoken_nil h2
        rw [hget']
        rfl
      obtain ⟨y, s3, hget', h3, hword⟩ := gettoken_ok h2
      rw [hget']
      dsimp only
      rcases t' with _ | _ | _ | _ | _ | (_ | _ | _) | w
      case word =>
        have ha : (Tk.word w).tok = .a := rfl
        rw [if_neg (not_not.mpr ha), readRedirs]
        have htok : (Tk.redir op : Tk (List UInt8)).tok.redir y = [(op, y)] := by cases op <;> rfl
        rw [htok]
        refine ih h3 ?_ (forall₂_snoc hrs ⟨rfl, hword w rfl⟩)
        simp only [length_cons] at hlen
        omega
      all_goals rfl
    | _ => exact ⟨hrs, h1⟩

theorem sim_redirs (h : At buf s ts)
    (hrs : RedirsRel buf rs rs') :
    Agree (fun a b => RedirsRel buf a.1 b.1 ∧ At buf a.2 b.2) (parseredirs buf rs s)
      (readRedirs rs' ts) := by
  refine sim_redirsFrom _ h ?_ hrs
  have := h.2.length_le
  rw [length_drop] at this
  omega

theorem readItems_eq (argv : List W) (rs : List (Redir × W)) (ts : List (Tk W)) :
    readItems argv rs ts = (do
      let (rs, ts) ← readRedirs rs ts
      readItems argv rs ts) := by
  fun_induction readRedirs rs ts with
  | case1 rs op w ts ih => rw [readItems, ih]
  | case2 rs op ts hword =>
    rw [readItems]
    · rfl
    · exact fun w us h => hword w us h
  | case3 => rfl

theorem readRedirs_head (rs : List (Redir × W)) (ts : List (Tk W))
    {rs' : List (Redir × W)} {rest : List (Tk W)} (h : readRedirs rs ts = .ok (rs', rest)) :
    rest.length ≤ ts.length ∧ ∀ op us, rest ≠ .redir op :: us := by
  fun_induction readRedirs rs ts with
  | case1 rs op w ts ih =>
    obtain ⟨hlen, hhead⟩ := ih h
    exact ⟨by simp only [length_cons]; omega, hhead⟩
  | case2 => cases h
  | case3 rs ts _ hhead =>
    cases h
    exact ⟨Nat.le_refl _, hhead⟩

theorem sim_argsFrom (fuel : Nat) : ∀ {s : Nat} {ts : List (Tk (List UInt8))}
    {argv : List Span} {argv' : List (List UInt8)} {rs : List (Redir × Span)}
    {rs' : List (Redir × List UInt8)},
    At buf s ts → ts.length < fuel → (∀ op us, ts ≠ .redir op :: us) →
    List.Forall₂ (Spells buf) argv argv' → RedirsRel buf rs rs' →
    Agree (fun a b => List.Forall₂ (Spells buf) a.1 b.1 ∧ RedirsRel buf a.2.1 b.2.1 ∧
        At buf a.2.2 b.2.2) (argsFrom buf fuel argv rs s) (readItems argv' rs' ts) := by
  induction fuel with
  | zero => exact fun _ h => absurd h (Nat.not_lt_zero _)
  | succ fuel ih =>
    intro s ts argv argv' rs rs' h hlen hhead hargv hrs
    obtain ⟨s1, hpeek, h1, -⟩ := peek_ok [124, 41, 38, 59] rfl h
    rw [argsFrom, hpeek]
    dsimp only [bind, Except.bind]
    rcases ts with _ | ⟨t, ts⟩
    · obtain ⟨x, s2, hget, h2⟩ := gettoken_nil h1
      rw [if_neg (by decide), hget]
      exact ⟨hargv, hrs, h2⟩
    obtain ⟨x, s2, hget, h2, hword⟩ := gettoken_ok h1
    rw [hget]
    cases t with
    | redir op => exact absurd rfl (hhead op ts)
    | lparen => rfl
    | word w =>
      have hstart : starts [124, 41, 38, 59] (.word w :: ts) = false := rfl
      have ha : (Tk.word w).tok = .a := rfl
      rw [hstart, if_neg Bool.false_ne_true]
      dsimp only
      rw [ha, if_neg (by decide), if_neg (by decide), readItems, hargv.length_eq]
      split_ifs with hmax
      · rfl
      · rw [readItems_eq]
        refine (sim_redirs h2 hrs).bind fun a b hb hab => ?_
        obtain ⟨hlen', hhead'⟩ := readRedirs_head _ _ hb
        simp only [length_cons] at hlen
        exact ih hab.2 (by omega) hhead' (forall₂_snoc hargv (hword w rfl)) hab.1
    | _ => exact ⟨hargv, hrs, h1⟩

/-- A tree the parser and the reader made, and where they are. -/
def CmdAt (buf : List UInt8) (a : Cmd Span × Nat) (b : Cmd (List UInt8) × List (Tk (List UInt8))) :
    Prop := a.1.Rel (Spells buf) b.1 ∧ At buf a.2 b.2

theorem sim_simple (h : At buf s ts)
    (hstart : starts [40] ts = false) :
    Agree (CmdAt buf) (if starts [40] ts = true then parseblock buf line s else do
        let (rs, s) ← parseredirs buf [] s
        let (argv, rs, s) ← argsFrom buf (buf.length + 1) [] rs s
        return (wrap (.exec argv) rs, s)) (do
      let (argv, rs, ts) ← readItems [] [] ts
      return (wrap (.exec argv) rs, ts)) := by
  rw [hstart, if_neg Bool.false_ne_true, readItems_eq, bind_assoc]
  refine (sim_redirs h .nil).bind fun a b hb hab => ?_
  obtain ⟨-, hhead⟩ := readRedirs_head _ _ hb
  have hlen := hab.2.2.length_le
  rw [length_drop] at hlen
  refine (sim_argsFrom _ hab.2 (by omega) hhead .nil hab.1).bind fun a' b' _ hab' => ?_
  exact ⟨wrap_rel hab'.2.1 hab'.1, hab'.2.2⟩

theorem sim_exec
    {line' : List (Tk (List UInt8)) → Except Stop (Cmd (List UInt8) × List (Tk (List UInt8)))}
    (hline : ∀ s ts, At buf s ts → Agree (CmdAt buf) (line s) (line' ts)) (h : At buf s ts) :
    Agree (CmdAt buf) (parseexec buf line s) (readExec line' ts) := by
  obtain ⟨s1, hpeek, h1, -⟩ := peek_ok [40] rfl h
  rw [parseexec, hpeek]
  dsimp only [bind, Except.bind]
  rcases ts with _ | ⟨t, ts⟩
  · exact sim_simple h1 rfl
  cases t with
  | lparen =>
    have hstart : starts [40] (.lparen :: ts) = true := rfl
    rw [if_pos hstart, parseblock]
    obtain ⟨s2, hpeek', h2, -⟩ := peek_ok [40] rfl h1
    obtain ⟨x, s3, hget, h3, -⟩ := gettoken_ok h2
    rw [hpeek']
    dsimp only [bind, Except.bind]
    rw [hstart, if_neg (by decide), hget]
    refine (hline s3 ts h3).bind fun a b _ hab => ?_
    obtain ⟨c', ts4⟩ := b
    obtain ⟨s5, hclose, h5, -⟩ := peek_ok [41] rfl hab.2
    dsimp only at h5 hclose ⊢
    rw [hclose]
    dsimp only [bind, Except.bind]
    rcases ts4 with _ | ⟨t, ts4⟩
    · rfl
    cases t with
    | rparen =>
      obtain ⟨x, s6, hget', h6, -⟩ := gettoken_ok h5
      have hend : starts [41] (.rparen :: ts4) = true := rfl
      rw [hend, if_neg (by decide), hget', readClose]
      refine (sim_redirs h6 .nil).bind fun a' b' _ hab' => ?_
      exact ⟨wrap_rel hab'.1 hab.1, hab'.2⟩
    | redir op => cases op <;> rfl
    | _ => rfl
  | redir op => exact sim_simple h1 (by cases op <;> rfl)
  | _ => exact sim_simple h1 rfl

theorem sim_ampsFrom (fuel : Nat) : ∀ {s : Nat} {ts : List (Tk (List UInt8))} {c : Cmd Span}
    {c' : Cmd (List UInt8)}, At buf s ts → ts.length < fuel → c.Rel (Spells buf) c' →
    Agree (CmdAt buf) (ampsFrom buf fuel c s) (.ok (readAmps c' ts)) := by
  induction fuel with
  | zero => exact fun _ h => absurd h (Nat.not_lt_zero _)
  | succ fuel ih =>
    intro s ts c c' h hlen hc
    obtain ⟨s1, hpeek, h1, -⟩ := peek_ok [38] rfl h
    rw [ampsFrom, hpeek]
    dsimp only [bind, Except.bind]
    rcases ts with _ | ⟨t, ts⟩
    · exact ⟨hc, h1⟩
    cases t with
    | amp =>
      obtain ⟨x, s2, hget, h2, -⟩ := gettoken_ok h1
      have hstart : starts [38] (.amp :: ts) = true := rfl
      rw [if_pos hstart, hget, readAmps]
      exact ih h2 (by simp only [length_cons] at hlen; omega) hc
    | redir op => cases op <;> exact ⟨hc, h1⟩
    | _ => exact ⟨hc, h1⟩

theorem sim_line (fuel : Nat) :
    (∀ s ts, At buf s ts → Agree (CmdAt buf) (parseline buf fuel s) (readLine fuel ts)) ∧
    ∀ s ts, At buf s ts → Agree (CmdAt buf) (parsepipe buf fuel s) (readPipe fuel ts) := by
  induction fuel with
  | zero =>
    constructor <;> intro s ts _
    · rw [parseline, readLine]
      rfl
    · rw [parsepipe, readPipe]
      rfl
  | succ fuel ih =>
    obtain ⟨hline, hpipe⟩ := ih
    constructor <;> intro s ts h
    · rw [parseline, readLine]
      refine (hpipe s ts h).bind fun a b _ hab => ?_
      have hlen := hab.2.2.length_le
      rw [length_drop] at hlen
      obtain ⟨a', ha', hrel⟩ := (sim_ampsFrom (buf.length + 1) hab.2 (by omega) hab.1).ok_right rfl
      dsimp only
      rw [ha']
      generalize readAmps b.1 b.2 = b' at hrel
      obtain ⟨c', ts'⟩ := b'
      obtain ⟨s1, hpeek, h1, -⟩ := peek_ok [59] rfl hrel.2
      dsimp only [bind, Except.bind] at hpeek h1 ⊢
      rw [hpeek]
      dsimp only
      rcases ts' with _ | ⟨t, ts'⟩
      · exact ⟨hrel.1, h1⟩
      cases t with
      | semi =>
        obtain ⟨x, s2, hget, h2, -⟩ := gettoken_ok h1
        have hstart : starts [59] (.semi :: ts') = true := rfl
        rw [if_pos hstart, hget]
        exact (hline s2 ts' h2).bind fun a2 b2 _ h3 => ⟨⟨hrel.1, h3.1⟩, h3.2⟩
      | redir op => cases op <;> exact ⟨hrel.1, h1⟩
      | _ => exact ⟨hrel.1, h1⟩
    · rw [parsepipe, readPipe]
      refine (sim_exec hline h).bind fun a b _ hab => ?_
      obtain ⟨c', ts'⟩ := b
      obtain ⟨s1, hpeek, h1, -⟩ := peek_ok [124] rfl hab.2
      dsimp only [bind, Except.bind] at hpeek h1 ⊢
      rw [hpeek]
      dsimp only
      rcases ts' with _ | ⟨t, ts'⟩
      · exact ⟨hab.1, h1⟩
      cases t with
      | bar =>
        obtain ⟨x, s2, hget, h2, -⟩ := gettoken_ok h1
        have hstart : starts [124] (.bar :: ts') = true := rfl
        rw [if_pos hstart, hget]
        exact (hpipe s2 ts' h2).bind fun a2 b2 _ h3 => ⟨⟨hab.1, h3.1⟩, h3.2⟩
      | redir op => cases op <;> exact ⟨hab.1, h1⟩
      | _ => exact ⟨hab.1, h1⟩

end

/-! ### Zeros behind the words -/

/-- The words of a tree. -/
def Cmd.leaves {V : Type} : Cmd V → List V
  | .exec argv => argv
  | .redir c _ file => c.leaves ++ [file]
  | .pipe l r => l.leaves ++ r.leaves
  | .list l r => l.leaves ++ r.leaves
  | .back c => c.leaves

/-- A string in memory, up to its zero. -/
def IsStr (m : Nat → UInt8) (q : Nat) (w : List UInt8) : Prop :=
  (∀ j < w.length, m (q + j) = w.getD j 0 ∧ w.getD j 0 ≠ 0) ∧ m (q + w.length) = 0

theorem foldl_zeros (ws : List Span) (m : Nat → UInt8) (x : Nat) :
    ws.foldl (fun m w => Function.update m w.2 0) m x = if x ∈ ws.map Prod.snd then 0 else m x := by
  induction ws generalizing m with
  | nil => rfl
  | cons w ws ih =>
    rw [List.foldl_cons, ih, List.map_cons]
    by_cases hx : x ∈ ws.map Prod.snd
    · rw [if_pos hx, if_pos (mem_cons_of_mem _ hx)]
    · grind [Function.update_apply]

theorem zeros_append (xs ys : List Nat) (x : Nat) (a : UInt8) :
    (if x ∈ ys then 0 else if x ∈ xs then 0 else a) = if x ∈ xs ++ ys then 0 else a := by
  by_cases hy : x ∈ ys
  · rw [if_pos hy, if_pos (mem_append_right xs hy)]
  · rw [if_neg hy]
    refine if_congr ?_ rfl rfl
    rw [mem_append, or_iff_left hy]

theorem nulterminate_eq (c : Cmd Span) (m : Nat → UInt8) (x : Nat) :
    nulterminate c m x = if x ∈ c.leaves.map Prod.snd then 0 else m x := by
  induction c generalizing m with
  | exec argv => exact foldl_zeros argv m x
  | redir c op file ih =>
    change Function.update (nulterminate c m) file.2 0 x = _
    rw [Cmd.leaves, List.map_append, ← zeros_append, ← ih]
    change _ = if x ∈ [file.2] then _ else _
    by_cases he : x = file.2
    · rw [he, Function.update_self, if_pos mem_cons_self]
    · rw [Function.update_of_ne he, if_neg (by rwa [List.mem_singleton])]
  | pipe l r ihl ihr | list l r ihl ihr =>
    change nulterminate r (nulterminate l m) x = _
    rw [ihr, ihl, Cmd.leaves, List.map_append, zeros_append]
  | back c ih => exact ih m

theorem Cmd.Rel.imp {r' : V → U → Prop} (h : c.Rel r d)
    (hr : ∀ x ∈ c.leaves, ∀ y, r x y → r' x y) : c.Rel r' d := by
  induction c generalizing d with
  | exec argv =>
    cases d with
    | exec argv' =>
      change List.Forall₂ r' argv argv'
      change List.Forall₂ r argv argv' at h
      induction h with
      | nil => exact .nil
      | cons hxy _ ih =>
        refine .cons (hr _ mem_cons_self _ hxy) (ih fun x hx => ?_)
        exact hr x (mem_cons_of_mem _ hx)
    | _ => exact h.elim
  | redir c op f ih =>
    cases d with
    | redir d op' f' =>
      refine ⟨ih h.1 fun x hx => hr x (List.mem_append_left _ hx), h.2.1, ?_⟩
      exact hr f (mem_append_right _ (List.mem_singleton.mpr rfl)) f' h.2.2
    | _ => exact h.elim
  | pipe l r ihl ihr =>
    cases d with
    | pipe l' r' =>
      exact ⟨ihl h.1 fun x hx => hr x (List.mem_append_left _ hx),
        ihr h.2 fun x hx => hr x (mem_append_right _ hx)⟩
    | _ => exact h.elim
  | list l r ihl ihr =>
    cases d with
    | list l' r' =>
      exact ⟨ihl h.1 fun x hx => hr x (List.mem_append_left _ hx),
        ihr h.2 fun x hx => hr x (mem_append_right _ hx)⟩
    | _ => exact h.elim
  | back c ih =>
    cases d with
    | back d => exact ih h hr
    | _ => exact h.elim

theorem Cmd.Rel.partner (h : c.Rel r d) :
    ∀ x ∈ c.leaves, ∃ y, r x y := by
  induction c generalizing d with
  | exec argv =>
    cases d with
    | exec argv' =>
      change List.Forall₂ r argv argv' at h
      intro x hx
      change x ∈ argv at hx
      induction h with
      | nil => exact absurd hx not_mem_nil
      | cons hxy _ ih =>
        rcases List.mem_cons.mp hx with rfl | hx
        · exact ⟨_, hxy⟩
        · exact ih hx
    | _ => exact h.elim
  | redir c op f ih =>
    cases d with
    | redir d op' f' =>
      intro x hx
      rcases List.mem_append.mp hx with hx | hx
      · exact ih h.1 x hx
      · rw [List.mem_singleton.mp hx]
        exact ⟨f', h.2.2⟩
    | _ => exact h.elim
  | pipe l r ihl ihr =>
    cases d with
    | pipe l' r' =>
      intro x hx
      rcases List.mem_append.mp hx with hx | hx
      · exact ihl h.1 x hx
      · exact ihr h.2 x hx
    | _ => exact h.elim
  | list l r ihl ihr =>
    cases d with
    | list l' r' =>
      intro x hx
      rcases List.mem_append.mp hx with hx | hx
      · exact ihl h.1 x hx
      · exact ihr h.2 x hx
    | _ => exact h.elim
  | back c ih =>
    cases d with
    | back d => exact ih h
    | _ => exact h.elim

theorem Spells.getD (h : Spells buf x w)
    (hj : j < w.length) : buf.getD (x.1 + j) 0 = w.getD j 0 := by
  obtain ⟨-, -, b, hd, -⟩ := h
  have := congrArg (fun l => l.getD j 0) hd
  simp only [List.getD_eq_getElem?_getD, List.getElem?_drop, List.getElem?_append_left hj] at this
  simpa only [List.getD_eq_getElem?_getD] using this

theorem Spells.not_end {y : Span} {v : List UInt8} (h : Spells buf x w)
    (h' : Spells buf y v) (hj : j < w.length) : x.1 + j ≠ y.2 := by
  intro heq
  have hbyte := h.getD hj
  obtain ⟨-, hw, b, hd, -⟩ := h
  obtain ⟨hend, -, b', hd', hb'⟩ := h'
  have hin := (hw.2 _ (List.getElem_mem hj)).2
  rw [← getD_eq_getElem w 0 hj, ← hbyte, heq, hend] at hin
  -- what is there is the head of what follows the other word
  have hhead : buf.getD (y.1 + v.length) 0 = b'.headD 0 := by
    have := congrArg (fun l => l.getD v.length 0) hd'
    simp only [List.getD_eq_getElem?_getD, List.getElem?_drop,
      List.getElem?_append_right (Nat.le_refl _), Nat.sub_self] at this
    rw [List.getD_eq_getElem?_getD, this]
    cases b' <;> rfl
  rcases b' with _ | ⟨c, b'⟩
  · -- nothing follows it, so there is no such byte
    have hlen := congrArg List.length hd'
    have hlen' := congrArg List.length hd
    rw [length_drop, append_nil] at hlen
    rw [length_drop, length_append] at hlen'
    omega
  · rw [hhead, List.headD_cons, hb' c rfl] at hin
    cases hin

theorem strings {c : Cmd Span} {d : Cmd (List UInt8)}
    (h : c.Rel (Spells buf) d) :
    c.Rel (fun x w => IsStr (nulterminate c fun i => buf.getD i 0) x.1 w) d := by
  refine h.imp fun x hx w hw => ⟨fun j hj => ?_, ?_⟩
  · rw [nulterminate_eq, if_neg]
    · refine ⟨hw.getD hj, ?_⟩
      rw [getD_eq_getElem w 0 hj]
      exact (hw.2.1.2 _ (List.getElem_mem hj)).1
    · intro hmem
      obtain ⟨y, hy, heq⟩ := List.mem_map.mp hmem
      obtain ⟨v, hv⟩ := h.partner y hy
      exact hw.not_end hv hj heq.symm
  · rw [nulterminate_eq, if_pos]
    rw [← hw.1]
    exact List.mem_map_of_mem hx

/-! ### The whole parser -/

theorem parsecmd_eq {s : List UInt8}
    (hp : Printed ts (s.takeWhile (· ≠ 0))) :
    Agree (fun a b => b.2 = [] ∧ a.1.Rel (fun x w => IsStr a.2 x.1 w) b.1) (parsecmd s)
      (do
        let b ← readLine (rounds (s.takeWhile (· ≠ 0)).length) ts
        if b.2 = [] then return b else throw (.panic .leftovers)) := by
  unfold parsecmd
  dsimp only
  generalize s.takeWhile (· ≠ 0) = buf at hp ⊢
  have h0 : At buf 0 ts := ⟨Nat.zero_le _, hp⟩
  refine ((sim_line _).1 0 ts h0).bind fun a b _ hab => ?_
  obtain ⟨s', hpeek, -, hend⟩ := peek_ok [] rfl hab.2
  rw [hpeek]
  dsimp only [bind, Except.bind]
  by_cases hnil : b.2 = []
  · rw [if_neg (not_not.mpr (hend.mp hnil)), if_pos hnil]
    exact ⟨hnil, strings hab.1⟩
  · rw [if_pos fun heq => hnil (hend.mpr heq), if_neg hnil]
    rfl

theorem printed_blanks (h : ∀ w, .word w ∈ ts → IsWord w) :
    Printed ts (ts.flatMap fun t => 32 :: t.text) := by
  have hblank : ∀ c ∈ ([32] : List UInt8), whitespace.contains c = true := by
    intro c hc
    rw [List.mem_singleton.mp hc]
    rfl
  induction ts with
  | nil => exact .nil fun c hc => absurd hc not_mem_nil
  | cons t ts ih =>
    rw [List.flatMap_cons]
    refine Printed.cons hblank ?_ (ih fun w hw => h w (mem_cons_of_mem t hw))
    have hhead : ∀ c ∈ (ts.flatMap fun t => 32 :: t.text).head?, c = 32 := by
      intro c hc
      cases ts with
      | nil => cases hc
      | cons t' ts => exact (Option.some.inj hc).symm
    rcases t with _ | _ | _ | _ | _ | (_ | _ | _) | w
    case word =>
      refine ⟨h w mem_cons_self, fun c hc => ?_⟩
      rw [hhead c hc]
      decide
    case redir.output =>
      intro hc
      exact absurd (hhead 62 hc) (by decide)
    all_goals trivial

theorem word_mem_print {c : Cmd W} {lvl : Level} {w : W} (h : .word w ∈ print lvl c) :
    w ∈ c.leaves := by
  have hparen : ∀ {needed : Bool} {ts : List (Tk W)}, Tk.word w ∈ paren needed ts →
      Tk.word w ∈ ts := by
    intro needed ts hw
    unfold paren at hw
    split_ifs at hw
    · simpa using hw
    · exact hw
  induction c generalizing lvl with
  | exec argv => simpa [print, Cmd.leaves] using h
  | redir c op file ih => grind [print, Cmd.leaves]
  | pipe l r ihl ihr =>
    change _ ∈ paren _ (print .exec l ++ .bar :: print .pipe r) at h
    rw [Cmd.leaves, mem_append]
    rcases List.mem_append.mp (hparen h) with h | h
    · exact .inl (ihl h)
    · exact .inr (ihr (by simpa using h))
  | list l r ihl ihr =>
    change _ ∈ paren _ (print .amp l ++ .semi :: print .line r) at h
    rw [Cmd.leaves, mem_append]
    rcases List.mem_append.mp (hparen h) with h | h
    · exact .inl (ihl h)
    · exact .inr (ihr (by simpa using h))
  | back c ih =>
    change _ ∈ paren _ (print .amp c ++ [.amp]) at h
    rcases List.mem_append.mp (hparen h) with h | h
    · exact ih h
    · exact absurd h (by simp)

theorem takeWhile_string (h : 0 ∉ b) (after : List UInt8) :
    (b ++ 0 :: after).takeWhile (· ≠ 0) = b := by
  rw [List.takeWhile_append_of_pos, List.takeWhile_cons, if_neg (by decide), append_nil]
  intro c hc
  simpa using ne_of_mem_of_not_mem hc h

theorem parse_printed {c : Cmd (List UInt8)}
    {lo : Nat} (hg : Gram lo .line c ts) (hp : Printed ts b) (after : List UInt8) :
    ∃ c' m, parsecmd (b ++ 0 :: after) = .ok (c', m) ∧ c'.Rel (fun x w => IsStr m x.1 w) c := by
  have hb := takeWhile_string hp.no_zero after
  have hspell : Printed ts ((b ++ 0 :: after).takeWhile (· ≠ 0)) := by rwa [hb]
  have hagree := parsecmd_eq hspell
  rw [hb] at hagree
  have hread := read_complete hg [] (fun t ht => nomatch ht) (rounds b.length) (by
    have := hp.length_le
    dsimp only [Level.rounds]
    unfold rounds
    omega)
  change readLine _ (ts ++ []) = .ok (c, []) at hread
  rw [append_nil] at hread
  rw [hread] at hagree
  obtain ⟨a, ha, -, hrel⟩ := hagree.ok_right rfl
  exact ⟨a.1, a.2, ha, hrel⟩

/-- A string that is parsed is tokens of a command, and if it is not parsed there is a message
    about it. -/
theorem parse_total (s : List UInt8) : (∃ c' m c ts, parsecmd s = .ok (c', m) ∧ Gram 0 .line c ts ∧
      Printed ts (s.takeWhile (· ≠ 0)) ∧ c'.Rel (fun x w => IsStr m x.1 w) c) ∨
    ∃ p, parsecmd s = .error (.panic p) ∧ p ≠ .parseblock := by
  obtain ⟨ts, hp⟩ := exists_printed _ (s.takeWhile (· ≠ 0)) (Nat.le_refl _) (by
    intro hmem
    simpa using List.mem_takeWhile_imp hmem)
  have hagree := parsecmd_eq hp
  have hlen := hp.length_le
  have hrefuse : Refuses (do
      let b ← readLine (rounds (s.takeWhile (· ≠ 0)).length) ts
      if b.2 = [] then return b else throw (.panic .leftovers)) := by
    refine ((read_rounds _).1 ts (by unfold rounds; omega)).bind fun b _ => ?_
    by_cases hnil : b.2 = []
    · rw [if_pos hnil]
      exact refuses_ok b
    · rw [if_neg hnil]
      exact refuses_panic (by decide)
  cases hrun : parsecmd s with
  | error e =>
    obtain ⟨p, rfl, hne⟩ := hrefuse e (hagree.error_left hrun)
    exact .inr ⟨p, rfl, hne⟩
  | ok a =>
    obtain ⟨b, hb, hnil, hrel⟩ := hagree.ok_left hrun
    obtain ⟨b', hread, hb'⟩ := bind_ok hb
    have heq : b' = b := by
      split_ifs at hb'
      exact Except.ok.inj hb'
    obtain ⟨us, hus, hgram⟩ := (read_sound _).1 _ _ _ (heq ▸ hread)
    rw [hnil, append_nil] at hus
    exact .inl ⟨a.1, a.2, b.1, ts, rfl, hus ▸ hgram, hp, hrel⟩

/-- Printing and parsing. Every tree with one to nine words to a command has a text, with
    parentheses where they are needed. Whatever its tokens and the whitespace between them,
    `parsecmd` makes the tree of it, with each word a string in memory that ends at a zero. And
    for every string at all `parsecmd` returns, reading nothing behind the terminating zero: it
    panics with a message about the command, or the string is the text of a command, which may be
    one without words. -/
theorem parsecmd_round_trip : (∀ c : Cmd (List UInt8), c.Sized → (∀ w ∈ c.leaves, IsWord w) →
      Gram 1 .line c (print .line c) ∧
      Printed (print .line c) ((print .line c).flatMap fun t => 32 :: t.text) ∧
      ∀ ts b, Gram 1 .line c ts → Printed ts b → ∀ after,
        ∃ c' m, parsecmd (b ++ 0 :: after) = .ok (c', m) ∧ c'.Rel (fun x w => IsStr m x.1 w) c) ∧
    ∀ s, (∃ c' m c ts, parsecmd s = .ok (c', m) ∧ Gram 0 .line c ts ∧
        Printed ts (s.takeWhile (· ≠ 0)) ∧ c'.Rel (fun x w => IsStr m x.1 w) c) ∨
      ∃ p, parsecmd s = .error (.panic p) ∧ p ≠ .parseblock := by
  refine ⟨fun c hsized hwords => ⟨gram_print hsized .line, ?_, ?_⟩, parse_total⟩
  · exact printed_blanks fun w hw => hwords w (word_mem_print hw)
  · exact fun ts b hg hp after => parse_printed hg hp after

end Xv6.Sh
