import Xv6.Core.Parse
import Xv6.Lib.Agree

/-!
# The Grammar of Commands

The syntax of the shell as a grammar over tokens, and a reader for lists of tokens that goes
about it as the parser of `sh.c` does.

`Gram` has one constructor per production, at four levels: simple commands and blocks, pipelines,
commands with `&` behind them, and lists. It counts the words of a simple command: `lo` is the
least number, one for the commands a user means and zero for those the parser accepts.

## Theorems

* `Sh.read_rounds`, `Sh.gram_print`
-/

namespace Xv6.Sh

open List (append_assoc append_nil cons_append length_append length_cons)

variable {W : Type}

/-- Tokens, with the words they spell. -/
inductive Tk (W : Type)
  | bar
  | lparen
  | rparen
  | semi
  | amp
  | redir (op : Redir)
  | word (w : W)

/-! ### The reader -/

/-- `parseredirs` on tokens. -/
def readRedirs (rs : List (Redir × W)) : List (Tk W) → Except Stop (List (Redir × W) × List (Tk W))
  | .redir op :: .word w :: ts => readRedirs (rs ++ [(op, w)]) ts
  | .redir _ :: _ => .error (.panic .missingFile)
  | ts => .ok (rs, ts)

/-- The loop of `parseexec` on tokens. -/
def readItems (argv : List W) (rs : List (Redir × W)) :
    List (Tk W) → Except Stop (List W × List (Redir × W) × List (Tk W))
  | .word w :: ts =>
    if MAXARGS ≤ argv.length + 1 then .error (.panic .tooManyArgs)
    else readItems (argv ++ [w]) rs ts
  | .redir op :: .word w :: ts => readItems argv (rs ++ [(op, w)]) ts
  | .redir _ :: _ => .error (.panic .missingFile)
  | .lparen :: _ => .error (.panic .unexpected)
  | ts => .ok (argv, rs, ts)

/-- What follows the command in a block. -/
def readClose (c : Cmd W) : List (Tk W) → Except Stop (Cmd W × List (Tk W))
  | .rparen :: ts => do
    let (rs, ts) ← readRedirs [] ts
    return (wrap c rs, ts)
  | _ => .error (.panic .missingParen)

/-- `parseexec` on tokens. -/
def readExec (line : List (Tk W) → Except Stop (Cmd W × List (Tk W))) :
    List (Tk W) → Except Stop (Cmd W × List (Tk W))
  | .lparen :: ts => do
    let (c, ts) ← line ts
    readClose c ts
  | ts => do
    let (argv, rs, ts) ← readItems [] [] ts
    return (wrap (.exec argv) rs, ts)

/-- The loop over `&` on tokens. -/
def readAmps (c : Cmd W) : List (Tk W) → Cmd W × List (Tk W)
  | .amp :: ts => readAmps (.back c) ts
  | ts => (c, ts)

mutual

/-- `parseline` on tokens. -/
def readLine : Nat → List (Tk W) → Except Stop (Cmd W × List (Tk W))
  | 0, _ => .error .fuel
  | fuel + 1, ts => do
    let (c, ts) ← readPipe fuel ts
    match readAmps c ts with
    | (c, .semi :: ts) => do
      let (r, ts) ← readLine fuel ts
      return (.list c r, ts)
    | (c, ts) => return (c, ts)

/-- `parsepipe` on tokens. -/
def readPipe : Nat → List (Tk W) → Except Stop (Cmd W × List (Tk W))
  | 0, _ => .error .fuel
  | fuel + 1, ts => do
    let (c, ts) ← readExec (readLine fuel) ts
    match ts with
    | .bar :: ts => do
      let (r, ts) ← readPipe fuel ts
      return (.pipe c r, ts)
    | ts => return (c, ts)

end

/-! ### The grammar -/

/-- A part of a simple command. -/
inductive Item (W : Type)
  | word (w : W)
  | redir (op : Redir) (file : W)

def Item.tokens : Item W → List (Tk W)
  | .word w => [.word w]
  | .redir op file => [.redir op, .word file]

def words (its : List (Item W)) : List W :=
  its.filterMap fun | .word w => some w | .redir _ _ => none

def redirs (its : List (Item W)) : List (Redir × W) :=
  its.filterMap fun | .word _ => none | .redir op file => some (op, file)

/-- What a production makes: a simple command or block, a pipeline, one with `&`, a list. -/
inductive Level
  | exec
  | pipe
  | amp
  | line

/-- The grammar. A simple command has from `lo` to nine words. -/
inductive Gram (lo : Nat) : Level → Cmd W → List (Tk W) → Prop
  | simple (its : List (Item W)) : lo ≤ (words its).length → (words its).length < MAXARGS →
      Gram lo .exec (wrap (.exec (words its)) (redirs its)) (its.flatMap Item.tokens)
  | block {c : Cmd W} {ts : List (Tk W)} (rs : List (Redir × W)) : Gram lo .line c ts →
      Gram lo .exec (wrap c rs)
        (.lparen :: ts ++ .rparen :: rs.flatMap fun r => [.redir r.1, .word r.2])
  | one {c : Cmd W} {ts : List (Tk W)} : Gram lo .exec c ts → Gram lo .pipe c ts
  | pipe {l r : Cmd W} {ts us : List (Tk W)} : Gram lo .exec l ts → Gram lo .pipe r us →
      Gram lo .pipe (.pipe l r) (ts ++ .bar :: us)
  | fore {c : Cmd W} {ts : List (Tk W)} : Gram lo .pipe c ts → Gram lo .amp c ts
  | back {c : Cmd W} {ts : List (Tk W)} : Gram lo .amp c ts → Gram lo .amp (.back c) (ts ++ [.amp])
  | last {c : Cmd W} {ts : List (Tk W)} : Gram lo .amp c ts → Gram lo .line c ts
  | list {l r : Cmd W} {ts us : List (Tk W)} : Gram lo .amp l ts → Gram lo .line r us →
      Gram lo .line (.list l r) (ts ++ .semi :: us)

/-! ### Soundness -/

theorem wrap_append (c : Cmd W) (rs rs' : List (Redir × W)) :
    wrap c (rs ++ rs') = wrap (wrap c rs) rs' := List.foldl_append ..

variable {rs' : List (Redir × W)} {rest ts : List (Tk W)}
  {line : List (Tk W) → Except Stop (Cmd W × List (Tk W))} {c c' : Cmd W} {lo : Nat} {A : Type}

theorem readRedirs_sound (rs : List (Redir × W)) (ts : List (Tk W))
    (h : readRedirs rs ts = .ok (rs', rest)) : ∃ more, rs' = rs ++ more ∧
      ts = (more.flatMap fun r => [.redir r.1, .word r.2]) ++ rest := by
  fun_induction readRedirs rs ts with
  | case1 rs op w ts ih =>
    obtain ⟨more, rfl, rfl⟩ := ih h
    exact ⟨(op, w) :: more, by simp, rfl⟩
  | case2 => cases h
  | case3 rs ts =>
    cases h
    exact ⟨[], by simp, rfl⟩

theorem readItems_sound (argv : List W) (rs : List (Redir × W)) (ts : List (Tk W))
    {argv' : List W}
    (h : readItems argv rs ts = .ok (argv', rs', rest)) (hargv : argv.length < MAXARGS) :
    ∃ its, argv' = argv ++ words its ∧ rs' = rs ++ redirs its ∧ argv'.length < MAXARGS ∧
      ts = its.flatMap Item.tokens ++ rest := by
  fun_induction readItems argv rs ts with
  | case1 => cases h
  | case2 argv rs w ts hroom ih =>
    obtain ⟨its, rfl, rfl, hlt, rfl⟩ := ih h (by simp only [length_append]; simp; omega)
    exact ⟨.word w :: its, by simp [words], by simp [redirs], hlt, rfl⟩
  | case3 argv rs op w ts ih =>
    obtain ⟨its, rfl, rfl, hlt, rfl⟩ := ih h hargv
    exact ⟨.redir op w :: its, by simp [words], by simp [redirs], hlt, rfl⟩
  | case4 => cases h
  | case5 => cases h
  | case6 argv rs ts =>
    cases h
    exact ⟨[], by simp [words], by simp [redirs], hargv, rfl⟩

/-- A reader makes commands of a level. -/
def Sound (lvl : Level) (read : List (Tk W) → Except Stop (Cmd W × List (Tk W))) : Prop :=
  ∀ ts c rest, read ts = .ok (c, rest) → ∃ us, ts = us ++ rest ∧ Gram 0 lvl c us

theorem readExec_sound
    (hline : Sound .line line) : Sound .exec (readExec line) := by
  intro ts c rest h
  unfold readExec at h
  split at h
  · -- a block
    obtain ⟨⟨c', ts'⟩, hin, hclose⟩ := bind_ok h
    obtain ⟨us, rfl, hgram⟩ := hline _ _ _ hin
    unfold readClose at hclose
    dsimp only at hclose
    split at hclose
    · obtain ⟨⟨rs, ts''⟩, hrs, hend⟩ := bind_ok hclose
      obtain ⟨more, rfl, rfl⟩ := readRedirs_sound _ _ hrs
      cases hend
      exact ⟨_, by simp, .block rs hgram⟩
    · cases hclose
  · obtain ⟨⟨argv, rs, ts'⟩, hits, hend⟩ := bind_ok h
    obtain ⟨its, rfl, rfl, hlt, rfl⟩ := readItems_sound _ _ _ hits (Nat.succ_pos 9)
    cases hend
    exact ⟨_, rfl, .simple its (Nat.zero_le _) hlt⟩

theorem readAmps_sound {us : List (Tk W)} (hgram : Gram 0 .amp c us)
    (h : readAmps c ts = (c', rest)) : ∃ vs, ts = vs ++ rest ∧ Gram 0 .amp c' (us ++ vs) := by
  fun_induction readAmps c ts generalizing us with
  | case1 c ts ih =>
    obtain ⟨vs, rfl, hvs⟩ := ih hgram.back h
    exact ⟨.amp :: vs, rfl, by simpa using hvs⟩
  | case2 c ts =>
    cases h
    exact ⟨[], rfl, by simpa using hgram⟩

theorem read_sound (fuel : Nat) :
    Sound (W := W) .line (readLine fuel) ∧ Sound (W := W) .pipe (readPipe fuel) := by
  induction fuel with
  | zero =>
    constructor <;> intro ts c rest h
    · rw [readLine] at h
      cases h
    · rw [readPipe] at h
      cases h
  | succ fuel ih =>
    obtain ⟨hline, hpipe⟩ := ih
    constructor <;> intro ts c rest h
    · rw [readLine] at h
      obtain ⟨⟨c1, ts1⟩, h1, hrest⟩ := bind_ok h
      obtain ⟨us, rfl, hg1⟩ := hpipe _ _ _ h1
      dsimp only at hrest
      split at hrest
      · rename_i c2 ts2 hamps
        obtain ⟨vs, rfl, hg2⟩ := readAmps_sound hg1.fore hamps
        obtain ⟨⟨r, ts3⟩, h3, hend⟩ := bind_ok hrest
        obtain ⟨ws, rfl, hg3⟩ := hline _ _ _ h3
        cases hend
        exact ⟨us ++ vs ++ .semi :: ws, by simp, .list hg2 hg3⟩
      · rename_i c2 ts2 hamps
        obtain ⟨vs, rfl, hg2⟩ := readAmps_sound hg1.fore hamps
        cases hrest
        exact ⟨us ++ vs, by simp, .last hg2⟩
    · rw [readPipe] at h
      obtain ⟨⟨c1, ts1⟩, h1, hrest⟩ := bind_ok h
      obtain ⟨us, rfl, hg1⟩ := readExec_sound hline _ _ _ h1
      dsimp only at hrest
      split at hrest
      · obtain ⟨⟨r, ts3⟩, h3, hend⟩ := bind_ok hrest
        obtain ⟨ws, rfl, hg3⟩ := hpipe _ _ _ h3
        cases hend
        exact ⟨us ++ .bar :: ws, by simp, .pipe hg1 hg3⟩
      · cases hrest
        exact ⟨us, rfl, .one hg1⟩

/-! ### Completeness -/

/-- Tokens that cannot go on with a command of a level. -/
def Tk.ends : Level → Tk W → Bool
  | .exec, .bar => true
  | .exec, .amp => true
  | .exec, .semi => true
  | .pipe, .amp => true
  | .pipe, .semi => true
  | .amp, .semi => true
  | _, .rparen => true
  | _, _ => false

/-- A command of a level ends where `rest` begins. -/
def Follows (lvl : Level) (rest : List (Tk W)) : Prop := ∀ t ∈ rest.head?, t.ends lvl = true

theorem readRedirs_complete (rs more : List (Redir × W))
    (hrest : Follows .exec rest) :
    readRedirs rs ((more.flatMap fun r => [.redir r.1, .word r.2]) ++ rest) =
      .ok (rs ++ more, rest) := by
  induction more generalizing rs with
  | nil =>
    rw [append_nil]
    rcases rest with _ | ⟨t, rest⟩
    · rfl
    · have ht := hrest t rfl
      cases t <;> first | rfl | cases ht
  | cons r more ih =>
    change readRedirs (rs ++ [(r.1, r.2)])
      ((more.flatMap fun r => [.redir r.1, .word r.2]) ++ rest) = _
    rw [ih]
    simp

theorem readItems_complete (argv : List W) (rs : List (Redir × W)) (its : List (Item W))
    (hrest : Follows .exec rest)
    (hmax : argv.length + (words its).length < MAXARGS) :
    readItems argv rs (its.flatMap Item.tokens ++ rest) =
      .ok (argv ++ words its, rs ++ redirs its, rest) := by
  induction its generalizing argv rs with
  | nil =>
    rw [show words ([] : List (Item W)) = [] from rfl,
      show redirs ([] : List (Item W)) = [] from rfl,
      append_nil, append_nil]
    rcases rest with _ | ⟨t, rest⟩
    · rfl
    · have ht := hrest t rfl
      cases t <;> first | rfl | cases ht
  | cons it its ih =>
    cases it with
    | word w =>
      have hw : words (.word w :: its) = w :: words its := rfl
      rw [hw, length_cons] at hmax
      change (if MAXARGS ≤ argv.length + 1 then _ else
        readItems (argv ++ [w]) rs (its.flatMap Item.tokens ++ rest)) = _
      have hlen : (argv ++ [w]).length + (words its).length < MAXARGS := by
        rw [length_append, List.length_singleton]
        omega
      rw [if_neg (by omega), ih _ _ hlen, hw]
      simp [redirs]
    | redir op f =>
      change readItems argv (rs ++ [(op, f)]) (its.flatMap Item.tokens ++ rest) = _
      rw [ih _ _ hmax]
      simp [words, redirs]

/-- What reading a command of each level means: at the level of `&` the reader goes on with every
    `&` there is. -/
def Reads (fuel : Nat) (c : Cmd W) (ts rest : List (Tk W)) : Level → Prop
  | .exec => readExec (readLine fuel) (ts ++ rest) = .ok (c, rest)
  | .pipe => readPipe fuel (ts ++ rest) = .ok (c, rest)
  | .amp => ∃ c0 us, readPipe fuel (ts ++ rest) = .ok (c0, us) ∧ readAmps c0 us = readAmps c rest
  | .line => readLine fuel (ts ++ rest) = .ok (c, rest)

/-- The rounds a level takes, apart from two for each token. -/
def Level.rounds : Level → Nat
  | .exec => 0
  | .pipe => 1
  | .amp => 1
  | .line => 2

/-- The tokens of a command, and what cannot be part of it, are read as the command, given
    rounds enough. -/
theorem read_complete {lvl : Level}
    (h : Gram lo lvl c ts) :
    ∀ rest, Follows (if lvl matches .amp then .pipe else lvl) rest →
      ∀ fuel, 2 * ts.length + lvl.rounds ≤ fuel → Reads fuel c ts rest lvl := by
  induction h with
  | simple its _ hmax =>
    intro rest hrest fuel _
    change readExec _ _ = _
    have hits := readItems_complete [] [] its hrest (by simpa using hmax)
    have hopen : readExec (readLine fuel) (its.flatMap Item.tokens ++ rest) = (do
        let (argv, rs, ts) ← readItems [] [] (its.flatMap Item.tokens ++ rest)
        return (wrap (.exec argv) rs, ts)) := by
      rcases its with _ | ⟨it, its⟩
      · rcases rest with _ | ⟨t, rest⟩
        · rfl
        · have ht := hrest t rfl
          cases t <;> first | rfl | cases ht
      · cases it <;> rfl
    rw [hopen, hits]
    rfl
  | block rs _ ih =>
    intro rest hrest fuel hfuel
    simp only [length_append, length_cons, Level.rounds] at hfuel ih
    rename_i c ts _
    have hin := ih (.rparen :: (rs.flatMap fun r => [.redir r.1, .word r.2]) ++ rest)
      (fun t ht => by cases ht; rfl) fuel (by omega)
    change readLine fuel _ = _ at hin
    change readExec _ _ = _
    rw [cons_append, cons_append, append_assoc, readExec]
    rw [cons_append] at hin ⊢
    rw [hin]
    dsimp only [bind, Except.bind]
    rw [readClose, readRedirs_complete [] rs hrest]
    rfl
  | one _ ih =>
    intro rest hrest fuel hfuel
    simp only [Level.rounds] at hfuel ih
    obtain ⟨fuel, rfl⟩ : ∃ k, fuel = k + 1 := ⟨fuel - 1, by omega⟩
    have hexec := ih rest (fun t ht => by
      have := hrest t ht
      cases t <;> first | rfl | cases this) fuel (by omega)
    change readExec _ _ = _ at hexec
    change readPipe _ _ = _
    rw [readPipe, hexec]
    rcases rest with _ | ⟨t, rest⟩
    · rfl
    · have ht := hrest t rfl
      cases t <;> first | rfl | cases ht
  | pipe _ _ ihl ihr =>
    intro rest hrest fuel hfuel
    simp only [length_append, length_cons, Level.rounds] at hfuel ihl ihr
    obtain ⟨fuel, rfl⟩ : ∃ k, fuel = k + 1 := ⟨fuel - 1, by omega⟩
    rename_i l r ts us _ _
    have hexec := ihl (.bar :: us ++ rest) (fun t ht => by cases ht; rfl) fuel (by omega)
    have hpipe := ihr rest hrest fuel (by omega)
    change readExec _ _ = _ at hexec
    change readPipe _ _ = _ at hpipe
    change readPipe _ _ = _
    rw [append_assoc, readPipe, hexec]
    change (do let (r, ts) ← readPipe fuel (us ++ rest); return (Cmd.pipe l r, ts)) = _
    rw [hpipe]
    rfl
  | fore _ ih =>
    exact fun rest hrest fuel hfuel => ⟨_, _, ih rest hrest fuel hfuel, rfl⟩
  | back _ ih =>
    intro rest hrest fuel hfuel
    simp only [length_append, length_cons, List.length_nil, Level.rounds] at hfuel ih
    rename_i c ts _
    obtain ⟨c0, us, hpipe, hamps⟩ := ih (.amp :: rest) (fun t ht => by cases ht; rfl) fuel
      (by omega)
    refine ⟨c0, us, ?_, hamps⟩
    rw [append_assoc]
    exact hpipe
  | last _ ih =>
    intro rest hrest fuel hfuel
    simp only [Level.rounds] at hfuel ih
    obtain ⟨fuel, rfl⟩ : ∃ k, fuel = k + 1 := ⟨fuel - 1, by omega⟩
    obtain ⟨c0, us, hpipe, hamps⟩ := ih rest (fun t ht => by
      have := hrest t ht
      cases t <;> first | rfl | cases this) fuel (by omega)
    change readLine _ _ = _
    rw [readLine, hpipe]
    dsimp only [bind, Except.bind]
    rw [hamps]
    rcases rest with _ | ⟨t, rest⟩
    · rfl
    · have ht := hrest t rfl
      cases t <;> first | rfl | cases ht
  | list _ _ ihl ihr =>
    intro rest hrest fuel hfuel
    simp only [length_append, length_cons, Level.rounds] at hfuel ihl ihr
    obtain ⟨fuel, rfl⟩ : ∃ k, fuel = k + 1 := ⟨fuel - 1, by omega⟩
    rename_i l r ts us _ _
    obtain ⟨c0, vs, hpipe, hamps⟩ := ihl (.semi :: us ++ rest) (fun t ht => by cases ht; rfl) fuel
      (by omega)
    have hline := ihr rest hrest fuel (by omega)
    change readLine _ _ = _ at hline
    change readLine _ _ = _
    rw [append_assoc, readLine, hpipe]
    dsimp only [bind, Except.bind]
    rw [hamps]
    change (do let (r, ts) ← readLine fuel (us ++ rest); return (Cmd.list l r, ts)) = _
    rw [hline]
    rfl

/-! ### Rounds -/

/-- If it stops, it is with a message about the command. -/
def Refuses {A : Type} (x : Except Stop A) : Prop :=
  ∀ e, x = .error e → ∃ p, e = .panic p ∧ p ≠ .parseblock

theorem Refuses.bind {B : Type} {x : Except Stop A} {f : A → Except Stop B} (hx : Refuses x)
    (hf : ∀ a, x = .ok a → Refuses (f a)) : Refuses (x >>= f) := by
  cases x with
  | error e =>
    rintro e' ⟨⟩
    exact hx e rfl
  | ok a => exact hf a rfl

theorem refuses_ok (a : A) : Refuses (.ok a) := fun _ h => nomatch h

theorem refuses_panic {p : Panic} (hp : p ≠ .parseblock) :
    Refuses (.error (.panic p) : Except Stop A) := by
  rintro e ⟨⟩
  exact ⟨p, rfl, hp⟩

theorem refuses_readRedirs (rs : List (Redir × W)) (ts : List (Tk W)) :
    Refuses (readRedirs rs ts) := by
  fun_induction readRedirs rs ts with
  | case1 rs op w ts ih => exact ih
  | case2 => exact refuses_panic (by decide)
  | case3 => exact refuses_ok _

theorem refuses_readItems (argv : List W) (rs : List (Redir × W)) (ts : List (Tk W)) :
    Refuses (readItems argv rs ts) := by
  fun_induction readItems argv rs ts with
  | case1 => exact refuses_panic (by decide)
  | case2 argv rs w ts hroom ih => exact ih
  | case3 argv rs op w ts ih => exact ih
  | case4 => exact refuses_panic (by decide)
  | case5 => exact refuses_panic (by decide)
  | case6 => exact refuses_ok _

theorem refuses_readExec (hline : ∀ us, us.length < ts.length → Refuses (line us)) :
    Refuses (readExec line ts) := by
  unfold readExec
  split
  · refine (hline _ (Nat.lt_succ_self _)).bind fun a _ => ?_
    unfold readClose
    dsimp only
    split
    · exact (refuses_readRedirs _ _).bind fun _ _ => refuses_ok _
    · exact refuses_panic (by decide)
  · exact (refuses_readItems _ _ _).bind fun _ _ => refuses_ok _

theorem length_readAmps (h : readAmps c ts = (c', rest)) :
    rest.length ≤ ts.length := by
  fun_induction readAmps c ts with
  | case1 c ts ih => exact Nat.le_succ_of_le (ih h)
  | case2 => cases h; exact Nat.le_refl _

theorem read_rounds (fuel : Nat) :
    (∀ ts : List (Tk W), 2 * ts.length + 2 ≤ fuel → Refuses (readLine fuel ts)) ∧
    ∀ ts : List (Tk W), 2 * ts.length + 1 ≤ fuel → Refuses (readPipe fuel ts) := by
  induction fuel with
  | zero => exact ⟨fun ts h => by omega, fun ts h => by omega⟩
  | succ fuel ih =>
    obtain ⟨hline, hpipe⟩ := ih
    constructor <;> intro ts hts
    · rw [readLine]
      refine (hpipe ts (by omega)).bind fun a ha => ?_
      obtain ⟨us, hus, -⟩ := (read_sound fuel).2 _ _ _ ha
      have hlen := congrArg List.length hus
      rw [length_append] at hlen
      dsimp only
      split
      · rename_i c2 ts2 hamps
        have hamps' := length_readAmps hamps
        rw [length_cons] at hamps'
        exact (hline ts2 (by omega)).bind fun _ _ => refuses_ok _
      · exact refuses_ok _
    · rw [readPipe]
      refine (refuses_readExec fun us hus => hline us (by omega)).bind fun a ha => ?_
      obtain ⟨us, hus, -⟩ := readExec_sound (read_sound fuel).1 _ _ _ ha
      have hlen := congrArg List.length hus
      rw [length_append] at hlen
      dsimp only
      split
      · rename_i ts2 heq
        rw [heq, length_cons] at hlen
        exact (hpipe ts2 (by omega)).bind fun _ _ => refuses_ok _
      · exact refuses_ok _

/-! ### Printing -/

/-- Parentheses, if they are needed. -/
def paren (needed : Bool) (ts : List (Tk W)) : List (Tk W) :=
  if needed then .lparen :: ts ++ [.rparen] else ts

/-- The tokens of a tree where a command of a level can stand. -/
def print : Level → Cmd W → List (Tk W)
  | _, .exec argv => argv.map .word
  | _, .redir c op file => print .exec c ++ [.redir op, .word file]
  | lvl, .pipe l r => paren (lvl matches .exec) (print .exec l ++ .bar :: print .pipe r)
  | lvl, .back c => paren (lvl matches .exec | .pipe) (print .amp c ++ [.amp])
  | lvl, .list l r => paren (!(lvl matches .line)) (print .amp l ++ .semi :: print .line r)

/-- Every simple command has from one to nine words. -/
def Cmd.Sized : Cmd W → Prop
  | .exec argv => 1 ≤ argv.length ∧ argv.length < MAXARGS
  | .redir c _ _ => c.Sized
  | .pipe l r => l.Sized ∧ r.Sized
  | .list l r => l.Sized ∧ r.Sized
  | .back c => c.Sized

theorem Gram.lift (h : Gram lo .exec c ts) (lvl : Level) :
    Gram lo lvl c ts := by
  cases lvl with
  | exec => exact h
  | pipe => exact h.one
  | amp => exact h.one.fore
  | line => exact h.one.fore.last

theorem Gram.redir (h : Gram lo .exec c ts) (op : Redir)
    (file : W) : Gram lo .exec (.redir c op file) (ts ++ [.redir op, .word file]) := by
  cases h with
  | simple its hlo hmax =>
    have hw : words (its ++ [.redir op file]) = words its := by simp [words]
    have hr : redirs (its ++ [.redir op file]) = redirs its ++ [(op, file)] := by simp [redirs]
    have : Gram lo .exec _ _ := .simple (its ++ [.redir op file]) (by rw [hw]; exact hlo)
      (by rw [hw]; exact hmax)
    rw [hw, hr, wrap_append, List.flatMap_append] at this
    exact this
  | block rs hline =>
    have := Gram.block (rs ++ [(op, file)]) hline
    rw [wrap_append, List.flatMap_append] at this
    rw [append_assoc, cons_append]
    exact this

theorem Gram.paren (h : Gram lo .line c ts) :
    Gram lo .exec c (Sh.paren true ts) := Gram.block [] h

theorem gram_print (h : c.Sized) (lvl : Level) : Gram 1 lvl c (print lvl c) := by
  induction c generalizing lvl with
  | exec argv =>
    have hw : words (argv.map Item.word) = argv := by
      simp [words, List.filterMap_map]
    have hr : redirs (argv.map Item.word) = [] := by simp [redirs, List.filterMap_map]
    have ht : (argv.map Item.word).flatMap Item.tokens = argv.map Tk.word := by
      rw [List.flatMap_map]
      exact (List.map_eq_flatMap ..).symm
    have : Gram 1 .exec _ _ := .simple (argv.map Item.word) (by rw [hw]; exact h.1)
      (by rw [hw]; exact h.2)
    rw [hw, hr, ht] at this
    exact this.lift lvl
  | redir c op file ih => exact ((ih h .exec).redir op file).lift lvl
  | pipe l r ihl ihr =>
    have hg := Gram.pipe (ihl h.1 .exec) (ihr h.2 .pipe)
    cases lvl with
    | exec => exact hg.fore.last.paren
    | pipe => exact hg
    | amp => exact hg.fore
    | line => exact hg.fore.last
  | list l r ihl ihr =>
    have hg := Gram.list (ihl h.1 .amp) (ihr h.2 .line)
    cases lvl with
    | exec => exact hg.paren
    | pipe => exact hg.paren.one
    | amp => exact hg.paren.one.fore
    | line => exact hg
  | back c ih =>
    have hg := (ih h .amp).back
    cases lvl with
    | exec => exact hg.last.paren
    | pipe => exact hg.last.paren.one
    | amp => exact hg
    | line => exact hg.last

end Xv6.Sh
