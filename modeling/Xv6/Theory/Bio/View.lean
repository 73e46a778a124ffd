import Xv6.Core.Commit

/-!
# The Cache Seen Block by Block

What the buffer cache is for: a program sees each block as last written to its buffer, wherever
that buffer is and whatever has been recycled meanwhile. `View` is the device without buffers:
each block's contents, how many references the program has out on it, and which buffer it holds
the block by, if it does.

`View.Ok` runs a program against a view. A buffer index is an opaque handle here. The text
has to keep to the rules of the cache: only a wanted buffer is acquired, only a held one
is touched or released, and the last reference to a block is dropped only when its
contents are on the disk.

## Theorems

* `View.ok_bind`, `View.ok_bread`, `View.ok_brelse`
-/

namespace Xv6

open Function (update update_self update_of_ne)

/-- The device as a program over blocks sees it. `want` and `drop` are the block
    between the two halves of `bread` and of `brelse`, with its buffer. -/
structure View where
  view : Nat → Block
  refs : Nat → Nat
  held : Nat → Option (Fin NBUF)
  want : Option (Nat × Fin NBUF)
  drop : Option (Nat × Fin NBUF)
  disk : Nat → Block
  log : Log
  issued : List (Nat × Block)

namespace View

/-- No references, and every block shows its disk contents. -/
def fresh (disk : Nat → Block) (log : Log) : View :=
  { view := disk, refs := fun _ => 0, held := fun _ => none, want := none, drop := none
    disk := disk, log := log, issued := [] }

def bget (v : View) (b : Nat) (i : Fin NBUF) : View :=
  { v with refs := update v.refs b (v.refs b + 1), want := some (b, i) }

def acquire (v : View) (b : Nat) (i : Fin NBUF) : View :=
  { v with held := update v.held b (some i), want := none }

/-- After `bread` of block `b` has returned buffer `i`. -/
def get (v : View) (b : Nat) (i : Fin NBUF) : View := (v.bget b i).acquire b i

def unlock (v : View) (b : Nat) (i : Fin NBUF) : View :=
  { v with held := update v.held b none, drop := some (b, i) }

def unref (v : View) (b : Nat) : View :=
  { v with refs := update v.refs b (v.refs b - 1), drop := none }

/-- After `brelse` of buffer `i` of block `b`. -/
def put (v : View) (b : Nat) (i : Fin NBUF) : View := (v.unlock b i).unref b

def store (v : View) (b : Nat) (f : Block → Block) : View :=
  { v with view := update v.view b (f (v.view b)) }

def write (v : View) (b : Nat) : View :=
  { v with
    disk := update v.disk b (v.view b)
    issued := v.issued ++ [(b, v.view b)] }

def pin (v : View) (b : Nat) : View := { v with refs := update v.refs b (v.refs b + 1) }

def unpin (v : View) (b : Nat) : View := { v with refs := update v.refs b (v.refs b - 1) }

/-- Fewer blocks have references than there are buffers. -/
def Room (v : View) : Prop := ∃ l : List Nat, l.length < NBUF ∧ ∀ b, 0 < v.refs b → b ∈ l

section Updates

variable (v : View) {b c : Nat} (i : Fin NBUF)

theorem refs_get_same (b : Nat) : (v.get b i).refs b = v.refs b + 1 := by
  simp only [get, bget, acquire, update_self]

theorem refs_get_of_ne (h : c ≠ b) : (v.get b i).refs c = v.refs c := by
  simp only [get, bget, acquire, update_of_ne h]

theorem held_get_same (b : Nat) : (v.get b i).held b = some i := by
  simp only [get, bget, acquire, update_self]

theorem held_get_of_ne (h : c ≠ b) : (v.get b i).held c = v.held c := by
  simp only [get, bget, acquire, update_of_ne h]

theorem refs_put_same (b : Nat) : (v.put b i).refs b = v.refs b - 1 := by
  simp only [put, unlock, unref, update_self]

theorem refs_put_of_ne (h : c ≠ b) : (v.put b i).refs c = v.refs c := by
  simp only [put, unlock, unref, update_of_ne h]

theorem held_put_same (b : Nat) : (v.put b i).held b = none := by
  simp only [put, unlock, unref, update_self]

theorem held_put_of_ne (h : c ≠ b) : (v.put b i).held c = v.held c := by
  simp only [put, unlock, unref, update_of_ne h]

end Updates

/-- What a program may do besides using the cache: ways of stopping, writes to the
    disk, blocks it may unpin given what the disk has of them, and log records it may
    leave by setting the header or by finishing a commit. -/
structure Rules where
  stop : Stop → Prop
  write : Nat → Block → Prop
  unpin : Nat → Block → Prop
  log : Log → Prop

/-- Only the ways of stopping are restricted. -/
def Rules.stopping (R : Stop → Prop) : Rules :=
  { stop := R, write := fun _ _ => True, unpin := fun _ _ => True, log := fun _ => True }

/-- One piece run against a view. -/
def OpOk (ρ : Rules) (v : View) : (o : BOp) → (o.Ret → View → Prop) → Prop
  | .bget b, K => v.want = none ∧ v.held b = none ∧
      (v.refs b = 0 → ¬ v.Room → ρ.stop (.panic .bgetNoBuffers)) ∧ ∀ i, K i (v.bget b i)
  | .acquire i, K => ∃ b, v.want = some (b, i) ∧ v.held b = none ∧ K () (v.acquire b i)
  | .load i, K => ∃ b, v.held b = some i ∧ K (v.view b) v
  | .store i f, K => ∃ b, v.held b = some i ∧ K () (v.store b f)
  | .bwrite i, K => ∃ b, v.held b = some i ∧ ρ.write b (v.view b) ∧ K () (v.write b)
  | .unlock i, K => ∃ b, v.held b = some i ∧ v.drop = none ∧ K () (v.unlock b i)
  | .unref i, K => ∃ b, v.drop = some (b, i) ∧ v.held b = none ∧ v.want = none ∧
      (v.refs b = 1 → v.view b = v.disk b) ∧ K () (v.unref b)
  | .bunpin i, K => ∃ b, v.held b = some i ∧ v.want = none ∧ v.drop = none ∧ 1 < v.refs b ∧
      ρ.unpin b (v.disk b) ∧ K () (v.unpin b)
  | .getLog, K => K v.log v
  | .setLh lh, K => ρ.log { v.log with lh := lh } ∧ K () { v with log := { v.log with lh := lh } }
  | .beginOp, K => ∃ l, v.log.beginOp = some l ∧ K () { v with log := l }
  | .endOp, K => match v.log.endOp with
    | .ok (l, c) => K c { v with log := l }
    | .error e => ρ.stop (.panic e)
  | .finish, K => ρ.log { v.log with committing := false } ∧
      K () { v with log := { v.log with committing := false } }
  | .logWrite i, K => ∃ b, v.held b = some i ∧ match v.log.logWrite b with
    | .ok (l, true) => K () { v.pin b with log := l }
    | .ok (l, false) => K () { v with log := l }
    | .error e => ρ.stop (.panic e)

/-- A program keeps to the rules from a view, and ends in `Q` if it returns. -/
def Ok (ρ : Rules) {α : Type} : BProg α → (α → View → Prop) → View → Prop
  | .ret a, Q, v => Q a v
  | .op o k, Q, v => v.OpOk ρ o fun r v' => Ok ρ (k r) Q v'

section Rules

variable {ρ : Rules} {α β : Type} {v : View} {b : Nat} {i : Fin NBUF}

theorem OpOk.mono {o : BOp} {K K' : o.Ret → View → Prop} (h : v.OpOk ρ o K)
    (hk : ∀ r v', K r v' → K' r v') : v.OpOk ρ o K' := by
  cases o with
  | bget b => exact ⟨h.1, h.2.1, h.2.2.1, fun i => hk _ _ (h.2.2.2 i)⟩
  | acquire i => exact h.imp fun b hb => ⟨hb.1, hb.2.1, hk _ _ hb.2.2⟩
  | load i => exact h.imp fun b hb => ⟨hb.1, hk _ _ hb.2⟩
  | store i f => exact h.imp fun b hb => ⟨hb.1, hk _ _ hb.2⟩
  | bwrite i => exact h.imp fun b hb => ⟨hb.1, hb.2.1, hk _ _ hb.2.2⟩
  | unlock i => exact h.imp fun b hb => ⟨hb.1, hb.2.1, hk _ _ hb.2.2⟩
  | unref i =>
    exact h.imp fun b hb => ⟨hb.1, hb.2.1, hb.2.2.1, hb.2.2.2.1, hk _ _ hb.2.2.2.2⟩
  | bunpin i =>
    exact h.imp fun b hb =>
      ⟨hb.1, hb.2.1, hb.2.2.1, hb.2.2.2.1, hb.2.2.2.2.1, hk _ _ hb.2.2.2.2.2⟩
  | getLog => exact hk _ _ h
  | setLh lh => exact ⟨h.1, hk _ _ h.2⟩
  | beginOp => exact h.imp fun l hl => ⟨hl.1, hk _ _ hl.2⟩
  | endOp => grind [OpOk]
  | finish => exact ⟨h.1, hk _ _ h.2⟩
  | logWrite i =>
    obtain ⟨b, hb, h⟩ := h
    refine ⟨b, hb, ?_⟩
    cases hl : v.log.logWrite b with
    | ok r =>
      rw [hl] at h
      rcases r with ⟨l, _ | _⟩
      · exact hk _ _ h
      · exact hk _ _ h
    | error e =>
      rw [hl] at h
      exact h

theorem ok_bind {p : BProg β} {f : β → BProg α} {Q : α → View → Prop}
    (h : Ok ρ p (fun c v' => Ok ρ (f c) Q v') v) : Ok ρ (p >>= f) Q v := by
  induction p generalizing v with
  | ret c => exact h
  | op o k ih => exact OpOk.mono h fun r v' h' => ih r h'

theorem ok_getLog {Q : Log → View → Prop} (hq : Q v.log v) : Ok ρ getLog Q v := hq

theorem ok_bread {Q : Fin NBUF → View → Prop} (hwant : v.want = none) (hb : v.held b = none)
    (hr : v.refs b = 0 → ¬ v.Room → ρ.stop (.panic .bgetNoBuffers)) (hq : ∀ i, Q i (v.get b i)) :
    Ok ρ (bread b) Q v :=
  ok_bind ⟨hwant, hb, hr, fun i => ok_bind ⟨b, rfl, hb, hq i⟩⟩

/-- Releasing a block. If this was the last reference the contents have to be on
    the disk, because the buffer may now be recycled. -/
theorem ok_brelse {Q : Unit → View → Prop} (hwant : v.want = none) (hdrop : v.drop = none)
    (hi : v.held b = some i) (hlast : v.refs b = 1 → v.view b = v.disk b)
    (hq : Q () (v.put b i)) : Ok ρ (brelse i) Q v := by
  refine ok_bind ⟨b, hi, hdrop, b, rfl, ?_, hwant, hlast, hq⟩
  simp only [unlock, update_self]

end Rules

end View

end Xv6
