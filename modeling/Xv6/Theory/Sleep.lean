import Xv6.Core.Sleep
import Xv6.Lib.Window

/-!
# Who Sleeps

The monitors of `Core.Sleep`, for all schedules. A sleep lock lets one process in at a time. The
transmit buffer sends the bytes it is given in their order, wherever its counters have wrapped. And
no process is left asleep that could go on.

## Theorems

* `Sleeplock.one_inside`, `Uart.sends_in_order`
-/

namespace Xv6

open Function (update update_self update_of_ne)
open Monitor

namespace Sleeplock

variable {P : Type} [DecidableEq P] {pid : P → Int32} {s : Conf P (Data P) Call}

structure Inv (pid : P → Int32) (d : Data P) : Prop where
  locked : d.locked = true ↔ ∃ p, d.inside p = true
  alone : ∀ p, d.inside p = true → d.pid = pid p ∧ ∀ q, d.inside q = true → q = p

variable {d : Data P}

omit [DecidableEq P] in
theorem inv_free (hfree : d.locked = false) (hnone : ∀ p, d.inside p ≠ true) :
    Inv pid d :=
  ⟨⟨fun hl => absurd (hfree.symm.trans hl) Bool.false_ne_true, fun ⟨p, hp⟩ => absurd hp (hnone p)⟩,
    fun p hp => absurd hp (hnone p)⟩

theorem Inv.acquire (h : Inv pid d) (hfree : d.locked = false) (p : P) :
    Inv pid ((monitor pid).body p .acquiresleep d) := by
  have hnone : ∀ q, d.inside q = false := by
    intro q
    have hq : ¬ d.inside q = true := fun hq => by
      rw [h.locked.2 ⟨q, hq⟩] at hfree
      cases hfree
    exact Bool.eq_false_iff.2 hq
  have hself : ∀ q, update d.inside p true q = true → q = p := by
    intro q hq
    by_contra hne
    rw [update_of_ne hne, hnone] at hq
    cases hq
  refine ⟨⟨fun _ => ⟨p, update_self ..⟩, fun _ => rfl⟩, fun q hq => ?_⟩
  cases hself q hq
  exact ⟨rfl, hself⟩

theorem Inv.release (h : Inv pid d) {p : P} (hp : d.inside p = true) :
    Inv pid ((monitor pid).body p .releasesleep d) := by
  refine inv_free rfl fun q (hq : update d.inside p false q = true) => ?_
  by_cases hne : q = p
  · rw [hne, update_self] at hq
    cases hq
  · rw [update_of_ne hne] at hq
    exact hne ((h.alone p hp).2 q hq)

theorem inv_reach (h : (monitor pid).Reach Fair init s) : Inv pid s.data := by
  refine h.data (inv_free rfl fun _ => Bool.false_ne_true) ?_
  rintro d p (_ | _) hinv hready hwhy
  · exact hinv.acquire (Bool.not_eq_true' _ ▸ hready) p
  · rcases hwhy with hp | ⟨y, hy⟩
    · exact hinv.release hp
    · cases hy

/-- A sleep lock has one process inside at a time, and `holdingsleep` is true for that process only.
    Nobody sleeps while the lock is free. -/
theorem one_inside (hpid : Function.Injective pid) (h : (monitor pid).Reach Fair init s) :
    (∀ p q, s.data.inside p = true → s.data.inside q = true → p = q) ∧
    (∀ p, holdingsleep pid s.data p = true ↔ s.data.inside p = true) ∧
    ∀ p a, s.pc p = .asleep a → ∃ q, s.data.inside q = true := by
  have hinv := inv_reach h
  refine ⟨fun p q hp hq => (hinv.alone q hq).2 p hp, fun p => ⟨fun hp => ?_, fun hp => ?_⟩,
    fun p a ha => ?_⟩
  · rw [holdingsleep, Bool.and_eq_true, beq_iff_eq] at hp
    obtain ⟨q, hq⟩ := hinv.locked.1 hp.1
    rw [(hinv.alone q hq).1] at hp
    rwa [← hpid hp.2]
  · rw [holdingsleep, hinv.locked.2 ⟨p, hp⟩, (hinv.alone p hp).1, beq_self_eq_true]
    rfl
  · have hready := h.asleep (fun q b c x hb hc hw => ?_) ha
    · cases a with
      | acquiresleep => exact hinv.locked.1 (Bool.not_eq_false' _ ▸ hready)
      | releasesleep => cases hready
    · cases b with
      | releasesleep => cases hw
      | acquiresleep =>
        cases c with
        | acquiresleep => exact absurd (hc.symm.trans hb) Bool.false_ne_true
        | releasesleep => cases hc

/-- Process `false` has the lock, and `true` sleeps on it. -/
theorem one_inside_two : ∃ s : Conf Bool (Data Bool) Call,
    s.pc true = .asleep .acquiresleep ∧ ∃ q, s.data.inside q = true := by
  have hrun : (monitor fun p : Bool => if p then 2 else 1).Reach Fair init _ :=
    .step (.step .init (e := .call false .acquiresleep) (fun _ _ h => by cases h; trivial) rfl)
      (e := .call true .acquiresleep) (fun _ _ h => by cases h; trivial) rfl
  exact ⟨_, rfl, (one_inside (fun p q => by cases p <;> cases q <;> decide) hrun).2.2 true _ rfl⟩

end Sleeplock

namespace Uart

variable {P : Type} [DecidableEq P] {d : Data} {c : UInt8} {xs : List UInt8}

/-- The buffer has `xs` in it, and `xs` is what was accepted and not yet sent. -/
structure Holds (d : Data) (xs : List UInt8) : Prop where
  window : Window UART_TX_BUF_SIZE d.buf d.r.toNat xs
  room : xs.length ≤ UART_TX_BUF_SIZE
  count : d.w = d.r + UInt64.ofNat xs.length
  books : d.sent ++ xs = d.accepted

theorem Holds.apart (h : Holds d xs) {n : Nat} (hn : n ≤ UART_TX_BUF_SIZE) :
    d.w = d.r + UInt64.ofNat n ↔ xs.length = n := by
  have hroom := h.room
  have hsize : UART_TX_BUF_SIZE = 32 := rfl
  rw [h.count, UInt64.add_right_inj, ← UInt64.toNat_inj, UInt64.toNat_ofNat', UInt64.toNat_ofNat']
  omega

theorem Holds.store (h : Holds d xs) (hroom : xs.length < UART_TX_BUF_SIZE) :
    Holds (store c d) (xs ++ [c]) := by
  have hcell : d.w.toNat % UART_TX_BUF_SIZE = (d.r.toNat + xs.length) % UART_TX_BUF_SIZE := by
    have hsize : UART_TX_BUF_SIZE = 32 := rfl
    rw [h.count, UInt64.toNat_add, UInt64.toNat_ofNat', hsize]
    omega
  refine ⟨?_, ?_, ?_, ?_⟩
  · simp only [Uart.store, hcell]
    exact h.window.push hroom c
  · rw [List.length_append]
    exact hroom
  · simp only [Uart.store, h.count, List.length_append, List.length_singleton, UInt64.ofNat_add]
    exact UInt64.add_assoc ..
  · simp only [Uart.store, ← h.books, List.append_assoc]

theorem Holds.uartstart (lsr : List Bool) (h : Holds d xs) : ∃ ys, Holds (uartstart lsr d) ys := by
  induction lsr generalizing d xs with
  | nil => exact ⟨xs, h⟩
  | cons idle lsr ih =>
    unfold Uart.uartstart
    split
    · exact ⟨xs, h⟩
    next hgo =>
      -- The oldest byte leaves the buffer.
      cases xs with
      | nil => exact absurd (.inl (h.count.trans (UInt64.add_zero _))) hgo
      | cons x xs =>
        have hpop := h.window.pop
        refine ih (⟨?_, Nat.le_of_succ_le h.room, ?_, ?_⟩ : Holds _ xs)
        · rw [UInt64.toNat_add]
          exact hpop.2.mod (by decide)
        · rw [h.count, List.length_cons, UInt64.ofNat_add, UInt64.add_comm (UInt64.ofNat _),
            ← UInt64.add_assoc]
          rfl
        · rw [hpop.1, List.append_assoc]
          exact h.books

theorem uartstart_busy {lsr : List Bool} (h : d.w = d.r ∨ lsr.head? ≠ some true) :
    uartstart lsr d = d := by
  cases lsr with
  | nil => rfl
  | cons idle lsr =>
    unfold uartstart
    rw [if_pos]
    refine h.imp_right fun hidle => ?_
    cases idle
    · rfl
    · exact absurd rfl hidle

theorem holds_reach {s : Conf P Data Call} (h : (monitor P).Reach (fun _ _ _ => True) init s) :
    ∃ xs, Holds s.data xs := by
  refine h.data (I := fun d => ∃ xs, Holds d xs) ⟨[], .nil, Nat.zero_le _, rfl, rfl⟩ ?_
  rintro d p (⟨c, lsr⟩ | lsr) ⟨xs, hxs⟩ hready -
  · have hlen : xs.length ≠ 32 := fun he =>
      of_decide_eq_true hready ((hxs.apart (Nat.le_refl 32)).2 he)
    exact (hxs.store (Nat.lt_of_le_of_ne hxs.room hlen)).uartstart lsr
  · exact hxs.uartstart lsr

/-- What was written to the register, followed by what is in the buffer, is what `uartputc` was
    given. Writers sleep only while the buffer is full. -/
theorem sends_in_order {s : Conf P Data Call} (h : (monitor P).Reach (fun _ _ _ => True) init s) :
    ∃ xs, Window UART_TX_BUF_SIZE s.data.buf s.data.r.toNat xs ∧
    s.data.sent ++ xs = s.data.accepted ∧
      xs.length ≤ UART_TX_BUF_SIZE ∧ ∀ p a, s.pc p = .asleep a → xs.length = UART_TX_BUF_SIZE := by
  obtain ⟨xs, hxs⟩ := holds_reach h
  refine ⟨xs, hxs.window, hxs.books, hxs.room, fun p a ha => ?_⟩
  have hready := h.asleep (fun q b c d hb hc hw => ?_) ha
  · cases a with
    | uartputc c lsr =>
      exact (hxs.apart (Nat.le_refl 32)).1 (Decidable.of_not_not (of_decide_eq_false hready))
    | uartintr lsr => cases hready
  · cases c with
    | uartintr lsr => cases hc
    | uartputc x lsr =>
      cases b with
      | uartputc y lsr' => exact absurd (hc.symm.trans hb) Bool.false_ne_true
      | uartintr lsr' =>
        have hbusy := Decidable.not_and_iff_not_or_not.1 (of_decide_eq_false hw)
        rw [Decidable.not_not] at hbusy
        simp only [monitor, uartstart_busy hbusy]
        exact hc

/-- Two bytes, the first of which is sent at once. -/
theorem sends_in_order_two : ∃ s : Conf Bool Data Call, s.data.sent = [7] ∧
    ∃ xs, s.data.sent ++ xs = [7, 8] := by
  have hrun : (monitor Bool).Reach (fun _ _ _ => True) init _ :=
    .step (.step .init (e := .call false (.uartputc 7 [true, false])) (fun _ _ _ => trivial) rfl)
      (e := .call true (.uartputc 8 [])) (fun _ _ _ => trivial) rfl
  obtain ⟨xs, -, hbooks, -⟩ := sends_in_order hrun
  exact ⟨_, rfl, xs, hbooks⟩

end Uart

end Xv6
