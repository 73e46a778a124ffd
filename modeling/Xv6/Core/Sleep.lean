import Xv6.Lib.Monitor

/-!
# Calls That Sleep

Two places of the kernel where processes sleep on data behind a spinlock, as monitors: the locks of
`kernel/sleeplock.c`, and the transmit buffer of `kernel/uart.c`. An interrupt handler is a call
that never sleeps. What `uartputc` does after a panic is left out.

`inside`, `accepted` and `sent` are bookkeeping.
-/

namespace Xv6

open Function (update)

namespace Sleeplock

variable {P : Type} [DecidableEq P]

/-- `struct sleeplock`. A process is `inside` between `acquiresleep` and `releasesleep`. -/
structure Data (P : Type) where
  locked : Bool
  pid : Int32
  inside : P → Bool

/-- As `initsleeplock` leaves it. -/
def init : Data P := { locked := false, pid := 0, inside := fun _ => false }

inductive Call
  | acquiresleep
  | releasesleep

/-- The calls of processes that have the numbers `pid`. -/
def monitor (pid : P → Int32) : Monitor P (Data P) Call where
  ready
    | .acquiresleep, d => !d.locked
    | .releasesleep, _ => true
  body
    | p, .acquiresleep, d => { locked := true, pid := pid p, inside := update d.inside p true }
    | p, .releasesleep, d => { locked := false, pid := 0, inside := update d.inside p false }
  wakes
    | .acquiresleep, _ => false
    | .releasesleep, _ => true

def holdingsleep (pid : P → Int32) (d : Data P) (p : P) : Bool := d.locked && d.pid == pid p

/-- Who releases the lock has it. -/
def Fair (d : Data P) (p : P) : Call → Prop
  | .acquiresleep => True
  | .releasesleep => d.inside p = true

end Sleeplock

namespace Uart

abbrev UART_TX_BUF_SIZE : Nat := 32

/-- The transmit buffer. `accepted` are the bytes given to `uartputc`, `sent` those `uartstart`
    wrote to the register. `uartputc_sync`, which writes there too, is left out. -/
structure Data where
  buf : Nat → UInt8
  w : UInt64
  r : UInt64
  accepted : List UInt8
  sent : List UInt8

def init : Data := { buf := fun _ => 0, w := 0, r := 0, accepted := [], sent := [] }

/-- `uartstart`. The line status register says at each look whether it can take a byte, and `lsr`
    are its answers, up to one after which it cannot. -/
def uartstart : List Bool → Data → Data
  | [], d => d
  | idle :: lsr, d =>
    if d.w = d.r ∨ idle = false then d
    else uartstart lsr { d with
      r := d.r + 1
      sent := d.sent ++ [d.buf (d.r.toNat % UART_TX_BUF_SIZE)] }

/-- `uart_tx_buf[uart_tx_w % UART_TX_BUF_SIZE] = c` and `uart_tx_w += 1`. -/
def store (c : UInt8) (d : Data) : Data :=
  { d with
    buf := update d.buf (d.w.toNat % UART_TX_BUF_SIZE) c
    w := d.w + 1
    accepted := d.accepted ++ [c] }

inductive Call
  | uartputc (c : UInt8) (lsr : List Bool)
  /-- The part of `uartintr` that sends. -/
  | uartintr (lsr : List Bool)

/-- `uartstart` calls `wakeup` for each byte that it sends. -/
def monitor (P : Type) : Monitor P Data Call where
  ready
    | .uartputc _ _, d => d.w ≠ d.r + 32
    | .uartintr _, _ => true
  body
    | _, .uartputc c lsr, d => uartstart lsr (store c d)
    | _, .uartintr lsr, d => uartstart lsr d
  wakes
    | .uartputc _ lsr, _ => lsr.head? = some true
    | .uartintr lsr, d => d.w ≠ d.r ∧ lsr.head? = some true

end Uart

end Xv6
