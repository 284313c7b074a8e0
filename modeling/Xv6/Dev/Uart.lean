import Xv6.Library.CounterRing
import Xv6.Library.Run
import Xv6.Param

/-!
# The UART's transmit side: `uartputc`, `uartstart` and `uartintr`

`uart_tx_buf` is a ring of `UART_TX_BUF_SIZE` bytes with two 64-bit counters: `uart_tx_w` counts the
bytes `uartputc` put in, `uart_tx_r` the bytes `uartstart` gave the holding register. A process whose
`uartputc` finds the ring full sleeps on `&uart_tx_r`, and tests the ring again once `uartstart` has
taken a byte out and woken it. Each critical section of `uart_tx_lock` is one step. What
`uartstart` reads from the line status register is an argument of the step, one reading per turn
of its loop, so every behaviour of the device is covered. The counters are natural numbers: they
would wrap after `2^64` bytes.

Over every interleaving of the processes' calls and the interrupts, the bytes written to the holding
register, followed by those still in the ring, are in order the bytes `uartputc` accepted, and the
ring holds at most its size (`tx_fifo`); and a process sleeps in `uartputc` only while the ring is
full (`tx_no_lost_wakeup`), so the `wakeup` of the next byte sent reaches it.
-/

namespace Xv6.Dev.Uart

open CounterRing Transition

/-- `UART_TX_BUF_SIZE`. -/
def uartTxBufSize : Nat := 32

instance : NeZero uartTxBufSize := ⟨by decide⟩

/-- Where a process is in `uartputc`. -/
inductive Putter
  | idle
  /-- asleep in `sleep(&uart_tx_r, &uart_tx_lock)`, with the byte to put -/
  | sleeping (c : UInt8)
  /-- woken by `wakeup(&uart_tx_r)`, to take the lock and test the ring again -/
  | runnable (c : UInt8)
  /-- in the `for(;;)` after a panic -/
  | spinning
  deriving DecidableEq

structure Uart where
  buf : Fin uartTxBufSize → UInt8
  w : Nat
  r : Nat
  panicked : Bool
  putter : Fin nproc → Putter
  /-- the bytes `uartstart` wrote to `THR`, oldest first -/
  sent : List UInt8
  /-- the bytes `uartputc` put in the ring, oldest first: no variable of `uart.c`, only a record -/
  accepted : List UInt8

/-- `wakeup(&uart_tx_r)`: every process asleep on it becomes runnable. -/
def wakeup (putter : Fin nproc → Putter) : Fin nproc → Putter := fun q =>
  match putter q with
  | .sleeping c => .runnable c
  | x => x

/-- `uartstart()`, with `lsr` the successive readings of `LSR_TX_IDLE`; the device reports busy
once they run out. -/
def uartstart (s : Uart) : List Bool → Uart
  | [] => s
  | idle :: lsr =>
    if s.w = s.r then s
    else if !idle then s
    else
      let c := s.buf (natCell uartTxBufSize s.r)
      uartstart { s with r := s.r + 1, putter := wakeup s.putter, sent := s.sent ++ [c] } lsr

/-- One locked stretch of `uartputc(c)` by process `p`: it spins after a panic, sleeps while the ring
is full, and otherwise puts `c` in and runs `uartstart`. -/
def uartputc (s : Uart) (p : Fin nproc) (c : UInt8) (lsr : List Bool) : Uart :=
  if s.panicked then { s with putter := Function.update s.putter p .spinning }
  else if s.w = s.r + uartTxBufSize then { s with putter := Function.update s.putter p (.sleeping c) }
  else
    uartstart { s with
      buf := Function.update s.buf (natCell uartTxBufSize s.w) c
      w := s.w + 1
      putter := Function.update s.putter p .idle
      accepted := s.accepted ++ [c] } lsr

inductive Event
  /-- process `p` calls `uartputc(c)` -/
  | putc (p : Fin nproc) (c : UInt8) (lsr : List Bool)
  /-- process `p`, woken, takes `uart_tx_lock` again -/
  | retry (p : Fin nproc) (lsr : List Bool)
  /-- the transmit half of `uartintr` -/
  | intr (lsr : List Bool)
  /-- `panic` sets `panicked` -/
  | panic

inductive Step : Uart → Event → Uart → Prop
  | putc {s : Uart} {p : Fin nproc} {c : UInt8} {lsr : List Bool} :
    s.putter p = .idle → Step s (.putc p c lsr) (uartputc s p c lsr)
  | retry {s : Uart} {p : Fin nproc} {c : UInt8} {lsr : List Bool} :
    s.putter p = .runnable c → Step s (.retry p lsr) (uartputc s p c lsr)
  | intr {s : Uart} {lsr : List Bool} : Step s (.intr lsr) (uartstart s lsr)
  | panic {s : Uart} : Step s .panic { s with panicked := true }

/-- The state after `uartinit`: an empty ring, no process in `uartputc`. -/
def init : Uart := ⟨fun _ => 0, 0, 0, false, fun _ => .idle, [], []⟩

/-- Between calls: the counters are at most the ring's size apart, the bytes sent and the bytes
in the ring are those accepted, and a process asleep finds the ring full. -/
structure TxInv (s : Uart) : Prop where
  le : s.r ≤ s.w
  bound : s.w ≤ s.r + uartTxBufSize
  fifo : s.sent ++ natView s.buf s.r s.w = s.accepted
  asleep : ∀ p c, s.putter p = .sleeping c → s.w = s.r + uartTxBufSize

theorem wakeup_ne_sleeping (putter : Fin nproc → Putter) (q : Fin nproc) (c : UInt8) :
    wakeup putter q ≠ .sleeping c := by
  unfold wakeup
  split <;> simp_all

variable {s : Uart}

/-- Each byte `uartstart` sends is the oldest in the ring, and its `wakeup` leaves no process
asleep. -/
theorem TxInv.uartstart (h : TxInv s) (lsr : List Bool) : TxInv (Uart.uartstart s lsr) := by
  induction lsr generalizing s with
  | nil => exact h
  | cons idle lsr ih =>
    unfold Uart.uartstart
    by_cases hempty : s.w = s.r
    · rw [if_pos hempty]
      exact h
    rw [if_neg hempty]
    cases idle
    · exact h
    apply ih
    have hlt : s.r < s.w := lt_of_le_of_ne h.le (Ne.symm hempty)
    refine ⟨hlt, by have := h.bound; dsimp only; omega, ?_, fun q c hq => absurd hq (wakeup_ne_sleeping _ q c)⟩
    rw [← h.fifo, natView_cons hlt, List.append_assoc, List.singleton_append]

theorem TxInv.uartputc (h : TxInv s) (p : Fin nproc) (c : UInt8) (lsr : List Bool) :
    TxInv (Uart.uartputc s p c lsr) := by
  unfold Uart.uartputc
  by_cases hpanic : s.panicked = true
  · rw [if_pos hpanic]
    refine ⟨h.le, h.bound, h.fifo, fun q c' hq => ?_⟩
    by_cases hqp : q = p
    · subst hqp
      simp at hq
    · exact h.asleep q c' (by simpa [hqp] using hq)
  rw [if_neg hpanic]
  by_cases hfull : s.w = s.r + uartTxBufSize
  · -- the ring is full: `p` goes to sleep on it
    rw [if_pos hfull]
    refine ⟨h.le, h.bound, h.fifo, fun q c' hq => ?_⟩
    by_cases hqp : q = p
    · exact hfull
    · exact h.asleep q c' (by simpa [hqp] using hq)
  rw [if_neg hfull]
  apply TxInv.uartstart
  have hroom : s.w - s.r < uartTxBufSize := by have := h.bound; have := h.le; omega
  refine ⟨by dsimp only; have := h.le; omega, by dsimp only; have := h.le; omega, ?_, fun q c' hq => ?_⟩
  · dsimp only
    rw [natView_push h.le hroom, ← List.append_assoc, h.fifo]
  · -- nobody sleeps on a ring that is not full
    by_cases hqp : q = p
    · subst hqp
      simp at hq
    · exact absurd (h.asleep q c' (by simpa [hqp] using hq)) hfull

theorem TxInv.step {t : Uart} {e : Event} (h : TxInv s) (hs : Step s e t) : TxInv t := by
  cases hs with
  | putc _ => exact h.uartputc _ _ _
  | retry _ => exact h.uartputc _ _ _
  | intr => exact h.uartstart _
  | panic => exact ⟨h.le, h.bound, h.fifo, h.asleep⟩

theorem txInv_init : TxInv init := ⟨le_rfl, Nat.zero_le _, by simp [init], fun _ _ h => by cases h⟩

theorem reachable_txInv (hreach : Reachable Step init s) : TxInv s :=
  hreach.invariant TxInv txInv_init fun _ _ _ h hs => h.step hs

/-- No wakeup is lost: in every reachable state a process asleep in `uartputc` finds the ring full,
since `uartputc` sleeps only on a full ring under `uart_tx_lock`, and the `uartstart` that takes a
byte out, under the same lock, wakes every process asleep. -/
theorem tx_no_lost_wakeup :
    ∀ s, Reachable Step init s → ∀ p c, s.putter p = .sleeping c → s.w = s.r + uartTxBufSize := by
  intro s hreach
  exact (reachable_txInv hreach).asleep

theorem tx_no_lost_wakeup_full :
    ∃ s, Reachable Step init s ∧ s.putter 0 = .sleeping 7 ∧ s.w = s.r + uartTxBufSize := by
  -- process `0` puts 32 bytes while the device stays busy, and sleeps on the 33rd
  have hidle : ∀ m < 33, ((fun s => uartputc s 0 7 [])^[m] init).putter 0 = .idle := by decide
  have hreach := @Reachable.iterate _ _ Step init (fun s => uartputc s 0 7 []) (.putc 0 7 []) 33
    fun m hm => Step.putc (hidle m hm)
  have hsleep : ((fun s => uartputc s 0 7 [])^[33] init).putter 0 = .sleeping 7 := by decide
  exact ⟨_, hreach, hsleep, tx_no_lost_wakeup _ hreach 0 7 hsleep⟩

end Xv6.Dev.Uart
