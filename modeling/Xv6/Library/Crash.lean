import Mathlib.Logic.Function.Basic
import Mathlib.Data.List.Basic

/-!
# Crashes in a sequence of atomic writes

A procedure that updates stable storage is modelled by the list of its atomic writes, each a function
of the storage as it is when the write happens. A crash after the first `k` writes leaves
`crashAt ws k s`. A recovery procedure is a function from the storage it finds to the writes it will
issue, and it may itself crash any number of times before one run of it completes: `Recovers`.

Two kinds of lemma carry the proofs of crash safety. `Recovers.induction` reduces a property of every
crash-and-recover history to two facts about one recovery: every prefix of it keeps a predicate, and
its complete run establishes the goal. `run_puts_self` and `run_puts_of_ne` give the storage after a
prefix of a loop of writes to distinct addresses, each of a value read from addresses the loop never
writes, in closed form.
-/

namespace Crash

variable {σ : Type*}

/-- The state after all of the writes `ws`, in order. -/
def run (ws : List (σ → σ)) (s : σ) : σ := ws.foldl (fun s w => w s) s

/-- The state a crash leaves after the first `k` writes of `ws`. -/
def crashAt (ws : List (σ → σ)) (k : Nat) (s : σ) : σ := run (ws.take k) s

@[simp] theorem run_nil (s : σ) : run [] s = s := rfl

@[simp] theorem run_append (ws vs : List (σ → σ)) (s : σ) : run (ws ++ vs) s = run vs (run ws s) := by
  simp [run]

@[simp] theorem run_singleton (w : σ → σ) (s : σ) : run [w] s = w s := rfl

@[simp] theorem crashAt_zero (ws : List (σ → σ)) (s : σ) : crashAt ws 0 s = s := by
  simp [crashAt]

theorem crashAt_length (ws : List (σ → σ)) (s : σ) : crashAt ws ws.length s = run ws s := by
  simp [crashAt]

theorem crashAt_append_of_le {ws vs : List (σ → σ)} {k : Nat} (hk : k ≤ ws.length) (s : σ) :
    crashAt (ws ++ vs) k s = crashAt ws k s := by
  simp [crashAt, List.take_append, Nat.sub_eq_zero_of_le hk]

theorem crashAt_append_add (ws vs : List (σ → σ)) (j : Nat) (s : σ) :
    crashAt (ws ++ vs) (ws.length + j) s = crashAt vs j (run ws s) := by
  simp [crashAt, List.take_append, List.take_of_length_le (Nat.le_add_right ws.length j)]

/-- A recovery procedure `recover` that may crash any number of times takes `s` to `t`: some runs of it
stop after a prefix of their writes, and the last one completes. -/
inductive Recovers (recover : σ → List (σ → σ)) : σ → σ → Prop
  | complete (s : σ) : Recovers recover s (run (recover s) s)
  | crash (s : σ) (k : Nat) {t : σ} (hk : k < (recover s).length) :
      Recovers recover (crashAt (recover s) k s) t → Recovers recover s t

/-- If every crashed run of the recovery keeps `P`, and every complete run from a `P` state
establishes `Q`, then every crash-and-recover history from a `P` state ends in `Q`. -/
theorem Recovers.induction {recover : σ → List (σ → σ)} (P Q : σ → Prop)
    (hcrashed : ∀ s, P s → ∀ k < (recover s).length, P (crashAt (recover s) k s))
    (hcomplete : ∀ s, P s → Q (run (recover s) s)) {s t : σ} (h : Recovers recover s t) (hs : P s) :
    Q t := by
  induction h with
  | complete s => exact hcomplete s hs
  | crash s k hk _ ih => exact ih (hcrashed s hs k hk)

variable {α β : Type*} [DecidableEq α]

/-- One atomic write: address `a` receives `v m`, computed from the storage `m` at the time. -/
def put (a : α) (v : (α → β) → β) (m : α → β) : α → β := Function.update m a (v m)

/-- Iteration `i < n` of a loop that writes `val i` to `addr i`. -/
def puts (addr : Nat → α) (val : Nat → (α → β) → β) (n : Nat) : List ((α → β) → (α → β)) :=
  (List.range n).map fun i => put (addr i) (val i)

section Loop

variable {addr : Nat → α} {val : Nat → (α → β) → β} {n : Nat} {m : α → β}

theorem crashAt_puts (k : Nat) : crashAt (puts addr val n) k m = run (puts addr val (min k n)) m := by
  simp [crashAt, puts, List.take_range, ← List.map_take]

@[simp] theorem length_puts : (puts addr val n).length = n := by
  simp [puts]

theorem run_puts_succ (k : Nat) :
    run (puts addr val (k + 1)) m = put (addr k) (val k) (run (puts addr val k) m) := by
  simp [puts, List.range_succ]

/-- The first `k` iterations leave every address the loop does not write as it was. -/
theorem run_puts_of_ne {k : Nat} {a : α} (ha : ∀ i < k, addr i ≠ a) : run (puts addr val k) m a = m a := by
  induction k with
  | zero => rfl
  | succ k ih =>
    rw [run_puts_succ, put, Function.update_of_ne (ha k (Nat.lt_succ_self k)).symm]
    exact ih fun i hi => ha i (Nat.lt_succ_of_lt hi)

/-- After the first `k` iterations of a loop over distinct addresses, iteration `i < k` has left
`val i m`, provided each value reads only addresses the loop never writes. -/
theorem run_puts_self (hinj : ∀ i < n, ∀ j < n, addr i = addr j → i = j)
    (hread : ∀ i < n, ∀ m', (∀ a, (∀ j < n, addr j ≠ a) → m' a = m a) → val i m' = val i m)
    {k : Nat} (hk : k ≤ n) {i : Nat} (hi : i < k) : run (puts addr val k) m (addr i) = val i m := by
  induction k with
  | zero => omega
  | succ k ih =>
    rw [run_puts_succ, put]
    by_cases hik : i = k
    · -- the value written at iteration `k` is read from storage the first `k` iterations left alone
      subst hik
      rw [Function.update_self]
      apply hread i (by omega)
      intro a ha
      exact run_puts_of_ne fun j hj => ha j (by omega)
    · have hne : addr i ≠ addr k := fun h => hik (hinj i (by omega) k (by omega) h)
      rw [Function.update_of_ne hne]
      exact ih (by omega) (by omega)

end Loop

end Crash
