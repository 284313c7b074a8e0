import Xv6.Proc.Table
import Xv6.Library.Owner

/-!
# `scheduler`, `sched`, `yield`, `sleep`, `wakeup` and `kill` on several CPUs

Each of the `NCPU` CPUs runs either its `scheduler` loop or the kernel thread of the process it
switched to; a step is one line of that code that touches shared state, and the CPUs' steps
interleave in any order. A spinlock is a field `owner` (`lk->locked` with `lk->cpu`): `acquire` takes
a step only once the lock is free, and `release` clears it. `swtch` hands `p->lock` from the thread
that took it to the one it switches to, on the same CPU.

The code around `sleep` and `wakeup` is that of their callers: a process takes a condition lock `lk`,
and while the condition of a channel guarded by `lk` is false it sleeps on the channel, or it makes
the condition true and calls `wakeup` on the channel, still holding `lk`. Which lock guards a
channel is the map `lk`; several channels may share one lock, as `pi->nread` and `pi->nwrite` share
`pi->lock`. `kill` is its step on the process it finds.

Over every interleaving from boot:
* each CPU holds exactly the spinlocks its place in the code holds (`lock_discipline`), so no
  `acquire` finds its lock held by its own CPU and no `release` finds it not held, and `sched` is
  called holding `p->lock` and no other spinlock (`sched_holds_only_p_lock`);
* a process is `RUNNING` exactly when one CPU runs it, and no two CPUs run it (`one_cpu_per_process`);
* no wakeup is lost: a process asleep on a channel whose condition is true is still ahead of the
  `wakeup` under way on that channel (`no_lost_wakeup`).
-/

namespace Xv6.Sched

open Transition Xv6.Process

/-- `NCPU`. -/
def ncpu : Nat := 8

instance : NeZero ncpu := ⟨by decide⟩

/-- The spinlocks of the protocol: `proc[p].lock`, and the locks `lk` that guard the conditions
processes sleep for. -/
inductive Lock (μ : Type)
  | proc (p : Fin nproc)
  | lk (m : μ)
  deriving DecidableEq

/-- Where a process's kernel thread is: in `sleep`, `wakeup`, `yield` or `forkret`, or in its caller's
critical section of a condition lock. -/
inductive Pos (κ μ : Type)
  /-- outside these, holding no spinlock -/
  | idle
  /-- holding the condition lock `m` -/
  | crit (m : μ)
  /-- in `wakeup(chan)`, at `proc[i]` -/
  | waking (k : κ) (i : Nat)
  /-- in `sleep`, at `acquire(&p->lock)` -/
  | sleepAcquire (k : κ)
  /-- in `sleep`, holding `p->lock` and `lk`, at `release(lk)` -/
  | sleepRelease (k : κ)
  /-- in `sleep`, at `p->chan = chan; p->state = SLEEPING; sched()` -/
  | sleepSched (k : κ)
  /-- switched out in `sleep`'s `sched` -/
  | sleepOff (k : κ)
  /-- back from `sleep`'s `sched`, at `p->chan = 0; release(&p->lock)` -/
  | sleepTidy (k : κ)
  /-- in `sleep`, at `acquire(lk)` -/
  | sleepReacquire (k : κ)
  /-- in `yield`, holding `p->lock`, at `p->state = RUNNABLE; sched()` -/
  | yieldSched
  /-- switched out in `yield`'s `sched`, or a new process whose first switch enters `forkret` -/
  | yieldOff
  /-- back from `yield`'s `sched`, or in `forkret`, at `release(&p->lock)` -/
  | yieldRelease
  deriving DecidableEq

/-- Where a CPU's `scheduler` is. -/
inductive CpuPos
  /-- at `acquire(&p->lock)` for `proc[i]` -/
  | scan (i : Fin nproc)
  /-- switched to `p`, which runs on the CPU: `c->proc = p` -/
  | run (p : Fin nproc)
  /-- back from `swtch`, holding `p->lock`, at `c->proc = 0; release(&p->lock)` -/
  | back (p : Fin nproc)
  deriving DecidableEq

structure Sys (κ μ : Type) where
  state : Fin nproc → Procstate
  chan : Fin nproc → Option κ
  killed : Fin nproc → Bool
  pos : Fin nproc → Pos κ μ
  /-- the condition of each channel, guarded by its lock -/
  cond : κ → Bool
  owner : Lock μ → Option (Fin ncpu)
  cpu : Fin ncpu → CpuPos

variable {κ μ : Type}

/-- A thread switched out in `sched`. -/
def Pos.Off : Pos κ μ → Prop
  | .sleepOff _ | .yieldOff => True
  | _ => False

/-- Where `swtch` resumes a thread switched out in `sched`. -/
def Pos.resume : Pos κ μ → Pos κ μ
  | .sleepOff k => .sleepTidy k
  | .yieldOff => .yieldRelease
  | x => x

/-- The spinlocks process `p` holds at each place. -/
def Pos.locks (lk : κ → μ) (p : Fin nproc) : Pos κ μ → List (Lock μ)
  | .idle | .sleepOff _ | .sleepReacquire _ | .yieldOff => []
  | .crit m => [.lk m]
  | .waking k _ | .sleepAcquire k => [.lk (lk k)]
  | .sleepRelease k => [.proc p, .lk (lk k)]
  | .sleepSched _ | .sleepTidy _ | .yieldSched | .yieldRelease => [.proc p]

/-- The spinlocks CPU `c` holds at its place in the code: those of the process it runs. -/
def cpuLocks (lk : κ → μ) (s : Sys κ μ) (c : Fin ncpu) : List (Lock μ) :=
  match s.cpu c with
  | .scan _ => []
  | .run p => (s.pos p).locks lk p
  | .back p => [.proc p]

/-- The locks the next step of CPU `c` acquires: `proc[i].lock` in `scheduler`'s scan, and in the
process it runs, `lk`, `p->lock` in `yield` or `q->lock` in `kill` outside these, `proc[i].lock` in
`wakeup`, `p->lock` on entering `sleep` and `lk` on leaving it. -/
def Acquires (lk : κ → μ) (s : Sys κ μ) (c : Fin ncpu) (l : Lock μ) : Prop :=
  match s.cpu c with
  | .scan i => l = .proc i
  | .back _ => False
  | .run p =>
    match s.pos p with
    | .idle => True
    | .waking _ i => ∃ q : Fin nproc, q.val = i ∧ q ≠ p ∧ l = .proc q
    | .sleepAcquire _ => l = .proc p
    | .sleepReacquire k => l = .lk (lk k)
    | _ => False

/-- The lock the next step of CPU `c` releases, where it is not the one the same step took:
`p->lock` after `swtch` returns to `scheduler`, and in the process it runs, `lk` at the end of its
critical section or in `sleep`, and `p->lock` after `sched` returns in `sleep`, `yield` or
`forkret`. -/
def Releases (lk : κ → μ) (s : Sys κ μ) (c : Fin ncpu) (l : Lock μ) : Prop :=
  match s.cpu c with
  | .scan _ => False
  | .back p => l = .proc p
  | .run p =>
    match s.pos p with
    | .crit m => l = .lk m
    | .sleepRelease k => l = .lk (lk k)
    | .sleepTidy _ | .yieldRelease => l = .proc p
    | _ => False

/-- Process `p` is asleep on channel `k`, or about to be, holding `p->lock` after releasing `lk`. -/
def SleepingOn (s : Sys κ μ) (p : Fin nproc) (k : κ) : Prop :=
  s.pos p = .sleepSched k ∨ (s.pos p = .sleepOff k ∧ s.state p = .sleeping)

section Steps

variable [DecidableEq κ] [DecidableEq μ] (lk : κ → μ)

open Function (update)

/-- One step of CPU `c`. -/
inductive Step : Sys κ μ → Fin ncpu → Sys κ μ → Prop
  /-- `scheduler` takes `proc[i].lock`, finds `proc[i]` `RUNNABLE` and switches to it, handing it
  the lock -/
  | schedRun {s : Sys κ μ} {c : Fin ncpu} {i : Fin nproc} :
    s.cpu c = .scan i → s.owner (.proc i) = none → s.state i = .runnable →
    Step s c { s with
      owner := update s.owner (.proc i) (some c), state := update s.state i .running,
      pos := update s.pos i (s.pos i).resume, cpu := update s.cpu c (.run i) }
  /-- `scheduler` takes `proc[i].lock`, finds `proc[i]` not `RUNNABLE` and releases it -/
  | schedSkip {s : Sys κ μ} {c : Fin ncpu} {i : Fin nproc} :
    s.cpu c = .scan i → s.owner (.proc i) = none → s.state i ≠ .runnable →
    Step s c { s with cpu := update s.cpu c (.scan (i + 1)) }
  /-- back from `swtch`: `c->proc = 0; release(&p->lock)` -/
  | schedBack {s : Sys κ μ} {c : Fin ncpu} {p : Fin nproc} :
    s.cpu c = .back p →
    Step s c { s with owner := update s.owner (.proc p) none, cpu := update s.cpu c (.scan (p + 1)) }
  /-- `acquire(lk)` -/
  | acquire {s : Sys κ μ} {c : Fin ncpu} {p : Fin nproc} {m : μ} :
    s.cpu c = .run p → s.pos p = .idle → s.owner (.lk m) = none →
    Step s c { s with owner := update s.owner (.lk m) (some c), pos := update s.pos p (.crit m) }
  /-- `while(!cond) sleep(chan, lk)`: the condition is false, so `sleep` is called -/
  | sleep {s : Sys κ μ} {c : Fin ncpu} {p : Fin nproc} {k : κ} :
    s.cpu c = .run p → s.pos p = .crit (lk k) → s.cond k = false →
    Step s c { s with pos := update s.pos p (.sleepAcquire k) }
  /-- the condition is made false under its lock -/
  | consume {s : Sys κ μ} {c : Fin ncpu} {p : Fin nproc} {k : κ} :
    s.cpu c = .run p → s.pos p = .crit (lk k) →
    Step s c { s with cond := update s.cond k false }
  /-- the condition is made true under its lock, and `wakeup(chan)` is called -/
  | signal {s : Sys κ μ} {c : Fin ncpu} {p : Fin nproc} {k : κ} :
    s.cpu c = .run p → s.pos p = .crit (lk k) →
    Step s c { s with cond := update s.cond k true, pos := update s.pos p (.waking k 0) }
  /-- `release(lk)` -/
  | release {s : Sys κ μ} {c : Fin ncpu} {p : Fin nproc} {m : μ} :
    s.cpu c = .run p → s.pos p = .crit m →
    Step s c { s with owner := update s.owner (.lk m) none, pos := update s.pos p .idle }
  /-- `wakeup` passes over `myproc()` -/
  | wakeupSelf {s : Sys κ μ} {c : Fin ncpu} {p : Fin nproc} {k : κ} :
    s.cpu c = .run p → s.pos p = .waking k p.val →
    Step s c { s with pos := update s.pos p (.waking k (p.val + 1)) }
  /-- `wakeup` takes `proc[q].lock`, makes `proc[q]` `RUNNABLE` if it sleeps on the channel, and
  releases the lock -/
  | wakeupVisit {s : Sys κ μ} {c : Fin ncpu} {p q : Fin nproc} {k : κ} :
    s.cpu c = .run p → s.pos p = .waking k q.val → q ≠ p → s.owner (.proc q) = none →
    Step s c { s with
      state := update s.state q (if s.state q = .sleeping ∧ s.chan q = some k then .runnable else s.state q),
      pos := update s.pos p (.waking k (q.val + 1)) }
  /-- `wakeup` returns to its caller, which holds `lk` -/
  | wakeupDone {s : Sys κ μ} {c : Fin ncpu} {p : Fin nproc} {k : κ} :
    s.cpu c = .run p → s.pos p = .waking k nproc →
    Step s c { s with pos := update s.pos p (.crit (lk k)) }
  /-- `acquire(&p->lock)` in `sleep` -/
  | sleepAcquire {s : Sys κ μ} {c : Fin ncpu} {p : Fin nproc} {k : κ} :
    s.cpu c = .run p → s.pos p = .sleepAcquire k → s.owner (.proc p) = none →
    Step s c { s with owner := update s.owner (.proc p) (some c), pos := update s.pos p (.sleepRelease k) }
  /-- `release(lk)` in `sleep` -/
  | sleepRelease {s : Sys κ μ} {c : Fin ncpu} {p : Fin nproc} {k : κ} :
    s.cpu c = .run p → s.pos p = .sleepRelease k →
    Step s c { s with owner := update s.owner (.lk (lk k)) none, pos := update s.pos p (.sleepSched k) }
  /-- `p->chan = chan; p->state = SLEEPING; sched()`: the switch back to the scheduler -/
  | sleepSched {s : Sys κ μ} {c : Fin ncpu} {p : Fin nproc} {k : κ} :
    s.cpu c = .run p → s.pos p = .sleepSched k →
    Step s c { s with
      chan := update s.chan p (some k), state := update s.state p .sleeping,
      pos := update s.pos p (.sleepOff k), cpu := update s.cpu c (.back p) }
  /-- `p->chan = 0; release(&p->lock)` -/
  | sleepTidy {s : Sys κ μ} {c : Fin ncpu} {p : Fin nproc} {k : κ} :
    s.cpu c = .run p → s.pos p = .sleepTidy k →
    Step s c { s with
      chan := update s.chan p none, owner := update s.owner (.proc p) none,
      pos := update s.pos p (.sleepReacquire k) }
  /-- `acquire(lk)` at the end of `sleep` -/
  | sleepReacquire {s : Sys κ μ} {c : Fin ncpu} {p : Fin nproc} {k : κ} :
    s.cpu c = .run p → s.pos p = .sleepReacquire k → s.owner (.lk (lk k)) = none →
    Step s c { s with owner := update s.owner (.lk (lk k)) (some c), pos := update s.pos p (.crit (lk k)) }
  /-- `acquire(&p->lock)` in `yield` -/
  | yieldAcquire {s : Sys κ μ} {c : Fin ncpu} {p : Fin nproc} :
    s.cpu c = .run p → s.pos p = .idle → s.owner (.proc p) = none →
    Step s c { s with owner := update s.owner (.proc p) (some c), pos := update s.pos p .yieldSched }
  /-- `p->state = RUNNABLE; sched()` -/
  | yieldSched {s : Sys κ μ} {c : Fin ncpu} {p : Fin nproc} :
    s.cpu c = .run p → s.pos p = .yieldSched →
    Step s c { s with
      state := update s.state p .runnable, pos := update s.pos p .yieldOff,
      cpu := update s.cpu c (.back p) }
  /-- `release(&p->lock)` at the end of `yield`, or in `forkret` -/
  | yieldRelease {s : Sys κ μ} {c : Fin ncpu} {p : Fin nproc} :
    s.cpu c = .run p → s.pos p = .yieldRelease →
    Step s c { s with owner := update s.owner (.proc p) none, pos := update s.pos p .idle }
  /-- `kill` takes `proc[q].lock`, sets `killed`, wakes `proc[q]` from `sleep`, and releases the lock -/
  | kill {s : Sys κ μ} {c : Fin ncpu} {p q : Fin nproc} :
    s.cpu c = .run p → s.pos p = .idle → s.owner (.proc q) = none →
    Step s c { s with
      killed := update s.killed q true,
      state := update s.state q (if s.state q = .sleeping then .runnable else s.state q) }

end Steps

/-- Boot: every process `RUNNABLE` with its first switch into `forkret`, every CPU at the top of
`scheduler`'s loop, every lock free. -/
def boot (cond : κ → Bool) : Sys κ μ where
  state _ := .runnable
  chan _ := none
  killed _ := false
  pos _ := .yieldOff
  cond := cond
  owner _ := none
  cpu _ := .scan 0

/-! ## Who runs where -/

/-- Each process runs on the CPU that switched to it and nowhere else, exactly while it is
`RUNNING`; a thread is switched out exactly while it is not, and a scheduler back from `swtch` has
switched it out. `yield` switches out a `RUNNABLE` process; `sleep` one that sleeps on its channel,
until `wakeup` or `kill` makes it `RUNNABLE`. -/
structure Runs (s : Sys κ μ) : Prop where
  running_iff : ∀ p, s.state p = .running ↔ ∃ c, s.cpu c = .run p
  run_unique : ∀ c c' p, s.cpu c = .run p → s.cpu c' = .run p → c = c'
  off_iff : ∀ p, (s.pos p).Off ↔ s.state p ≠ .running
  back_off : ∀ c p, s.cpu c = .back p → (s.pos p).Off
  yieldOff : ∀ p, s.pos p = .yieldOff → s.state p = .runnable
  sleepOff : ∀ p k, s.pos p = .sleepOff k → s.chan p = some k ∧ (s.state p = .sleeping ∨ s.state p = .runnable)

/-- Every sleeper on a channel was tested false under the channel's lock; while its condition is
true, a sleeper is still ahead of the `wakeup` on the channel, which has passed no sleeper. -/
structure Wakeups (s : Sys κ μ) : Prop where
  asleep_false : ∀ p k, (s.pos p = .sleepAcquire k ∨ s.pos p = .sleepRelease k) → s.cond k = false
  woken : ∀ p k, SleepingOn s p k → s.cond k = true → ∃ q i, s.pos q = .waking k i ∧ i ≤ p.val
  visited : ∀ q k i, s.pos q = .waking k i → ∀ p : Fin nproc, p.val < i → ¬ SleepingOn s p k

/-- The invariant: who runs where, the wakeups, and each CPU holding exactly the locks of its place. -/
structure Inv (lk : κ → μ) (s : Sys κ μ) : Prop extends Runs s, Wakeups s where
  exact : Owner.Exact s.owner fun c l => l ∈ cpuLocks lk s c

open Function (update)

variable {s t : Sys κ μ} {c c' : Fin ncpu} {p q : Fin nproc} {x : Pos κ μ} {k : κ}

@[simp] theorem Pos.off_resume (x : Pos κ μ) (hx : x.Off) : ¬ x.resume.Off := by
  cases x <;> simp_all [Pos.Off, Pos.resume]

theorem Pos.locks_resume (lk : κ → μ) (p : Fin nproc) (hx : x.Off) : x.resume.locks lk p = [.proc p] := by
  cases x <;> simp_all [Pos.Off, Pos.resume, Pos.locks]

theorem cpuLocks_run (lk : κ → μ) (hc : s.cpu c = .run p) : cpuLocks lk s c = (s.pos p).locks lk p := by
  simp [cpuLocks, hc]

/-- A CPU's locks read only its own place and that of the process it runs. -/
theorem cpuLocks_congr (lk : κ → μ) (hcpu : t.cpu c = s.cpu c) (hpos : ∀ q, s.cpu c = .run q → t.pos q = s.pos q) :
    cpuLocks lk t c = cpuLocks lk s c := by
  unfold cpuLocks
  rw [hcpu]
  split
  · rfl
  · rename_i q hq
    rw [hpos q hq]
  · rfl

section Runs

variable (h : Runs s)
include h

theorem Runs.not_off (hc : s.cpu c = .run p) : ¬ (s.pos p).Off :=
  fun hoff => (h.off_iff p).mp hoff ((h.running_iff p).mpr ⟨c, hc⟩)

theorem Runs.runs_of_not_off (hp : ¬ (s.pos p).Off) : ∃ c, s.cpu c = .run p := by
  apply (h.running_iff p).mp
  by_contra hr
  exact hp ((h.off_iff p).mpr hr)

theorem Runs.not_run_of_off (hp : (s.pos p).Off) (c : Fin ncpu) : s.cpu c ≠ .run p :=
  fun hc => h.not_off hc hp

/-- A step of the thread on `c` from one place where it runs to another, which may set its own
channel and touches no state and no CPU's place. -/
theorem Runs.move (hc : s.cpu c = .run p) (hx : ¬ x.Off) (hstate : t.state = s.state)
    (hchan : ∀ q, q ≠ p → t.chan q = s.chan q) (hcpu : t.cpu = s.cpu) (hpos : t.pos = update s.pos p x) :
    Runs t := by
  have hp := h.not_off hc
  -- the places of `p` before and after are neither switched out nor read by a switched-out clause
  have hsame : ∀ q, q ≠ p → t.pos q = s.pos q := fun q hq => by rw [hpos, Function.update_of_ne hq]
  refine ⟨?_, ?_, fun q => ?_, fun c' q hq => ?_, fun q hq => ?_, fun q k hq => ?_⟩
  · rw [hstate, hcpu]
    exact h.running_iff
  · rw [hcpu]
    exact h.run_unique
  · rw [hstate]
    by_cases hqp : q = p
    · subst hqp
      rw [hpos, Function.update_self]
      exact ⟨fun hoff => absurd hoff hx, fun hr => absurd ((h.off_iff q).mpr hr) hp⟩
    · rw [hsame q hqp]
      exact h.off_iff q
  · rw [hcpu] at hq
    have hqp : q ≠ p := fun e => hp (e ▸ h.back_off c' q hq)
    rw [hsame q hqp]
    exact h.back_off c' q hq
  · have hqp : q ≠ p := by
      rintro rfl
      rw [hpos, Function.update_self] at hq
      exact hx (hq ▸ trivial)
    rw [hstate]
    exact h.yieldOff q (by rw [← hsame q hqp]; exact hq)
  · have hqp : q ≠ p := by
      rintro rfl
      rw [hpos, Function.update_self] at hq
      exact hx (hq ▸ trivial)
    rw [hstate, hchan q hqp]
    exact h.sleepOff q k (by rw [← hsame q hqp]; exact hq)

/-- A step that touches none of what `Runs` reads. -/
theorem Runs.of_eq (hstate : t.state = s.state) (hchan : t.chan = s.chan) (hpos : t.pos = s.pos)
    (hcpu : t.cpu = s.cpu) : Runs t := by
  refine ⟨fun q => ?_, fun c c' q => ?_, fun q => ?_, fun c q => ?_, fun q => ?_, fun q k => ?_⟩
  · rw [hstate, hcpu]
    exact h.running_iff q
  · rw [hcpu]
    exact h.run_unique c c' q
  · rw [hstate, hpos]
    exact h.off_iff q
  · rw [hcpu, hpos]
    exact h.back_off c q
  · rw [hstate, hpos]
    exact h.yieldOff q
  · rw [hstate, hpos, hchan]
    exact h.sleepOff q k

/-- `wakeup` or `kill` makes a sleeping process `RUNNABLE`. -/
theorem Runs.wake (hq : s.state q = .sleeping) (hstate : t.state = update s.state q .runnable)
    (hchan : t.chan = s.chan) (hpos : t.pos = s.pos) (hcpu : t.cpu = s.cpu) : Runs t := by
  have hoff : (s.pos q).Off := (h.off_iff q).mpr (by rw [hq]; decide)
  have hnr : ∀ c, s.cpu c ≠ .run q := h.not_run_of_off hoff
  refine ⟨fun r => ?_, fun c c' r => by rw [hcpu]; exact h.run_unique c c' r, fun r => ?_,
    fun c r => by rw [hcpu, hpos]; exact h.back_off c r, fun r hr => ?_, fun r k hr => ?_⟩
  · rw [hstate, hcpu]
    by_cases hrq : r = q
    · subst hrq
      rw [Function.update_self]
      exact ⟨nofun, fun ⟨c, hc⟩ => (hnr c hc).elim⟩
    · rw [Function.update_of_ne hrq]
      exact h.running_iff r
  · rw [hstate, hpos]
    by_cases hrq : r = q
    · subst hrq
      rw [Function.update_self]
      exact ⟨fun _ => nofun, fun _ => hoff⟩
    · rw [Function.update_of_ne hrq]
      exact h.off_iff r
  · rw [hpos] at hr
    rw [hstate]
    by_cases hrq : r = q
    · subst hrq
      rw [Function.update_self]
    · rw [Function.update_of_ne hrq]
      exact h.yieldOff r hr
  · rw [hpos] at hr
    obtain ⟨hchan', hst⟩ := h.sleepOff r k hr
    refine ⟨hchan ▸ hchan', ?_⟩
    rw [hstate]
    by_cases hrq : r = q
    · subst hrq
      simp
    · rw [Function.update_of_ne hrq]
      exact hst

/-- The test of `wakeup` and `kill`: a sleeping process that passes it becomes `RUNNABLE`. -/
theorem Runs.wakeIf {P : Prop} [Decidable P] (hP : P → s.state q = .sleeping)
    (hstate : t.state = update s.state q (if P then .runnable else s.state q)) (hchan : t.chan = s.chan)
    (hpos : t.pos = s.pos) (hcpu : t.cpu = s.cpu) : Runs t := by
  by_cases hp : P
  · rw [if_pos hp] at hstate
    exact h.wake (hP hp) hstate hchan hpos hcpu
  · rw [if_neg hp, Function.update_eq_self] at hstate
    exact h.of_eq hstate hchan hpos hcpu

/-- The scheduler of `c` moves on from a place where it runs no process. -/
theorem Runs.toScan (hc : ∀ p, s.cpu c ≠ .run p) (i : Fin nproc) (hstate : t.state = s.state)
    (hchan : t.chan = s.chan) (hpos : t.pos = s.pos) (hcpu : t.cpu = update s.cpu c (.scan i)) : Runs t := by
  -- `c` runs nothing before or after, and every other CPU keeps its place
  have hrun : ∀ c' q, t.cpu c' = .run q ↔ s.cpu c' = .run q := by
    intro c' q
    rw [hcpu]
    by_cases hcc : c' = c
    · subst hcc
      simp [hc q]
    · rw [Function.update_of_ne hcc]
  refine ⟨fun q => ?_, fun c₁ c₂ q h₁ h₂ => h.run_unique c₁ c₂ q ((hrun c₁ q).mp h₁) ((hrun c₂ q).mp h₂),
    fun q => ?_, fun c' q hq => ?_, fun q hq => ?_, fun q k hq => ?_⟩
  · simp only [hstate, hrun]
    exact h.running_iff q
  · rw [hstate, hpos]
    exact h.off_iff q
  · have hcc : c' ≠ c := by
      rintro rfl
      simp [hcpu] at hq
    rw [hcpu, Function.update_of_ne hcc] at hq
    rw [hpos]
    exact h.back_off c' q hq
  · rw [hstate]
    exact h.yieldOff q (hpos ▸ hq)
  · rw [hstate, hchan]
    exact h.sleepOff q k (hpos ▸ hq)

/-- `scheduler` switches to the `RUNNABLE` process `i`, which no scheduler is back from. -/
theorem Runs.switchIn {i : Fin nproc} (hc : s.cpu c = .scan i) (hi : s.state i = .runnable)
    (hback : ∀ c', s.cpu c' ≠ .back i) (hstate : t.state = update s.state i .running) (hchan : t.chan = s.chan)
    (hpos : t.pos = update s.pos i (s.pos i).resume) (hcpu : t.cpu = update s.cpu c (.run i)) : Runs t := by
  have hoff : (s.pos i).Off := (h.off_iff i).mpr (by rw [hi]; decide)
  have hnr : ∀ c', s.cpu c' ≠ .run i := h.not_run_of_off hoff
  -- `c` now runs `i`, which no CPU ran, and every other CPU keeps its place
  have hrun : ∀ c' q, t.cpu c' = .run q ↔ (c' = c ∧ q = i) ∨ s.cpu c' = .run q := by
    intro c' q
    rw [hcpu]
    by_cases hcc : c' = c
    · subst hcc
      simp [hc, eq_comm]
    · simp [hcc]
  have hsame : ∀ q, q ≠ i → t.pos q = s.pos q := fun q hq => by rw [hpos, Function.update_of_ne hq]
  have hresume : ¬ (t.pos i).Off := by
    rw [hpos, Function.update_self]
    exact Pos.off_resume _ hoff
  refine ⟨fun q => ?_, fun c₁ c₂ q h₁ h₂ => ?_, fun q => ?_, fun c' q hq => ?_, fun q hq => ?_, fun q k hq => ?_⟩
  · rw [hstate]
    simp only [hrun]
    by_cases hqi : q = i
    · subst hqi
      simp
    · simp only [Function.update_of_ne hqi, hqi, and_false, false_or]
      exact h.running_iff q
  · -- a second CPU running `i` would have run it before the switch
    rw [hrun] at h₁ h₂
    rcases h₁ with ⟨rfl, rfl⟩ | h₁ <;> rcases h₂ with ⟨rfl, hq₂⟩ | h₂
    · rfl
    · exact absurd h₂ (hnr c₂)
    · exact absurd (hq₂ ▸ h₁) (hnr c₁)
    · exact h.run_unique c₁ c₂ q h₁ h₂
  · rw [hstate]
    by_cases hqi : q = i
    · subst hqi
      simp [hresume]
    · rw [Function.update_of_ne hqi, hsame q hqi]
      exact h.off_iff q
  · have hcc : c' ≠ c := by
      rintro rfl
      simp [hcpu] at hq
    rw [hcpu, Function.update_of_ne hcc] at hq
    have hqi : q ≠ i := by
      rintro rfl
      exact hback c' hq
    rw [hsame q hqi]
    exact h.back_off c' q hq
  · have hqi : q ≠ i := by
      rintro rfl
      exact hresume (hq ▸ trivial)
    rw [hstate, Function.update_of_ne hqi]
    exact h.yieldOff q (hsame q hqi ▸ hq)
  · have hqi : q ≠ i := by
      rintro rfl
      exact hresume (hq ▸ trivial)
    rw [hstate, Function.update_of_ne hqi, hchan]
    exact h.sleepOff q k (hsame q hqi ▸ hq)

/-- `sched` switches the thread on `c` out to the place `x`, with the state `st`, back to the
scheduler. -/
theorem Runs.switchOut (hc : s.cpu c = .run p) (hx : x.Off) {st : Procstate} (hst : st ≠ .running)
    (hyield : x = .yieldOff → st = .runnable)
    (hsleep : ∀ k, x = .sleepOff k → t.chan p = some k ∧ (st = .sleeping ∨ st = .runnable))
    (hstate : t.state = update s.state p st) (hchan : ∀ q, q ≠ p → t.chan q = s.chan q)
    (hpos : t.pos = update s.pos p x) (hcpu : t.cpu = update s.cpu c (.back p)) : Runs t := by
  have hp := h.not_off hc
  -- no other CPU runs `p`
  have hrun : ∀ c' q, t.cpu c' = .run q ↔ s.cpu c' = .run q ∧ q ≠ p := by
    intro c' q
    rw [hcpu]
    by_cases hcc : c' = c
    · subst hcc
      simp only [Function.update_self, reduceCtorEq, false_iff, not_and, hc, CpuPos.run.injEq]
      exact fun hpq hqp => hqp hpq.symm
    · rw [Function.update_of_ne hcc]
      constructor
      · intro hq
        refine ⟨hq, ?_⟩
        rintro rfl
        exact hcc (h.run_unique c' c q hq hc)
      · exact fun hq => hq.1
  refine ⟨fun q => ?_, fun c₁ c₂ q h₁ h₂ => h.run_unique c₁ c₂ q ((hrun c₁ q).mp h₁).1 ((hrun c₂ q).mp h₂).1,
    fun q => ?_, fun c' q hq => ?_, fun q hq => ?_, fun q k hq => ?_⟩
  · simp only [hrun, hstate]
    by_cases hqp : q = p
    · subst hqp
      simp [hst]
    · simp only [Function.update_of_ne hqp, ne_eq, hqp, not_false_eq_true, and_true]
      exact h.running_iff q
  · rw [hstate, hpos]
    by_cases hqp : q = p
    · subst hqp
      simp [hx, hst]
    · simp only [Function.update_of_ne hqp]
      exact h.off_iff q
  · rw [hcpu] at hq
    rw [hpos]
    by_cases hcc : c' = c
    · subst hcc
      simp only [Function.update_self, CpuPos.back.injEq] at hq
      subst hq
      simpa using hx
    · rw [Function.update_of_ne hcc] at hq
      have hqp : q ≠ p := fun e => hp (e ▸ h.back_off c' q hq)
      rw [Function.update_of_ne hqp]
      exact h.back_off c' q hq
  · rw [hpos] at hq
    rw [hstate]
    by_cases hqp : q = p
    · subst hqp
      simp only [Function.update_self] at hq ⊢
      exact hyield hq
    · rw [Function.update_of_ne hqp] at hq ⊢
      exact h.yieldOff q hq
  · rw [hpos] at hq
    rw [hstate]
    by_cases hqp : q = p
    · subst hqp
      simp only [Function.update_self] at hq ⊢
      exact hsleep k hq
    · rw [Function.update_of_ne hqp] at hq ⊢
      rw [hchan q hqp]
      exact h.sleepOff q k hq

end Runs

/-! ## The locks each CPU holds -/

theorem Pos.locks_off (lk : κ → μ) (p : Fin nproc) (hx : x.Off) : x.locks lk p = [] := by
  cases x <;> simp_all [Pos.Off, Pos.locks]

/-- Every CPU but `c` keeps its locks when only `c`'s place and that of a process `r` that no other
CPU runs change. -/
theorem cpuLocks_other (lk : κ → μ) {r : Fin nproc} (hcpu : ∀ c', c' ≠ c → t.cpu c' = s.cpu c')
    (hpos : ∀ q, q ≠ r → t.pos q = s.pos q) (hr : ∀ c', c' ≠ c → s.cpu c' ≠ .run r) :
    ∀ c', c' ≠ c → cpuLocks lk t c' = cpuLocks lk s c' := by
  intro c' hcc
  apply cpuLocks_congr lk (hcpu c' hcc)
  intro q hq
  apply hpos q
  rintro rfl
  exact hr c' hcc hq

/-- Every CPU but `c` keeps its locks when no thread moves. -/
theorem cpuLocks_of_cpu (lk : κ → μ) (hcpu : ∀ c', c' ≠ c → t.cpu c' = s.cpu c') (hpos : t.pos = s.pos) :
    ∀ c', c' ≠ c → cpuLocks lk t c' = cpuLocks lk s c' :=
  fun c' hcc => cpuLocks_congr lk (hcpu c' hcc) fun q _ => by rw [hpos]

section Locks

variable {lk : κ → μ} (h : Inv lk s)
include h

theorem Inv.owner_iff (l : Lock μ) (c : Fin ncpu) : s.owner l = some c ↔ l ∈ cpuLocks lk s c :=
  h.exact l c

theorem Inv.owner_of_run (hc : s.cpu c = .run p) {l : Lock μ} (hl : l ∈ (s.pos p).locks lk p) :
    s.owner l = some c :=
  (h.owner_iff l c).mpr (by rw [cpuLocks_run lk hc]; exact hl)

/-- Two running processes whose places hold one lock are one process. -/
theorem Inv.eq_of_locks (hc : s.cpu c = .run p) (hc' : s.cpu c' = .run q) {l : Lock μ}
    (hp : l ∈ (s.pos p).locks lk p) (hq : l ∈ (s.pos q).locks lk q) : p = q := by
  have hcc : c = c' := h.exact.unique (show l ∈ cpuLocks lk s c by rw [cpuLocks_run lk hc]; exact hp)
    (show l ∈ cpuLocks lk s c' by rw [cpuLocks_run lk hc']; exact hq)
  subst hcc
  rw [hc] at hc'
  exact CpuPos.run.inj hc'

/-- A process whose place holds a lock runs, and its CPU owns the lock. -/
theorem Inv.owned_of_locks {l : Lock μ} (hl : l ∈ (s.pos p).locks lk p) : ∃ c, s.cpu c = .run p ∧ s.owner l = some c := by
  have hoff : ¬ (s.pos p).Off := fun hoff => by simp [Pos.locks_off lk p hoff] at hl
  obtain ⟨c, hc⟩ := h.runs_of_not_off hoff
  exact ⟨c, hc, h.owner_of_run hc hl⟩

/-- Two processes whose places hold one lock are one process. -/
theorem Inv.eq_of_locks' {l : Lock μ} (hp : l ∈ (s.pos p).locks lk p) (hq : l ∈ (s.pos q).locks lk q) : p = q := by
  obtain ⟨c, hc, -⟩ := h.owned_of_locks hp
  obtain ⟨c', hc', -⟩ := h.owned_of_locks hq
  exact h.eq_of_locks hc hc' hp hq

/-- A step of the thread on `c` to the place `x`: the locks of `c` are those of `x`, and every other
CPU keeps its own. -/
theorem Inv.cpuLocks_move (hc : s.cpu c = .run p) (hcpu : t.cpu = s.cpu) (hpos : t.pos = update s.pos p x) :
    (cpuLocks lk t c = x.locks lk p ∧ cpuLocks lk s c = (s.pos p).locks lk p) ∧
      ∀ c', c' ≠ c → cpuLocks lk t c' = cpuLocks lk s c' := by
  refine ⟨⟨?_, cpuLocks_run lk hc⟩, ?_⟩
  · rw [cpuLocks_run lk (show t.cpu c = .run p by rw [hcpu]; exact hc), hpos, Function.update_self]
  · apply cpuLocks_other lk (fun c' _ => by rw [hcpu]) (fun q hq => by rw [hpos, Function.update_of_ne hq])
    intro c' hcc hc'
    exact hcc (h.run_unique c' c p hc' hc)

theorem Inv.exact_frame (hself : cpuLocks lk t c = cpuLocks lk s c)
    (hother : ∀ c', c' ≠ c → cpuLocks lk t c' = cpuLocks lk s c') (howner : t.owner = s.owner) :
    Owner.Exact t.owner fun c l => l ∈ cpuLocks lk t c := by
  rw [howner]
  refine h.exact.frame fun c' l => ?_
  by_cases hcc : c' = c
  · rw [hcc, hself]
  · rw [hother c' hcc]

theorem Inv.exact_acquire [DecidableEq μ] {l : Lock μ} (hfree : s.owner l = none)
    (hself : ∀ l', l' ∈ cpuLocks lk t c ↔ l' = l ∨ l' ∈ cpuLocks lk s c)
    (hother : ∀ c', c' ≠ c → cpuLocks lk t c' = cpuLocks lk s c') (howner : t.owner = update s.owner l (some c)) :
    Owner.Exact t.owner fun c l => l ∈ cpuLocks lk t c := by
  rw [howner]
  exact h.exact.acquire hfree hself fun c' hcc => by rw [hother c' hcc]

theorem Inv.exact_release [DecidableEq μ] {l : Lock μ} (hheld : l ∈ cpuLocks lk s c)
    (hself : ∀ l', l' ∈ cpuLocks lk t c ↔ l' ≠ l ∧ l' ∈ cpuLocks lk s c)
    (hother : ∀ c', c' ≠ c → cpuLocks lk t c' = cpuLocks lk s c') (howner : t.owner = update s.owner l none) :
    Owner.Exact t.owner fun c l => l ∈ cpuLocks lk t c := by
  rw [howner]
  exact h.exact.release hheld hself fun c' hcc => by rw [hother c' hcc]

/-- A move of the thread on `c` between places that hold the same locks. -/
theorem Inv.exact_move (hc : s.cpu c = .run p) (hcpu : t.cpu = s.cpu) (hpos : t.pos = update s.pos p x)
    (hx : x.locks lk p = (s.pos p).locks lk p) (howner : t.owner = s.owner) :
    Owner.Exact t.owner fun c l => l ∈ cpuLocks lk t c := by
  obtain ⟨⟨ht, hs⟩, hother⟩ := h.cpuLocks_move hc hcpu hpos
  exact h.exact_frame (by rw [ht, hs, hx]) hother howner

/-- A move of the thread on `c` that takes the free lock `l`. -/
theorem Inv.exact_moveAcquire [DecidableEq μ] (hc : s.cpu c = .run p) (hcpu : t.cpu = s.cpu) (hpos : t.pos = update s.pos p x)
    {l : Lock μ} (hfree : s.owner l = none) (hx : ∀ l', l' ∈ x.locks lk p ↔ l' = l ∨ l' ∈ (s.pos p).locks lk p)
    (howner : t.owner = update s.owner l (some c)) : Owner.Exact t.owner fun c l => l ∈ cpuLocks lk t c := by
  obtain ⟨⟨ht, hs⟩, hother⟩ := h.cpuLocks_move hc hcpu hpos
  exact h.exact_acquire hfree (fun l' => by rw [ht, hs]; exact hx l') hother howner

/-- A move of the thread on `c` that lets go of the lock `l` its place holds. -/
theorem Inv.exact_moveRelease [DecidableEq μ] (hc : s.cpu c = .run p) (hcpu : t.cpu = s.cpu) (hpos : t.pos = update s.pos p x)
    {l : Lock μ} (hl : l ∈ (s.pos p).locks lk p) (hx : ∀ l', l' ∈ x.locks lk p ↔ l' ≠ l ∧ l' ∈ (s.pos p).locks lk p)
    (howner : t.owner = update s.owner l none) : Owner.Exact t.owner fun c l => l ∈ cpuLocks lk t c := by
  obtain ⟨⟨ht, hs⟩, hother⟩ := h.cpuLocks_move hc hcpu hpos
  exact h.exact_release (by rw [hs]; exact hl) (fun l' => by rw [ht, hs]; exact hx l') hother howner

end Locks

/-! ## Wakeups -/

/-- Places where a thread neither sleeps, nor is about to, nor runs `wakeup`. -/
def Pos.Quiet : Pos κ μ → Prop
  | .idle | .crit _ | .sleepTidy _ | .sleepReacquire _ | .yieldSched | .yieldOff | .yieldRelease => True
  | _ => False

theorem Pos.quiet_ne {x : Pos κ μ} (hx : x.Quiet) (k : κ) (i : Nat) :
    x ≠ .sleepSched k ∧ x ≠ .sleepOff k ∧ x ≠ .waking k i ∧ x ≠ .sleepAcquire k ∧ x ≠ .sleepRelease k := by
  cases x <;> simp_all [Pos.Quiet]

section Wakeups

variable (h : Wakeups s)
include h

/-- A step that keeps the conditions, the sleepers, the `wakeup`s under way and the threads inside
`sleep` before `release(lk)`. -/
theorem Wakeups.of_iff (hcond : t.cond = s.cond) (hsleep : ∀ q k, SleepingOn t q k ↔ SleepingOn s q k)
    (hwaking : ∀ q k i, t.pos q = .waking k i ↔ s.pos q = .waking k i)
    (hasleep : ∀ q k, (t.pos q = .sleepAcquire k ∨ t.pos q = .sleepRelease k) ↔
      (s.pos q = .sleepAcquire k ∨ s.pos q = .sleepRelease k)) : Wakeups t := by
  refine ⟨fun q k hq => ?_, fun q k hq hk => ?_, fun q k i hq r hr => ?_⟩
  · rw [hcond]
    exact h.asleep_false q k ((hasleep q k).mp hq)
  · rw [hcond] at hk
    obtain ⟨q', i, hq', hi⟩ := h.woken q k ((hsleep q k).mp hq) hk
    exact ⟨q', i, (hwaking q' k i).mpr hq', hi⟩
  · rw [hsleep]
    exact h.visited q k i ((hwaking q k i).mp hq) r hr

/-- A move of one thread between quiet places, which may change its own state. -/
theorem Wakeups.quiet (hx₀ : (s.pos p).Quiet) (hx : x.Quiet) (hcond : t.cond = s.cond)
    (hstate : ∀ q, q ≠ p → t.state q = s.state q) (hpos : t.pos = update s.pos p x) : Wakeups t := by
  have hsame : ∀ q, q ≠ p → t.pos q = s.pos q := fun q hq => by rw [hpos, Function.update_of_ne hq]
  have hp : t.pos p = x := by rw [hpos, Function.update_self]
  refine h.of_iff hcond (fun q k => ?_) (fun q k i => ?_) (fun q k => ?_)
  · by_cases hqp : q = p
    · subst hqp
      simp [SleepingOn, hp, (Pos.quiet_ne hx k 0).1, (Pos.quiet_ne hx k 0).2.1, (Pos.quiet_ne hx₀ k 0).1,
        (Pos.quiet_ne hx₀ k 0).2.1]
    · simp only [SleepingOn, hsame q hqp, hstate q hqp]
  · by_cases hqp : q = p
    · subst hqp
      simp [hp, (Pos.quiet_ne hx k i).2.2.1, (Pos.quiet_ne hx₀ k i).2.2.1]
    · rw [hsame q hqp]
  · by_cases hqp : q = p
    · subst hqp
      simp [hp, (Pos.quiet_ne hx k 0).2.2.2, (Pos.quiet_ne hx₀ k 0).2.2.2]
    · rw [hsame q hqp]

/-- A step that can only end sleeps: `kill`. -/
theorem Wakeups.shrink (hcond : t.cond = s.cond) (hpos : t.pos = s.pos)
    (hmono : ∀ r k, SleepingOn t r k → SleepingOn s r k) : Wakeups t := by
  refine ⟨fun q k hq => ?_, fun q k hq hk => ?_, fun q k i hq r hr hsl => ?_⟩
  · rw [hcond]
    exact h.asleep_false q k (hpos ▸ hq)
  · rw [hcond] at hk
    obtain ⟨q', i, hq', hi⟩ := h.woken q k (hmono q k hq) hk
    exact ⟨q', i, hpos ▸ hq', hi⟩
  · exact h.visited q k i (hpos ▸ hq) r hr (hmono r k hsl)

/-- A thread enters `sleep` on `k`, or takes `p->lock` in it, with the condition false. -/
theorem Wakeups.toAsleep (hx₀ : ∀ k i, s.pos p ≠ .waking k i ∧ ¬ SleepingOn s p k)
    (hx : x = .sleepAcquire k ∨ x = .sleepRelease k) (hk : s.cond k = false) (hcond : t.cond = s.cond)
    (hstate : t.state = s.state) (hpos : t.pos = update s.pos p x) : Wakeups t := by
  have hsame : ∀ q, q ≠ p → t.pos q = s.pos q := fun q hq => by rw [hpos, Function.update_of_ne hq]
  have hp : t.pos p = x := by rw [hpos, Function.update_self]
  -- nothing but `p`'s place changes, and `p` neither sleeps nor wakes before or after
  have hsleep : ∀ q k, SleepingOn t q k ↔ SleepingOn s q k := by
    intro q k'
    by_cases hqp : q = p
    · subst hqp
      simp only [(hx₀ k' 0).2, iff_false]
      rcases hx with rfl | rfl <;> simp [SleepingOn, hp]
    · simp only [SleepingOn, hsame q hqp, hstate]
  have hwaking : ∀ q k i, t.pos q = .waking k i ↔ s.pos q = .waking k i := by
    intro q k' i
    by_cases hqp : q = p
    · subst hqp
      simp only [(hx₀ k' i).1, iff_false]
      rcases hx with rfl | rfl <;> simp [hp]
    · rw [hsame q hqp]
  refine ⟨fun q k' hq => ?_, fun q k' hq hk' => ?_, fun q k' i hq r hr => ?_⟩
  · rw [hcond]
    by_cases hqp : q = p
    · subst hqp
      rw [hp] at hq
      rcases hx with rfl | rfl <;> simp_all
    · exact h.asleep_false q k' (hsame q hqp ▸ hq)
  · rw [hcond] at hk'
    obtain ⟨q', i, hq', hi⟩ := h.woken q k' ((hsleep q k').mp hq) hk'
    exact ⟨q', i, (hwaking q' k' i).mpr hq', hi⟩
  · rw [hsleep]
    exact h.visited q k' i ((hwaking q k' i).mp hq) r hr

end Wakeups

/-- A move of the thread `p` to a place where it does not sleep, with the states kept, only removes
sleepers. -/
theorem sleepingOn_of_move {r : Fin nproc} (hr : SleepingOn t r k) (hpos : t.pos = update s.pos p x)
    (hstate : t.state = s.state) (hx : ∀ k, x ≠ .sleepSched k ∧ x ≠ .sleepOff k) : SleepingOn s r k ∧ r ≠ p := by
  have hrp : r ≠ p := by
    rintro rfl
    rcases hr with hr | ⟨hr, -⟩ <;> rw [hpos, Function.update_self] at hr
    · exact (hx k).1 hr
    · exact (hx k).2 hr
  refine ⟨?_, hrp⟩
  unfold SleepingOn at hr ⊢
  rwa [hpos, Function.update_of_ne hrp, hstate] at hr

section WakeupSteps

variable {lk : κ → μ} (h : Inv lk s)
include h

/-- The condition made false. -/
theorem Inv.wakeups_consume [DecidableEq κ] (hcond : t.cond = update s.cond k false) (hstate : t.state = s.state)
    (hpos : t.pos = s.pos) : Wakeups t := by
  have hsleep : ∀ r k', SleepingOn t r k' ↔ SleepingOn s r k' := by
    intro r k'
    simp only [SleepingOn, hpos, hstate]
  refine ⟨fun q k' hq => ?_, fun q k' hq hk' => ?_, fun q k' i hq r hr hsl => ?_⟩
  · rw [hcond]
    by_cases hkk : k' = k
    · subst hkk
      simp
    · rw [Function.update_of_ne hkk]
      exact h.asleep_false q k' (hpos ▸ hq)
  · have hkk : k' ≠ k := by
      rintro rfl
      simp [hcond] at hk'
    rw [hcond, Function.update_of_ne hkk] at hk'
    obtain ⟨q', i, hq', hi⟩ := h.woken q k' ((hsleep q k').mp hq) hk'
    exact ⟨q', i, hpos ▸ hq', hi⟩
  · exact h.visited q k' i (hpos ▸ hq) r hr ((hsleep r k').mp hsl)

/-- The condition made true by `p`, holding its lock, which calls `wakeup`. -/
theorem Inv.wakeups_signal [DecidableEq κ] (hp : s.pos p = .crit (lk k)) (hcond : t.cond = update s.cond k true)
    (hstate : t.state = s.state) (hpos : t.pos = update s.pos p (.waking k 0)) : Wakeups t := by
  have hx : ∀ k', (Pos.waking k 0 : Pos κ μ) ≠ .sleepSched k' ∧ (Pos.waking k 0 : Pos κ μ) ≠ .sleepOff k' :=
    fun _ => ⟨nofun, nofun⟩
  have hsame : ∀ q, q ≠ p → t.pos q = s.pos q := fun q hq => by rw [hpos, Function.update_of_ne hq]
  refine ⟨fun q k' hq => ?_, fun r k' hr hk' => ?_, fun q k' i hq r hr hsl => ?_⟩
  · -- a thread before `release(lk)` in `sleep` holds the lock `p` holds
    have hqp : q ≠ p := by
      rintro rfl
      rw [hpos, Function.update_self] at hq
      rcases hq with hq | hq <;> cases hq
    rw [hsame q hqp] at hq
    rw [hcond]
    by_cases hkk : k' = k
    · subst hkk
      have hl : Lock.lk (lk k') ∈ (s.pos q).locks lk q := by rcases hq with hq | hq <;> simp [hq, Pos.locks]
      exact absurd (h.eq_of_locks' hl (by simp [hp, Pos.locks])) hqp
    · rw [Function.update_of_ne hkk]
      exact h.asleep_false q k' hq
  · obtain ⟨hr', hrp⟩ := sleepingOn_of_move hr hpos hstate hx
    by_cases hkk : k' = k
    · subst hkk
      exact ⟨p, 0, by rw [hpos, Function.update_self], Nat.zero_le _⟩
    · rw [hcond, Function.update_of_ne hkk] at hk'
      obtain ⟨q', i, hq', hi⟩ := h.woken r k' hr' hk'
      have hqp : q' ≠ p := by
        rintro rfl
        rw [hp] at hq'
        cases hq'
      exact ⟨q', i, by rw [hsame q' hqp]; exact hq', hi⟩
  · obtain ⟨hr', -⟩ := sleepingOn_of_move hsl hpos hstate hx
    by_cases hqp : q = p
    · subst hqp
      rw [hpos, Function.update_self, Pos.waking.injEq] at hq
      omega
    · rw [hsame q hqp] at hq
      exact h.visited q k' i hq r hr hr'

/-- `wakeup` passes over its caller. -/
theorem Inv.wakeups_wakeupSelf (hp : s.pos p = .waking k p.val) (hcond : t.cond = s.cond)
    (hstate : t.state = s.state) (hpos : t.pos = update s.pos p (.waking k (p.val + 1))) : Wakeups t := by
  have hx : ∀ k', (Pos.waking k (p.val + 1) : Pos κ μ) ≠ .sleepSched k' ∧
      (Pos.waking k (p.val + 1) : Pos κ μ) ≠ .sleepOff k' := fun _ => ⟨nofun, nofun⟩
  have hsame : ∀ q, q ≠ p → t.pos q = s.pos q := fun q hq => by rw [hpos, Function.update_of_ne hq]
  refine ⟨fun q k' hq => ?_, fun r k' hr hk' => ?_, fun q k' i hq r hr hsl => ?_⟩
  · have hqp : q ≠ p := by
      rintro rfl
      rw [hpos, Function.update_self] at hq
      rcases hq with hq | hq <;> cases hq
    rw [hcond]
    exact h.asleep_false q k' (by rwa [hsame q hqp] at hq)
  · obtain ⟨hr', hrp⟩ := sleepingOn_of_move hr hpos hstate hx
    rw [hcond] at hk'
    obtain ⟨q', i, hq', hi⟩ := h.woken r k' hr' hk'
    by_cases hqp : q' = p
    · -- the `wakeup` under way is this one: it has not reached `r`, and `r` is not its caller
      subst hqp
      rw [hp, Pos.waking.injEq] at hq'
      obtain ⟨rfl, rfl⟩ := hq'
      have hne : q'.val ≠ r.val := fun e => hrp (Fin.ext e).symm
      exact ⟨q', q'.val + 1, by rw [hpos, Function.update_self], by omega⟩
    · exact ⟨q', i, by rw [hsame q' hqp]; exact hq', hi⟩
  · obtain ⟨hr', hrp⟩ := sleepingOn_of_move hsl hpos hstate hx
    by_cases hqp : q = p
    · subst hqp
      rw [hpos, Function.update_self, Pos.waking.injEq] at hq
      obtain ⟨rfl, rfl⟩ := hq
      have hne : r.val ≠ q.val := fun e => hrp (Fin.ext e)
      exact h.visited q _ q.val hp r (by omega) hr'
    · rw [hsame q hqp] at hq
      exact h.visited q k' i hq r hr hr'

/-- `wakeup` at `proc[q]`: a sleeper on the channel there is made `RUNNABLE`, and the lock it takes
keeps out a thread between `release(lk)` and `sched` in `sleep`. -/
theorem Inv.wakeups_wakeupVisit [DecidableEq κ] (hp : s.pos p = .waking k q.val) (hqp : q ≠ p) (hfree : s.owner (.proc q) = none)
    (hcond : t.cond = s.cond)
    (hstate : t.state = update s.state q (if s.state q = .sleeping ∧ s.chan q = some k then .runnable else s.state q))
    (hpos : t.pos = update s.pos p (.waking k (q.val + 1))) : Wakeups t := by
  have hsame : ∀ r, r ≠ p → t.pos r = s.pos r := fun r hr => by rw [hpos, Function.update_of_ne hr]
  have hpw : t.pos p = .waking k (q.val + 1) := by rw [hpos, Function.update_self]
  -- the step only ends sleeps, and `p` does not sleep
  have hmono : ∀ r k', SleepingOn t r k' → SleepingOn s r k' ∧ r ≠ p := by
    intro r k' hr
    have hrp : r ≠ p := by
      rintro rfl
      rcases hr with hr | ⟨hr, -⟩ <;> rw [hpw] at hr <;> cases hr
    refine ⟨?_, hrp⟩
    rcases hr with hr | ⟨hr, hst⟩
    · exact .inl (by rwa [hsame r hrp] at hr)
    · refine .inr ⟨by rwa [hsame r hrp] at hr, ?_⟩
      rw [hstate] at hst
      by_cases hrq : r = q
      · subst hrq
        rw [Function.update_self] at hst
        split_ifs at hst
        exact hst
      · rwa [Function.update_of_ne hrq] at hst
  -- after the visit, `q` does not sleep on the channel
  have hq : ¬ SleepingOn t q k := by
    rintro (hq | ⟨hq, hst⟩)
    · rw [hsame q hqp] at hq
      obtain ⟨c, -, hc⟩ := h.owned_of_locks (p := q) (l := .proc q) (by simp [hq, Pos.locks])
      rw [hfree] at hc
      cases hc
    · rw [hsame q hqp] at hq
      have hchan := (h.sleepOff q k hq).1
      rw [hstate, Function.update_self] at hst
      split_ifs at hst with hs
      exact hs ⟨hst, hchan⟩
  refine ⟨fun r k' hr => ?_, fun r k' hr hk' => ?_, fun r k' i hr r' hr' hsl => ?_⟩
  · have hrp : r ≠ p := by
      rintro rfl
      rcases hr with hr | hr <;> rw [hpw] at hr <;> cases hr
    rw [hcond]
    exact h.asleep_false r k' (by rwa [hsame r hrp] at hr)
  · obtain ⟨hs, hrp⟩ := hmono r k' hr
    rw [hcond] at hk'
    obtain ⟨q', i, hq', hi⟩ := h.woken r k' hs hk'
    by_cases hq'p : q' = p
    · -- this `wakeup` is past `q` now, and `r` is not `q`
      subst hq'p
      rw [hp, Pos.waking.injEq] at hq'
      obtain ⟨rfl, rfl⟩ := hq'
      have hrq : r ≠ q := by
        rintro rfl
        exact hq hr
      have hne : q.val ≠ r.val := fun e => hrq (Fin.ext e).symm
      exact ⟨q', q.val + 1, hpw, by omega⟩
    · exact ⟨q', i, by rw [hsame q' hq'p]; exact hq', hi⟩
  · obtain ⟨hs, -⟩ := hmono r' k' hsl
    by_cases hrp : r = p
    · subst hrp
      rw [hpw, Pos.waking.injEq] at hr
      obtain ⟨rfl, rfl⟩ := hr
      by_cases hrq : r' = q
      · subst hrq
        exact hq hsl
      · have hne : r'.val ≠ q.val := fun e => hrq (Fin.ext e)
        exact h.visited r _ q.val hp r' (by omega) hs
    · rw [hsame r hrp] at hr
      exact h.visited r k' i hr r' hr' hs

/-- `wakeup` returns: it has passed every sleeper. -/
theorem Inv.wakeups_wakeupDone (hp : s.pos p = .waking k nproc) (hcond : t.cond = s.cond)
    (hstate : t.state = s.state) (hpos : t.pos = update s.pos p (.crit (lk k))) : Wakeups t := by
  have hsame : ∀ q, q ≠ p → t.pos q = s.pos q := fun q hq => by rw [hpos, Function.update_of_ne hq]
  have hpc : t.pos p = .crit (lk k) := by rw [hpos, Function.update_self]
  have hsleep : ∀ q k', SleepingOn t q k' ↔ SleepingOn s q k' := by
    intro q k'
    by_cases hqp : q = p
    · subst hqp
      simp [SleepingOn, hp, hpc]
    · simp only [SleepingOn, hsame q hqp, hstate]
  refine ⟨fun q k' hq => ?_, fun r k' hr hk' => ?_, fun q k' i hq r hr hsl => ?_⟩
  · have hqp : q ≠ p := by
      rintro rfl
      rw [hpc] at hq
      rcases hq with hq | hq <;> cases hq
    rw [hcond]
    exact h.asleep_false q k' (by rwa [hsame q hqp] at hq)
  · rw [hcond] at hk'
    obtain ⟨q', i, hq', hi⟩ := h.woken r k' ((hsleep r k').mp hr) hk'
    have hqp : q' ≠ p := by
      rintro rfl
      rw [hp, Pos.waking.injEq] at hq'
      have := r.isLt
      omega
    exact ⟨q', i, by rw [hsame q' hqp]; exact hq', hi⟩
  · have hqp : q ≠ p := by
      rintro rfl
      rw [hpc] at hq
      cases hq
    rw [hsame q hqp] at hq
    exact h.visited q k' i hq r hr ((hsleep r k').mp hsl)

/-- `release(lk)` in `sleep`: the thread now sleeps, with the condition false, and no `wakeup` on
the channel is under way, for its caller would hold `lk`. -/
theorem Inv.wakeups_sleepRelease (hp : s.pos p = .sleepRelease k) (hcond : t.cond = s.cond)
    (hstate : t.state = s.state) (hpos : t.pos = update s.pos p (.sleepSched k)) : Wakeups t := by
  have hsame : ∀ q, q ≠ p → t.pos q = s.pos q := fun q hq => by rw [hpos, Function.update_of_ne hq]
  have hps : t.pos p = .sleepSched k := by rw [hpos, Function.update_self]
  have hk : s.cond k = false := h.asleep_false p k (.inr hp)
  -- the only new sleeper is `p`, on `k`
  have hsleep : ∀ r k', SleepingOn t r k' → (r = p ∧ k' = k) ∨ (r ≠ p ∧ SleepingOn s r k') := by
    intro r k' hr
    by_cases hrp : r = p
    · subst hrp
      rcases hr with hr | ⟨hr, -⟩ <;> rw [hps] at hr <;> cases hr
      exact .inl ⟨rfl, rfl⟩
    · refine .inr ⟨hrp, ?_⟩
      unfold SleepingOn at hr ⊢
      rwa [hsame r hrp, hstate] at hr
  refine ⟨fun q k' hq => ?_, fun r k' hr hk' => ?_, fun q k' i hq r hr hsl => ?_⟩
  · have hqp : q ≠ p := by
      rintro rfl
      rw [hps] at hq
      rcases hq with hq | hq <;> cases hq
    rw [hcond]
    exact h.asleep_false q k' (by rwa [hsame q hqp] at hq)
  · rw [hcond] at hk'
    rcases hsleep r k' hr with ⟨-, rfl⟩ | ⟨-, hs⟩
    · rw [hk] at hk'
      cases hk'
    · obtain ⟨q', i, hq', hi⟩ := h.woken r k' hs hk'
      have hqp : q' ≠ p := by
        rintro rfl
        rw [hp] at hq'
        cases hq'
      exact ⟨q', i, by rw [hsame q' hqp]; exact hq', hi⟩
  · have hqp : q ≠ p := by
      rintro rfl
      rw [hps] at hq
      cases hq
    rw [hsame q hqp] at hq
    rcases hsleep r k' hsl with ⟨rfl, rfl⟩ | ⟨-, hs⟩
    · -- `q` runs `wakeup` on the channel, so it holds `lk`, which `p` held too
      exact hqp (h.eq_of_locks' (l := .lk (lk k')) (by simp [hq, Pos.locks]) (by simp [hp, Pos.locks]))
    · exact h.visited q k' i hq r hr hs

/-- `sched` in `sleep`: the thread still sleeps on its channel, now switched out. -/
theorem Inv.wakeups_sleepOff (hp : s.pos p = .sleepSched k) (hcond : t.cond = s.cond)
    (hstate : t.state = update s.state p .sleeping) (hpos : t.pos = update s.pos p (.sleepOff k)) : Wakeups t := by
  have hsame : ∀ q, q ≠ p → t.pos q = s.pos q := fun q hq => by rw [hpos, Function.update_of_ne hq]
  have hpo : t.pos p = .sleepOff k := by rw [hpos, Function.update_self]
  refine h.of_iff hcond (fun q k' => ?_) (fun q k' i => ?_) (fun q k' => ?_)
  · by_cases hqp : q = p
    · subst hqp
      simp [SleepingOn, hp, hpo, hstate]
    · simp only [SleepingOn, hsame q hqp, hstate, Function.update_of_ne hqp]
  · by_cases hqp : q = p
    · subst hqp
      simp [hp, hpo]
    · rw [hsame q hqp]
  · by_cases hqp : q = p
    · subst hqp
      simp [hp, hpo]
    · rw [hsame q hqp]

/-- `scheduler` switches to `i`, which was `RUNNABLE`, so it slept on no channel. -/
theorem Inv.wakeups_switchIn {i : Fin nproc} (hi : s.state i = .runnable) (hcond : t.cond = s.cond)
    (hstate : t.state = update s.state i .running) (hpos : t.pos = update s.pos i (s.pos i).resume) :
    Wakeups t := by
  have hoff : (s.pos i).Off := (h.off_iff i).mpr (by rw [hi]; decide)
  have hsame : ∀ q, q ≠ i → t.pos q = s.pos q := fun q hq => by rw [hpos, Function.update_of_ne hq]
  have hpi : t.pos i = (s.pos i).resume := by rw [hpos, Function.update_self]
  -- `i` is switched out before and resumed after: neither place sleeps, wakes, or is inside `sleep`
  have hq₀ : ∀ k j, s.pos i ≠ .sleepSched k ∧ s.pos i ≠ .waking k j ∧ s.pos i ≠ .sleepAcquire k ∧
      s.pos i ≠ .sleepRelease k := by
    intro k j
    refine ⟨?_, ?_, ?_, ?_⟩ <;> intro he <;> rw [he] at hoff <;> exact hoff
  have hq₁ : ∀ k j, t.pos i ≠ .sleepSched k ∧ t.pos i ≠ .sleepOff k ∧ t.pos i ≠ .waking k j ∧
      t.pos i ≠ .sleepAcquire k ∧ t.pos i ≠ .sleepRelease k := by
    intro k j
    rw [hpi]
    cases hx : s.pos i <;> simp_all [Pos.resume, Pos.Off]
  refine h.of_iff hcond (fun q k => ?_) (fun q k j => ?_) (fun q k => ?_)
  · by_cases hqi : q = i
    · subst hqi
      simp [SleepingOn, (hq₀ k 0).1, (hq₁ k 0).1, (hq₁ k 0).2.1, hi]
    · simp only [SleepingOn, hsame q hqi, hstate, Function.update_of_ne hqi]
  · by_cases hqi : q = i
    · subst hqi
      simp [(hq₀ k j).2.1, (hq₁ k j).2.2.1]
    · rw [hsame q hqi]
  · by_cases hqi : q = i
    · subst hqi
      simp [(hq₀ k 0).2.2.1, (hq₀ k 0).2.2.2, (hq₁ k 0).2.2.2.1, (hq₁ k 0).2.2.2.2]
    · rw [hsame q hqi]

/-- `scheduler` switches to `i`: its CPU takes `proc[i].lock` for `i`'s thread, which resumes where
it holds that lock. -/
theorem Inv.exact_switchIn [DecidableEq μ] {i : Fin nproc} (hc : s.cpu c = .scan i) (hi : s.state i = .runnable)
    (hfree : s.owner (.proc i) = none) (hcpu : t.cpu = update s.cpu c (.run i))
    (hpos : t.pos = update s.pos i (s.pos i).resume) (howner : t.owner = update s.owner (.proc i) (some c)) :
    Owner.Exact t.owner fun c l => l ∈ cpuLocks lk t c := by
  have hoff : (s.pos i).Off := (h.off_iff i).mpr (by rw [hi]; decide)
  have hself : cpuLocks lk t c = [.proc i] := by
    rw [cpuLocks_run lk (by rw [hcpu, Function.update_self]), hpos, Function.update_self,
      Pos.locks_resume lk i hoff]
  refine h.exact_acquire hfree (fun l' => by rw [hself]; simp [cpuLocks, hc]) ?_ howner
  exact cpuLocks_other lk (fun c' hcc => by rw [hcpu, Function.update_of_ne hcc])
    (fun q hq => by rw [hpos, Function.update_of_ne hq]) (fun c' _ => h.not_run_of_off hoff c')

/-- `sched`: the CPU keeps `p->lock`, now for the scheduler back from `swtch`. -/
theorem Inv.exact_switchOut (hc : s.cpu c = .run p) (hp : (s.pos p).locks lk p = [.proc p])
    (hcpu : t.cpu = update s.cpu c (.back p)) (hpos : ∀ q, q ≠ p → t.pos q = s.pos q) (howner : t.owner = s.owner) :
    Owner.Exact t.owner fun c l => l ∈ cpuLocks lk t c := by
  have hself : cpuLocks lk t c = cpuLocks lk s c := by
    rw [cpuLocks_run lk hc, hp]
    simp [cpuLocks, hcpu]
  refine h.exact_frame hself ?_ howner
  exact cpuLocks_other lk (fun c' hcc => by rw [hcpu, Function.update_of_ne hcc]) hpos
    (fun c' hcc hc' => hcc (h.run_unique c' c p hc' hc))

end WakeupSteps

/-! ## Every run from boot -/

theorem inv_boot (lk : κ → μ) (cond : κ → Bool) : Inv lk (boot cond) where
  running_iff _ := by simp [boot]
  run_unique _ _ _ h := by simp [boot] at h
  off_iff _ := by simp [boot, Pos.Off]
  back_off _ _ h := by simp [boot] at h
  yieldOff _ _ := rfl
  sleepOff _ _ h := by simp [boot] at h
  asleep_false _ _ h := by simp [boot] at h
  woken _ _ h := by simp [boot, SleepingOn] at h
  visited _ _ _ h := by simp [boot] at h
  exact _ _ := by simp [boot, cpuLocks]


section Runs

variable [DecidableEq κ] [DecidableEq μ] {lk : κ → μ}

/-- Each step keeps the invariant: who runs where, the wakeups, and the locks. -/
theorem Inv.step (h : Inv lk s) (hs : Step lk s c t) : Inv lk t := by
  have hr := h.toRuns
  have hw := h.toWakeups
  cases hs with
  | @schedRun i hc hfree hi =>
    -- a scheduler back from `i` would hold `proc[i].lock`
    have hback : ∀ c', s.cpu c' ≠ .back i := fun c' hb => by
      have := (h.owner_iff (.proc i) c').mpr (by simp [cpuLocks, hb])
      rw [hfree] at this
      cases this
    exact ⟨hr.switchIn hc hi hback rfl rfl rfl rfl, h.wakeups_switchIn hi rfl rfl rfl,
      h.exact_switchIn hc hi hfree rfl rfl rfl⟩
  | schedSkip hc _ _ =>
    have hnr : ∀ p, s.cpu c ≠ .run p := fun p => by rw [hc]; nofun
    exact ⟨hr.toScan hnr _ rfl rfl rfl rfl, hw.of_iff rfl (fun _ _ => Iff.rfl) (fun _ _ _ => Iff.rfl) (fun _ _ => Iff.rfl),
      h.exact_frame (by simp [cpuLocks, hc]) (cpuLocks_of_cpu lk (fun _ hcc => Function.update_of_ne hcc _ _) rfl) rfl⟩
  | schedBack hc =>
    have hnr : ∀ p, s.cpu c ≠ .run p := fun p => by rw [hc]; nofun
    exact ⟨hr.toScan hnr _ rfl rfl rfl rfl, hw.of_iff rfl (fun _ _ => Iff.rfl) (fun _ _ _ => Iff.rfl) (fun _ _ => Iff.rfl),
      h.exact_release (by simp [cpuLocks, hc]) (fun l' => by simp [cpuLocks, hc])
        (cpuLocks_of_cpu lk (fun _ hcc => Function.update_of_ne hcc _ _) rfl) rfl⟩
  | acquire hc hp hfree =>
    exact ⟨hr.move hc (by simp [Pos.Off]) rfl (fun _ _ => rfl) rfl rfl,
      hw.quiet (by simp [hp, Pos.Quiet]) (by simp [Pos.Quiet]) rfl (fun _ _ => rfl) rfl,
      h.exact_moveAcquire hc rfl rfl hfree (by simp [hp, Pos.locks]) rfl⟩
  | sleep hc hp hk =>
    exact ⟨hr.move hc (by simp [Pos.Off]) rfl (fun _ _ => rfl) rfl rfl,
      hw.toAsleep (fun k i => ⟨by simp [hp], by simp [SleepingOn, hp]⟩) (.inl rfl) hk rfl rfl rfl,
      h.exact_move hc rfl rfl (by simp [hp, Pos.locks]) rfl⟩
  | consume hc hp =>
    exact ⟨hr.of_eq rfl rfl rfl rfl, h.wakeups_consume rfl rfl rfl, h.exact⟩
  | signal hc hp =>
    exact ⟨hr.move hc (by simp [Pos.Off]) rfl (fun _ _ => rfl) rfl rfl, h.wakeups_signal hp rfl rfl rfl,
      h.exact_move hc rfl rfl (by simp [hp, Pos.locks]) rfl⟩
  | release hc hp =>
    exact ⟨hr.move hc (by simp [Pos.Off]) rfl (fun _ _ => rfl) rfl rfl,
      hw.quiet (by simp [hp, Pos.Quiet]) (by simp [Pos.Quiet]) rfl (fun _ _ => rfl) rfl,
      h.exact_moveRelease hc rfl rfl (by simp [hp, Pos.locks]) (fun l' => by cases l' <;> simp [hp, Pos.locks]) rfl⟩
  | wakeupSelf hc hp =>
    exact ⟨hr.move hc (by simp [Pos.Off]) rfl (fun _ _ => rfl) rfl rfl, h.wakeups_wakeupSelf hp rfl rfl rfl,
      h.exact_move hc rfl rfl (by simp [hp, Pos.locks]) rfl⟩
  | @wakeupVisit p q k hc hp hqp hfree =>
    -- first the visit to `proc[q]`, then the move of the caller
    have hr₁ := hr.wakeIf (t := { s with state := update s.state q (if s.state q = .sleeping ∧ s.chan q = some k
      then .runnable else s.state q) }) (fun hP => hP.1) rfl rfl rfl rfl
    exact ⟨hr₁.move hc (by simp [Pos.Off]) rfl (fun _ _ => rfl) rfl rfl,
      h.wakeups_wakeupVisit hp hqp hfree rfl rfl rfl, h.exact_move hc rfl rfl (by simp [hp, Pos.locks]) rfl⟩
  | wakeupDone hc hp =>
    exact ⟨hr.move hc (by simp [Pos.Off]) rfl (fun _ _ => rfl) rfl rfl, h.wakeups_wakeupDone hp rfl rfl rfl,
      h.exact_move hc rfl rfl (by simp [hp, Pos.locks]) rfl⟩
  | sleepAcquire hc hp hfree =>
    exact ⟨hr.move hc (by simp [Pos.Off]) rfl (fun _ _ => rfl) rfl rfl,
      hw.toAsleep (fun k i => ⟨by simp [hp], by simp [SleepingOn, hp]⟩) (.inr rfl) (hw.asleep_false _ _ (.inl hp))
        rfl rfl rfl,
      h.exact_moveAcquire hc rfl rfl hfree (by simp [hp, Pos.locks]) rfl⟩
  | sleepRelease hc hp =>
    exact ⟨hr.move hc (by simp [Pos.Off]) rfl (fun _ _ => rfl) rfl rfl, h.wakeups_sleepRelease hp rfl rfl rfl,
      h.exact_moveRelease hc rfl rfl (by simp [hp, Pos.locks]) (fun l' => by cases l' <;> simp [hp, Pos.locks]) rfl⟩
  | sleepSched hc hp =>
    exact ⟨hr.switchOut hc (by simp [Pos.Off]) (by decide) (by intro h; cases h) (fun k hk => by simp_all) rfl
        (fun q hq => Function.update_of_ne hq _ _) rfl rfl,
      h.wakeups_sleepOff hp rfl rfl rfl,
      h.exact_switchOut hc (by simp [hp, Pos.locks]) rfl (fun q hq => Function.update_of_ne hq _ _) rfl⟩
  | sleepTidy hc hp =>
    exact ⟨hr.move hc (by simp [Pos.Off]) rfl (fun q hq => Function.update_of_ne hq _ _) rfl rfl,
      hw.quiet (by simp [hp, Pos.Quiet]) (by simp [Pos.Quiet]) rfl (fun _ _ => rfl) rfl,
      h.exact_moveRelease hc rfl rfl (by simp [hp, Pos.locks]) (fun l' => by cases l' <;> simp [hp, Pos.locks]) rfl⟩
  | sleepReacquire hc hp hfree =>
    exact ⟨hr.move hc (by simp [Pos.Off]) rfl (fun _ _ => rfl) rfl rfl,
      hw.quiet (by simp [hp, Pos.Quiet]) (by simp [Pos.Quiet]) rfl (fun _ _ => rfl) rfl,
      h.exact_moveAcquire hc rfl rfl hfree (by simp [hp, Pos.locks]) rfl⟩
  | yieldAcquire hc hp hfree =>
    exact ⟨hr.move hc (by simp [Pos.Off]) rfl (fun _ _ => rfl) rfl rfl,
      hw.quiet (by simp [hp, Pos.Quiet]) (by simp [Pos.Quiet]) rfl (fun _ _ => rfl) rfl,
      h.exact_moveAcquire hc rfl rfl hfree (by simp [hp, Pos.locks]) rfl⟩
  | yieldSched hc hp =>
    exact ⟨hr.switchOut hc (by simp [Pos.Off]) (by decide) (fun _ => rfl) (fun k hk => by cases hk) rfl (fun _ _ => rfl) rfl rfl,
      hw.quiet (by simp [hp, Pos.Quiet]) (by simp [Pos.Quiet]) rfl (fun q hq => Function.update_of_ne hq _ _) rfl,
      h.exact_switchOut hc (by simp [hp, Pos.locks]) rfl (fun q hq => Function.update_of_ne hq _ _) rfl⟩
  | yieldRelease hc hp =>
    exact ⟨hr.move hc (by simp [Pos.Off]) rfl (fun _ _ => rfl) rfl rfl,
      hw.quiet (by simp [hp, Pos.Quiet]) (by simp [Pos.Quiet]) rfl (fun _ _ => rfl) rfl,
      h.exact_moveRelease hc rfl rfl (by simp [hp, Pos.locks]) (fun l' => by cases l' <;> simp [hp, Pos.locks]) rfl⟩
  | @kill p q hc hp hfree =>
    refine ⟨hr.wakeIf id rfl rfl rfl rfl, hw.shrink rfl rfl fun r k hsl => ?_, h.exact⟩
    -- `kill` only ends sleeps
    rcases hsl with hsl | ⟨hsl, hst⟩
    · exact .inl hsl
    · refine .inr ⟨hsl, ?_⟩
      dsimp only at hst
      by_cases hrq : r = q
      · subst hrq
        rw [Function.update_self] at hst
        split_ifs at hst
        exact hst
      · rwa [Function.update_of_ne hrq] at hst

theorem reachable_inv {cond : κ → Bool} (hreach : Reachable (Step lk) (boot cond) s) : Inv lk s :=
  hreach.invariant (Inv lk) (inv_boot lk cond) fun _ _ _ h hs => h.step hs

end Runs

theorem acquires_not_mem {lk : κ → μ} {l : Lock μ} (hacq : Acquires lk s c l) : l ∉ cpuLocks lk s c := by
  cases hc : s.cpu c with
  | scan i => simp [cpuLocks, hc]
  | back p => simp [Acquires, hc] at hacq
  | run p =>
    simp only [Acquires, hc] at hacq
    rw [cpuLocks_run lk hc]
    cases hp : s.pos p with
    | waking k i =>
      simp only [hp] at hacq
      obtain ⟨q, -, -, rfl⟩ := hacq
      simp [Pos.locks]
    | _ => simp_all [Pos.locks]

theorem releases_mem {lk : κ → μ} {l : Lock μ} (hrel : Releases lk s c l) : l ∈ cpuLocks lk s c := by
  cases hc : s.cpu c with
  | scan i => simp [Releases, hc] at hrel
  | back p => simp_all [Releases, cpuLocks]
  | run p =>
    simp only [Releases, hc] at hrel
    rw [cpuLocks_run lk hc]
    cases hp : s.pos p <;> simp only [hp] at hrel <;> simp_all [Pos.locks]

/-- Over every interleaving of the CPUs from boot, each CPU holds exactly the spinlocks of its place
in the code: none in `scheduler`'s scan and `p->lock` back from `swtch`; for the process it runs, `lk`
in the caller's critical section and in `wakeup`, `lk` and `p->lock` between the acquire and the
release in `sleep`, and `p->lock` around `sched` in `sleep` and `yield`. So no `acquire` finds its
lock held by its own CPU (the panic "acquire"), and every `release` finds its lock held by its CPU
(the panic "release"). -/
theorem lock_discipline [DecidableEq κ] [DecidableEq μ] (lk : κ → μ) (cond : κ → Bool) :
    ∀ s, Reachable (Step lk) (boot cond) s →
      (∀ l c, s.owner l = some c ↔ l ∈ cpuLocks lk s c) ∧
        (∀ c l, Acquires lk s c l → s.owner l ≠ some c) ∧ (∀ c l, Releases lk s c l → s.owner l = some c) := by
  intro s hreach
  have h := reachable_inv hreach
  exact ⟨h.owner_iff, fun c l hacq howner => acquires_not_mem hacq ((h.owner_iff l c).mp howner),
    fun c l hrel => (h.owner_iff l c).mpr (releases_mem hrel)⟩

theorem lock_discipline_acquire :
    ∃ s : Sys Unit Unit, Reachable (Step id) (boot fun _ => false) s ∧ s.owner (.lk ()) = some 0 ∧
      (∀ l c, s.owner l = some c ↔ l ∈ cpuLocks id s c) ∧
        (∀ c l, Acquires id s c l → s.owner l ≠ some c) ∧ (∀ c l, Releases id s c l → s.owner l = some c) := by
  -- CPU `0` switches to process `0`, which returns from `forkret` and takes `lk`
  have h₁ := (@Reachable.init _ _ (Step (id : Unit → Unit)) (boot fun _ => false : Sys Unit Unit)).tail
    (Step.schedRun (c := 0) (i := 0) rfl rfl rfl)
  have h₂ := h₁.tail (Step.yieldRelease (c := 0) (p := 0) rfl rfl)
  have h₃ := h₂.tail (Step.acquire (c := 0) (p := 0) (m := ()) rfl rfl rfl)
  exact ⟨_, h₃, rfl, lock_discipline id _ _ h₃⟩

/-- `sched` is called holding `p->lock` and no other spinlock, from `yield` and from `sleep`: its
checks "sched p->lock" and "sched locks" (`noff == 1`) never fail, and the lock it holds keeps
interrupts off. -/
theorem sched_holds_only_p_lock [DecidableEq κ] [DecidableEq μ] (lk : κ → μ) (cond : κ → Bool) :
    ∀ s, Reachable (Step lk) (boot cond) s → ∀ c p, s.cpu c = .run p →
      (s.pos p = .yieldSched ∨ ∃ k, s.pos p = .sleepSched k) →
        s.owner (.proc p) = some c ∧ ∀ l, s.owner l = some c → l = .proc p := by
  intro s hreach c p hc hp
  have h := reachable_inv hreach
  have hlocks : cpuLocks lk s c = [.proc p] := by
    rw [cpuLocks_run lk hc]
    rcases hp with hp | ⟨k, hp⟩ <;> simp [hp, Pos.locks]
  refine ⟨(h.owner_iff _ c).mpr (by rw [hlocks]; exact List.mem_singleton_self _), fun l hl => ?_⟩
  have hmem := (h.owner_iff l c).mp hl
  rw [hlocks] at hmem
  exact List.mem_singleton.mp hmem

theorem sched_holds_only_p_lock_yield :
    ∃ s : Sys Unit Unit, Reachable (Step id) (boot fun _ => false) s ∧ s.cpu 0 = .run 0 ∧ s.pos 0 = .yieldSched ∧
      s.owner (.proc 0) = some 0 ∧ ∀ l, s.owner l = some 0 → l = .proc 0 := by
  -- CPU `0` switches to process `0`, which returns from `forkret` and calls `yield`
  have h₁ := (@Reachable.init _ _ (Step (id : Unit → Unit)) (boot fun _ => false : Sys Unit Unit)).tail
    (Step.schedRun (c := 0) (i := 0) rfl rfl rfl)
  have h₂ := h₁.tail (Step.yieldRelease (c := 0) (p := 0) rfl rfl)
  have h₃ := h₂.tail (Step.yieldAcquire (c := 0) (p := 0) rfl rfl rfl)
  exact ⟨_, h₃, rfl, rfl, sched_holds_only_p_lock id _ _ h₃ 0 0 rfl (.inl rfl)⟩

/-- A process is `RUNNING` exactly when a CPU runs it, and then only one CPU does; its thread is
switched out in `sched` exactly when it is not `RUNNING`. -/
theorem one_cpu_per_process [DecidableEq κ] [DecidableEq μ] (lk : κ → μ) (cond : κ → Bool) :
    ∀ s, Reachable (Step lk) (boot cond) s → ∀ p,
      (s.state p = .running ↔ ∃ c, s.cpu c = .run p) ∧
        (∀ c c', s.cpu c = .run p → s.cpu c' = .run p → c = c') ∧ ((s.pos p).Off ↔ s.state p ≠ .running) := by
  intro s hreach p
  have h := reachable_inv hreach
  exact ⟨h.running_iff p, fun c c' => h.run_unique c c' p, h.off_iff p⟩

theorem one_cpu_per_process_switch :
    ∃ s : Sys Unit Unit, Reachable (Step id) (boot fun _ => false) s ∧ s.cpu 0 = .run 0 ∧
      (s.state 0 = .running ↔ ∃ c, s.cpu c = .run 0) ∧ (∀ c c', s.cpu c = .run 0 → s.cpu c' = .run 0 → c = c') ∧
        ((s.pos 0).Off ↔ s.state 0 ≠ .running) := by
  -- CPU `0` switches to process `0`
  have h₁ := (@Reachable.init _ _ (Step (id : Unit → Unit)) (boot fun _ => false : Sys Unit Unit)).tail
    (Step.schedRun (c := 0) (i := 0) rfl rfl rfl)
  exact ⟨_, h₁, rfl, one_cpu_per_process id _ _ h₁ 0⟩

/-- No wakeup is lost: over every interleaving, a process `SLEEPING` on a channel whose condition is
true is still ahead of a `wakeup` on that channel under way, which will make it `RUNNABLE`. It went
to sleep after testing the condition false under `lk`, and held `p->lock` from before it released
`lk` until its scheduler released it after the switch, while `wakeup` runs under `lk` and takes
each `p->lock`. -/
theorem no_lost_wakeup [DecidableEq κ] [DecidableEq μ] (lk : κ → μ) (cond : κ → Bool) :
    ∀ s, Reachable (Step lk) (boot cond) s → ∀ p k, s.state p = .sleeping → s.chan p = some k →
      s.cond k = true → ∃ q i, s.pos q = .waking k i ∧ i ≤ p.val := by
  intro s hreach p k hst hchan hk
  have h := reachable_inv hreach
  have hoff : (s.pos p).Off := (h.off_iff p).mpr (by rw [hst]; decide)
  have hyield := h.yieldOff p
  -- a sleeping thread is switched out in `sleep`, not in `yield`
  obtain ⟨k', hx⟩ : ∃ k', s.pos p = .sleepOff k' := by
    cases hx : s.pos p <;> simp_all [Pos.Off]
  have hkk : k' = k := by
    have := (h.sleepOff p k' hx).1
    rw [hchan, Option.some.injEq] at this
    exact this.symm
  subst hkk
  exact h.woken p k' (.inr ⟨hx, hst⟩) hk

theorem no_lost_wakeup_signal :
    ∃ s : Sys Unit Unit, Reachable (Step id) (boot fun _ => false) s ∧ s.state 0 = .sleeping ∧
      s.chan 0 = some () ∧ s.cond () = true ∧ ∃ q i, s.pos q = .waking () i ∧ i ≤ (0 : Fin nproc).val := by
  -- on CPU `0`, process `0` takes `lk`, finds the condition false and sleeps
  have h₁ := (@Reachable.init _ _ (Step (id : Unit → Unit)) (boot fun _ => false : Sys Unit Unit)).tail
    (Step.schedRun (c := 0) (i := 0) rfl rfl rfl)
  have h₂ := h₁.tail (Step.yieldRelease (c := 0) (p := 0) rfl rfl)
  have h₃ := h₂.tail (Step.acquire (c := 0) (p := 0) (m := ()) rfl rfl rfl)
  have h₄ := h₃.tail (Step.sleep (c := 0) (p := 0) (k := ()) rfl rfl rfl)
  have h₅ := h₄.tail (Step.sleepAcquire (c := 0) (p := 0) rfl rfl rfl)
  have h₆ := h₅.tail (Step.sleepRelease (c := 0) (p := 0) rfl rfl)
  have h₇ := h₆.tail (Step.sleepSched (c := 0) (p := 0) rfl rfl)
  have h₈ := h₇.tail (Step.schedBack (c := 0) (p := 0) rfl)
  -- then process `1` takes `lk`, makes the condition true and calls `wakeup`
  have h₉ := h₈.tail (Step.schedRun (c := 0) (i := 1) rfl rfl rfl)
  have h₁₀ := h₉.tail (Step.yieldRelease (c := 0) (p := 1) rfl rfl)
  have h₁₁ := h₁₀.tail (Step.acquire (c := 0) (p := 1) (m := ()) rfl rfl rfl)
  have h₁₂ := h₁₁.tail (Step.signal (c := 0) (p := 1) (k := ()) rfl rfl)
  exact ⟨_, h₁₂, rfl, rfl, rfl, no_lost_wakeup id _ _ h₁₂ 0 () rfl rfl rfl⟩

end Xv6.Sched
