import Xv6.Proc.Lifecycle

/-!
# Pids: `allocpid` and `kill`

`freeproc` gives a slot pid `0`, and so does the zeroed `proc[]`: every unused slot of a reachable
table has pid `0` (`unusedPidZero_of_reachable`). `kill` looks for its pid in every slot, unused ones
included, and `allocproc` clears neither `killed` nor anything else that `kill` set. So when no
process has pid `0`, `kill(0)` still returns `0`, marking the first unused slot, and the next `fork`
hands that slot, `killed` already set, to its child (`kill_zero_marks_next_child`).

`nextpid` is an `int` that every `allocproc` advances, also when the allocation then fails and the
slot is freed again, and never takes back. After `2^32 - 1` failed forks from boot it has wrapped
through the negative pids back to `1`, and the next child gets pid `1` while `init` holds it
(`allocpid_reuses_init_pid`). The signed overflow is undefined in C; the model takes the two's
complement wrap of the `addw` the compiler emits.
-/

namespace Xv6.Process

open Transition

/-- Every unused slot has pid `0`. -/
def UnusedPidZero (t : Ptable) : Prop := ∀ i, (t.proc i).state = .unused → (t.proc i).pid = 0

section Unused

variable {t : Ptable}

theorem UnusedPidZero.set (hinv : UnusedPidZero t) {i : Fin nproc} {q : Proc} (hq : q.state = .unused → q.pid = 0) :
    UnusedPidZero (t.set i q) := by
  intro j hj
  by_cases hji : j = i
  · subst hji
    rw [Ptable.set_proc_self] at hj ⊢
    exact hq hj
  · rw [Ptable.set_proc_of_ne _ _ hji] at hj ⊢
    exact hinv j hj

theorem UnusedPidZero.reparent (hinv : UnusedPidZero t) (p : Fin nproc) : UnusedPidZero (reparent t p) := by
  intro j hj
  rw [reparent_state] at hj
  rw [reparent_pid]
  exact hinv j hj

theorem UnusedPidZero.step {e : Event} {t' : Ptable} (hinv : UnusedPidZero t) (h : Step t e t') : UnusedPidZero t' := by
  obtain ⟨c, r⟩ := e
  cases c with
  | fork p memOk =>
    rcases fork_cases (step_fork h).2 with ⟨-, rfl⟩ | ⟨np, -, ⟨-, -, rfl⟩ | ⟨-, -, rfl⟩⟩
    · exact hinv
    · exact UnusedPidZero.set (t := (allocpid t).2) hinv nofun
    · exact UnusedPidZero.set (t := (allocpid t).2) hinv fun _ => rfl
  | exit p status =>
    obtain ⟨-, rfl⟩ := exit_cases (step_exit h).2.2
    exact (hinv.reparent p).set nofun
  | wait p copyOk =>
    rcases wait_cases (step_wait h).2 with ⟨c, -, -, -, rfl⟩ | ⟨-, rfl⟩
    · exact hinv.set fun _ => rfl
    · exact hinv
  | kill p pid =>
    rcases kill_cases (step_kill h).2 with ⟨-, rfl⟩ | ⟨i, -, rfl⟩
    · exact hinv
    · -- `kill` turns a sleeper into a runnable process and leaves every other state, and the pid
      refine hinv.set fun hu => hinv i ?_
      by_cases hsleep : (t.proc i).state = .sleeping
      · simp [hsleep] at hu
      · simpa [hsleep] using hu
  | schedule p =>
    obtain ⟨-, -, rfl⟩ := step_schedule h
    exact hinv.set nofun
  | yield p =>
    obtain ⟨-, -, rfl⟩ := step_yield h
    exact hinv.set nofun

theorem boot_unusedPidZero : UnusedPidZero boot := by
  intro i hi
  by_cases h0 : i = 0
  · subst h0
    cases hi
  · simp [boot, h0]

theorem unusedPidZero_of_reachable (hreach : Reachable Step boot t) : UnusedPidZero t :=
  hreach.invariant UnusedPidZero boot_unusedPidZero fun _ _ _ hinv h => hinv.step h

end Unused

section Kill

variable {t t' : Ptable}

/-- The slot a successful `fork` fills is the first unused one. -/
theorem fork_slot {p np : Fin nproc} {memOk : Bool} {pid : Int32} (h : fork t p memOk = (.forked np pid, t')) :
    findUnused t = some np := by
  unfold fork at h
  cases hnp : findUnused t with
  | none => simp [hnp] at h
  | some np' =>
    simp only [hnp] at h
    split at h
    · rw [Prod.mk.injEq, Ret.forked.injEq] at h
      rw [h.1.1]
    · simp at h

/-- `kill` changes which slots are unused in no slot. -/
theorem kill_unused_iff (pid : Int32) (j : Fin nproc) :
    ((kill t pid).2.proc j).state = .unused ↔ (t.proc j).state = .unused := by
  rcases hk : kill t pid with ⟨r, t'⟩
  rcases kill_cases hk with ⟨-, rfl⟩ | ⟨i, -, rfl⟩
  · rfl
  · rw [Ptable.set_proc]
    by_cases hji : j = i
    · subst hji
      by_cases hsleep : (t.proc j).state = .sleeping <;> simp [hsleep]
    · simp [hji]

theorem findUnused_kill (pid : Int32) : findUnused (kill t pid).2 = findUnused t := by
  unfold findUnused
  congr 1
  funext j
  rw [decide_eq_decide]
  exact kill_unused_iff pid j

/-- For a pid other than `0`, `kill` returns `0` exactly when a used slot has that pid, and sets
`killed` in no other slot. -/
theorem kill_of_ne_zero (hinv : UnusedPidZero t) {pid : Int32} (hpid : pid ≠ 0) :
    ((kill t pid).1 = .ok ↔ ∃ i, (t.proc i).state ≠ .unused ∧ (t.proc i).pid = pid) ∧
      ∀ i, ((kill t pid).2.proc i).killed ≠ (t.proc i).killed → (t.proc i).state ≠ .unused ∧ (t.proc i).pid = pid := by
  -- a slot with pid `pid` is used, since unused slots have pid `0`
  have hused : ∀ i, (t.proc i).pid = pid → (t.proc i).state ≠ .unused := fun i hi hu => hpid (hi ▸ hinv i hu)
  cases hscan : (List.finRange nproc).find? (fun i => (t.proc i).pid = pid) with
  | none =>
    have hno : ∀ i, (t.proc i).pid ≠ pid := by simpa [List.find?_eq_none] using hscan
    simp only [kill, hscan]
    exact ⟨iff_of_false nofun fun ⟨i, _, hi⟩ => hno i hi, fun i h => absurd rfl h⟩
  | some i =>
    have hi : (t.proc i).pid = pid := by simpa using List.find?_some hscan
    simp only [kill, hscan]
    refine ⟨iff_of_true trivial ⟨i, hused i hi, hi⟩, fun j hj => ?_⟩
    by_cases hji : j = i
    · subst hji
      exact ⟨hused j hi, hi⟩
    · rw [Ptable.set_proc_of_ne _ _ hji] at hj
      exact absurd rfl hj

/-- When no process has pid `0`, the slots with pid `0` are exactly the unused ones, and `kill(0)`
finds the first unused slot. -/
theorem kill_zero_of_unusedPidZero (hinv : UnusedPidZero t) (hnone : ∀ i, (t.proc i).state ≠ .unused → (t.proc i).pid ≠ 0)
    {np : Fin nproc} (hnp : findUnused t = some np) :
    kill t 0 = (.ok, t.set np { t.proc np with
      killed := true, state := if (t.proc np).state = .sleeping then .runnable else (t.proc np).state }) := by
  have hscan : (List.finRange nproc).find? (fun i => (t.proc i).pid = 0) = findUnused t := by
    unfold findUnused
    congr 1
    funext i
    rw [decide_eq_decide]
    exact ⟨fun h => by_contra fun hu => hnone i hu h, hinv i⟩
  simp only [kill, hscan, hnp]

/-- `kill(0)` when no process has pid `0`: it returns `0`, having marked the first unused slot, and the
child of the next successful `fork` starts in that slot with `killed` set. -/
theorem kill_zero_marks_next_child {t₁ t₂ : Ptable} {p np : Fin nproc} {r : Ret} {pid : Int32}
    (hreach : Reachable Step boot t) (hnone : ∀ i, (t.proc i).state ≠ .unused → (t.proc i).pid ≠ 0)
    (hkill : Step t (.kill p 0, r) t₁) (hfork : Step t₁ (.fork p true, .forked np pid) t₂) :
    r = .ok ∧ (t.proc np).state = .unused ∧ (t₂.proc np).killed = true := by
  have hkill' := (step_kill hkill).2
  have hfork' := (step_fork hfork).2
  -- the slot `fork` takes after the `kill` is the first unused slot before it
  have hnp : findUnused t = some np := by
    rw [← findUnused_kill (t := t) 0, hkill']
    exact fork_slot hfork'
  rw [kill_zero_of_unusedPidZero (unusedPidZero_of_reachable hreach) hnone hnp, Prod.mk.injEq] at hkill'
  obtain ⟨rfl, rfl⟩ := hkill'
  refine ⟨rfl, findUnused_state hnp, ?_⟩
  rcases fork_cases hfork' with ⟨h, -⟩ | ⟨np', -, ⟨-, hr, rfl⟩ | ⟨-, h, -⟩⟩
  · cases h
  · rw [Ret.forked.injEq] at hr
    obtain ⟨rfl, -⟩ := hr
    simp
  · cases h

/-- The table once `init` runs. -/
def initRunning : Ptable := boot.set 0 { boot.proc 0 with state := .running }

theorem reachable_initRunning : Reachable Step boot initRunning :=
  (Reachable.init boot).tail (e := (.schedule 0, .ok)) rfl

/-- `init` calls `kill(0)` and then `fork()`: its child, pid `2` in slot `1`, is killed before it runs. -/
theorem kill_zero_marks_next_child_after_boot :
    ∃ t₁ t₂, (∀ i, (initRunning.proc i).state ≠ .unused → (initRunning.proc i).pid ≠ 0) ∧
      Step initRunning (.kill 0 0, .ok) t₁ ∧ Step t₁ (.fork 0 true, .forked 1 2) t₂ ∧
      (initRunning.proc 1).state = .unused ∧ (t₂.proc 1).killed = true := by
  have hnone : ∀ i, (initRunning.proc i).state ≠ .unused → (initRunning.proc i).pid ≠ 0 := by decide
  have hkill : Step initRunning (.kill 0 0, .ok) (kill initRunning 0).2 := rfl
  have hfork : Step (kill initRunning 0).2 (.fork 0 true, .forked 1 2) (fork (kill initRunning 0).2 0 true).2 := rfl
  exact ⟨_, _, hnone, hkill, hfork, (kill_zero_marks_next_child reachable_initRunning hnone hkill hfork).2⟩

end Kill

section Wrap

variable {t : Ptable}

/-- A `fork` whose allocation fails after `allocproc` has taken a slot still uses up a pid. When the
slot it takes is as `freeproc` leaves it, only `nextpid` changes. -/
theorem step_fork_fails {p np : Fin nproc} (hrun : (t.proc p).state = .running) (hnp : findUnused t = some np)
    (hfree : t.proc np = freeproc) : Step t (.fork p false, .failed) { t with nextpid := t.nextpid + 1 } := by
  have hset : (allocpid t).2.set np freeproc = { t with nextpid := t.nextpid + 1 } := by
    rw [← hfree]
    simp [Ptable.set, allocpid]
  simp only [Step, exec, if_pos hrun, fork, hnp, Bool.false_eq_true, if_false, hset]

/-- `n` failed forks advance `nextpid` by `n`, in `int` arithmetic, and change nothing else. -/
theorem run_fork_fails {p np : Fin nproc} (hrun : (t.proc p).state = .running) (hnp : findUnused t = some np)
    (hfree : t.proc np = freeproc) :
    ∀ n, Run Step t (List.replicate n (.fork p false, .failed)) { t with nextpid := t.nextpid + Int32.ofNat n }
  | 0 => by simpa using Run.nil t
  | n + 1 => by
    rw [List.replicate_succ', Int32.ofNat_add, ← Int32.add_assoc]
    exact (run_fork_fails hrun hnp hfree n).snoc (step_fork_fails hrun hnp hfree)

/-- After `2^32 - 1` failed forks from boot, `fork` gives its child pid `1`, the pid of `init`, which
is running. -/
theorem allocpid_reuses_init_pid :
    ∃ t t', Reachable Step boot t ∧ Step t (.fork 0 true, .forked 1 1) t' ∧
      (t'.proc 0).state = .running ∧ (t'.proc 0).pid = 1 ∧ (t'.proc 1).pid = 1 := by
  have hrun : (initRunning.proc 0).state = .running := rfl
  have hnp : findUnused initRunning = some 1 := by decide
  have hfree : initRunning.proc 1 = freeproc := by decide
  -- `2 + (2^32 - 1)` is `1` in 32 bits
  have hwrap : initRunning.nextpid + Int32.ofNat (2 ^ 32 - 1) = 1 := by decide
  let t : Ptable := { initRunning with nextpid := 1 }
  have hreach : Reachable Step boot t := by
    have := run_fork_fails hrun hnp hfree (2 ^ 32 - 1)
    rw [hwrap] at this
    exact reachable_initRunning.run this
  have hfork : Step t (.fork 0 true, .forked 1 1) (fork t 0 true).2 := rfl
  exact ⟨t, _, hreach, hfork, rfl, rfl, rfl⟩

end Wrap

end Xv6.Process
