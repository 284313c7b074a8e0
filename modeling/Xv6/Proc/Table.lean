import Xv6.Param
import Xv6.Library.Run

/-!
# The process table: `fork`, `exit`, `wait` and `kill`

The bookkeeping half of `proc.c`: the slots of `proc[NPROC]` with their state, pid, parent pointer,
`killed` flag and exit status, the counter `nextpid` and `initproc`. Each system call is one step, as
the locks make it (`wait_lock` orders every change of a parent pointer and every reap); a `wait` that
would sleep has no step until something changes, and `exit` of `init` panics.

The memory a process owns is left out: whether `fork` finds a trapframe, a page table and room for the
copy of the user memory is the argument `memOk`, and whether `wait` can copy the exit status out is
`copyOk`. The scheduler moves processes between `RUNNABLE` and `RUNNING`; only a running process calls.
-/

namespace Xv6.Process

/-- `enum procstate`. -/
inductive Procstate
  | unused | used | sleeping | runnable | running | zombie
  deriving DecidableEq, Repr

/-- The fields of `struct proc` the four calls use. -/
structure Proc where
  state : Procstate
  killed : Bool
  xstate : Int32
  pid : Int32
  parent : Option (Fin nproc)
  deriving DecidableEq, Repr

structure Ptable where
  proc : Fin nproc → Proc
  nextpid : Int32
  initproc : Fin nproc

/-- The table with slot `i` replaced. -/
def Ptable.set (t : Ptable) (i : Fin nproc) (q : Proc) : Ptable := { t with proc := Function.update t.proc i q }

@[simp] theorem Ptable.set_proc_self (t : Ptable) (i : Fin nproc) (q : Proc) : (t.set i q).proc i = q := by
  simp [Ptable.set]

@[simp] theorem Ptable.set_proc_of_ne (t : Ptable) {i j : Fin nproc} (q : Proc) (h : j ≠ i) :
    (t.set i q).proc j = t.proc j := by
  simp [Ptable.set, h]

@[simp] theorem Ptable.set_initproc (t : Ptable) (i : Fin nproc) (q : Proc) : (t.set i q).initproc = t.initproc := rfl

theorem Ptable.set_proc (t : Ptable) (i : Fin nproc) (q : Proc) (j : Fin nproc) :
    (t.set i q).proc j = if j = i then q else t.proc j :=
  Function.update_apply t.proc i q j

/-- What a call returns: a new child with its pid, a reaped child with its pid and exit status, success
without a value, or `-1`. -/
inductive Ret
  | forked (np : Fin nproc) (pid : Int32)
  | reaped (c : Fin nproc) (pid : Int32) (status : Int32)
  | ok
  | failed
  deriving DecidableEq, Repr

/-- The slot as `freeproc` leaves it. -/
def freeproc : Proc := ⟨.unused, false, 0, 0, none⟩

/-- `allocpid`: the next pid, and the counter advanced. -/
def allocpid (t : Ptable) : Int32 × Ptable := (t.nextpid, { t with nextpid := t.nextpid + 1 })

/-- The slot `allocproc` takes: the first `UNUSED` one in table order. -/
def findUnused (t : Ptable) : Option (Fin nproc) :=
  (List.finRange nproc).find? fun i => (t.proc i).state = .unused

/-- `fork` called by `p`. After `allocproc` has taken a slot and a pid, a failed allocation frees the
slot again; otherwise the child is `RUNNABLE` with parent `p`. `allocproc` resets neither `killed` nor
`xstate`. -/
def fork (t : Ptable) (p : Fin nproc) (memOk : Bool) : Ret × Ptable :=
  match findUnused t with
  | none => (.failed, t)
  | some np =>
    let pid := (allocpid t).1
    let t := (allocpid t).2
    if memOk then (.forked np pid, t.set np { t.proc np with pid := pid, state := .runnable, parent := some p })
    else (.failed, t.set np freeproc)

/-- `reparent`: every child of `p` passes to `init`. -/
def reparent (t : Ptable) (p : Fin nproc) : Ptable :=
  { t with proc := fun i =>
      if (t.proc i).parent = some p then { t.proc i with parent := some t.initproc } else t.proc i }

/-- `exit` of `p`: `none` is the panic "init exiting". -/
def exit (t : Ptable) (p : Fin nproc) (status : Int32) : Option Ptable :=
  if p = t.initproc then none
  else
    let t := reparent t p
    some (t.set p { t.proc p with xstate := status, state := .zombie })

/-- The child `wait`'s scan stops at: the first `ZOMBIE` slot in table order whose parent is `p`. -/
def firstZombieChild (t : Ptable) (p : Fin nproc) : Option (Fin nproc) :=
  (List.finRange nproc).find? fun i => (t.proc i).parent = some p ∧ (t.proc i).state = .zombie

/-- `havekids` after a scan that found no zombie child. -/
def haveKids (t : Ptable) (p : Fin nproc) : Bool :=
  (List.finRange nproc).any fun i => (t.proc i).parent = some p

/-- `wait` called by `p`; `none` when it sleeps. -/
def wait (t : Ptable) (p : Fin nproc) (copyOk : Bool) : Option (Ret × Ptable) :=
  match firstZombieChild t p with
  | some c =>
    if copyOk then some (.reaped c (t.proc c).pid (t.proc c).xstate, t.set c freeproc)
    else some (.failed, t)
  | none => if !haveKids t p || (t.proc p).killed then some (.failed, t) else none

/-- `kill(pid)`: marks the first slot in table order whose pid is `pid`, whatever its state. -/
def kill (t : Ptable) (pid : Int32) : Ret × Ptable :=
  match (List.finRange nproc).find? fun i => (t.proc i).pid = pid with
  | some i =>
    (.ok, t.set i { t.proc i with
      killed := true, state := if (t.proc i).state = .sleeping then .runnable else (t.proc i).state })
  | none => (.failed, t)

/-- A system call by a process, or a scheduling decision. -/
inductive Call
  | fork (p : Fin nproc) (memOk : Bool)
  | exit (p : Fin nproc) (status : Int32)
  | wait (p : Fin nproc) (copyOk : Bool)
  | kill (p : Fin nproc) (pid : Int32)
  | schedule (p : Fin nproc)
  | yield (p : Fin nproc)
  deriving DecidableEq, Repr

/-- One call and what it returned. -/
abbrev Event := Call × Ret

/-- The effect of one call, when it is enabled. -/
def exec (t : Ptable) : Call → Option (Ret × Ptable)
  | .fork p memOk => if (t.proc p).state = .running then some (fork t p memOk) else none
  | .exit p status => if (t.proc p).state = .running then (exit t p status).map fun t => (.ok, t) else none
  | .wait p copyOk => if (t.proc p).state = .running then wait t p copyOk else none
  | .kill p pid => if (t.proc p).state = .running then some (kill t pid) else none
  | .schedule p =>
    if (t.proc p).state = .runnable then some (.ok, t.set p { t.proc p with state := .running }) else none
  | .yield p =>
    if (t.proc p).state = .running then some (.ok, t.set p { t.proc p with state := .runnable }) else none

def Step (t : Ptable) (e : Event) (t' : Ptable) : Prop := exec t e.1 = some (e.2, t')

@[simp] theorem allocpid_proc (t : Ptable) : (allocpid t).2.proc = t.proc := rfl

@[simp] theorem allocpid_initproc (t : Ptable) : (allocpid t).2.initproc = t.initproc := rfl

@[simp] theorem reparent_initproc (t : Ptable) (p : Fin nproc) : (reparent t p).initproc = t.initproc := rfl

theorem reparent_proc (t : Ptable) (p i : Fin nproc) :
    (reparent t p).proc i =
      if (t.proc i).parent = some p then { t.proc i with parent := some t.initproc } else t.proc i := rfl

@[simp] theorem reparent_state (t : Ptable) (p i : Fin nproc) : ((reparent t p).proc i).state = (t.proc i).state := by
  rw [reparent_proc]
  split <;> rfl

@[simp] theorem reparent_pid (t : Ptable) (p i : Fin nproc) : ((reparent t p).proc i).pid = (t.proc i).pid := by
  rw [reparent_proc]
  split <;> rfl

theorem reparent_parent (t : Ptable) (p i : Fin nproc) :
    ((reparent t p).proc i).parent = if (t.proc i).parent = some p then some t.initproc else (t.proc i).parent := by
  rw [reparent_proc]
  split <;> rfl

theorem findUnused_state {t : Ptable} {np : Fin nproc} (h : findUnused t = some np) :
    (t.proc np).state = .unused := by
  simpa using List.find?_some h

theorem firstZombieChild_spec {t : Ptable} {p c : Fin nproc} (h : firstZombieChild t p = some c) :
    (t.proc c).parent = some p ∧ (t.proc c).state = .zombie := by
  simpa using List.find?_some h

/-- Everything `fork` can do: fail before taking a slot, or take the first unused slot `np` and the
pid `nextpid`, then either fill the slot or free it again. -/
theorem fork_cases {t t' : Ptable} {p : Fin nproc} {memOk : Bool} {r : Ret} (h : fork t p memOk = (r, t')) :
    (r = .failed ∧ t' = t) ∨
      ∃ np, (t.proc np).state = .unused ∧
        ((memOk = true ∧ r = .forked np t.nextpid ∧
            t' = (allocpid t).2.set np { t.proc np with pid := t.nextpid, state := .runnable, parent := some p }) ∨
          (memOk = false ∧ r = .failed ∧ t' = (allocpid t).2.set np freeproc)) := by
  cases hnp : findUnused t with
  | none =>
    simp only [fork, hnp, Prod.mk.injEq] at h
    exact .inl ⟨h.1.symm, h.2.symm⟩
  | some np =>
    refine .inr ⟨np, findUnused_state hnp, ?_⟩
    cases memOk with
    | true =>
      simp only [fork, hnp, if_true, Prod.mk.injEq] at h
      exact .inl ⟨rfl, h.1.symm, h.2.symm⟩
    | false =>
      simp only [fork, hnp, Bool.false_eq_true, if_false, Prod.mk.injEq] at h
      exact .inr ⟨rfl, h.1.symm, h.2.symm⟩

theorem exit_cases {t t' : Ptable} {p : Fin nproc} {status : Int32} (h : exit t p status = some t') :
    p ≠ t.initproc ∧ t' = (reparent t p).set p { (reparent t p).proc p with xstate := status, state := .zombie } := by
  unfold exit at h
  split at h
  · cases h
  · exact ⟨‹_›, (Option.some.inj h).symm⟩

/-- Everything `wait` can do without sleeping: reap the zombie child it finds first, after copying out
its status, or return `-1` with the table unchanged. -/
theorem wait_cases {t t' : Ptable} {p : Fin nproc} {copyOk : Bool} {r : Ret} (h : wait t p copyOk = some (r, t')) :
    (∃ c, firstZombieChild t p = some c ∧ copyOk = true ∧
        r = .reaped c (t.proc c).pid (t.proc c).xstate ∧ t' = t.set c freeproc) ∨
      (r = .failed ∧ t' = t) := by
  unfold wait at h
  split at h
  · rename_i c hc
    split at h
    · rw [Option.some.injEq, Prod.mk.injEq] at h
      exact .inl ⟨c, hc, ‹_›, h.1.symm, h.2.symm⟩
    · rw [Option.some.injEq, Prod.mk.injEq] at h
      exact .inr ⟨h.1.symm, h.2.symm⟩
  · split at h
    · rw [Option.some.injEq, Prod.mk.injEq] at h
      exact .inr ⟨h.1.symm, h.2.symm⟩
    · cases h

theorem kill_cases {t t' : Ptable} {pid : Int32} {r : Ret} (h : kill t pid = (r, t')) :
    (r = .failed ∧ t' = t) ∨
      ∃ i, r = .ok ∧ t' = t.set i { t.proc i with
        killed := true, state := if (t.proc i).state = .sleeping then .runnable else (t.proc i).state } := by
  unfold kill at h
  split at h
  · rw [Prod.mk.injEq] at h
    exact .inr ⟨_, h.1.symm, h.2.symm⟩
  · rw [Prod.mk.injEq] at h
    exact .inl ⟨h.1.symm, h.2.symm⟩

section Inversion

variable {t t' : Ptable} {r : Ret}

theorem step_fork {p : Fin nproc} {memOk : Bool} (h : Step t (.fork p memOk, r) t') :
    (t.proc p).state = .running ∧ fork t p memOk = (r, t') := by
  simp only [Step, exec] at h
  split at h
  · exact ⟨‹_›, Option.some.inj h⟩
  · cases h

theorem step_exit {p : Fin nproc} {status : Int32} (h : Step t (.exit p status, r) t') :
    (t.proc p).state = .running ∧ r = .ok ∧ exit t p status = some t' := by
  simp only [Step, exec] at h
  split at h
  · obtain ⟨t'', hexit, heq⟩ := Option.map_eq_some_iff.mp h
    rw [Prod.mk.injEq] at heq
    exact ⟨‹_›, heq.1.symm, heq.2 ▸ hexit⟩
  · cases h

theorem step_wait {p : Fin nproc} {copyOk : Bool} (h : Step t (.wait p copyOk, r) t') :
    (t.proc p).state = .running ∧ wait t p copyOk = some (r, t') := by
  simp only [Step, exec] at h
  split at h
  · exact ⟨‹_›, h⟩
  · cases h

theorem step_kill {p : Fin nproc} {pid : Int32} (h : Step t (.kill p pid, r) t') :
    (t.proc p).state = .running ∧ kill t pid = (r, t') := by
  simp only [Step, exec] at h
  split at h
  · exact ⟨‹_›, Option.some.inj h⟩
  · cases h

theorem step_schedule {p : Fin nproc} (h : Step t (.schedule p, r) t') :
    (t.proc p).state = .runnable ∧ r = .ok ∧ t' = t.set p { t.proc p with state := .running } := by
  simp only [Step, exec] at h
  split at h
  · rw [Option.some.injEq, Prod.mk.injEq] at h
    exact ⟨‹_›, h.1.symm, h.2.symm⟩
  · cases h

theorem step_yield {p : Fin nproc} (h : Step t (.yield p, r) t') :
    (t.proc p).state = .running ∧ r = .ok ∧ t' = t.set p { t.proc p with state := .runnable } := by
  simp only [Step, exec] at h
  split at h
  · rw [Option.some.injEq, Prod.mk.injEq] at h
    exact ⟨‹_›, h.1.symm, h.2.symm⟩
  · cases h

theorem Step.initproc {e : Event} (h : Step t e t') : t'.initproc = t.initproc := by
  obtain ⟨c, r⟩ := e
  cases c with
  | fork p memOk =>
    rcases fork_cases (step_fork h).2 with ⟨-, rfl⟩ | ⟨np, -, ⟨-, -, rfl⟩ | ⟨-, -, rfl⟩⟩ <;> rfl
  | exit p status =>
    obtain ⟨-, rfl⟩ := exit_cases (step_exit h).2.2
    rfl
  | wait p copyOk =>
    rcases wait_cases (step_wait h).2 with ⟨c, -, -, -, rfl⟩ | ⟨-, rfl⟩ <;> rfl
  | kill p pid =>
    rcases kill_cases (step_kill h).2 with ⟨-, rfl⟩ | ⟨i, -, rfl⟩ <;> rfl
  | schedule p =>
    obtain ⟨-, -, rfl⟩ := step_schedule h
    rfl
  | yield p =>
    obtain ⟨-, -, rfl⟩ := step_yield h
    rfl

end Inversion

/-- The table after `userinit`: `init` in slot 0 with pid 1, every other slot as the zeroed `proc[]`. -/
def boot : Ptable where
  proc := fun i => if i = 0 then ⟨.runnable, false, 0, 1, none⟩ else ⟨.unused, false, 0, 0, none⟩
  nextpid := 2
  initproc := 0

end Xv6.Process
