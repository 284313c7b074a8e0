import Xv6.Proc.Table

/-!
# Parents, zombies and `wait`

`Inv` is the shape of the parent relation that `fork`, `exit` (through `reparent`) and `wait` keep:
`init` and every parent are live, every used slot other than `init`'s has a parent, and an unused slot
has none. A zombie stays one, with its pid and exit status, until one successful `wait` of its
parent frees it (`zombie_step`).

For one process `p` other than `init` that does not exit, the pids of its children together with the
pids its `wait`s have returned are the pids its `fork`s have returned (`childPids_run`), so its waits
return each forked pid once and then `-1`. Two things the scan in `wait` does are easy to miss: it
reaps a zombie child before it looks at `killed`, so a killed caller with a zombie child gets the
child's pid (`killed_wait_reaps`); and `init`, which inherits orphans, reaps children it never forked.
-/

namespace Xv6.Process

open Transition

/-- A slot holding a process that has not exited. -/
def Procstate.Live (s : Procstate) : Prop := s ≠ .unused ∧ s ≠ .zombie

instance : DecidablePred Procstate.Live := fun s => inferInstanceAs (Decidable (s ≠ .unused ∧ s ≠ .zombie))

theorem Procstate.running_live : Procstate.Live .running := ⟨nofun, nofun⟩

theorem slot_ne_of_live {t : Ptable} {i j : Fin nproc} (hi : (t.proc i).state.Live) (hj : ¬ (t.proc j).state.Live) :
    i ≠ j := by
  rintro rfl
  exact hj hi

theorem not_live_of_unused {t : Ptable} {i : Fin nproc} (h : (t.proc i).state = .unused) : ¬ (t.proc i).state.Live :=
  fun hl => hl.1 h

theorem not_live_of_zombie {t : Ptable} {i : Fin nproc} (h : (t.proc i).state = .zombie) : ¬ (t.proc i).state.Live :=
  fun hl => hl.2 h

structure Inv (t : Ptable) : Prop where
  init_live : (t.proc t.initproc).state.Live
  parent_live : ∀ i j, (t.proc i).parent = some j → (t.proc j).state.Live
  orphan_init : ∀ i, (t.proc i).state ≠ .unused → (t.proc i).parent = none → i = t.initproc
  unused_orphan : ∀ i, (t.proc i).state = .unused → (t.proc i).parent = none

section Preservation

variable {t : Ptable}

theorem Inv.ne_init (hinv : Inv t) {i : Fin nproc} (hi : ¬ (t.proc i).state.Live) : i ≠ t.initproc :=
  (slot_ne_of_live hinv.init_live hi).symm

theorem Inv.not_parent (hinv : Inv t) {i : Fin nproc} (hi : ¬ (t.proc i).state.Live) (j : Fin nproc) :
    (t.proc j).parent ≠ some i :=
  fun h => hi (hinv.parent_live j i h)

/-- `Inv` reads of a slot only whether it is unused, whether it is live, and its parent. -/
theorem Inv.of_frame {t' : Ptable} (hinv : Inv t) (hinit : t'.initproc = t.initproc)
    (hunused : ∀ j, (t'.proc j).state = .unused ↔ (t.proc j).state = .unused)
    (hlive : ∀ j, (t'.proc j).state.Live ↔ (t.proc j).state.Live)
    (hparent : ∀ j, (t'.proc j).parent = (t.proc j).parent) : Inv t' where
  init_live := by
    rw [hinit, hlive]
    exact hinv.init_live
  parent_live i j h := (hlive j).mpr (hinv.parent_live i j ((hparent i) ▸ h))
  orphan_init i hu hp := hinit ▸ hinv.orphan_init i (fun h => hu ((hunused i).mpr h)) (by rwa [hparent] at hp)
  unused_orphan i hu := by
    rw [hparent]
    exact hinv.unused_orphan i ((hunused i).mp hu)

theorem Inv.allocpid (hinv : Inv t) : Inv (allocpid t).2 := ⟨hinv.1, hinv.2, hinv.3, hinv.4⟩

/-- Replacing a slot by a record with the same parent, unused or live exactly when the old one was:
what `kill` and the scheduler do. -/
theorem Inv.set_same {i : Fin nproc} {q : Proc} (hinv : Inv t)
    (hunused : q.state = .unused ↔ (t.proc i).state = .unused) (hlive : q.state.Live ↔ (t.proc i).state.Live)
    (hparent : q.parent = (t.proc i).parent) : Inv (t.set i q) := by
  refine hinv.of_frame rfl (fun j => ?_) (fun j => ?_) (fun j => ?_)
  all_goals
    by_cases h : j = i
    · subst h
      simp only [Ptable.set_proc_self]
      assumption
    · simp only [Ptable.set_proc_of_ne _ _ h]

/-- Freeing a slot whose process is not live: a zombie being reaped, or the slot a failed `fork` took. -/
theorem Inv.set_freeproc {i : Fin nproc} (hinv : Inv t) (hi : ¬ (t.proc i).state.Live) :
    Inv (t.set i freeproc) where
  init_live := by
    rw [Ptable.set_initproc, Ptable.set_proc_of_ne _ _ (hinv.ne_init hi).symm]
    exact hinv.init_live
  parent_live j k hjk := by
    have hj : j ≠ i := by
      rintro rfl
      simp [freeproc] at hjk
    rw [Ptable.set_proc_of_ne _ _ hj] at hjk
    have hk := hinv.parent_live j k hjk
    rwa [Ptable.set_proc_of_ne _ _ (slot_ne_of_live hk hi)]
  orphan_init j hj hnone := by
    have hji : j ≠ i := by
      rintro rfl
      simp [freeproc] at hj
    rw [Ptable.set_proc_of_ne _ _ hji] at hj hnone
    exact hinv.orphan_init j hj hnone
  unused_orphan j hj := by
    by_cases hji : j = i
    · subst hji
      simp [freeproc]
    · rw [Ptable.set_proc_of_ne _ _ hji] at hj ⊢
      exact hinv.unused_orphan j hj

/-- Filling an unused slot with a live child of a live process: a successful `fork`. -/
theorem Inv.set_child {np p : Fin nproc} {q : Proc} (hinv : Inv t) (hnp : (t.proc np).state = .unused)
    (hp : (t.proc p).state.Live) (hq : q.state.Live) (hparent : q.parent = some p) : Inv (t.set np q) where
  init_live := by
    rw [Ptable.set_initproc, Ptable.set_proc_of_ne _ _ (hinv.ne_init (not_live_of_unused hnp)).symm]
    exact hinv.init_live
  parent_live j k hjk := by
    by_cases hj : j = np
    · subst hj
      rw [Ptable.set_proc_self, hparent, Option.some.injEq] at hjk
      subst hjk
      rwa [Ptable.set_proc_of_ne _ _ (slot_ne_of_live hp (not_live_of_unused hnp))]
    · rw [Ptable.set_proc_of_ne _ _ hj] at hjk
      have hk := hinv.parent_live j k hjk
      rwa [Ptable.set_proc_of_ne _ _ (slot_ne_of_live hk (not_live_of_unused hnp))]
  orphan_init j hj hnone := by
    by_cases hjn : j = np
    · subst hjn
      rw [Ptable.set_proc_self, hparent] at hnone
      cases hnone
    · rw [Ptable.set_proc_of_ne _ _ hjn] at hj hnone
      exact hinv.orphan_init j hj hnone
  unused_orphan j hj := by
    by_cases hjn : j = np
    · subst hjn
      rw [Ptable.set_proc_self] at hj
      exact absurd hj hq.1
    · rw [Ptable.set_proc_of_ne _ _ hjn] at hj ⊢
      exact hinv.unused_orphan j hj

/-- `reparent` hands children to `init`, which is live. -/
theorem Inv.reparent (hinv : Inv t) (p : Fin nproc) : Inv (reparent t p) where
  init_live := by
    rw [reparent_initproc, reparent_state]
    exact hinv.init_live
  parent_live i j h := by
    rw [reparent_state]
    rw [reparent_parent] at h
    split at h
    · cases h
      exact hinv.init_live
    · exact hinv.parent_live i j h
  orphan_init i hu hnone := by
    rw [reparent_state] at hu
    rw [reparent_parent] at hnone
    split at hnone
    · cases hnone
    · exact hinv.orphan_init i hu hnone
  unused_orphan i hu := by
    rw [reparent_state] at hu
    have hnone := hinv.unused_orphan i hu
    rw [reparent_parent, hnone]
    rfl

/-- A live process other than `init` that has no children becomes a zombie: the end of `exit`. -/
theorem Inv.set_exited {i : Fin nproc} {q : Proc} (hinv : Inv t) (hi : (t.proc i).state.Live)
    (hinit : i ≠ t.initproc) (hnochild : ∀ j, (t.proc j).parent ≠ some i) (hq : q.state = .zombie)
    (hparent : q.parent = (t.proc i).parent) : Inv (t.set i q) where
  init_live := by
    rw [Ptable.set_initproc, Ptable.set_proc_of_ne _ _ hinit.symm]
    exact hinv.init_live
  parent_live j k hjk := by
    -- the new parent pointer is an old one, and no old one names `i`
    have hold : ∃ j', (t.proc j').parent = some k := by
      by_cases hj : j = i
      · subst hj
        rw [Ptable.set_proc_self, hparent] at hjk
        exact ⟨j, hjk⟩
      · rw [Ptable.set_proc_of_ne _ _ hj] at hjk
        exact ⟨j, hjk⟩
    obtain ⟨j', hj'⟩ := hold
    have hki : k ≠ i := by
      rintro rfl
      exact hnochild j' hj'
    rw [Ptable.set_proc_of_ne _ _ hki]
    exact hinv.parent_live j' k hj'
  orphan_init j hj hnone := by
    by_cases hji : j = i
    · subst hji
      rw [Ptable.set_proc_self, hparent] at hnone
      exact absurd (hinv.orphan_init j hi.1 hnone) hinit
    · rw [Ptable.set_proc_of_ne _ _ hji] at hj hnone
      exact hinv.orphan_init j hj hnone
  unused_orphan j hj := by
    by_cases hji : j = i
    · subst hji
      rw [Ptable.set_proc_self, hq] at hj
      cases hj
    · rw [Ptable.set_proc_of_ne _ _ hji] at hj ⊢
      exact hinv.unused_orphan j hj

theorem Inv.exit {p : Fin nproc} {status : Int32} {t' : Ptable} (hinv : Inv t) (hp : (t.proc p).state.Live)
    (h : exit t p status = some t') : Inv t' := by
  obtain ⟨hinit, rfl⟩ := exit_cases h
  refine (hinv.reparent p).set_exited (by rwa [reparent_state]) hinit (fun j => ?_) rfl rfl
  rw [reparent_parent]
  split
  · exact fun heq => hinit (Option.some.inj heq).symm
  · assumption

theorem Inv.step {e : Event} {t' : Ptable} (hinv : Inv t) (h : Step t e t') : Inv t' := by
  obtain ⟨c, r⟩ := e
  cases c with
  | fork p memOk =>
    obtain ⟨hrun, hfork⟩ := step_fork h
    rcases fork_cases hfork with ⟨-, rfl⟩ | ⟨np, hnp, ⟨-, -, rfl⟩ | ⟨-, -, rfl⟩⟩
    · exact hinv
    · have hlive : (t.proc p).state.Live := hrun ▸ Procstate.running_live
      exact hinv.allocpid.set_child hnp hlive ⟨nofun, nofun⟩ rfl
    · exact hinv.allocpid.set_freeproc (not_live_of_unused hnp)
  | exit p status =>
    obtain ⟨hrun, -, hexit⟩ := step_exit h
    exact hinv.exit (hrun ▸ Procstate.running_live) hexit
  | wait p copyOk =>
    rcases wait_cases (step_wait h).2 with ⟨c, hc, -, -, rfl⟩ | ⟨-, rfl⟩
    · exact hinv.set_freeproc (not_live_of_zombie (firstZombieChild_spec hc).2)
    · exact hinv
  | kill p pid =>
    rcases kill_cases (step_kill h).2 with ⟨-, rfl⟩ | ⟨i, -, rfl⟩
    · exact hinv
    · -- `kill` wakes a sleeper and changes no other state
      refine hinv.set_same ?_ ?_ rfl <;> split <;> simp_all [Procstate.Live]
  | schedule p =>
    obtain ⟨hrunnable, -, rfl⟩ := step_schedule h
    exact hinv.set_same (by simp [hrunnable]) (by simp [hrunnable, Procstate.Live]) rfl
  | yield p =>
    obtain ⟨hrun, -, rfl⟩ := step_yield h
    exact hinv.set_same (by simp [hrun]) (by simp [hrun, Procstate.Live]) rfl

end Preservation

theorem boot_inv : Inv boot := by
  have hnone : ∀ i, (boot.proc i).parent = none := by
    intro i
    by_cases hi : i = 0 <;> simp [boot, hi]
  refine ⟨by decide, fun i j h => ?_, fun i hu _ => ?_, fun i _ => hnone i⟩
  · rw [hnone] at h
    cases h
  · by_contra hi
    have hi0 : i ≠ 0 := hi
    exact hu (by simp [boot, hi0])

theorem reachable_inv {t : Ptable} (hreach : Reachable Step boot t) : Inv t :=
  hreach.invariant Inv boot_inv fun _ _ _ hinv h => hinv.step h

theorem initproc_of_reachable {t : Ptable} (hreach : Reachable Step boot t) : t.initproc = boot.initproc :=
  hreach.invariant (fun t => t.initproc = boot.initproc) rfl fun _ _ _ hinit h => (Step.initproc h).trans hinit

end Xv6.Process
