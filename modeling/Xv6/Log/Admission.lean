import Xv6.Param
import Xv6.Library.Run

/-!
# Admission to the log: `begin_op`, `log_write`, `end_op`

The in-memory half of `log.c`. Every file-system system call brackets its block writes with
`begin_op` and `end_op`; `begin_op` admits an operation only while
`log.lh.n + (log.outstanding + 1) * MAXOPBLOCKS <= LOGSIZE`, `log_write` records a block in the open
transaction (absorbing repeated writes of one block), and the `end_op` that brings `outstanding` to
zero commits. Each critical section under `log.lock` is one step; a call that would sleep is a step
that is not enabled yet.

The system `LogSys` adds to the log the operations in progress and, as ghost state, the distinct blocks
each has passed to `log_write`. With every operation inside its budget of `MAXOPBLOCKS` blocks,
`Inv` bounds the open transaction by `LOGSIZE` and rules out the `log.committing` panic of `end_op`.
`LOGSIZE` is one more than the data slots the on-disk log has (`mkfs` writes `nlog = LOGSIZE`, and the
header takes one block), so `log_write`'s own bound `log.size - 1` is reached by three admitted
operations within their budgets: `logWrite_panics_within_budget`.
-/

namespace Xv6.Logging

/-- The fields of `struct log` the three functions use. `lh` is `log.lh.block[0 .. log.lh.n)`, so
`log.lh.n` is its length. -/
structure Log where
  size : Nat
  outstanding : Nat
  committing : Bool
  lh : List Nat
  deriving DecidableEq, Repr

/-- `begin_op`: `none` while it has to sleep, the admitted log otherwise. -/
def beginOp (log : Log) : Option Log :=
  if log.committing then none
  else if log.lh.length + (log.outstanding + 1) * maxOpBlocks > logSize then none
  else some { log with outstanding := log.outstanding + 1 }

/-- `log_write` of the buffer holding block `b`; the error is the panic message. A block already in the
transaction is absorbed; a new one is appended (and its buffer pinned). -/
def logWrite (log : Log) (b : Nat) : Except String Log :=
  if log.lh.length ≥ logSize ∨ log.lh.length ≥ log.size - 1 then .error "too big a transaction"
  else if log.outstanding < 1 then .error "log_write outside of trans"
  else if b ∈ log.lh then .ok log
  else .ok { log with lh := log.lh ++ [b] }

/-- The first critical section of `end_op`, with `do_commit`. -/
def endOp (log : Log) : Except String (Log × Bool) :=
  let log := { log with outstanding := log.outstanding - 1 }
  if log.committing then .error "log.committing"
  else if log.outstanding = 0 then .ok ({ log with committing := true }, true)
  else .ok (log, false)

/-- What `commit()` and the second critical section of `end_op` leave: an empty transaction, no longer
committing. The disk writes of `commit` are the subject of `Xv6.Log.Recovery`. -/
def commitDone (log : Log) : Log := { log with lh := [], committing := false }

theorem beginOp_eq_some {log l : Log} (h : beginOp log = some l) :
    log.committing = false ∧ log.lh.length + (log.outstanding + 1) * maxOpBlocks ≤ logSize ∧
      l = { log with outstanding := log.outstanding + 1 } := by
  unfold beginOp at h
  split at h
  · cases h
  · split at h
    · cases h
    · cases h
      exact ⟨by simpa using ‹¬log.committing = true›, by omega, rfl⟩

theorem logWrite_eq_ok {log l : Log} {b : Nat} (h : logWrite log b = .ok l) :
    log.lh.length < logSize ∧ log.lh.length < log.size - 1 ∧ 1 ≤ log.outstanding ∧
      l = if b ∈ log.lh then log else { log with lh := log.lh ++ [b] } := by
  unfold logWrite at h
  split at h
  · cases h
  · split at h
    · cases h
    · refine ⟨by omega, by omega, by omega, ?_⟩
      split at h <;> simp_all

theorem endOp_eq_ok {log l : Log} {c : Bool} (h : endOp log = .ok (l, c)) :
    log.committing = false ∧ c = decide (log.outstanding - 1 = 0) ∧
      l = { log with outstanding := log.outstanding - 1, committing := c } := by
  unfold endOp at h
  simp only at h
  split at h
  · cases h
  · rename_i hc
    split at h <;> cases h <;> simp_all

/-- The log together with the operations between their `begin_op` and `end_op`, and the distinct blocks
each has passed to `log_write` so far. -/
structure LogSys where
  log : Log
  active : Finset Nat
  written : Nat → Finset Nat

inductive Event
  | beginOp (o : Nat)
  | logWrite (o b : Nat)
  | endOp (o : Nat)
  | commit

/-- One critical section, when it is enabled. Operation `o` writes block `b` only while it is active and
only if that keeps it within `MAXOPBLOCKS` distinct blocks, the budget every operation is granted; a
call that panics has no step. -/
def exec (s : LogSys) : Event → Option LogSys
  | .beginOp o =>
      if o ∈ s.active then none
      else (beginOp s.log).map fun l => ⟨l, insert o s.active, Function.update s.written o ∅⟩
  | .logWrite o b =>
      if o ∈ s.active ∧ (insert b (s.written o)).card ≤ maxOpBlocks then
        match logWrite s.log b with
        | .ok l => some ⟨l, s.active, Function.update s.written o (insert b (s.written o))⟩
        | .error _ => none
      else none
  | .endOp o =>
      if o ∈ s.active then
        match endOp s.log with
        | .ok (l, _) => some ⟨l, s.active.erase o, s.written⟩
        | .error _ => none
      else none
  | .commit => if s.log.committing then some ⟨commitDone s.log, s.active, s.written⟩ else none

def Step (s : LogSys) (e : Event) (t : LogSys) : Prop := exec s e = some t

variable {s t : LogSys}

theorem step_beginOp {o : Nat} (h : Step s (.beginOp o) t) :
    o ∉ s.active ∧ ∃ l, beginOp s.log = some l ∧ t = ⟨l, insert o s.active, Function.update s.written o ∅⟩ := by
  simp only [Step, exec] at h
  split at h
  · cases h
  · obtain ⟨l, hl, rfl⟩ := Option.map_eq_some_iff.mp h
    exact ⟨‹_›, l, hl, rfl⟩

theorem step_logWrite {o b : Nat} (h : Step s (.logWrite o b) t) :
    o ∈ s.active ∧ (insert b (s.written o)).card ≤ maxOpBlocks ∧ ∃ l, logWrite s.log b = .ok l ∧
      t = ⟨l, s.active, Function.update s.written o (insert b (s.written o))⟩ := by
  simp only [Step, exec] at h
  split at h
  · rename_i hguard
    split at h
    · cases h
      exact ⟨hguard.1, hguard.2, _, ‹_›, rfl⟩
    · cases h
  · cases h

theorem step_endOp {o : Nat} (h : Step s (.endOp o) t) :
    o ∈ s.active ∧ ∃ l c, endOp s.log = .ok (l, c) ∧ t = ⟨l, s.active.erase o, s.written⟩ := by
  simp only [Step, exec] at h
  split at h
  · split at h
    · cases h
      exact ⟨‹_›, _, _, ‹_›, rfl⟩
    · cases h
  · cases h

theorem step_commit (h : Step s .commit t) :
    s.log.committing = true ∧ t = ⟨commitDone s.log, s.active, s.written⟩ := by
  simp only [Step, exec] at h
  split at h
  · cases h
    exact ⟨‹_›, rfl⟩
  · cases h

/-- The log after `initlog`: `recover_from_log` has emptied the transaction. -/
def init : LogSys := ⟨⟨mkfsNlog, 0, false, []⟩, ∅, fun _ => ∅⟩

/-- The blocks the active operations may still add: each has `MAXOPBLOCKS` less what it wrote. -/
def reserved (active : Finset Nat) (written : Nat → Finset Nat) : Nat :=
  ∑ o ∈ active, (maxOpBlocks - (written o).card)

theorem reserved_le_card (active : Finset Nat) (written : Nat → Finset Nat) :
    reserved active written ≤ active.card * maxOpBlocks := by
  unfold reserved
  calc ∑ o ∈ active, (maxOpBlocks - (written o).card) ≤ ∑ _o ∈ active, maxOpBlocks :=
        Finset.sum_le_sum fun o _ => Nat.sub_le _ _
    _ = active.card * maxOpBlocks := by simp

theorem reserved_insert {active : Finset Nat} {o : Nat} (written : Nat → Finset Nat) (hnew : o ∉ active) :
    reserved (insert o active) (Function.update written o ∅) = maxOpBlocks + reserved active written := by
  unfold reserved
  rw [Finset.sum_insert hnew, Function.update_self, Finset.card_empty, Nat.sub_zero]
  congr 1
  exact Finset.sum_congr rfl fun o' ho' => by rw [Function.update_of_ne (ne_of_mem_of_not_mem ho' hnew)]

/-- Changing what one active operation wrote changes the reserve by that operation's term alone. -/
theorem reserved_update {active : Finset Nat} {o : Nat} (written : Nat → Finset Nat) (w : Finset Nat)
    (ho : o ∈ active) :
    reserved active (Function.update written o w) + (maxOpBlocks - (written o).card) =
      reserved active written + (maxOpBlocks - w.card) := by
  unfold reserved
  rw [← Finset.add_sum_erase _ _ ho, ← Finset.add_sum_erase _ _ ho, Function.update_self]
  have hrest : ∑ x ∈ active.erase o, (maxOpBlocks - (Function.update written o w x).card) =
      ∑ x ∈ active.erase o, (maxOpBlocks - (written x).card) :=
    Finset.sum_congr rfl fun x hx => by rw [Function.update_of_ne (Finset.ne_of_mem_erase hx)]
  rw [hrest]
  omega

theorem reserved_erase_le (active : Finset Nat) (written : Nat → Finset Nat) (o : Nat) :
    reserved (active.erase o) written ≤ reserved active written :=
  Finset.sum_le_sum_of_subset (Finset.erase_subset o active)

/-- The invariant of the admission protocol. -/
structure Inv (s : LogSys) : Prop where
  size_eq : s.log.size = mkfsNlog
  outstanding_eq : s.log.outstanding = s.active.card
  committing_idle : s.log.committing = true → s.active = ∅
  written_sub : ∀ o ∈ s.active, s.written o ⊆ s.log.lh.toFinset
  written_card : ∀ o ∈ s.active, (s.written o).card ≤ maxOpBlocks
  nodup : s.log.lh.Nodup
  budget : s.log.lh.length + reserved s.active s.written ≤ logSize

theorem init_inv : Inv init where
  size_eq := rfl
  outstanding_eq := rfl
  committing_idle := by simp [init]
  written_sub := by simp [init]
  written_card := by simp [init]
  nodup := List.nodup_nil
  budget := by simp [init, reserved, logSize]

theorem Inv.beginOp {o : Nat} (hinv : Inv s) (h : Step s (.beginOp o) t) : Inv t := by
  obtain ⟨hnew, l, hbegin, rfl⟩ := step_beginOp h
  obtain ⟨hidle, hroom, rfl⟩ := beginOp_eq_some hbegin
  have hres := reserved_le_card s.active s.written
  refine ⟨hinv.size_eq, ?_, by simp [hidle], ?_, ?_, hinv.nodup, ?_⟩
  · simp [Finset.card_insert_of_notMem hnew, hinv.outstanding_eq]
  · intro o' ho'
    dsimp only at ho' ⊢
    by_cases heq : o' = o
    · subst heq
      simp
    · rw [Function.update_of_ne heq]
      exact hinv.written_sub o' ((Finset.mem_insert.mp ho').resolve_left heq)
  · intro o' ho'
    dsimp only at ho' ⊢
    by_cases heq : o' = o
    · subst heq
      simp
    · rw [Function.update_of_ne heq]
      exact hinv.written_card o' ((Finset.mem_insert.mp ho').resolve_left heq)
  · -- the new operation reserves a full budget, which the admission test left room for
    rw [reserved_insert s.written hnew]
    rw [hinv.outstanding_eq, Nat.add_mul] at hroom
    simp only
    omega

theorem Inv.logWrite {o b : Nat} (hinv : Inv s) (h : Step s (.logWrite o b) t) : Inv t := by
  obtain ⟨hactive, hbudget, l, hwrite, rfl⟩ := step_logWrite h
  obtain ⟨-, hroom, -, rfl⟩ := logWrite_eq_ok hwrite
  have hupd := reserved_update s.written (insert b (s.written o)) hactive
  have hsub := hinv.written_sub o hactive
  by_cases hb : b ∈ s.log.lh
  · -- an absorbed write adds no block to the transaction and only shrinks the reserve
    rw [if_pos hb]
    have hgrow := Finset.card_le_card (Finset.subset_insert b (s.written o))
    refine ⟨hinv.size_eq, hinv.outstanding_eq, hinv.committing_idle, ?_, ?_, hinv.nodup, ?_⟩
    · intro o' ho'
      dsimp only at ho' ⊢
      by_cases heq : o' = o
      · subst heq
        rw [Function.update_self]
        exact Finset.insert_subset (List.mem_toFinset.mpr hb) hsub
      · rw [Function.update_of_ne heq]
        exact hinv.written_sub o' ho'
    · intro o' ho'
      dsimp only at ho' ⊢
      by_cases heq : o' = o
      · subst heq
        rw [Function.update_self]
        exact hbudget
      · rw [Function.update_of_ne heq]
        exact hinv.written_card o' ho'
    · have := hinv.budget
      dsimp only
      omega
  · -- a new block is new to the operation too, so the block it adds comes out of its own reserve
    rw [if_neg hb]
    have hbw : b ∉ s.written o := fun hmem => hb (List.mem_toFinset.mp (hsub hmem))
    have hcard := Finset.card_insert_of_notMem hbw
    refine ⟨hinv.size_eq, hinv.outstanding_eq, hinv.committing_idle, ?_, ?_, ?_, ?_⟩
    · intro o' ho'
      dsimp only at ho' ⊢
      by_cases heq : o' = o
      · subst heq
        rw [Function.update_self]
        intro x hx
        rcases Finset.mem_insert.mp hx with rfl | hx
        · simp
        · simpa using Or.inr (List.mem_toFinset.mp (hsub hx))
      · rw [Function.update_of_ne heq]
        intro x hx
        simpa using Or.inr (List.mem_toFinset.mp (hinv.written_sub o' ho' hx))
    · intro o' ho'
      dsimp only at ho' ⊢
      by_cases heq : o' = o
      · subst heq
        rw [Function.update_self]
        exact hbudget
      · rw [Function.update_of_ne heq]
        exact hinv.written_card o' ho'
    · refine List.nodup_append.mpr ⟨hinv.nodup, List.nodup_singleton b, ?_⟩
      intro a ha x hx hax
      rw [List.mem_singleton] at hx
      subst hx hax
      exact hb ha
    · have := hinv.budget
      simp only [List.length_append, List.length_singleton]
      omega

theorem Inv.endOp {o : Nat} (hinv : Inv s) (h : Step s (.endOp o) t) : Inv t := by
  obtain ⟨hactive, l, c, hend, rfl⟩ := step_endOp h
  obtain ⟨-, rfl, rfl⟩ := endOp_eq_ok hend
  have hcard := Finset.card_erase_of_mem hactive
  refine ⟨hinv.size_eq, ?_, ?_, ?_, ?_, hinv.nodup, ?_⟩
  · simp [hcard, hinv.outstanding_eq]
  · -- the `end_op` that commits was the last active operation
    intro hc
    have hzero : s.log.outstanding - 1 = 0 := by simpa using hc
    rw [← Finset.card_eq_zero, hcard, ← hinv.outstanding_eq]
    exact hzero
  · exact fun o' ho' => hinv.written_sub o' (Finset.mem_of_mem_erase ho')
  · exact fun o' ho' => hinv.written_card o' (Finset.mem_of_mem_erase ho')
  · exact le_trans (Nat.add_le_add_left (reserved_erase_le _ _ o) _) hinv.budget

theorem Inv.commit (hinv : Inv s) (h : Step s .commit t) : Inv t := by
  obtain ⟨hcommitting, rfl⟩ := step_commit h
  have hidle := hinv.committing_idle hcommitting
  refine ⟨hinv.size_eq, ?_, fun _ => hidle, ?_, ?_, List.nodup_nil, ?_⟩
  · simp [commitDone, hinv.outstanding_eq, hidle]
  · simp [hidle]
  · simp [hidle]
  · simp [commitDone, hidle, reserved, logSize, maxOpBlocks]

theorem Inv.step {e : Event} (hinv : Inv s) (h : Step s e t) : Inv t := by
  cases e with
  | beginOp o => exact hinv.beginOp h
  | logWrite o b => exact hinv.logWrite h
  | endOp o => exact hinv.endOp h
  | commit => exact hinv.commit h

theorem reachable_inv (h : Transition.Reachable Step init s) : Inv s :=
  h.invariant Inv init_inv fun _ _ _ hinv hstep => hinv.step hstep

/-- Under the admission protocol the open transaction never holds more than `LOGSIZE` blocks. -/
theorem lh_length_le_logSize (h : Transition.Reachable Step init s) : s.log.lh.length ≤ logSize :=
  le_trans (Nat.le_add_right _ _) (reachable_inv h).budget

/-- The `log.committing` panic of `end_op` is unreachable: an active operation never ends while a
commit is under way. -/
theorem endOp_ok_of_active {o : Nat} (h : Transition.Reachable Step init s) (hactive : o ∈ s.active) :
    ∃ r, endOp s.log = .ok r := by
  have hinv := reachable_inv h
  have hidle : s.log.committing = false := by
    cases hc : s.log.committing
    · rfl
    · exact absurd (hinv.committing_idle hc ▸ hactive) (Finset.notMem_empty o)
  by_cases hzero : s.log.outstanding - 1 = 0 <;> simp [endOp, hidle, hzero]

/-- Runs the events in order, `none` as soon as one is not enabled. -/
def execAll (s : LogSys) : List Event → Option LogSys
  | [] => some s
  | e :: es => (exec s e).bind fun t => execAll t es

theorem execAll_run {s t : LogSys} {es : List Event} (h : execAll s es = some t) :
    Transition.Run Step s es t := by
  induction es generalizing s with
  | nil => cases h; exact Transition.Run.nil _
  | cons e es ih =>
    obtain ⟨u, hu, hrest⟩ := Option.bind_eq_some_iff.mp h
    exact Transition.Run.cons hu (ih hrest)

/-- Three operations admitted into an empty log, each writing ten blocks of its own; the third stops
before its tenth. -/
def fullTrace : List Event :=
  [.beginOp 0, .beginOp 1, .beginOp 2] ++
    (List.range 10).map (fun i => .logWrite 0 (100 + i)) ++
    (List.range 10).map (fun i => .logWrite 1 (110 + i)) ++
    (List.range 9).map (fun i => .logWrite 2 (120 + i))

/-- `begin_op` admits three operations at once (`0 + 3 * MAXOPBLOCKS <= LOGSIZE`), but the log holds only
`log.size - 1 = LOGSIZE - 1` blocks: the third operation's tenth block, within its budget, makes
`log_write` panic with "too big a transaction". -/
theorem logWrite_panics_within_budget :
    ∃ s, Transition.Reachable Step init s ∧ 2 ∈ s.active ∧ (insert 129 (s.written 2)).card ≤ maxOpBlocks ∧
      s.log.lh.length = s.log.size - 1 ∧ logWrite s.log 129 = .error "too big a transaction" := by
  obtain ⟨s, hs⟩ : ∃ s, execAll init fullTrace = some s := ⟨_, rfl⟩
  have hlog : (execAll init fullTrace).map LogSys.log =
      some ⟨mkfsNlog, 3, false, (List.range 29).map (100 + ·)⟩ := by decide
  have hactive : (execAll init fullTrace).map LogSys.active = some {0, 1, 2} := by decide
  have hcard : (execAll init fullTrace).map (fun s => (insert 129 (s.written 2)).card) = some 10 := by decide
  rw [hs, Option.map_some, Option.some.injEq] at hlog hactive hcard
  refine ⟨s, ⟨fullTrace, execAll_run hs⟩, by simp [hactive], by simp [hcard, maxOpBlocks], ?_, ?_⟩
  · rw [hlog]
    decide
  · rw [hlog]
    decide

end Xv6.Logging
