import Mathlib
import Xv6.Library.Run

/-!
# `push_off` and `pop_off`: nested interrupt disabling on one CPU

`push_off` turns interrupts off and counts in `noff`; at depth `0` it first saves in `intena` whether
they were on. `pop_off` counts down and turns them back on at depth `0` when `intena` says so.
`acquire` and `release` of a spinlock call them around the lock, and other code may turn interrupts
off at any time and on where no `push_off` is pending.

Along every run of one CPU whose pops never outnumber its pushes, `noff` is the number of pushes not
yet popped and interrupts stay off while it is positive (`Nested`), so `pop_off` never panics. Over
one outermost section, `intena` keeps the state saved at its first push, so the pop that closes the
section restores it (`Section`).
-/

namespace Xv6.Lock

/-- The interrupt state of one CPU: `noff` and `intena` of `struct cpu`, and the `SSTATUS_SIE` bit. -/
structure Cpu where
  noff : Nat
  intena : Bool
  intr : Bool

/-- `push_off()`. -/
def pushOff (c : Cpu) : Cpu :=
  let old := c.intr
  let c := { c with intr := false }
  let c := if c.noff = 0 then { c with intena := old } else c
  { c with noff := c.noff + 1 }

/-- `pop_off()`; `none` is the panic "pop_off - interruptible" or "pop_off". -/
def popOff (c : Cpu) : Option Cpu :=
  if c.intr then none
  else if c.noff < 1 then none
  else
    let c := { c with noff := c.noff - 1 }
    if c.noff = 0 ∧ c.intena then some { c with intr := true } else some c

/-- One CPU and the spinlocks it holds. -/
structure State where
  cpu : Cpu
  held : List Nat

/-- `acquire(lk)`: `push_off`, then the panic "acquire" if the CPU already holds `lk`. The lock is free
once another CPU releases it, so the spin ends. -/
def acquire (s : State) (lk : Nat) : Option State :=
  let cpu := pushOff s.cpu
  if lk ∈ s.held then none else some ⟨cpu, lk :: s.held⟩

/-- `release(lk)`: the panic "release" if the CPU does not hold `lk`, then `pop_off`. -/
def release (s : State) (lk : Nat) : Option State :=
  if lk ∉ s.held then none else (popOff s.cpu).map fun cpu => ⟨cpu, s.held.erase lk⟩

/-- What one CPU does: the two calls, the lock operations that make them, and other code turning
interrupts off or on. -/
inductive Event
  | pushOff
  | popOff
  | acquire (lk : Nat)
  | release (lk : Nat)
  | intrOff
  | intrOn
  deriving DecidableEq

def step (s : State) : Event → Option State
  | .pushOff => some { s with cpu := pushOff s.cpu }
  | .popOff => (popOff s.cpu).map fun cpu => { s with cpu := cpu }
  | .acquire lk => acquire s lk
  | .release lk => release s lk
  | .intrOff => some { s with cpu := { s.cpu with intr := false } }
  | .intrOn => some { s with cpu := { s.cpu with intr := true } }

/-- The events that call `push_off`. -/
def Event.isPush : Event → Bool
  | .pushOff | .acquire _ => true
  | _ => false

/-- The events that call `pop_off`. -/
def Event.isPop : Event → Bool
  | .popOff | .release _ => true
  | _ => false

def pushes (es : List Event) : Nat := es.countP Event.isPush

def pops (es : List Event) : Nat := es.countP Event.isPop

/-- At no point have more pops than pushes been made, and other code turns interrupts on only where
every push has been popped. -/
def Disciplined (es : List Event) : Prop :=
  ∀ k (hk : k < es.length), (es[k].isPop → pops (es.take k) < pushes (es.take k)) ∧
    (es[k] = .intrOn → pushes (es.take k) ≤ pops (es.take k))

/-- The runs of one CPU that end without a panic. -/
instance (es : List Event) : Decidable (Disciplined es) := by
  unfold Disciplined
  infer_instance

def Step (s : State) (e : Event) (t : State) : Prop := step s e = some t

/-! ## One step -/

section Steps

@[simp] theorem pushOff_noff (c : Cpu) : (pushOff c).noff = c.noff + 1 := by
  unfold pushOff
  dsimp only
  split_ifs <;> rfl

@[simp] theorem pushOff_intr (c : Cpu) : (pushOff c).intr = false := by
  unfold pushOff
  dsimp only
  split_ifs <;> rfl

/-- At depth `0` the push saves whether interrupts were on; deeper it keeps what was saved. -/
theorem pushOff_intena (c : Cpu) : (pushOff c).intena = if c.noff = 0 then c.intr else c.intena := by
  unfold pushOff
  dsimp only
  split_ifs <;> rfl

/-- `pop_off` with interrupts off and a push pending: one fewer, and interrupts on again exactly when
the last push is popped and they were on before it. -/
theorem popOff_eq {c : Cpu} (hintr : c.intr = false) (hpos : 0 < c.noff) :
    popOff c = some ⟨c.noff - 1, c.intena, decide (c.noff = 1) && c.intena⟩ := by
  unfold popOff
  rw [if_neg (by rw [hintr]; decide), if_neg (by omega)]
  by_cases hlast : c.noff - 1 = 0 ∧ c.intena = true
  · rw [if_pos hlast, show c.noff = 1 by omega, hlast.2]
    rfl
  · rw [if_neg hlast]
    cases c
    simp only at hintr hpos hlast ⊢
    subst hintr
    congr
    by_cases h1 : ‹Nat› = 1 <;> simp_all

/-- What each event does to the CPU. -/
theorem step_cpu {s t : State} {e : Event} (h : step s e = some t) :
    (e.isPush → t.cpu = pushOff s.cpu) ∧ (e.isPop → popOff s.cpu = some t.cpu) ∧
      (e = .intrOff → t.cpu = { s.cpu with intr := false }) ∧ (e = .intrOn → t.cpu = { s.cpu with intr := true }) := by
  cases e with
  | pushOff =>
    simp only [step, Option.some.injEq] at h
    subst h
    simp [Event.isPush, Event.isPop]
  | popOff =>
    obtain ⟨cpu, hpop, rfl⟩ := Option.map_eq_some_iff.mp h
    simp [Event.isPush, Event.isPop, hpop]
  | acquire lk =>
    simp only [step, acquire] at h
    split_ifs at h
    simp only [Option.some.injEq] at h
    subst h
    simp [Event.isPush, Event.isPop]
  | release lk =>
    simp only [step, release] at h
    split_ifs at h
    obtain ⟨cpu, hpop, rfl⟩ := Option.map_eq_some_iff.mp h
    simp [Event.isPush, Event.isPop, hpop]
  | intrOff =>
    simp only [step, Option.some.injEq] at h
    subst h
    simp [Event.isPush, Event.isPop]
  | intrOn =>
    simp only [step, Option.some.injEq] at h
    subst h
    simp [Event.isPush, Event.isPop]

theorem pushes_snoc (es : List Event) (e : Event) : pushes (es ++ [e]) = pushes es + if e.isPush then 1 else 0 := by
  simp [pushes, List.countP_append]

theorem pops_snoc (es : List Event) (e : Event) : pops (es ++ [e]) = pops es + if e.isPop then 1 else 0 := by
  simp [pops, List.countP_append]

theorem Event.not_isPop_of_isPush {e : Event} (h : e.isPush) : ¬e.isPop := by
  cases e <;> simp_all [Event.isPush, Event.isPop]

theorem Disciplined.of_snoc {es : List Event} {e : Event} (h : Disciplined (es ++ [e])) : Disciplined es := by
  intro k hk
  have hk' : k < (es ++ [e]).length := by simp; omega
  have := h k hk'
  rwa [List.getElem_append_left hk, List.take_append_of_le_length hk.le] at this

theorem Disciplined.last {es : List Event} {e : Event} (h : Disciplined (es ++ [e])) :
    (e.isPop → pops es < pushes es) ∧ (e = .intrOn → pushes es ≤ pops es) := by
  have := h es.length (by simp)
  rwa [List.getElem_concat_length rfl, List.take_left' rfl] at this

end Steps

/-! ## Along a run -/

/-- The CPU after the events `es`: `noff` counts the pushes not yet popped, and interrupts are off while
one is pending. -/
structure Nested (es : List Event) (c : Cpu) : Prop where
  noff_eq : c.noff + pops es = pushes es
  intr_off : 0 < c.noff → c.intr = false

/-- A pending push: `pop_off` finds interrupts off and `noff` positive, so it does not panic. -/
theorem Nested.popOff_isSome {es : List Event} {c : Cpu} (h : Nested es c) (hpend : pops es < pushes es) :
    (popOff c).isSome := by
  have hpos : 0 < c.noff := by have := h.noff_eq; omega
  rw [popOff_eq (h.intr_off hpos) hpos]
  rfl

/-- One event of a disciplined run keeps the nesting. -/
theorem Nested.step {es : List Event} {e : Event} {s t : State} (h : Nested es s.cpu)
    (hdisc : Disciplined (es ++ [e])) (hstep : Lock.step s e = some t) : Nested (es ++ [e]) t.cpu := by
  obtain ⟨hpush, hpop, hoff, hon⟩ := step_cpu hstep
  have hcount := h.noff_eq
  have hpushes := pushes_snoc es e
  have hpops := pops_snoc es e
  by_cases hp : e.isPush
  · -- a push: one more pending, interrupts off
    rw [if_pos hp] at hpushes
    rw [if_neg (Event.not_isPop_of_isPush hp)] at hpops
    rw [hpush hp]
    exact ⟨by rw [pushOff_noff, hpushes, hpops]; omega, fun _ => pushOff_intr _⟩
  rw [if_neg hp] at hpushes
  by_cases hq : e.isPop
  · -- a pop of a pending push: one fewer; interrupts come back on only at depth `0`
    rw [if_pos hq] at hpops
    have hpend := hdisc.last.1 hq
    have hpos : 0 < s.cpu.noff := by omega
    have hcpu := hpop hq
    rw [popOff_eq (h.intr_off hpos) hpos, Option.some.injEq] at hcpu
    rw [← hcpu]
    refine ⟨by dsimp only; rw [hpushes, hpops]; omega, fun hrest => ?_⟩
    dsimp only at hrest ⊢
    rw [show decide (s.cpu.noff = 1) = false by simp only [decide_eq_false_iff_not]; omega, Bool.false_and]
  · -- other code: turning interrupts on only where nothing is pending
    rw [if_neg hq] at hpops
    cases e with
    | intrOff => exact ⟨by rw [hoff rfl, hpushes, hpops]; exact hcount, fun _ => by rw [hoff rfl]⟩
    | intrOn =>
      have hzero : s.cpu.noff = 0 := by have := hdisc.last.2 rfl; omega
      exact ⟨by rw [hon rfl, hpushes, hpops]; exact hcount, fun hpos => by rw [hon rfl] at hpos; dsimp only at hpos; omega⟩
    | _ => simp [Event.isPush, Event.isPop] at hp hq

/-- Every run from `noff = 0` whose events are disciplined keeps the nesting. -/
theorem nested_of_run {s₀ t : State} {es : List Event} (h₀ : s₀.cpu.noff = 0) (hrun : Transition.Run Step s₀ es t)
    (hdisc : Disciplined es) : Nested es t.cpu := by
  refine hrun.history (fun t es => Disciplined es → Nested es t.cpu) (fun _ => ⟨by simp [h₀, pops, pushes], ?_⟩) ?_ hdisc
  · intro hpos
    omega
  · intro t es e u ih hstep hdisc'
    exact (ih hdisc'.of_snoc).step hdisc' hstep

/-- Every nonempty prefix of `es` leaves a push pending: `es` stays inside one outermost section. -/
def Inside (es : List Event) : Prop := ∀ k < es.length, pops (es.take (k + 1)) < pushes (es.take (k + 1))

instance (es : List Event) : Decidable (Inside es) := by
  unfold Inside
  infer_instance

theorem Inside.of_snoc {es : List Event} {e : Event} (h : Inside (es ++ [e])) : Inside es := by
  intro k hk
  have := h k (by simp; omega)
  rwa [List.take_append_of_le_length (by omega)] at this

theorem Inside.pending {es : List Event} (h : Inside es) (hne : es ≠ []) : pops es < pushes es := by
  have hlen := List.length_pos_of_ne_nil hne
  have := h (es.length - 1) (by omega)
  rwa [Nat.sub_add_cancel hlen, List.take_length] at this

/-- Inside one outermost section entered from `s`, `intena` holds whether interrupts were on in `s`:
the first push saves it, and nothing inside the section writes it again. By induction on the events,
taken from the end. -/
theorem intena_of_inside {s : State} (h₀ : s.cpu.noff = 0) :
    ∀ {es : List Event} {t : State}, Transition.Run Step s es t → Disciplined es → es ≠ [] → Inside es →
      t.cpu.intena = s.cpu.intr := by
  intro es
  induction es using List.reverseRecOn with
  | nil => exact fun _ _ hne => absurd rfl hne
  | append_singleton es e ih =>
    intro t hrun hdisc _ hin
    obtain ⟨u, hprefix, hstep⟩ := hrun.snoc_inv
    obtain ⟨hpush, hpop, hoff, hon⟩ := step_cpu hstep
    by_cases hes : es = []
    · -- the section's first event is the push that saves the state
      subst hes
      have hu : u = s := hprefix.nil_inv
      subst hu
      have hfirst := hin.pending (by simp)
      have hp : e.isPush := by
        by_contra hp
        simp [pushes, pops, hp] at hfirst
      rw [hpush hp, pushOff_intena, if_pos h₀]
    · -- deeper in the section nothing writes `intena`
      have hsaved := ih hprefix hdisc.of_snoc hes hin.of_snoc
      have hnest := nested_of_run h₀ hprefix hdisc.of_snoc
      have hpos : 0 < u.cpu.noff := by have := hin.of_snoc.pending hes; have := hnest.noff_eq; omega
      by_cases hp : e.isPush
      · rw [hpush hp, pushOff_intena, if_neg (by omega), hsaved]
      by_cases hq : e.isPop
      · have hcpu := hpop hq
        rw [popOff_eq (hnest.intr_off hpos) hpos, Option.some.injEq] at hcpu
        rw [← hcpu, hsaved]
      · cases e with
        | intrOff => rw [hoff rfl, ← hsaved]
        | intrOn => rw [hon rfl, ← hsaved]
        | _ => simp [Event.isPush, Event.isPop] at hp hq

/-- The pop that closes an outermost section entered from `s` turns interrupts back on exactly when
they were on in `s`. -/
theorem intr_of_section {s u t : State} {es : List Event} {e : Event} (h₀ : s.cpu.noff = 0)
    (hrun : Transition.Run Step s es u) (hstep : Step u e t) (hdisc : Disciplined (es ++ [e])) (hne : es ≠ [])
    (hin : Inside es) (hclose : pushes (es ++ [e]) = pops (es ++ [e])) : t.cpu.intr = s.cpu.intr := by
  have hnest := nested_of_run h₀ hrun hdisc.of_snoc
  have hsaved := intena_of_inside h₀ hrun hdisc.of_snoc hne hin
  have hpend := hin.pending hne
  have hcount := hnest.noff_eq
  obtain ⟨-, hpop, -, -⟩ := step_cpu hstep
  rw [pushes_snoc, pops_snoc] at hclose
  -- only a pop can close the section, and it pops the last pending push
  have hq : e.isPop := by
    by_contra hq
    rw [if_neg hq] at hclose
    split_ifs at hclose <;> omega
  rw [if_neg fun hp => Event.not_isPop_of_isPush hp hq, if_pos hq] at hclose
  have hone : u.cpu.noff = 1 := by omega
  have hcpu := hpop hq
  rw [popOff_eq (hnest.intr_off (by omega)) (by omega), Option.some.injEq] at hcpu
  rw [← hcpu, hone, hsaved]
  simp

/-- On one CPU, along every run from depth `0` in which pops never outnumber pushes and interrupts
are turned on by other code only at depth `0`: `noff` counts the pending pushes, interrupts are off
while one is pending, and a `pop_off` of a pending push, alone or in the `release` of a held lock,
never panics. Over an outermost section, the pop that returns `noff` to `0` leaves interrupts on
exactly when they were on before the push that raised it from `0`. -/
theorem push_pop_nesting :
    (∀ (s₀ t : State) (es : List Event), s₀.cpu.noff = 0 → Transition.Run Step s₀ es t → Disciplined es →
      t.cpu.noff + pops es = pushes es ∧ (0 < t.cpu.noff → t.cpu.intr = false) ∧
        (pops es < pushes es → (step t .popOff).isSome ∧ ∀ lk ∈ t.held, (step t (.release lk)).isSome)) ∧
    ∀ (s u t : State) (es : List Event) (e : Event), s.cpu.noff = 0 → Transition.Run Step s es u →
      Step u e t → Disciplined (es ++ [e]) → es ≠ [] → Inside es → pushes (es ++ [e]) = pops (es ++ [e]) →
        t.cpu.intr = s.cpu.intr := by
  refine ⟨fun s₀ t es h₀ hrun hdisc => ?_, fun s u t es e h₀ hrun hstep hdisc hne hin hclose =>
    intr_of_section h₀ hrun hstep hdisc hne hin hclose⟩
  have hnest := nested_of_run h₀ hrun hdisc
  refine ⟨hnest.noff_eq, hnest.intr_off, fun hpend => ⟨?_, fun lk hlk => ?_⟩⟩
  · obtain ⟨cpu, hcpu⟩ := Option.isSome_iff_exists.mp (hnest.popOff_isSome hpend)
    simp [step, hcpu]
  · obtain ⟨cpu, hcpu⟩ := Option.isSome_iff_exists.mp (hnest.popOff_isSome hpend)
    simp [step, release, hlk, hcpu]

/-- `acquire` with interrupts on, then `release`: they are on again. -/
theorem push_pop_nesting_lock :
    (⟨⟨0, false, true⟩, []⟩ : State).cpu.noff = 0 ∧
      Transition.Run Step ⟨⟨0, false, true⟩, []⟩ [.acquire 1] ⟨⟨1, true, false⟩, [1]⟩ ∧
      Step ⟨⟨1, true, false⟩, [1]⟩ (.release 1) ⟨⟨0, true, true⟩, []⟩ ∧
      Disciplined ([.acquire 1] ++ [.release 1]) ∧ [Event.acquire 1] ≠ [] ∧ Inside [.acquire 1] ∧
      pushes ([.acquire 1] ++ [.release 1]) = pops ([.acquire 1] ++ [.release 1]) ∧
      (⟨⟨0, true, true⟩, []⟩ : State).cpu.intr = (⟨⟨0, false, true⟩, []⟩ : State).cpu.intr := by
  have hrun : Transition.Run Step ⟨⟨0, false, true⟩, []⟩ [.acquire 1] ⟨⟨1, true, false⟩, [1]⟩ :=
    Transition.Run.single rfl
  have hstep : Step ⟨⟨1, true, false⟩, [1]⟩ (.release 1) ⟨⟨0, true, true⟩, []⟩ := rfl
  have hdisc : Disciplined ([.acquire 1] ++ [.release 1]) := by decide
  have hin : Inside [.acquire 1] := by decide
  have hclose : pushes ([.acquire 1] ++ [.release 1]) = pops ([.acquire 1] ++ [.release 1]) := by decide
  exact ⟨rfl, hrun, hstep, hdisc, by simp, hin, hclose,
    push_pop_nesting.2 _ _ _ _ _ rfl hrun hstep hdisc (by simp) hin hclose⟩

end Xv6.Lock
