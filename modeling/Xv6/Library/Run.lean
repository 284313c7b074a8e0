import Mathlib.Data.List.Basic
import Mathlib.Logic.Function.Iterate

/-!
# Runs of a labelled transition system

A system is a step relation `step s e t`: event `e` takes state `s` to `t`. A run is a list of events
taken in order, extended at its end, so that a property of every run is proved one event at a time:
an invariant by `Run.invariant`, a property of the state together with the events so far by
`Run.history`. A theorem about every run holds for every interleaving of the parties whose events
the list records.
-/

namespace Transition

variable {σ ε : Type*}

/-- The events `es`, in order, lead from `s` to `t`. -/
inductive Run (step : σ → ε → σ → Prop) : σ → List ε → σ → Prop
  | nil (s : σ) : Run step s [] s
  | snoc {s t u : σ} {es : List ε} {e : ε} : Run step s es t → step t e u → Run step s (es ++ [e]) u

/-- The states some run from `init` ends in. -/
def Reachable (step : σ → ε → σ → Prop) (init t : σ) : Prop := ∃ es, Run step init es t

variable {step : σ → ε → σ → Prop}

theorem Run.single {s t : σ} {e : ε} (h : step s e t) : Run step s [e] t := by
  simpa using Run.snoc (Run.nil s) h

theorem Run.append {s t u : σ} {es fs : List ε} (hst : Run step s es t) (htu : Run step t fs u) :
    Run step s (es ++ fs) u := by
  induction htu with
  | nil => simpa using hst
  | snoc _ hstep ih => simpa [List.append_assoc] using Run.snoc ih hstep

/-- A run that starts with `e` takes one step and then runs the rest. -/
theorem Run.cons {s t u : σ} {e : ε} {es : List ε} (hstep : step s e t) (hrun : Run step t es u) :
    Run step s (e :: es) u := by
  simpa using (Run.single hstep).append hrun

/-- A property of the state and the events so far, true at the start and kept by every step,
holds at the end of every run. -/
theorem Run.history (J : σ → List ε → Prop) {s t : σ} {es : List ε} (hrun : Run step s es t)
    (hinit : J s []) (hstep : ∀ t es e u, J t es → step t e u → J u (es ++ [e])) : J t es := by
  induction hrun with
  | nil => exact hinit
  | snoc _ hs ih => exact hstep _ _ _ _ ih hs

/-- An invariant kept by every step holds at the end of every run from a state that has it. -/
theorem Run.invariant (I : σ → Prop) {s t : σ} {es : List ε} (hrun : Run step s es t) (hinit : I s)
    (hstep : ∀ t e u, I t → step t e u → I u) : I t :=
  hrun.history (fun t _ => I t) hinit fun t _ e u hi hs => hstep t e u hi hs

/-- The empty run stays where it is. -/
theorem Run.nil_inv {s t : σ} (h : Run step s [] t) : t = s := by
  generalize hes : ([] : List ε) = es at h
  cases h with
  | nil => rfl
  | snoc _ _ => simp at hes

/-- A run that ends with `e` is a run followed by a step of `e`. -/
theorem Run.snoc_inv {s u : σ} {es : List ε} {e : ε} (h : Run step s (es ++ [e]) u) :
    ∃ t, Run step s es t ∧ step t e u := by
  generalize hfs : es ++ [e] = fs at h
  cases h with
  | nil => simp at hfs
  | snoc hrun hstep =>
    obtain ⟨rfl, he⟩ := List.append_inj' hfs rfl
    rw [List.singleton_inj] at he
    subst he
    exact ⟨_, hrun, hstep⟩

theorem Reachable.init (init : σ) : Reachable step init init := ⟨[], Run.nil init⟩

theorem Reachable.tail {init t u : σ} {e : ε} (hreach : Reachable step init t) (hstep : step t e u) :
    Reachable step init u := by
  obtain ⟨es, hrun⟩ := hreach
  exact ⟨es ++ [e], hrun.snoc hstep⟩

/-- An invariant of the initial state kept by every step holds in every reachable state. -/
theorem Reachable.invariant (I : σ → Prop) {init t : σ} (hreach : Reachable step init t) (hinit : I init)
    (hstep : ∀ t e u, I t → step t e u → I u) : I t := by
  obtain ⟨es, hrun⟩ := hreach
  exact hrun.invariant I hinit hstep

/-- The end of a run from a reachable state is reachable. -/
theorem Reachable.run {init t u : σ} {es : List ε} (hreach : Reachable step init t) (hrun : Run step t es u) :
    Reachable step init u := by
  obtain ⟨fs, hfs⟩ := hreach
  exact ⟨fs ++ es, hfs.append hrun⟩

/-- One step repeated from where the last one ended: its `n`-th iterate is reachable. -/
theorem Reachable.iterate {init : σ} {f : σ → σ} {e : ε} (n : ℕ)
    (hstep : ∀ m < n, step (f^[m] init) e (f (f^[m] init))) : Reachable step init (f^[n] init) := by
  induction n with
  | zero => exact Reachable.init init
  | succ n ih =>
    rw [Function.iterate_succ_apply']
    exact (ih fun m hm => hstep m (Nat.lt_succ_of_lt hm)).tail (hstep n (Nat.lt_succ_self n))

/-- No step is enabled in `s`. -/
def Stuck (step : σ → ε → σ → Prop) (s : σ) : Prop := ∀ e t, ¬ step s e t

/-- Nothing happens from a stuck state: every run from it is empty. -/
theorem Run.of_stuck {s t : σ} {es : List ε} (hstuck : Stuck step s) (hrun : Run step s es t) : es = [] ∧ t = s := by
  induction hrun with
  | nil => exact ⟨rfl, rfl⟩
  | snoc _ hstep ih =>
    obtain ⟨-, rfl⟩ := ih
    exact absurd hstep (hstuck _ _)

section Calls

variable {γ ρ : Type*}

/-- Runs a deterministic system that answers each call with a result, recording each call together
with what it returned; `none` when some call is not enabled. -/
def runCalls (exec : σ → γ → Option (ρ × σ)) (s : σ) : List γ → Option (List (γ × ρ) × σ)
  | [] => some ([], s)
  | c :: cs =>
    match exec s c with
    | none => none
    | some (r, t) => (runCalls exec t cs).map fun (es, u) => ((c, r) :: es, u)

theorem runCalls_run {exec : σ → γ → Option (ρ × σ)} {s u : σ} {cs : List γ} {es : List (γ × ρ)}
    (h : runCalls exec s cs = some (es, u)) : Run (fun s e t => exec s e.1 = some (e.2, t)) s es u := by
  induction cs generalizing s es with
  | nil =>
    simp only [runCalls, Option.some.injEq, Prod.mk.injEq] at h
    obtain ⟨rfl, rfl⟩ := h
    exact Run.nil _
  | cons c cs ih =>
    simp only [runCalls] at h
    split at h
    · cases h
    · rename_i r t hexec
      obtain ⟨⟨es', u'⟩, hrest, heq⟩ := Option.map_eq_some_iff.mp h
      simp only [Prod.mk.injEq] at heq
      obtain ⟨rfl, rfl⟩ := heq
      exact Run.cons hexec (ih hrest)

end Calls

section Since

variable [DecidableEq ε]

/-- The events of `es` after the last `e`, or all of them when there is no `e`: what a party has
seen since it last did `e`. -/
def since (e : ε) (es : List ε) : List ε :=
  (es.reverse.takeWhile fun x => decide (x ≠ e)).reverse

@[simp] theorem since_nil (e : ε) : since e [] = [] := rfl

@[simp] theorem since_snoc_self (e : ε) (es : List ε) : since e (es ++ [e]) = [] := by
  simp [since]

theorem since_snoc_of_ne {e e' : ε} (h : e' ≠ e) (es : List ε) : since e (es ++ [e']) = since e es ++ [e'] := by
  simp [since, h]

end Since

section Loops

variable {α : Type*}

/-- A loop over the list `l` that may stop (`List.foldlM` in `Option`) runs to its end when each
round, from a state with the invariant of the rounds done before it, goes on to a state with the
invariant of one more; the invariant of the whole list then holds at the end. -/
theorem foldlM_invariant {f : σ → α → Option σ} (I : List α → σ → Prop) {l : List α} {s : σ} (hinit : I [] s)
    (hstep : ∀ pre i suf t, pre ++ i :: suf = l → I pre t → ∃ t', f t i = some t' ∧ I (pre ++ [i]) t') :
    ∃ t, l.foldlM f s = some t ∧ I l t := by
  -- the rounds still to run are a suffix `rest` of `l`, after the rounds `pre`
  suffices h : ∀ rest pre t, pre ++ rest = l → I pre t → ∃ t', rest.foldlM f t = some t' ∧ I l t' from
    h l [] s rfl hinit
  intro rest
  induction rest with
  | nil =>
    intro pre t h ht
    rw [List.append_nil] at h
    exact ⟨t, rfl, h ▸ ht⟩
  | cons i rest ih =>
    intro pre t h ht
    obtain ⟨t', hf, ht'⟩ := hstep pre i rest t h ht
    obtain ⟨u, hrun, hu⟩ := ih (pre ++ [i]) t' (by rw [List.append_assoc, List.singleton_append]; exact h) ht'
    refine ⟨u, ?_, hu⟩
    rw [List.foldlM_cons, hf]
    exact hrun

end Loops

end Transition
