import Mathlib.Logic.Function.Basic

/-!
# Owners of locks

Each lock records who holds it, `owner : ι → Option γ`; each holder's place in its code says which
locks it holds there, `held : γ → ι → Prop`. The two agree (`Exact`) when a lock names a holder
exactly if that holder's code holds it. Then no two holders hold one lock (`Exact.unique`), and a
free lock is held by no one (`Exact.not_held`).

An acquire of a free lock, whose holder's code gains just that lock (`Exact.acquire`), a release by
the holder, whose code drops just that lock (`Exact.release`), and a move of the code that keeps
every holder's locks (`Exact.frame`) keep the two in agreement; no other holder's place may change.
-/

namespace Owner

variable {ι γ : Type*}

/-- The lock `l` names `c` exactly when the code of `c` holds it. -/
def Exact (owner : ι → Option γ) (held : γ → ι → Prop) : Prop := ∀ l c, owner l = some c ↔ held c l

variable {owner : ι → Option γ} {held held' : γ → ι → Prop} {l : ι} {c c' : γ}

theorem Exact.unique (h : Exact owner held) (h₁ : held c l) (h₂ : held c' l) : c = c' := by
  have e₁ := (h l c).mpr h₁
  have e₂ := (h l c').mpr h₂
  rw [e₁] at e₂
  exact Option.some.inj e₂

theorem Exact.not_held (h : Exact owner held) (hfree : owner l = none) : ¬ held c l := by
  intro hc
  rw [(h l c).mpr hc] at hfree
  cases hfree

/-- Holders whose code does not move keep their locks; the others keep the same locks. -/
theorem Exact.frame (h : Exact owner held) (hsame : ∀ c l, held' c l ↔ held c l) : Exact owner held' :=
  fun l c => (h l c).trans (hsame c l).symm

variable [DecidableEq ι]

/-- `c` takes the free lock `l`, and its code now holds `l` besides what it held. -/
theorem Exact.acquire (h : Exact owner held) (hfree : owner l = none)
    (hc : ∀ l', held' c l' ↔ l' = l ∨ held c l') (hother : ∀ c', c' ≠ c → held' c' = held c') :
    Exact (Function.update owner l (some c)) held' := by
  intro l' c''
  by_cases hl : l' = l
  · subst hl
    rw [Function.update_self, Option.some.injEq]
    by_cases hcc : c'' = c
    · subst hcc
      simp [hc]
    · rw [hother c'' hcc]
      exact ⟨fun e => absurd e.symm hcc, fun hh => absurd hh (h.not_held hfree)⟩
  · rw [Function.update_of_ne hl]
    by_cases hcc : c'' = c
    · subst hcc
      rw [hc, or_iff_right hl]
      exact h l' c''
    · rw [hother c'' hcc]
      exact h l' c''

/-- The holder `c` of `l` lets it go, and its code now holds what it held but `l`. -/
theorem Exact.release (h : Exact owner held) (hheld : held c l) (hc : ∀ l', held' c l' ↔ l' ≠ l ∧ held c l')
    (hother : ∀ c', c' ≠ c → held' c' = held c') : Exact (Function.update owner l none) held' := by
  intro l' c''
  by_cases hl : l' = l
  · subst hl
    rw [Function.update_self]
    by_cases hcc : c'' = c
    · subst hcc
      simp [hc]
    · rw [hother c'' hcc]
      exact ⟨nofun, fun hh => absurd (h.unique hh hheld) hcc⟩
  · rw [Function.update_of_ne hl]
    by_cases hcc : c'' = c
    · subst hcc
      rw [hc]
      exact (h l' c'').trans (and_iff_right hl).symm
    · rw [hother c'' hcc]
      exact h l' c''

end Owner
