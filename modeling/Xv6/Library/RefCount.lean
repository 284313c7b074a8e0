import Mathlib

/-!
# Reference counts and the slots that hold the references

Objects are named by slots, `slot : σ → Option β`, and each object keeps a count of its references.
The count is right when it is the number of slots that name the object (`holders`), together with
the references a caller has in hand: between taking one and storing it in a slot, or between
clearing a slot and dropping what it named.

Filling empty slots adds their names to the count and leaves every other object's as it was
(`holders_fill`); storing one reference (`holders_store`) and clearing one slot (`holders_clear`)
are its two cases that a single step of a caller takes.
-/

namespace RefCount

variable {σ β : Type*} [Fintype σ] [DecidableEq β]

/-- The slots that name `b`. -/
def holders (slot : σ → Option β) (b : β) : ℕ := (Finset.univ.filter fun x => slot x = some b).card

theorem holders_eq_sum (slot : σ → Option β) (b : β) :
    holders slot b = ∑ x, if slot x = some b then 1 else 0 := by
  rw [holders, Finset.card_filter]

variable [DecidableEq σ]

/-- Slots outside `T` are left as they were and the slots of `T`, empty before, are filled: each
object gains the slots of `T` that now name it. -/
theorem holders_fill {slot slot' : σ → Option β} (T : Finset σ) (hT : ∀ x ∈ T, slot x = none)
    (hout : ∀ x ∉ T, slot' x = slot x) (b : β) :
    holders slot' b = holders slot b + (T.filter fun x => slot' x = some b).card := by
  have hT0 : ∑ x ∈ T, (if slot x = some b then 1 else 0) = 0 := by
    apply Finset.sum_eq_zero
    intro x hx
    rw [hT x hx, if_neg (by simp)]
  have hrest : ∑ x ∈ Tᶜ, (if slot' x = some b then 1 else 0) = ∑ x ∈ Tᶜ, (if slot x = some b then 1 else 0) := by
    apply Finset.sum_congr rfl
    intro x hx
    rw [hout x (Finset.mem_compl.mp hx)]
  rw [holders_eq_sum, holders_eq_sum, ← Finset.sum_add_sum_compl T, ← Finset.sum_add_sum_compl T, hT0,
    hrest, Finset.card_filter]
  omega

/-- Storing `c` in the empty slot `x`. -/
theorem holders_store {slot : σ → Option β} {x : σ} (hx : slot x = none) (c b : β) :
    holders (Function.update slot x (some c)) b = holders slot b + if c = b then 1 else 0 := by
  have hout : ∀ y ∉ ({x} : Finset σ), Function.update slot x (some c) y = slot y :=
    fun y hy => Function.update_of_ne (Finset.notMem_singleton.mp hy) _ _
  rw [holders_fill {x} (by simpa using hx) hout b, Finset.filter_singleton, Function.update_self]
  by_cases hcb : c = b
  · subst hcb
    simp
  · simp [hcb]

/-- Clearing the slot `x`, which named `c`. -/
theorem holders_clear {slot : σ → Option β} {x : σ} {c : β} (hx : slot x = some c) (b : β) :
    holders (Function.update slot x none) b + (if c = b then 1 else 0) = holders slot b := by
  have hstore := @holders_store _ _ _ _ _ (Function.update slot x none) x (Function.update_self x none slot) c b
  rw [Function.update_idem, ← hx, Function.update_eq_self] at hstore
  exact hstore.symm

end RefCount
