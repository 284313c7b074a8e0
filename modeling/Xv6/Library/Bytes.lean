import Mathlib.Order.Basic

/-!
# Copying a range of a buffer

`memmove(dst + d, src, n)` on buffers indexed by natural numbers: the values `src 0, ..., src (n-1)`
stored at `d, ..., d + n - 1`, every other index untouched. A copy done in pieces, as the page and
block loops of a kernel do it, is one copy: `copy_copy` joins two adjacent pieces.
-/

namespace Bytes

variable {α : Type*}

/-- `dst` with `src 0, ..., src (n - 1)` stored from index `d` on. -/
def copy (dst : Nat → α) (d : Nat) (src : Nat → α) (n : Nat) : Nat → α :=
  fun i => if d ≤ i ∧ i < d + n then src (i - d) else dst i

variable {dst : Nat → α} {d : Nat} {src : Nat → α} {n : Nat}

theorem copy_of_mem {i : Nat} (hd : d ≤ i) (hi : i < d + n) : copy dst d src n i = src (i - d) :=
  if_pos ⟨hd, hi⟩

theorem copy_of_lt {i : Nat} (hi : i < d) : copy dst d src n i = dst i :=
  if_neg fun h => absurd h.1 (Nat.not_le.mpr hi)

theorem copy_of_le {i : Nat} (hi : d + n ≤ i) : copy dst d src n i = dst i :=
  if_neg fun h => absurd h.2 (Nat.not_lt.mpr hi)

/-- Outside the copied range nothing changes. -/
theorem copy_of_not_mem {i : Nat} (hi : i < d ∨ d + n ≤ i) : copy dst d src n i = dst i :=
  hi.elim copy_of_lt copy_of_le

@[simp] theorem copy_zero : copy dst d src 0 = dst := by
  funext i
  exact if_neg fun h => by omega

/-- A copy of one value is an update. -/
theorem copy_one : copy dst d src 1 = Function.update dst d (src 0) := by
  funext i
  by_cases hi : i = d
  · subst hi
    rw [copy_of_mem (Nat.le_refl i) (by omega), Function.update_self, Nat.sub_self]
  · rw [copy_of_not_mem (by omega), Function.update_of_ne hi]

/-- Two adjacent pieces of one copy are that copy. -/
theorem copy_copy (m : Nat) :
    copy (copy dst d src n) (d + n) (fun k => src (n + k)) m = copy dst d src (n + m) := by
  funext i
  by_cases hlo : i < d + n
  · rw [copy_of_lt hlo]
    by_cases hd : d ≤ i
    · rw [copy_of_mem hd hlo, copy_of_mem hd (by omega)]
    · rw [copy_of_lt (by omega), copy_of_lt (by omega)]
  · by_cases hhi : i < d + n + m
    · rw [copy_of_mem (by omega) hhi, copy_of_mem (by omega) (by omega)]
      congr 1
      omega
    · rw [copy_of_le (by omega), copy_of_le (by omega), copy_of_le (by omega)]

/-- Copies that agree on their sources over the copied range agree. -/
theorem copy_congr {src' : Nat → α} (h : ∀ k < n, src k = src' k) : copy dst d src n = copy dst d src' n := by
  funext i
  by_cases hi : d ≤ i ∧ i < d + n
  · rw [copy_of_mem hi.1 hi.2, copy_of_mem hi.1 hi.2, h _ (by omega)]
  · simp only [copy, if_neg hi]

end Bytes
