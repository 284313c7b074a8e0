import Mathlib

/-!
# Ranges laid end to end

A list of ranges `(start, length)` is contiguous from `off` when each range starts where the one
before it ended and the first starts at `off`. This is the pattern of a shared cursor that every user
reads and advances by what it consumed in one atomic step: the ranges then cover `[off, off + total)`
in order, and no two of them overlap.
-/

namespace Ranges

/-- Each range starts where the one before it ended, the first at `off`. -/
def Contiguous : Nat → List (Nat × Nat) → Prop
  | _, [] => True
  | off, r :: rs => r.1 = off ∧ Contiguous (off + r.2) rs

/-- The sum of the lengths. -/
def total (rs : List (Nat × Nat)) : Nat := (rs.map Prod.snd).sum

@[simp] theorem total_nil : total [] = 0 := rfl

@[simp] theorem total_append (rs rs' : List (Nat × Nat)) : total (rs ++ rs') = total rs + total rs' := by
  simp [total]

@[simp] theorem total_singleton (r : Nat × Nat) : total [r] = r.2 := by
  simp [total]

@[simp] theorem contiguous_nil (off : Nat) : Contiguous off [] := trivial

/-- A range appended at the end must start where the list ends. -/
theorem contiguous_append {off : Nat} {rs : List (Nat × Nat)} {r : Nat × Nat} :
    Contiguous off (rs ++ [r]) ↔ Contiguous off rs ∧ r.1 = off + total rs := by
  induction rs generalizing off with
  | nil => simp [Contiguous]
  | cons r' rs ih =>
    simp only [List.cons_append, Contiguous, ih, total, List.map_cons, List.sum_cons, Nat.add_assoc]
    exact and_assoc.symm

/-- Every range of a contiguous list starts at or after `off`. -/
theorem Contiguous.le_of_mem {off : Nat} {rs : List (Nat × Nat)} (h : Contiguous off rs) {r : Nat × Nat}
    (hr : r ∈ rs) : off ≤ r.1 := by
  induction rs generalizing off with
  | nil => cases hr
  | cons r' rs ih =>
    obtain ⟨hstart, hrest⟩ := h
    rcases List.mem_cons.mp hr with rfl | hr
    · exact hstart.ge
    · have := ih hrest hr
      omega

/-- An earlier range ends where or before a later one starts. -/
theorem Contiguous.pairwise_le {off : Nat} {rs : List (Nat × Nat)} (h : Contiguous off rs) :
    rs.Pairwise fun a b => a.1 + a.2 ≤ b.1 := by
  induction rs generalizing off with
  | nil => exact List.Pairwise.nil
  | cons r rs ih =>
    obtain ⟨hstart, hrest⟩ := h
    refine List.Pairwise.cons (fun b hb => ?_) (ih hrest)
    have := hrest.le_of_mem hb
    omega

/-- No two ranges of a contiguous list overlap. -/
theorem Contiguous.pairwise_disjoint {off : Nat} {rs : List (Nat × Nat)} (h : Contiguous off rs) :
    rs.Pairwise fun a b => Disjoint (Set.Ico a.1 (a.1 + a.2)) (Set.Ico b.1 (b.1 + b.2)) :=
  h.pairwise_le.imp fun hab => Set.disjoint_left.mpr fun x hx hy => by
    simp only [Set.mem_Ico] at hx hy
    omega

end Ranges
