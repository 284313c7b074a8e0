import Mathlib

/-!
# Lists threaded through memory

An intrusive singly linked list keeps the link in the elements themselves: the element `x` stores
the next one in its own field, `next x`, and the list ends at the value `nil`. `Chain next nil h L`
says that following `next` from `h` runs through the elements of `L` in order and stops at `nil`.

Storing the old head in the field of an element not on the list makes that element the head of a
chain one longer (`Chain.push`); stores to the fields of elements not on a chain leave it as it is
(`Chain.frame`); and a chain is empty exactly when its head is `nil` (`Chain.eq_nil_iff`).
-/

namespace ListSeg

variable {α : Type*}

/-- Following `next` from `h` visits `L` and ends at `nil`. -/
def Chain (next : α → α) (nil : α) : α → List α → Prop
  | h, [] => h = nil
  | h, x :: L => h = x ∧ x ≠ nil ∧ Chain next nil (next x) L

variable {next next' : α → α} {nil h x : α} {L : List α}

@[simp] theorem chain_nil : Chain next nil h [] ↔ h = nil := Iff.rfl

@[simp] theorem chain_cons : Chain next nil h (x :: L) ↔ h = x ∧ x ≠ nil ∧ Chain next nil (next x) L := Iff.rfl

/-- A chain depends only on the fields of its own elements. -/
theorem Chain.frame (hc : Chain next nil h L) (hagree : ∀ y ∈ L, next' y = next y) : Chain next' nil h L := by
  induction L generalizing h with
  | nil => exact hc
  | cons y L ih =>
    obtain ⟨rfl, hy, hc⟩ := hc
    refine ⟨rfl, hy, ?_⟩
    rw [hagree h List.mem_cons_self]
    exact ih hc fun z hz => hagree z (List.mem_cons_of_mem h hz)

theorem Chain.nil_not_mem (hc : Chain next nil h L) : nil ∉ L := by
  induction L generalizing h with
  | nil => simp
  | cons y L ih =>
    obtain ⟨rfl, hy, hc⟩ := hc
    simpa [Ne.symm hy] using ih hc

theorem Chain.eq_nil_iff (hc : Chain next nil h L) : h = nil ↔ L = [] := by
  cases L with
  | nil => simpa using hc
  | cons y L =>
    obtain ⟨rfl, hy, -⟩ := hc
    simp [hy]

variable [DecidableEq α]

/-- Pushing `x`, not on the chain: its field takes the old head, and it becomes the head. -/
theorem Chain.push (hc : Chain next nil h L) (hx : x ∉ L) (hnil : x ≠ nil) :
    Chain (Function.update next x h) nil x (x :: L) := by
  refine ⟨rfl, hnil, ?_⟩
  rw [Function.update_self]
  refine hc.frame fun y hy => Function.update_of_ne ?_ _ _
  rintro rfl
  exact hx hy

end ListSeg
