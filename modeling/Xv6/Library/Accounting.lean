import Mathlib.Logic.Function.Basic

/-!
# Resources handed out by an allocator and owned through slots

An allocator marks resources in use, and its clients keep the resources they were given in slots,
with `0` for an empty slot. The two agree (`Accounted`) when every resource a slot names lies in the
allocator's area and is marked, no two slots name the same resource, and every marked resource of
the area is named by some slot. The marks are then exactly the resources owned, each owned once, and
an unmarked resource of the area is owned by nobody.

The agreement survives what an allocator and its clients do: handing an unmarked resource to an
empty slot (`Accounted.assign`), taking back everything a set of slots names (`Accounted.release`),
and any change that leaves the slots and the marks on the area as they were (`Accounted.congr`).
-/

namespace Accounting

variable {P β : Type*} [Zero β]

/-- The slots `slot` and the marks `used` agree over the area `area`. -/
structure Accounted (area : β → Prop) (slot : P → β) (used : β → Prop) : Prop where
  /-- A slot names only resources of the area. -/
  area_of_ne : ∀ p, slot p ≠ 0 → area (slot p)
  /-- A slot names only marked resources. -/
  used_of_ne : ∀ p, slot p ≠ 0 → used (slot p)
  /-- No resource is named by two slots. -/
  inj : ∀ p q, slot p ≠ 0 → slot p = slot q → p = q
  /-- Every marked resource of the area is named by a slot. -/
  named : ∀ b, b ≠ 0 → area b → used b → ∃ p, slot p = b

variable {area : β → Prop} {slot : P → β} {used : β → Prop}

/-- No slot names an unmarked resource. -/
theorem Accounted.ne_of_not_used (h : Accounted area slot used) {b : β} (hb0 : b ≠ 0) (hb : ¬ used b)
    (p : P) : slot p ≠ b := by
  intro hp
  subst hp
  exact hb (h.used_of_ne p hb0)

/-- Nothing the agreement reads has changed. -/
theorem Accounted.congr {slot' : P → β} {used' : β → Prop} (h : Accounted area slot used)
    (hslot : ∀ p, slot' p = slot p) (hused : ∀ b, area b → (used' b ↔ used b)) : Accounted area slot' used' where
  area_of_ne p hp := by
    rw [hslot] at hp ⊢
    exact h.area_of_ne p hp
  used_of_ne p hp := by
    rw [hslot] at hp ⊢
    exact (hused _ (h.area_of_ne p hp)).mpr (h.used_of_ne p hp)
  inj p q hp hpq := by
    rw [hslot, hslot] at hpq
    rw [hslot] at hp
    exact h.inj p q hp hpq
  named b hb0 hb hu := by
    obtain ⟨p, hp⟩ := h.named b hb0 hb ((hused b hb).mp hu)
    exact ⟨p, (hslot p).trans hp⟩

/-- Marking an unmarked resource of the area and storing it in an empty slot. -/
theorem Accounted.assign [DecidableEq P] (h : Accounted area slot used) {p : P} {b : β} (hp : slot p = 0)
    (hb0 : b ≠ 0) (hb : area b) (hfree : ¬ used b) :
    Accounted area (Function.update slot p b) (fun c => c = b ∨ used c) where
  area_of_ne q hq := by
    by_cases hqp : q = p
    · subst hqp
      rwa [Function.update_self]
    · rw [Function.update_of_ne hqp] at hq ⊢
      exact h.area_of_ne q hq
  used_of_ne q hq := by
    by_cases hqp : q = p
    · subst hqp
      exact .inl (Function.update_self ..)
    · rw [Function.update_of_ne hqp] at hq ⊢
      exact .inr (h.used_of_ne q hq)
  inj q r hq hqr := by
    by_cases hqp : q = p <;> by_cases hrp : r = p
    · rw [hqp, hrp]
    · -- `r` would be an old slot naming the unmarked `b`
      subst hqp
      rw [Function.update_self, Function.update_of_ne hrp] at hqr
      exact absurd hqr.symm (h.ne_of_not_used hb0 hfree r)
    · subst hrp
      rw [Function.update_self, Function.update_of_ne hqp] at hqr
      exact absurd hqr (h.ne_of_not_used hb0 hfree q)
    · rw [Function.update_of_ne hqp, Function.update_of_ne hrp] at hqr
      rw [Function.update_of_ne hqp] at hq
      exact h.inj q r hq hqr
  named c hc0 hc hu := by
    rcases hu with rfl | hu
    · exact ⟨p, Function.update_self ..⟩
    · obtain ⟨q, hq⟩ := h.named c hc0 hc hu
      -- the old slot naming `c` is not `p`, which was empty
      have hqp : q ≠ p := by
        rintro rfl
        exact hc0 (hq ▸ hp)
      exact ⟨q, by rw [Function.update_of_ne hqp, hq]⟩

/-- Emptying the slots of `S` and unmarking what they named. -/
theorem Accounted.release (h : Accounted area slot used) (S : P → Prop) [DecidablePred S] :
    Accounted area (fun p => if S p then 0 else slot p) (fun c => used c ∧ ∀ p, S p → slot p ≠ c) where
  area_of_ne p hp := by
    by_cases hS : S p
    · simp [hS] at hp
    · simp only [hS, if_false] at hp ⊢
      exact h.area_of_ne p hp
  used_of_ne p hp := by
    by_cases hS : S p
    · simp [hS] at hp
    · simp only [hS, if_false] at hp ⊢
      refine ⟨h.used_of_ne p hp, fun q hq hqp => ?_⟩
      -- a released slot naming the same resource would be `p` itself
      have := h.inj p q hp hqp.symm
      subst this
      exact hS hq
  inj p q hp hpq := by
    by_cases hSp : S p
    · simp [hSp] at hp
    · by_cases hSq : S q
      · simp only [hSp, hSq, if_false, if_true] at hp hpq
        exact absurd hpq hp
      · simp only [hSp, hSq, if_false] at hp hpq
        exact h.inj p q hp hpq
  named b hb0 hb hu := by
    obtain ⟨p, hp⟩ := h.named b hb0 hb hu.1
    have hS : ¬ S p := fun hS => hu.2 p hS hp
    exact ⟨p, by simp only [hS, if_false, hp]⟩

end Accounting
