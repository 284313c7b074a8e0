import Mathlib.Logic.Function.Basic
import Mathlib.Data.List.Basic

/-!
# Trees of nodes stored in memory

A node `t` is a row of `n` entries in memory, `mem t i`, and an entry may lead to a child node,
`child (mem t i)`. `follow child mem t p` follows the indices `p` down from `t`: the node it ends at,
or `none` where an entry on the way leads nowhere.

Following `p` reads one entry of each node it passes, so two memories that agree on those entries
follow `p` alike (`follow_congr`); a write to a row leaves every path alike that does not read the
written entry (`follow_update`). Paths compose (`follow_append`).
-/

namespace Radix

variable {α β : Type*} {n : ℕ} (child : β → Option α)

/-- The node at the end of the indices `p` from `t`. -/
def follow (mem : α → Fin n → β) : α → List (Fin n) → Option α
  | t, [] => some t
  | t, i :: p => (child (mem t i)).bind fun c => follow mem c p

variable {child} {mem mem' : α → Fin n → β}

@[simp] theorem follow_nil (t : α) : follow child mem t [] = some t := rfl

@[simp] theorem follow_cons (t : α) (i : Fin n) (p : List (Fin n)) :
    follow child mem t (i :: p) = (child (mem t i)).bind fun c => follow child mem c p := rfl

theorem follow_append (t : α) (p q : List (Fin n)) :
    follow child mem t (p ++ q) = (follow child mem t p).bind fun u => follow child mem u q := by
  induction p generalizing t with
  | nil => rfl
  | cons i p ih =>
    simp only [List.cons_append, follow_cons, ih, Option.bind_assoc]

theorem follow_singleton (t : α) (i : Fin n) : follow child mem t [i] = child (mem t i) := by
  simp only [follow_cons, follow_nil]
  cases child (mem t i) <;> rfl

/-- Following `p` reads, at each node it passes, the entry of the next index: memories that agree
there follow `p` alike. -/
theorem follow_congr (t : α) (p : List (Fin n))
    (h : ∀ k (hk : k < p.length) u, follow child mem t (p.take k) = some u → mem' u p[k] = mem u p[k]) :
    follow child mem' t p = follow child mem t p := by
  induction p generalizing t with
  | nil => rfl
  | cons i p ih =>
    have hi : mem' t i = mem t i := h 0 (Nat.succ_pos _) t rfl
    simp only [follow_cons, hi]
    cases hc : child (mem t i) with
    | none => rfl
    | some c =>
      -- below the first entry, the path from `c` is the rest of `p`
      refine ih c fun k hk u hu => h (k + 1) (Nat.succ_lt_succ hk) u ?_
      simpa [hc] using hu

variable [DecidableEq α]

/-- A write of entry `j` of node `u` leaves alike every path that does not read that entry. -/
theorem follow_update (t u : α) (j : Fin n) (e : β) (p : List (Fin n))
    (h : ∀ k (hk : k < p.length), follow child mem t (p.take k) = some u → p[k] ≠ j) :
    follow child (Function.update mem u (Function.update (mem u) j e)) t p = follow child mem t p := by
  refine follow_congr t p fun k hk u' hu' => ?_
  by_cases hu : u' = u
  · subst hu
    rw [Function.update_self, Function.update_of_ne (h k hk hu')]
  · rw [Function.update_of_ne hu]

/-- A write of a whole row leaves alike every path that does not pass the node. -/
theorem follow_update_row (t u : α) (row : Fin n → β) (p : List (Fin n))
    (h : ∀ k < p.length, follow child mem t (p.take k) ≠ some u) :
    follow child (Function.update mem u row) t p = follow child mem t p := by
  refine follow_congr t p fun k hk u' hu' => ?_
  have hne : u' ≠ u := fun e => h k hk (e ▸ hu')
  rw [Function.update_of_ne hne]

section Unique

/-! A node `u` that only the path `q` reaches: a write of its entry `j` changes just the paths
through `q ++ [j]`. -/

variable {t u : α} {q : List (Fin n)} {j : Fin n} {e : β}

/-- The paths that do not start with `q ++ [j]` follow alike. -/
theorem follow_update_of_not_prefix {p : List (Fin n)}
    (hq : ∀ k < p.length, follow child mem t (p.take k) = some u → p.take k = q)
    (hp : ¬ q ++ [j] <+: p) :
    follow child (Function.update mem u (Function.update (mem u) j e)) t p = follow child mem t p := by
  refine follow_update t u j e p fun k hk hu hj => hp ?_
  -- the prefix of `p` that reaches `u` is `q`, and the next index would be `j`
  have hqk : p.take k = q := hq k hk hu
  rw [← hqk, ← hj, List.take_append_getElem hk]
  exact List.take_prefix _ _

/-- The paths through `q ++ [j]` continue below the written entry. -/
theorem follow_update_append (hu : follow child mem t q = some u)
    (hq : ∀ k < q.length, follow child mem t (q.take k) ≠ some u) (r : List (Fin n)) :
    follow child (Function.update mem u (Function.update (mem u) j e)) t (q ++ j :: r)
      = (child e).bind fun c => follow child (Function.update mem u (Function.update (mem u) j e)) c r := by
  have hq' : follow child (Function.update mem u (Function.update (mem u) j e)) t q = some u := by
    rw [follow_update t u j e q fun k hk hk' => absurd hk' (hq k hk)]
    exact hu
  rw [follow_append, hq', Option.bind_some, follow_cons, Function.update_self, Function.update_self]

end Unique

end Radix
