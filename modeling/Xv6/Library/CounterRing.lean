import Mathlib

/-!
# A ring buffer indexed by free-running 32-bit counters

A bounded queue of `N` cells kept as `buf[k % N]` with two unsigned 32-bit counters: `w` counts the
elements put in and `r` those taken out, and neither is ever reduced modulo `N`. Both wrap at `2^32`,
and the number of elements held is the difference `w - r` of the 32-bit words. When `N` divides
`2^32` the cell of counter `k` is the same whether the counter wrapped or not, so the queue is the
list `view buf r w` of the cells of `r, r + 1, ..., w - 1`.

Putting an element at the cell of `w` and advancing `w` appends it to the view while fewer than `N`
are held (`view_push`); the view of a non-empty queue is the cell of `r` followed by the view from
`r + 1` (`view_cons`), which is what taking an element, and putting one back by moving `r` back,
read.
-/

namespace CounterRing

variable {α : Type*} {N : Nat} [NeZero N]

/-- The cell of counter `k`: `k % N`. -/
def cell (N : Nat) [NeZero N] (k : UInt32) : Fin N := ⟨k.toNat % N, Nat.mod_lt _ (Nat.pos_of_neZero N)⟩

/-- The number of elements from counter `r` to counter `w`: `w - r` on 32-bit words. -/
def count (r w : UInt32) : Nat := (w - r).toNat

/-- The elements from counter `r` up to counter `w`, oldest first. -/
def view (buf : Fin N → α) (r w : UInt32) : List α :=
  (List.range (count r w)).map fun k => buf (cell N (r + UInt32.ofNat k))

section Counters

@[simp] theorem count_self (r : UInt32) : count r r = 0 := by simp [count]

/-- Only equal counters have no element between them. -/
theorem eq_of_count_eq_zero {r w : UInt32} (h : count r w = 0) : r = w := by
  have hsub : w - r = 0 := by
    rw [← UInt32.toNat_inj]
    simpa [count] using h
  grind

theorem count_lt (r w : UInt32) : count r w < 2 ^ 32 := UInt32.toNat_lt _

/-- The counter `count r w` places after `r` is `w`. -/
theorem add_count (r w : UInt32) : r + UInt32.ofNat (count r w) = w := by
  rw [count, UInt32.ofNat_toNat]
  grind

theorem count_succ {r w : UInt32} (h : count r w + 1 < 2 ^ 32) : count r (w + 1) = count r w + 1 := by
  unfold count at *
  rw [show w + 1 - r = (w - r) + 1 by grind, UInt32.toNat_add, UInt32.toNat_one, Nat.mod_eq_of_lt h]

theorem count_succ_left {r w : UInt32} (h : r ≠ w) : count (r + 1) w = count r w - 1 := by
  unfold count
  have hpos : (w - r).toNat ≠ 0 := fun h0 => h (eq_of_count_eq_zero h0)
  rw [show w - (r + 1) = (w - r) - 1 by grind, UInt32.toNat_sub, UInt32.toNat_one]
  have := UInt32.toNat_lt (w - r)
  omega

/-- Counters that have run `a` and `b ≥ a` steps from zero hold `b - a` elements between them while
fewer than `2^32` lie between. -/
theorem count_ofNat {a b : Nat} (h : a ≤ b) (hlt : b - a < 2 ^ 32) :
    count (UInt32.ofNat a) (UInt32.ofNat b) = b - a := by
  rw [count, UInt32.toNat_sub, UInt32.toNat_ofNat', UInt32.toNat_ofNat']
  have ha := Nat.mod_lt a (show 0 < 2 ^ 32 by norm_num)
  have hb := Nat.mod_lt b (show 0 < 2 ^ 32 by norm_num)
  -- `b - a` and the difference of the residues agree modulo `2^32`
  have hmod : (2 ^ 32 - a % 2 ^ 32 + b % 2 ^ 32) % 2 ^ 32 = (b - a) % 2 ^ 32 := by omega
  rw [hmod, Nat.mod_eq_of_lt hlt]

/-- `k < 2^32` steps after `r` there are `k` elements. -/
theorem count_add_self (r : UInt32) {k : Nat} (hk : k < 2 ^ 32) : count r (r + UInt32.ofNat k) = k := by
  rw [count, show r + UInt32.ofNat k - r = UInt32.ofNat k by grind, UInt32.toNat_ofNat', Nat.mod_eq_of_lt hk]

/-- `N < 2^32` elements lie between `r` and `w` exactly when `w` is `r + N`: the test for a full
queue. -/
theorem count_eq_iff {r w : UInt32} {N : Nat} (hN : N < 2 ^ 32) : count r w = N ↔ w = r + UInt32.ofNat N := by
  constructor
  · intro h
    rw [← h, add_count]
  · rintro rfl
    exact count_add_self r hN

/-- Moving `r` forward by `k ≤ count r w` leaves `count r w - k` elements. -/
theorem count_add_left {r w : UInt32} {k : Nat} (h : k ≤ count r w) :
    count (r + UInt32.ofNat k) w = count r w - k := by
  unfold count at *
  have hk : k < 2 ^ 32 := lt_of_le_of_lt h (UInt32.toNat_lt _)
  rw [show w - (r + UInt32.ofNat k) = (w - r) - UInt32.ofNat k by grind, UInt32.toNat_sub, UInt32.toNat_ofNat',
    Nat.mod_eq_of_lt hk]
  have := UInt32.toNat_lt (w - r)
  omega

/-- A counter `w` between `r` and `e` splits the elements from `r` to `e`. -/
theorem count_split {r w e : UInt32} (h : count r w ≤ count r e) : count w e = count r e - count r w := by
  rw [← count_add_left h, add_count]

/-- Counters between `r` and `e` with as many elements from `r` are equal. -/
theorem eq_of_count_eq {r w e : UInt32} (h : count r w = count r e) : w = e := by
  rw [← add_count r w, ← add_count r e, h]

/-- One step back from `e ≠ w` leaves one element fewer. -/
theorem count_sub_one {w e : UInt32} (h : w ≠ e) : count w (e - 1) = count w e - 1 := by
  unfold count
  have hpos : (e - w).toNat ≠ 0 := fun h0 => h (eq_of_count_eq_zero h0)
  rw [show e - 1 - w = (e - w) - 1 by grind, UInt32.toNat_sub, UInt32.toNat_one]
  have := UInt32.toNat_lt (e - w)
  omega

/-- The counters of a non-empty queue differ. -/
theorem ne_of_count_pos {r w : UInt32} (h : 0 < count r w) : r ≠ w := by
  rintro rfl
  simp at h

end Counters

section Cells

variable (hN : N ∣ 2 ^ 32)
include hN

/-- The cell of the counter `k` places after `r` does not see the wrap of the counter. -/
theorem cell_add (r : UInt32) (k : Nat) :
    cell N (r + UInt32.ofNat k) = ⟨(r.toNat + k) % N, Nat.mod_lt _ (Nat.pos_of_neZero N)⟩ := by
  ext
  simp only [cell, UInt32.toNat_add, UInt32.toNat_ofNat']
  rw [Nat.mod_mod_of_dvd _ hN, Nat.add_mod, Nat.mod_mod_of_dvd k hN, ← Nat.add_mod]

/-- Fewer than `N` counters after `r` have distinct cells. -/
theorem cell_add_injective {r : UInt32} {j k : Nat} (hj : j < N) (hk : k < N)
    (h : cell N (r + UInt32.ofNat j) = cell N (r + UInt32.ofNat k)) : j = k := by
  rw [cell_add hN, cell_add hN, Fin.mk.injEq] at h
  -- two residues of `r + j` and `r + k` with `j, k < N` agree only when `j = k`
  have hmod := Nat.ModEq.add_left_cancel' r.toNat h
  rwa [Nat.ModEq, Nat.mod_eq_of_lt hj, Nat.mod_eq_of_lt hk] at hmod

end Cells

section View

variable {buf : Fin N → α} {r w : UInt32}

@[simp] theorem view_length (buf : Fin N → α) (r w : UInt32) : (view buf r w).length = count r w := by
  simp [view]

@[simp] theorem view_self (buf : Fin N → α) (r : UInt32) : view buf r r = [] := by
  simp [view]

/-- A non-empty queue is the cell of `r` followed by the queue from `r + 1`. -/
theorem view_cons (h : r ≠ w) : view buf r w = buf (cell N r) :: view buf (r + 1) w := by
  have hpos : count r w ≠ 0 := fun h0 => h (eq_of_count_eq_zero h0)
  obtain ⟨c, hc⟩ := Nat.exists_eq_succ_of_ne_zero hpos
  have hc' : count (r + 1) w = c := by rw [count_succ_left h, hc]; rfl
  rw [view, view, hc, hc', List.range_succ_eq_map, List.map_cons, List.map_map]
  congr 1
  · simp
  · refine List.map_congr_left fun k _ => ?_
    simp only [Function.comp_apply, Nat.succ_eq_add_one]
    congr 2
    rw [UInt32.ofNat_add]
    grind

/-- Taking `k` elements moves `r` forward by `k`. -/
theorem view_drop (buf : Fin N → α) (r w : UInt32) : ∀ {k : Nat}, k ≤ count r w →
    view buf (r + UInt32.ofNat k) w = (view buf r w).drop k := by
  intro k
  induction k with
  | zero => intro _; simp
  | succ k ih =>
    intro hk
    -- one more element lies between `r + k` and `w`
    have hne : r + UInt32.ofNat k ≠ w := ne_of_count_pos (by rw [count_add_left (by omega)]; omega)
    rw [show r + UInt32.ofNat (k + 1) = r + UInt32.ofNat k + 1 by rw [UInt32.ofNat_add]; grind,
      ← List.drop_drop, ← ih (by omega), view_cons hne]
    rfl

/-- The queue from `r` to `e` is the queue from `r` to `w` followed by the queue from `w` to `e`, for
`w` between them. -/
theorem view_append (buf : Fin N → α) {r w e : UInt32} (h : count r w ≤ count r e) :
    view buf r e = view buf r w ++ view buf w e := by
  obtain ⟨k, hk⟩ : ∃ k, count r e = count r w + k := ⟨count r e - count r w, by omega⟩
  have hwe : count w e = k := by rw [count_split h, hk]; omega
  rw [view, view, view, hk, hwe, List.range_add, List.map_append, List.map_map]
  congr 1
  refine List.map_congr_left fun j _ => ?_
  simp only [Function.comp_apply]
  congr 2
  rw [UInt32.ofNat_add, ← add_assoc, add_count]

/-- Stepping `e ≠ w` back drops the last element, the one in the cell of `e - 1`. -/
theorem view_sub_one (buf : Fin N → α) {w e : UInt32} (h : w ≠ e) :
    view buf w (e - 1) = (view buf w e).dropLast ∧ (view buf w e).getLast? = some (buf (cell N (e - 1))) := by
  have hpos : count w e ≠ 0 := fun h0 => h (eq_of_count_eq_zero h0)
  obtain ⟨c, hc⟩ := Nat.exists_eq_succ_of_ne_zero hpos
  have hc' : count w (e - 1) = c := by rw [count_sub_one h, hc]; rfl
  have hlast : w + UInt32.ofNat c = e - 1 := by
    rw [← hc', add_count]
  rw [view, view, hc, hc', List.range_succ, List.map_append, List.map_singleton, List.dropLast_concat,
    List.getLast?_concat, hlast]
  exact ⟨rfl, rfl⟩

/-- A write to the cell of `e` leaves the queue from `r` to `w` when `w` lies between `r` and `e`
and fewer than `N` elements lie from `r` to `e`. -/
theorem view_update_of_le (hN : N ∣ 2 ^ 32) {r w e : UInt32} (h : count r w ≤ count r e) (he : count r e < N) (x : α) :
    view (Function.update buf (cell N e) x) r w = view buf r w := by
  refine List.map_congr_left fun k hk => ?_
  rw [List.mem_range] at hk
  rw [Function.update_of_ne]
  intro heq
  rw [← add_count r e] at heq
  exact absurd (cell_add_injective hN (by omega) he heq) (by omega)

/-- Putting `x` at the cell of `w` and advancing `w` appends `x` to a queue of fewer than `N`. -/
theorem view_push (hN : N ∣ 2 ^ 32) (hNlt : N < 2 ^ 32) (h : count r w < N) (x : α) :
    view (Function.update buf (cell N w) x) r (w + 1) = view buf r w ++ [x] := by
  rw [view, count_succ (by omega), List.range_succ, List.map_append, view]
  congr 1
  · -- the cells of the older elements are not the cell written
    refine List.map_congr_left fun k hk => ?_
    rw [List.mem_range] at hk
    rw [Function.update_of_ne]
    intro heq
    rw [← add_count r w] at heq
    exact absurd (cell_add_injective hN (by omega) h heq) (by omega)
  · simp [add_count]

end View

section Unbounded

/-! ### Counters that do not wrap

A 64-bit counter that advances once per element wraps only after `2^64` elements, and since `N`
divides `2^64` its cell `k % N` is the same as the natural number's. Over runs shorter than that the
counters are natural numbers, `r ≤ w`, and the queue is `natView buf r w`. -/

/-- The cell of the natural counter `k`. -/
def natCell (N : Nat) [NeZero N] (k : Nat) : Fin N := ⟨k % N, Nat.mod_lt _ (Nat.pos_of_neZero N)⟩

/-- The elements from counter `r` up to counter `w`, oldest first. -/
def natView (buf : Fin N → α) (r w : Nat) : List α := (List.range (w - r)).map fun k => buf (natCell N (r + k))

variable {buf : Fin N → α} {r w : Nat}

@[simp] theorem natView_length (buf : Fin N → α) (r w : Nat) : (natView buf r w).length = w - r := by
  simp [natView]

@[simp] theorem natView_self (buf : Fin N → α) (r : Nat) : natView buf r r = [] := by
  simp [natView]

/-- A non-empty queue is the cell of `r` followed by the queue from `r + 1`. -/
theorem natView_cons (h : r < w) : natView buf r w = buf (natCell N r) :: natView buf (r + 1) w := by
  obtain ⟨c, hc⟩ : ∃ c, w - r = c + 1 := ⟨w - r - 1, by omega⟩
  have hc' : w - (r + 1) = c := by omega
  rw [natView, natView, hc, hc', List.range_succ_eq_map, List.map_cons, List.map_map]
  congr 1
  refine List.map_congr_left fun k _ => ?_
  simp only [Function.comp_apply]
  congr 2
  omega

/-- Putting `x` at the cell of `w` and advancing `w` appends `x` to a queue of fewer than `N`. -/
theorem natView_push (hrw : r ≤ w) (h : w - r < N) (x : α) :
    natView (Function.update buf (natCell N w) x) r (w + 1) = natView buf r w ++ [x] := by
  rw [natView, show w + 1 - r = w - r + 1 by omega, List.range_succ, List.map_append, natView]
  congr 1
  · -- the cells of the older elements are not the cell written
    refine List.map_congr_left fun k hk => ?_
    rw [List.mem_range] at hk
    rw [Function.update_of_ne]
    intro heq
    have hmod : (r + k) % N = w % N := congrArg Fin.val heq
    -- `r + k` and `w` are fewer than `N` apart
    have := Nat.sub_mod_eq_zero_of_mod_eq hmod.symm
    have hpos : 0 < w - (r + k) := by omega
    have := Nat.le_of_dvd hpos (Nat.dvd_of_mod_eq_zero this)
    omega
  · simp [show r + (w - r) = w by omega]

end Unbounded

end CounterRing
