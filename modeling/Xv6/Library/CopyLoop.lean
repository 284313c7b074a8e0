import Xv6.Library.Bytes

/-!
# Copy loops on one memory

The two loops a `memmove` is made of, on a memory indexed by natural numbers: `forwardCopy` stores
the values one at a time from the low ends up, `backwardCopy` from the high ends down. Source and
destination lie in the same memory, so a store can overwrite a value the loop reads later. Each
loop is the copy of the values the source held before it started (`forwardCopy_eq_copy`,
`backwardCopy_eq_copy`) as long as no store hits a place the loop reads later.
-/

namespace Bytes

variable {α : Type*}

/-- `while(n-- > 0) *d++ = *s++;` -/
def forwardCopy (mem : Nat → α) (d s : Nat) : Nat → Nat → α
  | 0 => mem
  | n + 1 => forwardCopy (Function.update mem d (mem s)) (d + 1) (s + 1) n

/-- `while(n-- > 0) *--d = *--s;`, with `d` and `s` one past the ends of the ranges. -/
def backwardCopy (mem : Nat → α) (d s : Nat) : Nat → Nat → α
  | 0 => mem
  | n + 1 => backwardCopy (Function.update mem (d - 1) (mem (s - 1))) (d - 1) (s - 1) n

variable {dst : Nat → α} {d : Nat} {src : Nat → α} {n : Nat}

/-- A copy into the place just past a copied range, done first, is one longer copy. -/
theorem copy_update_end (x : α) :
    copy (Function.update dst (d + n) x) d src n = copy dst d (fun k => if k < n then src k else x) (n + 1) := by
  funext i
  by_cases hlo : i < d
  · rw [copy_of_lt hlo, copy_of_lt hlo, Function.update_of_ne (by omega)]
  by_cases hhi : i < d + n
  · rw [copy_of_mem (by omega) hhi, copy_of_mem (by omega) (by omega), if_pos (by omega)]
  by_cases hend : i = d + n
  · subst hend
    rw [copy_of_le (Nat.le_refl _), copy_of_mem (by omega) (by omega), Function.update_self, if_neg (by omega)]
  · rw [copy_of_le (by omega), copy_of_le (by omega), Function.update_of_ne hend]

/-- The forward loop copies what the source held before it started, when no store at `d + j` hits
a later read at `s + k`. By induction on the count, one store at a time. -/
theorem forwardCopy_eq_copy : ∀ n (mem : Nat → α) (d s : Nat), (∀ j k, j < k → k < n → d + j ≠ s + k) →
    forwardCopy mem d s n = copy mem d (fun k => mem (s + k)) n
  | 0, mem, _, _, _ => by rw [forwardCopy, copy_zero]
  | n + 1, mem, d, s, h => by
    have hrest := forwardCopy_eq_copy n (Function.update mem d (mem s)) (d + 1) (s + 1)
      (fun j k hjk hk => by have := h (j + 1) (k + 1) (by omega) (by omega); omega)
    -- the first store does not hit the values the rest of the loop reads
    have hread : ∀ k < n, Function.update mem d (mem s) (s + 1 + k) = mem (s + (1 + k)) := by
      intro k hk
      rw [Function.update_of_ne (by have := h 0 (k + 1) (by omega) (by omega); omega), Nat.add_assoc]
    have hfirst : Function.update mem d (mem s) = copy mem d (fun k => mem (s + k)) 1 := by
      rw [copy_one, Nat.add_zero]
    rw [forwardCopy, hrest, copy_congr hread, hfirst, copy_copy, Nat.add_comm 1 n]

/-- The backward loop from the ends `d` and `s` copies what the source held before it started, when
no store at place `k` of the destination hits a later read at place `j < k` of the source. -/
theorem backwardCopy_eq_copy : ∀ n (mem : Nat → α) (d s : Nat), n ≤ d → n ≤ s →
    (∀ j k, j < k → k < n → d - n + k ≠ s - n + j) →
      backwardCopy mem d s n = copy mem (d - n) (fun k => mem (s - n + k)) n
  | 0, mem, _, _, _, _, _ => by rw [backwardCopy, copy_zero]
  | n + 1, mem, d, s, hd, hs, h => by
    have hrest := backwardCopy_eq_copy n (Function.update mem (d - 1) (mem (s - 1))) (d - 1) (s - 1)
      (by omega) (by omega) (fun j k hjk hk => by have := h j k hjk (by omega); omega)
    -- the first store, at the top, does not hit the values below it that the rest reads
    have hread : ∀ k < n, Function.update mem (d - 1) (mem (s - 1)) (s - 1 - n + k) =
        (fun k => mem (s - (n + 1) + k)) k := by
      intro k hk
      rw [Function.update_of_ne (by have := h k n hk (by omega); omega)]
      congr 1
      omega
    have htop : d - 1 = d - (n + 1) + n := by omega
    rw [backwardCopy, hrest, copy_congr hread, show d - 1 - n = d - (n + 1) by omega, htop,
      copy_update_end]
    apply copy_congr
    intro k hk
    split_ifs with hkn
    · rfl
    · congr 1
      omega

end Bytes
