import Mathlib
import Xv6.Library.CopyLoop

/-!
# `memmove` of the kernel and of the user library

Both versions copy forward or backward depending on where the regions lie, with different tests: the
kernel's `string.c` copies backward only when the source starts below the destination and reaches
into it, the user's `ulib.c` copies forward exactly when the source lies above the destination. Memory
is flat and byte-addressed. Each test keeps its loop from overwriting a byte it still has to read, so
both versions are `Bytes.copy` of the bytes the source held before the call (`memmove_eq_copy`,
`umemmove_eq_copy`), for every placement of the two regions.
-/

namespace Xv6.Mem

open Bytes

/-- `memmove(dst, src, n)` of `string.c`. -/
def memmove (mem : Nat → UInt8) (dst src : Nat) (n : UInt32) : Nat → UInt8 :=
  if n.toNat = 0 then mem
  else if src < dst ∧ src + n.toNat > dst then backwardCopy mem (dst + n.toNat) (src + n.toNat) n.toNat
  else forwardCopy mem dst src n.toNat

/-- `memcpy`, which calls `memmove`. -/
def memcpy (mem : Nat → UInt8) (dst src : Nat) (n : UInt32) : Nat → UInt8 := memmove mem dst src n

/-- `memmove(vdst, vsrc, n)` of `ulib.c`, with the `int` count `n`. A count below one runs no loop
pass, so the pointers moved by `dst += n; src += n` are never used then. -/
def umemmove (mem : Nat → UInt8) (dst src : Nat) (n : Int32) : Nat → UInt8 :=
  if src > dst then forwardCopy mem dst src n.toInt.toNat
  else backwardCopy mem (dst + n.toInt.toNat) (src + n.toInt.toNat) n.toInt.toNat

variable (mem : Nat → UInt8) (dst src : Nat)

/-- The kernel's `memmove` copies the bytes the source held, whatever the overlap. -/
theorem memmove_eq_copy (n : UInt32) : memmove mem dst src n = copy mem dst (fun k => mem (src + k)) n.toNat := by
  unfold memmove
  split_ifs with hzero hback
  · rw [hzero, copy_zero]
  · -- the source starts below the destination: the stores stay above the reads still to come
    rw [backwardCopy_eq_copy _ _ _ _ (by omega) (by omega) (fun j k hjk _ => by omega), Nat.add_sub_cancel,
      Nat.add_sub_cancel]
  · -- the destination starts at or below the source, or past its end
    exact forwardCopy_eq_copy _ _ _ _ fun j k hjk hk => by omega

/-- The user's `memmove` copies the bytes the source held, whatever the overlap; a count below one
copies nothing. -/
theorem umemmove_eq_copy (n : Int32) :
    umemmove mem dst src n = copy mem dst (fun k => mem (src + k)) n.toInt.toNat := by
  unfold umemmove
  split_ifs with hfwd
  · exact forwardCopy_eq_copy _ _ _ _ fun j k hjk _ => by omega
  · rw [backwardCopy_eq_copy _ _ _ _ (by omega) (by omega) (fun j k hjk _ => by omega), Nat.add_sub_cancel,
      Nat.add_sub_cancel]

/-- Both `memmove`s leave in the destination the bytes the source held and change nothing else, for
every placement of the two regions, and they agree on every count both can take. -/
theorem memmove_correct :
    (∀ n : UInt32, memmove mem dst src n = copy mem dst (fun k => mem (src + k)) n.toNat) ∧
      (∀ n : Int32, umemmove mem dst src n = copy mem dst (fun k => mem (src + k)) n.toInt.toNat) ∧
      ∀ n : Nat, n < 2 ^ 31 → memmove mem dst src (UInt32.ofNat n) = umemmove mem dst src (Int32.ofNat n) := by
  refine ⟨memmove_eq_copy mem dst src, umemmove_eq_copy mem dst src, fun n hn => ?_⟩
  have hk : (UInt32.ofNat n).toNat = n := UInt32.toNat_ofNat_of_lt' (by unfold UInt32.size; omega)
  have hu : (Int32.ofNat n).toInt.toNat = n := by rw [Int32.toInt_ofNat_of_lt hn, Int.toNat_natCast]
  rw [memmove_eq_copy, umemmove_eq_copy, hk, hu]

/-- Three bytes moved up by one, over themselves. -/
theorem memmove_correct_overlap :
    3 < 2 ^ 31 ∧ memmove (fun i => UInt8.ofNat i) 1 0 (UInt32.ofNat 3) = umemmove (fun i => UInt8.ofNat i) 1 0 (Int32.ofNat 3) :=
  ⟨by norm_num, (memmove_correct (fun i => UInt8.ofNat i) 1 0).2.2 3 (by norm_num)⟩

end Xv6.Mem
