import Xv6.Fs.SharedFile

/-!
# The count that `read` returns

`sys_read` hands its `int` count unchanged to `fileread`, which for an `FD_INODE` file hands it to
`readi` as a `uint`: a negative count `n` becomes `2^32 + n`. `readi`'s overflow test `off + n < off`
lets that through while the offset is below `-n`, and its clamp `n = ip->size - off` then reads the
rest of the file. So `read(fd, buf, -1)` at offset `0` returns the whole file, and copies it out
(`fileread_negative_count`): from the `mkfs` image, `init` opens `.` and reads `1024` bytes, the root
directory's block, with count `-1` (`read_negative_count`).
-/

namespace Xv6.Fs

open Transition Shared

section Negative

variable {f : Fin nfile} {s t : Sys} {addr : Nat} {n : Int} {u : Vm.UserMem} {dev r : Int}

/-- The `uint` that a negative `int` count becomes. -/
theorem toNat_ofInt_of_neg (hneg : n < 0) (hint : -2 ^ 31 ≤ n) : ((UInt32.ofInt n).toNat : Int) = 2 ^ 32 + n := by
  have hmod : n % 2 ^ 32 = 2 ^ 32 + n := by omega
  rw [UInt32.ofInt, UInt32.toNat_ofNat', hmod]
  omega

/-- `fileread` of an `FD_INODE` file with a negative count `n` from an offset below `-n` inside the
file returns, unless it fails, everything from the offset to the end of the file. -/
theorem fileread_negative_count (hinv : FileInv f s) (hneg : n < 0) (hint : -2 ^ 31 ≤ n)
    (hoff : ((s.ftable f).off : Int) < -n) (hin : (s.ftable f).off ≤ (fileInode f s).size)
    (hread : fileread s f addr n u dev = some (r, t)) (hr : r ≠ -1) :
    r = ((fileInode f s).size - (s.ftable f).off : Nat) := by
  rcases fileread_inode_cases hinv.inode hread with ⟨-, rfl, -⟩ | ⟨-, s₁, x, fs, mem, hlock, hreadi, -⟩
  · exact absurd rfl hr
  obtain ⟨htable, hframe, hloaded, hinum, hfs⟩ := hinv.table.ilock hlock
  obtain ⟨hdisk, hholes⟩ := htable.loaded_inode hloaded
  obtain ⟨r', mem', hreadi', -, hcount⟩ := readi_spec (size_le_of_noHoles hholes) hholes true addr
    (UInt32.ofNat (s.ftable f).off) (UInt32.ofInt n) ⟨u, fun _ => 0⟩
  rw [hreadi', Option.some.injEq, Prod.mk.injEq] at hreadi
  obtain ⟨rfl, -⟩ := hreadi
  -- the slot holds the file's inode, and the file fits far below `2^31` bytes
  have hcur : s₁.inode (s.ftable f).ip = fileInode f s := by
    rw [hdisk]
    simp only [fileInode, hinum, hfs]
  have hsize : (fileInode f s).size ≤ maxFile * bsize := by
    rw [← hcur]
    exact size_le_of_noHoles hholes
  have hoff' : (UInt32.ofNat (s.ftable f).off).toNat = (s.ftable f).off := UInt32.toNat_ofNat_of_lt' hinv.off_lt
  have hn := toNat_ofInt_of_neg hneg hint
  rw [hoff', hcur] at hcount
  have hmax : maxFile * bsize < 2 ^ 31 := by decide
  rw [(hcount hin (by omega) hr).1]
  congr 1
  omega

end Negative

/-- A user address space with every page mapped readable and writable. -/
def rwMem : Vm.UserMem := ⟨fun _ => true, fun _ => true, fun _ => 0⟩

/-- From the `mkfs` image, `init` opens `.` read-only as descriptor `0` and calls `read(0, 4096, -1)`:
the call returns `1024`, the size of the root directory. -/
theorem read_negative_count :
    ∃ es s, runCalls exec boot [.sysOpen 0 [46] oRdonly, .sysRead 0 0 4096 (-1) rwMem 0] = some (es, s) ∧
      Run Step boot es s ∧ es.map Prod.snd = [0, 1024] := by
  have hres : (runCalls exec boot [.sysOpen 0 [46] oRdonly, .sysRead 0 0 4096 (-1) rwMem 0]).map
      (fun x => x.1.map Prod.snd) = some [0, 1024] := by
    decide +kernel
  obtain ⟨⟨es, s⟩, hrun, heq⟩ := Option.map_eq_some_iff.mp hres
  exact ⟨es, s, hrun, runCalls_run hrun, heq⟩

end Xv6.Fs
