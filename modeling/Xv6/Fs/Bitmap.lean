import Xv6.Fs.Layout

/-!
# The free bitmap: what `balloc` and `bfree` do to it

A bitmap bit is bit `bi % 8` of byte `bi / 8` of its block, tested and changed through the masks of
`balloc` and `bfree`. Read through `Nat.testBit`, setting the bit of block `b` marks `b` and nothing
else, and clearing it unmarks `b` and nothing else (`inUse_setBit`, `inUse_clearBit`). The file
system of `mkfs` has fewer blocks than a bitmap block has bits, so one bitmap block, a metadata block,
holds every bit.

On that layout `balloc`'s search finds a clear bit below `sb.size` whenever there is one, `balloc`
marks the block it returns and zeroes it, and `bfree` of a marked block unmarks it.
-/

namespace Xv6.Fs

open LittleEndian

section Bits

theorem toNat_mask (bi : Nat) : (mask bi).toNat = 2 ^ (bi % 8) := by
  have hk : bi % 8 < 8 := Nat.mod_lt _ (by decide)
  have hpow : 2 ^ (bi % 8) < 2 ^ 8 := Nat.pow_lt_pow_right (by decide) hk
  rw [mask, UInt8.toNat_shiftLeft]
  simp only [UInt8.toNat_one, Nat.toUInt8_eq, UInt8.toNat_ofNat']
  rw [Nat.mod_eq_of_lt (show bi % 8 < 2 ^ 8 by omega), Nat.mod_eq_of_lt hk, Nat.shiftLeft_eq, Nat.one_mul,
    Nat.mod_eq_of_lt hpow]

/-- The mask test reads one bit of the byte. -/
theorem and_mask_ne_zero (x : UInt8) (bi : Nat) : (x &&& mask bi != 0) = x.toNat.testBit (bi % 8) := by
  have h : (x &&& mask bi != 0) = decide ((x &&& mask bi).toNat ≠ 0) := by
    rw [Bool.eq_iff_iff, bne_iff_ne, decide_eq_true_iff, ne_eq, ne_eq, ← UInt8.toNat_inj, UInt8.toNat_zero]
  rw [h, UInt8.toNat_and, toNat_mask, Nat.and_two_pow]
  cases x.toNat.testBit (bi % 8) <;> simp

theorem testBit_or_mask (x : UInt8) (bi k : Nat) :
    (x ||| mask bi).toNat.testBit k = (x.toNat.testBit k || decide (bi % 8 = k)) := by
  rw [UInt8.toNat_or, toNat_mask, Nat.testBit_or, Nat.testBit_two_pow]

theorem testBit_and_not_mask (x : UInt8) (bi : Nat) {k : Nat} (hk : k < 8) :
    (x &&& ~~~mask bi).toNat.testBit k = (x.toNat.testBit k && !decide (bi % 8 = k)) := by
  have hpow : 2 ^ (bi % 8) < 2 ^ 8 := Nat.pow_lt_pow_right (by decide) (Nat.mod_lt _ (by decide))
  rw [UInt8.toNat_and, UInt8.toNat_not, toNat_mask, Nat.testBit_and,
    show UInt8.size - 1 - 2 ^ (bi % 8) = 2 ^ 8 - (2 ^ (bi % 8) + 1) by simp [UInt8.size],
    Nat.testBit_two_pow_sub_succ hpow, Nat.testBit_two_pow]
  simp [hk]

/-- The byte of bit `j` lies in the block. -/
theorem div_eight_lt_bsize {j : Nat} (hj : j < bpb) : j / 8 < bsize := by
  unfold bpb at hj
  omega

/-- Two bits of one bitmap block are one bit when their bytes and their places in the byte agree. -/
theorem eq_of_div_eight_of_mod_eight {i j : Nat} (hdiv : i / 8 = j / 8) (hmod : i % 8 = j % 8) : i = j := by
  omega

theorem bit_setBit (bp : Block) (i : Nat) {j : Nat} (hj : j < bpb) :
    bit (setBit bp i) j = (bit bp j || decide (i = j)) := by
  unfold bit
  rw [and_mask_ne_zero, and_mask_ne_zero]
  unfold LittleEndian.get setBit
  rw [dif_pos (div_eight_lt_bsize hj), dif_pos (div_eight_lt_bsize hj)]
  dsimp only
  by_cases hbyte : j / 8 = i / 8
  · rw [if_pos hbyte, testBit_or_mask]
    -- in one byte, the bits agree exactly when their places do
    have hiff : i % 8 = j % 8 ↔ i = j :=
      ⟨eq_of_div_eight_of_mod_eight hbyte.symm, fun h => h ▸ rfl⟩
    simp only [hiff]
  · have hne : i ≠ j := fun h => hbyte (h ▸ rfl)
    rw [if_neg hbyte, decide_eq_false hne, Bool.or_false]

theorem bit_clearBit (bp : Block) (i : Nat) {j : Nat} (hj : j < bpb) :
    bit (clearBit bp i) j = (bit bp j && !decide (i = j)) := by
  unfold bit
  rw [and_mask_ne_zero, and_mask_ne_zero]
  unfold LittleEndian.get clearBit
  rw [dif_pos (div_eight_lt_bsize hj), dif_pos (div_eight_lt_bsize hj)]
  dsimp only
  by_cases hbyte : j / 8 = i / 8
  · rw [if_pos hbyte, testBit_and_not_mask _ _ (Nat.mod_lt _ (by decide))]
    have hiff : i % 8 = j % 8 ↔ i = j :=
      ⟨eq_of_div_eight_of_mod_eight hbyte.symm, fun h => h ▸ rfl⟩
    simp only [hiff]
  · have hne : i ≠ j := fun h => hbyte (h ▸ rfl)
    rw [if_neg hbyte, decide_eq_false hne, Bool.not_false, Bool.and_true]

/-- Two blocks with the same bitmap block and the same bit in it are one block. -/
theorem eq_of_bblock_of_mod {b c : Nat} (hblock : bblock b = bblock c) (hmod : b % bpb = c % bpb) : b = c := by
  have hdiv : b / bpb = c / bpb := by
    unfold bblock at hblock
    omega
  rw [← Nat.div_add_mod b bpb, ← Nat.div_add_mod c bpb, hdiv, hmod]

/-- Setting the bit of `b` in its bitmap block marks `b` and leaves every other mark. -/
theorem inUse_setBit (d : Disk) (b c : Nat) :
    inUse (Function.update d (bblock b) (setBit (d (bblock b)) (b % bpb))) c = (inUse d c || decide (b = c)) := by
  have hbpb : 0 < bpb := by decide
  unfold inUse
  by_cases hblock : bblock c = bblock b
  · rw [hblock, Function.update_self, bit_setBit _ _ (Nat.mod_lt _ hbpb)]
    have hiff : b % bpb = c % bpb ↔ b = c :=
      ⟨eq_of_bblock_of_mod hblock.symm, fun h => h ▸ rfl⟩
    simp only [hiff]
  · have hne : b ≠ c := fun h => hblock (h ▸ rfl)
    rw [Function.update_of_ne hblock, decide_eq_false hne, Bool.or_false]

/-- Clearing the bit of `b` in its bitmap block unmarks `b` and leaves every other mark. -/
theorem inUse_clearBit (d : Disk) (b c : Nat) :
    inUse (Function.update d (bblock b) (clearBit (d (bblock b)) (b % bpb))) c = (inUse d c && !decide (b = c)) := by
  have hbpb : 0 < bpb := by decide
  unfold inUse
  by_cases hblock : bblock c = bblock b
  · rw [hblock, Function.update_self, bit_clearBit _ _ (Nat.mod_lt _ hbpb)]
    have hiff : b % bpb = c % bpb ↔ b = c :=
      ⟨eq_of_bblock_of_mod hblock.symm, fun h => h ▸ rfl⟩
    simp only [hiff]
  · have hne : b ≠ c := fun h => hblock (h ▸ rfl)
    rw [Function.update_of_ne hblock, decide_eq_false hne, Bool.not_false, Bool.and_true]

end Bits

section Area

/-- The data blocks `[sb.size - sb.nblocks, sb.size)`, the blocks `balloc` hands out. -/
def InData (b : Nat) : Prop := sb.size - sb.nblocks ≤ b ∧ b < sb.size

instance (b : Nat) : Decidable (InData b) := inferInstanceAs (Decidable (_ ∧ _))

/-- Every block of the file system has its bit in the one bitmap block. -/
theorem bblock_of_lt_size {b : Nat} (hb : b < sb.size) : bblock b = sb.bmapstart := by
  have hsize : sb.size ≤ bpb := by decide
  unfold bblock
  rw [Nat.div_eq_of_lt (by omega), Nat.zero_add]

theorem mod_bpb_of_lt_size {b : Nat} (hb : b < sb.size) : b % bpb = b := by
  have hsize : sb.size ≤ bpb := by decide
  exact Nat.mod_eq_of_lt (by omega)

/-- The bitmap block lies before the data blocks. -/
theorem bmapstart_lt_data : sb.bmapstart < sb.size - sb.nblocks := by decide

theorem data_pos : 0 < sb.size - sb.nblocks := by decide

theorem ne_zero_of_inData {b : Nat} (hb : InData b) : b ≠ 0 := by
  have := data_pos
  unfold InData at hb
  omega

/-- A data block is not the bitmap block of any block of the file system. -/
theorem ne_bblock_of_inData {a b : Nat} (ha : InData a) (hb : b < sb.size) : a ≠ bblock b := by
  have := bmapstart_lt_data
  rw [bblock_of_lt_size hb]
  unfold InData at ha
  omega

/-- A write to a data block leaves every mark of the file system's blocks. -/
theorem inUse_update_of_inData (d : Disk) {a : Nat} (ha : InData a) (blk : Block) {c : Nat} (hc : c < sb.size) :
    inUse (Function.update d a blk) c = inUse d c := by
  unfold inUse
  rw [Function.update_of_ne (Ne.symm (ne_bblock_of_inData ha hc))]

end Area

section Balloc

/-- The search runs over the one bitmap block and its first `sb.size` bits. -/
theorem ballocSearch_eq (d : Disk) :
    ballocSearch d = (List.range sb.size).find? fun bi => !bit (d (bblock 0)) bi := by
  have hblocks : (sb.size + bpb - 1) / bpb = 1 := by decide
  have hbits : min bpb (sb.size - 0 * bpb) = sb.size := by decide
  unfold ballocSearch
  rw [hblocks, List.range_one, List.findSome?_singleton, hbits, Nat.zero_mul]
  cases (List.range sb.size).find? fun bi => !bit (d (bblock 0)) bi <;> simp

/-- What the search finds is a block of the file system whose bit is clear. -/
theorem ballocSearch_some {d : Disk} {b : Nat} (h : ballocSearch d = some b) : b < sb.size ∧ inUse d b = false := by
  rw [ballocSearch_eq] at h
  have hclear := List.find?_some h
  have hb := List.mem_range.mp (List.mem_of_find?_eq_some h)
  refine ⟨hb, ?_⟩
  unfold inUse
  rw [bblock_of_lt_size hb, mod_bpb_of_lt_size hb, ← bblock_of_lt_size (show 0 < sb.size by decide)]
  simpa using hclear

/-- When the search finds nothing, every block of the file system is marked. -/
theorem ballocSearch_none {d : Disk} (h : ballocSearch d = none) {b : Nat} (hb : b < sb.size) : inUse d b = true := by
  rw [ballocSearch_eq, List.find?_eq_none] at h
  have hset := h b (List.mem_range.mpr hb)
  unfold inUse
  rw [bblock_of_lt_size hb, mod_bpb_of_lt_size hb, ← bblock_of_lt_size (show 0 < sb.size by decide)]
  simpa using hset

theorem balloc_fst_of_search {fs : FsState} {b : Nat} (h : ballocSearch fs.disk = some b) : (balloc fs).1 = b := by
  rw [balloc_of_search_some h]

/-- `balloc` sets the bit of the block it returns and zeroes the block. -/
theorem balloc_disk_of_search {fs : FsState} {b : Nat} (h : ballocSearch fs.disk = some b) :
    (balloc fs).2.disk = Function.update (Function.update fs.disk (bblock b) (setBit (fs.disk (bblock b)) (b % bpb)))
      b zeroBlock := by
  rw [balloc_of_search_some h]
  rfl

/-- The marks once a data block is marked and zeroed: the old ones and the block. -/
theorem inUse_alloc (d : Disk) {b c : Nat} (hb : InData b) (hc : c < sb.size) :
    inUse (Function.update (Function.update d (bblock b) (setBit (d (bblock b)) (b % bpb))) b zeroBlock) c =
      (inUse d c || decide (b = c)) := by
  rw [inUse_update_of_inData _ hb _ hc, inUse_setBit]

theorem bfree_of_inUse {fs : FsState} {b : Nat} (h : inUse fs.disk b = true) :
    bfree fs b = some ((fs.write (bblock b) (clearBit (fs.disk (bblock b)) (b % bpb))).logWrite (bblock b)) := by
  unfold bfree
  rw [if_pos (by rw [← inUse, h])]

/-- `bfree` of an unmarked block is the panic "freeing free block". -/
theorem bfree_eq_none {fs : FsState} {b : Nat} (h : inUse fs.disk b = false) : bfree fs b = none := by
  unfold bfree
  rw [if_neg (by rw [← inUse, h]; decide)]

end Balloc

end Xv6.Fs
