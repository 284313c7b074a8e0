import Xv6.Fs.Alloc

/-!
# The bytes `writei` leaves in a file

`writei` changes the disk in three ways. `bmap` may take a block from `balloc`, which sets a bit of the
bitmap block and zeroes the new block; it may store an entry into the indirect block; and each pass of
the loop copies into one block of the file. Under the allocation invariant none of the blocks `bmap`
touches is a block the file already has: the new block was unmarked, the bitmap block is metadata,
and the indirect block is kept at a place of its own. So `bmap` keeps every byte of the file
(`KeepsData`), a pass changes exactly the bytes it copies, and a `writei` that returns `tot` leaves
every byte below its offset as it was and the `tot` bytes from its offset equal to the source
(`AllocInv.writei_bytes`). What a copy-in that fails partway stores lies past `off + tot`
(`writei_failed_copy_changes_content`).
-/

namespace Xv6.Fs

open LittleEndian Vm Bytes

section Blocks

variable {fs : FsState} {ip : Inode}

/-- Two blocks of a file with one place are one block. -/
theorem placeOf_inj {bn bn' : Nat} {q : Place} (h : placeOf bn = some q) (h' : placeOf bn' = some q) : bn = bn' := by
  unfold placeOf at h h'
  split_ifs at h h' with hd hd' hi hd' hi' <;> simp only [Option.some.injEq] at h h' <;> subst h
  · simp only [Place.addr.injEq, Fin.mk.injEq] at h'
    omega
  · cases h'
  · cases h'
  · simp only [Place.entry.injEq, Fin.mk.injEq] at h'
    omega

/-- A block of an allocated file is the address the inode keeps at the block's place. -/
theorem blockAddr_kept (halloc : ip.type ≠ .free) {bn : Nat} (hbn : blockAddr fs ip bn ≠ 0) :
    ∃ q, placeOf bn = some q ∧ addrAt (fs.withInode ip) (ip.inum, q) = blockAddr fs ip bn := by
  rw [blockAddr_eq] at hbn ⊢
  cases hq : placeOf bn with
  | none => simp [hq] at hbn
  | some q => exact ⟨q, rfl, by simp [addrAt_withInode_self _ halloc]⟩

/-- A block of the file is a data block the bitmap marks. -/
theorem AllocInv.blockAddr_used (h : AllocInv (fs.withInode ip)) (halloc : ip.type ≠ .free) {bn : Nat}
    (hbn : blockAddr fs ip bn ≠ 0) : InData (blockAddr fs ip bn) ∧ inUse fs.disk (blockAddr fs ip bn) = true := by
  obtain ⟨q, -, hq⟩ := blockAddr_kept halloc hbn
  rw [← hq] at hbn ⊢
  exact ⟨h.accounted.area_of_ne _ hbn, h.accounted.used_of_ne _ hbn⟩

/-- No two blocks of the file share an address. -/
theorem AllocInv.blockAddr_inj (h : AllocInv (fs.withInode ip)) (halloc : ip.type ≠ .free) {bn bn' : Nat}
    (hbn : blockAddr fs ip bn ≠ 0) (heq : blockAddr fs ip bn' = blockAddr fs ip bn) : bn' = bn := by
  obtain ⟨q, hq, hkept⟩ := blockAddr_kept halloc hbn
  obtain ⟨q', hq', hkept'⟩ := blockAddr_kept halloc (show blockAddr fs ip bn' ≠ 0 by rw [heq]; exact hbn)
  have hsame := h.accounted.inj (ip.inum, q') (ip.inum, q) (by rw [hkept', heq]; exact hbn) (by rw [hkept', hkept, heq])
  obtain rfl : q' = q := (Prod.ext_iff.mp hsame).2
  exact placeOf_inj hq' hq

/-- The indirect block of the file is none of its blocks. -/
theorem AllocInv.blockAddr_ne_indirect (h : AllocInv (fs.withInode ip)) (halloc : ip.type ≠ .free) {bn : Nat}
    (hbn : blockAddr fs ip bn ≠ 0) : blockAddr fs ip bn ≠ ip.addrs indirectSlot := by
  obtain ⟨q, hq, hkept⟩ := blockAddr_kept halloc hbn
  intro heq
  have hslot : addrAt (fs.withInode ip) (ip.inum, .addr indirectSlot) = ip.addrs indirectSlot := by
    rw [addrAt_withInode_self _ halloc]
    rfl
  have hsame := h.accounted.inj (ip.inum, q) (ip.inum, .addr indirectSlot) (by rw [hkept]; exact hbn)
    (by rw [hkept, hslot, heq])
  exact placeOf_ne_indirect hq (Prod.ext_iff.mp hsame).2

/-- No file keeps a block that the bitmap leaves unmarked. -/
theorem AllocInv.blockAddr_ne_of_unused (h : AllocInv (fs.withInode ip)) (halloc : ip.type ≠ .free) {bn b : Nat}
    (hbn : blockAddr fs ip bn ≠ 0) (hb : inUse fs.disk b = false) : blockAddr fs ip bn ≠ b := by
  intro heq
  have hused := (h.blockAddr_used halloc hbn).2
  rw [heq, hb] at hused
  cases hused

@[simp] theorem byteAt_logWrite (fs : FsState) (ip : Inode) (b : Nat) : byteAt (fs.logWrite b) ip = byteAt fs ip := rfl

@[simp] theorem byteAt_withInode (fs : FsState) (ip x : Inode) : byteAt (fs.withInode x) ip = byteAt fs ip := rfl

/-- The bytes of a file depend on its addresses, not on its size. -/
@[simp] theorem byteAt_setSize (fs : FsState) (ip : Inode) (sz : Nat) : byteAt fs { ip with size := sz } = byteAt fs ip := rfl

end Blocks

section Keep

variable {fs fs₁ fs₂ : FsState} {ip ip₁ : Inode}

/-- From `fs` to `fs'` every block the file `ip` has keeps its bytes. -/
def KeepsData (fs : FsState) (ip : Inode) (fs' : FsState) : Prop :=
  ∀ bn, blockAddr fs ip bn ≠ 0 → fs'.disk (blockAddr fs ip bn) = fs.disk (blockAddr fs ip bn)

theorem KeepsData.refl (fs : FsState) (ip : Inode) : KeepsData fs ip fs := fun _ _ => rfl

/-- Keeping the data composes across a growth of the file. -/
theorem KeepsData.trans (h₁ : KeepsData fs ip fs₁) (g : Grows fs ip fs₁ ip₁) (h₂ : KeepsData fs₁ ip₁ fs₂) :
    KeepsData fs ip fs₂ := by
  intro bn hbn
  have hsame := g.blockAddr hbn
  rw [← h₁ bn hbn, ← hsame]
  exact h₂ bn (by rw [hsame]; exact hbn)

/-- A byte of the file over a block it had is unchanged by a growth that keeps the data. -/
theorem byteAt_of_keepsData (hk : KeepsData fs ip fs₁) (g : Grows fs ip fs₁ ip₁) {i : Nat}
    (hi : blockAddr fs ip (i / bsize) ≠ 0) : byteAt fs₁ ip₁ i = byteAt fs ip i := by
  unfold byteAt
  rw [g.blockAddr hi, hk _ hi]

/-- `balloc` writes the bitmap block and a block that was unmarked, neither a block of the file. -/
theorem AllocInv.keepsData_balloc (h : AllocInv (fs.withInode ip)) (halloc : ip.type ≠ .free) :
    KeepsData fs ip (balloc fs).2 := by
  intro bn hbn
  cases hs : ballocSearch fs.disk with
  | none => rw [balloc_of_search_none hs]
  | some b =>
    obtain ⟨hb, hfree⟩ := ballocSearch_some hs
    refine balloc_disk_of_ne ?_ ?_ <;> rw [balloc_fst_of_search hs]
    · exact h.blockAddr_ne_of_unused halloc hbn hfree
    · exact ne_bblock_of_inData (h.blockAddr_used halloc hbn).1 hb

theorem AllocInv.keepsData_allocSlot (h : AllocInv (fs.withInode ip)) (halloc : ip.type ≠ .free)
    (s : Fin (nDirect + 1)) : KeepsData fs ip (Fs.allocSlot ip s fs).2.2 := by
  by_cases hs : ip.addrs s = 0
  · have hdisk : (Fs.allocSlot ip s fs).2.2 = (balloc fs).2 := by simp only [Fs.allocSlot, if_pos hs]
    rw [hdisk]
    exact h.keepsData_balloc halloc
  · rw [allocSlot_of_ne_zero fs hs]
    exact KeepsData.refl fs ip

/-- `allocEntry` on the file's own indirect block writes that block, which holds none of its bytes. -/
theorem AllocInv.keepsData_allocEntry (h : AllocInv (fs.withInode ip)) (halloc : ip.type ≠ .free) (j : Nat) :
    KeepsData fs ip (Fs.allocEntry (ip.addrs indirectSlot) j fs).2 := by
  intro bn hbn
  by_cases he : (load (fs.disk (ip.addrs indirectSlot)) (4 * j)).toNat = 0
  · -- past `balloc`, the only write is to the indirect block
    have hne := h.blockAddr_ne_indirect halloc hbn
    have hdisk : (Fs.allocEntry (ip.addrs indirectSlot) j fs).2.disk (blockAddr fs ip bn) =
        (balloc fs).2.disk (blockAddr fs ip bn) := by
      by_cases h0 : (balloc fs).1 = 0
      · simp only [Fs.allocEntry, if_pos he, if_pos h0]
      · simp only [Fs.allocEntry, if_pos he, if_neg h0, FsState.logWrite_disk, FsState.write_disk,
          Function.update_of_ne hne]
    rw [hdisk]
    exact h.keepsData_balloc halloc bn hbn
  · rw [allocEntry_of_ne_zero he]

/-- `bmap` keeps every byte the file has. -/
theorem AllocInv.keepsData_bmap (h : AllocInv (fs.withInode ip)) (halloc : ip.type ≠ .free) {bn a : Nat} {ip' : Inode}
    {fs' : FsState} (hmap : Fs.bmap ip bn fs = some (a, ip', fs')) : KeepsData fs ip fs' := by
  unfold Fs.bmap at hmap
  by_cases hd : bn < nDirect
  · rw [dif_pos hd, Option.some.injEq] at hmap
    have hk := h.keepsData_allocSlot halloc ⟨bn, Nat.lt_succ_of_lt hd⟩
    rwa [hmap] at hk
  · rw [dif_neg hd] at hmap
    by_cases hi : bn - nDirect < nIndirect
    · rw [if_pos hi] at hmap
      obtain ⟨hinv, hgrow, hslot⟩ := h.allocSlot halloc indirectSlot
      have hk := h.keepsData_allocSlot halloc indirectSlot
      generalize hr : Fs.allocSlot ip indirectSlot fs = r at hinv hgrow hslot hk hmap
      obtain ⟨ind, ip1, fs1⟩ := r
      dsimp only at hinv hgrow hslot hk hmap
      by_cases h0 : ind = 0
      · rw [if_pos h0, Option.some.injEq, Prod.mk.injEq, Prod.mk.injEq] at hmap
        obtain ⟨rfl, rfl, rfl⟩ := hmap
        exact hk
      · -- the entry goes into the indirect block the slot now names
        rw [if_neg h0, Option.some.injEq, Prod.mk.injEq, Prod.mk.injEq] at hmap
        obtain ⟨rfl, rfl, rfl⟩ := hmap
        have hk' := hinv.keepsData_allocEntry (by rw [hgrow.type]; exact halloc) (bn - nDirect)
        rw [hslot h0] at hk'
        exact hk.trans hgrow hk'
    · rw [if_neg hi] at hmap
      cases hmap

end Keep

section Pass

variable {fs : FsState} {ip : Inode}

/-- One pass of `writei`'s loop copies `k` bytes of `g` into the block under `off`: those bytes of the
file become `g`'s, and every other byte of the file is as it was. -/
theorem AllocInv.byteAt_writeData (h : AllocInv (fs.withInode ip)) (halloc : ip.type ≠ .free) {off k : Nat}
    (hblk : blockAddr fs ip (off / bsize) ≠ 0) (hk : k ≤ bsize - off % bsize) (g : Nat → UInt8) {i : Nat}
    (hi : blockAddr fs ip (i / bsize) ≠ 0) :
    byteAt (fs.write (blockAddr fs ip (off / bsize))
        (toBlock (copy (get (fs.disk (blockAddr fs ip (off / bsize)))) (off % bsize) g k))) ip i =
      if off ≤ i ∧ i < off + k then g (i - off) else byteAt fs ip i := by
  have hbsize : 0 < bsize := by decide
  obtain ⟨-, grow⟩ := h.writeData halloc hblk
    (toBlock (copy (get (fs.disk (blockAddr fs ip (off / bsize)))) (off % bsize) g k))
  unfold byteAt
  rw [grow.blockAddr hi, FsState.write_disk]
  by_cases hsame : i / bsize = off / bsize
  · rw [hsame, Function.update_self, get_toBlock _ (Nat.mod_lt _ hbsize)]
    -- inside one block, the file's range from `off` is the block's range from `off % BSIZE`
    by_cases hin : off ≤ i ∧ i < off + k
    · rw [if_pos hin, copy_of_mem (by unfold bsize at *; omega) (by unfold bsize at *; omega)]
      congr 1
      unfold bsize at *
      omega
    · rw [if_neg hin, copy_of_not_mem (by unfold bsize at *; omega), ← hsame]
  · have hne : blockAddr fs ip (i / bsize) ≠ blockAddr fs ip (off / bsize) :=
      fun heq => hsame (h.blockAddr_inj halloc hblk heq)
    rw [Function.update_of_ne hne, if_neg (by unfold bsize at *; omega)]

/-- What one pass of `writei`'s loop can do: stop because the count is reached or the disk is full,
stop after a copy-in of `k < m` bytes that failed, or copy all `m` bytes and go on. -/
theorem writeLoop_succ_cases {user_src : Bool} {n : Nat} {mem : Memory} {fuel tot off src : Nat}
    {res : Nat × Nat × Inode × FsState}
    (hrun : Fs.writeLoop user_src n mem (fuel + 1) tot off src ip fs = some res) :
    (n ≤ tot ∧ res = (tot, off, ip, fs)) ∨
      ∃ addr ip₁ fs₁, tot < n ∧ Fs.bmap ip (off / bsize) fs = some (addr, ip₁, fs₁) ∧
        ((addr = 0 ∧ res = (tot, off, ip₁, fs₁)) ∨
          (addr ≠ 0 ∧ ∃ k < min (n - tot) (bsize - off % bsize), res = (tot, off, ip₁, fs₁.write addr
            (toBlock (copy (get (fs₁.disk addr)) (off % bsize) (fun j => mem.get user_src (src + j)) k)))) ∨
          (addr ≠ 0 ∧ Fs.writeLoop user_src n mem fuel (tot + min (n - tot) (bsize - off % bsize))
            (off + min (n - tot) (bsize - off % bsize)) (src + min (n - tot) (bsize - off % bsize)) ip₁
            ((fs₁.write addr (toBlock (copy (get (fs₁.disk addr)) (off % bsize) (fun j => mem.get user_src (src + j))
              (min (n - tot) (bsize - off % bsize))))).logWrite addr) = some res)) := by
  by_cases htot : tot < n
  · cases hmap : Fs.bmap ip (off / bsize) fs with
    | none => simp [Fs.writeLoop, htot, hmap] at hrun
    | some r =>
      obtain ⟨addr, ip₁, fs₁⟩ := r
      refine .inr ⟨addr, ip₁, fs₁, htot, rfl, ?_⟩
      by_cases h0 : addr = 0
      · simp only [Fs.writeLoop, if_pos htot, hmap, if_pos h0, Option.some.injEq] at hrun
        exact .inl ⟨h0, hrun.symm⟩
      · obtain ⟨k, hk, hcopy⟩ := eitherCopyin_spec (get (fs₁.disk addr)) (off % bsize) user_src src
          (min (n - tot) (bsize - off % bsize)) mem
        simp only [Fs.writeLoop, if_pos htot, hmap, if_neg h0, hcopy] at hrun
        by_cases hall : k = min (n - tot) (bsize - off % bsize)
        · rw [if_pos hall, if_neg (by decide)] at hrun
          rw [hall] at hrun
          exact .inr (.inr ⟨h0, hrun⟩)
        · rw [if_neg hall, if_pos rfl, Option.some.injEq] at hrun
          exact .inr (.inl ⟨h0, k, lt_of_le_of_ne hk hall, hrun.symm⟩)
  · simp only [Fs.writeLoop, if_neg htot, Option.some.injEq] at hrun
    exact .inl ⟨by omega, hrun.symm⟩

end Pass

section Writei

/-- `writei`'s loop from `off` on an allocated in-memory inode: every byte below `off` over a block of
the file keeps its value, and the bytes it counts as written are the source's. -/
theorem AllocInv.writeLoop_bytes {user_src : Bool} {n : Nat} {mem : Memory} :
    ∀ {fuel tot off src : Nat} {ip : Inode} {fs : FsState} {tot' off' : Nat} {ip' : Inode} {fs' : FsState},
      AllocInv (fs.withInode ip) → ip.type ≠ .free →
      Fs.writeLoop user_src n mem fuel tot off src ip fs = some (tot', off', ip', fs') →
      off' = off + (tot' - tot) ∧ tot ≤ tot' ∧
        (∀ i < off, blockAddr fs ip (i / bsize) ≠ 0 → byteAt fs' ip' i = byteAt fs ip i) ∧
        ∀ k < tot' - tot, byteAt fs' ip' (off + k) = mem.get user_src (src + k) := by
  intro fuel
  induction fuel with
  | zero =>
    intro tot off src ip fs tot' off' ip' fs' _ _ hrun
    simp only [Fs.writeLoop, Option.some.injEq, Prod.mk.injEq] at hrun
    obtain ⟨rfl, rfl, rfl, rfl⟩ := hrun
    exact ⟨by omega, le_rfl, fun _ _ _ => rfl, fun k hk => absurd hk (by omega)⟩
  | succ fuel ih =>
    intro tot off src ip fs tot' off' ip' fs' h halloc hrun
    rcases writeLoop_succ_cases hrun with ⟨-, hres⟩ | ⟨addr, ip₁, fs₁, htot, hmap, hpass⟩
    · simp only [Prod.mk.injEq] at hres
      obtain ⟨rfl, rfl, rfl, rfl⟩ := hres
      exact ⟨by omega, le_rfl, fun _ _ _ => rfl, fun k hk => absurd hk (by omega)⟩
    obtain ⟨h₁, g₁, hblk⟩ := h.bmap halloc hmap
    have halloc₁ : ip₁.type ≠ .free := by rw [g₁.type]; exact halloc
    -- `bmap` keeps the bytes below `off`; the pass then writes only from `off` on
    have hbelow : ∀ i < off, blockAddr fs ip (i / bsize) ≠ 0 → byteAt fs₁ ip₁ i = byteAt fs ip i :=
      fun i _ hi => byteAt_of_keepsData (h.keepsData_bmap halloc hmap) g₁ hi
    have hpassBytes : ∀ {k : Nat}, addr ≠ 0 → k ≤ bsize - off % bsize → ∀ i, blockAddr fs₁ ip₁ (i / bsize) ≠ 0 →
        byteAt (fs₁.write addr (toBlock (copy (get (fs₁.disk addr)) (off % bsize) (fun j => mem.get user_src (src + j)) k)))
          ip₁ i = if off ≤ i ∧ i < off + k then mem.get user_src (src + (i - off)) else byteAt fs₁ ip₁ i := by
      intro k h0 hk i hi
      have hb := hblk h0
      rw [← hb]
      exact h₁.byteAt_writeData halloc₁ (by rw [hb]; exact h0) hk _ hi
    rcases hpass with ⟨-, hres⟩ | ⟨h0, k, hk, hres⟩ | ⟨h0, hrest⟩
    · simp only [Prod.mk.injEq] at hres
      obtain ⟨rfl, rfl, rfl, rfl⟩ := hres
      exact ⟨by omega, le_rfl, hbelow, fun k hk => absurd hk (by omega)⟩
    · -- the copy-in failed: only bytes from `off` on changed
      simp only [Prod.mk.injEq] at hres
      obtain ⟨rfl, rfl, rfl, rfl⟩ := hres
      refine ⟨by omega, le_rfl, fun i hi hblock => ?_, fun k hk => absurd hk (by omega)⟩
      rw [hpassBytes h0 (by omega) i (by rw [g₁.blockAddr hblock]; exact hblock), if_neg (by omega)]
      exact hbelow i hi hblock
    · -- the pass wrote its `m` bytes; the rest of the loop continues from `off + m`
      generalize hm : min (n - tot) (bsize - off % bsize) = m at hrest
      have hm0 : 0 < m := by
        have : off % bsize < bsize := Nat.mod_lt _ (by decide)
        omega
      set blk := toBlock (copy (get (fs₁.disk addr)) (off % bsize) (fun j => mem.get user_src (src + j)) m)
      have hb := hblk h0
      obtain ⟨h₂, g₂⟩ := h₁.writeData halloc₁ (show blockAddr fs₁ ip₁ (off / bsize) ≠ 0 by rw [hb]; exact h0) blk
      rw [hb] at h₂ g₂
      have h₂' : AllocInv (((fs₁.write addr blk).logWrite addr).withInode ip₁) := h₂.logWrite addr
      obtain ⟨hoff, htot', hframe, hdata⟩ := ih h₂' halloc₁ hrest
      -- a block of the file before the pass is still one after it
      have hkept : ∀ i, blockAddr fs₁ ip₁ (i / bsize) ≠ 0 →
          blockAddr ((fs₁.write addr blk).logWrite addr) ip₁ (i / bsize) ≠ 0 := by
        intro i hi
        rw [show blockAddr ((fs₁.write addr blk).logWrite addr) ip₁ = blockAddr (fs₁.write addr blk) ip₁ from rfl,
          g₂.blockAddr hi]
        exact hi
      refine ⟨by omega, by omega, fun i hi hblock => ?_, fun k hk => ?_⟩
      · have hblock₁ : blockAddr fs₁ ip₁ (i / bsize) ≠ 0 := by rw [g₁.blockAddr hblock]; exact hblock
        rw [hframe i (by omega) (hkept i hblock₁), byteAt_logWrite, hpassBytes h0 (by omega) i hblock₁,
          if_neg (by omega)]
        exact hbelow i hi hblock
      · by_cases hkm : k < m
        · -- a byte of this pass, in the block the pass wrote
          have hdiv : (off + k) / bsize = off / bsize := by
            have : m ≤ bsize - off % bsize := by omega
            unfold bsize at this ⊢
            omega
          have hblock₁ : blockAddr fs₁ ip₁ ((off + k) / bsize) ≠ 0 := by rw [hdiv, hb]; exact h0
          rw [hframe (off + k) (by omega) (hkept _ hblock₁), byteAt_logWrite, hpassBytes h0 (by omega) _ hblock₁,
            if_pos (by omega), Nat.add_sub_cancel_left]
        · have := hdata (k - m) (by omega)
          rwa [show off + m + (k - m) = off + k by omega, show src + m + (k - m) = src + k by omega] at this

variable {fs fs' : FsState} {ip ip' : Inode}

/-- `writei` on an allocated in-memory inode that is the copy of its on-disk inode either refuses the
request and changes nothing, or returns a count `tot`: the file then reaches past `off + tot`, every
byte it had below `off` keeps its value, and the `tot` bytes from `off` are the source's. -/
theorem AllocInv.writei_bytes (h : AllocInv fs) (hcopy : fs.dinode ip.inum = ip.toDinode) (halloc : ip.type ≠ .free)
    {user_src : Bool} {src : Nat} {off n : UInt32} {mem : Memory} {r : Int}
    (hw : Fs.writei ip user_src src off n fs mem = some (r, ip', fs')) :
    (r = -1 ∧ ip' = ip ∧ fs' = fs) ∨
      ∃ tot : Nat, r = tot ∧ off.toNat + tot ≤ ip'.size ∧ ip.size ≤ ip'.size ∧
        (∀ i < off.toNat, i < ip.size → byteAt fs' ip' i = byteAt fs ip i) ∧
        ∀ k < tot, byteAt fs' ip' (off.toNat + k) = mem.get user_src (src + k) := by
  unfold Fs.writei at hw
  by_cases hbad : off.toNat > ip.size ∨ off + n < off
  · rw [if_pos hbad, Option.some.injEq, Prod.mk.injEq, Prod.mk.injEq] at hw
    exact .inl ⟨hw.1.symm, hw.2.1.symm, hw.2.2.symm⟩
  rw [if_neg hbad] at hw
  by_cases hbig : off.toNat + n.toNat > maxFile * bsize
  · rw [if_pos hbig, Option.some.injEq, Prod.mk.injEq, Prod.mk.injEq] at hw
    exact .inl ⟨hw.1.symm, hw.2.1.symm, hw.2.2.symm⟩
  rw [if_neg hbig] at hw
  cases hloop : Fs.writeLoop user_src n.toNat mem n.toNat 0 off.toNat src ip fs with
  | none => simp [hloop] at hw
  | some res =>
    obtain ⟨tot, off', ip₁, fs₁⟩ := res
    simp only [hloop, Option.some.injEq, Prod.mk.injEq] at hw
    obtain ⟨rfl, rfl, rfl⟩ := hw
    have hview := h.withInode (congrArg Dinode.shape hcopy)
    obtain ⟨hoff, -, hframe, hdata⟩ := hview.writeLoop_bytes halloc hloop
    obtain ⟨-, g, -, -⟩ := hview.writeLoop halloc hloop
    -- below the old size every byte has a block, since the file has no holes
    have hholes : NoHoles fs ip := by
      have := h.noHoles ip.inum (by rw [hcopy]; exact halloc)
      rwa [diskInode_of_copy hcopy] at this
    -- the new inode is the loop's with its size raised to `off'`, over the same bytes
    have hbytes : byteAt (iupdate (if off' > ip₁.size then { ip₁ with size := off' } else ip₁) fs₁)
        (if off' > ip₁.size then { ip₁ with size := off' } else ip₁) = byteAt fs₁ ip₁ := by
      split <;> rfl
    have hsize : off' ≤ (if off' > ip₁.size then { ip₁ with size := off' } else ip₁).size ∧
        ip₁.size ≤ (if off' > ip₁.size then { ip₁ with size := off' } else ip₁).size := by
      split <;> simp <;> omega
    have hsize₁ : ip₁.size = ip.size := g.size
    refine .inr ⟨tot, rfl, by omega, by omega, fun i hi hsz => ?_, fun k hk => ?_⟩
    · rw [hbytes]
      exact hframe i hi (hholes i hsz)
    · rw [hbytes]
      simpa using hdata k (by omega)

end Writei

end Xv6.Fs
