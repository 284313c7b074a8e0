import Xv6.Fs.Layout
import Xv6.Vm.Copy

/-!
# Inode content: `bmap`, `readi` and `writei`

The in-memory inode carries a copy of its `struct dinode`; `bmap` maps a block index of the file to
a disk block through the `NDIRECT` direct addresses and the indirect block, allocating what is
missing, and `readi` and `writei` move bytes between the blocks and memory in chunks that end at
block boundaries. `iupdate` writes the inode back to its block.

Over the model stands the view the inode layer is meant to implement: the content of an inode is the
sequence of its first `size` bytes, each read from the block `bmap` finds for it (`blockAddr`, the
lookup without allocation). `readi` returns a slice of that sequence whenever the file has no holes,
and neither `readi` nor `writei` reaches the panic of `bmap`.
-/

namespace Xv6.Fs

open LittleEndian Vm Bytes

/-- The in-memory `struct inode` below its lock: the inode number and the copy of the `struct dinode`. -/
structure Inode extends Dinode where
  inum : Nat

/-- `ip->addrs[i] = addr`. -/
def Inode.setAddr (ip : Inode) (i : Fin (nDirect + 1)) (addr : Nat) : Inode :=
  { ip with addrs := Function.update ip.addrs i addr }

/-- `ip->addrs[NDIRECT]`, the slot of the indirect block. -/
def indirectSlot : Fin (nDirect + 1) := Fin.last nDirect

/-- A buffer of bytes cut back to the `BSIZE` bytes of a block. -/
def toBlock (f : Nat → UInt8) : Block := fun i => f i.val

theorem get_toBlock (f : Nat → UInt8) {i : Nat} (hi : i < bsize) : get (toBlock f) i = f i := by
  unfold LittleEndian.get toBlock
  rw [dif_pos hi]

/-- `iupdate`: the inode written back to its block. -/
def iupdate (ip : Inode) (fs : FsState) : FsState :=
  { fs with dinode := Function.update fs.dinode ip.inum ip.toDinode } |>.logWrite (iblock ip.inum)

/-- The inode numbered `inum` as the disk holds it. -/
def diskInode (fs : FsState) (inum : Nat) : Inode := ⟨fs.dinode inum, inum⟩

section Bmap

/-- The slot `ip->addrs[slot]`, with a block allocated for it if it is `0`; the address is `0` when
`balloc` finds none. -/
def allocSlot (ip : Inode) (slot : Fin (nDirect + 1)) (fs : FsState) : Nat × Inode × FsState :=
  if ip.addrs slot = 0 then
    let r := balloc fs
    (r.1, if r.1 = 0 then ip else ip.setAddr slot r.1, r.2)
  else (ip.addrs slot, ip, fs)

/-- Entry `bn` of the indirect block `ind`, with a block allocated for it if it is `0`; the entry is
written and the indirect block logged only when `balloc` found one. -/
def allocEntry (ind bn : Nat) (fs : FsState) : Nat × FsState :=
  let addr := (load (fs.disk ind) (4 * bn)).toNat
  if addr = 0 then
    let r := balloc fs
    if r.1 = 0 then (0, r.2)
    else (r.1, (r.2.write ind (store (r.2.disk ind) (4 * bn) (UInt32.ofNat r.1))).logWrite ind)
  else (addr, fs)

/-- `bmap(ip, bn)`; `none` is the panic "bmap: out of range". -/
def bmap (ip : Inode) (bn : Nat) (fs : FsState) : Option (Nat × Inode × FsState) :=
  if h : bn < nDirect then some (allocSlot ip ⟨bn, Nat.lt_succ_of_lt h⟩ fs)
  else if bn - nDirect < nIndirect then
    let r := allocSlot ip indirectSlot fs
    if r.1 = 0 then some r
    else
      let e := allocEntry r.1 (bn - nDirect) r.2.2
      some (e.1, r.2.1, e.2)
  else none

theorem allocSlot_of_ne_zero {ip : Inode} {slot : Fin (nDirect + 1)} (fs : FsState) (h : ip.addrs slot ≠ 0) :
    allocSlot ip slot fs = (ip.addrs slot, ip, fs) := by
  simp [allocSlot, h]

theorem allocEntry_of_ne_zero {ind bn : Nat} {fs : FsState} (h : (load (fs.disk ind) (4 * bn)).toNat ≠ 0) :
    allocEntry ind bn fs = ((load (fs.disk ind) (4 * bn)).toNat, fs) := by
  simp [allocEntry, h]

/-- A byte offset below `MAXFILE * BSIZE` lies in a block index `bmap` maps. -/
theorem div_bsize_lt_maxFile {off : Nat} (h : off < maxFile * bsize) : off / bsize < maxFile :=
  Nat.div_lt_of_lt_mul (Nat.mul_comm maxFile bsize ▸ h)

/-- `bmap` reaches its panic only for block indices at or past `MAXFILE`. -/
theorem bmap_isSome {bn : Nat} (hbn : bn < maxFile) (ip : Inode) (fs : FsState) : (bmap ip bn fs).isSome := by
  unfold bmap
  split
  · rfl
  · rw [if_pos (by unfold maxFile at hbn; omega)]
    dsimp only
    split <;> rfl

end Bmap

section Content

/-- The address `bmap` finds for block `bn` of `ip` when nothing is missing, read without allocating;
`0` where there is no block. -/
def blockAddr (fs : FsState) (ip : Inode) (bn : Nat) : Nat :=
  if h : bn < nDirect then ip.addrs ⟨bn, Nat.lt_succ_of_lt h⟩
  else if bn - nDirect < nIndirect ∧ ip.addrs indirectSlot ≠ 0 then
    (load (fs.disk (ip.addrs indirectSlot)) (4 * (bn - nDirect))).toNat
  else 0

/-- Byte `i` of the file. -/
def byteAt (fs : FsState) (ip : Inode) (i : Nat) : UInt8 := get (fs.disk (blockAddr fs ip (i / bsize))) (i % bsize)

/-- The content of the file: its first `size` bytes. -/
def content (fs : FsState) (ip : Inode) : List UInt8 := (List.range ip.size).map (byteAt fs ip)

/-- Every block below the size has an address: the file has no holes. -/
def NoHoles (fs : FsState) (ip : Inode) : Prop := ∀ i < ip.size, blockAddr fs ip (i / bsize) ≠ 0

theorem getD_content {fs : FsState} {ip : Inode} {i : Nat} (hi : i < ip.size) :
    (content fs ip).getD i 0 = byteAt fs ip i := by
  rw [List.getD_eq_getElem?_getD, content, List.getElem?_map, List.getElem?_range hi]
  rfl

/-- Where the file has a block, `bmap` returns it and changes nothing. -/
theorem bmap_of_blockAddr {fs : FsState} {ip : Inode} {bn : Nat} (hbn : bn < maxFile) (h : blockAddr fs ip bn ≠ 0) :
    bmap ip bn fs = some (blockAddr fs ip bn, ip, fs) := by
  by_cases hd : bn < nDirect
  · have haddr : blockAddr fs ip bn = ip.addrs ⟨bn, Nat.lt_succ_of_lt hd⟩ := dif_pos hd
    rw [haddr] at h ⊢
    unfold bmap
    rw [dif_pos hd, allocSlot_of_ne_zero fs h]
  · have hind : bn - nDirect < nIndirect := by unfold maxFile at hbn; omega
    by_cases hslot : ip.addrs indirectSlot = 0
    · have hzero : blockAddr fs ip bn = 0 := by
        rw [blockAddr, dif_neg hd, if_neg (fun hc => hc.2 hslot)]
      exact absurd hzero h
    · -- both the indirect block and its entry are there
      have haddr : blockAddr fs ip bn = (load (fs.disk (ip.addrs indirectSlot)) (4 * (bn - nDirect))).toNat := by
        rw [blockAddr, dif_neg hd, if_pos (And.intro hind hslot)]
      rw [haddr] at h ⊢
      unfold bmap
      rw [dif_neg hd, if_pos hind]
      simp only [allocSlot_of_ne_zero fs hslot, if_neg hslot, allocEntry_of_ne_zero h]

end Content

section Readi

/-- The loop of `readi` from `tot` bytes read at `off` into `dst`, clamped count `n`. Every pass reads
at least one byte, so `n` passes are enough: the fuel is `n`. -/
def readLoop (user_dst : Bool) (n : Nat) :
    (fuel : Nat) → (tot off dst : Nat) → Inode → FsState → Memory → Option (Int × Inode × FsState × Memory)
  | 0, tot, _, _, ip, fs, mem => some (tot, ip, fs, mem)
  | fuel + 1, tot, off, dst, ip, fs, mem =>
    if tot < n then
      match bmap ip (off / bsize) fs with
      | none => none
      | some (addr, ip, fs) =>
        if addr = 0 then some (tot, ip, fs, mem)
        else
          let m := min (n - tot) (bsize - off % bsize)
          let r := eitherCopyout user_dst dst (fun k => get (fs.disk addr) (off % bsize + k)) m mem
          if r.2 = -1 then some (-1, ip, fs, r.1)
          else readLoop user_dst n fuel (tot + m) (off + m) (dst + m) ip fs r.1
    else some (tot, ip, fs, mem)

def readi (ip : Inode) (user_dst : Bool) (dst : Nat) (off n : UInt32) (fs : FsState) (mem : Memory) :
    Option (Int × Inode × FsState × Memory) :=
  if off.toNat > ip.size ∨ off + n < off then some (0, ip, fs, mem)
  else
    let n := if off.toNat + n.toNat > ip.size then ip.size - off.toNat else n.toNat
    readLoop user_dst n n 0 off.toNat dst ip fs mem

/-- The bytes of one pass are those of the file: the pass stays inside one block. -/
theorem get_blockAddr_add {fs : FsState} {ip : Inode} {off k : Nat} (hk : k < bsize - off % bsize) :
    get (fs.disk (blockAddr fs ip (off / bsize))) (off % bsize + k) = byteAt fs ip (off + k) := by
  have hdiv : (off + k) / bsize = off / bsize := by unfold bsize at *; omega
  have hmod : (off + k) % bsize = off % bsize + k := by unfold bsize at *; omega
  rw [byteAt, hdiv, hmod]

/-- On a file with blocks under the bytes it reads, `readi`'s loop changes neither the inode nor the
blocks, and unless a copy-out fails it reads all `n - tot` bytes of the file from `off`. -/
theorem readLoop_spec {user_dst : Bool} {n : Nat} {fs : FsState} {ip : Inode} :
    ∀ {fuel tot off dst : Nat} {mem : Memory}, n - tot ≤ fuel → off + (n - tot) ≤ maxFile * bsize →
      (∀ i, off ≤ i → i < off + (n - tot) → blockAddr fs ip (i / bsize) ≠ 0) →
      ∃ r mem', readLoop user_dst n fuel tot off dst ip fs mem = some (r, ip, fs, mem') ∧
        (r ≠ -1 → r = max tot n ∧ mem' = mem.put user_dst dst (fun k => byteAt fs ip (off + k)) (n - tot)) := by
  intro fuel
  induction fuel with
  | zero =>
    intro tot off dst mem hfuel _ _
    refine ⟨tot, mem, rfl, fun _ => ⟨by omega, ?_⟩⟩
    rw [show n - tot = 0 by omega, Memory.put_zero]
  | succ fuel ih =>
    intro tot off dst mem hfuel hrange hblocks
    by_cases htot : tot < n
    · -- one pass of `m` bytes from the block holding `off`
      have hbn : off / bsize < maxFile := div_bsize_lt_maxFile (by omega)
      have haddr := hblocks off le_rfl (by omega)
      have hmap := bmap_of_blockAddr hbn haddr
      have hm : 0 < min (n - tot) (bsize - off % bsize) := by
        have : off % bsize < bsize := Nat.mod_lt _ (by unfold bsize; omega)
        omega
      generalize hmdef : min (n - tot) (bsize - off % bsize) = m at hm
      have hstep : readLoop user_dst n (fuel + 1) tot off dst ip fs mem =
          let r := eitherCopyout user_dst dst (fun k => get (fs.disk (blockAddr fs ip (off / bsize))) (off % bsize + k)) m mem
          if r.2 = -1 then some (-1, ip, fs, r.1)
          else readLoop user_dst n fuel (tot + m) (off + m) (dst + m) ip fs r.1 := by
        simp only [readLoop, if_pos htot, hmap, if_neg haddr, hmdef]
      rw [hstep]
      by_cases hfail : (eitherCopyout user_dst dst
          (fun k => get (fs.disk (blockAddr fs ip (off / bsize))) (off % bsize + k)) m mem).2 = -1
      · refine ⟨-1, (eitherCopyout user_dst dst
          (fun k => get (fs.disk (blockAddr fs ip (off / bsize))) (off % bsize + k)) m mem).1, ?_, fun h => (h rfl).elim⟩
        dsimp only
        rw [if_pos hfail]
      · rw [eitherCopyout_of_ne hfail]
        simp only [show ((0 : Int) = -1) = False by decide, if_false]
        obtain ⟨r, mem', hrun, hspec⟩ := @ih (tot + m) (off + m) (dst + m)
          (mem.put user_dst dst (fun k => get (fs.disk (blockAddr fs ip (off / bsize))) (off % bsize + k)) m)
          (by omega) (by omega) (fun i hi hi' => hblocks i (by omega) (by omega))
        refine ⟨r, mem', hrun, fun hr => ⟨by have := (hspec hr).1; omega, ?_⟩⟩
        -- the pass's bytes are the file's, and the rest of the loop continues the same copy
        have hsrc : mem.put user_dst dst (fun k => get (fs.disk (blockAddr fs ip (off / bsize))) (off % bsize + k)) m =
            mem.put user_dst dst (fun k => byteAt fs ip (off + k)) m :=
          Memory.put_congr fun k hk => get_blockAddr_add (by omega)
        have hshift : (fun k => byteAt fs ip (off + m + k)) = fun k => byteAt fs ip (off + (m + k)) := by
          funext k
          rw [Nat.add_assoc]
        rw [(hspec hr).2, hsrc, hshift, Memory.put_put mem user_dst dst (fun k => byteAt fs ip (off + k)) m,
          show m + (n - (tot + m)) = n - tot by omega]
    · refine ⟨tot, mem, by simp [readLoop, htot], fun _ => ⟨by omega, ?_⟩⟩
      rw [show n - tot = 0 by omega, Memory.put_zero]

/-- `off + n < off` on 32-bit words: the sum wraps. -/
theorem add_lt_self_iff (a b : UInt32) : a + b < a ↔ 2 ^ 32 ≤ a.toNat + b.toNat := by
  rw [UInt32.lt_iff_toNat_lt, UInt32.toNat_add]
  have := a.toNat_lt
  have := b.toNat_lt
  omega

/-- Every pass of `readi`'s loop asks `bmap` for a block below `MAXFILE`, so the loop never panics. -/
theorem readLoop_isSome {user_dst : Bool} {n : Nat} :
    ∀ {fuel tot off dst : Nat} {ip : Inode} {fs : FsState} {mem : Memory}, off + (n - tot) ≤ maxFile * bsize →
      (readLoop user_dst n fuel tot off dst ip fs mem).isSome := by
  intro fuel
  induction fuel with
  | zero => intro tot off dst ip fs mem _; rfl
  | succ fuel ih =>
    intro tot off dst ip fs mem hrange
    by_cases htot : tot < n
    · have hbn : off / bsize < maxFile := div_bsize_lt_maxFile (by omega)
      obtain ⟨⟨addr, ip', fs'⟩, hmap⟩ := Option.isSome_iff_exists.mp (bmap_isSome hbn ip fs)
      simp only [readLoop, if_pos htot, hmap]
      split
      · rfl
      · split
        · rfl
        · exact ih (by omega)
    · simp [readLoop, htot]

/-- `readi` on a file of at most `MAXFILE` blocks with no holes changes neither the inode nor the
blocks. From an offset past the end, or when `off + n` wraps, it returns `0`; otherwise, unless a
copy-out fails, it returns `min(n, size - off)` and has copied that many bytes of the content from
`off` on. -/
theorem readi_spec {ip : Inode} {fs : FsState} (hsize : ip.size ≤ maxFile * bsize) (hholes : NoHoles fs ip)
    (user_dst : Bool) (dst : Nat) (off n : UInt32) (mem : Memory) :
    ∃ r mem', readi ip user_dst dst off n fs mem = some (r, ip, fs, mem') ∧
      (ip.size < off.toNat ∨ 2 ^ 32 ≤ off.toNat + n.toNat → r = 0 ∧ mem' = mem) ∧
      (off.toNat ≤ ip.size → off.toNat + n.toNat < 2 ^ 32 → r ≠ -1 →
        r = (min n.toNat (ip.size - off.toNat) : Nat) ∧
        mem' = mem.put user_dst dst (fun k => (content fs ip).getD (off.toNat + k) 0) (min n.toNat (ip.size - off.toNat))) := by
  by_cases hout : off.toNat > ip.size ∨ off + n < off
  · refine ⟨0, mem, if_pos hout, fun _ => ⟨rfl, rfl⟩, fun hoff hwrap _ => ?_⟩
    rw [add_lt_self_iff] at hout
    omega
  · rw [add_lt_self_iff] at hout
    -- the clamped count is `min n (size - off)`
    have hclamp : (if off.toNat + n.toNat > ip.size then ip.size - off.toNat else n.toNat) =
        min n.toNat (ip.size - off.toNat) := by
      split <;> omega
    obtain ⟨r, mem', hrun, hspec⟩ := @readLoop_spec user_dst (min n.toNat (ip.size - off.toNat)) fs ip
      (min n.toNat (ip.size - off.toNat)) 0 off.toNat dst mem (by omega) (by omega)
      (fun i _ hi => hholes i (by omega))
    have hreadi : readi ip user_dst dst off n fs mem = some (r, ip, fs, mem') := by
      rw [readi, if_neg (by rw [add_lt_self_iff]; exact hout)]
      dsimp only
      rw [hclamp, hrun]
    refine ⟨r, mem', hreadi, fun h => absurd h (by omega), fun _ _ hr => ⟨by simpa using (hspec hr).1, ?_⟩⟩
    rw [(hspec hr).2, Nat.sub_zero]
    exact Memory.put_congr fun k hk => (getD_content (by omega)).symm

end Readi

section Writei

/-- The loop of `writei` from `tot` bytes written at `off` from `src`. A pass copies into the block's
buffer, which keeps what the copy-in stored even when it fails partway; only a pass whose copy
succeeds passes the buffer to `log_write`. The loop returns `tot` and `off`, which `writei` reads
after it; the fuel is `n` as in `readLoop`. -/
def writeLoop (user_src : Bool) (n : Nat) (mem : Memory) :
    (fuel : Nat) → (tot off src : Nat) → Inode → FsState → Option (Nat × Nat × Inode × FsState)
  | 0, tot, off, _, ip, fs => some (tot, off, ip, fs)
  | fuel + 1, tot, off, src, ip, fs =>
    if tot < n then
      match bmap ip (off / bsize) fs with
      | none => none
      | some (addr, ip, fs) =>
        if addr = 0 then some (tot, off, ip, fs)
        else
          let m := min (n - tot) (bsize - off % bsize)
          let r := eitherCopyin (get (fs.disk addr)) (off % bsize) user_src src m mem
          let fs := fs.write addr (toBlock r.1)
          if r.2 = -1 then some (tot, off, ip, fs)
          else writeLoop user_src n mem fuel (tot + m) (off + m) (src + m) ip (fs.logWrite addr)
    else some (tot, off, ip, fs)

def writei (ip : Inode) (user_src : Bool) (src : Nat) (off n : UInt32) (fs : FsState) (mem : Memory) :
    Option (Int × Inode × FsState) :=
  if off.toNat > ip.size ∨ off + n < off then some (-1, ip, fs)
  else if off.toNat + n.toNat > maxFile * bsize then some (-1, ip, fs)
  else
    match writeLoop user_src n.toNat mem n.toNat 0 off.toNat src ip fs with
    | none => none
    | some (tot, off, ip, fs) =>
      let ip := if off > ip.size then { ip with size := off } else ip
      some (tot, ip, iupdate ip fs)

/-- A copy-in that fails partway through a block leaves its bytes in the block, past the count
`writei` returns. A file of two zero bytes in block 100; the user buffer at 4095 has its first byte
(a `1`) at the end of a mapped page and its second on an unmapped one. `writei` of two bytes at
offset 0 returns 0, but the content of the file is now `1, 0`, which the next `readi` returns. -/
theorem writei_failed_copy_changes_content :
    let fs : FsState := ⟨fun _ => zeroBlock, fun _ => ⟨.free, 0, 0, 0, 0, fun _ => 0⟩, []⟩
    let ip : Inode := ⟨⟨.file, 0, 0, 1, 2, fun i => if i.val = 0 then 100 else 0⟩, 2⟩
    let mem : Memory := ⟨⟨fun va => va == 0, fun _ => false, fun _ => 1⟩, fun _ => 0⟩
    ∃ ip' fs', writei ip true 4095 0 2 fs mem = some (0, ip', fs') ∧ content fs ip = [0, 0] ∧
      content fs' ip' = [1, 0] ∧
      ∃ mem', readi ip' false 0 0 2 fs' mem = some (2, ip', fs', mem') ∧ mem'.kernel 0 = 1 := by
  intro fs ip mem
  refine ⟨_, _, rfl, by decide, by decide, _, rfl, by decide⟩

/-- Every pass of `writei`'s loop asks `bmap` for a block below `MAXFILE`, so the loop never panics. -/
theorem writeLoop_isSome {user_src : Bool} {n : Nat} {mem : Memory} :
    ∀ {fuel tot off src : Nat} {ip : Inode} {fs : FsState}, off + (n - tot) ≤ maxFile * bsize →
      (writeLoop user_src n mem fuel tot off src ip fs).isSome := by
  intro fuel
  induction fuel with
  | zero => intro tot off src ip fs _; rfl
  | succ fuel ih =>
    intro tot off src ip fs hrange
    by_cases htot : tot < n
    · have hbn : off / bsize < maxFile := div_bsize_lt_maxFile (by omega)
      obtain ⟨⟨addr, ip', fs'⟩, hmap⟩ := Option.isSome_iff_exists.mp (bmap_isSome hbn ip fs)
      simp only [writeLoop, if_pos htot, hmap]
      split
      · rfl
      · split
        · rfl
        · exact ih (by omega)
    · simp [writeLoop, htot]

/-- Neither `readi` nor `writei` reaches the panic "bmap: out of range": `readi` on a file of at
most `MAXFILE` blocks, `writei` on any. -/
theorem readi_writei_isSome {ip : Inode} (hsize : ip.size ≤ maxFile * bsize) (fs : FsState) (mem : Memory)
    (user : Bool) (addr : Nat) (off n : UInt32) :
    (readi ip user addr off n fs mem).isSome ∧ (writei ip user addr off n fs mem).isSome := by
  constructor
  · unfold readi
    split
    · rfl
    · exact readLoop_isSome (by split <;> omega)
  · unfold writei
    split
    · rfl
    · split
      · rfl
      · obtain ⟨⟨tot, off', ip', fs'⟩, hloop⟩ := Option.isSome_iff_exists.mp
          (@writeLoop_isSome user n.toNat mem n.toNat 0 off.toNat addr ip fs (by omega))
        rw [hloop]
        rfl

end Writei

section Itrunc

/-- `itrunc`'s first loop: free each direct block and clear its slot. -/
def truncDirect (ip : Inode) (fs : FsState) : Option (Inode × FsState) :=
  (List.finRange nDirect).foldlM (fun r i =>
    let slot : Fin (nDirect + 1) := i.castSucc
    if r.1.addrs slot ≠ 0 then (bfree r.2 (r.1.addrs slot)).map fun fs => (r.1.setAddr slot 0, fs)
    else some r) (ip, fs)

/-- `itrunc`'s loop over the entries of the indirect block `ind`: free each block it names. -/
def truncIndirect (ind : Nat) (fs : FsState) : Option FsState :=
  (List.range nIndirect).foldlM (fun fs j =>
    let a := (load (fs.disk ind) (4 * j)).toNat
    if a ≠ 0 then bfree fs a else some fs) fs

/-- `itrunc(ip)`: free every block of the file, then the indirect block, and write back the inode
with size `0`; `none` is the panic "freeing free block". -/
def itrunc (ip : Inode) (fs : FsState) : Option (Inode × FsState) :=
  match truncDirect ip fs with
  | none => none
  | some (ip, fs) =>
    let r : Option (Inode × FsState) :=
      if ip.addrs indirectSlot ≠ 0 then
        ((truncIndirect (ip.addrs indirectSlot) fs).bind fun fs => bfree fs (ip.addrs indirectSlot)).map
          fun fs => (ip.setAddr indirectSlot 0, fs)
      else some (ip, fs)
    r.map fun r =>
      let ip := { r.1 with size := 0 }
      (ip, iupdate ip r.2)

end Itrunc

end Xv6.Fs
