import Xv6.Fs.Bitmap
import Xv6.Fs.Inode
import Xv6.Library.Accounting

/-!
# The block-allocation invariant

An allocated inode keeps block addresses in its `NDIRECT + 1` slots and, when it has an indirect
block, in the `NINDIRECT` entries of that block. `AllocInv` says that these addresses and the free
bitmap agree (`Accounting.Accounted` over the data blocks: each kept address is a marked data block,
no block is kept twice, every marked data block is kept), that the metadata blocks are marked, and
that no allocated inode has a hole below its size.

Inside `bmap`, `writei` and `itrunc` the inode being changed is the in-memory copy, ahead of the
disk until `iupdate`; the invariant is then asked of the disk seen with that copy in place
(`FsState.withInode`). Each way the operations change the state is one lemma: a write to a block no
inode keeps as its indirect block changes no kept address (`addrAt_of_indirect`), filling an empty
slot or an empty entry with a new block changes one (`addrAt_setAddr`, `addrAt_storeEntry`), and
freeing every block of an inode empties its places.
-/

namespace Xv6.Fs

open LittleEndian Accounting Vm

/-- Where an inode keeps a block address: one of its `NDIRECT + 1` slots, or an entry of its
indirect block. -/
inductive Place
  | addr (i : Fin (nDirect + 1))
  | entry (j : Fin nIndirect)
  deriving DecidableEq

/-- Entry `j` of the indirect block `ind`, `((uint*)bp->data)[j]`. -/
def entry (d : Disk) (ind j : Nat) : Nat := (load (d ind) (4 * j)).toNat

/-- The address the inode `x` keeps at a place; its entries count while it has an indirect block. -/
def placeAddr (d : Disk) (x : Dinode) : Place → Nat
  | .addr i => x.addrs i
  | .entry j => if x.addrs indirectSlot = 0 then 0 else entry d (x.addrs indirectSlot) j

/-- The addresses the allocated inodes keep, by inode number and place; a free inode keeps none. -/
def addrAt (fs : FsState) (p : Nat × Place) : Nat :=
  if (fs.dinode p.1).type = .free then 0 else placeAddr fs.disk (fs.dinode p.1) p.2

/-- The place of block `bn` of a file, where `bmap` maps it. -/
def placeOf (bn : Nat) : Option Place :=
  if h : bn < nDirect then some (.addr ⟨bn, Nat.lt_succ_of_lt h⟩)
  else if h' : bn - nDirect < nIndirect then some (.entry ⟨bn - nDirect, h'⟩)
  else none

/-- What of an inode the allocation invariant reads: its type, size and addresses. -/
def Dinode.shape (x : Dinode) : IType × Nat × (Fin (nDirect + 1) → Nat) := (x.type, x.size, x.addrs)

/-- The disk with the in-memory copy `ip` in place of its on-disk inode. -/
def FsState.withInode (fs : FsState) (ip : Inode) : FsState :=
  { fs with dinode := Function.update fs.dinode ip.inum ip.toDinode }

/-- The allocation invariant of the on-disk file system. -/
structure AllocInv (fs : FsState) : Prop where
  /-- Every address an allocated inode keeps is a data block marked in use, no block is kept twice,
  and every data block marked in use is kept. -/
  accounted : Accounted InData (addrAt fs) fun b => inUse fs.disk b = true
  /-- Every metadata block is marked in use. -/
  meta_used : ∀ b < sb.size - sb.nblocks, inUse fs.disk b = true
  /-- No allocated inode has a hole below its size. -/
  noHoles : ∀ i, (fs.dinode i).type ≠ .free → NoHoles fs (diskInode fs i)

section Places

@[simp] theorem FsState.withInode_disk (fs : FsState) (ip : Inode) : (fs.withInode ip).disk = fs.disk := rfl

@[simp] theorem FsState.withInode_dinode (fs : FsState) (ip : Inode) :
    (fs.withInode ip).dinode = Function.update fs.dinode ip.inum ip.toDinode := rfl

@[simp] theorem FsState.logWrite_withInode (fs : FsState) (b : Nat) (ip : Inode) :
    (fs.logWrite b).withInode ip = (fs.withInode ip).logWrite b := rfl

@[simp] theorem blockAddr_withInode (fs : FsState) (ip : Inode) : blockAddr (fs.withInode ip) = blockAddr fs := rfl

@[simp] theorem noHoles_withInode (fs : FsState) (ip x : Inode) : NoHoles (fs.withInode ip) x ↔ NoHoles fs x := Iff.rfl

/-- `iupdate` puts the in-memory inode in place of its on-disk one. -/
theorem iupdate_eq (ip : Inode) (fs : FsState) : iupdate ip fs = (fs.withInode ip).logWrite (iblock ip.inum) := rfl

/-- The log is not part of what the invariant reads. -/
@[simp] theorem addrAt_logWrite (fs : FsState) (b : Nat) : addrAt (fs.logWrite b) = addrAt fs := rfl

theorem AllocInv.logWrite {fs : FsState} (h : AllocInv fs) (b : Nat) : AllocInv (fs.logWrite b) :=
  ⟨h.accounted, h.meta_used, h.noHoles⟩

/-- Block `bn` of a file is the address at its place. -/
theorem blockAddr_eq (fs : FsState) (ip : Inode) (bn : Nat) :
    blockAddr fs ip bn = ((placeOf bn).map (placeAddr fs.disk ip.toDinode)).getD 0 := by
  unfold blockAddr placeOf
  by_cases hd : bn < nDirect
  · simp only [dif_pos hd, Option.map_some, Option.getD_some, placeAddr]
  · by_cases hi : bn - nDirect < nIndirect
    · simp only [dif_neg hd, dif_pos hi, Option.map_some, Option.getD_some, placeAddr, entry]
      by_cases hind : ip.addrs indirectSlot = 0
      · simp [hind]
      · simp [hind, hi]
    · simp [hd, hi]

/-- No block of a file has its place at the slot of the indirect block. -/
theorem placeOf_ne_indirect {bn : Nat} {q : Place} (h : placeOf bn = some q) : q ≠ .addr indirectSlot := by
  unfold placeOf at h
  by_cases hd : bn < nDirect
  · rw [dif_pos hd, Option.some.injEq] at h
    subst h
    intro heq
    have := congrArg Fin.val (Place.addr.inj heq)
    simp [indirectSlot, nDirect] at this hd
    omega
  · rw [dif_neg hd] at h
    by_cases hi : bn - nDirect < nIndirect
    · rw [dif_pos hi, Option.some.injEq] at h
      subst h
      exact fun heq => Place.noConfusion heq
    · rw [dif_neg hi] at h
      cases h

/-- Only the disk and the types and addresses of the inodes matter to the kept addresses. -/
theorem addrAt_congr {fs fs' : FsState} (hd : fs'.disk = fs.disk) (htype : ∀ i, (fs'.dinode i).type = (fs.dinode i).type)
    (haddrs : ∀ i, (fs'.dinode i).addrs = (fs.dinode i).addrs) : addrAt fs' = addrAt fs := by
  funext ⟨i, q⟩
  cases q <;> simp [addrAt, placeAddr, htype, haddrs, hd]

/-- The addresses of an allocated inode are those of its places. -/
theorem addrAt_of_alloc {fs : FsState} {i : Nat} (hi : (fs.dinode i).type ≠ .free) (q : Place) :
    addrAt fs (i, q) = placeAddr fs.disk (fs.dinode i) q := by
  simp [addrAt, hi]

theorem addrAt_of_free {fs : FsState} {i : Nat} (hi : (fs.dinode i).type = .free) (q : Place) :
    addrAt fs (i, q) = 0 := by
  simp [addrAt, hi]

/-- A disk that agrees on every indirect block an inode keeps gives the same addresses. -/
theorem addrAt_of_indirect {fs fs' : FsState} (hi : fs'.dinode = fs.dinode)
    (hd : ∀ i, addrAt fs (i, .addr indirectSlot) ≠ 0 →
      fs'.disk (addrAt fs (i, .addr indirectSlot)) = fs.disk (addrAt fs (i, .addr indirectSlot))) :
    addrAt fs' = addrAt fs := by
  funext ⟨i, q⟩
  by_cases hfree : (fs.dinode i).type = .free
  · rw [addrAt_of_free (hi ▸ hfree), addrAt_of_free hfree]
  · rw [addrAt_of_alloc (hi ▸ hfree), addrAt_of_alloc hfree, hi]
    cases q with
    | addr k => rfl
    | entry j =>
      unfold placeAddr
      by_cases hind : (fs.dinode i).addrs indirectSlot = 0
      · simp only [hind, if_true]
      · -- the one block the entry reads is an indirect block the inode keeps
        have hkept := hd i (by rw [addrAt_of_alloc hfree]; exact hind)
        rw [addrAt_of_alloc hfree] at hkept
        simp only [hind, if_false, entry, placeAddr] at hkept ⊢
        rw [hkept]

/-- Block `bn` of an allocated inode is the address the inode keeps at the block's place. -/
theorem blockAddr_eq_addrAt {fs : FsState} {i : Nat} (hi : (fs.dinode i).type ≠ .free) (bn : Nat) :
    blockAddr fs (diskInode fs i) bn = ((placeOf bn).map fun q => addrAt fs (i, q)).getD 0 := by
  rw [blockAddr_eq]
  cases placeOf bn <;> simp [addrAt_of_alloc hi, diskInode]

/-- A file keeps having no holes when every place that held an address still holds one and its size
is the same. -/
theorem noHoles_of_keep {fs fs' : FsState} {i : Nat} (hi : (fs.dinode i).type ≠ .free)
    (hi' : (fs'.dinode i).type ≠ .free) (hsize : (fs'.dinode i).size = (fs.dinode i).size)
    (hkeep : ∀ q, addrAt fs (i, q) ≠ 0 → addrAt fs' (i, q) ≠ 0) (h : NoHoles fs (diskInode fs i)) :
    NoHoles fs' (diskInode fs' i) := by
  intro off hoff
  have hold := h off (by simpa [diskInode, hsize] using hoff)
  rw [blockAddr_eq_addrAt hi] at hold
  rw [blockAddr_eq_addrAt hi']
  cases hq : placeOf (off / bsize) with
  | none => simp [hq] at hold
  | some q =>
    simp only [hq, Option.map_some, Option.getD_some] at hold ⊢
    exact hkeep q hold

/-- A file without holes lies within `MAXFILE` blocks. -/
theorem size_le_of_noHoles {fs : FsState} {ip : Inode} (h : NoHoles fs ip) : ip.size ≤ maxFile * bsize := by
  by_contra hlt
  have hlast := h (maxFile * bsize) (by omega)
  rw [blockAddr_eq, Nat.mul_div_cancel _ (by decide : 0 < bsize)] at hlast
  simp [placeOf, maxFile] at hlast

end Places

section Preserve

variable {fs fs' : FsState}

/-- The invariant survives a change that keeps every address, every mark and every inode's type and
size. -/
theorem AllocInv.of_same (h : AllocInv fs) (haddr : addrAt fs' = addrAt fs)
    (hused : ∀ c < sb.size, inUse fs'.disk c = inUse fs.disk c) (htype : ∀ i, (fs'.dinode i).type = (fs.dinode i).type)
    (hsize : ∀ i, (fs'.dinode i).size = (fs.dinode i).size) : AllocInv fs' where
  accounted := h.accounted.congr (fun p => by rw [haddr]) fun c hc => by rw [hused c hc.2]
  meta_used c hc := by
    rw [hused c (by have := data_pos; unfold sb at hc ⊢; omega)]
    exact h.meta_used c hc
  noHoles i hi := by
    rw [htype] at hi
    exact noHoles_of_keep hi (by rwa [htype]) (hsize i) (fun q hq => by rwa [haddr]) (h.noHoles i hi)

/-- The invariant survives storing an unmarked data block, now marked, at an empty place. -/
theorem AllocInv.of_assign (h : AllocInv fs) {p : Nat × Place} {b : Nat} (hp : addrAt fs p = 0) (hb : InData b)
    (hfree : inUse fs.disk b = false) (haddr : addrAt fs' = Function.update (addrAt fs) p b)
    (hused : ∀ c < sb.size, inUse fs'.disk c = (inUse fs.disk c || decide (b = c)))
    (htype : ∀ i, (fs'.dinode i).type = (fs.dinode i).type) (hsize : ∀ i, (fs'.dinode i).size = (fs.dinode i).size) :
    AllocInv fs' where
  accounted := by
    have hassign := h.accounted.assign hp (ne_zero_of_inData hb) hb (by rw [hfree]; decide)
    refine hassign.congr (fun q => by rw [haddr]) fun c hc => ?_
    rw [hused c hc.2, Bool.or_eq_true, decide_eq_true_iff, @eq_comm _ b c]
    exact or_comm
  meta_used c hc := by
    rw [hused c (by have := data_pos; unfold sb at hc ⊢; omega), h.meta_used c hc]
    rfl
  noHoles i hi := by
    rw [htype] at hi
    refine noHoles_of_keep hi (by rwa [htype]) (hsize i) (fun q hq => ?_) (h.noHoles i hi)
    -- the place that was filled held nothing, so every place that held an address still does
    have hne : (i, q) ≠ p := fun heq => hq (heq ▸ hp)
    rwa [haddr, Function.update_of_ne hne]

/-- The invariant survives emptying every place of inode `i` and unmarking what they held, when `i`
is left free or empty. -/
theorem AllocInv.of_release (h : AllocInv fs) (i : Nat) (haddr : ∀ p, addrAt fs' p = if p.1 = i then 0 else addrAt fs p)
    (hused : ∀ c < sb.size, inUse fs'.disk c = true ↔
      inUse fs.disk c = true ∧ ∀ q, addrAt fs (i, q) ≠ 0 → addrAt fs (i, q) ≠ c)
    (htype : ∀ j, j ≠ i → (fs'.dinode j).type = (fs.dinode j).type)
    (hsize : ∀ j, j ≠ i → (fs'.dinode j).size = (fs.dinode j).size)
    (hempty : (fs'.dinode i).type ≠ .free → (fs'.dinode i).size = 0) : AllocInv fs' where
  accounted := by
    refine (h.accounted.release fun p => p.1 = i).congr (fun p => haddr p) fun c hc => ?_
    rw [hused c hc.2]
    constructor
    · rintro ⟨hu, hnot⟩
      refine ⟨hu, fun ⟨j, q⟩ hj hq => ?_⟩
      simp only at hj
      subst hj
      exact hnot q (by rw [hq]; exact ne_zero_of_inData hc) hq
    · rintro ⟨hu, hnot⟩
      exact ⟨hu, fun q _ => hnot (i, q) rfl⟩
  meta_used c hc := by
    have hcs : c < sb.size := by have := data_pos; unfold sb at hc ⊢; omega
    refine (hused c hcs).mpr ⟨h.meta_used c hc, fun q hq heq => ?_⟩
    -- a kept address is a data block, never a metadata block
    have hdata := h.accounted.area_of_ne (i, q) hq
    rw [heq] at hdata
    exact absurd hdata.1 (by omega)
  noHoles j hj := by
    by_cases hji : j = i
    · subst hji
      intro off hoff
      simp [diskInode, hempty hj] at hoff
    · rw [htype j hji] at hj
      refine noHoles_of_keep hj (by rwa [htype j hji]) (hsize j hji) (fun q hq => ?_) (h.noHoles j hj)
      rwa [haddr, if_neg hji]

/-- An inode with no addresses keeps none. -/
theorem addrAt_of_empty {i : Nat} (hx : (fs.dinode i).addrs = fun _ => 0) (q : Place) : addrAt fs (i, q) = 0 := by
  cases q <;> simp [addrAt, placeAddr, hx]

/-- The invariant survives writing, over an inode that keeps no address, an inode with no addresses
that is free or empty: what `ialloc` and the end of `iput` write. -/
theorem AllocInv.setEmpty (h : AllocInv fs) {i : Nat} (hnone : ∀ q, addrAt fs (i, q) = 0) {x : Dinode}
    (hx : x.addrs = fun _ => 0) (hempty : x.type ≠ .free → x.size = 0) :
    AllocInv { fs with dinode := Function.update fs.dinode i x } := by
  refine h.of_release i (fun ⟨j, q⟩ => ?_) (fun c _ => ?_) (fun j hj => by simp [Function.update_of_ne hj])
    (fun j hj => by simp [Function.update_of_ne hj]) (by simpa using hempty)
  · by_cases hj : j = i
    · subst hj
      simp only [if_true]
      exact addrAt_of_empty (by simpa using hx) q
    · simp [hj, addrAt]
  · simp [hnone]

/-- The invariant does not read the log. -/
theorem AllocInv.setLogged (h : AllocInv fs) (l : List Nat) : AllocInv { fs with logged := l } :=
  ⟨h.accounted, h.meta_used, h.noHoles⟩

/-- A data block the search finds is an unmarked data block. -/
theorem AllocInv.search_inData (h : AllocInv fs) {b : Nat} (hs : ballocSearch fs.disk = some b) :
    InData b ∧ inUse fs.disk b = false := by
  obtain ⟨hb, hfree⟩ := ballocSearch_some hs
  refine ⟨⟨?_, hb⟩, hfree⟩
  by_contra hmeta
  rw [h.meta_used b (by omega)] at hfree
  cases hfree

/-- Under the invariant `balloc` returns `0` only when it changed nothing. -/
theorem AllocInv.balloc_eq_zero (h : AllocInv fs) (h0 : (balloc fs).1 = 0) : balloc fs = (0, fs) := by
  cases hs : ballocSearch fs.disk with
  | none => exact balloc_of_search_none hs
  | some b =>
    have hb := ne_zero_of_inData (h.search_inData hs).1
    rw [balloc_fst_of_search hs] at h0
    exact absurd h0 hb

/-- `balloc` changes only the bitmap block and the block it returns, and no inode keeps either as its
indirect block: the kept addresses stay. -/
theorem AllocInv.addrAt_of_balloc (h : AllocInv fs) {b : Nat} (hs : ballocSearch fs.disk = some b)
    (hd : fs'.disk = Function.update (Function.update fs.disk (bblock b) (setBit (fs.disk (bblock b)) (b % bpb))) b zeroBlock)
    (hi : fs'.dinode = fs.dinode) : addrAt fs' = addrAt fs := by
  obtain ⟨hb, hfree⟩ := h.search_inData hs
  refine addrAt_of_indirect hi fun i hind => ?_
  have hdata := h.accounted.area_of_ne _ hind
  have hne : addrAt fs (i, .addr indirectSlot) ≠ b :=
    h.accounted.ne_of_not_used (ne_zero_of_inData hb) (by rw [hfree]; decide) _
  rw [hd, Function.update_of_ne hne, Function.update_of_ne (ne_bblock_of_inData hdata hb.2)]

end Preserve

section Fill

variable {fs : FsState} {ip : Inode}

@[simp] theorem Inode.setAddr_inum (ip : Inode) (s : Fin (nDirect + 1)) (b : Nat) : (ip.setAddr s b).inum = ip.inum := rfl

@[simp] theorem Inode.setAddr_type (ip : Inode) (s : Fin (nDirect + 1)) (b : Nat) : (ip.setAddr s b).type = ip.type := rfl

@[simp] theorem Inode.setAddr_size (ip : Inode) (s : Fin (nDirect + 1)) (b : Nat) : (ip.setAddr s b).size = ip.size := rfl

@[simp] theorem Inode.setAddr_addrs (ip : Inode) (s : Fin (nDirect + 1)) (b : Nat) :
    (ip.setAddr s b).addrs = Function.update ip.addrs s b := rfl

theorem addrAt_withInode_of_ne (fs : FsState) (ip : Inode) {i : Nat} (hi : i ≠ ip.inum) (q : Place) :
    addrAt (fs.withInode ip) (i, q) = addrAt fs (i, q) := by
  simp [addrAt, Function.update_of_ne hi]

theorem addrAt_withInode_self (fs : FsState) {ip : Inode} (halloc : ip.type ≠ .free) (q : Place) :
    addrAt (fs.withInode ip) (ip.inum, q) = placeAddr fs.disk ip.toDinode q := by
  simp [addrAt, halloc]

/-- Filling the empty slot `s` of the in-memory inode with `b` changes one kept address; when `s` is
the slot of the indirect block, `b` must hold no entries yet. -/
theorem addrAt_setAddr (halloc : ip.type ≠ .free) {s : Fin (nDirect + 1)} (hs : ip.addrs s = 0) {b : Nat}
    (hb0 : b ≠ 0) (hzero : s = indirectSlot → ∀ j, entry fs.disk b j = 0) :
    addrAt (fs.withInode (ip.setAddr s b)) = Function.update (addrAt (fs.withInode ip)) (ip.inum, .addr s) b := by
  funext ⟨i, q⟩
  by_cases hi : i = ip.inum
  · subst hi
    have hself := @addrAt_withInode_self fs (ip.setAddr s b) halloc q
    rw [Inode.setAddr_inum] at hself
    rw [hself]
    cases q with
    | addr k =>
      by_cases hk : k = s
      · subst hk
        simp [placeAddr]
      · have hne : (ip.inum, Place.addr k) ≠ (ip.inum, .addr s) := fun h => hk (Place.addr.inj (Prod.ext_iff.mp h).2)
        rw [Function.update_of_ne hne, addrAt_withInode_self fs halloc]
        simp [placeAddr, Function.update_of_ne hk]
    | entry j =>
      have hne : (ip.inum, Place.entry j) ≠ (ip.inum, .addr s) := fun h => Place.noConfusion (Prod.ext_iff.mp h).2
      rw [Function.update_of_ne hne, addrAt_withInode_self fs halloc]
      by_cases hsi : s = indirectSlot
      · -- the new indirect block has no entries, as there was none before
        subst hsi
        simp [placeAddr, hs, hb0, hzero rfl j]
      · simp [placeAddr, Function.update_of_ne (Ne.symm hsi)]
  · have hne : (i, q) ≠ (ip.inum, .addr s) := fun h => hi (Prod.ext_iff.mp h).1
    rw [Function.update_of_ne hne, addrAt_withInode_of_ne _ _ (by simpa using hi), addrAt_withInode_of_ne _ _ hi]

/-- Storing `b` in entry `j` of the in-memory inode's indirect block, which no other inode keeps,
changes one kept address. -/
theorem addrAt_storeEntry (halloc : ip.type ≠ .free) (hind : ip.addrs indirectSlot ≠ 0)
    (hown : ∀ i, i ≠ ip.inum → addrAt (fs.withInode ip) (i, .addr indirectSlot) ≠ ip.addrs indirectSlot)
    (j : Fin nIndirect) {b : Nat} (hb : b < 2 ^ 32) :
    addrAt ((fs.write (ip.addrs indirectSlot) (store (fs.disk (ip.addrs indirectSlot)) (4 * j) (UInt32.ofNat b))).withInode ip) =
      Function.update (addrAt (fs.withInode ip)) (ip.inum, .entry j) b := by
  have hfit : ∀ k : Fin nIndirect, 4 * k.val + 4 ≤ bsize := fun k => by have := k.isLt; unfold nIndirect at this; omega
  funext ⟨i, q⟩
  by_cases hi : i = ip.inum
  · subst hi
    rw [addrAt_withInode_self _ halloc]
    cases q with
    | addr k =>
      rw [Function.update_of_ne (fun h => Place.noConfusion (Prod.ext_iff.mp h).2), addrAt_withInode_self _ halloc]
      rfl
    | entry k =>
      simp only [placeAddr, if_neg hind, entry, FsState.write_disk, Function.update_self]
      by_cases hk : k = j
      · subst hk
        rw [Function.update_self, load_store_self _ _ _ (hfit k), UInt32.toNat_ofNat_of_lt' hb]
      · rw [Function.update_of_ne (fun h => hk (Place.entry.inj (Prod.ext_iff.mp h).2)), addrAt_withInode_self _ halloc]
        simp only [placeAddr, if_neg hind, entry]
        rw [load_store_of_disjoint]
        have hkj : k.val ≠ j.val := fun h => hk (Fin.ext h)
        omega
  · rw [Function.update_of_ne (fun h => hi (Prod.ext_iff.mp h).1), addrAt_withInode_of_ne _ _ hi,
      addrAt_withInode_of_ne _ _ hi]
    have hother := hown i hi
    rw [addrAt_withInode_of_ne _ _ hi] at hother
    -- the other inode's entries live in another block
    unfold addrAt at hother ⊢
    by_cases hfree : (fs.dinode i).type = .free
    · simp [hfree]
    · simp only [FsState.write_dinode, hfree, if_false] at hother ⊢
      cases q with
      | addr k => rfl
      | entry k =>
        simp only [placeAddr] at hother ⊢
        by_cases hz : (fs.dinode i).addrs indirectSlot = 0
        · simp [hz]
        · simp only [hz, if_false, entry, FsState.write_disk]
          rw [Function.update_of_ne hother]

end Fill

section Bmap

/-- From `(fs, ip)` to `(fs', ip')` only places of the in-memory inode were filled: the on-disk inodes,
every field of the inode but its addresses, and every address it keeps stay. -/
structure Grows (fs : FsState) (ip : Inode) (fs' : FsState) (ip' : Inode) : Prop where
  dinode : fs'.dinode = fs.dinode
  inode : ip' = { ip with addrs := ip'.addrs }
  keep : ∀ q, placeAddr fs.disk ip.toDinode q ≠ 0 → placeAddr fs'.disk ip'.toDinode q = placeAddr fs.disk ip.toDinode q

variable {fs fs' fs'' : FsState} {ip ip' ip'' : Inode}

theorem Grows.refl (fs : FsState) (ip : Inode) : Grows fs ip fs ip := ⟨rfl, rfl, fun _ _ => rfl⟩

theorem Grows.trans (h : Grows fs ip fs' ip') (h' : Grows fs' ip' fs'' ip'') : Grows fs ip fs'' ip'' where
  dinode := h'.dinode.trans h.dinode
  inode := by
    rw [h'.inode, h.inode]
  keep q hq := by
    rw [h'.keep q (by rw [h.keep q hq]; exact hq), h.keep q hq]

theorem Grows.inum (h : Grows fs ip fs' ip') : ip'.inum = ip.inum := by
  rw [h.inode]

theorem Grows.type (h : Grows fs ip fs' ip') : ip'.type = ip.type := by
  rw [h.inode]

theorem Grows.size (h : Grows fs ip fs' ip') : ip'.size = ip.size := by
  rw [h.inode]

/-- A block of the file that had an address keeps it. -/
theorem Grows.blockAddr (h : Grows fs ip fs' ip') {bn : Nat} (hbn : blockAddr fs ip bn ≠ 0) :
    blockAddr fs' ip' bn = blockAddr fs ip bn := by
  rw [blockAddr_eq] at hbn ⊢
  rw [blockAddr_eq]
  cases hq : placeOf bn with
  | none => simp [hq] at hbn
  | some q =>
    simp only [hq, Option.map_some, Option.getD_some] at hbn ⊢
    exact h.keep q hbn

/-- A growth read through the views: every kept address of the inode stays. -/
theorem Grows.of_addrAt (halloc : ip.type ≠ .free) (hd : fs'.dinode = fs.dinode) (hi : ip' = { ip with addrs := ip'.addrs })
    (hkeep : ∀ q, addrAt (fs.withInode ip) (ip.inum, q) ≠ 0 →
      addrAt (fs'.withInode ip') (ip.inum, q) = addrAt (fs.withInode ip) (ip.inum, q)) : Grows fs ip fs' ip' where
  dinode := hd
  inode := hi
  keep q hq := by
    have halloc' : ip'.type ≠ .free := by rw [hi]; exact halloc
    have hinum : ip'.inum = ip.inum := by rw [hi]
    have h := hkeep q (by rwa [addrAt_withInode_self _ halloc])
    rwa [← hinum, addrAt_withInode_self _ halloc', hinum, addrAt_withInode_self _ halloc] at h

/-- `allocSlot` on an allocated in-memory inode keeps the invariant of the disk seen with the inode,
only fills the slot, and returns the address the slot then holds. -/
theorem AllocInv.allocSlot (h : AllocInv (fs.withInode ip)) (halloc : ip.type ≠ .free) (s : Fin (nDirect + 1)) :
    AllocInv ((Fs.allocSlot ip s fs).2.2.withInode (Fs.allocSlot ip s fs).2.1) ∧
      Grows fs ip (Fs.allocSlot ip s fs).2.2 (Fs.allocSlot ip s fs).2.1 ∧
      ((Fs.allocSlot ip s fs).1 ≠ 0 → (Fs.allocSlot ip s fs).2.1.addrs s = (Fs.allocSlot ip s fs).1) := by
  by_cases hs : ip.addrs s = 0
  · cases hsearch : ballocSearch fs.disk with
    | none =>
      -- the disk is full: nothing changes and the slot stays empty
      have hnone := balloc_of_search_none hsearch
      simp only [Fs.allocSlot, if_pos hs, hnone, if_true]
      exact ⟨h, Grows.refl fs ip, fun h0 => absurd rfl h0⟩
    | some b =>
      obtain ⟨hb, hfree⟩ := h.search_inData hsearch
      have hb0 := ne_zero_of_inData hb
      have hres : Fs.allocSlot ip s fs = (b, ip.setAddr s b, (balloc fs).2) := by
        simp only [Fs.allocSlot, if_pos hs, balloc_fst_of_search hsearch, if_neg hb0]
      have hdisk := balloc_disk_of_search hsearch
      rw [hres]
      dsimp only
      -- `balloc` keeps every address the view keeps, and the slot then takes the new block
      have hballoc : addrAt ((balloc fs).2.withInode ip) = addrAt (fs.withInode ip) := by
        refine h.addrAt_of_balloc hsearch ?_ (by simp)
        rw [FsState.withInode_disk, hdisk, FsState.withInode_disk]
      have hzero : s = indirectSlot → ∀ j, entry (balloc fs).2.disk b j = 0 := fun _ j => by
        simp [hdisk, entry, load, word, LittleEndian.get, zeroBlock]
      have haddr : addrAt ((balloc fs).2.withInode (ip.setAddr s b)) =
          Function.update (addrAt (fs.withInode ip)) (ip.inum, .addr s) b := by
        rw [addrAt_setAddr halloc hs hb0 hzero, hballoc]
      have hp : addrAt (fs.withInode ip) (ip.inum, .addr s) = 0 := by
        rw [addrAt_withInode_self _ halloc]
        exact hs
      refine ⟨h.of_assign hp hb hfree haddr (fun c hc => ?_) (fun i => ?_) (fun i => ?_), ?_, fun _ => by simp⟩
      · rw [FsState.withInode_disk, hdisk, inUse_alloc _ hb hc]
        rfl
      · by_cases hi : i = ip.inum
        · subst hi
          simp
        · simp [Function.update_of_ne hi]
      · by_cases hi : i = ip.inum
        · subst hi
          simp
        · simp [Function.update_of_ne hi]
      · refine Grows.of_addrAt halloc (by simp) rfl fun q hq => ?_
        have hne : (ip.inum, q) ≠ (ip.inum, .addr s) := fun heq => hq (heq ▸ hp)
        rw [haddr, Function.update_of_ne hne]
  · rw [show Fs.allocSlot ip s fs = (ip.addrs s, ip, fs) by simp [Fs.allocSlot, hs]]
    exact ⟨h, Grows.refl fs ip, fun _ => rfl⟩

/-- `allocEntry` on the indirect block of an allocated in-memory inode keeps the invariant of the disk
seen with the inode, only fills the entry, and returns the address the entry then holds. -/
theorem AllocInv.allocEntry (h : AllocInv (fs.withInode ip)) (halloc : ip.type ≠ .free)
    (hind : ip.addrs indirectSlot ≠ 0) (j : Fin nIndirect) :
    AllocInv ((Fs.allocEntry (ip.addrs indirectSlot) j fs).2.withInode ip) ∧
      Grows fs ip (Fs.allocEntry (ip.addrs indirectSlot) j fs).2 ip ∧
      ((Fs.allocEntry (ip.addrs indirectSlot) j fs).1 ≠ 0 →
        entry (Fs.allocEntry (ip.addrs indirectSlot) j fs).2.disk (ip.addrs indirectSlot) j =
          (Fs.allocEntry (ip.addrs indirectSlot) j fs).1) := by
  have hp : addrAt (fs.withInode ip) (ip.inum, .entry j) = entry fs.disk (ip.addrs indirectSlot) j := by
    rw [addrAt_withInode_self _ halloc]
    simp [placeAddr, hind]
  by_cases he : (load (fs.disk (ip.addrs indirectSlot)) (4 * j)).toNat = 0
  · cases hsearch : ballocSearch fs.disk with
    | none =>
      have hnone := balloc_of_search_none hsearch
      have hres : Fs.allocEntry (ip.addrs indirectSlot) j fs = (0, fs) := by
        simp only [Fs.allocEntry]
        rw [if_pos he, hnone]
        rfl
      rw [hres]
      exact ⟨h, Grows.refl fs ip, fun h0 => absurd rfl h0⟩
    | some b =>
      obtain ⟨hb, hfree⟩ := h.search_inData hsearch
      have hb0 := ne_zero_of_inData hb
      have hdisk := balloc_disk_of_search hsearch
      have hres : Fs.allocEntry (ip.addrs indirectSlot) j fs = (b, (((balloc fs).2.write (ip.addrs indirectSlot)
          (store ((balloc fs).2.disk (ip.addrs indirectSlot)) (4 * j) (UInt32.ofNat b))).logWrite (ip.addrs indirectSlot))) := by
        simp only [Fs.allocEntry]
        rw [if_pos he, balloc_fst_of_search hsearch, if_neg hb0]
      rw [hres]
      dsimp only
      -- `balloc` keeps the view's addresses; the indirect block, the inode's own, then takes `b`
      have hballoc : addrAt ((balloc fs).2.withInode ip) = addrAt (fs.withInode ip) := by
        refine h.addrAt_of_balloc hsearch ?_ (by simp)
        rw [FsState.withInode_disk, hdisk, FsState.withInode_disk]
      have hslot : addrAt (fs.withInode ip) (ip.inum, .addr indirectSlot) = ip.addrs indirectSlot := by
        rw [addrAt_withInode_self _ halloc]
        rfl
      have hown : ∀ i, i ≠ ip.inum →
          addrAt ((balloc fs).2.withInode ip) (i, .addr indirectSlot) ≠ ip.addrs indirectSlot := by
        intro i hi heq
        rw [hballoc] at heq
        have := h.accounted.inj (ip.inum, .addr indirectSlot) (i, .addr indirectSlot) (by rw [hslot]; exact hind)
          (by rw [hslot, heq])
        exact hi (Prod.ext_iff.mp this).1.symm
      have hb32 : b < 2 ^ 32 := by
        have hsize : sb.size < 2 ^ 32 := by decide
        exact lt_trans hb.2 hsize
      have haddr : addrAt ((((balloc fs).2.write (ip.addrs indirectSlot) (store ((balloc fs).2.disk (ip.addrs indirectSlot))
          (4 * j) (UInt32.ofNat b))).logWrite (ip.addrs indirectSlot)).withInode ip) =
            Function.update (addrAt (fs.withInode ip)) (ip.inum, .entry j) b := by
        rw [FsState.logWrite_withInode, addrAt_logWrite, addrAt_storeEntry halloc hind hown j hb32, hballoc]
      have hdata : InData (ip.addrs indirectSlot) := by
        have := h.accounted.area_of_ne _ (by rw [hslot]; exact hind)
        rwa [hslot] at this
      refine ⟨h.of_assign (hp.trans he) hb hfree haddr (fun c hc => ?_) (fun i => by simp) (fun i => by simp), ?_, fun _ => ?_⟩
      · simp only [FsState.logWrite_withInode, FsState.logWrite_disk, FsState.withInode_disk, FsState.write_disk]
        rw [inUse_update_of_inData _ hdata _ hc, hdisk, inUse_alloc _ hb hc]
      · refine Grows.of_addrAt halloc (by simp) rfl fun q hq => ?_
        have hne : (ip.inum, q) ≠ (ip.inum, .entry j) := fun heq => hq (heq ▸ hp.trans he)
        rw [haddr, Function.update_of_ne hne]
      · have hentry := congrFun haddr (ip.inum, .entry j)
        rw [Function.update_self, addrAt_withInode_self _ halloc] at hentry
        simpa [placeAddr, hind] using hentry
  · have hres : Fs.allocEntry (ip.addrs indirectSlot) j fs = ((load (fs.disk (ip.addrs indirectSlot)) (4 * j)).toNat, fs) := by
      simp only [Fs.allocEntry]
      rw [if_neg he]
    rw [hres]
    exact ⟨h, Grows.refl fs ip, fun _ => rfl⟩

/-- `bmap` on an allocated in-memory inode keeps the invariant of the disk seen with the inode, only
fills places of the inode, and the address it returns is then the file's block `bn`. -/
theorem AllocInv.bmap (h : AllocInv (fs.withInode ip)) (halloc : ip.type ≠ .free) {bn a : Nat}
    (hmap : Fs.bmap ip bn fs = some (a, ip', fs')) :
    AllocInv (fs'.withInode ip') ∧ Grows fs ip fs' ip' ∧ (a ≠ 0 → blockAddr fs' ip' bn = a) := by
  unfold Fs.bmap at hmap
  by_cases hd : bn < nDirect
  · rw [dif_pos hd, Option.some.injEq] at hmap
    obtain ⟨hinv, hgrow, hslot⟩ := h.allocSlot halloc ⟨bn, Nat.lt_succ_of_lt hd⟩
    rw [hmap] at hinv hgrow hslot
    refine ⟨hinv, hgrow, fun ha => ?_⟩
    rw [blockAddr, dif_pos hd]
    exact hslot ha
  · rw [dif_neg hd] at hmap
    by_cases hi : bn - nDirect < nIndirect
    · rw [if_pos hi] at hmap
      obtain ⟨hinv, hgrow, hslot⟩ := h.allocSlot halloc indirectSlot
      generalize hr : Fs.allocSlot ip indirectSlot fs = r at hinv hgrow hslot hmap
      obtain ⟨ind, ip1, fs1⟩ := r
      dsimp only at hinv hgrow hslot hmap
      by_cases h0 : ind = 0
      · -- no block for the indirect block: nothing is mapped
        rw [if_pos h0, Option.some.injEq, Prod.mk.injEq, Prod.mk.injEq] at hmap
        obtain ⟨rfl, rfl, rfl⟩ := hmap
        exact ⟨hinv, hgrow, fun ha => absurd h0 ha⟩
      · rw [if_neg h0, Option.some.injEq, Prod.mk.injEq, Prod.mk.injEq] at hmap
        obtain ⟨rfl, rfl, rfl⟩ := hmap
        have hind : ip1.addrs indirectSlot = ind := hslot h0
        have halloc1 : ip1.type ≠ .free := by rw [hgrow.type]; exact halloc
        obtain ⟨hinv', hgrow', hentry⟩ := hinv.allocEntry halloc1 (by rw [hind]; exact h0) ⟨bn - nDirect, hi⟩
        rw [hind] at hinv' hgrow' hentry
        refine ⟨hinv', hgrow.trans hgrow', fun ha => ?_⟩
        rw [blockAddr, dif_neg hd, if_pos ⟨hi, by rw [hind]; exact h0⟩, hind]
        exact hentry ha
    · rw [if_neg hi] at hmap
      cases hmap

end Bmap

section Readi

variable {fs : FsState} {ip : Inode}

/-- The inode the disk holds under the number of a copy of it is that copy. -/
theorem diskInode_of_copy (hcopy : fs.dinode ip.inum = ip.toDinode) : diskInode fs ip.inum = ip := by
  rw [diskInode, hcopy]

/-- `readi` of an allocated inode that is the copy of its on-disk inode changes neither the inode nor
the disk: it never reaches `balloc` or `log_write`. -/
theorem AllocInv.readi (h : AllocInv fs) (hcopy : fs.dinode ip.inum = ip.toDinode) (halloc : ip.type ≠ .free)
    (user_dst : Bool) (dst : Nat) (off n : UInt32) (mem : Memory) :
    ∃ r mem', Fs.readi ip user_dst dst off n fs mem = some (r, ip, fs, mem') := by
  have hholes := h.noHoles ip.inum (by rw [hcopy]; exact halloc)
  rw [diskInode_of_copy hcopy] at hholes
  obtain ⟨r, mem', hr, -⟩ := readi_spec (size_le_of_noHoles hholes) hholes user_dst dst off n mem
  exact ⟨r, mem', hr⟩

end Readi

section Writei

variable {fs fs' : FsState} {ip ip' : Inode}

/-- The log is not part of a growth. -/
theorem Grows.logWrite (fs : FsState) (ip : Inode) (b : Nat) : Grows fs ip (fs.logWrite b) ip :=
  ⟨rfl, rfl, fun _ _ => rfl⟩

/-- Writing into a block of the file changes no kept address: the block is a data block of the
inode, so no inode keeps it as its indirect block. -/
theorem AllocInv.writeData (h : AllocInv (fs.withInode ip)) (halloc : ip.type ≠ .free) {bn : Nat}
    (hbn : blockAddr fs ip bn ≠ 0) (blk : Block) :
    AllocInv ((fs.write (blockAddr fs ip bn) blk).withInode ip) ∧ Grows fs ip (fs.write (blockAddr fs ip bn) blk) ip := by
  rw [blockAddr_eq] at hbn ⊢
  cases hq : placeOf bn with
  | none => simp [hq] at hbn
  | some q =>
    simp only [hq, Option.map_some, Option.getD_some] at hbn ⊢
    have hkept : addrAt (fs.withInode ip) (ip.inum, q) = placeAddr fs.disk ip.toDinode q := addrAt_withInode_self _ halloc q
    have hdata : InData (placeAddr fs.disk ip.toDinode q) := by
      have := h.accounted.area_of_ne (ip.inum, q) (by rwa [hkept])
      rwa [hkept] at this
    -- an indirect block kept anywhere is kept at a slot of an indirect block, not at `q`
    have haddr : addrAt ((fs.write (placeAddr fs.disk ip.toDinode q) blk).withInode ip) = addrAt (fs.withInode ip) := by
      refine addrAt_of_indirect rfl fun i hind => ?_
      have hne : addrAt (fs.withInode ip) (i, .addr indirectSlot) ≠ placeAddr fs.disk ip.toDinode q := by
        intro heq
        have := h.accounted.inj _ _ hind (heq.trans hkept.symm)
        exact placeOf_ne_indirect hq (Prod.ext_iff.mp this).2.symm
      simp only [FsState.withInode_disk, FsState.write_disk]
      rw [Function.update_of_ne hne]
    refine ⟨h.of_same haddr (fun c hc => ?_) (fun i => rfl) (fun i => rfl), Grows.of_addrAt halloc rfl rfl fun q' _ => by rw [haddr]⟩
    simp only [FsState.withInode_disk, FsState.write_disk]
    exact inUse_update_of_inData _ hdata _ hc

/-- A larger size of the in-memory inode keeps the invariant when the file still has no holes. -/
theorem AllocInv.setSize (h : AllocInv (fs.withInode ip)) {sz : Nat} (hholes : NoHoles fs { ip with size := sz }) :
    AllocInv (fs.withInode { ip with size := sz }) where
  accounted := by
    have htype : ∀ i, ((fs.withInode { ip with size := sz }).dinode i).type = ((fs.withInode ip).dinode i).type := by
      intro i
      by_cases hi : i = ip.inum
      · subst hi
        simp
      · simp [Function.update_of_ne hi]
    have haddrs : ∀ i, ((fs.withInode { ip with size := sz }).dinode i).addrs = ((fs.withInode ip).dinode i).addrs := by
      intro i
      by_cases hi : i = ip.inum
      · subst hi
        simp
      · simp [Function.update_of_ne hi]
    exact h.accounted.congr (fun p => by rw [@addrAt_congr (fs.withInode ip) (fs.withInode { ip with size := sz }) rfl htype haddrs])
      fun c _ => Iff.rfl
  meta_used := h.meta_used
  noHoles i hi := by
    by_cases hii : i = ip.inum
    · subst hii
      simpa [diskInode] using hholes
    · have hold := h.noHoles i (by simpa [Function.update_of_ne hii] using hi)
      simpa [diskInode, Function.update_of_ne hii] using hold

/-- The loop of `writei` on an allocated in-memory inode keeps the invariant of the disk seen with the
inode, only fills places of the inode, and leaves a block under every byte it wrote. -/
theorem AllocInv.writeLoop {user_src : Bool} {n : Nat} {mem : Memory} :
    ∀ {fuel tot off src : Nat} {ip : Inode} {fs : FsState} {tot' off' : Nat} {ip' : Inode} {fs' : FsState},
      AllocInv (fs.withInode ip) → ip.type ≠ .free →
      Fs.writeLoop user_src n mem fuel tot off src ip fs = some (tot', off', ip', fs') →
      AllocInv (fs'.withInode ip') ∧ Grows fs ip fs' ip' ∧ off ≤ off' ∧
        ∀ i, off ≤ i → i < off' → blockAddr fs' ip' (i / bsize) ≠ 0 := by
  intro fuel
  induction fuel with
  | zero =>
    intro tot off src ip fs tot' off' ip' fs' h halloc hrun
    simp only [Fs.writeLoop, Option.some.injEq, Prod.mk.injEq] at hrun
    obtain ⟨rfl, rfl, rfl, rfl⟩ := hrun
    exact ⟨h, Grows.refl fs ip, le_rfl, fun i h1 h2 => absurd h2 (by omega)⟩
  | succ fuel ih =>
    intro tot off src ip fs tot' off' ip' fs' h halloc hrun
    by_cases htot : tot < n
    · cases hmap : Fs.bmap ip (off / bsize) fs with
      | none => simp [Fs.writeLoop, htot, hmap] at hrun
      | some r =>
        obtain ⟨addr, ip1, fs1⟩ := r
        obtain ⟨h1, g1, hblk⟩ := h.bmap halloc hmap
        have halloc1 : ip1.type ≠ .free := by rw [g1.type]; exact halloc
        by_cases h0 : addr = 0
        · -- the disk is full: the loop stops here
          simp only [Fs.writeLoop, if_pos htot, hmap, if_pos h0, Option.some.injEq, Prod.mk.injEq] at hrun
          obtain ⟨rfl, rfl, rfl, rfl⟩ := hrun
          exact ⟨h1, g1, le_rfl, fun i h1 h2 => absurd h2 (by omega)⟩
        · -- the pass writes its bytes into block `off / BSIZE`, which has the address `bmap` returned
          have hb := hblk h0
          generalize hm : min (n - tot) (bsize - off % bsize) = m at hrun
          generalize hr : eitherCopyin (LittleEndian.get (fs1.disk addr)) (off % bsize) user_src src m mem = r at hrun
          obtain ⟨h2, g2⟩ := h1.writeData halloc1 (show blockAddr fs1 ip1 (off / bsize) ≠ 0 by rw [hb]; exact h0) (toBlock r.1)
          rw [hb] at h2 g2
          have hstep : Fs.writeLoop user_src n mem (fuel + 1) tot off src ip fs =
              if r.2 = -1 then some (tot, off, ip1, fs1.write addr (toBlock r.1))
              else Fs.writeLoop user_src n mem fuel (tot + m) (off + m) (src + m) ip1 ((fs1.write addr (toBlock r.1)).logWrite addr) := by
            simp only [Fs.writeLoop, if_pos htot, hmap, if_neg h0, hm, hr]
          rw [hstep] at hrun
          by_cases hfail : r.2 = -1
          · rw [if_pos hfail, Option.some.injEq, Prod.mk.injEq, Prod.mk.injEq, Prod.mk.injEq] at hrun
            obtain ⟨rfl, rfl, rfl, rfl⟩ := hrun
            exact ⟨h2, g1.trans g2, le_rfl, fun i h1 h2 => absurd h2 (by omega)⟩
          · rw [if_neg hfail] at hrun
            have h2' : AllocInv (((fs1.write addr (toBlock r.1)).logWrite addr).withInode ip1) := h2.logWrite addr
            obtain ⟨h3, g3, hoff, hrange⟩ := ih h2' halloc1 hrun
            have g := (g1.trans g2).trans ((Grows.logWrite _ ip1 addr).trans g3)
            have hm0 : 0 < m := by
              have : off % bsize < bsize := Nat.mod_lt _ (by unfold bsize; omega)
              omega
            refine ⟨h3, g, by omega, fun i hi hi' => ?_⟩
            by_cases hlt : i < off + m
            · -- a byte of this pass lies in the block the pass wrote
              have hdiv : i / bsize = off / bsize := by
                have : m ≤ bsize - off % bsize := by omega
                unfold bsize at this ⊢
                omega
              have g' := g2.trans ((Grows.logWrite _ ip1 addr).trans g3)
              rw [hdiv, g'.blockAddr (by rw [hb]; exact h0), hb]
              exact h0
            · exact hrange i (by omega) hi'
    · simp only [Fs.writeLoop, if_neg htot, Option.some.injEq, Prod.mk.injEq] at hrun
      obtain ⟨rfl, rfl, rfl, rfl⟩ := hrun
      exact ⟨h, Grows.refl fs ip, le_rfl, fun i h1 h2 => absurd h2 (by omega)⟩

/-- An in-memory inode with the shape of its on-disk inode changes nothing the invariant reads. -/
theorem AllocInv.withInode (h : AllocInv fs) (hshape : (fs.dinode ip.inum).shape = ip.shape) :
    AllocInv (fs.withInode ip) := by
  simp only [Dinode.shape, Prod.mk.injEq] at hshape
  obtain ⟨htype, hsize, haddrs⟩ := hshape
  have hsame : ∀ i, ((fs.withInode ip).dinode i).shape = (fs.dinode i).shape := by
    intro i
    by_cases hi : i = ip.inum
    · subst hi
      simp [Dinode.shape, htype, hsize, haddrs]
    · simp [Function.update_of_ne hi]
  refine h.of_same (addrAt_congr rfl (fun i => congrArg Prod.fst (hsame i))
    (fun i => congrArg (fun x => x.2.2) (hsame i))) (fun c _ => rfl) (fun i => congrArg Prod.fst (hsame i))
    (fun i => congrArg (fun x => x.2.1) (hsame i))

/-- `writei` on an allocated in-memory inode that is the copy of its on-disk inode keeps the
invariant. Only the size and the addresses of the inode change, the disk then holds the new copy, and
no other on-disk inode changes. -/
theorem AllocInv.writei (h : AllocInv fs) (hcopy : fs.dinode ip.inum = ip.toDinode) (halloc : ip.type ≠ .free)
    {user_src : Bool} {src : Nat} {off n : UInt32} {mem : Memory} {r : Int}
    (hw : Fs.writei ip user_src src off n fs mem = some (r, ip', fs')) :
    AllocInv fs' ∧ ip' = { ip with size := ip'.size, addrs := ip'.addrs } ∧ fs'.dinode ip.inum = ip'.toDinode ∧
      ∀ j, j ≠ ip.inum → fs'.dinode j = fs.dinode j := by
  unfold Fs.writei at hw
  by_cases hbad : off.toNat > ip.size ∨ off + n < off
  · rw [if_pos hbad, Option.some.injEq, Prod.mk.injEq, Prod.mk.injEq] at hw
    obtain ⟨-, rfl, rfl⟩ := hw
    exact ⟨h, rfl, hcopy, fun _ _ => rfl⟩
  rw [if_neg hbad] at hw
  by_cases hbig : off.toNat + n.toNat > maxFile * bsize
  · rw [if_pos hbig, Option.some.injEq, Prod.mk.injEq, Prod.mk.injEq] at hw
    obtain ⟨-, rfl, rfl⟩ := hw
    exact ⟨h, rfl, hcopy, fun _ _ => rfl⟩
  rw [if_neg hbig] at hw
  cases hloop : Fs.writeLoop user_src n.toNat mem n.toNat 0 off.toNat src ip fs with
  | none => simp [hloop] at hw
  | some res =>
    obtain ⟨tot, off', ip1, fs1⟩ := res
    simp only [hloop, Option.some.injEq, Prod.mk.injEq] at hw
    obtain ⟨-, rfl, rfl⟩ := hw
    obtain ⟨h1, g, -, hrange⟩ := (h.withInode (congrArg Dinode.shape hcopy)).writeLoop halloc hloop
    have hinum : ip1.inum = ip.inum := g.inum
    -- the new size leaves no hole: below the old size by the invariant, above it by the loop
    have hsize : AllocInv (fs1.withInode (if off' > ip1.size then { ip1 with size := off' } else ip1)) := by
      by_cases hgrow : off' > ip1.size
      · rw [if_pos hgrow]
        refine h1.setSize fun o ho => ?_
        by_cases hold : o < ip1.size
        · have hnh : NoHoles fs1 ip1 := by
            simpa [diskInode] using h1.noHoles ip1.inum (by simpa [g.type] using halloc)
          show blockAddr fs1 ip1 (o / bsize) ≠ 0
          exact hnh o hold
        · exact hrange o (by rw [g.size] at hold; omega) ho
      · rwa [if_neg hgrow]
    refine ⟨by rw [iupdate_eq]; exact hsize.logWrite _, ?_, ?_, fun j hj => ?_⟩
    · by_cases hgrow : off' > ip1.size
      · rw [if_pos hgrow, g.inode]
      · rw [if_neg hgrow, g.inode]
    · by_cases hgrow : off' > ip1.size
      · simp [if_pos hgrow, iupdate_eq, ← hinum]
      · simp [if_neg hgrow, iupdate_eq, ← hinum]
    · have hj' : j ≠ (if off' > ip1.size then { ip1 with size := off' } else ip1).inum := by
        split <;> simpa [hinum] using hj
      simp only [iupdate_eq, FsState.logWrite_dinode, FsState.withInode_dinode, Function.update_of_ne hj']
      rw [g.dinode]

end Writei

section Itrunc

/-- From `fs` to `fs'` the marks of the blocks `B` were cleared; nothing else changed but the bitmap
block and the log. -/
structure Frees (fs fs' : FsState) (B : Nat → Prop) : Prop where
  dinode : fs'.dinode = fs.dinode
  disk : ∀ a, a ≠ sb.bmapstart → fs'.disk a = fs.disk a
  used : ∀ c < sb.size, inUse fs'.disk c = true ↔ inUse fs.disk c = true ∧ ¬ B c

variable {fs fs' fs'' : FsState} {B B' : Nat → Prop}

theorem Frees.refl (fs : FsState) : Frees fs fs fun _ => False :=
  ⟨rfl, fun _ _ => rfl, fun _ _ => by simp⟩

theorem Frees.trans (h : Frees fs fs' B) (h' : Frees fs' fs'' B') : Frees fs fs'' fun c => B c ∨ B' c where
  dinode := h'.dinode.trans h.dinode
  disk a ha := (h'.disk a ha).trans (h.disk a ha)
  used c hc := by
    rw [h'.used c hc, h.used c hc, not_or, and_assoc]

theorem Frees.congr (h : Frees fs fs' B) (hB : ∀ c, B c ↔ B' c) : Frees fs fs' B' :=
  ⟨h.dinode, h.disk, fun c hc => by rw [h.used c hc, hB]⟩

/-- `bfree` of a marked block of the file system clears its mark. -/
theorem bfree_frees {b : Nat} (hb : b < sb.size) (hused : inUse fs.disk b = true) :
    ∃ fs', bfree fs b = some fs' ∧ Frees fs fs' fun c => c = b := by
  refine ⟨_, bfree_of_inUse hused, ⟨rfl, fun a ha => ?_, fun c hc => ?_⟩⟩
  · simp only [FsState.logWrite_disk, FsState.write_disk]
    rw [Function.update_of_ne (by rwa [bblock_of_lt_size hb])]
  · simp only [FsState.logWrite_disk, FsState.write_disk]
    rw [inUse_clearBit, Bool.and_eq_true, Bool.not_eq_true', decide_eq_false_iff_not, @eq_comm _ b c]

/-- The loop of `itrunc` over the indirect block `ind`: when the nonzero entries are distinct marked
blocks, each is freed and nothing else. -/
theorem truncIndirect_frees {ind : Nat} (hind : ind ≠ sb.bmapstart) :
    ∀ (L : List Nat) (fs : FsState), L.Nodup →
      (∀ j ∈ L, entry fs.disk ind j ≠ 0 → entry fs.disk ind j < sb.size ∧ inUse fs.disk (entry fs.disk ind j) = true) →
      (∀ j ∈ L, ∀ k ∈ L, entry fs.disk ind j ≠ 0 → entry fs.disk ind j = entry fs.disk ind k → j = k) →
      ∃ fs', L.foldlM (fun fs j => if (load (fs.disk ind) (4 * j)).toNat ≠ 0 then bfree fs (load (fs.disk ind) (4 * j)).toNat
          else some fs) fs = some fs' ∧ Frees fs fs' fun c => c ≠ 0 ∧ ∃ j ∈ L, entry fs.disk ind j = c := by
  intro L
  induction L with
  | nil =>
    intro fs _ _ _
    exact ⟨fs, rfl, (Frees.refl fs).congr fun c => by simp⟩
  | cons j L ih =>
    intro fs hnd hmarked hdistinct
    obtain ⟨hj, hnd⟩ := List.nodup_cons.mp hnd
    by_cases h0 : entry fs.disk ind j = 0
    · -- an empty entry frees nothing
      obtain ⟨fs', hrun, hfree⟩ := ih fs hnd (fun k hk => hmarked k (List.mem_cons_of_mem j hk))
        fun k hk l hl => hdistinct k (List.mem_cons_of_mem j hk) l (List.mem_cons_of_mem j hl)
      refine ⟨fs', ?_, hfree.congr fun c => ?_⟩
      · rw [List.foldlM_cons]
        simp only [show (load (fs.disk ind) (4 * j)).toNat = 0 from h0, ne_eq, not_true_eq_false, if_false]
        exact hrun
      · constructor
        · rintro ⟨hc, k, hk, hkc⟩
          exact ⟨hc, k, List.mem_cons_of_mem j hk, hkc⟩
        · rintro ⟨hc, k, hk, hkc⟩
          rcases List.mem_cons.mp hk with rfl | hk
          · exact absurd (hkc ▸ h0) hc
          · exact ⟨hc, k, hk, hkc⟩
    · obtain ⟨hlt, hused⟩ := hmarked j List.mem_cons_self h0
      obtain ⟨fs1, hfree1, hf1⟩ := bfree_frees hlt hused
      -- the entries live in `ind`, which freeing leaves as it was
      have hsame : ∀ k, entry fs1.disk ind k = entry fs.disk ind k := fun k => by
        simp only [entry, hf1.disk ind hind]
      obtain ⟨fs2, hrun, hf2⟩ := ih fs1 hnd
        (fun k hk hk0 => by
          rw [hsame] at hk0 ⊢
          refine ⟨(hmarked k (List.mem_cons_of_mem j hk) hk0).1, (hf1.used _ (hmarked k (List.mem_cons_of_mem j hk) hk0).1).mpr
            ⟨(hmarked k (List.mem_cons_of_mem j hk) hk0).2, fun heq => ?_⟩⟩
          -- another entry holding the block just freed would be entry `j` itself
          have := hdistinct k (List.mem_cons_of_mem j hk) j List.mem_cons_self hk0 heq
          exact hj (this ▸ hk))
        fun k hk l hl => by
          rw [hsame, hsame]
          exact hdistinct k (List.mem_cons_of_mem j hk) l (List.mem_cons_of_mem j hl)
      refine ⟨fs2, ?_, (hf1.trans hf2).congr fun c => ?_⟩
      · rw [List.foldlM_cons]
        simp only [show (load (fs.disk ind) (4 * j)).toNat ≠ 0 from h0, ne_eq, not_false_eq_true, if_true]
        rw [show bfree fs (load (fs.disk ind) (4 * j)).toNat = some fs1 from hfree1]
        exact hrun
      · simp only [hsame]
        constructor
        · rintro (rfl | ⟨hc, k, hk, hkc⟩)
          · exact ⟨h0, j, List.mem_cons_self, rfl⟩
          · exact ⟨hc, k, List.mem_cons_of_mem j hk, hkc⟩
        · rintro ⟨hc, k, hk, hkc⟩
          rcases List.mem_cons.mp hk with rfl | hk
          · exact .inl hkc.symm
          · exact .inr ⟨hc, k, hk, hkc⟩

/-- The first loop of `itrunc`: when the nonzero direct addresses are distinct marked blocks, each is
freed and its slot emptied, and nothing else changes. -/
theorem truncDirect_frees :
    ∀ (L : List (Fin nDirect)) (ip : Inode) (fs : FsState), L.Nodup →
      (∀ i ∈ L, ip.addrs i.castSucc ≠ 0 → ip.addrs i.castSucc < sb.size ∧ inUse fs.disk (ip.addrs i.castSucc) = true) →
      (∀ i ∈ L, ∀ k ∈ L, ip.addrs i.castSucc ≠ 0 → ip.addrs i.castSucc = ip.addrs k.castSucc → i = k) →
      ∃ ip' fs', L.foldlM (fun r i => if r.1.addrs i.castSucc ≠ 0 then
          (bfree r.2 (r.1.addrs i.castSucc)).map fun fs => (r.1.setAddr i.castSucc 0, fs) else some r) (ip, fs) =
            some (ip', fs') ∧ ip' = { ip with addrs := ip'.addrs } ∧ (∀ i ∈ L, ip'.addrs i.castSucc = 0) ∧
        (∀ s, (∀ i ∈ L, s ≠ i.castSucc) → ip'.addrs s = ip.addrs s) ∧
        Frees fs fs' fun c => c ≠ 0 ∧ ∃ i ∈ L, ip.addrs i.castSucc = c := by
  intro L
  induction L with
  | nil =>
    intro ip fs _ _ _
    exact ⟨ip, fs, rfl, rfl, by simp, fun _ _ => rfl, (Frees.refl fs).congr fun c => by simp⟩
  | cons i L ih =>
    intro ip fs hnd hmarked hdistinct
    obtain ⟨hi, hnd⟩ := List.nodup_cons.mp hnd
    have hslot : ∀ k ∈ L, k.castSucc ≠ i.castSucc := fun k hk heq => hi (Fin.castSucc_injective _ heq ▸ hk)
    by_cases h0 : ip.addrs i.castSucc = 0
    · obtain ⟨ip', fs', hrun, hip, hzero, hkeep, hfree⟩ := ih ip fs hnd (fun k hk => hmarked k (List.mem_cons_of_mem i hk))
        fun k hk l hl => hdistinct k (List.mem_cons_of_mem i hk) l (List.mem_cons_of_mem i hl)
      refine ⟨ip', fs', ?_, hip, fun k hk => ?_, fun s hs => hkeep s fun k hk => hs k (List.mem_cons_of_mem i hk),
        hfree.congr fun c => ?_⟩
      · rw [List.foldlM_cons]
        simp only [h0, ne_eq, not_true_eq_false, if_false]
        exact hrun
      · rcases List.mem_cons.mp hk with rfl | hk
        · rw [hkeep _ fun l hl => (hslot l hl).symm, h0]
        · exact hzero k hk
      · constructor
        · rintro ⟨hc, k, hk, hkc⟩
          exact ⟨hc, k, List.mem_cons_of_mem i hk, hkc⟩
        · rintro ⟨hc, k, hk, hkc⟩
          rcases List.mem_cons.mp hk with rfl | hk
          · exact absurd (hkc ▸ h0) hc
          · exact ⟨hc, k, hk, hkc⟩
    · obtain ⟨hlt, hused⟩ := hmarked i List.mem_cons_self h0
      obtain ⟨fs1, hfree1, hf1⟩ := bfree_frees hlt hused
      have hsame : ∀ k ∈ L, (ip.setAddr i.castSucc 0).addrs k.castSucc = ip.addrs k.castSucc := fun k hk => by
        simp [Function.update_of_ne (hslot k hk)]
      obtain ⟨ip', fs', hrun, hip, hzero, hkeep, hf2⟩ := ih (ip.setAddr i.castSucc 0) fs1 hnd
        (fun k hk hk0 => by
          rw [hsame k hk] at hk0 ⊢
          obtain ⟨hklt, hkused⟩ := hmarked k (List.mem_cons_of_mem i hk) hk0
          refine ⟨hklt, (hf1.used _ hklt).mpr ⟨hkused, fun heq => ?_⟩⟩
          -- another slot holding the block just freed would be slot `i` itself
          have := hdistinct k (List.mem_cons_of_mem i hk) i List.mem_cons_self hk0 heq
          exact hi (this ▸ hk))
        fun k hk l hl => by
          rw [hsame k hk, hsame l hl]
          exact hdistinct k (List.mem_cons_of_mem i hk) l (List.mem_cons_of_mem i hl)
      refine ⟨ip', fs', ?_, ?_, fun k hk => ?_, fun s hs => ?_, (hf1.trans hf2).congr fun c => ?_⟩
      · rw [List.foldlM_cons]
        simp only [h0, ne_eq, not_false_eq_true, if_true]
        rw [hfree1]
        exact hrun
      · rw [hip]
        rfl
      · rcases List.mem_cons.mp hk with rfl | hk
        · rw [hkeep _ fun l hl => (hslot l hl).symm]
          simp
        · exact hzero k hk
      · rw [hkeep s fun k hk => hs k (List.mem_cons_of_mem i hk)]
        simp [Function.update_of_ne (hs i List.mem_cons_self)]
      · constructor
        · rintro (rfl | ⟨hc, k, hk, hkc⟩)
          · exact ⟨h0, i, List.mem_cons_self, rfl⟩
          · exact ⟨hc, k, List.mem_cons_of_mem i hk, by rwa [hsame k hk] at hkc⟩
        · rintro ⟨hc, k, hk, hkc⟩
          rcases List.mem_cons.mp hk with rfl | hk
          · exact .inl hkc.symm
          · exact .inr ⟨hc, k, hk, by rwa [hsame k hk]⟩

/-- The addresses an inode keeps: its direct slots, the slot of its indirect block, and the entries
of that block. -/
theorem placeAddr_cases (d : Disk) (x : Dinode) (c : Nat) :
    (c ≠ 0 ∧ ∃ q, placeAddr d x q = c) ↔
      (c ≠ 0 ∧ ∃ i ∈ List.finRange nDirect, x.addrs i.castSucc = c) ∨
        (x.addrs indirectSlot ≠ 0 ∧ ((c ≠ 0 ∧ ∃ j ∈ List.range nIndirect, entry d (x.addrs indirectSlot) j = c) ∨
          c = x.addrs indirectSlot)) := by
  constructor
  · rintro ⟨hc, q, rfl⟩
    cases q with
    | addr s =>
      rcases Fin.eq_castSucc_or_eq_last s with ⟨i, rfl⟩ | rfl
      · exact .inl ⟨hc, i, List.mem_finRange i, rfl⟩
      · exact .inr ⟨hc, .inr rfl⟩
    | entry j =>
      by_cases hind : x.addrs indirectSlot = 0
      · simp [placeAddr, hind] at hc
      · simp only [placeAddr, if_neg hind] at hc ⊢
        exact .inr ⟨hind, .inl ⟨hc, j, List.mem_range.mpr j.isLt, rfl⟩⟩
  · rintro (⟨hc, i, -, rfl⟩ | ⟨hind, ⟨hc, j, hj, rfl⟩ | rfl⟩)
    · exact ⟨hc, .addr i.castSucc, rfl⟩
    · exact ⟨hc, .entry ⟨j, List.mem_range.mp hj⟩, by simp [placeAddr, hind]⟩
    · exact ⟨hind, .addr indirectSlot, rfl⟩

/-- A write-back of the inode emptied after its blocks were freed keeps the invariant. -/
theorem AllocInv.of_trunc {ip : Inode} (h : AllocInv fs) (halloc : ip.type ≠ .free)
    (hkept : ∀ q, addrAt fs (ip.inum, q) = placeAddr fs.disk ip.toDinode q)
    (hf : Frees fs fs' fun c => c ≠ 0 ∧ ∃ q, placeAddr fs.disk ip.toDinode q = c) :
    AllocInv (iupdate { ip with size := 0, addrs := fun _ => 0 } fs') := by
  refine h.of_release ip.inum (fun ⟨j, q⟩ => ?_) (fun c hc => ?_) (fun j hj => ?_) (fun j hj => ?_) fun _ => ?_
  · by_cases hj : j = ip.inum
    · -- the emptied inode keeps nothing
      subst hj
      rw [iupdate_eq, addrAt_logWrite]
      cases q <;> simp [addrAt, placeAddr, halloc]
    · rw [if_neg hj, iupdate_eq, addrAt_logWrite, @addrAt_withInode_of_ne fs' { ip with size := 0, addrs := fun _ => 0 } j hj q]
      unfold addrAt
      rw [hf.dinode]
      by_cases hfree : (fs.dinode j).type = .free
      · simp [hfree]
      · simp only [hfree, if_false]
        cases q with
        | addr k => rfl
        | entry k =>
          simp only [placeAddr]
          by_cases hz : (fs.dinode j).addrs indirectSlot = 0
          · simp [hz]
          · -- the other inode's indirect block is a data block, which freeing leaves as it was
            have hkind : addrAt fs (j, .addr indirectSlot) = (fs.dinode j).addrs indirectSlot := by
              rw [addrAt_of_alloc hfree]
              rfl
            have hdata := h.accounted.area_of_ne (j, .addr indirectSlot) (by rwa [hkind])
            rw [hkind] at hdata
            simp only [hz, if_false, entry]
            rw [hf.disk _ (by have := bmapstart_lt_data; unfold InData at hdata; omega)]
  · rw [iupdate_eq, FsState.logWrite_disk, FsState.withInode_disk, hf.used c hc]
    constructor
    · rintro ⟨hu, hnot⟩
      exact ⟨hu, fun q hq heq => hnot ⟨heq ▸ hq, q, by rw [← hkept, heq]⟩⟩
    · rintro ⟨hu, hnot⟩
      refine ⟨hu, fun ⟨hc0, q, hq⟩ => hnot q (by rwa [hkept, hq]) (by rw [hkept, hq])⟩
  · simp [iupdate_eq, Function.update_of_ne hj, hf.dinode]
  · simp [iupdate_eq, Function.update_of_ne hj, hf.dinode]
  · simp [iupdate_eq]

/-- `itrunc` of an allocated in-memory inode that has the shape of its on-disk inode does not reach the
panic of `bfree`: it frees every block the inode keeps, empties the inode, and keeps the invariant. -/
theorem AllocInv.itrunc {ip : Inode} (h : AllocInv fs) (hshape : (fs.dinode ip.inum).shape = ip.shape)
    (halloc : ip.type ≠ .free) :
    ∃ fs', Fs.itrunc ip fs = some ({ ip with size := 0, addrs := fun _ => 0 }, fs') ∧ AllocInv fs' ∧
      fs'.dinode = Function.update fs.dinode ip.inum { ip.toDinode with size := 0, addrs := fun _ => 0 } := by
  simp only [Dinode.shape, Prod.mk.injEq] at hshape
  obtain ⟨htype, -, haddrs⟩ := hshape
  -- what the invariant says of the inode's own addresses: marked data blocks, all distinct
  have hkept : ∀ q, addrAt fs (ip.inum, q) = placeAddr fs.disk ip.toDinode q := fun q => by
    rw [addrAt_of_alloc (by rwa [htype])]
    cases q <;> simp [placeAddr, haddrs]
  have hdata : ∀ q, placeAddr fs.disk ip.toDinode q ≠ 0 → InData (placeAddr fs.disk ip.toDinode q) := fun q hq => by
    have := h.accounted.area_of_ne (ip.inum, q) (by rwa [hkept])
    rwa [hkept] at this
  have hmarked : ∀ q, placeAddr fs.disk ip.toDinode q ≠ 0 → inUse fs.disk (placeAddr fs.disk ip.toDinode q) = true :=
    fun q hq => by
      have := h.accounted.used_of_ne (ip.inum, q) (by rwa [hkept])
      rwa [hkept] at this
  have hdistinct : ∀ q q', placeAddr fs.disk ip.toDinode q ≠ 0 →
      placeAddr fs.disk ip.toDinode q = placeAddr fs.disk ip.toDinode q' → q = q' := fun q q' hq heq => by
    have := h.accounted.inj (ip.inum, q) (ip.inum, q') (by rwa [hkept]) (by rw [hkept, hkept, heq])
    exact (Prod.ext_iff.mp this).2
  -- the direct blocks
  obtain ⟨ip1, fs1, hrun1, hip1, hzero1, hkeep1, hf1⟩ := truncDirect_frees (List.finRange nDirect) ip fs
    (List.nodup_finRange _) (fun i _ hi => ⟨(hdata (.addr i.castSucc) hi).2, hmarked (.addr i.castSucc) hi⟩)
    fun i _ k _ hi heq => Fin.castSucc_injective _ (Place.addr.inj (hdistinct (.addr _) (.addr _) hi heq))
  have htd : truncDirect ip fs = some (ip1, fs1) := hrun1
  have hind1 : ip1.addrs indirectSlot = ip.addrs indirectSlot :=
    hkeep1 _ fun i _ => (Fin.castSucc_ne_last i).symm
  have hdirect : ∀ i : Fin nDirect, ip1.addrs i.castSucc = 0 := fun i => hzero1 i (List.mem_finRange i)
  by_cases hind : ip.addrs indirectSlot = 0
  · -- no indirect block: the direct blocks were all
    have hempty : ip1.addrs = fun _ => 0 := by
      funext s
      rcases Fin.eq_castSucc_or_eq_last s with ⟨i, rfl⟩ | rfl
      · exact hdirect i
      · exact hind1.trans hind
    have hres : { ip1 with size := 0 } = { ip with size := 0, addrs := fun _ => 0 } := by
      rw [hip1, hempty]
    refine ⟨iupdate { ip with size := 0, addrs := fun _ => 0 } fs1, ?_, h.of_trunc halloc hkept (hf1.congr fun c => ?_), ?_⟩
    · unfold Fs.itrunc
      rw [htd]
      simp only [hind1, hind, ne_eq, not_true_eq_false, if_false, Option.map_some, hres]
    · rw [placeAddr_cases]
      simp [hind]
    · simp [iupdate_eq, hf1.dinode]
  · -- the entries of the indirect block, then the indirect block itself
    have hinddata := hdata (.addr indirectSlot) hind
    have hindne : ip.addrs indirectSlot ≠ sb.bmapstart := by
      have := bmapstart_lt_data
      unfold InData at hinddata
      exact fun heq => by simp only [placeAddr] at hinddata; omega
    have hentry1 : ∀ j, entry fs1.disk (ip.addrs indirectSlot) j = entry fs.disk (ip.addrs indirectSlot) j := fun j => by
      simp only [entry, hf1.disk _ hindne]
    have hplace : ∀ j : Fin nIndirect, entry fs.disk (ip.addrs indirectSlot) j = placeAddr fs.disk ip.toDinode (.entry j) :=
      fun j => by simp [placeAddr, hind]
    obtain ⟨fs2, hrun2, hf2⟩ := truncIndirect_frees hindne (List.range nIndirect) fs1 List.nodup_range
      (fun j hj hj0 => by
        have hjl := List.mem_range.mp hj
        rw [hentry1, hplace ⟨j, hjl⟩] at hj0 ⊢
        refine ⟨(hdata _ hj0).2, (hf1.used _ (hdata _ hj0).2).mpr ⟨hmarked _ hj0, ?_⟩⟩
        -- an entry is no direct slot
        rintro ⟨-, i, -, hi⟩
        exact Place.noConfusion (hdistinct _ (.addr i.castSucc) hj0 hi.symm))
      fun j hj k hk hj0 heq => by
        rw [hentry1, hentry1, hplace ⟨j, List.mem_range.mp hj⟩, hplace ⟨k, List.mem_range.mp hk⟩] at *
        exact congrArg Fin.val (Place.entry.inj (hdistinct _ _ hj0 heq))
    have hti : truncIndirect (ip.addrs indirectSlot) fs1 = some fs2 := hrun2
    obtain ⟨fs3, hfree3, hf3⟩ := bfree_frees hinddata.2 (by
      refine (hf2.used _ hinddata.2).mpr ⟨(hf1.used _ hinddata.2).mpr ⟨hmarked _ hind, ?_⟩, ?_⟩
      · -- the indirect block is no direct slot
        rintro ⟨-, i, -, hi⟩
        exact Fin.castSucc_ne_last i (Place.addr.inj (hdistinct (.addr indirectSlot) (.addr i.castSucc) hind hi.symm)).symm
      · rintro ⟨-, j, hj, hj'⟩
        rw [hentry1, hplace ⟨j, List.mem_range.mp hj⟩] at hj'
        exact Place.noConfusion (hdistinct (.addr indirectSlot) _ hind hj'.symm))
    have hres : { ip1.setAddr indirectSlot 0 with size := 0 } = { ip with size := 0, addrs := fun _ => 0 } := by
      have hempty : Function.update ip1.addrs indirectSlot 0 = fun _ => 0 := by
        funext s
        rcases Fin.eq_castSucc_or_eq_last s with ⟨i, rfl⟩ | rfl
        · have hne : i.castSucc ≠ indirectSlot := Fin.castSucc_ne_last i
          rw [Function.update_of_ne hne, hdirect i]
        · exact Function.update_self ..
      rw [Inode.setAddr, hip1]
      simp only [hempty]
    have hall : Frees fs fs3 fun c => c ≠ 0 ∧ ∃ q, placeAddr fs.disk ip.toDinode q = c := (hf1.trans (hf2.trans hf3)).congr fun c => by
      rw [placeAddr_cases]
      simp only [hentry1]
      exact ⟨fun hc => hc.imp id fun hc => ⟨hind, hc⟩, fun hc => hc.imp id fun hc => hc.2⟩
    refine ⟨iupdate { ip with size := 0, addrs := fun _ => 0 } fs3, ?_, h.of_trunc halloc hkept hall, ?_⟩
    · unfold Fs.itrunc
      rw [htd]
      simp only [hind1, ne_eq, hind, not_false_eq_true, if_true, hti, Option.bind_some]
      rw [show bfree fs2 (ip.addrs indirectSlot) = some fs3 from hfree3]
      simp only [Option.map_some, hres]
    · simp [iupdate_eq, hf1.dinode, hf2.dinode, hf3.dinode]

end Itrunc

end Xv6.Fs
