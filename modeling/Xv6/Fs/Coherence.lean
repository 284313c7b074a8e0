import Xv6.Fs.Alloc
import Xv6.Fs.Itable

/-!
# The inode table against the disk

A system call reaches the disk through the slots of `itable`: `writei`, `itrunc` and `iupdate` take the
slot's copy of the inode, not the disk's. The allocation invariant of the disk (`AllocInv`) therefore
survives a call only if every copy they are given is the disk's inode, and that rests on the inode
table: a slot that is loaded and referenced holds the on-disk inode, which is allocated; no two
referenced slots hold one inode, so that writing back one copy cannot leave another stale; and no slot
that someone still uses loses its last reference, which would let `iget` hand it to another inode or
let `idup` revive a stale copy.

`TableInv s need` says this of a state in the middle of a call, where `need i` counts the references
to slot `i` that somebody holds: the current directories and open files, and the pointers the call
itself has taken. Every operation of the inode table is specified by how it moves `need`: `iget` and
`idup` add a reference, `iput` consumes one, and the others keep it. `Frame need` records what an
operation leaves alone: the slots somebody holds keep their inode and stay loaded, and neither the
open files nor the processes change.
-/

namespace Xv6.Fs

open Vm

section Slots

variable (s : Sys) (ip : Iptr)

@[simp] theorem Sys.setSlot_itable (e : Slot) : (s.setSlot ip e).itable = Function.update s.itable ip e := rfl

@[simp] theorem Sys.setSlot_fs (e : Slot) : (s.setSlot ip e).fs = s.fs := rfl

@[simp] theorem Sys.setSlot_ftable (e : Slot) : (s.setSlot ip e).ftable = s.ftable := rfl

@[simp] theorem Sys.setSlot_proc (e : Slot) : (s.setSlot ip e).proc = s.proc := rfl

@[simp] theorem Sys.setFs_fs (fs : FsState) : (s.setFs fs).fs = fs := rfl

@[simp] theorem Sys.setFs_itable (fs : FsState) : (s.setFs fs).itable = s.itable := rfl

@[simp] theorem Sys.setFs_ftable (fs : FsState) : (s.setFs fs).ftable = s.ftable := rfl

@[simp] theorem Sys.setFs_proc (fs : FsState) : (s.setFs fs).proc = s.proc := rfl

@[simp] theorem Sys.inode_toDinode : (s.inode ip).toDinode = (s.itable ip).copy := rfl

@[simp] theorem Sys.inode_inum : (s.inode ip).inum = (s.itable ip).inum := rfl

theorem Sys.setInode_eq (x : Inode) : s.setInode ip x = s.setSlot ip { s.itable ip with copy := x.toDinode } := rfl

theorem Sys.setFs_setSlot (fs : FsState) (e : Slot) : (s.setFs fs).setSlot ip e = (s.setSlot ip e).setFs fs := rfl

/-- Storing a slot's own copy back changes nothing: what `dirlookup` does after a walk that changed
nothing. -/
theorem Sys.setInode_self : s.setInode ip (s.inode ip) = s := by
  rw [Sys.setInode_eq, Sys.inode_toDinode]
  simp [Sys.setSlot]

theorem Sys.setFs_self : s.setFs s.fs = s := rfl

end Slots

/-- Slot `i` holds a loaded inode that someone references. -/
def Sys.Loaded (s : Sys) (i : Iptr) : Prop := 0 < (s.itable i).ref ∧ (s.itable i).valid = true

/-- The invariant of the inode table and the disk in the middle of a call, when slot `i` has `need i`
references that somebody holds. -/
structure TableInv (s : Sys) (need : Iptr → Nat) : Prop where
  /-- The disk keeps the allocation invariant. -/
  alloc : AllocInv s.fs
  /-- A loaded slot with references holds the on-disk inode, which is allocated. -/
  loaded : ∀ i, s.Loaded i → (s.itable i).copy = s.fs.dinode (s.itable i).inum ∧ (s.itable i).copy.type ≠ .free
  /-- No two slots with references hold one inode. -/
  unique : ∀ i j, 0 < (s.itable i).ref → 0 < (s.itable j).ref → (s.itable i).inum = (s.itable j).inum → i = j
  /-- Every slot has the references somebody holds. -/
  enough : ∀ i, need i ≤ (s.itable i).ref

/-- What an operation of the inode table leaves alone: the slots of `need` keep their inode and stay
loaded, and the open files and the processes do not change. -/
structure Frame (need : Iptr → Nat) (s s' : Sys) : Prop where
  inum : ∀ i, 0 < need i → (s'.itable i).inum = (s.itable i).inum
  valid : ∀ i, 0 < need i → (s.itable i).valid = true → (s'.itable i).valid = true
  ftable : s'.ftable = s.ftable
  proc : s'.proc = s.proc

/-- The reference a call holds through a pointer it may have got. -/
def hold : Option Iptr → Iptr → Nat
  | some i => Pi.single i 1
  | none => 0

@[simp] theorem hold_some (i : Iptr) : hold (some i) = Pi.single i 1 := rfl

@[simp] theorem hold_none : hold none = 0 := rfl

section Basic

variable {s s' s'' : Sys} {need need' : Iptr → Nat}

theorem Frame.refl (need : Iptr → Nat) (s : Sys) : Frame need s s :=
  ⟨fun _ _ => rfl, fun _ _ hv => hv, rfl, rfl⟩

theorem Frame.trans (h : Frame need s s') (h' : Frame need s' s'') : Frame need s s'' where
  inum i hi := (h'.inum i hi).trans (h.inum i hi)
  valid i hi hv := h'.valid i hi (h.valid i hi hv)
  ftable := h'.ftable.trans h.ftable
  proc := h'.proc.trans h.proc

theorem Frame.mono (h : Frame need s s') (hle : ∀ i, need' i ≤ need i) : Frame need' s s' where
  inum i hi := h.inum i (by have := hle i; omega)
  valid i hi := h.valid i (by have := hle i; omega)
  ftable := h.ftable
  proc := h.proc

theorem TableInv.mono (h : TableInv s need) (hle : ∀ i, need' i ≤ need i) : TableInv s need' :=
  ⟨h.alloc, h.loaded, h.unique, fun i => (hle i).trans (h.enough i)⟩

/-- A slot somebody holds has a reference. -/
theorem TableInv.ref_pos (h : TableInv s need) {i : Iptr} (hi : 0 < need i) : 0 < (s.itable i).ref :=
  lt_of_lt_of_le hi (h.enough i)

/-- A loaded slot's copy as the disk sees it: the form `AllocInv`'s lemmas take. -/
theorem TableInv.dinode_eq (h : TableInv s need) {i : Iptr} (hi : s.Loaded i) :
    s.fs.dinode (s.inode i).inum = (s.inode i).toDinode :=
  (h.loaded i hi).1.symm

theorem TableInv.type_ne_free (h : TableInv s need) {i : Iptr} (hi : s.Loaded i) : (s.inode i).type ≠ .free :=
  (h.loaded i hi).2

/-- Two referenced slots with different inode numbers. -/
theorem TableInv.inum_ne (h : TableInv s need) {i j : Iptr} (hi : 0 < (s.itable i).ref) (hj : 0 < (s.itable j).ref)
    (hij : j ≠ i) : (s.itable j).inum ≠ (s.itable i).inum :=
  fun heq => hij (h.unique j i hj hi heq)

/-- Replacing slot `i` and the disk keeps the invariant when the new slot is coherent with the new
disk and holds no inode another referenced slot holds, every other loaded slot's inode is unchanged on
disk, and the references still cover `need'`. -/
theorem TableInv.setSlotFs (h : TableInv s need) {i : Iptr} {e : Slot} {fs : FsState} (halloc : AllocInv fs)
    (hloaded : 0 < e.ref → e.valid = true → e.copy = fs.dinode e.inum ∧ e.copy.type ≠ .free)
    (hunique : 0 < e.ref → ∀ j, j ≠ i → 0 < (s.itable j).ref → (s.itable j).inum ≠ e.inum)
    (hother : ∀ j, j ≠ i → s.Loaded j → fs.dinode (s.itable j).inum = s.fs.dinode (s.itable j).inum)
    (henough : need' i ≤ e.ref) (hle : ∀ j, j ≠ i → need' j ≤ need j) :
    TableInv ((s.setSlot i e).setFs fs) need' where
  alloc := halloc
  loaded j hj := by
    by_cases hji : j = i
    · subst hji
      simp only [Sys.Loaded, Sys.setFs_itable, Sys.setSlot_itable, Function.update_self] at hj ⊢
      exact hloaded hj.1 hj.2
    · simp only [Sys.Loaded, Sys.setFs_itable, Sys.setSlot_itable, Function.update_of_ne hji] at hj ⊢
      rw [Sys.setFs_fs, hother j hji hj]
      exact h.loaded j hj
  unique j k hj hk hjk := by
    simp only [Sys.setFs_itable, Sys.setSlot_itable] at hj hk hjk
    by_cases hji : j = i <;> by_cases hki : k = i
    · rw [hji, hki]
    · subst hji
      rw [Function.update_self, Function.update_of_ne hki] at *
      exact absurd hjk.symm (hunique hj k hki hk)
    · subst hki
      rw [Function.update_self, Function.update_of_ne hji] at *
      exact absurd hjk (hunique hk j hji hj)
    · rw [Function.update_of_ne hji, Function.update_of_ne hki] at *
      exact h.unique j k hj hk hjk
  enough j := by
    by_cases hji : j = i
    · subst hji
      simpa using henough
    · simp only [Sys.setFs_itable, Sys.setSlot_itable, Function.update_of_ne hji]
      exact (hle j hji).trans (h.enough j)

/-- Replacing slot `i` alone. -/
theorem TableInv.setSlot (h : TableInv s need) {i : Iptr} {e : Slot}
    (hloaded : 0 < e.ref → e.valid = true → e.copy = s.fs.dinode e.inum ∧ e.copy.type ≠ .free)
    (hunique : 0 < e.ref → ∀ j, j ≠ i → 0 < (s.itable j).ref → (s.itable j).inum ≠ e.inum)
    (henough : need' i ≤ e.ref) (hle : ∀ j, j ≠ i → need' j ≤ need j) :
    TableInv (s.setSlot i e) need' :=
  h.setSlotFs h.alloc hloaded hunique (fun _ _ _ => rfl) henough hle

/-- Replacing the disk alone. -/
theorem TableInv.setFs (h : TableInv s need) {fs : FsState} (halloc : AllocInv fs)
    (hother : ∀ j, s.Loaded j → fs.dinode (s.itable j).inum = s.fs.dinode (s.itable j).inum) :
    TableInv (s.setFs fs) need :=
  ⟨halloc, fun j hj => by rw [Sys.setFs_fs, Sys.setFs_itable, hother j hj]; exact h.loaded j hj, h.unique, h.enough⟩

/-- A new slot `i` keeps the inode and the loaded state of the old one while somebody holds it. -/
theorem Frame.setSlotFs {i : Iptr} {e : Slot} (fs : FsState)
    (hkeep : 0 < need i → e.inum = (s.itable i).inum ∧ ((s.itable i).valid = true → e.valid = true)) :
    Frame need s ((s.setSlot i e).setFs fs) where
  inum j hj := by
    by_cases hji : j = i
    · subst hji
      simpa using (hkeep hj).1
    · simp [Function.update_of_ne hji]
  valid j hj hv := by
    by_cases hji : j = i
    · subst hji
      simpa using (hkeep hj).2 hv
    · simpa [Function.update_of_ne hji] using hv
  ftable := rfl
  proc := rfl

theorem Frame.setSlot {i : Iptr} {e : Slot}
    (hkeep : 0 < need i → e.inum = (s.itable i).inum ∧ ((s.itable i).valid = true → e.valid = true)) :
    Frame need s (s.setSlot i e) :=
  Frame.setSlotFs s.fs hkeep

theorem Frame.setFs (fs : FsState) : Frame need s (s.setFs fs) :=
  ⟨fun _ _ => rfl, fun _ _ hv => hv, rfl, rfl⟩

end Basic

section Refs

variable {s s' : Sys} {need : Iptr → Nat}

/-- One more reference to a referenced slot: `idup`, and `iget` of an inode a slot holds. -/
theorem TableInv.addRef (h : TableInv s need) {i : Iptr} (hpos : 0 < (s.itable i).ref) :
    TableInv (s.setSlot i { s.itable i with ref := (s.itable i).ref + 1 }) (need + Pi.single i 1) ∧
      Frame need s (s.setSlot i { s.itable i with ref := (s.itable i).ref + 1 }) := by
  refine ⟨h.setSlot (fun _ hv => h.loaded i ⟨hpos, hv⟩) (fun _ j hji hj => h.inum_ne hpos hj hji) ?_ ?_,
    Frame.setSlot fun _ => ⟨rfl, id⟩⟩
  · simpa using h.enough i
  · intro j hji
    simp [hji]

theorem TableInv.idup (h : TableInv s need) {ip : Iptr} (hpos : 0 < (s.itable ip).ref) :
    TableInv (Fs.idup s ip) (need + Pi.single ip 1) ∧ Frame need s (Fs.idup s ip) ∧ (Fs.idup s ip).fs = s.fs :=
  ⟨(h.addRef hpos).1, (h.addRef hpos).2, rfl⟩

/-- `iget` gives a slot holding `inum`, with one more reference, and changes no slot somebody holds
but that one's count. -/
theorem TableInv.iget (h : TableInv s need) {inum : Nat} {i : Iptr} (hget : Fs.iget s inum = some (i, s')) :
    TableInv s' (need + Pi.single i 1) ∧ Frame need s s' ∧ (s'.itable i).inum = inum ∧ s'.fs = s.fs := by
  unfold Fs.iget at hget
  cases hfind : (List.finRange ninode).find? (fun i => 0 < (s.itable i).ref && (s.itable i).inum == inum) with
  | some j =>
    -- a slot already holds the inode
    simp only [hfind, Option.some.injEq, Prod.mk.injEq] at hget
    obtain ⟨rfl, rfl⟩ := hget
    have hj := List.find?_some hfind
    simp only [Bool.and_eq_true, decide_eq_true_eq, beq_iff_eq] at hj
    exact ⟨(h.addRef hj.1).1, (h.addRef hj.1).2, by simpa using hj.2, rfl⟩
  | none =>
    cases hfree : (List.finRange ninode).find? (fun i => (s.itable i).ref == 0) with
    | none => simp [hfind, hfree] at hget
    | some j =>
      -- a free slot, not loaded, takes the inode; no referenced slot holds it
      simp only [hfind, hfree, Option.some.injEq, Prod.mk.injEq] at hget
      obtain ⟨rfl, rfl⟩ := hget
      have hj : (s.itable j).ref = 0 := by simpa using List.find?_some hfree
      have hnot : ∀ k, 0 < (s.itable k).ref → (s.itable k).inum ≠ inum := by
        intro k hk heq
        have := List.find?_eq_none.mp hfind k (List.mem_finRange k)
        simp [hk, heq] at this
      have hzero : need j = 0 := by have := h.enough j; omega
      refine ⟨h.setSlot (fun _ hv => by simp at hv) (fun _ k _ hk => hnot k hk) ?_ ?_,
        Frame.setSlot fun hi => absurd hzero (by omega), by simp, rfl⟩
      · simp [hzero]
      · intro k hki
        simp [hki]

/-- `ilock` loads the slot from the disk when it is not loaded, and leaves it loaded. -/
theorem TableInv.ilock (h : TableInv s need) {ip : Iptr} (hlock : Fs.ilock s ip = some s') :
    TableInv s' need ∧ Frame need s s' ∧ s'.Loaded ip ∧ (s'.itable ip).inum = (s.itable ip).inum ∧ s'.fs = s.fs := by
  unfold Fs.ilock at hlock
  by_cases href : (s.itable ip).ref < 1
  · simp [href] at hlock
  by_cases hvalid : (s.itable ip).valid = true
  · simp only [href, hvalid, if_false, if_true, Option.some.injEq] at hlock
    subst hlock
    exact ⟨h, Frame.refl need s, ⟨by omega, hvalid⟩, rfl, rfl⟩
  by_cases hfree : (s.fs.dinode (s.itable ip).inum).type = .free
  · simp [href, hvalid, hfree] at hlock
  simp only [href, hvalid, hfree, if_false, Option.some.injEq, Bool.false_eq_true] at hlock
  subst hlock
  have hpos : 0 < (s.itable ip).ref := by omega
  refine ⟨h.setSlot (fun _ _ => ⟨rfl, hfree⟩) (fun _ j hji hj => h.inum_ne hpos hj hji) (by simpa using h.enough ip)
    (fun _ _ => le_rfl), Frame.setSlot fun _ => ⟨rfl, fun _ => rfl⟩, ⟨by simpa using hpos, by simp⟩, by simp, rfl⟩

/-- `iput` consumes one reference. The last reference to a loaded inode with no links truncates it,
which never panics, and frees it on the disk and in the table. -/
theorem TableInv.iput (h : TableInv s (need + Pi.single ip 1)) (hput : Fs.iput s ip = some s') :
    TableInv s' need ∧ Frame need s s' := by
  have hpos : 0 < (s.itable ip).ref := by have := h.enough ip; simp at this; omega
  unfold Fs.iput at hput
  by_cases hlast : (s.itable ip).ref = 1 ∧ (s.itable ip).valid = true ∧ (s.itable ip).copy.nlink = 0
  · rw [if_pos hlast] at hput
    obtain ⟨hcopy, halloc⟩ := h.loaded ip ⟨hpos, hlast.2.1⟩
    obtain ⟨fs1, htrunc, h1, hdin⟩ := h.alloc.itrunc
      (show (s.fs.dinode (s.inode ip).inum).shape = (s.inode ip).shape by simp [hcopy]) halloc
    rw [htrunc] at hput
    simp only [Option.some.injEq] at hput
    subst hput
    rw [Sys.setFs_setSlot]
    -- nobody else holds the slot, whose inode is now free
    have hzero : need ip = 0 := by have := h.enough ip; simp [hlast.1] at this; omega
    have hempty : ∀ q, addrAt fs1 ((s.itable ip).inum, q) = 0 :=
      addrAt_of_empty (by rw [hdin]; simp)
    have halloc2 := ((h1.setEmpty hempty (x := { (s.inode ip).toDinode with size := 0, addrs := fun _ => 0, type := .free })
      rfl (fun h => absurd rfl h)).logWrite (iblock (s.itable ip).inum))
    refine ⟨h.setSlotFs halloc2 (fun hr => by simp at hr) (fun hr => by simp at hr) (fun j hji hj => ?_) (by simp [hzero])
      (fun j _ => by simp), Frame.setSlotFs _ fun hi => absurd hzero (by omega)⟩
    have hne := h.inum_ne hpos hj.1 hji
    simp [iupdate_eq, Function.update_of_ne hne, hdin]
  · rw [if_neg hlast] at hput
    simp only [Option.some.injEq] at hput
    subst hput
    refine ⟨h.setSlot (fun hr hv => h.loaded ip ⟨hpos, hv⟩) (fun _ j hji hj => h.inum_ne hpos hj hji) ?_
      (fun j hji => by simp [hji]), Frame.setSlot fun _ => ⟨rfl, id⟩⟩
    have := h.enough ip
    simp at this ⊢
    omega

/-- `ialloc` marks a free on-disk inode allocated, without addresses, and gets a slot for it. -/
theorem TableInv.ialloc (h : TableInv s need) {type : IType} {r : Option Iptr} (halloc : Fs.ialloc s type = some (r, s')) :
    TableInv s' (need + hold r) ∧ Frame need s s' := by
  unfold Fs.ialloc at halloc
  cases hfind : (List.range sb.ninodes).find? (fun inum => 1 ≤ inum && (s.fs.dinode inum).type == .free) with
  | none =>
    simp only [hfind, Option.some.injEq, Prod.mk.injEq] at halloc
    obtain ⟨rfl, rfl⟩ := halloc
    simpa using ⟨h, Frame.refl need s⟩
  | some inum =>
    simp only [hfind] at halloc
    have hfree : (s.fs.dinode inum).type = .free := by
      have := List.find?_some hfind
      simp only [Bool.and_eq_true, beq_iff_eq] at this
      exact this.2
    -- the inode was free, so no loaded slot holds it and it keeps no address
    have hloaded : ∀ j, s.Loaded j → (s.itable j).inum ≠ inum := fun j hj heq =>
      (h.loaded j hj).2 (by rw [(h.loaded j hj).1, heq, hfree])
    have h1 : TableInv (s.setFs ((({ s.fs with dinode :=
        (Function.update s.fs.dinode inum { zeroDinode with type := type }) } : FsState)).logWrite (iblock inum))) need :=
      h.setFs ((h.alloc.setEmpty (addrAt_of_free hfree) rfl fun _ => rfl).logWrite _)
        fun j hj => by simp [Function.update_of_ne (hloaded j hj)]
    cases hget : Fs.iget (s.setFs ((({ s.fs with dinode :=
        (Function.update s.fs.dinode inum { zeroDinode with type := type }) } : FsState)).logWrite (iblock inum))) inum with
    | none => simp [hget] at halloc
    | some res =>
      obtain ⟨i, s2⟩ := res
      simp only [hget, Option.map_some, Option.some.injEq, Prod.mk.injEq] at halloc
      obtain ⟨rfl, rfl⟩ := halloc
      obtain ⟨h2, f2, -, -⟩ := h1.iget hget
      exact ⟨by simpa using h2, (Frame.setFs _).trans f2⟩

end Refs

section Disk

variable {fs fs' : FsState} {dp d : Inode}

/-- Reading an entry of a directory whose copy is the disk's changes neither the copy nor the disk. -/
theorem AllocInv.readDirent (h : AllocInv fs) (hcopy : fs.dinode dp.inum = dp.toDinode) (halloc : dp.type ≠ .free)
    {off : Nat} {de : List UInt8} (hread : Fs.readDirent dp off fs = some (de, d, fs')) : d = dp ∧ fs' = fs := by
  obtain ⟨r, mem', hr⟩ := h.readi hcopy halloc false 0 (UInt32.ofNat off) (UInt32.ofNat direntSize) (direntMem [])
  unfold Fs.readDirent at hread
  rw [hr] at hread
  by_cases hfull : r = direntSize
  · simp only [hfull, if_true, Option.some.injEq, Prod.mk.injEq] at hread
    exact ⟨hread.2.1.symm, hread.2.2.symm⟩
  · simp [hfull] at hread

/-- The walk over the entries of a directory whose copy is the disk's changes neither the copy nor
the disk: under the invariant no lookup allocates a block. -/
theorem AllocInv.scanDir (h : AllocInv fs) (hcopy : fs.dinode dp.inum = dp.toDinode) (halloc : dp.type ≠ .free)
    {stop : List UInt8 → Bool} :
    ∀ {fuel off : Nat} {r : Option (List UInt8)} {off' : Nat},
      Fs.scanDir stop fuel off dp fs = some (r, off', d, fs') → d = dp ∧ fs' = fs := by
  intro fuel
  induction fuel with
  | zero =>
    intro off r off' hscan
    simp only [Fs.scanDir, Option.some.injEq, Prod.mk.injEq] at hscan
    exact ⟨hscan.2.2.1.symm, hscan.2.2.2.symm⟩
  | succ fuel ih =>
    intro off r off' hscan
    by_cases hoff : off < dp.size
    · cases hread : Fs.readDirent dp off fs with
      | none => simp [Fs.scanDir, hoff, hread] at hscan
      | some res =>
        obtain ⟨de, d1, fs1⟩ := res
        obtain ⟨rfl, rfl⟩ := h.readDirent hcopy halloc hread
        simp only [Fs.scanDir, if_pos hoff, hread] at hscan
        by_cases hstop : stop de = true
        · simp only [hstop, if_true, Option.some.injEq, Prod.mk.injEq] at hscan
          exact ⟨hscan.2.2.1.symm, hscan.2.2.2.symm⟩
        · simp only [hstop, Bool.false_eq_true, if_false] at hscan
          exact ih hscan
    · simp only [Fs.scanDir, if_neg hoff, Option.some.injEq, Prod.mk.injEq] at hscan
      exact ⟨hscan.2.2.1.symm, hscan.2.2.2.symm⟩

end Disk

section Loaded

variable {s s' : Sys} {need : Iptr → Nat} {ip : Iptr}

theorem Sys.iupdate_eq (s : Sys) (ip : Iptr) : s.iupdate ip = s.setFs (Fs.iupdate (s.inode ip) s.fs) := rfl

/-- A walk over a loaded directory changes nothing. -/
theorem TableInv.scanDir (h : TableInv s need) (hip : s.Loaded ip) {stop : List UInt8 → Bool} {fuel off : Nat}
    {r : Option (List UInt8)} {off' : Nat} {d : Inode} {fs : FsState}
    (hscan : Fs.scanDir stop fuel off (s.inode ip) s.fs = some (r, off', d, fs)) : d = s.inode ip ∧ fs = s.fs :=
  h.alloc.scanDir (h.dinode_eq hip) (h.type_ne_free hip) hscan

/-- `writei` through a loaded slot: the slot gets the new copy, which the disk then holds. -/
theorem TableInv.writei (h : TableInv s need) (hip : s.Loaded ip) {user_src : Bool} {src : Nat} {off n : UInt32}
    {mem : Memory} {r : Int} {d : Inode} {fs : FsState}
    (hw : Fs.writei (s.inode ip) user_src src off n s.fs mem = some (r, d, fs)) :
    TableInv ((s.setInode ip d).setFs fs) need ∧ Frame need s ((s.setInode ip d).setFs fs) := by
  obtain ⟨h1, hd, hdin, hother⟩ := h.alloc.writei (h.dinode_eq hip) (h.type_ne_free hip) hw
  have htype : d.type = (s.inode ip).type := by rw [hd]
  rw [Sys.setInode_eq]
  refine ⟨h.setSlotFs h1 (fun _ _ => ⟨hdin.symm, show d.type ≠ .free by rw [htype]; exact h.type_ne_free hip⟩)
    (fun _ j hji hj => h.inum_ne hip.1 hj hji) (fun j hji hj => hother _ (h.inum_ne hip.1 hj.1 hji))
    (h.enough ip) (fun _ _ => le_rfl), Frame.setSlotFs _ fun _ => ⟨rfl, id⟩⟩

/-- `itrunc` through a loaded slot: it does not panic, and the slot gets the emptied copy, which the
disk then holds. -/
theorem TableInv.itrunc (h : TableInv s need) (hip : s.Loaded ip) {x : Inode} {fs : FsState}
    (ht : Fs.itrunc (s.inode ip) s.fs = some (x, fs)) :
    TableInv ((s.setInode ip x).setFs fs) need ∧ Frame need s ((s.setInode ip x).setFs fs) := by
  obtain ⟨fs1, htrunc, h1, hdin⟩ := h.alloc.itrunc (congrArg Dinode.shape (h.dinode_eq hip)) (h.type_ne_free hip)
  rw [htrunc, Option.some.injEq, Prod.mk.injEq] at ht
  obtain ⟨rfl, rfl⟩ := ht
  rw [Sys.setInode_eq]
  refine ⟨h.setSlotFs h1 (fun _ _ => ⟨by simp [hdin], h.type_ne_free hip⟩) (fun _ j hji hj => h.inum_ne hip.1 hj hji)
    (fun j hji hj => by simp [hdin, Function.update_of_ne (h.inum_ne hip.1 hj.1 hji)]) (h.enough ip)
    (fun _ _ => le_rfl), Frame.setSlotFs _ fun _ => ⟨rfl, id⟩⟩

/-- A change of a loaded slot's copy that keeps its shape (its links or device numbers), written back
at once with `iupdate`. -/
theorem TableInv.update (h : TableInv s need) (hip : s.Loaded ip) {x : Inode} (hx : x.inum = (s.itable ip).inum)
    (hshape : x.shape = (s.inode ip).shape) :
    TableInv ((s.setInode ip x).iupdate ip) need ∧ Frame need s ((s.setInode ip x).iupdate ip) := by
  have hcopy := h.dinode_eq hip
  have hx' : (s.setInode ip x).inode ip = x := by
    simp only [Sys.inode, Sys.setInode_eq, Sys.setSlot_itable, Function.update_self]
    rw [← hx]
  have h1 : AllocInv (Fs.iupdate x s.fs) := by
    rw [iupdate_eq]
    refine (h.alloc.withInode ?_).logWrite _
    rw [hx, hshape, ← Sys.inode_inum, hcopy]
  rw [Sys.iupdate_eq, hx', Sys.setInode_eq]
  refine ⟨h.setSlotFs h1 (fun _ _ => ⟨by simp [iupdate_eq, ← hx], ?_⟩) (fun _ j hji hj => h.inum_ne hip.1 hj hji)
    (fun j hji hj => by simp [iupdate_eq, hx, Function.update_of_ne (h.inum_ne hip.1 hj.1 hji)]) (h.enough ip)
    (fun _ _ => le_rfl), Frame.setSlotFs _ fun _ => ⟨rfl, id⟩⟩
  have htype : x.type = (s.inode ip).type := congrArg Prod.fst hshape
  exact htype ▸ h.type_ne_free hip

/-- `isdirempty` of a loaded directory changes nothing. -/
theorem TableInv.isdirempty (h : TableInv s need) (hip : s.Loaded ip) {b : Bool} {d : Inode} {fs : FsState}
    (he : Fs.isdirempty (s.inode ip) s.fs = some (b, d, fs)) : d = s.inode ip ∧ fs = s.fs := by
  unfold Fs.isdirempty at he
  obtain ⟨⟨found, off, d1, fs1⟩, hscan, heq⟩ := Option.map_eq_some_iff.mp he
  simp only [Prod.mk.injEq] at heq
  obtain ⟨-, rfl, rfl⟩ := heq
  exact h.scanDir hip hscan

end Loaded

section Lookup

variable {s s' : Sys} {need : Iptr → Nat}

/-- A caller's references cover those it keeps. -/
theorem le_add_need (need f : Iptr → Nat) (i : Iptr) : need i ≤ (need + f) i := Nat.le_add_right _ _

/-- `dirlookup` in a loaded directory changes nothing but the reference `iget` adds for the inode it
finds. -/
theorem TableInv.dirlookup (h : TableInv s need) {dp : Iptr} (hdp : s.Loaded dp) {name : List UInt8}
    {r : Option (Iptr × Nat)} (hlook : Fs.dirlookup s dp name = some (r, s')) :
    TableInv s' (need + hold (r.map Prod.fst)) ∧ Frame need s s' := by
  unfold Fs.dirlookup at hlook
  dsimp only at hlook
  -- `split_ifs` discharges the panic on a file that is not a directory; the walk over the directory
  -- changes nothing, and what it found decides the rest
  split_ifs at hlook with hdir
  split at hlook
  · cases hlook
  · rename_i off d fs hscan
    obtain ⟨rfl, rfl⟩ := h.scanDir hdp hscan
    rw [Sys.setInode_self, Sys.setFs_self, Option.some.injEq, Prod.mk.injEq] at hlook
    obtain ⟨rfl, rfl⟩ := hlook
    simpa using ⟨h, Frame.refl need s⟩
  · rename_i de off d fs hscan
    obtain ⟨rfl, rfl⟩ := h.scanDir hdp hscan
    rw [Sys.setInode_self, Sys.setFs_self] at hlook
    cases hget : Fs.iget s (deInum de) with
    | none => simp [hget] at hlook
    | some res =>
      obtain ⟨i, s1⟩ := res
      simp only [hget, Option.map_some, Option.some.injEq, Prod.mk.injEq] at hlook
      obtain ⟨rfl, rfl⟩ := hlook
      obtain ⟨h1, f1, -, -⟩ := h.iget hget
      exact ⟨by simpa using h1, f1⟩

/-- `dirlink` into a loaded directory the caller holds keeps the invariant and the references. -/
theorem TableInv.dirlink (h : TableInv s need) {dp : Iptr} (hheld : 0 < need dp) (hvalid : (s.itable dp).valid = true)
    {name : List UInt8} {inum : Nat} {r : Int} (hlink : Fs.dirlink s dp name inum = some (r, s')) :
    TableInv s' need ∧ Frame need s s' := by
  have hdp : s.Loaded dp := ⟨h.ref_pos hheld, hvalid⟩
  unfold Fs.dirlink at hlink
  cases hlook : Fs.dirlookup s dp name with
  | none => simp [hlook] at hlink
  | some res =>
    obtain ⟨found, s1⟩ := res
    obtain ⟨h1, f1⟩ := h.dirlookup hdp hlook
    cases found with
    | some res =>
      -- the name is present: put the inode `dirlookup` found
      obtain ⟨ip, off⟩ := res
      cases hput : Fs.iput s1 ip with
      | none => simp [hlook, hput] at hlink
      | some s2 =>
        simp only [hlook, hput, Option.map_some, Option.some.injEq, Prod.mk.injEq] at hlink
        obtain ⟨-, rfl⟩ := hlink
        obtain ⟨h2, f2⟩ := TableInv.iput (by simpa using h1) hput
        exact ⟨h2, f1.trans f2⟩
    | none =>
      simp only [Option.map_none, hold_none, add_zero] at h1
      -- the walk for a free entry changes nothing, and the entry is written with `writei`
      have hdp1 : s1.Loaded dp := ⟨h1.ref_pos hheld, f1.valid dp hheld hvalid⟩
      simp only [hlook] at hlink
      split at hlink
      · cases hlink
      · rename_i found off d fs hscan
        obtain ⟨rfl, rfl⟩ := h1.scanDir hdp1 hscan
        split at hlink
        · cases hlink
        · rename_i r' d fs hw
          simp only [Option.some.injEq, Prod.mk.injEq] at hlink
          obtain ⟨-, rfl⟩ := hlink
          obtain ⟨h2, f2⟩ := h1.writei hdp1 hw
          exact ⟨h2, f1.trans f2⟩

end Lookup

end Xv6.Fs
