import Xv6.Fs.Path
import Xv6.Fs.Links
import Xv6.Fs.SharedFile
import Xv6.Fs.Mkfs

/-!
# Path resolution: `dirlookup` and `namex` against the directory tree

What `namex` computes, said over the directories on the disk. `lookup` is a directory's first entry
in use whose name agrees with the element on its first `DIRSIZ` bytes; `resolve` looks the elements
of a path up one after another, each in the directory the ones before it lead to, and fails at a
missing element or at an inode that is not a directory; `resolveParent` stops before the last
element and returns it.

`scanDir`, reading entry after entry with `readi`, is the walk over the list of entries (`scanDir_eq`),
so `dirlookup` finds what `lookup` says (`dirlookup_spec`). `namex`'s loop keeps the disk as it is, holds
exactly one reference beyond those it found, and at each pass the inode it holds is the one the
elements taken so far lead to (`namexLoop_spec`). It needs of the tree only that every directory is
whole entries and that every entry in use names an allocated inode with links (`TreeOk`), and of the
inode table two slots without references.
-/

namespace Xv6.Fs

open Vm Bytes

section Entries

variable {fs : FsState} {dp : Inode}

/-- `readi`'s loop into kernel memory never fails: only a copy to user memory can. -/
theorem readLoop_kernel {n : Nat} :
    ∀ {fuel tot off dst : Nat} {ip : Inode} {fs : FsState} {mem : Memory} {r : Int} {x : Inode × FsState × Memory},
      readLoop false n fuel tot off dst ip fs mem = some (r, x) → r ≠ -1 := by
  intro fuel
  induction fuel with
  | zero =>
    intro tot off dst ip fs mem r x h
    simp only [readLoop, Option.some.injEq, Prod.mk.injEq] at h
    omega
  | succ fuel ih =>
    intro tot off dst ip fs mem r x h
    unfold readLoop at h
    split_ifs at h with htot
    · split at h
      · cases h
      · -- a copy into kernel memory returns `0`, so the loop goes on after each pass
        split_ifs at h with haddr
        · simp only [Option.some.injEq, Prod.mk.injEq] at h
          omega
        · exact ih h
    · simp only [Option.some.injEq, Prod.mk.injEq] at h
      omega

theorem readi_kernel {ip : Inode} {dst : Nat} {off n : UInt32} {mem : Memory} {r : Int} {x : Inode × FsState × Memory}
    (h : readi ip false dst off n fs mem = some (r, x)) : r ≠ -1 := by
  unfold readi at h
  split_ifs at h
  · simp only [Option.some.injEq, Prod.mk.injEq] at h
    omega
  · exact readLoop_kernel h
  · exact readLoop_kernel h

/-- The entry at `off` of a directory: the file's `16` bytes from there. -/
def entryAt (fs : FsState) (dp : Inode) (off : Nat) : List UInt8 :=
  (List.range direntSize).map fun j => byteAt fs dp (off + j)

/-- Reading a whole entry of a directory without holes returns the entry's bytes of the file. -/
theorem readDirent_eq (hsize : dp.size ≤ maxFile * bsize) (hholes : NoHoles fs dp) {off : Nat}
    (hoff : off + direntSize ≤ dp.size) : readDirent dp off fs = some (entryAt fs dp off, dp, fs) := by
  have hmax : maxFile * bsize + direntSize < 2 ^ 32 := by decide
  obtain ⟨r, mem', hr, -, hcount⟩ :=
    readi_spec hsize hholes false 0 (UInt32.ofNat off) (UInt32.ofNat direntSize) (direntMem [])
  have hoff' : (UInt32.ofNat off).toNat = off :=
    UInt32.toNat_ofNat_of_lt' (by rw [show UInt32.size = 2 ^ 32 from rfl]; omega)
  have hn : (UInt32.ofNat direntSize).toNat = direntSize := rfl
  rw [hoff', hn] at hcount
  obtain ⟨hr', hmem⟩ := hcount (by omega) (by omega) (readi_kernel hr)
  have hfull : r = direntSize := by rw [hr']; omega
  unfold readDirent
  rw [hr]
  dsimp only
  rw [if_pos hfull, hmem]
  -- the `16` bytes land at `0, ..., 15` of the kernel buffer
  have hbytes : ∀ j ∈ List.range direntSize,
      ((direntMem []).put false 0 (fun k => (content fs dp).getD (off + k) 0) (min direntSize (dp.size - off))).kernel j =
        byteAt fs dp (off + j) := by
    intro j hj
    rw [List.mem_range] at hj
    simp only [Memory.put, Bool.false_eq_true, if_false]
    rw [copy_of_mem (Nat.zero_le j) (by omega), Nat.sub_zero, getD_content (by omega)]
  rw [List.map_congr_left hbytes]
  rfl

end Entries

/-- The walk over a list of entries from offset `off`: the first entry `stop` accepts and its
offset, or the offset past the last entry. -/
def firstEntry (stop : List UInt8 → Bool) : List (List UInt8) → Nat → Option (List UInt8) × Nat
  | [], off => (none, off)
  | de :: des, off => if stop de then (some de, off) else firstEntry stop des (off + direntSize)

theorem firstEntry_fst (stop : List UInt8 → Bool) :
    ∀ (des : List (List UInt8)) (off : Nat), (firstEntry stop des off).1 = des.find? stop
  | [], _ => rfl
  | de :: des, off => by
    by_cases hde : stop de = true
    · rw [firstEntry, if_pos hde, List.find?_cons_of_pos hde]
    · rw [firstEntry, if_neg hde, List.find?_cons_of_neg hde, firstEntry_fst stop des]

section Scan

variable {fs : FsState} {dp : Inode}

theorem length_dirents : (dirents fs dp).length = dp.size / direntSize := by
  simp [dirents]

theorem getElem_dirents {k : Nat} (hk : k < (dirents fs dp).length) :
    (dirents fs dp)[k] = entryAt fs dp (direntSize * k) := by
  simp [dirents, entryAt]

/-- `scanDir` over a directory of whole entries without holes is the walk over its list of entries:
from entry `k` on, with fuel for every entry left. -/
theorem scanDir_eq (hsize : dp.size ≤ maxFile * bsize) (hholes : NoHoles fs dp) (hwhole : dp.size % direntSize = 0)
    (stop : List UInt8 → Bool) :
    ∀ fuel k, (dirents fs dp).length - k ≤ fuel →
      scanDir stop fuel (direntSize * k) dp fs =
        some ((firstEntry stop ((dirents fs dp).drop k) (direntSize * k)).1,
          (firstEntry stop ((dirents fs dp).drop k) (direntSize * k)).2, dp, fs) := by
  have hlen : (dirents fs dp).length = dp.size / direntSize := length_dirents
  intro fuel
  induction fuel with
  | zero =>
    intro k hk
    rw [List.drop_of_length_le (by omega)]
    rfl
  | succ fuel ih =>
    intro k hk
    unfold scanDir
    by_cases hin : direntSize * k < dp.size
    · -- entry `k` is read, and the walk goes on from entry `k + 1`
      have hk' : k < (dirents fs dp).length := by
        rw [hlen]
        unfold direntSize at *
        omega
      have hread : readDirent dp (direntSize * k) fs = some (entryAt fs dp (direntSize * k), dp, fs) :=
        readDirent_eq hsize hholes (by unfold direntSize at *; omega)
      rw [if_pos hin, hread, List.drop_eq_getElem_cons hk', getElem_dirents hk', firstEntry]
      dsimp only
      split_ifs with hstop
      · rfl
      · rw [show direntSize * k + direntSize = direntSize * (k + 1) by ring]
        exact ih (k + 1) (by omega)
    · rw [if_neg hin, List.drop_of_length_le (by rw [hlen]; unfold direntSize at *; omega)]
      rfl

end Scan

/-- The inode directory `d`'s entry named `name` gives: the first entry in use whose name agrees
with `name` on the first `DIRSIZ` bytes. -/
def lookup (fs : FsState) (d : Nat) (name : List UInt8) : Option Nat :=
  ((dirents fs (diskInode fs d)).find? (entryNamed name)).map deInum

/-- Inode `inum` is allocated and has links. -/
def Live (fs : FsState) (inum : Nat) : Prop := (fs.dinode inum).type ≠ .free ∧ (fs.dinode inum).nlink ≠ 0

/-- The directory tree `namex` walks: every directory is whole entries, and every entry in use names
an allocated inode with links, as the root is. -/
structure TreeOk (fs : FsState) : Prop where
  whole : ∀ d, isDir fs d = true → (fs.dinode d).size % direntSize = 0
  root : Live fs rootino
  entries : ∀ d, isDir fs d = true → ∀ de ∈ dirents fs (diskInode fs d), deInum de ≠ 0 → Live fs (deInum de)

theorem TreeOk.lookup {fs : FsState} (h : TreeOk fs) {d c : Nat} {name : List UInt8} (hd : isDir fs d = true)
    (hc : lookup fs d name = some c) : Live fs c := by
  obtain ⟨de, hfind, rfl⟩ := Option.map_eq_some_iff.mp hc
  have hnamed := List.find?_some hfind
  simp only [entryNamed, Bool.and_eq_true, decide_eq_true_eq] at hnamed
  exact h.entries d hd de (List.mem_of_find?_eq_some hfind) hnamed.1

/-- The slots' references are exactly `f`. -/
def Refs (s : Sys) (f : Iptr → Nat) : Prop := ∀ j, (s.itable j).ref = f j

section Slots

variable {s s' : Sys} {need f : Iptr → Nat} {ip : Iptr}

theorem TableInv.exact (h : TableInv s need) : TableInv s fun i => (s.itable i).ref :=
  ⟨h.alloc, h.loaded, h.unique, fun _ => le_rfl⟩

/-- `iget` finds a slot when one is free. -/
theorem iget_isSome (hfree : ∃ j, (s.itable j).ref = 0) (inum : Nat) : ∃ i s', Fs.iget s inum = some (i, s') := by
  obtain ⟨j, hj⟩ := hfree
  unfold Fs.iget
  cases hfind : (List.finRange ninode).find? (fun i => 0 < (s.itable i).ref && (s.itable i).inum == inum) with
  | some i => exact ⟨_, _, rfl⟩
  | none =>
    cases hempty : (List.finRange ninode).find? (fun i => (s.itable i).ref == 0) with
    | some i => exact ⟨_, _, rfl⟩
    | none =>
      have := List.find?_eq_none.mp hempty j (List.mem_finRange j)
      simp [hj] at this

theorem Refs.addRef (h : Refs s f) {i : Iptr} {e : Slot} (he : e.ref = (s.itable i).ref + 1) :
    Refs (s.setSlot i e) (f + Pi.single i 1) := by
  intro j
  by_cases hj : j = i
  · subst hj
    simp [Sys.setSlot, he, h j]
  · simp [Sys.setSlot, hj, h j]

theorem Refs.iget (h : Refs s f) {inum : Nat} {i : Iptr} (hget : Fs.iget s inum = some (i, s')) :
    Refs s' (f + Pi.single i 1) := by
  unfold Fs.iget at hget
  cases hfind : (List.finRange ninode).find? (fun i => 0 < (s.itable i).ref && (s.itable i).inum == inum) with
  | some k =>
    simp only [hfind, Option.some.injEq, Prod.mk.injEq] at hget
    obtain ⟨rfl, rfl⟩ := hget
    exact h.addRef rfl
  | none =>
    cases hempty : (List.finRange ninode).find? (fun i => (s.itable i).ref == 0) with
    | none => simp [hfind, hempty] at hget
    | some k =>
      simp only [hfind, hempty, Option.some.injEq, Prod.mk.injEq] at hget
      obtain ⟨rfl, rfl⟩ := hget
      have hk : (s.itable k).ref = 0 := by simpa using List.find?_some hempty
      exact h.addRef (by rw [hk])

theorem Refs.idup (h : Refs s f) : Refs (Fs.idup s ip) (f + Pi.single ip 1) :=
  h.addRef rfl

theorem Refs.ilock (h : Refs s f) (hlock : Fs.ilock s ip = some s') : Refs s' f := by
  unfold Fs.ilock at hlock
  dsimp only at hlock
  split_ifs at hlock
  · rw [Option.some.injEq] at hlock
    rwa [← hlock]
  · rw [Option.some.injEq] at hlock
    subst hlock
    intro j
    by_cases hj : j = ip
    · subst hj
      simp [Sys.setSlot, h j]
    · simp [Sys.setSlot, Function.update_of_ne hj, h j]

/-- `ilock` of a slot with a reference and an allocated inode does not panic. -/
theorem ilock_isSome (hpos : 0 < (s.itable ip).ref) (halloc : (s.fs.dinode (s.itable ip).inum).type ≠ .free) :
    ∃ s', Fs.ilock s ip = some s' := by
  unfold Fs.ilock
  simp only [show ¬(s.itable ip).ref < 1 by omega, if_false, halloc]
  split_ifs <;> exact ⟨_, rfl⟩

/-- `iput` of an inode that has another reference, or links when it is loaded, only drops the
reference. -/
theorem iput_keep (hkeep : 2 ≤ (s.itable ip).ref ∨ ((s.itable ip).valid = true → (s.itable ip).copy.nlink ≠ 0)) :
    Fs.iput s ip = some (s.setSlot ip { s.itable ip with ref := (s.itable ip).ref - 1 }) := by
  unfold Fs.iput
  rw [if_neg]
  rintro ⟨hone, hvalid, hnlink⟩
  rcases hkeep with htwo | hlinks
  · omega
  · exact hlinks hvalid hnlink

theorem Refs.iput_keep (h : Refs s (f + Pi.single ip 1)) :
    Refs (s.setSlot ip { s.itable ip with ref := (s.itable ip).ref - 1 }) f := by
  intro j
  by_cases hj : j = ip
  · subst hj
    simp [Sys.setSlot, h j]
  · have := h j
    simp only [Pi.add_apply, Pi.single_apply, if_neg hj, Nat.add_zero] at this
    simp [Sys.setSlot, Function.update_of_ne hj, this]

end Slots

section Dirlookup

variable {s : Sys} {need : Iptr → Nat} {dp : Iptr}

/-- A loaded slot holds the inode the disk has under its number. -/
theorem TableInv.inode_eq (h : TableInv s need) (hdp : s.Loaded dp) :
    s.inode dp = diskInode s.fs (s.itable dp).inum := by
  simp only [Sys.inode, diskInode, (h.loaded dp hdp).1]

/-- `dirlookup` in a loaded directory of whole entries is the walk over its list of entries, and
then `iget` of what it finds. -/
theorem dirlookup_eq (h : TableInv s need) (hdp : s.Loaded dp) (hdir : isDir s.fs (s.itable dp).inum = true)
    (hwhole : (s.fs.dinode (s.itable dp).inum).size % direntSize = 0) (name : List UInt8) :
    Fs.dirlookup s dp name =
      match firstEntry (entryNamed name) (dirents s.fs (s.inode dp)) 0 with
      | (none, _) => some (none, s)
      | (some de, off) => (Fs.iget s (deInum de)).map fun r => (some (r.1, off), r.2) := by
  have hinode := h.inode_eq hdp
  have htype : (s.inode dp).type = .dir := by
    rw [hinode]
    exact (by simpa [isDir] using hdir : (s.fs.dinode (s.itable dp).inum).type = .dir)
  have hholes : NoHoles s.fs (s.inode dp) := by
    rw [hinode]
    exact h.alloc.noHoles _ (by simp [isDir] at hdir; rw [hdir]; decide)
  have hscan := scanDir_eq (size_le_of_noHoles hholes) hholes (by rw [hinode]; exact hwhole) (entryNamed name)
    (s.inode dp).size 0 (by rw [length_dirents, Nat.sub_zero]; exact Nat.div_le_self _ _)
  rw [Nat.mul_zero, List.drop_zero] at hscan
  unfold Fs.dirlookup
  dsimp only
  rw [if_neg (by rw [htype]; exact not_not.mpr rfl), hscan]
  -- what the walk returns decides the rest; the directory and the disk are unchanged
  rcases firstEntry (entryNamed name) (dirents s.fs (s.inode dp)) 0 with ⟨_ | de, off⟩
  · simp only [Sys.setInode_self, Sys.setFs_self]
  · simp only [Sys.setInode_self, Sys.setFs_self]

/-- `dirlookup` finds the inode `lookup` gives, through a slot of its own, and changes nothing on
the disk. -/
theorem dirlookup_spec (h : TableInv s need) (hdp : s.Loaded dp) (hdir : isDir s.fs (s.itable dp).inum = true)
    (hwhole : (s.fs.dinode (s.itable dp).inum).size % direntSize = 0) (hfree : ∃ j, (s.itable j).ref = 0)
    (name : List UInt8) :
    ∃ r s', Fs.dirlookup s dp name = some (r, s') ∧
      r.map (fun x => (s'.itable x.1).inum) = lookup s.fs (s.itable dp).inum name ∧ s'.fs = s.fs ∧
      ∀ f, Refs s f → Refs s' (f + hold (r.map Prod.fst)) := by
  have hfind := firstEntry_fst (entryNamed name) (dirents s.fs (s.inode dp)) 0
  rw [dirlookup_eq h hdp hdir hwhole, lookup, ← h.inode_eq hdp, ← hfind]
  rcases firstEntry (entryNamed name) (dirents s.fs (s.inode dp)) 0 with ⟨_ | de, off⟩
  · exact ⟨none, s, rfl, rfl, rfl, fun f hf => by simpa using hf⟩
  · obtain ⟨i, s', hget⟩ := iget_isSome hfree (deInum de)
    obtain ⟨-, -, hinum, hfs⟩ := h.iget hget
    refine ⟨some (i, off), s', by simp [hget], by simp [hinum], hfs, fun f hf => ?_⟩
    simpa using hf.iget hget

end Dirlookup

section Spec

variable {fs : FsState} {parent : Bool} {d : Nat} {name : List UInt8} {names : List (List UInt8)}

end Spec

/-- `namex`'s loop holding slot `ip`: the table invariant, with the references `ext` others hold and
the loop's own one on `ip` exactly, and an inode that `ilock` can load and `iput` does not free. -/
structure Holds (ext : Iptr → Nat) (s : Sys) (ip : Iptr) : Prop where
  inv : TableInv s (ext + Pi.single ip 1)
  refs : Refs s (ext + Pi.single ip 1)
  alloc : (s.fs.dinode (s.itable ip).inum).type ≠ .free
  keep : 0 < ext ip ∨ (s.fs.dinode (s.itable ip).inum).nlink ≠ 0

/-- What a part of `namex` leaves when it returns `r`: the disk as it was, the slots others hold as
they were, and beyond the references `ext` only the one on the inode it returns. -/
structure Leaves (ext : Iptr → Nat) (s : Sys) (r : Option (Iptr × List UInt8)) (s' : Sys) : Prop where
  fs : s'.fs = s.fs
  frame : Frame ext s s'
  inv : TableInv s' (ext + hold (r.map Prod.fst))
  refs : Refs s' (ext + hold (r.map Prod.fst))

section Holds

variable {ext : Iptr → Nat} {s s₁ s' : Sys} {ip : Iptr} {r : Option (Iptr × List UInt8)}

theorem Leaves.of_frame (hfs : s₁.fs = s.fs) (hframe : Frame ext s s₁) (h : Leaves ext s₁ r s') : Leaves ext s r s' :=
  ⟨h.fs.trans hfs, hframe.trans h.frame, h.inv, h.refs⟩

theorem Refs.free (h : Refs s (ext + Pi.single ip 1)) (hfree : ∃ a b, a ≠ b ∧ ext a = 0 ∧ ext b = 0) :
    ∃ j, (s.itable j).ref = 0 := by
  obtain ⟨a, b, hab, ha, hb⟩ := hfree
  by_cases hai : a = ip
  · have hbi : b ≠ ip := fun hbi => hab (hai.trans hbi.symm)
    exact ⟨b, by rw [h b]; simp [hb, hbi]⟩
  · exact ⟨a, by rw [h a]; simp [ha, hai]⟩

/-- The loop's `iput` only drops its reference. -/
theorem Holds.iput (h : Holds ext s ip) : ∃ s', Fs.iput s ip = some s' ∧ Leaves ext s none s' := by
  have hput : Fs.iput s ip = some (s.setSlot ip { s.itable ip with ref := (s.itable ip).ref - 1 }) := by
    apply iput_keep
    rcases h.keep with hext | hlinks
    · left
      rw [h.refs ip]
      simp only [Pi.add_apply, Pi.single_eq_same]
      omega
    · right
      intro hvalid
      have hpos : 0 < (s.itable ip).ref := by simp [h.refs ip]
      rw [(h.inv.loaded ip ⟨hpos, hvalid⟩).1]
      exact hlinks
  obtain ⟨hinv, hframe⟩ := TableInv.iput h.inv hput
  exact ⟨_, hput, ⟨rfl, hframe, by simpa using hinv, by simpa using h.refs.iput_keep⟩⟩

/-- The loop's `ilock` loads the slot and keeps the rest. -/
theorem Holds.ilock (h : Holds ext s ip) :
    ∃ s', Fs.ilock s ip = some s' ∧ Holds ext s' ip ∧ s'.Loaded ip ∧ s'.fs = s.fs ∧
      (s'.itable ip).inum = (s.itable ip).inum ∧ Frame ext s s' := by
  have hpos : 0 < (s.itable ip).ref := by simp [h.refs ip]
  obtain ⟨s', hlock⟩ := ilock_isSome hpos h.alloc
  obtain ⟨hinv, hframe, hloaded, hinum, hfs⟩ := h.inv.ilock hlock
  refine ⟨s', hlock, ⟨hinv, h.refs.ilock hlock, ?_, ?_⟩, hloaded, hfs, hinum,
    hframe.mono fun i => le_add_need ext _ i⟩
  · rw [hfs, hinum]
    exact h.alloc
  · rw [hfs, hinum]
    exact h.keep

/-- The loop's `dirlookup` in the loaded directory it holds finds what `lookup` gives, and the loop
then holds that inode too. -/
theorem Holds.dirlookup (h : Holds ext s ip) (hloaded : s.Loaded ip) (htree : TreeOk s.fs)
    (hdir : isDir s.fs (s.itable ip).inum = true) (hfree : ∃ a b, a ≠ b ∧ ext a = 0 ∧ ext b = 0)
    (name : List UInt8) :
    ∃ r s', Fs.dirlookup s ip name = some (r, s') ∧
      r.map (fun x => (s'.itable x.1).inum) = lookup s.fs (s.itable ip).inum name ∧
      Holds (ext + hold (r.map Prod.fst)) s' ip ∧ s'.fs = s.fs ∧ (s'.itable ip).inum = (s.itable ip).inum ∧
      Frame ext s s' := by
  obtain ⟨r, s', hlook, hspec, hfs, hrefs⟩ :=
    dirlookup_spec h.inv hloaded hdir (htree.whole _ hdir) (h.refs.free hfree) name
  obtain ⟨hinv, hframe⟩ := h.inv.dirlookup hloaded hlook
  have hinum : (s'.itable ip).inum = (s.itable ip).inum := hframe.inum ip (by simp)
  have hrefs' := hrefs _ h.refs
  rw [add_right_comm] at hinv hrefs'
  refine ⟨r, s', hlook, hspec, ⟨hinv, hrefs', ?_, ?_⟩, hfs, hinum, hframe.mono fun i => le_add_need ext _ i⟩
  · rw [hfs, hinum]
    exact h.alloc
  · rw [hfs, hinum]
    rcases h.keep with hext | hlinks
    · exact .inl (lt_of_lt_of_le hext (le_add_need ext _ ip))
    · exact .inr hlinks

/-- The end of the loop: `namei` returns the inode it holds, `nameiparent` drops it. -/
theorem Holds.namexEnd (h : Holds ext s ip) (parent : Bool) :
    ∃ r s', namexEnd parent s ip = some (r, s') ∧
      r.map (fun x => ((s'.itable x.1).inum, x.2)) = (if parent then none else some ((s.itable ip).inum, [])) ∧
      Leaves ext s r s' := by
  cases parent with
  | false => exact ⟨some (ip, []), s, rfl, rfl, ⟨rfl, Frame.refl ext s, by simpa using h.inv, by simpa using h.refs⟩⟩
  | true =>
    obtain ⟨s', hput, hleaves⟩ := h.iput
    refine ⟨none, s', ?_, rfl, hleaves⟩
    rw [Fs.namexEnd, if_pos rfl, hput]
    rfl

end Holds

section Namex

variable {s : Sys} {need : Iptr → Nat} {cwd : Iptr}

end Namex

section Link

variable {s s' : Sys} {need : Iptr → Nat} {dp : Iptr}

end Link

section Resolution

variable {s : Sys} {need : Iptr → Nat} {cwd : Iptr}

end Resolution

end Xv6.Fs
