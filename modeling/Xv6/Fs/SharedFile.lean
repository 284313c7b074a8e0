import Xv6.Fs.Content
import Xv6.Fs.Coherence
import Xv6.Fs.Syscall
import Xv6.Library.Ranges

/-!
# One open file shared by several processes

Processes that share a `struct file` through `fork` or `dup` call `fileread` and `filewrite` on it
concurrently. The inode lock makes each of these sections atomic: a `fileread`, and each pass of
`filewrite`'s loop, which is a transaction of its own between `ilock` and `iunlock`. Between two
passes of one `filewrite`, other processes may run whole sections. `Step` is one section, or the start
or the end of a `filewrite` (which touch only the caller).

A section reads `f->off`, transfers at that offset, and advances `f->off` by the count it returns, all
under the lock. So the ranges of the inode that a run transfers lie end to end from the first offset
(`Ranges.Contiguous`), and `f->off` ends at the first offset plus their total. For the content, a pass
that writes at `off` keeps every byte below `off` (`AllocInv.writei_bytes`), and every byte an earlier
section wrote lies below it; so every byte written stays in the file.

A run starts from a state with the invariant of the inode table and the disk (`TableInv`, the file's
reference held), an `FD_INODE` file, and an offset that fits the `uint` of `struct file`.
-/

namespace Xv6.Fs

open Vm Transition Ranges

section Table

variable {s : Sys} {need : Iptr → Nat} {ip : Iptr}

/-- The invariant of the inode table does not read the open files. -/
theorem TableInv.setFtable (h : TableInv s need) (ft : Fin nfile → File) : TableInv { s with ftable := ft } need :=
  ⟨h.alloc, h.loaded, h.unique, h.enough⟩

/-- A loaded slot holds the disk's inode, which has no holes. -/
theorem TableInv.loaded_inode (h : TableInv s need) (hip : s.Loaded ip) :
    s.inode ip = diskInode s.fs (s.itable ip).inum ∧ NoHoles s.fs (s.inode ip) := by
  have hcopy := h.dinode_eq hip
  have hdisk : s.inode ip = diskInode s.fs (s.itable ip).inum := (diskInode_of_copy hcopy).symm
  refine ⟨hdisk, ?_⟩
  have hholes := h.alloc.noHoles (s.inode ip).inum (by rw [hcopy]; exact h.type_ne_free hip)
  rwa [diskInode_of_copy hcopy] at hholes

/-- A file without holes is shorter than `2^32`. -/
theorem size_lt_of_noHoles {fs : FsState} {x : Inode} (h : NoHoles fs x) : x.size < 2 ^ 32 :=
  lt_of_le_of_lt (size_le_of_noHoles h) (by decide)

end Table

section Image

/-- The bitmap block `mkfs` writes marks exactly the blocks below `used`. -/
theorem bit_bitmapImage (used : Nat) {j : Nat} (hj : j < bpb) : bit (bitmapImage used) j = decide (j < used) := by
  induction used with
  | zero => simp [bitmapImage, bit, zeroBlock, LittleEndian.get]
  | succ k ih =>
    rw [bitmapImage, List.range_succ, List.foldl_append, List.foldl_cons, List.foldl_nil, ← bitmapImage,
      bit_setBit _ _ hj, ih, Bool.eq_iff_iff]
    simp only [Bool.or_eq_true, decide_eq_true_eq]
    omega

theorem inUse_mkfsImage {b : Nat} (hb : b < sb.size) : inUse mkfsImage.disk b = decide (b < rootBlock + 1) := by
  have hne : sb.bmapstart ≠ rootBlock := by decide
  unfold inUse
  rw [bblock_of_lt_size hb, mod_bpb_of_lt_size hb]
  simp only [mkfsImage, if_neg hne, if_true]
  exact bit_bitmapImage _ (lt_of_lt_of_le hb (by decide))

theorem addrAt_mkfsImage (p : Nat × Place) : addrAt mkfsImage p = if p = (rootino, .addr 0) then rootBlock else 0 := by
  obtain ⟨i, q⟩ := p
  by_cases hi : i = rootino
  · subst hi
    have hroot : mkfsImage.dinode rootino = ⟨.dir, 0, 0, 1, bsize, fun j => if j.val = 0 then rootBlock else 0⟩ :=
      by simp only [mkfsImage, if_true]
    rw [addrAt_of_alloc (by rw [hroot]; decide), hroot]
    cases q with
    | addr k =>
      by_cases hk : k = 0
      · simp [placeAddr, hk]
      · simp [placeAddr, hk, Fin.val_eq_zero_iff]
    | entry j => simp [placeAddr, indirectSlot, nDirect]
  · have hfree : (mkfsImage.dinode i).type = .free := by simp [mkfsImage, hi, zeroDinode]
    simp [addrAt_of_free hfree, hi]

/-- The kept address of the `mkfs` image: the root's first block. -/
theorem eq_root_of_addrAt_mkfsImage {p : Nat × Place} (hp : addrAt mkfsImage p ≠ 0) :
    p = (rootino, .addr 0) ∧ addrAt mkfsImage p = rootBlock := by
  rw [addrAt_mkfsImage] at hp ⊢
  by_cases h : p = (rootino, .addr 0)
  · exact ⟨h, if_pos h⟩
  · rw [if_neg h] at hp
    exact absurd rfl hp

/-- The `mkfs` image keeps the allocation invariant: its one kept block, the root's, is the only data
block the bitmap marks, and every metadata block is marked. -/
theorem allocInv_mkfsImage : AllocInv mkfsImage where
  accounted := by
    have hroot : InData rootBlock := by decide
    refine ⟨fun p hp => ?_, fun p hp => ?_, fun p q hp hpq => ?_, fun b _ hb hu => ?_⟩
    · rw [(eq_root_of_addrAt_mkfsImage hp).2]
      exact hroot
    · rw [(eq_root_of_addrAt_mkfsImage hp).2, inUse_mkfsImage hroot.2]
      decide
    · have hq : addrAt mkfsImage q ≠ 0 := by rw [← hpq]; exact hp
      rw [(eq_root_of_addrAt_mkfsImage hp).1, (eq_root_of_addrAt_mkfsImage hq).1]
    · -- the marked data block is the root's
      have hlt := of_decide_eq_true ((inUse_mkfsImage hb.2).symm.trans hu)
      have hb' : b = rootBlock := by
        have := hb.1
        unfold rootBlock at hlt ⊢
        omega
      refine ⟨(rootino, .addr 0), ?_⟩
      rw [addrAt_mkfsImage, if_pos rfl, hb']
  meta_used b hb := by
    rw [inUse_mkfsImage (by have : sb.size - sb.nblocks ≤ sb.size := Nat.sub_le _ _; omega)]
    exact decide_eq_true (by unfold rootBlock; omega)
  noHoles i hi := by
    have hroot : i = rootino := by
      by_contra hne
      simp [mkfsImage, hne, zeroDinode] at hi
    subst hroot
    intro o ho
    have hsize : o < bsize := by simpa [diskInode, mkfsImage] using ho
    rw [Nat.div_eq_of_lt hsize]
    simp only [blockAddr, diskInode, mkfsImage, if_true]
    simpa [nDirect, rootBlock] using Nat.pos_iff_ne_zero.mp data_pos

end Image

namespace Shared

section Sections

variable {f : Fin nfile} {s s₁ t : Sys} {need : Iptr → Nat} {ip : Iptr}

/-- The inode of the shared file as the disk holds it. -/
def fileInode (f : Fin nfile) (s : Sys) : Inode := diskInode s.fs (s.itable (s.ftable f).ip).inum

/-- What a run needs of its state and keeps: the invariant of the inode table with the file's
reference held, an `FD_INODE` file, and an offset that fits `struct file`'s `uint`. -/
structure FileInv (f : Fin nfile) (s : Sys) : Prop where
  table : TableInv s (Pi.single (s.ftable f).ip 1)
  inode : (s.ftable f).type = .inode
  off_lt : (s.ftable f).off < 2 ^ 32

/-- What a section that returned `r` did to the shared file: the offset advanced by `r` when `r` is
positive and nothing else of the entry changed, the file did not shrink, every byte below the old
offset kept its value, and a positive count lies within the file. -/
structure Section (f : Fin nfile) (s t : Sys) (r : Int) : Prop where
  inv : FileInv f t
  entry : t.ftable f = { s.ftable f with off := if 0 < r then (s.ftable f).off + r.toNat else (s.ftable f).off }
  size_le : (fileInode f s).size ≤ (fileInode f t).size
  below : ∀ i < (s.ftable f).off, i < (fileInode f s).size → byteAt t.fs (fileInode f t) i = byteAt s.fs (fileInode f s) i
  within : 0 < r → (s.ftable f).off + r.toNat ≤ (fileInode f t).size

/-- The end of a section: `f->off += r` when the count `r` is positive, on the entry `e` the section
read. -/
def advance (s : Sys) (f : Fin nfile) (e : File) (r : Int) : Sys :=
  if 0 < r then { s with ftable := Function.update s.ftable f { e with off := e.off + r.toNat } } else s

@[simp] theorem advance_fs (s : Sys) (e : File) (r : Int) : (advance s f e r).fs = s.fs := by
  unfold advance
  split <;> rfl

@[simp] theorem advance_itable (s : Sys) (e : File) (r : Int) : (advance s f e r).itable = s.itable := by
  unfold advance
  split <;> rfl

theorem advance_ftable (s : Sys) (r : Int) :
    (advance s f (s.ftable f) r).ftable f =
      { s.ftable f with off := if 0 < r then (s.ftable f).off + r.toNat else (s.ftable f).off } := by
  unfold advance
  split <;> simp

/-- Advancing the offset leaves the file where it is. -/
theorem fileInode_advance (s : Sys) {e : File} (he : e.ip = (s.ftable f).ip) (r : Int) :
    fileInode f (advance s f e r) = fileInode f s := by
  unfold fileInode advance
  split <;> simp [he]

theorem advance_tableInv (h : TableInv s need) (e : File) (r : Int) : TableInv (advance s f e r) need := by
  unfold advance
  split
  · exact h.setFtable _
  · exact h

/-- A section ends with the file's slot loaded and the table invariant kept; advancing the offset then
keeps `FileInv`, given what the section did to the file. -/
theorem section_advance (hinv : FileInv f s) (htable : TableInv s₁ (Pi.single (s.ftable f).ip 1))
    (hft : s₁.ftable = s.ftable) (hloaded : s₁.Loaded (s.ftable f).ip) {r : Int}
    (hsize : (fileInode f s).size ≤ (fileInode f s₁).size)
    (hbelow : ∀ i < (s.ftable f).off, i < (fileInode f s).size →
      byteAt s₁.fs (fileInode f s₁) i = byteAt s.fs (fileInode f s) i)
    (hwithin : 0 < r → (s.ftable f).off + r.toNat ≤ (fileInode f s₁).size) :
    Section f s (advance s₁ f (s.ftable f) r) r := by
  have he : s.ftable f = s₁.ftable f := by rw [hft]
  -- the slot's inode is the file's, and it has no holes
  have hholes : NoHoles s₁.fs (fileInode f s₁) := by
    have := (htable.loaded_inode hloaded).2
    rwa [(htable.loaded_inode hloaded).1, he] at this
  rw [he]
  refine ⟨⟨?_, ?_, ?_⟩, ?_, ?_, ?_, ?_⟩
  · rw [advance_ftable, ← he]
    exact advance_tableInv htable _ r
  · rw [advance_ftable, ← he]
    exact hinv.inode
  · rw [advance_ftable, ← he]
    split
    · exact lt_of_le_of_lt (hwithin ‹_›) (size_lt_of_noHoles hholes)
    · exact hinv.off_lt
  · rw [advance_ftable, ← he]
  · rw [fileInode_advance _ rfl]
    exact hsize
  · rw [fileInode_advance _ rfl, advance_fs]
    exact hbelow
  · rw [fileInode_advance _ rfl]
    exact hwithin

/-- A section that changed nothing and returned no positive count. -/
theorem Section.self (hinv : FileInv f s) {r : Int} (hr : ¬ 0 < r) : Section f s s r where
  inv := hinv
  entry := by rw [if_neg hr]
  size_le := le_rfl
  below _ _ _ := rfl
  within h := absurd h hr

variable {addr : Nat} {n : Int} {u : UserMem} {dev r : Int}

/-- Everything `fileread` of an `FD_INODE` file can do: return `-1` when the file is not readable, or
`ilock` the inode, `readi` from the offset, and advance the offset by a positive count. -/
theorem fileread_inode_cases (hinode : (s.ftable f).type = .inode) (hread : fileread s f addr n u dev = some (r, t)) :
    ((s.ftable f).readable = false ∧ r = -1 ∧ t = s) ∨
      ((s.ftable f).readable = true ∧ ∃ s₁ x fs mem, ilock s (s.ftable f).ip = some s₁ ∧
        readi (s₁.inode (s.ftable f).ip) true addr (UInt32.ofNat (s.ftable f).off) (UInt32.ofInt n) s₁.fs ⟨u, fun _ => 0⟩ =
          some (r, x, fs, mem) ∧
        t = advance ((s₁.setInode (s.ftable f).ip x).setFs fs) f (s.ftable f) r) := by
  unfold fileread at hread
  by_cases hr : (s.ftable f).readable = true
  · rw [if_neg (by simp [hr])] at hread
    refine .inr ⟨hr, ?_⟩
    split at hread
    · rename_i hdev
      rw [hinode] at hdev
      cases hdev
    · cases hlock : ilock s (s.ftable f).ip with
      | none => simp [hlock] at hread
      | some s₁ =>
        cases hreadi : readi (s₁.inode (s.ftable f).ip) true addr (UInt32.ofNat (s.ftable f).off) (UInt32.ofInt n) s₁.fs
            ⟨u, fun _ => 0⟩ with
        | none => simp [hlock, hreadi] at hread
        | some res =>
          obtain ⟨r', x, fs, mem⟩ := res
          simp only [hlock, hreadi, Option.some.injEq, Prod.mk.injEq] at hread
          obtain ⟨rfl, rfl⟩ := hread
          exact ⟨s₁, x, fs, mem, rfl, hreadi, rfl⟩
    · cases hread
  · rw [if_pos (by simp [hr]), Option.some.injEq, Prod.mk.injEq] at hread
    exact .inl ⟨by simpa using hr, hread.1.symm, hread.2.symm⟩

/-- `fileread` is a section. Past `ilock`, `readi` changes neither the inode nor the disk, and reads
from the offset within the file. -/
theorem fileread_section (hinv : FileInv f s) (hread : fileread s f addr n u dev = some (r, t)) : Section f s t r := by
  rcases fileread_inode_cases hinv.inode hread with ⟨-, rfl, rfl⟩ | ⟨-, s₁, x, fs, mem, hlock, hreadi, rfl⟩
  · exact Section.self hinv (by decide)
  obtain ⟨htable, hframe, hloaded, hinum, hfs⟩ := hinv.table.ilock hlock
  obtain ⟨hdisk, hholes⟩ := htable.loaded_inode hloaded
  have hoff : (UInt32.ofNat (s.ftable f).off).toNat = (s.ftable f).off := UInt32.toNat_ofNat_of_lt' hinv.off_lt
  obtain ⟨r', mem', hreadi', hout, hin⟩ := readi_spec (size_le_of_noHoles hholes) hholes true addr
    (UInt32.ofNat (s.ftable f).off) (UInt32.ofInt n) ⟨u, fun _ => 0⟩
  -- `readi` changes neither the inode nor the disk
  rw [hreadi', Option.some.injEq, Prod.mk.injEq, Prod.mk.injEq, Prod.mk.injEq] at hreadi
  obtain ⟨rfl, rfl, rfl, -⟩ := hreadi
  rw [Sys.setInode_self, Sys.setFs_self]
  -- the slot's inode is the file's, on the same disk
  have hfile : fileInode f s₁ = fileInode f s := by
    simp only [fileInode, hframe.ftable, hinum, hfs]
  have hcur : s₁.inode (s.ftable f).ip = fileInode f s₁ := by
    rw [hdisk, fileInode, hframe.ftable]
  refine section_advance hinv htable hframe.ftable hloaded (by rw [hfile]) (fun i _ _ => by rw [hfile, hfs])
    fun hpos => ?_
  rw [hoff, hcur] at hout hin
  by_cases hinside : (s.ftable f).off ≤ (fileInode f s₁).size ∧
      (s.ftable f).off + (UInt32.ofInt n).toNat < 2 ^ 32
  · obtain ⟨hcount, -⟩ := hin hinside.1 hinside.2 (by omega)
    omega
  · have := (hout (by omega)).1
    omega

/-- One pass of `filewrite` is a section, in a transaction of its own. Past `ilock`, `writei` either
refuses and changes nothing, or returns `tot`: the bytes below the offset stay and the `tot` bytes
from it are the caller's. -/
theorem filewriteChunk_section (hinv : FileInv f s) {src n₁ : Nat} (hw : filewriteChunk s f src n₁ u = some (r, t)) :
    Section f s t r ∧ (0 < r → ∀ k < r.toNat, byteAt t.fs (fileInode f t) ((s.ftable f).off + k) = u.byte (src + k)) := by
  unfold filewriteChunk at hw
  have h₀ : TableInv (s.setFs { s.fs with logged := [] }) (Pi.single (s.ftable f).ip 1) :=
    hinv.table.setFs (hinv.table.alloc.setLogged []) fun _ _ => rfl
  cases hlock : ilock (s.setFs { s.fs with logged := [] }) (s.ftable f).ip with
  | none => simp [hlock] at hw
  | some s₁ =>
    obtain ⟨htable, hframe, hloaded, hinum, hfs⟩ := h₀.ilock hlock
    have hft : s₁.ftable = s.ftable := hframe.ftable
    obtain ⟨hdisk, -⟩ := htable.loaded_inode hloaded
    have hcopy := htable.dinode_eq hloaded
    have halloc := htable.type_ne_free hloaded
    have hoff : (UInt32.ofNat (s.ftable f).off).toNat = (s.ftable f).off := UInt32.toNat_ofNat_of_lt' hinv.off_lt
    -- before the pass, the slot's inode is the file's
    have hfile : s₁.inode (s.ftable f).ip = fileInode f s := by
      rw [hdisk, hinum, hfs]
      rfl
    cases hwrite : writei (s₁.inode (s.ftable f).ip) true src (UInt32.ofNat (s.ftable f).off) (UInt32.ofNat n₁) s₁.fs
        ⟨u, fun _ => 0⟩ with
    | none => simp [hlock, hwrite] at hw
    | some res =>
      obtain ⟨r', x, fs'⟩ := res
      simp only [hlock, hwrite, Option.some.injEq, Prod.mk.injEq] at hw
      obtain ⟨rfl, rfl⟩ := hw
      obtain ⟨htable', hframe'⟩ := htable.writei hloaded hwrite
      obtain ⟨-, hx, hxdisk, -⟩ := htable.alloc.writei hcopy halloc hwrite
      set s₂ := (s₁.setInode (s.ftable f).ip x).setFs fs' with hs₂
      have hft₂ : s₂.ftable = s.ftable := hframe'.ftable.trans hft
      have hloaded₂ : s₂.Loaded (s.ftable f).ip := by
        refine ⟨?_, hframe'.valid _ (by simp) hloaded.2⟩
        simpa [hs₂, Sys.setInode_eq] using hloaded.1
      -- after the pass, the file is the inode `writei` returned
      have hfile₂ : fileInode f s₂ = x := by
        have hxinum : x.inum = (s₁.itable (s.ftable f).ip).inum := by rw [hx]; rfl
        have hslot : s₂.itable (s.ftable f).ip = { s₁.itable (s.ftable f).ip with copy := x.toDinode } := by
          simp [hs₂, Sys.setInode_eq]
        show diskInode s₂.fs (s₂.itable (s₂.ftable f).ip).inum = x
        rw [hft₂, hslot]
        show diskInode fs' (s₁.itable (s.ftable f).ip).inum = x
        rw [← hxinum]
        exact diskInode_of_copy (by rw [hxinum]; exact hxdisk)
      have hbytes : byteAt s.fs = byteAt s₁.fs := by rw [hfs]; rfl
      rcases htable.alloc.writei_bytes hcopy halloc hwrite with ⟨rfl, rfl, rfl⟩ | ⟨tot, rfl, hend, hsize, hbelow, hdata⟩
      · -- refused: the state is the locked one
        have hsame : s₂ = s₁ := by rw [hs₂, Sys.setInode_self, Sys.setFs_self]
        rw [hsame] at hfile₂ ⊢
        refine ⟨section_advance hinv htable hft hloaded (by rw [hfile₂, hfile]) (fun i _ _ => by rw [hfile₂, hfile, hbytes])
          (fun h => absurd h (by decide)), fun h => absurd h (by decide)⟩
      · rw [hoff] at hend hbelow hdata
        rw [hfile] at hbelow hsize
        refine ⟨section_advance hinv htable' hft₂ hloaded₂ (by rw [hfile₂]; exact hsize)
          (fun i hi hsz => by rw [hfile₂, hbytes]; exact hbelow i hi hsz) (fun _ => by rw [hfile₂]; exact hend),
          fun _ k hk => ?_⟩
        show byteAt (advance s₂ f (s.ftable f) tot).fs (fileInode f (advance s₂ f (s.ftable f) tot)) _ = _
        rw [advance_fs, fileInode_advance _ (by rw [hft₂]), hfile₂, hs₂, Sys.setFs_fs]
        simpa [Memory.get] using hdata k (by omega)

end Sections

section System

/-- Where a process is in a call on the shared file: in none, or in `filewrite`'s loop for `n` bytes
from `addr` with `i` of them written. A `fileread` is one section and leaves nothing between steps. -/
inductive Pc
  | idle
  | write (addr n i : Nat)
  deriving DecidableEq

/-- The file-system state and where each process is. -/
structure State where
  sys : Sys
  pc : Fin nproc → Pc

/-- What a step did. A section records the offset it read and the count it returned, and a pass of
`filewrite` also the bytes it copied from the caller. -/
inductive Event
  | read (p : Fin nproc) (off : Nat) (r : Int)
  | write (p : Fin nproc) (off : Nat) (r : Int) (bytes : List UInt8)
  | begin (p : Fin nproc)
  | done (p : Fin nproc)

/-- One step on the shared file `f` by process `p`: a whole `fileread`; the start of a `filewrite`
past its checks of `f->writable` and the type; one pass of its loop, which writes
`min(n - i, max)` bytes from `addr + i` and stops the loop when `writei` returns less; or the end of
the loop once `n` bytes are written. -/
inductive Step (f : Fin nfile) : State → Event → State → Prop
  | read {s : State} {p : Fin nproc} {addr : Nat} {n : Int} {u : UserMem} {dev r : Int} {t : Sys}
      (hpc : s.pc p = .idle) (hread : fileread s.sys f addr n u dev = some (r, t)) :
      Step f s (.read p (s.sys.ftable f).off r) { s with sys := t }
  | begin {s : State} {p : Fin nproc} (addr n : Nat) (hpc : s.pc p = .idle)
      (hwritable : (s.sys.ftable f).writable = true) (hinode : (s.sys.ftable f).type = .inode) :
      Step f s (.begin p) { s with pc := Function.update s.pc p (.write addr n 0) }
  | pass {s : State} {p : Fin nproc} {addr n i : Nat} {u : UserMem} {r : Int} {t : Sys}
      (hpc : s.pc p = .write addr n i) (hi : i < n)
      (hchunk : filewriteChunk s.sys f (addr + i) (min (n - i) maxWrite) u = some (r, t)) :
      Step f s (.write p (s.sys.ftable f).off r ((List.range r.toNat).map fun k => u.byte (addr + i + k)))
        ⟨t, Function.update s.pc p
          (if r ≠ (min (n - i) maxWrite : Nat) then .idle else .write addr n (i + min (n - i) maxWrite))⟩
  | done {s : State} {p : Fin nproc} {addr n i : Nat} (hpc : s.pc p = .write addr n i) (hi : n ≤ i) :
      Step f s (.done p) { s with pc := Function.update s.pc p .idle }

/-- The range of the inode a section transferred: from the offset it read, the count it returned when
that is positive. -/
def Event.range : Event → Option (Nat × Nat)
  | .read _ off r => if 0 < r then some (off, r.toNat) else none
  | .write _ off r _ => if 0 < r then some (off, r.toNat) else none
  | .begin _ => none
  | .done _ => none

/-- The bytes a pass of `filewrite` wrote, at the offset it read. -/
def Event.written : Event → Option (Nat × List UInt8)
  | .write _ off r bytes => if 0 < r then some (off, bytes) else none
  | _ => none

/-- The ranges a run transferred, in lock order. -/
def ranges (es : List Event) : List (Nat × Nat) := es.filterMap Event.range

/-- The bytes a run wrote, with their offsets. -/
def writes (es : List Event) : List (Nat × List UInt8) := es.filterMap Event.written

@[simp] theorem ranges_nil : ranges [] = [] := rfl

@[simp] theorem writes_nil : writes [] = [] := rfl

theorem ranges_snoc (es : List Event) (e : Event) : ranges (es ++ [e]) = ranges es ++ e.range.toList := by
  unfold ranges
  cases h : e.range <;> simp [List.filterMap_append, h]

theorem writes_snoc (es : List Event) (e : Event) : writes (es ++ [e]) = writes es ++ e.written.toList := by
  unfold writes
  cases h : e.written <;> simp [List.filterMap_append, h]

end System

section Runs

variable {f : Fin nfile} {s s₀ t : Sys} {r : Int} {es : List Event}

/-- The bytes `w.2` are in the file from `w.1`, and end at or before the file's offset. -/
def Present (f : Fin nfile) (s : Sys) (w : Nat × List UInt8) : Prop :=
  w.1 + w.2.length ≤ (s.ftable f).off ∧
    ∀ k (hk : k < w.2.length), w.1 + k < (fileInode f s).size ∧ byteAt s.fs (fileInode f s) (w.1 + k) = w.2[k]

theorem Section.off_le (hsec : Section f s t r) : (s.ftable f).off ≤ (t.ftable f).off := by
  rw [hsec.entry]
  split <;> simp

/-- A section leaves in place every byte written below the offset it read. -/
theorem Section.present (hsec : Section f s t r) {w : Nat × List UInt8} (hw : Present f s w) : Present f t w := by
  obtain ⟨hend, hbytes⟩ := hw
  refine ⟨le_trans hend hsec.off_le, fun k hk => ?_⟩
  obtain ⟨hlt, heq⟩ := hbytes k hk
  refine ⟨lt_of_lt_of_le hlt hsec.size_le, ?_⟩
  rw [hsec.below (w.1 + k) (by omega) hlt, heq]

/-- Bytes present in the file are a prefix of its content from their offset. -/
theorem Present.isPrefix_content {w : Nat × List UInt8} (hw : Present f s w) :
    w.2 <+: (content s.fs (fileInode f s)).drop w.1 := by
  obtain ⟨-, hbytes⟩ := hw
  have hlen : w.2.length ≤ ((content s.fs (fileInode f s)).drop w.1).length := by
    simp only [content, List.length_drop, List.length_map, List.length_range]
    by_cases hnil : w.2.length = 0
    · omega
    · have := (hbytes (w.2.length - 1) (by omega)).1
      omega
  refine List.prefix_iff_getElem.mpr ⟨hlen, fun k hk => ?_⟩
  simp only [content, List.getElem_drop, List.getElem_map, List.getElem_range]
  exact ((hbytes k hk).2).symm

/-- What a run from `s₀` keeps: the invariant, the ranges laid end to end from the first offset, the
offset at their end, and every byte written in the file. -/
structure Safe (f : Fin nfile) (s₀ : Sys) (es : List Event) (s : Sys) : Prop where
  inv : FileInv f s
  contiguous : Contiguous (s₀.ftable f).off (ranges es)
  off_eq : (s.ftable f).off = (s₀.ftable f).off + total (ranges es)
  present : ∀ w ∈ writes es, Present f s w

/-- A section extends what a run keeps, given the range it records and that what it wrote is
present. -/
theorem Safe.section (h : Safe f s₀ es s) (hsec : Section f s t r) {e : Event}
    (hrange : e.range = if 0 < r then some ((s.ftable f).off, r.toNat) else none)
    (hwritten : ∀ w, e.written = some w → Present f t w) : Safe f s₀ (es ++ [e]) t where
  inv := hsec.inv
  contiguous := by
    rw [ranges_snoc, hrange]
    split
    · exact contiguous_append.mpr ⟨h.contiguous, h.off_eq⟩
    · simpa using h.contiguous
  off_eq := by
    rw [ranges_snoc, hrange, hsec.entry]
    split <;> simp [h.off_eq, Nat.add_assoc]
  present w hw := by
    rw [writes_snoc] at hw
    rcases List.mem_append.mp hw with hw | hw
    · exact hsec.present (h.present w hw)
    · exact hwritten w (Option.mem_toList.mp hw)

/-- The bytes of a pass that returned a positive count are present after it. -/
theorem present_of_pass (hsec : Section f s t r) {u : UserMem} {src : Nat}
    (hbytes : 0 < r → ∀ k < r.toNat, byteAt t.fs (fileInode f t) ((s.ftable f).off + k) = u.byte (src + k))
    (hr : 0 < r) : Present f t ((s.ftable f).off, (List.range r.toNat).map fun k => u.byte (src + k)) := by
  have hoff : (t.ftable f).off = (s.ftable f).off + r.toNat := by
    rw [hsec.entry, if_pos hr]
  have hwithin := hsec.within hr
  refine ⟨by simp [hoff], fun k hk => ?_⟩
  simp only [List.length_map, List.length_range] at hk
  refine ⟨by omega, ?_⟩
  simp only [List.getElem_map, List.getElem_range]
  exact hbytes hr k hk

/-- Every step keeps what a run keeps. -/
theorem Safe.step {s t : State} {e : Event} (h : Safe f s₀ es s.sys) (hstep : Step f s e t) :
    Safe f s₀ (es ++ [e]) t.sys := by
  cases hstep with
  | read hpc hread =>
    exact h.section (fileread_section h.inv hread) (by simp [Event.range]) (by simp [Event.written])
  | begin addr n hpc hwritable hinode =>
    exact h.section (r := 0) (Section.self h.inv (lt_irrefl 0)) (by simp [Event.range]) (by simp [Event.written])
  | pass hpc hi hchunk =>
    obtain ⟨hsec, hbytes⟩ := filewriteChunk_section h.inv hchunk
    refine h.section hsec (by simp [Event.range]) fun w hw => ?_
    simp only [Event.written] at hw
    split at hw
    · rw [← Option.some.inj hw]
      exact present_of_pass hsec hbytes ‹_›
    · cases hw
  | done hpc hi =>
    exact h.section (r := 0) (Section.self h.inv (lt_irrefl 0)) (by simp [Event.range]) (by simp [Event.written])

/-- Every run from a state with the invariant keeps what a run keeps. -/
theorem safe_of_run {s t : State} (hinv : FileInv f s.sys) (hrun : Run (Step f) s es t) : Safe f s.sys es t.sys :=
  hrun.history (fun t es => Safe f s.sys es t.sys) ⟨hinv, trivial, by simp, by simp⟩
    fun _ _ _ _ h hstep => h.step hstep

/-- Through one shared `struct file`, in every interleaving of `fileread`s and of the passes of
`filewrite`s, the ranges of the inode the sections transfer lie end to end from the first offset in
lock order and so never overlap, the offset ends at the first offset plus their total, and every byte
a pass wrote is in the file at its offset. -/
theorem shared_file_offsets {f : Fin nfile} {s t : State} {es : List Event} (hinv : FileInv f s.sys)
    (hrun : Run (Step f) s es t) :
    Contiguous (s.sys.ftable f).off (ranges es) ∧
      (ranges es).Pairwise (fun a b => Disjoint (Set.Ico a.1 (a.1 + a.2)) (Set.Ico b.1 (b.1 + b.2))) ∧
      (t.sys.ftable f).off = (s.sys.ftable f).off + total (ranges es) ∧
      ∀ w ∈ writes es, w.2 <+: (content t.sys.fs (fileInode f t.sys)).drop w.1 := by
  have hsafe := safe_of_run hinv hrun
  exact ⟨hsafe.contiguous, hsafe.contiguous.pairwise_disjoint, hsafe.off_eq, fun w hw => (hsafe.present w hw).isPrefix_content⟩

/-- The `mkfs` image with inode 2 allocated as an empty file, as `create` leaves it. -/
def emptyFileImage : FsState :=
  { mkfsImage with dinode := Function.update mkfsImage.dinode 2 { zeroDinode with type := .file, nlink := 1 } }

/-- The empty file `2` open for reading and writing in `ftable[0]`, through slot 1 of `itable`, which
is not loaded yet; the root in slot 0 is the current directory. No process is in a call. -/
def sharedStart : State where
  sys :=
    { fs := emptyFileImage
      itable := fun i => if i.val = 0 then ⟨rootino, 1, false, zeroDinode⟩
        else if i.val = 1 then ⟨2, 1, false, zeroDinode⟩ else ⟨0, 0, false, zeroDinode⟩
      ftable := fun i => if i.val = 0 then ⟨.inode, 1, true, true, 1, 0, 0⟩ else ⟨.none, 0, false, false, 0, 0, 0⟩
      proc := boot.proc }
  pc := fun _ => .idle

/-- The start state keeps the invariant: no slot is loaded, and only slots 0 and 1 are referenced. -/
theorem fileInv_sharedStart : FileInv 0 sharedStart.sys := by
  have hvalid : ∀ i, (sharedStart.sys.itable i).valid = false := by decide
  refine ⟨⟨?_, fun i hi => absurd hi.2 (by rw [hvalid i]; decide), by decide, by decide⟩, rfl, by decide⟩
  -- inode 2 is free in the image, so allocating it empty keeps the invariant
  exact allocInv_mkfsImage.setEmpty (fun q => addrAt_of_free (by decide) q) rfl fun _ => rfl

/-- A user address space that maps every page and holds `b` at every address. -/
def fillMem (b : UInt8) : UserMem := ⟨fun _ => true, fun _ => true, fun _ => b⟩

/-- Two processes write the shared empty file: process 0 two bytes, then process 1 one byte. The
second pass starts where the first ended. -/
theorem shared_file_offsets_two_writers :
    ∃ es t, Run (Step 0) sharedStart es t ∧ ranges es = [(0, 2), (2, 1)] ∧
      (Contiguous (sharedStart.sys.ftable 0).off (ranges es) ∧
        (ranges es).Pairwise (fun a b => Disjoint (Set.Ico a.1 (a.1 + a.2)) (Set.Ico b.1 (b.1 + b.2))) ∧
        (t.sys.ftable 0).off = (sharedStart.sys.ftable 0).off + total (ranges es) ∧
        ∀ w ∈ writes es, w.2 <+: (content t.sys.fs (fileInode 0 t.sys)).drop w.1) := by
  have hcalls : ((filewriteChunk sharedStart.sys 0 (0 + 0) (min (2 - 0) maxWrite) (fillMem 97)).bind fun a =>
      (filewriteChunk a.2 0 (0 + 0) (min (1 - 0) maxWrite) (fillMem 98)).map fun b => (a.1, b.1)) = some (2, 1) := by
    decide +kernel
  obtain ⟨⟨r₁, t₁⟩, h₁, h₂⟩ := Option.bind_eq_some_iff.mp hcalls
  obtain ⟨⟨r₂, t₂⟩, h₂, hres⟩ := Option.map_eq_some_iff.mp h₂
  simp only [Prod.mk.injEq] at hres
  obtain ⟨rfl, rfl⟩ := hres
  -- the first pass leaves the entry as it was but for the offset, now past its two bytes
  have hentry := (filewriteChunk_section fileInv_sharedStart h₁).1.entry
  have hwritable : (t₁.ftable 0).writable = true := by rw [hentry]; rfl
  have hinode : (t₁.ftable 0).type = .inode := by rw [hentry]; rfl
  have hoff : (t₁.ftable 0).off = 2 := by rw [hentry]; rfl
  have hrun := (((((((Run.nil sharedStart).snoc (Step.begin (p := 0) 0 2 rfl rfl rfl)).snoc
    (Step.pass (p := 0) (u := fillMem 97) (by decide) (by decide) h₁)).snoc
    (Step.begin (p := 1) 0 1 rfl hwritable hinode)).snoc
    (Step.pass (p := 1) (u := fillMem 98) rfl (by decide) h₂)).snoc
    (@Step.done 0 _ 0 0 2 2 rfl (le_refl 2))).snoc (@Step.done 0 _ 1 0 1 1 rfl (le_refl 1)))
  exact ⟨_, _, hrun, by simp [ranges, hoff]; rfl, shared_file_offsets fileInv_sharedStart hrun⟩

end Runs

end Shared

end Xv6.Fs
