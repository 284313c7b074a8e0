import Xv6.Fs.Dir

/-!
# `mkfs`: the initial file system image

`mkfs` zeroes `FSSIZE` blocks, makes the root directory with `.` and `..`, and for each input file
allocates an inode, appends a directory entry to the root and appends the file's bytes, `read` by
`read` of at most `BSIZE` bytes. Blocks come from its own counter `freeblock`, from the first
block after the metadata on, and `iappend` fills the direct blocks and then the indirect block as the
kernel's `bmap` reads them. At the end it rounds the root's size up past its last block and writes
the bitmap with the first `freeblock` bits set.

The image is the kernel's view of `Xv6.Fs.Layout`: the blocks, and the inodes decoded as the
`struct dinode`s that `winode` writes with `xint` and `xshort`. The superblock `mkfs` writes is the
layout `sb` the kernel model is built on. `mkfs` stops (`none`) where it calls `die` or an `assert`
fails: a name with a `'/'`, a file past `MAXFILE` blocks, a read of a block past the image, which is
how a `freeblock` past `FSSIZE` shows, and a bitmap of `BSIZE * 8` blocks or more.

The rounding of the root's size is `((off / BSIZE) + 1) * BSIZE`: when the entries end exactly at a
block boundary it adds a whole block that `iappend` never allocated. With `62` input files the root
holds `64` entries, `1024` bytes, and the image has a root of `2048` bytes whose block `1` has no
address: a hole below its size (`mkfs_root_hole`).
-/

namespace Xv6.Fs.Mkfs

open LittleEndian Bytes

/-- What `mkfs` keeps as it writes the image: the blocks, the inodes, `freeinode` and `freeblock`. -/
structure MkfsState where
  disk : Disk
  dinode : Nat → Dinode
  freeinode : Nat
  freeblock : Nat

/-- `nmeta`: boot block, superblock, log, inode blocks and bitmap. -/
def nmeta : Nat := 2 + mkfsNlog + (mkfsNinodes / ipb + 1) + (fsSize / bpb + 1)

/-- The all-zero `struct dinode`. -/
def zeroDinode : Dinode := ⟨.free, 0, 0, 0, 0, fun _ => 0⟩

/-- The image after `wsect(i, zeroes)` for every block, with `freeinode = 1` and `freeblock = nmeta`. -/
def start : MkfsState := ⟨fun _ => zeroBlock, fun _ => zeroDinode, 1, nmeta⟩

/-- `rsect(sec, buf)`: a block past the image is a short read, and `die("read")`. -/
def rsect (m : MkfsState) (sec : Nat) : Option Block := if sec < fsSize then some (m.disk sec) else none

/-- `ialloc(type)`: the next inode, with one link and no blocks. -/
def ialloc (type : IType) (m : MkfsState) : Nat × MkfsState :=
  (m.freeinode,
    { m with freeinode := m.freeinode + 1,
             dinode := Function.update m.dinode m.freeinode { zeroDinode with type := type, nlink := 1 } })

/-- `din.addrs[slot] = xint(freeblock++)` when the slot is empty. -/
def allocAddr (din : Dinode) (slot : Fin (nDirect + 1)) (m : MkfsState) : Dinode × MkfsState :=
  if din.addrs slot = 0 then
    ({ din with addrs := Function.update din.addrs slot m.freeblock }, { m with freeblock := m.freeblock + 1 })
  else (din, m)

/-- The block `iappend` writes block `fbn` of `din` into: a direct slot, or an entry of the indirect
block, each allocated from `freeblock` when it is `0`. -/
def blockFor (din : Dinode) (fbn : Nat) (m : MkfsState) : Option (Dinode × Nat × MkfsState) :=
  if h : fbn < nDirect then
    let r := allocAddr din ⟨fbn, by omega⟩ m
    some (r.1, r.1.addrs ⟨fbn, by omega⟩, r.2)
  else
    let r := allocAddr din indirectSlot m
    let din := r.1
    let m := r.2
    let ind := din.addrs indirectSlot
    match rsect m ind with
    | none => none
    | some indirect =>
      if load indirect (4 * (fbn - nDirect)) = 0 then
        let indirect := store indirect (4 * (fbn - nDirect)) (UInt32.ofNat m.freeblock)
        some (din, (load indirect (4 * (fbn - nDirect))).toNat,
          { m with disk := Function.update m.disk ind indirect, freeblock := m.freeblock + 1 })
      else some (din, (load indirect (4 * (fbn - nDirect))).toNat, m)

/-- The loop of `iappend(inum, p, n)` from `off`, with the bytes `p` left to append: each pass copies
up to the end of block `off / BSIZE`. Every pass but the last appends a byte, so `p.length + 1` passes
are enough. -/
def iappendLoop : (fuel : Nat) → Dinode → Nat → List UInt8 → MkfsState → Option (Nat × Dinode × MkfsState)
  | 0, _, _, _, _ => none
  | fuel + 1, din, off, p, m =>
    if p = [] then some (off, din, m)
    else
      let fbn := off / bsize
      if fbn < maxFile then
        match blockFor din fbn m with
        | none => none
        | some (din, x, m) =>
          let n1 := min p.length ((fbn + 1) * bsize - off)
          match rsect m x with
          | none => none
          | some buf =>
            let buf := toBlock (copy (get buf) (off - fbn * bsize) (fun j => p.getD j 0) n1)
            iappendLoop fuel din (off + n1) (p.drop n1) { m with disk := Function.update m.disk x buf }
      else none

/-- `iappend(inum, p, n)`: append the bytes `p` to inode `inum`. -/
def iappend (inum : Nat) (p : List UInt8) (m : MkfsState) : Option MkfsState :=
  let din := m.dinode inum
  match iappendLoop (p.length + 1) din din.size p m with
  | none => none
  | some (off, din, m) => some { m with dinode := Function.update m.dinode inum { din with size := off } }

/-- `while((cc = read(fd, buf, sizeof(buf))) > 0) iappend(inum, buf, cc)` over the bytes `c` of a
file. -/
def appendContent (inum : Nat) : (fuel : Nat) → List UInt8 → MkfsState → Option MkfsState
  | 0, _, m => some m
  | fuel + 1, c, m =>
    if c = [] then some m
    else
      match iappend inum (c.take bsize) m with
      | none => none
      | some m => appendContent inum fuel (c.drop bsize) m

/-- The bytes `"user/"`. -/
def userDir : List UInt8 := [117, 115, 101, 114, 47]

/-- The byte `'_'`. -/
def underscore : UInt8 := 95

/-- One input file, with path `file.1` and bytes `file.2`: the name without `"user/"` must hold no
`'/'`, and loses a leading `'_'`; the file gets the next inode and an entry in the root. -/
def addFile (m : MkfsState) (file : List UInt8 × List UInt8) : Option MkfsState :=
  let shortname := if userDir <+: file.1 then file.1.drop 5 else file.1
  if slash ∈ shortname then none
  else
    let shortname := if shortname.head? = some underscore then shortname.tail else shortname
    let r := ialloc .file m
    match iappend rootino (direntBytes r.1 shortname) r.2 with
    | none => none
    | some m => appendContent r.1 file.2.length file.2 m

/-- The bitmap block `balloc(used)` writes: the bits of blocks `0` to `used - 1` set. -/
def bitmapBlock (used : Nat) : Block := (List.range used).foldl setBit zeroBlock

/-- `balloc(used)`: `assert(used < BSIZE*8)`, then write the bitmap. -/
def balloc (used : Nat) (m : MkfsState) : Option MkfsState :=
  if used < bsize * 8 then some { m with disk := Function.update m.disk sb.bmapstart (bitmapBlock used) } else none

/-- The root's size rounded as `mkfs` fixes it: `((off / BSIZE) + 1) * BSIZE`. -/
def fixRoot (m : MkfsState) : MkfsState :=
  let din := m.dinode rootino
  { m with dinode := Function.update m.dinode rootino { din with size := (din.size / bsize + 1) * bsize } }

/-- `main` of `mkfs.c` on the input files, each a path and its bytes: the image, or `none` where it
stops. -/
def mkfs (files : List (List UInt8 × List UInt8)) : Option FsState :=
  let r := ialloc .dir start
  if r.1 ≠ rootino then none
  else
    match iappend rootino (direntBytes rootino dot) r.2 with
    | none => none
    | some m =>
      match iappend rootino (direntBytes rootino dotdot) m with
      | none => none
      | some m =>
        match files.foldlM addFile m with
        | none => none
        | some m =>
          match balloc (fixRoot m).freeblock (fixRoot m) with
          | none => none
          | some m => some ⟨m.disk, m.dinode, []⟩

section Frame

/-! The appends change the blocks, `freeblock` and the inode they append to; nothing else. -/

variable {din din' : Dinode} {m m' : MkfsState}

@[simp] theorem allocAddr_dinode (din : Dinode) (slot : Fin (nDirect + 1)) (m : MkfsState) :
    (allocAddr din slot m).2.dinode = m.dinode := by
  unfold allocAddr
  split_ifs <;> rfl

@[simp] theorem allocAddr_freeinode (din : Dinode) (slot : Fin (nDirect + 1)) (m : MkfsState) :
    (allocAddr din slot m).2.freeinode = m.freeinode := by
  unfold allocAddr
  split_ifs <;> rfl

theorem allocAddr_addrs_of_ne {slot j : Fin (nDirect + 1)} (hj : j ≠ slot) :
    (allocAddr din slot m).1.addrs j = din.addrs j := by
  unfold allocAddr
  split_ifs <;> simp [Function.update_of_ne hj]

theorem blockFor_frame {fbn x : Nat} (h : blockFor din fbn m = some (din', x, m')) :
    m'.dinode = m.dinode ∧ m'.freeinode = m.freeinode := by
  unfold blockFor at h
  dsimp only at h
  split_ifs at h with hd
  · cases h
    simp
  · split at h
    · cases h
    · split_ifs at h <;> cases h <;> simp

/-- A direct block's allocation touches no other slot. -/
theorem blockFor_addrs_of_direct {fbn x : Nat} (hd : fbn < nDirect) (h : blockFor din fbn m = some (din', x, m'))
    {j : Fin (nDirect + 1)} (hj : j.val ≠ fbn) : din'.addrs j = din.addrs j := by
  rw [blockFor, dif_pos hd] at h
  cases h
  exact allocAddr_addrs_of_ne (Fin.ne_of_val_ne hj)

theorem iappendLoop_frame : ∀ {fuel off off' : Nat} {din din' : Dinode} {p : List UInt8} {m m' : MkfsState},
    iappendLoop fuel din off p m = some (off', din', m') → m'.dinode = m.dinode ∧ m'.freeinode = m.freeinode := by
  intro fuel
  induction fuel with
  | zero => intro _ _ _ _ _ _ _ h; cases h
  | succ fuel ih =>
    intro off off' din din' p m m' h
    unfold iappendLoop at h
    dsimp only at h
    split_ifs at h with hp hfbn
    · cases h
      exact ⟨rfl, rfl⟩
    · split at h
      · cases h
      · rename_i din₁ x m₁ hblock
        obtain ⟨hd, hi⟩ := blockFor_frame hblock
        split at h
        · cases h
        · obtain ⟨hd', hi'⟩ := ih h
          exact ⟨hd'.trans hd, hi'.trans hi⟩

/-- An append within the first block ends `p.length` bytes on and touches no slot but the first. -/
theorem iappendLoop_first_block : ∀ {fuel off off' : Nat} {din din' : Dinode} {p : List UInt8} {m m' : MkfsState},
    off + p.length ≤ bsize → iappendLoop fuel din off p m = some (off', din', m') →
    off' = off + p.length ∧ ∀ j : Fin (nDirect + 1), j.val ≠ 0 → din'.addrs j = din.addrs j := by
  intro fuel
  induction fuel with
  | zero => intro _ _ _ _ _ _ _ _ h; cases h
  | succ fuel ih =>
    intro off off' din din' p m m' hfit h
    unfold iappendLoop at h
    dsimp only at h
    split_ifs at h with hp hfbn
    · cases h
      simp [hp]
    · -- the pass writes block `0`, and all of `p` fits in it
      have hlen : 0 < p.length := List.length_pos_iff.mpr hp
      have hfbn0 : off / bsize = 0 := Nat.div_eq_of_lt (by omega)
      split at h
      · cases h
      · rename_i din₁ x m₁ hblock
        split at h
        · cases h
        · have hn1 : min p.length ((off / bsize + 1) * bsize - off) = p.length := by
            rw [hfbn0]
            omega
          rw [hn1, List.drop_length] at h
          obtain ⟨hoff, haddrs⟩ := ih (by simp; omega) h
          refine ⟨by simpa using hoff, fun j hj => ?_⟩
          rw [haddrs j hj, blockFor_addrs_of_direct (by rw [hfbn0]; decide) hblock (by rw [hfbn0]; exact hj)]

theorem iappend_frame {inum : Nat} {p : List UInt8} (h : iappend inum p m = some m') :
    (∀ j, j ≠ inum → m'.dinode j = m.dinode j) ∧ m'.freeinode = m.freeinode := by
  unfold iappend at h
  dsimp only at h
  split at h
  · cases h
  · rename_i off din₁ m₁ hloop
    cases h
    obtain ⟨hd, hi⟩ := iappendLoop_frame hloop
    exact ⟨fun j hj => by simp [Function.update_of_ne hj, hd], hi⟩

/-- An append that stays within the inode's first block grows its size by the bytes appended and
touches no slot but the first. -/
theorem iappend_first_block {inum : Nat} {p : List UInt8} (hfit : (m.dinode inum).size + p.length ≤ bsize)
    (h : iappend inum p m = some m') :
    (m'.dinode inum).size = (m.dinode inum).size + p.length ∧
      ∀ j : Fin (nDirect + 1), j.val ≠ 0 → (m'.dinode inum).addrs j = (m.dinode inum).addrs j := by
  unfold iappend at h
  dsimp only at h
  split at h
  · cases h
  · rename_i off din₁ m₁ hloop
    cases h
    obtain ⟨hoff, haddrs⟩ := iappendLoop_first_block hfit hloop
    exact ⟨by simp [hoff], fun j hj => by simpa using haddrs j hj⟩

theorem appendContent_frame {inum : Nat} : ∀ {fuel : Nat} {c : List UInt8} {m m' : MkfsState},
    appendContent inum fuel c m = some m' → (∀ j, j ≠ inum → m'.dinode j = m.dinode j) ∧ m'.freeinode = m.freeinode := by
  intro fuel
  induction fuel with
  | zero => intro _ _ _ h; cases h; exact ⟨fun _ _ => rfl, rfl⟩
  | succ fuel ih =>
    intro c m m' h
    unfold appendContent at h
    split_ifs at h
    · cases h
      exact ⟨fun _ _ => rfl, rfl⟩
    · split at h
      · cases h
      · rename_i m₁ happend
        obtain ⟨hd, hi⟩ := iappend_frame happend
        obtain ⟨hd', hi'⟩ := ih h
        exact ⟨fun j hj => (hd' j hj).trans (hd j hj), hi'.trans hi⟩

end Frame

section Root

/-- The root after `k` input files, while its entries fit in its first block: it holds `k + 2`
entries, in block `0` alone, and every inode `mkfs` still gives out lies above it. -/
structure RootInv (m : MkfsState) (k : Nat) : Prop where
  freeinode : rootino < m.freeinode
  size : (m.dinode rootino).size = direntSize * (k + 2)
  addrs : ∀ j : Fin (nDirect + 1), j.val ≠ 0 → (m.dinode rootino).addrs j = 0

theorem length_direntBytes (inum : Nat) (name : List UInt8) : (direntBytes inum name).length = direntSize := by
  simp [direntBytes, strncpy, dirsiz, direntSize]
  omega

/-- One input file is an entry in the root for the next inode, then the file's bytes. -/
theorem addFile_cases {m m' : MkfsState} {file : List UInt8 × List UInt8} (h : addFile m file = some m') :
    ∃ name m₁, iappend rootino (direntBytes m.freeinode name) (ialloc .file m).2 = some m₁ ∧
      appendContent m.freeinode file.2.length file.2 m₁ = some m' := by
  unfold addFile at h
  dsimp only at h
  split_ifs at h <;>
  · split at h
    · cases h
    · exact ⟨_, _, ‹_›, h⟩

/-- The entry of one more input file keeps the root in its first block while it holds at most `64`
entries. -/
theorem RootInv.addFile {m m' : MkfsState} {k : Nat} {file : List UInt8 × List UInt8} (hinv : RootInv m k)
    (hk : k + 3 ≤ bsize / direntSize) (h : Mkfs.addFile m file = some m') : RootInv m' (k + 1) := by
  obtain ⟨name, m₁, hroot, hcontent⟩ := addFile_cases h
  have hne : m.freeinode ≠ rootino := Nat.ne_of_gt hinv.freeinode
  -- `ialloc` leaves the root alone
  have hdin : (ialloc .file m).2.dinode rootino = m.dinode rootino := by
    simp [ialloc, Function.update_of_ne hne.symm]
  have hfit : ((ialloc .file m).2.dinode rootino).size + (direntBytes m.freeinode name).length ≤ bsize := by
    rw [hdin, hinv.size, length_direntBytes]
    simp only [direntSize, bsize] at hk ⊢
    omega
  obtain ⟨hsize, haddrs⟩ := iappend_first_block hfit hroot
  obtain ⟨-, hfree₁⟩ := iappend_frame hroot
  obtain ⟨hd, hfree₂⟩ := appendContent_frame hcontent
  have hroot' : m'.dinode rootino = m₁.dinode rootino := hd rootino hne.symm
  refine ⟨?_, ?_, fun j hj => ?_⟩
  · rw [hfree₂, hfree₁]
    simp only [ialloc]
    have := hinv.freeinode
    omega
  · rw [hroot', hsize, hdin, hinv.size, length_direntBytes]
    ring
  · rw [hroot', haddrs j hj, hdin, hinv.addrs j hj]

theorem RootInv.foldlM : ∀ {files : List (List UInt8 × List UInt8)} {m m' : MkfsState} {k : Nat}, RootInv m k →
    k + files.length + 2 ≤ bsize / direntSize → files.foldlM Mkfs.addFile m = some m' → RootInv m' (k + files.length) := by
  intro files
  induction files with
  | nil => intro m m' k hinv _ h; cases h; exact hinv
  | cons file files ih =>
    intro m m' k hinv hk h
    rw [List.foldlM_cons] at h
    cases hadd : Mkfs.addFile m file with
    | none => simp [hadd] at h
    | some m₁ =>
      simp only [hadd, Option.bind_eq_bind, Option.bind_some] at h
      simp only [List.length_cons] at hk ⊢
      have hinv₁ := hinv.addFile (by omega) hadd
      rw [show k + (files.length + 1) = k + 1 + files.length by omega]
      exact ih hinv₁ (by omega) h

/-- After `.` and `..` the root holds two entries in its first block. -/
theorem rootInv_start {m₀ m₁ m₂ : MkfsState} (h₀ : ialloc .dir start = (rootino, m₀))
    (h₁ : iappend rootino (direntBytes rootino dot) m₀ = some m₁) (h₂ : iappend rootino (direntBytes rootino dotdot) m₁ = some m₂) :
    RootInv m₂ 0 := by
  have hroot₀ : m₀.dinode rootino = { zeroDinode with type := .dir, nlink := 1 } := by
    simp only [ialloc, start, Prod.mk.injEq] at h₀
    rw [← h₀.2, h₀.1]
    simp
  have hsize₀ : (m₀.dinode rootino).size = 0 := by rw [hroot₀]; rfl
  obtain ⟨hsize₁, haddrs₁⟩ := iappend_first_block (by rw [hsize₀, length_direntBytes]; decide) h₁
  obtain ⟨hsize₂, haddrs₂⟩ := iappend_first_block (by rw [hsize₁, hsize₀, length_direntBytes, length_direntBytes]; decide) h₂
  obtain ⟨-, hfree₁⟩ := iappend_frame h₁
  obtain ⟨-, hfree₂⟩ := iappend_frame h₂
  refine ⟨?_, ?_, fun j hj => ?_⟩
  · rw [hfree₂, hfree₁]
    simp only [ialloc, start, Prod.mk.injEq] at h₀
    rw [← h₀.2]
    decide
  · rw [hsize₂, hsize₁, hsize₀, length_direntBytes, length_direntBytes]
    omega
  · rw [haddrs₂ j hj, haddrs₁ j hj, hroot₀]
    rfl

theorem balloc_dinode {used : Nat} {m m' : MkfsState} (h : balloc used m = some m') : m'.dinode = m.dinode := by
  unfold balloc at h
  split_ifs at h
  cases h
  rfl

end Root

section Hole

/-- Whenever `mkfs` writes an image from `62` input files, whatever their names and contents, the
root directory holds `64` entries, exactly one block, and `mkfs` rounds its size to two blocks: block
`1` of the root has no address, a hole below its size. -/
theorem mkfs_root_hole {files : List (List UInt8 × List UInt8)} (hlen : files.length = 62) {img : FsState}
    (h : mkfs files = some img) :
    (img.dinode rootino).size = 2 * bsize ∧ blockAddr img (diskInode img rootino) 1 = 0 ∧
      ¬ NoHoles img (diskInode img rootino) := by
  unfold mkfs at h
  dsimp only at h
  split_ifs at h with hroot
  split at h
  · cases h
  · rename_i m₁ h₁
    split at h
    · cases h
    · rename_i m₂ h₂
      split at h
      · cases h
      · rename_i m₃ h₃
        split at h
        · cases h
        · rename_i m₄ h₄
          cases h
          have hinv : RootInv m₃ 62 := by
            simpa [hlen] using (rootInv_start (Prod.ext (not_not.mp hroot) rfl) h₁ h₂).foldlM
              (by rw [hlen]; decide) h₃
          -- the image's root is the root `fixRoot` rounded
          have hdin : m₄.dinode rootino = { m₃.dinode rootino with size := 2 * bsize } := by
            rw [balloc_dinode h₄]
            simp [fixRoot, hinv.size, direntSize, bsize]
          have haddr : blockAddr ⟨m₄.disk, m₄.dinode, []⟩ (diskInode ⟨m₄.disk, m₄.dinode, []⟩ rootino) 1 = 0 := by
            simp [blockAddr, diskInode, hdin, nDirect]
            exact hinv.addrs ⟨1, by decide⟩ (by decide)
          refine ⟨by simp [hdin], haddr, fun hholes => ?_⟩
          -- byte `1024` lies below the size, in block `1`
          have := hholes bsize (by simp [diskInode, hdin, bsize])
          rw [Nat.div_self (by decide)] at this
          exact this haddr

/-- `mkfs` on sixty-two empty files named `a`, `b`, and so on completes, with the hole. -/
theorem mkfs_root_hole_empty_files :
    ∃ img, mkfs ((List.range 62).map fun i => ([UInt8.ofNat (97 + i)], [])) = some img ∧
      (img.dinode rootino).size = 2 * bsize ∧ blockAddr img (diskInode img rootino) 1 = 0 ∧
      ¬ NoHoles img (diskInode img rootino) := by
  obtain ⟨img, himg⟩ := Option.isSome_iff_exists.mp
    (show (mkfs ((List.range 62).map fun i => ([UInt8.ofNat (97 + i)], []))).isSome = true by decide)
  exact ⟨img, himg, mkfs_root_hole (by simp) himg⟩

end Hole

end Xv6.Fs.Mkfs
