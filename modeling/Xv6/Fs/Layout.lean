import Xv6.Param
import Xv6.Library.LittleEndian

/-!
# The on-disk file system: superblock, inodes, the free bitmap, `balloc` and `bfree`

The file-system code of `fs.c` reads blocks with `bread`, changes the buffer's bytes, passes it to
`log_write` and releases it. The state here is what those calls leave: the blocks as `bread` returns
them (`Disk`, the view through the buffer cache, where a holder's change is visible to the next
`bread` of the block), the on-disk inodes, and the blocks passed to `log_write` so far. The inode
blocks are kept decoded, as the table of `struct dinode` that `ialloc`, `ilock` and `iupdate` read
and write, and a write of a `struct dinode` is a write of its block `IBLOCK(inum)`.

The layout is the one `mkfs` writes: boot block, superblock, log, inode blocks, the bitmap, then the
data blocks.
-/

namespace Xv6.Fs

open LittleEndian

/-- The blocks of the device as `bread` returns them. -/
abbrev Disk := Nat → Block

/-- `sizeof(struct dinode)`: four shorts, the size and `NDIRECT + 1` block addresses. -/
def dinodeSize : Nat := 2 * 4 + 4 + 4 * (nDirect + 1)

/-- `IPB`: the inodes of one block. -/
def ipb : Nat := bsize / dinodeSize

/-- `BPB`: the bitmap bits of one block. -/
def bpb : Nat := bsize * 8

/-- `NINODES` of `mkfs.c`. -/
def mkfsNinodes : Nat := 200

def rootino : Nat := 1

/-- `struct superblock` without its magic number. -/
structure Superblock where
  size : Nat
  nblocks : Nat
  ninodes : Nat
  nlog : Nat
  logstart : Nat
  inodestart : Nat
  bmapstart : Nat

/-- The superblock `mkfs` writes: `nmeta = 2 + nlog + ninodeblocks + nbitmap` blocks of metadata,
the rest data blocks. -/
def sb : Superblock :=
  let nbitmap := fsSize / bpb + 1
  let ninodeblocks := mkfsNinodes / ipb + 1
  let nmeta := 2 + mkfsNlog + ninodeblocks + nbitmap
  { size := fsSize
    nblocks := fsSize - nmeta
    ninodes := mkfsNinodes
    nlog := mkfsNlog
    logstart := mkfsLogStart
    inodestart := mkfsLogStart + mkfsNlog
    bmapstart := mkfsLogStart + mkfsNlog + ninodeblocks }

/-- `BBLOCK(b, sb)`: the bitmap block holding the bit of block `b`. -/
def bblock (b : Nat) : Nat := b / bpb + sb.bmapstart

/-- `IBLOCK(i, sb)`: the block holding inode `i`. -/
def iblock (i : Nat) : Nat := i / ipb + sb.inodestart

/-- The values of `type`: free (`0`), `T_DIR`, `T_FILE` and `T_DEVICE`. -/
inductive IType
  | free
  | dir
  | file
  | device
  deriving DecidableEq, Repr

structure Dinode where
  type : IType
  major : Int16
  minor : Int16
  nlink : Int16
  size : Nat
  addrs : Fin (nDirect + 1) → Nat

/-- The state file-system code works on: the blocks as `bread` returns them, the on-disk inodes, and
the blocks passed to `log_write` by the operation so far. -/
structure FsState where
  disk : Disk
  dinode : Nat → Dinode
  logged : List Nat

/-- A change to the bytes of a block held from `bread`. -/
def FsState.write (fs : FsState) (b : Nat) (blk : Block) : FsState := { fs with disk := Function.update fs.disk b blk }

/-- `log_write(bp)` for the buffer of block `b`. -/
def FsState.logWrite (fs : FsState) (b : Nat) : FsState := { fs with logged := fs.logged ++ [b] }

@[simp] theorem FsState.write_disk (fs : FsState) (b : Nat) (blk : Block) :
    (fs.write b blk).disk = Function.update fs.disk b blk := rfl

@[simp] theorem FsState.write_dinode (fs : FsState) (b : Nat) (blk : Block) : (fs.write b blk).dinode = fs.dinode := rfl

@[simp] theorem FsState.write_logged (fs : FsState) (b : Nat) (blk : Block) : (fs.write b blk).logged = fs.logged := rfl

@[simp] theorem FsState.logWrite_disk (fs : FsState) (b : Nat) : (fs.logWrite b).disk = fs.disk := rfl

@[simp] theorem FsState.logWrite_dinode (fs : FsState) (b : Nat) : (fs.logWrite b).dinode = fs.dinode := rfl

@[simp] theorem FsState.logWrite_logged (fs : FsState) (b : Nat) : (fs.logWrite b).logged = fs.logged ++ [b] := rfl

section Bitmap

/-- `m = 1 << (bi % 8)`. -/
def mask (bi : Nat) : UInt8 := 1 <<< (bi % 8).toUInt8

/-- `bp->data[bi/8] & m`, as a test. -/
def bit (bp : Block) (bi : Nat) : Bool := get bp (bi / 8) &&& mask bi != 0

/-- `bp->data[bi/8] |= m`. -/
def setBit (bp : Block) (bi : Nat) : Block := fun i => if i.val = bi / 8 then bp i ||| mask bi else bp i

/-- `bp->data[bi/8] &= ~m`. -/
def clearBit (bp : Block) (bi : Nat) : Block := fun i => if i.val = bi / 8 then bp i &&& ~~~mask bi else bp i

/-- Whether the bitmap marks block `b` in use. -/
def inUse (d : Disk) (b : Nat) : Bool := bit (d (bblock b)) (b % bpb)

/-- The all-zero block `bzero` writes. -/
def zeroBlock : Block := fun _ => 0

/-- The search of `balloc`: the bitmap blocks in order (`b` steps by `BPB` below `sb.size`), and in
each the bits `bi < BPB` with `b + bi < sb.size`; the first clear bit gives block `b + bi`. -/
def ballocSearch (d : Disk) : Option Nat :=
  (List.range ((sb.size + bpb - 1) / bpb)).findSome? fun k =>
    ((List.range (min bpb (sb.size - k * bpb))).find? fun bi => !bit (d (bblock (k * bpb))) bi).map (k * bpb + ·)

/-- `balloc`: mark the first free block in use, zero it, and return it; `0` when the disk is full. -/
def balloc (fs : FsState) : Nat × FsState :=
  match ballocSearch fs.disk with
  | some b =>
    let fs := (fs.write (bblock b) (setBit (fs.disk (bblock b)) (b % bpb))).logWrite (bblock b)
    (b, (fs.write b zeroBlock).logWrite b)
  | none => (0, fs)

/-- `bfree`; `none` is the panic "freeing free block". -/
def bfree (fs : FsState) (b : Nat) : Option FsState :=
  if bit (fs.disk (bblock b)) (b % bpb) then
    some ((fs.write (bblock b) (clearBit (fs.disk (bblock b)) (b % bpb))).logWrite (bblock b))
  else none

end Bitmap

theorem balloc_of_search_none {fs : FsState} (h : ballocSearch fs.disk = none) : balloc fs = (0, fs) := by
  unfold balloc
  rw [h]

theorem balloc_of_search_some {fs : FsState} {b : Nat} (h : ballocSearch fs.disk = some b) :
    balloc fs = (b, ((((fs.write (bblock b) (setBit (fs.disk (bblock b)) (b % bpb))).logWrite (bblock b)).write b
      zeroBlock).logWrite b)) := by
  unfold balloc
  rw [h]

/-- `balloc` leaves the on-disk inodes alone. -/
@[simp] theorem balloc_dinode (fs : FsState) : (balloc fs).2.dinode = fs.dinode := by
  cases h : ballocSearch fs.disk with
  | none => rw [balloc_of_search_none h]
  | some b => rw [balloc_of_search_some h]; rfl

/-- The only blocks `balloc` changes are the bitmap block and the block it returns. -/
theorem balloc_disk_of_ne {fs : FsState} {a : Nat} (ha : a ≠ (balloc fs).1) (hb : a ≠ bblock (balloc fs).1) :
    (balloc fs).2.disk a = fs.disk a := by
  cases h : ballocSearch fs.disk with
  | none => rw [balloc_of_search_none h]
  | some b =>
    rw [balloc_of_search_some h] at ha hb ⊢
    simp only [FsState.logWrite_disk, FsState.write_disk]
    rw [Function.update_of_ne ha, Function.update_of_ne hb]

end Xv6.Fs
