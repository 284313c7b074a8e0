import Mathlib

/-!
# Constants of `param.h` and `fs.h`

The sizes the modelled code reads, under the macro names of the two headers in lower camel case,
and the geometry of the log region as `mkfs` writes it into the superblock. A block is `bsize` bytes.
-/

namespace Xv6

/-- `NPROC`: the number of slots of the process table. -/
def nproc : Nat := 64

instance : NeZero nproc := ⟨by decide⟩

/-- `NOFILE`: the open files of one process. -/
def nofile : Nat := 16

/-- `NFILE`: the open files of the system. -/
def nfile : Nat := 100

instance : NeZero nfile := ⟨by decide⟩

/-- `NINODE`: the slots of the in-memory inode table. -/
def ninode : Nat := 50

instance : NeZero ninode := ⟨by decide⟩

/-- `MAXARG`: the arguments `exec` takes. -/
def maxarg : Nat := 32

/-- `MAXPATH`: the bytes of a path name that system calls copy in, its NUL included. -/
def maxpath : Nat := 128

/-- `NDEV`: the major device numbers. -/
def ndev : Nat := 10

/-- `MAXOPBLOCKS`: the blocks one file-system operation may write. -/
def maxOpBlocks : Nat := 10

/-- `LOGSIZE`: documented as the data blocks of the on-disk log. -/
def logSize : Nat := maxOpBlocks * 3

/-- `NBUF`: the buffers of the block cache. -/
def nbuf : Nat := maxOpBlocks * 3

/-- `FSSIZE`: the blocks of the file system image. -/
def fsSize : Nat := 2000

/-- `BSIZE`: the bytes of a block. -/
def bsize : Nat := 1024

/-- `NDIRECT`: the direct block addresses of an inode. -/
def nDirect : Nat := 12

/-- `NINDIRECT`: the block addresses an indirect block holds, `BSIZE / sizeof(uint)`. -/
def nIndirect : Nat := bsize / 4

/-- `MAXFILE`: the blocks a file can have. -/
def maxFile : Nat := nDirect + nIndirect

/-- The contents of one disk block. -/
abbrev Block := Fin bsize → UInt8

/-- `sb.logstart` as `mkfs` writes it: the log follows the boot block and the superblock. -/
def mkfsLogStart : Nat := 2

/-- `sb.nlog` as `mkfs` writes it (`nlog = LOGSIZE`): the header block and the data slots together. -/
def mkfsNlog : Nat := logSize

end Xv6
