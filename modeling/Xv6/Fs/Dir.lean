import Xv6.Fs.Inode

/-!
# Directories: `struct dirent`, `namecmp`, `skipelem` and the directory walks

A directory is a file of 16-byte `struct dirent`s: the inode number as a little-endian `ushort`
(`0` for a free entry) and a name of `DIRSIZ` bytes, padded with zeros by `strncpy` when it is
shorter. `dirlookup`, `dirlink` and `isdirempty` each walk the entries from some offset with
`readi` into a `struct dirent` on the kernel stack, panic when a read comes back short, and stop at
the first entry a test accepts; `scanDir` is that walk with the test as parameter.

Names and paths are the bytes before their terminating zero. `namecmp` compares the first `DIRSIZ`
bytes, as `strncmp` does, and `skipelem` cuts a path element to `DIRSIZ` bytes, so that two names
that agree on their first `DIRSIZ` bytes are one name to the file system.
-/

namespace Xv6.Fs

open LittleEndian Vm

/-- `sizeof(struct dirent)`. -/
def direntSize : Nat := 16

def dirsiz : Nat := 14

/-- The byte `'/'`. -/
def slash : UInt8 := 47

/-- The name `"."`. -/
def dot : List UInt8 := [46]

/-- The name `".."`. -/
def dotdot : List UInt8 := [46, 46]

/-- `strncpy(dst, name, n)` for a name without zeros: the first `n` bytes, padded with zeros. -/
def strncpy (name : List UInt8) (n : Nat) : List UInt8 := name.take n ++ List.replicate (n - name.length) 0

/-- The bytes of `struct dirent` with `de.inum = inum` and `strncpy(de.name, name, DIRSIZ)`. -/
def direntBytes (inum : Nat) (name : List UInt8) : List UInt8 :=
  [UInt8.ofNat inum, UInt8.ofNat (inum / 256)] ++ strncpy name dirsiz

/-- `de.inum` of the bytes of a `struct dirent`. -/
def deInum (de : List UInt8) : Nat := (de.getD 0 0).toNat + 256 * (de.getD 1 0).toNat

/-- `de.name` as a string: its bytes up to the first zero, at most `DIRSIZ` of them. -/
def deName (de : List UInt8) : List UInt8 := ((de.drop 2).take dirsiz).takeWhile (· ≠ 0)

/-- Whether `namecmp(s, t) == 0`: the names agree on their first `DIRSIZ` bytes. -/
def namecmp (s t : List UInt8) : Bool := s.take dirsiz == t.take dirsiz

/-- `while(*path == '/') path++`. -/
def skipSlashes : List UInt8 → List UInt8
  | c :: p => if c = slash then skipSlashes p else c :: p
  | [] => []

/-- `skipelem(path, name)`: the next element, cut to `DIRSIZ` bytes, and the rest of the path without
its leading slashes; `none` when no element is left. -/
def skipelem (path : List UInt8) : Option (List UInt8 × List UInt8) :=
  match skipSlashes path with
  | [] => none
  | p => some ((p.takeWhile (· ≠ slash)).take dirsiz, skipSlashes (p.dropWhile (· ≠ slash)))

/-- Kernel memory holding `bytes` from address `0`: the `struct dirent` on the kernel stack that
`readi` reads into and `writei` writes from. -/
def direntMem (bytes : List UInt8) : Memory := ⟨⟨fun _ => false, fun _ => false, fun _ => 0⟩, fun i => bytes.getD i 0⟩

/-- `readi(dp, 0, (uint64)&de, off, sizeof(de))` with its check: the entry's bytes, or `none` for
the panic when the read comes back short. -/
def readDirent (dp : Inode) (off : Nat) (fs : FsState) : Option (List UInt8 × Inode × FsState) :=
  match readi dp false 0 (UInt32.ofNat off) (UInt32.ofNat direntSize) fs (direntMem []) with
  | some (r, dp, fs, mem) => if r = direntSize then some ((List.range direntSize).map mem.kernel, dp, fs) else none
  | none => none

/-- The walk over the entries of a directory from `off`: the first entry `stop` accepts and its
offset, or the offset where the walk ends. Each entry is `DIRSIZ + 2` bytes, so `size` passes are
enough: the fuel is `dp->size`. -/
def scanDir (stop : List UInt8 → Bool) :
    (fuel : Nat) → (off : Nat) → Inode → FsState → Option (Option (List UInt8) × Nat × Inode × FsState)
  | 0, off, dp, fs => some (none, off, dp, fs)
  | fuel + 1, off, dp, fs =>
    if off < dp.size then
      match readDirent dp off fs with
      | none => none
      | some (de, dp, fs) =>
        if stop de then some (some de, off, dp, fs)
        else scanDir stop fuel (off + direntSize) dp fs
    else some (none, off, dp, fs)

/-- The test of `dirlookup`'s loop: an entry in use named `name`. -/
def entryNamed (name : List UInt8) (de : List UInt8) : Bool := deInum de ≠ 0 && namecmp name (deName de)

/-- `isdirempty(dp)`: no entry in use past `.` and `..`. -/
def isdirempty (dp : Inode) (fs : FsState) : Option (Bool × Inode × FsState) :=
  (scanDir (fun de => deInum de ≠ 0) dp.size (2 * direntSize) dp fs).map fun r => (r.1.isNone, r.2.2)

end Xv6.Fs
