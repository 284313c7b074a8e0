import Xv6.Fs.Dir

/-!
# The inode table and path names: `iget`, `ilock`, `iput`, `ialloc`, `dirlookup`, `dirlink`, `namex`

The system state of the file-system calls: the blocks and on-disk inodes, the `NINODE` slots of
`itable` (a `struct inode *` is a slot index), the `NFILE` entries of `ftable`, and for each process
its current directory and its `ofile` array. A slot holds an inode number, a reference count,
`valid`, and the copy of the `struct dinode` that `ilock` loads and `iupdate` writes back.

Each function returns `none` for a panic. The sleep-locks are not modelled: a system call here runs
as one step, as it does under the inode locks it takes, and `iunlock` changes nothing.
-/

namespace Xv6.Fs

/-- The in-memory `struct inode` of one slot of `itable`. -/
structure Slot where
  inum : Nat
  ref : Nat
  valid : Bool
  copy : Dinode

/-- A pointer into `itable`. -/
abbrev Iptr := Fin ninode

/-- The types of `struct file` that the modelled calls create. -/
inductive FileType
  | none
  | inode
  | device
  deriving DecidableEq, Repr

/-- `struct file`. -/
structure File where
  type : FileType
  ref : Nat
  readable : Bool
  writable : Bool
  ip : Iptr
  off : Nat
  major : Int16

/-- The file-system part of a `struct proc`: `cwd` and `ofile`. -/
structure ProcFiles where
  cwd : Iptr
  ofile : Fin nofile → Option (Fin nfile)

/-- The state the file-system calls work on. A process slot is `none` when it holds no process. -/
structure Sys where
  fs : FsState
  itable : Iptr → Slot
  ftable : Fin nfile → File
  proc : Fin nproc → Option ProcFiles

/-- The inode in slot `ip`: the copy of its `struct dinode` under its number. -/
def Sys.inode (s : Sys) (ip : Iptr) : Inode := ⟨(s.itable ip).copy, (s.itable ip).inum⟩

def Sys.setSlot (s : Sys) (ip : Iptr) (e : Slot) : Sys := { s with itable := Function.update s.itable ip e }

/-- Store changed fields of the inode in slot `ip` back into the slot. -/
def Sys.setInode (s : Sys) (ip : Iptr) (x : Inode) : Sys := s.setSlot ip { s.itable ip with copy := x.toDinode }

def Sys.setFs (s : Sys) (fs : FsState) : Sys := { s with fs := fs }

/-- The `struct dinode` of a free inode: all zero. -/
def zeroDinode : Dinode := ⟨.free, 0, 0, 0, 0, fun _ => 0⟩

/-- `iget(dev, inum)`: the slot already holding `inum` with one more reference, or else the first
free slot, which is not `valid`; `none` is the panic "iget: no inodes". -/
def iget (s : Sys) (inum : Nat) : Option (Iptr × Sys) :=
  match (List.finRange ninode).find? (fun i => 0 < (s.itable i).ref && (s.itable i).inum == inum) with
  | some i => some (i, s.setSlot i { s.itable i with ref := (s.itable i).ref + 1 })
  | none =>
    match (List.finRange ninode).find? (fun i => (s.itable i).ref == 0) with
    | some i => some (i, s.setSlot i { s.itable i with inum := inum, ref := 1, valid := false })
    | none => none

def idup (s : Sys) (ip : Iptr) : Sys := s.setSlot ip { s.itable ip with ref := (s.itable ip).ref + 1 }

/-- `ilock(ip)`: load the copy if it is not `valid`; `none` is the panic "ilock", or "ilock: no type"
when the loaded inode is free. -/
def ilock (s : Sys) (ip : Iptr) : Option Sys :=
  let e := s.itable ip
  if e.ref < 1 then none
  else if e.valid then some s
  else if (s.fs.dinode e.inum).type = .free then none
  else some (s.setSlot ip { e with copy := s.fs.dinode e.inum, valid := true })

/-- `iupdate(ip)` on the slot. -/
def Sys.iupdate (s : Sys) (ip : Iptr) : Sys := s.setFs (Fs.iupdate (s.inode ip) s.fs)

/-- `iput(ip)`: drop a reference; the last reference to a loaded inode with no links truncates and
frees it. -/
def iput (s : Sys) (ip : Iptr) : Option Sys :=
  let e := s.itable ip
  if e.ref = 1 ∧ e.valid ∧ e.copy.nlink = 0 then
    match itrunc (s.inode ip) s.fs with
    | none => none
    | some (x, fs) =>
      let x := { x with type := .free }
      some ((s.setFs (Fs.iupdate x fs)).setSlot ip { e with copy := x.toDinode, valid := false, ref := 0 })
  else some (s.setSlot ip { e with ref := e.ref - 1 })

/-- `ialloc(dev, type)`: mark the first free on-disk inode allocated with `type` and return it
through `iget`; `none` as result when every inode is in use. -/
def ialloc (s : Sys) (type : IType) : Option (Option Iptr × Sys) :=
  match (List.range sb.ninodes).find? (fun inum => 1 ≤ inum && (s.fs.dinode inum).type == .free) with
  | none => some (none, s)
  | some inum =>
    let fs := ({ s.fs with dinode := Function.update s.fs.dinode inum { zeroDinode with type := type } } : FsState)
    (iget (s.setFs (fs.logWrite (iblock inum))) inum).map fun r => (some r.1, r.2)

section Dir

/-- `dirlookup(dp, name, &off)`: the entry's inode through `iget`, and its offset. -/
def dirlookup (s : Sys) (dp : Iptr) (name : List UInt8) : Option (Option (Iptr × Nat) × Sys) :=
  let d := s.inode dp
  if d.type ≠ .dir then none
  else
    match scanDir (entryNamed name) d.size 0 d s.fs with
    | none => none
    | some (none, _, d, fs) => some (none, (s.setInode dp d).setFs fs)
    | some (some de, off, d, fs) =>
      (iget ((s.setInode dp d).setFs fs) (deInum de)).map fun r => (some (r.1, off), r.2)

/-- `dirlink(dp, name, inum)`: `-1` when the name is present or the write of the entry falls short. -/
def dirlink (s : Sys) (dp : Iptr) (name : List UInt8) (inum : Nat) : Option (Int × Sys) :=
  match dirlookup s dp name with
  | none => none
  | some (some (ip, _), s) => (iput s ip).map fun s => (-1, s)
  | some (none, s) =>
    let d := s.inode dp
    match scanDir (fun de => deInum de == 0) d.size 0 d s.fs with
    | none => none
    | some (_, off, d, fs) =>
      match writei d false 0 (UInt32.ofNat off) (UInt32.ofNat direntSize) fs (direntMem (direntBytes inum name)) with
      | none => none
      | some (r, d, fs) => some (if r = direntSize then 0 else -1, (s.setInode dp d).setFs fs)

end Dir

section Namex

/-- The end of `namex`'s loop: `nameiparent` drops the inode and returns `0`. -/
def namexEnd (nameiparent : Bool) (s : Sys) (ip : Iptr) : Option (Option (Iptr × List UInt8) × Sys) :=
  if nameiparent then (iput s ip).map fun s => (none, s) else some (some (ip, []), s)

/-- `namex`'s loop from inode `ip`: one path element per pass, so `path.length + 1` passes are enough. -/
def namexLoop (nameiparent : Bool) : (fuel : Nat) → List UInt8 → Iptr → Sys → Option (Option (Iptr × List UInt8) × Sys)
  | 0, _, ip, s => namexEnd nameiparent s ip
  | fuel + 1, path, ip, s =>
    match skipelem path with
    | none => namexEnd nameiparent s ip
    | some (name, path) =>
      match ilock s ip with
      | none => none
      | some s =>
        if (s.inode ip).type ≠ .dir then (iput s ip).map fun s => (none, s)
        else if nameiparent ∧ path = [] then some (some (ip, name), s)
        else
          match dirlookup s ip name with
          | none => none
          | some (none, s) => (iput s ip).map fun s => (none, s)
          | some (some (next, _), s) =>
            match iput s ip with
            | none => none
            | some s => namexLoop nameiparent fuel path next s

/-- `namex(path, nameiparent, name)` for a process whose current directory is `cwd`: the inode, and
with `nameiparent` the last path element. -/
def namex (s : Sys) (cwd : Iptr) (path : List UInt8) (nameiparent : Bool) :
    Option (Option (Iptr × List UInt8) × Sys) :=
  let start := if path.head? = some slash then iget s rootino else some (cwd, idup s cwd)
  start.bind fun r => namexLoop nameiparent (path.length + 1) path r.1 r.2

def namei (s : Sys) (cwd : Iptr) (path : List UInt8) : Option (Option Iptr × Sys) :=
  (namex s cwd path false).map fun r => (r.1.map Prod.fst, r.2)

def nameiparent (s : Sys) (cwd : Iptr) (path : List UInt8) : Option (Option (Iptr × List UInt8) × Sys) :=
  namex s cwd path true

end Namex

end Xv6.Fs
