import Xv6.Fs.Itable
import Xv6.Library.Run

/-!
# The file-system system calls: `create`, `sys_open`, `sys_mkdir`, `sys_mknod`, `sys_link`,
# `sys_unlink`, `sys_chdir`, `sys_close`, and the file-system part of `fork` and `exit`

Each call runs as one step of `Step` from the `mkfs` image with `init` as its one process, starts a
new transaction (the blocks passed to `log_write` start empty), and returns what the system call
returns to the user; `none` is a panic, or a call by a process slot that holds no process. Path and
mode arguments are taken as `argstr` and `argint` have fetched them.
-/

namespace Xv6.Fs

/-- The `open` mode bits of `fcntl.h`. -/
def oRdonly : UInt32 := 0x000
def oWronly : UInt32 := 0x001
def oRdwr : UInt32 := 0x002
def oCreate : UInt32 := 0x200
def oTrunc : UInt32 := 0x400

section Files

/-- `filealloc()`: the first free `struct file`, with one reference. -/
def filealloc (s : Sys) : Option (Fin nfile × Sys) :=
  ((List.finRange nfile).find? fun f => (s.ftable f).ref == 0).map fun f =>
    (f, { s with ftable := Function.update s.ftable f { s.ftable f with ref := 1 } })

/-- `fdalloc(f)` for process `p`: the first free descriptor. -/
def fdalloc (s : Sys) (p : Fin nproc) (pf : ProcFiles) (f : Fin nfile) : Option (Fin nofile × Sys) :=
  ((List.finRange nofile).find? fun fd => (pf.ofile fd).isNone).map fun fd =>
    (fd, { s with proc := Function.update s.proc p (some { pf with ofile := Function.update pf.ofile fd (some f) }) })

/-- `fileclose(f)`: the last reference frees the file and puts its inode. -/
def fileclose (s : Sys) (f : Fin nfile) : Option Sys :=
  let e := s.ftable f
  if e.ref < 1 then none
  else if 0 < e.ref - 1 then some { s with ftable := Function.update s.ftable f { e with ref := e.ref - 1 } }
  else
    let s := { s with ftable := Function.update s.ftable f { e with ref := 0, type := .none } }
    if e.type = .inode ∨ e.type = .device then iput s e.ip else some s

/-- `filedup(f)`; `none` is the panic "filedup". -/
def filedup (s : Sys) (f : Fin nfile) : Option Sys :=
  let e := s.ftable f
  if e.ref < 1 then none else some { s with ftable := Function.update s.ftable f { e with ref := e.ref + 1 } }

/-- `CONSOLE`: the one major number that `consoleinit` gives a driver in `devsw`. -/
def console : Int := 1

/-- `f->major < 0 || f->major >= NDEV || !devsw[f->major].read` (and `.write`): only the console has a
driver. -/
def noDriver (major : Int16) : Bool := major.toInt < 0 || (ndev : Int) ≤ major.toInt || major.toInt ≠ console

/-- `fileread(f, addr, n)` into the caller's address space `u`; `dev` is what the console driver
returns, which the file system does not see. A file of none of the modelled types is the panic
"fileread". -/
def fileread (s : Sys) (f : Fin nfile) (addr : Nat) (n : Int) (u : Vm.UserMem) (dev : Int) : Option (Int × Sys) :=
  let e := s.ftable f
  if !e.readable then some (-1, s)
  else
    match e.type with
    | .device => if noDriver e.major then some (-1, s) else some (dev, s)
    | .inode =>
      match ilock s e.ip with
      | none => none
      | some s =>
        match readi (s.inode e.ip) true addr (UInt32.ofNat e.off) (UInt32.ofInt n) s.fs ⟨u, fun _ => 0⟩ with
        | none => none
        | some (r, ip, fs, _) =>
          let s := (s.setInode e.ip ip).setFs fs
          some (r, if 0 < r then { s with ftable := Function.update s.ftable f { e with off := e.off + r.toNat } } else s)
    | .none => none

/-- `((MAXOPBLOCKS-1-1-2) / 2) * BSIZE`: the bytes one transaction of `filewrite` writes at most. -/
def maxWrite : Nat := (maxOpBlocks - 1 - 1 - 2) / 2 * bsize

/-- One pass of `filewrite`'s loop: a new transaction that writes `n1` bytes from `src` at the file's
offset and advances the offset by what `writei` returns. -/
def filewriteChunk (s : Sys) (f : Fin nfile) (src n1 : Nat) (u : Vm.UserMem) : Option (Int × Sys) :=
  let e := s.ftable f
  match ilock (s.setFs { s.fs with logged := [] }) e.ip with
  | none => none
  | some s =>
    match writei (s.inode e.ip) true src (UInt32.ofNat e.off) (UInt32.ofNat n1) s.fs ⟨u, fun _ => 0⟩ with
    | none => none
    | some (r, ip, fs) =>
      let s := (s.setInode e.ip ip).setFs fs
      some (r, if 0 < r then { s with ftable := Function.update s.ftable f { e with off := e.off + r.toNat } } else s)

/-- `filewrite`'s loop from `i` bytes written: chunks of at most `maxWrite` bytes until `n` are written
or a chunk falls short. Every pass writes at least one byte, so `n` passes are enough. -/
def filewriteLoop (f : Fin nfile) (addr n : Nat) (u : Vm.UserMem) : (fuel : Nat) → (i : Nat) → Sys → Option (Nat × Sys)
  | 0, i, s => some (i, s)
  | fuel + 1, i, s =>
    if i < n then
      let n1 := min (n - i) maxWrite
      match filewriteChunk s f (addr + i) n1 u with
      | none => none
      | some (r, s) => if r ≠ n1 then some (i, s) else filewriteLoop f addr n u fuel (i + n1) s
    else some (i, s)

/-- `filewrite(f, addr, n)` from the caller's address space `u`; `dev` is what the console driver
returns. A file of none of the modelled types is the panic "filewrite". -/
def filewrite (s : Sys) (f : Fin nfile) (addr : Nat) (n : Int) (u : Vm.UserMem) (dev : Int) : Option (Int × Sys) :=
  let e := s.ftable f
  if !e.writable then some (-1, s)
  else
    match e.type with
    | .device => if noDriver e.major then some (-1, s) else some (dev, s)
    | .inode => (filewriteLoop f addr n.toNat u n.toNat 0 s).map fun r => (if (r.1 : Int) = n then n else -1, r.2)
    | .none => none

end Files

section Create

/-- `create`'s `fail:` path: the new inode loses its link, then both inodes are put. -/
def createFail (s : Sys) (ip dp : Iptr) : Option (Option Iptr × Sys) :=
  let s := (s.setInode ip { s.inode ip with nlink := 0 }).iupdate ip
  (iput s ip).bind fun s => (iput s dp).map fun s => (none, s)

/-- The entries `create` writes for its new inode `ip`: `.` and `..` for a directory, then `name` in
`dp`; `false` as soon as a `dirlink` fails. -/
def createLinks (s : Sys) (ip dp : Iptr) (name : List UInt8) (type : IType) : Option (Bool × Sys) :=
  let dots : Option (Bool × Sys) :=
    if type = .dir then
      match dirlink s ip dot (s.itable ip).inum with
      | none => none
      | some (r, s) => if r < 0 then some (false, s) else (dirlink s ip dotdot (s.itable dp).inum).map fun r => (0 ≤ r.1, r.2)
    else some (true, s)
  dots.bind fun r => if r.1 then (dirlink r.2 dp name (r.2.itable ip).inum).map fun r => (0 ≤ r.1, r.2) else some (false, r.2)

/-- The part of `create` after `ialloc` returned `ip`: set up the inode, write the entries, and count
the `..` of a new directory in its parent. -/
def createNew (s : Sys) (ip dp : Iptr) (name : List UInt8) (type : IType) (major minor : Int16) :
    Option (Option Iptr × Sys) :=
  match ilock s ip with
  | none => none
  | some s =>
    let s := (s.setInode ip { s.inode ip with major := major, minor := minor, nlink := 1 }).iupdate ip
    match createLinks s ip dp name type with
    | none => none
    | some (false, s) => createFail s ip dp
    | some (true, s) =>
      let s := if type = .dir then (s.setInode dp { s.inode dp with nlink := (s.inode dp).nlink + 1 }).iupdate dp else s
      (iput s dp).map fun s => (some ip, s)

/-- `create(path, type, major, minor)` for a process in `cwd`: the new or (for `T_FILE`) existing
inode, locked, or `0`. -/
def create (s : Sys) (cwd : Iptr) (path : List UInt8) (type : IType) (major minor : Int16) :
    Option (Option Iptr × Sys) :=
  match nameiparent s cwd path with
  | none => none
  | some (none, s) => some (none, s)
  | some (some (dp, name), s) =>
    match ilock s dp with
    | none => none
    | some s =>
      match dirlookup s dp name with
      | none => none
      | some (some (ip, _), s) =>
        match (iput s dp).bind fun s => ilock s ip with
        | none => none
        | some s =>
          let t := (s.inode ip).type
          if type = .file ∧ (t = .file ∨ t = .device) then some (some ip, s)
          else (iput s ip).map fun s => (none, s)
      | some (none, s) =>
        match ialloc s type with
        | none => none
        | some (none, s) => (iput s dp).map fun s => (none, s)
        | some (some ip, s) => createNew s ip dp name type major minor

end Create

section Calls

variable (s : Sys) (p : Fin nproc) (pf : ProcFiles)

/-- The inode `sys_open` opens: `create` with `O_CREATE`, else `namei`, refusing to open a directory
other than read-only. -/
def openInode (path : List UInt8) (omode : UInt32) : Option (Option Iptr × Sys) :=
  if omode &&& oCreate ≠ 0 then create s pf.cwd path .file 0 0
  else
    match namei s pf.cwd path with
    | none => none
    | some (none, s) => some (none, s)
    | some (some ip, s) =>
      match ilock s ip with
      | none => none
      | some s =>
        if (s.inode ip).type = .dir ∧ omode ≠ oRdonly then (iput s ip).map fun s => (none, s)
        else some (some ip, s)

def sysOpen (path : List UInt8) (omode : UInt32) : Option (Int × Sys) :=
  match openInode s pf path omode with
  | none => none
  | some (none, s) => some (-1, s)
  | some (some ip, s) =>
    let x := s.inode ip
    if x.type = .device ∧ (x.major.toInt < 0 ∨ (ndev : Int) ≤ x.major.toInt) then (iput s ip).map fun s => (-1, s)
    else
      match filealloc s with
      | none => (iput s ip).map fun s => (-1, s)
      | some (f, s) =>
        match fdalloc s p pf f with
        | none => (fileclose s f).bind fun s => (iput s ip).map fun s => (-1, s)
        | some (fd, s) =>
          let e := s.ftable f
          let e := if x.type = .device then { e with type := .device, major := x.major } else { e with type := .inode, off := 0 }
          let e := { e with
            ip := ip
            readable := omode &&& oWronly = 0
            writable := omode &&& oWronly ≠ 0 ∨ omode &&& oRdwr ≠ 0 }
          let s := { s with ftable := Function.update s.ftable f e }
          if omode &&& oTrunc ≠ 0 ∧ x.type = .file then
            (itrunc (s.inode ip) s.fs).map fun r => ((fd : Nat), (s.setInode ip r.1).setFs r.2)
          else some ((fd : Nat), s)

/-- `sys_mkdir(path)` and `sys_mknod(path, major, minor)`: `create`, then `iunlockput`. -/
def sysMkdirOrMknod (path : List UInt8) (type : IType) (major minor : Int16) : Option (Int × Sys) :=
  match create s pf.cwd path type major minor with
  | none => none
  | some (none, s) => some (-1, s)
  | some (some ip, s) => (iput s ip).map fun s => (0, s)

def sysMkdir (path : List UInt8) : Option (Int × Sys) := sysMkdirOrMknod s pf path .dir 0 0

def sysMknod (path : List UInt8) (major minor : Int16) : Option (Int × Sys) :=
  sysMkdirOrMknod s pf path .device major minor

/-- `sys_link`'s `bad:` path: take back the link counted for `ip`. -/
def linkBad (s : Sys) (ip : Iptr) : Option (Int × Sys) :=
  (ilock s ip).bind fun s =>
    let s := (s.setInode ip { s.inode ip with nlink := (s.inode ip).nlink - 1 }).iupdate ip
    (iput s ip).map fun s => (-1, s)

/-- `sys_link(old, new)`: count the link first, then write the entry, undoing the count on failure. -/
def sysLink (old new : List UInt8) : Option (Int × Sys) :=
  match namei s pf.cwd old with
  | none => none
  | some (none, s) => some (-1, s)
  | some (some ip, s) =>
    match ilock s ip with
    | none => none
    | some s =>
      if (s.inode ip).type = .dir then (iput s ip).map fun s => (-1, s)
      else
        let s := (s.setInode ip { s.inode ip with nlink := (s.inode ip).nlink + 1 }).iupdate ip
        match nameiparent s pf.cwd new with
        | none => none
        | some (none, s) => linkBad s ip
        | some (some (dp, name), s) =>
          match ilock s dp with
          | none => none
          | some s =>
            match dirlink s dp name (s.itable ip).inum with
            | none => none
            | some (r, s) =>
              if r < 0 then (iput s dp).bind fun s => linkBad s ip
              else (iput s dp).bind fun s => (iput s ip).map fun s => (0, s)

/-- The part of `sys_unlink` after the entry `name` of `dp` at `off` was found as `ip`: refuse a
directory that is not empty, clear the entry, and drop the links. -/
def unlinkEntry (s : Sys) (dp ip : Iptr) (off : Nat) : Option (Int × Sys) :=
  match ilock s ip with
  | none => none
  | some s =>
    if (s.inode ip).nlink < 1 then none
    else
      let emptyDir : Option (Bool × Sys) :=
        if (s.inode ip).type = .dir then
          (isdirempty (s.inode ip) s.fs).map fun r => (r.1, (s.setInode ip r.2.1).setFs r.2.2)
        else some (true, s)
      match emptyDir with
      | none => none
      | some (false, s) => (iput s ip).bind fun s => (iput s dp).map fun s => (-1, s)
      | some (true, s) =>
        match writei (s.inode dp) false 0 (UInt32.ofNat off) (UInt32.ofNat direntSize) s.fs (direntMem []) with
        | none => none
        | some (r, d, fs) =>
          if r ≠ direntSize then none
          else
            let s := (s.setInode dp d).setFs fs
            let isDir := (s.inode ip).type = .dir
            let s := if isDir then (s.setInode dp { s.inode dp with nlink := (s.inode dp).nlink - 1 }).iupdate dp else s
            (iput s dp).bind fun s =>
              let s := (s.setInode ip { s.inode ip with nlink := (s.inode ip).nlink - 1 }).iupdate ip
              (iput s ip).map fun s => (0, s)

def sysUnlink (path : List UInt8) : Option (Int × Sys) :=
  match nameiparent s pf.cwd path with
  | none => none
  | some (none, s) => some (-1, s)
  | some (some (dp, name), s) =>
    match ilock s dp with
    | none => none
    | some s =>
      if namecmp name dot ∨ namecmp name dotdot then (iput s dp).map fun s => (-1, s)
      else
        match dirlookup s dp name with
        | none => none
        | some (none, s) => (iput s dp).map fun s => (-1, s)
        | some (some (ip, off), s) => unlinkEntry s dp ip off

def sysChdir (path : List UInt8) : Option (Int × Sys) :=
  match namei s pf.cwd path with
  | none => none
  | some (none, s) => some (-1, s)
  | some (some ip, s) =>
    match ilock s ip with
    | none => none
    | some s =>
      if (s.inode ip).type ≠ .dir then (iput s ip).map fun s => (-1, s)
      else (iput s pf.cwd).map fun s => (0, { s with proc := Function.update s.proc p (some { pf with cwd := ip }) })

def sysClose (fd : Int) : Option (Int × Sys) :=
  if h : 0 ≤ fd ∧ fd < nofile then
    let d : Fin nofile := ⟨fd.toNat, by omega⟩
    match pf.ofile d with
    | none => some (-1, s)
    | some f =>
      let s := { s with proc := Function.update s.proc p (some { pf with ofile := Function.update pf.ofile d none }) }
      (fileclose s f).map fun s => (0, s)
  else some (-1, s)

/-- `argfd(fd, 0, &f)`: the open file of descriptor `fd`, or `none` for `-1`. -/
def argfd (fd : Int) : Option (Fin nfile) :=
  if h : 0 ≤ fd ∧ fd < nofile then pf.ofile ⟨fd.toNat, by omega⟩ else none

def sysRead (fd : Int) (addr : Nat) (n : Int) (u : Vm.UserMem) (dev : Int) : Option (Int × Sys) :=
  match argfd pf fd with
  | none => some (-1, s)
  | some f => fileread s f addr n u dev

def sysWrite (fd : Int) (addr : Nat) (n : Int) (u : Vm.UserMem) (dev : Int) : Option (Int × Sys) :=
  match argfd pf fd with
  | none => some (-1, s)
  | some f => filewrite s f addr n u dev

/-- The file-system part of `fork`: the child, in the first free slot, shares the parent's open files
and current directory. `-1` when no slot is free. -/
def fork : Option (Int × Sys) :=
  match (List.finRange nproc).find? fun c => (s.proc c).isNone with
  | none => some (-1, s)
  | some c =>
    let dup : Option Sys := (List.finRange nofile).foldlM
      (fun s fd => match pf.ofile fd with | some f => filedup s f | none => some s) s
    dup.map fun s => ((c : Nat), { idup s pf.cwd with proc := Function.update s.proc c (some pf) })

/-- The file-system part of `exit`: close every open file, then put the current directory. Slot `0`
holds `init`, whose exit is the panic "init exiting". -/
def exit : Option (Int × Sys) :=
  if p.val = 0 then none
  else
    let closed : Option Sys := (List.finRange nofile).foldlM
      (fun s fd => match pf.ofile fd with | some f => fileclose s f | none => some s) s
    (closed.bind fun s => iput s pf.cwd).map fun s => (0, { s with proc := Function.update s.proc p none })

end Calls

/-- A file-system system call by process `p`. -/
inductive Call
  | sysOpen (p : Fin nproc) (path : List UInt8) (omode : UInt32)
  | sysMkdir (p : Fin nproc) (path : List UInt8)
  | sysMknod (p : Fin nproc) (path : List UInt8) (major minor : Int16)
  | sysLink (p : Fin nproc) (old new : List UInt8)
  | sysUnlink (p : Fin nproc) (path : List UInt8)
  | sysChdir (p : Fin nproc) (path : List UInt8)
  | sysClose (p : Fin nproc) (fd : Int)
  | sysRead (p : Fin nproc) (fd : Int) (addr : Nat) (n : Int) (u : Vm.UserMem) (dev : Int)
  | sysWrite (p : Fin nproc) (fd : Int) (addr : Nat) (n : Int) (u : Vm.UserMem) (dev : Int)
  | fork (p : Fin nproc)
  | exit (p : Fin nproc)

/-- The process that makes the call. -/
def Call.caller : Call → Fin nproc
  | .sysOpen p .. | .sysMkdir p .. | .sysMknod p .. | .sysLink p .. | .sysUnlink p .. | .sysChdir p ..
  | .sysClose p .. | .sysRead p .. | .sysWrite p .. | .fork p | .exit p => p

/-- Run call `c` of a process with files `pf`, in a new transaction. -/
def Call.run (s : Sys) (pf : ProcFiles) : Call → Option (Int × Sys)
  | .sysOpen p path omode => Fs.sysOpen s p pf path omode
  | .sysMkdir _ path => Fs.sysMkdir s pf path
  | .sysMknod _ path major minor => Fs.sysMknod s pf path major minor
  | .sysLink _ old new => Fs.sysLink s pf old new
  | .sysUnlink _ path => Fs.sysUnlink s pf path
  | .sysChdir p path => Fs.sysChdir s p pf path
  | .sysClose p fd => Fs.sysClose s p pf fd
  | .sysRead _ fd addr n u dev => Fs.sysRead s pf fd addr n u dev
  | .sysWrite _ fd addr n u dev => Fs.sysWrite s pf fd addr n u dev
  | .fork _ => Fs.fork s pf
  | .exit p => Fs.exit s p pf

/-- One system call: the caller must hold a process; the transaction starts with no block logged. -/
def exec (s : Sys) (c : Call) : Option (Int × Sys) :=
  match s.proc c.caller with
  | none => none
  | some pf => Call.run (s.setFs { s.fs with logged := [] }) pf c

/-- A step: a call and what it returned. -/
def Step (s : Sys) (e : Call × Int) (t : Sys) : Prop := exec s e.1 = some (e.2, t)

section Image

/-- The first data block, `nmeta`, which holds the root directory's entries. -/
def rootBlock : Nat := sb.size - sb.nblocks

/-- The bitmap block `mkfs`'s `balloc(used)` writes: bits `0, ..., used - 1` set. -/
def bitmapImage (used : Nat) : Block := (List.range used).foldl setBit zeroBlock

/-- The image `mkfs` builds with no files: the root directory, inode `ROOTINO`, with the entries `.`
and `..` in its one block and its size rounded up to a whole block; the blocks below the first free
one marked in use. -/
def mkfsImage : FsState where
  disk := fun b =>
    if b = rootBlock then toBlock fun i => (direntBytes rootino dot ++ direntBytes rootino dotdot).getD i 0
    else if b = sb.bmapstart then bitmapImage (rootBlock + 1)
    else zeroBlock
  dinode := fun i => if i = rootino then ⟨.dir, 0, 0, 1, bsize, fun j => if j.val = 0 then rootBlock else 0⟩ else zeroDinode
  logged := []

/-- The system once `userinit` has run: `init` in process slot `0`, its current directory the root
through `namei("/")`, which takes slot `0` of `itable` without loading it. -/
def boot : Sys where
  fs := mkfsImage
  itable := fun i => if i.val = 0 then ⟨rootino, 1, false, zeroDinode⟩ else ⟨0, 0, false, zeroDinode⟩
  ftable := fun _ => ⟨.none, 0, false, false, 0, 0, 0⟩
  proc := fun p => if p.val = 0 then some ⟨0, fun _ => none⟩ else none

end Image

end Xv6.Fs
