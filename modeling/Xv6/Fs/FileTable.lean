import Xv6.Library.RefCount
import Xv6.Library.Run
import Xv6.Fs.Syscall

/-!
# Open files, pipes and descriptors: `filealloc`, `filedup`, `fileclose`, `pipealloc`, `pipeclose`

The table of `struct file`s, the pipes, and the `ofile` descriptors of the process table, with the
system calls that take and drop references: `sys_open`, `sys_dup`, `sys_close`, `sys_pipe`, `fork`,
`exec`, `exit`, and the `freeproc` of a parent's `wait`. Each call is one step, with every one of
its failure paths: what a call learns from parts of the kernel this model leaves out (whether
`sys_open`'s path names an inode, `kalloc`, `uvmcopy`, `copyout`) is an argument of the call. A
pipe is known by its page, numbered by the `kalloc` that gave it, and `freed` lists the pages
`kfree` took back.

The reference counts hold at every call boundary (`Inv`): each file's `ref` is the number of
descriptors of processes other than UNUSED ones that name it, a file with no reference is
`FD_NONE`, each pipe's `readopen` and `writeopen` say whether a file still refers to that end, and
a pipe's page has been freed once when both ends are closed and never otherwise. Inside a call the
count also takes in the references the call has in hand (`held`), which is what lets each of
`filealloc`, `fdalloc`, `filedup`, `fileclose` and the stores to `ofile` keep the invariant on its
own.
-/

namespace Xv6.FileTable

open Xv6.Fs (oWronly oRdwr)
open RefCount (holders)

/-- `enum { FD_NONE, FD_PIPE, FD_INODE, FD_DEVICE }`. -/
inductive FdType
  | none
  | pipe
  | inode
  | device
  deriving DecidableEq

/-- `struct file`, with the fields reference counting reads; `pipe` is the page of its pipe. -/
structure File where
  type : FdType
  ref : Nat
  readable : Bool
  writable : Bool
  pipe : Nat
  deriving DecidableEq

/-- `readopen` and `writeopen` of a `struct pipe`. -/
structure Pipe where
  readopen : Bool
  writeopen : Bool
  deriving DecidableEq

/-- `enum procstate`. -/
inductive ProcState
  | unused
  | used
  | sleeping
  | runnable
  | running
  | zombie
  deriving DecidableEq

/-- A slot of the process table: its state and `ofile`. -/
structure Proc where
  state : ProcState
  ofile : Fin nofile → Option (Fin nfile)

structure Sys where
  ftable : Fin nfile → File
  /-- the pipes, in the order `kalloc` gave their pages -/
  pipes : List Pipe
  /-- the pipe pages `kfree` took back, in order -/
  freed : List Nat
  proc : Fin nproc → Proc

section Setters

def Sys.setFile (s : Sys) (f : Fin nfile) (e : File) : Sys := { s with ftable := Function.update s.ftable f e }

def Sys.setOfile (s : Sys) (p : Fin nproc) (fd : Fin nofile) (o : Option (Fin nfile)) : Sys :=
  { s with proc := Function.update s.proc p { s.proc p with ofile := Function.update (s.proc p).ofile fd o } }

def Sys.setState (s : Sys) (p : Fin nproc) (st : ProcState) : Sys :=
  { s with proc := Function.update s.proc p { s.proc p with state := st } }

variable (s : Sys)

@[simp] theorem setFile_ftable (f : Fin nfile) (e : File) (g : Fin nfile) :
    (s.setFile f e).ftable g = if g = f then e else s.ftable g := Function.update_apply ..

@[simp] theorem setFile_pipes (f : Fin nfile) (e : File) : (s.setFile f e).pipes = s.pipes := rfl
@[simp] theorem setFile_freed (f : Fin nfile) (e : File) : (s.setFile f e).freed = s.freed := rfl
@[simp] theorem setFile_proc (f : Fin nfile) (e : File) : (s.setFile f e).proc = s.proc := rfl

@[simp] theorem setOfile_ftable (p : Fin nproc) (fd : Fin nofile) (o : Option (Fin nfile)) :
    (s.setOfile p fd o).ftable = s.ftable := rfl
@[simp] theorem setOfile_pipes (p : Fin nproc) (fd : Fin nofile) (o : Option (Fin nfile)) :
    (s.setOfile p fd o).pipes = s.pipes := rfl
@[simp] theorem setOfile_freed (p : Fin nproc) (fd : Fin nofile) (o : Option (Fin nfile)) :
    (s.setOfile p fd o).freed = s.freed := rfl

@[simp] theorem setOfile_state (p : Fin nproc) (fd : Fin nofile) (o : Option (Fin nfile)) (q : Fin nproc) :
    ((s.setOfile p fd o).proc q).state = (s.proc q).state := by
  by_cases hq : q = p
  · subst hq
    simp [Sys.setOfile]
  · simp [Sys.setOfile, hq]

@[simp] theorem setOfile_ofile (p : Fin nproc) (fd : Fin nofile) (o : Option (Fin nfile)) (q : Fin nproc)
    (d : Fin nofile) : ((s.setOfile p fd o).proc q).ofile d = if q = p ∧ d = fd then o else (s.proc q).ofile d := by
  by_cases hq : q = p
  · subst hq
    by_cases hd : d = fd
    · simp [Sys.setOfile, hd]
    · simp [Sys.setOfile, hd]
  · simp [Sys.setOfile, hq]

@[simp] theorem setState_ftable (p : Fin nproc) (st : ProcState) : (s.setState p st).ftable = s.ftable := rfl
@[simp] theorem setState_pipes (p : Fin nproc) (st : ProcState) : (s.setState p st).pipes = s.pipes := rfl
@[simp] theorem setState_freed (p : Fin nproc) (st : ProcState) : (s.setState p st).freed = s.freed := rfl

@[simp] theorem setState_state (p : Fin nproc) (st : ProcState) (q : Fin nproc) :
    ((s.setState p st).proc q).state = if q = p then st else (s.proc q).state := by
  by_cases hq : q = p
  · subst hq
    simp [Sys.setState]
  · simp [Sys.setState, hq]

@[simp] theorem setState_ofile (p : Fin nproc) (st : ProcState) (q : Fin nproc) :
    ((s.setState p st).proc q).ofile = (s.proc q).ofile := by
  by_cases hq : q = p
  · subst hq
    simp [Sys.setState]
  · simp [Sys.setState, hq]

end Setters

section Calls

/-- `filealloc()`: the first file with no reference, now with one. -/
def filealloc (s : Sys) : Option (Fin nfile × Sys) :=
  ((List.finRange nfile).find? fun f => (s.ftable f).ref == 0).map fun f =>
    (f, s.setFile f { s.ftable f with ref := 1 })

/-- `fdalloc(f)` for process `p`: the first free descriptor, which takes over the reference. -/
def fdalloc (s : Sys) (p : Fin nproc) (f : Fin nfile) : Option (Fin nofile × Sys) :=
  ((List.finRange nofile).find? fun fd => ((s.proc p).ofile fd).isNone).map fun fd =>
    (fd, s.setOfile p fd (some f))

/-- `filedup(f)`; `none` is the panic "filedup". -/
def filedup (s : Sys) (f : Fin nfile) : Option Sys :=
  if (s.ftable f).ref < 1 then none else some (s.setFile f { s.ftable f with ref := (s.ftable f).ref + 1 })

/-- `pipeclose(pi, writable)`: close one end, and free the page when both are closed. -/
def pipeclose (s : Sys) (i : Nat) (writable : Bool) : Sys :=
  let pi := s.pipes.getD i { readopen := false, writeopen := false }
  let pi := if writable then { pi with writeopen := false } else { pi with readopen := false }
  let s := { s with pipes := s.pipes.set i pi }
  if pi.readopen = false ∧ pi.writeopen = false then { s with freed := s.freed ++ [i] } else s

/-- `fileclose(f)`; `none` is the panic "fileclose". The last reference makes the file `FD_NONE`
and closes its pipe end; an inode or a device is put with `iput`, which these tables do not see. -/
def fileclose (s : Sys) (f : Fin nfile) : Option Sys :=
  let e := s.ftable f
  if e.ref < 1 then none
  else if 0 < e.ref - 1 then some (s.setFile f { e with ref := e.ref - 1 })
  else
    let s := s.setFile f { e with ref := 0, type := .none }
    if e.type = .pipe then some (pipeclose s e.pipe e.writable) else some s

/-- `pipealloc(&f0, &f1)`, with `page` whether `kalloc` gives a page: the read end and the write
end, or `none` after the `bad:` path closed the files it took. -/
def pipealloc (s : Sys) (page : Bool) : Option (Option (Fin nfile × Fin nfile) × Sys) :=
  match filealloc s with
  | none => some (none, s)
  | some (f0, s) =>
    match filealloc s with
    | none => (fileclose s f0).map fun s => (none, s)
    | some (f1, s) =>
      if page then
        let i := s.pipes.length
        let s := { s with pipes := s.pipes ++ [({ readopen := true, writeopen := true } : Pipe)] }
        let s := s.setFile f0 { s.ftable f0 with type := .pipe, readable := true, writable := false, pipe := i }
        let s := s.setFile f1 { s.ftable f1 with type := .pipe, readable := false, writable := true, pipe := i }
        some (some (f0, f1), s)
      else ((fileclose s f0).bind fun s => fileclose s f1).map fun s => (none, s)

/-- `argfd`: the descriptor `fd` of process `p` and its file, when it is open. -/
def argfd (s : Sys) (p : Fin nproc) (fd : Int) : Option (Fin nofile × Fin nfile) :=
  if h : fd < 0 ∨ (nofile : Int) ≤ fd then none
  else
    let d : Fin nofile := ⟨fd.toNat, by omega⟩
    ((s.proc p).ofile d).map fun f => (d, f)

def sysDup (s : Sys) (p : Fin nproc) (fd : Int) : Option (Int × Sys) :=
  match argfd s p fd with
  | none => some (-1, s)
  | some (_, f) =>
    match fdalloc s p f with
    | none => some (-1, s)
    | some (fd, s) => (filedup s f).map fun s => ((fd : Nat), s)

def sysClose (s : Sys) (p : Fin nproc) (fd : Int) : Option (Int × Sys) :=
  match argfd s p fd with
  | none => some (-1, s)
  | some (d, f) => (fileclose (s.setOfile p d none) f).map fun s => (0, s)

/-- `sys_open(path, omode)`, where `dev` is what its path part gives: `none` when `create` or
`namei` fails or the inode is refused (a directory opened for writing, a device with a bad major
number), else whether the inode is a device. -/
def sysOpen (s : Sys) (p : Fin nproc) (dev : Option Bool) (omode : UInt32) : Option (Int × Sys) :=
  match dev with
  | none => some (-1, s)
  | some isDev =>
    match filealloc s with
    | none => some (-1, s)
    | some (f, s) =>
      match fdalloc s p f with
      | none => (fileclose s f).map fun s => (-1, s)
      | some (fd, s) =>
        let e := s.ftable f
        let e := { e with
          type := if isDev then .device else .inode
          readable := omode &&& oWronly = 0
          writable := omode &&& oWronly ≠ 0 ∨ omode &&& oRdwr ≠ 0 }
        some ((fd : Nat), s.setFile f e)

/-- `sys_pipe(fdarray)`, where `page` is whether `kalloc` gives the pipe its page and `copied`
whether both `copyout`s of the descriptors succeed. -/
def sysPipe (s : Sys) (p : Fin nproc) (page copied : Bool) : Option (Int × Sys) :=
  match pipealloc s page with
  | none => none
  | some (none, s) => some (-1, s)
  | some (some (rf, wf), s) =>
    let bad (s : Sys) : Option (Int × Sys) := ((fileclose s rf).bind fun s => fileclose s wf).map fun s => (-1, s)
    match fdalloc s p rf with
    | none => bad s
    | some (fd0, s) =>
      match fdalloc s p wf with
      | none => bad (s.setOfile p fd0 none)
      | some (fd1, s) => if copied then some (0, s) else bad ((s.setOfile p fd0 none).setOfile p fd1 none)

/-- The loop of `fork` that gives the child `c` each open file of `p`:
`np->ofile[i] = filedup(p->ofile[i])`. -/
def dupFiles (p c : Fin nproc) (s : Sys) : List (Fin nofile) → Option Sys
  | [] => some s
  | fd :: fds =>
    match (s.proc p).ofile fd with
    | none => dupFiles p c s fds
    | some f => (filedup s f).bind fun s => dupFiles p c (s.setOfile c fd (some f)) fds

/-- `fork()`, where `alloc` is whether `allocproc` gets its pages and `copied` whether `uvmcopy`
succeeds. `allocproc` takes the first UNUSED slot and makes it USED; on failure `freeproc` makes it
UNUSED again. -/
def fork (s : Sys) (p : Fin nproc) (alloc copied : Bool) : Option (Int × Sys) :=
  match (List.finRange nproc).find? fun c => (s.proc c).state = .unused with
  | none => some (-1, s)
  | some c =>
    if alloc = false then some (-1, s)
    else if copied = false then some (-1, s)
    else
      (dupFiles p c (s.setState c .used) (List.finRange nofile)).map fun s => ((c : Nat), s.setState c .runnable)

/-- The loop of `exit` over the descriptors: `fileclose(f); p->ofile[fd] = 0;`. -/
def closeFiles (p : Fin nproc) (s : Sys) : List (Fin nofile) → Option Sys
  | [] => some s
  | fd :: fds =>
    match (s.proc p).ofile fd with
    | none => closeFiles p s fds
    | some f => (fileclose s f).bind fun s => closeFiles p (s.setOfile p fd none) fds

/-- `exit(status)`: slot `0` holds `init`, whose exit is the panic "init exiting". -/
def exit (s : Sys) (p : Fin nproc) : Option (Int × Sys) :=
  if p.val = 0 then none
  else (closeFiles p s (List.finRange nofile)).map fun s => (0, s.setState p .zombie)

/-- The `freeproc` of `wait` when it finds its child `c` a zombie. -/
def wait (s : Sys) (c : Fin nproc) : Option (Int × Sys) :=
  if (s.proc c).state = .zombie then some ((c : Nat), s.setState c .unused) else some (-1, s)

end Calls

/-- A call by process `p`. `exec` leaves the file table and the descriptors as they were, whether it
succeeds or not. -/
inductive Call
  | sysOpen (p : Fin nproc) (dev : Option Bool) (omode : UInt32)
  | sysDup (p : Fin nproc) (fd : Int)
  | sysClose (p : Fin nproc) (fd : Int)
  | sysPipe (p : Fin nproc) (page copied : Bool)
  | fork (p : Fin nproc) (alloc copied : Bool)
  | exec (p : Fin nproc) (ok : Bool)
  | exit (p : Fin nproc)
  | wait (p c : Fin nproc)

def Call.caller : Call → Fin nproc
  | .sysOpen p .. | .sysDup p .. | .sysClose p .. | .sysPipe p .. | .fork p .. | .exec p .. | .exit p
  | .wait p _ => p

def Call.run (s : Sys) : Call → Option (Int × Sys)
  | .sysOpen p dev omode => FileTable.sysOpen s p dev omode
  | .sysDup p fd => FileTable.sysDup s p fd
  | .sysClose p fd => FileTable.sysClose s p fd
  | .sysPipe p page copied => FileTable.sysPipe s p page copied
  | .fork p alloc copied => FileTable.fork s p alloc copied
  | .exec _ ok => some (if ok then 0 else -1, s)
  | .exit p => FileTable.exit s p
  | .wait _ c => FileTable.wait s c

/-- A process that runs: neither UNUSED nor a zombie. -/
def Live (s : Sys) (p : Fin nproc) : Prop := (s.proc p).state ≠ .unused ∧ (s.proc p).state ≠ .zombie

/-- A step: a call by a process that runs, and what it returned. -/
def Step (s : Sys) (e : Call × Int) (t : Sys) : Prop := Live s e.1.caller ∧ e.1.run s = some (e.2, t)

/-- The tables after `userinit`: `init` in slot `0`, no open file, no pipe. -/
def boot : Sys where
  ftable := fun _ => ⟨.none, 0, false, false, 0⟩
  pipes := []
  freed := []
  proc := fun p => if p.val = 0 then ⟨.runnable, fun _ => none⟩ else ⟨.unused, fun _ => none⟩

/-! ### What the invariant counts -/

/-- The descriptor `fd` of process `p`. -/
def ofileSlot (s : Sys) (x : Fin nproc × Fin nofile) : Option (Fin nfile) := (s.proc x.1).ofile x.2

/-- The descriptors that name file `f`. -/
def openCount (s : Sys) (f : Fin nfile) : Nat := holders (ofileSlot s) f

/-- `f` is a live end of pipe `i`, its write end when `w`. -/
def File.IsEnd (e : File) (i : Nat) (w : Bool) : Prop := 0 < e.ref ∧ e.type = .pipe ∧ e.pipe = i ∧ e.writable = w

/-- `writeopen` for the write end, `readopen` for the read end. -/
def Pipe.isOpen (pi : Pipe) : Bool → Bool
  | true => pi.writeopen
  | false => pi.readopen

/-- Both ends of pipe `i` are closed; a page `kalloc` has not given is not. -/
def closed (s : Sys) (i : Nat) : Bool := (s.pipes[i]?.map fun pi => !pi.readopen && !pi.writeopen).getD false

section Slots

variable (s : Sys)

@[simp] theorem ofileSlot_setFile (f : Fin nfile) (e : File) : ofileSlot (s.setFile f e) = ofileSlot s := rfl

@[simp] theorem ofileSlot_setState (p : Fin nproc) (st : ProcState) : ofileSlot (s.setState p st) = ofileSlot s := by
  funext x
  simp [ofileSlot]

@[simp] theorem openCount_setFile (f : Fin nfile) (e : File) : openCount (s.setFile f e) = openCount s := rfl

@[simp] theorem openCount_setState (p : Fin nproc) (st : ProcState) : openCount (s.setState p st) = openCount s := by
  funext f
  simp [openCount]

theorem ofileSlot_setOfile (p : Fin nproc) (fd : Fin nofile) (o : Option (Fin nfile)) :
    ofileSlot (s.setOfile p fd o) = Function.update (ofileSlot s) (p, fd) o := by
  funext ⟨q, d⟩
  by_cases hx : q = p ∧ d = fd
  · obtain ⟨rfl, rfl⟩ := hx
    simp [ofileSlot]
  · have hne : (q, d) ≠ (p, fd) := fun heq => hx (Prod.ext_iff.mp heq)
    rw [Function.update_of_ne hne]
    simp [ofileSlot, hx]

/-- Storing `f` in an empty descriptor adds one name of `f`. -/
theorem openCount_store {p : Fin nproc} {fd : Fin nofile} (hx : (s.proc p).ofile fd = none) (f g : Fin nfile) :
    openCount (s.setOfile p fd (some f)) g = openCount s g + if f = g then 1 else 0 := by
  have hx' : ofileSlot s (p, fd) = none := hx
  rw [openCount, ofileSlot_setOfile]
  exact RefCount.holders_store hx' f g

/-- Clearing a descriptor that named `f` takes one name of `f` away. -/
theorem openCount_clear {p : Fin nproc} {fd : Fin nofile} {f : Fin nfile} (hx : (s.proc p).ofile fd = some f)
    (g : Fin nfile) : openCount (s.setOfile p fd none) g + (if f = g then 1 else 0) = openCount s g := by
  have hx' : ofileSlot s (p, fd) = some f := hx
  rw [openCount, ofileSlot_setOfile]
  exact RefCount.holders_clear hx' g

theorem openCount_pos {p : Fin nproc} {fd : Fin nofile} {f : Fin nfile} (hx : (s.proc p).ofile fd = some f) :
    0 < openCount s f := by
  have := openCount_clear s hx f
  simp only [if_true] at this
  omega

end Slots

/-! ### The invariant -/

/-- The counting half: a process that does not run holds no descriptor, each file's `ref` is its
descriptors and the references in the caller's `hand`, and a file nobody refers to is `FD_NONE`. -/
structure Counted (s : Sys) (hand : List (Fin nfile)) : Prop where
  empty : ∀ p, ¬ Live s p → ∀ fd, (s.proc p).ofile fd = none
  ref_eq : ∀ f, (s.ftable f).ref = openCount s f + hand.count f
  type_none : ∀ f, (s.ftable f).ref = 0 → (s.ftable f).type = .none

/-- The pipe half: each end a live file refers to belongs to a pipe `kalloc` gave, a pipe's flag
for an end is set exactly when a live file is that end, there is one such file, and a pipe's page
has been freed once if both its ends are closed and not at all otherwise. -/
structure PipesOk (s : Sys) : Prop where
  end_lt : ∀ f i w, (s.ftable f).IsEnd i w → i < s.pipes.length
  open_iff : ∀ i (h : i < s.pipes.length) w, s.pipes[i].isOpen w = true ↔ ∃ f, (s.ftable f).IsEnd i w
  end_unique : ∀ f g i w, (s.ftable f).IsEnd i w → (s.ftable g).IsEnd i w → f = g
  freed_count : ∀ i, s.freed.count i = if closed s i then 1 else 0

structure Inv (s : Sys) (hand : List (Fin nfile)) : Prop extends Counted s hand, PipesOk s

variable {s t : Sys} {hand : List (Fin nfile)}

/-- The pipe half depends only on which files are which ends. -/
theorem PipesOk.of_ends (h : PipesOk s) (hp : t.pipes = s.pipes) (hf : t.freed = s.freed)
    (hE : ∀ g i w, (t.ftable g).IsEnd i w ↔ (s.ftable g).IsEnd i w) : PipesOk t := by
  have hc : closed t = closed s := by
    funext i
    simp [closed, hp]
  refine ⟨fun f i w hf' => ?_, fun i hi w => ?_, fun f g i w h1 h2 => ?_, fun i => ?_⟩
  · rw [hp]
    exact h.end_lt f i w ((hE f i w).mp hf')
  · simp only [hp] at hi ⊢
    rw [h.open_iff i hi w]
    simp only [hE]
  · exact h.end_unique f g i w ((hE f i w).mp h1) ((hE g i w).mp h2)
  · rw [hf, hc]
    exact h.freed_count i

theorem Inv.ref_pos_of_mem (h : Inv s hand) {f : Fin nfile} (hf : f ∈ hand) : 0 < (s.ftable f).ref := by
  have := List.count_pos_iff.mpr hf
  rw [h.ref_eq f]
  omega

theorem Inv.ref_pos_of_slot (h : Inv s hand) {p : Fin nproc} {fd : Fin nofile} {f : Fin nfile}
    (hx : (s.proc p).ofile fd = some f) : 0 < (s.ftable f).ref := by
  have := openCount_pos s hx
  rw [h.ref_eq f]
  omega

/-- The counting half depends only on the files and the processes. -/
theorem Counted.of_eq (h : Counted s hand) (hf : t.ftable = s.ftable) (hp : t.proc = s.proc) : Counted t hand := by
  have ho : openCount t = openCount s := by
    have hslot : ofileSlot t = ofileSlot s := by
      funext x
      simp [ofileSlot, hp]
    funext f
    rw [openCount, openCount, hslot]
  refine ⟨fun q hq fd => ?_, fun g => ?_, fun g => ?_⟩
  · rw [hp]
    exact h.empty q (by simpa [Live, hp] using hq) fd
  · rw [hf, ho]
    exact h.ref_eq g
  · rw [hf]
    exact h.type_none g

/-- Changing one file, with its `ref` recounted against a new hand. -/
theorem Counted.setFile (h : Counted s hand) {f : Fin nfile} {e : File} (hand' : List (Fin nfile))
    (hzero : e.ref = 0 → e.type = .none) (href : e.ref = openCount s f + hand'.count f)
    (hcount : ∀ g, g ≠ f → hand'.count g = hand.count g) : Counted (s.setFile f e) hand' := by
  refine ⟨fun p hp fd => h.empty p hp fd, fun g => ?_, fun g => ?_⟩
  · by_cases hg : g = f
    · subst hg
      simpa using href
    · simpa [hg, hcount g hg] using h.ref_eq g
  · by_cases hg : g = f
    · subst hg
      simpa using hzero
    · simpa [hg] using h.type_none g

/-- Changing one file without changing which end of which pipe it is. -/
theorem Inv.setFile (h : Inv s hand) {f : Fin nfile} {e : File} (hand' : List (Fin nfile))
    (hends : ∀ i w, e.IsEnd i w ↔ (s.ftable f).IsEnd i w) (hzero : e.ref = 0 → e.type = .none)
    (href : e.ref = openCount s f + hand'.count f) (hcount : ∀ g, g ≠ f → hand'.count g = hand.count g) :
    Inv (s.setFile f e) hand' := by
  have hE : ∀ g i w, ((s.setFile f e).ftable g).IsEnd i w ↔ (s.ftable g).IsEnd i w := by
    intro g i w
    by_cases hg : g = f
    · subst hg
      simpa using hends i w
    · simp [hg]
  exact ⟨h.toCounted.setFile hand' hzero href hcount, h.toPipesOk.of_ends rfl rfl hE⟩

/-- Storing a reference from the hand in an empty descriptor of a running process. -/
theorem Inv.store (h : Inv s hand) {p : Fin nproc} {fd : Fin nofile} {f : Fin nfile} (hp : Live s p)
    (hx : (s.proc p).ofile fd = none) (hf : f ∈ hand) : Inv (s.setOfile p fd (some f)) (hand.erase f) := by
  have hcount : (hand.erase f).count f + 1 = hand.count f := by
    rw [List.count_erase_self]
    have := List.count_pos_iff.mpr hf
    omega
  refine ⟨⟨fun q hq fd' => ?_, fun g => ?_, fun g => by simpa using h.type_none g⟩, h.toPipesOk.of_ends rfl rfl (by simp)⟩
  · have hq' : ¬ Live s q := by simpa [Live] using hq
    have hne : q ≠ p := fun hqp => hq' (hqp ▸ hp)
    simpa [hne] using h.empty q hq' fd'
  · rw [setOfile_ftable, openCount_store s hx f g, h.ref_eq g]
    by_cases hg : f = g
    · subst hg
      simp only [if_true]
      omega
    · simp [hg, List.count_erase_of_ne (Ne.symm hg)]

/-- Clearing a descriptor puts its reference in the hand. -/
theorem Inv.clear (h : Inv s hand) {p : Fin nproc} {fd : Fin nofile} {f : Fin nfile}
    (hx : (s.proc p).ofile fd = some f) : Inv (s.setOfile p fd none) (f :: hand) := by
  refine ⟨⟨fun q hq fd' => ?_, fun g => ?_, fun g => by simpa using h.type_none g⟩, h.toPipesOk.of_ends rfl rfl (by simp)⟩
  · have hq' : ¬ Live s q := by simpa [Live] using hq
    simp only [setOfile_ofile]
    split_ifs
    · rfl
    · exact h.empty q hq' fd'
  · have := openCount_clear s hx g
    rw [setOfile_ftable, h.ref_eq g, List.count_cons]
    by_cases hg : f = g
    · subst hg
      simp only [if_true, beq_self_eq_true] at this ⊢
      omega
    · have hg' : (f == g) = false := by simpa using hg
      simp only [hg, if_false, hg', Bool.false_eq_true] at this ⊢
      omega

/-- A change of state that keeps a process that stops running without descriptors. -/
theorem Inv.setState (h : Inv s hand) {p : Fin nproc} {st : ProcState}
    (hst : st = .unused ∨ st = .zombie → ∀ fd, (s.proc p).ofile fd = none) : Inv (s.setState p st) hand := by
  refine ⟨⟨fun q hq fd => ?_, fun g => by simpa [openCount] using h.ref_eq g,
    fun g => by simpa using h.type_none g⟩, h.toPipesOk.of_ends rfl rfl (by simp)⟩
  simp only [setState_ofile]
  by_cases hqp : q = p
  · subst hqp
    have : st = .unused ∨ st = .zombie := by
      simpa [Live, or_iff_not_imp_left] using hq
    exact hst this fd
  · exact h.empty q (by simpa [Live, hqp] using hq) fd

@[simp] theorem live_setFile (f : Fin nfile) (e : File) (p : Fin nproc) : Live (s.setFile f e) p ↔ Live s p := Iff.rfl

@[simp] theorem live_setOfile (q : Fin nproc) (fd : Fin nofile) (o : Option (Fin nfile)) (p : Fin nproc) :
    Live (s.setOfile q fd o) p ↔ Live s p := by
  simp [Live]

/-! ### `filealloc`, `fdalloc`, `filedup` -/

theorem filealloc_eq {f : Fin nfile} (ha : filealloc s = some (f, t)) :
    (s.ftable f).ref = 0 ∧ t = s.setFile f { s.ftable f with ref := 1 } := by
  unfold filealloc at ha
  cases hfind : (List.finRange nfile).find? (fun f => (s.ftable f).ref == 0) with
  | none => simp [hfind] at ha
  | some g =>
    simp only [hfind, Option.map_some, Option.some.injEq, Prod.mk.injEq] at ha
    obtain ⟨rfl, rfl⟩ := ha
    exact ⟨by simpa using List.find?_some hfind, rfl⟩

/-- `filealloc` hands the caller a reference to a file that was `FD_NONE`. -/
theorem Inv.filealloc (h : Inv s hand) {f : Fin nfile} (ha : filealloc s = some (f, t)) :
    Inv t (f :: hand) ∧ (t.ftable f).type = .none := by
  obtain ⟨h0, rfl⟩ := filealloc_eq ha
  have htype := h.type_none f h0
  have hfree : openCount s f + hand.count f = 0 := by
    rw [← h.ref_eq f, h0]
  refine ⟨h.setFile (f :: hand) (by simp [File.IsEnd, htype]) (by simp) ?_ ?_, by simpa using htype⟩
  · simp only [List.count_cons, beq_self_eq_true, if_true]
    omega
  · intro g hg
    simp [Ne.symm hg]

theorem fdalloc_eq {p : Fin nproc} {f : Fin nfile} {fd : Fin nofile} (ha : fdalloc s p f = some (fd, t)) :
    (s.proc p).ofile fd = none ∧ t = s.setOfile p fd (some f) := by
  unfold fdalloc at ha
  cases hfind : (List.finRange nofile).find? (fun fd => ((s.proc p).ofile fd).isNone) with
  | none => simp [hfind] at ha
  | some d =>
    simp only [hfind, Option.map_some, Option.some.injEq, Prod.mk.injEq] at ha
    obtain ⟨rfl, rfl⟩ := ha
    exact ⟨by simpa using List.find?_some hfind, rfl⟩

/-- `fdalloc` stores a reference from the caller's hand, as its comment says: "Takes over file
reference from caller on success." -/
theorem Inv.fdalloc (h : Inv s hand) {p : Fin nproc} {f : Fin nfile} {fd : Fin nofile} (hp : Live s p)
    (hf : f ∈ hand) (ha : fdalloc s p f = some (fd, t)) : Inv t (hand.erase f) := by
  obtain ⟨hx, rfl⟩ := fdalloc_eq ha
  exact h.store hp hx hf

theorem filedup_of_pos {f : Fin nfile} (hf : 0 < (s.ftable f).ref) :
    filedup s f = some (s.setFile f { s.ftable f with ref := (s.ftable f).ref + 1 }) := by
  simp [filedup, Nat.pos_iff_ne_zero.mp hf]

/-- `filedup` of a file with a reference hands the caller one more. -/
theorem Inv.filedup (h : Inv s hand) {f : Fin nfile} (hf : 0 < (s.ftable f).ref) :
    Inv (s.setFile f { s.ftable f with ref := (s.ftable f).ref + 1 }) (f :: hand) := by
  refine h.setFile (f :: hand) (fun i w => ?_) (by simp) ?_ ?_
  · simp only [File.IsEnd]
    constructor
    · rintro ⟨-, ht, hi, hw⟩
      exact ⟨hf, ht, hi, hw⟩
    · rintro ⟨-, ht, hi, hw⟩
      exact ⟨by omega, ht, hi, hw⟩
  · simp only [List.count_cons, beq_self_eq_true, if_true]
    have := h.ref_eq f
    omega
  · intro g hg
    simp [Ne.symm hg]

/-! ### `pipeclose` and `fileclose` -/

@[simp] theorem pipeclose_ftable (i : Nat) (w : Bool) : (pipeclose s i w).ftable = s.ftable := by
  dsimp only [pipeclose]
  split_ifs <;> rfl

@[simp] theorem pipeclose_proc (i : Nat) (w : Bool) : (pipeclose s i w).proc = s.proc := by
  dsimp only [pipeclose]
  split_ifs <;> rfl

theorem pipeclose_pipes (i : Nat) (w : Bool) :
    (pipeclose s i w).pipes = s.pipes.set i
      (if w then { s.pipes.getD i { readopen := false, writeopen := false } with writeopen := false }
       else { s.pipes.getD i { readopen := false, writeopen := false } with readopen := false }) := by
  dsimp only [pipeclose]
  split_ifs <;> rfl

theorem pipeclose_freed (i : Nat) (w : Bool) :
    (pipeclose s i w).freed =
      let pi : Pipe := if w then { s.pipes.getD i { readopen := false, writeopen := false } with writeopen := false }
        else { s.pipes.getD i { readopen := false, writeopen := false } with readopen := false }
      if pi.readopen = false ∧ pi.writeopen = false then s.freed ++ [i] else s.freed := by
  dsimp only [pipeclose]
  split_ifs <;> rfl

/-- The flag of end `v` once end `w` is closed. -/
theorem isOpen_close (pi : Pipe) (w v : Bool) :
    (if w then { pi with writeopen := false } else { pi with readopen := false }).isOpen v
      = (pi.isOpen v && v != w) := by
  cases w <;> cases v <;> simp [Pipe.isOpen]

/-- Closing end `w` of pipe `i` after its last file was made no end: the flag goes down, and the
page is freed if the other end was closed already. -/
theorem PipesOk.closeEnd (h : PipesOk s) {f : Fin nfile} {i : Nat} {w : Bool} (hend : (s.ftable f).IsEnd i w)
    {e : File} (he : ∀ j v, ¬ e.IsEnd j v) : PipesOk (pipeclose (s.setFile f e) i w) := by
  have hi := h.end_lt f i w hend
  have hopen : s.pipes[i].isOpen w = true := (h.open_iff i hi w).mpr ⟨f, hend⟩
  set pi' : Pipe := if w then { s.pipes[i] with writeopen := false } else { s.pipes[i] with readopen := false }
    with hpi'
  have hget : s.pipes.getD i { readopen := false, writeopen := false } = s.pipes[i] := by
    simp [List.getD_eq_getElem?_getD, hi]
  have hpipes : (pipeclose (s.setFile f e) i w).pipes = s.pipes.set i pi' := by
    rw [pipeclose_pipes, setFile_pipes, hget]
  have hfreed : (pipeclose (s.setFile f e) i w).freed
      = if pi'.readopen = false ∧ pi'.writeopen = false then s.freed ++ [i] else s.freed := by
    rw [pipeclose_freed, setFile_pipes, setFile_freed, hget]
  -- the files that are ends after the close: those that were, but `f`
  have hE : ∀ g j v, ((pipeclose (s.setFile f e) i w).ftable g).IsEnd j v ↔ g ≠ f ∧ (s.ftable g).IsEnd j v := by
    intro g j v
    by_cases hg : g = f
    · subst hg
      simpa using he j v
    · simp [hg]
  have hlen : (pipeclose (s.setFile f e) i w).pipes.length = s.pipes.length := by
    rw [hpipes, List.length_set]
  refine ⟨fun g j v hg => ?_, fun j hj v => ?_, fun g g' j v h1 h2 => ?_, fun j => ?_⟩
  · rw [hlen]
    exact h.end_lt g j v ((hE g j v).mp hg).2
  · simp only [hE]
    have hj' : j < s.pipes.length := hlen ▸ hj
    by_cases hji : j = i
    · subst hji
      have hflag : (pipeclose (s.setFile f e) j w).pipes[j] = pi' := by
        simp [hpipes]
      rw [hflag, hpi', isOpen_close]
      by_cases hvw : v = w
      · subst hvw
        simp only [bne_self_eq_false, Bool.and_false, Bool.false_eq_true, false_iff, not_exists, not_and]
        intro g hg hgend
        exact hg (h.end_unique g f j v hgend hend)
      · have hvw' : (v != w) = true := by simpa using hvw
        rw [hvw', Bool.and_true, h.open_iff j hj' v]
        constructor
        · rintro ⟨g, hg⟩
          refine ⟨g, fun hgf => hvw ?_, hg⟩
          subst hgf
          exact hg.2.2.2.symm.trans hend.2.2.2
        · rintro ⟨g, -, hg⟩
          exact ⟨g, hg⟩
    · have hflag : (pipeclose (s.setFile f e) i w).pipes[j] = s.pipes[j] := by
        simp [hpipes, Ne.symm hji]
      rw [hflag, h.open_iff j hj' v]
      constructor
      · rintro ⟨g, hg⟩
        refine ⟨g, fun hgf => hji ?_, hg⟩
        subst hgf
        exact hg.2.2.1.symm.trans hend.2.2.1
      · rintro ⟨g, -, hg⟩
        exact ⟨g, hg⟩
  · exact h.end_unique g g' j v ((hE g j v).mp h1).2 ((hE g' j v).mp h2).2
  · have hclosed : closed (pipeclose (s.setFile f e) i w) j
        = if j = i then (!pi'.readopen && !pi'.writeopen) else closed s j := by
      by_cases hji : j = i
      · subst hji
        simp [closed, hpipes, hi]
      · simp [closed, hpipes, Ne.symm hji, hji]
    have hnot : closed s i = false := by
      cases w <;> simp_all [closed, Pipe.isOpen]
    rw [hclosed, hfreed]
    by_cases hji : j = i
    · subst hji
      have h0 := h.freed_count j
      rw [hnot] at h0
      split_ifs <;> simp_all
    · rw [if_neg hji, ← h.freed_count j]
      split_ifs
      · simp [List.count_append, Ne.symm hji]
      · rfl

/-- `fileclose` of a reference in the caller's hand does not panic, and drops it: the last
reference frees the file and closes its end of a pipe. -/
theorem Inv.fileclose (h : Inv s hand) {f : Fin nfile} (hf : f ∈ hand) :
    ∃ t, fileclose s f = some t ∧ Inv t (hand.erase f) := by
  have hpos := h.ref_pos_of_mem hf
  have hcount : (hand.erase f).count f + 1 = hand.count f := by
    rw [List.count_erase_self]
    have := List.count_pos_iff.mpr hf
    omega
  have hother : ∀ g, g ≠ f → (hand.erase f).count g = hand.count g := fun g hg => List.count_erase_of_ne hg
  have href := h.ref_eq f
  by_cases hlast : 0 < (s.ftable f).ref - 1
  · -- another reference is left
    refine ⟨s.setFile f { s.ftable f with ref := (s.ftable f).ref - 1 },
      by simp [FileTable.fileclose, Nat.pos_iff_ne_zero.mp hpos, hlast], ?_⟩
    refine h.setFile (hand.erase f) (fun i w => ?_) (fun h0 => absurd h0 (Nat.pos_iff_ne_zero.mp hlast)) (by dsimp only; omega) hother
    simp only [File.IsEnd]
    constructor
    · rintro ⟨-, ht, hi, hw⟩
      exact ⟨hpos, ht, hi, hw⟩
    · rintro ⟨-, ht, hi, hw⟩
      exact ⟨hlast, ht, hi, hw⟩
  · -- the last reference: no descriptor names `f`
    have hone : (s.ftable f).ref = 1 := by omega
    have hcounted : Counted (s.setFile f { s.ftable f with ref := 0, type := .none }) (hand.erase f) :=
      h.toCounted.setFile (hand.erase f) (fun _ => rfl) (by dsimp only; omega) hother
    have hnone : ∀ j v, ¬ ({ s.ftable f with ref := 0, type := .none } : File).IsEnd j v := by
      simp [File.IsEnd]
    by_cases hpipe : (s.ftable f).type = .pipe
    · refine ⟨pipeclose (s.setFile f { s.ftable f with ref := 0, type := .none }) (s.ftable f).pipe
        (s.ftable f).writable, by simp [FileTable.fileclose, hone, hpipe], ?_⟩
      have hend : (s.ftable f).IsEnd (s.ftable f).pipe (s.ftable f).writable := ⟨hpos, hpipe, rfl, rfl⟩
      exact ⟨hcounted.of_eq (by simp) (by simp), h.toPipesOk.closeEnd hend hnone⟩
    · refine ⟨_, by simp [FileTable.fileclose, hone, hpipe], hcounted, h.toPipesOk.of_ends rfl rfl ?_⟩
      intro g i w
      by_cases hg : g = f
      · subst hg
        simp [File.IsEnd, hpipe]
      · simp [hg]

/-- Two `fileclose`s in a row, as the failure paths of `pipealloc` and `sys_pipe` make them. -/
theorem Inv.fileclose_two (h : Inv s hand) {f g : Fin nfile} (hf : f ∈ hand) (hg : g ∈ hand.erase f) :
    ∃ t, ((FileTable.fileclose s f).bind fun s => FileTable.fileclose s g) = some t ∧ Inv t ((hand.erase f).erase g) := by
  obtain ⟨t1, hc1, h1⟩ := h.fileclose hf
  obtain ⟨t2, hc2, h2⟩ := h1.fileclose hg
  exact ⟨t2, by simp [hc1, hc2], h2⟩

/-! ### `pipealloc` -/

/-- The success path of `pipealloc`: a new pipe with both ends open, and two files of the caller's
hand, `FD_NONE` until now, made its read end and its write end. -/
theorem Inv.pipeCreate (h : Inv s hand) {f0 f1 : Fin nfile} (h0 : f0 ∈ hand) (h1 : f1 ∈ hand) (hne : f0 ≠ f1)
    (ht0 : (s.ftable f0).type = .none) (ht1 : (s.ftable f1).type = .none) :
    let i := s.pipes.length
    let s := { s with pipes := s.pipes ++ [({ readopen := true, writeopen := true } : Pipe)] }
    let s := s.setFile f0 { s.ftable f0 with type := .pipe, readable := true, writable := false, pipe := i }
    let s := s.setFile f1 { s.ftable f1 with type := .pipe, readable := false, writable := true, pipe := i }
    Inv s hand := by
  intro i s1 s2 s3
  have hpos0 := h.ref_pos_of_mem h0
  have hpos1 := h.ref_pos_of_mem h1
  have hf3 : ∀ g, s3.ftable g =
      if g = f1 then { s.ftable f1 with type := .pipe, readable := false, writable := true, pipe := i }
      else if g = f0 then { s.ftable f0 with type := .pipe, readable := true, writable := false, pipe := i }
      else s.ftable g := by
    intro g
    simp [s3, s2, s1, Ne.symm hne]
  -- the ends after: those before, and the two new ones of pipe `i`
  have hE : ∀ g j v, (s3.ftable g).IsEnd j v ↔
      (s.ftable g).IsEnd j v ∨ (g = f0 ∧ j = i ∧ v = false) ∨ (g = f1 ∧ j = i ∧ v = true) := by
    intro g j v
    rw [hf3 g]
    by_cases hg1 : g = f1
    · subst hg1
      simp [File.IsEnd, ht1, hpos1, Ne.symm hne, eq_comm]
    · by_cases hg0 : g = f0
      · subst hg0
        simp [File.IsEnd, ht0, hpos0, hg1, eq_comm]
      · simp [hg1, hg0]
  have hcounted : Counted s3 hand := by
    have hs1 : Counted s1 hand := h.toCounted.of_eq rfl rfl
    have hoc : openCount s1 = openCount s := rfl
    have hs2 : Counted s2 hand :=
      hs1.setFile hand (fun h0' => absurd h0' (by simpa [s1] using Nat.pos_iff_ne_zero.mp hpos0))
        (by rw [hoc]; simpa [s1] using h.ref_eq f0) (fun _ _ => rfl)
    refine hs2.setFile hand (fun h0' => absurd h0' (by simpa [s2, s1, Ne.symm hne] using Nat.pos_iff_ne_zero.mp hpos1))
      ?_ (fun _ _ => rfl)
    rw [show openCount s2 = openCount s from rfl]
    simpa [s2, s1, Ne.symm hne] using h.ref_eq f1
  have hlen : s3.pipes.length = s.pipes.length + 1 := by simp [s3, s2, s1]
  have hold : ∀ g j v, (s.ftable g).IsEnd j v → j < i := fun g j v hg => h.end_lt g j v hg
  refine ⟨hcounted, fun g j v hg => ?_, fun j hj v => ?_, fun g g' j v hg hg' => ?_, fun j => ?_⟩
  · rw [hlen]
    rcases (hE g j v).mp hg with hg | ⟨-, rfl, -⟩ | ⟨-, rfl, -⟩
    · exact Nat.lt_succ_of_lt (hold g j v hg)
    · exact Nat.lt_succ_self _
    · exact Nat.lt_succ_self _
  · simp only [hE]
    by_cases hji : j < i
    · have hflag : s3.pipes[j] = s.pipes[j] := by
        simp [s3, s2, s1, List.getElem_append_left hji]
      rw [hflag, h.open_iff j hji v]
      constructor
      · rintro ⟨g, hg⟩
        exact ⟨g, .inl hg⟩
      · rintro ⟨g, hg | ⟨-, rfl, -⟩ | ⟨-, rfl, -⟩⟩
        · exact ⟨g, hg⟩
        · exact absurd hji (Nat.lt_irrefl _)
        · exact absurd hji (Nat.lt_irrefl _)
    · have hji' : j = i := by omega
      have hflag : s3.pipes[j] = { readopen := true, writeopen := true } := by
        simp [s3, s2, s1, i, hji']
      rw [hflag]
      cases v
      · exact ⟨fun _ => ⟨f0, .inr (.inl ⟨rfl, hji', rfl⟩)⟩, fun _ => rfl⟩
      · exact ⟨fun _ => ⟨f1, .inr (.inr ⟨rfl, hji', rfl⟩)⟩, fun _ => rfl⟩
  · -- an old end is of a pipe below `i`, a new one of pipe `i`
    have hg2 := (hE g j v).mp hg
    have hg2' := (hE g' j v).mp hg'
    rcases hg2 with hg | ⟨rfl, hj, hv⟩ | ⟨rfl, hj, hv⟩
    · rcases hg2' with hg' | ⟨-, hj', -⟩ | ⟨-, hj', -⟩
      · exact h.end_unique g g' j v hg hg'
      · exact absurd (hold g j v hg) (by omega)
      · exact absurd (hold g j v hg) (by omega)
    · rcases hg2' with hg' | ⟨rfl, -, -⟩ | ⟨-, -, hv'⟩
      · exact absurd (hold g' j v hg') (by omega)
      · rfl
      · exact absurd (hv.symm.trans hv') Bool.false_ne_true
    · rcases hg2' with hg' | ⟨-, -, hv'⟩ | ⟨rfl, -, -⟩
      · exact absurd (hold g' j v hg') (by omega)
      · exact absurd (hv'.symm.trans hv) Bool.false_ne_true
      · rfl
  · have hclosed : closed s3 j = closed s j := by
      by_cases hji : j < i
      · simp [closed, s3, s2, s1, List.getElem?_append_left hji]
      · have hnone : s.pipes[j]? = none := List.getElem?_eq_none (by omega)
        by_cases hj : j = i
        · subst hj
          simp [closed, s3, s2, s1, i]
        · have hnone3 : s3.pipes[j]? = none := List.getElem?_eq_none (by omega)
          simp [closed, hnone, hnone3]
    rw [hclosed]
    exact h.freed_count j

theorem setOfile_setFile_comm (p : Fin nproc) (fd : Fin nofile) (o : Option (Fin nfile)) (f : Fin nfile) (e : File) :
    (s.setOfile p fd o).setFile f e = (s.setFile f e).setOfile p fd o := rfl

theorem pipeclose_setOfile (p : Fin nproc) (fd : Fin nofile) (o : Option (Fin nfile)) (i : Nat) (w : Bool) :
    pipeclose (s.setOfile p fd o) i w = (pipeclose s i w).setOfile p fd o := by
  unfold pipeclose
  simp only [setOfile_pipes, setOfile_freed]
  split_ifs <;> rfl

/-- `fileclose` reads and writes the files and pipes only, so it commutes with a store to `ofile`. -/
theorem fileclose_setOfile (p : Fin nproc) (fd : Fin nofile) (o : Option (Fin nfile)) (f : Fin nfile) :
    FileTable.fileclose (s.setOfile p fd o) f = (FileTable.fileclose s f).map fun s => s.setOfile p fd o := by
  unfold FileTable.fileclose
  simp only [setOfile_ftable]
  by_cases h1 : (s.ftable f).ref < 1
  · simp [h1]
  · by_cases h2 : 0 < (s.ftable f).ref - 1
    · simp [h1, h2, setOfile_setFile_comm]
    · by_cases h3 : (s.ftable f).type = .pipe
      · simp [h1, h2, h3, setOfile_setFile_comm, pipeclose_setOfile]
      · simp [h1, h2, h3, setOfile_setFile_comm]

theorem fileclose_proc {f : Fin nfile} (hc : FileTable.fileclose s f = some t) : t.proc = s.proc := by
  unfold FileTable.fileclose at hc
  dsimp only at hc
  -- the panic is no result; each other branch changes files and pipes only
  split_ifs at hc
  · cases hc
    rfl
  · cases hc
    exact pipeclose_proc _ _
  · cases hc
    rfl

theorem filealloc_proc {f : Fin nfile} (ha : FileTable.filealloc s = some (f, t)) : t.proc = s.proc := by
  rw [(filealloc_eq ha).2, setFile_proc]

theorem Inv.pipealloc (h : Inv s hand) (page : Bool) :
    ∃ r t, FileTable.pipealloc s page = some (r, t) ∧
      match r with
      | none => Inv t hand
      | some (rf, wf) => Inv t (wf :: rf :: hand) ∧ rf ≠ wf := by
  cases ha0 : FileTable.filealloc s with
  | none => exact ⟨none, s, by simp [FileTable.pipealloc, ha0], h⟩
  | some a =>
    obtain ⟨f0, s1⟩ := a
    obtain ⟨hs1, ht0⟩ := h.filealloc ha0
    cases ha1 : FileTable.filealloc s1 with
    | none =>
      -- the second `filealloc` failed: close the first file
      obtain ⟨t, hc, ht⟩ := hs1.fileclose List.mem_cons_self
      exact ⟨none, t, by simp [FileTable.pipealloc, ha0, ha1, hc], by simpa using ht⟩
    | some b =>
      obtain ⟨f1, s2⟩ := b
      obtain ⟨hs2, ht1⟩ := hs1.filealloc ha1
      have hne : f0 ≠ f1 := by
        have hr0 : (s1.ftable f0).ref = 1 := by simp [(filealloc_eq ha0).2]
        have hr1 := (filealloc_eq ha1).1
        rintro rfl
        omega
      have ht0' : (s2.ftable f0).type = .none := by
        simpa [(filealloc_eq ha1).2, hne] using ht0
      cases page with
      | false =>
        -- `kalloc` failed: close both files
        obtain ⟨t, hc, ht⟩ := hs2.fileclose_two (f := f0) (g := f1) (by simp) (by simp [Ne.symm hne])
        refine ⟨none, t, ?_, by simpa [List.erase_cons, Ne.symm hne] using ht⟩
        simp only [FileTable.pipealloc, ha0, ha1, Bool.false_eq_true, if_false, hc, Option.map_some]
      | true =>
        refine ⟨some (f0, f1), _, ?_, hs2.pipeCreate (by simp) (by simp) hne ht0' ht1, hne⟩
        simp only [FileTable.pipealloc, ha0, ha1, if_true]

theorem pipealloc_proc {page : Bool} {r : Option (Fin nfile × Fin nfile)} (ha : FileTable.pipealloc s page = some (r, t)) :
    t.proc = s.proc := by
  unfold FileTable.pipealloc at ha
  split at ha
  · cases ha
    rfl
  · rename_i f0 s1 ha0
    have hp1 := filealloc_proc ha0
    split at ha
    · obtain ⟨t', hc, heq⟩ := Option.map_eq_some_iff.mp ha
      cases heq
      rw [fileclose_proc hc, hp1]
    · rename_i f1 s2 ha1
      have hp2 := filealloc_proc ha1
      split_ifs at ha
      · cases ha
        simp [hp2, hp1]
      · obtain ⟨t', hc, heq⟩ := Option.map_eq_some_iff.mp ha
        cases heq
        obtain ⟨t1, hc1, hc2⟩ := Option.bind_eq_some_iff.mp hc
        rw [fileclose_proc hc2, fileclose_proc hc1, hp2, hp1]

/-! ### The calls -/

theorem argfd_eq {p : Fin nproc} {fd : Int} {d : Fin nofile} {f : Fin nfile} (ha : argfd s p fd = some (d, f)) :
    (s.proc p).ofile d = some f := by
  unfold argfd at ha
  split_ifs at ha with hb
  obtain ⟨g, hg, heq⟩ := Option.map_eq_some_iff.mp ha
  cases heq
  exact hg

variable {p : Fin nproc}

theorem Inv.sysOpen (h : Inv s []) (hp : Live s p) (dev : Option Bool) (omode : UInt32) :
    ∃ r t, FileTable.sysOpen s p dev omode = some (r, t) ∧ Inv t [] := by
  cases dev with
  | none => exact ⟨-1, s, rfl, h⟩
  | some isDev =>
    cases ha : FileTable.filealloc s with
    | none => exact ⟨-1, s, by simp [FileTable.sysOpen, ha], h⟩
    | some a =>
      obtain ⟨f, s1⟩ := a
      obtain ⟨h1, ht⟩ := h.filealloc ha
      have hp1 : Live s1 p := by
        rw [(filealloc_eq ha).2]
        exact hp
      cases hd : FileTable.fdalloc s1 p f with
      | none =>
        -- no free descriptor: the file is closed again
        obtain ⟨t, hc, ht'⟩ := h1.fileclose List.mem_cons_self
        exact ⟨-1, t, by simp [FileTable.sysOpen, ha, hd, hc], by simpa using ht'⟩
      | some b =>
        obtain ⟨fd, s2⟩ := b
        have h2 : Inv s2 [] := by simpa using h1.fdalloc hp1 List.mem_cons_self hd
        have hslot : (s2.proc p).ofile fd = some f := by simp [(fdalloc_eq hd).2]
        have ht2 : (s2.ftable f).type = .none := by
          rw [(fdalloc_eq hd).2]
          exact ht
        refine ⟨(fd : Nat), s2.setFile f { s2.ftable f with
            type := if isDev then .device else .inode
            readable := omode &&& oWronly = 0
            writable := omode &&& oWronly ≠ 0 ∨ omode &&& oRdwr ≠ 0 },
          by simp [FileTable.sysOpen, ha, hd], h2.setFile [] (fun i w => ?_) (fun h0 => ?_) (h2.ref_eq f) (fun _ _ => rfl)⟩
        · -- an inode or a device is no end of a pipe, and neither was the free file
          cases isDev <;> simp [File.IsEnd, ht2]
        · exact absurd h0 (Nat.pos_iff_ne_zero.mp (h2.ref_pos_of_slot hslot))

theorem Inv.sysDup (h : Inv s []) (hp : Live s p) (fd : Int) :
    ∃ r t, FileTable.sysDup s p fd = some (r, t) ∧ Inv t [] := by
  cases ha : argfd s p fd with
  | none => exact ⟨-1, s, by simp [FileTable.sysDup, ha], h⟩
  | some a =>
    obtain ⟨d, f⟩ := a
    have hpos := h.ref_pos_of_slot (argfd_eq ha)
    cases hd : FileTable.fdalloc s p f with
    | none => exact ⟨-1, s, by simp [FileTable.sysDup, ha, hd], h⟩
    | some b =>
      obtain ⟨fd', s1⟩ := b
      obtain ⟨hfree, rfl⟩ := fdalloc_eq hd
      -- `fdalloc` stores `f` before `filedup` counts it: the same as storing the reference `filedup`
      -- hands over
      have hdup := (h.filedup hpos).store hp hfree List.mem_cons_self
      refine ⟨(fd' : Nat), _, ?_, by simpa using hdup⟩
      simp [FileTable.sysDup, ha, hd, filedup_of_pos (s := s.setOfile p fd' (some f)) hpos, setOfile_setFile_comm]

theorem Inv.sysClose (h : Inv s []) (fd : Int) :
    ∃ r t, FileTable.sysClose s p fd = some (r, t) ∧ Inv t [] := by
  cases ha : argfd s p fd with
  | none => exact ⟨-1, s, by simp [FileTable.sysClose, ha], h⟩
  | some a =>
    obtain ⟨d, f⟩ := a
    obtain ⟨t, hc, ht⟩ := (h.clear (argfd_eq ha)).fileclose List.mem_cons_self
    exact ⟨0, t, by simp [FileTable.sysClose, ha, hc], by simpa using ht⟩

theorem Inv.sysPipe (h : Inv s []) (hp : Live s p) (page copied : Bool) :
    ∃ r t, FileTable.sysPipe s p page copied = some (r, t) ∧ Inv t [] := by
  obtain ⟨r, s1, ha, hr⟩ := h.pipealloc page
  have hp1 : Live s1 p := by
    unfold Live
    rw [pipealloc_proc ha]
    exact hp
  rcases r with _ | ⟨rf, wf⟩
  · exact ⟨-1, s1, by simp [FileTable.sysPipe, ha], hr⟩
  obtain ⟨h1, hne⟩ := hr
  have hwr : [wf, rf].erase rf = [wf] := by simp [Ne.symm hne]
  have hrw : [rf, wf].erase rf = [wf] := by simp
  cases hd0 : FileTable.fdalloc s1 p rf with
  | none =>
    -- no descriptor for the read end: close both files
    obtain ⟨t, hc, ht⟩ := h1.fileclose_two (f := rf) (g := wf) (by simp) (by simp [hwr])
    exact ⟨-1, t, by simp [FileTable.sysPipe, ha, hd0, hc], by simpa [hwr] using ht⟩
  | some b =>
    obtain ⟨fd0, s2⟩ := b
    have h2 : Inv s2 [wf] := by simpa [hwr] using h1.fdalloc hp1 (by simp) hd0
    have hslot0 : (s2.proc p).ofile fd0 = some rf := by simp [(fdalloc_eq hd0).2]
    cases hd1 : FileTable.fdalloc s2 p wf with
    | none =>
      -- no descriptor for the write end: give back the first one, then close both files
      obtain ⟨t, hc, ht⟩ := (h2.clear hslot0).fileclose_two (f := rf) (g := wf) (by simp) (by simp [hrw])
      exact ⟨-1, t, by simp [FileTable.sysPipe, ha, hd0, hd1, hc], by simpa [hrw] using ht⟩
    | some b' =>
      obtain ⟨fd1, s3⟩ := b'
      have h3 : Inv s3 [] := by simpa using h2.fdalloc (by rw [(fdalloc_eq hd0).2, live_setOfile]; exact hp1) (by simp) hd1
      cases copied with
      | true => exact ⟨0, s3, by simp [FileTable.sysPipe, ha, hd0, hd1], h3⟩
      | false =>
        -- `copyout` failed: clear both descriptors, then close both files
        have hne01 : fd1 ≠ fd0 := by
          rintro rfl
          simp [(fdalloc_eq hd1).1] at hslot0
        have hslot0' : (s3.proc p).ofile fd0 = some rf := by
          simp [(fdalloc_eq hd1).2, Ne.symm hne01, hslot0]
        have hslot1 : ((s3.setOfile p fd0 none).proc p).ofile fd1 = some wf := by
          simp [(fdalloc_eq hd1).2, hne01]
        obtain ⟨t, hc, ht⟩ := ((h3.clear hslot0').clear hslot1).fileclose_two (f := rf) (g := wf) (by simp)
          (by simp [hwr])
        exact ⟨-1, t, by simp [FileTable.sysPipe, ha, hd0, hd1, hc], by simpa [hwr] using ht⟩

/-- The loop of `fork` gives the child one more reference to each file of the parent: a `filedup`,
then the store in the child's descriptor, which was empty. -/
theorem Inv.dupFiles (c : Fin nproc) :
    ∀ (fds : List (Fin nofile)) (s : Sys), Inv s [] → Live s c → fds.Nodup →
      (∀ fd ∈ fds, (s.proc c).ofile fd = none) →
      ∃ t, dupFiles p c s fds = some t ∧ Inv t [] ∧ ∀ q, (t.proc q).state = (s.proc q).state
  | [], s, h, _, _, _ => ⟨s, rfl, h, fun _ => rfl⟩
  | fd :: fds, s, h, hc, hnd, hfree => by
    obtain ⟨hfd, hnd⟩ := List.nodup_cons.mp hnd
    cases hx : (s.proc p).ofile fd with
    | none =>
      obtain ⟨t, hd, ht, hst⟩ := Inv.dupFiles c fds s h hc hnd fun d hd => hfree d (List.mem_cons_of_mem fd hd)
      exact ⟨t, by simp [FileTable.dupFiles, hx, hd], ht, hst⟩
    | some f =>
      have hpos := h.ref_pos_of_slot hx
      have h1 := (h.filedup hpos).store hc (hfree fd List.mem_cons_self) List.mem_cons_self
      simp only [List.erase_cons_head] at h1
      obtain ⟨t, hd, ht, hst⟩ := Inv.dupFiles c fds _ h1 (by simpa using hc) hnd fun d hd => by
        have hne : d ≠ fd := fun hdf => hfd (hdf ▸ hd)
        simpa [hne] using hfree d (List.mem_cons_of_mem fd hd)
      refine ⟨t, by simp [FileTable.dupFiles, hx, filedup_of_pos hpos, hd], ht, fun q => ?_⟩
      simp [hst q]

theorem Inv.fork (h : Inv s []) (alloc copied : Bool) :
    ∃ r t, FileTable.fork s p alloc copied = some (r, t) ∧ Inv t [] := by
  cases hfind : (List.finRange nproc).find? (fun c => (s.proc c).state = .unused) with
  | none => exact ⟨-1, s, by simp [FileTable.fork, hfind], h⟩
  | some c =>
    have hunused : (s.proc c).state = .unused := by simpa using List.find?_some hfind
    by_cases hok : alloc = true ∧ copied = true
    · obtain ⟨rfl, rfl⟩ := hok
      -- `allocproc` makes the slot USED; an UNUSED slot held no descriptor
      have h0 : Inv (s.setState c .used) [] := h.setState (by simp)
      have hc : Live (s.setState c .used) c := by simp [Live]
      have hempty : ∀ fd, ((s.setState c .used).proc c).ofile fd = none := by
        simpa using h.empty c (by simp [Live, hunused])
      obtain ⟨t, hd, ht, -⟩ := Inv.dupFiles (p := p) c (List.finRange nofile) _ h0 hc (List.nodup_finRange _)
        fun fd _ => hempty fd
      exact ⟨c, t.setState c .runnable, by simp [FileTable.fork, hfind, hd], ht.setState (by simp)⟩
    · refine ⟨-1, s, ?_, h⟩
      cases alloc <;> cases copied <;> simp_all [FileTable.fork]

/-- The loop of `exit` closes each open descriptor; `fileclose` before the store of `0` is the
same as after it, since `fileclose` does not read `ofile`. -/
theorem Inv.closeFiles :
    ∀ (fds : List (Fin nofile)) (s : Sys), Inv s [] →
      ∃ t, closeFiles p s fds = some t ∧ Inv t [] ∧ (∀ fd ∈ fds, (t.proc p).ofile fd = none) ∧
        (∀ fd, (s.proc p).ofile fd = none → (t.proc p).ofile fd = none)
  | [], s, h => ⟨s, rfl, h, by simp, fun _ hfd => hfd⟩
  | fd :: fds, s, h => by
    cases hx : (s.proc p).ofile fd with
    | none =>
      obtain ⟨t, hc, ht, hall, hkeep⟩ := Inv.closeFiles fds s h
      refine ⟨t, by simp [FileTable.closeFiles, hx, hc], ht, ?_, hkeep⟩
      simpa using ⟨hkeep fd hx, hall⟩
    | some f =>
      obtain ⟨t1, hc1, h1⟩ := (h.clear hx).fileclose List.mem_cons_self
      rw [fileclose_setOfile] at hc1
      obtain ⟨t0, hc0, rfl⟩ := Option.map_eq_some_iff.mp hc1
      have h1' : Inv (t0.setOfile p fd none) [] := by simpa using h1
      obtain ⟨t, hc, ht, hall, hkeep⟩ := Inv.closeFiles fds _ h1'
      have hproc := fileclose_proc hc0
      refine ⟨t, by simp [FileTable.closeFiles, hx, hc0, hc], ht, ?_, fun d hd => hkeep d ?_⟩
      · simpa using ⟨hkeep fd (by simp), hall⟩
      · by_cases hdf : d = fd
        · simp [hdf]
        · simpa [hdf, hproc] using hd

theorem Inv.exit (h : Inv s []) (hp0 : p.val ≠ 0) :
    ∃ r t, FileTable.exit s p = some (r, t) ∧ Inv t [] := by
  obtain ⟨t, hc, ht, hall, -⟩ := Inv.closeFiles (List.finRange nofile) s h
  exact ⟨0, t.setState p .zombie, by simp [FileTable.exit, hp0, hc],
    ht.setState fun _ fd => hall fd (List.mem_finRange fd)⟩

theorem Inv.wait (h : Inv s []) (c : Fin nproc) : ∃ r t, FileTable.wait s c = some (r, t) ∧ Inv t [] := by
  by_cases hz : (s.proc c).state = .zombie
  · -- `freeproc` of a zombie, which closed its files in `exit`
    exact ⟨c, s.setState c .unused, by simp [FileTable.wait, hz], h.setState fun _ => h.empty c (by simp [Live, hz])⟩
  · exact ⟨-1, s, by simp [FileTable.wait, hz], h⟩

/-! ### Every run -/

theorem Inv.run (h : Inv s []) {c : Call} (hp : Live s c.caller) (hinit : ∀ q, c = .exit q → q.val ≠ 0) :
    ∃ r t, c.run s = some (r, t) ∧ Inv t [] := by
  cases c with
  | sysOpen p dev omode => exact h.sysOpen hp dev omode
  | sysDup p fd => exact h.sysDup hp fd
  | sysClose p fd => exact h.sysClose fd
  | sysPipe p page copied => exact h.sysPipe hp page copied
  | fork p alloc copied => exact h.fork alloc copied
  | exec p ok => exact ⟨_, s, rfl, h⟩
  | exit p => exact h.exit (hinit p rfl)
  | wait p c => exact h.wait c

/-- The exit of `init` is the panic "init exiting", and so no step. -/
theorem Step.not_init_exit {e : Call × Int} (hs : Step s e t) : ∀ q, e.1 = .exit q → q.val ≠ 0 := by
  intro q hq hq0
  have hrun := hs.2
  rw [hq] at hrun
  simp [Call.run, FileTable.exit, hq0] at hrun

theorem Inv.step (h : Inv s []) {e : Call × Int} (hs : Step s e t) : Inv t [] := by
  obtain ⟨r, u, hr, hu⟩ := h.run hs.1 hs.not_init_exit
  have hrun := hs.2
  rw [hr] at hrun
  cases hrun
  exact hu

@[simp] theorem boot_ofile (p : Fin nproc) (fd : Fin nofile) : (boot.proc p).ofile fd = none := by
  unfold boot
  dsimp only
  split_ifs <;> rfl

theorem boot_inv : Inv boot [] := by
  have hcount : ∀ f, openCount boot f = 0 := by
    intro f
    simp [openCount, holders, ofileSlot]
  refine ⟨⟨fun p _ fd => boot_ofile p fd, fun f => by rw [hcount f]; rfl, fun f _ => rfl⟩,
    ⟨fun f i w hf => absurd hf.1 (Nat.lt_irrefl 0), fun i hi => absurd hi (Nat.not_lt_zero i),
      fun f g i w hf => absurd hf.1 (Nat.lt_irrefl 0), fun i => rfl⟩⟩

theorem reachable_inv (hreach : Transition.Reachable Step boot s) : Inv s [] :=
  hreach.invariant (fun s => Inv s []) boot_inv fun _ _ _ h hs => h.step hs

/-- With no reference in hand, the descriptors that name a file are those of processes that are not
UNUSED. -/
theorem Counted.openCount_eq (h : Counted s []) (f : Fin nfile) :
    openCount s f = (Finset.univ.filter fun x : Fin nproc × Fin nofile =>
      (s.proc x.1).state ≠ .unused ∧ (s.proc x.1).ofile x.2 = some f).card := by
  unfold openCount holders
  apply congrArg Finset.card
  apply Finset.filter_congr
  rintro ⟨q, d⟩ -
  simp only [ofileSlot]
  constructor
  · intro hx
    refine ⟨fun hu => ?_, hx⟩
    have := h.empty q (by simp [Live, hu]) d
    rw [this] at hx
    cases hx
  · exact fun hx => hx.2

/-- At every call boundary of every run from boot: a file's `ref` counts the descriptors of the
processes that are not UNUSED and name it; a file with no reference is `FD_NONE`; each pipe's
`readopen` (`writeopen`) is set exactly when a file with a reference is its read (write) end; and a
pipe's page has been freed once if both its ends are closed, and never otherwise. -/
theorem open_file_refcounts :
    ∀ t, Transition.Reachable Step boot t →
      (∀ f, (t.ftable f).ref = (Finset.univ.filter fun x : Fin nproc × Fin nofile =>
        (t.proc x.1).state ≠ .unused ∧ (t.proc x.1).ofile x.2 = some f).card) ∧
      (∀ f, (t.ftable f).ref = 0 → (t.ftable f).type = .none) ∧
      (∀ i (hi : i < t.pipes.length),
        (t.pipes[i].readopen = true ↔ ∃ f, (t.ftable f).IsEnd i false) ∧
        (t.pipes[i].writeopen = true ↔ ∃ f, (t.ftable f).IsEnd i true)) ∧
      (∀ i, t.freed.count i = if closed t i then 1 else 0) := by
  intro t hreach
  have h := reachable_inv hreach
  refine ⟨fun f => ?_, h.type_none, fun i hi => ⟨h.open_iff i hi false, h.open_iff i hi true⟩, h.freed_count⟩
  rw [h.ref_eq f, h.toCounted.openCount_eq f]
  simp

theorem open_file_refcounts_after_pipe :
    ∃ r t, Step boot (.sysPipe 0 true true, r) t ∧
      (∀ f, (t.ftable f).ref = (Finset.univ.filter fun x : Fin nproc × Fin nofile =>
        (t.proc x.1).state ≠ .unused ∧ (t.proc x.1).ofile x.2 = some f).card) ∧
      ∀ i, t.freed.count i = if closed t i then 1 else 0 := by
  have hinit : Live boot 0 := by simp [Live, boot]
  obtain ⟨r, t, hr, -⟩ := boot_inv.sysPipe hinit true true
  have hstep : Step boot (.sysPipe 0 true true, r) t := ⟨hinit, hr⟩
  have hreach : Transition.Reachable Step boot t := (Transition.Reachable.init boot).tail hstep
  exact ⟨r, t, hstep, (open_file_refcounts t hreach).1, (open_file_refcounts t hreach).2.2.2⟩

/-- From every state a run reaches, a call by a process that runs returns: `filedup` and
`fileclose` never panic, and of the panics these calls have only `exit` by `init` is left. -/
theorem calls_never_panic :
    ∀ t, Transition.Reachable Step boot t → ∀ c : Call, Live t c.caller → (∀ q, c = .exit q → q.val ≠ 0) →
      ∃ r u, c.run t = some (r, u) := by
  intro t hreach c hp hinit
  obtain ⟨r, u, hr, -⟩ := (reachable_inv hreach).run hp hinit
  exact ⟨r, u, hr⟩

theorem calls_never_panic_pipe_at_boot : ∃ r u, (Call.sysPipe 0 true false).run boot = some (r, u) :=
  calls_never_panic boot (Transition.Reachable.init boot) (.sysPipe 0 true false) (by simp [Live, boot, Call.caller]) (by simp)

end Xv6.FileTable
