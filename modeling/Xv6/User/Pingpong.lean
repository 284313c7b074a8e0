import Xv6.Ipc.Pipe
import Xv6.Library.Run

/-!
# `pingpong`: a parent and a child over one pipe

`user/pingpong.c` creates one pipe, forks, and uses the pipe in both directions: the parent writes a
byte and then reads the answer, the child reads a byte and then writes the answer. Each process is a
program counter over the statements of `main`, and the two run as the labelled steps `Step lit buf`,
one system call or `printf` at a time, in any order. The writes and reads are `pipewrite` and
`piperead` of `Xv6.Ipc.Pipe` on the one pipe; `close` drops a reference of the pipe's read or write
file and closes that end with the last one; `wait` reaps the child once it is a zombie; `exit`
records the status. A process whose call sleeps has no step until another step lets it run.

The run starts after `pipe(p)` returned its two files. Nothing in the program orders the parent's
read after the child's write: right after its own write the parent may read back its own byte. It
then prints "received pong" and waits for the child, which sleeps in its read on the empty pipe
whose write end both processes still hold. No step is enabled, and neither process runs again
(`pingpong_deadlock`).
-/

namespace Xv6.User

open Vm Ipc CounterRing Transition Bytes

/-- The lines `pingpong` prints. -/
inductive Line
  /-- `"%d: received ping\n"`. -/
  | receivedPing
  /-- `"%d: received pong\n"`. -/
  | receivedPong
  /-- `"child: read error\n"`. -/
  | childReadError
  /-- `"parent: read error\n"`. -/
  | parentReadError
  deriving DecidableEq, Repr

/-- Where the parent is in `main`; `n` is what its `read` returned. -/
inductive ParentPc
  | fork
  | write
  | read
  | print (n : Int)
  | wait (n : Int)
  | close0 (n : Int)
  | close1 (n : Int)
  | exit (n : Int)
  | exited (status : Int)
  deriving DecidableEq, Repr

/-- Where the child is in `main`: `unborn` before the `fork`, `reaped` after the parent's `wait`. -/
inductive ChildPc
  | unborn
  | read
  | print (n : Int)
  | write (n : Int)
  | close0 (n : Int)
  | close1 (n : Int)
  | exit (n : Int)
  | zombie (status : Int)
  | reaped
  deriving DecidableEq, Repr

/-- The pipe, the reference counts of its read and write `struct file`s, the two processes with their
address spaces, and the lines printed so far. -/
structure PingPong where
  pipe : Pipe
  readRef : Nat
  writeRef : Nat
  parent : ParentPc
  child : ChildPc
  parentMem : UserMem
  childMem : UserMem
  out : List Line

/-- The state after `pipe(p)` in a page `kalloc` filled with `junk`: one reference to each file. -/
def start (junk : Fin pipesize → UInt8) (u : UserMem) : PingPong :=
  ⟨pipealloc junk, 1, 1, .fork, .unborn, u, u, []⟩

/-- `fileclose(f)` of the file of one end of the pipe `pi`, with `ref` references: the last one
closes that end. -/
def fileclose (ref : Nat) (pi : Pipe) (writable : Bool) : Nat × Pipe :=
  if ref - 1 = 0 then (0, (pipeclose pi writable).1) else (ref - 1, pi)

/-- `close(p[1])` when `writable`, else `close(p[0])`. -/
def PingPong.close (s : PingPong) (writable : Bool) : PingPong :=
  if writable then
    let r := fileclose s.writeRef s.pipe true
    { s with writeRef := r.1, pipe := r.2 }
  else
    let r := fileclose s.readRef s.pipe false
    { s with readRef := r.1, pipe := r.2 }

/-- `n == 0 ? 1 : 0`. -/
def exitStatus (n : Int) : Int := if n = 0 then 1 else 0

/-- The process that takes a step. -/
inductive Actor
  | parent
  | child
  deriving DecidableEq, Repr

/-- One statement of the parent's or the child's `main`, at the address `lit` of the string `"p"` and
`buf` of `buf`. Neither process is killed, and `fork` succeeds. -/
inductive Step (lit buf : Nat) : PingPong → Actor → PingPong → Prop
  /-- `fork()`: the child gets a copy of the address space and a reference to each file. -/
  | fork {s : PingPong} : s.parent = .fork → s.child = .unborn →
      Step lit buf s .parent
        { s with parent := .write, child := .read, childMem := s.parentMem, readRef := s.readRef + 1,
                 writeRef := s.writeRef + 1 }
  /-- `write(p[1], "p", 1)`, whose result is not used. -/
  | parentWrite {s : PingPong} {r : Int} {pi : Pipe} : s.parent = .write →
      pipewrite s.pipe false s.parentMem lit 1 = .ret r pi →
      Step lit buf s .parent { s with pipe := pi, parent := .read }
  /-- `n = read(p[0], buf, 1)`. -/
  | parentRead {s : PingPong} {n : Int} {pi : Pipe} {u : UserMem} : s.parent = .read →
      piperead s.pipe false s.parentMem buf 1 = .ret n pi u →
      Step lit buf s .parent { s with pipe := pi, parentMem := u, parent := .print n }
  | parentPrint {s : PingPong} {n : Int} : s.parent = .print n →
      Step lit buf s .parent
        { s with out := s.out ++ [if 0 < n then .receivedPong else .parentReadError], parent := .wait n }
  /-- `wait(0)` returns once the child is a zombie, and frees it. -/
  | parentWait {s : PingPong} {n status : Int} : s.parent = .wait n → s.child = .zombie status →
      Step lit buf s .parent { s with child := .reaped, parent := .close0 n }
  | parentClose0 {s : PingPong} {n : Int} : s.parent = .close0 n →
      Step lit buf s .parent { s.close false with parent := .close1 n }
  | parentClose1 {s : PingPong} {n : Int} : s.parent = .close1 n →
      Step lit buf s .parent { s.close true with parent := .exit n }
  | parentExit {s : PingPong} {n : Int} : s.parent = .exit n →
      Step lit buf s .parent { s with parent := .exited (exitStatus n) }
  /-- `n = read(p[0], buf, 1)`. -/
  | childRead {s : PingPong} {n : Int} {pi : Pipe} {u : UserMem} : s.child = .read →
      piperead s.pipe false s.childMem buf 1 = .ret n pi u →
      Step lit buf s .child { s with pipe := pi, childMem := u, child := .print n }
  /-- The `printf` of either branch; only the branch for `n > 0` writes. -/
  | childPrint {s : PingPong} {n : Int} : s.child = .print n →
      Step lit buf s .child
        { s with out := s.out ++ [if 0 < n then .receivedPing else .childReadError],
                 child := if 0 < n then .write n else .close0 n }
  /-- `write(p[1], "p", 1)`, whose result is not used. -/
  | childWrite {s : PingPong} {n r : Int} {pi : Pipe} : s.child = .write n →
      pipewrite s.pipe false s.childMem lit 1 = .ret r pi →
      Step lit buf s .child { s with pipe := pi, child := .close0 n }
  | childClose0 {s : PingPong} {n : Int} : s.child = .close0 n →
      Step lit buf s .child { s.close false with child := .close1 n }
  | childClose1 {s : PingPong} {n : Int} : s.child = .close1 n →
      Step lit buf s .child { s.close true with child := .exit n }
  | childExit {s : PingPong} {n : Int} : s.child = .exit n →
      Step lit buf s .child { s with child := .zombie (exitStatus n) }

section Deadlock

variable {lit buf : Nat}

/-- A parent waiting for a child that sleeps in its read, on an empty pipe whose write end is
open, waits forever: no step is enabled. -/
theorem stuck_of_wait_read {s : PingPong} {n : Int} (hparent : s.parent = .wait n) (hchild : s.child = .read)
    (hempty : s.pipe.nread = s.pipe.nwrite) (hopen : s.pipe.writeopen = true) : Stuck (Step lit buf) s := by
  intro e t hstep
  cases hstep with
  | parentWait _ hzombie => rw [hchild] at hzombie; cases hzombie
  | childRead _ hread => rw [piperead_sleep hempty hopen] at hread; cases hread
  | fork h | parentWrite h | parentRead h | parentPrint h | parentClose0 h | parentClose1 h | parentExit h =>
    rw [hparent] at h; cases h
  | childPrint h | childWrite h | childClose0 h | childClose1 h | childExit h => rw [hchild] at h; cases h

/-- A schedule under which `pingpong` never completes: the parent forks, writes its byte, reads it
back and prints "received pong"; then it waits for the child, which sleeps in its read on the
empty pipe. No step is enabled in the state reached: neither process runs again, the child never
prints "received ping", and neither exits. -/
theorem pingpong_deadlock (junk : Fin pipesize → UInt8) {u : UserMem} (hlit : u.readable (pgrounddown lit) = true)
    (hbuf : u.writable (pgrounddown buf) = true) :
    ∃ s, Reachable (Step lit buf) (start junk u) s ∧ Stuck (Step lit buf) s ∧
      s.out = [.receivedPong] ∧ s.parent = .wait 1 ∧ s.child = .read := by
  -- the pipe after the parent's write, and after the parent reads the byte back
  set pi₁ : Pipe := { pipealloc junk with data := Function.update junk (cell pipesize 0) (u.byte lit), nwrite := 1 }
  have hwrite : pipewrite (pipealloc junk) false u lit 1 = .ret 1 pi₁ :=
    pipewrite_one_put rfl (show (0 : UInt32) ≠ 0 + UInt32.ofNat pipesize by decide) hlit
  have hread : piperead pi₁ false u buf 1 = _ := piperead_one (show (0 : UInt32) ≠ 1 by decide) hbuf
  have hrun : Reachable (Step lit buf) (start junk u) _ :=
    ((((Reachable.init (start junk u)).tail (Step.fork rfl rfl)).tail (Step.parentWrite rfl hwrite)).tail
      (Step.parentRead rfl hread)).tail (Step.parentPrint rfl)
  exact ⟨_, hrun, stuck_of_wait_read rfl rfl (show (0 : UInt32) + 1 = 1 by decide) rfl, by simp [start], by simp, rfl⟩

/-- The schedule above in an address space where every page is mapped, with `"p"` and `buf` at
address `0`. -/
theorem pingpong_deadlock_mapped :
    ∃ s, Reachable (Step 0 0) (start (fun _ => 0) ⟨fun _ => true, fun _ => true, fun _ => 112⟩) s ∧
      Stuck (Step 0 0) s ∧ s.out = [.receivedPong] ∧ s.parent = .wait 1 ∧ s.child = .read :=
  pingpong_deadlock (fun _ => 0) rfl rfl

end Deadlock

end Xv6.User
