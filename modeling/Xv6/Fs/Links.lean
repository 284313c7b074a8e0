import Xv6.Fs.Syscall

/-!
# Link counts and the directory tree

What the on-disk directories say about the inodes: the entries of a directory are the 16-byte
records of its content, the links to an inode are the entries in use that name it other than `.`
in directories that are allocated, and the inodes reachable from the root are those reached by
following entries other than `.` and `..`. The file system is meant to keep `nlink` equal to the
links and every linked inode reachable.

Neither holds from the `mkfs` image. A process can remove its own current directory: `sys_unlink`
checks only that it is empty. `create` then still adds entries to it, because `nameiparent` of a
relative path starts at the current directory, and when the process leaves the directory, `iput`
frees it with its blocks. The file created inside keeps `nlink = 1`, is named by no entry, and can
never be freed.
-/

namespace Xv6.Fs

open Transition

/-- The entries of a directory: the `struct dirent` of each whole 16 bytes of its content. -/
def dirents (fs : FsState) (ip : Inode) : List (List UInt8) :=
  (List.range (ip.size / direntSize)).map fun k => (List.range direntSize).map fun j => byteAt fs ip (direntSize * k + j)

/-- Whether inode `d` is an allocated directory. -/
def isDir (fs : FsState) (d : Nat) : Bool := (fs.dinode d).type == .dir

/-- The entries in use that name `inum` other than `.`, over the allocated directories. -/
def linkCount (fs : FsState) (inum : Nat) : Nat :=
  ((List.range sb.ninodes).map fun d =>
    if isDir fs d then ((dirents fs (diskInode fs d)).filter fun de => deInum de == inum && deName de != dot).length
    else 0).sum

/-- The inodes a directory names other than by `.` and `..`. -/
def children (fs : FsState) (d : Nat) : List Nat :=
  if isDir fs d then
    ((dirents fs (diskInode fs d)).filter fun de => deInum de != 0 && deName de != dot && deName de != dotdot).map deInum
  else []

/-- Reachable from the root through the directory entries. -/
def Reach (fs : FsState) (inum : Nat) : Prop := Relation.ReflTransGen (fun d c => c ∈ children fs d) rootino inum

/-- A root with no children reaches only itself. -/
theorem reach_of_children_root {fs : FsState} (h : children fs rootino = []) {inum : Nat} (hr : Reach fs inum) :
    inum = rootino := by
  rcases Relation.ReflTransGen.cases_head hr with heq | ⟨c, hc, -⟩
  · exact heq.symm
  · rw [h] at hc
    cases hc

/-- The run that removes a process's current directory and creates a file in it: `mkdir /a`,
`chdir /a`, `unlink /a`, `open b` with `O_CREATE|O_RDWR`, `close` of the descriptor, `chdir /`. -/
def unlinkedCwdCalls : List Call :=
  [.sysMkdir 0 [47, 97], .sysChdir 0 [47, 97], .sysUnlink 0 [47, 97], .sysOpen 0 [98] (oCreate ||| oRdwr),
    .sysClose 0 0, .sysChdir 0 [47]]

/-- Every call of the run succeeds; at its end `b`, inode 3, is an allocated file with `nlink = 1`,
no directory names it, and the root has no children. -/
theorem unlinkedCwd_run :
    ∃ es s, runCalls exec boot unlinkedCwdCalls = some (es, s) ∧ es.map Prod.snd = [0, 0, 0, 0, 0, 0] ∧
      (s.fs.dinode 3).type = .file ∧ (s.fs.dinode 3).nlink = 1 ∧ linkCount s.fs 3 = 0 ∧ children s.fs rootino = [] := by
  have hfacts : (runCalls exec boot unlinkedCwdCalls).map (fun x =>
      (x.1.map Prod.snd, (x.2.fs.dinode 3).type, (x.2.fs.dinode 3).nlink, linkCount x.2.fs 3, children x.2.fs rootino)) =
      some ([0, 0, 0, 0, 0, 0], .file, 1, 0, []) := by
    decide +kernel
  obtain ⟨⟨es, s⟩, hrun, heq⟩ := Option.map_eq_some_iff.mp hfacts
  simp only [Prod.mk.injEq] at heq
  obtain ⟨hres, htype, hnlink, hcount, hroot⟩ := heq
  exact ⟨es, s, hrun, hres, htype, hnlink, hcount, hroot⟩

/-- From the `mkfs` image, a state is reached in which an allocated inode has `nlink = 1` while no
entry of an allocated directory names it. -/
theorem nlink_without_entries :
    ∃ s, Reachable Step boot s ∧ ∃ inum, (s.fs.dinode inum).type ≠ .free ∧
      (s.fs.dinode inum).nlink.toInt = 1 ∧ linkCount s.fs inum = 0 := by
  obtain ⟨es, s, hrun, -, htype, hnlink, hcount, -⟩ := unlinkedCwd_run
  refine ⟨s, ⟨es, runCalls_run hrun⟩, 3, by rw [htype]; decide, by rw [hnlink]; rfl, hcount⟩

/-- From the `mkfs` image, a state is reached in which an allocated inode with links is not
reachable from the root. -/
theorem linked_inode_unreachable :
    ∃ s, Reachable Step boot s ∧ ∃ inum, (s.fs.dinode inum).type ≠ .free ∧ 0 < (s.fs.dinode inum).nlink ∧
      ¬ Reach s.fs inum := by
  obtain ⟨es, s, hrun, -, htype, hnlink, -, hroot⟩ := unlinkedCwd_run
  refine ⟨s, ⟨es, runCalls_run hrun⟩, 3, by rw [htype]; decide, by rw [hnlink]; decide, fun hr => ?_⟩
  have := reach_of_children_root hroot hr
  simp [rootino] at this

end Xv6.Fs
