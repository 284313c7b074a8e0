import Xv6.Library.CounterRing
import Xv6.Vm.Copy

/-!
# Pipes: `pipewrite` and `piperead`

A pipe is a ring of `PIPESIZE` bytes with the 32-bit counters `nwrite` and `nread` of the bytes put
in and taken out. `pipewrite` puts one byte per pass of its loop under `pi->lock` and sleeps while
the pipe is full; `piperead` sleeps while the pipe is empty and its write end open, and then takes
bytes in one locked loop. Both copy one byte at a time between the pipe and the caller's address
space.

Any number of readers and writers run as the step relation `PipeStep` on the pipe together with
its history: the bytes accepted from writers, how many of them readers took out, and the bytes the
reads left in their callers' buffers. Whatever the interleaving, the pipe holds at most `PIPESIZE`
bytes and its cells hold, from `nread` on, the accepted bytes not yet taken (`PipeInv`,
`pipeInv_of_reachable`): bytes are taken out in the order they were accepted, none twice, across
the wrap of the counters.

A read returns its bytes in that order (`PipeInv.read_buffer`), but not every byte taken is
returned: `piperead` advances `nread` before its `copyout`, and when the copy-out fails the byte is
taken and returned to nobody (`piperead_fault_loses_byte`).
-/

namespace Xv6.Ipc

open Vm CounterRing Bytes

/-- `PIPESIZE`. -/
def pipesize : Nat := 512

instance : NeZero pipesize := ⟨by decide⟩

theorem pipesize_dvd : pipesize ∣ 2 ^ 32 := ⟨2 ^ 23, by norm_num [pipesize]⟩

theorem pipesize_lt : pipesize < 2 ^ 32 := by norm_num [pipesize]

/-- `struct pipe` without its lock. -/
structure Pipe where
  data : Fin pipesize → UInt8
  nread : UInt32
  nwrite : UInt32
  readopen : Bool
  writeopen : Bool

/-- The pipe `pipealloc` sets up in a page `kalloc` filled with `junk`. -/
def pipealloc (junk : Fin pipesize → UInt8) : Pipe := ⟨junk, 0, 0, true, true⟩

/-- What one pass of `pipewrite`'s loop leads to. -/
inductive WritePass
  /-- The call returns `r`; the pipe is as it was. -/
  | ret (r : Int)
  /-- The pipe is full: the writer wakes the readers and sleeps until there is room. -/
  | sleep
  /-- The byte `ch` was copied in and put into the pipe, which is now `pi`. -/
  | put (ch : UInt8) (pi : Pipe)

/-- One pass of `pipewrite(pi, addr, n)`'s loop after `i` bytes, by a writer whose address space is
`u`. -/
def pipewritePass (pi : Pipe) (killed : Bool) (u : UserMem) (addr : Nat) (n : Int) (i : Nat) : WritePass :=
  if (i : Int) < n then
    if !pi.readopen || killed then .ret (-1)
    else if pi.nwrite = pi.nread + UInt32.ofNat pipesize then .sleep
    else
      let r := copyin u (fun _ => 0) 0 (addr + i) 1
      if r.2 = -1 then .ret i
      else
        .put (r.1 0) { pi with data := Function.update pi.data (cell pipesize pi.nwrite) (r.1 0), nwrite := pi.nwrite + 1 }
  else .ret i

/-- What a call of `pipewrite` leads to. -/
inductive WriteResult
  /-- The writer sleeps, having put `i` bytes; the pipe is now `pi`. -/
  | sleep (i : Nat) (pi : Pipe)
  /-- The call returns `r`, leaving the pipe `pi`. -/
  | ret (r : Int) (pi : Pipe)

/-- The passes of `pipewrite(pi, addr, n)`'s loop from pass `i` on, while none of them sleeps. -/
def pipewriteLoop (killed : Bool) (u : UserMem) (addr : Nat) (n : Int) : (fuel : Nat) → (i : Nat) → Pipe → WriteResult
  | 0, i, pi => .ret i pi
  | fuel + 1, i, pi =>
    match pipewritePass pi killed u addr n i with
    | .ret r => .ret r pi
    | .sleep => .sleep i pi
    | .put _ pi' => pipewriteLoop killed u addr n fuel (i + 1) pi'

/-- `pipewrite(pi, addr, n)` up to its first sleep: every pass but the last puts a byte, so `n + 1`
passes are enough. -/
def pipewrite (pi : Pipe) (killed : Bool) (u : UserMem) (addr : Nat) (n : Int) : WriteResult :=
  pipewriteLoop killed u addr n (n.toNat + 1) 0 pi

/-- A pass after the last byte returns the count. -/
theorem pipewritePass_of_le {pi : Pipe} {killed : Bool} {u : UserMem} {addr : Nat} {n : Int} {i : Nat}
    (h : n ≤ i) : pipewritePass pi killed u addr n i = .ret i := by
  rw [pipewritePass, if_neg (by omega)]

/-- A write of one byte is its first pass, followed by a pass that returns `1` when that one put
the byte. -/
theorem pipewrite_one (pi : Pipe) (killed : Bool) (u : UserMem) (addr : Nat) :
    pipewrite pi killed u addr 1 =
      match pipewritePass pi killed u addr 1 0 with
      | .ret r => .ret r pi
      | .sleep => .sleep 0 pi
      | .put _ pi' => .ret 1 pi' := by
  unfold pipewrite
  simp only [pipewriteLoop, Int.toNat_one]
  cases pipewritePass pi killed u addr 1 0 with
  | ret r => rfl
  | sleep => rfl
  | put ch pi' => simp [pipewritePass_of_le]

/-- A write of one byte into a pipe whose read end is open and which has room, from a buffer that
can be read, puts the byte at `nwrite` and returns `1`. -/
theorem pipewrite_one_put {pi : Pipe} {u : UserMem} {addr : Nat} (hopen : pi.readopen = true)
    (hroom : pi.nwrite ≠ pi.nread + UInt32.ofNat pipesize) (hlit : u.readable (pgrounddown addr) = true) :
    pipewrite pi false u addr 1 =
      .ret 1 { pi with data := Function.update pi.data (cell pipesize pi.nwrite) (u.byte addr), nwrite := pi.nwrite + 1 } := by
  rw [pipewrite_one]
  simp [pipewritePass, hopen, hroom, copyin_one, hlit, copy_of_mem]

/-- The copy loop of `piperead(pi, addr, n)` from `i` bytes: take the byte at `nread`, advance
`nread`, then copy the byte out. Every pass takes a byte, so `n` passes are enough. -/
def pipereadLoop (addr : Nat) (n : Int) : (fuel : Nat) → (i : Nat) → Pipe → UserMem → Nat × Pipe × UserMem
  | 0, i, pi, u => (i, pi, u)
  | fuel + 1, i, pi, u =>
    if (i : Int) < n then
      if pi.nread = pi.nwrite then (i, pi, u)
      else
        let ch := pi.data (cell pipesize pi.nread)
        let pi := { pi with nread := pi.nread + 1 }
        let r := copyout u (addr + i) (fun _ => ch) 1
        if r.2 = -1 then (i, pi, r.1) else pipereadLoop addr n fuel (i + 1) pi r.1
    else (i, pi, u)

/-- What `piperead` leads to. -/
inductive ReadResult
  /-- The pipe is empty and its write end open: the reader sleeps until that changes. -/
  | sleep
  /-- The call returns `r`, leaving the pipe `pi` and the reader's address space `u`. -/
  | ret (r : Int) (pi : Pipe) (u : UserMem)

/-- `piperead(pi, addr, n)` by a reader whose address space is `u`. -/
def piperead (pi : Pipe) (killed : Bool) (u : UserMem) (addr : Nat) (n : Int) : ReadResult :=
  if pi.nread = pi.nwrite ∧ pi.writeopen = true then
    if killed then .ret (-1) pi u else .sleep
  else
    let r := pipereadLoop addr n n.toNat 0 pi u
    .ret r.1 r.2.1 r.2.2

/-- `pipeclose(pi, writable)`: the pipe with that end closed, and whether its page is freed. -/
def pipeclose (pi : Pipe) (writable : Bool) : Pipe × Bool :=
  let pi := if writable then { pi with writeopen := false } else { pi with readopen := false }
  (pi, !pi.readopen && !pi.writeopen)

/-- A pipe with its history: the bytes accepted from writers in order, the number of them readers
took out, and the bytes the reads left in their callers' buffers, in read order. -/
structure PipeRun where
  pipe : Pipe
  accepted : List UInt8
  taken : Nat
  delivered : List UInt8

/-- The first `r` bytes a read left at `addr` in its caller's address space: what it returns. -/
def readBytes (u : UserMem) (addr : Nat) (r : Int) : List UInt8 := (List.range r.toNat).map fun j => u.byte (addr + j)

/-- One step of any reader or writer. A pass of `pipewrite` that returns or sleeps changes nothing
and is left out. -/
inductive PipeStep : PipeRun → PipeRun → Prop
  | put {s : PipeRun} {killed : Bool} {u : UserMem} {addr : Nat} {n : Int} {i : Nat} {ch : UInt8} {pi : Pipe} :
      pipewritePass s.pipe killed u addr n i = .put ch pi →
      PipeStep s { s with pipe := pi, accepted := s.accepted ++ [ch] }
  | read {s : PipeRun} {killed : Bool} {u : UserMem} {addr : Nat} {n r : Int} {pi : Pipe} {u' : UserMem} :
      piperead s.pipe killed u addr n = .ret r pi u' →
      PipeStep s
        { s with pipe := pi, taken := s.taken + count s.pipe.nread pi.nread, delivered := s.delivered ++ readBytes u' addr r }
  | close {s : PipeRun} {writable : Bool} : PipeStep s { s with pipe := (pipeclose s.pipe writable).1 }

/-- The runs from a new pipe. -/
def PipeReach (s : PipeRun) : Prop :=
  ∃ junk, Relation.ReflTransGen PipeStep ⟨pipealloc junk, [], 0, []⟩ s

/-- What holds of every run of a pipe. -/
structure PipeInv (s : PipeRun) : Prop where
  /-- The pipe holds the accepted bytes not yet taken, the oldest at `nread`. -/
  view_eq : view s.pipe.data s.pipe.nread s.pipe.nwrite = s.accepted.drop s.taken
  /-- `nread` is the number of bytes taken, on 32 bits. -/
  nread_eq : s.pipe.nread = UInt32.ofNat s.taken
  taken_le : s.taken ≤ s.accepted.length
  /-- At most `PIPESIZE` bytes are held. -/
  count_le : count s.pipe.nread s.pipe.nwrite ≤ pipesize

section Inv

variable {s : PipeRun}

theorem PipeInv.count_eq (h : PipeInv s) : count s.pipe.nread s.pipe.nwrite = s.accepted.length - s.taken := by
  rw [← view_length s.pipe.data, h.view_eq, List.length_drop]

/-- The cell `k % PIPESIZE` holds the `k`-th accepted byte for every `k` from the bytes taken to the
bytes accepted. -/
theorem PipeInv.data_eq (h : PipeInv s) {k : Nat} (hk : s.taken ≤ k) (hk' : k < s.accepted.length) :
    s.pipe.data ⟨k % pipesize, Nat.mod_lt _ (by decide)⟩ = s.accepted[k] := by
  have hlen : k - s.taken < (view s.pipe.data s.pipe.nread s.pipe.nwrite).length := by
    rw [view_length, h.count_eq]
    omega
  -- the element `k - taken` of the view is the cell `nread + (k - taken)`, which is `k % PIPESIZE`
  have hget : s.pipe.data (cell pipesize (s.pipe.nread + UInt32.ofNat (k - s.taken))) = s.accepted[k] := by
    have := List.getElem_of_eq h.view_eq hlen
    simpa [view, List.getElem_drop, Nat.add_sub_cancel' hk] using this
  rw [← hget, cell_add pipesize_dvd, h.nread_eq, UInt32.toNat_ofNat']
  congr 2
  rw [Nat.add_mod, Nat.mod_mod_of_dvd _ pipesize_dvd, ← Nat.add_mod, Nat.add_sub_cancel' hk]

/-- The pipe is full exactly when `nwrite` is `nread + PIPESIZE`. -/
theorem full_iff {pi : Pipe} : pi.nwrite = pi.nread + UInt32.ofNat pipesize ↔ count pi.nread pi.nwrite = pipesize :=
  (count_eq_iff pipesize_lt).symm

theorem pipeInv_init (junk : Fin pipesize → UInt8) : PipeInv ⟨pipealloc junk, [], 0, []⟩ where
  view_eq := by simp [pipealloc]
  nread_eq := rfl
  taken_le := le_rfl
  count_le := by simp [pipealloc]

/-- A pass of `pipewrite` that puts a byte found room for it at the cell of `nwrite`. -/
theorem pipewritePass_put {pi pi' : Pipe} {killed : Bool} {u : UserMem} {addr : Nat} {n : Int} {i : Nat}
    {ch : UInt8} (h : pipewritePass pi killed u addr n i = .put ch pi') :
    pi.nwrite ≠ pi.nread + UInt32.ofNat pipesize ∧
      pi' = { pi with data := Function.update pi.data (cell pipesize pi.nwrite) ch, nwrite := pi.nwrite + 1 } := by
  dsimp only [pipewritePass] at h
  split_ifs at h with hn hopen hfull hcopy
  cases h
  exact ⟨hfull, rfl⟩

/-- A byte put into a pipe that is not full is appended to what it holds. -/
theorem PipeInv.put {pi : Pipe} {killed : Bool} {u : UserMem} {addr : Nat} {n : Int} {i : Nat} {ch : UInt8}
    (h : PipeInv s) (hput : pipewritePass s.pipe killed u addr n i = .put ch pi) :
    PipeInv { s with pipe := pi, accepted := s.accepted ++ [ch] } := by
  obtain ⟨hfull, rfl⟩ := pipewritePass_put hput
  have hlt : count s.pipe.nread s.pipe.nwrite < pipesize := lt_of_le_of_ne h.count_le (mt full_iff.mpr hfull)
  refine ⟨?_, h.nread_eq, by simp only [List.length_append]; have := h.taken_le; omega, ?_⟩
  · simp only
    rw [view_push pipesize_dvd pipesize_lt hlt, h.view_eq, List.drop_append_of_le_length h.taken_le]
  · simp only
    rw [count_succ (by have := pipesize_lt; omega)]
    omega

end Inv

section Read

variable {addr : Nat} {n : Int}

/-- The copy loop takes `k` of the bytes the pipe holds from `nread` on, and leaves the first
`i' - i` of them, in order, in the caller's buffer from `addr + i` on: it returns `i + k`, or
`i + k - 1` when the copy-out of the last byte it took failed. Bytes below `addr + i` stay. -/
theorem pipereadLoop_spec : ∀ {fuel i : Nat} {pi : Pipe} {u : UserMem} {i' : Nat} {pi' : Pipe} {u' : UserMem},
    pipereadLoop addr n fuel i pi u = (i', pi', u') →
    ∃ k, k ≤ count pi.nread pi.nwrite ∧ pi' = { pi with nread := pi.nread + UInt32.ofNat k } ∧
      i ≤ i' ∧ i' ≤ i + k ∧ i + k ≤ i' + 1 ∧
      (List.range (i' - i)).map (fun j => u'.byte (addr + i + j)) = (view pi.data pi.nread pi.nwrite).take (i' - i) ∧
      ∀ a < addr + i, u'.byte a = u.byte a := by
  intro fuel
  induction fuel with
  | zero =>
    intro i pi u i' pi' u' hrun
    simp only [pipereadLoop, Prod.mk.injEq] at hrun
    obtain ⟨rfl, rfl, rfl⟩ := hrun
    exact ⟨0, Nat.zero_le _, by simp, le_rfl, le_rfl, by omega, by simp, fun _ _ => rfl⟩
  | succ fuel ih =>
    intro i pi u i' pi' u' hrun
    -- a loop that stops here took nothing
    have hstop : (i, pi, u) = (i', pi', u') →
        ∃ k, k ≤ count pi.nread pi.nwrite ∧ pi' = { pi with nread := pi.nread + UInt32.ofNat k } ∧
          i ≤ i' ∧ i' ≤ i + k ∧ i + k ≤ i' + 1 ∧
          (List.range (i' - i)).map (fun j => u'.byte (addr + i + j)) = (view pi.data pi.nread pi.nwrite).take (i' - i) ∧
          ∀ a < addr + i, u'.byte a = u.byte a := by
      intro heq
      simp only [Prod.mk.injEq] at heq
      obtain ⟨rfl, rfl, rfl⟩ := heq
      exact ⟨0, Nat.zero_le _, by simp, le_rfl, le_rfl, by omega, by simp, fun _ _ => rfl⟩
    by_cases hn : (i : Int) < n
    swap
    · simp only [pipereadLoop, if_neg hn] at hrun
      exact hstop hrun
    by_cases hempty : pi.nread = pi.nwrite
    · simp only [pipereadLoop, if_pos hn, if_pos hempty] at hrun
      exact hstop hrun
    have hpos : 0 < count pi.nread pi.nwrite := Nat.pos_of_ne_zero fun h0 => hempty (eq_of_count_eq_zero h0)
    -- the pass takes the byte at `nread` and copies it out
    generalize hch : pi.data (cell pipesize pi.nread) = ch
    simp only [pipereadLoop, if_pos hn, if_neg hempty, copyout_one, hch] at hrun
    by_cases hw : u.writable (pgrounddown (addr + i)) = true
    · simp only [hw, if_true, show ((0 : Int) = -1) = False by decide, if_false] at hrun
      obtain ⟨k, hk, rfl, hi1, hi2, hi3, hbytes, hbelow⟩ := ih hrun
      have hk' : k ≤ count (pi.nread + 1) pi.nwrite := hk
      have hcount : count (pi.nread + 1) pi.nwrite = count pi.nread pi.nwrite - 1 := count_succ_left hempty
      refine ⟨k + 1, by omega, ?_, by omega, by omega, by omega, ?_, fun a ha => ?_⟩
      · show ({ pi with nread := pi.nread + 1 + UInt32.ofNat k } : Pipe) = { pi with nread := pi.nread + UInt32.ofNat (k + 1) }
        rw [UInt32.ofNat_add]
        congr 1
        grind
      · -- the first byte is the one this pass copied out; the rest come from the loop
        obtain ⟨m, hm⟩ : ∃ m, i' - i = m + 1 := ⟨i' - i - 1, by omega⟩
        rw [hm, List.range_succ_eq_map, List.map_cons, List.map_map, view_cons hempty, List.take_succ_cons, hch]
        congr 1
        · rw [Nat.add_zero, hbelow (addr + i) (by omega)]
          simp [copy_of_mem]
        · rw [show m = i' - (i + 1) by omega, ← hbytes]
          refine List.map_congr_left fun j _ => ?_
          simp only [Function.comp_apply, Nat.succ_eq_add_one]
          congr 1
          omega
      · rw [hbelow a (by omega)]
        show copy u.byte (addr + i) (fun _ => ch) 1 a = u.byte a
        exact copy_of_lt ha
    · simp only [hw, Bool.false_eq_true, if_false, if_true, Prod.mk.injEq] at hrun
      obtain ⟨rfl, rfl, rfl⟩ := hrun
      -- the copy-out failed: the byte was taken and nothing was copied
      exact ⟨1, hpos, by simp, le_rfl, by omega, le_rfl, by simp, fun _ _ => rfl⟩

/-- A read takes `k` of the bytes the pipe holds and returns the first of them, in order. -/
theorem piperead_spec {pi pi' : Pipe} {killed : Bool} {u u' : UserMem} {r : Int}
    (h : piperead pi killed u addr n = .ret r pi' u') :
    ∃ k, k ≤ count pi.nread pi.nwrite ∧ pi' = { pi with nread := pi.nread + UInt32.ofNat k } ∧
      readBytes u' addr r = (view pi.data pi.nread pi.nwrite).take r.toNat := by
  unfold piperead at h
  split_ifs at h with hsleep hkilled
  · cases h
    exact ⟨0, Nat.zero_le _, by simp, by simp [readBytes]⟩
  · obtain ⟨k, hk, hpi, -, -, -, hbytes, -⟩ :=
      pipereadLoop_spec (show pipereadLoop addr n n.toNat 0 pi u = _ from rfl)
    cases h
    refine ⟨k, hk, hpi, ?_⟩
    simpa [readBytes] using hbytes

/-- A reader that is not killed sleeps on an empty pipe whose write end is open. -/
theorem piperead_sleep {pi : Pipe} {u : UserMem} (hempty : pi.nread = pi.nwrite) (hopen : pi.writeopen = true) :
    piperead pi false u addr n = .sleep := by
  simp [piperead, hempty, hopen]

/-- A read of one byte from a pipe that holds one, into a buffer that can be written, takes the
byte at `nread` and returns `1`. -/
theorem piperead_one {pi : Pipe} {killed : Bool} {u : UserMem} (hne : pi.nread ≠ pi.nwrite)
    (hbuf : u.writable (pgrounddown addr) = true) :
    piperead pi killed u addr 1 =
      .ret 1 { pi with nread := pi.nread + 1 } { u with byte := copy u.byte addr (fun _ => pi.data (cell pipesize pi.nread)) 1 } := by
  simp [piperead, hne, pipereadLoop, copyout_one, hbuf]

end Read

section Runs

variable {s s' : PipeRun}

/-- A read takes bytes from the front of what the pipe holds. -/
theorem PipeInv.read {killed : Bool} {u u' : UserMem} {addr : Nat} {n r : Int} {pi : Pipe} (h : PipeInv s)
    (hread : piperead s.pipe killed u addr n = .ret r pi u') :
    PipeInv
      { s with pipe := pi, taken := s.taken + count s.pipe.nread pi.nread, delivered := s.delivered ++ readBytes u' addr r } := by
  obtain ⟨k, hk, rfl, -⟩ := piperead_spec hread
  have hk32 : k < 2 ^ 32 := lt_of_le_of_lt hk (count_lt _ _)
  have htaken : count s.pipe.nread (s.pipe.nread + UInt32.ofNat k) = k := count_add_self _ hk32
  have hcount := h.count_eq
  refine ⟨?_, ?_, ?_, ?_⟩
  · simp only [htaken]
    rw [view_drop _ _ _ hk, h.view_eq, List.drop_drop]
  · show s.pipe.nread + UInt32.ofNat k = UInt32.ofNat (s.taken + count s.pipe.nread (s.pipe.nread + UInt32.ofNat k))
    rw [htaken, h.nread_eq, UInt32.ofNat_add]
  · simp only [htaken]
    have := h.taken_le
    omega
  · simp only
    rw [count_add_left hk]
    have := h.count_le
    omega

/-- What a read returns are the next accepted bytes, in order. -/
theorem PipeInv.read_buffer {killed : Bool} {u u' : UserMem} {addr : Nat} {n r : Int} {pi : Pipe} (h : PipeInv s)
    (hread : piperead s.pipe killed u addr n = .ret r pi u') :
    readBytes u' addr r = (s.accepted.drop s.taken).take r.toNat := by
  obtain ⟨k, -, -, hbytes⟩ := piperead_spec hread
  rw [hbytes, h.view_eq]

theorem PipeInv.step (h : PipeInv s) (hstep : PipeStep s s') : PipeInv s' := by
  cases hstep with
  | put hput => exact h.put hput
  | read hread => exact h.read hread
  | @close writable => cases writable <;> exact ⟨h.view_eq, h.nread_eq, h.taken_le, h.count_le⟩

/-- Under any interleaving of readers and writers, the pipe holds at most `PIPESIZE` bytes and holds
the accepted bytes not yet taken, in order. -/
theorem pipeInv_of_reachable (hs : PipeReach s) : PipeInv s := by
  obtain ⟨junk, hrun⟩ := hs
  induction hrun with
  | refl => exact pipeInv_init junk
  | tail _ hstep ih => exact ih.step hstep

/-- A read whose first copy-out faults, from a pipe that holds a byte, returns `0` having taken the
byte. -/
theorem piperead_of_fault {pi : Pipe} {killed : Bool} {u : UserMem} {addr : Nat} {n : Int} (hne : pi.nread ≠ pi.nwrite)
    (hn : 0 < n) (hfault : u.writable (pgrounddown addr) = false) :
    piperead pi killed u addr n = .ret 0 { pi with nread := pi.nread + 1 } u := by
  obtain ⟨m, hm⟩ : ∃ m, n.toNat = m + 1 := ⟨n.toNat - 1, by omega⟩
  simp [piperead, hne, hm, pipereadLoop, hn, copyout_one, hfault]

/-- A read whose copy-out faults loses a byte: from any run in which the pipe holds a byte, a read
whose first copy-out faults returns `0`, and the byte is taken out of the pipe without being returned
to anybody. -/
theorem piperead_fault_loses_byte (hs : PipeReach s) (hne : s.pipe.nread ≠ s.pipe.nwrite) {killed : Bool}
    {u : UserMem} {addr : Nat} {n : Int} (hn : 0 < n) (hfault : u.writable (pgrounddown addr) = false) :
    ∃ s', PipeStep s s' ∧ s'.accepted = s.accepted ∧ s'.delivered = s.delivered ∧ s'.taken = s.taken + 1 ∧
      view s'.pipe.data s'.pipe.nread s'.pipe.nwrite = s.accepted.drop (s.taken + 1) := by
  have h := pipeInv_of_reachable hs
  have hread : piperead s.pipe killed u addr n = _ := piperead_of_fault hne hn hfault
  have hone : count s.pipe.nread (s.pipe.nread + 1) = 1 := count_add_self s.pipe.nread (k := 1) (by norm_num)
  refine ⟨_, PipeStep.read hread, rfl, by simp [readBytes], by simp only [hone], ?_⟩
  have h' := h.read hread
  rw [h'.view_eq]
  simp only [hone]

/-- A writer puts `97` and then `98` into a new pipe; a read into a buffer that cannot be written
takes the `97` and returns `0`, and the pipe holds only the `98`. -/
theorem piperead_fault_loses_first_of_two :
    ∃ s', PipeStep ⟨⟨Function.update (Function.update (fun _ => 0) (cell pipesize 0) 97) (cell pipesize 1) 98, 0, 2,
        true, true⟩, [97, 98], 0, []⟩ s' ∧ s'.accepted = [97, 98] ∧ s'.delivered = [] ∧ s'.taken = 1 ∧
      view s'.pipe.data s'.pipe.nread s'.pipe.nwrite = [98] := by
  have hput1 : pipewritePass (pipealloc fun _ => 0) false ⟨fun _ => true, fun _ => true, fun _ => 97⟩ 0 1 0 =
      .put 97 ⟨Function.update (fun _ => 0) (cell pipesize 0) 97, 0, 1, true, true⟩ := by
    simp [pipewritePass, pipealloc, copyin_one, copy_of_mem, pipesize]
  have hput2 : pipewritePass ⟨Function.update (fun _ => 0) (cell pipesize 0) 97, 0, 1, true, true⟩ false
      ⟨fun _ => true, fun _ => true, fun _ => 98⟩ 0 1 0 =
      .put 98 ⟨Function.update (Function.update (fun _ => 0) (cell pipesize 0) 97) (cell pipesize 1) 98, 0, 2, true, true⟩ := by
    simp [pipewritePass, copyin_one, copy_of_mem, pipesize]
  exact @piperead_fault_loses_byte _ ⟨fun _ => 0, .tail (.tail .refl (.put hput1)) (.put hput2)⟩ (by decide) false
    ⟨fun _ => true, fun _ => false, fun _ => 0⟩ 0 1 (by decide) rfl

end Runs

end Xv6.Ipc
