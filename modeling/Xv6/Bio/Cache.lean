import Xv6.Param
import Xv6.Library.Run
import Xv6.Library.RingList

/-!
# The buffer cache: `bio.c`

`bcache.buf[NBUF]` and the list through `bcache.head`, with `binit`, `bget`, `bread`, `brelse`, `bpin`
and `bunpin` as the code has them: the list is a pair of pointer arrays over the nodes `some b`
(buffer `b`) and `none` (`bcache.head`), `bget`'s two loops are pointer walks, and `brelse` relinks
a buffer at the head when its count drops to zero. Each critical section under `bcache.lock` is one
step; the disk read of `bread` is part of its step, with the block read as an argument.

`BioSys` adds ghost state: the order of the list (so that the pointers can be related to a list), how
many `bread`s of each buffer are not yet released, how many pins it has, and whether `bget` has ever
returned it. The calls that release or unpin are enabled only with a matching `bread` or `bpin`
outstanding, and a holder writes into a buffer only while it holds it.
-/

namespace Xv6.Bio

open RingList

/-- The fields of `struct buf` that `bio.c` reads and writes; `disk` and the sleep-lock belong to the
driver and the holders. -/
structure Buf where
  valid : Bool
  dev : Nat
  blockno : Nat
  refcnt : Nat
  data : Block

/-- A node of the list: buffer `some b`, or `none` for `bcache.head`. -/
abbrev Node := Option (Fin nbuf)

structure Bcache where
  buf : Fin nbuf → Buf
  links : Links Node

def Bcache.setBuf (c : Bcache) (b : Fin nbuf) (x : Buf) : Bcache := { c with buf := Function.update c.buf b x }

@[simp] theorem Bcache.setBuf_buf_self (c : Bcache) (b : Fin nbuf) (x : Buf) : (c.setBuf b x).buf b = x := by
  simp [Bcache.setBuf]

@[simp] theorem Bcache.setBuf_buf_of_ne (c : Bcache) {a b : Fin nbuf} (x : Buf) (h : a ≠ b) :
    (c.setBuf b x).buf a = c.buf a := by
  simp [Bcache.setBuf, h]

@[simp] theorem Bcache.setBuf_links (c : Bcache) (b : Fin nbuf) (x : Buf) : (c.setBuf b x).links = c.links := rfl

/-- `binit` on the zeroed `bcache`. The pointers of a zeroed buffer (null in C, `none` here) are
overwritten by the loop before anything reads them. -/
def binit : Bcache where
  buf := fun _ => ⟨false, 0, 0, 0, fun _ => 0⟩
  links := (List.finRange nbuf).foldl (fun L b => L.linkFront none (some b)) ⟨fun _ => none, fun _ => none⟩

/-- The test of `bget`'s first loop: `b->dev == dev && b->blockno == blockno`. -/
def Bcache.holds (c : Bcache) (dev blockno : Nat) : Node → Bool
  | some b => (c.buf b).dev == dev && (c.buf b).blockno == blockno
  | none => false

/-- The test of `bget`'s second loop: `b->refcnt == 0`. -/
def Bcache.free (c : Bcache) : Node → Bool
  | some b => (c.buf b).refcnt == 0
  | none => false

/-- `bget`; `none` is the panic "bget: no buffers". Both loops are walks of at most `NBUF + 1` nodes,
which on the list of `NBUF` buffers always reach `bcache.head`. -/
def bget (c : Bcache) (dev blockno : Nat) : Option (Fin nbuf × Bcache) :=
  match scan c.links.next none (c.holds dev blockno) (nbuf + 1) (c.links.next none) with
  | some (some b) => some (b, c.setBuf b { c.buf b with refcnt := (c.buf b).refcnt + 1 })
  | _ =>
    match scan c.links.prev none c.free (nbuf + 1) (c.links.prev none) with
    | some (some b) =>
      some (b, c.setBuf b { c.buf b with dev := dev, blockno := blockno, valid := false, refcnt := 1 })
    | _ => none

/-- `bread`; `disk` is the block `virtio_disk_rw` reads when the buffer does not hold it yet. -/
def bread (c : Bcache) (dev blockno : Nat) (disk : Block) : Option (Fin nbuf × Bcache) :=
  (bget c dev blockno).map fun r =>
    if (r.2.buf r.1).valid then r else (r.1, r.2.setBuf r.1 { r.2.buf r.1 with data := disk, valid := true })

/-- `brelse`: the last release moves the buffer to the front of the list. -/
def brelse (c : Bcache) (b : Fin nbuf) : Bcache :=
  let c := c.setBuf b { c.buf b with refcnt := (c.buf b).refcnt - 1 }
  if (c.buf b).refcnt = 0 then { c with links := (c.links.unlink (some b)).linkFront none (some b) } else c

def bpin (c : Bcache) (b : Fin nbuf) : Bcache := c.setBuf b { c.buf b with refcnt := (c.buf b).refcnt + 1 }

def bunpin (c : Bcache) (b : Fin nbuf) : Bcache := c.setBuf b { c.buf b with refcnt := (c.buf b).refcnt - 1 }

/-- The cache with ghost state: the order of the list from `bcache.head.next`, the `bread`s of each
buffer not yet released, its pins, and whether `bget` has ever returned it. -/
structure BioSys where
  cache : Bcache
  order : List (Fin nbuf)
  holders : Fin nbuf → Nat
  pins : Fin nbuf → Nat
  assigned : Fin nbuf → Bool

/-- A call into the cache, or a holder storing new contents into a buffer it holds. -/
inductive Call
  | bread (dev blockno : Nat) (disk : Block)
  | brelse (b : Fin nbuf)
  | bpin (b : Fin nbuf)
  | bunpin (b : Fin nbuf)
  | write (b : Fin nbuf) (d : Block)

/-- A call and the buffer it returned, if any. -/
abbrev Event := Call × Option (Fin nbuf)

def exec (s : BioSys) : Call → Option (Option (Fin nbuf) × BioSys)
  | .bread dev blockno disk =>
    (bread s.cache dev blockno disk).map fun r =>
      (some r.1, { s with
        cache := r.2
        holders := Function.update s.holders r.1 (s.holders r.1 + 1)
        assigned := Function.update s.assigned r.1 true })
  | .brelse b =>
    if 0 < s.holders b then
      some (none, { s with
        cache := brelse s.cache b
        holders := Function.update s.holders b (s.holders b - 1)
        order := if (s.cache.buf b).refcnt - 1 = 0 then b :: s.order.erase b else s.order })
    else none
  | .bpin b =>
    some (none, { s with
      cache := bpin s.cache b
      pins := Function.update s.pins b (s.pins b + 1) })
  | .bunpin b =>
    if 0 < s.pins b then
      some (none, { s with
        cache := bunpin s.cache b
        pins := Function.update s.pins b (s.pins b - 1) })
    else none
  | .write b d =>
    if 0 < s.holders b then some (none, { s with cache := s.cache.setBuf b { s.cache.buf b with data := d } })
    else none

def Step (s : BioSys) (e : Event) (s' : BioSys) : Prop := exec s e.1 = some (e.2, s')

def init : BioSys := ⟨binit, (List.finRange nbuf).reverse, fun _ => 0, fun _ => 0, fun _ => false⟩

theorem bread_cases {c c' : Bcache} {dev blockno : Nat} {disk : Block} {b : Fin nbuf}
    (h : bread c dev blockno disk = some (b, c')) :
    ∃ c₁, bget c dev blockno = some (b, c₁) ∧
      c' = if (c₁.buf b).valid then c₁ else c₁.setBuf b { c₁.buf b with data := disk, valid := true } := by
  obtain ⟨⟨b₁, c₁⟩, hget, heq⟩ := Option.map_eq_some_iff.mp h
  dsimp only at heq
  split at heq
  · rw [Prod.mk.injEq] at heq
    obtain ⟨rfl, rfl⟩ := heq
    exact ⟨c₁, hget, by rw [if_pos ‹_›]⟩
  · rw [Prod.mk.injEq] at heq
    obtain ⟨rfl, rfl⟩ := heq
    exact ⟨c₁, hget, by rw [if_neg ‹_›]⟩

section Inversion

variable {s s' : BioSys} {r : Option (Fin nbuf)}

theorem step_bread {dev blockno : Nat} {disk : Block} (h : Step s (.bread dev blockno disk, r) s') :
    ∃ b c, bread s.cache dev blockno disk = some (b, c) ∧ r = some b ∧
      s' = { s with
        cache := c
        holders := Function.update s.holders b (s.holders b + 1)
        assigned := Function.update s.assigned b true } := by
  obtain ⟨⟨b, c⟩, hread, heq⟩ := Option.map_eq_some_iff.mp h
  rw [Prod.mk.injEq] at heq
  exact ⟨b, c, hread, heq.1.symm, heq.2.symm⟩

theorem step_brelse {b : Fin nbuf} (h : Step s (.brelse b, r) s') :
    0 < s.holders b ∧ s' = { s with
      cache := brelse s.cache b
      holders := Function.update s.holders b (s.holders b - 1)
      order := if (s.cache.buf b).refcnt - 1 = 0 then b :: s.order.erase b else s.order } := by
  simp only [Step, exec] at h
  split at h
  · rw [Option.some.injEq, Prod.mk.injEq] at h
    exact ⟨‹_›, h.2.symm⟩
  · cases h

theorem step_bpin {b : Fin nbuf} (h : Step s (.bpin b, r) s') :
    s' = { s with cache := bpin s.cache b, pins := Function.update s.pins b (s.pins b + 1) } := by
  simp only [Step, exec, Option.some.injEq, Prod.mk.injEq] at h
  exact h.2.symm

theorem step_bunpin {b : Fin nbuf} (h : Step s (.bunpin b, r) s') :
    0 < s.pins b ∧ s' = { s with cache := bunpin s.cache b, pins := Function.update s.pins b (s.pins b - 1) } := by
  simp only [Step, exec] at h
  split at h
  · rw [Option.some.injEq, Prod.mk.injEq] at h
    exact ⟨‹_›, h.2.symm⟩
  · cases h

theorem step_write {b : Fin nbuf} {d : Block} (h : Step s (.write b d, r) s') :
    0 < s.holders b ∧ s' = { s with cache := s.cache.setBuf b { s.cache.buf b with data := d } } := by
  simp only [Step, exec] at h
  split at h
  · rw [Option.some.injEq, Prod.mk.injEq] at h
    exact ⟨‹_›, h.2.symm⟩
  · cases h

end Inversion

end Xv6.Bio
