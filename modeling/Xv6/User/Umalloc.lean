import Mathlib

/-!
# `umalloc.c`: the K&R allocator over `sbrk`

The heap is a map from addresses to `Header`s (`union header`: the next block of the free list and
the size in headers), the static `freep` (`0` is the null pointer), the program break `p->sz` that
`sbrk` moves, and the break up to which `growproc` finds memory. The static `base` sits at the
address `base`. Arithmetic on a `Header *` moves by `sizeof(Header) = 16` bytes, and pointers
compare as addresses. The search loops of `free` and `malloc` run on fuel and give `none` when it
runs out.

`sbrk` takes an `int`. `morecore(nu)` passes it `nu * sizeof(Header)`, an `unsigned long` of which the
`int` keeps the low 32 bits, while it hands `free` a block of `nu` headers whatever the break did.
`malloc(0xFFFFFFF0)` needs `2^28` headers, and `2^28 * 16 = 2^32` becomes `sbrk(0)`: the break stays,
and the block `malloc` returns at the break is memory the process never got. The next `morecore`
gets its fresh memory at that same break, and the next `malloc` returns a block inside the first
(`malloc_overlaps`). The same holds for every request from `2^31 - 31` bytes on: `sbrk` gets a
negative count, `0` or `16`, and the block `malloc` returns runs past the break (`malloc_past_break`).
-/

namespace Xv6.User

/-- `union header`: the next block of the free list and the size, in headers. -/
structure Header where
  ptr : Nat
  size : UInt32

/-- `sizeof(Header)`. -/
def headerSize : Nat := 16

/-- The allocator's memory: the headers, `freep`, the break `p->sz`, and the break up to which
`uvmalloc` finds pages. -/
structure Heap where
  mem : Nat → Header
  freep : Nat
  brk : Nat
  limit : Nat

/-- `a->s.ptr = v`. -/
def Heap.setPtr (h : Heap) (a v : Nat) : Heap :=
  { h with mem := Function.update h.mem a { h.mem a with ptr := v } }

/-- `a->s.size = v`. -/
def Heap.setSize (h : Heap) (a : Nat) (v : UInt32) : Heap :=
  { h with mem := Function.update h.mem a { h.mem a with size := v } }

section Fields

variable (h : Heap) (a b v : Nat) (w : UInt32)

@[simp] theorem Heap.setPtr_ptr : ((h.setPtr a v).mem b).ptr = if b = a then v else (h.mem b).ptr := by
  by_cases hb : b = a <;> simp [Heap.setPtr, hb]

@[simp] theorem Heap.setPtr_size : ((h.setPtr a v).mem b).size = (h.mem b).size := by
  by_cases hb : b = a <;> simp [Heap.setPtr, hb]

@[simp] theorem Heap.setSize_ptr : ((h.setSize a w).mem b).ptr = (h.mem b).ptr := by
  by_cases hb : b = a <;> simp [Heap.setSize, hb]

@[simp] theorem Heap.setSize_size : ((h.setSize a w).mem b).size = if b = a then w else (h.mem b).size := by
  by_cases hb : b = a <;> simp [Heap.setSize, hb]

@[simp] theorem Heap.setPtr_freep : (h.setPtr a v).freep = h.freep := rfl
@[simp] theorem Heap.setPtr_brk : (h.setPtr a v).brk = h.brk := rfl
@[simp] theorem Heap.setPtr_limit : (h.setPtr a v).limit = h.limit := rfl
@[simp] theorem Heap.setSize_freep : (h.setSize a w).freep = h.freep := rfl
@[simp] theorem Heap.setSize_brk : (h.setSize a w).brk = h.brk := rfl
@[simp] theorem Heap.setSize_limit : (h.setSize a w).limit = h.limit := rfl

end Fields

/-- `sbrk(n)`, through `sys_sbrk` and `growproc`: the old break, and the break moved by `n`. A growth
`uvmalloc` finds no memory for gives `-1`; a shrink below address `0` wraps in `uint64`, and
`uvmdealloc` then leaves the break. -/
def sbrk (n : Int32) (h : Heap) : Int × Heap :=
  let n := n.toInt
  if 0 < n then
    if h.brk + n.toNat ≤ h.limit then (h.brk, { h with brk := h.brk + n.toNat }) else (-1, h)
  else if n < 0 then
    (h.brk, { h with brk := if n.natAbs ≤ h.brk then h.brk - n.natAbs else h.brk })
  else (h.brk, h)

/-- The search of `free` for the block `p` after which `bp` belongs: `bp` lies between `p` and
`p->s.ptr`, or `p` is the wrap point of the list and `bp` lies beyond either end. -/
def freeLoop (h : Heap) (bp : Nat) : (fuel : Nat) → (p : Nat) → Option Nat
  | 0, _ => none
  | fuel + 1, p =>
    let next := (h.mem p).ptr
    if bp > p ∧ bp < next then some p
    else if p ≥ next ∧ (bp > p ∨ bp < next) then some p
    else freeLoop h bp fuel next

/-- `free(ap)`: insert the block before `ap` after `p`, joined with the block above and below when
they touch it. -/
def free (fuel : Nat) (ap : Nat) (h : Heap) : Option Heap := do
  let bp := ap - headerSize
  let p ← freeLoop h bp fuel h.freep
  let h := if bp + headerSize * (h.mem bp).size.toNat = (h.mem p).ptr then
      let h := h.setSize bp ((h.mem bp).size + (h.mem (h.mem p).ptr).size)
      h.setPtr bp (h.mem (h.mem p).ptr).ptr
    else h.setPtr bp (h.mem p).ptr
  let h := if p + headerSize * (h.mem p).size.toNat = bp then
      let h := h.setSize p ((h.mem p).size + (h.mem bp).size)
      h.setPtr p (h.mem bp).ptr
    else h.setPtr p bp
  some { h with freep := p }

/-- `morecore(nu)`: the new `freep`, or `0` when `sbrk` fails. The `int` parameter of `sbrk` keeps the
low 32 bits of the `unsigned long` `nu * sizeof(Header)`. -/
def morecore (fuel : Nat) (nu : UInt32) (h : Heap) : Option (Nat × Heap) :=
  let nu := if nu < 4096 then 4096 else nu
  let r := sbrk (Int32.ofNat (nu.toNat * headerSize)) h
  if r.1 = -1 then some (0, r.2)
  else
    let hp := r.1.toNat
    (free fuel (hp + headerSize) (r.2.setSize hp nu)).map fun h => (h.freep, h)

/-- The search loop of `malloc` from `prevp` and its successor `p`, with `n` passes left: take a
block of at least `nunits` headers, whole or from its tail, or at `freep` get more memory and go on. -/
def mallocLoop (fuel : Nat) (nunits : UInt32) : (n : Nat) → (prevp p : Nat) → Heap → Option (Nat × Heap)
  | 0, _, _, _ => none
  | n + 1, prevp, p, h =>
    if (h.mem p).size ≥ nunits then
      if (h.mem p).size = nunits then
        some (p + headerSize, { h.setPtr prevp (h.mem p).ptr with freep := prevp })
      else
        let h := h.setSize p ((h.mem p).size - nunits)
        let p := p + headerSize * (h.mem p).size.toNat
        some (p + headerSize, { h.setSize p nunits with freep := prevp })
    else if p = h.freep then
      match morecore fuel nunits h with
      | none => none
      | some (0, h) => some (0, h)
      | some (p, h) => mallocLoop fuel nunits n p (h.mem p).ptr h
    else mallocLoop fuel nunits n p (h.mem p).ptr h

/-- `nunits` of `malloc(nbytes)`: computed as an `unsigned long` and kept in a `uint`. -/
def nunitsOf (nbytes : UInt32) : UInt32 := UInt32.ofNat ((nbytes.toNat + headerSize - 1) / headerSize + 1)

/-- `malloc(nbytes)`, with the static `base` at address `base`: the pointer, or `0`. -/
def malloc (base fuel : Nat) (nbytes : UInt32) (h : Heap) : Option (Nat × Heap) :=
  let h := if h.freep = 0 then { (h.setPtr base base).setSize base 0 with freep := base } else h
  mallocLoop fuel (nunitsOf nbytes) fuel h.freep (h.mem h.freep).ptr h

/-- The free list holds only `base`, of size `0`: as `malloc` leaves it on a fresh heap. -/
structure OnlyBase (h : Heap) (base : Nat) : Prop where
  freep : h.freep = base
  ptr : (h.mem base).ptr = base
  size : (h.mem base).size = 0

/-- The free list is `base` and one block of `nu` headers at `b`. -/
structure OneBlock (h : Heap) (base b : Nat) (nu : UInt32) : Prop where
  freep : h.freep = base
  ptr_base : (h.mem base).ptr = b
  size_base : (h.mem base).size = 0
  ptr : (h.mem b).ptr = base
  size : (h.mem b).size = nu

section Spec

variable {h h' : Heap} {fuel base : Nat}

/-- `nunits` is `⌈nbytes / 16⌉ + 1` headers: nothing is lost in the `uint`. -/
theorem nunitsOf_toNat (nbytes : UInt32) : (nunitsOf nbytes).toNat = (nbytes.toNat + headerSize - 1) / headerSize + 1 := by
  have hlt := nbytes.toNat_lt
  rw [nunitsOf, UInt32.toNat_ofNat', Nat.mod_eq_of_lt (by simp only [headerSize]; omega)]

/-- Below `2^27` headers the `int` that `morecore` passes to `sbrk` is the size of the block it
frees. -/
theorem morecore_arg_of_lt {nu : Nat} (hnu : nu < 2 ^ 27) : (Int32.ofNat (nu * headerSize)).toInt = nu * headerSize := by
  rw [Int32.toInt_ofNat_of_lt (by simp only [headerSize]; omega)]
  rfl

/-- From `2^27` headers on, `nu * sizeof(Header)` is `2^31` or more, and the `int` that `sbrk` gets
from it is negative, `0`, or `16` for the largest request. -/
theorem morecore_arg_of_ge {nu : Nat} (hlo : 2 ^ 27 ≤ nu) (hhi : nu ≤ 2 ^ 28 + 1) :
    (Int32.ofNat (nu * headerSize)).toInt ≤ 16 := by
  have hsize : (Int32.size : Int) = 2 ^ 32 := by decide
  rw [Int32.toInt_ofNat', Int.bmod_def, hsize]
  simp only [headerSize]
  split_ifs <;> omega

@[simp] theorem sbrk_mem (n : Int32) (h : Heap) : (sbrk n h).2.mem = h.mem := by
  dsimp only [sbrk]
  split_ifs <;> rfl

@[simp] theorem sbrk_freep (n : Int32) (h : Heap) : (sbrk n h).2.freep = h.freep := by
  dsimp only [sbrk]
  split_ifs <;> rfl

/-- `sbrk(0)` leaves the break and returns it. -/
theorem sbrk_zero {n : Int32} (hn : n.toInt = 0) : sbrk n h = ((h.brk : Int), h) := by
  simp [sbrk, hn]

/-- A growth that fits moves the break and returns the old one. -/
theorem sbrk_grow {n : Int32} (hn : 0 < n.toInt) (hfit : h.brk + n.toInt.toNat ≤ h.limit) :
    sbrk n h = ((h.brk : Int), { h with brk := h.brk + n.toInt.toNat }) := by
  simp only [sbrk, if_pos hn, if_pos hfit]

/-- An `sbrk` of at most `16` bytes, with room for `16`, returns the old break and leaves the break at
most `16` bytes above it. -/
theorem sbrk_of_le {n : Int32} (hn : n.toInt ≤ 16) (hroom : h.brk + 16 ≤ h.limit) :
    ∃ h', sbrk n h = ((h.brk : Int), h') ∧ h'.brk ≤ h.brk + 16 ∧ h'.limit = h.limit := by
  by_cases hpos : 0 < n.toInt
  · exact ⟨_, sbrk_grow hpos (by omega), by dsimp only; omega, rfl⟩
  · by_cases hneg : n.toInt < 0
    · refine ⟨{ h with brk := if n.toInt.natAbs ≤ h.brk then h.brk - n.toInt.natAbs else h.brk },
        by simp only [sbrk, if_neg hpos, if_pos hneg], ?_, rfl⟩
      dsimp only
      split <;> omega
    · exact ⟨h, sbrk_zero (by omega), by omega, rfl⟩

/-- On a fresh heap `malloc` makes the free list `base` alone and searches it from `base`. -/
theorem malloc_of_null (nbytes : UInt32) (hnull : h.freep = 0) :
    ∃ h₀, OnlyBase h₀ base ∧ h₀.brk = h.brk ∧ h₀.limit = h.limit ∧
      malloc base fuel nbytes h = mallocLoop fuel (nunitsOf nbytes) fuel base base h₀ :=
  ⟨{ (h.setPtr base base).setSize base 0 with freep := base }, ⟨rfl, by simp, by simp⟩, rfl, rfl, by simp [malloc, hnull]⟩

/-- With the free list `base` alone, `malloc` searches it from `base`. -/
theorem malloc_of_onlyBase (nbytes : UInt32) (honly : OnlyBase h base) (hbase : base ≠ 0) :
    malloc base fuel nbytes h = mallocLoop fuel (nunitsOf nbytes) fuel base base h := by
  simp [malloc, honly.freep, honly.ptr, hbase]

/-- Into the free list `base` alone, `free` of a block above `base` links the block after `base`. -/
theorem free_into_empty (fuel : Nat) {bp : Nat} (honly : OnlyBase h base) (hbp : base < bp) :
    free (fuel + 1) (bp + headerSize) h = some { (h.setPtr bp base).setPtr base bp with freep := base } := by
  have hloop : freeLoop h bp (fuel + 1) h.freep = some base := by
    simp [freeLoop, honly.freep, honly.ptr, hbp]
  have hne : bp + headerSize * (h.mem bp).size.toNat ≠ base := by omega
  have hne' : base ≠ bp := by omega
  simp [free, hloop, honly.ptr, hne, honly.size, hne']

/-- `morecore` on the free list `base` alone, when `sbrk` returns a break `b` above `base`: the block
of `nu` headers (at least `4096`) at `b` becomes the one block of the list, whatever `sbrk` did to the
break. -/
theorem morecore_into_empty (fuel : Nat) {b : Nat} {nu : UInt32} (honly : OnlyBase h base) (hb : base < b)
    (hsbrk : sbrk (Int32.ofNat ((if nu < 4096 then 4096 else nu).toNat * headerSize)) h = ((b : Int), h')) :
    ∃ h'', morecore (fuel + 1) nu h = some (base, h'') ∧ OneBlock h'' base b (if nu < 4096 then 4096 else nu) ∧
      h''.brk = h'.brk ∧ h''.limit = h'.limit := by
  have hmem : h'.mem = h.mem := by rw [← sbrk_mem _ h, hsbrk]
  have hfreep : h'.freep = base := by rw [← honly.freep, ← sbrk_freep _ h, hsbrk]
  have hne : base ≠ b := by omega
  have honly' : OnlyBase (h'.setSize b (if nu < 4096 then 4096 else nu)) base :=
    ⟨by simp [hfreep], by simp [hmem, honly.ptr], by simp [hmem, honly.size, hne]⟩
  refine ⟨{ ((h'.setSize b (if nu < 4096 then 4096 else nu)).setPtr b base).setPtr base b with freep := base }, ?_,
    ⟨rfl, by simp, by simp [hmem, honly.size, hne], by simp [hne.symm], by simp⟩, rfl, rfl⟩
  simp only [morecore, hsbrk]
  simp [free_into_empty fuel honly' hb]

/-- `malloc` takes a free block of exactly `nunits` headers whole. -/
theorem mallocLoop_exact {nunits : UInt32} {n prevp p : Nat} (hsize : (h.mem p).size = nunits) :
    mallocLoop fuel nunits (n + 1) prevp p h = some (p + headerSize, { h.setPtr prevp (h.mem p).ptr with freep := prevp }) := by
  simp [mallocLoop, hsize]

/-- `malloc` takes `nunits` headers from the tail of a larger free block. -/
theorem mallocLoop_split {nunits : UInt32} {n prevp p : Nat} (hlt : nunits < (h.mem p).size) :
    mallocLoop fuel nunits (n + 1) prevp p h =
      some (p + headerSize * ((h.mem p).size - nunits).toNat + headerSize,
        { (h.setSize p ((h.mem p).size - nunits)).setSize (p + headerSize * ((h.mem p).size - nunits).toNat) nunits with
          freep := prevp }) := by
  have hne : (h.mem p).size ≠ nunits := by grind
  simp [mallocLoop, UInt32.le_of_lt hlt, hne]

/-- At `freep` with no block large enough, `malloc` gets more memory and goes on from the new
`freep`. -/
theorem mallocLoop_morecore {nunits : UInt32} {n prevp p q : Nat} (hlt : (h.mem p).size < nunits) (hp : p = h.freep)
    (hmore : morecore fuel nunits h = some (q, h')) (hq : q ≠ 0) :
    mallocLoop fuel nunits (n + 1) prevp p h = mallocLoop fuel nunits n q (h'.mem q).ptr h' := by
  obtain ⟨q', rfl⟩ := Nat.exists_eq_succ_of_ne_zero hq
  rw [mallocLoop, if_neg (UInt32.not_le.mpr hlt), if_pos hp, hmore]
  rfl

end Spec

section Overlap

variable {h : Heap} {base : Nat}

/-- A request of at least `4096` headers from the free list `base` alone, when `sbrk` returns the old
break: `malloc` returns the block of `nunits` headers at that break, whatever `sbrk` did to the break,
and the free list is `base` alone again. -/
theorem mallocLoop_of_large {nunits : UInt32} {h' : Heap} (hbig : 4096 ≤ nunits.toNat) (honly : OnlyBase h base)
    (hbase : 0 < base) (hbrk : base < h.brk) (hsbrk : sbrk (Int32.ofNat (nunits.toNat * headerSize)) h = ((h.brk : Int), h')) :
    ∃ h₁, mallocLoop 2 nunits 2 base base h = some (h.brk + headerSize, h₁) ∧ OnlyBase h₁ base ∧
      h₁.brk = h'.brk ∧ h₁.limit = h'.limit := by
  have hnot : ¬ nunits < 4096 := by
    rw [UInt32.lt_iff_toNat_lt]
    simpa using hbig
  have hsbrk' : sbrk (Int32.ofNat ((if nunits < 4096 then 4096 else nunits).toNat * headerSize)) h =
      ((h.brk : Int), h') := by
    rw [if_neg hnot]
    exact hsbrk
  obtain ⟨h'', hmore, hone, hbrk', hlimit'⟩ := morecore_into_empty 1 honly hbrk hsbrk'
  rw [if_neg hnot] at hone
  have hsize : (h.mem base).size < nunits := by
    rw [honly.size, UInt32.lt_iff_toNat_lt]
    simp only [UInt32.toNat_zero]
    omega
  rw [mallocLoop_morecore hsize honly.freep.symm hmore (by omega), hone.ptr_base, mallocLoop_exact hone.size]
  exact ⟨_, rfl, ⟨rfl, by simp [hone.ptr], by simp [hone.size_base]⟩, hbrk', hlimit'⟩

/-- A request of `2^28` headers from the free list `base` alone: `morecore` calls `sbrk(0)`, which
leaves the break, and `malloc` returns the block of `2^28` headers at the break. The free list is
`base` alone again and the break has not moved. -/
theorem mallocLoop_of_huge (honly : OnlyBase h base) (hbase : 0 < base) (hbrk : base < h.brk) :
    ∃ h₁, mallocLoop 2 268435456 2 base base h = some (h.brk + headerSize, h₁) ∧ OnlyBase h₁ base ∧
      h₁.brk = h.brk ∧ h₁.limit = h.limit := by
  -- `2^28 * sizeof(Header)` is `2^32`, and the `int` that `sbrk` gets is `0`
  have hsbrk : sbrk (Int32.ofNat ((268435456 : UInt32).toNat * headerSize)) h = ((h.brk : Int), h) :=
    sbrk_zero (by decide)
  exact mallocLoop_of_large (by decide) honly hbase hbrk hsbrk

/-- A request of fewer than `4096` headers from the free list `base` alone: `morecore` grows the
break by `4096` headers, and `malloc` returns the last `nunits` of them. -/
theorem mallocLoop_of_small {nunits : UInt32} (hn : 0 < nunits) (hsmall : nunits < 4096) (honly : OnlyBase h base)
    (hbase : 0 < base) (hbrk : base < h.brk) (hroom : h.brk + 65536 ≤ h.limit) :
    ∃ h₁, mallocLoop 2 nunits 2 base base h =
        some (h.brk + headerSize * (4096 - nunits.toNat) + headerSize, h₁) ∧ h₁.brk = h.brk + 65536 := by
  have hsbrk : sbrk (Int32.ofNat ((if nunits < 4096 then (4096 : UInt32) else nunits).toNat * headerSize)) h =
      ((h.brk : Int), { h with brk := h.brk + 65536 }) := by
    have hval : (Int32.ofNat ((4096 : UInt32).toNat * headerSize)).toInt = 65536 := by decide
    rw [if_pos hsmall, sbrk_grow (by rw [hval]; decide) (by rw [hval]; exact hroom), hval]
    rfl
  obtain ⟨h', hmore, hone, hbrk', -⟩ := morecore_into_empty 1 honly hbrk hsbrk
  rw [if_pos hsmall] at hone
  have hsize : (h.mem base).size < nunits := by rw [honly.size]; exact hn
  have hlt : nunits < (h'.mem h.brk).size := by rw [hone.size]; exact hsmall
  have hunits : ((4096 : UInt32) - nunits).toNat = 4096 - nunits.toNat := by
    rw [UInt32.toNat_sub_of_le _ _ (UInt32.le_of_lt hsmall)]
    rfl
  rw [mallocLoop_morecore hsize honly.freep.symm hmore (by omega), hone.ptr_base, mallocLoop_split hlt, hone.size, hunits]
  exact ⟨_, rfl, hbrk'⟩

/-- `malloc` hands out overlapping blocks. On a fresh heap whose break lies above `base`, with room
for `4096` more headers, `malloc(0xFFFFFFF0)` returns the block at the break, which `sbrk(0)` never
grew, and the `malloc(1)` after it gets its block from the `4096` headers the next `sbrk` puts at
that same break: the pointer it returns lies within the `0xFFFFFFF0` bytes the first one returned. -/
theorem malloc_overlaps (hnull : h.freep = 0) (hbase : 0 < base) (hbrk : base < h.brk) (hroom : h.brk + 65536 ≤ h.limit) :
    ∃ h₁ h₂, malloc base 2 0xFFFFFFF0 h = some (h.brk + 16, h₁) ∧ malloc base 2 1 h₁ = some (h.brk + 65520, h₂) ∧
      h₂.brk = h.brk + 65536 ∧ h.brk + 16 < h.brk + 65520 ∧ h.brk + 65520 < h.brk + 16 + 0xFFFFFFF0 := by
  obtain ⟨h₀, honly₀, hbrk₀, hlimit₀, hstart⟩ : ∃ h₀, OnlyBase h₀ base ∧ h₀.brk = h.brk ∧ h₀.limit = h.limit ∧
      malloc base 2 0xFFFFFFF0 h = mallocLoop 2 (nunitsOf 0xFFFFFFF0) 2 base base h₀ := malloc_of_null 0xFFFFFFF0 hnull
  have hhuge : nunitsOf 0xFFFFFFF0 = 268435456 := by decide
  obtain ⟨h₁, hfirst, honly₁, hbrk₁, hlimit₁⟩ := mallocLoop_of_huge honly₀ hbase (by omega)
  have hone : nunitsOf 1 = 2 := by decide
  obtain ⟨h₂, hsecond, hbrk₂⟩ :=
    mallocLoop_of_small (show (0 : UInt32) < 2 by decide) (by decide) honly₁ hbase (by omega) (by omega)
  refine ⟨h₁, h₂, ?_, ?_, by omega, by omega, by omega⟩
  · rw [hstart, hhuge, hfirst, hbrk₀]
    rfl
  · rw [malloc_of_onlyBase 1 honly₁ (by omega), hone, hsecond, hbrk₁, hbrk₀]
    rfl

/-- A program whose break is `16` bytes into its fourth page, with `base` at `2048` and a megabyte
for its break, calls `malloc(0xFFFFFFF0)` and then `malloc(1)`. -/
theorem malloc_overlaps_after_sbrk :
    ∃ h₁ h₂, malloc 2048 2 0xFFFFFFF0 ⟨fun _ => ⟨0, 0⟩, 0, 12304, 1048576⟩ = some (12304 + 16, h₁) ∧
      malloc 2048 2 1 h₁ = some (12304 + 65520, h₂) ∧ h₂.brk = 12304 + 65536 ∧ 12304 + 16 < 12304 + 65520 ∧
      12304 + 65520 < 12304 + 16 + 0xFFFFFFF0 :=
  malloc_overlaps rfl (by decide) (by decide) (by decide)

/-- Every request of `2^31 - 31` bytes or more needs at least `2^27` headers, and their byte count no
longer reaches `sbrk`: the `int` it gets is smaller than the block. On a fresh heap with room for `16`
more bytes, `malloc` still returns the block at the old break, and the break then ends within `16`
bytes of the pointer, short of the `nbytes` bytes after it. -/
theorem malloc_past_break {nbytes : UInt32} (hbig : 2 ^ 31 - 31 ≤ nbytes.toNat) (hnull : h.freep = 0) (hbase : 0 < base)
    (hbrk : base < h.brk) (hroom : h.brk + 16 ≤ h.limit) :
    (Int32.ofNat ((nunitsOf nbytes).toNat * headerSize)).toInt < ((nunitsOf nbytes).toNat * headerSize : Nat) ∧
      ∃ h₁, malloc base 2 nbytes h = some (h.brk + headerSize, h₁) ∧ h₁.brk < h.brk + headerSize + nbytes.toNat := by
  have hunits := nunitsOf_toNat nbytes
  have hlt := nbytes.toNat_lt
  simp only [headerSize] at hunits
  have harg : (Int32.ofNat ((nunitsOf nbytes).toNat * headerSize)).toInt ≤ 16 :=
    morecore_arg_of_ge (by omega) (by omega)
  refine ⟨by simp only [headerSize] at harg ⊢; push_cast; omega, ?_⟩
  obtain ⟨h₀, honly₀, hbrk₀, hlimit₀, hstart⟩ : ∃ h₀, OnlyBase h₀ base ∧ h₀.brk = h.brk ∧ h₀.limit = h.limit ∧
      malloc base 2 nbytes h = mallocLoop 2 (nunitsOf nbytes) 2 base base h₀ := malloc_of_null nbytes hnull
  obtain ⟨h', hsbrk, hbrk', -⟩ := sbrk_of_le (h := h₀) harg (by omega)
  obtain ⟨h₁, hfirst, -, hbrk₁, -⟩ := mallocLoop_of_large (by omega) honly₀ hbase
    (by omega) hsbrk
  refine ⟨h₁, ?_, ?_⟩
  · rw [hstart, hfirst, hbrk₀]
  · simp only [headerSize]
    omega

/-- A fresh heap as in `malloc_overlaps_after_sbrk` and `malloc(0x80000000)`: the block of `2^31`
bytes starts `16` bytes after the break, and the break moves back. -/
theorem malloc_past_break_two_gib :
    (Int32.ofNat ((nunitsOf 0x80000000).toNat * headerSize)).toInt < ((nunitsOf 0x80000000).toNat * headerSize : Nat) ∧
      ∃ h₁, malloc 2048 2 0x80000000 ⟨fun _ => ⟨0, 0⟩, 0, 12304, 1048576⟩ = some (12304 + headerSize, h₁) ∧
        h₁.brk < 12304 + headerSize + (0x80000000 : UInt32).toNat :=
  malloc_past_break (by decide) rfl (by decide) (by decide) (by decide)

end Overlap

end Xv6.User
