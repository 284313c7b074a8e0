import Xv6.Vm.Kalloc
import Xv6.Vm.Pagetable
import Xv6.Library.Radix

/-!
# Sv39 page tables: `walk`, `mappages`, `uvmunmap`, `uvmalloc`, `uvmdealloc`, `uvmcopy`, `uvmfree`

The page-table code of `vm.c` over physical memory. Memory is seen a page at a time, as the row of
512 words at each page's address: a page-table page holds 512 PTEs, and `memset` and `memmove` of a
whole page write its row. The pages come from `kalloc` and go back through `kfree`, seen through the
list of free pages that `free_list_partition` shows `kmem.freelist` threading through the pages: the
first is the one `kalloc` hands out, and `kfree` puts a page first.

`walk` follows `PX(2, va)` and `PX(1, va)` from the root, allocating a zeroed page-table page where
an entry is not valid and `alloc` is set; its result is the slot of the leaf PTE. `mappages` and
`uvmunmap` loop over the pages of a range, `uvmalloc` and `uvmdealloc` grow and shrink a process's
memory through them, `uvmcopy` copies it into a new table for `fork`, and `uvmfree` unmaps it and
`freewalk` frees the page-table pages. A panic is `none`.
-/

namespace Xv6.Vm.Sv39

open Paged Function

/-- `PA2PTE(pa)`. -/
def pa2pte (pa : Nat) : UInt64 := (pa.toUInt64 >>> 12) <<< 10

def pteR : UInt64 := (1 : UInt64) <<< 1
def pteX : UInt64 := (1 : UInt64) <<< 3

/-- `PTE_FLAGS(pte)`. -/
def pteFlags (pte : UInt64) : UInt64 := pte &&& 0x3FF

/-- `PX(level, va)`: the index of `va` in a page-table page of that level. -/
def px (level va : Nat) : Fin 512 := ⟨va / 2 ^ (12 + 9 * level) % 512, Nat.mod_lt _ (by decide)⟩

/-- Physical memory, a row of 512 words at each page, and the free pages in the order `kalloc`
hands them out. -/
structure Phys where
  mem : Nat → Fin 512 → UInt64
  free : List Nat

namespace Phys

/-- A store to word `i` of page `t`: `*pte = e` for the PTE at `&t[i]`. -/
def setPte (s : Phys) (t : Nat) (i : Fin 512) (e : UInt64) : Phys :=
  { s with mem := update s.mem t (update (s.mem t) i e) }

/-- A store of the whole page `t`: `memset` or `memmove` of `PGSIZE` bytes. -/
def setPage (s : Phys) (t : Nat) (row : Fin 512 → UInt64) : Phys := { s with mem := update s.mem t row }

/-- `kalloc()`: the first free page, filled with `5`s, or `0`. -/
def kalloc (s : Phys) : Nat × Phys :=
  match s.free with
  | [] => (0, s)
  | r :: rest => (r, { mem := update s.mem r fun _ => junkAlloc.toUInt64, free := rest })

/-- `kfree(pa)`, with `end` the parameter `kend`: the panic "kfree" for an address that is not a
page of the RAM the kernel hands out; otherwise the page, filled with `1`s, goes first. -/
def kfree (kend : Nat) (s : Phys) (pa : Nat) : Option Phys :=
  if pa % pgsize ≠ 0 ∨ pa < kend ∨ phystop ≤ pa then none
  else some { mem := update s.mem pa fun _ => junkFree.toUInt64, free := pa :: s.free }

end Phys

/-- The loop of `walk` from `level` down to `1`, at the page-table page `pagetable`: the slot of the
leaf PTE of `va`, or `none` where an entry is not valid and `alloc` is off or `kalloc` fails. -/
def walkLoop (alloc : Bool) (va : Nat) : (level : Nat) → (pagetable : Nat) → Phys → Option (Nat × Fin 512) × Phys
  | 0, pagetable, s => (some (pagetable, px 0 va), s)
  | level + 1, pagetable, s =>
    let pte := s.mem pagetable (px (level + 1) va)
    if pte &&& pteV ≠ 0 then walkLoop alloc va level (pte2pa pte) s
    else if !alloc then (none, s)
    else
      let (p, s) := s.kalloc
      if p = 0 then (none, s)
      else
        let s := s.setPage p fun _ => 0
        walkLoop alloc va level p (s.setPte pagetable (px (level + 1) va) (pa2pte p ||| pteV))

/-- `walk(pagetable, va, alloc)`; `none` is the panic "walk". -/
def walk (s : Phys) (pagetable va : Nat) (alloc : Bool) : Option (Option (Nat × Fin 512) × Phys) :=
  if maxva ≤ va then none else some (walkLoop alloc va 2 pagetable s)

/-- `walkaddr(pagetable, va)`: below `MAXVA` the check of `walk` passes, and `walk` with `alloc` off
leaves memory as it is. -/
def walkaddr (s : Phys) (pagetable va : Nat) : Nat :=
  if va ≥ maxva then 0
  else
    match (walkLoop false va 2 pagetable s).1 with
    | none => 0
    | some (t, i) =>
      let pte := s.mem t i
      if pte &&& pteV = 0 then 0 else if pte &&& pteU = 0 then 0 else pte2pa pte

/-- The `for(;;)` of `mappages` from `a` to `last = va + size - PGSIZE`, `n` pages in all; `none` is
the panic "mappages: remap" (or "walk"). -/
def mappagesLoop (pagetable : Nat) (perm : UInt64) : (n a pa : Nat) → Phys → Option (Int × Phys)
  | 0, _, _, s => some (0, s)
  | n + 1, a, pa, s =>
    (walk s pagetable a true).bind fun (pte, s) =>
      match pte with
      | none => some (-1, s)
      | some (t, i) =>
        if s.mem t i &&& pteV ≠ 0 then none
        else mappagesLoop pagetable perm n (a + pgsize) (pa + pgsize) (s.setPte t i (pa2pte pa ||| perm ||| pteV))

/-- `mappages(pagetable, va, size, pa, perm)`; `none` is one of its panics. -/
def mappages (s : Phys) (pagetable va size pa : Nat) (perm : UInt64) : Option (Int × Phys) :=
  if va % pgsize ≠ 0 then none
  else if size % pgsize ≠ 0 then none
  else if size = 0 then none
  else mappagesLoop pagetable perm (size / pgsize) va pa s

section Kend

variable (kend : Nat)

/-- The loop of `uvmunmap` over `n` more pages from `a`; `none` is one of its panics (or `kfree`'s). -/
def uvmunmapLoop (pagetable : Nat) (doFree : Bool) : (n a : Nat) → Phys → Option Phys
  | 0, _, s => some s
  | n + 1, a, s =>
    (walk s pagetable a false).bind fun (pte, s) =>
      match pte with
      | none => none
      | some (t, i) =>
        let e := s.mem t i
        if e &&& pteV = 0 then none
        else if pteFlags e = pteV then none
        else
          (if doFree then s.kfree kend (pte2pa e) else some s).bind fun s =>
            uvmunmapLoop pagetable doFree n (a + pgsize) (s.setPte t i 0)

/-- `uvmunmap(pagetable, va, npages, do_free)`. -/
def uvmunmap (s : Phys) (pagetable va npages : Nat) (doFree : Bool) : Option Phys :=
  if va % pgsize ≠ 0 then none else uvmunmapLoop kend pagetable doFree npages va s

/-- `uvmcreate()`: a zeroed page-table page, or `0`. -/
def uvmcreate (s : Phys) : Nat × Phys :=
  let (pagetable, s) := s.kalloc
  if pagetable = 0 then (0, s) else (pagetable, s.setPage pagetable fun _ => 0)

/-- `uvmdealloc(pagetable, oldsz, newsz)`: the new size. -/
def uvmdealloc (s : Phys) (pagetable oldsz newsz : Nat) : Option (Nat × Phys) :=
  if newsz ≥ oldsz then some (oldsz, s)
  else if pgroundup newsz < pgroundup oldsz then
    (uvmunmap kend s pagetable (pgroundup newsz) ((pgroundup oldsz - pgroundup newsz) / pgsize) true).map
      fun s => (newsz, s)
  else some (newsz, s)

/-- The loop of `uvmalloc` from `a`, with `oldsz` already rounded up: a page from `kalloc`, zeroed
and mapped at `a`; on a failure the pages mapped from `oldsz` on are unmapped and freed. -/
def uvmallocLoop (pagetable oldsz newsz : Nat) (xperm : UInt64) (a : Nat) (s : Phys) : Option (Nat × Phys) :=
  if a < newsz then
    let (mem, s) := s.kalloc
    if mem = 0 then (uvmdealloc kend s pagetable a oldsz).map fun r => (0, r.2)
    else
      let s := s.setPage mem fun _ => 0
      (mappages s pagetable a pgsize mem (pteR ||| pteU ||| xperm)).bind fun (r, s) =>
        if r ≠ 0 then
          (s.kfree kend mem).bind fun s => (uvmdealloc kend s pagetable a oldsz).map fun r => (0, r.2)
        else uvmallocLoop pagetable oldsz newsz xperm (a + pgsize) s
  else some (newsz, s)
termination_by newsz - a
decreasing_by simp only [pgsize]; omega

/-- `uvmalloc(pagetable, oldsz, newsz, xperm)`: the new size, or `0`. -/
def uvmalloc (s : Phys) (pagetable oldsz newsz : Nat) (xperm : UInt64) : Option (Nat × Phys) :=
  if newsz < oldsz then some (oldsz, s)
  else uvmallocLoop kend pagetable (pgroundup oldsz) newsz xperm (pgroundup oldsz) s

/-- `freewalk(pagetable)`, at most `fuel` calls deep: a valid entry with none of `PTE_R`, `PTE_W`,
`PTE_X` points to a page-table page, freed first; any other valid entry is the panic
"freewalk: leaf". A table `walk` builds is three levels deep; deeper, the model stops (`none`). -/
def freewalk : (fuel : Nat) → (pagetable : Nat) → Phys → Option Phys
  | 0, _, _ => none
  | fuel + 1, pagetable, s =>
    ((List.finRange 512).foldlM (fun s i =>
      let pte := s.mem pagetable i
      if pte &&& pteV ≠ 0 ∧ pte &&& (pteR ||| pteW ||| pteX) = 0 then
        (freewalk fuel (pte2pa pte) s).map fun s => s.setPte pagetable i 0
      else if pte &&& pteV ≠ 0 then none
      else some s) s).bind fun s => s.kfree kend pagetable

/-- `uvmfree(pagetable, sz)`. -/
def uvmfree (s : Phys) (pagetable sz : Nat) : Option Phys :=
  (if sz > 0 then uvmunmap kend s pagetable 0 (pgroundup sz / pgsize) true else some s).bind fun s =>
    freewalk kend 3 pagetable s

/-- The loop of `uvmcopy` from `i`: each page of `old` is copied into a page from `kalloc` and mapped
at the same address with the same flags in `new`; on a failure the pages mapped in `new` so far are
unmapped and freed, and the result is `-1`. -/
def uvmcopyLoop (old new sz : Nat) (i : Nat) (s : Phys) : Option (Int × Phys) :=
  if i < sz then
    (walk s old i false).bind fun (pte, s) =>
      match pte with
      | none => none
      | some (t, j) =>
        let e := s.mem t j
        if e &&& pteV = 0 then none
        else
          let pa := pte2pa e
          let flags := pteFlags e
          let (mem, s) := s.kalloc
          let err (s : Phys) := (uvmunmap kend s new 0 (i / pgsize) true).map fun s => ((-1 : Int), s)
          if mem = 0 then err s
          else
            let s := s.setPage mem (s.mem pa)
            (mappages s new i pgsize mem flags).bind fun (r, s) =>
              if r ≠ 0 then (s.kfree kend mem).bind err
              else uvmcopyLoop old new sz (i + pgsize) s
  else some (0, s)
termination_by sz - i
decreasing_by simp only [pgsize]; omega

/-- `uvmcopy(old, new, sz)`: `0`, or `-1` with the new pages freed. -/
def uvmcopy (s : Phys) (old new sz : Nat) : Option (Int × Phys) := uvmcopyLoop kend old new sz 0 s

end Kend

/-! ### PTEs

A PTE holds a page-aligned physical address below `2^56` in its bits `10..53` and flags in its bits
`0..9`; the two parts read back apart. -/

section Encoding

variable {c : Nat} {f g : UInt64}

theorem toNat_pa2pte (hlt : c < 2 ^ 56) : (pa2pte c).toNat = c / 4096 * 1024 := by
  have hc64 : c < 2 ^ 64 := by omega
  simp only [pa2pte, UInt64.toNat_shiftLeft, UInt64.toNat_shiftRight, Nat.toUInt64_eq, UInt64.toNat_ofNat]
  simp only [Nat.shiftLeft_eq, Nat.shiftRight_eq_div_pow]
  norm_num
  omega

theorem toNat_pa2pte_or (hlt : c < 2 ^ 56) (hf : f.toNat < 1024) :
    (pa2pte c ||| f).toNat = 2 ^ 10 * (c / 4096) + f.toNat := by
  rw [UInt64.toNat_or, toNat_pa2pte hlt, Nat.two_pow_add_eq_or_of_lt (by simpa using hf), Nat.mul_comm]

/-- `PTE2PA(PA2PTE(pa) | flags)` is `pa`. -/
theorem pte2pa_pa2pte_or (hc : c % pgsize = 0) (hlt : c < 2 ^ 56) (hf : f.toNat < 1024) :
    pte2pa (pa2pte c ||| f) = c := by
  have h := toNat_pa2pte_or hlt hf
  simp only [pgsize] at hc
  simp [pte2pa, h, Nat.shiftLeft_eq, Nat.shiftRight_eq_div_pow]
  omega

/-- The flag bits of `PA2PTE(pa) | flags` are those of `flags`. -/
theorem pa2pte_or_and (hlt : c < 2 ^ 56) (hf : f.toNat < 1024) (hg : g.toNat < 1024) :
    (pa2pte c ||| f) &&& g = f &&& g := by
  apply UInt64.toNat_inj.mp
  rw [UInt64.toNat_and, UInt64.toNat_and, toNat_pa2pte_or hlt hf]
  apply Nat.eq_of_testBit_eq
  intro j
  simp only [Nat.testBit_and, Nat.testBit_two_pow_mul_add _ (show f.toNat < 2 ^ 10 by simpa using hf)]
  split_ifs with hj
  · rfl
  · -- above bit `9`, the mask `g` has no bit
    have hgj : g.toNat.testBit j = false :=
      Nat.testBit_lt_two_pow (Nat.lt_of_lt_of_le hg (Nat.pow_le_pow_right (n := 2) (by decide) (by omega : 10 ≤ j)))
    simp [hgj]

theorem pteFlags_pa2pte_or (hlt : c < 2 ^ 56) (hf : f.toNat < 1024) : pteFlags (pa2pte c ||| f) = f := by
  rw [pteFlags, pa2pte_or_and hlt hf (by decide)]
  apply UInt64.toNat_inj.mp
  rw [UInt64.toNat_and, show (0x3FF : UInt64).toNat = 2 ^ 10 - 1 from rfl, Nat.and_two_pow_sub_one_eq_mod]
  exact Nat.mod_eq_of_lt hf

theorem pa2pte_or_ne_zero (hlt : c < 2 ^ 56) (hf : f.toNat < 1024) (hv : f &&& pteV ≠ 0) :
    pa2pte c ||| f ≠ 0 := by
  intro h
  have hand := pa2pte_or_and (g := pteV) hlt hf (by decide)
  rw [h, UInt64.zero_and] at hand
  exact hv hand.symm

end Encoding

/-- The page a valid entry of a page-table page points to. -/
def child (e : UInt64) : Option Nat := if e &&& pteV ≠ 0 then some (pte2pa e) else none

@[simp] theorem child_zero : child 0 = none := by decide

theorem child_of_valid {e : UInt64} (h : e &&& pteV ≠ 0) : child e = some (pte2pa e) := if_pos h

theorem child_of_invalid {e : UInt64} (h : e &&& pteV = 0) : child e = none := if_neg (not_not.mpr h)

/-- The entry `walk` writes for a new page-table page points to it. -/
theorem child_pa2pte_pteV {c : Nat} (hc : c % pgsize = 0) (hlt : c < 2 ^ 56) :
    child (pa2pte c ||| pteV) = some c := by
  rw [child_of_valid, pte2pa_pa2pte_or hc hlt (by decide)]
  rw [pa2pte_or_and hlt (by decide) (by decide)]
  decide

/-! ### The indices of a virtual address -/

/-- The indices `walk` reads from level `level` down to level `1`. -/
def walkPath (va : Nat) : (level : Nat) → List (Fin 512)
  | 0 => []
  | level + 1 => px (level + 1) va :: walkPath va level

/-- The indices of `va` in the page-table pages of levels `2` and `1`. -/
def vpath (va : Nat) : List (Fin 512) := walkPath va 2

@[simp] theorem length_vpath (va : Nat) : (vpath va).length = 2 := rfl

/-- The indices of an address depend only on its page. -/
theorem px_pgrounddown (level va : Nat) : px level (pgrounddown va) = px level va := by
  have h : va / 4096 * 4096 / 2 ^ 12 = va / 2 ^ 12 := by omega
  ext
  simp only [px, pgrounddown, pgsize, pow_add, ← Nat.div_div_eq_div_mul, h]

theorem px_of_div_eq {level va va' : Nat} (h : va / pgsize = va' / pgsize) : px level va = px level va' := by
  rw [← px_pgrounddown level va, ← px_pgrounddown level va']
  simp only [pgrounddown, h]

theorem vpath_of_div_eq {va va' : Nat} (h : va / pgsize = va' / pgsize) : vpath va = vpath va' := by
  simp only [vpath, walkPath, px_of_div_eq h]

/-- Below `2^39`, two addresses with the same indices at every level are in the same page. -/
theorem div_eq_of_px_eq {va va' : Nat} (hva : va < 2 ^ 39) (hva' : va' < 2 ^ 39) (h : vpath va = vpath va')
    (h0 : px 0 va = px 0 va') : va / pgsize = va' / pgsize := by
  simp only [vpath, walkPath, List.cons.injEq, and_true] at h
  obtain ⟨h2, h1⟩ := h
  simp only [px, Fin.mk.injEq] at h2 h1 h0
  simp only [pgsize]
  omega

/-- Every leaf slot of the Sv39 space has an address below `2^39`. -/
theorem exists_va (a b i : Fin 512) : ∃ va < 2 ^ 39, vpath va = [a, b] ∧ px 0 va = i := by
  refine ⟨a.val * 2 ^ 30 + b.val * 2 ^ 21 + i.val * 2 ^ 12, by omega, ?_, ?_⟩
  · simp only [vpath, walkPath, List.cons.injEq, and_true]
    refine ⟨Fin.ext ?_, Fin.ext ?_⟩ <;> simp only [px] <;> omega
  · exact Fin.ext (by simp only [px]; omega)

/-! ### The steps of `walk` -/

/-- What `walk` leaves after it takes the first free page `p` for a page-table page: `p` zeroed, and
entry `j` of `pagetable` pointing to it. -/
def Phys.link (s : Phys) (pagetable : Nat) (j : Fin 512) (p : Nat) : Phys :=
  ({ s with free := s.free.tail }.setPage p fun _ => 0).setPte pagetable j (pa2pte p ||| pteV)

section Walk

variable {alloc : Bool} {va level t : Nat} {s : Phys}

@[simp] theorem walkLoop_zero : walkLoop alloc va 0 t s = (some (t, px 0 va), s) := rfl

/-- One level of the loop, as the source writes it. -/
theorem walkLoop_succ : walkLoop alloc va (level + 1) t s =
    if s.mem t (px (level + 1) va) &&& pteV ≠ 0 then walkLoop alloc va level (pte2pa (s.mem t (px (level + 1) va))) s
    else if !alloc then (none, s)
    else
      if s.kalloc.1 = 0 then (none, s.kalloc.2)
      else walkLoop alloc va level s.kalloc.1
        ((s.kalloc.2.setPage s.kalloc.1 fun _ => 0).setPte t (px (level + 1) va) (pa2pte s.kalloc.1 ||| pteV)) := rfl

theorem walkLoop_valid (h : s.mem t (px (level + 1) va) &&& pteV ≠ 0) :
    walkLoop alloc va (level + 1) t s = walkLoop alloc va level (pte2pa (s.mem t (px (level + 1) va))) s := by
  rw [walkLoop_succ, if_pos h]

theorem walkLoop_false_invalid (h : s.mem t (px (level + 1) va) &&& pteV = 0) :
    walkLoop false va (level + 1) t s = (none, s) := by
  simp [walkLoop_succ, h]

theorem walkLoop_nil (h : s.mem t (px (level + 1) va) &&& pteV = 0) (hfree : s.free = []) :
    walkLoop true va (level + 1) t s = (none, s) := by
  have hk : s.kalloc = (0, s) := by rw [Phys.kalloc, hfree]
  simp [walkLoop_succ, h, hk]

theorem walkLoop_cons {p : Nat} {rest : List Nat} (h : s.mem t (px (level + 1) va) &&& pteV = 0)
    (hfree : s.free = p :: rest) (hp : p ≠ 0) :
    walkLoop true va (level + 1) t s = walkLoop true va level p (s.link t (px (level + 1) va) p) := by
  -- the page `kalloc` fills with junk is zeroed right after
  have hk : s.kalloc = (p, { mem := update s.mem p fun _ => junkAlloc.toUInt64, free := rest }) := by
    rw [Phys.kalloc, hfree]
  simp [walkLoop_succ, h, hk, hp, Phys.link, Phys.setPage, Phys.setPte, hfree]

/-- With `alloc` off, `walk` follows the indices of `va` and changes nothing. -/
theorem walkLoop_false (level t : Nat) (s : Phys) :
    walkLoop false va level t s = ((Radix.follow child s.mem t (walkPath va level)).map fun u => (u, px 0 va), s) := by
  induction level generalizing t with
  | zero => rfl
  | succ level ih =>
    by_cases hv : s.mem t (px (level + 1) va) &&& pteV = 0
    · rw [walkLoop_false_invalid hv, walkPath, Radix.follow_cons, child_of_invalid hv]
      rfl
    · rw [walkLoop_valid hv, ih, walkPath, Radix.follow_cons, child_of_valid hv]
      rfl

end Walk

/-! ### The flat view

`walk` with `alloc` off reads the tree as the flat `PageTable` of the copy routines: the leaf PTE of
each virtual page, `none` where an entry on the way is not valid. -/

/-- The page table at `root` as `walk(root, va, 0)` reads it. -/
def view (s : Phys) (root : Nat) : PageTable where
  leaf vpn := (Radix.follow child s.mem root (vpath (vpn * pgsize))).map fun t => s.mem t (px 0 (vpn * pgsize))

theorem view_leaf (s : Phys) (root va : Nat) :
    (view s root).leaf (va / pgsize) = (Radix.follow child s.mem root (vpath va)).map fun t => s.mem t (px 0 va) := by
  have hva : va / pgsize * pgsize = pgrounddown va := rfl
  simp only [view, hva, px_pgrounddown, vpath, walkPath]

/-- `walkaddr` of `vm.c` is `walkaddr` of the flat view. -/
theorem walkaddr_view (s : Phys) (root va : Nat) : walkaddr s root va = Paged.walkaddr (view s root) va := by
  unfold walkaddr Paged.walkaddr
  split_ifs with hva
  · rfl
  · rw [walkLoop_false, Paged.walk, view_leaf, vpath]
    cases Radix.follow child s.mem root (walkPath va 2) <;> rfl

end Xv6.Vm.Sv39
