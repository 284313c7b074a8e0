import Mathlib
import Xv6.Vm.Copy

/-!
# The copies through a page table: `walkaddr`, `copyout`, `copyin` and `copyinstr`

`copyout`, `copyin` and `copyinstr` of `vm.c` over a page table and physical memory. The page table
is seen as `walk(pagetable, va, 0)` reads it below `MAXVA`: the leaf PTE of each virtual page, or
none where the walk meets an interior entry that is not valid. The kernel's buffers are arrays of
their own, apart from the pages the table maps.

Through the table, the address space is a `UserMem` (`userView`): a page is readable when
`walkaddr` finds it, writable when `copyout`'s test passes, and the byte at a user address is the
physical byte its page maps it to. `copyin` is `Vm.copyin` of that view (`copyin_eq`), and `copyout`
returns what `Vm.copyout` of it returns. What `copyout` leaves in memory reads back as the source
only when the pages it writes are distinct physical pages: two user pages mapped to one physical
page get their bytes at the same place, and the later pass overwrites the earlier. And since
`walkaddr` returns the physical address, with `0` for a page it refuses, a page mapped valid and
user at physical address `0` is refused by `copyin` and `copyinstr` (`copy_routines_counterexample`).
`copy_routines_spec` states what the three copies do with these two provisos, for every table,
address and length; `copyinstr`'s string is `StrAt`, its bytes before the first NUL and the NUL.
-/

namespace Xv6.Vm.Paged

open Bytes

/-- `MAXVA`: one bit less than the `9 + 9 + 9 + 12` bits Sv39 translates. -/
def maxva : Nat := 2 ^ (9 + 9 + 9 + 12 - 1)

def pteV : UInt64 := (1 : UInt64) <<< 0
def pteW : UInt64 := (1 : UInt64) <<< 2
def pteU : UInt64 := (1 : UInt64) <<< 4

/-- `PTE2PA(pte)`. -/
def pte2pa (pte : UInt64) : Nat := ((pte >>> 10) <<< 12).toNat

/-- A page table as `walk(pagetable, va, 0)` reads it below `MAXVA`: the leaf PTE of each virtual page
number, `none` where the walk returns `0`. -/
structure PageTable where
  leaf : Nat → Option UInt64

/-- `walk(pagetable, va, 0)`: the PTE of `va`'s page. -/
def walk (pt : PageTable) (va : Nat) : Option UInt64 := pt.leaf (va / pgsize)

def walkaddr (pt : PageTable) (va : Nat) : Nat :=
  if va ≥ maxva then 0
  else
    match walk pt va with
    | none => 0
    | some pte => if pte &&& pteV = 0 then 0 else if pte &&& pteU = 0 then 0 else pte2pa pte

/-- `copyout`'s test of the page at `va0`: below `MAXVA`, with a PTE that has `PTE_V`, `PTE_U` and
`PTE_W`. -/
def copyoutOk (pt : PageTable) (va0 : Nat) : Bool :=
  if va0 ≥ maxva then false
  else
    match walk pt va0 with
    | none => false
    | some pte => !(pte &&& pteV == 0 || pte &&& pteU == 0 || pte &&& pteW == 0)

/-- `PTE2PA(*pte) + (va - va0)`: where the byte at `va` lies, through the PTE of its page. -/
def physAddr (pt : PageTable) (va : Nat) : Nat :=
  match walk pt va with
  | none => 0
  | some pte => pte2pa pte + (va - pgrounddown va)

/-- One pass of `copyout`: `memmove((void *)(pa0 + (dstva - va0)), src, n)`, `done` bytes into `src`. -/
def copyoutPass (pt : PageTable) (src : Nat → UInt8) (phys : Nat → UInt8) (done va n : Nat) : Nat → UInt8 :=
  copy phys (physAddr pt va) (fun j => src (done + j)) n

/-- `copyout(pagetable, dstva, src, len)` into the physical memory `phys`. -/
def copyout (pt : PageTable) (phys : Nat → UInt8) (dstva : Nat) (src : Nat → UInt8) (len : Nat) :
    (Nat → UInt8) × Int :=
  pageLoop (copyoutOk pt) (copyoutPass pt src) len phys 0 dstva len

/-- `copyin(pagetable, dst, srcva, len)` into the kernel bytes `dst` from index `d` on. -/
def copyin (pt : PageTable) (phys : Nat → UInt8) (dst : Nat → UInt8) (d srcva len : Nat) : (Nat → UInt8) × Int :=
  pageLoop (fun va0 => walkaddr pt va0 != 0)
    (fun buf done va n => copy buf (d + done) (fun j => phys (walkaddr pt (pgrounddown va) + (va - pgrounddown va) + j)) n)
    len dst 0 srcva len

/-- The inner loop of `copyinstr` over `n` bytes from physical address `p` into `dst` from `d` on: each
byte is copied, up to a NUL, which is copied and ends the string. Whether a NUL came is the `Bool`. -/
def copyinstrPage (phys : Nat → UInt8) : (n : Nat) → (dst : Nat → UInt8) → (d p : Nat) → (Nat → UInt8) × Bool
  | 0, dst, _, _ => (dst, false)
  | n + 1, dst, d, p =>
    if phys p = 0 then (Function.update dst d 0, true)
    else copyinstrPage phys n (Function.update dst d (phys p)) (d + 1) (p + 1)

/-- The outer loop of `copyinstr` from `dst + d` and `srcva`, with `max` bytes left: a page at a time
until a NUL. Every pass takes at least one byte of `max`, so `max` passes are enough. -/
def copyinstrLoop (pt : PageTable) (phys : Nat → UInt8) :
    (fuel : Nat) → (dst : Nat → UInt8) → (d srcva max : Nat) → (Nat → UInt8) × Int
  | 0, dst, _, _, _ => (dst, -1)
  | fuel + 1, dst, d, srcva, max =>
    if max = 0 then (dst, -1)
    else
      let va0 := pgrounddown srcva
      let pa0 := walkaddr pt va0
      if pa0 = 0 then (dst, -1)
      else
        let n := min (pgsize - (srcva - va0)) max
        let r := copyinstrPage phys n dst d (pa0 + (srcva - va0))
        if r.2 then (r.1, 0) else copyinstrLoop pt phys fuel r.1 (d + n) (va0 + pgsize) (max - n)

/-- `copyinstr(pagetable, dst, srcva, max)`. -/
def copyinstr (pt : PageTable) (phys : Nat → UInt8) (dst : Nat → UInt8) (srcva max : Nat) : (Nat → UInt8) × Int :=
  copyinstrLoop pt phys max dst 0 srcva max

/-- The address space a page table and the physical memory give a process. -/
def userView (pt : PageTable) (phys : Nat → UInt8) : UserMem where
  readable va0 := walkaddr pt va0 != 0
  writable := copyoutOk pt
  byte va := phys (physAddr pt va)

/-- The page at `va0` lies below `MAXVA`, and its PTE has `PTE_V` and `PTE_U` and a physical page
other than `0`: a page `walkaddr` finds. -/
def Readable (pt : PageTable) (va0 : Nat) : Prop :=
  va0 < maxva ∧ ∃ pte, walk pt va0 = some pte ∧ pte &&& pteV ≠ 0 ∧ pte &&& pteU ≠ 0 ∧ pte2pa pte ≠ 0

/-- The page at `va0` lies below `MAXVA`, and its PTE has `PTE_V`, `PTE_U` and `PTE_W`. -/
def Writable (pt : PageTable) (va0 : Nat) : Prop :=
  va0 < maxva ∧ ∃ pte, walk pt va0 = some pte ∧ pte &&& pteV ≠ 0 ∧ pte &&& pteU ≠ 0 ∧ pte &&& pteW ≠ 0

section Pages

variable {pt : PageTable} {va j : Nat}

theorem walk_add_of_lt (hj : j < pgsize - (va - pgrounddown va)) : walk pt (va + j) = walk pt va := by
  simp only [walk]
  congr 1
  simp only [pgrounddown, pgsize] at hj ⊢
  omega

theorem walk_pgrounddown (va : Nat) : walk pt (pgrounddown va) = walk pt va := by
  simp only [walk, pgrounddown, pgsize]
  congr 1
  omega

/-- Within a page the physical addresses follow the virtual ones. -/
theorem physAddr_add {pte : UInt64} (hwalk : walk pt va = some pte) (hj : j < pgsize - (va - pgrounddown va)) :
    physAddr pt (va + j) = physAddr pt va + j := by
  have hpage : pgrounddown (va + j) = pgrounddown va := pgrounddown_add_of_lt hj
  have := pgrounddown_le va
  simp only [physAddr, walk_add_of_lt hj, hwalk, hpage]
  omega

theorem walkaddr_of_walk {va0 : Nat} {pte : UInt64} (hmax : va0 < maxva) (hwalk : walk pt va0 = some pte) :
    walkaddr pt va0 = if pte &&& pteV = 0 then 0 else if pte &&& pteU = 0 then 0 else pte2pa pte := by
  simp only [walkaddr, if_neg (Nat.not_le.mpr hmax), hwalk]

theorem walkaddr_ne_zero_iff {va0 : Nat} : walkaddr pt va0 ≠ 0 ↔ Readable pt va0 := by
  by_cases hmax : va0 < maxva
  · cases hwalk : walk pt va0 with
    | none => simp [walkaddr, Nat.not_le.mpr hmax, hwalk, Readable]
    | some pte =>
      rw [walkaddr_of_walk hmax hwalk]
      simp only [Readable, hmax, hwalk, true_and, Option.some.injEq, exists_eq_left']
      split_ifs <;> simp_all
  · simp [walkaddr, Readable, Nat.not_lt.mp hmax, hmax]

theorem copyoutOk_iff {va0 : Nat} : copyoutOk pt va0 = true ↔ Writable pt va0 := by
  by_cases hmax : va0 < maxva
  · cases hwalk : walk pt va0 with
    | none => simp [copyoutOk, Nat.not_le.mpr hmax, hwalk, Writable]
    | some pte => simp [copyoutOk, Nat.not_le.mpr hmax, hwalk, Writable, hmax, and_assoc]
  · simp [copyoutOk, Writable, Nat.not_lt.mp hmax, hmax]

/-- The page `walkaddr` finds is the physical page of its PTE. -/
theorem walkaddr_spec {va0 : Nat} (h : walkaddr pt va0 ≠ 0) : ∃ pte, walk pt va0 = some pte ∧ walkaddr pt va0 = pte2pa pte := by
  obtain ⟨hmax, pte, hwalk, hv, hu, -⟩ := walkaddr_ne_zero_iff.mp h
  refine ⟨pte, hwalk, ?_⟩
  rw [walkaddr_of_walk hmax hwalk, if_neg hv, if_neg hu]

/-- On a page `walkaddr` finds, `copyin` reads the byte at `va + j` at `walkaddr` of the page plus its
offset. -/
theorem physAddr_of_walkaddr (h : walkaddr pt (pgrounddown va) ≠ 0) (hj : j < pgsize - (va - pgrounddown va)) :
    physAddr pt (va + j) = walkaddr pt (pgrounddown va) + (va - pgrounddown va) + j := by
  obtain ⟨pte, hwalk, hpa⟩ := walkaddr_spec h
  rw [walk_pgrounddown] at hwalk
  rw [physAddr_add hwalk hj, hpa]
  simp only [physAddr, hwalk]

theorem walk_of_copyoutOk (h : copyoutOk pt (pgrounddown va) = true) : ∃ pte, walk pt va = some pte := by
  obtain ⟨-, pte, hwalk, -⟩ := copyoutOk_iff.mp h
  exact ⟨pte, by rwa [walk_pgrounddown] at hwalk⟩

end Pages

section Copies

variable {pt : PageTable} {phys : Nat → UInt8}

/-- `copyin` through the page table is `Vm.copyin` of the address space it gives. -/
theorem copyin_eq (dst : Nat → UInt8) (d srcva len : Nat) :
    copyin pt phys dst d srcva len = Vm.copyin (userView pt phys) dst d srcva len := by
  unfold copyin Vm.copyin
  apply pageLoop_congr
  intro buf done va n hok hn
  apply copy_congr
  intro j hj
  have hfound : walkaddr pt (pgrounddown va) ≠ 0 := by simpa using hok
  simp only [userView]
  rw [physAddr_of_walkaddr hfound (by omega)]

/-- `copyout` returns what `Vm.copyout` of the address space returns. -/
theorem copyout_snd (dstva : Nat) (src : Nat → UInt8) (len : Nat) :
    (copyout pt phys dstva src len).2 = (Vm.copyout (userView pt phys) dstva src len).2 :=
  pageLoop_snd _ len phys (userView pt phys) 0 dstva len

/-- After a pass on the page of `va`, the loop goes on at `va + n`, or nothing is left. -/
theorem next_page (va len : Nat) :
    len - min (pgsize - (va - pgrounddown va)) len = 0 ∨
      pgrounddown va + pgsize = va + min (pgsize - (va - pgrounddown va)) len := by
  have := pgrounddown_le va
  have := lt_pgrounddown_add va
  omega

/-- `copyout`'s loop changes no byte outside the physical bytes of its range. -/
theorem copyoutLoop_frame (src : Nat → UInt8) :
    ∀ fuel (phys : Nat → UInt8) done va len a, (∀ i < len, a ≠ physAddr pt (va + i)) →
      (pageLoop (copyoutOk pt) (copyoutPass pt src) fuel phys done va len).1 a = phys a
  | 0, _, _, _, _, _, _ => rfl
  | fuel + 1, phys, done, va, len, a, ha => by
    simp only [pageLoop]
    split_ifs with hlen hok
    · rfl
    · obtain ⟨pte, hwalk⟩ := walk_of_copyoutOk hok
      generalize hn : min (pgsize - (va - pgrounddown va)) len = n
      have hnext := next_page va len
      rw [hn] at hnext
      -- the rest of the loop writes the bytes after this pass, this pass those of its page
      rw [copyoutLoop_frame src fuel _ _ _ _ a fun i hi => ?_]
      · refine copy_of_not_mem ?_
        by_contra hin
        have hlt : a - physAddr pt va < n := by omega
        have := ha (a - physAddr pt va) (by omega)
        rw [physAddr_add hwalk (by omega)] at this
        omega
      · rcases hnext with hnone | hva
        · omega
        · rw [hva, Nat.add_assoc]
          exact ha (n + i) (by omega)
    · rfl

/-- When the bytes of the range lie at distinct physical addresses, a `copyout` loop that succeeds
leaves each of them holding its byte of the source. -/
theorem copyoutLoop_bytes (src : Nat → UInt8) :
    ∀ fuel (phys : Nat → UInt8) done va len, len ≤ fuel →
      (∀ i < len, ∀ j < len, physAddr pt (va + i) = physAddr pt (va + j) → i = j) →
      (pageLoop (copyoutOk pt) (copyoutPass pt src) fuel phys done va len).2 = 0 →
      ∀ i < len, (pageLoop (copyoutOk pt) (copyoutPass pt src) fuel phys done va len).1 (physAddr pt (va + i)) =
        src (done + i)
  | 0, _, _, _, _, hfuel, _, _, i, hi => absurd hi (by omega)
  | fuel + 1, phys, done, va, len, hfuel, hinj, hok, i, hi => by
    simp only [pageLoop] at hok ⊢
    split_ifs at hok ⊢ with hlen hpage
    · exact absurd hi (by omega)
    · obtain ⟨pte, hwalk⟩ := walk_of_copyoutOk hpage
      generalize hn : min (pgsize - (va - pgrounddown va)) len = n at hok ⊢
      have hnext := next_page va len
      rw [hn] at hnext
      have hnpos : n ≤ pgsize - (va - pgrounddown va) := by rw [← hn]; exact Nat.min_le_left _ _
      by_cases hfirst : i < n
      · -- a byte of this pass: the rest of the loop writes other physical bytes
        rw [copyoutLoop_frame src fuel _ _ _ _ _ fun i' hi' => ?_]
        · rw [copyoutPass, physAddr_add hwalk (by omega), copy_of_mem (by omega) (by omega)]
          congr 1
          omega
        · rcases hnext with hnone | hva
          · omega
          · rw [hva, Nat.add_assoc]
            intro heq
            have := hinj i hi (n + i') (by omega) heq
            omega
      · -- a byte of the rest of the loop, which starts at `va + n`
        rcases hnext with hnone | hva
        · omega
        · have hn1 : 0 < n := by
            rw [← hn]
            have := lt_pgrounddown_add va
            have := pgrounddown_le va
            omega
          rw [hva] at hok ⊢
          have hrest := copyoutLoop_bytes src fuel _ (done + n) (va + n) (len - n) (by omega)
            (fun i' hi' j' hj' heq => by
              rw [Nat.add_assoc, Nat.add_assoc] at heq
              have := hinj (n + i') (by omega) (n + j') (by omega) heq
              omega)
            hok (i - n) (by omega)
          rw [Nat.add_assoc, Nat.add_sub_cancel' (by omega), Nat.add_assoc, Nat.add_sub_cancel' (by omega)] at hrest
          exact hrest
    · cases hok

end Copies

/-- At `srcva` lies a string of `k` bytes other than NUL and then a NUL, on pages `walkaddr` finds. -/
def StrAt (pt : PageTable) (phys : Nat → UInt8) (srcva k : Nat) : Prop :=
  (∀ i ≤ k, Readable pt (pgrounddown (srcva + i))) ∧ (∀ i < k, (userView pt phys).byte (srcva + i) ≠ 0) ∧
    (userView pt phys).byte (srcva + k) = 0

section Strings

variable {pt : PageTable} {phys : Nat → UInt8}

/-- A string ends at its first NUL. -/
theorem StrAt.unique {srcva k k' : Nat} (h : StrAt pt phys srcva k) (h' : StrAt pt phys srcva k') : k = k' := by
  rcases Nat.lt_trichotomy k k' with hlt | heq | hgt
  · exact absurd h.2.2 (h'.2.1 k hlt)
  · exact heq
  · exact absurd h'.2.2 (h.2.1 k' hgt)

/-- Past `n` bytes other than NUL on pages `walkaddr` finds, the string at `srcva` is the string at
`srcva + n`. -/
theorem strAt_shift {srcva n k : Nat} (hpre : ∀ i < n, Readable pt (pgrounddown (srcva + i)) ∧
      (userView pt phys).byte (srcva + i) ≠ 0) :
    StrAt pt phys srcva k ↔ n ≤ k ∧ StrAt pt phys (srcva + n) (k - n) := by
  constructor
  · rintro ⟨hpages, hbytes, hnul⟩
    have hnk : n ≤ k := Nat.le_of_not_lt fun hlt => (hpre k hlt).2 hnul
    refine ⟨hnk, fun i hi => ?_, fun i hi => ?_, ?_⟩
    · rw [Nat.add_assoc]
      exact hpages (n + i) (by omega)
    · rw [Nat.add_assoc]
      exact hbytes (n + i) (by omega)
    · rwa [Nat.add_assoc, Nat.add_sub_cancel' hnk]
  · rintro ⟨hnk, hpages, hbytes, hnul⟩
    refine ⟨fun i hi => ?_, fun i hi => ?_, ?_⟩
    · by_cases hin : i < n
      · exact (hpre i hin).1
      · have := hpages (i - n) (by omega)
        rwa [Nat.add_assoc, Nat.add_sub_cancel' (by omega)] at this
    · by_cases hin : i < n
      · exact (hpre i hin).2
      · have := hbytes (i - n) (by omega)
        rwa [Nat.add_assoc, Nat.add_sub_cancel' (by omega)] at this
    · rwa [Nat.add_assoc, Nat.add_sub_cancel' hnk] at hnul

/-- `copyinstr`'s inner loop copies up to and including the first NUL among its `n` bytes, or all of
them when there is none. -/
theorem copyinstrPage_spec : ∀ n (dst : Nat → UInt8) d p,
    (∃ j < n, (∀ i < j, phys (p + i) ≠ 0) ∧ phys (p + j) = 0 ∧
        copyinstrPage phys n dst d p = (copy dst d (fun i => phys (p + i)) (j + 1), true)) ∨
      ((∀ i < n, phys (p + i) ≠ 0) ∧ copyinstrPage phys n dst d p = (copy dst d (fun i => phys (p + i)) n, false))
  | 0, dst, d, p => .inr ⟨nofun, by rw [copyinstrPage, copy_zero]⟩
  | n + 1, dst, d, p => by
    by_cases hnul : phys p = 0
    · refine .inl ⟨0, by omega, nofun, by rwa [Nat.add_zero], ?_⟩
      rw [copyinstrPage, if_pos hnul, copy_one, Nat.add_zero, hnul]
    · -- the byte is copied, and the rest of the loop copies on from the next byte
      have hshift : ∀ m, copy (Function.update dst d (phys p)) (d + 1) (fun i => phys (p + 1 + i)) m =
          copy dst d (fun i => phys (p + i)) (m + 1) := by
        intro m
        have hone : Function.update dst d (phys p) = copy dst d (fun i => phys (p + i)) 1 := by
          rw [copy_one, Nat.add_zero]
        rw [hone, Nat.add_comm m 1, ← copy_copy]
        simp only [Nat.add_assoc]
      have hbyte : ∀ i < n + 1, (∀ i' < i, phys (p + 1 + i') ≠ 0) → ∀ i' < i + 1, phys (p + i') ≠ 0 := by
        intro i _ hpre i' hi'
        rcases i' with _ | i'
        · rwa [Nat.add_zero]
        · rw [← Nat.add_assoc, Nat.add_right_comm]
          exact hpre i' (by omega)
      rw [copyinstrPage, if_neg hnul]
      rcases copyinstrPage_spec n (Function.update dst d (phys p)) (d + 1) (p + 1) with
        ⟨j, hj, hpre, hz, hres⟩ | ⟨hall, hres⟩
      · refine .inl ⟨j + 1, by omega, hbyte j (by omega) hpre, ?_, by rw [hres, hshift]⟩
        rwa [← Nat.add_assoc, Nat.add_right_comm]
      · exact .inr ⟨hbyte n (by omega) hall, by rw [hres, hshift]⟩

/-- The inner loop changes no byte of `dst` before `d`. -/
theorem copyinstrPage_frame {n d p i : Nat} (dst : Nat → UInt8) (hi : i < d) :
    (copyinstrPage phys n dst d p).1 i = dst i := by
  rcases copyinstrPage_spec n dst d p with ⟨j, -, -, -, hres⟩ | ⟨-, hres⟩ <;>
    rw [hres] <;> dsimp only <;> exact copy_of_lt hi

theorem copyinstrLoop_zero (fuel : Nat) (dst : Nat → UInt8) (d srcva : Nat) :
    copyinstrLoop pt phys fuel dst d srcva 0 = (dst, -1) := by
  cases fuel <;> rfl

/-- `copyinstr`'s outer loop changes no byte of `dst` before `d`. -/
theorem copyinstrLoop_frame : ∀ fuel (dst : Nat → UInt8) d srcva max i, i < d →
    (copyinstrLoop pt phys fuel dst d srcva max).1 i = dst i
  | 0, _, _, _, _, _, _ => rfl
  | fuel + 1, dst, d, srcva, max, i, hi => by
    simp only [copyinstrLoop]
    split_ifs
    · rfl
    · rfl
    · exact copyinstrPage_frame dst hi
    · rw [copyinstrLoop_frame fuel _ _ _ _ i (by omega), copyinstrPage_frame dst hi]

/-- `copyinstr`'s loop with at least `max` passes of fuel returns `0` exactly when a string of fewer
than `max` bytes lies at `srcva`, and then copies its bytes and its NUL from `dst + d` on. -/
theorem copyinstrLoop_spec : ∀ fuel (dst : Nat → UInt8) d srcva max, max ≤ fuel →
    ((copyinstrLoop pt phys fuel dst d srcva max).2 = 0 ↔ ∃ k < max, StrAt pt phys srcva k) ∧
      ∀ k < max, StrAt pt phys srcva k →
        ∀ i ≤ k, (copyinstrLoop pt phys fuel dst d srcva max).1 (d + i) = (userView pt phys).byte (srcva + i)
  | 0, dst, d, srcva, max, hfuel => by
    have hmax : max = 0 := by omega
    subst hmax
    rw [copyinstrLoop_zero]
    exact ⟨iff_of_false (by simp) fun ⟨k, hk, _⟩ => absurd hk (by omega), fun k hk => absurd hk (by omega)⟩
  | fuel + 1, dst, d, srcva, max, hfuel => by
    by_cases hmax : max = 0
    · subst hmax
      rw [copyinstrLoop_zero]
      exact ⟨iff_of_false (by simp) fun ⟨k, hk, _⟩ => absurd hk (by omega), fun k hk => absurd hk (by omega)⟩
    by_cases hpa : walkaddr pt (pgrounddown srcva) = 0
    · -- the first page is refused, and every string at `srcva` starts on it
      have hnone : ¬∃ k < max, StrAt pt phys srcva k := by
        rintro ⟨k, -, hpages, -⟩
        have hfirst := hpages 0 (Nat.zero_le k)
        rw [Nat.add_zero, ← walkaddr_ne_zero_iff] at hfirst
        exact hfirst hpa
      simp only [copyinstrLoop, if_neg hmax, if_pos hpa]
      exact ⟨iff_of_false (by simp) hnone, fun k hk hstr => absurd ⟨k, hk, hstr⟩ hnone⟩
    generalize hn : min (pgsize - (srcva - pgrounddown srcva)) max = n
    have hnle : n ≤ pgsize - (srcva - pgrounddown srcva) := by rw [← hn]; exact Nat.min_le_left _ _
    have hnmax : n ≤ max := by rw [← hn]; exact Nat.min_le_right _ _
    have hnpos : 0 < n := by
      rw [← hn]
      have := lt_pgrounddown_add srcva
      have := pgrounddown_le srcva
      exact Nat.lt_min.mpr ⟨by omega, by omega⟩
    -- the bytes of this pass are the user's bytes, on the first page
    have hphys : ∀ i < n, phys (walkaddr pt (pgrounddown srcva) + (srcva - pgrounddown srcva) + i) =
        (userView pt phys).byte (srcva + i) := by
      intro i hi
      simp only [userView]
      rw [physAddr_of_walkaddr hpa (by omega)]
    have hread : ∀ i < n, Readable pt (pgrounddown (srcva + i)) := by
      intro i hi
      rw [pgrounddown_add_of_lt (by omega)]
      exact walkaddr_ne_zero_iff.mp hpa
    have hloop : copyinstrLoop pt phys (fuel + 1) dst d srcva max =
        let r := copyinstrPage phys n dst d (walkaddr pt (pgrounddown srcva) + (srcva - pgrounddown srcva))
        if r.2 then (r.1, 0) else copyinstrLoop pt phys fuel r.1 (d + n) (pgrounddown srcva + pgsize) (max - n) := by
      simp only [copyinstrLoop, if_neg hmax, if_neg hpa, hn]
    rw [hloop]
    rcases copyinstrPage_spec n dst d (walkaddr pt (pgrounddown srcva) + (srcva - pgrounddown srcva)) with
      ⟨j, hj, hpre, hz, hres⟩ | ⟨hall, hres⟩
    · -- a NUL on this page, at `j`: the string at `srcva` has `j` bytes
      have hstr : StrAt pt phys srcva j :=
        ⟨fun i hi => hread i (by omega), fun i hi => by rw [← hphys i (by omega)]; exact hpre i hi,
          by rw [← hphys j hj]; exact hz⟩
      simp only [hres, ↓reduceIte]
      refine ⟨iff_of_true trivial ⟨j, by omega, hstr⟩, fun k _ hk i hi => ?_⟩
      rw [hk.unique hstr] at hi
      rw [copy_of_mem (by omega) (by omega), Nat.add_sub_cancel_left, hphys i (by omega)]
    · simp only [hres, Bool.false_eq_true, if_false]
      have hpre : ∀ i < n, Readable pt (pgrounddown (srcva + i)) ∧ (userView pt phys).byte (srcva + i) ≠ 0 :=
        fun i hi => ⟨hread i hi, by rw [← hphys i hi]; exact hall i hi⟩
      by_cases hlast : n = max
      · -- `max` bytes without a NUL
        have hnone : ¬∃ k < max, StrAt pt phys srcva k := by
          rintro ⟨k, hk, hstr⟩
          exact absurd ((strAt_shift hpre).mp hstr).1 (by omega)
        rw [hlast, Nat.sub_self, copyinstrLoop_zero]
        exact ⟨iff_of_false (by simp) hnone, fun k hk hstr => absurd ⟨k, hk, hstr⟩ hnone⟩
      -- the page is done, and the loop goes on at the next one, `n` bytes on
      have hnext := next_page srcva max
      rw [hn] at hnext
      rw [hnext.resolve_left (by omega)]
      obtain ⟨hcode, hbytes⟩ := copyinstrLoop_spec fuel (copy dst d (fun i => phys (walkaddr pt (pgrounddown srcva) +
        (srcva - pgrounddown srcva) + i)) n) (d + n) (srcva + n) (max - n) (by omega)
      refine ⟨?_, fun k hk hstr i hi => ?_⟩
      · rw [hcode]
        constructor
        · rintro ⟨k, hk, hstr⟩
          exact ⟨k + n, by omega, (strAt_shift hpre).mpr ⟨by omega, by rwa [Nat.add_sub_cancel]⟩⟩
        · rintro ⟨k, hk, hstr⟩
          obtain ⟨hnk, hstr'⟩ := (strAt_shift hpre).mp hstr
          exact ⟨k - n, by omega, hstr'⟩
      · obtain ⟨hnk, hstr'⟩ := (strAt_shift hpre).mp hstr
        by_cases hin : i < n
        · rw [copyinstrLoop_frame fuel _ _ _ _ _ (by omega), copy_of_mem (by omega) (by omega),
            Nat.add_sub_cancel_left, hphys i hin]
        · have := hbytes (k - n) (by omega) hstr' (i - n) (by omega)
          rwa [Nat.add_assoc, Nat.add_sub_cancel' (by omega), Nat.add_assoc, Nat.add_sub_cancel' (by omega)] at this

end Strings

section Spec

variable {pt : PageTable} {phys : Nat → UInt8}

theorem code_eq_zero {k len : Nat} : (if k = len then (0 : Int) else -1) = 0 ↔ k = len := by
  by_cases hk : k = len <;> simp [hk]

/-- A page loop that stops at the first page of `[va, va + len)` failing `ok` returns `0` exactly when
every page of the range passes. -/
theorem code_eq_zero_iff {ok : Nat → Bool} {va k len : Nat} (hk : k ≤ len)
    (hpre : ∀ i < k, ok (pgrounddown (va + i)) = true) (hfail : k < len → ok (pgrounddown (va + k)) = false) :
    (if k = len then (0 : Int) else -1) = 0 ↔ ∀ i < len, ok (pgrounddown (va + i)) = true := by
  rw [code_eq_zero]
  constructor
  · rintro rfl
    exact hpre
  · intro hall
    by_contra hne
    have hlast := hfail (by omega)
    rw [hall k (by omega)] at hlast
    cases hlast

/-- The three copies through any page table. `copyout` returns `0` exactly when every page of the range
is below `MAXVA` with `PTE_V`, `PTE_U` and `PTE_W`, and then, when the range's bytes lie at distinct
physical addresses, the user bytes read back as the source. `copyin` returns `0` exactly when every
page of the range is found by `walkaddr`: `PTE_V` and `PTE_U` on a physical page other than `0`; it then
copies the user bytes. `copyinstr` returns `0` exactly when a string, with its NUL among the first
`max` bytes, lies on such pages; it then copies the string through the NUL. -/
theorem copy_routines_spec (pt : PageTable) (phys : Nat → UInt8) :
    (∀ dstva src len,
      ((copyout pt phys dstva src len).2 = 0 ↔ ∀ i < len, Writable pt (pgrounddown (dstva + i))) ∧
        ((copyout pt phys dstva src len).2 = 0 →
          (∀ i < len, ∀ j < len, physAddr pt (dstva + i) = physAddr pt (dstva + j) → i = j) →
          ∀ i < len, (userView pt (copyout pt phys dstva src len).1).byte (dstva + i) = src i)) ∧
    (∀ dst srcva len,
      ((copyin pt phys dst 0 srcva len).2 = 0 ↔ ∀ i < len, Readable pt (pgrounddown (srcva + i))) ∧
        ((copyin pt phys dst 0 srcva len).2 = 0 →
          ∀ i < len, (copyin pt phys dst 0 srcva len).1 i = (userView pt phys).byte (srcva + i))) ∧
    (∀ dst srcva max,
      ((copyinstr pt phys dst srcva max).2 = 0 ↔ ∃ k < max, StrAt pt phys srcva k) ∧
        ∀ k < max, StrAt pt phys srcva k →
          ∀ i ≤ k, (copyinstr pt phys dst srcva max).1 i = (userView pt phys).byte (srcva + i)) := by
  refine ⟨fun dstva src len => ?_, fun dst srcva len => ?_, fun dst srcva max => ?_⟩
  · obtain ⟨k, hk, hres, hpre, hfail⟩ := Vm.copyout_spec (userView pt phys) dstva src len
    have hcode : (copyout pt phys dstva src len).2 = 0 ↔ ∀ i < len, Writable pt (pgrounddown (dstva + i)) := by
      rw [copyout_snd, hres]
      dsimp only
      rw [code_eq_zero_iff hk hpre hfail]
      simp only [userView, copyoutOk_iff]
    refine ⟨hcode, fun hok hinj i hi => ?_⟩
    have hbyte := copyoutLoop_bytes src len phys 0 dstva len (Nat.le_refl len) hinj hok i hi
    rwa [Nat.zero_add] at hbyte
  · obtain ⟨k, hk, hres, hpre, hfail⟩ := Vm.copyin_spec (userView pt phys) dst 0 srcva len
    rw [copyin_eq, hres]
    dsimp only
    refine ⟨?_, fun hok i hi => ?_⟩
    · rw [code_eq_zero_iff hk hpre hfail]
      simp only [userView, bne_iff_ne, walkaddr_ne_zero_iff]
    · rw [code_eq_zero.mp hok, copy_of_mem (Nat.zero_le i) (by omega), Nat.sub_zero]
  · obtain ⟨hcode, hbytes⟩ := @copyinstrLoop_spec pt phys max dst 0 srcva max (Nat.le_refl max)
    refine ⟨hcode, fun k hk hstr i hi => ?_⟩
    have hbyte := hbytes k hk hstr i hi
    rwa [Nat.zero_add] at hbyte

/-- User pages `0` and `1` mapped writable to one physical page. -/
def aliasedTable : PageTable :=
  ⟨fun vpn => if vpn < 2 then some (pteV ||| pteU ||| pteW ||| ((0x80000 : UInt64) <<< 10)) else none⟩

/-- User page `0` mapped valid and user to physical page `0`. -/
def pageZeroTable : PageTable := ⟨fun vpn => if vpn = 0 then some (pteV ||| pteU) else none⟩

/-- `copyout` of `4097` bytes over two user pages mapped to one physical page returns `0`, and the
first user byte then holds the last source byte; and user page `0`, mapped `PTE_V | PTE_U` to physical
page `0`, is refused by `copyin` and `copyinstr`, although a NUL lies at its first byte. -/
theorem copy_routines_counterexample :
    ((copyout aliasedTable (fun _ => 0) 0 (fun i => if i < pgsize then 1 else 2) (pgsize + 1)).2 = 0 ∧
      (userView aliasedTable
        (copyout aliasedTable (fun _ => 0) 0 (fun i => if i < pgsize then 1 else 2) (pgsize + 1)).1).byte 0 = 2) ∧
    (0 < maxva ∧ walk pageZeroTable 0 = some (pteV ||| pteU) ∧ (pteV ||| pteU) &&& pteV ≠ 0 ∧
      (pteV ||| pteU) &&& pteU ≠ 0 ∧ (userView pageZeroTable (fun _ => 0)).byte 0 = 0 ∧
      (copyin pageZeroTable (fun _ => 0) (fun _ => 0) 0 0 1).2 = -1 ∧
      (copyinstr pageZeroTable (fun _ => 0) (fun _ => 0) 0 1).2 = -1) := by
  decide +kernel

end Spec

end Xv6.Vm.Paged
