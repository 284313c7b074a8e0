import Xv6.Library.Bytes

/-!
# Copies between the kernel and user memory: `copyin`, `copyout` and `either_copy*`

`copyin` and `copyout` of `vm.c` move `len` bytes one page at a time: each pass looks up the page of
the user address, returns `-1` if it is not mapped as required, and otherwise copies up to the end
of that page. A failure therefore comes after the pages before it have been copied. Both loops are
`pageLoop`, which takes the page test and the pass's `memmove` as parameters, and `pageLoop_spec`
says what one run of it does: some prefix of the bytes is copied, exactly the bytes before the first
page that fails, and the result is `0` when that prefix is everything.

The address space is seen through `walkaddr` and the PTE bits `copyout` tests, per page, and through
the bytes at each user address; `either_copyin` and `either_copyout` choose it or the kernel's bytes.
-/

namespace Xv6.Vm

open Bytes

def pgsize : Nat := 4096

/-- `PGROUNDDOWN(a)`, that is `a & ~(PGSIZE-1)`. -/
def pgrounddown (a : Nat) : Nat := a / pgsize * pgsize

theorem pgrounddown_le (a : Nat) : pgrounddown a ≤ a := by
  simp only [pgrounddown, pgsize]
  omega

theorem lt_pgrounddown_add (a : Nat) : a < pgrounddown a + pgsize := by
  simp only [pgrounddown, pgsize]
  omega

/-- An address before the end of `a`'s page is on `a`'s page. -/
theorem pgrounddown_add_of_lt {a i : Nat} (hi : i < pgsize - (a - pgrounddown a)) :
    pgrounddown (a + i) = pgrounddown a := by
  simp only [pgrounddown, pgsize] at hi ⊢
  omega

/-- A process's address space as `copyin` and `copyout` see it. `readable va0` is
`walkaddr(pagetable, va0) != 0` (below `MAXVA`, valid and user) and `writable va0` is `copyout`'s test,
which adds `PTE_W`; both are asked of page-aligned addresses only. `byte` gives the byte at each user
address of a mapped page. -/
structure UserMem where
  readable : Nat → Bool
  writable : Nat → Bool
  byte : Nat → UInt8

/-- What `either_copyin` and `either_copyout` reach: the current process's address space and the
kernel's bytes. -/
structure Memory where
  user : UserMem
  kernel : Nat → UInt8

section Loop

variable {β : Type*}

/-- The loop of `copyin` and `copyout`. `va` is the user address, `done` the bytes copied so far, and
`move buf done va n` the pass's `memmove` of `n` bytes. Every pass copies at least one byte, so `len`
passes are enough: the fuel is `len`. -/
def pageLoop (ok : Nat → Bool) (move : β → Nat → Nat → Nat → β) :
    (fuel : Nat) → (buf : β) → (done va len : Nat) → β × Int
  | 0, buf, _, _, _ => (buf, 0)
  | fuel + 1, buf, done, va, len =>
    if len = 0 then (buf, 0)
    else
      let va0 := pgrounddown va
      if ok va0 then
        let n := min (pgsize - (va - va0)) len
        pageLoop ok move fuel (move buf done va n) (done + n) (va0 + pgsize) (len - n)
      else (buf, -1)

variable {ok : Nat → Bool} {move : β → Nat → Nat → Nat → β}

/-- One run of the loop copies the `k` bytes before the first page that fails `ok`, given that a move
of nothing changes nothing and two moves over adjacent ranges are one move. -/
theorem pageLoop_spec (hzero : ∀ buf done va, move buf done va 0 = buf)
    (hadd : ∀ buf done va n m, move (move buf done va n) (done + n) (va + n) m = move buf done va (n + m))
    {fuel len : Nat} (hfuel : len ≤ fuel) (buf : β) (done va : Nat) :
    ∃ k ≤ len, pageLoop ok move fuel buf done va len = (move buf done va k, if k = len then 0 else -1) ∧
      (∀ i < k, ok (pgrounddown (va + i))) ∧ (k < len → ok (pgrounddown (va + k)) = false) := by
  induction fuel generalizing buf done va len with
  | zero =>
    obtain rfl : len = 0 := by omega
    exact ⟨0, Nat.le_refl 0, by simp [pageLoop, hzero], by simp, by simp⟩
  | succ fuel ih =>
    by_cases hlen : len = 0
    · subst hlen
      exact ⟨0, Nat.le_refl 0, by simp [pageLoop, hzero], by simp, by simp⟩
    by_cases hok : ok (pgrounddown va) = true
    · -- the pass copies `n` bytes, to the end of the page or of the request
      have hstep : pageLoop ok move (fuel + 1) buf done va len =
          pageLoop ok move fuel (move buf done va (min (pgsize - (va - pgrounddown va)) len))
            (done + min (pgsize - (va - pgrounddown va)) len) (pgrounddown va + pgsize)
            (len - min (pgsize - (va - pgrounddown va)) len) := by
        simp only [pageLoop, if_neg hlen, if_pos hok]
      have hpage : pgsize - (va - pgrounddown va) > 0 := by
        have := lt_pgrounddown_add va
        have := pgrounddown_le va
        omega
      generalize hn : min (pgsize - (va - pgrounddown va)) len = n at hstep
      obtain ⟨k, hk, hrun, hpre, hfail⟩ := ih (show len - n ≤ fuel by omega) (move buf done va n) (done + n) (pgrounddown va + pgsize)
      by_cases hlast : n = len
      · -- the last pass: nothing is left for the rest of the loop
        obtain rfl : k = 0 := by omega
        refine ⟨n, by omega, ?_, ?_, by omega⟩
        · rw [hstep, hrun, hzero, if_pos (by omega), if_pos hlast]
        · intro i hi
          rwa [pgrounddown_add_of_lt (by omega)]
      · -- the pass ends at the page boundary, where the rest of the loop starts
        have hnext : pgrounddown va + pgsize = va + n := by
          have := pgrounddown_le va
          omega
        rw [hnext] at hstep hrun hpre hfail
        refine ⟨n + k, by omega, ?_, ?_, ?_⟩
        · rw [hstep, hrun, hadd]
          by_cases hall : k = len - n
          · rw [if_pos hall, if_pos (by omega)]
          · rw [if_neg hall, if_neg (by omega)]
        · intro i hi
          by_cases hin : i < n
          · rwa [pgrounddown_add_of_lt (by omega)]
          · have := hpre (i - n) (by omega)
            rwa [show va + n + (i - n) = va + i by omega] at this
        · intro hlt
          have := hfail (by omega)
          rwa [Nat.add_assoc] at this
    · refine ⟨0, Nat.zero_le _, ?_, by simp, fun _ => by simpa using hok⟩
      simp only [pageLoop, if_neg hlen, if_neg hok, hzero, if_neg (Ne.symm hlen)]

/-- Two loops whose moves agree on every pass the loop can make, on a page that passes `ok` and within
that page, are one loop. -/
theorem pageLoop_congr {move' : β → Nat → Nat → Nat → β}
    (h : ∀ buf done va n, ok (pgrounddown va) = true → n ≤ pgsize - (va - pgrounddown va) →
      move buf done va n = move' buf done va n) :
    ∀ fuel buf done va len, pageLoop ok move fuel buf done va len = pageLoop ok move' fuel buf done va len
  | 0, _, _, _, _ => rfl
  | fuel + 1, buf, done, va, len => by
    simp only [pageLoop]
    split_ifs with hlen hok
    · rfl
    · rw [h buf done va _ hok (Nat.min_le_left _ _), pageLoop_congr h fuel]
    · rfl

/-- The code the loop returns depends only on which pages pass `ok`. -/
theorem pageLoop_snd {γ : Type*} (move' : γ → Nat → Nat → Nat → γ) :
    ∀ fuel (buf : β) (buf' : γ) done va len,
      (pageLoop ok move fuel buf done va len).2 = (pageLoop ok move' fuel buf' done va len).2
  | 0, _, _, _, _, _ => rfl
  | fuel + 1, buf, buf', done, va, len => by
    simp only [pageLoop]
    split_ifs with hlen hok
    · rfl
    · exact pageLoop_snd move' fuel _ _ _ _ _
    · rfl

end Loop

/-- `copyin(pagetable, dst, srcva, len)` into the kernel bytes `dst` from index `d` on. -/
def copyin (u : UserMem) (dst : Nat → UInt8) (d srcva len : Nat) : (Nat → UInt8) × Int :=
  pageLoop u.readable (fun buf done va n => copy buf (d + done) (fun j => u.byte (va + j)) n) len dst 0 srcva len

/-- `copyout(pagetable, dstva, src, len)` from the kernel bytes `src`. -/
def copyout (u : UserMem) (dstva : Nat) (src : Nat → UInt8) (len : Nat) : UserMem × Int :=
  pageLoop u.writable (fun u' done va n => { u' with byte := copy u'.byte va (fun j => src (done + j)) n }) len
    u 0 dstva len

/-- `either_copyin(dst, user_src, src, len)`, into `dst` from index `d` on. -/
def eitherCopyin (dst : Nat → UInt8) (d : Nat) (user_src : Bool) (src len : Nat) (mem : Memory) :
    (Nat → UInt8) × Int :=
  if user_src then copyin mem.user dst d src len
  else (copy dst d (fun j => mem.kernel (src + j)) len, 0)

def eitherCopyout (user_dst : Bool) (dst : Nat) (src : Nat → UInt8) (len : Nat) (mem : Memory) : Memory × Int :=
  if user_dst then
    let r := copyout mem.user dst src len
    ({ mem with user := r.1 }, r.2)
  else ({ mem with kernel := copy mem.kernel dst src len }, 0)

/-- `copyin` copies the bytes of the user range up to the first page `walkaddr` refuses, and fails
exactly when that page lies inside the range. -/
theorem copyin_spec (u : UserMem) (dst : Nat → UInt8) (d srcva len : Nat) :
    ∃ k ≤ len, copyin u dst d srcva len = (copy dst d (fun j => u.byte (srcva + j)) k, if k = len then 0 else -1) ∧
      (∀ i < k, u.readable (pgrounddown (srcva + i))) ∧ (k < len → u.readable (pgrounddown (srcva + k)) = false) := by
  have hadd : ∀ buf done va n m,
      copy (copy buf (d + done) (fun j => u.byte (va + j)) n) (d + (done + n)) (fun j => u.byte (va + n + j)) m =
        copy buf (d + done) (fun j => u.byte (va + j)) (n + m) := by
    intro buf done va n m
    rw [← copy_copy]
    simp only [Nat.add_assoc]
  have := @pageLoop_spec _ u.readable (fun buf done va n => copy buf (d + done) (fun j => u.byte (va + j)) n)
    (fun _ _ _ => copy_zero) hadd len len (Nat.le_refl len) dst 0 srcva
  simpa [copyin] using this

/-- `copyout` writes the bytes of the user range up to the first page it may not write, and fails
exactly when that page lies inside the range. -/
theorem copyout_spec (u : UserMem) (dstva : Nat) (src : Nat → UInt8) (len : Nat) :
    ∃ k ≤ len, copyout u dstva src len = ({ u with byte := copy u.byte dstva src k }, if k = len then 0 else -1) ∧
      (∀ i < k, u.writable (pgrounddown (dstva + i))) ∧ (k < len → u.writable (pgrounddown (dstva + k)) = false) := by
  have hadd : ∀ (u' : UserMem) done va n m,
      ({ u' with byte := copy (copy u'.byte va (fun j => src (done + j)) n) (va + n) (fun j => src (done + n + j)) m } :
        UserMem) = { u' with byte := copy u'.byte va (fun j => src (done + j)) (n + m) } := by
    intro u' done va n m
    rw [← copy_copy]
    simp only [Nat.add_assoc]
  have hzero : ∀ (u' : UserMem) done va,
      ({ u' with byte := copy u'.byte va (fun j => src (done + j)) 0 } : UserMem) = u' := by
    intro u' done va
    simp
  have := @pageLoop_spec _ u.writable (fun u' done va n => { u' with byte := copy u'.byte va (fun j => src (done + j)) n })
    hzero hadd len len (Nat.le_refl len) u 0 dstva
  simpa [copyout] using this

/-- A one-byte `copyin` succeeds exactly when the byte's page is readable, and then stores the byte. -/
theorem copyin_one (u : UserMem) (dst : Nat → UInt8) (d srcva : Nat) :
    copyin u dst d srcva 1 =
      if u.readable (pgrounddown srcva) then (copy dst d (fun j => u.byte (srcva + j)) 1, 0) else (dst, -1) := by
  obtain ⟨k, hk, hcopy, hpre, hfail⟩ := copyin_spec u dst d srcva 1
  rw [hcopy]
  rcases Nat.le_one_iff_eq_zero_or_eq_one.mp hk with rfl | rfl
  · have hno : u.readable (pgrounddown srcva) = false := by simpa using hfail (by omega)
    simp [hno]
  · have hyes : u.readable (pgrounddown srcva) = true := by simpa using hpre 0 (by omega)
    simp [hyes]

/-- A one-byte `copyout` succeeds exactly when the byte's page is writable, and then stores the byte. -/
theorem copyout_one (u : UserMem) (dstva : Nat) (src : Nat → UInt8) :
    copyout u dstva src 1 =
      if u.writable (pgrounddown dstva) then ({ u with byte := copy u.byte dstva src 1 }, 0) else (u, -1) := by
  obtain ⟨k, hk, hcopy, hpre, hfail⟩ := copyout_spec u dstva src 1
  rw [hcopy]
  rcases Nat.le_one_iff_eq_zero_or_eq_one.mp hk with rfl | rfl
  · have hno : u.writable (pgrounddown dstva) = false := by simpa using hfail (by omega)
    simp [hno]
  · have hyes : u.writable (pgrounddown dstva) = true := by simpa using hpre 0 (by omega)
    simp [hyes]

/-- The kernel or user bytes that a successful `either_copyout` leaves. -/
def Memory.put (mem : Memory) (user_dst : Bool) (dst : Nat) (src : Nat → UInt8) (len : Nat) : Memory :=
  if user_dst then { mem with user := { mem.user with byte := copy mem.user.byte dst src len } }
  else { mem with kernel := copy mem.kernel dst src len }

theorem Memory.put_put (mem : Memory) (user_dst : Bool) (dst : Nat) (src : Nat → UInt8) (m k : Nat) :
    (mem.put user_dst dst src m).put user_dst (dst + m) (fun j => src (m + j)) k = mem.put user_dst dst src (m + k) := by
  cases user_dst <;> simp [Memory.put, copy_copy]

theorem Memory.put_congr {mem : Memory} {user_dst : Bool} {dst : Nat} {src src' : Nat → UInt8} {len : Nat}
    (h : ∀ k < len, src k = src' k) : mem.put user_dst dst src len = mem.put user_dst dst src' len := by
  cases user_dst <;> simp [Memory.put, copy_congr h]

theorem Memory.put_zero (mem : Memory) (user_dst : Bool) (dst : Nat) (src : Nat → UInt8) :
    mem.put user_dst dst src 0 = mem := by
  cases user_dst <;> simp [Memory.put]

/-- An `either_copyout` that does not fail has copied everything. -/
theorem eitherCopyout_of_ne {user_dst : Bool} {dst : Nat} {src : Nat → UInt8} {len : Nat} {mem : Memory}
    (h : (eitherCopyout user_dst dst src len mem).2 ≠ -1) :
    eitherCopyout user_dst dst src len mem = (mem.put user_dst dst src len, 0) := by
  cases user_dst with
  | false => rfl
  | true =>
    obtain ⟨k, hk, hcopy, -, -⟩ := copyout_spec mem.user dst src len
    simp only [eitherCopyout, if_true, hcopy] at h ⊢
    by_cases hall : k = len
    · subst hall
      simp [Memory.put]
    · simp [hall] at h

/-- The byte at `a` that `either_copyin` reads: the process's or the kernel's. -/
def Memory.get (mem : Memory) (user_src : Bool) (a : Nat) : UInt8 := if user_src then mem.user.byte a else mem.kernel a

/-- `either_copyin` copies a prefix of the source range, all of it unless it fails. -/
theorem eitherCopyin_spec (dst : Nat → UInt8) (d : Nat) (user_src : Bool) (src len : Nat) (mem : Memory) :
    ∃ k ≤ len, eitherCopyin dst d user_src src len mem =
      (copy dst d (fun j => mem.get user_src (src + j)) k, if k = len then 0 else -1) := by
  cases user_src with
  | false => exact ⟨len, Nat.le_refl len, by simp [eitherCopyin, Memory.get]⟩
  | true =>
    obtain ⟨k, hk, hcopy, -, -⟩ := copyin_spec mem.user dst d src len
    exact ⟨k, hk, by simpa [eitherCopyin, Memory.get] using hcopy⟩

end Xv6.Vm
