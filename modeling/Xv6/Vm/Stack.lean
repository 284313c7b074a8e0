import Xv6.Param
import Xv6.Vm.Pagetable
import Xv6.Library.LittleEndian

/-!
# The initial user stack `exec` builds

After `uvmalloc` has mapped two pages below the new size `sz`, `exec` clears `PTE_U` on the lower one
(`uvmclear`), the guard page, and builds the arguments of `main` in the upper one, the stack page
from `stackbase = sz - PGSIZE` to `sz`. Each string of `argv` is pushed with its NUL below the stack
pointer, which is then rounded down to 16 (`pushArgs`); then the `argc + 1` words of the pointer array
`ustack`, ending in `0`, are pushed the same way. Each push checks the stack pointer against
`stackbase` after the rounding.

The placement is computed apart from machine words by `strAddrs`, `strsBottom` and `arrayAddr`, and
`Fits` says that it stays in the stack page. `exec_stack_spec` states that the setup fails exactly
when the arguments do not fit and otherwise leaves the pointer array at the returned stack pointer,
pointing to byte-exact copies of the strings, all within the stack page and apart from each other.
The proof takes one push at a time: `pushArgs_cons` says what one push does on a writable stack page,
and the loop's properties follow by induction on `argv`.
-/

namespace Xv6.Vm.Paged

open Bytes LittleEndian

/-! ## The model -/

/-- `strlen(s)`: the bytes before the first NUL. -/
def strlen (s : List UInt8) : Nat := (s.takeWhile (· ≠ 0)).length

/-- The kernel buffer `argv[argc]` as `copyout` reads it, byte `j` at index `j`. -/
def cstr (s : List UInt8) (j : Nat) : UInt8 := s.getD j 0

/-- `a - b` on `uint64` operands. -/
def usub (a b : Nat) : Nat := (a + 2 ^ 64 - b) % 2 ^ 64

/-- `sp -= n; sp -= sp % 16;`: one push of `n` bytes onto the stack. -/
def pushDown (sp n : Nat) : Nat :=
  let sp := usub sp n
  sp - sp % 16

/-- The table with `*pte &= ~PTE_U` done on `pte`, the PTE of `va`'s page. -/
def clearU (pt : PageTable) (va : Nat) (pte : UInt64) : PageTable :=
  ⟨Function.update pt.leaf (va / pgsize) (some (pte &&& ~~~pteU))⟩

/-- `uvmclear(pagetable, va)`. `none` is the panic of `walk` at or above `MAXVA`, or of `uvmclear`
when `walk` finds no PTE. -/
def uvmclear (pt : PageTable) (va : Nat) : Option PageTable :=
  if va ≥ maxva then none
  else
    match walk pt va with
    | none => none
    | some pte => some (clearU pt va pte)

/-- The loop of `exec` that pushes the argument strings, with the strings still to push, the stack
pointer, `ustack[0..argc)` and physical memory. `none` is `goto bad`. -/
def pushArgs (pt : PageTable) (stackbase : Nat) :
    List (List UInt8) → Nat → List Nat → (Nat → UInt8) → Option (Nat × List Nat × (Nat → UInt8))
  | [], sp, ustack, phys => some (sp, ustack, phys)
  | a :: argv, sp, ustack, phys =>
    if ustack.length ≥ maxarg then none
    else
      let sp := pushDown sp (strlen a + 1)
      if sp < stackbase then none
      else
        let r := copyout pt phys sp (cstr a) (strlen a + 1)
        if r.2 < 0 then none else pushArgs pt stackbase argv sp (ustack ++ [sp]) r.1

/-- The bytes of `ustack[0..argc]`, with `ustack[argc] = 0`, as the `uint64`s of a RISC-V
(little-endian) array. -/
def ustackBytes (ustack : List Nat) (j : Nat) : UInt8 := leByte ((ustack ++ [0]).getD (j / 8) 0) (j % 8)

/-- What a successful stack setup leaves: `argc`, which `exec` returns, the stack pointer, which goes to
both `trapframe->a1` and `trapframe->sp`, and the page table and memory of the new image. -/
structure UserStack where
  argc : Nat
  sp : Nat
  pagetable : PageTable
  mem : Nat → UInt8

/-- The stack setup of `exec`, from the `uvmclear` of the guard page to the copy of the pointer array,
once `uvmalloc` has grown the image to `sz`. -/
def execStack (pt : PageTable) (phys : Nat → UInt8) (sz : Nat) (argv : List (List UInt8)) :
    Option UserStack := do
  let pt ← uvmclear pt (usub sz (2 * pgsize))
  let stackbase := usub sz pgsize
  let (sp, ustack, phys) ← pushArgs pt stackbase argv sz [] phys
  let sp := pushDown sp ((ustack.length + 1) * 8)
  if sp < stackbase then none
  else
    let r := copyout pt phys sp (ustackBytes ustack) ((ustack.length + 1) * 8)
    if r.2 < 0 then none else some ⟨ustack.length, sp, pt, r.1⟩

/-! ## The placement

Where the arguments go, computed on natural numbers: each string below the one before by its length
and NUL, rounded down to 16, and the pointer array below the last string. -/

/-- `n` bytes below `sp`, rounded down to 16. -/
def place (sp n : Nat) : Nat := (sp - n) / 16 * 16

/-- The addresses of the strings pushed from `sp`. -/
def strAddrs : Nat → List (List UInt8) → List Nat
  | _, [] => []
  | sp, a :: argv => place sp (strlen a + 1) :: strAddrs (place sp (strlen a + 1)) argv

/-- The stack pointer after the strings pushed from `sp`. -/
def strsBottom : Nat → List (List UInt8) → Nat
  | sp, [] => sp
  | sp, a :: argv => strsBottom (place sp (strlen a + 1)) argv

/-- The address of the pointer array, the stack pointer `exec` returns. -/
def arrayAddr (sz : Nat) (argv : List (List UInt8)) : Nat :=
  place (strsBottom sz argv) ((argv.length + 1) * 8)

/-- The strings and the pointer array fit in the stack page below `sz`. -/
def Fits (sz : Nat) (argv : List (List UInt8)) : Prop := sz - pgsize ≤ arrayAddr sz argv

instance (sz : Nat) (argv : List (List UInt8)) : Decidable (Fits sz argv) :=
  inferInstanceAs (Decidable (_ ≤ _))

/-! ## Strings and arithmetic -/

section Arith

theorem cstr_strlen : ∀ s : List UInt8, cstr s (strlen s) = 0
  | [] => rfl
  | b :: s => by
    by_cases hb : b = 0
    · simp [strlen, cstr, hb]
    · have hlen : strlen (b :: s) = strlen s + 1 := by simp [strlen, hb]
      rw [hlen, cstr, List.getD_cons_succ]
      exact cstr_strlen s

theorem maxva_add_pgsize_lt : maxva + pgsize < 2 ^ 64 := by
  unfold maxva pgsize
  norm_num

variable {a b sp n : Nat}

theorem usub_of_le (h : b ≤ a) (ha : a < 2 ^ 64) : usub a b = a - b := by
  unfold usub
  omega

/-- Without wrapping, a push is the placement. -/
theorem pushDown_eq_place (h : n ≤ sp) (hsp : sp < 2 ^ 64) : pushDown sp n = place sp n := by
  simp only [pushDown, place, usub_of_le h hsp]
  omega

theorem place_mod (sp n : Nat) : place sp n % 16 = 0 := by
  unfold place
  omega

theorem place_le (sp n : Nat) : place sp n ≤ sp := by
  unfold place
  omega

theorem place_add_le (h : n ≤ sp) : place sp n + n ≤ sp := by
  unfold place
  omega

theorem lt_of_place_pos (h : 0 < place sp n) : n < sp := by
  unfold place at h
  omega

end Arith

/-! ## The placement stays in order -/

section Layout

@[simp] theorem length_strAddrs : ∀ (sp : Nat) (argv : List (List UInt8)), (strAddrs sp argv).length = argv.length
  | _, [] => rfl
  | _, _ :: argv => congrArg (· + 1) (length_strAddrs _ argv)

theorem strsBottom_le : ∀ (sp : Nat) (argv : List (List UInt8)), strsBottom sp argv ≤ sp
  | _, [] => le_rfl
  | sp, a :: argv => (strsBottom_le _ argv).trans (place_le sp (strlen a + 1))

theorem arrayAddr_le_strsBottom (sz : Nat) (argv : List (List UInt8)) : arrayAddr sz argv ≤ strsBottom sz argv :=
  place_le _ _

/-- Above a bottom other than `0`, each string lies below `sp`, with its NUL, and above the bottom, at a
multiple of 16. -/
theorem strAddrs_bounds : ∀ {sp : Nat} {argv : List (List UInt8)}, 0 < strsBottom sp argv →
    ∀ i (hi : i < argv.length), strsBottom sp argv ≤ (strAddrs sp argv).getD i 0 ∧
      (strAddrs sp argv).getD i 0 + (strlen argv[i] + 1) ≤ sp ∧ (strAddrs sp argv).getD i 0 % 16 = 0
  | _, [], _, _, hi => absurd hi (Nat.not_lt_zero _)
  | sp, a :: argv, hpos, i, hi => by
    have hbot : strsBottom sp (a :: argv) = strsBottom (place sp (strlen a + 1)) argv := rfl
    have haddr : strAddrs sp (a :: argv) = place sp (strlen a + 1) :: strAddrs (place sp (strlen a + 1)) argv :=
      rfl
    have hlow := strsBottom_le (place sp (strlen a + 1)) argv
    rw [hbot] at hpos ⊢
    rw [haddr]
    cases i with
    | zero =>
      have hfit : strlen a + 1 ≤ sp := (lt_of_place_pos (by omega)).le
      exact ⟨hlow, place_add_le hfit, place_mod _ _⟩
    | succ i =>
      rw [List.getD_cons_succ, List.getElem_cons_succ]
      obtain ⟨h1, h2, h3⟩ := strAddrs_bounds hpos i (by simpa using hi)
      have := place_le sp (strlen a + 1)
      exact ⟨h1, by omega, h3⟩

/-- Each string lies below the ones pushed before it. -/
theorem strAddrs_disjoint : ∀ {sp : Nat} {argv : List (List UInt8)}, 0 < strsBottom sp argv →
    ∀ i j (hj : j < argv.length), i < j →
      (strAddrs sp argv).getD j 0 + (strlen argv[j] + 1) ≤ (strAddrs sp argv).getD i 0
  | _, [], _, _, _, hj, _ => absurd hj (Nat.not_lt_zero _)
  | sp, a :: argv, hpos, i, j, hj, hij => by
    have hbot : strsBottom sp (a :: argv) = strsBottom (place sp (strlen a + 1)) argv := rfl
    have haddr : strAddrs sp (a :: argv) = place sp (strlen a + 1) :: strAddrs (place sp (strlen a + 1)) argv :=
      rfl
    rw [hbot] at hpos
    rw [haddr]
    obtain _ | j := j
    · omega
    rw [List.getD_cons_succ, List.getElem_cons_succ]
    obtain _ | i := i
    · -- the first string is the one right above the rest
      exact (strAddrs_bounds hpos j (by simpa using hj)).2.1
    · rw [List.getD_cons_succ]
      exact strAddrs_disjoint hpos i j (by simpa using hj) (by omega)

end Layout

/-! ## The stack page -/

/-- The stack page `[base, base + PGSIZE)`: a whole page, mapped for the user with `PTE_W`. -/
structure StackPage (pt : PageTable) (base : Nat) : Prop where
  aligned : base % pgsize = 0
  writable : Writable pt base

section Page

variable {pt : PageTable} {base v : Nat}

theorem StackPage.lt_two_pow (h : StackPage pt base) : base + pgsize < 2 ^ 64 := by
  have := h.writable.1
  have := maxva_add_pgsize_lt
  omega

theorem StackPage.pgrounddown_of_mem (h : StackPage pt base) (hv : base ≤ v) (hv' : v < base + pgsize) :
    pgrounddown v = base := by
  have := h.aligned
  simp only [pgrounddown, pgsize] at this hv' ⊢
  omega

/-- On the stack page the physical addresses follow the virtual ones. -/
theorem StackPage.physAddr_eq (h : StackPage pt base) (hv : base ≤ v) (hv' : v < base + pgsize) :
    physAddr pt v = physAddr pt base + (v - base) := by
  obtain ⟨pte, hwalk, -⟩ := h.writable.2
  have hj : v - base < pgsize - (base - pgrounddown base) := by
    rw [h.pgrounddown_of_mem le_rfl (by unfold pgsize; omega)]
    omega
  rw [← physAddr_add hwalk hj, Nat.add_sub_cancel' hv]

/-- A `copyout` into the stack page is one copy. -/
theorem StackPage.copyout_eq (h : StackPage pt base) (phys src : Nat → UInt8) {va n : Nat}
    (hva : base ≤ va) (hn : va + n ≤ base + pgsize) (hn0 : 0 < n) :
    copyout pt phys va src n = (copy phys (physAddr pt va) src n, 0) := by
  obtain ⟨k, rfl⟩ : ∃ k, n = k + 1 := ⟨n - 1, by omega⟩
  have hdown : pgrounddown va = base := h.pgrounddown_of_mem hva (by omega)
  have hok : copyoutOk pt base = true := copyoutOk_iff.mpr h.writable
  have hmin : min (pgsize - (va - base)) (k + 1) = k + 1 := by omega
  simp only [copyout, pageLoop, hdown, hok, hmin, Nat.succ_ne_zero, if_false, if_true, Nat.sub_self]
  -- nothing is left for the second pass
  cases k <;> simp [pageLoop, copyoutPass]

end Page

/-! ## The string loop -/

/-- What the string loop leaves when it succeeds from `sp`: the stack pointer at the bottom of the
strings, their addresses after `ustack`, each string copied with its NUL, and every other byte of the
stack page as it was. -/
structure Pushed (pt : PageTable) (base : Nat) (argv : List (List UInt8)) (sp : Nat) (ustack : List Nat)
    (phys : Nat → UInt8) (r : Nat × List Nat × (Nat → UInt8)) : Prop where
  sp_eq : r.1 = strsBottom sp argv
  ustack_eq : r.2.1 = ustack ++ strAddrs sp argv
  frame : ∀ v, base ≤ v → v < base + pgsize → v < r.1 ∨ sp ≤ v → r.2.2 (physAddr pt v) = phys (physAddr pt v)
  strings : ∀ i (hi : i < argv.length), ∀ j ≤ strlen argv[i],
    r.2.2 (physAddr pt ((strAddrs sp argv).getD i 0 + j)) = cstr argv[i] j

section Push

variable {pt : PageTable} {base : Nat}

theorem pushArgs_nil (sp : Nat) (ustack : List Nat) (phys : Nat → UInt8) :
    pushArgs pt base [] sp ustack phys = some (sp, ustack, phys) := rfl

/-- One push of a string on the stack page: its placement, checked against `stackbase`, and its copy. -/
theorem pushArgs_cons (hpage : StackPage pt base) (hbase : pgsize ≤ base) {a : List UInt8}
    {argv : List (List UInt8)} {sp : Nat} {ustack : List Nat} {phys : Nat → UInt8}
    (hsp : base ≤ sp) (hsp' : sp ≤ base + pgsize) (hlen : strlen a < pgsize) (hargc : ustack.length < maxarg) :
    pushArgs pt base (a :: argv) sp ustack phys =
      if place sp (strlen a + 1) < base then none
      else pushArgs pt base argv (place sp (strlen a + 1)) (ustack ++ [place sp (strlen a + 1)])
        (copy phys (physAddr pt (place sp (strlen a + 1))) (cstr a) (strlen a + 1)) := by
  have hdown : pushDown sp (strlen a + 1) = place sp (strlen a + 1) :=
    pushDown_eq_place (by omega) (by have := hpage.lt_two_pow; omega)
  rw [pushArgs, if_neg (Nat.not_le.mpr hargc)]
  dsimp only
  rw [hdown]
  by_cases hlow : place sp (strlen a + 1) < base
  · rw [if_pos hlow, if_pos hlow]
  · have hfit : place sp (strlen a + 1) + (strlen a + 1) ≤ sp := place_add_le (by omega)
    rw [if_neg hlow, if_neg hlow,
      hpage.copyout_eq phys (cstr a) (Nat.not_lt.mp hlow) (by omega) (Nat.succ_pos _)]
    rfl

/-- The string loop from `sp` on the stack page fails exactly when the strings do not fit above
`stackbase`, and otherwise leaves them as `Pushed` says. By induction on the strings, one
`pushArgs_cons` each. -/
theorem pushArgs_spec (hpage : StackPage pt base) (hbase : pgsize ≤ base) :
    ∀ (argv : List (List UInt8)) (sp : Nat) (ustack : List Nat) (phys : Nat → UInt8), base ≤ sp →
      sp ≤ base + pgsize → ustack.length + argv.length < maxarg → (∀ a ∈ argv, strlen a < pgsize) →
      (pushArgs pt base argv sp ustack phys = none ↔ strsBottom sp argv < base) ∧
        ∀ r, pushArgs pt base argv sp ustack phys = some r → Pushed pt base argv sp ustack phys r
  | [], sp, ustack, phys, hsp, _, _, _ => by
    refine ⟨by simp only [pushArgs_nil, reduceCtorEq, strsBottom, false_iff]; omega, ?_⟩
    intro r hr
    rw [pushArgs_nil, Option.some.injEq] at hr
    subst hr
    exact ⟨rfl, (List.append_nil _).symm, fun _ _ _ _ => rfl, fun i hi => absurd hi (Nat.not_lt_zero _)⟩
  | a :: argv, sp, ustack, phys, hsp, hsp', hargc, hlen => by
    have hlena := hlen a List.mem_cons_self
    have hbot : strsBottom sp (a :: argv) = strsBottom (place sp (strlen a + 1)) argv := rfl
    have haddr : strAddrs sp (a :: argv) = place sp (strlen a + 1) :: strAddrs (place sp (strlen a + 1)) argv :=
      rfl
    rw [List.length_cons] at hargc
    rw [pushArgs_cons hpage hbase hsp hsp' hlena (by omega), hbot]
    have hfit : place sp (strlen a + 1) + (strlen a + 1) ≤ sp := place_add_le (by omega)
    have hplow := strsBottom_le (place sp (strlen a + 1)) argv
    generalize place sp (strlen a + 1) = p at hfit hplow hbot haddr ⊢
    by_cases hlow : p < base
    · rw [if_pos hlow]
      exact ⟨iff_of_true rfl (by omega), fun r hr => by cases hr⟩
    rw [if_neg hlow]
    obtain ⟨hnone, hsome⟩ := pushArgs_spec hpage hbase argv p (ustack ++ [p])
      (copy phys (physAddr pt p) (cstr a) (strlen a + 1)) (by omega) (by omega)
      (by rw [List.length_append, List.length_singleton]; omega) (fun b hb => hlen b (List.mem_cons_of_mem a hb))
    refine ⟨hnone, fun r hr => ?_⟩
    have hr' := hsome r hr
    -- the string copied at `p`, then the rest of the loop below it
    have hpj : ∀ j ≤ strlen a, physAddr pt (p + j) = physAddr pt p + j := by
      intro j hj
      rw [hpage.physAddr_eq (by omega) (by omega), hpage.physAddr_eq (v := p) (by omega) (by omega)]
      omega
    refine ⟨by rw [hbot]; exact hr'.sp_eq,
      by rw [hr'.ustack_eq, haddr, List.append_assoc, List.singleton_append], ?_, ?_⟩
    · intro v hv hv' hout
      rw [hr'.frame v hv hv' (by omega)]
      apply copy_of_not_mem
      rw [hpage.physAddr_eq hv hv', hpage.physAddr_eq (v := p) (by omega) (by omega)]
      have := hr'.sp_eq
      omega
    · intro i hi j hj
      rw [haddr]
      cases i with
      | zero =>
        rw [List.getD_cons_zero]
        rw [List.getElem_cons_zero] at hj ⊢
        rw [hr'.frame (p + j) (by omega) (by omega) (Or.inr (Nat.le_add_right p j)), hpj j hj,
          copy_of_mem (Nat.le_add_right _ _) (by omega), Nat.add_sub_cancel_left]
      | succ i =>
        rw [List.getD_cons_succ]
        rw [List.getElem_cons_succ] at hj ⊢
        exact hr'.strings i (by simpa using hi) j hj

end Push

/-! ## The guard page -/

section Guard

variable {pt : PageTable} {va base : Nat} {pte : UInt64}

theorem uvmclear_eq (hmax : va < maxva) (hwalk : walk pt va = some pte) : uvmclear pt va = some (clearU pt va pte) := by
  rw [uvmclear, if_neg (Nat.not_le.mpr hmax), hwalk]

theorem walk_clearU_self : walk (clearU pt va pte) va = some (pte &&& ~~~pteU) :=
  Function.update_self _ _ _

theorem walk_clearU_of_ne {v : Nat} (hv : v / pgsize ≠ va / pgsize) : walk (clearU pt va pte) v = walk pt v :=
  Function.update_of_ne hv _ _

theorem and_not_pteU_and_pteU (pte : UInt64) : pte &&& ~~~pteU &&& pteU = 0 := by
  rw [UInt64.and_assoc, show ~~~pteU &&& pteU = 0 by decide, UInt64.and_zero]

theorem and_not_pteU_and_pteV (pte : UInt64) : pte &&& ~~~pteU &&& pteV = pte &&& pteV := by
  rw [UInt64.and_assoc, show ~~~pteU &&& pteV = pteV by decide]

/-- Clearing `PTE_U` on another page keeps a stack page. -/
theorem StackPage.clearU (h : StackPage pt base) (hv : base / pgsize ≠ va / pgsize) :
    StackPage (clearU pt va pte) base :=
  ⟨h.aligned, h.writable.1, by rw [walk_clearU_of_ne hv]; exact h.writable.2⟩

end Guard

/-! ## The pointer array -/

section Array

variable {pt : PageTable} {base sp : Nat}

theorem le_of_mem_strAddrs : ∀ {sp : Nat} {argv : List (List UInt8)} {p : Nat}, p ∈ strAddrs sp argv → p ≤ sp
  | _, [], _, hp => absurd hp List.not_mem_nil
  | sp, a :: argv, p, hp => by
    rcases List.mem_cons.mp hp with rfl | hp
    · exact place_le _ _
    · exact (le_of_mem_strAddrs hp).trans (place_le _ _)

/-- The pointer array copied to `sp` on the stack page reads back, word by word, as `ustack` and then
`0`. -/
theorem StackPage.loadNat_ustackBytes (h : StackPage pt base) (phys : Nat → UInt8) (ustack : List Nat)
    (hsp : base ≤ sp)
    (hend : sp + (ustack.length + 1) * 8 ≤ base + pgsize) (hw : ∀ p ∈ ustack, p < 2 ^ 64) :
    ∀ i ≤ ustack.length,
      loadNat (userView pt (copy phys (physAddr pt sp) (ustackBytes ustack) ((ustack.length + 1) * 8))).byte
        (sp + 8 * i) 8 = (ustack ++ [0]).getD i 0 := by
  intro i hi
  apply loadNat_of_lt
  · intro k hk
    have hv : physAddr pt (sp + 8 * i + k) = physAddr pt sp + (8 * i + k) := by
      rw [h.physAddr_eq (by omega) (by omega), h.physAddr_eq (v := sp) (by omega) (by omega)]
      omega
    have hword : (8 * i + k) / 8 = i := by omega
    have hbyte : (8 * i + k) % 8 = k := by omega
    show copy _ _ _ _ (physAddr pt (sp + 8 * i + k)) = _
    rw [hv, copy_of_mem (Nat.le_add_right _ _) (by omega), Nat.add_sub_cancel_left, ustackBytes, hword, hbyte]
  · -- each word is an address below `2 ^ 64` or the closing `0`
    have hmem : ∀ p ∈ ustack ++ [0], p < 256 ^ 8 := by
      intro p hp
      rcases List.mem_append.mp hp with hp | hp
      · exact (hw p hp).trans_eq (by norm_num)
      · rw [List.mem_singleton.mp hp]
        norm_num
    rw [List.getD_eq_getElem?_getD]
    cases hget : (ustack ++ [0])[i]? with
    | none => norm_num
    | some p => exact hmem p (List.mem_of_getElem? hget)

end Array

/-! ## The stack `exec` builds -/

/-- The stack `st` that `exec` should leave below `sz` for `argv`, with `pt` the table before the
setup: the pointer array at the stack pointer, holding the addresses `strAddrs` gives and then `0`;
at each address a byte-exact copy of its string with the NUL; the pieces at multiples of 16, within
the stack page and apart; and the guard page below it mapped without `PTE_U`, no other PTE changed. -/
structure StackLayout (pt : PageTable) (sz : Nat) (argv : List (List UInt8)) (st : UserStack) : Prop where
  argc : st.argc = argv.length
  sp_eq : st.sp = arrayAddr sz argv
  sp_aligned : st.sp % 16 = 0
  sp_mem : sz - pgsize ≤ st.sp ∧ st.sp < sz
  pointers : ∀ i ≤ argv.length,
    loadNat (userView st.pagetable st.mem).byte (st.sp + 8 * i) 8 = (strAddrs sz argv ++ [0]).getD i 0
  strings : ∀ i (hi : i < argv.length),
    (∀ j < strlen argv[i],
      (userView st.pagetable st.mem).byte ((strAddrs sz argv).getD i 0 + j) = argv[i].getD j 0) ∧
    (userView st.pagetable st.mem).byte ((strAddrs sz argv).getD i 0 + strlen argv[i]) = 0
  placed : ∀ i (hi : i < argv.length), (strAddrs sz argv).getD i 0 % 16 = 0 ∧
    st.sp + (argv.length + 1) * 8 ≤ (strAddrs sz argv).getD i 0 ∧
    (strAddrs sz argv).getD i 0 + (strlen argv[i] + 1) ≤ sz
  disjoint : ∀ i j (hj : j < argv.length), i < j →
    (strAddrs sz argv).getD j 0 + (strlen argv[j] + 1) ≤ (strAddrs sz argv).getD i 0
  guard : ∃ pte, walk st.pagetable (sz - 2 * pgsize) = some pte ∧ pte &&& pteV ≠ 0 ∧ pte &&& pteU = 0
  others : ∀ va, va / pgsize ≠ (sz - 2 * pgsize) / pgsize → walk st.pagetable va = walk pt va

section Exec

variable {pt : PageTable} {gpte : UInt64} {sz : Nat} {argv : List (List UInt8)} {phys : Nat → UInt8}

/-- Once the strings are pushed and the arguments fit, the copy of the pointer array leaves the stack
`StackLayout` describes. -/
theorem stackLayout_of_pushed {r : Nat × List Nat × (Nat → UInt8)}
    (hpage : StackPage (clearU pt (sz - 2 * pgsize) gpte) (sz - pgsize)) (hsz2 : 2 * pgsize ≤ sz)
    (hgV : gpte &&& pteV ≠ 0) (hfits : Fits sz argv)
    (hr : Pushed (clearU pt (sz - 2 * pgsize) gpte) (sz - pgsize) argv sz [] phys r) :
    StackLayout pt sz argv ⟨argv.length, arrayAddr sz argv, clearU pt (sz - 2 * pgsize) gpte,
      copy r.2.2 (physAddr (clearU pt (sz - 2 * pgsize) gpte) (arrayAddr sz argv))
        (ustackBytes (strAddrs sz argv)) ((argv.length + 1) * 8)⟩ := by
  have hpg : pgsize ≤ sz - pgsize := by omega
  have hbot := arrayAddr_le_strsBottom sz argv
  have hsz : sz < 2 ^ 64 := by have := hpage.lt_two_pow; omega
  unfold Fits at hfits
  -- the array lies right below the strings
  have hpos : 0 < arrayAddr sz argv := by
    simp only [pgsize] at hpg
    omega
  have harr : arrayAddr sz argv + (argv.length + 1) * 8 ≤ strsBottom sz argv :=
    place_add_le (lt_of_place_pos hpos).le
  have htop := strsBottom_le sz argv
  have hbounds := strAddrs_bounds (hpos.trans_le hbot)
  have hphys : ∀ v, strsBottom sz argv ≤ v → v < sz → copy r.2.2
      (physAddr (clearU pt (sz - 2 * pgsize) gpte) (arrayAddr sz argv)) (ustackBytes (strAddrs sz argv))
      ((argv.length + 1) * 8) (physAddr (clearU pt (sz - 2 * pgsize) gpte) v) =
        r.2.2 (physAddr (clearU pt (sz - 2 * pgsize) gpte) v) := by
    intro v hv hv'
    apply copy_of_le
    rw [hpage.physAddr_eq (v := v) (by omega) (by omega),
      hpage.physAddr_eq (v := arrayAddr sz argv) (by omega) (by omega)]
    omega
  have hstr : ∀ i (hi : i < argv.length), ∀ j ≤ strlen argv[i],
      (userView (clearU pt (sz - 2 * pgsize) gpte) (copy r.2.2
        (physAddr (clearU pt (sz - 2 * pgsize) gpte) (arrayAddr sz argv)) (ustackBytes (strAddrs sz argv))
        ((argv.length + 1) * 8))).byte ((strAddrs sz argv).getD i 0 + j) = cstr argv[i] j := by
    intro i hi j hj
    obtain ⟨h1, h2, -⟩ := hbounds i hi
    show copy _ _ _ _ _ = _
    rw [hphys _ (by omega) (by omega), hr.strings i hi j hj]
  refine ⟨rfl, rfl, place_mod _ _, ⟨hfits, by dsimp only; omega⟩, ?_, ?_, ?_, strAddrs_disjoint (hpos.trans_le hbot),
    ?_, ?_⟩
  · -- the words of the array
    have hload := hpage.loadNat_ustackBytes r.2.2 (strAddrs sz argv) hfits
      (by rw [length_strAddrs]; omega) (fun p hp => by have := le_of_mem_strAddrs hp; omega)
    rw [length_strAddrs] at hload
    exact hload
  · intro i hi
    exact ⟨fun j hj => hstr i hi j hj.le, (hstr i hi _ le_rfl).trans (cstr_strlen _)⟩
  · intro i hi
    obtain ⟨h1, h2, h3⟩ := hbounds i hi
    exact ⟨h3, by dsimp only; omega, h2⟩
  · exact ⟨gpte &&& ~~~pteU, walk_clearU_self, by rw [and_not_pteU_and_pteV]; exact hgV,
      and_not_pteU_and_pteU gpte⟩
  · intro va hva
    exact walk_clearU_of_ne hva

/-- The stack setup of `exec`, once `uvmalloc` has mapped the guard page and a writable stack page
below `sz`, for at most `MAXARG - 1` strings each shorter than a page, as `sys_exec` passes them: it
fails exactly when the arguments do not fit in the stack page, and otherwise leaves the stack that
`StackLayout` describes. -/
theorem exec_stack_spec (pt : PageTable) (phys : Nat → UInt8) (sz : Nat) (argv : List (List UInt8))
    (hsz : sz % pgsize = 0) (hsz2 : 2 * pgsize ≤ sz)
    (hguard : ∃ pte, walk pt (sz - 2 * pgsize) = some pte ∧ pte &&& pteV ≠ 0)
    (hstack : Writable pt (sz - pgsize)) (hargc : argv.length ≤ maxarg - 1)
    (hlen : ∀ a ∈ argv, strlen a < pgsize) :
    (execStack pt phys sz argv = none ↔ ¬Fits sz argv) ∧
      ∀ st, execStack pt phys sz argv = some st → StackLayout pt sz argv st := by
  obtain ⟨gpte, hgwalk, hgV⟩ := hguard
  have hmax := hstack.1
  have hsz64 : sz < 2 ^ 64 := by
    have := maxva_add_pgsize_lt
    omega
  have hpage : StackPage (clearU pt (sz - 2 * pgsize) gpte) (sz - pgsize) := by
    apply StackPage.clearU ⟨by simp only [pgsize] at hsz hsz2 ⊢; omega, hstack⟩
    simp only [pgsize] at hsz2 ⊢
    omega
  obtain ⟨hnone, hsome⟩ := pushArgs_spec hpage (by omega) argv sz [] phys (by omega) (by omega)
    (by simp only [List.length_nil, maxarg] at hargc ⊢; omega) hlen
  rw [execStack, usub_of_le (by omega) hsz64, uvmclear_eq (by omega) hgwalk, usub_of_le (by omega) hsz64]
  simp only [Option.bind_eq_bind, Option.bind_some]
  cases hpush : pushArgs (clearU pt (sz - 2 * pgsize) gpte) (sz - pgsize) argv sz [] phys with
  | none =>
    -- the strings alone do not fit
    have hlow := hnone.mp hpush
    rw [Option.bind_none]
    refine ⟨iff_of_true rfl fun hfits => ?_, fun st h => by cases h⟩
    have := arrayAddr_le_strsBottom sz argv
    unfold Fits at hfits
    omega
  | some r =>
    obtain ⟨sp, ustack, mem⟩ := r
    have hr := hsome _ hpush
    have hsp : sp = strsBottom sz argv := hr.sp_eq
    have hus : ustack = strAddrs sz argv := by simpa using hr.ustack_eq
    have hfit1 : sz - pgsize ≤ strsBottom sz argv := Nat.not_lt.mp fun h => by simp [hnone.mpr h] at hpush
    have htop := strsBottom_le sz argv
    subst hsp hus
    rw [Option.bind_some]
    dsimp only
    have harr : pushDown (strsBottom sz argv) ((argv.length + 1) * 8) = arrayAddr sz argv := by
      apply pushDown_eq_place _ (by omega)
      simp only [maxarg, pgsize] at hargc hsz2 hfit1
      omega
    rw [length_strAddrs, harr]
    by_cases hfits : Fits sz argv
    · have hend : arrayAddr sz argv + (argv.length + 1) * 8 ≤ sz - pgsize + pgsize := by
        have hpos : 0 < arrayAddr sz argv := by
          unfold Fits at hfits
          simp only [pgsize] at hfits hsz2
          omega
        have := place_add_le (lt_of_place_pos hpos).le
        unfold arrayAddr at this ⊢
        omega
      rw [if_neg (Nat.not_lt.mpr hfits), hpage.copyout_eq _ _ hfits hend (by omega)]
      dsimp only
      rw [if_neg (lt_irrefl 0)]
      refine ⟨iff_of_false (Option.some_ne_none _) (not_not.mpr hfits), fun st hst => ?_⟩
      rw [Option.some.injEq] at hst
      subst hst
      exact stackLayout_of_pushed hpage hsz2 hgV hfits hr
    · rw [if_pos (Nat.lt_of_not_le hfits)]
      exact ⟨iff_of_true rfl hfits, fun st h => by cases h⟩

/-- Virtual pages `0` and `1` mapped `PTE_V | PTE_U | PTE_W` to two physical pages, as `uvmalloc`
leaves the stack of an image of size `0`. -/
def twoPageTable : PageTable :=
  ⟨fun vpn => if vpn < 2 then some (pteV ||| pteU ||| pteW ||| ((0x80000 + vpn.toUInt64) <<< 10)) else none⟩

theorem exec_stack_spec_two_pages :
    2 * pgsize % pgsize = 0 ∧ 2 * pgsize ≤ 2 * pgsize ∧
      (∃ pte, walk twoPageTable (2 * pgsize - 2 * pgsize) = some pte ∧ pte &&& pteV ≠ 0) ∧
      Writable twoPageTable (2 * pgsize - pgsize) ∧ [[(104 : UInt8), 105]].length ≤ maxarg - 1 ∧
      (∀ a ∈ [[(104 : UInt8), 105]], strlen a < pgsize) ∧
      ((execStack twoPageTable (fun _ => 0) (2 * pgsize) [[104, 105]] = none ↔ ¬Fits (2 * pgsize) [[104, 105]]) ∧
        ∀ st, execStack twoPageTable (fun _ => 0) (2 * pgsize) [[104, 105]] = some st →
          StackLayout twoPageTable (2 * pgsize) [[104, 105]] st) := by
  have hguard : ∃ pte, walk twoPageTable (2 * pgsize - 2 * pgsize) = some pte ∧ pte &&& pteV ≠ 0 :=
    ⟨_, rfl, by decide⟩
  have hstack : Writable twoPageTable (2 * pgsize - pgsize) :=
    ⟨by decide, _, rfl, by decide, by decide, by decide⟩
  have hlen : ∀ a ∈ [[(104 : UInt8), 105]], strlen a < pgsize := by decide
  exact ⟨by decide, le_rfl, hguard, hstack, by decide, hlen,
    exec_stack_spec twoPageTable (fun _ => 0) (2 * pgsize) [[104, 105]] (by decide) le_rfl hguard hstack
      (by decide) hlen⟩

end Exec

end Xv6.Vm.Paged
