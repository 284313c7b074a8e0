import Xv6.Vm.Copy
import Xv6.Library.ListSeg
import Xv6.Library.Run

/-!
# The page allocator: `kinit`, `freerange`, `kfree` and `kalloc`

`kalloc.c` keeps the free pages of physical memory on a list threaded through the pages: the first
word of a free page, `struct run`'s `next`, holds the next free page, and `kmem.freelist` the first.
Memory is seen through that first word of each page (`mem`), which `kfree`'s and `kalloc`'s
`memset`s overwrite with junk and a page's owner may overwrite at will. `end`, the first address
after the kernel, is the parameter `kend`.

`kinit` frees every whole page from `PGROUNDUP(end)` to `PHYSTOP` and leaves them on the list, the
highest first (`kinit_free_list`). From there, over every interleaving of `kalloc`, `kfree` of a page
its caller holds, and the holders' writes to their pages, each page is exactly once either on the
free list or held, `kalloc` returns `0` only when every page is held, a page it returns is held by
nobody, and `kfree` of a held page does not panic (`free_list_partition`). The pages handed out and
not freed since are a record of the model, `owned`, which no variable of `kalloc.c` holds.
-/

namespace Xv6.Vm

open ListSeg Transition

/-- `KERNBASE`. -/
def kernbase : Nat := 0x80000000

/-- `PHYSTOP`: the end of the RAM the kernel uses. -/
def phystop : Nat := kernbase + 128 * 1024 * 1024

/-- `PGROUNDUP(a)`, that is `(a + PGSIZE - 1) & ~(PGSIZE - 1)`. -/
def pgroundup (a : Nat) : Nat := pgrounddown (a + pgsize - 1)

/-- The first word of a page after `memset(pa, 1, PGSIZE)`. -/
def junkFree : Nat := 0x0101010101010101

/-- The first word of a page after `memset(r, 5, PGSIZE)`. -/
def junkAlloc : Nat := 0x0505050505050505

structure Kmem where
  freelist : Nat
  /-- the first word of the page at each address -/
  mem : Nat → Nat
  /-- the pages handed out by `kalloc` and not freed since -/
  owned : List Nat

section Alloc

variable (kend : Nat)

/-- `kfree(pa)`; `none` is the panic "kfree". -/
def kfree (s : Kmem) (pa : Nat) : Option Kmem :=
  if pa % pgsize ≠ 0 ∨ pa < kend ∨ phystop ≤ pa then none
  else
    let s := { s with mem := Function.update s.mem pa junkFree }
    some { s with mem := Function.update s.mem pa s.freelist, freelist := pa }

/-- `kalloc()`: the first free page, or `0`. -/
def kalloc (s : Kmem) : Nat × Kmem :=
  let r := s.freelist
  let s := if r ≠ 0 then { s with freelist := s.mem r } else s
  if r ≠ 0 then (r, { s with mem := Function.update s.mem r junkAlloc }) else (r, s)

/-- The loop of `freerange`: `for(; p + PGSIZE <= pa_end; p += PGSIZE) kfree(p);`. -/
def freerangeLoop (pa_end : Nat) (s : Kmem) (p : Nat) : Option Kmem :=
  if h : p + pgsize ≤ pa_end then (kfree kend s p).bind fun s => freerangeLoop pa_end s (p + pgsize)
  else some s
termination_by pa_end - p
decreasing_by simp only [pgsize] at h ⊢; omega

def freerange (s : Kmem) (pa_start pa_end : Nat) : Option Kmem :=
  freerangeLoop kend pa_end s (pgroundup pa_start)

/-- `kinit()` on memory `mem`, with `kmem.freelist` still `0`. -/
def kinit (mem : Nat → Nat) : Option Kmem := freerange kend ⟨0, mem, []⟩ kend phystop

end Alloc

/-- The whole pages from `p` up to `PHYSTOP`. -/
def pagesFrom (p : Nat) : List Nat := (List.range ((phystop - p) / pgsize)).map fun k => p + k * pgsize

/-- The pages `kinit` frees. -/
def allPages (kend : Nat) : List Nat := pagesFrom (pgroundup kend)

inductive Event
  | kalloc (r : Nat)
  | kfree (pa : Nat)
  /-- the holder of page `pa` writes its first word -/
  | write (pa v : Nat)

/-- One call on any CPU, each under `kmem.lock`; `kfree` is called on a page its caller holds, as
`kfree`'s comment asks. -/
inductive Step (kend : Nat) : Kmem → Event → Kmem → Prop
  | kalloc {s t : Kmem} {r : Nat} :
    kalloc s = (r, t) → Step kend s (.kalloc r) { t with owned := if r = 0 then t.owned else r :: t.owned }
  | kfree {s t : Kmem} {pa : Nat} :
    pa ∈ s.owned → kfree kend s pa = some t → Step kend s (.kfree pa) { t with owned := t.owned.erase pa }
  | write {s : Kmem} {pa v : Nat} : pa ∈ s.owned → Step kend s (.write pa v) { s with mem := Function.update s.mem pa v }

/-! ### The pages -/

theorem pagesFrom_of_lt {p : Nat} (h : phystop < p + pgsize) : pagesFrom p = [] := by
  have : (phystop - p) / pgsize = 0 := Nat.div_eq_of_lt (by simp only [pgsize] at h ⊢; omega)
  simp [pagesFrom, this]

theorem pagesFrom_cons {p : Nat} (h : p + pgsize ≤ phystop) : pagesFrom p = p :: pagesFrom (p + pgsize) := by
  have hn : (phystop - p) / pgsize = (phystop - (p + pgsize)) / pgsize + 1 := by
    simp only [pgsize] at h ⊢
    omega
  rw [pagesFrom, pagesFrom, hn, List.range_succ_eq_map, List.map_cons, List.map_map]
  simp only [Nat.zero_mul, Nat.add_zero, List.cons.injEq, true_and]
  refine List.map_congr_left fun k _ => ?_
  simp only [Function.comp_apply, Nat.succ_eq_add_one]
  ring

theorem mem_pagesFrom {p x : Nat} : x ∈ pagesFrom p ↔ ∃ k, x = p + k * pgsize ∧ x + pgsize ≤ phystop := by
  simp only [pagesFrom, List.mem_map, List.mem_range]
  constructor
  · rintro ⟨k, hk, rfl⟩
    refine ⟨k, rfl, ?_⟩
    have := (Nat.le_div_iff_mul_le (by decide : 0 < pgsize)).mp (Nat.succ_le_of_lt hk)
    simp only [pgsize, Nat.succ_mul] at this ⊢
    omega
  · rintro ⟨k, rfl, hx⟩
    refine ⟨k, Nat.lt_of_succ_le ((Nat.le_div_iff_mul_le (by decide : 0 < pgsize)).mpr ?_), rfl⟩
    simp only [pgsize, Nat.succ_mul] at hx ⊢
    omega

theorem pagesFrom_nodup (p : Nat) : (pagesFrom p).Nodup := by
  refine List.Nodup.map (fun j k hjk => ?_) List.nodup_range
  simpa [pgsize] using hjk

theorem pgroundup_aligned (a : Nat) : pgroundup a % pgsize = 0 := by
  simp [pgroundup, pgrounddown]

theorem le_pgroundup (a : Nat) : a ≤ pgroundup a := by
  simp only [pgroundup, pgrounddown, pgsize]
  omega

/-- Every page `kinit` frees passes `kfree`'s checks and is not `0`. -/
theorem valid_of_mem_allPages {kend pa : Nat} (hkend : 0 < kend) (h : pa ∈ allPages kend) :
    pa % pgsize = 0 ∧ kend ≤ pa ∧ pa < phystop ∧ pa ≠ 0 := by
  obtain ⟨k, rfl, hx⟩ := mem_pagesFrom.mp h
  have ha := pgroundup_aligned kend
  have hle := le_pgroundup kend
  refine ⟨by simp [Nat.add_mod, ha], by omega, by simp only [pgsize] at hx ⊢; omega, by omega⟩

/-! ### One call -/

section Calls

variable {kend : Nat} {s t : Kmem} {L : List Nat}

/-- `kfree` of a page that passes its checks pushes it on the list. -/
theorem kfree_push (hc : Chain s.mem 0 s.freelist L) {pa : Nat} (halign : pa % pgsize = 0) (hlo : kend ≤ pa)
    (hhi : pa < phystop) (hpa : pa ∉ L) (hnz : pa ≠ 0) :
    ∃ t, kfree kend s pa = some t ∧ Chain t.mem 0 t.freelist (pa :: L) ∧ t.owned = s.owned := by
  have hk : kfree kend s pa = some { s with mem := Function.update s.mem pa s.freelist, freelist := pa } := by
    simp [kfree, halign, Nat.not_lt.mpr hlo, hhi]
  refine ⟨_, hk, ?_, rfl⟩
  -- the junk of `memset` is overwritten by the link before anyone reads it
  have hc' : Chain (Function.update s.mem pa junkFree) 0 s.freelist L := by
    refine hc.frame fun y hy => Function.update_of_ne ?_ _ _
    rintro rfl
    exact hpa hy
  simpa using hc'.push hpa hnz

/-- `kalloc` takes the first page off the list, or returns `0` on an empty list. -/
theorem kalloc_pop (hc : Chain s.mem 0 s.freelist L) (hnd : L.Nodup) :
    (L = [] ∧ kalloc s = (0, s)) ∨
      ∃ x L', L = x :: L' ∧ (kalloc s).1 = x ∧ Chain (kalloc s).2.mem 0 (kalloc s).2.freelist L' ∧
        (kalloc s).2.owned = s.owned := by
  cases L with
  | nil =>
    have h0 : s.freelist = 0 := hc
    exact .inl ⟨rfl, by simp [kalloc, h0]⟩
  | cons x L' =>
    obtain ⟨hx, hnz, hc'⟩ := hc
    have hxL : x ∉ L' := (List.nodup_cons.mp hnd).1
    refine .inr ⟨x, L', rfl, by simp [kalloc, hx, hnz], ?_, by simp [kalloc, hx, hnz]⟩
    simp only [kalloc, hx, ne_eq, hnz, not_false_eq_true, if_true]
    exact hc'.frame fun y hy => Function.update_of_ne (fun hyx : y = x => hxL (hyx ▸ hy)) _ _

end Calls

/-! ### `kinit` -/

/-- The loop of `freerange` from an aligned page `p`, above the pages already free, pushes the pages
from `p` to `PHYSTOP` in order; the induction is on the distance left to `PHYSTOP`. -/
theorem freerangeLoop_push {kend : Nat} (hkend : 0 < kend) :
    ∀ (n p : Nat) (s : Kmem) (L : List Nat), phystop - p = n → p % pgsize = 0 → kend ≤ p →
      Chain s.mem 0 s.freelist L → (∀ x ∈ L, x < p) →
      ∃ t, freerangeLoop kend phystop s p = some t ∧ Chain t.mem 0 t.freelist ((pagesFrom p).reverse ++ L) ∧
        t.owned = s.owned := by
  intro n
  induction n using Nat.strong_induction_on with
  | _ n ih =>
  intro p s L hn halign hle hc hlt
  by_cases hroom : p + pgsize ≤ phystop
  · have hp : p < phystop := by simp only [pgsize] at hroom; omega
    obtain ⟨t1, hk, hc1, ho1⟩ := kfree_push hc halign hle hp (fun hpL => lt_irrefl p (hlt p hpL)) (by omega)
    have hlt1 : ∀ x ∈ p :: L, x < p + pgsize := by
      intro x hx
      rcases List.mem_cons.mp hx with rfl | hx
      · simp [pgsize]
      · exact lt_of_lt_of_le (hlt x hx) (Nat.le_add_right _ _)
    obtain ⟨t, hloop, hct, hot⟩ := ih (phystop - (p + pgsize)) (by simp only [pgsize] at hroom ⊢; omega)
      (p + pgsize) t1 (p :: L) rfl (by rw [Nat.add_mod_right]; exact halign) (by omega) hc1 hlt1
    refine ⟨t, ?_, ?_, hot.trans ho1⟩
    · rw [freerangeLoop, dif_pos hroom, hk, Option.bind_some]
      exact hloop
    · rw [pagesFrom_cons hroom, List.reverse_cons, List.append_assoc, List.singleton_append]
      exact hct
  · refine ⟨s, by rw [freerangeLoop, dif_neg hroom], ?_, rfl⟩
    rw [pagesFrom_of_lt (by omega)]
    exact hc

/-- `kinit` does not panic, and leaves every whole page from `PGROUNDUP(end)` to `PHYSTOP` on the
free list, the highest first, with no page handed out. -/
theorem kinit_free_list {kend : Nat} (hkend : 0 < kend) (mem : Nat → Nat) :
    ∃ s, kinit kend mem = some s ∧ Chain s.mem 0 s.freelist (allPages kend).reverse ∧ s.owned = [] := by
  obtain ⟨t, ht, hc, ho⟩ := freerangeLoop_push hkend _ (pgroundup kend) ⟨0, mem, []⟩ [] rfl
    (pgroundup_aligned kend) (le_pgroundup kend) rfl (by simp)
  exact ⟨t, ht, by simpa [allPages] using hc, ho⟩

theorem kinit_free_list_kernbase :
    ∃ s, kinit kernbase (fun _ => 0) = some s ∧ Chain s.mem 0 s.freelist (allPages kernbase).reverse ∧
      s.owned = [] :=
  kinit_free_list (by norm_num [kernbase]) _

/-! ### Every run -/

/-- Each page is exactly once either on the free list or held. -/
def KInv (kend : Nat) (s : Kmem) : Prop := ∃ L, Chain s.mem 0 s.freelist L ∧ (L ++ s.owned).Perm (allPages kend)

section Runs

variable {kend : Nat} {s t : Kmem}

theorem KInv.nodup {L : List Nat} (h : Chain s.mem 0 s.freelist L) (hp : (L ++ s.owned).Perm (allPages kend)) :
    (L ++ s.owned).Nodup :=
  hp.nodup_iff.mpr (pagesFrom_nodup _)

theorem KInv.step (hkend : 0 < kend) (h : KInv kend s) {e : Event} {u : Kmem} (hs : Step kend s e u) :
    KInv kend u := by
  obtain ⟨L, hc, hp⟩ := h
  have hnd := KInv.nodup hc hp
  have hdisj : ∀ pa ∈ s.owned, pa ∉ L := fun pa hpa hpaL =>
    List.disjoint_of_nodup_append hnd hpaL hpa
  cases hs with
  | @kalloc t r hr =>
    rcases kalloc_pop hc (List.nodup_append.mp hnd).1 with ⟨rfl, h0⟩ | ⟨x, L', rfl, hx, hc', ho⟩
    · -- an empty list: nothing changes
      rw [h0] at hr
      obtain ⟨rfl, rfl⟩ := Prod.mk.inj hr
      exact ⟨[], hc, hp⟩
    · -- the first page goes from the list to the held pages
      rw [hr] at hx hc' ho
      have hx0 : x ≠ 0 := (valid_of_mem_allPages hkend (hp.subset (by simp))).2.2.2
      dsimp only at hx hc' ho
      subst hx
      refine ⟨L', hc', ?_⟩
      simp only [if_neg hx0, ho]
      exact List.perm_middle.trans hp
  | @kfree t pa hpa hk =>
    have hv := valid_of_mem_allPages hkend (hp.subset (List.mem_append_right _ hpa))
    obtain ⟨t', hk', hc', ho'⟩ := kfree_push hc hv.1 hv.2.1 hv.2.2.1 (hdisj pa hpa) hv.2.2.2
    rw [hk] at hk'
    cases hk'
    refine ⟨pa :: L, hc', ?_⟩
    rw [ho']
    -- the freed page moves from the held pages to the head of the list
    have h1 : (pa :: L ++ s.owned.erase pa).Perm (L ++ pa :: s.owned.erase pa) := List.perm_middle.symm
    have h2 : (L ++ pa :: s.owned.erase pa).Perm (L ++ s.owned) := (List.perm_cons_erase hpa).symm.append_left L
    exact (h1.trans h2).trans hp
  | @write pa v hpa =>
    exact ⟨L, hc.frame fun y hy => Function.update_of_ne (fun hyp : y = pa => hdisj pa hpa (hyp ▸ hy)) _ _, hp⟩

end Runs

/-- From the state `kinit` leaves, over every interleaving of `kalloc`, `kfree` of a held page and
writes by the holders: each page from `PGROUNDUP(end)` to `PHYSTOP` is exactly once either on the
free list, which `kmem.freelist` and the pages' first words link up to `0`, or held; `kalloc`
returns `0` exactly when every page is held, and otherwise a page of that range that nobody holds;
and `kfree` of a held page does not panic. -/
theorem free_list_partition {kend : Nat} (hkend : 0 < kend) (mem : Nat → Nat) :
    ∃ s0, kinit kend mem = some s0 ∧ ∀ s, Reachable (Step kend) s0 s →
      (∃ L, Chain s.mem 0 s.freelist L ∧ (L ++ s.owned).Perm (allPages kend)) ∧
      ((kalloc s).1 = 0 ↔ ∀ pa ∈ allPages kend, pa ∈ s.owned) ∧
      ((kalloc s).1 ≠ 0 → (kalloc s).1 ∈ allPages kend ∧ (kalloc s).1 ∉ s.owned) ∧
      ∀ pa ∈ s.owned, (kfree kend s pa).isSome := by
  obtain ⟨s0, hk, hc, ho⟩ := freerangeLoop_push hkend _ (pgroundup kend) ⟨0, mem, []⟩ [] rfl
    (pgroundup_aligned kend) (le_pgroundup kend) rfl (by simp)
  have hinit : KInv kend s0 := ⟨_, hc, by simpa [ho, allPages] using List.reverse_perm _⟩
  refine ⟨s0, hk, fun s hreach => ?_⟩
  obtain ⟨L, hcs, hp⟩ := hreach.invariant (KInv kend) hinit fun _ _ _ h hs => h.step hkend hs
  have hnd := KInv.nodup hcs hp
  have hdisj : ∀ pa ∈ s.owned, pa ∉ L := fun pa hpa hpaL => List.disjoint_of_nodup_append hnd hpaL hpa
  refine ⟨⟨L, hcs, hp⟩, ?_, ?_, fun pa hpa => ?_⟩
  · rcases kalloc_pop hcs (List.nodup_append.mp hnd).1 with ⟨rfl, h0⟩ | ⟨x, L', rfl, hx, -, -⟩
    · -- an empty list: every page is held
      rw [h0]
      exact ⟨fun _ pa hpa => by simpa using hp.mem_iff.mpr hpa, fun _ => rfl⟩
    · have hxp : x ∈ allPages kend := hp.subset (by simp)
      rw [hx]
      exact ⟨fun hx0 => absurd hx0 (valid_of_mem_allPages hkend hxp).2.2.2,
        fun hall => absurd (hall x hxp) fun hxo => hdisj x hxo (by simp)⟩
  · intro hne
    rcases kalloc_pop hcs (List.nodup_append.mp hnd).1 with ⟨rfl, h0⟩ | ⟨x, L', rfl, hx, -, -⟩
    · rw [h0] at hne
      exact absurd rfl hne
    · rw [hx]
      exact ⟨hp.subset (by simp), fun hxo => hdisj x hxo (by simp)⟩
  · have hv := valid_of_mem_allPages hkend (hp.subset (List.mem_append_right _ hpa))
    obtain ⟨t, hkt, -, -⟩ := kfree_push hcs hv.1 hv.2.1 hv.2.2.1 (hdisj pa hpa) hv.2.2.2
    rw [hkt]
    rfl

theorem free_list_partition_kernbase :
    ∃ s0, kinit kernbase (fun _ => 0) = some s0 ∧ ∀ s, Reachable (Step kernbase) s0 s →
      (∃ L, Chain s.mem 0 s.freelist L ∧ (L ++ s.owned).Perm (allPages kernbase)) ∧
      ((kalloc s).1 = 0 ↔ ∀ pa ∈ allPages kernbase, pa ∈ s.owned) ∧
      ((kalloc s).1 ≠ 0 → (kalloc s).1 ∈ allPages kernbase ∧ (kalloc s).1 ∉ s.owned) ∧
      ∀ pa ∈ s.owned, (kfree kernbase s pa).isSome :=
  free_list_partition (by norm_num [kernbase]) _

end Xv6.Vm
