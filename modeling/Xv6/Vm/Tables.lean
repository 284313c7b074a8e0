import Xv6.Vm.Sv39

/-!
# Well-formed page tables

The table at `root` is a tree of page-table pages three levels deep. It is well formed (`Tree`) when
its page-table pages are pages `kinit` freed, every entry of a page-table page of levels `2` and `1`
is `0` or points, valid, to a page, and no page-table page is reached by two paths. Its leaves are
the PTEs `pteAt` reads, one for each virtual page of the `2^39` bytes Sv39 translates.

Three kinds of store happen to such a tree, and each has its lemma here: a store to a page that is
no page-table page leaves the tree and its leaves alike (`Tree.of_rows`); a store to a leaf changes
that leaf and nothing else of the tree (`Tree.setPte_leaf`); and `walk`, when it takes a free page for
a page-table page, zeroes it and links it under an empty entry, adds that page to the tree and keeps
every leaf (`Tree.link`). `walk` with `alloc` set is then the third store, at most twice: it keeps
the leaves and takes pages from the front of the free list (`walk_alloc`).
-/

namespace Xv6.Vm.Sv39

open Paged Function Radix

/-- The page-table pages of the table at `root`: the pages at the end of at most two indices. -/
def IsTable (s : Phys) (root c : Nat) : Prop :=
  ∃ p : List (Fin 512), p.length ≤ 2 ∧ follow child s.mem root p = some c

/-- The leaf PTE of `va`'s page in the table at `root`; `0` where `walk` finds no leaf table. -/
def pteAt (s : Phys) (root va : Nat) : UInt64 :=
  match follow child s.mem root (vpath va) with
  | some t => s.mem t (px 0 va)
  | none => 0

/-- The table at `root` is well formed. -/
structure Tree (kend : Nat) (s : Phys) (root : Nat) : Prop where
  /-- every page-table page is a page `kinit` freed -/
  page : ∀ p c, p.length ≤ 2 → follow child s.mem root p = some c → c ∈ allPages kend
  /-- an entry above the leaves is `0` or points, valid, to a page -/
  entry : ∀ p t, p.length < 2 → follow child s.mem root p = some t →
    ∀ i, s.mem t i = 0 ∨ ∃ c ∈ allPages kend, s.mem t i = pa2pte c ||| pteV
  /-- no page-table page is reached by two paths -/
  inj : ∀ p q c, p.length ≤ 2 → q.length ≤ 2 → follow child s.mem root p = some c →
    follow child s.mem root q = some c → p = q

variable {kend root va : Nat} {s s' : Phys}

theorem pte_of_mem_allPages {c : Nat} (h : c ∈ allPages kend) : c % pgsize = 0 ∧ c < 2 ^ 56 := by
  obtain ⟨k, rfl, hx⟩ := mem_pagesFrom.mp h
  refine ⟨by rw [Nat.add_mul_mod_self_right]; exact pgroundup_aligned kend, ?_⟩
  have hstop : phystop < 2 ^ 56 := by decide
  simp only [pgsize] at hx ⊢
  omega

theorem child_page {c : Nat} (h : c ∈ allPages kend) : child (pa2pte c ||| pteV) = some c :=
  child_pa2pte_pteV (pte_of_mem_allPages h).1 (pte_of_mem_allPages h).2

theorem pteAt_of_follow {t : Nat} (h : follow child s.mem root (vpath va) = some t) :
    pteAt s root va = s.mem t (px 0 va) := by
  rw [pteAt, h]

theorem pteAt_of_follow_none (h : follow child s.mem root (vpath va) = none) : pteAt s root va = 0 := by
  rw [pteAt, h]

theorem isTable_root (s : Phys) (root : Nat) : IsTable s root root := ⟨[], by simp, rfl⟩

/-- A path of the tree that passes a page-table page reaches it by the path's own prefix. -/
theorem IsTable.of_take {p : List (Fin 512)} {k c : Nat} (hp : p.length ≤ 2)
    (h : follow child s.mem root (p.take k) = some c) : IsTable s root c :=
  ⟨p.take k, by simp only [List.length_take]; omega, h⟩

/-! ### Stores outside the tables -/

section Rows

-- `s'` agrees with `s` on the page-table pages of `root`
variable (hrows : ∀ c, IsTable s root c → s'.mem c = s.mem c)
include hrows

theorem follow_of_rows {p : List (Fin 512)} (hp : p.length ≤ 3) :
    follow child s'.mem root p = follow child s.mem root p := by
  refine follow_congr root p fun k hk u hu => ?_
  rw [hrows u ⟨p.take k, by simp only [List.length_take]; omega, hu⟩]

theorem isTable_of_rows (c : Nat) : IsTable s' root c ↔ IsTable s root c := by
  constructor
  · rintro ⟨p, hp, h⟩
    exact ⟨p, hp, (follow_of_rows hrows (by omega)).symm.trans h⟩
  · rintro ⟨p, hp, h⟩
    exact ⟨p, hp, (follow_of_rows hrows (by omega)).trans h⟩

theorem pteAt_of_rows (va : Nat) : pteAt s' root va = pteAt s root va := by
  have hf := follow_of_rows hrows (p := vpath va) (by simp)
  cases h : follow child s.mem root (vpath va) with
  | none => rw [pteAt_of_follow_none h, pteAt_of_follow_none (hf.trans h)]
  | some t => rw [pteAt_of_follow h, pteAt_of_follow (hf.trans h), hrows t ⟨vpath va, by simp, h⟩]

theorem Tree.of_rows (hT : Tree kend s root) : Tree kend s' root where
  page p c hp h := hT.page p c hp ((follow_of_rows hrows (by omega)).symm.trans h)
  entry p t hp h i := by
    have h' := (follow_of_rows hrows (by omega)).symm.trans h
    rw [hrows t ⟨p, by omega, h'⟩]
    exact hT.entry p t hp h' i
  inj p q c hp hq h₁ h₂ :=
    hT.inj p q c hp hq ((follow_of_rows hrows (by omega)).symm.trans h₁)
      ((follow_of_rows hrows (by omega)).symm.trans h₂)

end Rows

/-! ### A store to a leaf -/

section Leaf

variable {t : Nat} {e : UInt64}

/-- A leaf table is reached by no path shorter than two indices. -/
theorem Tree.follow_ne_leaf (hT : Tree kend s root) (ht : follow child s.mem root (vpath va) = some t)
    {p : List (Fin 512)} (hp : p.length < 2) : follow child s.mem root p ≠ some t := by
  intro h
  have := hT.inj p (vpath va) t (by omega) (by simp) h ht
  rw [this, length_vpath] at hp
  omega

theorem follow_setPte_leaf (hT : Tree kend s root) (ht : follow child s.mem root (vpath va) = some t)
    {p : List (Fin 512)} (hp : p.length ≤ 2) :
    follow child (s.setPte t (px 0 va) e).mem root p = follow child s.mem root p := by
  refine follow_update root t (px 0 va) e p fun k hk hk' => absurd hk' ?_
  exact hT.follow_ne_leaf ht (by simp only [List.length_take]; omega)

theorem Tree.setPte_leaf (hT : Tree kend s root) (ht : follow child s.mem root (vpath va) = some t) :
    Tree kend (s.setPte t (px 0 va) e) root where
  page p c hp h := hT.page p c hp ((follow_setPte_leaf hT ht hp).symm.trans h)
  entry p u hp h i := by
    have h' := (follow_setPte_leaf hT ht (by omega)).symm.trans h
    -- the entries above the leaves are in other pages than the leaf table
    have hne : u ≠ t := fun hu => hT.follow_ne_leaf ht hp (hu ▸ h')
    simp only [Phys.setPte, update_of_ne hne]
    exact hT.entry p u hp h' i
  inj p q c hp hq h₁ h₂ :=
    hT.inj p q c hp hq ((follow_setPte_leaf hT ht hp).symm.trans h₁) ((follow_setPte_leaf hT ht hq).symm.trans h₂)

theorem isTable_setPte_leaf (hT : Tree kend s root) (ht : follow child s.mem root (vpath va) = some t) (c : Nat) :
    IsTable (s.setPte t (px 0 va) e) root c ↔ IsTable s root c := by
  constructor
  · rintro ⟨p, hp, h⟩
    exact ⟨p, hp, (follow_setPte_leaf hT ht hp).symm.trans h⟩
  · rintro ⟨p, hp, h⟩
    exact ⟨p, hp, (follow_setPte_leaf hT ht hp).trans h⟩

/-- A store to the leaf of `va` changes the leaf of `va`'s page and no other. -/
theorem pteAt_setPte_leaf (hT : Tree kend s root) (ht : follow child s.mem root (vpath va) = some t)
    (hva : va < 2 ^ 39) {va' : Nat} (hva' : va' < 2 ^ 39) :
    pteAt (s.setPte t (px 0 va) e) root va' = if va' / pgsize = va / pgsize then e else pteAt s root va' := by
  unfold pteAt
  rw [follow_setPte_leaf hT ht (by simp)]
  cases h : follow child s.mem root (vpath va') with
  | none =>
    -- a page with no leaf table is another page than `va`'s
    have hne : va' / pgsize ≠ va / pgsize := by
      intro hpg
      rw [vpath_of_div_eq hpg, ht] at h
      cases h
    rw [if_neg hne]
  | some u =>
    simp only [Phys.setPte]
    by_cases hpg : va' / pgsize = va / pgsize
    · have hu : u = t := Option.some.inj (h.symm.trans (vpath_of_div_eq hpg ▸ ht))
      rw [if_pos hpg, hu, px_of_div_eq hpg, update_self, update_self]
    · rw [if_neg hpg]
      by_cases hu : u = t
      · -- the same leaf table: the index differs, or the pages would be the same
        subst hu
        have hp : vpath va' = vpath va := hT.inj _ _ u (by simp) (by simp) h ht
        have h0 : px 0 va' ≠ px 0 va := fun h0 => hpg (div_eq_of_px_eq hva' hva hp h0)
        rw [update_self, update_of_ne h0]
      · rw [update_of_ne hu]

end Leaf

/-! ### A new page-table page -/

section Link

variable {q : List (Fin 512)} {u p : Nat} {j : Fin 512}

@[simp] theorem link_free : (s.link u j p).free = s.free.tail := rfl

theorem link_mem : (s.link u j p).mem =
    update (update s.mem p fun _ => 0) u (update (update s.mem p (fun _ => 0) u) j (pa2pte p ||| pteV)) := rfl

theorem ne_of_link (hq : q.length ≤ 2) (hu : follow child s.mem root q = some u) (hpt : ¬ IsTable s root p) :
    p ≠ u := fun h => hpt (h ▸ ⟨q, hq, hu⟩)

/-- No path goes through an empty entry. -/
theorem follow_through_empty (hu : follow child s.mem root q = some u) (hu0 : s.mem u j = 0) (r : List (Fin 512)) :
    follow child s.mem root (q ++ j :: r) = none := by
  rw [follow_append, hu, Option.bind_some, follow_cons, hu0, child_zero, Option.bind_none]

theorem link_frame {c : Nat} (hcp : c ≠ p) (hcu : c ≠ u) : (s.link u j p).mem c = s.mem c := by
  rw [link_mem, update_of_ne hcu, update_of_ne hcp]

-- `walk` takes the page `p`, no page-table page, for the empty entry `j` of the page-table page `u`
-- above the leaves, which `q` reaches
variable (hT : Tree kend s root) (hq : q.length < 2) (hu : follow child s.mem root q = some u)
  (hu0 : s.mem u j = 0) (hp : p ∈ allPages kend) (hpt : ¬ IsTable s root p)
include hT hq hu hu0 hp hpt

/-- After the link, the paths of the tree are those before and `q ++ [j]`, which ends at `p`. -/
theorem follow_link {r : List (Fin 512)} (hr : r.length ≤ 2) :
    follow child (s.link u j p).mem root r = if r = q ++ [j] then some p else follow child s.mem root r := by
  have hpu := ne_of_link (by omega) hu hpt
  -- zeroing `p`, which is no page-table page, changes no path of the tree
  have hzero : ∀ r : List (Fin 512), r.length ≤ 3 →
      follow child (update s.mem p fun _ => 0) root r = follow child s.mem root r := fun r hr =>
    follow_update_row root p _ r fun k hk hk' => hpt (IsTable.of_take (p := r.take 2) (k := k) (by simp) (by
      rw [List.take_take, Nat.min_eq_left (by omega)]
      exact hk'))
  -- and only `q` reaches `u`
  have huniq : ∀ r : List (Fin 512), r.length ≤ 2 →
      follow child (update s.mem p fun _ => 0) root r = some u → r = q := fun r hr h =>
    hT.inj r q u hr (by omega) ((hzero r (by omega)).symm.trans h) hu
  rw [link_mem]
  by_cases hpre : q ++ [j] <+: r
  · obtain ⟨r', rfl⟩ := hpre
    have hqu : follow child (update s.mem p fun _ => 0) root q = some u := (hzero q (by omega)).trans hu
    have hshort : ∀ k < q.length, follow child (update s.mem p fun _ => 0) root (q.take k) ≠ some u := by
      intro k hk h
      have hl := congrArg List.length (huniq (q.take k) (by simp only [List.length_take]; omega) h)
      simp only [List.length_take] at hl
      omega
    rw [List.append_assoc, List.singleton_append, follow_update_append hqu hshort, child_page hp, Option.bind_some]
    cases r' with
    | nil => simp
    | cons i r'' =>
      -- below `p`, whose entries are `0`, no path goes on; nor did one below the empty entry
      rw [if_neg (by simp), follow_through_empty hu hu0, follow_cons, update_of_ne hpu, update_self,
        child_zero, Option.bind_none]
  · rw [if_neg (by rintro rfl; exact hpre (List.prefix_refl _)),
      follow_update_of_not_prefix (fun k hk h => huniq _ (by simp only [List.length_take]; omega) h) hpre,
      hzero r (by omega)]

theorem Tree.link : Tree kend (s.link u j p) root where
  page r c hr h := by
    rw [follow_link hT hq hu hu0 hp hpt hr] at h
    split_ifs at h
    · obtain rfl := Option.some.inj h
      exact hp
    · exact hT.page r c hr h
  entry r t hr h i := by
    have hpu := ne_of_link (by omega) hu hpt
    rw [follow_link hT hq hu hu0 hp hpt (by omega)] at h
    split_ifs at h
    · -- the new page is zeroed
      obtain rfl := Option.some.inj h
      left
      rw [link_mem, update_of_ne hpu, update_self]
    · have htp : t ≠ p := fun e => hpt (e ▸ ⟨r, by omega, h⟩)
      by_cases htu : t = u
      · subst htu
        by_cases hij : i = j
        · subst hij
          exact .inr ⟨p, hp, by rw [link_mem, update_self, update_self]⟩
        · rw [link_mem, update_self, update_of_ne hij, update_of_ne htp]
          exact hT.entry r t hr h i
      · rw [link_mem, update_of_ne htu, update_of_ne htp]
        exact hT.entry r t hr h i
  inj r r' c hr hr' h h' := by
    rw [follow_link hT hq hu hu0 hp hpt hr] at h
    rw [follow_link hT hq hu hu0 hp hpt hr'] at h'
    split_ifs at h h' with h₁ h₂ h₂
    · rw [h₁, h₂]
    · -- `r'` would reach `p` in the old tree
      exact absurd ⟨r', hr', (Option.some.inj h) ▸ h'⟩ hpt
    · exact absurd ⟨r, hr, (Option.some.inj h') ▸ h⟩ hpt
    · exact hT.inj r r' c hr hr' h h'

theorem isTable_link (c : Nat) : IsTable (s.link u j p) root c ↔ IsTable s root c ∨ c = p := by
  constructor
  · rintro ⟨r, hr, h⟩
    rw [follow_link hT hq hu hu0 hp hpt hr] at h
    split_ifs at h
    · exact .inr (Option.some.inj h).symm
    · exact .inl ⟨r, hr, h⟩
  · rintro (⟨r, hr, h⟩ | rfl)
    · -- an old path does not go through the empty entry
      have hne : r ≠ q ++ [j] := by
        rintro rfl
        rw [follow_through_empty hu hu0 []] at h
        cases h
      exact ⟨r, hr, by rw [follow_link hT hq hu hu0 hp hpt hr, if_neg hne, h]⟩
    · exact ⟨q ++ [j], by simp; omega, by rw [follow_link hT hq hu hu0 hp hpt (by simp; omega), if_pos rfl]⟩

theorem pteAt_link (va : Nat) : pteAt (s.link u j p) root va = pteAt s root va := by
  have hpu := ne_of_link (by omega) hu hpt
  by_cases hv : vpath va = q ++ [j]
  · -- the leaf table is the new zeroed page, and there was none before
    rw [pteAt_of_follow (by rw [follow_link hT hq hu hu0 hp hpt (by simp), if_pos hv]),
      pteAt_of_follow_none (by rw [hv, follow_through_empty hu hu0 []]),
      link_mem, update_of_ne hpu, update_self]
  · have hf := follow_link hT hq hu hu0 hp hpt (r := vpath va) (by simp)
    rw [if_neg hv] at hf
    cases h : follow child s.mem root (vpath va) with
    | none => rw [pteAt_of_follow_none h, pteAt_of_follow_none (hf.trans h)]
    | some t =>
      have htp : t ≠ p := fun e => hpt (e ▸ ⟨vpath va, by simp, h⟩)
      have htu : t ≠ u := fun e => absurd (hT.inj _ _ _ (by omega) (by simp) hu (e ▸ h)) (by
        intro hqv
        rw [← length_vpath va, ← hqv] at hq
        omega)
      rw [pteAt_of_follow h, pteAt_of_follow (hf.trans h), link_mem, update_of_ne htu, update_of_ne htp]

end Link

/-! ### `walk` with `alloc` set -/

/-- The free pages are pages `kinit` freed, none twice, and none a page-table page of `root`. -/
structure Fresh (kend : Nat) (s : Phys) (root : Nat) : Prop where
  nodup : s.free.Nodup
  page : ∀ c ∈ s.free, c ∈ allPages kend
  not_table : ∀ c ∈ s.free, ¬ IsTable s root c

/-- `s'` is `s` with the first `k` free pages made page-table pages of `root`: the tree keeps its
leaves, and no page but a page-table page has changed. -/
structure Grows (kend root : Nat) (s s' : Phys) : Prop where
  tree : Tree kend s' root
  free : ∃ k, s'.free = s.free.drop k ∧ ∀ c, IsTable s' root c ↔ IsTable s root c ∨ c ∈ s.free.take k
  leaf : ∀ va, pteAt s' root va = pteAt s root va
  frame : ∀ c, ¬ IsTable s' root c → s'.mem c = s.mem c

section Grow

variable {s₁ s₂ : Phys}

theorem Grows.refl (hT : Tree kend s root) : Grows kend root s s :=
  ⟨hT, ⟨0, by simp, by simp⟩, fun _ => rfl, fun _ _ => rfl⟩

theorem Grows.trans (h₁ : Grows kend root s s₁) (h₂ : Grows kend root s₁ s₂) : Grows kend root s s₂ where
  tree := h₂.tree
  free := by
    obtain ⟨k₁, hf₁, ht₁⟩ := h₁.free
    obtain ⟨k₂, hf₂, ht₂⟩ := h₂.free
    refine ⟨k₁ + k₂, by rw [hf₂, hf₁, List.drop_drop], fun c => ?_⟩
    rw [ht₂, ht₁, hf₁, List.take_add, List.mem_append, or_assoc]
  leaf va := (h₂.leaf va).trans (h₁.leaf va)
  frame c hc := by
    obtain ⟨k₂, -, ht₂⟩ := h₂.free
    -- a page outside the tables of `s₂` was outside those of `s₁`
    have hc₁ : ¬ IsTable s₁ root c := fun h => hc ((ht₂ c).mpr (.inl h))
    rw [h₂.frame c hc, h₁.frame c hc₁]

theorem Grows.link {q : List (Fin 512)} {u p : Nat} {j : Fin 512} {rest : List Nat} (hT : Tree kend s root)
    (hq : q.length < 2) (hu : follow child s.mem root q = some u) (hu0 : s.mem u j = 0) (hp : p ∈ allPages kend)
    (hpt : ¬ IsTable s root p) (hfree : s.free = p :: rest) : Grows kend root s (s.link u j p) where
  tree := hT.link hq hu hu0 hp hpt
  free := ⟨1, by simp [hfree], fun c => by
    rw [isTable_link hT hq hu hu0 hp hpt, hfree]
    simp [eq_comm]⟩
  leaf := pteAt_link hT hq hu hu0 hp hpt
  frame c hc := by
    have hcp : c ≠ p := fun e => hc ((isTable_link hT hq hu hu0 hp hpt c).mpr (.inr e))
    have hcu : c ≠ u := fun e => hc ((isTable_link hT hq hu hu0 hp hpt c).mpr (.inl (e ▸ ⟨q, by omega, hu⟩)))
    exact link_frame hcp hcu

theorem Fresh.of_grows (hF : Fresh kend s root) (hG : Grows kend root s s') : Fresh kend s' root := by
  obtain ⟨k, hfree, htab⟩ := hG.free
  refine ⟨hfree ▸ hF.nodup.sublist (List.drop_sublist _ _), fun c hc => ?_, fun c hc h => ?_⟩
  · rw [hfree] at hc
    exact hF.page c (List.mem_of_mem_drop hc)
  · rw [hfree] at hc
    rcases (htab c).mp h with h | h
    · exact hF.not_table c (List.mem_of_mem_drop hc) h
    · -- the pages taken and the pages left are apart
      exact List.disjoint_take_drop hF.nodup le_rfl h hc

end Grow

/-- The loop of `walk` with `alloc` set, from the page-table page `t` that the first indices `q` of
`va` reach: it ends at the leaf table of `va`, or with the free list empty. -/
theorem walkLoop_alloc (hkend : 0 < kend) (level : Nat) :
    ∀ (q : List (Fin 512)) (t : Nat) (s : Phys), Tree kend s root → Fresh kend s root →
      q ++ walkPath va level = vpath va → follow child s.mem root q = some t →
      ∃ r s', walkLoop true va level t s = (r, s') ∧ Grows kend root s s' ∧
        (r = none ∧ s'.free = [] ∨ ∃ t', r = some (t', px 0 va) ∧ follow child s'.mem root (vpath va) = some t') := by
  induction level with
  | zero =>
    intro q t s hT _ hq ht
    rw [walkPath, List.append_nil] at hq
    exact ⟨_, _, walkLoop_zero, Grows.refl hT, .inr ⟨t, rfl, hq ▸ ht⟩⟩
  | succ level ih =>
    intro q t s hT hF hq ht
    -- `t` is a page-table page above the leaves
    have hlen : q.length < 2 := by
      have := congrArg List.length hq
      simp only [walkPath, List.length_append, List.length_cons, length_vpath] at this
      omega
    have hnext : q ++ [px (level + 1) va] ++ walkPath va level = vpath va := by
      rw [List.append_assoc, List.singleton_append]
      exact hq
    rcases hT.entry q t hlen ht (px (level + 1) va) with h0 | ⟨c, hc, he⟩
    · -- an empty entry: `walk` takes the first free page, if there is one
      have hinv : s.mem t (px (level + 1) va) &&& pteV = 0 := by rw [h0]; rfl
      cases hfree : s.free with
      | nil => exact ⟨_, _, walkLoop_nil hinv hfree, Grows.refl hT, .inl ⟨rfl, hfree⟩⟩
      | cons p rest =>
        have hp : p ∈ allPages kend := hF.page p (by simp [hfree])
        have hpt : ¬ IsTable s root p := hF.not_table p (by simp [hfree])
        have hG := Grows.link hT hlen ht h0 hp hpt hfree
        obtain ⟨r, s', hw, hG', hr⟩ := ih (q ++ [px (level + 1) va]) p _ hG.tree (hF.of_grows hG) hnext
          (by rw [follow_link hT hlen ht h0 hp hpt (by simp; omega), if_pos rfl])
        exact ⟨r, s', (walkLoop_cons hinv hfree (valid_of_mem_allPages hkend hp).2.2.2).trans hw, hG.trans hG', hr⟩
    · -- a valid entry: `walk` goes down to the page it points to
      have hpte := pte_of_mem_allPages hc
      have hv : s.mem t (px (level + 1) va) &&& pteV ≠ 0 := by
        rw [he, pa2pte_or_and hpte.2 (by decide) (by decide)]
        decide
      have hpa : pte2pa (s.mem t (px (level + 1) va)) = c := by
        rw [he, pte2pa_pa2pte_or hpte.1 hpte.2 (by decide)]
      obtain ⟨r, s', hw, hG, hr⟩ := ih (q ++ [px (level + 1) va]) c s hT hF hnext
        (by rw [follow_append, ht, Option.bind_some, follow_singleton, he, child_page hc])
      exact ⟨r, s', (walkLoop_valid hv).trans (by rw [hpa]; exact hw), hG, hr⟩

/-- `walk(root, va, 1)` below `MAXVA` returns the leaf slot of `va`, with the page-table pages it
lacked taken from the free list, or `0` with the free list used up. -/
theorem walk_alloc (hkend : 0 < kend) (hT : Tree kend s root) (hF : Fresh kend s root) (hva : va < maxva) :
    ∃ r s', walk s root va true = some (r, s') ∧ Grows kend root s s' ∧
      (r = none ∧ s'.free = [] ∨ ∃ t, r = some (t, px 0 va) ∧ follow child s'.mem root (vpath va) = some t) := by
  obtain ⟨r, s', hw, hG, hr⟩ := walkLoop_alloc hkend 2 [] root s hT hF rfl rfl
  exact ⟨r, s', by rw [walk, if_neg (Nat.not_le.mpr hva), hw], hG, hr⟩

/-- `mappages` of one page whose leaf is empty: `-1` when `walk` runs out of free pages, and
otherwise the leaf of the page written. -/
theorem mappages_page (hkend : 0 < kend) (hT : Tree kend s root) (hF : Fresh kend s root) (hva : va < maxva)
    (hal : va % pgsize = 0) (h0 : pteAt s root va = 0) (pa : Nat) (perm : UInt64) :
    ∃ r s', mappages s root va pgsize pa perm = some (r, s') ∧
      (r = -1 ∧ Grows kend root s s' ∧ s'.free = [] ∨
        r = 0 ∧ ∃ s₁ t, Grows kend root s s₁ ∧ follow child s₁.mem root (vpath va) = some t ∧
          s' = s₁.setPte t (px 0 va) (pa2pte pa ||| perm ||| pteV)) := by
  obtain ⟨r, s₁, hw, hG, hr⟩ := walk_alloc hkend hT hF hva
  have hpg : pgsize / pgsize = 1 := rfl
  rw [mappages, if_neg (by simp [hal]), if_neg (by decide), if_neg (by decide), hpg, mappagesLoop, hw,
    Option.bind_some]
  rcases hr with ⟨rfl, hfree⟩ | ⟨t, rfl, ht⟩
  · exact ⟨-1, s₁, rfl, .inl ⟨rfl, hG, hfree⟩⟩
  · -- the leaf is still empty after `walk`
    have hleaf : s₁.mem t (px 0 va) = 0 := by rw [← pteAt_of_follow ht, hG.leaf, h0]
    refine ⟨0, _, ?_, .inr ⟨rfl, s₁, t, hG, ht, rfl⟩⟩
    simp only [hleaf]
    rfl

/-! ### `uvmunmap` -/

/-- What `kfree` does to a page it accepts: the page filled with `1`s, first on the free list. -/
def Phys.push (s : Phys) (pa : Nat) : Phys := { mem := update s.mem pa fun _ => junkFree.toUInt64, free := pa :: s.free }

theorem kfree_of_mem_allPages {c : Nat} (h : c ∈ allPages kend) : s.kfree kend c = some (s.push c) := by
  obtain ⟨k, rfl, hx⟩ := mem_pagesFrom.mp h
  have hle := le_pgroundup kend
  have ha : (pgroundup kend + k * pgsize) % pgsize = 0 := by
    rw [Nat.add_mul_mod_self_right]
    exact pgroundup_aligned kend
  rw [Phys.kfree, if_neg (by simp only [pgsize] at ha hx ⊢; omega)]
  rfl

/-- The pages `uvmunmap` frees, in the order it frees them. -/
def unmapped (s : Phys) (root a n : Nat) : List Nat :=
  (List.range n).map fun k => pte2pa (pteAt s root (a + k * pgsize))

/-- One round of `uvmunmap`'s loop: the page of the leaf of `a` freed when `doFree` is set, and the leaf
cleared. -/
theorem uvmunmapLoop_succ {doFree : Bool} {n a : Nat} (ha : a < maxva) {t : Nat}
    (ht : follow child s.mem root (vpath a) = some t) (hv : pteAt s root a &&& pteV ≠ 0)
    (hl : pteFlags (pteAt s root a) ≠ pteV) (hfree : doFree → pte2pa (pteAt s root a) ∈ allPages kend) :
    uvmunmapLoop kend root doFree (n + 1) a s =
      uvmunmapLoop kend root doFree n (a + pgsize)
        ((if doFree then s.push (pte2pa (pteAt s root a)) else s).setPte t (px 0 a) 0) := by
  rw [pteAt_of_follow ht] at hv hl hfree
  have hw : walk s root a false = some (some (t, px 0 a), s) := by
    rw [walk, if_neg (Nat.not_le.mpr ha), walkLoop_false, ← vpath, ht]
    rfl
  rw [uvmunmapLoop, hw, Option.bind_some]
  simp only [hv, hl, if_false]
  cases doFree with
  | false => rfl
  | true => rw [if_pos rfl, kfree_of_mem_allPages (hfree rfl), Option.bind_some, if_pos rfl, pteAt_of_follow ht]

/-- `uvmunmap`'s loop over `n` pages from `a`, each with a leaf that passes its checks and, when the
pages are freed, a page `kinit` freed and no page-table page: the leaves of the range are cleared,
the pages freed go first on the free list, and no other page changes. -/
theorem uvmunmapLoop_spec {doFree : Bool} (n : Nat) :
    ∀ (a : Nat) (s : Phys), Tree kend s root → a % pgsize = 0 → a + n * pgsize ≤ maxva →
      (∀ k < n, pteAt s root (a + k * pgsize) &&& pteV ≠ 0 ∧ pteFlags (pteAt s root (a + k * pgsize)) ≠ pteV) →
      (doFree → ∀ c ∈ unmapped s root a n, c ∈ allPages kend ∧ ¬ IsTable s root c) →
      ∃ s', uvmunmapLoop kend root doFree n a s = some s' ∧ Tree kend s' root ∧
        (∀ c, IsTable s' root c ↔ IsTable s root c) ∧
        (∀ va < 2 ^ 39, pteAt s' root va =
          if a / pgsize ≤ va / pgsize ∧ va / pgsize < a / pgsize + n then 0 else pteAt s root va) ∧
        s'.free = (if doFree then (unmapped s root a n).reverse ++ s.free else s.free) ∧
        ∀ c, ¬ IsTable s root c → (doFree → c ∉ unmapped s root a n) → s'.mem c = s.mem c := by
  induction n with
  | zero =>
    intro a s hT _ _ _ _
    refine ⟨s, rfl, hT, fun _ => Iff.rfl, fun va _ => ?_, by cases doFree <;> simp [unmapped], fun _ _ _ => rfl⟩
    rw [if_neg (by omega)]
  | succ n ih =>
    intro a s hT ha hmax hleaf hfree
    have hpg : a / pgsize + 1 = (a + pgsize) / pgsize := by simp only [pgsize]; omega
    have hamax : a < maxva := by simp only [pgsize, maxva] at hmax ⊢; omega
    obtain ⟨hv, hl⟩ := hleaf 0 (Nat.succ_pos n)
    rw [Nat.zero_mul, Nat.add_zero] at hv hl
    -- the leaf of `a` is valid, so its leaf table is there
    obtain ⟨t, ht⟩ : ∃ t, follow child s.mem root (vpath a) = some t := by
      cases h : follow child s.mem root (vpath a) with
      | none => rw [pteAt_of_follow_none h] at hv; exact absurd rfl hv
      | some t => exact ⟨t, rfl⟩
    have hunmapped : unmapped s root a (n + 1) = pte2pa (pteAt s root a) :: (List.range n).map
        fun k => pte2pa (pteAt s root (a + (k + 1) * pgsize)) := by
      rw [unmapped, List.range_succ_eq_map, List.map_cons, List.map_map, Nat.zero_mul, Nat.add_zero]
      rfl
    set c := pte2pa (pteAt s root a) with hc
    have hcfree : doFree → c ∈ allPages kend ∧ ¬ IsTable s root c := fun hd =>
      hfree hd c (by rw [hunmapped]; exact List.mem_cons_self)
    -- freeing `c`, no page-table page, leaves the tree as it is
    set s₁ := if doFree then s.push c else s with hs₁
    have hrows : ∀ c', IsTable s root c' → s₁.mem c' = s.mem c' := by
      intro c' hc'
      cases doFree with
      | false => rfl
      | true => exact update_of_ne (fun e => (hcfree rfl).2 (by rw [← e]; exact hc')) _ _
    have ht₁ : follow child s₁.mem root (vpath a) = some t := (follow_of_rows hrows (by simp)).trans ht
    have hT₁ := hT.of_rows hrows
    set s₂ := s₁.setPte t (px 0 a) 0 with hs₂
    have hT₂ : Tree kend s₂ root := hT₁.setPte_leaf ht₁
    have htab₂ : ∀ c', IsTable s₂ root c' ↔ IsTable s root c' := fun c' =>
      (isTable_setPte_leaf hT₁ ht₁ c').trans (isTable_of_rows hrows c')
    have hleaf₂ : ∀ va < 2 ^ 39, pteAt s₂ root va = if va / pgsize = a / pgsize then 0 else pteAt s root va := by
      intro va hva
      rw [hs₂, pteAt_setPte_leaf hT₁ ht₁ (by simp only [maxva] at hamax; omega) hva, pteAt_of_rows hrows]
    -- the rest of the range lies in other pages than `a`
    have hrest : ∀ k < n, pteAt s₂ root (a + pgsize + k * pgsize) = pteAt s root (a + (k + 1) * pgsize) := by
      intro k hk
      have hk' : a + pgsize + k * pgsize = a + (k + 1) * pgsize := by ring
      rw [hk', hleaf₂ _ (by simp only [pgsize, maxva] at hmax ⊢; omega), if_neg (by simp only [pgsize]; omega)]
    have hunmapped₂ : unmapped s₂ root (a + pgsize) n =
        (List.range n).map fun k => pte2pa (pteAt s root (a + (k + 1) * pgsize)) :=
      List.map_congr_left fun k hk => by rw [hrest k (List.mem_range.mp hk)]
    obtain ⟨s', hrun, hT', htab', hleaf', hfree', hframe'⟩ := ih (a + pgsize) s₂ hT₂
      (by simp only [pgsize] at ha ⊢; omega) (by simp only [pgsize] at hmax ⊢; omega)
      (fun k hk => by rw [hrest k hk]; exact hleaf (k + 1) (by omega))
      (fun hd c' hc' => by
        rw [hunmapped₂] at hc'
        obtain ⟨hp, hnt⟩ := hfree hd c' (by rw [hunmapped]; exact List.mem_cons_of_mem _ hc')
        exact ⟨hp, fun h => hnt ((htab₂ c').mp h)⟩)
    refine ⟨s', by rw [uvmunmapLoop_succ hamax ht hv hl fun hd => (hcfree hd).1]; exact hrun, hT',
      fun c' => (htab' c').trans (htab₂ c'), fun va hva => ?_, ?_, fun c' hc' hnot => ?_⟩
    · rw [hleaf' va hva, hleaf₂ va hva, ← hpg]
      split_ifs <;> first | rfl | omega
    · rw [hfree', hunmapped₂, hunmapped]
      cases doFree <;> simp [hs₂, hs₁, Phys.setPte, Phys.push]
    · have hnot₂ : doFree → c' ∉ unmapped s₂ root (a + pgsize) n := fun hd h => hnot hd (by
        rw [hunmapped₂] at h
        rw [hunmapped]
        exact List.mem_cons_of_mem _ h)
      rw [hframe' c' (fun h => hc' ((htab₂ c').mp h)) hnot₂]
      -- the round wrote only the leaf table and, when it frees, `c`
      have hct : c' ≠ t := fun e => hc' (e ▸ ⟨vpath a, by simp, ht⟩)
      simp only [hs₂, Phys.setPte]
      rw [update_of_ne hct]
      cases doFree with
      | false => rfl
      | true => exact update_of_ne (fun e => hnot rfl (by rw [hunmapped, e]; exact List.mem_cons_self)) _ _

/-! ### `freewalk` -/

/-- One round of `freewalk`'s loop, at entry `i` of `pagetable`. -/
def freewalkEntry (kend fuel pagetable : Nat) (s : Phys) (i : Fin 512) : Option Phys :=
  let pte := s.mem pagetable i
  if pte &&& pteV ≠ 0 ∧ pte &&& (pteR ||| pteW ||| pteX) = 0 then
    (freewalk kend fuel (pte2pa pte) s).map fun s => s.setPte pagetable i 0
  else if pte &&& pteV ≠ 0 then none
  else some s

theorem freewalk_succ (fuel u : Nat) (s : Phys) :
    freewalk kend (fuel + 1) u s =
      ((List.finRange 512).foldlM (freewalkEntry kend fuel u) s).bind fun s => s.kfree kend u := rfl

theorem freewalkEntry_zero {fuel u : Nat} {i : Fin 512} (h : s.mem u i = 0) : freewalkEntry kend fuel u s i = some s := by
  simp [freewalkEntry, h]

/-- An entry that points to a page is a page-table page to free first. -/
theorem freewalkEntry_page {fuel u w : Nat} {i : Fin 512} (hw : w ∈ allPages kend) (h : s.mem u i = pa2pte w ||| pteV) :
    freewalkEntry kend fuel u s i = (freewalk kend fuel w s).map fun s => s.setPte u i 0 := by
  have hpte := pte_of_mem_allPages hw
  have hv : s.mem u i &&& pteV ≠ 0 := by
    rw [h, pa2pte_or_and hpte.2 (by decide) (by decide)]
    decide
  have hrwx : s.mem u i &&& (pteR ||| pteW ||| pteX) = 0 := by
    rw [h, pa2pte_or_and hpte.2 (by decide) (by decide)]
    decide
  rw [freewalkEntry]
  simp only [hv, hrwx, ne_eq, not_false_eq_true, and_self, if_true]
  rw [h, pte2pa_pa2pte_or hpte.1 hpte.2 (by decide)]

/-- The pages below `u`, at most `d` indices down. -/
def Below (s : Phys) (u d c : Nat) : Prop := ∃ r : List (Fin 512), r.length ≤ d ∧ follow child s.mem u r = some c

/-- The part of the tree below `u`, `d` levels deep, holds no leaf: its pages are pages `kinit`
freed, an entry above its bottom is `0` or points to a page, its bottom pages are zero, and no page
is reached twice. -/
structure Cleared (kend : Nat) (s : Phys) (u d : Nat) : Prop where
  page : ∀ r c, r.length ≤ d → follow child s.mem u r = some c → c ∈ allPages kend
  entry : ∀ r t, r.length < d → follow child s.mem u r = some t →
    ∀ i, s.mem t i = 0 ∨ ∃ c ∈ allPages kend, s.mem t i = pa2pte c ||| pteV
  bottom : ∀ r t, r.length = d → follow child s.mem u r = some t → ∀ i, s.mem t i = 0
  inj : ∀ r r' c, r.length ≤ d → r'.length ≤ d → follow child s.mem u r = some c →
    follow child s.mem u r' = some c → r = r'

section Cleared

variable {u w d : Nat} {i : Fin 512}

theorem below_self (s : Phys) (u d : Nat) : Below s u d u := ⟨[], by simp, rfl⟩

/-- The part below the page an entry of `u` points to is `u`'s part through that entry. -/
theorem follow_entry (hw : w ∈ allPages kend) (h : s.mem u i = pa2pte w ||| pteV) (r : List (Fin 512)) :
    follow child s.mem u (i :: r) = follow child s.mem w r := by
  rw [follow_cons, h, child_page hw, Option.bind_some]

theorem Cleared.entry_page (hC : Cleared kend s u (d + 1)) (hw : w ∈ allPages kend)
    (h : s.mem u i = pa2pte w ||| pteV) : Cleared kend s w d where
  page r c hr hc := hC.page (i :: r) c (by simp; omega) (by rw [follow_entry hw h]; exact hc)
  entry r t hr ht := hC.entry (i :: r) t (by simp; omega) (by rw [follow_entry hw h]; exact ht)
  bottom r t hr ht := hC.bottom (i :: r) t (by simp; omega) (by rw [follow_entry hw h]; exact ht)
  inj r r' c hr hr' hc hc' := by
    have := hC.inj (i :: r) (i :: r') c (by simp; omega) (by simp; omega) (by rw [follow_entry hw h]; exact hc)
      (by rw [follow_entry hw h]; exact hc')
    exact List.tail_eq_of_cons_eq this

/-- A part of the tree is `u`, or lies below one of `u`'s entries. -/
theorem below_succ (hC : Cleared kend s u (d + 1)) {c : Nat} :
    Below s u (d + 1) c ↔ c = u ∨ ∃ i w, s.mem u i = pa2pte w ||| pteV ∧ w ∈ allPages kend ∧ Below s w d c := by
  constructor
  · rintro ⟨r, hr, hc⟩
    cases r with
    | nil => exact .inl (Option.some.inj hc).symm
    | cons i r =>
      right
      rcases hC.entry [] u (by simp) rfl i with h0 | ⟨w, hw, h⟩
      · rw [follow_cons, h0, child_zero, Option.bind_none] at hc
        cases hc
      · exact ⟨i, w, h, hw, r, by simp at hr; omega, by rw [← follow_entry hw h]; exact hc⟩
  · rintro (rfl | ⟨i, w, h, hw, r, hr, hc⟩)
    · exact below_self s c (d + 1)
    · exact ⟨i :: r, by simp; omega, by rw [follow_entry hw h]; exact hc⟩

/-- The parts below two entries are apart, and neither holds `u`. -/
theorem Cleared.below_entry_inj (hC : Cleared kend s u (d + 1)) {i i' : Fin 512} {w w' c : Nat}
    (hw : w ∈ allPages kend) (h : s.mem u i = pa2pte w ||| pteV) (hw' : w' ∈ allPages kend)
    (h' : s.mem u i' = pa2pte w' ||| pteV) (hc : Below s w d c) (hc' : Below s w' d c) : i = i' := by
  obtain ⟨r, hr, hr'⟩ := hc
  obtain ⟨r', hq, hq'⟩ := hc'
  have := hC.inj (i :: r) (i' :: r') c (by simp; omega) (by simp; omega) (by rw [follow_entry hw h]; exact hr')
    (by rw [follow_entry hw' h']; exact hq')
  exact List.head_eq_of_cons_eq this

theorem Cleared.not_below_entry (hC : Cleared kend s u (d + 1)) {w : Nat} (hw : w ∈ allPages kend)
    (h : s.mem u i = pa2pte w ||| pteV) : ¬ Below s w d u := by
  rintro ⟨r, hr, hc⟩
  have := hC.inj (i :: r) [] u (by simp; omega) (by simp) (by rw [follow_entry hw h]; exact hc) rfl
  cases this

/-- `Cleared` reads only the rows of the part's own pages. -/
theorem Cleared.congr (hC : Cleared kend s u d) (hrows : ∀ c, Below s u d c → s'.mem c = s.mem c) :
    Cleared kend s' u d ∧ ∀ c, Below s' u d c ↔ Below s u d c := by
  have hf : ∀ r : List (Fin 512), r.length ≤ d → follow child s'.mem u r = follow child s.mem u r := fun r hr =>
    follow_congr u r fun k hk t ht => by
      rw [hrows t ⟨r.take k, by simp only [List.length_take]; omega, ht⟩]
  refine ⟨⟨fun r c hr hc => hC.page r c hr ((hf r hr).symm.trans hc), fun r t hr ht i => ?_,
    fun r t hr ht i => ?_, fun r r' c hr hr' hc hc' => hC.inj r r' c hr hr' ((hf r hr).symm.trans hc)
      ((hf r' hr').symm.trans hc')⟩, fun c => ⟨fun ⟨r, hr, hc⟩ => ⟨r, hr, (hf r hr).symm.trans hc⟩,
      fun ⟨r, hr, hc⟩ => ⟨r, hr, (hf r hr).trans hc⟩⟩⟩
  · have ht' := (hf r (by omega)).symm.trans ht
    rw [hrows t ⟨r, by omega, ht'⟩]
    exact hC.entry r t hr ht' i
  · have ht' := (hf r (by omega)).symm.trans ht
    rw [hrows t ⟨r, by omega, ht'⟩]
    exact hC.bottom r t hr ht' i

end Cleared

/-- `s'` is `s` with the part of the tree below `u`, `d` levels deep, freed: its pages go first on
the free list, each once, and no other page changes. -/
structure Frees (s : Phys) (u d : Nat) (s' : Phys) : Prop where
  free : ∃ L, s'.free = L ++ s.free ∧ L.Nodup ∧ ∀ c, c ∈ L ↔ Below s u d c
  frame : ∀ c, ¬ Below s u d c → s'.mem c = s.mem c

/-- The loop of `freewalk` at `u` after the entries `pre`: the parts below them freed, and the other
entries of `u` and every other page as they were in `s`. -/
structure Freed (kend : Nat) (s : Phys) (u d : Nat) (pre : List (Fin 512)) (t : Phys) : Prop where
  free : ∃ L, t.free = L ++ s.free ∧ L.Nodup ∧
    ∀ c, c ∈ L ↔ ∃ i ∈ pre, ∃ w, s.mem u i = pa2pte w ||| pteV ∧ w ∈ allPages kend ∧ Below s w d c
  row : ∀ i ∉ pre, t.mem u i = s.mem u i
  frame : ∀ c, c ≠ u → (∀ i ∈ pre, ∀ w, s.mem u i = pa2pte w ||| pteV → w ∈ allPages kend → ¬ Below s w d c) →
    t.mem c = s.mem c

@[simp] theorem setPte_free {t : Nat} {i : Fin 512} {e : UInt64} : (s.setPte t i e).free = s.free := rfl

/-- One round of `freewalk`'s loop, with `freewalk` of the level below known to free its part. -/
theorem freewalk_round {u d : Nat} {pre : List (Fin 512)} {i : Fin 512} {t : Phys} (hC : Cleared kend s u (d + 1))
    (ih : ∀ w t, Cleared kend t w d → ∃ t', freewalk kend (d + 1) w t = some t' ∧ Frees t w d t')
    (hi : i ∉ pre) (hF : Freed kend s u d pre t) :
    ∃ t', freewalkEntry kend (d + 1) u t i = some t' ∧ Freed kend s u d (pre ++ [i]) t' := by
  obtain ⟨L, hfree, hnd, hL⟩ := hF.free
  rcases hC.entry [] u (by simp) rfl i with h0 | ⟨w, hw, h⟩
  · -- an empty entry: nothing to free
    refine ⟨t, freewalkEntry_zero (by rw [hF.row i hi, h0]), ⟨L, hfree, hnd, fun c => ?_⟩,
      fun j hj => hF.row j fun h => hj (List.mem_append_left _ h),
      fun c hcu hc => hF.frame c hcu fun j hj => hc j (List.mem_append_left _ hj)⟩
    rw [hL c]
    constructor
    · rintro ⟨j, hj, hs⟩
      exact ⟨j, List.mem_append_left _ hj, hs⟩
    · rintro ⟨j, hj, w, hw, hs⟩
      rcases List.mem_append.mp hj with hj | hj
      · exact ⟨j, hj, w, hw, hs⟩
      · rw [List.mem_singleton] at hj
        subst hj
        have hpte := pte_of_mem_allPages hs.1
        exact absurd (hw.symm.trans h0) (pa2pte_or_ne_zero hpte.2 (by decide) (by decide))
  · -- an entry that points to a page-table page: the part below it is as it was in `s`
    have hrows : ∀ c, Below s w d c → t.mem c = s.mem c := fun c hc =>
      hF.frame c (fun e => hC.not_below_entry hw h (e ▸ hc)) fun j hj w' h' hw' hs =>
        hi ((hC.below_entry_inj hw h hw' h' hc hs) ▸ hj)
    obtain ⟨hCt, hbelow⟩ := (hC.entry_page hw h).congr hrows
    obtain ⟨t', hrun, ⟨L', hfree', hnd', hL'⟩, hframe'⟩ := ih w t hCt
    -- a page of `w`'s part is below entry `i` and no other
    have hsub : ∀ c, c ∈ L' → ∀ j w', s.mem u j = pa2pte w' ||| pteV → w' ∈ allPages kend → Below s w' d c → j = i :=
      fun c hc j w' h' hw' hs => hC.below_entry_inj hw' h' hw h hs ((hbelow c).mp ((hL' c).mp hc))
    refine ⟨t'.setPte u i 0, by rw [freewalkEntry_page hw (by rw [hF.row i hi]; exact h), hrun]; rfl,
      ⟨L' ++ L, by rw [setPte_free, hfree', hfree, List.append_assoc], ?_, fun c => ?_⟩, fun j hj => ?_,
      fun c hcu hc => ?_⟩
    · refine List.nodup_append.mpr ⟨hnd', hnd, fun a ha b hb hab => ?_⟩
      subst hab
      obtain ⟨j, hj, w', h', hw', hs⟩ := (hL a).mp hb
      exact hi (hsub a ha j w' h' hw' hs ▸ hj)
    · rw [List.mem_append, hL', hbelow, hL]
      constructor
      · rintro (hc | ⟨j, hj, hs⟩)
        · exact ⟨i, List.mem_append_right _ (List.mem_singleton_self i), w, h, hw, hc⟩
        · exact ⟨j, List.mem_append_left _ hj, hs⟩
      · rintro ⟨j, hj, w', h', hw', hs⟩
        rcases List.mem_append.mp hj with hj | hj
        · exact .inr ⟨j, hj, w', h', hw', hs⟩
        · rw [List.mem_singleton] at hj
          subst hj
          -- the entry points to `w`
          have hww : w' = w := by
            have := h'.symm.trans h
            have hpte := pte_of_mem_allPages hw
            have hpte' := pte_of_mem_allPages hw'
            rw [← pte2pa_pa2pte_or hpte'.1 hpte'.2 (by decide : pteV.toNat < 1024), this,
              pte2pa_pa2pte_or hpte.1 hpte.2 (by decide)]
          exact .inl (hww ▸ hs)
    · have hji : j ≠ i := fun e => hj (by rw [e]; exact List.mem_append_right _ (List.mem_singleton_self i))
      have hu : ¬ Below t w d u := fun hb => hC.not_below_entry hw h ((hbelow u).mp hb)
      simp only [Phys.setPte, update_self, update_of_ne hji]
      rw [hframe' u hu, hF.row j fun h => hj (List.mem_append_left _ h)]
    · have hcw : ¬ Below t w d c := fun hb =>
        hc i (List.mem_append_right _ (List.mem_singleton_self i)) w h hw ((hbelow c).mp hb)
      simp only [Phys.setPte, update_of_ne hcu]
      rw [hframe' c hcw, hF.frame c hcu fun j hj => hc j (List.mem_append_left _ hj)]

/-- `freewalk` of a part of the tree that holds no leaf frees the part's pages, each once, and
changes no other page. -/
theorem freewalk_spec (d : Nat) :
    ∀ (u : Nat) (s : Phys), Cleared kend s u d → ∃ s', freewalk kend (d + 1) u s = some s' ∧ Frees s u d s' := by
  induction d with
  | zero =>
    intro u s hC
    -- a bottom page has only zero entries: the loop does nothing
    have hrow : ∀ i, s.mem u i = 0 := hC.bottom [] u rfl rfl
    obtain ⟨t, hfold, rfl⟩ := Transition.foldlM_invariant (f := freewalkEntry kend 0 u) (fun _ t => t = s)
      (l := List.finRange 512) rfl fun pre i suf t _ ht => ⟨t, by rw [ht]; exact freewalkEntry_zero (hrow i), ht⟩
    have hu : u ∈ allPages kend := hC.page [] u (by simp) rfl
    have hbelow : ∀ c, Below t u 0 c ↔ c = u := fun c => ⟨fun ⟨r, hr, hc⟩ => by
      rw [List.eq_nil_of_length_eq_zero (Nat.le_zero.mp hr)] at hc
      exact (Option.some.inj hc).symm, fun e => e ▸ below_self t u 0⟩
    refine ⟨t.push u, by rw [freewalk_succ, hfold, Option.bind_some, kfree_of_mem_allPages hu],
      ⟨⟨[u], rfl, List.nodup_singleton u, fun c => by rw [hbelow, List.mem_singleton]⟩, fun c hc => ?_⟩⟩
    exact update_of_ne (fun e => hc ((hbelow c).mpr e)) _ _
  | succ d ih =>
    intro u s hC
    have hinit : Freed kend s u d [] s := ⟨⟨[], rfl, List.nodup_nil, by simp⟩, fun _ _ => rfl, fun _ _ _ => rfl⟩
    obtain ⟨t, hfold, hF⟩ := Transition.foldlM_invariant (Freed kend s u d) (l := List.finRange 512) hinit
      fun pre i suf t hl ht => by
      -- the entries are visited once each
      have hnd := List.nodup_finRange 512
      rw [← hl] at hnd
      exact freewalk_round hC ih (fun h => (List.nodup_append.mp hnd).2.2 i h i List.mem_cons_self rfl) ht
    obtain ⟨L, hfree, hnd, hL⟩ := hF.free
    have hu : u ∈ allPages kend := hC.page [] u (by simp) rfl
    refine ⟨t.push u, by rw [freewalk_succ, hfold, Option.bind_some, kfree_of_mem_allPages hu], ⟨⟨u :: L,
      by simp [Phys.push, hfree], List.nodup_cons.mpr ⟨fun h => ?_, hnd⟩, fun c => ?_⟩, fun c hc => ?_⟩⟩
    · obtain ⟨i, -, w, h, hw, hb⟩ := (hL u).mp h
      exact hC.not_below_entry hw h hb
    · rw [List.mem_cons, hL, below_succ hC]
      simp only [List.mem_finRange, true_and]
    · rw [below_succ hC, not_or] at hc
      have hcu : c ≠ u := hc.1
      simp only [Phys.push]
      rw [update_of_ne hcu, hF.frame c hcu fun i _ w h hw hb => hc.2 ⟨i, w, h, hw, hb⟩]

/-- A well-formed table whose leaves are all `0` holds no leaf, three levels deep. -/
theorem Tree.cleared (hT : Tree kend s root) (h0 : ∀ va < 2 ^ 39, pteAt s root va = 0) : Cleared kend s root 2 where
  page := hT.page
  entry := hT.entry
  bottom r t hr ht i := by
    match r, hr with
    | [a, b], _ =>
      obtain ⟨va, hva, hpath, hi⟩ := exists_va a b i
      rw [← hi, ← pteAt_of_follow (hpath ▸ ht)]
      exact h0 va hva
  inj := hT.inj

/-- `freewalk(root)` of a table whose leaves are all `0` frees its page-table pages. -/
theorem freewalk_root (hT : Tree kend s root) (h0 : ∀ va < 2 ^ 39, pteAt s root va = 0) :
    ∃ s', freewalk kend 3 root s = some s' ∧ Frees s root 2 s' :=
  freewalk_spec 2 root s (hT.cleared h0)

end Xv6.Vm.Sv39
