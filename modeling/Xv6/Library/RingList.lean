import Mathlib.Data.List.Chain
import Mathlib.Data.List.Nodup
import Mathlib.Logic.Function.Basic

/-!
# Circular doubly linked lists with a sentinel

Every node of type `ν` carries two pointers, `next` and `prev`. The nodes of a list `l` lie on a ring
closed by the sentinel `head` when `head :: l` has no repeated node and any two consecutive nodes of
the cycle `head, l, head` point at each other (`IsRing`). `Links.unlink` and `Links.linkFront` are the
pointer assignments that take a node out of a ring and put one in right after the sentinel; they
keep a ring, of `l` without the node and of the node followed by `l`.

A walk along `next` from `next head` that stops at the sentinel visits `l` in order, and one along
`prev` from `prev head` visits `l` reversed, so a search loop over a ring is `List.find?`
(`IsRing.scan_next`, `IsRing.scan_prev`).
-/

namespace RingList

variable {ν : Type*}

/-- The two pointers of every node. -/
structure Links (ν : Type*) where
  next : ν → ν
  prev : ν → ν

/-- `a` and `b` point at each other. -/
def Links.Linked (L : Links ν) (a b : ν) : Prop := L.next a = b ∧ L.prev b = a

/-- The same pointers, with the directions exchanged. -/
def Links.swap (L : Links ν) : Links ν := ⟨L.prev, L.next⟩

/-- The nodes `l`, in order, lie on a ring closed by `head`. -/
structure IsRing (L : Links ν) (head : ν) (l : List ν) : Prop where
  nodup : (head :: l).Nodup
  chain : (head :: (l ++ [head])).IsChain L.Linked

section Lists

theorem headD_append_singleton (l : List ν) (d : ν) : (l ++ [d]).headD d = l.headD d := by
  cases l <;> rfl

theorem head?_append_singleton (l : List ν) (d : ν) : (l ++ [d]).head? = some (l.headD d) := by
  cases l <;> rfl

theorem headD_mem_append_singleton (l : List ν) (d : ν) : l.headD d ∈ l ++ [d] := by
  cases l <;> simp

theorem nodup_append_singleton {l : List ν} {d : ν} (hnd : (d :: l).Nodup) : (l ++ [d]).Nodup :=
  List.nodup_append.mpr ⟨(List.nodup_cons.mp hnd).2, List.nodup_singleton d, fun a ha c hc => by
    rw [List.mem_singleton] at hc
    rintro rfl
    exact (List.nodup_cons.mp hnd).1 (hc ▸ ha)⟩

/-- In a list without repetitions, the tail avoids the first element. -/
theorem ne_headD_of_mem_tail {m : List ν} (hnd : m.Nodup) {y d : ν} (hy : y ∈ m.tail) : y ≠ m.headD d := by
  cases m with
  | nil => cases hy
  | cons a m =>
    rintro rfl
    exact (List.nodup_cons.mp hnd).1 hy

theorem ne_of_mem_dropLast {m : List ν} (hnd : m.Nodup) {x u : ν} (hx : x ∈ m.dropLast) (hlast : m.getLast? = some u) :
    x ≠ u := by
  rintro rfl
  rw [← List.dropLast_append_getLast? x hlast] at hnd
  exact (List.nodup_append.mp hnd).2.2 x hx x (List.mem_singleton_self x) rfl

/-- Two link structures that agree on the pointers a chain reads have the same chains. -/
theorem isChain_linked_of_agree {L L' : Links ν} : ∀ {m : List ν}, m.IsChain L.Linked →
    (∀ x ∈ m.dropLast, L'.next x = L.next x) → (∀ y ∈ m.tail, L'.prev y = L.prev y) → m.IsChain L'.Linked
  | [], _, _, _ => .nil
  | [a], _, _, _ => .singleton a
  | a :: b :: m, h, hnext, hprev => by
    rw [List.isChain_cons_cons] at h ⊢
    obtain ⟨⟨hab, hba⟩, hrest⟩ := h
    refine ⟨⟨(hnext a (by simp)).trans hab, (hprev b (by simp)).trans hba⟩,
      isChain_linked_of_agree hrest (fun x hx => hnext x ?_) (fun y hy => hprev y (List.mem_cons_of_mem b hy))⟩
    rw [List.dropLast_cons_cons]
    exact List.mem_cons_of_mem a hx

end Lists

theorem isRing_nil {L : Links ν} {head : ν} (hnext : L.next head = head) (hprev : L.prev head = head) :
    IsRing L head [] :=
  ⟨List.nodup_singleton head, by simpa [Links.Linked] using ⟨hnext, hprev⟩⟩

section Ring

variable {L : Links ν} {head : ν} {l : List ν}

/-- The sentinel points at the first node of the ring, and it back at the sentinel. -/
theorem IsRing.linked_head (h : IsRing L head l) : L.Linked head (l.headD head) :=
  (List.isChain_cons.mp h.chain).1 _ (by rw [head?_append_singleton]; rfl)

theorem IsRing.head_not_mem (h : IsRing L head l) : head ∉ l := (List.nodup_cons.mp h.nodup).1

theorem IsRing.swap (h : IsRing L head l) : IsRing L.swap head l.reverse := by
  refine ⟨List.nodup_cons.mpr ⟨by simpa using h.head_not_mem, List.nodup_reverse.mpr (List.nodup_cons.mp h.nodup).2⟩, ?_⟩
  have hrev : head :: (l.reverse ++ [head]) = (head :: (l ++ [head])).reverse := by simp
  rw [hrev, List.isChain_reverse]
  exact h.chain.imp fun _ _ hab => ⟨hab.2, hab.1⟩

end Ring

variable [DecidableEq ν]

/-- `b->next->prev = b->prev; b->prev->next = b->next;` -/
def Links.unlink (L : Links ν) (b : ν) : Links ν :=
  let prev := Function.update L.prev (L.next b) (L.prev b)
  let next := Function.update L.next (prev b) (L.next b)
  ⟨next, prev⟩

/-- `b->next = head->next; b->prev = head; head->next->prev = b; head->next = b;` -/
def Links.linkFront (L : Links ν) (head b : ν) : Links ν :=
  let next := Function.update L.next b (L.next head)
  let prev := Function.update L.prev b head
  let prev := Function.update prev (next head) b
  let next := Function.update next head b
  ⟨next, prev⟩

@[simp] theorem unlink_next (L : Links ν) (b x : ν) :
    (L.unlink b).next x = if x = L.prev b then L.next b else L.next x := by
  simp [Links.unlink, Function.update_apply]

@[simp] theorem unlink_prev (L : Links ν) (b x : ν) :
    (L.unlink b).prev x = if x = L.next b then L.prev b else L.prev x := by
  simp [Links.unlink, Function.update_apply]

@[simp] theorem linkFront_next (L : Links ν) (head b x : ν) :
    (L.linkFront head b).next x = if x = head then b else if x = b then L.next head else L.next x := by
  simp [Links.linkFront, Function.update_apply]

@[simp] theorem linkFront_prev (L : Links ν) (head b x : ν) :
    (L.linkFront head b).prev x = if x = L.next head then b else if x = b then head else L.prev x := by
  simp [Links.linkFront, Function.update_apply]

section Ring

variable {L : Links ν} {head b : ν} {l : List ν}

/-- Linking a node in after the sentinel puts it first on the ring. -/
theorem IsRing.linkFront (h : IsRing L head l) (hb : b ∉ head :: l) : IsRing (L.linkFront head b) head (b :: l) := by
  have hbh : b ≠ head := fun e => hb (e ▸ List.mem_cons_self)
  have hbl : b ∉ l := fun e => hb (List.mem_cons_of_mem _ e)
  have hnd : (l ++ [head]).Nodup := nodup_append_singleton h.nodup
  obtain ⟨hnext, -⟩ := h.linked_head
  have hfmem := headD_mem_append_singleton l head
  generalize hf : l.headD head = f at hnext hfmem
  have hbf : b ≠ f := by
    rintro rfl
    rcases List.mem_append.mp hfmem with hl | hl
    · exact hbl hl
    · exact hbh (List.mem_singleton.mp hl)
  refine ⟨List.nodup_cons.mpr ⟨by simp [hbh.symm, h.head_not_mem], List.nodup_cons.mpr ⟨hbl, (List.nodup_cons.mp h.nodup).2⟩⟩, ?_⟩
  show (head :: b :: (l ++ [head])).IsChain _
  rw [List.isChain_cons_cons, List.isChain_cons]
  refine ⟨⟨by simp, by simp [hnext, hbf]⟩, fun y hy => ?_, ?_⟩
  · -- `b` and the old first node point at each other
    rw [head?_append_singleton, hf, Option.mem_some_iff] at hy
    subst hy
    exact ⟨by simp [hbh, hnext], by simp [hnext]⟩
  · -- every other pointer the old ring reads is unchanged
    refine isChain_linked_of_agree (List.isChain_cons.mp h.chain).2 (fun x hx => ?_) (fun y hy => ?_)
    · rw [List.dropLast_concat] at hx
      have hxh : x ≠ head := fun e => h.head_not_mem (e ▸ hx)
      have hxb : x ≠ b := fun e => hbl (e ▸ hx)
      simp [hxh, hxb]
    · have hyf : y ≠ f := by
        rw [← hf, ← headD_append_singleton l head]
        exact ne_headD_of_mem_tail hnd hy
      have hyb : y ≠ b := by
        rintro rfl
        rcases List.mem_append.mp (List.mem_of_mem_tail hy) with hl | hl
        · exact hbl hl
        · exact hbh (List.mem_singleton.mp hl)
      simp [hnext, hyf, hyb]

/-- Unlinking a node takes it out of the ring and closes the gap. -/
theorem IsRing.unlink {l₁ l₂ : List ν} (h : IsRing L head (l₁ ++ b :: l₂)) : IsRing (L.unlink b) head (l₁ ++ l₂) := by
  have hnd := h.nodup
  simp only [List.nodup_cons, List.nodup_append, List.mem_append, List.mem_cons, not_or] at hnd
  obtain ⟨⟨hh₁, -, hh₂⟩, hnd₁, ⟨-, hnd₂⟩, hdisj⟩ := hnd
  have hdisj₂ : ∀ a ∈ l₁, a ∉ l₂ := fun a ha ha₂ => hdisj a ha a (Or.inr ha₂) rfl
  -- the ring is `head :: l₁`, then `b`, then `l₂ ++ [head]`
  have hchain := h.chain
  rw [show head :: (l₁ ++ b :: l₂ ++ [head]) = (head :: l₁) ++ b :: (l₂ ++ [head]) by simp,
    List.isChain_append] at hchain
  obtain ⟨hA, hbB, hub⟩ := hchain
  obtain ⟨hbw, hB⟩ := List.isChain_cons.mp hbB
  obtain ⟨u, hlast⟩ : ∃ u, (head :: l₁).getLast? = some u :=
    ⟨_, List.getLast?_eq_some_getLast (List.cons_ne_nil _ _)⟩
  have hprev_b : L.prev b = u := (hub u hlast b rfl).2
  have hnext_b : L.next b = l₂.headD head := (hbw _ (head?_append_singleton l₂ head)).1
  have hw_mem := headD_mem_append_singleton l₂ head
  have hw_tail : ∀ y ∈ (l₂ ++ [head]).tail, y ≠ l₂.headD head := fun y hy => by
    rw [← headD_append_singleton l₂ head]
    exact ne_headD_of_mem_tail (nodup_append_singleton (List.nodup_cons.mpr ⟨hh₂, hnd₂⟩)) hy
  generalize l₂.headD head = w at hnext_b hw_mem hw_tail
  have hu_mem : u ∈ head :: l₁ := List.mem_of_getLast? hlast
  refine ⟨List.nodup_cons.mpr ⟨by simp [hh₁, hh₂], List.nodup_append.mpr ⟨hnd₁, hnd₂, fun a ha c hc => hdisj a ha c (Or.inr hc)⟩⟩, ?_⟩
  rw [show head :: (l₁ ++ l₂ ++ [head]) = (head :: l₁) ++ (l₂ ++ [head]) by simp, List.isChain_append]
  refine ⟨isChain_linked_of_agree hA (fun x hx => ?_) (fun y hy => ?_),
    isChain_linked_of_agree hB (fun x hx => ?_) (fun y hy => ?_), fun x hx y hy => ?_⟩
  · -- before the gap only the last node's `next` changes
    have hxu : x ≠ u := ne_of_mem_dropLast (List.nodup_cons.mpr ⟨hh₁, hnd₁⟩) hx hlast
    simp [hprev_b, hxu]
  · have hyw : y ≠ w := by
      intro e
      rw [← e] at hw_mem
      rcases List.mem_append.mp hw_mem with h₂ | h₂
      · exact hdisj₂ y hy h₂
      · exact hh₁ (List.mem_singleton.mp h₂ ▸ hy)
    simp [hnext_b, hyw]
  · -- after the gap only the first node's `prev` changes
    rw [List.dropLast_concat] at hx
    have hxu : x ≠ u := by
      intro e
      rw [← e] at hu_mem
      rcases List.mem_cons.mp hu_mem with e' | e'
      · exact hh₂ (e' ▸ hx)
      · exact hdisj₂ x e' hx
    simp [hprev_b, hxu]
  · simp [hnext_b, hw_tail y hy]
  · -- the two nodes around the gap now point at each other
    rw [hlast, Option.mem_some_iff] at hx
    have hyw : y = w := (hbw y hy).1.symm.trans hnext_b
    subst hx hyw
    exact ⟨by simp [hprev_b, hnext_b], by simp [hnext_b, hprev_b]⟩

/-- `binit`'s loop: linking the nodes `bs` in one after another leaves them on the ring in reverse. -/
theorem IsRing.foldl_linkFront (h : IsRing L head l) {bs : List ν} (hbs : (head :: (bs.reverse ++ l)).Nodup) :
    IsRing (bs.foldl (fun L b => L.linkFront head b) L) head (bs.reverse ++ l) := by
  induction bs generalizing L l with
  | nil => simpa using h
  | cons b bs ih =>
    have hrev : (b :: bs).reverse ++ l = bs.reverse ++ b :: l := by simp
    rw [hrev] at hbs ⊢
    have hb : b ∉ head :: l := by
      simp only [List.nodup_cons, List.mem_append, List.mem_cons, not_or, List.nodup_append] at hbs
      simp only [List.mem_cons, not_or]
      exact ⟨fun e => hbs.1.2.1 e.symm, hbs.2.2.1.1⟩
    exact ih (h.linkFront hb) hbs

end Ring

/-- The loop `for(n = start; n != head; n = step(n))` that stops at the first node satisfying `p`,
for at most `fuel` nodes. -/
def scan (step : ν → ν) (head : ν) (p : ν → Bool) : Nat → ν → Option ν
  | 0, _ => none
  | fuel + 1, n => if n = head then none else if p n then some n else scan step head p fuel (step n)

theorem scan_of_isChain {step : ν → ν} {head : ν} (p : ν → Bool) : ∀ {m : List ν} {fuel : Nat},
    (m ++ [head]).IsChain (fun a b => step a = b) → head ∉ m → m.length < fuel →
      scan step head p fuel (m.headD head) = m.find? p
  | _, 0, _, _, hfuel => absurd hfuel (Nat.not_lt_zero _)
  | [], fuel + 1, _, _, _ => by simp [scan]
  | a :: m, fuel + 1, hchain, hhead, hfuel => by
    have ha : a ≠ head := fun e => hhead (e ▸ List.mem_cons_self)
    rw [List.cons_append, List.isChain_cons] at hchain
    have hstep : step a = m.headD head := hchain.1 _ (by rw [head?_append_singleton]; rfl)
    rw [List.headD_cons, scan, if_neg ha, List.find?_cons]
    by_cases hp : p a = true
    · simp [hp]
    · rw [Bool.not_eq_true] at hp
      simp only [hp]
      rw [hstep]
      exact scan_of_isChain p hchain.2 (fun e => hhead (List.mem_cons_of_mem a e)) (by simp at hfuel; omega)

variable {L : Links ν} {head : ν} {l : List ν}

/-- The walk from the first node along `next` is `List.find?` on the ring. -/
theorem IsRing.scan_next (h : IsRing L head l) (p : ν → Bool) {fuel : Nat} (hfuel : l.length < fuel) :
    scan L.next head p fuel (L.next head) = l.find? p := by
  rw [h.linked_head.1]
  exact scan_of_isChain p (((List.isChain_cons.mp h.chain).2).imp fun _ _ hl => hl.1) h.head_not_mem hfuel

/-- The walk from the last node along `prev` is `List.find?` on the ring reversed. -/
theorem IsRing.scan_prev (h : IsRing L head l) (p : ν → Bool) {fuel : Nat} (hfuel : l.length < fuel) :
    scan L.prev head p fuel (L.prev head) = l.reverse.find? p :=
  h.swap.scan_next p (by simpa using hfuel)

end RingList
