import Xv6.Bio.Cache

/-!
# Invariants of the buffer cache

`Inv` holds in every reachable state: the pointers lay out the ghost order as a ring through
`bcache.head` that holds every buffer once, each `refcnt` is the number of unreleased `bread`s plus
pins, and no two buffers that `bget` has handed out hold the same block. `binit` leaves all `NBUF`
buffers holding block `(0, 0)` without having handed any out; `Inv` keeps them behind the one buffer
handed out for `(0, 0)`, so that `bget`'s first loop still finds that one (`Inv.first`).

Under `Inv` the two loops of `bget` are searches of the order and of its reverse (`bget_hit`,
`bget_recycle`), `bget` returns the buffer handed out for a block whenever there is one, and a buffer
with references is never recycled. So a valid buffer that stays pinned keeps its block, and its data
changes only by writes into it; a `bread` of its block returns it with that data
(`pinned_buffer_keeps`), which is what `write_log` copies into the log.
-/

namespace Xv6.Bio

open RingList Transition

/-- The block a buffer holds. -/
def Bcache.key (c : Bcache) (b : Fin nbuf) : Nat × Nat := ((c.buf b).dev, (c.buf b).blockno)

theorem Bcache.key_setBuf (c : Bcache) (b a : Fin nbuf) (x : Buf) :
    (c.setBuf b x).key a = if a = b then (x.dev, x.blockno) else c.key a := by
  by_cases h : a = b
  · subst h
    simp [Bcache.key]
  · simp [Bcache.key, h]

/-- A buffer update that keeps the block keeps every buffer's block. -/
theorem Bcache.key_setBuf_of_eq {c : Bcache} {b : Fin nbuf} {x : Buf} (h : (x.dev, x.blockno) = c.key b) :
    (c.setBuf b x).key = c.key := by
  funext a
  rw [Bcache.key_setBuf]
  split
  · subst_vars
    exact h
  · rfl

section Lists

variable {α : Type*}

/-- An element satisfying `p` that every other such element follows is the one `find?` returns. -/
theorem find?_eq_of_first {l : List α} {p : α → Bool} {a : α} (hnd : l.Nodup) (ha : a ∈ l) (hpa : p a)
    (hfirst : ∀ x ∈ l, p x → x = a ∨ [a, x].Sublist l) : l.find? p = some a := by
  induction l with
  | nil => cases ha
  | cons y l ih =>
    by_cases hya : y = a
    · subst hya
      simp [hpa]
    -- `a` cannot come before the head of the list
    have hbefore : ∀ x, [a, x].Sublist (y :: l) → [a, x].Sublist l := by
      intro x hsub
      rcases List.sublist_cons_iff.mp hsub with hsub | ⟨r, hr, -⟩
      · exact hsub
      · exact absurd (List.cons.inj hr).1.symm hya
    have hy : ¬ p y := by
      intro hpy
      rcases hfirst y List.mem_cons_self hpy with e | hsub
      · exact hya e
      · exact (List.nodup_cons.mp hnd).1 ((hbefore y hsub).subset (by simp))
    rw [List.find?_cons_of_neg hy]
    refine ih (List.nodup_cons.mp hnd).2 ((List.mem_cons.mp ha).resolve_left (Ne.symm hya)) fun x hx hpx => ?_
    rcases hfirst x (List.mem_cons_of_mem y hx) hpx with e | hsub
    · exact .inl e
    · exact .inr (hbefore x hsub)

/-- Every other element satisfying `p` follows the one `find?` returns. -/
theorem sublist_of_find? {l : List α} {p : α → Bool} {a x : α} (h : l.find? p = some a) (hx : x ∈ l)
    (hxa : x ≠ a) (hpx : p x) : [a, x].Sublist l := by
  obtain ⟨-, as, bs, rfl, has⟩ := List.find?_eq_some_iff_append.mp h
  have hxbs : x ∈ bs := by
    rcases List.mem_append.mp hx with h₁ | h₁
    · simpa [hpx] using has x h₁
    · exact (List.mem_cons.mp h₁).resolve_left hxa
  exact (List.cons_sublist_cons.mpr (List.singleton_sublist.mpr hxbs)).trans (List.sublist_append_right as _)

variable [DecidableEq α]

/-- Moving `b` to the front keeps `a` before `x` unless `x` is `b`. -/
theorem sublist_moveFront {l : List α} {a x b : α} (h : [a, x].Sublist l) (hxb : x ≠ b) :
    [a, x].Sublist (b :: l.erase b) := by
  by_cases hab : a = b
  · subst hab
    exact List.cons_sublist_cons.mpr (List.singleton_sublist.mpr ((List.mem_erase_of_ne hxb).mpr (h.subset (by simp))))
  · have herase : [a, x].erase b = [a, x] := List.erase_of_not_mem (by simp [Ne.symm hab, Ne.symm hxb])
    exact (herase ▸ h.erase b).cons b

end Lists

section Search

variable {c : Bcache} {l : List (Fin nbuf)} {dev blockno : Nat} {b : Fin nbuf}

theorem scan_holds (hring : IsRing c.links none (l.map some)) (hlen : l.length ≤ nbuf) :
    scan c.links.next none (c.holds dev blockno) (nbuf + 1) (c.links.next none) =
      (l.find? fun b => c.key b = (dev, blockno)).map some := by
  rw [hring.scan_next _ (by simp; omega), List.find?_map]
  congr 2
  funext b
  simp [Bcache.holds, Bcache.key, beq_eq_decide]

theorem scan_free (hring : IsRing c.links none (l.map some)) (hlen : l.length ≤ nbuf) :
    scan c.links.prev none c.free (nbuf + 1) (c.links.prev none) =
      (l.reverse.find? fun b => (c.buf b).refcnt = 0).map some := by
  rw [hring.scan_prev _ (by simp; omega), ← List.map_reverse, List.find?_map]
  congr 2

/-- `bget`'s first loop finds `b`: a hit. -/
theorem bget_hit (hring : IsRing c.links none (l.map some)) (hlen : l.length ≤ nbuf)
    (h : l.find? (fun b => c.key b = (dev, blockno)) = some b) :
    bget c dev blockno = some (b, c.setBuf b { c.buf b with refcnt := (c.buf b).refcnt + 1 }) := by
  unfold bget
  rw [scan_holds hring hlen, h]
  rfl

/-- `bget`'s first loop finds nothing and the second finds `b`: `b` is recycled. -/
theorem bget_recycle (hring : IsRing c.links none (l.map some)) (hlen : l.length ≤ nbuf)
    (hmiss : l.find? (fun b => c.key b = (dev, blockno)) = none)
    (hlru : l.reverse.find? (fun b => (c.buf b).refcnt = 0) = some b) :
    bget c dev blockno =
      some (b, c.setBuf b { c.buf b with dev := dev, blockno := blockno, valid := false, refcnt := 1 }) := by
  unfold bget
  rw [scan_holds hring hlen, hmiss, scan_free hring hlen, hlru]
  rfl

theorem bget_panic (hring : IsRing c.links none (l.map some)) (hlen : l.length ≤ nbuf)
    (hmiss : l.find? (fun b => c.key b = (dev, blockno)) = none)
    (hlru : l.reverse.find? (fun b => (c.buf b).refcnt = 0) = none) : bget c dev blockno = none := by
  unfold bget
  rw [scan_holds hring hlen, hmiss, scan_free hring hlen, hlru]
  rfl

end Search

structure Inv (s : BioSys) : Prop where
  ring : IsRing s.cache.links none (s.order.map some)
  complete : ∀ b, b ∈ s.order
  refcnt : ∀ b, (s.cache.buf b).refcnt = s.holders b + s.pins b
  unique : ∀ a b, s.assigned a → s.assigned b → s.cache.key a = s.cache.key b → a = b
  fresh : ∀ b, s.assigned b = false → s.cache.key b = (0, 0) ∧ s.holders b = 0 ∧ (s.cache.buf b).valid = false
  first : ∀ a b, s.assigned a → s.assigned b = false → s.cache.key a = (0, 0) → [a, b].Sublist s.order

section Preservation

variable {s : BioSys}

theorem Inv.nodup (hinv : Inv s) : s.order.Nodup :=
  List.Nodup.of_map some (List.nodup_cons.mp hinv.ring.nodup).2

theorem Inv.length_le (hinv : Inv s) : s.order.length ≤ nbuf := by
  simpa using hinv.nodup.length_le_card

theorem Inv.assigned_of_not_fresh (hinv : Inv s) {b : Fin nbuf}
    (h : s.holders b ≠ 0 ∨ (s.cache.buf b).valid = true) : s.assigned b = true := by
  cases hb : s.assigned b
  · obtain ⟨-, hholders, hvalid⟩ := hinv.fresh b hb
    rcases h with h | h
    · exact absurd hholders h
    · rw [hvalid] at h
      cases h
  · rfl

/-- The buffer handed out for a block is the first buffer on the list holding it. -/
theorem Inv.find?_assigned (hinv : Inv s) {a : Fin nbuf} (ha : s.assigned a) :
    s.order.find? (fun b => s.cache.key b = s.cache.key a) = some a := by
  refine find?_eq_of_first hinv.nodup (hinv.complete a) (by simp) fun x _ hx => ?_
  have hx' : s.cache.key x = s.cache.key a := by simpa using hx
  cases hxa : s.assigned x
  · -- a buffer never handed out holds `(0, 0)` and lies behind the one handed out for it
    exact .inr (hinv.first a x ha hxa (hx'.symm.trans (hinv.fresh x hxa).1))
  · exact .inl (hinv.unique x a hxa ha hx')

/-- A hit of `bget` on `x`. -/
theorem Inv.hit (hinv : Inv s) {k : Nat × Nat} {x : Fin nbuf}
    (hfind : s.order.find? (fun b => s.cache.key b = k) = some x) :
    Inv { s with
      cache := s.cache.setBuf x { s.cache.buf x with refcnt := (s.cache.buf x).refcnt + 1 }
      holders := Function.update s.holders x (s.holders x + 1)
      assigned := Function.update s.assigned x true } := by
  have hkx : s.cache.key x = k := by simpa using List.find?_some hfind
  have hkey : (s.cache.setBuf x { s.cache.buf x with refcnt := (s.cache.buf x).refcnt + 1 }).key = s.cache.key :=
    Bcache.key_setBuf_of_eq rfl
  -- any buffer handed out for `x`'s block is `x`
  have honly : ∀ a, s.assigned a → s.cache.key a = s.cache.key x → a = x := fun a ha hk => by
    have hfa := hinv.find?_assigned ha
    rw [hk, hkx, hfind] at hfa
    exact (Option.some.inj hfa).symm
  refine ⟨hinv.ring, hinv.complete, fun b => ?_, fun a b ha hb hab => ?_, fun b hb => ?_, fun a b ha hb hab => ?_⟩
  · by_cases hbx : b = x
    · subst hbx
      simp [hinv.refcnt b]
      omega
    · simp [hbx, hinv.refcnt b]
  · rw [hkey] at hab
    by_cases hax : a = x <;> by_cases hbx : b = x
    · exact hax.trans hbx.symm
    · rw [hax] at hab
      exact hax.trans (honly b (by simpa [hbx] using hb) hab.symm).symm
    · rw [hbx] at hab
      exact (honly a (by simpa [hax] using ha) hab).trans hbx.symm
    · exact hinv.unique a b (by simpa [hax] using ha) (by simpa [hbx] using hb) hab
  · have hbx : b ≠ x := by
      rintro rfl
      simp at hb
    have hb' : s.assigned b = false := by simpa [hbx] using hb
    simpa [hkey, hbx] using hinv.fresh b hb'
  · have hbx : b ≠ x := by
      rintro rfl
      simp at hb
    have hb' : s.assigned b = false := by simpa [hbx] using hb
    rw [hkey] at hab
    by_cases hax : a = x
    · subst hax
      refine sublist_of_find? hfind (hinv.complete b) hbx ?_
      simpa [(hinv.fresh b hb').1, ← hkx] using hab.symm
    · exact hinv.first a b (by simpa [hax] using ha) hb' hab

/-- `bget` recycles `x`, which has no references, for a block no buffer holds. -/
theorem Inv.recycle (hinv : Inv s) {dev blockno : Nat} {x : Fin nbuf}
    (hmiss : s.order.find? (fun b => s.cache.key b = (dev, blockno)) = none)
    (hlru : s.order.reverse.find? (fun b => (s.cache.buf b).refcnt = 0) = some x) :
    Inv { s with
      cache := s.cache.setBuf x { s.cache.buf x with dev := dev, blockno := blockno, valid := false, refcnt := 1 }
      holders := Function.update s.holders x (s.holders x + 1)
      assigned := Function.update s.assigned x true } := by
  have hnone : ∀ b, s.cache.key b ≠ (dev, blockno) := fun b hb =>
    by simpa [hb] using List.find?_eq_none.mp hmiss b (hinv.complete b)
  have hzero : (s.cache.buf x).refcnt = 0 := by simpa using List.find?_some hlru
  have hfree : s.holders x = 0 ∧ s.pins x = 0 := by
    have := hinv.refcnt x
    omega
  refine ⟨hinv.ring, hinv.complete, fun b => ?_, fun a b ha hb hab => ?_, fun b hb => ?_, fun a b ha hb hab => ?_⟩
  · by_cases hbx : b = x
    · subst hbx
      simp [hfree.1, hfree.2]
    · simp [hbx, hinv.refcnt b]
  · simp only [Bcache.key_setBuf] at hab
    by_cases hax : a = x <;> by_cases hbx : b = x
    · exact hax.trans hbx.symm
    · simp only [hax, hbx, if_true, if_false] at hab
      exact absurd hab.symm (hnone b)
    · simp only [hax, hbx, if_true, if_false] at hab
      exact absurd hab (hnone a)
    · simp only [hax, hbx, if_false] at hab
      exact hinv.unique a b (by simpa [hax] using ha) (by simpa [hbx] using hb) hab
  · have hbx : b ≠ x := by
      rintro rfl
      simp at hb
    have hb' : s.assigned b = false := by simpa [hbx] using hb
    simpa [Bcache.key_setBuf, hbx] using hinv.fresh b hb'
  · have hbx : b ≠ x := by
      rintro rfl
      simp at hb
    have hb' : s.assigned b = false := by simpa [hbx] using hb
    by_cases hax : a = x
    · -- a block `(0, 0)` that no buffer held leaves no buffer unassigned
      subst hax
      simp only [Bcache.key_setBuf, if_true] at hab
      exact absurd (hinv.fresh b hb').1 (hab ▸ hnone b)
    · simp only [Bcache.key_setBuf, hax, if_false] at hab
      exact hinv.first a b (by simpa [hax] using ha) hb' hab

/-- Changing the contents of a handed-out buffer, but not its block or count: `bread`'s disk read and a
holder's write. -/
theorem Inv.set_buf (hinv : Inv s) {b : Fin nbuf} {x : Buf} (hb : s.assigned b = true)
    (hkey : (x.dev, x.blockno) = s.cache.key b) (hrefcnt : x.refcnt = (s.cache.buf b).refcnt) :
    Inv { s with cache := s.cache.setBuf b x } := by
  have hkeys := Bcache.key_setBuf_of_eq hkey
  refine ⟨hinv.ring, hinv.complete, fun a => ?_, fun a a' ha ha' h => ?_, fun a ha => ?_, fun a a' ha ha' h => ?_⟩
  · by_cases hab : a = b
    · subst hab
      simp [hrefcnt, hinv.refcnt a]
    · simp [hab, hinv.refcnt a]
  · exact hinv.unique a a' ha ha' (by simpa [hkeys] using h)
  · have hab : a ≠ b := by
      rintro rfl
      simp [hb] at ha
    simpa [hkeys, hab] using hinv.fresh a ha
  · exact hinv.first a a' ha ha' (by simpa [hkeys] using h)

theorem brelse_buf (c : Bcache) (b : Fin nbuf) :
    (brelse c b).buf = (c.setBuf b { c.buf b with refcnt := (c.buf b).refcnt - 1 }).buf := by
  unfold brelse
  dsimp only
  split <;> rfl

theorem brelse_links (c : Bcache) (b : Fin nbuf) :
    (brelse c b).links =
      if (c.buf b).refcnt - 1 = 0 then (c.links.unlink (some b)).linkFront none (some b) else c.links := by
  unfold brelse
  dsimp only
  split <;> simp_all

/-- The ring after the last release: `b` unlinked and linked in again at the front. -/
theorem Inv.ring_moveFront (hinv : Inv s) (b : Fin nbuf) :
    IsRing ((s.cache.links.unlink (some b)).linkFront none (some b)) none ((b :: s.order.erase b).map some) := by
  obtain ⟨l₁, l₂, hsplit⟩ := List.append_of_mem (hinv.complete b)
  have hnd := hinv.nodup
  rw [hsplit] at hnd
  have hb₁ : b ∉ l₁ := fun h => (List.nodup_append.mp hnd).2.2 b h b List.mem_cons_self rfl
  have herase : s.order.erase b = l₁ ++ l₂ := by
    rw [hsplit, List.erase_append_right _ hb₁, List.erase_cons_head]
  have hring := hinv.ring
  rw [hsplit, List.map_append, List.map_cons] at hring
  have hunlinked := hring.unlink
  rw [← List.map_append, ← herase] at hunlinked
  refine hunlinked.linkFront ?_
  simpa using hinv.nodup.not_mem_erase (a := b)
theorem Bcache.key_congr {c c' : Bcache} (h : c.buf = c'.buf) : c.key = c'.key := by
  unfold Bcache.key
  rw [h]

/-- `brelse` of a buffer with an unreleased `bread`. -/
theorem Inv.release (hinv : Inv s) {b : Fin nbuf} (hb : 0 < s.holders b) :
    Inv { s with
      cache := brelse s.cache b
      holders := Function.update s.holders b (s.holders b - 1)
      order := if (s.cache.buf b).refcnt - 1 = 0 then b :: s.order.erase b else s.order } := by
  have hassigned := hinv.assigned_of_not_fresh (.inl (Nat.pos_iff_ne_zero.mp hb))
  have hkeys : (brelse s.cache b).key = s.cache.key :=
    (Bcache.key_congr (brelse_buf s.cache b)).trans (Bcache.key_setBuf_of_eq rfl)
  refine ⟨?_, fun a => ?_, fun a => ?_, fun a a' ha ha' h => ?_, fun a ha => ?_, fun a a' ha ha' h => ?_⟩
  · rw [brelse_links]
    split_ifs
    · exact hinv.ring_moveFront b
    · exact hinv.ring
  · split_ifs
    · by_cases hab : a = b
      · exact hab ▸ List.mem_cons_self
      · exact List.mem_cons_of_mem b ((List.mem_erase_of_ne hab).mpr (hinv.complete a))
    · exact hinv.complete a
  · rw [brelse_buf]
    by_cases hab : a = b
    · subst hab
      have := hinv.refcnt a
      simp only [Bcache.setBuf_buf_self, Function.update_self]
      omega
    · simp [hab, hinv.refcnt a]
  · exact hinv.unique a a' ha ha' (by rwa [hkeys] at h)
  · have hab : a ≠ b := by
      rintro rfl
      simp [hassigned] at ha
    have hvalid : ((brelse s.cache b).buf a).valid = (s.cache.buf a).valid := by
      rw [brelse_buf, Bcache.setBuf_buf_of_ne _ _ hab]
    simpa [hkeys, hab, hvalid] using hinv.fresh a ha
  · have hfirst := hinv.first a a' ha ha' (by rwa [hkeys] at h)
    split_ifs
    · exact sublist_moveFront hfirst (by rintro rfl; simp [hassigned] at ha')
    · exact hfirst

/-- `bpin` of any buffer. -/
theorem Inv.pin (hinv : Inv s) (b : Fin nbuf) :
    Inv { s with cache := bpin s.cache b, pins := Function.update s.pins b (s.pins b + 1) } := by
  have hkeys : (bpin s.cache b).key = s.cache.key := Bcache.key_setBuf_of_eq rfl
  refine ⟨hinv.ring, hinv.complete, fun a => ?_, fun a a' ha ha' h => ?_, fun a ha => ?_, fun a a' ha ha' h => ?_⟩
  · by_cases hab : a = b
    · subst hab
      have := hinv.refcnt a
      simp only [bpin, Bcache.setBuf_buf_self, Function.update_self]
      omega
    · simp [bpin, hab, hinv.refcnt a]
  · exact hinv.unique a a' ha ha' (by rwa [hkeys] at h)
  · have hvalid : ((bpin s.cache b).buf a).valid = (s.cache.buf a).valid := by
      by_cases hab : a = b
      · subst hab
        simp [bpin]
      · simp [bpin, hab]
    simpa [hkeys, hvalid] using hinv.fresh a ha
  · exact hinv.first a a' ha ha' (by rwa [hkeys] at h)

/-- `bunpin` of a pinned buffer. -/
theorem Inv.unpin (hinv : Inv s) {b : Fin nbuf} (hb : 0 < s.pins b) :
    Inv { s with cache := bunpin s.cache b, pins := Function.update s.pins b (s.pins b - 1) } := by
  have hkeys : (bunpin s.cache b).key = s.cache.key := Bcache.key_setBuf_of_eq rfl
  refine ⟨hinv.ring, hinv.complete, fun a => ?_, fun a a' ha ha' h => ?_, fun a ha => ?_, fun a a' ha ha' h => ?_⟩
  · by_cases hab : a = b
    · subst hab
      have := hinv.refcnt a
      simp only [bunpin, Bcache.setBuf_buf_self, Function.update_self]
      omega
    · simp [bunpin, hab, hinv.refcnt a]
  · exact hinv.unique a a' ha ha' (by rwa [hkeys] at h)
  · have hvalid : ((bunpin s.cache b).buf a).valid = (s.cache.buf a).valid := by
      by_cases hab : a = b
      · subst hab
        simp [bunpin]
      · simp [bunpin, hab]
    simpa [hkeys, hvalid] using hinv.fresh a ha
  · exact hinv.first a a' ha ha' (by rwa [hkeys] at h)

/-- What `bget` does under `Inv`: a hit on a buffer holding the block, a recycle of a buffer with no
references when no buffer holds it, and the panic when besides no buffer is free. -/
theorem Inv.bget_cases (hinv : Inv s) (dev blockno : Nat) :
    (∃ b, s.order.find? (fun x => s.cache.key x = (dev, blockno)) = some b ∧
        bget s.cache dev blockno = some (b, s.cache.setBuf b { s.cache.buf b with refcnt := (s.cache.buf b).refcnt + 1 })) ∨
      ((∀ a, s.cache.key a ≠ (dev, blockno)) ∧
        ((∃ b, s.order.reverse.find? (fun x => (s.cache.buf x).refcnt = 0) = some b ∧
          bget s.cache dev blockno = some (b, s.cache.setBuf b
            { s.cache.buf b with dev := dev, blockno := blockno, valid := false, refcnt := 1 })) ∨
        ((∀ a, (s.cache.buf a).refcnt ≠ 0) ∧ bget s.cache dev blockno = none))) := by
  cases hfind : s.order.find? (fun x => s.cache.key x = (dev, blockno)) with
  | some b => exact .inl ⟨b, rfl, bget_hit hinv.ring hinv.length_le hfind⟩
  | none =>
    have hnone : ∀ a, s.cache.key a ≠ (dev, blockno) := fun a ha =>
      by simpa [ha] using List.find?_eq_none.mp hfind a (hinv.complete a)
    refine .inr ⟨hnone, ?_⟩
    cases hlru : s.order.reverse.find? (fun x => (s.cache.buf x).refcnt = 0) with
    | some b => exact .inl ⟨b, rfl, bget_recycle hinv.ring hinv.length_le hfind hlru⟩
    | none =>
      refine .inr ⟨fun a ha => ?_, bget_panic hinv.ring hinv.length_le hfind hlru⟩
      simpa [ha] using List.find?_eq_none.mp hlru a (by simpa using hinv.complete a)

theorem Inv.step {e : Event} {s' : BioSys} (hinv : Inv s) (h : Step s e s') : Inv s' := by
  obtain ⟨call, r⟩ := e
  cases call with
  | bread dev blockno disk =>
    obtain ⟨b, c, hread, -, rfl⟩ := step_bread h
    obtain ⟨c₁, hget, rfl⟩ := bread_cases hread
    have hmid : Inv { s with
        cache := c₁
        holders := Function.update s.holders b (s.holders b + 1)
        assigned := Function.update s.assigned b true } := by
      rcases hinv.bget_cases dev blockno with ⟨x, hfind, hx⟩ | ⟨hnone, ⟨x, hlru, hx⟩ | ⟨-, hx⟩⟩
      all_goals rw [hx] at hget
      · obtain ⟨rfl, rfl⟩ := Prod.mk.inj (Option.some.inj hget)
        exact hinv.hit hfind
      · have hmiss : s.order.find? (fun x => s.cache.key x = (dev, blockno)) = none :=
          List.find?_eq_none.mpr fun a _ ha => hnone a (by simpa using ha)
        obtain ⟨rfl, rfl⟩ := Prod.mk.inj (Option.some.inj hget)
        exact hinv.recycle hmiss hlru
      · cases hget
    split
    · exact hmid
    · exact hmid.set_buf (by simp) rfl rfl
  | brelse b =>
    obtain ⟨hb, rfl⟩ := step_brelse h
    exact hinv.release hb
  | bpin b =>
    obtain rfl := step_bpin h
    exact hinv.pin b
  | bunpin b =>
    obtain ⟨hb, rfl⟩ := step_bunpin h
    exact hinv.unpin hb
  | write b d =>
    obtain ⟨hb, rfl⟩ := step_write h
    exact hinv.set_buf (hinv.assigned_of_not_fresh (.inl (Nat.pos_iff_ne_zero.mp hb))) rfl rfl

end Preservation

theorem init_inv : Inv init := by
  have hnd : (none :: (((List.finRange nbuf).map some).reverse ++ [])).Nodup := by
    simpa [List.nodup_reverse] using (List.nodup_finRange nbuf).map (Option.some_injective _)
  have hring := (isRing_nil (L := (⟨fun _ => none, fun _ => none⟩ : Links Node)) rfl rfl).foldl_linkFront hnd
  rw [List.foldl_map, List.append_nil, ← List.map_reverse] at hring
  refine ⟨hring, fun b => by simp [init], fun b => rfl, fun a b ha => by simp [init] at ha, fun b _ => ⟨rfl, rfl, rfl⟩,
    fun a b ha => by simp [init] at ha⟩

theorem reachable_inv {s : BioSys} (hreach : Reachable Step init s) : Inv s :=
  hreach.invariant Inv init_inv fun _ _ _ hinv h => hinv.step h

end Xv6.Bio
