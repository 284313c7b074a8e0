import Mathlib
import Xv6.Library.Run

/-!
# The virtio disk driver's descriptors and rings

`virtio_disk_rw` hands the device a request as a chain of three of the `NUM` descriptors, head,
data and status, linked by `VRING_DESC_F_NEXT` and `next`. It puts the head in the avail ring at
`avail->idx % NUM` and sleeps until `b->disk` is `0`. The device takes heads from the avail ring in
order, completes them in any order, and puts each completed head in the used ring at
`used->idx % NUM`. `virtio_disk_intr` walks the used ring from its own `used_idx` and clears `b->disk`
of the buffer recorded at each head; the woken requester frees its chain with `free_chain`.

The system is `Step`: the stretches of `virtio_disk_rw` between its sleeps, one pass of the loop of
`virtio_disk_intr`, and the device's two moves, in any interleaving. The only assumption on the
device is the one in its model: it completes only heads it read from the avail ring, each once. A
request starts only on a buffer no other request holds, as the buffer's sleep-lock ensures.

`Inv` is what holds between steps. The descriptors are partitioned into the free ones and the
chains of the waiting requests, each linked head to data to status. The heads in the avail ring
from the device's position to `avail->idx`, those the device holds, and those in the used ring from
`used_idx` to `used->idx` are distinct, and they are exactly the heads of the requests whose
`b->disk` is `1`. The rings are read through the free-running 16-bit counters, so this is where the
wrap of `avail->idx` and `used_idx` is accounted for: fewer than `NUM` heads are ever between two
counters, and `NUM` divides `2^16`. From `Inv`, `free_chain` finds the three descriptors of its chain
and frees exactly those, and each pass of `virtio_disk_intr` finds a buffer and a zero status at the
head it reads (`virtio_descriptors`).
-/

namespace Xv6.Dev.Virtio

open Transition

/-- `NUM`: the number of descriptors, and the number of entries of each ring. -/
def num : Nat := 8

instance : NeZero num := ⟨by decide⟩

/-- `VRING_DESC_F_NEXT`: the chain goes on at `next`. -/
def vringDescFNext : UInt16 := 1

/-- `VRING_DESC_F_WRITE`: the device writes this buffer. -/
def vringDescFWrite : UInt16 := 2

/-- `struct virtq_desc` without `addr` and `len`, which only the device reads. -/
structure Desc where
  flags : UInt16
  next : UInt16
  deriving DecidableEq, Repr

/-- `disk.info[i]`: the buffer of the request whose chain starts at `i` (`none` for a null pointer),
and the status byte the device writes. -/
structure Info where
  b : Option Nat
  status : UInt8
  deriving DecidableEq, Repr

/-- `struct virtq_avail`: the driver's ring of chain heads and its free-running index. -/
structure Avail where
  idx : UInt16
  ring : Fin num → UInt16

/-- `struct virtq_used`: the device's ring of completed heads (the `id` of each entry) and its
free-running index. -/
structure Used where
  idx : UInt16
  ring : Fin num → UInt32

/-- `disk` without its lock and the command headers `ops`, which only the device reads. -/
structure Disk where
  desc : Fin num → Desc
  avail : Avail
  used : Used
  free : Fin num → Bool
  usedIdx : UInt16
  info : Fin num → Info

/-- The ring slot of counter `k`: `k % NUM`. -/
def slot (k : UInt16) : Fin num := ⟨k.toNat % num, Nat.mod_lt _ (Nat.pos_of_neZero num)⟩

section Rings

variable {α : Type*}

/-- The entries of a ring from counter `r` up to counter `w`, oldest first. The counters run free
over 16 bits and only the slot is taken modulo `NUM`. -/
def ringView (ring : Fin num → α) (r w : UInt16) : List α :=
  (List.range (w - r).toNat).map fun k => ring (slot (r + UInt16.ofNat k))

theorem num_dvd : num ∣ 2 ^ 16 := ⟨2 ^ 13, by norm_num [num]⟩

/-- The slot of the counter `k` places after `r` does not see the wrap of the counter. -/
theorem slot_add (r : UInt16) (k : Nat) :
    slot (r + UInt16.ofNat k) = ⟨(r.toNat + k) % num, Nat.mod_lt _ (Nat.pos_of_neZero num)⟩ := by
  ext
  simp only [slot, UInt16.toNat_add, UInt16.toNat_ofNat']
  rw [Nat.mod_mod_of_dvd _ num_dvd, Nat.add_mod, Nat.mod_mod_of_dvd k num_dvd, ← Nat.add_mod]

theorem add_sub_count (r w : UInt16) : r + UInt16.ofNat (w - r).toNat = w := by
  rw [UInt16.ofNat_toNat]
  grind

@[simp] theorem ringView_length (ring : Fin num → α) (r w : UInt16) : (ringView ring r w).length = (w - r).toNat := by
  simp [ringView]

@[simp] theorem ringView_self (ring : Fin num → α) (r : UInt16) : ringView ring r r = [] := by
  simp [ringView]

/-- A non-empty stretch of a ring is the entry at `r` followed by the stretch from `r + 1`. -/
theorem ringView_cons (ring : Fin num → α) {r w : UInt16} (h : r ≠ w) :
    ringView ring r w = ring (slot r) :: ringView ring (r + 1) w := by
  have hpos : (w - r).toNat ≠ 0 := fun h0 => h (by
    have : w - r = 0 := UInt16.toNat_inj.mp h0
    grind)
  obtain ⟨c, hc⟩ := Nat.exists_eq_succ_of_ne_zero hpos
  have hc' : (w - (r + 1)).toNat = c := by
    rw [show w - (r + 1) = (w - r) - 1 by grind, UInt16.toNat_sub, hc]
    have := UInt16.toNat_lt (w - r)
    simp only [UInt16.toNat_one]
    omega
  rw [ringView, ringView, hc, hc', List.range_succ_eq_map, List.map_cons, List.map_map]
  congr 1
  · simp
  · refine List.map_congr_left fun k _ => ?_
    simp only [Function.comp_apply, Nat.succ_eq_add_one]
    congr 2
    rw [UInt16.ofNat_add]
    grind

/-- Putting `x` at the slot of `w` and advancing `w` appends `x` to a stretch of fewer than `NUM`. -/
theorem ringView_push (ring : Fin num → α) {r w : UInt16} (h : (w - r).toNat < num) (x : α) :
    ringView (Function.update ring (slot w) x) r (w + 1) = ringView ring r w ++ [x] := by
  have hsucc : (w + 1 - r).toNat = (w - r).toNat + 1 := by
    rw [show w + 1 - r = (w - r) + 1 by grind, UInt16.toNat_add, UInt16.toNat_one]
    exact Nat.mod_eq_of_lt (by unfold num at h; omega)
  rw [ringView, hsucc, List.range_succ, List.map_append, ringView]
  congr 1
  · -- the slots of the older entries are not the slot written
    refine List.map_congr_left fun k hk => ?_
    rw [List.mem_range] at hk
    rw [Function.update_of_ne]
    rw [← add_sub_count r w, slot_add, slot_add]
    intro heq
    rw [Fin.mk.injEq] at heq
    have hmod := Nat.ModEq.add_left_cancel' r.toNat heq
    rw [Nat.ModEq, Nat.mod_eq_of_lt (by omega), Nat.mod_eq_of_lt h] at hmod
    omega
  · simp

end Rings

/-! ### The driver -/

/-- `alloc_desc()`: the first free descriptor, now taken. -/
def allocDesc (d : Disk) : Option (Fin num) × Disk :=
  match (List.finRange num).find? (d.free ·) with
  | some i => (some i, { d with free := Function.update d.free i false })
  | none => (none, d)

/-- `free_desc(i)`: `none` is one of its two panics, for an index past the end and for a descriptor
already free. -/
def freeDesc (i : Nat) (d : Disk) : Option Disk :=
  if h : i < num then
    if d.free ⟨i, h⟩ then none
    else some { d with desc := Function.update d.desc ⟨i, h⟩ ⟨0, 0⟩, free := Function.update d.free ⟨i, h⟩ true }
  else none

/-- `free_chain(i)`, with one pass for each descriptor there is: a longer chain has met a free
descriptor, where `free_desc` panics. -/
def freeChain : (fuel : Nat) → (i : Nat) → Disk → Option Disk
  | 0, _, _ => none
  | fuel + 1, i, d =>
    -- reading `desc[i]` past the end is followed by the panic of `free_desc`
    if h : i < num then
      let flag := (d.desc ⟨i, h⟩).flags
      let nxt := (d.desc ⟨i, h⟩).next
      (freeDesc i d).bind fun d => if flag &&& vringDescFNext ≠ 0 then freeChain fuel nxt.toNat d else some d
    else none

/-- The loop of `alloc3_desc(idx)`, with `idx` the descriptors taken so far and `k` still wanted: on a
failure it gives back, in order, the ones it took. The outer `none` is a panic of `free_desc`. -/
def alloc3Loop : (k : Nat) → List (Fin num) → Disk → Option (Option (List (Fin num)) × Disk)
  | 0, idx, d => some (some idx, d)
  | k + 1, idx, d =>
    match allocDesc d with
    | (some i, d) => alloc3Loop k (idx ++ [i]) d
    | (none, d) => (idx.foldlM (fun d (j : Fin num) => freeDesc j.val d) d).map fun d => (none, d)

/-- `alloc3_desc(idx)`: three descriptors, or `none` when it returns `-1`. -/
def alloc3Desc (d : Disk) : Option (Option (List (Fin num)) × Disk) := alloc3Loop 3 [] d

/-- The flags of the data descriptor: the device writes `b->data` on a read. -/
def dataFlags (write : Bool) : UInt16 := (if write then 0 else vringDescFWrite) ||| vringDescFNext

/-- The part of `virtio_disk_rw(b, write)` after `alloc3_desc` gave `idx`: the three descriptors are
formatted and linked, `b` is recorded at the head with status `0xff`, and the head goes into the
avail ring. -/
def submit (b : Nat) (write : Bool) (i0 i1 i2 : Fin num) (d : Disk) : Disk :=
  { d with
    desc := Function.update (Function.update (Function.update d.desc
      i0 ⟨vringDescFNext, UInt16.ofNat i1⟩) i1 ⟨dataFlags write, UInt16.ofNat i2⟩) i2 ⟨vringDescFWrite, 0⟩
    info := Function.update d.info i0 ⟨some b, 0xff⟩
    avail := ⟨d.avail.idx + 1, Function.update d.avail.ring (slot d.avail.idx) (UInt16.ofNat i0)⟩ }

/-- The end of `virtio_disk_rw` once `b->disk` is `0`: `info[idx[0]].b = 0`, then
`free_chain(idx[0])`. -/
def release (i0 : Fin num) (d : Disk) : Option Disk :=
  freeChain num i0 { d with info := Function.update d.info i0 { d.info i0 with b := none } }

/-- One pass of the loop of `virtio_disk_intr`, for `used_idx != used->idx`: the buffer recorded at
the head in the used ring is done. `none` is the panic on a non-zero status, or a head outside
`info`, or a null buffer. -/
def intrPass (d : Disk) (bufDisk : Nat → Bool) : Option (Disk × (Nat → Bool)) :=
  let id := (d.used.ring (slot d.usedIdx)).toNat
  if h : id < num then
    if (d.info ⟨id, h⟩).status ≠ 0 then none
    else match (d.info ⟨id, h⟩).b with
      | none => none
      | some b => some ({ d with usedIdx := d.usedIdx + 1 }, Function.update bufDisk b false)
  else none

section Alloc

variable {d : Disk}

theorem allocDesc_cases (d : Disk) :
    (∃ i, d.free i = true ∧ allocDesc d = (some i, { d with free := Function.update d.free i false })) ∨
      ((∀ i, d.free i = false) ∧ allocDesc d = (none, d)) := by
  unfold allocDesc
  split
  · rename_i i hfind
    exact .inl ⟨i, by simpa using List.find?_some hfind, rfl⟩
  · rename_i hfind
    refine .inr ⟨fun i => ?_, rfl⟩
    simpa using List.find?_eq_none.mp hfind i (List.mem_finRange i)

theorem freeDesc_of_used {i : Fin num} (h : d.free i = false) :
    freeDesc i d = some { d with desc := Function.update d.desc i ⟨0, 0⟩, free := Function.update d.free i true } := by
  simp [freeDesc, h]

/-- `free_desc` over distinct descriptors in use, in order: each is cleared and marked free. -/
theorem foldlM_freeDesc : ∀ (l : List (Fin num)) (d : Disk), l.Nodup → (∀ j ∈ l, d.free j = false) →
    l.foldlM (fun d (j : Fin num) => freeDesc j.val d) d =
      some { d with desc := fun i => if i ∈ l then ⟨0, 0⟩ else d.desc i, free := fun i => if i ∈ l then true else d.free i } := by
  intro l
  induction l with
  | nil => intro d _ _; simp
  | cons a l ih =>
    intro d hnodup hused
    rw [List.nodup_cons] at hnodup
    have hrest : ∀ j ∈ l, (Function.update d.free a true) j = false := fun j hj => by
      rw [Function.update_of_ne (by rintro rfl; exact hnodup.1 hj)]
      exact hused j (List.mem_cons_of_mem a hj)
    rw [List.foldlM_cons, freeDesc_of_used (hused a List.mem_cons_self), Option.bind_eq_bind, Option.bind_some,
      ih _ hnodup.2 hrest]
    congr 2 <;> funext i <;> by_cases hi : i = a <;> simp [hi, Function.update_of_ne]

/-- The loop of `alloc3_desc` after taking the distinct free descriptors `l` out of `d₀` either takes
`k` more distinct free descriptors, or gives back every one it took, leaving only their descriptors
cleared. It never panics. -/
theorem alloc3Loop_spec : ∀ (k : Nat) (l : List (Fin num)) (d₀ : Disk), l.Nodup → (∀ j ∈ l, d₀.free j = true) →
    (∃ new : List (Fin num), new.length = k ∧ (l ++ new).Nodup ∧ (∀ j ∈ new, d₀.free j = true) ∧
      alloc3Loop k l { d₀ with free := fun i => if i ∈ l then false else d₀.free i } =
        some (some (l ++ new), { d₀ with free := fun i => if i ∈ l ++ new then false else d₀.free i })) ∨
    (∃ d', alloc3Loop k l { d₀ with free := fun i => if i ∈ l then false else d₀.free i } = some (none, d') ∧
      d' = { d₀ with desc := d'.desc } ∧ ∀ i, d₀.free i = false → d'.desc i = d₀.desc i) := by
  intro k
  induction k with
  | zero =>
    intro l d₀ _ _
    exact .inl ⟨[], rfl, by simpa, by simp, by simp [alloc3Loop]⟩
  | succ k ih =>
    intro l d₀ hl hfree
    rcases allocDesc_cases { d₀ with free := fun i => if i ∈ l then false else d₀.free i } with
      ⟨a, ha, halloc⟩ | ⟨hnone, halloc⟩
    · -- `a` is free: not one of `l`, and free from the start
      have hal : a ∉ l := fun h => by simp [h] at ha
      have ha₀ : d₀.free a = true := by simpa [hal] using ha
      have hstate : ({ d₀ with free := Function.update (fun i => if i ∈ l then false else d₀.free i) a false } : Disk) =
          { d₀ with free := fun i => if i ∈ l ++ [a] then false else d₀.free i } := by
        congr 1
        funext i
        by_cases hi : i = a <;> simp [hi]
      have hl' : (l ++ [a]).Nodup := List.nodup_append.mpr ⟨hl, List.nodup_singleton a, by simpa using fun j hj (heq : j = a) => hal (heq ▸ hj)⟩
      have hfree' : ∀ j ∈ l ++ [a], d₀.free j = true := by
        simpa [or_imp, forall_and] using ⟨hfree, ha₀⟩
      rw [alloc3Loop, halloc]
      dsimp only
      rw [hstate]
      rcases ih (l ++ [a]) d₀ hl' hfree' with ⟨new, hlen, hnodup, hnew, hloop⟩ | ⟨d', hloop, hd', hdesc⟩
      · refine .inl ⟨a :: new, by simp [hlen], by simpa using hnodup, ?_, by simpa using hloop⟩
        simpa [or_imp, forall_and] using ⟨ha₀, hnew⟩
      · exact .inr ⟨d', hloop, hd', hdesc⟩
    · -- nothing is free: give back `l`
      refine .inr ?_
      rw [alloc3Loop, halloc]
      dsimp only
      rw [foldlM_freeDesc l _ hl (fun j hj => by simp [hj])]
      refine ⟨_, rfl, ?_, fun i hi => ?_⟩
      · congr 1
        funext i
        by_cases hi : i ∈ l <;> simp [hi, hfree]
      · have : i ∉ l := fun h => by simp [hfree i h] at hi
        simp [this]

/-- `alloc3_desc` never panics: it takes three distinct free descriptors, or returns `-1` having
given back every one it took, with only those cleared. -/
theorem alloc3Desc_cases (d : Disk) :
    (∃ i0 i1 i2, [i0, i1, i2].Nodup ∧ d.free i0 = true ∧ d.free i1 = true ∧ d.free i2 = true ∧
      alloc3Desc d = some (some [i0, i1, i2], { d with free := fun i => if i ∈ [i0, i1, i2] then false else d.free i })) ∨
    (∃ d', alloc3Desc d = some (none, d') ∧ d' = { d with desc := d'.desc } ∧ ∀ i, d.free i = false → d'.desc i = d.desc i) := by
  have hstart : ({ d with free := fun i => if i ∈ ([] : List (Fin num)) then false else d.free i } : Disk) = d := by simp
  rcases alloc3Loop_spec 3 [] d List.nodup_nil (by simp) with ⟨new, hlen, hnodup, hnew, hloop⟩ | ⟨d', hloop, hd', hdesc⟩
  · obtain ⟨i0, i1, i2, rfl⟩ := List.length_eq_three.mp hlen
    rw [hstart] at hloop
    exact .inl ⟨i0, i1, i2, by simpa using hnodup, hnew i0 (by simp), hnew i1 (by simp), hnew i2 (by simp), by simpa [alloc3Desc] using hloop⟩
  · rw [hstart] at hloop
    exact .inr ⟨d', hloop, hd', hdesc⟩

theorem alloc3Desc_some {d d' : Disk} {idx : List (Fin num)} (h : alloc3Desc d = some (some idx, d')) :
    ∃ i0 i1 i2, idx = [i0, i1, i2] ∧ [i0, i1, i2].Nodup ∧ d.free i0 = true ∧ d.free i1 = true ∧ d.free i2 = true ∧
      d' = { d with free := fun i => if i ∈ [i0, i1, i2] then false else d.free i } := by
  rcases alloc3Desc_cases d with ⟨i0, i1, i2, hnodup, h0, h1, h2, heq⟩ | ⟨d'', heq, -⟩
  · rw [heq, Option.some.injEq, Prod.mk.injEq, Option.some.injEq] at h
    exact ⟨i0, i1, i2, h.1.symm, hnodup, h0, h1, h2, h.2.symm⟩
  · rw [heq] at h
    cases h

theorem alloc3Desc_none {d d' : Disk} (h : alloc3Desc d = some (none, d')) :
    d' = { d with desc := d'.desc } ∧ ∀ i, d.free i = false → d'.desc i = d.desc i := by
  rcases alloc3Desc_cases d with ⟨i0, i1, i2, -, -, -, -, heq⟩ | ⟨d'', heq, hframe⟩
  · rw [heq] at h
    cases h
  · rw [heq, Option.some.injEq, Prod.mk.injEq] at h
    exact h.2 ▸ hframe

end Alloc

/-- The descriptors `i0, i1, i2` are distinct and linked as `virtio_disk_rw` formats a request. -/
structure Linked (d : Disk) (write : Bool) (i0 i1 i2 : Fin num) : Prop where
  nodup : [i0, i1, i2].Nodup
  head : d.desc i0 = ⟨vringDescFNext, UInt16.ofNat i1⟩
  data : d.desc i1 = ⟨dataFlags write, UInt16.ofNat i2⟩
  status : d.desc i2 = ⟨vringDescFWrite, 0⟩

section Chains

variable {d : Disk} {write : Bool} {i0 i1 i2 : Fin num}

theorem toNat_ofNat_fin (i : Fin num) : (UInt16.ofNat i).toNat = i := by
  rw [UInt16.toNat_ofNat']
  exact Nat.mod_eq_of_lt (lt_trans i.isLt (by decide))

/-- One pass of `free_chain` at a descriptor in use: free it, and go on at `next` if the flags say
the chain goes on. -/
theorem freeChain_succ (fuel : Nat) {i : Fin num} (h : d.free i = false) :
    freeChain (fuel + 1) i d =
      if (d.desc i).flags &&& vringDescFNext ≠ 0 then
        freeChain fuel (d.desc i).next.toNat
          { d with desc := Function.update d.desc i ⟨0, 0⟩, free := Function.update d.free i true }
      else some { d with desc := Function.update d.desc i ⟨0, 0⟩, free := Function.update d.free i true } := by
  simp [freeChain, i.isLt, freeDesc_of_used h]

/-- `free_chain` at the head of a linked chain in use frees its three descriptors in order, as
`free_desc` over them does. -/
theorem freeChain_linked (hlink : Linked d write i0 i1 i2) (hused : ∀ j ∈ [i0, i1, i2], d.free j = false) :
    freeChain num i0 d = [i0, i1, i2].foldlM (fun d (j : Fin num) => freeDesc j.val d) d := by
  obtain ⟨hnodup, hhead, hdata, hstatus⟩ := hlink
  simp only [List.nodup_cons, List.mem_cons, not_or, List.not_mem_nil, not_false_eq_true,
    List.nodup_nil, and_true] at hnodup
  simp only [List.mem_cons, List.not_mem_nil, or_false, forall_eq_or_imp, forall_eq] at hused
  obtain ⟨⟨h01, h02⟩, h12⟩ := hnodup
  obtain ⟨u0, u1, u2⟩ := hused
  -- the disk after each `free_desc`, and what it still holds of the rest of the chain
  set d1 : Disk := { d with desc := Function.update d.desc i0 ⟨0, 0⟩, free := Function.update d.free i0 true }
  have u1' : d1.free i1 = false := by simpa [d1, Function.update_of_ne (Ne.symm h01)] using u1
  set d2 : Disk := { d1 with desc := Function.update d1.desc i1 ⟨0, 0⟩, free := Function.update d1.free i1 true }
  have u2' : d2.free i2 = false := by
    simpa [d2, d1, Function.update_of_ne (Ne.symm h02), Function.update_of_ne (Ne.symm h12)] using u2
  have hdata' : d1.desc i1 = ⟨dataFlags write, UInt16.ofNat i2⟩ := by
    simpa [d1, Function.update_of_ne (Ne.symm h01)] using hdata
  have hstatus' : d2.desc i2 = ⟨vringDescFWrite, 0⟩ := by
    simpa [d2, d1, Function.update_of_ne (Ne.symm h02), Function.update_of_ne (Ne.symm h12)] using hstatus
  have hnext : ∀ w, dataFlags w &&& vringDescFNext ≠ 0 := by decide
  show freeChain (7 + 1) i0 d = _
  rw [freeChain_succ 7 u0, hhead, if_pos (show vringDescFNext &&& vringDescFNext ≠ 0 by decide), toNat_ofNat_fin,
    freeChain_succ 6 u1', hdata', if_pos (hnext write), toNat_ofNat_fin,
    freeChain_succ 5 u2', hstatus', if_neg (show ¬(vringDescFWrite &&& vringDescFNext ≠ 0) by decide)]
  simp only [List.foldlM_cons, List.foldlM_nil, freeDesc_of_used u0, Option.bind_eq_bind, Option.bind_some]
  rw [freeDesc_of_used u1', Option.bind_some, freeDesc_of_used u2', Option.bind_some]
  rfl

/-- Once `b->disk` is `0`, the end of `virtio_disk_rw` forgets the buffer and frees exactly the
three descriptors of its linked chain. -/
theorem release_linked (hlink : Linked d write i0 i1 i2) (hused : ∀ j ∈ [i0, i1, i2], d.free j = false) :
    release i0 d =
      some { d with desc := fun i => if i ∈ [i0, i1, i2] then ⟨0, 0⟩ else d.desc i,
                    free := fun i => if i ∈ [i0, i1, i2] then true else d.free i,
                    info := Function.update d.info i0 { d.info i0 with b := none } } := by
  have hlink' : Linked { d with info := Function.update d.info i0 { d.info i0 with b := none } } write i0 i1 i2 :=
    ⟨hlink.nodup, hlink.head, hlink.data, hlink.status⟩
  rw [release, freeChain_linked hlink' hused]
  exact foldlM_freeDesc _ _ hlink.nodup hused

/-- A pass of `virtio_disk_intr` at a head recorded with buffer `b` and a zero status clears
`b->disk` and moves on. -/
theorem intrPass_of_recorded {bufDisk : Nat → Bool} {i : Fin num} {b : Nat}
    (hid : (d.used.ring (slot d.usedIdx)).toNat = i) (hinfo : d.info i = ⟨some b, 0⟩) :
    intrPass d bufDisk = some ({ d with usedIdx := d.usedIdx + 1 }, Function.update bufDisk b false) := by
  simp [intrPass, hid, hinfo]

end Chains

/-! ### The system -/

/-- Where a process is in `virtio_disk_rw(b, write)`. -/
inductive Pc
  | idle
  /-- In the loop around `alloc3_desc`, holding `b`'s sleep-lock. -/
  | alloc (b : Nat) (write : Bool)
  /-- Asleep until `b->disk` is `0`, with the chain `idx` handed to the device. -/
  | wait (b : Nat) (write : Bool) (i0 i1 i2 : Fin num)
  deriving DecidableEq, Repr

/-- The buffer a process is reading or writing. -/
def Pc.buf : Pc → Option Nat
  | .idle => none
  | .alloc b _ => some b
  | .wait b _ _ _ _ => some b

/-- The descriptors a process has handed to the device. -/
def Pc.chain : Pc → List (Fin num)
  | .wait _ _ i0 i1 i2 => [i0, i1, i2]
  | _ => []

/-- The device: how far it has read the avail ring, and the heads it read and has not completed. -/
structure Device where
  lastAvail : UInt16
  inflight : List Nat

/-- The driver's `disk`, `b->disk` of every buffer, every process, and the device. -/
structure Sys where
  disk : Disk
  bufDisk : Nat → Bool
  proc : Nat → Pc
  dev : Device

/-- After `virtio_disk_init`: every descriptor free, both rings and all counters at zero. -/
def init : Sys :=
  ⟨⟨fun _ => ⟨0, 0⟩, ⟨0, fun _ => 0⟩, ⟨0, fun _ => 0⟩, fun _ => true, 0, fun _ => ⟨none, 0⟩⟩,
    fun _ => false, fun _ => .idle, ⟨0, []⟩⟩

inductive Event
  | start (p b : Nat) (write : Bool)
  | submit (p : Nat)
  | sleep (p : Nat)
  | finish (p : Nat)
  | intr
  | fetch
  | complete (h : Nat)
  deriving DecidableEq, Repr

/-- The steps of the driver's processes, of `virtio_disk_intr`, and of the device. -/
inductive Step : Sys → Event → Sys → Prop
  /-- `bread` or `bwrite` calls `virtio_disk_rw(b, write)`: no other request holds `b`. -/
  | start {s : Sys} {p b : Nat} (write : Bool) : s.proc p = .idle → (∀ q, (s.proc q).buf ≠ some b) →
      Step s (.start p b write) { s with proc := Function.update s.proc p (.alloc b write) }
  /-- `alloc3_desc` succeeds: the request is formatted and handed over, and the process sleeps on
  `b`, whose `b->disk` it has just set. -/
  | submit {s : Sys} {p b : Nat} {write : Bool} {i0 i1 i2 : Fin num} {d : Disk} :
      s.proc p = .alloc b write → alloc3Desc s.disk = some (some [i0, i1, i2], d) →
      Step s (.submit p)
        { s with disk := submit b write i0 i1 i2 d, bufDisk := Function.update s.bufDisk b true,
                 proc := Function.update s.proc p (.wait b write i0 i1 i2) }
  /-- `alloc3_desc` fails and the process sleeps on `disk.free[0]`. -/
  | sleep {s : Sys} {p b : Nat} {write : Bool} {d : Disk} :
      s.proc p = .alloc b write → alloc3Desc s.disk = some (none, d) → Step s (.sleep p) { s with disk := d }
  /-- Woken with `b->disk == 0`, the process frees its chain and returns. -/
  | finish {s : Sys} {p b : Nat} {write : Bool} {i0 i1 i2 : Fin num} {d : Disk} :
      s.proc p = .wait b write i0 i1 i2 → s.bufDisk b = false → release i0 s.disk = some d →
      Step s (.finish p) { s with disk := d, proc := Function.update s.proc p .idle }
  /-- A pass of the loop of `virtio_disk_intr`. -/
  | intr {s : Sys} {d : Disk} {bufDisk : Nat → Bool} :
      s.disk.usedIdx ≠ s.disk.used.idx → intrPass s.disk s.bufDisk = some (d, bufDisk) →
      Step s .intr { s with disk := d, bufDisk := bufDisk }
  /-- The device reads the next head of the avail ring. -/
  | fetch {s : Sys} : s.dev.lastAvail ≠ s.disk.avail.idx →
      Step s .fetch
        { s with dev := ⟨s.dev.lastAvail + 1, s.dev.inflight ++ [(s.disk.avail.ring (slot s.dev.lastAvail)).toNat]⟩ }
  /-- The device completes a head it read: it writes a zero status and puts the head in the used ring. -/
  | complete {s : Sys} {h : Nat} (hmem : h ∈ s.dev.inflight) (hlt : h < num) :
      Step s (.complete h)
        { s with
          disk := { s.disk with
            info := Function.update s.disk.info ⟨h, hlt⟩ { s.disk.info ⟨h, hlt⟩ with status := 0 }
            used := ⟨s.disk.used.idx + 1, Function.update s.disk.used.ring (slot s.disk.used.idx) (UInt32.ofNat h)⟩ }
          dev := { s.dev with inflight := s.dev.inflight.erase h } }

/-! ### What holds between steps -/

/-- The heads in the avail ring the device has not read. -/
def availHeads (s : Sys) : List Nat :=
  (ringView s.disk.avail.ring s.dev.lastAvail s.disk.avail.idx).map UInt16.toNat

/-- The heads in the used ring `virtio_disk_intr` has not seen. -/
def usedHeads (s : Sys) : List Nat :=
  (ringView s.disk.used.ring s.disk.usedIdx s.disk.used.idx).map UInt32.toNat

/-- Every head between the driver and the device, on its way there and back. -/
def pending (s : Sys) : List Nat := availHeads s ++ s.dev.inflight ++ usedHeads s

/-- `h` is the head of a request whose `b->disk` is `1`. -/
def Busy (s : Sys) (h : Nat) : Prop :=
  ∃ p b write i0 i1 i2, s.proc p = .wait b write i0 i1 i2 ∧ h = i0.val ∧ s.bufDisk b = true

/-- The descriptors are the free ones and the linked chains of the waiting requests, each recorded
with its buffer at its head; no two requests hold a buffer; and the heads between the driver and the
device are distinct, are those of the requests whose `b->disk` is `1`, and have a zero status once
they are in the used ring. -/
structure Inv (s : Sys) : Prop where
  linked : ∀ {p b write i0 i1 i2}, s.proc p = .wait b write i0 i1 i2 → Linked s.disk write i0 i1 i2
  recorded : ∀ {p b write i0 i1 i2}, s.proc p = .wait b write i0 i1 i2 → (s.disk.info i0).b = some b
  used_iff : ∀ i, s.disk.free i = false ↔ ∃ p, i ∈ (s.proc p).chain
  disjoint : ∀ {p q i}, i ∈ (s.proc p).chain → i ∈ (s.proc q).chain → p = q
  buf_inj : ∀ {p q b}, (s.proc p).buf = some b → (s.proc q).buf = some b → p = q
  nodup : (pending s).Nodup
  mem_pending : ∀ h, h ∈ pending s ↔ Busy s h
  status : ∀ {p b write i0 i1 i2}, s.proc p = .wait b write i0 i1 i2 → i0.val ∈ usedHeads s →
    (s.disk.info i0).status = 0

theorem inv_init : Inv init where
  linked h := by cases h
  recorded h := by cases h
  used_iff i := by simp [init, Pc.chain]
  disjoint h := by simp [init, Pc.chain] at h
  buf_inj h := by simp [init, Pc.buf] at h
  nodup := by simp [pending, availHeads, usedHeads, init]
  mem_pending h := by simp [pending, availHeads, usedHeads, init, Busy]
  status h := by cases h

section Procs

variable {f : Nat → Pc} {p q : Nat} {X : Pc}

/-- A waiting process after one process changed is the changed one, or waited before. -/
theorem update_eq_wait {b : Nat} {write : Bool} {i0 i1 i2 : Fin num}
    (h : Function.update f p X q = .wait b write i0 i1 i2) :
    (q = p ∧ X = .wait b write i0 i1 i2) ∨ (q ≠ p ∧ f q = .wait b write i0 i1 i2) := by
  by_cases hq : q = p
  · subst hq
    exact .inl ⟨rfl, by simpa using h⟩
  · rw [Function.update_of_ne hq] at h
    exact .inr ⟨hq, h⟩

/-- A process that neither waited nor waits after the change leaves the waiting processes as they were. -/
theorem update_eq_wait_iff (hX : X.chain = []) (hp : (f p).chain = []) {b : Nat} {write : Bool} {i0 i1 i2 : Fin num} :
    Function.update f p X q = .wait b write i0 i1 i2 ↔ f q = .wait b write i0 i1 i2 := by
  by_cases hq : q = p
  · subst hq
    rw [Function.update_self]
    constructor
    · rintro rfl
      simp [Pc.chain] at hX
    · intro h
      rw [h] at hp
      simp [Pc.chain] at hp
  · rw [Function.update_of_ne hq]

theorem chain_update : (Function.update f p X q).chain = if q = p then X.chain else (f q).chain := by
  rw [Function.update_apply]
  split <;> rfl

theorem buf_update : (Function.update f p X q).buf = if q = p then X.buf else (f q).buf := by
  rw [Function.update_apply]
  split <;> rfl

end Procs

/-- A list of distinct descriptor numbers that misses one of them has fewer than `NUM` entries. -/
theorem length_lt_num {l : List Nat} (hl : l.Nodup) (hlt : ∀ x ∈ l, x < num) {y : Nat} (hy : y < num) (hyl : y ∉ l) :
    l.length < num := by
  have hsub : l ⊆ (List.range num).erase y := fun x hx =>
    (List.mem_erase_of_ne (by rintro rfl; exact hyl hx)).mpr (List.mem_range.mpr (hlt x hx))
  have hle := hl.length_le_of_subset hsub
  rw [List.length_erase_of_mem (List.mem_range.mpr hy), List.length_range] at hle
  have : 0 < num := Nat.pos_of_neZero num
  omega

theorem Linked.congr {d d' : Disk} {write : Bool} {i0 i1 i2 : Fin num} (h : Linked d write i0 i1 i2)
    (hdesc : ∀ j ∈ [i0, i1, i2], d'.desc j = d.desc j) : Linked d' write i0 i1 i2 :=
  ⟨h.nodup, by rw [hdesc i0 (by simp), h.head], by rw [hdesc i1 (by simp), h.data], by rw [hdesc i2 (by simp), h.status]⟩

section Inv

variable {s : Sys} {p b : Nat} {write : Bool} {i0 i1 i2 : Fin num}

theorem Inv.chain_used (hinv : Inv s) (hp : s.proc p = .wait b write i0 i1 i2) :
    ∀ j ∈ [i0, i1, i2], s.disk.free j = false :=
  fun j hj => (hinv.used_iff j).mpr ⟨p, by rw [hp]; exact hj⟩

theorem Inv.lt_of_pending (hinv : Inv s) {h : Nat} (hh : h ∈ pending s) : h < num := by
  obtain ⟨q, c, w, j0, j1, j2, -, rfl, -⟩ := (hinv.mem_pending h).mp hh
  exact j0.isLt

/-- No free descriptor is a head on its way to or from the device. -/
theorem Inv.not_pending_of_free (hinv : Inv s) {i : Fin num} (hi : s.disk.free i = true) : i.val ∉ pending s := by
  intro hmem
  obtain ⟨q, c, w, j0, j1, j2, hq, hj, -⟩ := (hinv.mem_pending _).mp hmem
  obtain rfl : i = j0 := Fin.ext hj
  have := hinv.chain_used hq i (by simp)
  rw [hi] at this
  cases this

/-- Two waiting requests with a descriptor in common are one. -/
theorem Inv.eq_of_mem_chain (hinv : Inv s) {q c w j0 j1 j2} (hp : s.proc p = .wait b write i0 i1 i2)
    (hq : s.proc q = .wait c w j0 j1 j2) {i : Fin num} (hi : i ∈ [i0, i1, i2]) (hj : i ∈ [j0, j1, j2]) : p = q :=
  hinv.disjoint (i := i) (by rw [hp]; exact hi) (by rw [hq]; exact hj)

end Inv

section Steps

variable {s : Sys}

theorem Busy.of_wait_iff {s' : Sys} (hbuf : s'.bufDisk = s.bufDisk)
    (hwait : ∀ {q b write i0 i1 i2}, s'.proc q = .wait b write i0 i1 i2 ↔ s.proc q = .wait b write i0 i1 i2) (h : Nat) :
    Busy s' h ↔ Busy s h := by
  simp only [Busy, hbuf, hwait]

/-- `virtio_disk_rw` starts on a buffer no request holds. -/
theorem Inv.start (hinv : Inv s) {p b : Nat} {write : Bool} (hp : s.proc p = .idle) (hb : ∀ q, (s.proc q).buf ≠ some b) :
    Inv { s with proc := Function.update s.proc p (.alloc b write) } := by
  have hwait : ∀ {q c w i0 i1 i2}, Function.update s.proc p (.alloc b write) q = .wait c w i0 i1 i2 ↔
      s.proc q = .wait c w i0 i1 i2 :=
    update_eq_wait_iff rfl (by rw [hp]; rfl)
  have hchain : ∀ q, (Function.update s.proc p (.alloc b write) q).chain = (s.proc q).chain := fun q => by
    rw [chain_update]
    split
    · subst q; rw [hp]; rfl
    · rfl
  have hbusy : ∀ h, Busy { s with proc := Function.update s.proc p (.alloc b write) } h ↔ Busy s h :=
    Busy.of_wait_iff rfl hwait
  refine ⟨fun h => hinv.linked (hwait.mp h), fun h => hinv.recorded (hwait.mp h), ?_, ?_, ?_, hinv.nodup,
    fun h => (hinv.mem_pending h).trans (hbusy h).symm, fun h => hinv.status (hwait.mp h)⟩
  · intro i
    simp only [hchain]
    exact hinv.used_iff i
  · intro q r i hq hr
    rw [hchain] at hq hr
    exact hinv.disjoint hq hr
  · intro q r c hq hr
    rw [buf_update] at hq hr
    split at hq <;> split at hr
    · subst_vars; rfl
    · subst q; cases hq; exact absurd hr (hb r)
    · subst r; cases hr; exact absurd hq (hb q)
    · exact hinv.buf_inj hq hr

/-- The heads between driver and device are read off the rings and the device alone. -/
theorem pending_congr {s' : Sys} (havail : s'.disk.avail = s.disk.avail) (hused : s'.disk.used = s.disk.used)
    (hidx : s'.disk.usedIdx = s.disk.usedIdx) (hdev : s'.dev = s.dev) :
    pending s' = pending s ∧ usedHeads s' = usedHeads s := by
  simp [pending, availHeads, usedHeads, havail, hused, hidx, hdev]

/-- A failed `alloc3_desc` gives back what it took and clears only free descriptors. -/
theorem Inv.sleep (hinv : Inv s) {d : Disk} (halloc : alloc3Desc s.disk = some (none, d)) : Inv { s with disk := d } := by
  obtain ⟨hd, hdesc⟩ := alloc3Desc_none halloc
  have hfree : d.free = s.disk.free := by rw [hd]
  have hinfo : d.info = s.disk.info := by rw [hd]
  have hrings : pending { s with disk := d } = pending s ∧ usedHeads { s with disk := d } = usedHeads s :=
    pending_congr (by rw [hd]) (by rw [hd]) (by rw [hd]) rfl
  obtain ⟨hpending, husedHeads⟩ := hrings
  refine ⟨fun hq => (hinv.linked hq).congr fun j hj => hdesc j (hinv.chain_used hq j hj), fun hq => ?_, fun i => ?_,
    hinv.disjoint, hinv.buf_inj, hpending ▸ hinv.nodup, fun h => hpending ▸ hinv.mem_pending h, fun hq hmem => ?_⟩
  · show (d.info _).b = _
    rw [hinfo]
    exact hinv.recorded hq
  · show d.free i = false ↔ _
    rw [hfree]
    exact hinv.used_iff i
  · show (d.info _).status = 0
    rw [hinfo]
    exact hinv.status hq (husedHeads ▸ hmem)

/-- A finished request frees its chain and leaves every other request as it was. -/
theorem Inv.finish (hinv : Inv s) {p b : Nat} {write : Bool} {i0 i1 i2 : Fin num} {d : Disk}
    (hp : s.proc p = .wait b write i0 i1 i2) (hb : s.bufDisk b = false) (hrel : release i0 s.disk = some d) :
    Inv { s with disk := d, proc := Function.update s.proc p .idle } := by
  rw [release_linked (hinv.linked hp) (hinv.chain_used hp), Option.some.injEq] at hrel
  subst hrel
  have hwait : ∀ {q c w j0 j1 j2}, Function.update s.proc p .idle q = .wait c w j0 j1 j2 ↔
      q ≠ p ∧ s.proc q = .wait c w j0 j1 j2 := by
    intro q c w j0 j1 j2
    constructor
    · intro h
      rcases update_eq_wait h with ⟨-, h⟩ | h
      · cases h
      · exact h
    · rintro ⟨hq, h⟩
      rwa [Function.update_of_ne hq]
  -- the descriptors of every other request are outside the chain freed
  have hout : ∀ {q c w j0 j1 j2}, q ≠ p → s.proc q = .wait c w j0 j1 j2 → ∀ j ∈ [j0, j1, j2], j ∉ [i0, i1, i2] :=
    fun hq hqw j hj hji => hq (hinv.eq_of_mem_chain hqw hp hj hji)
  set D : Disk :=
    { s.disk with
      desc := fun i => if i ∈ [i0, i1, i2] then ⟨0, 0⟩ else s.disk.desc i
      free := fun i => if i ∈ [i0, i1, i2] then true else s.disk.free i
      info := Function.update s.disk.info i0 { s.disk.info i0 with b := none } } with hD
  have hrings : pending { s with disk := D, proc := Function.update s.proc p .idle } = pending s ∧
      usedHeads { s with disk := D, proc := Function.update s.proc p .idle } = usedHeads s :=
    pending_congr rfl rfl rfl rfl
  have hinfo : ∀ {q c w j0 j1 j2}, q ≠ p → s.proc q = .wait c w j0 j1 j2 →
      Function.update s.disk.info i0 { s.disk.info i0 with b := none } j0 = s.disk.info j0 := by
    intro q c w j0 j1 j2 hq hqw
    exact Function.update_of_ne (fun h => hout hq hqw j0 (by simp) (by simp [h])) _ _
  refine ⟨fun h => ?_, fun h => ?_, fun i => ?_, fun hq hr => ?_, fun hq hr => ?_, hrings.1 ▸ hinv.nodup, fun h => ?_,
    fun h hmem => ?_⟩
  · obtain ⟨hq, hqw⟩ := hwait.mp h
    exact (hinv.linked hqw).congr fun j hj => if_neg (hout hq hqw j hj)
  · obtain ⟨hq, hqw⟩ := hwait.mp h
    show (Function.update s.disk.info i0 _ _).b = _
    rw [hinfo hq hqw]
    exact hinv.recorded hqw
  · show (if i ∈ [i0, i1, i2] then true else s.disk.free i) = false ↔ _
    by_cases hi : i ∈ [i0, i1, i2]
    · rw [if_pos hi]
      refine ⟨(fun h => by cases h), fun ⟨q, hq⟩ => ?_⟩
      rw [chain_update] at hq
      split at hq
      · simp [Pc.chain] at hq
      · exact absurd (hinv.disjoint hq (by rw [hp]; exact hi)) ‹_›
    · rw [if_neg hi, hinv.used_iff]
      constructor
      · rintro ⟨q, hq⟩
        refine ⟨q, ?_⟩
        rw [chain_update, if_neg]
        · exact hq
        · rintro rfl
          rw [hp] at hq
          exact hi hq
      · rintro ⟨q, hq⟩
        rw [chain_update] at hq
        split at hq
        · simp [Pc.chain] at hq
        · exact ⟨q, hq⟩
  · rw [chain_update] at hq hr
    split at hq
    · simp [Pc.chain] at hq
    split at hr
    · simp [Pc.chain] at hr
    exact hinv.disjoint hq hr
  · rw [buf_update] at hq hr
    split at hq
    · simp [Pc.buf] at hq
    split at hr
    · simp [Pc.buf] at hr
    exact hinv.buf_inj hq hr
  · rw [hrings.1, hinv.mem_pending]
    constructor
    · rintro ⟨q, c, w, j0, j1, j2, hqw, rfl, hc⟩
      -- the finished request's buffer is done, so the busy head is another's
      have hq : q ≠ p := by
        rintro rfl
        rw [hp] at hqw
        cases hqw
        rw [hb] at hc
        cases hc
      exact ⟨q, c, w, j0, j1, j2, hwait.mpr ⟨hq, hqw⟩, rfl, hc⟩
    · rintro ⟨q, c, w, j0, j1, j2, hqw, rfl, hc⟩
      exact ⟨q, c, w, j0, j1, j2, (hwait.mp hqw).2, rfl, hc⟩
  · obtain ⟨hq, hqw⟩ := hwait.mp h
    show (Function.update s.disk.info i0 _ _).status = 0
    rw [hinfo hq hqw]
    exact hinv.status hqw (hrings.2 ▸ hmem)

theorem submit_desc_of_not_mem {b : Nat} {write : Bool} {i0 i1 i2 k : Fin num} {d : Disk} (hk : k ∉ [i0, i1, i2]) :
    (submit b write i0 i1 i2 d).desc k = d.desc k := by
  simp only [List.mem_cons, List.not_mem_nil, or_false, not_or] at hk
  simp [submit, Function.update_of_ne hk.1, Function.update_of_ne hk.2.1, Function.update_of_ne hk.2.2]

theorem submit_linked {b : Nat} {write : Bool} {i0 i1 i2 : Fin num} {d : Disk} (hnodup : [i0, i1, i2].Nodup) :
    Linked (submit b write i0 i1 i2 d) write i0 i1 i2 := by
  simp only [List.nodup_cons, List.mem_cons, List.not_mem_nil, or_false, not_or, List.nodup_nil, and_true,
    not_false_eq_true] at hnodup
  obtain ⟨⟨h01, h02⟩, h12⟩ := hnodup
  refine ⟨by simp [h01, h02, h12], by simp [submit, Function.update_of_ne h01, Function.update_of_ne h02],
    by simp [submit, Function.update_of_ne h12], by simp [submit]⟩

/-- A submitted request is a new linked chain of descriptors that were free, and a new head in the
avail ring. -/
theorem Inv.submit (hinv : Inv s) {p b : Nat} {write : Bool} {i0 i1 i2 : Fin num} {d : Disk}
    (hp : s.proc p = .alloc b write) (halloc : alloc3Desc s.disk = some (some [i0, i1, i2], d)) :
    Inv { s with disk := submit b write i0 i1 i2 d, bufDisk := Function.update s.bufDisk b true,
                 proc := Function.update s.proc p (.wait b write i0 i1 i2) } := by
  obtain ⟨j0, j1, j2, hidx, hnodup, f0, f1, f2, rfl⟩ := alloc3Desc_some halloc
  simp only [List.cons.injEq, and_true] at hidx
  obtain ⟨rfl, rfl, rfl⟩ := hidx
  have hfreeI : ∀ j ∈ [i0, i1, i2], s.disk.free j = true := by simpa using ⟨f0, f1, f2⟩
  -- the chains already handed over are in use, so outside the new one
  have hout : ∀ {q c w k0 k1 k2}, s.proc q = .wait c w k0 k1 k2 → ∀ k ∈ [k0, k1, k2], k ∉ [i0, i1, i2] := by
    intro q c w k0 k1 k2 hq k hk hki
    have := hinv.chain_used hq k hk
    rw [hfreeI k hki] at this
    cases this
  have hne : ∀ {q c w k0 k1 k2}, s.proc q = .wait c w k0 k1 k2 → q ≠ p := by
    rintro q c w k0 k1 k2 hq rfl
    rw [hp] at hq
    cases hq
  have hi0 : i0.val ∉ pending s := hinv.not_pending_of_free f0
  have havail : (s.disk.avail.idx - s.dev.lastAvail).toNat < num := by
    have hlt := length_lt_num hinv.nodup (fun x hx => hinv.lt_of_pending hx) i0.isLt hi0
    have hle : (availHeads s).length ≤ (pending s).length := by simp [pending]
    simpa [availHeads] using lt_of_le_of_lt hle hlt
  set s' : Sys :=
    { s with disk := Virtio.submit b write i0 i1 i2 { s.disk with free := fun i => if i ∈ [i0, i1, i2] then false else s.disk.free i }
             bufDisk := Function.update s.bufDisk b true
             proc := Function.update s.proc p (.wait b write i0 i1 i2) } with hs'
  have hpending : pending s' = availHeads s ++ [i0.val] ++ s.dev.inflight ++ usedHeads s := by
    have hlt : i0.val < 65536 := lt_trans i0.isLt (by decide)
    simp [s', pending, availHeads, usedHeads, Virtio.submit, ringView_push _ havail, hlt]
  have husedHeads : usedHeads s' = usedHeads s := rfl
  have hbuf : ∀ q, (s'.proc q).buf = (s.proc q).buf := fun q => by
    show (Function.update s.proc p _ q).buf = _
    rw [buf_update]
    split
    · subst q
      rw [hp]
      rfl
    · rfl
  have hinfo : ∀ {q c w k0 k1 k2}, s.proc q = .wait c w k0 k1 k2 → s'.disk.info k0 = s.disk.info k0 := by
    intro q c w k0 k1 k2 hq
    exact Function.update_of_ne (fun h => hout hq k0 (by simp) (by simp [h])) _ _
  -- the buffer of another request is not `b`, which this request holds
  have hcb : ∀ {q c w k0 k1 k2}, s.proc q = .wait c w k0 k1 k2 → c ≠ b := by
    rintro q c w k0 k1 k2 hq rfl
    exact hne hq (hinv.buf_inj (by rw [hq]; rfl) (by rw [hp]; rfl))
  have hbusy : ∀ h, Busy s' h ↔ h = i0.val ∨ Busy s h := by
    intro h
    constructor
    · rintro ⟨q, c, w, k0, k1, k2, hq, rfl, hc⟩
      rcases update_eq_wait hq with ⟨rfl, heq⟩ | ⟨-, hq⟩
      · cases heq
        exact .inl rfl
      · have hc' : Function.update s.bufDisk b true c = true := hc
        exact .inr ⟨q, c, w, k0, k1, k2, hq, rfl, by rwa [Function.update_of_ne (hcb hq)] at hc'⟩
    · rintro (rfl | ⟨q, c, w, k0, k1, k2, hq, rfl, hc⟩)
      · exact ⟨p, b, write, i0, i1, i2, Function.update_self .., rfl, Function.update_self ..⟩
      · refine ⟨q, c, w, k0, k1, k2, ?_, rfl, ?_⟩
        · show Function.update s.proc p _ q = _
          rw [Function.update_of_ne (hne hq)]
          exact hq
        · show Function.update s.bufDisk b true c = true
          rw [Function.update_of_ne (hcb hq)]
          exact hc
  have hperm : (pending s').Perm (i0.val :: pending s) := by
    rw [hpending]
    simp [pending]
  refine ⟨fun h => ?_, fun h => ?_, fun i => ?_, fun hq hr => ?_,
    fun hq hr => hinv.buf_inj (hbuf _ ▸ hq) (hbuf _ ▸ hr), ?_, fun h => ?_, fun h hmem => ?_⟩
  · rcases update_eq_wait h with ⟨rfl, heq⟩ | ⟨-, hq⟩
    · cases heq
      exact submit_linked hnodup
    · exact (hinv.linked hq).congr fun k hk => submit_desc_of_not_mem (hout hq k hk)
  · rcases update_eq_wait h with ⟨rfl, heq⟩ | ⟨-, hq⟩
    · cases heq
      simp [s', Virtio.submit]
    · rw [hinfo hq]
      exact hinv.recorded hq
  · show (if i ∈ [i0, i1, i2] then false else s.disk.free i) = false ↔ ∃ q, i ∈ (Function.update s.proc p _ q).chain
    by_cases hi : i ∈ [i0, i1, i2]
    · rw [if_pos hi]
      exact ⟨fun _ => ⟨p, by simpa [Pc.chain] using hi⟩, fun _ => rfl⟩
    · rw [if_neg hi, hinv.used_iff]
      constructor
      · rintro ⟨q, hq⟩
        refine ⟨q, ?_⟩
        rw [chain_update, if_neg]
        · exact hq
        · rintro rfl
          rw [hp] at hq
          simp [Pc.chain] at hq
      · rintro ⟨q, hq⟩
        rw [chain_update] at hq
        split at hq
        · exact absurd hq hi
        · exact ⟨q, hq⟩
  · -- a descriptor of the new chain was free, so in no other chain
    have hnew : ∀ {r i}, i ∈ [i0, i1, i2] → i ∉ (s.proc r).chain := fun hi hr => by
      have := (hinv.used_iff _).mpr ⟨_, hr⟩
      rw [hfreeI _ hi] at this
      cases this
    rw [chain_update] at hq hr
    split at hq <;> split at hr
    · subst_vars
      rfl
    · exact absurd hr (hnew hq)
    · exact absurd hq (hnew hr)
    · exact hinv.disjoint hq hr
  · exact hperm.nodup_iff.mpr (List.nodup_cons.mpr ⟨hi0, hinv.nodup⟩)
  · rw [hbusy, ← hinv.mem_pending, hperm.mem_iff, List.mem_cons]
  · rcases update_eq_wait h with ⟨rfl, heq⟩ | ⟨-, hq⟩
    · cases heq
      exact absurd (by simp [pending, husedHeads ▸ hmem]) hi0
    · rw [hinfo hq]
      exact hinv.status hq hmem

/-- The next entry of a non-empty used ring is the head of a waiting request whose `b->disk` is
`1`, recorded at the head with its buffer and a zero status. -/
theorem Inv.used_head (hinv : Inv s) (hne : s.disk.usedIdx ≠ s.disk.used.idx) :
    ∃ p b write i0 i1 i2, s.proc p = .wait b write i0 i1 i2 ∧ s.bufDisk b = true ∧
      (s.disk.used.ring (slot s.disk.usedIdx)).toNat = i0.val ∧ s.disk.info i0 = ⟨some b, 0⟩ ∧
      usedHeads s = i0.val :: usedHeads { s with disk := { s.disk with usedIdx := s.disk.usedIdx + 1 } } := by
  have hcons : usedHeads s = (s.disk.used.ring (slot s.disk.usedIdx)).toNat ::
      usedHeads { s with disk := { s.disk with usedIdx := s.disk.usedIdx + 1 } } := by
    simp [usedHeads, ringView_cons _ hne]
  have hmem : (s.disk.used.ring (slot s.disk.usedIdx)).toNat ∈ pending s := by simp [pending, hcons]
  obtain ⟨p, b, write, i0, i1, i2, hp, hid, hb⟩ := (hinv.mem_pending _).mp hmem
  have hstatus := hinv.status hp (by rw [hcons, ← hid]; exact List.mem_cons_self)
  have hinfo : s.disk.info i0 = ⟨some b, 0⟩ := by
    rw [← hinv.recorded hp, ← hstatus]
  exact ⟨p, b, write, i0, i1, i2, hp, hb, hid, hinfo, hid ▸ hcons⟩

/-- A pass of `virtio_disk_intr` takes the head off the used ring and clears `b->disk` of the buffer
recorded there. -/
theorem Inv.intr (hinv : Inv s) (hne : s.disk.usedIdx ≠ s.disk.used.idx) {d : Disk} {bufDisk : Nat → Bool}
    (hpass : intrPass s.disk s.bufDisk = some (d, bufDisk)) : Inv { s with disk := d, bufDisk := bufDisk } := by
  obtain ⟨p, b, write, i0, i1, i2, hp, hb, hid, hinfo, hcons⟩ := hinv.used_head hne
  rw [intrPass_of_recorded hid hinfo, Option.some.injEq, Prod.mk.injEq] at hpass
  obtain ⟨rfl, rfl⟩ := hpass
  set rest := usedHeads { s with disk := { s.disk with usedIdx := s.disk.usedIdx + 1 } }
  have hpending : pending s = availHeads s ++ s.dev.inflight ++ i0.val :: rest := by rw [pending, hcons]
  have hnodup := hinv.nodup
  rw [hpending, List.nodup_append] at hnodup
  have hi0 : i0.val ∉ availHeads s ++ s.dev.inflight := fun h => hnodup.2.2 _ h _ List.mem_cons_self rfl
  have hrest : i0.val ∉ rest := (List.nodup_cons.mp hnodup.2.1).1
  -- the request done is the only one with buffer `b`
  have hbusy : ∀ h, Busy { s with bufDisk := Function.update s.bufDisk b false } h ↔ Busy s h ∧ h ≠ i0.val := by
    intro h
    constructor
    · rintro ⟨q, c, w, j0, j1, j2, hq, rfl, hc⟩
      dsimp only at hq hc
      have hcb : c ≠ b := fun hcb => by simp [hcb] at hc
      rw [Function.update_of_ne hcb] at hc
      refine ⟨⟨q, c, w, j0, j1, j2, hq, rfl, hc⟩, fun h0 => hcb ?_⟩
      obtain rfl : q = p := hinv.eq_of_mem_chain hq hp (i := j0) (by simp) (by simp [Fin.ext h0])
      rw [hp] at hq
      cases hq
      rfl
    · rintro ⟨⟨q, c, w, j0, j1, j2, hq, rfl, hc⟩, hne0⟩
      have hcb : c ≠ b := by
        rintro rfl
        obtain rfl : q = p := hinv.buf_inj (by rw [hq]; rfl) (by rw [hp]; rfl)
        rw [hp] at hq
        cases hq
        exact hne0 rfl
      refine ⟨q, c, w, j0, j1, j2, hq, rfl, ?_⟩
      show Function.update s.bufDisk b false c = true
      rw [Function.update_of_ne hcb]
      exact hc
  refine ⟨fun hq => (hinv.linked hq).congr fun _ _ => rfl, hinv.recorded, hinv.used_iff, hinv.disjoint, hinv.buf_inj, ?_,
    fun h => ?_, fun hq hmem => ?_⟩
  · show (availHeads s ++ s.dev.inflight ++ rest).Nodup
    exact List.nodup_append.mpr ⟨hnodup.1, (List.nodup_cons.mp hnodup.2.1).2,
      fun x hx y hy => hnodup.2.2 x hx y (List.mem_cons_of_mem _ hy)⟩
  · show h ∈ availHeads s ++ s.dev.inflight ++ rest ↔ Busy { s with bufDisk := Function.update s.bufDisk b false } h
    rw [hbusy, ← hinv.mem_pending, hpending]
    -- `i0` was in the used ring alone
    have hA : h ∈ availHeads s ++ s.dev.inflight → h ≠ i0.val := fun hh h0 => hi0 (h0 ▸ hh)
    have hR : h ∈ rest → h ≠ i0.val := fun hh h0 => hrest (h0 ▸ hh)
    rw [List.mem_append] at hA
    simp only [List.mem_append, List.mem_cons]
    constructor
    · rintro (hh | hh)
      · exact ⟨.inl hh, hA hh⟩
      · exact ⟨.inr (.inr hh), hR hh⟩
    · rintro ⟨hh | hh | hh, hne0⟩
      · exact .inl hh
      · exact absurd hh hne0
      · exact .inr hh
  · exact hinv.status hq (by rw [hcons]; exact List.mem_cons_of_mem _ hmem)

/-- The device reading the next head of the avail ring moves it to the heads it holds. -/
theorem Inv.fetch (hinv : Inv s) (hne : s.dev.lastAvail ≠ s.disk.avail.idx) :
    Inv { s with dev := ⟨s.dev.lastAvail + 1, s.dev.inflight ++ [(s.disk.avail.ring (slot s.dev.lastAvail)).toNat]⟩ } := by
  set x := (s.disk.avail.ring (slot s.dev.lastAvail)).toNat
  set s' : Sys := { s with dev := ⟨s.dev.lastAvail + 1, s.dev.inflight ++ [x]⟩ }
  have hcons : availHeads s = x :: availHeads s' := by simp [availHeads, ringView_cons _ hne, x, s']
  have hU : usedHeads s' = usedHeads s := rfl
  have hperm : (pending s').Perm (pending s) := by
    rw [pending, pending, hcons, hU]
    have hmid := @List.perm_middle _ x (availHeads s' ++ s.dev.inflight) (usedHeads s)
    simpa [s', List.append_assoc] using hmid
  exact ⟨hinv.linked, hinv.recorded, hinv.used_iff, hinv.disjoint, hinv.buf_inj, hperm.nodup_iff.mpr hinv.nodup,
    fun h => hperm.mem_iff.trans (hinv.mem_pending h), hinv.status⟩

/-- A head the device holds is not in the used ring, which therefore has room for it. -/
theorem Inv.usedHeads_complete (hinv : Inv s) {h : Nat} (hmem : h ∈ s.dev.inflight) (hlt : h < num) :
    usedHeads { s with disk := { s.disk with
      used := ⟨s.disk.used.idx + 1, Function.update s.disk.used.ring (slot s.disk.used.idx) (UInt32.ofNat h)⟩ } } =
      usedHeads s ++ [h] := by
  have hnodup := hinv.nodup
  rw [pending, List.nodup_append] at hnodup
  -- the used ring holds fewer than `NUM` heads: it misses `h`
  have hused : (s.disk.used.idx - s.disk.usedIdx).toNat < num := by
    have hlen := length_lt_num hnodup.2.1 (fun x hx => hinv.lt_of_pending (by simp [pending, hx])) hlt
      (fun hh => hnodup.2.2 h (List.mem_append_right _ hmem) h hh rfl)
    simpa [usedHeads] using hlen
  have hh : h < 4294967296 := lt_trans hlt (by decide)
  simp [usedHeads, ringView_push _ hused, hh]

/-- The device completing a head it holds moves it to the used ring with a zero status. -/
theorem Inv.complete (hinv : Inv s) {h : Nat} (hmem : h ∈ s.dev.inflight) (hlt : h < num) :
    Inv { s with
          disk := { s.disk with
            info := Function.update s.disk.info ⟨h, hlt⟩ { s.disk.info ⟨h, hlt⟩ with status := 0 }
            used := ⟨s.disk.used.idx + 1, Function.update s.disk.used.ring (slot s.disk.used.idx) (UInt32.ofNat h)⟩ }
          dev := { s.dev with inflight := s.dev.inflight.erase h } } := by
  set s' : Sys :=
    { s with
      disk := { s.disk with
        info := Function.update s.disk.info ⟨h, hlt⟩ { s.disk.info ⟨h, hlt⟩ with status := 0 }
        used := ⟨s.disk.used.idx + 1, Function.update s.disk.used.ring (slot s.disk.used.idx) (UInt32.ofNat h)⟩ }
      dev := { s.dev with inflight := s.dev.inflight.erase h } }
  have husedHeads : usedHeads s' = usedHeads s ++ [h] := hinv.usedHeads_complete hmem hlt
  have hA : availHeads s' = availHeads s := rfl
  have hF : s'.dev.inflight = s.dev.inflight.erase h := rfl
  -- both are `h` and the other heads
  have hperm : (pending s').Perm (pending s) := by
    have h₁ : (pending s').Perm (h :: (availHeads s ++ s.dev.inflight.erase h ++ usedHeads s)) := by
      rw [pending, husedHeads, hA, hF, ← List.append_assoc]
      exact List.perm_append_comm
    have h₂ : (pending s).Perm (h :: (availHeads s ++ s.dev.inflight.erase h ++ usedHeads s)) := by
      rw [pending]
      refine (((List.perm_cons_erase hmem).append_left _).append_right _).trans ?_
      simp
    exact h₁.trans h₂.symm
  have hinfo : ∀ k, (s'.disk.info k).b = (s.disk.info k).b := fun k => by
    by_cases hk : k = ⟨h, hlt⟩
    · subst hk
      simp [s']
    · simp [s', Function.update_of_ne hk]
  refine ⟨fun hq => (hinv.linked hq).congr fun _ _ => rfl, fun hq => (hinfo _).trans (hinv.recorded hq), hinv.used_iff,
    hinv.disjoint, hinv.buf_inj, hperm.nodup_iff.mpr hinv.nodup, fun x => hperm.mem_iff.trans (hinv.mem_pending x),
    fun {p b write i0 i1 i2} hq hmem' => ?_⟩
  by_cases hk : i0 = ⟨h, hlt⟩
  · subst hk
    simp [s']
  · rw [husedHeads, List.mem_append, List.mem_singleton] at hmem'
    have hstatus := hinv.status hq (hmem'.resolve_right fun h0 => hk (Fin.ext h0))
    simpa [s', Function.update_of_ne hk] using hstatus

end Steps

section Runs

variable {s t : Sys} {e : Event} {es : List Event}

/-- Fewer than `NUM` heads are between the driver and the device: each busy head has a data
descriptor that is no one's head. -/
theorem Inv.length_lt (hinv : Inv s) : (pending s).length < num := by
  cases hpend : pending s with
  | nil => exact Nat.pos_of_neZero num
  | cons h rest =>
    obtain ⟨p, b, write, i0, i1, i2, hp, rfl, -⟩ := (hinv.mem_pending _).mp (by rw [hpend]; exact List.mem_cons_self)
    rw [← hpend]
    refine length_lt_num hinv.nodup (fun x hx => hinv.lt_of_pending hx) i1.isLt fun hi1 => ?_
    obtain ⟨q, c, w, j0, j1, j2, hq, hj, -⟩ := (hinv.mem_pending _).mp hi1
    obtain rfl : i1 = j0 := Fin.ext hj
    obtain rfl : p = q := hinv.eq_of_mem_chain hp hq (i := i1) (by simp) (by simp)
    -- the head and the data descriptor of one chain would coincide
    rw [hp, Pc.wait.injEq] at hq
    have hnodup := (hinv.linked hp).nodup
    simp only [List.nodup_cons, List.mem_cons, List.not_mem_nil, or_false, not_or] at hnodup
    exact hnodup.1.1 hq.2.2.1

/-- Every step keeps `Inv`. -/
theorem Inv.step (hinv : Inv s) (hstep : Step s e t) : Inv t := by
  cases hstep with
  | start write hp hb => exact hinv.start hp hb
  | submit hp halloc => exact hinv.submit hp halloc
  | sleep _ halloc => exact hinv.sleep halloc
  | finish hp hb hrel => exact hinv.finish hp hb hrel
  | intr hne hpass => exact hinv.intr hne hpass
  | fetch hne => exact hinv.fetch hne
  | complete hmem hlt => exact hinv.complete hmem hlt

theorem inv_of_run (hrun : Run Step init es s) : Inv s :=
  hrun.invariant Inv inv_init fun _ _ _ hinv hstep => hinv.step hstep

/-- Every request that the device has completed and `virtio_disk_intr` may have seen, and every
request whose `b->disk` is `0`, has had its head completed by the device since it was submitted. -/
def Completed (s : Sys) (es : List Event) : Prop :=
  ∀ {p b write i0 i1 i2}, s.proc p = .wait b write i0 i1 i2 → (s.bufDisk b = false ∨ i0.val ∈ usedHeads s) →
    Event.complete i0 ∈ since (.submit p) es

theorem mem_since_snoc {p : Nat} {x : Event} (hx : x ∈ since (.submit p) es) (he : e ≠ .submit p) :
    x ∈ since (.submit p) (es ++ [e]) := by
  rw [since_snoc_of_ne he]
  exact List.mem_append_left _ hx

/-- Each step keeps `Completed`: a request's head completed since its submission stays so until it
returns, and the device's completion of a held head is the event that makes it so. -/
theorem Completed.step (hinv : Inv s) (hc : Completed s es) (hstep : Step s e t) : Completed t (es ++ [e]) := by
  cases hstep with
  | start write hp hb =>
    intro q c w k0 k1 k2 hq hdone
    rcases update_eq_wait hq with ⟨-, hX⟩ | ⟨-, hq⟩
    · cases hX
    · exact mem_since_snoc (hc hq hdone) (by simp)
  | @submit p b write i0 i1 i2 d hp halloc =>
    intro q c w k0 k1 k2 hq hdone
    obtain ⟨j0, j1, j2, hidx, -, f0, -, -, -, rfl⟩ := alloc3Desc_some halloc
    simp only [List.cons.injEq, and_true] at hidx
    obtain ⟨rfl, rfl, rfl⟩ := hidx
    change Function.update s.proc p (.wait b write i0 i1 i2) q = _ at hq
    change Function.update s.bufDisk b true c = false ∨ k0.val ∈ usedHeads s at hdone
    rcases update_eq_wait hq with ⟨rfl, hX⟩ | ⟨hqp, hq'⟩
    · -- the new request is busy, and its head is on the way to the device
      cases hX
      rcases hdone with hdone | hdone
      · simp at hdone
      · exact absurd (by simp [pending, hdone]) (hinv.not_pending_of_free f0)
    · have hcb : c ≠ b := by
        rintro rfl
        exact hqp (hinv.buf_inj (by rw [hq']; rfl) (by rw [hp]; rfl))
      rw [Function.update_of_ne hcb] at hdone
      exact mem_since_snoc (hc hq' hdone) (by simpa using Ne.symm hqp)
  | @sleep _ _ _ d _ halloc =>
    intro q c w k0 k1 k2 hq hdone
    obtain ⟨hd, -⟩ := alloc3Desc_none halloc
    have hused : usedHeads { s with disk := d } = usedHeads s := by rw [hd]; rfl
    exact mem_since_snoc (hc hq (hused ▸ hdone)) (by simp)
  | finish hp hb hrel =>
    intro q c w k0 k1 k2 hq hdone
    rw [release_linked (hinv.linked hp) (hinv.chain_used hp), Option.some.injEq] at hrel
    subst hrel
    rcases update_eq_wait hq with ⟨-, hX⟩ | ⟨-, hq⟩
    · cases hX
    · exact mem_since_snoc (hc hq hdone) (by simp)
  | intr hne hpass =>
    intro q c w k0 k1 k2 hq hdone
    obtain ⟨p, b, write, i0, i1, i2, hp, -, hid, hinfo, hcons⟩ := hinv.used_head hne
    rw [intrPass_of_recorded hid hinfo, Option.some.injEq, Prod.mk.injEq] at hpass
    obtain ⟨rfl, rfl⟩ := hpass
    refine mem_since_snoc (hc hq ?_) (by simp)
    by_cases hcb : c = b
    · -- the buffer cleared is that of the request whose head was in the used ring
      subst hcb
      obtain rfl : q = p := hinv.buf_inj (by rw [hq]; rfl) (by rw [hp]; rfl)
      rw [hp] at hq
      cases hq
      exact .inr (by rw [hcons]; exact List.mem_cons_self)
    · rcases hdone with hdone | hdone
      · exact .inl (by simpa [Function.update_of_ne hcb] using hdone)
      · exact .inr (by rw [hcons]; exact List.mem_cons_of_mem _ hdone)
  | fetch hne =>
    intro q c w k0 k1 k2 hq hdone
    exact mem_since_snoc (hc hq hdone) (by simp)
  | @complete h hmem hlt =>
    intro q c w k0 k1 k2 hq hdone
    have husedHeads := hinv.usedHeads_complete hmem hlt
    rcases hdone with hdone | hdone
    · exact mem_since_snoc (hc hq (.inl hdone)) (by simp)
    · have hdone' : k0.val ∈ usedHeads s ++ [h] := by
        rw [← husedHeads]
        exact hdone
      rw [List.mem_append, List.mem_singleton] at hdone'
      rcases hdone' with hdone | rfl
      · exact mem_since_snoc (hc hq (.inr hdone)) (by simp)
      · rw [since_snoc_of_ne (by simp)]
        exact List.mem_append_right _ List.mem_cons_self

theorem completed_of_run (hrun : Run Step init es s) : Completed s es :=
  Run.history (fun s es => Inv s ∧ Completed s es) hrun ⟨inv_init, fun hp => by cases hp⟩
    (fun _ _ _ _ ⟨hinv, hc⟩ hstep => ⟨hinv.step hstep, hc.step hinv hstep⟩) |>.2

end Runs

/-- What the driver guarantees in a state `s` reached by the events `es`. -/
structure DiskSafe (s : Sys) (es : List Event) : Prop where
  /-- A descriptor is free exactly when it is in no request's chain. -/
  free_iff : ∀ i, s.disk.free i = true ↔ ∀ p, i ∉ (s.proc p).chain
  disjoint : ∀ p q i, i ∈ (s.proc p).chain → i ∈ (s.proc q).chain → p = q
  /-- Each chain is three distinct descriptors linked head, data, status, and its buffer is recorded
  at its head. -/
  linked : ∀ p b write i0 i1 i2, s.proc p = .wait b write i0 i1 i2 →
    Linked s.disk write i0 i1 i2 ∧ (s.disk.info i0).b = some b
  alloc3 : (∃ i0 i1 i2, [i0, i1, i2].Nodup ∧ s.disk.free i0 = true ∧ s.disk.free i1 = true ∧ s.disk.free i2 = true ∧
      alloc3Desc s.disk =
        some (some [i0, i1, i2], { s.disk with free := fun i => if i ∈ [i0, i1, i2] then false else s.disk.free i })) ∨
    (∃ d, alloc3Desc s.disk = some (none, d) ∧ d = { s.disk with desc := d.desc } ∧
      ∀ i, s.disk.free i = false → d.desc i = s.disk.desc i)
  /-- `free_chain` at a request's head frees exactly its three descriptors: neither panic of
  `free_desc` is reached. -/
  release : ∀ p b write i0 i1 i2, s.proc p = .wait b write i0 i1 i2 →
    release i0 s.disk =
      some { s.disk with desc := fun i => if i ∈ [i0, i1, i2] then ⟨0, 0⟩ else s.disk.desc i,
                         free := fun i => if i ∈ [i0, i1, i2] then true else s.disk.free i,
                         info := Function.update s.disk.info i0 { s.disk.info i0 with b := none } }
  /-- A pass of `virtio_disk_intr` does not panic: it reads the head of a request whose `b->disk` is
  `1`, and clears `b->disk` of that request's buffer alone. -/
  intr : s.disk.usedIdx ≠ s.disk.used.idx → ∃ p b write i0 i1 i2, s.proc p = .wait b write i0 i1 i2 ∧
    s.bufDisk b = true ∧ (s.disk.used.ring (slot s.disk.usedIdx)).toNat = i0 ∧
    intrPass s.disk s.bufDisk = some ({ s.disk with usedIdx := s.disk.usedIdx + 1 }, Function.update s.bufDisk b false)
  /-- A request returns only once the device has completed its head since it was submitted. -/
  finish : ∀ p t, Step s (.finish p) t → ∃ b write i0 i1 i2, s.proc p = .wait b write i0 i1 i2 ∧
    Event.complete i0 ∈ since (.submit p) es
  /-- The heads on the avail ring past the device, held by the device, and on the used ring past
  `used_idx` are distinct, and are the heads of the requests whose `b->disk` is `1`. -/
  heads_nodup : (pending s).Nodup
  mem_heads : ∀ h, h ∈ pending s ↔ Busy s h
  /-- Fewer than `NUM` entries lie between the 16-bit counters of each ring. -/
  avail_lt : (s.disk.avail.idx - s.dev.lastAvail).toNat < num
  used_lt : (s.disk.used.idx - s.disk.usedIdx).toNat < num

/-- The virtio driver's descriptors and rings over every interleaving of requests, interrupt passes
and device steps from `virtio_disk_init`. -/
theorem virtio_descriptors {es : List Event} {s : Sys} (hrun : Run Step init es s) : DiskSafe s es := by
  have hinv := inv_of_run hrun
  have hc : Completed s es := completed_of_run hrun
  have hlen := hinv.length_lt
  refine ⟨fun i => ?_, fun p q i => hinv.disjoint, fun p b write i0 i1 i2 hp => ⟨hinv.linked hp, hinv.recorded hp⟩,
    alloc3Desc_cases s.disk, fun p b write i0 i1 i2 hp => release_linked (hinv.linked hp) (hinv.chain_used hp),
    fun hne => ?_, fun p t hstep => ?_, hinv.nodup, hinv.mem_pending, ?_, ?_⟩
  · rw [← Bool.not_eq_false, hinv.used_iff]
    simp
  · obtain ⟨p, b, write, i0, i1, i2, hp, hb, hid, hinfo, -⟩ := hinv.used_head hne
    exact ⟨p, b, write, i0, i1, i2, hp, hb, hid, intrPass_of_recorded hid hinfo⟩
  · cases hstep with
    | finish hp hb _ => exact ⟨_, _, _, _, _, hp, hc hp (.inl hb)⟩
  · have : (availHeads s).length ≤ (pending s).length := by simp [pending]
    simpa [availHeads] using lt_of_le_of_lt this hlen
  · have : (usedHeads s).length ≤ (pending s).length := by simp [pending]; omega
    simpa [usedHeads] using lt_of_le_of_lt this hlen

/-- One read of block buffer `7`: submitted, taken by the device, completed, seen by the interrupt,
and returned. -/
theorem virtio_descriptors_one_read :
    ∃ s, Run Step init [.start 0 7 false, .submit 0, .fetch, .complete 0, .intr, .finish 0] s ∧
      DiskSafe s [.start 0 7 false, .submit 0, .fetch, .complete 0, .intr, .finish 0] := by
  have hrun : ∃ s, Run Step init [.start 0 7 false, .submit 0, .fetch, .complete 0, .intr, .finish 0] s :=
    ⟨_, ((((((Run.nil init).snoc (Step.start false rfl fun q => by simp [init, Pc.buf])).snoc
      (Step.submit rfl rfl)).snoc (Step.fetch (by decide))).snoc (Step.complete (by decide) (by decide))).snoc
      (Step.intr (by decide) rfl)).snoc (Step.finish rfl rfl rfl)⟩
  obtain ⟨s, hs⟩ := hrun
  exact ⟨s, hs, virtio_descriptors hs⟩

end Xv6.Dev.Virtio
