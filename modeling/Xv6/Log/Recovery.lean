import Xv6.Param
import Xv6.Library.LittleEndian
import Xv6.Library.Crash

/-!
# Crash atomicity of the write-ahead log

The on-disk half of `log.c`. The disk maps block numbers to blocks and each `bwrite` replaces one block
atomically. A transaction is the list `lh` of the distinct home blocks `log_write` recorded, whose new
contents sit in pinned cache buffers (`cache`). `commit` writes them to the log slots
`start + 1, …`, writes the header naming them (the commit point), installs them at home, and writes
a header with `n = 0`; `recover_from_log` reads the header, installs what it names and clears it.

Every crash point of `commit` leaves the disk in one of three phases relative to the pre-commit disk
`d0`: `Uncommitted` (header empty, every block outside the log region as in `d0`), `Committed`
(header names `lh`, slots hold the new contents, every home block old or new) or `Installed` (header
empty, every logged block new). Recovery, crashed any number of times and then completed, takes the
first phase to `d0` and the other two to the installed disk: `commit_crash_atomic`.
-/

namespace Xv6.Logging

open LittleEndian Crash

/-- The disk: block `a` holds `d a`. -/
abbrev Disk := Nat → Block

/-! ### The header block -/

/-- `lh->n`, the signed `int` at offset 0 of the header block. -/
def headN (hb : Block) : Int := (load hb 0).toInt32.toInt

/-- `lh->block[i]`, the word at offset `4 + 4 * i`. -/
def headBlock (hb : Block) (i : Nat) : UInt32 := load hb (4 + 4 * i)

/-- `read_head`: `log.lh.block[0 .. log.lh.n)` as the header block holds it. -/
def readHead (hb : Block) : List UInt32 := (List.range (headN hb).toNat).map (headBlock hb)

/-- The loop of `write_head` that stores `log.lh.block[i]` in `hb->block[i]`, from index `i` on. -/
def putBlocks (hb : Block) (i : Nat) : List UInt32 → Block
  | [] => hb
  | b :: bs => putBlocks (store hb (4 + 4 * i) b) (i + 1) bs

/-- The header block `write_head` writes back: `hb->n = log.lh.n`, then the block numbers. -/
def putHead (hb : Block) (lh : List UInt32) : Block :=
  putBlocks (store hb 0 (UInt32.ofNat lh.length)) 0 lh

theorem load_putBlocks_of_le (hb : Block) (i : Nat) (bs : List UInt32) {off : Nat} (hoff : off + 4 ≤ 4 + 4 * i) :
    load (putBlocks hb i bs) off = load hb off := by
  induction bs generalizing hb i with
  | nil => rfl
  | cons b bs ih =>
    rw [putBlocks, ih _ _ (by omega), load_store_of_disjoint _ _ (by omega)]

theorem load_putBlocks (hb : Block) (i : Nat) (bs : List UInt32) (hfit : 4 + 4 * (i + bs.length) ≤ bsize)
    {j : Nat} (hj : j < bs.length) : load (putBlocks hb i bs) (4 + 4 * (i + j)) = bs[j] := by
  induction bs generalizing hb i j with
  | nil => simp at hj
  | cons b bs ih =>
    simp only [List.length_cons] at hfit hj
    rw [putBlocks]
    cases j with
    | zero =>
      rw [load_putBlocks_of_le _ _ _ (by omega), Nat.add_zero, load_store_self _ _ _ (by omega)]
      rfl
    | succ j =>
      rw [show i + (j + 1) = (i + 1) + j by omega, ih _ _ (by omega) (by omega)]
      rfl

/-- The `int` header count round-trips for every transaction length the header can hold. -/
theorem toInt_ofNat_length {n : Nat} (hn : n ≤ logSize) : (UInt32.ofNat n).toInt32.toInt = n := by
  have hsmall : ∀ m < 31, (UInt32.ofNat m).toInt32.toInt = m := by decide
  exact hsmall n (by unfold logSize maxOpBlocks at hn; omega)

theorem headN_putHead (hb : Block) {lh : List UInt32} (hlen : lh.length ≤ logSize) :
    headN (putHead hb lh) = lh.length := by
  unfold headN putHead
  rw [load_putBlocks_of_le _ _ _ (by omega), load_store_self _ _ _ (by unfold bsize; omega),
    toInt_ofNat_length hlen]

theorem readHead_putHead (hb : Block) {lh : List UInt32} (hlen : lh.length ≤ logSize) :
    readHead (putHead hb lh) = lh := by
  have hfit : 4 + 4 * (0 + lh.length) ≤ bsize := by
    unfold logSize maxOpBlocks at hlen
    unfold bsize
    omega
  apply List.ext_getElem
  · simp [readHead, headN_putHead hb hlen]
  · intro j hj _
    simp only [readHead, List.getElem_map, List.getElem_range, headBlock, putHead]
    rw [← load_putBlocks _ 0 lh hfit (by simpa [readHead, headN_putHead hb hlen] using hj), Nat.zero_add]

theorem readHead_of_headN_eq_zero {hb : Block} (h : headN hb = 0) : readHead hb = [] := by
  simp [readHead, h]

/-! ### The block writes of `commit` and `recover_from_log` -/

/-- Block `a` lies in the log region `[log.start, log.start + log.size)`: the header and the data slots,
with `log.size = sb.nlog` as `mkfs` writes it. -/
def inLog (start a : Nat) : Prop := start ≤ a ∧ a < start + mkfsNlog

instance (start a : Nat) : Decidable (inLog start a) := inferInstanceAs (Decidable (_ ∧ _))

/-- `write_head`: reads the header block, stores the in-memory header in it and writes it back. -/
def writeHead (start : Nat) (lh : List UInt32) : Disk → Disk := put start fun d => putHead (d start) lh

/-- `write_log`: iteration `tail` copies the cached block `lh[tail]` to the log slot
`log.start + tail + 1`. -/
def writeLog (start : Nat) (lh : List UInt32) (cache : UInt32 → Block) : List (Disk → Disk) :=
  puts (fun tail => start + tail + 1) (fun tail _ => cache (lh.getD tail 0)) lh.length

/-- `install_trans`: iteration `tail` copies the log slot `log.start + tail + 1` to the home block
`lh[tail]`. Its disk writes are the same whether or not it is recovering. -/
def installTrans (start : Nat) (lh : List UInt32) : List (Disk → Disk) :=
  puts (fun tail => (lh.getD tail 0).toNat) (fun tail d => d (start + tail + 1)) lh.length

/-- The block writes of `commit` for the transaction `lh`, the cached blocks being `cache`. -/
def commit (start : Nat) (lh : List UInt32) (cache : UInt32 → Block) : List (Disk → Disk) :=
  if 0 < lh.length then
    writeLog start lh cache ++ [writeHead start lh] ++ installTrans start lh ++ [writeHead start []]
  else []

/-- The block writes of `recover_from_log` on the disk `d`: `read_head`, then `install_trans` of what it
read, then `write_head` of the emptied header. -/
def recoverFromLog (start : Nat) (d : Disk) : List (Disk → Disk) :=
  installTrans start (readHead (d start)) ++ [writeHead start []]

/-- The pre-commit disk with every logged block replaced by its cached content. -/
def applyTx (d0 : Disk) (lh : List UInt32) (cache : UInt32 → Block) : Disk :=
  fun a => if a ∈ lh.map UInt32.toNat then cache (UInt32.ofNat a) else d0 a

/-- A transaction as `log_write` builds it: distinct home blocks outside the log region, at most
`log.size - 1` of them. -/
structure ValidTx (start : Nat) (lh : List UInt32) : Prop where
  nodup : lh.Nodup
  outside : ∀ b ∈ lh, ¬ inLog start b.toNat
  length_le : lh.length ≤ mkfsNlog - 1

section Tx

variable {start : Nat} {lh : List UInt32}

theorem ValidTx.length_le_logSize (htx : ValidTx start lh) : lh.length ≤ logSize :=
  le_trans htx.length_le (Nat.sub_le _ _)

theorem ValidTx.slot_inLog (htx : ValidTx start lh) {i : Nat} (hi : i < lh.length) : inLog start (start + i + 1) := by
  have := htx.length_le
  unfold inLog
  omega

theorem ValidTx.home_not_inLog (htx : ValidTx start lh) {i : Nat} (hi : i < lh.length) :
    ¬ inLog start (lh.getD i 0).toNat := by
  rw [List.getD_eq_getElem _ _ hi]
  exact htx.outside _ (List.getElem_mem hi)

theorem ValidTx.home_inj (htx : ValidTx start lh) :
    ∀ i < lh.length, ∀ j < lh.length, (lh.getD i 0).toNat = (lh.getD j 0).toNat → i = j := by
  intro i hi j hj hij
  rw [List.getD_eq_getElem _ _ hi, List.getD_eq_getElem _ _ hj] at hij
  exact (List.Nodup.getElem_inj_iff htx.nodup).mp (UInt32.toNat_inj.mp hij)

theorem mem_homes_iff {a : Nat} : a ∈ lh.map UInt32.toNat ↔ ∃ i < lh.length, (lh.getD i 0).toNat = a := by
  rw [List.mem_map]
  constructor
  · rintro ⟨b, hb, rfl⟩
    obtain ⟨i, hi, rfl⟩ := List.mem_iff_getElem.mp hb
    exact ⟨i, hi, by rw [List.getD_eq_getElem _ _ hi]⟩
  · rintro ⟨i, hi, rfl⟩
    exact ⟨lh[i], List.getElem_mem hi, by rw [List.getD_eq_getElem _ _ hi]⟩

theorem applyTx_home (d0 : Disk) (cache : UInt32 → Block) {i : Nat} (hi : i < lh.length) :
    applyTx d0 lh cache (lh.getD i 0).toNat = cache (lh.getD i 0) := by
  rw [applyTx, if_pos (mem_homes_iff.mpr ⟨i, hi, rfl⟩), UInt32.ofNat_toNat]

theorem applyTx_of_not_home (d0 : Disk) (cache : UInt32 → Block) {a : Nat}
    (ha : ∀ i < lh.length, (lh.getD i 0).toNat ≠ a) : applyTx d0 lh cache a = d0 a := by
  rw [applyTx, if_neg]
  rintro hmem
  obtain ⟨i, hi, rfl⟩ := mem_homes_iff.mp hmem
  exact ha i hi rfl

end Tx

theorem writeHead_of_ne {start a : Nat} (lh : List UInt32) (d : Disk) (ha : a ≠ start) :
    writeHead start lh d a = d a :=
  Function.update_of_ne ha _ _

@[simp] theorem writeHead_self (start : Nat) (lh : List UInt32) (d : Disk) :
    writeHead start lh d start = putHead (d start) lh :=
  Function.update_self _ _ _

@[simp] theorem installTrans_nil (start : Nat) : installTrans start [] = [] := rfl

/-! ### The three phases of a commit -/

section Phases

variable (start : Nat) (d0 : Disk) (lh : List UInt32) (cache : UInt32 → Block)

/-- Before the commit point: the header is empty and every block outside the log is as before. -/
def Uncommitted (d : Disk) : Prop := headN (d start) = 0 ∧ ∀ a, ¬ inLog start a → d a = d0 a

/-- After the commit point: the header names the transaction, the slots hold its blocks, and every block
outside the log is either as before or as the transaction leaves it. -/
def Committed (d : Disk) : Prop :=
  readHead (d start) = lh ∧ (∀ i < lh.length, d (start + i + 1) = cache (lh.getD i 0)) ∧
    ∀ a, ¬ inLog start a → d a = d0 a ∨ d a = applyTx d0 lh cache a

/-- Installed and cleared: the header is empty and every block outside the log is as the transaction
leaves it. -/
def Installed (d : Disk) : Prop := headN (d start) = 0 ∧ ∀ a, ¬ inLog start a → d a = applyTx d0 lh cache a

end Phases

section Commit

variable {start : Nat} {d0 : Disk} {lh : List UInt32} {cache : UInt32 → Block}

theorem not_inLog_ne_start {a : Nat} (ha : ¬ inLog start a) : a ≠ start := by
  rintro rfl
  exact ha ⟨le_rfl, by unfold mkfsNlog logSize maxOpBlocks; omega⟩

theorem Uncommitted.writeHead_nil {d : Disk} (hd : Uncommitted start d0 d) :
    Uncommitted start d0 (writeHead start [] d) := by
  refine ⟨by rw [writeHead_self, headN_putHead _ (by simp)]; rfl, fun a ha => ?_⟩
  rw [writeHead_of_ne _ _ (not_inLog_ne_start ha)]
  exact hd.2 a ha

theorem Installed.writeHead_nil {d : Disk} (hd : Installed start d0 lh cache d) :
    Installed start d0 lh cache (writeHead start [] d) := by
  refine ⟨by rw [writeHead_self, headN_putHead _ (by simp)]; rfl, fun a ha => ?_⟩
  rw [writeHead_of_ne _ _ (not_inLog_ne_start ha)]
  exact hd.2 a ha

/-- Every crash inside `write_log` leaves the commit undone: only log slots have changed. -/
theorem uncommitted_writeLog (htx : ValidTx start lh) (hempty : headN (d0 start) = 0) (k : Nat) :
    Uncommitted start d0 (crashAt (writeLog start lh cache) k d0) := by
  rw [writeLog, crashAt_puts]
  refine ⟨?_, fun a ha => ?_⟩
  · rw [run_puts_of_ne fun i _ => by omega]
    exact hempty
  · refine run_puts_of_ne fun i hi hslot => ha ?_
    rw [← hslot]
    exact htx.slot_inLog (lt_of_lt_of_le hi (min_le_right _ _))

/-- The header write is the commit point. -/
theorem committed_writeHead (htx : ValidTx start lh) :
    Committed start d0 lh cache (writeHead start lh (run (writeLog start lh cache) d0)) := by
  refine ⟨?_, fun i hi => ?_, fun a ha => .inl ?_⟩
  · rw [writeHead_self, readHead_putHead _ htx.length_le_logSize]
  · rw [writeHead_of_ne _ _ (by omega), writeLog]
    exact run_puts_self (fun i _ j _ h => by omega) (fun _ _ _ _ => rfl) le_rfl hi
  · rw [writeHead_of_ne _ _ (not_inLog_ne_start ha), writeLog]
    exact run_puts_of_ne fun i hi hslot => ha (hslot ▸ htx.slot_inLog hi)

/-- One iteration of `install_trans` keeps a committed disk committed: it moves one home block to its
new content, read from a slot no home block overlaps. -/
theorem Committed.installOne (htx : ValidTx start lh) {d : Disk} (hd : Committed start d0 lh cache d)
    {i : Nat} (hi : i < lh.length) :
    Committed start d0 lh cache (put (lh.getD i 0).toNat (fun d => d (start + i + 1)) d) := by
  have hhome := htx.home_not_inLog hi
  refine ⟨?_, fun j hj => ?_, fun a ha => ?_⟩
  · rw [put, Function.update_of_ne (not_inLog_ne_start hhome).symm]
    exact hd.1
  · have hne : start + j + 1 ≠ (lh.getD i 0).toNat := fun h => hhome (h ▸ htx.slot_inLog hj)
    rw [put, Function.update_of_ne hne]
    exact hd.2.1 j hj
  · by_cases hai : a = (lh.getD i 0).toNat
    · subst hai
      rw [put, Function.update_self, hd.2.1 i hi, applyTx_home d0 cache hi]
      exact .inr rfl
    · rw [put, Function.update_of_ne hai]
      exact hd.2.2 a ha

theorem Committed.run_installTrans (htx : ValidTx start lh) {d : Disk} (hd : Committed start d0 lh cache d)
    {k : Nat} (hk : k ≤ lh.length) : Committed start d0 lh cache (run (puts (fun tail => (lh.getD tail 0).toNat)
      (fun tail d => d (start + tail + 1)) k) d) := by
  induction k with
  | zero => exact hd
  | succ k ih =>
    rw [run_puts_succ]
    exact (ih (by omega)).installOne htx (by omega)

theorem Committed.crashAt_installTrans (htx : ValidTx start lh) {d : Disk}
    (hd : Committed start d0 lh cache d) (k : Nat) :
    Committed start d0 lh cache (crashAt (installTrans start lh) k d) := by
  rw [installTrans, crashAt_puts]
  exact hd.run_installTrans htx (min_le_right _ _)

/-- A complete `install_trans` from a committed disk leaves every block outside the log as the
transaction leaves it. -/
theorem Committed.installTrans_eq (htx : ValidTx start lh) {d : Disk} (hd : Committed start d0 lh cache d)
    {a : Nat} (ha : ¬ inLog start a) : run (installTrans start lh) d a = applyTx d0 lh cache a := by
  rw [installTrans]
  by_cases hhome : ∃ i < lh.length, (lh.getD i 0).toNat = a
  · obtain ⟨i, hi, rfl⟩ := hhome
    -- the loop reads only slots, which no home block overlaps
    have hread : ∀ i < lh.length, ∀ (d' : Disk), (∀ b, (∀ j < lh.length, (lh.getD j 0).toNat ≠ b) → d' b = d b) →
        d' (start + i + 1) = d (start + i + 1) :=
      fun i hi d' hd' => hd' _ fun j hj hslot => htx.home_not_inLog hj (hslot ▸ htx.slot_inLog hi)
    rw [run_puts_self htx.home_inj hread le_rfl hi, hd.2.1 i hi, applyTx_home d0 cache hi]
  · push Not at hhome
    rw [run_puts_of_ne hhome, applyTx_of_not_home d0 cache hhome]
    rcases hd.2.2 a ha with h | h
    · exact h
    · exact h.trans (applyTx_of_not_home d0 cache hhome)

theorem Committed.installed (htx : ValidTx start lh) {d : Disk} (hd : Committed start d0 lh cache d) :
    Installed start d0 lh cache (writeHead start [] (run (installTrans start lh) d)) := by
  refine ⟨by rw [writeHead_self, headN_putHead _ (by simp)]; rfl, fun a ha => ?_⟩
  rw [writeHead_of_ne _ _ (not_inLog_ne_start ha)]
  exact hd.installTrans_eq htx ha

/-- Every crash point of `commit` leaves the disk in one of the three phases. -/
theorem crashAt_commit_phase (htx : ValidTx start lh) (hempty : headN (d0 start) = 0) {k : Nat}
    (hk : k ≤ (commit start lh cache).length) :
    Uncommitted start d0 (crashAt (commit start lh cache) k d0) ∨
      Committed start d0 lh cache (crashAt (commit start lh cache) k d0) ∨
      Installed start d0 lh cache (crashAt (commit start lh cache) k d0) := by
  unfold commit at hk ⊢
  split
  · rename_i hpos
    rw [if_pos hpos] at hk
    simp only [writeLog, installTrans, List.length_append, length_puts, List.length_singleton] at hk
    -- the crash falls in `write_log`, in `install_trans` after the committing header write, or after
    -- the clearing header write
    by_cases hlog : k ≤ lh.length
    · left
      rw [crashAt_append_of_le (by simp [writeLog, installTrans]; omega),
        crashAt_append_of_le (by simp [writeLog]; omega), crashAt_append_of_le (by simp [writeLog]; omega)]
      exact uncommitted_writeLog htx hempty k
    · by_cases hinstall : k ≤ 2 * lh.length + 1
      · right; left
        have hhead : (writeLog start lh cache ++ [writeHead start lh]).length = lh.length + 1 := by
          simp [writeLog]
        have hmid : (writeLog start lh cache ++ [writeHead start lh] ++ installTrans start lh).length =
            2 * lh.length + 1 := by
          simp [writeLog, installTrans]
          omega
        obtain ⟨j, rfl⟩ : ∃ j, k = (writeLog start lh cache ++ [writeHead start lh]).length + j :=
          ⟨k - (lh.length + 1), by omega⟩
        rw [crashAt_append_of_le (by rw [hmid, hhead]; omega), crashAt_append_add,
          run_append, run_singleton]
        exact (committed_writeHead htx).crashAt_installTrans htx j
      · right; right
        have hall : k = (writeLog start lh cache ++ [writeHead start lh] ++ installTrans start lh ++
            [writeHead start []]).length := by
          simp [writeLog, installTrans]
          omega
        rw [hall, crashAt_length]
        simp only [run_append, run_singleton]
        exact (committed_writeHead htx).installed htx
  · -- an empty transaction commits nothing
    left
    exact ⟨by simpa [crashAt] using hempty, fun a _ => by simp [crashAt]⟩

end Commit

/-! ### Recovery -/

section Recover

variable {start : Nat} {d0 : Disk} {lh : List UInt32} {cache : UInt32 → Block}

theorem recoverFromLog_of_headN_eq_zero {d : Disk} (h : headN (d start) = 0) :
    recoverFromLog start d = [writeHead start []] := by
  rw [recoverFromLog, readHead_of_headN_eq_zero h, installTrans_nil, List.nil_append]

theorem Committed.recoverFromLog_eq {d : Disk} (hd : Committed start d0 lh cache d) :
    recoverFromLog start d = installTrans start lh ++ [writeHead start []] := by
  rw [recoverFromLog, hd.1]

/-- Recovery from an uncommitted disk, crashed any number of times and then completed, leaves it
uncommitted. -/
theorem Uncommitted.recovers {d d' : Disk} (hd : Uncommitted start d0 d)
    (hrec : Recovers (recoverFromLog start) d d') : Uncommitted start d0 d' := by
  refine hrec.induction (Uncommitted start d0) (Uncommitted start d0) ?_ ?_ hd
  · intro d hd k hk
    rw [recoverFromLog_of_headN_eq_zero hd.1] at hk ⊢
    obtain rfl : k = 0 := by simpa using hk
    simpa using hd
  · intro d hd
    rw [recoverFromLog_of_headN_eq_zero hd.1, run_singleton]
    exact hd.writeHead_nil

/-- Recovery from a committed or installed disk, crashed any number of times and then completed,
installs the transaction and clears the header. -/
theorem recovers_installed (htx : ValidTx start lh) {d d' : Disk}
    (hd : Committed start d0 lh cache d ∨ Installed start d0 lh cache d)
    (hrec : Recovers (recoverFromLog start) d d') : Installed start d0 lh cache d' := by
  refine hrec.induction (fun d => Committed start d0 lh cache d ∨ Installed start d0 lh cache d)
    (Installed start d0 lh cache) ?_ ?_ hd
  · rintro d (hd | hd) k hk
    · -- a crash before the clearing header write is inside `install_trans`, which keeps the commit
      rw [hd.recoverFromLog_eq] at hk ⊢
      simp only [installTrans, List.length_append, length_puts, List.length_singleton] at hk
      rw [crashAt_append_of_le (by simp [installTrans]; omega)]
      exact .inl (hd.crashAt_installTrans htx k)
    · rw [recoverFromLog_of_headN_eq_zero hd.1] at hk ⊢
      obtain rfl : k = 0 := by simpa using hk
      exact .inr (by simpa using hd)
  · rintro d (hd | hd)
    · rw [hd.recoverFromLog_eq, run_append, run_singleton]
      exact hd.installed htx
    · rw [recoverFromLog_of_headN_eq_zero hd.1, run_singleton]
      exact hd.writeHead_nil

end Recover

/-- Crash atomicity of the log: from a disk whose header is empty, a crash after any prefix of the block
writes of `commit`, followed by any number of crashed runs of `recover_from_log` and one complete run,
leaves every block outside the log region either as before the commit or as the transaction leaves it,
and an empty header. -/
theorem commit_crash_atomic {start : Nat} {d0 : Disk} {lh : List UInt32} {cache : UInt32 → Block}
    (hempty : headN (d0 start) = 0) (htx : ValidTx start lh) {k : Nat}
    (hk : k ≤ (commit start lh cache).length) {d : Disk}
    (hrec : Recovers (recoverFromLog start) (crashAt (commit start lh cache) k d0) d) :
    ((∀ a, ¬ inLog start a → d a = d0 a) ∨ (∀ a, ¬ inLog start a → d a = applyTx d0 lh cache a)) ∧
      headN (d start) = 0 := by
  rcases crashAt_commit_phase htx hempty hk with hphase | hphase
  · have hd := hphase.recovers hrec
    exact ⟨.inl hd.2, hd.1⟩
  · have hd := recovers_installed htx hphase hrec
    exact ⟨.inr hd.2, hd.1⟩

/-- Two logged blocks, a crash right after the committing header write, and one complete recovery. -/
theorem commit_crash_atomic_two_blocks :
    headN ((fun _ _ => 0 : Disk) 2) = 0 ∧ ValidTx 2 [40, 41] ∧ 3 ≤ (commit 2 [40, 41] fun _ _ => 7).length ∧
      (((∀ a, ¬ inLog 2 a → run (recoverFromLog 2 (crashAt (commit 2 [40, 41] fun _ _ => 7) 3 fun _ _ => 0))
          (crashAt (commit 2 [40, 41] fun _ _ => 7) 3 fun _ _ => 0) a = (fun _ _ => 0 : Disk) a) ∨
        (∀ a, ¬ inLog 2 a → run (recoverFromLog 2 (crashAt (commit 2 [40, 41] fun _ _ => 7) 3 fun _ _ => 0))
          (crashAt (commit 2 [40, 41] fun _ _ => 7) 3 fun _ _ => 0) a =
            applyTx (fun _ _ => 0) [40, 41] (fun _ _ => 7) a)) ∧
        headN (run (recoverFromLog 2 (crashAt (commit 2 [40, 41] fun _ _ => 7) 3 fun _ _ => 0))
          (crashAt (commit 2 [40, 41] fun _ _ => 7) 3 fun _ _ => 0) 2) = 0) := by
  have hempty : headN ((fun _ _ => 0 : Disk) 2) = 0 := by decide
  have htx : ValidTx 2 [40, 41] := ⟨by decide, by simp [inLog, mkfsNlog, logSize, maxOpBlocks], by decide⟩
  have hk : 3 ≤ (commit 2 [40, 41] fun _ _ => 7).length := by simp [commit, writeLog, installTrans]
  exact ⟨hempty, htx, hk, @commit_crash_atomic 2 (fun _ _ => 0) [40, 41] (fun _ _ => 7) hempty htx 3 hk _
    (Recovers.complete _)⟩

end Xv6.Logging
