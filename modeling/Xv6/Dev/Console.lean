import Xv6.Library.CounterRing
import Xv6.Library.Run

/-!
# The console's line discipline: `consoleintr` and `consoleread`

`cons` is a ring of `INPUT_BUF_SIZE` bytes with three free-running 32-bit counters: `r` counts the
bytes read, `w` the bytes committed to readers, `e` the bytes typed. `consoleintr(c)` edits the
uncommitted bytes from `w` to `e` and commits them at a newline, at `^D`, or when the buffer is full;
`consoleread` takes committed bytes from `r` on. A read that finds nothing committed sleeps and goes
on later, so it runs as several locked stretches with interrupts in between; each stretch is one step
here, for any count `n` still wanted out of any `target`.

What the discipline is for is `Editor`, a line editor on two lists: the committed bytes not yet read,
and the line being edited. Through `abs`, which reads the two lists off the ring, every
`consoleintr` is the editor's key press and every locked stretch of `consoleread` is the editor's
read (`consoleintr_abs`, `readLoop_abs`). So over any interleaving the three counters stay in order
within `INPUT_BUF_SIZE` of each other, across their wrap, and every read returns what the editor
returns (`console_refines`).
-/

namespace Xv6.Dev

open CounterRing Transition

/-- `INPUT_BUF_SIZE`. -/
def inputBufSize : Nat := 128

instance : NeZero inputBufSize := ⟨by decide⟩

theorem inputBufSize_dvd : inputBufSize ∣ 2 ^ 32 := ⟨2 ^ 25, by norm_num [inputBufSize]⟩

/-- `C('D')`, the end of file. -/
def ctrlD : UInt8 := 4

/-- `C('H')`, backspace. -/
def ctrlH : UInt8 := 8

/-- `C('P')`, which prints the process list. -/
def ctrlP : UInt8 := 16

/-- `C('U')`, which kills the line. -/
def ctrlU : UInt8 := 21

/-- `'\x7f'`, the delete key. -/
def delete : UInt8 := 127

/-- `'\n'`. -/
def newline : UInt8 := 10

/-- `'\r'`. -/
def cr : UInt8 := 13

/-- `cons` without its lock. -/
structure Cons where
  buf : Fin inputBufSize → UInt8
  r : UInt32
  w : UInt32
  e : UInt32

/-- `cons` at boot: the counters at `0`. -/
def Cons.init (buf : Fin inputBufSize → UInt8) : Cons := ⟨buf, 0, 0, 0⟩

/-- The loop of `^U`: step `e` back over the uncommitted bytes up to a newline. `INPUT_BUF_SIZE`
passes are enough. -/
def killLoop : (fuel : Nat) → Cons → Cons
  | 0, s => s
  | fuel + 1, s =>
    if s.e ≠ s.w ∧ s.buf (cell inputBufSize (s.e - 1)) ≠ newline then killLoop fuel { s with e := s.e - 1 } else s

/-- `consoleintr(c)` on the console's state. The echo to the UART and `procdump` leave it alone. -/
def consoleintr (c : UInt8) (s : Cons) : Cons :=
  if c = ctrlP then s
  else if c = ctrlU then killLoop inputBufSize s
  else if c = ctrlH ∨ c = delete then
    if s.e ≠ s.w then { s with e := s.e - 1 } else s
  else if c ≠ 0 ∧ count s.r s.e < inputBufSize then
    let c := if c = cr then newline else c
    let s := { s with buf := Function.update s.buf (cell inputBufSize s.e) c, e := s.e + 1 }
    if c = newline ∨ c = ctrlD ∨ count s.r s.e = inputBufSize then { s with w := s.e } else s
  else s

/-- How a locked stretch of `consoleread` ends. -/
inductive ReadOutcome
  /-- Nothing is committed: the reader sleeps, still wanting `n` bytes. -/
  | sleep (n : Nat)
  /-- The call returns `r`. -/
  | ret (r : Nat)
  deriving DecidableEq, Repr

/-- The loop of `consoleread(user_dst, dst, n)` in one locked stretch, with `n` of `target` bytes
still wanted and every `copyout` succeeding: the bytes copied out, how the stretch ends, and the
console after it. Each pass takes a byte or ends, so `n + 1` passes are enough. -/
def readLoop (target : Nat) : (fuel : Nat) → (n : Nat) → Cons → List UInt8 × ReadOutcome × Cons
  | 0, n, s => ([], .ret (target - n), s)
  | fuel + 1, n, s =>
    if 0 < n then
      if s.r = s.w then ([], .sleep n, s)
      else
        let c := s.buf (cell inputBufSize s.r)
        let s := { s with r := s.r + 1 }
        if c = ctrlD then
          -- a `^D` after data is put back, so that the next read returns `0`
          ([], .ret (target - n), if n < target then { s with r := s.r - 1 } else s)
        else if c = newline then ([c], .ret (target - (n - 1)), s)
        else
          let rest := readLoop target fuel (n - 1) s
          (c :: rest.1, rest.2.1, rest.2.2)
    else ([], .ret (target - n), s)

/-- What happens at the console: a byte arrives, or a reader runs one locked stretch of a read of
`target` bytes with `n` still wanted, copying out `out`. -/
inductive Event
  | intr (c : UInt8)
  | read (target n : Nat) (out : List UInt8) (o : ReadOutcome)
  deriving DecidableEq, Repr

/-- The console's steps. -/
inductive ConsStep : Cons → Event → Cons → Prop
  | intr {s : Cons} (c : UInt8) : ConsStep s (.intr c) (consoleintr c s)
  | read {s s' : Cons} {target n : Nat} {out : List UInt8} {o : ReadOutcome} :
      n ≤ target → readLoop target (n + 1) n s = (out, o, s') → ConsStep s (.read target n out o) s'

section Editor

/-- A line editor: the committed bytes no reader has taken, and the line being edited. -/
structure Editor where
  committed : List UInt8
  pending : List UInt8

/-- A key press. `'\r'` is a newline; backspace and delete drop the last byte of the line and `^U`
all of it; a newline, `^D`, or a buffer of `INPUT_BUF_SIZE` unread bytes commits the line; `NUL`,
`^P` and a byte arriving at a full buffer are dropped. -/
def Editor.intr (c : UInt8) (ed : Editor) : Editor :=
  if c = ctrlP then ed
  else if c = ctrlU then { ed with pending := [] }
  else if c = ctrlH ∨ c = delete then { ed with pending := ed.pending.dropLast }
  else if c ≠ 0 ∧ ed.committed.length + ed.pending.length < inputBufSize then
    let c := if c = cr then newline else c
    if c = newline ∨ c = ctrlD ∨ ed.committed.length + ed.pending.length + 1 = inputBufSize then
      ⟨ed.committed ++ ed.pending ++ [c], []⟩
    else { ed with pending := ed.pending ++ [c] }
  else ed

/-- A reader wanting `n` of `target` bytes, from the committed bytes `q`: the bytes it gets, how it
ends, and what stays committed. It takes bytes up to a newline; `^D` is never returned, ends a read
that got data and stays for the next one, which returns `0`; with nothing committed it waits. -/
def Editor.read (target : Nat) : (n : Nat) → List UInt8 → List UInt8 × ReadOutcome × List UInt8
  | n, [] => if 0 < n then ([], .sleep n, []) else ([], .ret (target - n), [])
  | n, c :: q =>
    if 0 < n then
      if c = ctrlD then ([], .ret (target - n), if n < target then c :: q else q)
      else if c = newline then ([c], .ret (target - (n - 1)), q)
      else
        let rest := Editor.read target (n - 1) q
        (c :: rest.1, rest.2.1, rest.2.2)
    else ([], .ret (target - n), c :: q)

/-- The editor's steps. -/
inductive EdStep : Editor → Event → Editor → Prop
  | intr {ed : Editor} (c : UInt8) : EdStep ed (.intr c) (ed.intr c)
  | read {ed : Editor} {target n : Nat} {out : List UInt8} {o : ReadOutcome} {q : List UInt8} :
      n ≤ target → Editor.read target n ed.committed = (out, o, q) → EdStep ed (.read target n out o) { ed with committed := q }

end Editor

/-- The editor the console stands for: the committed bytes from `r` to `w`, the line from `w` to `e`. -/
def abs (s : Cons) : Editor := ⟨view s.buf s.r s.w, view s.buf s.w s.e⟩

/-- What holds of the console between steps: `r ≤ w ≤ e ≤ r + INPUT_BUF_SIZE` as differences of the
32-bit counters, and the line being edited holds no newline and no `^D`. -/
structure ConsInv (s : Cons) : Prop where
  w_le : count s.r s.w ≤ count s.r s.e
  e_le : count s.r s.e ≤ inputBufSize
  pending : ∀ x ∈ view s.buf s.w s.e, x ≠ newline ∧ x ≠ ctrlD

section Inv

variable {s : Cons}

@[simp] theorem abs_committed (s : Cons) : (abs s).committed = view s.buf s.r s.w := rfl

@[simp] theorem abs_pending (s : Cons) : (abs s).pending = view s.buf s.w s.e := rfl

theorem ConsInv.count_w_e (hinv : ConsInv s) : count s.w s.e = count s.r s.e - count s.r s.w :=
  count_split hinv.w_le

/-- The committed and the pending bytes together are the unread ones. -/
theorem ConsInv.length_add (hinv : ConsInv s) :
    (abs s).committed.length + (abs s).pending.length = count s.r s.e := by
  simp only [abs_committed, abs_pending, view_length, hinv.count_w_e]
  have := hinv.w_le
  omega

theorem consInv_init (buf : Fin inputBufSize → UInt8) : ConsInv (Cons.init buf) :=
  ⟨le_rfl, by simp [Cons.init], by simp [Cons.init]⟩

theorem abs_init (buf : Fin inputBufSize → UInt8) : abs (Cons.init buf) = ⟨[], []⟩ := by
  simp [abs, Cons.init]

end Inv

section Intr

variable {s : Cons}

theorem Cons.with_e_of_eq (h : s.e = s.w) : { s with e := s.w } = s := by
  cases s
  simp_all

/-- `^U` steps `e` back to `w`: the line holds no newline. -/
theorem killLoop_eq : ∀ {fuel : Nat} {s : Cons}, count s.w s.e ≤ fuel → (∀ x ∈ view s.buf s.w s.e, x ≠ newline) →
    killLoop fuel s = { s with e := s.w } := by
  intro fuel
  induction fuel with
  | zero =>
    intro s hle _
    have he : s.w = s.e := eq_of_count_eq_zero (by omega)
    rw [killLoop, Cons.with_e_of_eq he.symm]
  | succ fuel ih =>
    intro s hle hnl
    by_cases he : s.e = s.w
    · rw [killLoop, if_neg (fun h => h.1 he), Cons.with_e_of_eq he]
    · -- the byte before `e` is the line's last, so not a newline
      obtain ⟨hdrop, hlast⟩ := view_sub_one s.buf (Ne.symm he)
      have hbyte : s.buf (cell inputBufSize (s.e - 1)) ≠ newline :=
        hnl _ (List.mem_of_getLast? hlast)
      rw [killLoop, if_pos ⟨he, hbyte⟩, ih]
      · show count s.w (s.e - 1) ≤ fuel
        rw [count_sub_one (Ne.symm he)]
        omega
      · intro x hx
        rw [show view ({ s with e := s.e - 1 } : Cons).buf s.w (s.e - 1) = view s.buf s.w (s.e - 1) from rfl, hdrop] at hx
        exact hnl x (List.mem_of_mem_dropLast hx)

theorem kill_abs (hinv : ConsInv s) :
    abs (killLoop inputBufSize s) = { abs s with pending := [] } ∧ ConsInv (killLoop inputBufSize s) := by
  have hle : count s.w s.e ≤ inputBufSize := by rw [hinv.count_w_e]; have := hinv.e_le; omega
  rw [killLoop_eq hle fun x hx => (hinv.pending x hx).1]
  exact ⟨by simp [abs], ⟨le_rfl, le_trans hinv.w_le hinv.e_le, by simp⟩⟩

/-- Backspace and delete step `e` back over the line's last byte. -/
theorem backspace_abs (hinv : ConsInv s) :
    abs (if s.e ≠ s.w then { s with e := s.e - 1 } else s) = { abs s with pending := (abs s).pending.dropLast } ∧
      ConsInv (if s.e ≠ s.w then { s with e := s.e - 1 } else s) := by
  by_cases he : s.e = s.w
  · simp [he, abs, hinv]
  · rw [if_pos he]
    obtain ⟨hdrop, -⟩ := view_sub_one s.buf (Ne.symm he)
    -- one byte is pending, so `e - 1` stays at or after `w`
    have hlt : count s.r s.w < count s.r s.e := lt_of_le_of_ne hinv.w_le fun h => he (eq_of_count_eq h).symm
    have hre : s.r ≠ s.e := fun h => by rw [h, count_self] at hlt; omega
    have hcount : count s.r (s.e - 1) = count s.r s.e - 1 := count_sub_one hre
    refine ⟨by simp [abs, hdrop], ⟨?_, ?_, fun x hx => ?_⟩⟩
    · show count s.r s.w ≤ count s.r (s.e - 1)
      omega
    · show count s.r (s.e - 1) ≤ inputBufSize
      have := hinv.e_le
      omega
    · rw [show view ({ s with e := s.e - 1 } : Cons).buf s.w (s.e - 1) = view s.buf s.w (s.e - 1) from rfl, hdrop] at hx
      exact hinv.pending x (List.mem_of_mem_dropLast hx)

/-- A byte typed with room in the buffer goes at `e`: at the end of the line, which it commits when it
ends the line or fills the buffer. -/
theorem push_abs (hinv : ConsInv s) (hroom : count s.r s.e < inputBufSize) (c : UInt8) :
    let s' : Cons := { s with buf := Function.update s.buf (cell inputBufSize s.e) c, e := s.e + 1 }
    abs (if c = newline ∨ c = ctrlD ∨ count s'.r s'.e = inputBufSize then { s' with w := s'.e } else s') =
      (if c = newline ∨ c = ctrlD ∨ (abs s).committed.length + (abs s).pending.length + 1 = inputBufSize then
        ⟨(abs s).committed ++ (abs s).pending ++ [c], []⟩
      else { abs s with pending := (abs s).pending ++ [c] }) ∧
    ConsInv (if c = newline ∨ c = ctrlD ∨ count s'.r s'.e = inputBufSize then { s' with w := s'.e } else s') := by
  intro s'
  have hsucc : count s.r (s.e + 1) = count s.r s.e + 1 := count_succ (by unfold inputBufSize at hroom; omega)
  have hwe : count s.w s.e < inputBufSize := by rw [hinv.count_w_e]; omega
  -- the committed bytes keep their cells, and the line gains `c`
  have hcommitted : view s'.buf s.r s.w = view s.buf s.r s.w := view_update_of_le inputBufSize_dvd hinv.w_le hroom c
  have hpending : view s'.buf s.w (s.e + 1) = view s.buf s.w s.e ++ [c] :=
    view_push inputBufSize_dvd (by norm_num [inputBufSize]) hwe c
  have hcount : count s'.r s'.e = count s.r s.e + 1 := hsucc
  rw [hcount, hinv.length_add]
  by_cases hcommit : c = newline ∨ c = ctrlD ∨ count s.r s.e + 1 = inputBufSize
  · rw [if_pos hcommit, if_pos hcommit]
    have hsplit : view s'.buf s.r (s.e + 1) = view s'.buf s.r s.w ++ view s'.buf s.w (s.e + 1) :=
      view_append _ (by rw [hsucc]; have := hinv.w_le; omega)
    refine ⟨?_, ⟨le_rfl, ?_, by simp⟩⟩
    · simp only [abs, Editor.mk.injEq, List.append_assoc]
      exact ⟨by rw [show s'.r = s.r from rfl, hsplit, hcommitted, hpending], by simp⟩
    · show count s.r (s.e + 1) ≤ inputBufSize
      omega
  · rw [if_neg hcommit, if_neg hcommit]
    simp only [not_or] at hcommit
    refine ⟨?_, ⟨?_, ?_, fun x hx => ?_⟩⟩
    · simp only [abs, Editor.mk.injEq]
      exact ⟨hcommitted, hpending⟩
    · show count s.r s.w ≤ count s.r (s.e + 1)
      have := hinv.w_le
      omega
    · show count s.r (s.e + 1) ≤ inputBufSize
      omega
    · rw [show view s'.buf s'.w s'.e = view s'.buf s.w (s.e + 1) from rfl, hpending, List.mem_append] at hx
      rcases hx with hx | hx
      · exact hinv.pending x hx
      · rw [List.mem_singleton] at hx
        exact hx ▸ ⟨hcommit.1, hcommit.2.1⟩

/-- Every `consoleintr` is the editor's key press, and keeps the invariant. -/
theorem consoleintr_abs (c : UInt8) (hinv : ConsInv s) :
    abs (consoleintr c s) = (abs s).intr c ∧ ConsInv (consoleintr c s) := by
  unfold consoleintr Editor.intr
  by_cases hP : c = ctrlP
  · rw [if_pos hP, if_pos hP]
    exact ⟨rfl, hinv⟩
  rw [if_neg hP, if_neg hP]
  by_cases hU : c = ctrlU
  · rw [if_pos hU, if_pos hU]
    exact kill_abs hinv
  rw [if_neg hU, if_neg hU]
  by_cases hH : c = ctrlH ∨ c = delete
  · rw [if_pos hH, if_pos hH]
    exact backspace_abs hinv
  rw [if_neg hH, if_neg hH, hinv.length_add]
  by_cases hroom : c ≠ 0 ∧ count s.r s.e < inputBufSize
  · rw [if_pos hroom, if_pos hroom]
    rw [← hinv.length_add]
    exact push_abs hinv hroom.2 _
  · rw [if_neg hroom, if_neg hroom]
    exact ⟨rfl, hinv⟩

end Intr

section Read

variable {target : Nat}

/-- Taking the byte at `r` of a non-empty committed queue keeps the invariant. -/
theorem ConsInv.advance {s : Cons} (hinv : ConsInv s) (hne : s.r ≠ s.w) : ConsInv { s with r := s.r + 1 } := by
  have hpos : 0 < count s.r s.w := Nat.pos_of_ne_zero fun h => hne (eq_of_count_eq_zero h)
  have hre : s.r ≠ s.e := fun h => by
    have := hinv.w_le
    rw [h, count_self] at this
    rw [h] at hpos
    omega
  have hw : count (s.r + 1) s.w = count s.r s.w - 1 := count_succ_left hne
  have he : count (s.r + 1) s.e = count s.r s.e - 1 := count_succ_left hre
  refine ⟨?_, ?_, hinv.pending⟩
  · show count (s.r + 1) s.w ≤ count (s.r + 1) s.e
    have := hinv.w_le
    omega
  · show count (s.r + 1) s.e ≤ inputBufSize
    have := hinv.e_le
    omega

section Passes

variable {s : Cons} {n fuel : Nat}

/-- One pass of the loop, as the source writes it. -/
theorem readLoop_succ (fuel n : Nat) (s : Cons) :
    readLoop target (fuel + 1) n s =
      if 0 < n then
        if s.r = s.w then ([], .sleep n, s)
        else
          if s.buf (cell inputBufSize s.r) = ctrlD then
            ([], .ret (target - n), if n < target then { s with r := s.r + 1 - 1 } else { s with r := s.r + 1 })
          else if s.buf (cell inputBufSize s.r) = newline then
            ([s.buf (cell inputBufSize s.r)], .ret (target - (n - 1)), { s with r := s.r + 1 })
          else
            (s.buf (cell inputBufSize s.r) :: (readLoop target fuel (n - 1) { s with r := s.r + 1 }).1,
              (readLoop target fuel (n - 1) { s with r := s.r + 1 }).2.1,
              (readLoop target fuel (n - 1) { s with r := s.r + 1 }).2.2)
      else ([], .ret (target - n), s) := rfl

theorem readLoop_zero (fuel : Nat) (s : Cons) : readLoop target (fuel + 1) 0 s = ([], .ret target, s) := by
  simp [readLoop_succ]

theorem readLoop_empty (hn : 0 < n) (h : s.r = s.w) : readLoop target (fuel + 1) n s = ([], .sleep n, s) := by
  simp [readLoop_succ, hn, h]

theorem readLoop_ctrlD (hn : 0 < n) (h : s.r ≠ s.w) (hD : s.buf (cell inputBufSize s.r) = ctrlD) :
    readLoop target (fuel + 1) n s = ([], .ret (target - n), if n < target then s else { s with r := s.r + 1 }) := by
  simp only [readLoop_succ, if_pos hn, if_neg h, hD, if_true]
  split_ifs <;> simp

theorem readLoop_newline (hn : 0 < n) (h : s.r ≠ s.w) (hN : s.buf (cell inputBufSize s.r) = newline) :
    readLoop target (fuel + 1) n s = ([newline], .ret (target - (n - 1)), { s with r := s.r + 1 }) := by
  simp [readLoop_succ, hn, h, hN, show newline ≠ ctrlD by decide]

theorem readLoop_byte (hn : 0 < n) (h : s.r ≠ s.w) (hD : s.buf (cell inputBufSize s.r) ≠ ctrlD)
    (hN : s.buf (cell inputBufSize s.r) ≠ newline) :
    readLoop target (fuel + 1) n s =
      (s.buf (cell inputBufSize s.r) :: (readLoop target fuel (n - 1) { s with r := s.r + 1 }).1,
        (readLoop target fuel (n - 1) { s with r := s.r + 1 }).2.1, (readLoop target fuel (n - 1) { s with r := s.r + 1 }).2.2) := by
  simp [readLoop_succ, hn, h, hD, hN]

theorem Editor.read_zero (q : List UInt8) : Editor.read target 0 q = ([], .ret target, q) := by
  cases q <;> simp [Editor.read]

end Passes

/-- Every locked stretch of `consoleread` is the editor's read on the committed bytes: the same bytes
copied out, the same ending, and the bytes from the new `r` to `w` are what the editor leaves
committed; only `r` moves. -/
theorem readLoop_abs : ∀ (n : Nat) {s : Cons}, ConsInv s → n ≤ target →
    Editor.read target n (view s.buf s.r s.w) =
      ((readLoop target (n + 1) n s).1, (readLoop target (n + 1) n s).2.1, view s.buf (readLoop target (n + 1) n s).2.2.r s.w) ∧
    (readLoop target (n + 1) n s).2.2 = { s with r := (readLoop target (n + 1) n s).2.2.r } ∧
    ConsInv (readLoop target (n + 1) n s).2.2 := by
  intro n
  induction n with
  | zero =>
    intro s hinv _
    rw [readLoop_zero, Editor.read_zero]
    exact ⟨rfl, rfl, hinv⟩
  | succ n ih =>
    intro s hinv hn
    by_cases hrw : s.r = s.w
    · -- nothing committed: the reader sleeps
      have hempty : view s.buf s.r s.w = [] := by rw [hrw, view_self]
      rw [readLoop_empty (Nat.succ_pos n) hrw, hempty]
      exact ⟨by simp [Editor.read], rfl, hinv⟩
    rw [view_cons hrw]
    by_cases hD : s.buf (cell inputBufSize s.r) = ctrlD
    · rw [readLoop_ctrlD (Nat.succ_pos n) hrw hD]
      by_cases hlt : n + 1 < target
      · -- a `^D` after data stays committed
        rw [if_pos hlt]
        exact ⟨by simp [Editor.read, hD, hlt, view_cons hrw], rfl, hinv⟩
      · rw [if_neg hlt]
        exact ⟨by simp [Editor.read, hD, hlt], rfl, hinv.advance hrw⟩
    by_cases hN : s.buf (cell inputBufSize s.r) = newline
    · rw [readLoop_newline (Nat.succ_pos n) hrw hN]
      exact ⟨by simp [Editor.read, hN, show newline ≠ ctrlD by decide], rfl, hinv.advance hrw⟩
    -- an ordinary byte is copied out and the stretch goes on from `r + 1`
    obtain ⟨hread, hstate, hinv'⟩ := ih (hinv.advance hrw) (by omega)
    rw [readLoop_byte (Nat.succ_pos n) hrw hD hN, Nat.succ_sub_one]
    refine ⟨?_, by rw [hstate], hinv'⟩
    simp only [Editor.read, Nat.succ_pos, if_true, hD, hN, if_false, Nat.add_sub_cancel]
    rw [hread]

end Read

/-- The console refines the line editor. Over every interleaving of `consoleintr` and locked
stretches of `consoleread` from boot, the counters stay in order with `r ≤ w ≤ e ≤ r + INPUT_BUF_SIZE`
as 32-bit differences, the line being edited holds no newline or `^D`, and the run is a run of the
editor from empty lists with the same events: every stretch of a read copies out, and ends with, what
the editor's read does. -/
theorem console_refines {buf : Fin inputBufSize → UInt8} {es : List Event} {s : Cons}
    (hrun : Run ConsStep (Cons.init buf) es s) : Run EdStep ⟨[], []⟩ es (abs s) ∧ ConsInv s := by
  induction hrun with
  | nil => exact ⟨by rw [abs_init]; exact Run.nil _, consInv_init buf⟩
  | @snoc t u _ _ _ hstep ih =>
    obtain ⟨hed, hinv⟩ := ih
    cases hstep with
    | intr c =>
      obtain ⟨habs, hinv'⟩ := consoleintr_abs c hinv
      exact ⟨habs ▸ hed.snoc (EdStep.intr c), hinv'⟩
    | read hn hloop =>
      obtain ⟨hread, hstate, hinv'⟩ := readLoop_abs _ hinv hn
      rw [hloop] at hread hstate hinv'
      dsimp only at hread hstate hinv'
      refine ⟨?_, hinv'⟩
      have habs : abs u = { abs t with committed := view t.buf u.r t.w } := by rw [hstate]; rfl
      rw [habs]
      exact hed.snoc (EdStep.read hn hread)

/-- `a` and `'\r'` typed at boot, then `read(0, buf, 4)`: the reader gets `"a\n"` in one stretch,
as the editor does. -/
theorem console_refines_line :
    let s := (readLoop 4 5 4 (consoleintr cr (consoleintr 97 (Cons.init fun _ => 0)))).2.2
    Run EdStep ⟨[], []⟩ [.intr 97, .intr cr, .read 4 4 [97, newline] (.ret 2)] (abs s) ∧ ConsInv s :=
  console_refines ((((Run.nil _).snoc (ConsStep.intr 97)).snoc (ConsStep.intr cr)).snoc
    (ConsStep.read (by decide) (Prod.ext (by decide) (Prod.ext (by decide) rfl))))

end Xv6.Dev
