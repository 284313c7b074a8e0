import Mathlib

/-!
# `xargs`: `readline_from_stdin` and the exec loop

The input on standard input is a list of characters that every process of the program shares: a
`read` by any of them takes the next bytes. `readline_from_stdin(buf, max)` reads one byte at a time
into `buf[n]` until a newline, the end of input or `n = max`, and then stores the NUL at `buf[n]`,
which is `buf[max]` when the line fills the buffer (`readline_writes_lt_iff`).

`main` forks a child for each line and waits for it. A child whose `exec` succeeds runs the command,
which is taken not to read standard input. A child whose `exec` fails prints a message, calls
`wait(0)`, which returns at once, and goes on with its parent's loop; its parent is still waiting. So
the processes that run the loop form a chain, each waiting for the next, and the one at depth `p`
reads the next line. `run` gives the trace of reads and execs. A line that is empty returns `0`,
which ends the loop of the deepest process: an empty line ends the input of a one-process run
(`run_empty_line`), and a failed exec makes its child read standard input (`run_fail_reads`).
-/

namespace Xv6.User.Xargs

/-- What `readline_from_stdin` leaves: its result `n`, the bytes `buf[0..n)`, the indices of `buf` it
stored to, in order, and the input left. -/
structure Line where
  n : Nat
  text : List Char
  writes : List Nat
  rest : List Char

/-- The loop of `readline_from_stdin(buf, max)` from `n`: `read(0, buf + n, 1)` stores the next byte
at `buf[n]`, a newline ends the loop, and `n < max` is tested before each read. -/
def readLoop (max n : Nat) (text : List Char) (writes : List Nat) : List Char → Line
  | [] => ⟨n, text, writes, []⟩
  | c :: input =>
    if n < max then
      if c = '\n' then ⟨n, text, writes ++ [n], input⟩
      else readLoop max (n + 1) (text ++ [c]) (writes ++ [n]) input
    else ⟨n, text, writes, c :: input⟩

/-- `readline_from_stdin(buf, max)`: the loop from `n = 0`, then `buf[n] = '\0'`. -/
def readline (max : Nat) (input : List Char) : Line :=
  let l := readLoop max 0 [] [] input
  ⟨l.n, l.text, l.writes ++ [l.n], l.rest⟩

section ReadLoop

variable {max : Nat}

/-- Each byte read moves `n` on by one: the count gained and the input left make up the input. -/
theorem readLoop_progress (n : Nat) (text : List Char) (writes : List Nat) (input : List Char) :
    n ≤ (readLoop max n text writes input).n ∧
      (readLoop max n text writes input).rest.length + ((readLoop max n text writes input).n - n) ≤ input.length := by
  induction input generalizing n text writes with
  | nil => simp [readLoop]
  | cons c input ih =>
    rw [readLoop]
    split_ifs with hn hc
    · simp
    · obtain ⟨hle, hlen⟩ := ih (n + 1) (text ++ [c]) (writes ++ [n])
      simp only [List.length_cons]
      omega
    · simp

theorem readline_rest_length (input : List Char) : (readline max input).rest.length ≤ input.length := by
  have := (@readLoop_progress max 0 [] [] input).2
  simp only [readline]
  omega

theorem readline_rest_lt {input : List Char} (h : 0 < (readline max input).n) :
    (readline max input).rest.length < input.length := by
  have := (@readLoop_progress max 0 [] [] input).2
  simp only [readline] at h ⊢
  omega

/-- The loop over bytes that hold no newline and fit in the room left takes them all. -/
theorem readLoop_append (n : Nat) (text : List Char) (writes : List Nat) {l : List Char} (hl : '\n' ∉ l)
    (hlen : n + l.length ≤ max) (rest : List Char) :
    readLoop max n text writes (l ++ rest) =
      readLoop max (n + l.length) (text ++ l) (writes ++ List.range' n l.length) rest := by
  induction l generalizing n text writes with
  | nil => simp
  | cons c l ih =>
    rw [List.mem_cons, not_or] at hl
    rw [List.cons_append, readLoop, if_pos (by simp at hlen; omega), if_neg (Ne.symm hl.1),
      ih (n + 1) (text ++ [c]) (writes ++ [n]) hl.2 (by simp at hlen; omega)]
    simp only [List.length_cons, List.append_assoc, List.singleton_append, List.range'_succ]
    congr 1
    omega

/-- The loop on a line shorter than the room left: it takes the line and its newline. -/
theorem readLoop_line (n : Nat) (text : List Char) (writes : List Nat) {l : List Char} (hl : '\n' ∉ l)
    (hlen : n + l.length < max) (rest : List Char) :
    readLoop max n text writes (l ++ '\n' :: rest) =
      ⟨n + l.length, text ++ l, writes ++ List.range' n (l.length + 1), rest⟩ := by
  rw [readLoop_append n text writes hl (le_of_lt hlen), readLoop, if_pos hlen, if_pos rfl, List.append_assoc,
    List.range'_concat, Nat.one_mul]

/-- The loop on a last line without a newline that fits: it takes the line and the end of input. -/
theorem readLoop_last (n : Nat) (text : List Char) (writes : List Nat) {l : List Char} (hl : '\n' ∉ l)
    (hlen : n + l.length ≤ max) :
    readLoop max n text writes l = ⟨n + l.length, text ++ l, writes ++ List.range' n l.length, []⟩ := by
  have h := readLoop_append n text writes hl hlen []
  rw [List.append_nil] at h
  rw [h, readLoop]

/-- The loop stops at the first newline or at `max`, whichever comes first. -/
theorem readLoop_n (n : Nat) (text : List Char) (writes : List Nat) (input : List Char) (hn : n ≤ max) :
    (readLoop max n text writes input).n = min max (n + (input.takeWhile (· != '\n')).length) := by
  induction input generalizing n text writes with
  | nil => simp [readLoop, hn]
  | cons c input ih =>
    rw [readLoop, List.takeWhile_cons]
    by_cases hlt : n < max
    · by_cases hc : c = '\n'
      · simp [hlt, hc, hn]
      · rw [if_pos hlt, if_neg hc, ih (n + 1) _ _ hlt]
        simp [hc]
        omega
    · rw [if_neg hlt]
      split <;> simp <;> omega

/-- Every byte the loop reads is stored inside `buf[0..max)`. -/
theorem readLoop_writes (n : Nat) (text : List Char) (writes : List Nat) (input : List Char) :
    ∀ i ∈ (readLoop max n text writes input).writes, i ∈ writes ∨ i < max := by
  induction input generalizing n text writes with
  | nil => exact fun i hi => .inl hi
  | cons c input ih =>
    rw [readLoop]
    split_ifs with hlt hc
    · intro i hi
      rw [List.mem_append, List.mem_singleton] at hi
      rcases hi with hi | rfl
      · exact .inl hi
      · exact .inr hlt
    · intro i hi
      rcases ih (n + 1) (text ++ [c]) (writes ++ [n]) i hi with hi | hi
      · rw [List.mem_append, List.mem_singleton] at hi
        rcases hi with hi | rfl
        · exact .inl hi
        · exact .inr hlt
      · exact .inr hi
    · exact fun i hi => .inl hi

/-- `readline_from_stdin` stores only inside `buf[0..max)` exactly when the first line of the input is
shorter than `max`: otherwise its NUL goes to `buf[max]`. -/
theorem readline_writes_lt_iff (input : List Char) :
    (∀ i ∈ (readline max input).writes, i < max) ↔ (input.takeWhile (· != '\n')).length < max := by
  have hn := @readLoop_n max 0 [] [] input (Nat.zero_le _)
  have hreads := @readLoop_writes max 0 [] [] input
  simp only [readline, List.mem_append, List.mem_singleton]
  constructor
  · intro h
    have := h _ (.inr rfl)
    omega
  · intro h i hi
    rcases hi with hi | rfl
    · rcases hreads i hi with hi | hi
      · simp at hi
      · exact hi
    · omega

end ReadLoop

/-- A step of the trace of `xargs`, with processes named by their depth in the chain of waiting
processes, `0` for `xargs` itself. -/
inductive Event
  /-- process `p` calls `readline_from_stdin` -/
  | read (p : Nat)
  /-- the child of process `p` execs `args`, and the command runs -/
  | exec (p : Nat) (args : List (List Char))
  /-- the child of process `p` fails to exec `args`; it is process `p + 1` from here on -/
  | fail (p : Nat) (args : List (List Char))
  deriving DecidableEq

/-- The `while (readline_from_stdin(buf, sizeof(buf)) > 0)` loop of `main`, run by process `p`, with
`cmd = argv[1..argc)` and `ok args` whether `exec` of `args` succeeds. A child's exec vector is
`args[0..argc-1) = argv[1..argc)` with the line last. When the loop of a child ends it exits and
its parent's `wait(0)` returns. -/
def run (ok : List (List Char) → Bool) (cmd : List (List Char)) (p : Nat) (input : List Char) : List Event :=
  let l := readline 1024 input
  .read p ::
    if 0 < l.n then
      if ok (cmd ++ [l.text]) then .exec p (cmd ++ [l.text]) :: run ok cmd p l.rest
      else .fail p (cmd ++ [l.text]) :: run ok cmd (p + 1) l.rest
    else
      match p with
      | 0 => []
      | p + 1 => run ok cmd p l.rest
termination_by (input.length, p)
decreasing_by
  · exact Prod.Lex.left _ _ (readline_rest_lt (by assumption))
  · exact Prod.Lex.left _ _ (readline_rest_lt (by assumption))
  · rcases Nat.lt_or_eq_of_le (@readline_rest_length 1024 input) with hlt | heq
    · exact Prod.Lex.left _ _ hlt
    · rw [heq]
      exact Prod.Lex.right _ (Nat.lt_succ_self p)

/-- The exec vectors of a trace, failed or not. -/
def execs : List Event → List (List (List Char))
  | [] => []
  | .exec _ args :: es => args :: execs es
  | .fail _ args :: es => args :: execs es
  | .read _ :: es => execs es

section Spec

/-- The non-empty lines of `s`, read from within `line`; a last line needs no newline. -/
def nonEmptyLines (line : List Char) : List Char → List (List Char)
  | [] => if line = [] then [] else [line]
  | c :: s =>
    if c = '\n' then (if line = [] then [] else [line]) ++ nonEmptyLines [] s
    else nonEmptyLines (line ++ [c]) s

/-- The exec vectors `xargs` is meant to run: one for each non-empty line, in order. -/
def claimedXargs (cmd : List (List Char)) (input : List Char) : List (List (List Char)) :=
  (nonEmptyLines [] input).map (cmd ++ [·])

end Spec

section Run

variable {ok : List (List Char) → Bool} {cmd : List (List Char)}

theorem readline_line {l : List Char} (hl : '\n' ∉ l) (hlen : l.length < 1024) (rest : List Char) :
    readline 1024 (l ++ '\n' :: rest) = ⟨l.length, l, List.range' 0 (l.length + 1) ++ [l.length], rest⟩ := by
  have h := readLoop_line 0 [] [] hl (show 0 + l.length < 1024 by omega) rest
  rw [Nat.zero_add, List.nil_append, List.nil_append] at h
  rw [readline, h]

/-- A line that starts the input: its process reads it and has its child exec it. -/
theorem run_line {p : Nat} {l : List Char} (hne : l ≠ []) (hl : '\n' ∉ l) (hlen : l.length < 1024)
    (rest : List Char) :
    run ok cmd p (l ++ '\n' :: rest) =
      .read p :: if ok (cmd ++ [l]) then .exec p (cmd ++ [l]) :: run ok cmd p rest
        else .fail p (cmd ++ [l]) :: run ok cmd (p + 1) rest := by
  conv_lhs => rw [run.eq_def, readline_line hl hlen rest]
  simp only [List.length_pos_iff.mpr hne, if_true]

/-- An empty line returns `0` and ends the loop of `xargs`, whatever follows it. -/
theorem run_empty_line (rest : List Char) : run ok cmd 0 ('\n' :: rest) = [.read 0] := by
  have h := readline_line (l := []) List.not_mem_nil (by decide) rest
  rw [List.nil_append, List.length_nil] at h
  rw [run, h]
  rfl

/-- When the exec of a line fails, the child goes on reading standard input. -/
theorem run_fail_reads {l : List Char} (hne : l ≠ []) (hl : '\n' ∉ l) (hlen : l.length < 1024)
    (hfail : ok (cmd ++ [l]) = false) (rest : List Char) :
    (run ok cmd 0 (l ++ '\n' :: rest)).take 3 = [.read 0, .fail 0 (cmd ++ [l]), .read 1] := by
  rw [run_line hne hl hlen rest, hfail]
  simp only [Bool.false_eq_true, if_false]
  rw [run]
  rfl

/-- Lines that are all non-empty and short, each with its newline, are each exec'd once, in order,
and the end of input ends `xargs`. -/
theorem run_lines (hok : ∀ args, ok args = true) :
    ∀ ls : List (List Char), (∀ l ∈ ls, l ≠ [] ∧ '\n' ∉ l ∧ l.length < 1024) →
      run ok cmd 0 (ls.map (· ++ ['\n'])).flatten =
        (ls.map fun l => [.read 0, .exec 0 (cmd ++ [l])]).flatten ++ [.read 0]
  | [], _ => by
    rw [List.map_nil, List.flatten_nil, run]
    rfl
  | l :: ls, hls => by
    obtain ⟨hne, hl, hlen⟩ := hls l (by simp)
    have hrest := run_lines hok ls fun l' hl' => hls l' (List.mem_cons_of_mem l hl')
    rw [List.map_cons, List.flatten_cons, List.append_assoc, List.singleton_append, run_line hne hl hlen, hok,
      if_pos rfl, hrest]
    rfl

theorem nonEmptyLines_lines :
    ∀ ls : List (List Char), (∀ l ∈ ls, l ≠ [] ∧ '\n' ∉ l) → nonEmptyLines [] (ls.map (· ++ ['\n'])).flatten = ls
  | [], _ => rfl
  | l :: ls, hls => by
    obtain ⟨hne, hl⟩ := hls l (by simp)
    have hrest := nonEmptyLines_lines ls fun l' hl' => hls l' (List.mem_cons_of_mem l hl')
    -- the characters of `l` join the current line, and its newline ends it
    have hread : ∀ (line s : List Char), '\n' ∉ s → nonEmptyLines line (s ++ '\n' :: (ls.map (· ++ ['\n'])).flatten) =
        (if line ++ s = [] then [] else [line ++ s]) ++ ls := by
      intro line s hs
      induction s generalizing line with
      | nil => simp [nonEmptyLines, hrest]
      | cons c s ih =>
        rw [List.mem_cons, not_or] at hs
        rw [List.cons_append, nonEmptyLines, if_neg (Ne.symm hs.1), ih _ hs.2, List.append_assoc,
          List.singleton_append]
    rw [List.map_cons, List.flatten_cons, List.append_assoc, List.singleton_append, hread [] l hl,
      List.nil_append, if_neg hne]
    rfl

/-- On input made of short non-empty lines, `xargs` execs exactly what it is meant to. -/
theorem execs_run_lines (hok : ∀ args, ok args = true) (ls : List (List Char))
    (hls : ∀ l ∈ ls, l ≠ [] ∧ '\n' ∉ l ∧ l.length < 1024) :
    execs (run ok cmd 0 (ls.map (· ++ ['\n'])).flatten) = claimedXargs cmd (ls.map (· ++ ['\n'])).flatten := by
  rw [run_lines hok ls hls, claimedXargs, nonEmptyLines_lines ls fun l hl => ⟨(hls l hl).1, (hls l hl).2.1⟩]
  induction ls with
  | nil => rfl
  | cons l ls ih =>
    rw [List.map_cons, List.flatten_cons, List.append_assoc, List.map_cons,
      ← ih fun l' hl' => hls l' (List.mem_cons_of_mem l hl')]
    rfl

/-- Input `\nab\n` with the command `echo`: `xargs` execs nothing, where `echo ab` is meant. -/
theorem xargs_empty_line_ends :
    execs (run (fun _ => true) [['e', 'c', 'h', 'o']] 0 ['\n', 'a', 'b', '\n']) = [] ∧
      claimedXargs [['e', 'c', 'h', 'o']] ['\n', 'a', 'b', '\n'] = [[['e', 'c', 'h', 'o'], ['a', 'b']]] := by
  constructor
  · rw [run_empty_line]
    rfl
  · decide

end Run

end Xv6.User.Xargs
