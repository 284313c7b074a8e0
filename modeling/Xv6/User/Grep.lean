import Mathlib

/-!
# `grep`'s matcher: `match`, `matchhere` and `matchstar`

The Kernighan-Pike matcher of `user/grep.c`. A C string is the list of its characters up to the NUL.
`matchhere(re, text)` matches `re` at the start of `text`; `matchstar(c, re, text)` tries `re` after
zero, one, two, ... copies of `c`; `match` anchors at position `0` on a leading `^` and otherwise
tries every position up to and including the end of `text`.

`matchstar` is given the matcher `matchhere re` of the rest of the pattern rather than `re` itself.
`matchhere` is then structural on the pattern and `matchstar` on the text: the three functions
terminate on every input.

The meaning of a pattern is a sequence of atoms, `parse`: a character followed by `*` is a starred
atom, a `$` that ends the pattern asks for the end of the text, and every other character is an atom
of its own, `.` matching any character. `grepMatch_iff` says that `match` accepts exactly the texts
with a substring from an allowed position that the atoms match.
-/

namespace Xv6.User.Grep

/-- `matchstar(c, re, text)`, where `here` is `matchhere(re, ·)`. -/
def matchstar (c : Char) (here : List Char → Bool) : List Char → Bool
  | [] => here []
  | t :: text => here (t :: text) || ((t == c || c == '.') && matchstar c here text)

def matchhere : List Char → List Char → Bool
  | [], _ => true
  | c :: '*' :: re, text => matchstar c (matchhere re) text
  | ['$'], text => text.isEmpty
  | c :: re, t :: text => (c == '.' || c == t) && matchhere re text
  | _ :: _, [] => false

/-- The `do ... while(*text++ != '\0')` loop of `match`: `matchhere` at every position, the end of
the text included. -/
def matchLoop (re : List Char) : List Char → Bool
  | [] => matchhere re []
  | t :: text => matchhere re (t :: text) || matchLoop re text

/-- `match(re, text)`. -/
def grepMatch : List Char → List Char → Bool
  | '^' :: re, text => matchhere re text
  | re, text => matchLoop re text

section Language

/-- One atom of a pattern: a character, `.` for any, alone or starred. -/
inductive Atom
  | char (c : Char)
  | star (c : Char)

/-- The pattern character `c` matches the text character `t`. -/
def CharOk (c t : Char) : Prop := c = '.' ∨ c = t

/-- The words a sequence of atoms matches. -/
inductive Matches : List Atom → List Char → Prop
  | nil : Matches [] []
  | char {c t : Char} {as : List Atom} {w : List Char} : CharOk c t → Matches as w → Matches (.char c :: as) (t :: w)
  | star {c : Char} {u w : List Char} {as : List Atom} : (∀ t ∈ u, CharOk c t) → Matches as w →
      Matches (.star c :: as) (u ++ w)

/-- A pattern after its anchor: the atoms, and whether it ends in `$`. -/
structure Body where
  atoms : List Atom
  atEnd : Bool

/-- The atoms of a pattern, read from the left. -/
def parse : List Char → Body
  | [] => ⟨[], false⟩
  | c :: '*' :: re => ⟨.star c :: (parse re).atoms, (parse re).atEnd⟩
  | ['$'] => ⟨[], true⟩
  | c :: re => ⟨.char c :: (parse re).atoms, (parse re).atEnd⟩

/-- A prefix of `text` is matched by the atoms, and it is all of `text` when the pattern ends in `$`. -/
def Body.Prefix (b : Body) (text : List Char) : Prop :=
  ∃ u v, text = u ++ v ∧ Matches b.atoms u ∧ (b.atEnd = true → v = [])

structure Pattern where
  anchored : Bool
  body : Body

def compile : List Char → Pattern
  | '^' :: re => ⟨true, parse re⟩
  | re => ⟨false, parse re⟩

/-- Some substring of `text` from an allowed position is matched: from `0` when anchored, from any
position up to the end otherwise. -/
def Pattern.Accepts (p : Pattern) (text : List Char) : Prop :=
  ∃ i ≤ text.length, (p.anchored = true → i = 0) ∧ p.body.Prefix (text.drop i)

variable {c : Char} {as : List Atom} {w : List Char}

theorem matches_nil_iff : Matches [] w ↔ w = [] := by
  constructor
  · rintro ⟨⟩
    rfl
  · rintro rfl
    exact .nil

theorem matches_char_iff : Matches (.char c :: as) w ↔ ∃ t w', w = t :: w' ∧ CharOk c t ∧ Matches as w' := by
  constructor
  · rintro (_ | ⟨hc, hm⟩)
    exact ⟨_, _, rfl, hc, hm⟩
  · rintro ⟨t, w', rfl, hc, hm⟩
    exact .char hc hm

theorem matches_star_iff :
    Matches (.star c :: as) w ↔ ∃ u w', w = u ++ w' ∧ (∀ t ∈ u, CharOk c t) ∧ Matches as w' := by
  constructor
  · rintro (_ | _ | ⟨hu, hm⟩)
    exact ⟨_, _, rfl, hu, hm⟩
  · rintro ⟨u, w', rfl, hu, hm⟩
    exact .star hu hm

end Language

section Prefix

variable {c : Char} {b : Body} {text : List Char}

theorem prefix_empty : Body.Prefix ⟨[], false⟩ text :=
  ⟨[], text, rfl, .nil, nofun⟩

theorem prefix_end_iff : Body.Prefix ⟨[], true⟩ text ↔ text = [] := by
  constructor
  · rintro ⟨u, v, rfl, hm, hv⟩
    rw [matches_nil_iff.mp hm, hv rfl]
    rfl
  · rintro rfl
    exact ⟨[], [], rfl, .nil, fun _ => rfl⟩

theorem prefix_char_iff :
    Body.Prefix ⟨.char c :: b.atoms, b.atEnd⟩ text ↔ ∃ t text', text = t :: text' ∧ CharOk c t ∧ b.Prefix text' := by
  constructor
  · rintro ⟨u, v, rfl, hm, hv⟩
    obtain ⟨t, u', rfl, hc, hm'⟩ := matches_char_iff.mp hm
    exact ⟨t, u' ++ v, rfl, hc, u', v, rfl, hm', hv⟩
  · rintro ⟨t, text', rfl, hc, u, v, rfl, hm, hv⟩
    exact ⟨t :: u, v, rfl, .char hc hm, hv⟩

/-- A starred atom first: some `k` characters match `c`, and the rest of the atoms match from there. -/
theorem prefix_star_iff :
    Body.Prefix ⟨.star c :: b.atoms, b.atEnd⟩ text ↔
      ∃ k ≤ text.length, (∀ t ∈ text.take k, CharOk c t) ∧ b.Prefix (text.drop k) := by
  constructor
  · rintro ⟨u, v, rfl, hm, hv⟩
    obtain ⟨u₁, u₂, rfl, hu, hm'⟩ := matches_star_iff.mp hm
    refine ⟨u₁.length, by simp, ?_, u₂, v, ?_, hm', hv⟩
    · simpa [List.append_assoc] using hu
    · simp [List.append_assoc]
  · rintro ⟨k, -, hk, u, v, hdrop, hm, hv⟩
    refine ⟨text.take k ++ u, v, ?_, .star hk hm, hv⟩
    rw [List.append_assoc, ← hdrop, List.take_append_drop]

end Prefix

section Matcher

/-- `matchstar`'s loop test `*text++ == c || c == '.'` is `CharOk`. -/
theorem charOk_iff {c t : Char} : (t == c || c == '.') = true ↔ CharOk c t := by
  rw [Bool.or_eq_true, beq_iff_eq, beq_iff_eq, CharOk, or_comm, @eq_comm _ t c]

/-- `matchstar` finds a number `k` of leading characters that match `c` after which `here` holds. -/
theorem matchstar_iff (c : Char) (here : List Char → Bool) (text : List Char) :
    matchstar c here text = true ↔ ∃ k ≤ text.length, (∀ t ∈ text.take k, CharOk c t) ∧ here (text.drop k) = true := by
  induction text with
  | nil => simp [matchstar]
  | cons t text ih =>
    rw [matchstar, Bool.or_eq_true, Bool.and_eq_true, ih]
    constructor
    · rintro (hhere | ⟨hc, k, hk, hall, hhere⟩)
      · exact ⟨0, by simp, by simp, hhere⟩
      · refine ⟨k + 1, by simpa using hk, ?_, hhere⟩
        simpa [charOk_iff.mp hc] using hall
    · rintro ⟨_ | k, hk, hall, hhere⟩
      · exact .inl hhere
      · have hc : CharOk c t := hall t (by simp)
        exact .inr ⟨charOk_iff.mpr hc, k, by simpa using hk, fun x hx => hall x (by simp [hx]), hhere⟩

/-- `matchhere` matches the atoms of the pattern at the start of the text. The induction follows
`parse`, which reads the pattern as `matchhere` does. -/
theorem matchhere_iff (re text : List Char) : matchhere re text = true ↔ (parse re).Prefix text := by
  induction re using parse.induct generalizing text with
  | case1 => exact iff_of_true rfl prefix_empty
  | case2 c re ih =>
    rw [matchhere, matchstar_iff, parse, prefix_star_iff]
    simp only [ih]
  | case3 => simp [matchhere, parse, prefix_end_iff]
  | case4 c re hstar hend ih =>
    rw [parse.eq_4 c re hstar hend, prefix_char_iff]
    cases text with
    | nil =>
      rw [matchhere.eq_5 c re hstar hend]
      simp
    | cons t text =>
      rw [matchhere.eq_4 c re t text hstar hend, Bool.and_eq_true, ih]
      simp [CharOk]

theorem matchLoop_iff (re text : List Char) :
    matchLoop re text = true ↔ ∃ i ≤ text.length, matchhere re (text.drop i) = true := by
  induction text with
  | nil => simp [matchLoop]
  | cons t text ih =>
    rw [matchLoop, Bool.or_eq_true, ih]
    constructor
    · rintro (hhere | ⟨i, hi, hhere⟩)
      · exact ⟨0, by simp, hhere⟩
      · exact ⟨i + 1, by simpa using hi, hhere⟩
    · rintro ⟨_ | i, hi, hhere⟩
      · exact .inl hhere
      · exact .inr ⟨i, by simpa using hi, hhere⟩

theorem grepMatch_iff (re text : List Char) : grepMatch re text = true ↔ (compile re).Accepts text := by
  by_cases hanchor : ∃ re', re = '^' :: re'
  · obtain ⟨re', rfl⟩ := hanchor
    rw [grepMatch, compile, Pattern.Accepts, matchhere_iff]
    constructor
    · intro h
      exact ⟨0, by simp, fun _ => rfl, h⟩
    · rintro ⟨i, -, hi, h⟩
      rwa [hi rfl] at h
  · have hne : ∀ re', re = '^' :: re' → False := fun re' h => hanchor ⟨re', h⟩
    rw [grepMatch.eq_2 re text hne, compile.eq_2 re hne, Pattern.Accepts, matchLoop_iff]
    simp only [matchhere_iff, Bool.false_eq_true, false_implies, true_and]

example : grepMatch "^a*b$".toList "aab".toList = true := by decide

example : grepMatch "x.*y".toList "axzzyb".toList = true := by decide

end Matcher

section Buffer

/-- `strchr(s, c)`: the index of the first `c` of `s` before a NUL. The end of the list stands for
the NUL that `grep` stores after the bytes it holds. -/
def strchr (s : List Char) (c : Char) : Option Nat :=
  match s with
  | [] => none
  | x :: s => if x = '\x00' then none else if x = c then some 0 else (strchr s c).map (· + 1)

theorem strchr_lt {s : List Char} {c : Char} {i : Nat} (h : strchr s c = some i) : i < s.length := by
  induction s generalizing i with
  | nil => simp [strchr] at h
  | cons x s ih =>
    simp only [strchr] at h
    split_ifs at h
    · cases h
      simp
    · obtain ⟨j, hj, rfl⟩ := Option.map_eq_some_iff.mp h
      simpa using ih hj

/-- `strchr` stops at the first `c`. -/
theorem strchr_eq_some {s : List Char} {c : Char} {i : Nat} (h : strchr s c = some i) :
    s.take i ++ c :: s.drop (i + 1) = s ∧ c ∉ s.take i := by
  induction s generalizing i with
  | nil => simp [strchr] at h
  | cons x s ih =>
    simp only [strchr] at h
    split_ifs at h with hnul hc
    · cases h
      subst hc
      simp
    · obtain ⟨j, hj, rfl⟩ := Option.map_eq_some_iff.mp h
      obtain ⟨heq, hnot⟩ := ih hj
      refine ⟨?_, ?_⟩
      · rw [List.take_succ_cons, List.drop_succ_cons, List.cons_append, heq]
      · rw [List.take_succ_cons, List.mem_cons, not_or]
        exact ⟨fun h => hc h.symm, hnot⟩

/-- Without a NUL, `strchr` misses only a character that is not there. -/
theorem strchr_eq_none {s : List Char} {c : Char} (h : strchr s c = none) (hnul : '\x00' ∉ s) : c ∉ s := by
  induction s with
  | nil => simp
  | cons x s ih =>
    simp only [strchr] at h
    rw [List.mem_cons, not_or] at hnul
    rw [if_neg (Ne.symm hnul.1)] at h
    split_ifs at h with hc
    rw [Option.map_eq_none_iff] at h
    rw [List.mem_cons, not_or]
    exact ⟨fun h => hc h.symm, ih h hnul.2⟩

/-- The inner loop of `grep` over the bytes from `p`: `q = strchr(p, '\n')`, the line `p..q` written
with its newline when `match` accepts it, then `p = q+1`. Returns what is written and the bytes from
the last `p`. -/
def lineLoop (pat p : List Char) : List Char × List Char :=
  match _h : strchr p '\n' with
  | none => ([], p)
  | some i =>
    let r := lineLoop pat (p.drop (i + 1))
    ((if grepMatch pat (p.take i) then p.take (i + 1) else []) ++ r.1, r.2)
termination_by p.length
decreasing_by
  have := strchr_lt _h
  simp only [List.length_drop]
  omega

/-- `grep(pattern, fd)` while it holds the `m = buf.length` bytes `buf`. Each
`read(fd, buf+m, sizeof(buf)-m-1)` returns the front of the first of `chunks`, as much of it as was
asked for, and leaves the rest of that chunk to the next read; a read returns `0` once `chunks` is
exhausted. -/
def grepLoop (pat buf : List Char) (chunks : List (List Char)) : List Char :=
  match chunks with
  | [] => []
  | c :: cs =>
    -- `sizeof(buf) - m - 1`: one byte is kept for the NUL
    let req := 1023 - buf.length
    if c.take req = [] then []
    else
      let r := lineLoop pat (buf ++ c.take req)
      r.1 ++ grepLoop pat r.2 (if c.length ≤ req then cs else c.drop req :: cs)
termination_by (chunks.map List.length).sum
decreasing_by
  rename_i hne
  rw [List.take_eq_nil_iff, not_or] at hne
  have hc : 0 < c.length := List.length_pos_iff.mpr hne.2
  split <;> simp only [List.map_cons, List.sum_cons, List.length_drop] <;> omega

/-- The lines of `s`, read from within the line `line`, that `pat` matches, each with its newline.
A last segment without a newline is not a line here. -/
def emitLines (pat line : List Char) : List Char → List Char
  | [] => []
  | c :: s =>
    if c = '\n' then (if grepMatch pat line then line ++ ['\n'] else []) ++ emitLines pat [] s
    else emitLines pat (line ++ [c]) s

/-- The line being read after `s`, read from within `line`. -/
def curLine (line : List Char) : List Char → List Char
  | [] => line
  | c :: s => if c = '\n' then curLine [] s else curLine (line ++ [c]) s

/-- What `grep` is meant to print: a last segment without a newline counts as a line. -/
def claimedGrep (pat s : List Char) : List Char :=
  emitLines pat [] (if s = [] ∨ s.getLast? = some '\n' then s else s ++ ['\n'])

/-- Every newline-free run of `s` is shorter than `n`. -/
def ShortLines (n : Nat) (s : List Char) : Prop :=
  ∀ u v w, s = u ++ v ++ w → '\n' ∉ v → v.length < n

variable {pat : List Char}

theorem emitLines_append (line s t : List Char) :
    emitLines pat line (s ++ t) = emitLines pat line s ++ emitLines pat (curLine line s) t := by
  induction s generalizing line with
  | nil => rfl
  | cons c s ih =>
    by_cases hc : c = '\n'
    · simp only [List.cons_append, emitLines, curLine, if_pos hc, ih, List.append_assoc]
    · simp only [List.cons_append, emitLines, curLine, if_neg hc, ih]

theorem curLine_append (line s t : List Char) : curLine line (s ++ t) = curLine (curLine line s) t := by
  induction s generalizing line with
  | nil => rfl
  | cons c s ih =>
    by_cases hc : c = '\n'
    · simp only [List.cons_append, curLine, if_pos hc, ih]
    · simp only [List.cons_append, curLine, if_neg hc, ih]

theorem emitLines_eq_nil {s : List Char} (h : '\n' ∉ s) (line : List Char) : emitLines pat line s = [] := by
  induction s generalizing line with
  | nil => rfl
  | cons c s ih =>
    rw [List.mem_cons, not_or] at h
    rw [emitLines, if_neg (Ne.symm h.1), ih h.2]

theorem curLine_of_not_mem {s : List Char} (h : '\n' ∉ s) (line : List Char) : curLine line s = line ++ s := by
  induction s generalizing line with
  | nil => simp [curLine]
  | cons c s ih =>
    rw [List.mem_cons, not_or] at h
    rw [curLine, if_neg (Ne.symm h.1), ih h.2, List.append_assoc, List.singleton_append]

theorem curLine_suffix (line s : List Char) : curLine line s <:+ line ++ s := by
  induction s generalizing line with
  | nil => simp [curLine]
  | cons c s ih =>
    by_cases hc : c = '\n'
    · rw [curLine, if_pos hc]
      exact (ih []).trans (List.suffix_append_of_suffix (List.suffix_cons c s))
    · rw [curLine, if_neg hc]
      simpa using ih (line ++ [c])

theorem newline_not_mem_curLine {line : List Char} (h : '\n' ∉ line) (s : List Char) : '\n' ∉ curLine line s := by
  induction s generalizing line with
  | nil => exact h
  | cons c s ih =>
    by_cases hc : c = '\n'
    · rw [curLine, if_pos hc]
      exact ih (List.not_mem_nil) 
    · rw [curLine, if_neg hc]
      apply ih
      rw [List.mem_append, List.mem_singleton, not_or]
      exact ⟨h, Ne.symm hc⟩

/-- On bytes without a NUL, the inner loop writes the matched lines and keeps the line being read. -/
theorem lineLoop_eq (p : List Char) (hnul : '\x00' ∉ p) : lineLoop pat p = (emitLines pat [] p, curLine [] p) := by
  fun_induction lineLoop pat p with
  | case1 p hnone =>
    have hnl := strchr_eq_none hnone hnul
    rw [emitLines_eq_nil hnl, curLine_of_not_mem hnl, List.nil_append]
  | case2 p i hsome r ih =>
    obtain ⟨hp, hnot⟩ := strchr_eq_some hsome
    have hlen : (p.take i).length = i := List.length_take_of_le (Nat.le_of_lt (strchr_lt hsome))
    have hrest : '\x00' ∉ p.drop (i + 1) := fun h => hnul (List.mem_of_mem_drop h)
    have htake : p.take (i + 1) = p.take i ++ ['\n'] := by
      conv_lhs => rw [← hp]
      simp [List.take_append, hlen, List.take_of_length_le]
    -- the line before the newline is written or not, and the loop goes on after it
    have hemit : emitLines pat [] p =
        (if grepMatch pat (p.take i) then p.take i ++ ['\n'] else []) ++ emitLines pat [] (p.drop (i + 1)) := by
      conv_lhs => rw [← hp]
      rw [emitLines_append, emitLines_eq_nil hnot, curLine_of_not_mem hnot, List.nil_append, List.nil_append,
        emitLines, if_pos rfl]
    have hcur : curLine [] p = curLine [] (p.drop (i + 1)) := by
      conv_lhs => rw [← hp]
      rw [curLine_append, curLine_of_not_mem hnot, curLine, if_pos rfl]
    rw [show r = lineLoop pat (p.drop (i + 1)) from rfl, ih hrest, hemit, hcur, htake]

theorem ShortLines.of_suffix {n : Nat} {s t : List Char} (h : ShortLines n s) (ht : t <:+ s) : ShortLines n t := by
  obtain ⟨pre, rfl⟩ := ht
  intro u v w hs hv
  exact h (pre ++ u) v w (by rw [hs]; simp) hv

theorem ShortLines.length_lt {n : Nat} {v s : List Char} (h : ShortLines n (v ++ s)) (hv : '\n' ∉ v) : v.length < n :=
  h [] v s (by simp) hv

/-- However the reads split the input, `grep` writes the matched lines of what it holds and reads,
as long as no byte is a NUL and every newline-free run fits the buffer with its NUL. -/
theorem grepLoop_eq (buf : List Char) (chunks : List (List Char)) (hne : ∀ c ∈ chunks, c ≠ [])
    (hnul : '\x00' ∉ buf ++ chunks.flatten) (hbuf : '\n' ∉ buf) (hshort : ShortLines 1023 (buf ++ chunks.flatten)) :
    grepLoop pat buf chunks = emitLines pat buf chunks.flatten := by
  fun_induction grepLoop pat buf chunks with
  | case1 buf => rfl
  | case2 buf c cs req htake =>
    have hlen := hshort.length_lt hbuf
    have hc := hne c (by simp)
    rcases List.take_eq_nil_iff.mp htake with hreq | hnil
    · omega
    · exact absurd hnil hc
  | case3 buf c cs req htake r ih =>
    simp only [dite_eq_ite] at ih
    -- the read takes the front of `c`; the chunks left hold the rest of the input
    have hrest : (if c.length ≤ req then cs else c.drop req :: cs).flatten = c.drop req ++ cs.flatten := by
      split_ifs with hle
      · rw [List.drop_eq_nil_of_le hle, List.nil_append]
      · rw [List.flatten_cons]
    have hsplit : (c :: cs).flatten = c.take req ++ (c.drop req ++ cs.flatten) := by
      rw [List.flatten_cons, ← List.append_assoc, List.take_append_drop]
    have hhold : buf ++ (c :: cs).flatten = (buf ++ c.take req) ++ (c.drop req ++ cs.flatten) := by
      rw [hsplit, List.append_assoc]
    have hr : r = (emitLines pat buf (c.take req), curLine buf (c.take req)) := by
      rw [show r = lineLoop pat (buf ++ c.take req) from rfl,
        lineLoop_eq _ fun h => hnul (hhold ▸ List.mem_append_left _ h), emitLines_append, curLine_append,
        emitLines_eq_nil hbuf, curLine_of_not_mem hbuf, List.nil_append, List.nil_append]
    -- what is held and left to read afterwards is a suffix of the input
    have hsuf : curLine buf (c.take req) ++ (c.drop req ++ cs.flatten) <:+ buf ++ (c :: cs).flatten := by
      obtain ⟨pre, hpre⟩ := curLine_suffix buf (c.take req)
      exact ⟨pre, by rw [hhold, ← hpre, List.append_assoc]⟩
    have hne' : ∀ d ∈ (if c.length ≤ req then cs else c.drop req :: cs), d ≠ [] := by
      split_ifs with hle
      · exact fun d hd => hne d (List.mem_cons_of_mem c hd)
      · intro d hd
        rcases List.mem_cons.mp hd with rfl | hd
        · rw [ne_eq, List.drop_eq_nil_iff]
          exact hle
        · exact hne d (List.mem_cons_of_mem c hd)
    rw [hr, hrest] at ih
    rw [hr, hsplit, emitLines_append, ih hne' (fun h => hnul (hsuf.subset h)) (newline_not_mem_curLine hbuf _)
      (hshort.of_suffix hsuf)]

/-- On input that ends in a newline, `grep` writes the matched lines whatever the chunking. -/
theorem grepLoop_eq_claimedGrep (chunks : List (List Char)) (hne : ∀ c ∈ chunks, c ≠ [])
    (hnul : '\x00' ∉ chunks.flatten) (hshort : ShortLines 1023 chunks.flatten)
    (hend : chunks.flatten = [] ∨ chunks.flatten.getLast? = some '\n') :
    grepLoop pat [] chunks = claimedGrep pat chunks.flatten := by
  rw [grepLoop_eq [] chunks hne (by rwa [List.nil_append]) List.not_mem_nil (by rwa [List.nil_append]),
    claimedGrep, if_pos hend]

/-- Input `a` without a newline, pattern `a`: `grep` writes nothing, not `a\n`. -/
theorem grep_drops_last_line : grepLoop ['a'] [] [['a']] = [] ∧ claimedGrep ['a'] ['a'] = ['a', '\n'] := by
  constructor
  · simp [grepLoop, lineLoop, strchr]
  · decide

end Buffer

end Xv6.User.Grep
