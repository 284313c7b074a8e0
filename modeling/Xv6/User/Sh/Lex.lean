import Mathlib

/-!
# The shell's tokenizer: `gettoken` and `peek`

The command line is the list of its characters before the NUL, and a pointer into it is a position;
`*s` at the end is the NUL (`charAt`). `gettoken` skips whitespace, reads one token and skips the
whitespace after it; `peek` skips whitespace and looks at the next character. `tokensFrom buf s`
is the list of tokens that repeated `gettoken`s read from `s`: a word with its start `q` and end `eq`,
or a symbol, `+` standing for `>>`.

The parsers return a `Scanned` value: a result with the position of `*ps` after it, which is never
before the position they started from. The field `le_pos` is what lets the mutually recursive
parsers terminate.
-/

namespace Xv6.User.Sh

def whitespace : List Char := [' ', '\t', '\r', '\n', '\x0B']

def symbols : List Char := ['<', '|', '>', '&', ';', '(', ')']

/-- `*s` for the position `s`: the NUL at the end of the line. -/
def charAt (buf : List Char) (s : Nat) : Char := buf.getD s '\x00'

/-- `while(s < es && strchr(whitespace, *s)) s++;` -/
def skipWs (buf : List Char) (s : Nat) : Nat :=
  if s < buf.length ∧ charAt buf s ∈ whitespace then skipWs buf (s + 1) else s
termination_by buf.length - s

/-- The loop of `gettoken`'s `default` case, to the end of a word. -/
def skipWord (buf : List Char) (s : Nat) : Nat :=
  if s < buf.length ∧ charAt buf s ∉ whitespace ∧ charAt buf s ∉ symbols then skipWord buf (s + 1) else s
termination_by buf.length - s

/-- What `gettoken(ps, es, &q, &eq)` returns and stores: the token, `q`, `eq`, and `*ps` after it. -/
structure Tok where
  ret : Char
  q : Nat
  eq : Nat
  next : Nat

def gettoken (buf : List Char) (s : Nat) : Tok :=
  let q := skipWs buf s
  let c := charAt buf q
  -- the token, and where it ends
  let r : Char × Nat :=
    if c = '\x00' then ('\x00', q)
    else if c ∈ ['|', '(', ')', ';', '&', '<'] then (c, q + 1)
    else if c = '>' then (if charAt buf (q + 1) = '>' then ('+', q + 2) else ('>', q + 1))
    else ('a', skipWord buf q)
  ⟨r.1, q, r.2, skipWs buf r.2⟩

/-- `peek(ps, es, toks)`: whether the character after the whitespace is one of `toks`, and `*ps`
past the whitespace. -/
def peek (buf : List Char) (s : Nat) (toks : List Char) : Bool × Nat :=
  (decide (charAt buf (skipWs buf s) ≠ '\x00' ∧ charAt buf (skipWs buf s) ∈ toks), skipWs buf s)

/-- A token as the grammar sees it. -/
inductive Token
  | word (q eq : Nat)
  | sym (c : Char)
  deriving DecidableEq

def Tok.token (t : Tok) : Token := if t.ret = 'a' then .word t.q t.eq else .sym t.ret

/-- A result of a parse from `s`, with the position after it. -/
structure Scanned (α : Type) (s : Nat) where
  val : α
  pos : Nat
  le_pos : s ≤ pos

variable {buf : List Char}

section Scan

theorem skipWs_eq (s : Nat) :
    skipWs buf s = if s < buf.length ∧ charAt buf s ∈ whitespace then skipWs buf (s + 1) else s := by
  rw [skipWs]

theorem le_skipWs (s : Nat) : s ≤ skipWs buf s := by
  induction s using skipWs.induct buf with
  | case1 s h ih => rw [skipWs_eq, if_pos h]; omega
  | case2 s h => rw [skipWs_eq, if_neg h]

theorem skipWs_le {s : Nat} (h : s ≤ buf.length) : skipWs buf s ≤ buf.length := by
  induction s using skipWs.induct buf with
  | case1 s hs ih => rw [skipWs_eq, if_pos hs]; exact ih (by omega)
  | case2 s hs => rw [skipWs_eq, if_neg hs]; exact h

/-- `skipWs` stops at a character that is not whitespace, or at the end. -/
theorem skipWs_stop (s : Nat) : ¬(skipWs buf s < buf.length ∧ charAt buf (skipWs buf s) ∈ whitespace) := by
  induction s using skipWs.induct buf with
  | case1 s h ih => rw [skipWs_eq, if_pos h]; exact ih
  | case2 s h => rw [skipWs_eq, if_neg h]; exact h

theorem skipWs_skipWs (s : Nat) : skipWs buf (skipWs buf s) = skipWs buf s := by
  rw [skipWs_eq (skipWs buf s), if_neg (skipWs_stop s)]

theorem le_skipWord (s : Nat) : s ≤ skipWord buf s := by
  induction s using skipWord.induct buf with
  | case1 s h ih => rw [skipWord, if_pos h]; omega
  | case2 s h => rw [skipWord, if_neg h]

theorem skipWord_le {s : Nat} (h : s ≤ buf.length) : skipWord buf s ≤ buf.length := by
  induction s using skipWord.induct buf with
  | case1 s hs ih => rw [skipWord, if_pos hs]; exact ih (by omega)
  | case2 s hs => rw [skipWord, if_neg hs]; exact h

/-- Every character of a word is neither whitespace nor a symbol. -/
theorem skipWord_mem {s i : Nat} (hs : s ≤ i) (hi : i < skipWord buf s) :
    i < buf.length ∧ charAt buf i ∉ whitespace ∧ charAt buf i ∉ symbols := by
  induction s using skipWord.induct buf with
  | case1 s h ih =>
    rw [skipWord, if_pos h] at hi
    rcases Nat.eq_or_lt_of_le hs with rfl | hlt
    · exact h
    · exact ih hlt hi
  | case2 s h =>
    rw [skipWord, if_neg h] at hi
    omega

/-- A word ends at whitespace, a symbol or the end of the line. -/
theorem skipWord_stop (s : Nat) :
    ¬(skipWord buf s < buf.length ∧ charAt buf (skipWord buf s) ∉ whitespace ∧
      charAt buf (skipWord buf s) ∉ symbols) := by
  induction s using skipWord.induct buf with
  | case1 s h ih => rw [skipWord, if_pos h]; exact ih
  | case2 s h => rw [skipWord, if_neg h]; exact h

theorem charAt_eq_nul {s : Nat} (h : buf.length ≤ s) : charAt buf s = '\x00' := by
  rw [charAt, List.getD_eq_default _ _ h]

theorem lt_of_charAt_ne {s : Nat} (h : charAt buf s ≠ '\x00') : s < buf.length := by
  by_contra hs
  exact h (charAt_eq_nul (by omega))

end Scan

section Gettoken

theorem gettoken_q (s : Nat) : (gettoken buf s).q = skipWs buf s := rfl

theorem gettoken_skipWs (s : Nat) : gettoken buf (skipWs buf s) = gettoken buf s := by
  simp only [gettoken, skipWs_skipWs]

theorem gettoken_ret_eq_nul_iff (s : Nat) :
    (gettoken buf s).ret = '\x00' ↔ charAt buf (skipWs buf s) = '\x00' := by
  simp only [gettoken]
  split_ifs <;> simp_all

/-- What a token other than the end starts with: a word starts with no symbol, and a symbol token
starts with its character, `>>` (read as `+`) with `>`. -/
theorem gettoken_ret_cases (s : Nat) (h0 : (gettoken buf s).ret ≠ '\x00') :
    ((gettoken buf s).ret = 'a' ∧ charAt buf (skipWs buf s) ∉ symbols) ∨
      ((gettoken buf s).ret ≠ 'a' ∧
        (if (gettoken buf s).ret = '+' then '>' else (gettoken buf s).ret) = charAt buf (skipWs buf s)) := by
  simp only [gettoken] at h0 ⊢
  by_cases hnul : charAt buf (skipWs buf s) = '\x00'
  · simp only [hnul, if_true] at h0
    exact absurd rfl h0
  by_cases hone : charAt buf (skipWs buf s) ∈ ['|', '(', ')', ';', '&', '<']
  · -- a one-character symbol
    right
    simp only [hnul, hone, if_true, if_false]
    simp only [List.mem_cons, List.not_mem_nil, or_false] at hone
    rcases hone with h | h | h | h | h | h <;> rw [h] <;> decide
  by_cases hgt : charAt buf (skipWs buf s) = '>'
  · -- `>`, or `>>` read as `+`
    right
    simp only [hnul, hone, if_false]
    rw [if_pos hgt]
    by_cases hgtgt : charAt buf (skipWs buf s + 1) = '>'
    · rw [if_pos hgtgt]
      dsimp only
      exact ⟨by decide, by rw [if_pos rfl, hgt]⟩
    · rw [if_neg hgtgt]
      dsimp only
      exact ⟨by decide, by rw [if_neg (by decide), hgt]⟩
  · -- a word, whose first character is no symbol
    left
    simp only [hnul, hone, hgt, if_false]
    refine ⟨trivial, fun hsym => ?_⟩
    simp only [symbols, List.mem_cons, List.not_mem_nil, or_false] at hsym hone
    rcases hsym with h | h | h | h | h | h | h <;> simp_all

/-- A token other than the end spans at least one character, and the token and what follows it
stay within the line. -/
theorem gettoken_bounds (s : Nat) :
    (gettoken buf s).q ≤ (gettoken buf s).eq ∧ (gettoken buf s).eq ≤ (gettoken buf s).next ∧
      ((gettoken buf s).ret ≠ '\x00' → (gettoken buf s).q < (gettoken buf s).eq ∧
        (gettoken buf s).next ≤ buf.length) := by
  have hstop := @skipWs_stop buf s
  simp only [gettoken]
  split_ifs with h0 hsym hgt hgt2
  · simp [le_skipWs]
  · have hq := lt_of_charAt_ne h0
    exact ⟨by omega, le_skipWs _, fun _ => ⟨by omega, skipWs_le (by omega)⟩⟩
  · have hq := lt_of_charAt_ne h0
    have hq1 := lt_of_charAt_ne (s := skipWs buf s + 1) (by rw [hgt2]; decide)
    exact ⟨by omega, le_skipWs _, fun _ => ⟨by omega, skipWs_le (by omega)⟩⟩
  · have hq := lt_of_charAt_ne h0
    exact ⟨by omega, le_skipWs _, fun _ => ⟨by omega, skipWs_le (by omega)⟩⟩
  · have hq := lt_of_charAt_ne h0
    -- the first character is a word character, so the word has at least one
    have hword : skipWs buf s < skipWord buf (skipWs buf s) := by
      rw [skipWord, if_pos]
      · exact Nat.lt_of_lt_of_le (Nat.lt_succ_self _) (le_skipWord _)
      · refine ⟨hq, fun hws => hstop ⟨hq, hws⟩, fun hsy => ?_⟩
        simp only [symbols, List.mem_cons, List.not_mem_nil, or_false] at hsy hsym
        rcases hsy with h | h | h | h | h | h | h <;> simp_all
    exact ⟨le_skipWord _, le_skipWs _, fun _ => ⟨hword, skipWs_le (skipWord_le (by omega))⟩⟩

theorem le_gettoken_next (s : Nat) : s ≤ (gettoken buf s).next := by
  have hb := @gettoken_bounds buf s
  have hs := @le_skipWs buf s
  rw [gettoken_q] at hb
  omega

/-- A token other than the end moves `*ps` forward. -/
theorem lt_gettoken_next {s : Nat} (h : (gettoken buf s).ret ≠ '\x00') :
    s < (gettoken buf s).next ∧ (gettoken buf s).next ≤ buf.length := by
  have hb := @gettoken_bounds buf s
  have hs := @le_skipWs buf s
  rw [gettoken_q] at hb
  have hq := (hb.2.2 h).1
  exact ⟨by omega, (hb.2.2 h).2⟩

theorem gettoken_eq_of_word {s : Nat} (h : (gettoken buf s).ret = 'a') :
    (gettoken buf s).eq = skipWord buf (skipWs buf s) := by
  simp only [gettoken] at h ⊢
  split_ifs at h ⊢ <;> simp_all

/-- At the end of the line `gettoken` only skips whitespace. -/
theorem gettoken_next_of_nul {s : Nat} (h : (gettoken buf s).ret = '\x00') :
    (gettoken buf s).next = skipWs buf s := by
  simp only [gettoken] at h ⊢
  split_ifs at h ⊢ <;> simp_all [skipWs_skipWs]

theorem gettoken_next_le {s : Nat} (h : s ≤ buf.length) : (gettoken buf s).next ≤ buf.length := by
  by_cases hret : (gettoken buf s).ret = '\x00'
  · rw [gettoken_next_of_nul hret]
    exact skipWs_le h
  · exact (lt_gettoken_next hret).2

/-- The characters of a word token, and the one after it. -/
theorem gettoken_word {s : Nat} (h : (gettoken buf s).ret = 'a') :
    (∀ i, (gettoken buf s).q ≤ i → i < (gettoken buf s).eq →
      i < buf.length ∧ charAt buf i ∉ whitespace ∧ charAt buf i ∉ symbols) ∧
    ¬((gettoken buf s).eq < buf.length ∧ charAt buf (gettoken buf s).eq ∉ whitespace ∧
      charAt buf (gettoken buf s).eq ∉ symbols) := by
  rw [gettoken_eq_of_word h, gettoken_q]
  exact ⟨fun i hs hi => skipWord_mem hs hi, skipWord_stop _⟩

end Gettoken

section Peek

theorem peek_snd (s : Nat) (toks : List Char) : (peek buf s toks).2 = skipWs buf s := rfl

theorem le_peek_snd (s : Nat) (toks : List Char) : s ≤ (peek buf s toks).2 := le_skipWs s

/-- After a `peek` that saw one of its characters, the next token moves `*ps` forward. -/
theorem peek_advance {s : Nat} {toks : List Char} (h : (peek buf s toks).1 = true) :
    (peek buf s toks).2 < (gettoken buf (peek buf s toks).2).next ∧
      (gettoken buf (peek buf s toks).2).next ≤ buf.length := by
  apply lt_gettoken_next
  rw [peek_snd, gettoken_skipWs, ne_eq, gettoken_ret_eq_nul_iff]
  simp only [peek, decide_eq_true_eq] at h
  exact h.1

end Peek

/-- The tokens that repeated `gettoken`s read from `s`, up to the end of the line. -/
def tokensFrom (buf : List Char) (s : Nat) : List Token :=
  if _h : (gettoken buf s).ret = '\x00' then [] else (gettoken buf s).token :: tokensFrom buf (gettoken buf s).next
termination_by buf.length - s
decreasing_by
  have := lt_gettoken_next _h
  omega

section Tokens

theorem tokensFrom_eq (s : Nat) :
    tokensFrom buf s = if (gettoken buf s).ret = '\x00' then [] else
      (gettoken buf s).token :: tokensFrom buf (gettoken buf s).next := by
  rw [tokensFrom, dite_eq_ite]

theorem tokensFrom_skipWs (s : Nat) : tokensFrom buf (skipWs buf s) = tokensFrom buf s := by
  rw [tokensFrom_eq, tokensFrom_eq s, gettoken_skipWs]

theorem tokensFrom_of_nul {s : Nat} (h : (gettoken buf s).ret = '\x00') : tokensFrom buf s = [] := by
  rw [tokensFrom_eq, if_pos h]

theorem tokensFrom_of_ne {s : Nat} (h : (gettoken buf s).ret ≠ '\x00') :
    tokensFrom buf s = (gettoken buf s).token :: tokensFrom buf (gettoken buf s).next := by
  rw [tokensFrom_eq, if_neg h]

theorem tokensFrom_eq_nil_iff (s : Nat) : tokensFrom buf s = [] ↔ buf.length ≤ skipWs buf s ∨
    charAt buf (skipWs buf s) = '\x00' := by
  constructor
  · intro h
    by_cases hret : (gettoken buf s).ret = '\x00'
    · exact .inr ((gettoken_ret_eq_nul_iff s).mp hret)
    · rw [tokensFrom_of_ne hret] at h
      exact absurd h (List.cons_ne_nil _ _)
  · rintro (h | h)
    · exact tokensFrom_of_nul ((gettoken_ret_eq_nul_iff s).mpr (charAt_eq_nul h))
    · exact tokensFrom_of_nul ((gettoken_ret_eq_nul_iff s).mpr h)

/-- A `gettoken` at a position whose tokens start with `t` reads `t`. -/
theorem gettoken_of_cons {s : Nat} {t : Token} {rest : List Token} (h : tokensFrom buf s = t :: rest) :
    (gettoken buf s).ret ≠ '\x00' ∧ (gettoken buf s).token = t ∧ tokensFrom buf (gettoken buf s).next = rest := by
  by_cases hret : (gettoken buf s).ret = '\x00'
  · rw [tokensFrom_of_nul hret] at h
    cases h
  · rw [tokensFrom_of_ne hret, List.cons.injEq] at h
    exact ⟨hret, h.1, h.2⟩

theorem gettoken_of_nil {s : Nat} (h : tokensFrom buf s = []) :
    (gettoken buf s).ret = '\x00' ∧ tokensFrom buf (gettoken buf s).next = [] := by
  have hret : (gettoken buf s).ret = '\x00' := by
    by_contra hne
    rw [tokensFrom_of_ne hne] at h
    cases h
  exact ⟨hret, by rw [gettoken_next_of_nul hret, tokensFrom_skipWs, h]⟩

theorem Tok.token_eq_word {t : Tok} {q eq : Nat} : t.token = .word q eq ↔ t.ret = 'a' ∧ t.q = q ∧ t.eq = eq := by
  unfold Tok.token
  split_ifs <;> simp_all

theorem Tok.token_eq_sym {t : Tok} {c : Char} : t.token = .sym c ↔ t.ret = c ∧ c ≠ 'a' := by
  unfold Tok.token
  split_ifs with h
  · simp only [false_iff, not_and, not_not]
    intro hc
    rw [← hc, h]
  · rw [Token.sym.injEq]
    constructor
    · intro hc
      exact ⟨hc, hc ▸ h⟩
    · exact fun hc => hc.1

end Tokens

/-- The first token is a symbol that `peek` sees as one of `toks`: `>>` starts with `>`. -/
def headIn (toks : List Char) : List Token → Bool
  | .sym c :: _ => decide ((if c = '+' then '>' else c) ∈ toks)
  | _ => false

/-- What `peek` sees is the first token. -/
theorem peek_fst {toks : List Char} (htoks : ∀ c ∈ toks, c ∈ symbols) (s : Nat) :
    (peek buf s toks).1 = headIn toks (tokensFrom buf s) := by
  rw [← tokensFrom_skipWs, tokensFrom_eq, gettoken_skipWs, peek]
  by_cases h0 : (gettoken buf s).ret = '\x00'
  · -- the end of the line
    rw [if_pos h0, (gettoken_ret_eq_nul_iff s).mp h0]
    rfl
  have hc : charAt buf (skipWs buf s) ≠ '\x00' := fun h => h0 ((gettoken_ret_eq_nul_iff s).mpr h)
  rw [if_neg h0]
  rcases gettoken_ret_cases s h0 with ⟨ha, hsym⟩ | ⟨ha, hfirst⟩
  · -- a word: its first character is none of `toks`
    rw [Tok.token, if_pos ha]
    show decide _ = false
    rw [decide_eq_false_iff_not]
    exact fun hin => hsym (htoks _ hin.2)
  · rw [Tok.token, if_neg ha, headIn, hfirst]
    exact decide_eq_decide.mpr ⟨fun hin => hin.2, fun hin => ⟨hc, hin⟩⟩

/-- A word token: its characters are neither whitespace nor symbols, and the one after it is, or
is the end of the line. -/
def WordAt (buf : List Char) (q eq : Nat) : Prop :=
  q < eq ∧ (∀ i, q ≤ i → i < eq → i < buf.length ∧ charAt buf i ∉ whitespace ∧ charAt buf i ∉ symbols) ∧
    ¬(eq < buf.length ∧ charAt buf eq ∉ whitespace ∧ charAt buf eq ∉ symbols)

theorem wordAt_of_mem {s q eq : Nat} (h : Token.word q eq ∈ tokensFrom buf s) : WordAt buf q eq := by
  induction s using tokensFrom.induct buf with
  | case1 s hret =>
    rw [tokensFrom_of_nul hret] at h
    simp at h
  | case2 s hret ih =>
    rw [tokensFrom_of_ne hret, List.mem_cons] at h
    rcases h with h | h
    · obtain ⟨hword, rfl, rfl⟩ := Tok.token_eq_word.mp h.symm
      have hbounds := (@gettoken_bounds buf s).2.2 hret
      exact ⟨hbounds.1, gettoken_word hword⟩
    · exact ih h

end Xv6.User.Sh
