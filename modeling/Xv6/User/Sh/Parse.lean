import Xv6.User.Sh.Lex
import Xv6.Fs.Syscall

/-!
# The shell's parser: `parsecmd` and `nulterminate`

The recursive-descent parser of `user/sh.c` over the positions of the command line. A panic is
`none`. Each parser returns a `Scanned` result, the command with `*ps` after it; the pointers the
tree keeps into the line (`argv[i]`, `eargv[i]`, `file`, `efile`) are positions. `redircmd` keeps a
pointer to the `execcmd` whose `argv` the loop of `parseexec` goes on filling, so an exec's
redirections are collected in a list and wrapped around the finished `execcmd` (`wrap`).

`nulterminate` stores a NUL at the end of every word the tree points to; `parsecmd` returns the tree
and the line after those stores.
-/

namespace Xv6.User.Sh

open Xv6.Fs (oRdonly oWronly oCreate oTrunc)

/-- `MAXARGS` of `sh.c`. -/
def maxargs : Nat := 10

/-- A `redircmd` without its command: the file, `mode` and `fd`. -/
structure Redirection where
  file : Nat × Nat
  mode : UInt32
  fd : Nat
  deriving DecidableEq

/-- The command tree: `EXEC` with `(argv[i], eargv[i])`, `REDIR`, `PIPE`, `LIST` and `BACK`. -/
inductive Cmd
  | exec (argv : List (Nat × Nat))
  | redir (cmd : Cmd) (r : Redirection)
  | pipe (left right : Cmd)
  | list (left right : Cmd)
  | back (cmd : Cmd)
  deriving DecidableEq

/-- `redircmd` around `cmd` for each redirection in turn, the later ones outside. -/
def wrap (cmd : Cmd) (rs : List Redirection) : Cmd := rs.foldl .redir cmd

/-- The `switch(tok)` of `parseredirs`, with `(q, eq)` the file. -/
def redirection (tok : Char) (file : Nat × Nat) : List Redirection :=
  if tok = '<' then [⟨file, oRdonly, 0⟩]
  else if tok = '>' then [⟨file, oWronly ||| oCreate ||| oTrunc, 1⟩]
  else if tok = '+' then [⟨file, oWronly ||| oCreate, 1⟩]
  else []

variable (buf : List Char)

/-- The loop of `parseredirs`: the redirections in the order they are read. -/
def parseredirs (s : Nat) : Option (Scanned (List Redirection) s) :=
  if h : (peek buf s ['<', '>']).1 then
    let tok := gettoken buf (peek buf s ['<', '>']).2
    let file := gettoken buf tok.next
    if hf : file.ret ≠ 'a' then none  -- `panic("missing file for redirection")`
    else
      (parseredirs file.next).map fun r =>
        ⟨redirection tok.ret (file.q, file.eq) ++ r.val, r.pos,
          le_trans (le_trans (le_peek_snd s _) (Nat.le_of_lt (peek_advance h).1))
            (le_trans (le_gettoken_next _) r.le_pos)⟩
  else some ⟨[], (peek buf s ['<', '>']).2, le_peek_snd s _⟩
termination_by buf.length - s
decreasing_by
  have hadv := peek_advance h
  have hfile := lt_gettoken_next (s := (gettoken buf (peek buf s ['<', '>']).2).next)
    (by rw [not_not] at hf; rw [hf]; decide)
  have := @le_peek_snd buf s ['<', '>']
  omega

/-- `while(peek(ps, es, "&")) { gettoken(ps, es, 0, 0); cmd = backcmd(cmd); }` -/
def backLoop (cmd : Cmd) (s : Nat) : Scanned Cmd s :=
  if h : (peek buf s ['&']).1 then
    let r := backLoop (.back cmd) (gettoken buf (peek buf s ['&']).2).next
    ⟨r.val, r.pos, le_trans (le_trans (le_peek_snd s _) (Nat.le_of_lt (peek_advance h).1)) r.le_pos⟩
  else ⟨cmd, (peek buf s ['&']).2, le_peek_snd s _⟩
termination_by buf.length - s
decreasing_by
  have hadv := peek_advance h
  have := @le_peek_snd buf s ['&']
  omega

/-- The `while(!peek(ps, es, "|)&;"))` loop of `parseexec` with the `argv` read so far and the
redirections collected so far. -/
def execLoop (argv : List (Nat × Nat)) (rs : List Redirection) (s : Nat) :
    Option (Scanned (List (Nat × Nat) × List Redirection) s) :=
  if (peek buf s ['|', ')', '&', ';']).1 then some ⟨(argv, rs), (peek buf s ['|', ')', '&', ';']).2, le_peek_snd s _⟩
  else
    let t := gettoken buf (peek buf s ['|', ')', '&', ';']).2
    if _h0 : t.ret = '\x00' then some ⟨(argv, rs), t.next, le_trans (le_peek_snd s _) (le_gettoken_next _)⟩
    else if t.ret ≠ 'a' then none  -- `panic("syntax")`
    else if maxargs ≤ argv.length + 1 then none  -- `panic("too many args")`
    else
      match parseredirs buf t.next with
      | none => none
      | some r =>
        (execLoop (argv ++ [(t.q, t.eq)]) (rs ++ r.val) r.pos).map fun l =>
          ⟨l.val, l.pos, le_trans (le_trans (le_peek_snd s _) (le_gettoken_next _)) (le_trans r.le_pos l.le_pos)⟩
termination_by buf.length - s
decreasing_by
  have hadv := lt_gettoken_next _h0
  have := @le_peek_snd buf s ['|', ')', '&', ';']
  have := r.le_pos
  have ht : t.next = (gettoken buf (peek buf s ['|', ')', '&', ';']).2).next := rfl
  omega

theorem lex_lt {a b i j : Nat} (h : a < b ∨ (a = b ∧ i < j)) : Prod.Lex (· < ·) (· < ·) (a, i) (b, j) :=
  Prod.lex_def.mpr h

theorem lex_le {a b i j : Nat} (h : a ≤ b) (hij : i < j) : Prod.Lex (· < ·) (· < ·) (a, i) (b, j) :=
  lex_lt ((Nat.lt_or_eq_of_le h).imp_right fun hab => ⟨hab, hij⟩)

/-- The token after a `peek` that saw one of its characters is consumed: the parse that follows starts
strictly further on. -/
theorem lex_of_advance {s m : Nat} (hm : s ≤ m) (toks : List Char) (h : (peek buf m toks).1 = true) (i j : Nat) :
    Prod.Lex (· < ·) (· < ·) (buf.length - (gettoken buf (peek buf m toks).2).next, i) (buf.length - s, j) := by
  have hadv := peek_advance h
  have := @le_peek_snd buf m toks
  exact lex_lt (.inl (by omega))

mutual

/-- `parseline`: a pipeline, the `&`s after it, then `;` and the rest of the line. -/
def parseline (s : Nat) : Option (Scanned Cmd s) :=
  match parsepipe s with
  | none => none
  | some p =>
    let b := backLoop buf p.val p.pos
    if h : (peek buf b.pos [';']).1 then
      (parseline (gettoken buf (peek buf b.pos [';']).2).next).map fun l =>
        ⟨.list b.val l.val, l.pos, le_trans (le_trans p.le_pos b.le_pos)
          (le_trans (le_trans (le_peek_snd _ _) (Nat.le_of_lt (peek_advance h).1)) l.le_pos)⟩
    else some ⟨b.val, (peek buf b.pos [';']).2, le_trans (le_trans p.le_pos b.le_pos) (le_peek_snd _ _)⟩
termination_by (buf.length - s, 3)
decreasing_by
  · exact lex_lt (.inr ⟨rfl, by decide⟩)
  · exact lex_of_advance buf (le_trans p.le_pos b.le_pos) [';'] h 3 3

/-- `parsepipe`: a command, then `|` and the rest of the pipeline. -/
def parsepipe (s : Nat) : Option (Scanned Cmd s) :=
  match parseexec s with
  | none => none
  | some e =>
    if h : (peek buf e.pos ['|']).1 then
      (parsepipe (gettoken buf (peek buf e.pos ['|']).2).next).map fun r =>
        ⟨.pipe e.val r.val, r.pos,
          le_trans e.le_pos (le_trans (le_trans (le_peek_snd _ _) (Nat.le_of_lt (peek_advance h).1)) r.le_pos)⟩
    else some ⟨e.val, (peek buf e.pos ['|']).2, le_trans e.le_pos (le_peek_snd _ _)⟩
termination_by (buf.length - s, 2)
decreasing_by
  · exact lex_lt (.inr ⟨rfl, by decide⟩)
  · exact lex_of_advance buf e.le_pos ['|'] h 2 2

/-- `parseexec`: a block, or words and redirections. -/
def parseexec (s : Nat) : Option (Scanned Cmd s) :=
  if (peek buf s ['(']).1 then
    (parseblock (peek buf s ['(']).2).map fun r => ⟨r.val, r.pos, le_trans (le_peek_snd s _) r.le_pos⟩
  else
    match parseredirs buf (peek buf s ['(']).2 with
    | none => none
    | some r =>
      (execLoop buf [] r.val r.pos).map fun l =>
        ⟨wrap (.exec l.val.1) l.val.2, l.pos, le_trans (le_trans (le_peek_snd s _) r.le_pos) l.le_pos⟩
termination_by (buf.length - s, 1)
decreasing_by
  exact lex_le (Nat.sub_le_sub_left (le_peek_snd s _) _) (by decide)

/-- `parseblock`: `(`, a line, `)`, then redirections. -/
def parseblock (s : Nat) : Option (Scanned Cmd s) :=
  if h : (peek buf s ['(']).1 then
    match parseline (gettoken buf (peek buf s ['(']).2).next with
    | none => none
    | some l =>
      if (peek buf l.pos [')']).1 then
        match parseredirs buf (gettoken buf (peek buf l.pos [')']).2).next with
        | none => none
        | some r =>
          some ⟨wrap l.val r.val, r.pos, le_trans (le_trans (le_peek_snd s _) (Nat.le_of_lt (peek_advance h).1))
            (le_trans l.le_pos (le_trans (le_trans (le_peek_snd _ _) (le_gettoken_next _)) r.le_pos))⟩
      else none  -- `panic("syntax - missing )")`
  else none  -- `panic("parseblock")`
termination_by (buf.length - s, 0)
decreasing_by
  exact lex_of_advance buf (Nat.le_refl s) ['('] h 3 0

end

/-- The positions `nulterminate` stores a NUL at, in order: the end of each word of an exec and of
each redirection's file. -/
def nulterminate : Cmd → List Nat
  | .exec argv => argv.map Prod.snd
  | .redir c r => nulterminate c ++ [r.file.2]
  | .pipe l r => nulterminate l ++ nulterminate r
  | .list l r => nulterminate l ++ nulterminate r
  | .back c => nulterminate c

/-- The line after a NUL is stored at each of `ps`; a store at the end is onto the NUL there. -/
def storeNuls (ps : List Nat) : List Char := ps.foldl (fun b p => b.set p '\x00') buf

/-- `parsecmd(s)`: the tree, and the line after `nulterminate`. -/
def parsecmd : Option (Cmd × List Char) :=
  match parseline buf 0 with
  | none => none
  | some l =>
    -- `peek(&s, es, ""); if(s != es) panic("syntax")`
    if (peek buf l.pos []).2 ≠ buf.length then none
    else some (l.val, storeNuls buf (nulterminate l.val))

section Grammar

/-- `redir := ('<' | '>' | '>>') WORD`, with the redirection it stands for. -/
inductive Redir : List Token → Redirection → Prop
  | input (q eq : Nat) : Redir [.sym '<', .word q eq] ⟨(q, eq), oRdonly, 0⟩
  | output (q eq : Nat) : Redir [.sym '>', .word q eq] ⟨(q, eq), oWronly ||| oCreate ||| oTrunc, 1⟩
  | append (q eq : Nat) : Redir [.sym '+', .word q eq] ⟨(q, eq), oWronly ||| oCreate, 1⟩

/-- `redir*`. -/
inductive Redirs : List Token → List Redirection → Prop
  | nil : Redirs [] []
  | cons {ts us : List Token} {r : Redirection} {rs : List Redirection} :
      Redir ts r → Redirs us rs → Redirs (ts ++ us) (r :: rs)

/-- `(WORD redir*)*`: the words, and the redirections after them. -/
inductive Words : List Token → List (Nat × Nat) → List Redirection → Prop
  | nil : Words [] [] []
  | word {ts us : List Token} {r rs : List Redirection} {ws : List (Nat × Nat)} (q eq : Nat) :
      Redirs ts r → Words us ws rs → Words (.word q eq :: ts ++ us) ((q, eq) :: ws) (r ++ rs)

mutual

/-- `line := pipe '&'* [';' line]`. -/
inductive Line : List Token → Cmd → Prop
  | pipe {ps : List Token} {c : Cmd} (k : Nat) : Pipe ps c → Line (ps ++ List.replicate k (.sym '&')) (Cmd.back^[k] c)
  | list {ps ls : List Token} {c d : Cmd} (k : Nat) : Pipe ps c → Line ls d →
      Line (ps ++ List.replicate k (.sym '&') ++ .sym ';' :: ls) (.list (Cmd.back^[k] c) d)

/-- `pipe := exec ['|' pipe]`. -/
inductive Pipe : List Token → Cmd → Prop
  | exec {es : List Token} {c : Cmd} : Exec es c → Pipe es c
  | pipe {es ps : List Token} {c d : Cmd} : Exec es c → Pipe ps d → Pipe (es ++ .sym '|' :: ps) (.pipe c d)

/-- `exec := '(' line ')' redir* | redir* (WORD redir*)*`, with fewer than `MAXARGS` words. -/
inductive Exec : List Token → Cmd → Prop
  | block {ls rs : List Token} {c : Cmd} {r : List Redirection} : Line ls c → Redirs rs r →
      Exec (.sym '(' :: ls ++ .sym ')' :: rs) (wrap c r)
  | simple {ts us : List Token} {r rs : List Redirection} {ws : List (Nat × Nat)} : Redirs ts r → Words us ws rs →
      ws.length < maxargs → Exec (ts ++ us) (wrap (.exec ws) (r ++ rs))

end

/-- The token after a phrase: none, or one of the symbols `cs`. -/
def Follows (cs : List Char) (rest : List Token) : Prop := rest = [] ∨ ∃ c r, rest = .sym c :: r ∧ c ∈ cs

end Grammar

section Tokens

/-- After a `peek` that saw one of `toks`, the tokens start with the symbol that `gettoken` reads. -/
theorem peek_gettoken {s : Nat} {toks : List Char} (htoks : ∀ c ∈ toks, c ∈ symbols)
    (h : (peek buf s toks).1 = true) :
    ∃ c, (if c = '+' then '>' else c) ∈ toks ∧ (gettoken buf (peek buf s toks).2).ret = c ∧ c ≠ 'a' ∧
      tokensFrom buf s = .sym c :: tokensFrom buf (gettoken buf (peek buf s toks).2).next := by
  rw [peek_fst htoks] at h
  have hskip : tokensFrom buf (peek buf s toks).2 = tokensFrom buf s := tokensFrom_skipWs s
  match hts : tokensFrom buf s, h with
  | .sym c :: rest, h =>
    rw [hts] at hskip
    obtain ⟨-, htok, hrest⟩ := gettoken_of_cons hskip
    obtain ⟨hret, hc⟩ := Tok.token_eq_sym.mp htok
    refine ⟨c, ?_, hret, hc, by rw [hrest]⟩
    simpa [headIn] using h

/-- A `peek` for the one symbol `c` that saw it: the tokens start with `c`. -/
theorem peek_sym {s : Nat} {c : Char} (hc : c ∈ symbols) (hgt : c ≠ '>') (h : (peek buf s [c]).1 = true) :
    tokensFrom buf s = .sym c :: tokensFrom buf (gettoken buf (peek buf s [c]).2).next := by
  obtain ⟨c', hc', -, -, hts⟩ := peek_gettoken buf (by simpa using hc) h
  -- `>>` reads as `+`, which a `peek` for `>` alone would see
  have hsame : c' = c := by
    by_cases hplus : c' = '+'
    · rw [if_pos hplus, List.mem_singleton] at hc'
      exact absurd hc'.symm hgt
    · rwa [if_neg hplus, List.mem_singleton] at hc'
  rw [hts, hsame]

theorem tokensFrom_peek (s : Nat) (toks : List Char) : tokensFrom buf (peek buf s toks).2 = tokensFrom buf s :=
  tokensFrom_skipWs s

/-- A `gettoken` where the tokens start with a word reads the word. -/
theorem gettoken_of_word {s q eq : Nat} {rest : List Token} (h : tokensFrom buf s = .word q eq :: rest) :
    (gettoken buf s).ret = 'a' ∧ (gettoken buf s).q = q ∧ (gettoken buf s).eq = eq ∧
      tokensFrom buf (gettoken buf s).next = rest := by
  obtain ⟨-, htok, hrest⟩ := gettoken_of_cons h
  obtain ⟨hret, hq, heq⟩ := Tok.token_eq_word.mp htok
  exact ⟨hret, hq, heq, hrest⟩

/-- A `gettoken` that reads a word: the tokens start with it. -/
theorem tokensFrom_of_word {s : Nat} (h : (gettoken buf s).ret = 'a') :
    tokensFrom buf s = .word (gettoken buf s).q (gettoken buf s).eq :: tokensFrom buf (gettoken buf s).next := by
  rw [tokensFrom_of_ne (by rw [h]; decide), Tok.token, if_pos h]

theorem redirection_redir {c : Char} (hc : (if c = '+' then '>' else c) ∈ ['<', '>']) (q eq : Nat) :
    ∃ r, redirection c (q, eq) = [r] ∧ Redir [.sym c, .word q eq] r := by
  by_cases hplus : c = '+'
  · subst hplus
    exact ⟨_, rfl, .append q eq⟩
  · rw [if_neg hplus] at hc
    simp only [List.mem_cons, List.not_mem_nil, or_false] at hc
    rcases hc with rfl | rfl
    · exact ⟨_, rfl, .input q eq⟩
    · exact ⟨_, rfl, .output q eq⟩

end Tokens

section Sound

/-- The tokens from `s` are `ts` and then those from where the parse stopped, within the line. -/
def Consumed {α : Type} (s : Nat) (r : Scanned α s) (ts : List Token) : Prop :=
  tokensFrom buf s = ts ++ tokensFrom buf r.pos ∧ r.pos ≤ buf.length

theorem parseredirs_sound (s : Nat) (hs : s ≤ buf.length) :
    ∀ r, parseredirs buf s = some r → ∃ ts, Consumed buf s r ts ∧ Redirs ts r.val := by
  induction s using parseredirs.induct buf with
  | case1 s hp tok file hf =>
    intro r h
    rw [parseredirs, dif_pos hp] at h
    dsimp only at h
    split at h
    · cases h
    · contradiction
  | case2 s hp tok file hf ih =>
    intro r h
    rw [parseredirs, dif_pos hp] at h
    dsimp only at h
    split at h
    · contradiction
    obtain ⟨r', hr', rfl⟩ := Option.map_eq_some_iff.mp h
    have hfile := lt_gettoken_next (s := tok.next) (by rw [not_not.mp hf]; decide)
    obtain ⟨ts, ⟨hcons, hpos⟩, hredirs⟩ := ih hfile.2 r' hr'
    -- the redirection symbol, then its file
    obtain ⟨c, hc, hret, -, hts⟩ := peek_gettoken buf (by simp [symbols]) hp
    have hword : tokensFrom buf tok.next = .word file.q file.eq :: tokensFrom buf file.next :=
      tokensFrom_of_word buf (not_not.mp hf)
    obtain ⟨R, hR, hredir⟩ := redirection_redir hc file.q file.eq
    refine ⟨.sym c :: .word file.q file.eq :: ts, ⟨?_, hpos⟩, ?_⟩
    · rw [hts, hword, hcons]
      rfl
    · show Redirs _ (redirection tok.ret (file.q, file.eq) ++ r'.val)
      rw [hret, hR]
      exact .cons hredir hredirs
  | case3 s hp =>
    intro r h
    rw [parseredirs, dif_neg hp, Option.some.injEq] at h
    subst h
    exact ⟨[], ⟨by rw [tokensFrom_peek, List.nil_append], skipWs_le hs⟩, .nil⟩

theorem backLoop_sound (cmd : Cmd) (s : Nat) (hs : s ≤ buf.length) :
    ∃ k, Consumed buf s (backLoop buf cmd s) (List.replicate k (Token.sym '&')) ∧
      (backLoop buf cmd s).val = Cmd.back^[k] cmd := by
  induction cmd, s using backLoop.induct buf with
  | case1 cmd s h ih =>
    obtain ⟨k, ⟨hks, hpos⟩, hval⟩ := ih (peek_advance h).2
    have hamp := peek_sym buf (by simp [symbols]) (by decide) h
    refine ⟨k + 1, ⟨?_, ?_⟩, ?_⟩
    · rw [backLoop, dif_pos h, hamp, hks]
      rfl
    · rw [backLoop, dif_pos h]
      exact hpos
    · rw [backLoop, dif_pos h, Function.iterate_succ_apply]
      exact hval
  | case2 cmd s h =>
    refine ⟨0, ⟨?_, ?_⟩, ?_⟩
    · rw [backLoop, dif_neg h, tokensFrom_peek]
      rfl
    · rw [backLoop, dif_neg h]
      exact skipWs_le hs
    · rw [backLoop, dif_neg h]
      rfl

theorem execLoop_sound (argv : List (Nat × Nat)) (rs : List Redirection) (s : Nat) (hs : s ≤ buf.length)
    (hargv : argv.length < maxargs) :
    ∀ r, execLoop buf argv rs s = some r → ∃ us ws rs', Consumed buf s r us ∧ Words us ws rs' ∧
      r.val = (argv ++ ws, rs ++ rs') ∧ argv.length + ws.length < maxargs := by
  induction argv, rs, s using execLoop.induct buf with
  | case1 argv rs s hp =>
    intro r h
    rw [execLoop, if_pos hp, Option.some.injEq] at h
    subst h
    refine ⟨[], [], [], ⟨?_, skipWs_le hs⟩, .nil, by simp, by simpa using hargv⟩
    rw [tokensFrom_peek, List.nil_append]
  | case2 argv rs s hp t h0 =>
    intro r h
    rw [execLoop, if_neg hp] at h
    dsimp only at h
    rw [dif_pos h0, Option.some.injEq] at h
    subst h
    -- the line ends here: no tokens before `t.next` or after it
    have hnil : tokensFrom buf (peek buf s ['|', ')', '&', ';']).2 = [] := tokensFrom_of_nul h0
    have hnext : tokensFrom buf t.next = [] := by
      rw [gettoken_next_of_nul h0, tokensFrom_skipWs, hnil]
    refine ⟨[], [], [], ⟨?_, gettoken_next_le (skipWs_le hs)⟩, .nil, by simp, by simpa using hargv⟩
    rw [← tokensFrom_peek buf s ['|', ')', '&', ';'], hnil, hnext, List.nil_append]
  | case3 argv rs s hp t h0 ha =>
    intro r h
    rw [execLoop, if_neg hp] at h
    dsimp only at h
    rw [dif_neg h0, if_pos ha] at h
    cases h
  | case4 argv rs s hp t h0 ha hmax =>
    intro r h
    rw [execLoop, if_neg hp] at h
    dsimp only at h
    rw [dif_neg h0, if_neg ha, if_pos hmax] at h
    cases h
  | case5 argv rs s hp t h0 ha hmax hnone =>
    intro r h
    rw [execLoop, if_neg hp] at h
    dsimp only at h
    rw [dif_neg h0, if_neg ha, if_neg hmax] at h
    split at h
    · cases h
    · rename_i heq
      rw [hnone] at heq
      cases heq
  | case6 argv rs s hp t h0 ha hmax r hr ih =>
    intro res h
    rw [execLoop, if_neg hp] at h
    dsimp only at h
    rw [dif_neg h0, if_neg ha, if_neg hmax] at h
    split at h
    · rename_i heq
      rw [hr] at heq
      cases heq
    rename_i r' heq
    rw [hr, Option.some.injEq] at heq
    subst heq
    obtain ⟨l, hl, rfl⟩ := Option.map_eq_some_iff.mp h
    have hnext := lt_gettoken_next h0
    -- the word, its redirections, and the words after them
    have hword : tokensFrom buf (peek buf s ['|', ')', '&', ';']).2 = .word t.q t.eq :: tokensFrom buf t.next :=
      tokensFrom_of_word buf (not_not.mp ha)
    obtain ⟨ts, ⟨hts, hrpos⟩, hredirs⟩ := parseredirs_sound buf t.next hnext.2 r hr
    have hlen : (argv ++ [(t.q, t.eq)]).length < maxargs := by
      rw [List.length_append, List.length_singleton]
      omega
    obtain ⟨us, ws, rs', ⟨hus, hlpos⟩, hwords, hval, hws⟩ := ih hrpos hlen l hl
    refine ⟨.word t.q t.eq :: ts ++ us, (t.q, t.eq) :: ws, r.val ++ rs', ⟨?_, hlpos⟩,
      .word t.q t.eq hredirs hwords, ?_, ?_⟩
    · rw [← tokensFrom_peek buf s ['|', ')', '&', ';'], hword, hts, hus]
      simp
    · rw [hval]
      simp
    · rw [List.length_append, List.length_singleton] at hws
      rw [List.length_cons]
      omega

/-- Every command the parse `o` from `s` returns is a phrase `P` of the tokens it consumed. -/
def Sound (P : List Token → Cmd → Prop) (s : Nat) (o : Option (Scanned Cmd s)) : Prop :=
  s ≤ buf.length → ∀ r, o = some r → ∃ ts, Consumed buf s r ts ∧ P ts r.val

theorem parse_sound_all :
    (∀ s, Sound buf Line s (parseline buf s)) ∧ (∀ s, Sound buf Pipe s (parsepipe buf s)) ∧
      (∀ s, Sound buf Exec s (parseexec buf s)) ∧ ∀ s, Sound buf Exec s (parseblock buf s) := by
  apply parseline.mutual_induct buf (fun s => Sound buf Line s (parseline buf s))
    (fun s => Sound buf Pipe s (parsepipe buf s)) (fun s => Sound buf Exec s (parseexec buf s))
    (fun s => Sound buf Exec s (parseblock buf s))
  · -- `parseline`: the pipeline panics
    intro s hnone _ _ r h
    rw [parseline, hnone] at h
    cases h
  · -- `parseline`: a pipeline, its `&`s, `;` and a line
    intro s p hp b hsemi ihp ihl hs r h
    rw [parseline, hp] at h
    dsimp only at h
    rw [dif_pos hsemi] at h
    obtain ⟨l, hl, rfl⟩ := Option.map_eq_some_iff.mp h
    obtain ⟨ps, ⟨hps, hppos⟩, hpipe⟩ := ihp hs p hp
    obtain ⟨k, ⟨hks, hbpos⟩, hbval⟩ := backLoop_sound buf p.val p.pos hppos
    have hts := peek_sym buf (by simp [symbols]) (by decide) hsemi
    obtain ⟨ls, ⟨hls, hlpos⟩, hline⟩ := ihl (peek_advance hsemi).2 l hl
    refine ⟨ps ++ List.replicate k (Token.sym '&') ++ Token.sym ';' :: ls, ⟨?_, hlpos⟩, ?_⟩
    · rw [hps, hks, hts, hls]
      simp
    · show Line _ (.list (backLoop buf p.val p.pos).val l.val)
      rw [hbval]
      exact .list k hpipe hline
  · -- `parseline`: a pipeline and its `&`s
    intro s p hp b hsemi ihp hs r h
    rw [parseline, hp] at h
    dsimp only at h
    rw [dif_neg hsemi, Option.some.injEq] at h
    subst h
    obtain ⟨ps, ⟨hps, hppos⟩, hpipe⟩ := ihp hs p hp
    obtain ⟨k, ⟨hks, hbpos⟩, hbval⟩ := backLoop_sound buf p.val p.pos hppos
    refine ⟨ps ++ List.replicate k (Token.sym '&'), ⟨?_, skipWs_le hbpos⟩, ?_⟩
    · rw [tokensFrom_peek, hps, hks, List.append_assoc]
    · show Line _ (backLoop buf p.val p.pos).val
      rw [hbval]
      exact .pipe k hpipe
  · -- `parsepipe`: the command panics
    intro s hnone _ _ r h
    rw [parsepipe, hnone] at h
    cases h
  · -- `parsepipe`: a command, `|` and a pipeline
    intro s e he hbar ihe ihp hs r h
    rw [parsepipe, he] at h
    dsimp only at h
    rw [dif_pos hbar] at h
    obtain ⟨p, hp, rfl⟩ := Option.map_eq_some_iff.mp h
    obtain ⟨es, ⟨hes, hepos⟩, hexec⟩ := ihe hs e he
    have hts := peek_sym buf (by simp [symbols]) (by decide) hbar
    obtain ⟨ps, ⟨hps, hppos⟩, hpipe⟩ := ihp (peek_advance hbar).2 p hp
    refine ⟨es ++ .sym '|' :: ps, ⟨?_, hppos⟩, .pipe hexec hpipe⟩
    rw [hes, hts, hps]
    simp
  · -- `parsepipe`: a command alone
    intro s e he hbar ihe hs r h
    rw [parsepipe, he] at h
    dsimp only at h
    rw [dif_neg hbar, Option.some.injEq] at h
    subst h
    obtain ⟨es, ⟨hes, hepos⟩, hexec⟩ := ihe hs e he
    exact ⟨es, ⟨by rw [tokensFrom_peek, hes], skipWs_le hepos⟩, .exec hexec⟩
  · -- `parseexec`: a block
    intro s hpar ihb hs r h
    rw [parseexec, if_pos hpar] at h
    obtain ⟨b, hb, rfl⟩ := Option.map_eq_some_iff.mp h
    obtain ⟨ts, ⟨hts, hbpos⟩, hexec⟩ := ihb (skipWs_le hs) b hb
    exact ⟨ts, ⟨by rw [← tokensFrom_peek buf s ['('], hts], hbpos⟩, hexec⟩
  · -- `parseexec`: the redirections before the words panic
    intro s hpar hnone hs r h
    rw [parseexec, if_neg hpar, hnone] at h
    cases h
  · -- `parseexec`: redirections, then words with their redirections
    intro s hpar rr hrr hs r h
    rw [parseexec, if_neg hpar, hrr] at h
    dsimp only at h
    obtain ⟨l, hl, rfl⟩ := Option.map_eq_some_iff.mp h
    obtain ⟨ts, ⟨hts, hrpos⟩, hredirs⟩ := parseredirs_sound buf (peek buf s ['(']).2 (skipWs_le hs) rr hrr
    obtain ⟨us, ws, rs, ⟨hus, hlpos⟩, hwords, hval, hlen⟩ :=
      execLoop_sound buf [] rr.val rr.pos hrpos (by decide) l hl
    refine ⟨ts ++ us, ⟨?_, hlpos⟩, ?_⟩
    · rw [← tokensFrom_peek buf s ['('], hts, hus, List.append_assoc]
    · show Exec _ (wrap (.exec l.val.1) l.val.2)
      rw [hval, List.nil_append]
      exact .simple hredirs hwords (by simpa using hlen)
  · -- `parseblock`: the line panics
    intro s hpar hnone _ hs r h
    rw [parseblock, dif_pos hpar, hnone] at h
    cases h
  · -- `parseblock`: the redirections after `)` panic
    intro s hpar l hl hclose hnone _ hs r h
    rw [parseblock, dif_pos hpar, hl] at h
    dsimp only at h
    rw [if_pos hclose, hnone] at h
    cases h
  · -- `parseblock`: `(`, a line, `)` and redirections
    intro s hpar l hl hclose rr hrr ihl hs r h
    rw [parseblock, dif_pos hpar, hl] at h
    dsimp only at h
    rw [if_pos hclose, hrr, Option.some.injEq] at h
    subst h
    have hopen := peek_sym buf (by simp [symbols]) (by decide) hpar
    obtain ⟨ls, ⟨hls, hlpos⟩, hline⟩ := ihl (peek_advance hpar).2 l hl
    have hclose' := peek_sym buf (by simp [symbols]) (by decide) hclose
    obtain ⟨rs, ⟨hrs, hrpos⟩, hredirs⟩ := parseredirs_sound buf _ (peek_advance hclose).2 rr hrr
    refine ⟨.sym '(' :: ls ++ .sym ')' :: rs, ⟨?_, hrpos⟩, .block hline hredirs⟩
    rw [hopen, hls, hclose', hrs]
    simp
  · -- `parseblock`: no `)`
    intro s hpar l hl hclose _ hs r h
    rw [parseblock, dif_pos hpar, hl] at h
    dsimp only at h
    rw [if_neg hclose] at h
    cases h
  · -- `parseblock`: no `(`
    intro s hpar hs r h
    rw [parseblock, dif_neg hpar] at h
    cases h

end Sound

section Complete

/-- A `peek` at tokens that start with a symbol it looks for sees it, and `gettoken` reads it. -/
theorem peek_of_sym {s : Nat} {toks : List Char} (htoks : ∀ c ∈ toks, c ∈ symbols) {c : Char}
    {rest : List Token} (h : tokensFrom buf s = .sym c :: rest) (hc : (if c = '+' then '>' else c) ∈ toks) :
    (peek buf s toks).1 = true ∧ (gettoken buf (peek buf s toks).2).ret = c ∧
      tokensFrom buf (gettoken buf (peek buf s toks).2).next = rest := by
  have hpeek : tokensFrom buf (peek buf s toks).2 = .sym c :: rest := by rw [tokensFrom_peek, h]
  obtain ⟨-, htok, hrest⟩ := gettoken_of_cons hpeek
  refine ⟨?_, (Tok.token_eq_sym.mp htok).1, hrest⟩
  rw [peek_fst htoks, h, headIn, decide_eq_true_eq]
  exact hc

/-- A `peek` at tokens that start with none of the symbols it looks for sees nothing. -/
theorem not_peek_of_headIn {s : Nat} {toks : List Char} (htoks : ∀ c ∈ toks, c ∈ symbols)
    (h : headIn toks (tokensFrom buf s) = false) : ¬(peek buf s toks).1 = true := by
  rw [peek_fst htoks, h]
  decide

theorem Follows.mono {cs cs' : List Char} {rest : List Token} (hf : Follows cs rest) (hsub : cs ⊆ cs') :
    Follows cs' rest := by
  rcases hf with hnil | ⟨c, r, hrest, hc⟩
  · exact .inl hnil
  · exact .inr ⟨c, r, hrest, hsub hc⟩

theorem follows_replicate {cs : List Char} {rest : List Token} (k : Nat) (hamp : '&' ∈ cs) (hf : Follows cs rest) :
    Follows cs (List.replicate k (Token.sym '&') ++ rest) := by
  cases k with
  | zero => exact hf
  | succ k => exact .inr ⟨'&', _, rfl, hamp⟩

/-- No symbol that may follow is one a `peek` for `toks` looks for. -/
theorem headIn_of_follows {cs toks : List Char} {rest : List Token} (hf : Follows cs rest)
    (hdis : ∀ c ∈ cs, c ≠ '+' ∧ c ∉ toks) : headIn toks rest = false := by
  rcases hf with rfl | ⟨c, r, rfl, hc⟩
  · rfl
  · obtain ⟨hplus, hnot⟩ := hdis c hc
    rw [headIn, if_neg hplus, decide_eq_false_iff_not]
    exact hnot

theorem headIn_words {us : List Token} {ws : List (Nat × Nat)} {rs : List Redirection} {toks : List Char}
    {rest : List Token} (hw : Words us ws rs) (hrest : headIn toks rest = false) : headIn toks (us ++ rest) = false := by
  cases hw with
  | nil => exact hrest
  | word q eq _ _ => rfl

theorem Redir.inv {ts : List Token} {r : Redirection} (h : Redir ts r) :
    ∃ c q eq, ts = [.sym c, .word q eq] ∧ (if c = '+' then '>' else c) ∈ ['<', '>'] ∧ redirection c (q, eq) = [r] := by
  cases h with
  | input q eq => exact ⟨'<', q, eq, rfl, by simp, rfl⟩
  | output q eq => exact ⟨'>', q, eq, rfl, by simp, rfl⟩
  | append q eq => exact ⟨'+', q, eq, rfl, by simp, rfl⟩

/-- A simple command starts with neither `(` nor anything else a `peek` for neither `<` nor `>` sees
before its redirections and words. -/
theorem headIn_redirs_words {ts us : List Token} {r rs : List Redirection} {ws : List (Nat × Nat)} {toks : List Char}
    {rest : List Token} (hr : Redirs ts r) (hw : Words us ws rs) (hlt : '<' ∉ toks) (hgt : '>' ∉ toks)
    (hrest : headIn toks rest = false) : headIn toks (ts ++ us ++ rest) = false := by
  cases hr with
  | nil => exact headIn_words hw hrest
  | cons hredir _ =>
    obtain ⟨c, q, eq, rfl, hc, -⟩ := hredir.inv
    rw [List.cons_append, List.cons_append, List.cons_append, headIn, decide_eq_false_iff_not]
    intro hmem
    simp only [List.mem_cons, List.not_mem_nil, or_false] at hc
    rcases hc with hc | hc
    · exact hlt (hc ▸ hmem)
    · exact hgt (hc ▸ hmem)

theorem parseredirs_complete {ts : List Token} {rs : List Redirection} (hr : Redirs ts rs) :
    ∀ s rest, tokensFrom buf s = ts ++ rest → headIn ['<', '>'] rest = false →
      ∃ r, parseredirs buf s = some r ∧ r.val = rs ∧ tokensFrom buf r.pos = rest := by
  induction hr with
  | nil =>
    intro s rest hts hrest
    have hp : ¬(peek buf s ['<', '>']).1 = true :=
      not_peek_of_headIn buf (by simp [symbols]) (by rw [hts, List.nil_append, hrest])
    rw [parseredirs, dif_neg hp]
    exact ⟨_, rfl, rfl, by rw [tokensFrom_peek, hts, List.nil_append]⟩
  | cons hredir _ ih =>
    intro s rest hts hrest
    obtain ⟨c, q, eq, rfl, hc, hR⟩ := hredir.inv
    obtain ⟨hp, hret, htok⟩ := peek_of_sym buf (by simp [symbols]) hts hc
    obtain ⟨hfile, hq, heq, hnext⟩ := gettoken_of_word buf htok
    obtain ⟨r, hr, hval, hpos⟩ := ih _ rest hnext hrest
    rw [parseredirs, dif_pos hp]
    dsimp only
    rw [dif_neg (by rw [hfile]; decide), hr]
    refine ⟨_, rfl, ?_, hpos⟩
    show redirection _ (_, _) ++ r.val = _
    rw [hret, hq, heq, hR, hval, List.singleton_append]

theorem backLoop_complete (k : Nat) :
    ∀ cmd s rest, tokensFrom buf s = List.replicate k (Token.sym '&') ++ rest → headIn ['&'] rest = false →
      (backLoop buf cmd s).val = Cmd.back^[k] cmd ∧ tokensFrom buf (backLoop buf cmd s).pos = rest := by
  induction k with
  | zero =>
    intro cmd s rest hts hrest
    have hp : ¬(peek buf s ['&']).1 = true :=
      not_peek_of_headIn buf (by simp [symbols]) (by rw [hts, List.replicate_zero, List.nil_append, hrest])
    rw [backLoop, dif_neg hp]
    exact ⟨rfl, by rw [tokensFrom_peek, hts, List.replicate_zero, List.nil_append]⟩
  | succ k ih =>
    intro cmd s rest hts hrest
    obtain ⟨hp, -, hnext⟩ : (peek buf s ['&']).1 = true ∧ _ ∧ _ :=
      peek_of_sym buf (by simp [symbols]) hts (by simp)
    obtain ⟨hval, hpos⟩ := ih cmd.back _ rest hnext hrest
    rw [backLoop, dif_pos hp]
    exact ⟨by rw [hval, Function.iterate_succ_apply], hpos⟩

theorem execLoop_complete {us : List Token} {ws : List (Nat × Nat)} {rs' : List Redirection} (hw : Words us ws rs') :
    ∀ argv rs s rest, tokensFrom buf s = us ++ rest → Follows ['|', ')', '&', ';'] rest →
      argv.length + ws.length < maxargs →
      ∃ r, execLoop buf argv rs s = some r ∧ r.val = (argv ++ ws, rs ++ rs') ∧ tokensFrom buf r.pos = rest := by
  induction hw with
  | nil =>
    intro argv rs s rest hts hf _
    rw [List.nil_append] at hts
    rcases hf with rfl | ⟨c, r, rfl, hc⟩
    · -- the end of the line
      have hp : ¬(peek buf s ['|', ')', '&', ';']).1 = true :=
        not_peek_of_headIn buf (by simp [symbols]) (by rw [hts]; rfl)
      obtain ⟨h0, hnext⟩ := gettoken_of_nil (by rw [tokensFrom_peek buf s ['|', ')', '&', ';'], hts])
      rw [execLoop, if_neg hp]
      dsimp only
      rw [dif_pos h0]
      exact ⟨_, rfl, by simp, hnext⟩
    · -- a symbol that ends the command
      have hplus : c ≠ '+' := by
        rintro rfl
        simp at hc
      obtain ⟨hp, -, -⟩ : (peek buf s ['|', ')', '&', ';']).1 = true ∧ _ ∧ _ :=
        peek_of_sym buf (by simp [symbols]) hts (by rwa [if_neg hplus])
      rw [execLoop, if_pos hp]
      exact ⟨_, rfl, by simp, by rw [tokensFrom_peek, hts]⟩
  | @word ts1 us1 r1 rs1 ws1 q eq hredirs hwords ih =>
    intro argv rs s rest hts hf hlen
    rw [List.length_cons] at hlen
    have hp : ¬(peek buf s ['|', ')', '&', ';']).1 = true :=
      not_peek_of_headIn buf (by simp [symbols]) (by rw [hts]; rfl)
    have hword : tokensFrom buf (peek buf s ['|', ')', '&', ';']).2 = .word q eq :: (ts1 ++ (us1 ++ rest)) := by
      rw [tokensFrom_peek, hts]
      simp only [List.cons_append, List.append_assoc]
    obtain ⟨ha, hq, heq, hnext⟩ := gettoken_of_word buf hword
    -- the redirections after the word stop at the next word or at what follows the command
    obtain ⟨r, hr, hrval, hrpos⟩ :=
      parseredirs_complete buf hredirs _ _ hnext (headIn_words hwords (headIn_of_follows hf (by simp)))
    obtain ⟨l, hl, hlval, hlpos⟩ := ih (argv ++ [(q, eq)]) (rs ++ r.val) r.pos rest hrpos hf (by simp; omega)
    rw [execLoop, if_neg hp]
    dsimp only
    rw [dif_neg (by rw [ha]; decide), if_neg (by rw [ha]; exact not_not.mpr rfl), if_neg (by omega), hr]
    dsimp only
    rw [hq, heq, hl]
    exact ⟨_, rfl, by simp [hlval, hrval], hlpos⟩

mutual

theorem parseline_complete {ts : List Token} {c : Cmd} (hl : Line ts c) (s : Nat) (rest : List Token)
    (hts : tokensFrom buf s = ts ++ rest) (hf : Follows [')'] rest) :
    ∃ r, parseline buf s = some r ∧ r.val = c ∧ tokensFrom buf r.pos = rest :=
  match hl, hts with
  | .pipe k hp, hts => by
    -- the `&`s after the pipeline stop at what follows the line
    obtain ⟨p, hp1, hpval, hprest⟩ := parsepipe_complete hp s (List.replicate k (Token.sym '&') ++ rest)
      (by rw [hts, List.append_assoc]) (follows_replicate k (by simp) (hf.mono (by simp)))
    obtain ⟨hbval, hbrest⟩ := backLoop_complete buf k p.val p.pos rest hprest (headIn_of_follows hf (by simp))
    have hsemi : ¬(peek buf (backLoop buf p.val p.pos).pos [';']).1 = true :=
      not_peek_of_headIn buf (by simp [symbols]) (by rw [hbrest, headIn_of_follows hf (by simp)])
    rw [parseline, hp1]
    dsimp only
    rw [dif_neg hsemi]
    exact ⟨_, rfl, by rw [hbval, hpval], by rw [tokensFrom_peek, hbrest]⟩
  | @Line.list ps ls c0 d k hp hl', hts => by
    obtain ⟨p, hp1, hpval, hprest⟩ := parsepipe_complete hp s
      (List.replicate k (Token.sym '&') ++ Token.sym ';' :: (ls ++ rest)) (by rw [hts]; simp)
      (follows_replicate k (by simp) (.inr ⟨';', _, rfl, by simp⟩))
    obtain ⟨hbval, hbrest⟩ := backLoop_complete buf k p.val p.pos _ hprest (by simp [headIn])
    obtain ⟨hsemi, -, hnext⟩ : (peek buf (backLoop buf p.val p.pos).pos [';']).1 = true ∧ _ ∧ _ :=
      peek_of_sym buf (by simp [symbols]) hbrest (by simp)
    obtain ⟨l, hl1, hlval, hlrest⟩ := parseline_complete hl' _ rest hnext hf
    rw [parseline, hp1]
    dsimp only
    rw [dif_pos hsemi, hl1]
    refine ⟨_, rfl, ?_, hlrest⟩
    show Cmd.list (backLoop buf p.val p.pos).val l.val = _
    rw [hbval, hlval, hpval]

theorem parsepipe_complete {ts : List Token} {c : Cmd} (hp : Pipe ts c) (s : Nat) (rest : List Token)
    (hts : tokensFrom buf s = ts ++ rest) (hf : Follows [')', '&', ';'] rest) :
    ∃ r, parsepipe buf s = some r ∧ r.val = c ∧ tokensFrom buf r.pos = rest :=
  match hp, hts with
  | .exec he, hts => by
    obtain ⟨e, he1, heval, herest⟩ := parseexec_complete he s rest hts (hf.mono (by simp))
    have hbar : ¬(peek buf e.pos ['|']).1 = true :=
      not_peek_of_headIn buf (by simp [symbols]) (by rw [herest, headIn_of_follows hf (by simp)])
    rw [parsepipe, he1]
    dsimp only
    rw [dif_neg hbar]
    exact ⟨_, rfl, heval, by rw [tokensFrom_peek, herest]⟩
  | @Pipe.pipe es ps c0 d he hp', hts => by
    obtain ⟨e, he1, heval, herest⟩ := parseexec_complete he s (.sym '|' :: (ps ++ rest)) (by rw [hts]; simp)
      (.inr ⟨'|', _, rfl, by simp⟩)
    obtain ⟨hbar, -, hnext⟩ : (peek buf e.pos ['|']).1 = true ∧ _ ∧ _ :=
      peek_of_sym buf (by simp [symbols]) herest (by simp)
    obtain ⟨p, hp1, hpval, hprest⟩ := parsepipe_complete hp' _ rest hnext hf
    rw [parsepipe, he1]
    dsimp only
    rw [dif_pos hbar, hp1]
    refine ⟨_, rfl, ?_, hprest⟩
    show Cmd.pipe e.val p.val = _
    rw [heval, hpval]

theorem parseexec_complete {ts : List Token} {c : Cmd} (he : Exec ts c) (s : Nat) (rest : List Token)
    (hts : tokensFrom buf s = ts ++ rest) (hf : Follows ['|', ')', '&', ';'] rest) :
    ∃ r, parseexec buf s = some r ∧ r.val = c ∧ tokensFrom buf r.pos = rest :=
  match he, hts with
  | @Exec.block ls rs c0 r hl hr, hts => by
    have hopen : tokensFrom buf s = .sym '(' :: (ls ++ .sym ')' :: (rs ++ rest)) := by
      rw [hts]
      simp
    obtain ⟨hpar, -, -⟩ : (peek buf s ['(']).1 = true ∧ _ ∧ _ :=
      peek_of_sym buf (by simp [symbols]) hopen (by simp)
    -- `parseblock` looks for the `(` again, from where `parseexec`'s `peek` left `*ps`
    obtain ⟨hpar', -, hnext⟩ : (peek buf (peek buf s ['(']).2 ['(']).1 = true ∧ _ ∧ _ :=
      peek_of_sym buf (by simp [symbols]) (by rw [tokensFrom_peek, hopen]) (by simp)
    obtain ⟨l, hl1, hlval, hlrest⟩ :=
      parseline_complete hl _ (.sym ')' :: (rs ++ rest)) hnext (.inr ⟨')', _, rfl, by simp⟩)
    obtain ⟨hclose, -, hnext'⟩ : (peek buf l.pos [')']).1 = true ∧ _ ∧ _ :=
      peek_of_sym buf (by simp [symbols]) hlrest (by simp)
    obtain ⟨rr, hrr, hrrval, hrrrest⟩ :=
      parseredirs_complete buf hr _ rest hnext' (headIn_of_follows hf (by simp))
    rw [parseexec, if_pos hpar, parseblock, dif_pos hpar', hl1]
    dsimp only
    rw [if_pos hclose, hrr]
    refine ⟨_, rfl, ?_, hrrrest⟩
    show wrap l.val rr.val = _
    rw [hlval, hrrval]
  | @Exec.simple ts1 us r rs ws hr hw hlen, hts => by
    have hhead : headIn ['('] (ts1 ++ us ++ rest) = false :=
      headIn_redirs_words hr hw (by simp) (by simp) (headIn_of_follows hf (by simp))
    have hpar : ¬(peek buf s ['(']).1 = true := not_peek_of_headIn buf (by simp [symbols]) (by rw [hts, hhead])
    obtain ⟨rr, hrr, hrrval, hrrrest⟩ := parseredirs_complete buf hr (peek buf s ['(']).2 (us ++ rest)
      (by rw [tokensFrom_peek, hts, List.append_assoc]) (headIn_words hw (headIn_of_follows hf (by simp)))
    obtain ⟨l, hl, hlval, hlrest⟩ := execLoop_complete buf hw [] rr.val rr.pos rest hrrrest hf (by simpa using hlen)
    rw [parseexec, if_neg hpar, hrr]
    dsimp only
    rw [hl]
    refine ⟨_, rfl, ?_, hlrest⟩
    show wrap (.exec l.val.1) l.val.2 = _
    rw [hlval, hrrval, List.nil_append]

end

end Complete

end Xv6.User.Sh
