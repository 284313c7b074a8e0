import Xv6.User.Sh.Parse

/-!
# `parsecmd`: the grammar of a command line, and `nulterminate`

`parsecmd` returns exactly for the lines whose tokens derive a `line` of the grammar, and it
returns that derivation's tree (`parsecmd_grammar`): `parse_sound_all` gives the one direction, the
completeness theorems of `Parse` the other, and since `parsecmd` is a function a line has one tree.
The check at the end, `peek(&s, es, ""); if(s != es)`, is where the line may hold no NUL of its
own: a NUL before `es` ends the tokens but not the line.

`nulterminate` stores a NUL at the end of every word the tree points to. Each end is where a word
of `gettoken` stopped (a blank, a symbol or the end of the line), never inside another word
(`WordAt`), so after the stores every `argv[i]` and every redirection's file reads, as a C string,
the word it points to.
-/

namespace Xv6.User.Sh

/-- The words the tree points to: the `(argv[i], eargv[i])` of each exec and the `(file, efile)` of
each redirection, in the order `nulterminate` visits them. -/
def words : Cmd → List (Nat × Nat)
  | .exec argv => argv
  | .redir c r => words c ++ [r.file]
  | .pipe l r => words l ++ words r
  | .list l r => words l ++ words r
  | .back c => words c

/-- The C string at `q` of `line` is `w`: the bytes of `w`, none of them a NUL, then a NUL (past the
end of `line`, the one that ends the line). -/
def CStrAt (line : List Char) (q : Nat) (w : List Char) : Prop :=
  (∀ i (hi : i < w.length), charAt line (q + i) = w[i]) ∧ '\x00' ∉ w ∧ charAt line (q + w.length) = '\x00'

/-! ### The words of a tree -/

theorem nulterminate_eq_words (c : Cmd) : nulterminate c = (words c).map Prod.snd := by
  induction c with
  | exec argv => rfl
  | redir c r ih => rw [nulterminate, words, ih, List.map_append, List.map_singleton]
  | pipe l r ihl ihr => rw [nulterminate, words, ihl, ihr, List.map_append]
  | list l r ihl ihr => rw [nulterminate, words, ihl, ihr, List.map_append]
  | back c ih => rw [nulterminate, words, ih]

theorem words_wrap (c : Cmd) (rs : List Redirection) :
    words (wrap c rs) = words c ++ rs.map Redirection.file := by
  induction rs generalizing c with
  | nil => rw [wrap, List.foldl_nil, List.map_nil, List.append_nil]
  | cons r rs ih =>
    rw [wrap, List.foldl_cons, ← wrap, ih, words, List.map_cons, List.append_assoc, List.singleton_append]

theorem words_back_iterate (k : Nat) (c : Cmd) : words (Cmd.back^[k] c) = words c := by
  induction k generalizing c with
  | zero => rfl
  | succ k ih => rw [Function.iterate_succ_apply, ih, words]

theorem Redirs.file_mem {ts : List Token} {rs : List Redirection} (h : Redirs ts rs) :
    ∀ r ∈ rs, Token.word r.file.1 r.file.2 ∈ ts := by
  induction h with
  | nil => exact fun r hr => absurd hr List.not_mem_nil
  | cons hredir _ ih =>
    intro r hr
    rcases List.mem_cons.mp hr with rfl | hr
    · cases hredir <;> simp
    · exact List.mem_append_right _ (ih r hr)

theorem Words.word_mem {us : List Token} {ws : List (Nat × Nat)} {rs : List Redirection} (h : Words us ws rs) :
    (∀ w ∈ ws, Token.word w.1 w.2 ∈ us) ∧ ∀ r ∈ rs, Token.word r.file.1 r.file.2 ∈ us := by
  induction h with
  | nil => exact ⟨fun w hw => absurd hw List.not_mem_nil, fun r hr => absurd hr List.not_mem_nil⟩
  | word q eq hredirs _ ih =>
    constructor
    · intro w hw
      rcases List.mem_cons.mp hw with rfl | hw
      · exact List.mem_cons_self
      · exact List.mem_cons_of_mem _ (List.mem_append_right _ (ih.1 w hw))
    · intro r hr
      rcases List.mem_append.mp hr with hr | hr
      · exact List.mem_cons_of_mem _ (List.mem_append_left _ (hredirs.file_mem r hr))
      · exact List.mem_cons_of_mem _ (List.mem_append_right _ (ih.2 r hr))

mutual

/-- Every word a tree points to is a word token of its derivation. -/
theorem Line.word_mem {ts : List Token} {c : Cmd} (h : Line ts c) : ∀ w ∈ words c, Token.word w.1 w.2 ∈ ts :=
  match h with
  | .pipe k hp => by
    intro w hw
    rw [words_back_iterate] at hw
    exact List.mem_append_left _ (hp.word_mem w hw)
  | .list k hp hl => by
    intro w hw
    rw [words, words_back_iterate, List.mem_append] at hw
    rcases hw with hw | hw
    · exact List.mem_append_left _ (List.mem_append_left _ (hp.word_mem w hw))
    · exact List.mem_append_right _ (List.mem_cons_of_mem _ (hl.word_mem w hw))

theorem Pipe.word_mem {ts : List Token} {c : Cmd} (h : Pipe ts c) : ∀ w ∈ words c, Token.word w.1 w.2 ∈ ts :=
  match h with
  | .exec he => he.word_mem
  | .pipe he hp => by
    intro w hw
    rw [words, List.mem_append] at hw
    rcases hw with hw | hw
    · exact List.mem_append_left _ (he.word_mem w hw)
    · exact List.mem_append_right _ (List.mem_cons_of_mem _ (hp.word_mem w hw))

theorem Exec.word_mem {ts : List Token} {c : Cmd} (h : Exec ts c) : ∀ w ∈ words c, Token.word w.1 w.2 ∈ ts :=
  match h with
  | .block hl hr => by
    intro w hw
    rw [words_wrap, List.mem_append] at hw
    rcases hw with hw | hw
    · exact List.mem_cons_of_mem _ (List.mem_append_left _ (hl.word_mem w hw))
    · obtain ⟨r, hrmem, rfl⟩ := List.mem_map.mp hw
      exact List.mem_cons_of_mem _ (List.mem_append_right _ (List.mem_cons_of_mem _ (hr.file_mem r hrmem)))
  | .simple hr hw _ => by
    intro w hmem
    rw [words_wrap, words, List.map_append, List.mem_append, List.mem_append] at hmem
    rcases hmem with hmem | hmem | hmem
    · exact List.mem_append_right _ (hw.word_mem.1 w hmem)
    · obtain ⟨r, hr', rfl⟩ := List.mem_map.mp hmem
      exact List.mem_append_left _ (hr.file_mem r hr')
    · obtain ⟨r, hr', rfl⟩ := List.mem_map.mp hmem
      exact List.mem_append_right _ (hw.word_mem.2 r hr')

end

/-! ### The stores of `nulterminate` -/

theorem charAt_set_nul (buf : List Char) (p i : Nat) :
    charAt (buf.set p '\x00') i = if i = p then '\x00' else charAt buf i := by
  rw [charAt, charAt, List.getD_eq_getElem?_getD, List.getElem?_set, List.getD_eq_getElem?_getD]
  by_cases hi : i = p
  · -- a store past the end leaves the line, whose end reads as a NUL anyway
    subst hi
    split_ifs <;> simp_all
  · simp [Ne.symm hi, hi]

theorem charAt_storeNuls (buf : List Char) (ps : List Nat) (i : Nat) :
    charAt (storeNuls buf ps) i = if i ∈ ps then '\x00' else charAt buf i := by
  induction ps generalizing buf with
  | nil => simp [storeNuls]
  | cons p ps ih =>
    rw [storeNuls, List.foldl_cons, ← storeNuls, ih, charAt_set_nul]
    by_cases hi : i = p
    · simp [hi]
    · simp [hi]

theorem charAt_ne_nul {buf : List Char} (hnul : '\x00' ∉ buf) {i : Nat} (hi : i < buf.length) :
    charAt buf i ≠ '\x00' := by
  rw [charAt, List.getD_eq_getElem _ _ hi]
  intro h
  exact hnul (h ▸ List.getElem_mem hi)

/-- The end of a word is never inside a word. -/
theorem not_inside_word {buf : List Char} {q eq q' eq' : Nat} (hw : WordAt buf q eq) (hw' : WordAt buf q' eq') :
    ¬(q ≤ eq' ∧ eq' < eq) := by
  rintro ⟨hq, hlt⟩
  exact hw'.2.2 (hw.2.1 eq' hq hlt)

theorem WordAt.end_le {buf : List Char} {q eq : Nat} (hw : WordAt buf q eq) : eq ≤ buf.length := by
  have hlast := (hw.2.1 (eq - 1) (by have := hw.1; omega) (by have := hw.1; omega)).1
  omega

/-- After NULs are stored at the ends of words, each of those words reads as a C string. -/
theorem cstrAt_storeNuls {buf : List Char} (hnul : '\x00' ∉ buf) {ws : List (Nat × Nat)}
    (hws : ∀ w ∈ ws, WordAt buf w.1 w.2) {q eq : Nat} (hq : (q, eq) ∈ ws) :
    CStrAt (storeNuls buf (ws.map Prod.snd)) q ((buf.drop q).take (eq - q)) := by
  have hw := hws _ hq
  have hend := hw.end_le
  have hlen : ((buf.drop q).take (eq - q)).length = eq - q := by
    rw [List.length_take, List.length_drop]
    omega
  refine ⟨?_, ?_, ?_⟩
  · intro i hi
    rw [hlen] at hi
    -- no other word ends inside this one
    have hkeep : q + i ∉ ws.map Prod.snd := by
      intro hmem
      obtain ⟨w', hw'mem, hw'eq⟩ := List.mem_map.mp hmem
      exact not_inside_word hw (hws w' hw'mem) ⟨by omega, by omega⟩
    rw [charAt_storeNuls, if_neg hkeep, List.getElem_take, List.getElem_drop, charAt,
      List.getD_eq_getElem _ _ (by omega)]
  · intro hmem
    exact hnul (List.mem_of_mem_drop (List.mem_of_mem_take hmem))
  · rw [hlen, Nat.add_sub_cancel' (le_of_lt hw.1), charAt_storeNuls, if_pos (List.mem_map.mpr ⟨_, hq, rfl⟩)]

/-! ### `parsecmd` -/

variable (buf : List Char)

/-- A line with no NUL of its own and no tokens left at `p` has only blanks from `p` to its end. -/
theorem skipWs_eq_length {buf : List Char} (hnul : '\x00' ∉ buf) {p : Nat} (hp : p ≤ buf.length)
    (h : tokensFrom buf p = []) : skipWs buf p = buf.length := by
  rcases (tokensFrom_eq_nil_iff p).mp h with hge | hc
  · exact le_antisymm (skipWs_le hp) hge
  · by_contra hne
    exact charAt_ne_nul hnul (lt_of_le_of_ne (skipWs_le hp) hne) hc

theorem parsecmd_sound {c : Cmd} {line : List Char} (h : parsecmd buf = some (c, line)) :
    Line (tokensFrom buf 0) c ∧ line = storeNuls buf (nulterminate c) := by
  rw [parsecmd] at h
  split at h
  · cases h
  rename_i l hl
  split_ifs at h with hend
  rw [Option.some.injEq, Prod.mk.injEq] at h
  obtain ⟨rfl, rfl⟩ := h
  obtain ⟨ts, ⟨hts, -⟩, hline⟩ := (parse_sound_all buf).1 0 (Nat.zero_le _) l hl
  -- `s == es` after the last `peek`: nothing but blanks after the line
  have hnil : tokensFrom buf l.pos = [] := by
    rw [← tokensFrom_peek buf l.pos [], not_not.mp hend, tokensFrom_eq_nil_iff]
    exact .inl (le_skipWs _)
  rw [hts, hnil, List.append_nil]
  exact ⟨hline, rfl⟩

theorem parsecmd_complete {buf : List Char} (hnul : '\x00' ∉ buf) {c : Cmd} (h : Line (tokensFrom buf 0) c) :
    parsecmd buf = some (c, storeNuls buf (nulterminate c)) := by
  obtain ⟨l, hl, hval, hrest⟩ := parseline_complete buf h 0 [] (List.append_nil _).symm (.inl rfl)
  obtain ⟨ts, ⟨-, hpos⟩, -⟩ := (parse_sound_all buf).1 0 (Nat.zero_le _) l hl
  have hend : (peek buf l.pos []).2 = buf.length := skipWs_eq_length hnul hpos hrest
  rw [parsecmd, hl]
  dsimp only
  rw [if_neg (not_not.mpr hend), hval]

/-- The shell's parser against its grammar: on a line with no NUL of its own, `parsecmd` returns
exactly for the token strings a `line` derives, with the derivation's tree, and after `nulterminate`
every word the tree points to is a word token, NUL-terminated in place. -/
theorem parsecmd_grammar (hnul : '\x00' ∉ buf) :
    (∀ c, (∃ line, parsecmd buf = some (c, line)) ↔ Line (tokensFrom buf 0) c) ∧
      ∀ c line, parsecmd buf = some (c, line) → ∀ w ∈ words c,
        Token.word w.1 w.2 ∈ tokensFrom buf 0 ∧ CStrAt line w.1 ((buf.drop w.1).take (w.2 - w.1)) := by
  constructor
  · intro c
    constructor
    · rintro ⟨line, h⟩
      exact (parsecmd_sound buf h).1
    · intro h
      exact ⟨_, parsecmd_complete hnul h⟩
  · intro c line h w hw
    obtain ⟨hline, rfl⟩ := parsecmd_sound buf h
    have hmem := hline.word_mem
    refine ⟨hmem w hw, ?_⟩
    rw [nulterminate_eq_words]
    exact cstrAt_storeNuls hnul (fun w' hw' => wordAt_of_mem (hmem w' hw')) hw

theorem parsecmd_grammar_pipe :
    '\x00' ∉ ['a', '|', 'b'] ∧
      ((∀ c, (∃ line, parsecmd ['a', '|', 'b'] = some (c, line)) ↔ Line (tokensFrom ['a', '|', 'b'] 0) c) ∧
        ∀ c line, parsecmd ['a', '|', 'b'] = some (c, line) → ∀ w ∈ words c,
          Token.word w.1 w.2 ∈ tokensFrom ['a', '|', 'b'] 0 ∧
            CStrAt line w.1 ((['a', '|', 'b'].drop w.1).take (w.2 - w.1))) :=
  ⟨by simp, parsecmd_grammar _ (by simp)⟩

end Xv6.User.Sh
