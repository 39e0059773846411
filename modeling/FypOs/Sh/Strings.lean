import FypOs.Sh.Grammar

/-!
# Sh — the strings of a command

The parser does not copy the words of the line: `nulterminate` overwrites the characters behind them.

* `nulterminate_keeps`: terminating the strings of a command leaves every one of them as it was.
* `parser_exact`: the parser accepts the lines of the grammar, with the trees they denote, and stops with a message
  on the others.
-/

namespace FypOs.Sh

open Lib Prog List

section

variable {s : List UInt8} {sp : Span} {ts : List Token}

/-! ### The strings of a command -/

lemma strings_wrap (cmd : Cmd Span) (rs : List Redir) :
    (wrap cmd rs).strings = cmd.strings ++ rs.map Prod.snd := by
  induction rs generalizing cmd with
  | nil => exact (append_nil _).symm
  | cons r rs ih => rw [wrap_cons, ih, Cmd.strings, append_assoc]; rfl

lemma strings_backs (k : Nat) (cmd : Cmd Span) : (backs k cmd).strings = cmd.strings := by
  induction k generalizing cmd with
  | zero => rfl
  | succ k ih => exact ih _

lemma word_mem_redirToks {rs : List Redir} (h : sp ∈ rs.map Prod.snd) : .word sp ∈ redirToks rs := by
  obtain ⟨r, hr, rfl⟩ := mem_map.mp h
  exact mem_flatMap.mpr ⟨r, hr, by simp⟩

lemma word_mem_argToks {args : List Arg}
    (h : sp ∈ args.map Prod.fst ∨ sp ∈ (args.flatMap Prod.snd).map Prod.snd) : .word sp ∈ argToks args := by
  rcases h with h | h
  · obtain ⟨a, ha, rfl⟩ := mem_map.mp h
    exact mem_flatMap.mpr ⟨a, ha, mem_cons_self⟩
  · obtain ⟨r, hr, rfl⟩ := mem_map.mp h
    obtain ⟨a, ha, hr⟩ := mem_flatMap.mp hr
    exact mem_flatMap.mpr ⟨a, ha, mem_cons_of_mem _ (word_mem_redirToks (mem_map_of_mem hr))⟩

lemma Derives.words {nt : Nonterminal} {cmd : Cmd Span} (h : Derives nt ts cmd) :
    ∀ sp ∈ cmd.strings, .word sp ∈ ts := by
  induction h with
  | line k _ ih =>
    intro sp hsp
    rw [strings_backs] at hsp
    exact mem_append_left _ (ih sp hsp)
  | seq k _ _ ih ih' =>
    intro sp hsp
    rw [Cmd.strings, strings_backs] at hsp
    rcases mem_append.mp hsp with hsp | hsp
    · exact mem_append_left _ (mem_append_left _ (ih sp hsp))
    · exact mem_append_right _ (mem_cons_of_mem _ (ih' sp hsp))
  | pipe _ ih => exact ih
  | bar _ _ ih ih' =>
    intro sp hsp
    rcases mem_append.mp hsp with hsp | hsp
    · exact mem_append_left _ (ih sp hsp)
    · exact mem_append_right _ (mem_cons_of_mem _ (ih' sp hsp))
  | block rs _ ih =>
    intro sp hsp
    rw [strings_wrap] at hsp
    refine mem_cons_of_mem _ ?_
    rcases mem_append.mp hsp with hsp | hsp
    · exact mem_append_left _ (ih sp hsp)
    · exact mem_append_right _ (mem_cons_of_mem _ (word_mem_redirToks hsp))
  | simple rs args _ =>
    intro sp hsp
    rw [strings_wrap, map_append] at hsp
    rcases mem_append.mp hsp with hsp | hsp
    · exact mem_append_right _ (word_mem_argToks (.inl hsp))
    · rcases mem_append.mp hsp with hsp | hsp
      · exact mem_append_left _ (word_mem_redirToks hsp)
      · exact mem_append_right _ (word_mem_argToks (.inr hsp))

/-- A counted string is a word of the line: it ends where no character of a word follows. -/
structure WordOf (line : List UInt8) (sp : Span) (before w behind : List UInt8) : Prop where
  line : line = before ++ (w ++ behind)
  span : sp = ⟨(w ++ behind).length, behind.length⟩
  word : ∀ a ∈ w, isWord a = true
  stop : ∀ a, behind.head? = some a → isWord a = false

lemma Lexes.wordOf {line : List UInt8} (h : Lexes s ts)
    (before : List UInt8) (hline : line = before ++ s) (hsp : .word sp ∈ ts) : ∃ b w e, WordOf line sp b w e := by
  induction h generalizing before with
  | nil => cases hsp
  | space _ _ ih => exact ih _ (by rw [hline, append_cons]) hsp
  | sym y _ ih | lt _ ih | gt _ _ ih =>
    exact ih _ (by rw [hline, append_cons]) ((mem_cons.mp hsp).resolve_left fun e => by cases e)
  | gtgt _ ih | gt2 _ _ ih =>
    exact ih _ (by rw [hline, append_cons, append_cons]) ((mem_cons.mp hsp).resolve_left fun e => by cases e)
  | gtgt2 _ ih =>
    exact ih _ (by rw [hline, append_cons, append_cons, append_cons])
      ((mem_cons.mp hsp).resolve_left fun e => by cases e)
  | word _ hword hs _ _ ih =>
    rcases mem_cons.mp hsp with e | hsp
    · exact ⟨before, _, _, hline, Token.word.inj e, hword, hs⟩
    · exact ih _ (by rw [hline, append_assoc]) hsp

/-- The bytes of a counted string. -/
def lexeme (line : List UInt8) (sp : Span) : List UInt8 :=
  (line.drop (place line.length sp.q)).take (sp.q - sp.eq)

section

variable {line before w behind : List UInt8} {sp : Span}

section

variable (h : WordOf line sp before w behind)

include h

lemma WordOf.place_q : place line.length sp.q = before.length := by
  rw [place, h.span, h.line, length_append]
  simp only
  omega

lemma WordOf.place_eq : place line.length sp.eq = before.length + w.length := by
  rw [place, h.span, h.line, length_append, length_append]
  simp only
  omega

lemma WordOf.lexeme : lexeme line sp = w := by
  have hlen : sp.q - sp.eq = w.length := by
    rw [h.span, length_append]
    simp only
    omega
  rw [Sh.lexeme, h.place_q, hlen]
  rw [h.line, drop_left, take_left]

/-- Where a counted string ends there is no character of a word. -/
lemma WordOf.not_word {a : UInt8} (ha : (line)[place line.length sp.eq]? = some a) : isWord a = false := by
  rw [h.place_eq] at ha
  refine h.stop a ?_
  rw [← ha]
  conv_rhs => rw [h.line]
  rw [← append_assoc, getElem?_append_right (by rw [length_append]), length_append,
    Nat.sub_self, head?_eq_getElem?]

end

/-- NUL-terminating the strings sets the characters where they end. -/
lemma nulterminate_eq (n : Nat) (cmd : Cmd Span) (buf : List UInt8) :
    nulterminate n cmd buf = cmd.strings.foldl (fun buf sp => buf.set (place n sp.eq) 0) buf := by
  induction cmd generalizing buf with
  | exec argv => rfl
  | redir cmd file mode fd ih => rw [nulterminate, ih, Cmd.strings, foldl_append]; rfl
  | pipe l r ihl ihr | list l r ihl ihr => rw [nulterminate, ihl, ihr, Cmd.strings, foldl_append]
  | back cmd ih => rw [nulterminate, ih, Cmd.strings]

lemma getElem?_foldl_set (f : Span → Nat) (sps : List Span) (buf : List UInt8) (k : Nat) :
    (sps.foldl (fun buf sp => buf.set (f sp) 0) buf)[k]? =
      if k < buf.length ∧ ∃ sp ∈ sps, f sp = k then some 0 else buf[k]? := by
  induction sps generalizing buf with
  | nil => simp
  | cons sp sps ih =>
    rw [foldl_cons, ih, length_set, getElem?_set]
    by_cases hk : f sp = k
    · by_cases hlt : k < buf.length
      · simp [hk, hlt]
      · simp only [hlt, false_and, if_false]
        rw [if_pos hk, if_neg (by omega), List.getElem?_eq_none (by omega)]
    · simp [hk]

lemma takeWhile_of_getElem? {l : List UInt8} (h : ∀ k, k < w.length → l[k]? = w[k]?)
    (hend : l[w.length]? = some 0) (hw : 0 ∉ w) : l.takeWhile (· ≠ 0) = w := by
  induction w generalizing l with
  | nil =>
    cases l with
    | nil => rfl
    | cons a l =>
      cases hend
      rfl
  | cons a w ih =>
    have ha : l[0]? = some a := h 0 (by simp)
    cases l with
    | nil => cases ha
    | cons b l =>
      cases ha
      rw [mem_cons, not_or] at hw
      rw [takeWhile_cons_of_pos (by simpa using fun e => hw.1 e.symm)]
      refine congrArg _ (ih (fun k hk => ?_) hend hw.2)
      exact h (k + 1) (by rw [length_cons]; omega)

/-- **Terminating the strings of a command** leaves every one of them as it was. -/
lemma nulterminate_keeps {cmd : Cmd Span} (hnul : 0 ∉ line)
    (hwords : ∀ sp ∈ cmd.strings, ∃ b w e, WordOf line sp b w e) (hsp : sp ∈ cmd.strings) :
    cstring line.length (nulterminate line.length cmd (line ++ [0])) sp.q = lexeme line sp := by
  obtain ⟨b, w, e, h⟩ := hwords sp hsp
  have hlen : b.length + w.length ≤ line.length := by
    rw [h.line]
    simp only [length_append]
    omega
  have hat (k : Nat) (hk : k < w.length) : (line)[b.length + k]? = w[k]? := by
    conv_lhs => rw [h.line]
    rw [getElem?_append_right (Nat.le_add_right _ _), Nat.add_sub_cancel_left, getElem?_append_left hk]
  rw [cstring, h.lexeme, h.place_q, nulterminate_eq]
  refine takeWhile_of_getElem? (fun k hk => ?_) ?_ fun h0 => hnul ?_
  · rw [getElem?_drop, getElem?_foldl_set, if_neg, getElem?_append_left (by omega), hat k hk]
    -- no string ends inside a word
    rintro ⟨-, sp', hsp', hplace⟩
    obtain ⟨b', w', e', h'⟩ := hwords sp' hsp'
    have hk' : (line)[place line.length sp'.eq]? = some w[k] := by
      rw [hplace, hat k hk, List.getElem?_eq_getElem hk]
    have hno := h'.not_word hk'
    rw [h.word _ (getElem_mem hk)] at hno
    cases hno
  · rw [getElem?_drop, getElem?_foldl_set, if_pos]
    exact ⟨by rw [length_append]; simp only [length_singleton]; omega, sp, hsp, h.place_eq⟩
  · rw [h.line]
    exact mem_append_right _ (mem_append_left _ h0)

end

end

/-- **The parser accepts exactly its grammar.**  On a line without NULs it returns a tree if and only if the line is
in the grammar; the tree is the one that is denoted, and its strings, after they have been terminated in place, are
the words of the line.  On any other line it stops with a message. -/
theorem parser_exact (line : List UInt8) (hnul : 0 ∉ line) : (∀ cmd, parsecmd line = .ok cmd ↔
      ∃ ts tree, Lexes line ts ∧ Derives .line ts tree ∧ cmd = tree.map (lexeme line)) ∧
    ((¬ ∃ ts tree, Lexes line ts ∧ Derives .line ts tree) → ∃ msg, parsecmd line = .panic msg) := by
  have hok {tree : Cmd Span} {s' : List UInt8} (hrun : parse line = .ok (tree, s'))
      (hd : Derives .line (lex line) tree) : parsecmd line = .ok (tree.map (lexeme line)) := by
    have hwords : ∀ sp ∈ tree.strings, ∃ b w e, WordOf line sp b w e := fun sp hsp =>
      (lexes_lex line).wordOf [] rfl (hd.words sp hsp)
    rw [parsecmd, hrun]
    exact congrArg Outcome.ok (Cmd.map_congr fun sp hsp => nulterminate_keeps hnul hwords hsp)
  have hsound := parse_sound line
  refine ⟨fun cmd => ⟨fun h => ?_, ?_⟩, fun hno => ?_⟩
  · cases hrun : parse line with
    | ok r =>
      obtain ⟨tree, s'⟩ := r
      have hd := hsound.ok hrun
      rw [hok hrun hd] at h
      cases h
      exact ⟨lex line, tree, lexes_lex line, hd, rfl⟩
    | panic msg | blocked => rw [parsecmd, hrun] at h; cases h
  · rintro ⟨ts, tree, hlex, hd, rfl⟩
    obtain rfl := hlex.eq
    obtain ⟨tree', s', hrun, rfl⟩ := (parse_complete hd).returns
    exact hok hrun hd
  · cases hrun : parse line with
    | ok r =>
      obtain ⟨tree, s'⟩ := r
      exact absurd ⟨lex line, tree, lexes_lex line, hsound.ok hrun⟩ hno
    | panic msg => exact ⟨msg, by rw [parsecmd, hrun]⟩
    | blocked =>
      rw [wp, hrun] at hsound
      exact absurd rfl hsound

/-- The line `a 2>b|c`. -/
theorem parser_exact_sample : parsecmd [97, 32, 50, 62, 98, 124, 99] =
      .ok (.pipe (.redir (.exec [[97]]) [98] Op.gt2.mode stderr) (.exec [[99]])) ∧
    ∃ ts tree, Lexes [97, 32, 50, 62, 98, 124, 99] ts ∧ Derives .line ts tree := by
  have hrun : parsecmd [97, 32, 50, 62, 98, 124, 99] =
      .ok (.pipe (.redir (.exec [[97]]) [98] Op.gt2.mode stderr) (.exec [[99]])) := by
    have htest : (parsecmd [97, 32, 50, 62, 98, 124, 99]).test (fun cmd => cmd =
        .pipe (.redir (.exec [[97]]) [98] Op.gt2.mode stderr) (.exec [[99]])) = true := by decide +kernel
    obtain ⟨cmd, hrun, hcmd⟩ := Outcome.of_test htest
    rw [hrun, of_decide_eq_true hcmd]
  obtain ⟨ts, tree, hlex, hd, -⟩ := ((parser_exact _ (by decide)).1 _).mp hrun
  exact ⟨hrun, ts, tree, hlex, hd⟩

end FypOs.Sh
