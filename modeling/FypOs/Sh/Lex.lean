import FypOs.Sh.Parse

/-!
# Sh — the tokens of a line

* `lex`: those that `gettoken` finds, one after the other; `Lexes.eq` and `lexes_lex` say that they are the same.
-/

namespace FypOs.Sh

open Lib Prog List Sh.Sym

/-! ### Tokens -/

/-- The tokens of a line.  A word is as long as possible; a `2` at the start of a token that is followed by `>` is
the beginning of an operator. -/
inductive Lexes : List UInt8 → List Token → Prop where
  | nil : Lexes [] []
  | space {c s ts} (hc : c ∈ whitespace) (h : Lexes s ts) : Lexes (c :: s) ts
  | sym {s ts} (y : Sym) (h : Lexes s ts) : Lexes (y.byte :: s) (.sym y :: ts)
  | lt {s ts} (h : Lexes s ts) : Lexes (60 :: s) (.op .lt :: ts)
  | gt {s ts} (hs : s.take 1 ≠ [62]) (h : Lexes s ts) : Lexes (62 :: s) (.op .gt :: ts)
  | gtgt {s ts} (h : Lexes s ts) : Lexes (62 :: 62 :: s) (.op .gtgt :: ts)
  | gt2 {s ts} (hs : s.take 1 ≠ [62]) (h : Lexes s ts) : Lexes (50 :: 62 :: s) (.op .gt2 :: ts)
  | gtgt2 {s ts} (h : Lexes s ts) : Lexes (50 :: 62 :: 62 :: s) (.op .gtgt2 :: ts)
  | word {w s ts} (hw : w ≠ []) (hword : ∀ c ∈ w, isWord c = true)
      (hs : ∀ c, s.head? = some c → isWord c = false) (h₂ : (w ++ s).take 2 ≠ [50, 62])
      (h : Lexes s ts) : Lexes (w ++ s) (.word ⟨(w ++ s).length, s.length⟩ :: ts)

/-! ### The tokens of the parser -/

section

variable {s s' : List UInt8} {c : UInt8} {E : Stop → Prop} {y : Sym} {o : Op}

lemma skip_length_le (s : List UInt8) : (skip s).length ≤ s.length :=
  (dropWhile_suffix _).length_le

lemma skip_cons_of_mem (h : c ∈ whitespace) : skip (c :: s) = skip s := by
  simp [skip, h]

lemma skip_cons_of_not_mem (h : c ∉ whitespace) : skip (c :: s) = c :: s :=
  dropWhile_cons_of_neg (by simpa using h)

lemma not_mem_of_skip (h : skip s = c :: s') : c ∉ whitespace := by
  induction s with
  | nil => cases h
  | cons a s ih =>
    by_cases ha : a ∈ whitespace
    · rw [skip_cons_of_mem ha] at h
      exact ih h
    · rw [skip_cons_of_not_mem ha] at h
      cases h
      exact ha

lemma skip_skip (s : List UInt8) : skip (skip s) = skip s := by
  cases h : skip s with
  | nil => rfl
  | cons c s' => exact skip_cons_of_not_mem (not_mem_of_skip h)

lemma nextToken_skip (s : List UInt8) : nextToken (skip s) = nextToken s := by
  rw [nextToken, nextToken, skip_skip]

lemma ofByte_byte (y : Sym) : ofByte y.byte = some y := by
  cases y <;> decide

lemma byte_of_ofByte (h : ofByte c = some y) : c = y.byte := by
  unfold ofByte at h
  repeat' split at h
  all_goals cases h
  all_goals assumption

lemma mem_symbols_iff : c ∈ symbols ↔ c = 60 ∨ c = 62 ∨ ∃ y, c = byte y := by
  constructor
  · intro h
    simp only [symbols, mem_cons, not_mem_nil, or_false] at h
    rcases h with h | h | h | h | h | h | h
    · exact .inl h
    · exact .inr (.inr ⟨.bar, h⟩)
    · exact .inr (.inl h)
    · exact .inr (.inr ⟨.amp, h⟩)
    · exact .inr (.inr ⟨.semi, h⟩)
    · exact .inr (.inr ⟨.lpar, h⟩)
    · exact .inr (.inr ⟨.rpar, h⟩)
  · rintro (rfl | rfl | ⟨y, rfl⟩)
    · decide
    · decide
    · cases y <;> decide

lemma isWord_iff : isWord c = true ↔ c ∉ whitespace ∧ c ∉ symbols := by
  rw [isWord, decide_eq_true_iff]

/-- The word at the start of a line that starts with a character of a word. -/
lemma wordAt_length (h : isWord c = true) : (wordAt (c :: s)).2.length ≤ s.length := by
  rw [wordAt, dropWhile_cons_of_pos h]
  exact (skip_length_le _).trans (dropWhile_suffix _).length_le

/-- A character that is neither a blank nor the start of an operator or a symbol starts a word. -/
lemma isWord_of {c : UInt8} (hc : c ∉ whitespace) (h1 : c ≠ 60) (h2 : c ≠ 62)
    (hy : ofByte c = none) : isWord c = true := by
  refine isWord_iff.mpr ⟨hc, fun h => ?_⟩
  rcases mem_symbols_iff.mp h with h | h | ⟨y, rfl⟩
  · exact h1 h
  · exact h2 h
  · rw [ofByte_byte] at hy
    cases hy

lemma tokenAt_length (hc : c ∉ whitespace) : (tokenAt c s).2.length ≤ s.length := by
  have hdrop (k : Nat) : (skip (s.drop k)).length ≤ s.length := by
    refine (skip_length_le _).trans ?_
    rw [length_drop]
    omega
  unfold tokenAt
  split
  · rename_i h2
    split
    · exact hdrop 2
    · split
      · exact hdrop 1
      · exact wordAt_length (by rw [h2]; decide)
  · split
    · exact skip_length_le s
    · split
      · split
        · exact hdrop 1
        · exact skip_length_le s
      · split
        · exact skip_length_le s
        · exact wordAt_length (isWord_of hc ‹_› ‹_› ‹_›)

/-- There is no token left, or the next one starts with a character that is not a blank. -/
lemma nextToken_cases (s : List UInt8) :
    (skip s = [] ∧ nextToken s = (none, [])) ∨ ∃ c s', skip s = c :: s' ∧ c ∉ whitespace ∧
      nextToken s = (some (tokenAt c s').1, (tokenAt c s').2) := by
  cases h : skip s with
  | nil => exact .inl ⟨rfl, by rw [nextToken, h]⟩
  | cons c s' => exact .inr ⟨c, s', rfl, not_mem_of_skip h, by rw [nextToken, h]⟩

variable {ts : List Token} {t : Token}

lemma nextToken_length (h : (nextToken s).1 = some t) : (nextToken s).2.length < s.length := by
  rcases nextToken_cases s with ⟨-, e⟩ | ⟨c, s', hs, hc, e⟩
  · rw [e] at h
    cases h
  · rw [e]
    have h1 : (tokenAt c s').2.length ≤ s'.length := tokenAt_length hc
    have h2 := skip_length_le s
    rw [hs, length_cons] at h2
    exact Nat.lt_of_le_of_lt h1 h2

/-- All tokens that the parser finds. -/
def lex (s : List UInt8) : List Token :=
  match _h : (nextToken s).1 with
  | none => []
  | some t => t :: lex (nextToken s).2
termination_by s.length
decreasing_by exact nextToken_length _h

lemma lex_none (h : (nextToken s).1 = none) : lex s = [] := by
  rw [lex]
  split
  · rfl
  · rename_i h'
    rw [h] at h'
    cases h'

lemma lex_some (h : (nextToken s).1 = some t) : lex s = t :: lex (nextToken s).2 := by
  rw [lex]
  split
  · rename_i h'
    rw [h] at h'
    cases h'
  · rename_i h'
    rw [h] at h'
    cases h'
    rfl

lemma lex_skip (s : List UInt8) : lex (skip s) = lex s := by
  cases h : (nextToken s).1 with
  | none => rw [lex_none h, lex_none (by rw [nextToken_skip, h])]
  | some t =>
    have h' : (nextToken (skip s)).1 = some t := by rw [nextToken_skip, h]
    rw [lex_some h, lex_some h', nextToken_skip]

lemma head_lex (s : List UInt8) : (lex s).head? = (nextToken s).1 := by
  cases h : (nextToken s).1 with
  | none => rw [lex_none h]; rfl
  | some t => rw [lex_some h]; rfl

lemma lex_of_cons (h : lex s = t :: ts) : (nextToken s).1 = some t ∧ lex (nextToken s).2 = ts := by
  have hhead : (nextToken s).1 = some t := by rw [← head_lex, h]; rfl
  rw [lex_some hhead] at h
  exact ⟨hhead, (List.cons.inj h).2⟩

@[simp] lemma wp_gettoken {Q : Option Token → List UInt8 → Prop} :
    wp gettoken Q E s ↔ Q (nextToken s).1 (nextToken s).2 := Iff.rfl

@[simp] lemma wp_peek {toks : List UInt8} {Q : Bool → List UInt8 → Prop} :
    wp (peek toks) Q E s ↔ Q ((skip s).head?.any (· ∈ toks)) (skip s) := Iff.rfl

/-! ### What `peek` says about the next token -/

lemma tokenAt_sym : (tokenAt c s).1 = .sym y ↔ c = y.byte := by
  constructor
  · intro h
    unfold tokenAt at h
    split at h
    · split at h
      · cases h
      · split at h <;> cases h
    · split at h
      · cases h
      · split at h
        · split at h <;> cases h
        · split at h
          · rename_i hy
            cases h
            exact byte_of_ofByte hy
          · cases h
  · rintro rfl
    cases y <;> rfl

lemma tokenAt_op (h : (tokenAt c s).1 = .op o) : c ∈ [60, 62, (50 : UInt8)] := by
  unfold tokenAt at h
  split at h
  · simp [*]
  · split at h
    · simp [*]
    · split at h
      · simp [*]
      · split at h <;> cases h

lemma peek_syms (ys : List Sym) (s : List UInt8) :
    (skip s).head?.any (· ∈ ys.map byte) = true ↔ ∃ y ∈ ys, (lex s).head? = some (.sym y) := by
  rw [head_lex]
  rcases nextToken_cases s with ⟨hs, e⟩ | ⟨c, s', hs, -, e⟩
  · rw [hs, e]
    simp
  · rw [hs, e]
    simp only [head?_cons, Option.any_some, decide_eq_true_eq, mem_map, Option.some.injEq, tokenAt_sym]
    exact exists_congr fun y => and_congr_right fun _ => eq_comm

lemma peek_sym (y : Sym) (s : List UInt8) :
    (skip s).head?.any (· ∈ [y.byte]) = true ↔ (lex s).head? = some (.sym y) := by
  have h := peek_syms [y] s
  simpa using h

/-- The next token is not the start of a redirection. -/
def NoOp (ts : List Token) : Prop := ∀ o, ts.head? ≠ some (.op o)

lemma noOp_of_peek (h : (skip s).head?.any (· ∈ [60, 62, (50 : UInt8)]) = false) : NoOp (lex s) := by
  intro o ho
  rw [head_lex] at ho
  rcases nextToken_cases s with ⟨-, e⟩ | ⟨c, s', hs, -, e⟩
  · rw [e] at ho
    cases ho
  · rw [e] at ho
    rw [hs] at h
    have hc : c ∈ [60, 62, (50 : UInt8)] := tokenAt_op (Option.some.inj ho)
    simp only [head?_cons, Option.any_some, decide_eq_false_iff_not] at h
    exact h hc

lemma peek_op (h : (lex s).head? = some (.op o)) : (skip s).head?.any (· ∈ [60, 62, (50 : UInt8)]) = true := by
  by_contra hno
  exact noOp_of_peek (by simpa using hno) o h

/-! ### The tokens of a line -/

lemma lex_cons (hc : c ∉ whitespace) (ht : tokenAt c s = (t, skip s')) : lex (c :: s) = t :: lex s' := by
  have hnext : nextToken (c :: s) = (some t, skip s') := by
    rw [nextToken, skip_cons_of_not_mem hc]
    dsimp only
    rw [ht]
  rw [lex_some (by rw [hnext]), hnext, lex_skip]

lemma tokenAt_word (hc : isWord c = true) (h2 : (c :: s).take 2 ≠ [50, 62]) :
    tokenAt c s = wordAt (c :: s) := by
  obtain ⟨-, hsym⟩ := isWord_iff.mp hc
  rw [mem_symbols_iff, not_or, not_or] at hsym
  have hnone : ofByte c = none := by
    cases h : ofByte c with
    | none => rfl
    | some y => exact absurd ⟨y, byte_of_ofByte h⟩ hsym.2.2
  unfold tokenAt
  split
  · rename_i h50
    have h1 : s.take 1 ≠ [62] := fun e => h2 (by rw [h50, take_succ_cons, e])
    have h3 : s.take 2 ≠ [62, 62] := by
      intro e
      have : (s.take 2).take 1 = [62] := by rw [e]; rfl
      rw [take_take] at this
      exact h1 this
    rw [if_neg h3, if_neg h1]
  · rw [if_neg hsym.1, if_neg hsym.2.1, hnone]

lemma wordAt_append {w : List UInt8} (hword : ∀ c ∈ w, isWord c = true)
    (hs : ∀ c, s.head? = some c → isWord c = false) :
    wordAt (w ++ s) = (.word ⟨(w ++ s).length, s.length⟩, skip s) := by
  have hdrop : (w ++ s).dropWhile isWord = s := by
    rw [dropWhile_append_of_pos hword]
    cases s with
    | nil => rfl
    | cons c s => exact dropWhile_cons_of_neg (by rw [hs c rfl]; exact Bool.false_ne_true)
  rw [wordAt, hdrop]

lemma Lexes.eq (h : Lexes s ts) : ts = lex s := by
  induction h with
  | nil => exact (lex_none rfl).symm
  | space hc _ ih => rw [ih, ← lex_skip (_ :: _), skip_cons_of_mem hc, lex_skip]
  | sym y _ ih =>
    have hy : y.byte ∉ whitespace := by cases y <;> decide
    rw [ih]
    refine (lex_cons hy ?_).symm
    cases y <;> rfl
  | lt _ ih | gtgt _ ih | gtgt2 _ ih => rw [ih]; exact (lex_cons (by decide) rfl).symm
  | gt hs _ ih =>
    rw [ih]
    refine (lex_cons (by decide) ?_).symm
    rw [tokenAt, if_neg (by decide), if_neg (by decide), if_pos rfl, if_neg hs]
  | gt2 hs _ ih =>
    rw [ih]
    refine (lex_cons (by decide) ?_).symm
    rw [tokenAt, if_pos rfl, if_neg fun e => hs ?_]
    · exact if_pos rfl
    · rw [take_succ_cons] at e
      exact (List.cons.inj e).2
  | @word w s ts hw hword hs h2 _ ih =>
    rw [ih]
    obtain ⟨a, w, rfl⟩ := exists_cons_of_ne_nil hw
    have ha := hword a mem_cons_self
    refine (lex_cons (isWord_iff.mp ha).1 ?_).symm
    rw [tokenAt_word ha h2]
    exact wordAt_append hword hs

lemma lexes_of_skip (h : Lexes (skip s) ts) : Lexes s ts := by
  induction s with
  | nil => exact h
  | cons a s ih =>
    by_cases ha : a ∈ whitespace
    · rw [skip_cons_of_mem ha] at h
      exact .space ha (ih h)
    · rwa [skip_cons_of_not_mem ha] at h

lemma eq_cons_of_take {x : UInt8} {k : Nat} {xs : List UInt8} (h : s.take (k + 1) = x :: xs) :
    ∃ s', s = x :: s' ∧ s'.take k = xs := by
  cases s with
  | nil => cases h
  | cons a s =>
    rw [take_succ_cons] at h
    obtain ⟨rfl, ht⟩ := List.cons.inj h
    exact ⟨s, rfl, ht⟩

/-- A token at the start of a line, if what is left lexes. -/
lemma lexes_tokenAt (hc : c ∉ whitespace) (ih : ∀ x : List UInt8, x.length ≤ s.length → Lexes x (lex (skip x))) :
    Lexes (c :: s) ((tokenAt c s).1 :: lex (tokenAt c s).2) := by
  have hword (hw : isWord c = true) (h2 : (c :: s).take 2 ≠ [50, 62]) :
      Lexes (c :: s) ((wordAt (c :: s)).1 :: lex (wordAt (c :: s)).2) := by
    have hsplit := (takeWhile_append_dropWhile (p := isWord) (l := c :: s)).symm
    have hne : (c :: s).takeWhile isWord ≠ [] := by
      rw [takeWhile_cons_of_pos hw]
      exact cons_ne_nil _ _
    have hlen : ((c :: s).dropWhile isWord).length ≤ s.length := by
      rw [dropWhile_cons_of_pos hw]
      exact (dropWhile_suffix _).length_le
    have h := Lexes.word hne (fun a ha => all_eq_true.mp all_takeWhile a ha)
      (fun a ha => head?_dropWhile_not isWord (c :: s) |> fun h => by simpa [ha] using h)
      (by rwa [← hsplit]) (ih _ hlen)
    rwa [← hsplit] at h
  unfold tokenAt
  split
  · rename_i h50
    subst h50
    split
    · rename_i ht
      obtain ⟨s1, rfl, ht1⟩ := eq_cons_of_take ht
      obtain ⟨s2, rfl, -⟩ := eq_cons_of_take ht1
      exact .gtgt2 (ih s2 (by simp only [length_cons]; omega))
    · rename_i hno
      split
      · rename_i ht
        obtain ⟨s1, rfl, -⟩ := eq_cons_of_take ht
        refine .gt2 (fun e => hno ?_) (ih s1 (by simp only [length_cons]; omega))
        rw [take_succ_cons, e]
      · rename_i hno1
        refine hword (by decide) fun e => hno1 ?_
        rw [take_succ_cons] at e
        exact (List.cons.inj e).2
  · rename_i h50
    have h2 : (c :: s).take 2 ≠ [50, 62] := by
      intro e
      rw [take_succ_cons] at e
      exact h50 (List.cons.inj e).1
    split
    · rename_i h60
      subst h60
      exact .lt (ih s le_rfl)
    · split
      · rename_i h62
        subst h62
        split
        · rename_i ht
          obtain ⟨s1, rfl, -⟩ := eq_cons_of_take ht
          exact .gtgt (ih s1 (by simp only [length_cons]; omega))
        · rename_i hno
          exact .gt hno (ih s le_rfl)
      · split
        · rename_i y hy
          obtain rfl := byte_of_ofByte hy
          exact .sym y (ih s le_rfl)
        · exact hword (isWord_of hc ‹_› ‹_› ‹_›) h2

/-- Every line has tokens, those that the parser finds. -/
lemma lexes_lex (s : List UInt8) : Lexes s (lex s) := by
  induction hn : s.length using Nat.strong_induction_on generalizing s with
  | _ n ih =>
    subst hn
    refine lexes_of_skip ?_
    rcases nextToken_cases s with ⟨hs, e⟩ | ⟨c, s', hs, hc, e⟩
    · rw [hs, lex_none (by rw [e])]
      exact .nil
    · have hlen := skip_length_le s
      rw [hs, length_cons] at hlen
      rw [hs, lex_some (by rw [e]), e]
      refine lexes_tokenAt hc fun x hx => ?_
      rw [lex_skip]
      exact ih _ (by omega) x rfl

end

end FypOs.Sh
