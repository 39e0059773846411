import FypOs.Sh.Lex

/-!
# Sh — the grammar

The commands that sequences of tokens denote, `Derives`.

* `parse_sound`: what the parser returns is denoted by the tokens of the line; it does not run out of fuel.
* `parse_complete`: it finds what the tokens denote.
-/

namespace FypOs.Sh

open Lib Prog List Sh.Sym

/-! ### The grammar -/

abbrev Redir : Type := Op × Span

def redirToks (rs : List Redir) : List Token := rs.flatMap fun r => [.op r.1, .word r.2]

/-- A command with redirections around it, the first one innermost. -/
def wrap (c : Cmd Span) (rs : List Redir) : Cmd Span :=
  rs.foldl (fun c r => .redir c r.2 r.1.mode r.1.fd) c

/-- A word of a simple command and the redirections behind it. -/
abbrev Arg : Type := Span × List Redir

def argToks (args : List Arg) : List Token := args.flatMap fun a => .word a.1 :: redirToks a.2

def amps (k : Nat) : List Token := List.replicate k (.sym .amp)

def backs : Nat → Cmd Span → Cmd Span
  | 0, c => c
  | k + 1, c => backs k (.back c)

inductive Nonterminal where
  | line
  | pipe
  | exec
  deriving DecidableEq

/-- The commands that sequences of tokens denote. -/
inductive Derives : Nonterminal → List Token → Cmd Span → Prop where
  /-- `line := pipe '&'*`. -/
  | line {ts c} (k : Nat) (h : Derives .pipe ts c) : Derives .line (ts ++ amps k) (backs k c)
  /-- `line := pipe '&'* ';' line`. -/
  | seq {ts c ts' c'} (k : Nat) (h : Derives .pipe ts c) (h' : Derives .line ts' c') :
      Derives .line (ts ++ amps k ++ .sym .semi :: ts') (.list (backs k c) c')
  /-- `pipe := exec`. -/
  | pipe {ts c} (h : Derives .exec ts c) : Derives .pipe ts c
  /-- `pipe := exec '|' pipe`. -/
  | bar {ts c ts' c'} (h : Derives .exec ts c) (h' : Derives .pipe ts' c') :
      Derives .pipe (ts ++ .sym .bar :: ts') (.pipe c c')
  /-- `exec := '(' line ')' redir*`. -/
  | block {ts c} (rs : List Redir) (h : Derives .line ts c) :
      Derives .exec (.sym .lpar :: (ts ++ .sym .rpar :: redirToks rs)) (wrap c rs)
  /-- `exec := redir* (word redir*)*`. -/
  | simple (rs : List Redir) (args : List Arg) (h : args.length ≤ MAXARGS - 1) :
      Derives .exec (redirToks rs ++ argToks args)
        (wrap (.exec (args.map Prod.fst)) (rs ++ args.flatMap Prod.snd))

section

variable {s s' : List UInt8} {c : UInt8} {E : Stop → Prop}

/-! ### Loops -/

lemma redirToks_cons (r : Redir) (rs : List Redir) :
    redirToks (r :: rs) = .op r.1 :: .word r.2 :: redirToks rs := rfl

lemma wrap_cons (cmd : Cmd Span) (r : Redir) (rs : List Redir) :
    wrap cmd (r :: rs) = wrap (.redir cmd r.2 r.1.mode r.1.fd) rs := rfl

/-- Not for want of fuel. -/
def Stopped (e : Stop) : Prop := e ≠ .blocked

variable {rest : List Token} {ts : List Token} {cmd : Cmd Span} {n : Nat} {args : List Arg}
  {y : Sym} {ys : List Sym} {ret : Cmd Span}

lemma parseredirs_sound (hn : s.length < n) : wp (parseredirs n cmd) (fun c s' => s'.length ≤ s.length ∧
      ∃ rs, lex s = redirToks rs ++ lex s' ∧ c = wrap cmd rs) Stopped s := by
  induction n generalizing s cmd with
  | zero => omega
  | succ n ih =>
    have hstay : (skip s).length ≤ s.length ∧ ∃ rs, lex s = redirToks rs ++ lex (skip s) ∧ cmd = wrap cmd rs :=
      ⟨skip_length_le s, [], (lex_skip s).symm, rfl⟩
    rw [parseredirs, wp_bind, wp_peek]
    refine wp_ite (fun _ => ?_) fun _ => hstay
    rw [wp_bind, wp_reads, wp_bind, wp_gettoken, nextToken_skip]
    cases h1 : (nextToken s).1 with
    | none => exact hstay
    | some t =>
      cases t with
      | word sp => exact hstay
      | sym y => exact hstay
      | op o =>
        dsimp only
        rw [wp_bind, wp_gettoken]
        cases h2 : (nextToken (nextToken s).2).1 with
        | none => exact fun e => by cases e
        | some t =>
          cases t with
          | op o | sym y => exact fun e => by cases e
          | word sp =>
            have hl1 := nextToken_length h1
            have hl2 := nextToken_length h2
            refine (ih (by omega)).post fun c s' h => ?_
            obtain ⟨hle, rs, hlex, hc⟩ := h
            refine ⟨by omega, (o, sp) :: rs, ?_, hc⟩
            rw [lex_some h1, lex_some h2, hlex]
            rfl

lemma parseredirs_complete {rs : List Redir}
    (hlex : lex s = redirToks rs ++ rest) (hrest : NoOp rest) (hn : s.length < n) :
    wp (parseredirs n cmd) (fun c s' => c = wrap cmd rs ∧ lex s' = rest) (fun _ => False) s := by
  induction n generalizing s cmd rs with
  | zero => omega
  | succ n ih =>
    rw [parseredirs, wp_bind, wp_peek]
    cases rs with
    | nil =>
      have hstay : cmd = wrap cmd [] ∧ lex (skip s) = rest := ⟨rfl, by rw [lex_skip, hlex]; rfl⟩
      refine wp_ite (fun _ => ?_) fun _ => hstay
      rw [wp_bind, wp_reads, wp_bind, wp_gettoken, nextToken_skip]
      cases h1 : (nextToken s).1 with
      | none => exact hstay
      | some t =>
        cases t with
        | word sp => exact hstay
        | sym y => exact hstay
        | op o =>
          refine absurd ?_ (hrest o)
          rw [show rest = lex s from hlex.symm, head_lex, h1]
    | cons r rs =>
      rw [redirToks_cons] at hlex
      obtain ⟨h1, hlex1⟩ := lex_of_cons hlex
      obtain ⟨h2, hlex2⟩ := lex_of_cons hlex1
      have hpeek : (skip s).head?.any (· ∈ [60, 62, (50 : UInt8)]) = true :=
        peek_op (by rw [head_lex, h1])
      rw [if_pos hpeek, wp_bind, wp_reads, wp_bind, wp_gettoken, nextToken_skip, h1]
      dsimp only
      rw [wp_bind, wp_gettoken, h2]
      have hl1 := nextToken_length h1
      have hl2 := nextToken_length h2
      exact ih hlex2 (by omega)

lemma addArg_wrap (a : Span) (cmd : Cmd Span) (rs : List Redir) :
    addArg a (wrap cmd rs) = wrap (addArg a cmd) rs := by
  induction rs generalizing cmd with
  | nil => rfl
  | cons r rs ih => exact ih _

lemma wrap_append (cmd : Cmd Span) (rs rs' : List Redir) : wrap cmd (rs ++ rs') = wrap (wrap cmd rs) rs' :=
  foldl_append

/-- A simple command as the parser builds it. -/
def addArgs (ret : Cmd Span) (args : List Arg) : Cmd Span :=
  args.foldl (fun ret a => wrap (addArg a.1 ret) a.2) ret

lemma addArgs_wrap (argv : List Span) (rs : List Redir) (args : List Arg) :
    addArgs (wrap (.exec argv) rs) args =
      wrap (.exec (argv ++ args.map Prod.fst)) (rs ++ args.flatMap Prod.snd) := by
  induction args generalizing argv rs with
  | nil => simp [addArgs]
  | cons a args ih =>
    have hstep : addArgs (wrap (.exec argv) rs) (a :: args) =
        addArgs (wrap (.exec (argv ++ [a.1])) (rs ++ a.2)) args := by
      rw [wrap_append, ← show addArg a.1 (.exec argv) = .exec (argv ++ [a.1]) from rfl, ← addArg_wrap]
      rfl
    rw [hstep, ih, append_assoc, append_assoc]
    rfl

lemma parseargs_sound {n argc : Nat} (hn : s.length < n) (hargc : argc < MAXARGS) :
    wp (parseargs n argc ret) (fun c s' => s'.length ≤ s.length ∧ ∃ args, lex s = argToks args ++ lex s' ∧
      c = addArgs ret args ∧ argc + args.length < MAXARGS) Stopped s := by
  induction n generalizing s argc ret with
  | zero => omega
  | succ n ih =>
    rw [parseargs, wp_bind, wp_peek]
    refine wp_ite (fun _ => ⟨skip_length_le s, [], (lex_skip s).symm, rfl, hargc⟩) fun _ => ?_
    rw [wp_bind, wp_gettoken, nextToken_skip]
    cases h1 : (nextToken s).1 with
    | none =>
      have hend : (nextToken s).2 = [] := by
        rcases nextToken_cases s with ⟨-, e⟩ | ⟨c, s', -, -, e⟩
        · rw [e]
        · rw [e] at h1
          cases h1
      refine ⟨by rw [hend]; exact Nat.zero_le _, [], ?_, rfl, hargc⟩
      rw [hend, lex_none h1]
      exact (lex_none rfl).symm
    | some t =>
      cases t with
      | op o | sym y => exact fun e => by cases e
      | word sp =>
        refine wp_ite (fun _ e => by cases e) fun hlt => ?_
        have hl1 := nextToken_length h1
        rw [wp_bind]
        refine (parseredirs_sound (by omega)).post fun ret1 s1 hs1 => ?_
        obtain ⟨hle, rs, hlex, rfl⟩ := hs1
        refine (ih (by omega) (by omega)).post fun c s2 hs2 => ?_
        obtain ⟨hle2, args, hlex2, hc, hlen⟩ := hs2
        refine ⟨by omega, (sp, rs) :: args, ?_, hc, by rw [length_cons]; omega⟩
        rw [lex_some h1, hlex, hlex2, ← append_assoc]
        rfl

/-- What follows is nothing, or one of some symbols. -/
def Follows (ys : List Sym) (rest : List Token) : Prop :=
  ∀ t, rest.head? = some t → ∃ y ∈ ys, t = .sym y

lemma Follows.mono {ys ys' : List Sym} (h : Follows ys rest) (hsub : ys ⊆ ys') : Follows ys' rest := by
  intro t ht
  obtain ⟨y, hy, rfl⟩ := h t ht
  exact ⟨y, hsub hy, rfl⟩

lemma Follows.noOp (h : Follows ys rest) : NoOp rest := by
  intro o ho
  obtain ⟨y, -, e⟩ := h _ ho
  cases e

lemma Follows.not_sym (h : Follows ys rest) (hy : y ∉ ys) : rest.head? ≠ some (.sym y) := by
  intro e
  obtain ⟨y', hy', e'⟩ := h _ e
  cases e'
  exact hy hy'

lemma follows_cons (rest : List Token) (hy : y ∈ ys) : Follows ys (.sym y :: rest) := by
  intro t ht
  cases ht
  exact ⟨y, hy, rfl⟩

/-- The symbols that may follow a simple command. -/
def afterExec : List Sym := [.bar, .rpar, .amp, .semi]

def afterPipe : List Sym := [.rpar, .amp, .semi]

def afterLine : List Sym := [.rpar]

lemma noOp_argToks (h : NoOp rest) : NoOp (argToks args ++ rest) := by
  cases args with
  | nil => exact h
  | cons a args => exact fun o e => by cases e

lemma parseargs_complete {n argc : Nat}
    (hlex : lex s = argToks args ++ rest) (hrest : Follows afterExec rest) (hn : s.length < n)
    (hargc : argc + args.length < MAXARGS) :
    wp (parseargs n argc ret) (fun c s' => c = addArgs ret args ∧ lex s' = rest) (fun _ => False) s := by
  have hpeeks := peek_syms afterExec s
  induction n generalizing s argc ret args with
  | zero => omega
  | succ n ih =>
    rw [parseargs, wp_bind, wp_peek]
    cases args with
    | nil =>
      refine wp_ite (fun _ => ⟨rfl, by rw [lex_skip, hlex]; rfl⟩) fun hno => ?_
      -- no symbol follows, so nothing does
      have hnone : (nextToken s).1 = none := by
        cases h : (nextToken s).1 with
        | none => rfl
        | some t =>
          have hhead : (lex s).head? = some t := by rw [head_lex, h]
          obtain ⟨y, hy, rfl⟩ := hrest t (by rw [← hhead, hlex]; rfl)
          exact absurd (hpeeks.mpr ⟨y, hy, hhead⟩) hno
      rw [wp_bind, wp_gettoken, nextToken_skip, hnone]
      have hend : (nextToken s).2 = [] := by
        rcases nextToken_cases s with ⟨-, e⟩ | ⟨c, s', -, -, e⟩
        · rw [e]
        · rw [e] at hnone
          cases hnone
      refine ⟨rfl, ?_⟩
      rw [hend]
      exact (lex_none rfl).trans ((lex_none hnone).symm.trans hlex)
    | cons a args =>
      have htoks : lex s = .word a.1 :: (redirToks a.2 ++ (argToks args ++ rest)) := by
        rw [hlex, ← append_assoc]
        rfl
      obtain ⟨h1, hlex1⟩ := lex_of_cons htoks
      have hno : ¬ (skip s).head?.any (· ∈ afterExec.map byte) = true := by
        rw [hpeeks, head_lex, h1]
        rintro ⟨y, -, e⟩
        cases e
      rw [length_cons] at hargc
      have hl1 := nextToken_length h1
      rw [show [124, 41, 38, 59] = afterExec.map byte from rfl, if_neg hno, wp_bind, wp_gettoken,
        nextToken_skip, h1]
      dsimp only
      rw [if_neg (by omega), wp_bind]
      refine ((parseredirs_complete hlex1 (noOp_argToks hrest.noOp) (by omega)).and
        (parseredirs_sound (by omega))).post fun ret1 s1 hs1 => ?_
      obtain ⟨⟨rfl, hlex2⟩, hle, -⟩ := hs1
      exact ih hlex2 (by omega) (by omega) (peek_syms afterExec s1)

lemma parseamps_sound (hn : s.length < n) :
    wp (parseamps n cmd) (fun c s' => s'.length ≤ s.length ∧ ∃ k, lex s = amps k ++ lex s' ∧ c = backs k cmd)
      Stopped s := by
  induction n generalizing s cmd with
  | zero => omega
  | succ n ih =>
    rw [parseamps, wp_bind, wp_peek]
    refine wp_ite (fun hyes => ?_) fun _ => ⟨skip_length_le s, 0, (lex_skip s).symm, rfl⟩
    have h1 : (nextToken s).1 = some (.sym .amp) := by
      rw [← head_lex]
      exact (peek_sym .amp s).mp hyes
    have hl1 := nextToken_length h1
    rw [wp_bind, wp_gettoken, nextToken_skip]
    refine (ih (by omega)).post fun c s' h => ?_
    obtain ⟨hle, k, hlex, hc⟩ := h
    refine ⟨by omega, k + 1, ?_, hc⟩
    rw [lex_some h1, hlex]
    rfl

lemma parseamps_complete {n k : Nat} (hlex : lex s = amps k ++ rest)
    (hrest : rest.head? ≠ some (.sym .amp)) (hn : s.length < n) :
    wp (parseamps n cmd) (fun c s' => c = backs k cmd ∧ lex s' = rest) (fun _ => False) s := by
  induction n generalizing s cmd k with
  | zero => omega
  | succ n ih =>
    have hpeek := peek_sym .amp s
    rw [parseamps, wp_bind, wp_peek]
    cases k with
    | zero =>
      have hlex' : lex s = rest := hlex
      refine wp_ite (fun hyes => ?_) fun _ => ⟨rfl, by rw [lex_skip, hlex']⟩
      rw [← hlex'] at hrest
      exact absurd (hpeek.mp hyes) hrest
    | succ k =>
      have htoks : lex s = .sym .amp :: (amps k ++ rest) := hlex
      obtain ⟨h1, hlex1⟩ := lex_of_cons htoks
      have hyes := hpeek.mpr (by rw [head_lex, h1])
      have hl1 := nextToken_length h1
      rw [show [38] = [byte .amp] from rfl, if_pos hyes, wp_bind, wp_gettoken, nextToken_skip]
      exact ih hlex1 (by omega)

/-! ### Soundness -/

/-- What a parsing function returns is denoted by the tokens it has read. -/
def Parsed (nt : Nonterminal) (s : List UInt8) (c : Cmd Span) (s' : List UInt8) : Prop :=
  s'.length ≤ s.length ∧ ∃ ts, lex s = ts ++ lex s' ∧ Derives nt ts c

/-- The function for a nonterminal, and the fuel it needs. -/
def parser : Nonterminal → Nat → Parser (Cmd Span)
  | .line => parseline
  | .pipe => parsepipe
  | .exec => parseexec

def fuelFor : Nonterminal → List UInt8 → Nat
  | .line, s => 4 * s.length + 4
  | .pipe, s => 4 * s.length + 3
  | .exec, s => 4 * s.length + 2

/-- A symbol that `peek` has seen is the next token. -/
lemma token_of_peek (h : (skip s).head?.any (· ∈ [y.byte]) = true) :
    (nextToken s).1 = some (.sym y) ∧ (nextToken s).2.length < s.length ∧
      lex s = .sym y :: lex (nextToken s).2 := by
  have h1 : (nextToken s).1 = some (.sym y) := by
    rw [← head_lex]
    exact (peek_sym y s).mp h
  exact ⟨h1, nextToken_length h1, lex_some h1⟩

lemma parseblock_sound (hn : 4 * s.length + 1 ≤ n)
    (ih : ∀ {s : List UInt8} {m : Nat}, m < n → fuelFor .line s ≤ m →
      wp (parseline m) (Parsed .line s) Stopped s) :
    wp (parseblock n) (Parsed .exec s) Stopped s := by
  obtain ⟨m, rfl⟩ := Nat.exists_eq_succ_of_ne_zero (by omega : n ≠ 0)
  rw [parseblock, wp_bind, wp_peek]
  refine wp_ite (fun hyes => ?_) fun _ e => by cases e
  obtain ⟨-, hl1, hlex1⟩ := token_of_peek (y := .lpar) hyes
  rw [wp_bind, wp_gettoken, nextToken_skip, wp_bind]
  refine (ih (Nat.lt_succ_self m) (by rw [fuelFor]; omega)).post fun c s2 h2 => ?_
  obtain ⟨hle2, ts, hlex2, hd⟩ := h2
  rw [wp_bind, wp_peek]
  refine wp_ite (fun hyes => ?_) fun _ e => by cases e
  obtain ⟨-, hl3, hlex3⟩ := token_of_peek (y := .rpar) hyes
  rw [wp_bind, wp_gettoken, nextToken_skip]
  refine (parseredirs_sound (by omega)).post fun c' s4 h4 => ?_
  obtain ⟨hle4, rs, hlex4, rfl⟩ := h4
  refine ⟨by omega, _, ?_, .block rs hd⟩
  rw [hlex1, hlex2, hlex3, hlex4]
  simp

lemma parseexec_sound (hn : fuelFor .exec s ≤ n)
    (ih : ∀ {s : List UInt8} {m : Nat}, m < n → fuelFor .line s ≤ m →
      wp (parseline m) (Parsed .line s) Stopped s) :
    wp (parseexec n) (Parsed .exec s) Stopped s := by
  rw [fuelFor] at hn
  obtain ⟨m, rfl⟩ := Nat.exists_eq_succ_of_ne_zero (by omega : n ≠ 0)
  have hskip := skip_length_le s
  rw [parseexec, wp_bind, wp_peek]
  refine wp_ite (fun _ => ?_) fun _ => ?_
  · refine (parseblock_sound (by omega) fun h hf => ih (by omega) hf).post fun c s' h => ?_
    obtain ⟨hle, ts, hlex, hd⟩ := h
    exact ⟨by omega, ts, by rw [← lex_skip, hlex], hd⟩
  · rw [wp_bind]
    refine (parseredirs_sound (by omega)).post fun c s1 h1 => ?_
    obtain ⟨hle1, rs, hlex1, rfl⟩ := h1
    refine (parseargs_sound (by omega) (by decide)).post fun c s2 h2 => ?_
    obtain ⟨hle2, args, hlex2, rfl, hlen⟩ := h2
    refine ⟨by omega, redirToks rs ++ argToks args, ?_, ?_⟩
    · rw [← lex_skip, hlex1, hlex2, append_assoc]
    · rw [addArgs_wrap, nil_append]
      exact .simple rs args (by omega)

lemma parsepipe_sound (hn : fuelFor .pipe s ≤ n)
    (ih : ∀ {s : List UInt8} {m : Nat}, m < n → fuelFor .line s ≤ m →
      wp (parseline m) (Parsed .line s) Stopped s) :
    wp (parsepipe n) (Parsed .pipe s) Stopped s := by
  induction n generalizing s with
  | zero => rw [fuelFor] at hn; omega
  | succ n ihn =>
    rw [fuelFor] at hn
    rw [parsepipe, wp_bind]
    refine (parseexec_sound (by rw [fuelFor]; omega) fun h hf => ih (by omega) hf).post fun c s1 h1 => ?_
    obtain ⟨hle1, ts, hlex1, hd⟩ := h1
    rw [wp_bind, wp_peek]
    refine wp_ite (fun hyes => ?_) fun _ => ?_
    · obtain ⟨-, hl2, hlex2⟩ := token_of_peek (y := .bar) hyes
      rw [wp_bind, wp_gettoken, nextToken_skip, wp_bind]
      refine (ihn (by rw [fuelFor]; omega) fun h hf => ih (by omega) hf).post fun c' s3 h3 => ?_
      obtain ⟨hle3, ts', hlex3, hd'⟩ := h3
      refine ⟨by omega, _, ?_, .bar hd hd'⟩
      rw [hlex1, hlex2, hlex3]
      simp
    · have hskip := skip_length_le s1
      exact ⟨by omega, ts, by rw [lex_skip, hlex1], .pipe hd⟩

/-- **Soundness.** -/
lemma parseline_sound (hn : fuelFor .line s ≤ n) : wp (parseline n) (Parsed .line s) Stopped s := by
  induction n using Nat.strong_induction_on generalizing s with
  | _ n ih =>
    rw [fuelFor] at hn
    obtain ⟨m, rfl⟩ := Nat.exists_eq_succ_of_ne_zero (by omega : n ≠ 0)
    rw [parseline, wp_bind]
    refine (parsepipe_sound (by rw [fuelFor]; omega) fun h hf => ih _ (by omega) hf).post fun c s1 h1 => ?_
    obtain ⟨hle1, ts, hlex1, hd⟩ := h1
    rw [wp_bind]
    refine (parseamps_sound (by omega)).post fun c s2 h2 => ?_
    obtain ⟨hle2, k, hlex2, rfl⟩ := h2
    rw [wp_bind, wp_peek]
    refine wp_ite (fun hyes => ?_) fun _ => ?_
    · obtain ⟨-, hl3, hlex3⟩ := token_of_peek (y := .semi) hyes
      rw [wp_bind, wp_gettoken, nextToken_skip, wp_bind]
      refine (ih m (by omega) (by rw [fuelFor]; omega)).post fun c' s4 h4 => ?_
      obtain ⟨hle4, ts', hlex4, hd'⟩ := h4
      refine ⟨by omega, _, ?_, .seq k hd hd'⟩
      rw [hlex1, hlex2, hlex3, hlex4]
      simp
    · have hskip := skip_length_le s2
      refine ⟨by omega, _, ?_, .line k hd⟩
      rw [lex_skip, hlex1, hlex2, append_assoc]

/-! ### Completeness -/

/-- The symbols that may follow a nonterminal. -/
def after : Nonterminal → List Sym
  | .line => afterLine
  | .pipe => afterPipe
  | .exec => afterExec

/-- What a parsing function has to do, when the tokens begin with some that denote `c`. -/
def Finds (nt : Nonterminal) (ts : List Token) (c : Cmd Span) : Prop :=
  ∀ (n : Nat) (s : List UInt8) (rest : List Token), lex s = ts ++ rest → Follows (after nt) rest →
    fuelFor nt s ≤ n → wp (parser nt n) (fun c' s' => c' = c ∧ lex s' = rest) (fun _ => False) s

lemma peek_of_lex (h : lex s = .sym y :: ts) :
    (skip s).head?.any (· ∈ [y.byte]) = true ∧ (nextToken s).2.length < s.length ∧ lex (nextToken s).2 = ts := by
  obtain ⟨h1, hlex⟩ := lex_of_cons h
  exact ⟨(peek_sym y s).mpr (by rw [h]; rfl), nextToken_length h1, hlex⟩

lemma not_peek (h : (lex s).head? ≠ some (.sym y)) :
    ¬ (skip s).head?.any (· ∈ [y.byte]) = true := fun hyes => h ((peek_sym y s).mp hyes)

lemma follows_amps {k : Nat} (h : Follows afterPipe rest) : Follows afterPipe (amps k ++ rest) := by
  cases k with
  | zero => exact h
  | succ k => exact follows_cons _ (by decide)

lemma parseline_first {c : Cmd Span} {k n : Nat}
    {Q : Cmd Span → List UInt8 → Prop} (ih : Finds .pipe ts c) (hlex : lex s = ts ++ (amps k ++ rest))
    (hrest : Follows afterPipe rest) (hamp : rest.head? ≠ some (.sym .amp)) (hn : fuelFor .line s ≤ n + 1)
    (hQ : ∀ s2 : List UInt8, s2.length ≤ s.length → lex s2 = rest → wp (do
        if ← peek [59] then do
          let _ ← gettoken
          let right ← parseline n
          pure (.list (backs k c) right)
        else pure (backs k c)) Q (fun _ => False) s2) :
    wp (parseline (n + 1)) Q (fun _ => False) s := by
  rw [fuelFor] at hn
  rw [parseline, wp_bind]
  have hpipe : wp (parsepipe n) (fun c' s' => c' = c ∧ lex s' = amps k ++ rest) (fun _ => False) s :=
    ih n s _ hlex (follows_amps hrest) (by rw [fuelFor]; omega)
  refine (hpipe.and (parsepipe_sound (by rw [fuelFor]; omega) fun _ => parseline_sound)).post fun c1 s1 h1 => ?_
  obtain ⟨⟨rfl, hlex1⟩, hle1, -⟩ := h1
  rw [wp_bind]
  refine ((parseamps_complete hlex1 hamp (by omega)).and (parseamps_sound (by omega))).post fun c2 s2 h2 => ?_
  obtain ⟨⟨rfl, hlex2⟩, hle2, -⟩ := h2
  exact hQ s2 (by omega) hlex2

lemma finds_line {c : Cmd Span} (k : Nat) (ih : Finds .pipe ts c) : Finds .line (ts ++ amps k) (backs k c) := by
  intro n s rest hlex hrest hn
  obtain ⟨n, rfl⟩ := Nat.exists_eq_succ_of_ne_zero (by rw [fuelFor] at hn; omega : n ≠ 0)
  refine parseline_first ih (by rw [hlex, append_assoc]) (hrest.mono (by decide))
    (hrest.not_sym (by decide)) hn fun s2 _ hlex2 => ?_
  have hno : (lex s2).head? ≠ some (.sym .semi) := hlex2 ▸ hrest.not_sym (by decide)
  rw [wp_bind, wp_peek, show [59] = [byte .semi] from rfl, if_neg (not_peek hno)]
  exact ⟨rfl, by rw [lex_skip, hlex2]⟩

lemma finds_seq {ts ts' : List Token} {c c' : Cmd Span} (k : Nat) (ih : Finds .pipe ts c)
    (ih' : Finds .line ts' c') : Finds .line (ts ++ amps k ++ .sym .semi :: ts') (.list (backs k c) c') := by
  intro n s rest hlex hrest hn
  obtain ⟨n, rfl⟩ := Nat.exists_eq_succ_of_ne_zero (by rw [fuelFor] at hn; omega : n ≠ 0)
  have hrest' : Follows afterPipe (.sym .semi :: (ts' ++ rest)) := follows_cons _ (by decide)
  refine parseline_first (k := k) ih (by rw [hlex]; simp) hrest' (fun e => by cases e) hn fun s2 hle2 hlex2 => ?_
  obtain ⟨hyes, hl3, hlex3⟩ := peek_of_lex hlex2
  rw [wp_bind, wp_peek, show [59] = [byte .semi] from rfl, if_pos hyes, wp_bind, wp_gettoken, nextToken_skip,
    wp_bind]
  rw [fuelFor] at hn
  refine (ih' n _ rest hlex3 hrest (by rw [fuelFor]; omega)).post fun c4 s4 h4 => ?_
  obtain ⟨rfl, hlex4⟩ := h4
  exact ⟨rfl, hlex4⟩

lemma finds_pipe {c : Cmd Span} (ih : Finds .exec ts c) : Finds .pipe ts c := by
  intro n s rest hlex hrest hn
  rw [fuelFor] at hn
  obtain ⟨n, rfl⟩ := Nat.exists_eq_succ_of_ne_zero (by omega : n ≠ 0)
  change wp (parsepipe (n + 1)) _ _ s
  rw [parsepipe, wp_bind]
  refine (ih n s rest hlex (hrest.mono (by decide)) (by rw [fuelFor]; omega)).post fun c1 s1 h1 => ?_
  obtain ⟨rfl, hlex1⟩ := h1
  have hno : (lex s1).head? ≠ some (.sym .bar) := hlex1 ▸ hrest.not_sym (by decide)
  rw [wp_bind, wp_peek, show [124] = [byte .bar] from rfl, if_neg (not_peek hno)]
  exact ⟨rfl, by rw [lex_skip, hlex1]⟩

lemma finds_bar {ts ts' : List Token} {c c' : Cmd Span} (ih : Finds .exec ts c) (ih' : Finds .pipe ts' c') :
    Finds .pipe (ts ++ .sym .bar :: ts') (.pipe c c') := by
  intro n s rest hlex hrest hn
  rw [fuelFor] at hn
  obtain ⟨n, rfl⟩ := Nat.exists_eq_succ_of_ne_zero (by omega : n ≠ 0)
  change wp (parsepipe (n + 1)) _ _ s
  rw [parsepipe, wp_bind]
  have hexec : wp (parseexec n) (fun c' s' => c' = c ∧ lex s' = .sym .bar :: (ts' ++ rest)) (fun _ => False) s :=
    ih n s _ (by rw [hlex]; simp) (follows_cons _ (by decide)) (by rw [fuelFor]; omega)
  refine (hexec.and (parseexec_sound (by rw [fuelFor]; omega) fun _ => parseline_sound)).post fun c1 s1 h1 => ?_
  obtain ⟨⟨rfl, hlex1⟩, hle1, -⟩ := h1
  obtain ⟨hyes, hl2, hlex2⟩ := peek_of_lex hlex1
  rw [wp_bind, wp_peek, show [124] = [byte .bar] from rfl, if_pos hyes, wp_bind, wp_gettoken, nextToken_skip,
    wp_bind]
  refine (ih' n _ rest hlex2 hrest (by rw [fuelFor]; omega)).post fun c3 s3 h3 => ?_
  obtain ⟨rfl, hlex3⟩ := h3
  exact ⟨rfl, hlex3⟩

lemma finds_block {c : Cmd Span} (rs : List Redir) (ih : Finds .line ts c) :
    Finds .exec (.sym .lpar :: (ts ++ .sym .rpar :: redirToks rs)) (wrap c rs) := by
  intro n s rest hlex hrest hn
  rw [fuelFor] at hn
  obtain ⟨n, rfl⟩ := Nat.exists_eq_succ_of_ne_zero (by omega : n ≠ 0)
  obtain ⟨n, rfl⟩ := Nat.exists_eq_succ_of_ne_zero (by omega : n ≠ 0)
  obtain ⟨hyes, hl1, hlex1⟩ := peek_of_lex hlex
  change wp (parseexec (n + 1 + 1)) _ _ s
  rw [parseexec, wp_bind, wp_peek, show [40] = [byte .lpar] from rfl, if_pos hyes, parseblock, wp_bind,
    wp_peek, skip_skip, show [40] = [byte .lpar] from rfl, if_pos hyes, wp_bind, wp_gettoken, nextToken_skip,
    wp_bind]
  have hline : wp (parseline n) (fun c' s' => c' = c ∧ lex s' = .sym .rpar :: (redirToks rs ++ rest))
      (fun _ => False) (nextToken s).2 :=
    ih n _ _ (by rw [hlex1]; simp) (follows_cons _ (by decide)) (by rw [fuelFor]; omega)
  refine (hline.and (parseline_sound (by rw [fuelFor]; omega))).post fun c2 s2 h2 => ?_
  obtain ⟨⟨rfl, hlex2⟩, hle2, -⟩ := h2
  obtain ⟨hyes3, hl3, hlex3⟩ := peek_of_lex hlex2
  rw [wp_bind, wp_peek, show [41] = [byte .rpar] from rfl, if_pos hyes3, wp_bind, wp_gettoken, nextToken_skip]
  exact parseredirs_complete hlex3 hrest.noOp (by omega)

lemma finds_simple (rs : List Redir) (h : args.length ≤ MAXARGS - 1) :
    Finds .exec (redirToks rs ++ argToks args)
      (wrap (.exec (args.map Prod.fst)) (rs ++ args.flatMap Prod.snd)) := by
  intro n s rest hlex hrest hn
  rw [fuelFor] at hn
  obtain ⟨n, rfl⟩ := Nat.exists_eq_succ_of_ne_zero (by omega : n ≠ 0)
  have hno : (lex s).head? ≠ some (.sym .lpar) := by
    rw [hlex]
    cases rs with
    | cons r rs => exact fun e => by cases e
    | nil =>
      cases args with
      | cons a args => exact fun e => by cases e
      | nil => exact hrest.not_sym (by decide)
  have hskip := skip_length_le s
  change wp (parseexec (n + 1)) _ _ s
  rw [parseexec, wp_bind, wp_peek, show [40] = [byte .lpar] from rfl, if_neg (not_peek hno), wp_bind]
  rw [append_assoc, ← lex_skip] at hlex
  refine ((parseredirs_complete hlex (noOp_argToks hrest.noOp) (by omega)).and
    (parseredirs_sound (by omega))).post fun c1 s1 h1 => ?_
  obtain ⟨⟨rfl, hlex1⟩, hle1, -⟩ := h1
  have hargs : 0 + args.length < MAXARGS := by
    rw [MAXARGS] at h ⊢
    omega
  refine (parseargs_complete hlex1 hrest (by omega) hargs).post fun c2 s2 h2 => ?_
  obtain ⟨rfl, hlex2⟩ := h2
  exact ⟨by rw [addArgs_wrap, nil_append], hlex2⟩

/-- **Completeness**: one case for each rule of the grammar. -/
lemma Derives.finds {nt : Nonterminal} {c : Cmd Span} (h : Derives nt ts c) : Finds nt ts c := by
  induction h with
  | line k _ ih => exact finds_line k ih
  | seq k _ _ ih ih' => exact finds_seq k ih ih'
  | pipe _ ih => exact finds_pipe ih
  | bar _ _ ih ih' => exact finds_bar ih ih'
  | block rs _ ih => exact finds_block rs ih
  | simple rs args h => exact finds_simple rs h

/-! ### The whole line -/

lemma skip_of_lex (h : lex s = []) : skip s = [] := by
  rcases nextToken_cases s with ⟨hs, -⟩ | ⟨c, s', -, -, e⟩
  · exact hs
  · rw [lex_some (by rw [e])] at h
    cases h

lemma parse_sound (line : List UInt8) : wp parse (fun cmd _ => Derives .line (lex line) cmd) Stopped line := by
  rw [parse, wp_bind, wp_reads, wp_bind]
  refine (parseline_sound le_rfl).post fun cmd s1 h1 => ?_
  obtain ⟨-, ts, hlex, hd⟩ := h1
  rw [wp_bind, wp_peek, wp_bind, wp_reads]
  refine wp_ite (fun _ e => by cases e) fun hend => ?_
  have hnil : lex s1 = [] := by
    rw [← lex_skip, show skip s1 = [] from not_not.mp hend]
    exact lex_none rfl
  have hts : lex line = ts := by
    rw [← append_nil ts, ← hnil]
    exact hlex
  rw [← hts] at hd
  exact hd

lemma parse_complete {line : List UInt8} (h : Derives .line (lex line) cmd) :
    wp parse (fun cmd' _ => cmd' = cmd) (fun _ => False) line := by
  rw [parse, wp_bind, wp_reads, wp_bind]
  refine (h.finds _ line [] (append_nil _).symm (fun t ht => by cases ht) le_rfl).post
    fun cmd' s1 h1 => ?_
  obtain ⟨rfl, hlex⟩ := h1
  rw [wp_bind, wp_peek, wp_bind, wp_reads]
  exact wp_ite (fun h => absurd (skip_of_lex hlex) h) fun _ => rfl

end

end FypOs.Sh
