import FypOs.Lib.Prog
import FypOs.Sh.Cmd

/-!
# Sh — the parser

The recursive descent parser of `user/sh.c`.  Its functions share a cursor, `*ps`, which is what is left of the
line; a pointer into the line is its distance to the end, `es`.

A recursion or a loop that has used up its fuel waits for ever; `parse_sound` in `Sh/Grammar` says that this does
not happen.
-/

namespace FypOs.Sh

open Lib

def MAXARGS : Nat := 10

/-- Blank, tab, carriage return, newline and vertical tab. -/
def whitespace : List UInt8 := [32, 9, 13, 10, 11]

/-- The characters `<|>&;()`. -/
def symbols : List UInt8 := [60, 124, 62, 38, 59, 40, 41]

/-- The characters that words are made of. -/
def isWord (c : UInt8) : Bool := c ∉ whitespace ∧ c ∉ symbols

/-- A counted string in the line. -/
structure Span where
  q : Nat
  eq : Nat
  deriving DecidableEq

/-- The operators of redirections: `<`, `>`, `>>`, `2>` and `2>>`. -/
inductive Op where
  | lt
  | gt
  | gtgt
  | gt2
  | gtgt2
  deriving DecidableEq

/-- The symbols `|`, `(`, `)`, `;` and `&`. -/
inductive Sym where
  | bar
  | lpar
  | rpar
  | semi
  | amp
  deriving DecidableEq

inductive Token where
  | word (sp : Span)
  | op (o : Op)
  | sym (y : Sym)
  deriving DecidableEq

def Sym.byte : Sym → UInt8
  | bar => 124
  | lpar => 40
  | rpar => 41
  | semi => 59
  | amp => 38

def Sym.ofByte (c : UInt8) : Option Sym :=
  if c = 124 then some bar
  else if c = 40 then some lpar
  else if c = 41 then some rpar
  else if c = 59 then some semi
  else if c = 38 then some amp
  else none

def O_RDONLY : UInt32 := 0x000
def O_WRONLY : UInt32 := 0x001
def O_CREATE : UInt32 := 0x200
def O_TRUNC : UInt32 := 0x400

def Op.mode : Op → UInt32
  | lt => O_RDONLY
  | gt | gt2 => O_WRONLY ||| O_CREATE ||| O_TRUNC
  | gtgt | gtgt2 => O_WRONLY ||| O_CREATE

def Op.fd : Op → Fin 3
  | lt => stdin
  | gt | gtgt => stdout
  | gt2 | gtgt2 => stderr

/-! ### Tokens -/

def skip (s : List UInt8) : List UInt8 := s.dropWhile (· ∈ whitespace)

/-- The word at the start of `s`, and what is left. -/
def wordAt (s : List UInt8) : Token × List UInt8 :=
  let e := s.dropWhile isWord
  (.word ⟨s.length, e.length⟩, skip e)

/-- The token at the start of `s`, which is not a blank, and what is left. -/
def tokenAt (c : UInt8) (s : List UInt8) : Token × List UInt8 :=
  if c = 50 then
    if s.take 2 = [62, 62] then (.op .gtgt2, skip (s.drop 2))
    else if s.take 1 = [62] then (.op .gt2, skip (s.drop 1))
    else wordAt (c :: s)
  else if c = 60 then (.op .lt, skip s)
  else if c = 62 then
    if s.take 1 = [62] then (.op .gtgt, skip (s.drop 1)) else (.op .gt, skip s)
  else
    match Sym.ofByte c with
    | some y => (.sym y, skip s)
    | none => wordAt (c :: s)

/-- The next token, if there is one, and what is left. -/
def nextToken (s : List UInt8) : Option Token × List UInt8 :=
  match skip s with
  | [] => (none, [])
  | c :: s =>
    let r := tokenAt c s
    (some r.1, r.2)

/-- Programs that move the cursor. -/
abbrev Parser (α : Type) : Type := Prog (List UInt8) α

def gettoken : Parser (Option Token) := fun s => .ok (nextToken s)

def peek (toks : List UInt8) : Parser Bool := do
  .modify skip
  .reads fun s => s.head?.any (· ∈ toks)

/-! ### Commands -/

/-- Add a word to the simple command that redirections have been put around. -/
def addArg (a : Span) : Cmd Span → Cmd Span
  | .exec argv => .exec (argv ++ [a])
  | .redir c file mode fd => .redir (addArg a c) file mode fd
  | c => c

def parseredirs : Nat → Cmd Span → Parser (Cmd Span)
  | 0, _ => .block
  | fuel + 1, cmd => do
    if ← peek [60, 62, 50] then
      let save ← .reads id
      match ← gettoken with
      | some (.op o) =>
        match ← gettoken with
        | some (.word sp) => parseredirs fuel (.redir cmd sp o.mode o.fd)
        | _ => .panic "missing file for redirection"
      | _ => do
        -- a word that starts with 2
        .modify fun _ => save
        pure cmd
    else pure cmd

/-- The loop of `parseexec`, after `argc` words. -/
def parseargs : Nat → Nat → Cmd Span → Parser (Cmd Span)
  | 0, _, _ => .block
  | fuel + 1, argc, ret => do
    if ← peek [124, 41, 38, 59] then pure ret
    else
      match ← gettoken with
      | none => pure ret
      | some (.word sp) =>
        if argc + 1 ≥ MAXARGS then .panic "too many args"
        else do
          let ret ← parseredirs (fuel + 1) (addArg sp ret)
          parseargs fuel (argc + 1) ret
      | some _ => .panic "syntax"

/-- The loop of `parseline`. -/
def parseamps : Nat → Cmd Span → Parser (Cmd Span)
  | 0, _ => .block
  | fuel + 1, cmd => do
    if ← peek [38] then do
      let _ ← gettoken
      parseamps fuel (.back cmd)
    else pure cmd

mutual

def parseline : Nat → Parser (Cmd Span)
  | 0 => .block
  | fuel + 1 => do
    let cmd ← parsepipe fuel
    let cmd ← parseamps (fuel + 1) cmd
    if ← peek [59] then do
      let _ ← gettoken
      let right ← parseline fuel
      pure (.list cmd right)
    else pure cmd

def parsepipe : Nat → Parser (Cmd Span)
  | 0 => .block
  | fuel + 1 => do
    let cmd ← parseexec fuel
    if ← peek [124] then do
      let _ ← gettoken
      let right ← parsepipe fuel
      pure (.pipe cmd right)
    else pure cmd

def parseexec : Nat → Parser (Cmd Span)
  | 0 => .block
  | fuel + 1 => do
    if ← peek [40] then parseblock fuel
    else do
      let ret ← parseredirs (fuel + 1) (.exec [])
      parseargs (fuel + 1) 0 ret

def parseblock : Nat → Parser (Cmd Span)
  | 0 => .block
  | fuel + 1 => do
    if ← peek [40] then do
      let _ ← gettoken
      let cmd ← parseline fuel
      if ← peek [41] then do
        let _ ← gettoken
        parseredirs (fuel + 1) cmd
      else .panic "syntax - missing )"
    else .panic "parseblock"

end

/-- The fuel for a line of length `n`. -/
def parseFuel (n : Nat) : Nat := 4 * n + 4

def parse : Parser (Cmd Span) := do
  let s ← .reads id
  let cmd ← parseline (parseFuel s.length)
  let _ ← peek []
  let s ← .reads id
  if s ≠ [] then .panic "syntax" else pure cmd

/-! ### Terminating the strings -/

/-- The character of a line of length `n` that a pointer is at. -/
def place (n p : Nat) : Nat := n - p

/-- NUL-terminate the counted strings, in the line of length `n` that `buf` holds. -/
def nulterminate (n : Nat) : Cmd Span → List UInt8 → List UInt8
  | .exec argv, buf => argv.foldl (fun buf sp => buf.set (place n sp.eq) 0) buf
  | .redir c file _ _, buf => (nulterminate n c buf).set (place n file.eq) 0
  | .pipe l r, buf => nulterminate n r (nulterminate n l buf)
  | .list l r, buf => nulterminate n r (nulterminate n l buf)
  | .back c, buf => nulterminate n c buf

/-- The string at a pointer. -/
def cstring (n : Nat) (buf : List UInt8) (p : Nat) : List UInt8 := (buf.drop (place n p)).takeWhile (· ≠ 0)

/-- The tree of a line, with the strings that its pointers are at when the line has been changed. -/
def parsecmd (line : List UInt8) : Outcome Command :=
  match parse line with
  | .ok (cmd, _) =>
    let buf := nulterminate line.length cmd (line ++ [0])
    .ok (cmd.map fun sp => cstring line.length buf sp.q)
  | .panic msg => .panic msg
  | .blocked => .blocked

end FypOs.Sh
