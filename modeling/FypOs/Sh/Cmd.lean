import FypOs.Lib.Runs
import FypOs.Param

/-!
# Sh — commands

The command trees of `user/sh.c`, over the type of their strings.
-/

namespace FypOs.Sh

open List

/-- The standard descriptors. -/
def stdin : Fin 3 := 0
def stdout : Fin 3 := 1
def stderr : Fin 3 := 2

/-- A parsed command.  A redirection is of one of the three standard descriptors. -/
inductive Cmd (α : Type) where
  | exec (argv : List α)
  | redir (cmd : Cmd α) (file : α) (mode : UInt32) (fd : Fin 3)
  | pipe (left right : Cmd α)
  | list (left right : Cmd α)
  | back (cmd : Cmd α)
  deriving DecidableEq

abbrev Command : Type := Cmd (List UInt8)

namespace Cmd

variable {α β : Type}

def map (f : α → β) : Cmd α → Cmd β
  | exec argv => exec (argv.map f)
  | redir c file mode fd => redir (c.map f) (f file) mode fd
  | pipe l r => pipe (l.map f) (r.map f)
  | list l r => list (l.map f) (r.map f)
  | back c => back (c.map f)

/-- The strings of a command. -/
def strings : Cmd α → List α
  | exec argv => argv
  | redir c file _ _ => c.strings ++ [file]
  | pipe l r => l.strings ++ r.strings
  | list l r => l.strings ++ r.strings
  | back c => c.strings

lemma map_congr {f g : α → β} {c : Cmd α} (h : ∀ a ∈ c.strings, f a = g a) : c.map f = c.map g := by
  induction c with
  | exec argv => exact congrArg exec (map_congr_left h)
  | redir c file mode fd ih =>
    rw [map, map, ih fun a ha => h a (mem_append_left _ ha), h file (mem_append_right _ mem_cons_self)]
  | pipe l r ihl ihr | list l r ihl ihr =>
    rw [map, map, ihl fun a ha => h a (mem_append_left _ ha), ihr fun a ha => h a (mem_append_right _ ha)]
  | back c ih => rw [map, map, ih h]

end Cmd

end FypOs.Sh
