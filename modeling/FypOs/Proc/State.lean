import FypOs.Lib.Runs
import Mathlib.Logic.Function.Basic
import Mathlib.Tactic.SplitIfs
import Mathlib.Tactic.ByContra

/-!
# Proc — the states of a process

`enum procstate` of `kernel/proc.h`, and the changes of state that a slot of the process table goes
through in its life.
-/

namespace FypOs.Proc

inductive Procstate where
  | unused
  | used
  | sleeping
  | runnable
  | running
  | zombie
  deriving DecidableEq

/-- The changes of state in the life of a slot. -/
inductive Procstate.Moves : Procstate → Procstate → Prop where
  | alloc : Moves .unused .used
  | ready : Moves .used .runnable
  | abandon : Moves .used .unused
  | schedule : Moves .runnable .running
  | yield : Moves .running .runnable
  | sleep : Moves .running .sleeping
  | exit : Moves .running .zombie
  | wakeup : Moves .sleeping .runnable
  | reap : Moves .zombie .unused

end FypOs.Proc
