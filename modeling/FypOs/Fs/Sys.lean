import FypOs.Fs.File

/-!
# Fs — processes and their descriptors

The state that the system calls of `kernel/sysfile.c` work on: the file system, the table of open
files, and for each process its current directory and its descriptors.
-/

namespace FypOs.Fs

open Lib Function

/-- A process, as far as files go. -/
structure Task where
  /-- The process has a current directory: it is in use, and has not exited. -/
  used : Bool
  proc : Proc
  ofile : Fin NOFILE → Option (Fin NFILE)
  /-- The number of `begin_op` calls that no `end_op` has matched yet. -/
  ops : Int

/-- The file system, the open files, and the processes `P`. -/
structure Sys (P : Type) where
  fs : State
  ftable : Fin NFILE → File
  tasks : P → Task

section

variable {P : Type}

namespace Sys

def setFs (fs : State) (t : Sys P) : Sys P := { t with fs := fs }

def setFile (t : Sys P) (f : Fin NFILE) (g : File → File) : Sys P :=
  { t with ftable := update t.ftable f (g (t.ftable f)) }

def setTask [DecidableEq P] (t : Sys P) (p : P) (g : Task → Task) : Sys P :=
  { t with tasks := update t.tasks p (g (t.tasks p)) }

section

variable (t : Sys P) {f f' : Fin NFILE} {p q : P}

@[simp] lemma setFile_self (g : File → File) : (t.setFile f g).ftable f = g (t.ftable f) :=
  update_self ..

lemma setFile_of_ne (g : File → File) (h : f' ≠ f) : (t.setFile f g).ftable f' = t.ftable f' :=
  update_of_ne h ..

variable [DecidableEq P]

@[simp] lemma setTask_self (g : Task → Task) : (t.setTask p g).tasks p = g (t.tasks p) :=
  update_self ..

lemma setTask_of_ne (g : Task → Task) (h : q ≠ p) : (t.setTask p g).tasks q = t.tasks q :=
  update_of_ne h ..

end

/-- Process `p` is running. -/
def switch (t : Sys P) (p : P) : Sys P :=
  { t with fs := { t.fs with me := (t.tasks p).proc } }

end Sys

/-- Programs that work on the state of the system calls. -/
abbrev SysM (P : Type) := Prog (Sys P)

/-- A program of the file system. -/
def onFs {α : Type} (m : FsM α) : SysM P α := .zoom Sys.fs Sys.setFs m

def getFile (f : Fin NFILE) : SysM P File := .reads fun t => t.ftable f

def setFile (f : Fin NFILE) (g : File → File) : SysM P Unit := .modify fun t => t.setFile f g

def getTask (p : P) : SysM P Task := .reads fun t => t.tasks p

def setTask [DecidableEq P] (p : P) (g : Task → Task) : SysM P Unit := .modify fun t => t.setTask p g

/-- Allocate a file structure. -/
def filealloc : SysM P (Option (Fin NFILE)) := do
  let ftable ← .reads Sys.ftable
  match (List.finRange NFILE).find? fun f => (ftable f).ref = 0 with
  | some f => do
    setFile f fun file => { file with ref := 1 }
    pure (some f)
  | none => pure none

/-- Allocate a file descriptor for the given file. -/
def fdalloc [DecidableEq P] (p : P) (f : Fin NFILE) : SysM P (Option (Fin NOFILE)) := do
  let task ← getTask p
  match (List.finRange NOFILE).find? fun fd => (task.ofile fd).isNone with
  | some fd => do
    setTask p fun task => { task with ofile := update task.ofile fd (some f) }
    pure (some fd)
  | none => pure none

/-- Increment the reference count of a file. -/
def filedup (f : Fin NFILE) : SysM P Unit := do
  let file ← getFile f
  if file.ref < 1 then .panic "filedup"
  else setFile f fun file => { file with ref := file.ref + 1 }

/-- The part of `fileclose` under the lock of the table: decrement the reference count; the file as
it was, when that was the last reference. -/
def filedrop (f : Fin NFILE) : SysM P (Option File) := do
  let ff ← getFile f
  if ff.ref < 1 then .panic "fileclose"
  else if ff.ref - 1 > 0 then do
    setFile f fun file => { file with ref := file.ref - 1 }
    pure none
  else do
    setFile f fun file => { file with ref := 0, type := .none }
    pure (some ff)

/-- The process `np` after `fork`: it has the open files of the parent. -/
def Task.child (parent : Task) (pid : Nat) (cwd : Fin NINODE) (np : Task) : Task :=
  { np with
    used := true, proc := ⟨pid, cwd⟩, ofile := fun fd => (parent.ofile fd).or (np.ofile fd) }

/-- Create a new process, which shares the open files and the current directory of `p`.  `np` is the
process that `allocproc` has found, and `uvmcopy` says whether the memory could be copied. -/
def fork [DecidableEq P] (p : P) (np : Option P) (uvmcopy : Bool) (pid : Nat) : SysM P Int :=
  match np with
  | none => pure (-1)
  | some np =>
    if uvmcopy = false then pure (-1)
    else do
      let task ← getTask p
      -- increment reference counts on open file descriptors
      Prog.forEach (fun fd => match task.ofile fd with
        | some f => filedup f
        | none => pure ()) (List.finRange NOFILE)
      let cwd ← onFs (idup task.proc.cwd)
      setTask np (task.child pid cwd)
      pure pid

end

end FypOs.Fs
