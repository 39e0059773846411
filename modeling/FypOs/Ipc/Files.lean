import FypOs.Lib.Runs
import FypOs.Lib.Tally
import FypOs.Param

/-!
# Ipc — open files and the ends of pipes

`kernel/file.c`, `pipe.c` and `sysfile.c`: processes share the files of a table, by references from their
descriptors, and each pipe is closed when the files for its two ends are.

A step is one critical section of `ftable.lock` or of the lock of a pipe, with what the process does to its own
descriptors next to it.  What a call has still to do is a list of tasks.
-/

namespace FypOs.Ipc.Files

open Lib Function List

/-- The type of an open file. -/
inductive FdType where
  | none
  | pipe
  | inode
  | device
  deriving DecidableEq

/-- `struct file`, without what concerns its inode. -/
structure File (G : Type) where
  ref : Nat
  type : FdType
  readable : Bool
  writable : Bool
  pipe : Option G
  deriving DecidableEq

/-- The flags of a pipe. -/
structure Ends where
  readopen : Bool
  writeopen : Bool
  deriving DecidableEq

/-- The flag of one end. -/
def Ends.isOpen (e : Ends) (writable : Bool) : Bool := if writable then e.writeopen else e.readopen

def Ends.close (e : Ends) (writable : Bool) : Ends :=
  if writable then { e with writeopen := false } else { e with readopen := false }

abbrev F : Type := Fin NFILE

abbrev Table : Type := Fin NOFILE → Option F

/-- What a call has still to do. -/
inductive Task (P G : Type) where
  /-- `fileclose`. -/
  | close (f : F)
  /-- `pipeclose`, which `fileclose` calls after the lock is released. -/
  | pipeclose (g : G) (writable : Bool)
  /-- `pipealloc` from its second call of `filealloc` on. -/
  | alloc (rf : F)
  /-- `pipealloc` from the call of `kalloc` on, and the rest of `sys_pipe`. -/
  | page (rf wf : F)
  /-- The loop of `fork`, with the descriptors of the child so far. -/
  | copy (q : P) (child : Table) (fds : List (Fin NOFILE))

inductive Procstate where
  | unused
  | used
  | running
  deriving DecidableEq

structure Proc (P G : Type) where
  state : Procstate
  ofile : Table
  todo : List (Task P G)
  /-- The loop of `exit`. -/
  exiting : Option (List (Fin NOFILE))
  /-- The last call has returned -1. -/
  failed : Bool

structure State (P G : Type) where
  files : F → File G
  /-- The pages that are pipes. -/
  pipes : G → Option Ends
  procs : P → Proc P G

variable {P G : Type}

def filealloc (files : F → File G) : Option F := (List.finRange NFILE).find? fun f => (files f).ref = 0

def fdalloc (ofile : Table) : Option (Fin NOFILE) := (List.finRange NOFILE).find? fun fd => (ofile fd).isNone

inductive Event (P G : Type) where
  /-- `sys_open` from the call of `filealloc` on. -/
  | open (p : P) (device readable writable : Bool)
  | pipe (p : P)
  | dup (p : P) (fd : Fin NOFILE)
  | close (p : P) (fd : Fin NOFILE)
  | fork (p q : P)
  | exit (p : P)
  /-- The next task, with the page that `kalloc` finds and whether `copyout` succeeds. -/
  | task (p : P) (page : Option G) (copied : Bool)

section Machine

variable [DecidableEq P] [DecidableEq G]

def State.setProc (s : State P G) (p : P) (x : Proc P G) : State P G :=
  { s with procs := update s.procs p x }

def State.setFile (s : State P G) (f : F) (x : File G) : State P G :=
  { s with files := update s.files f x }

/-- `filealloc` has found `f`. -/
def File.taken (x : File G) : File G := { x with ref := 1 }

/-- `sys_open`. -/
def sysOpen (s : State P G) (p : P) (device readable writable : Bool) : State P G :=
  let x := s.procs p
  match filealloc s.files with
  | none => s.setProc p { x with failed := true }
  | some f =>
    match fdalloc x.ofile with
    | none => (s.setFile f (s.files f).taken).setProc p { x with todo := [.close f], failed := true }
    | some fd =>
      (s.setFile f { s.files f with ref := 1, type := if device then .device else .inode, readable, writable }).setProc
        p { x with ofile := update x.ofile fd (some f), failed := false }

/-- `sys_pipe`, up to its first call of `filealloc`. -/
def sysPipe (s : State P G) (p : P) : State P G :=
  let x := s.procs p
  match filealloc s.files with
  | none => s.setProc p { x with failed := true }
  | some rf => (s.setFile rf (s.files rf).taken).setProc p { x with todo := [.alloc rf], failed := false }

def sysDup (s : State P G) (p : P) (fd : Fin NOFILE) : Outcome (State P G) :=
  let x := s.procs p
  match x.ofile fd with
  | none => .ok (s.setProc p { x with failed := true })
  | some f =>
    match fdalloc x.ofile with
    | none => .ok (s.setProc p { x with failed := true })
    | some fd' =>
      if (s.files f).ref < 1 then .panic "filedup"
      else .ok ((s.setFile f { s.files f with ref := (s.files f).ref + 1 }).setProc p
        { x with ofile := update x.ofile fd' (some f), failed := false })

def sysClose (s : State P G) (p : P) (fd : Fin NOFILE) : State P G :=
  let x := s.procs p
  match x.ofile fd with
  | none => s.setProc p { x with failed := true }
  | some f => s.setProc p { x with ofile := update x.ofile fd none, todo := [.close f], failed := false }

/-- The section of `fileclose` on the table. -/
def fileclose (s : State P G) (p : P) (f : F) (rest : List (Task P G)) : Outcome (State P G) :=
  let x := s.procs p
  let ff := s.files f
  if ff.ref < 1 then .panic "fileclose"
  else if 1 < ff.ref then .ok ((s.setFile f { ff with ref := ff.ref - 1 }).setProc p { x with todo := rest })
  else
    let s' := s.setFile f { ff with ref := 0, type := .none }
    if ff.type = .pipe then
      match ff.pipe with
      | none => .panic "null pipe"
      | some g => .ok (s'.setProc p { x with todo := .pipeclose g ff.writable :: rest })
    else .ok (s'.setProc p { x with todo := rest })

/-- `pipeclose`, which frees the page when both ends are closed. -/
def pipeclose (s : State P G) (p : P) (g : G) (writable : Bool) (rest : List (Task P G)) : Outcome (State P G) :=
  let x := s.procs p
  match s.pipes g with
  | none => .panic "pipe is not allocated"
  | some e =>
    let e' := e.close writable
    let pi := if e'.readopen = false ∧ e'.writeopen = false then none else some e'
    .ok (({ s with pipes := update s.pipes g pi }).setProc p { x with todo := rest })

/-- The second call of `filealloc` in `pipealloc`. -/
def allocSecond (s : State P G) (p : P) (rf : F) (rest : List (Task P G)) : State P G :=
  let x := s.procs p
  match filealloc s.files with
  | none => s.setProc p { x with todo := .close rf :: rest, failed := true }
  | some wf => (s.setFile wf (s.files wf).taken).setProc p { x with todo := .page rf wf :: rest }

/-- The files of a new pipe. -/
def pipeFiles (s : State P G) (rf wf : F) (g : G) : State P G :=
  { s with
    pipes := update s.pipes g (some ⟨true, true⟩)
    files := update (update s.files rf
      { s.files rf with type := .pipe, readable := true, writable := false, pipe := some g }) wf
      { s.files wf with type := .pipe, readable := false, writable := true, pipe := some g } }

/-- `sys_pipe` behind `pipealloc`: the descriptors, and whether it succeeds. -/
def pipeFds (ofile : Table) (rf wf : F) (copied : Bool) : Table × Bool :=
  match fdalloc ofile with
  | none => (ofile, false)
  | some fd₀ =>
    let ofile₀ := update ofile fd₀ (some rf)
    match fdalloc ofile₀ with
    | none => (update ofile₀ fd₀ none, false)
    | some fd₁ =>
      let ofile₁ := update ofile₀ fd₁ (some wf)
      if copied then (ofile₁, true) else (update (update ofile₁ fd₀ none) fd₁ none, false)

/-- `pipealloc` from the call of `kalloc` on, and the rest of `sys_pipe`. -/
def finishPipe (s : State P G) (p : P) (rf wf : F) (page : Option G) (copied : Bool) (rest : List (Task P G)) :
    State P G :=
  let x := s.procs p
  match page with
  | none => s.setProc p { x with todo := .close rf :: .close wf :: rest, failed := true }
  | some g =>
    match pipeFds x.ofile rf wf copied with
    | (ofile, false) => (pipeFiles s rf wf g).setProc p
        { x with ofile := ofile, todo := .close rf :: .close wf :: rest, failed := true }
    | (ofile, true) => (pipeFiles s rf wf g).setProc p { x with ofile := ofile, todo := rest, failed := false }

/-- A turn of the loop of `fork`. -/
def copyNext (s : State P G) (p q : P) (child : Table) (fds : List (Fin NOFILE)) (rest : List (Task P G)) :
    Outcome (State P G) :=
  let x := s.procs p
  match fds with
  | [] =>
    if (s.procs q).state = .used then
      .ok ((s.setProc p { x with todo := rest, failed := false }).setProc q ⟨.running, child, [], none, false⟩)
    else .blocked
  | fd :: fds =>
    match x.ofile fd with
    | none => .ok (s.setProc p { x with todo := .copy q child fds :: rest })
    | some f =>
      if (s.files f).ref < 1 then .panic "filedup"
      else .ok ((s.setFile f { s.files f with ref := (s.files f).ref + 1 }).setProc p
        { x with todo := .copy q (update child fd (some f)) fds :: rest })

/-- A turn of the loop of `exit`. -/
def dropNext (s : State P G) (p : P) (fds : List (Fin NOFILE)) : State P G :=
  let x := s.procs p
  match fds with
  | [] => s.setProc p { x with state := .unused, exiting := none }
  | fd :: fds =>
    match x.ofile fd with
    | none => s.setProc p { x with exiting := some fds }
    | some f => s.setProc p
        { x with ofile := update x.ofile fd none, todo := [.close f], exiting := some fds }

def runTask (s : State P G) (p : P) (page : Option G) (copied : Bool) : Outcome (State P G) :=
  match (s.procs p).todo with
  | [] =>
    match (s.procs p).exiting with
    | none => .blocked
    | some fds => .ok (dropNext s p fds)
  | .close f :: rest => fileclose s p f rest
  | .pipeclose g writable :: rest => pipeclose s p g writable rest
  | .alloc rf :: rest => .ok (allocSecond s p rf rest)
  | .page rf wf :: rest => .ok (finishPipe s p rf wf page copied rest)
  | .copy q child fds :: rest => copyNext s p q child fds rest

/-- The process runs, and is in no call. -/
def State.Idle (s : State P G) (p : P) : Prop :=
  (s.procs p).state = .running ∧ (s.procs p).todo.isEmpty = true ∧ (s.procs p).exiting = none

instance (s : State P G) (p : P) : Decidable (s.Idle p) := inferInstanceAs (Decidable (_ ∧ _))

def step (s : State P G) : Event P G → Outcome (State P G)
  | .open p device readable writable =>
    if s.Idle p then .ok (sysOpen s p device readable writable) else .blocked
  | .pipe p => if s.Idle p then .ok (sysPipe s p) else .blocked
  | .dup p fd => if s.Idle p then sysDup s p fd else .blocked
  | .close p fd => if s.Idle p then .ok (sysClose s p fd) else .blocked
  | .fork p q =>
    if s.Idle p ∧ (s.procs q).state = .unused then
      .ok ((s.setProc q { s.procs q with state := .used }).setProc p
        { s.procs p with todo := [.copy q (fun _ => none) (List.finRange NOFILE)] })
    else .blocked
  | .exit p =>
    if s.Idle p then .ok (s.setProc p { s.procs p with exiting := some (List.finRange NOFILE) }) else .blocked
  | .task p page copied => runTask s p page copied

end Machine

/-- `kalloc` finds a page that is not in use. -/
def Allowed (s : State P G) : Event P G → Prop
  | .task _ (some g) _ => s.pipes g = none
  | _ => True

/-- The processes of `live` run, and no file is open. -/
def start (live : P → Bool) : State P G where
  files := fun _ => ⟨0, .none, false, false, none⟩
  pipes := fun _ => none
  procs := fun p => ⟨if live p then .running else .unused, fun _ => none, [], none, false⟩

/-! ### Who holds what -/

section Holds

/-- The descriptors of a table that point to `f`. -/
def slots (ofile : Table) (f : F) : Nat := ∑ fd, if ofile fd = some f then 1 else 0

/-- The references that a task holds. -/
def Task.refs (f : F) : Task P G → Nat
  | .close f' => if f' = f then 1 else 0
  | .alloc rf => if rf = f then 1 else 0
  | .page rf wf => (if rf = f then 1 else 0) + if wf = f then 1 else 0
  | .copy _ child _ => slots child f
  | .pipeclose _ _ => 0

/-- The ends of pipes that a task stands for. -/
def Task.ends [DecidableEq G] (g : G) (writable : Bool) : Task P G → Nat
  | .pipeclose g' w => if g' = g ∧ w = writable then 1 else 0
  | .close _ | .alloc _ | .page _ _ | .copy _ _ _ => 0

/-- The files that have been allocated and have no type yet. -/
def Task.fresh : Task P G → List F
  | .alloc rf => [rf]
  | .page rf wf => [rf, wf]
  | .close _ | .pipeclose _ _ | .copy _ _ _ => []

/-- The loop of `fork` has copied none of the descriptors that are left. -/
def Task.WellFormed : Task P G → Prop
  | .copy _ child fds => fds.Nodup ∧ ∀ fd ∈ fds, child fd = none
  | .close _ | .pipeclose _ _ | .alloc _ | .page _ _ => True

def Proc.held (x : Proc P G) (f : F) : Nat := slots x.ofile f + (x.todo.map (Task.refs f)).sum

def Proc.pending [DecidableEq G] (x : Proc P G) (g : G) (writable : Bool) : Nat := (x.todo.map (Task.ends g writable)).sum

/-- The file is an end of the pipe `g`. -/
def File.isEnd [DecidableEq G] (x : File G) (g : G) (writable : Bool) : Nat :=
  if x.type = .pipe ∧ x.pipe = some g ∧ x.writable = writable then 1 else 0

def openEnds (pipes : G → Option Ends) (g : G) (writable : Bool) : Nat :=
  ((pipes g).elim false fun e => e.isOpen writable).toNat

/-- Each reference is a descriptor's or a task's, and each open end is a file's or a task's. -/
structure Inv [Fintype P] [DecidableEq G] (s : State P G) : Prop where
  ref : ∀ f, (s.files f).ref = ∑ p, (s.procs p).held f
  type : ∀ f, (s.files f).ref = 0 → (s.files f).type = .none
  ends : ∀ g w, ∑ f, (s.files f).isEnd g w + ∑ p, (s.procs p).pending g w = openEnds s.pipes g w
  alive : ∀ g e, s.pipes g = some e → e.readopen = true ∨ e.writeopen = true
  pipe : ∀ f, (s.files f).type = .pipe → (s.files f).pipe ≠ none ∧ (s.files f).readable = !(s.files f).writable
  fresh : ∀ p, ∀ t ∈ (s.procs p).todo, ∀ f ∈ t.fresh, (s.files f).ref = 1 ∧ (s.files f).type = .none
  tasks : ∀ p, ∀ t ∈ (s.procs p).todo, t.WellFormed ∧ ((s.procs p).exiting ≠ none → t.fresh = [])
  unused : ∀ p, (s.procs p).state ≠ .running → (∀ fd, (s.procs p).ofile fd = none) ∧ (s.procs p).todo = []
  exiting : ∀ p fds, (s.procs p).exiting = some fds → ∀ fd, fd ∉ fds → (s.procs p).ofile fd = none

variable {s : State P G} {p : P} {x : Proc P G} {f : F} {t : Task P G}

lemma slots_update (ofile : Table) (fd : Fin NOFILE) (o : Option F) (f : F) :
    slots (update ofile fd o) f + (if ofile fd = some f then 1 else 0) =
      slots ofile f + if o = some f then 1 else 0 :=
  tally_update (fun o : Option F => if o = some f then 1 else 0) ofile fd o

lemma slots_set {ofile : Table} {fd : Fin NOFILE} (h : ofile fd = none) (f f' : F) :
    slots (update ofile fd (some f)) f' = slots ofile f' + if f = f' then 1 else 0 := by
  have h1 := slots_update ofile fd (some f) f'
  rw [h] at h1
  simpa using h1

lemma slots_clear {ofile : Table} {fd : Fin NOFILE} (h : ofile fd = some f) (f' : F) :
    slots (update ofile fd none) f' + (if f = f' then 1 else 0) = slots ofile f' := by
  have h1 := slots_update ofile fd none f'
  rw [h] at h1
  simpa using h1

lemma slots_empty (f : F) : slots (fun _ => none) f = 0 := by
  simp [slots]

lemma slots_pos {ofile : Table} {fd : Fin NOFILE} (h : ofile fd = some f) : 0 < slots ofile f := by
  have := le_tally (fun o : Option F => if o = some f then 1 else 0) ofile fd
  rw [if_pos h] at this
  exact this

lemma Task.refs_fresh (h : f ∈ t.fresh) : 0 < t.refs f := by
  cases t with
  | alloc rf =>
    rw [mem_singleton.mp h]
    simp [Task.refs]
  | page rf wf =>
    simp only [Task.fresh, mem_cons, not_mem_nil, or_false] at h
    rcases h with rfl | rfl <;> simp [Task.refs]
  | close | pipeclose | copy => cases h

lemma Proc.held_fresh (ht : t ∈ x.todo) (h : f ∈ t.fresh) : 0 < x.held f := by
  have h1 := Task.refs_fresh h
  have h2 := single_le_sum (l := x.todo.map (Task.refs f)) (fun _ _ => Nat.zero_le _) _ (mem_map_of_mem ht)
  rw [Proc.held]
  omega

variable [Fintype P] [DecidableEq G]

/-- The tasks of a process that the files allow. -/
def Fits (files : F → File G) (exiting : Option (List (Fin NOFILE))) (ts : List (Task P G)) : Prop :=
  ∀ t ∈ ts, (∀ f ∈ t.fresh, (files f).ref = 1 ∧ (files f).type = .none) ∧ t.WellFormed ∧
    (exiting ≠ none → t.fresh = [])

section Fits

variable {files : F → File G} {exiting : Option (List (Fin NOFILE))} {t : Task P G} {ts : List (Task P G)}

omit [Fintype P] [DecidableEq G]

lemma Fits.nil (h : ts = []) : Fits files exiting ts := fun t ht => by
  rw [h] at ht
  cases ht

lemma Fits.cons (h : Fits files exiting ts) (hw : t.WellFormed) (hnil : t.fresh = []) :
    Fits files exiting (t :: ts) :=
  forall_mem_cons.mpr ⟨⟨fun _ hf => absurd (hnil ▸ hf) not_mem_nil, hw, fun _ => hnil⟩, h⟩

/-- A file that no task has just taken changes. -/
lemma Fits.set (h : Fits files exiting ts) (hf : ∀ t ∈ ts, f ∉ t.fresh) (y : File G) :
    Fits (update files f y) exiting ts := fun t ht => by
  refine ⟨fun f' hf' => ?_, (h t ht).2⟩
  rw [update_of_ne (fun e : f' = f => hf t ht (e ▸ hf'))]
  exact (h t ht).1 f' hf'

end Fits

/-- What the invariant says of one process. -/
def Fine (files : F → File G) (x : Proc P G) : Prop :=
  Fits files x.exiting x.todo ∧ (x.state ≠ .running → (∀ fd, x.ofile fd = none) ∧ x.todo = []) ∧
    ∀ fds, x.exiting = some fds → ∀ fd, fd ∉ fds → x.ofile fd = none

section

variable (hi : Inv s)

include hi

lemma Inv.fits (p : P) : Fits s.files (s.procs p).exiting (s.procs p).todo :=
  fun t ht => ⟨hi.fresh p t ht, hi.tasks p t ht⟩

lemma Inv.fine (p : P) : Fine s.files (s.procs p) := ⟨hi.fits p, hi.unused p, hi.exiting p⟩

lemma Inv.fits_rest {rest : List (Task P G)} (h : (s.procs p).todo = t :: rest) :
    Fits s.files (s.procs p).exiting rest :=
  fun t ht => hi.fits p t (h ▸ mem_cons_of_mem _ ht)

lemma Inv.held_le (p : P) (f : F) : (s.procs p).held f ≤ (s.files f).ref := by
  rw [hi.ref f]
  exact le_tally (fun x : Proc P G => x.held f) s.procs p

/-- Two processes do not hold the only reference to a file. -/
lemma Inv.alone {q : P} (hne : q ≠ p) (h1 : (s.files f).ref = 1) (hq : 0 < (s.procs q).held f) :
    (s.procs p).held f = 0 := by
  have hsum := hi.ref f
  have hpq := Finset.add_le_sum (fun r _ => Nat.zero_le ((s.procs r).held f)) (Finset.mem_univ q) (Finset.mem_univ p) hne
  omega

end

variable [DecidableEq P]

/-- **A step of one process** keeps the invariant when it changes the counts together with what the process holds,
and only files that it holds or that are free. -/
lemma Inv.move (hi : Inv s) {files : F → File G} {pipes : G → Option Ends}
    (href : ∀ f, (files f).ref + (s.procs p).held f = (s.files f).ref + x.held f)
    (hown : ∀ f, files f = s.files f ∨ 0 < (s.procs p).held f ∨ (s.files f).ref = 0)
    (htype : ∀ f, (files f).ref = 0 → (files f).type = .none)
    (hends : ∀ g w, ∑ f, (files f).isEnd g w + x.pending g w + openEnds s.pipes g w =
      ∑ f, (s.files f).isEnd g w + (s.procs p).pending g w + openEnds pipes g w)
    (halive : ∀ g e, pipes g = some e → e.readopen = true ∨ e.writeopen = true)
    (hpipe : ∀ f, (files f).type = .pipe → (files f).pipe ≠ none ∧ (files f).readable = !(files f).writable)
    (hfits : Fits files x.exiting x.todo) (hunused : x.state ≠ .running → (∀ fd, x.ofile fd = none) ∧ x.todo = [])
    (hexiting : ∀ fds, x.exiting = some fds → ∀ fd, fd ∉ fds → x.ofile fd = none) :
    Inv ⟨files, pipes, update s.procs p x⟩ := by
  have hfine (q : P) : Fine files (update s.procs p x q) := by
    by_cases e : q = p
    · rw [e, update_self]
      exact ⟨hfits, hunused, hexiting⟩
    · rw [update_of_ne e]
      refine ⟨fun t ht => ⟨fun f hf => ?_, hi.tasks q t ht⟩, hi.unused q, hi.exiting q⟩
      -- the file is held by `q` alone
      obtain ⟨h1, h2⟩ := hi.fresh q t ht f hf
      have hzero := hi.alone e h1 (Proc.held_fresh ht hf)
      rcases hown f with h | h | h
      · rw [h]
        exact ⟨h1, h2⟩
      · omega
      · omega
  refine ⟨fun f => ?_, htype, fun g w => ?_, halive, hpipe, fun q t ht => ((hfine q).1 t ht).1,
    fun q t ht => ((hfine q).1 t ht).2, fun q => (hfine q).2.1, fun q => (hfine q).2.2⟩
  · have h1 := tally_update (fun y : Proc P G => y.held f) s.procs p x
    have h2 := hi.ref f
    have h3 := href f
    simp only
    omega
  · have h1 := tally_update (fun y : Proc P G => y.pending g w) s.procs p x
    have h2 := hi.ends g w
    have h3 := hends g w
    simp only
    omega

lemma Inv.moveFile (hi : Inv s) {y : File G} (href : y.ref + (s.procs p).held f = (s.files f).ref + x.held f)
    (hother : ∀ f', f' ≠ f → (s.procs p).held f' = x.held f')
    (hown : 0 < (s.procs p).held f ∨ (s.files f).ref = 0) (htype : y.ref = 0 → y.type = .none)
    (hends : ∀ g w, y.isEnd g w + x.pending g w = (s.files f).isEnd g w + (s.procs p).pending g w)
    (hpipe : y.type = .pipe → y.pipe ≠ none ∧ y.readable = !y.writable)
    (hfits : Fits (update s.files f y) x.exiting x.todo)
    (hunused : x.state ≠ .running → (∀ fd, x.ofile fd = none) ∧ x.todo = [])
    (hexiting : ∀ fds, x.exiting = some fds → ∀ fd, fd ∉ fds → x.ofile fd = none) :
    Inv ((s.setFile f y).setProc p x) := by
  show Inv ⟨update s.files f y, s.pipes, update s.procs p x⟩
  refine hi.move (fun f' => ?_) (fun f' => ?_) (fun f' => ?_) (fun g w => ?_) hi.alive (fun f' => ?_) hfits
    hunused hexiting
  · by_cases e : f' = f
    · rw [e, update_self]
      exact href
    · rw [update_of_ne e, hother f' e]
  · by_cases e : f' = f
    · exact .inr (e ▸ hown)
    · exact .inl (update_of_ne e ..)
  · simp only [update_apply]
    split
    · exact htype
    · exact hi.type f'
  · have h1 := tally_update (fun z : File G => z.isEnd g w) s.files f y
    have h2 := hends g w
    omega
  · simp only [update_apply]
    split
    · exact hpipe
    · exact hi.pipe f'

lemma Inv.moveProc (hi : Inv s) (hheld : ∀ f, x.held f = (s.procs p).held f)
    (hpending : ∀ g w, x.pending g w = (s.procs p).pending g w) (hfits : Fits s.files x.exiting x.todo)
    (hunused : x.state ≠ .running → (∀ fd, x.ofile fd = none) ∧ x.todo = [])
    (hexiting : ∀ fds, x.exiting = some fds → ∀ fd, fd ∉ fds → x.ofile fd = none) : Inv (s.setProc p x) :=
  hi.move (fun f => by rw [hheld f]) (fun _ => .inl rfl) hi.type (fun g w => by rw [hpending g w]) hi.alive hi.pipe
    hfits hunused hexiting

lemma Inv.fail (hi : Inv s) : Inv (s.setProc p { s.procs p with failed := true }) :=
  hi.moveProc (fun _ => rfl) (fun _ _ => rfl) (hi.fits p) (hi.unused p) (hi.exiting p)

end Holds

/-! ### The sections -/

section Sections

variable {s s' : State P G} {p q : P} {f : F} {rest ts : List (Task P G)} {x : Proc P G} {t : Task P G} {g : G}
  {fds : List (Fin NOFILE)} {w : Bool}

lemma filealloc_some (h : filealloc s.files = some f) : (s.files f).ref = 0 := by
  simpa using find?_some h

lemma fdalloc_some {ofile : Table} {fd : Fin NOFILE} (h : fdalloc ofile = some fd) : ofile fd = none := by
  simpa using find?_some h

lemma State.Idle.todo_eq (h : s.Idle p) : (s.procs p).todo = [] := List.isEmpty_iff.mp h.2.1

/-- Only the descriptors of a process without tasks hold references. -/
lemma held_idle (h : x.todo = []) (f : F) : x.held f = slots x.ofile f := by
  simp [Proc.held, h]

lemma held_cons (h : x.todo = t :: ts) (f : F) :
    x.held f = slots x.ofile f + (t.refs f + (ts.map (Task.refs f)).sum) := by
  simp [Proc.held, h]

variable [DecidableEq G]

lemma pending_idle (h : x.todo = []) (g : G) (w : Bool) : x.pending g w = 0 := by
  simp [Proc.pending, h]

lemma pending_cons (h : x.todo = t :: ts) (g : G) (w : Bool) :
    x.pending g w = t.ends g w + (ts.map (Task.ends g w)).sum := by
  simp [Proc.pending, h]

variable [Fintype P]

lemma Inv.free_isEnd (hi : Inv s) (hf : (s.files f).ref = 0) (g : G) (w : Bool) : (s.files f).isEnd g w = 0 := by
  rw [File.isEnd, hi.type f hf, if_neg]
  rintro ⟨h, -⟩
  cases h

/-- A file with a reference elsewhere is not one that a task has just taken. -/
lemma Inv.not_fresh (hi : Inv s) (h : (s.procs p).todo = t :: rest)
    (hf : (s.files f).ref ≠ 1 ∨ 0 < slots (s.procs p).ofile f + t.refs f) : ∀ t' ∈ rest, f ∉ t'.fresh := by
  intro t' ht hm
  have h1 := hi.fresh p t' (h ▸ mem_cons_of_mem _ ht) f hm
  have h2 := Task.refs_fresh hm
  have h3 := single_le_sum (l := rest.map (Task.refs f)) (fun _ _ => Nat.zero_le _) _ (mem_map_of_mem ht)
  have h4 := held_cons h f
  have h5 := hi.held_le p f
  omega

variable [DecidableEq P]

lemma Inv.sysOpen (hi : Inv s) (hidle : s.Idle p) (device readable writable : Bool) :
    Inv (sysOpen s p device readable writable) := by
  have htodo := hidle.todo_eq
  have hrun := hidle.1
  unfold Files.sysOpen
  cases hf : filealloc s.files with
  | none => exact hi.fail
  | some f =>
    have hzero := filealloc_some hf
    simp only
    cases hfd : fdalloc (s.procs p).ofile with
    | none =>
      refine hi.moveFile ?_ (fun f' hne => ?_) (.inr hzero) (fun h => by cases h) (fun g w => ?_) (hi.pipe f)
        (.cons (.nil rfl) trivial rfl) (fun h => absurd hrun h) (hi.exiting p)
      · rw [held_idle htodo, held_cons rfl, hzero]
        simp only [File.taken, Task.refs, map_nil, sum_nil, if_true]
        omega
      · rw [held_idle htodo, held_cons rfl]
        simp only [Task.refs, map_nil, sum_nil, if_neg hne.symm, Nat.add_zero]
      · rw [pending_idle htodo, pending_cons rfl]
        rfl
    | some fd =>
      have hnone := fdalloc_some hfd
      refine hi.moveFile ?_ (fun f' hne => ?_) (.inr hzero) (fun h => by cases h) (fun g w => ?_) (fun h => ?_)
        (.nil htodo) (fun h => absurd hrun h) (fun fds h => ?_)
      · simp only [Proc.held, htodo, map_nil, sum_nil, slots_set hnone, if_true, hzero]
        omega
      · simp only [Proc.held, htodo, slots_set hnone, if_neg hne.symm, Nat.add_zero]
      · rw [hi.free_isEnd hzero g w, File.isEnd, if_neg]
        · rfl
        · rintro ⟨h, -⟩
          cases device <;> cases h
      · cases device <;> cases h
      · simp only [hidle.2.2] at h
        cases h

lemma Inv.sysPipe (hi : Inv s) (hidle : s.Idle p) : Inv (sysPipe s p) := by
  have htodo := hidle.todo_eq
  unfold Files.sysPipe
  cases hf : filealloc s.files with
  | none => exact hi.fail
  | some f =>
    have hzero := filealloc_some hf
    refine hi.moveFile ?_ (fun f' hne => ?_) (.inr hzero) (fun h => by cases h) (fun g w => ?_) (hi.pipe f)
      (forall_mem_singleton.mpr ⟨forall_mem_singleton.mpr ?_, trivial, fun h => absurd hidle.2.2 h⟩)
      (fun h => absurd hidle.1 h) (hi.exiting p)
    · rw [held_idle htodo, held_cons rfl, hzero]
      simp only [File.taken, Task.refs, map_nil, sum_nil, if_true]
      omega
    · rw [held_idle htodo, held_cons rfl]
      simp only [Task.refs, map_nil, sum_nil, if_neg hne.symm, Nat.add_zero]
    · rw [pending_idle htodo, pending_cons rfl]
      rfl
    · rw [update_self]
      exact ⟨rfl, hi.type f hzero⟩

lemma Inv.sysDup (hi : Inv s) (hidle : s.Idle p) (fd : Fin NOFILE) : ∃ s', sysDup s p fd = .ok s' ∧ Inv s' := by
  have htodo := hidle.todo_eq
  cases hf : (s.procs p).ofile fd with
  | none => exact ⟨_, by simp only [Files.sysDup, hf], hi.fail (p := p)⟩
  | some f =>
    cases hfd : fdalloc (s.procs p).ofile with
    | none => exact ⟨_, by simp only [Files.sysDup, hf, hfd], hi.fail (p := p)⟩
    | some fd' =>
      have hnone := fdalloc_some hfd
      have hpos : 0 < (s.procs p).held f := by
        rw [held_idle htodo]
        exact slots_pos hf
      have hle := hi.held_le p f
      simp only [Files.sysDup, hf, hfd]
      rw [if_neg (by omega)]
      refine ⟨_, rfl, hi.moveFile ?_ (fun f' hne => ?_) (.inl hpos) (fun h => by cases h) (fun g w => rfl)
        (hi.pipe f) (.nil htodo) (fun h => absurd hidle.1 h) (fun fds h => ?_)⟩
      · simp only [Proc.held, htodo, map_nil, sum_nil, slots_set hnone, if_true]
        omega
      · simp only [Proc.held, htodo, slots_set hnone, if_neg hne.symm, Nat.add_zero]
      · simp only [hidle.2.2] at h
        cases h

omit [DecidableEq G] [Fintype P] [DecidableEq P] in
/-- A descriptor's reference becomes a task's. -/
lemma held_drop {x y : Proc P G} {fd : Fin NOFILE} (htodo : x.todo = []) (hf : x.ofile fd = some f)
    (ho : y.ofile = update x.ofile fd none) (ht : y.todo = [.close f]) (f' : F) : y.held f' = x.held f' := by
  have h1 := slots_clear hf f'
  rw [held_idle htodo, held_cons ht, ho]
  simp only [Task.refs, map_nil, sum_nil]
  omega

lemma Inv.sysClose (hi : Inv s) (hidle : s.Idle p) (fd : Fin NOFILE) : Inv (sysClose s p fd) := by
  have htodo := hidle.todo_eq
  cases hf : (s.procs p).ofile fd with
  | none =>
    simp only [Files.sysClose, hf]
    exact hi.fail
  | some f =>
    simp only [Files.sysClose, hf]
    refine hi.moveProc (held_drop htodo hf rfl rfl) (fun g w => ?_) (.cons (.nil rfl) trivial rfl)
      (fun h => absurd hidle.1 h) (fun fds h => ?_)
    · rw [pending_idle htodo, pending_cons rfl]
      rfl
    · simp only [hidle.2.2] at h
      cases h

/-! ### The tasks -/

/-- **`fileclose`** of a reference that the process holds. -/
lemma Inv.fileclose (hi : Inv s) (htodo : (s.procs p).todo = .close f :: rest)
    (hrun : (s.procs p).state = .running) : ∃ s', fileclose s p f rest = .ok s' ∧ Inv s' := by
  have hpend := pending_cons htodo
  have hself : (s.procs p).held f = slots (s.procs p).ofile f + (1 + (rest.map (Task.refs f)).sum) := by
    rw [held_cons htodo, Task.refs, if_pos rfl]
  have hle := hi.held_le p f
  have hown : 0 < (s.procs p).held f := by omega
  have hother (f' : F) (hne : f' ≠ f) :
      (s.procs p).held f' = slots (s.procs p).ofile f' + (rest.map (Task.refs f')).sum := by
    rw [held_cons htodo, Task.refs, if_neg hne.symm, Nat.zero_add]
  have hrest := hi.not_fresh (f := f) htodo (.inr (by simp [Task.refs]))
  have hfits (y : File G) := (hi.fits_rest htodo).set hrest y
  unfold Files.fileclose
  simp only
  rw [if_neg (by omega)]
  by_cases hmany : 1 < (s.files f).ref
  · rw [if_pos hmany]
    refine ⟨_, rfl, hi.moveFile ?_ hother (.inl hown) (fun h => ?_) (fun g w => ?_) (hi.pipe f) (hfits _)
      (fun h => absurd hrun h) (hi.exiting p)⟩
    · simp only [Proc.held] at hself ⊢
      omega
    · simp only at h
      omega
    · rw [hpend g w, Proc.pending, Task.ends, Nat.zero_add]
      rfl
  · rw [if_neg hmany]
    have hone : (s.files f).ref = 1 := by omega
    have hnoEnd (g : G) (w : Bool) : ({ s.files f with ref := 0, type := .none } : File G).isEnd g w = 0 :=
      if_neg fun h => by cases h.1
    by_cases htype : (s.files f).type = .pipe
    · obtain ⟨hpipe, -⟩ := hi.pipe f htype
      obtain ⟨g, hg⟩ := Option.ne_none_iff_exists'.mp hpipe
      simp only [if_pos htype, hg]
      refine ⟨_, rfl, hi.moveFile ?_ (fun f' hne => ?_) (.inl hown) (fun _ => rfl) (fun g' w => ?_)
        (fun h => by cases h) ((hfits _).cons trivial rfl) (fun h => absurd hrun h) (hi.exiting p)⟩
      · simp only [Proc.held, map_cons, sum_cons, Task.refs] at hself ⊢
        omega
      · simp only [Proc.held, map_cons, sum_cons, Task.refs, Nat.zero_add]
        exact hother f' hne
      · have h1 : (s.files f).isEnd g' w = if g = g' ∧ (s.files f).writable = w then 1 else 0 := by
          simp only [File.isEnd, htype, hg, true_and, Option.some.injEq]
        rw [hpend g' w, h1]
        simp only [Proc.pending, map_cons, sum_cons, Task.ends, File.isEnd]
        rw [if_neg (fun h => by cases h.1)]
        omega
    · simp only [if_neg htype]
      refine ⟨_, rfl, hi.moveFile ?_ hother (.inl hown) (fun _ => rfl) (fun g' w => ?_) (fun h => by cases h)
        (hfits _) (fun h => absurd hrun h) (hi.exiting p)⟩
      · simp only [Proc.held] at hself ⊢
        omega
      · have h1 : (s.files f).isEnd g' w = 0 := if_neg fun h => htype h.1
        rw [hnoEnd, h1, hpend g' w, Task.ends, Nat.zero_add, Nat.zero_add]
        rw [Proc.pending, Nat.zero_add]

omit [DecidableEq G] in
lemma openEnds_some {pipes : G → Option Ends} (h : 0 < openEnds pipes g w) :
    ∃ e, pipes g = some e ∧ e.isOpen w = true := by
  rw [openEnds] at h
  cases hg : pipes g with
  | none =>
    rw [hg] at h
    cases h
  | some e =>
    rw [hg] at h
    refine ⟨e, rfl, ?_⟩
    cases ho : e.isOpen w with
    | true => rfl
    | false =>
      simp [ho] at h

/-- **`pipeclose`** of an end that the process has still to close. -/
lemma Inv.pipeclose (hi : Inv s)
    (htodo : (s.procs p).todo = .pipeclose g w :: rest) (hrun : (s.procs p).state = .running) :
    ∃ s', pipeclose s p g w rest = .ok s' ∧ Inv s' := by
  have hpend := pending_cons htodo
  have hpos : 0 < openEnds s.pipes g w := by
    have h1 := le_tally (fun x : Proc P G => x.pending g w) s.procs p
    have h2 := hi.ends g w
    have h3 := hpend g w
    simp only [Task.ends, and_self, if_true] at h1 h3
    omega
  obtain ⟨e, he, hopen⟩ := openEnds_some hpos
  unfold Files.pipeclose
  simp only [he]
  refine ⟨_, rfl, hi.move (fun f => ?_) (fun _ => .inl rfl) hi.type (fun g' w' => ?_) (fun g' e' he' => ?_) hi.pipe
    (hi.fits_rest htodo) (fun h => absurd hrun h) (hi.exiting p)⟩
  · rw [held_cons htodo f, Proc.held, Task.refs, Nat.zero_add]
  · rw [hpend g' w', Proc.pending, Task.ends]
    simp only [openEnds]
    by_cases eg : g' = g
    · rw [eg, update_self, he]
      obtain ⟨r, v⟩ := e
      cases w <;> cases w' <;> cases r <;> cases v <;> simp_all [Ends.isOpen, Ends.close] <;> omega
    · rw [update_of_ne eg, if_neg (fun h => eg h.1.symm)]
      omega
  · simp only at he'
    by_cases eg : g' = g
    · rw [eg, update_self] at he'
      split at he'
      · cases he'
      · cases he'
        simp only [not_and, Bool.not_eq_false] at *
        rename_i hno
        cases hr : (e.close w).readopen with
        | true => exact .inl rfl
        | false => exact .inr (hno hr)
    · rw [update_of_ne eg] at he'
      exact hi.alive g' e' he'

lemma Inv.allocSecond (hi : Inv s) {rf : F}
    (htodo : (s.procs p).todo = .alloc rf :: rest) (hrun : (s.procs p).state = .running) :
    Inv (allocSecond s p rf rest) := by
  unfold Files.allocSecond
  cases hf : filealloc s.files with
  | none =>
    refine hi.moveProc (fun f => ?_) (fun g w => ?_) ((hi.fits_rest htodo).cons trivial rfl)
      (fun h => absurd hrun h) (hi.exiting p)
    · rw [held_cons htodo, held_cons rfl]
      rfl
    · rw [pending_cons htodo, pending_cons rfl]
      rfl
  | some wf =>
    have hzero := filealloc_some hf
    obtain ⟨hfresh, -, hexit⟩ := hi.fits p _ (htodo ▸ mem_cons_self)
    obtain ⟨h1, h2⟩ := hfresh rf (mem_singleton_self rf)
    have hne : rf ≠ wf := fun e => by
      rw [e] at h1
      omega
    have hrest := hi.not_fresh (f := wf) htodo (.inl (by omega))
    refine hi.moveFile ?_ (fun f' hne => ?_) (.inr hzero) (fun h => by cases h) (fun g w => ?_) (hi.pipe wf)
      (forall_mem_cons.mpr ⟨⟨forall_mem_cons.mpr ⟨?_, forall_mem_singleton.mpr ?_⟩, trivial, fun h => ?_⟩,
        (hi.fits_rest htodo).set hrest _⟩) (fun h => absurd hrun h) (hi.exiting p)
    · rw [held_cons htodo, held_cons rfl, hzero]
      simp only [Task.refs, File.taken, if_true]
      omega
    · rw [held_cons htodo, held_cons rfl]
      simp only [Task.refs, if_neg hne.symm, Nat.add_zero]
    · rw [pending_cons htodo, pending_cons rfl]
      rfl
    · rw [update_of_ne hne]
      exact ⟨h1, h2⟩
    · rw [update_self]
      exact ⟨rfl, hi.type _ hzero⟩
    · have := hexit h
      cases this

/-- The descriptors of `sys_pipe`: two more, or as they were. -/
lemma pipeFds_spec (ofile : Table) (rf wf : F) (copied : Bool) : (pipeFds ofile rf wf copied = (ofile, false)) ∨
      ((pipeFds ofile rf wf copied).2 = true ∧ ∀ f, slots (pipeFds ofile rf wf copied).1 f =
        slots ofile f + ((if rf = f then 1 else 0) + if wf = f then 1 else 0)) := by
  unfold pipeFds
  cases h0 : fdalloc ofile with
  | none => exact .inl rfl
  | some fd0 =>
    have hn0 := fdalloc_some h0
    simp only
    cases h1 : fdalloc (update ofile fd0 (some rf)) with
    | none =>
      left
      simp only [update_idem]
      rw [Function.update_eq_self_iff.mpr hn0.symm]
    | some fd1 =>
      have hn1 := fdalloc_some h1
      have hne : fd1 ≠ fd0 := fun e => by
        rw [e, update_self] at hn1
        cases hn1
      simp only
      cases copied with
      | true =>
        right
        refine ⟨rfl, fun f => ?_⟩
        simp only [if_true]
        rw [slots_set hn1, slots_set hn0]
        omega
      | false =>
        left
        rw [if_neg Bool.false_ne_true]
        congr 1
        funext fd
        rw [update_of_ne hne] at hn1
        simp only [update_apply]
        grind

section

variable (hi : Inv s)

include hi

/-- **The files of a new pipe** are its ends. -/
lemma Inv.pipeFiles {rf wf : F}
    (htodo : (s.procs p).todo = .page rf wf :: rest) (hrun : x.state = .running) (hpage : s.pipes g = none)
    (hheld : ∀ f, x.held f = (s.procs p).held f) (hpending : ∀ g w, x.pending g w = (s.procs p).pending g w)
    (hfits : ∀ files, Fits files x.exiting rest → Fits files x.exiting x.todo)
    (hexit : x.exiting = (s.procs p).exiting) : Inv ((pipeFiles s rf wf g).setProc p x) := by
  have hpagefresh := hi.fresh p _ (htodo ▸ mem_cons_self)
  obtain ⟨hr1, hr2⟩ := hpagefresh rf (by simp [Task.fresh])
  obtain ⟨hw1, hw2⟩ := hpagefresh wf (by simp [Task.fresh])
  have hrh := held_cons htodo rf
  have hwh := held_cons htodo wf
  have hrle := hi.held_le p rf
  have hwle := hi.held_le p wf
  simp only [Task.refs, if_true] at hrh hwh
  have hne : wf ≠ rf := fun e => by
    rw [if_pos e] at hrh
    omega
  obtain ⟨yr, hyr⟩ : ∃ y : File G, y =
      { s.files rf with type := .pipe, readable := true, writable := false, pipe := some g } := ⟨_, rfl⟩
  obtain ⟨yw, hyw⟩ : ∃ y : File G, y =
      { s.files wf with type := .pipe, readable := false, writable := true, pipe := some g } := ⟨_, rfl⟩
  have hrest := hi.not_fresh (f := rf) htodo (.inr (by simp [Task.refs]))
  have hrest' := hi.not_fresh (f := wf) htodo (.inr (by simp [Task.refs]))
  obtain ⟨files, hfiles⟩ : ∃ files : F → File G, files = update (update s.files rf yr) wf yw := ⟨_, rfl⟩
  have hfile (f : F) : (files f).ref = (s.files f).ref ∧
      (files f = s.files f ∨ 0 < (s.procs p).held f ∨ (s.files f).ref = 0) ∧
      ((files f).ref = 0 → (files f).type = .none) ∧
      ((files f).type = .pipe → (files f).pipe ≠ none ∧ (files f).readable = !(files f).writable) := by
    rw [hfiles]
    by_cases ew : f = wf
    · rw [ew, update_self, hyw]
      exact ⟨rfl, .inr (.inl (by omega)), fun h => absurd (hw1.symm.trans h) nofun,
        fun _ => ⟨Option.some_ne_none _, rfl⟩⟩
    · rw [update_of_ne ew]
      by_cases er : f = rf
      · rw [er, update_self, hyr]
        exact ⟨rfl, .inr (.inl (by omega)), fun h => absurd (hr1.symm.trans h) nofun,
          fun _ => ⟨Option.some_ne_none _, rfl⟩⟩
      · rw [update_of_ne er]
        exact ⟨rfl, .inl rfl, hi.type f, hi.pipe f⟩
  have hshow : (Files.pipeFiles s rf wf g).setProc p x =
      ⟨files, update s.pipes g (some ⟨true, true⟩), update s.procs p x⟩ := by
    rw [hfiles, hyr, hyw]
    rfl
  rw [hshow]
  refine hi.move (fun f => by rw [hheld f, (hfile f).1]) (fun f => (hfile f).2.1) (fun f => (hfile f).2.2.1)
    (fun g' w => ?_) (fun g' e he => ?_) (fun f => (hfile f).2.2.2)
    (hfits _ (hexit ▸ hfiles ▸ ((hi.fits_rest htodo).set hrest yr).set hrest' yw)) (fun h => absurd hrun h)
    (fun fds h => ?_)
  rotate_right
  · -- a process that exits has no such task
    have := (hi.tasks p _ (htodo ▸ mem_cons_self)).2 (by rw [← hexit, h]; exact Option.some_ne_none _)
    cases this
  · have h1 := tally_update (fun z : File G => z.isEnd g' w) s.files rf yr
    have h2 := tally_update (fun z : File G => z.isEnd g' w) (update s.files rf yr) wf yw
    rw [update_of_ne hne] at h2
    have hr0 : (s.files rf).isEnd g' w = 0 := if_neg fun h => by rw [hr2] at h; cases h.1
    have hw0 : (s.files wf).isEnd g' w = 0 := if_neg fun h => by rw [hw2] at h; cases h.1
    have hyr1 : yr.isEnd g' w = if g = g' ∧ false = w then 1 else 0 := by
      simp only [File.isEnd, hyr, true_and, Option.some.injEq]
    have hyw1 : yw.isEnd g' w = if g = g' ∧ true = w then 1 else 0 := by
      simp only [File.isEnd, hyw, true_and, Option.some.injEq]
    have hopen : openEnds s.pipes g' w + (yr.isEnd g' w + yw.isEnd g' w) =
        openEnds (update s.pipes g (some ⟨true, true⟩)) g' w := by
      rw [hyr1, hyw1]
      simp only [openEnds]
      by_cases eg : g' = g
      · rw [eg, update_self, hpage]
        cases w <;> simp [Ends.isOpen]
      · rw [update_of_ne eg, if_neg (fun h => eg h.1.symm), if_neg (fun h => eg h.1.symm)]
        omega
    rw [hpending g' w, hfiles]
    simp only [hr0, hw0] at h1 h2
    omega
  · by_cases eg : g' = g
    · simp only [eg, update_self, Option.some.injEq] at he
      exact .inl (by rw [← he])
    · simp only [update_of_ne eg] at he
      exact hi.alive g' e he

lemma Inv.finishPipe {rf wf : F} {page : Option G} (copied : Bool)
    (htodo : (s.procs p).todo = .page rf wf :: rest) (hrun : (s.procs p).state = .running)
    (hpage : ∀ g, page = some g → s.pipes g = none) : Inv (finishPipe s p rf wf page copied rest) := by
  have hheld (x : Proc P G) (ho : x.ofile = (s.procs p).ofile) (ht : x.todo = .close rf :: .close wf :: rest) (f : F) :
      x.held f = (s.procs p).held f := by
    rw [held_cons htodo, held_cons ht, ho]
    simp only [map_cons, sum_cons, Task.refs]
    omega
  have hpending (x : Proc P G) (ht : x.todo = .close rf :: .close wf :: rest) (g : G) (w : Bool) :
      x.pending g w = (s.procs p).pending g w := by
    rw [pending_cons htodo, pending_cons ht]
    simp only [map_cons, sum_cons, Task.ends]
    omega
  have hfits (files : F → File G) (h : Fits files (s.procs p).exiting rest) :
      Fits files (s.procs p).exiting (.close rf :: .close wf :: rest) :=
    Fits.cons (t := .close rf) (.cons (t := .close wf) h trivial rfl) trivial rfl
  cases page with
  | none =>
    exact hi.moveProc (hheld _ rfl rfl) (hpending _ rfl) (hfits _ (hi.fits_rest htodo))
      (fun h => absurd hrun h) (hi.exiting p)
  | some g =>
    have hfree := hpage g rfl
    rcases pipeFds_spec (s.procs p).ofile rf wf copied with e | ⟨e2, e1⟩
    · simp only [Files.finishPipe, e]
      exact hi.pipeFiles htodo hrun hfree (hheld _ rfl rfl) (hpending _ rfl) hfits rfl
    · obtain ⟨o, ho⟩ : ∃ o, pipeFds (s.procs p).ofile rf wf copied = (o, true) := ⟨_, Prod.ext rfl e2⟩
      rw [ho] at e1
      simp only [Files.finishPipe, ho]
      refine hi.pipeFiles htodo hrun hfree (fun f => ?_) (fun g w => ?_) (fun _ h => h) rfl
      · rw [held_cons htodo, Proc.held, e1 f]
        simp only [Task.refs]
        omega
      · rw [pending_cons htodo, Proc.pending, Task.ends, Nat.zero_add]

omit [DecidableEq P] in
lemma Inv.running (htodo : (s.procs p).todo = t :: rest) : (s.procs p).state = .running := by
  by_contra h
  rw [(hi.unused p h).2] at htodo
  cases htodo

/-- **The end of `fork`**: the child gets the references that the parent's task has held. -/
lemma Inv.startChild {child : Table}
    (htodo : (s.procs p).todo = .copy q child [] :: rest) (hq : (s.procs q).state = .used) :
    Inv ((s.setProc p { s.procs p with todo := rest, failed := false }).setProc q ⟨.running, child, [], none, false⟩) := by
  have hrun := hi.running htodo
  have hne : q ≠ p := fun e => by
    rw [e, hrun] at hq
    cases hq
  obtain ⟨hempty, hnil⟩ := hi.unused q (by rw [hq]; exact fun h => by cases h)
  obtain ⟨x, hx⟩ : ∃ x : Proc P G, x = { s.procs p with todo := rest, failed := false } := ⟨_, rfl⟩
  obtain ⟨y, hy⟩ : ∃ y : Proc P G, y = ⟨.running, child, [], none, false⟩ := ⟨_, rfl⟩
  rw [← hx, ← hy]
  have hfine (r : P) : Fine s.files (update (update s.procs p x) q y r) := by
    by_cases e : r = q
    · rw [e, update_self, hy]
      exact ⟨.nil rfl, fun h => absurd rfl h, nofun⟩
    · rw [update_of_ne e]
      by_cases e' : r = p
      · rw [e', update_self, hx]
        exact ⟨hi.fits_rest htodo, fun h => absurd hrun h, hi.exiting p⟩
      · rw [update_of_ne e']
        exact hi.fine r
  refine ⟨fun f => ?_, hi.type, fun g w => ?_, hi.alive, hi.pipe, fun r t ht => ((hfine r).1 t ht).1,
    fun r t ht => ((hfine r).1 t ht).2, fun r => (hfine r).2.1, fun r => (hfine r).2.2⟩
  · have h1 := tally_update (fun z : Proc P G => z.held f) s.procs p x
    have h2 := tally_update (fun z : Proc P G => z.held f) (update s.procs p x) q y
    rw [update_of_ne hne] at h2
    have h3 : (s.procs q).held f = 0 := by
      rw [held_idle hnil, show (s.procs q).ofile = fun _ => none from funext hempty, slots_empty]
    have h4 := held_cons htodo f
    have h5 : x.held f = slots (s.procs p).ofile f + (rest.map (Task.refs f)).sum := by
      rw [hx, Proc.held]
    have h6 : y.held f = slots child f := by
      rw [held_idle (by rw [hy]), hy]
    have h7 := hi.ref f
    simp only [Task.refs] at h4
    simp only [State.setProc]
    omega
  · have h1 := tally_update (fun z : Proc P G => z.pending g w) s.procs p x
    have h2 := tally_update (fun z : Proc P G => z.pending g w) (update s.procs p x) q y
    rw [update_of_ne hne] at h2
    have h3 := pending_idle hnil g w
    have h4 := pending_cons htodo g w
    have h5 : x.pending g w = (rest.map (Task.ends g w)).sum := by
      rw [hx, Proc.pending]
    have h6 : y.pending g w = 0 := pending_idle (by rw [hy]) g w
    have h7 := hi.ends g w
    simp only [Task.ends] at h4
    simp only [State.setProc]
    omega

lemma Inv.copyNext {child : Table} (htodo : (s.procs p).todo = .copy q child fds :: rest) :
    copyNext s p q child fds rest = .blocked ∨ ∃ s', copyNext s p q child fds rest = .ok s' ∧ Inv s' := by
  have hrun := hi.running htodo
  cases fds with
  | nil =>
    simp only [Files.copyNext]
    by_cases hq : (s.procs q).state = .used
    · rw [if_pos hq]
      exact .inr ⟨_, rfl, hi.startChild htodo hq⟩
    · rw [if_neg hq]
      exact .inl rfl
  | cons fd fds =>
    right
    obtain ⟨⟨hnodup, hnone⟩, -⟩ := hi.tasks p _ (htodo ▸ mem_cons_self)
    obtain ⟨hnot, hnodup⟩ := nodup_cons.mp hnodup
    cases hf : (s.procs p).ofile fd with
    | none =>
      simp only [Files.copyNext, hf]
      refine ⟨_, rfl, hi.moveProc (fun f => ?_) (fun g w => ?_) ((hi.fits_rest htodo).cons
        ⟨hnodup, fun d hd => hnone d (mem_cons_of_mem fd hd)⟩ rfl) (fun h => absurd hrun h) (hi.exiting p)⟩
      · rw [held_cons htodo, held_cons rfl]
        rfl
      · rw [pending_cons htodo, pending_cons rfl]
        rfl
    | some f =>
      have hslot := slots_pos hf
      have hheld := held_cons htodo f
      have hle := hi.held_le p f
      simp only [Files.copyNext, hf]
      rw [if_neg (by omega)]
      -- the process has a descriptor for `f`, so that it is not one of the new files
      have hrest := hi.not_fresh (f := f) htodo (.inr (by omega))
      refine ⟨_, rfl, hi.moveFile ?_ (fun f' hne => ?_) (.inl (by omega)) (fun h => by cases h) (fun g w => ?_)
        (hi.pipe f) (((hi.fits_rest htodo).set hrest _).cons ⟨hnodup, fun d hd => ?_⟩ rfl)
        (fun h => absurd hrun h) (hi.exiting p)⟩
      · rw [held_cons htodo, held_cons rfl]
        simp only [Task.refs, slots_set (hnone fd mem_cons_self), if_true]
        omega
      · rw [held_cons htodo, held_cons rfl]
        simp only [Task.refs, slots_set (hnone fd mem_cons_self), if_neg hne.symm, Nat.add_zero]
      · rw [pending_cons htodo, pending_cons rfl]
        rfl
      · rw [update_of_ne (fun e : d = fd => hnot (e ▸ hd))]
        exact hnone d (mem_cons_of_mem fd hd)

lemma Inv.dropNext (htodo : (s.procs p).todo = [])
    (hex : (s.procs p).exiting = some fds) : Inv (dropNext s p fds) := by
  have hnone := hi.exiting p fds hex
  cases fds with
  | nil =>
    exact hi.moveProc (fun _ => rfl) (fun _ _ => rfl) (.nil htodo)
      (fun _ => ⟨fun fd => hnone fd not_mem_nil, htodo⟩) (fun fds h => by cases h)
  | cons fd fds =>
    cases hf : (s.procs p).ofile fd with
    | none =>
      simp only [Files.dropNext, hf]
      refine hi.moveProc (fun _ => rfl) (fun _ _ => rfl) (.nil htodo) (hi.unused p) (fun fds' h d hd => ?_)
      cases h
      by_cases e : d = fd
      · rw [e]
        exact hf
      · exact hnone d (fun hm => (mem_cons.mp hm).elim e hd)
    | some f =>
      simp only [Files.dropNext, hf]
      refine hi.moveProc (held_drop htodo hf rfl rfl) (fun g w => ?_) (.cons (.nil rfl) trivial rfl)
        (fun h => ?_) (fun fds' h d hd => ?_)
      · rw [pending_idle htodo, pending_cons rfl]
        rfl
      · have := (hi.unused p h).1 fd
        rw [hf] at this
        cases this
      · cases h
        by_cases e : d = fd
        · rw [e]
          exact update_self ..
        · simp only [update_of_ne e]
          exact hnone d (fun hm => (mem_cons.mp hm).elim e hd)

lemma Inv.fork (hidle : s.Idle p) (hq : (s.procs q).state = .unused) :
    Inv ((s.setProc q { s.procs q with state := .used }).setProc p
      { s.procs p with todo := [.copy q (fun _ => none) (List.finRange NOFILE)] }) := by
  have hne : p ≠ q := fun e => by
    have := hidle.1
    rw [e, hq] at this
    cases this
  have hnr : (s.procs q).state ≠ .running := by
    rw [hq]
    exact fun h => by cases h
  have hfirst : Inv (s.setProc q { s.procs q with state := .used }) :=
    hi.moveProc (fun _ => rfl) (fun _ _ => rfl) (hi.fits q) (fun _ => hi.unused q hnr) (hi.exiting q)
  have hp : (s.setProc q { s.procs q with state := .used }).procs p = s.procs p := update_of_ne hne ..
  refine hfirst.moveProc (fun f => ?_) (fun g w => ?_) (.cons (.nil rfl) ⟨nodup_finRange _, fun _ _ => rfl⟩ rfl)
    (fun h => absurd hidle.1 h) (hi.exiting p)
  · rw [hp, held_idle hidle.todo_eq, held_cons rfl]
    simp [Task.refs, slots_empty]
  · rw [hp, pending_idle hidle.todo_eq, pending_cons rfl]
    rfl

lemma Inv.exit (hidle : s.Idle p) :
    Inv (s.setProc p { s.procs p with exiting := some (List.finRange NOFILE) }) := by
  refine hi.moveProc (fun _ => rfl) (fun _ _ => rfl) (.nil hidle.todo_eq) (hi.unused p) (fun fds h d hd => ?_)
  cases h
  exact absurd (mem_finRange d) hd

/-- **A step** keeps the invariant, and none stops with a panic. -/
lemma Inv.does {e : Event P G} (hd : Allowed s e) : step s e = .blocked ∨ ∃ s', step s e = .ok s' ∧ Inv s' := by
  cases e with
  | «open» p device readable writable =>
    simp only [step]
    split
    · exact .inr ⟨_, rfl, hi.sysOpen ‹_› device readable writable⟩
    · exact .inl rfl
  | pipe p =>
    simp only [step]
    split
    · exact .inr ⟨_, rfl, hi.sysPipe ‹_›⟩
    · exact .inl rfl
  | dup p fd =>
    simp only [step]
    split
    · exact .inr (hi.sysDup ‹_› fd)
    · exact .inl rfl
  | close p fd =>
    simp only [step]
    split
    · exact .inr ⟨_, rfl, hi.sysClose ‹_› fd⟩
    · exact .inl rfl
  | fork p q =>
    simp only [step]
    split
    case isTrue h => exact .inr ⟨_, rfl, hi.fork h.1 h.2⟩
    case isFalse => exact .inl rfl
  | exit p =>
    simp only [step]
    split
    · exact .inr ⟨_, rfl, hi.exit ‹_›⟩
    · exact .inl rfl
  | task p page copied =>
    simp only [step, runTask]
    cases htodo : (s.procs p).todo with
    | nil =>
      cases hex : (s.procs p).exiting with
      | none => exact .inl rfl
      | some fds => exact .inr ⟨_, rfl, hi.dropNext htodo hex⟩
    | cons t rest =>
      have hrun := hi.running htodo
      cases t with
      | close f => exact .inr (hi.fileclose htodo hrun)
      | pipeclose g w => exact .inr (hi.pipeclose htodo hrun)
      | alloc rf => exact .inr ⟨_, rfl, hi.allocSecond htodo hrun⟩
      | page rf wf =>
        refine .inr ⟨_, rfl, hi.finishPipe copied htodo hrun fun g e => ?_⟩
        subst e
        exact hd
      | copy q child fds => exact hi.copyNext htodo

end

omit [DecidableEq P] in
lemma Inv.start (live : P → Bool) : Inv (start live : State P G) where
  ref f := by simp [Files.start, Proc.held, slots_empty]
  type f _ := rfl
  ends g w := by simp [Files.start, Proc.pending, File.isEnd, openEnds]
  alive g e h := by cases h
  pipe f h := by cases h
  fresh p t ht := by cases ht
  tasks p t ht := by cases ht
  unused p _ := ⟨fun _ => rfl, rfl⟩
  exiting p fds h := by cases h

lemma Inv.of_reach {live : P → Bool} (h : Reach step Allowed (Files.start live : State P G) s) : Inv s := by
  refine h.invariant (I := Inv) (Inv.start live) fun hi hd hs => ?_
  rcases hi.does hd with hb | ⟨s1, h1, hi1⟩
  · rw [hb] at hs
    cases hs
  · rw [h1] at hs
    cases hs
    exact hi1

end Sections

end FypOs.Ipc.Files
