import FypOs.Proc.State

/-!
# Proc — the process table

`fork`, `exit`, `wait`, `kill` and what they use of `kernel/proc.c`, on a process table with slots of
any type `P`; `procs` is the table in order.  A section of `p->lock` is one step.  `wait_lock` is explicit,
since `exit` and `wait` hold it while they go through the table.  `fork` and `exit` are modelled as far as
the table goes: without the memory, the files and the registers.

A process runs the steps of its own calls only while its state is `RUNNING`.  The records `allocs`,
`marks`, `hits`, `exits` and `reaped` are not part of the kernel: they say what has happened so far.
-/

namespace FypOs.Proc

open Lib

/-- What a process may sleep on: the address of a process, for `wait`, or something else. -/
inductive Chan (P : Type) where
  | proc (p : P)
  | other (n : Nat)
  deriving DecidableEq

/-- `struct proc`, as far as the table goes. -/
structure Slot (P : Type) where
  state : Procstate
  chan : Option (Chan P)
  killed : Bool
  xstate : Int32
  pid : Int32
  parent : Option P
  /-- There is a page table, and a trapframe. -/
  pagetable : Bool
  trapframe : Bool

/-- Where a process is. -/
inductive Pc (P : Type) where
  | user
  /-- `fork` has released the lock of the new slot, before it sets its parent. -/
  | forking (q : P)
  /-- `fork` has set the parent of the new process, before it makes it runnable. -/
  | parented (q : P)
  /-- `exit` holds `wait_lock`, in the loop of `reparent`. -/
  | reparenting (rest : List P) (status : Int32)
  /-- The same, in the loop of `wakeup(initproc)`. -/
  | wakingInit (todo rest : List P) (status : Int32)
  /-- `exit` holds `wait_lock`, in the loop of `wakeup(p->parent)`. -/
  | wakingParent (todo : List P) (status : Int32)
  /-- `exit` holds `wait_lock`, about to take `p->lock`. -/
  | dying (status : Int32)
  | gone
  /-- `wait` holds `wait_lock`, in its loop through the table. -/
  | scanning (rest : List P) (havekids : Bool)
  /-- `wait` holds `wait_lock`, has found that the process is not killed, and is about to sleep. -/
  | checked
  /-- `wait` is in `sleep`, or has left it to take `wait_lock` again. -/
  | waiting
  | rewait
  /-- `kill` goes through the table. -/
  | killing (pid : Int32) (rest : List P)
  deriving DecidableEq

structure State (P : Type) where
  slots : P → Slot P
  pcs : P → Pc P
  waitLock : Option P
  nextpid : Int32
  /-- The number of allocations so far. -/
  allocs : Nat
  /-- The pids of the processes that a `kill` has found, and of those that were at fault. -/
  marks : List Int32
  /-- The states of the slots for which a `kill` has returned 0. -/
  hits : List Procstate
  /-- The number of the process in a slot, in the order of allocation, and that of the process that has
  forked it. -/
  serial : P → Nat
  maker : P → Nat
  /-- The number, pid and status of every process that has exited. -/
  exits : List (Nat × Int32 × Int32)
  /-- Every `wait` that was successful: the process, and the number, pid and status of its child. -/
  reaped : List (P × Nat × Int32 × Int32)

/-- How far `fork` gets with the new slot. -/
inductive Made where
  | noTrapframe
  | noPagetable
  /-- `uvmcopy` fails. -/
  | noMemory
  | ok
  deriving DecidableEq

inductive Event (P : Type) where
  /-- `fork` finds slot `q`. -/
  | alloc (p q : P) (made : Made)
  | setParent (p : P)
  | ready (p : P)
  | exit (p : P) (status : Int32)
  /-- The next turn of the loop of `reparent`, or of a `wakeup` in `exit`. -/
  | reparent (p : P)
  | wake (p : P)
  | die (p : P)
  /-- `wait` takes `wait_lock`. -/
  | wait (p : P)
  /-- The next turn of its loop; `copyout` says whether the status can be copied, if it is asked for. -/
  | scan (p : P) (copyout : Bool)
  /-- The end of the loop: `killed`, and then `sleep`. -/
  | sleepWait (p : P)
  | kill (p : P) (pid : Int32)
  | killScan (p : P)
  /-- `setkilled` by the process itself, which was at fault. -/
  | fault (p : P)
  | sleepOther (p : P) (n : Nat)
  | wakeOther (q : P) (n : Nat)
  | yield (p : P)
  | schedule (p : P)

/-- `freeproc`. -/
def freeproc {P : Type} (_ : Slot P) : Slot P := ⟨.unused, none, false, 0, 0, none, false, false⟩

/-- The slot after `allocproc` and the copying of `fork` have gone as far as `made`. -/
def Slot.make {P : Type} (pid : Int32) (made : Made) (s : Slot P) : Slot P :=
  let s₁ := { s with pid := pid, state := .used }
  match made with
  | .noTrapframe => freeproc s₁
  | .noPagetable => freeproc { s₁ with trapframe := true }
  | .noMemory => freeproc { s₁ with trapframe := true, pagetable := true }
  | .ok => { s₁ with trapframe := true, pagetable := true }

/-- A turn of the loop of `wakeup(chan)`. -/
def Slot.wakeup {P : Type} [DecidableEq P] (chan : Option (Chan P)) (s : Slot P) : Slot P :=
  if s.state = .sleeping ∧ s.chan = chan then { s with state := .runnable } else s

/-- What `kill` does to the process that it finds. -/
def Slot.kill {P : Type} (s : Slot P) : Slot P :=
  { s with killed := true, state := if s.state = .sleeping then .runnable else s.state }

section

variable {P : Type} [DecidableEq P]

namespace State

def setSlot (t : State P) (p : P) (g : Slot P → Slot P) : State P :=
  { t with slots := Function.update t.slots p (g (t.slots p)) }

def setPc (t : State P) (p : P) (pc : Pc P) : State P :=
  { t with pcs := Function.update t.pcs p pc }

end State

/-- The calls of a process that is running. -/
def stepRunning (procs : List P) (initproc : P) (t : State P) (p : P) : Event P → Outcome (State P)
  | .alloc _ q made =>
    if t.pcs p = .user ∧ (t.slots q).state = .unused then
      let t₁ := { t.setSlot q (Slot.make t.nextpid made) with
        nextpid := t.nextpid + 1, allocs := t.allocs + 1 }
      if made = .ok then
        .ok { (t₁.setPc q .user).setPc p (.forking q) with
          serial := Function.update t.serial q t.allocs
          maker := Function.update t.maker q (t.serial p) }
      else .ok t₁
    else .blocked
  | .setParent _ =>
    match t.pcs p with
    | .forking q =>
      if t.waitLock = none then
        .ok ((t.setSlot q fun s => { s with parent := some p }).setPc p (.parented q))
      else .blocked
    | _ => .blocked
  | .ready _ =>
    match t.pcs p with
    | .parented q => .ok ((t.setSlot q fun s => { s with state := .runnable }).setPc p .user)
    | _ => .blocked
  | .exit _ status =>
    if t.pcs p = .user ∧ t.waitLock = none then
      if p = initproc then .panic "init exiting"
      else .ok { t.setPc p (.reparenting procs status) with waitLock := some p }
    else .blocked
  | .reparent _ =>
    match t.pcs p with
    | .reparenting (q :: rest) status =>
      if (t.slots q).parent = some p then
        .ok ((t.setSlot q fun s => { s with parent := some initproc }).setPc p
          (.wakingInit procs rest status))
      else .ok (t.setPc p (.reparenting rest status))
    | .reparenting [] status => .ok (t.setPc p (.wakingParent procs status))
    | _ => .blocked
  | .wake _ =>
    match t.pcs p with
    | .wakingInit (q :: todo) rest status =>
      let t₁ := if q = p then t else t.setSlot q (Slot.wakeup (some (.proc initproc)))
      .ok (t₁.setPc p (.wakingInit todo rest status))
    | .wakingInit [] rest status => .ok (t.setPc p (.reparenting rest status))
    | .wakingParent (q :: todo) status =>
      let t₁ := if q = p then t else t.setSlot q (Slot.wakeup ((t.slots p).parent.map .proc))
      .ok (t₁.setPc p (.wakingParent todo status))
    | .wakingParent [] status => .ok (t.setPc p (.dying status))
    | _ => .blocked
  | .die _ =>
    match t.pcs p with
    | .dying status =>
      .ok { (t.setSlot p fun s => { s with xstate := status, state := .zombie }).setPc p .gone with
        waitLock := none, exits := t.exits ++ [(t.serial p, (t.slots p).pid, status)] }
    | _ => .blocked
  | .wait _ =>
    if (t.pcs p = .user ∨ t.pcs p = .rewait) ∧ t.waitLock = none then
      .ok { t.setPc p (.scanning procs false) with waitLock := some p }
    else .blocked
  | .scan _ copyout =>
    match t.pcs p with
    | .scanning (q :: rest) havekids =>
      if (t.slots q).parent = some p then
        if (t.slots q).state = .zombie then
          if copyout then
            .ok { (t.setSlot q freeproc).setPc p .user with
              waitLock := none
              reaped := t.reaped ++ [(p, t.serial q, (t.slots q).pid, (t.slots q).xstate)] }
          else .ok { t.setPc p .user with waitLock := none }
        else .ok (t.setPc p (.scanning rest true))
      else .ok (t.setPc p (.scanning rest havekids))
    | _ => .blocked
  | .sleepWait _ =>
    match t.pcs p with
    | .scanning [] havekids =>
      if havekids = false ∨ (t.slots p).killed = true then .ok { t.setPc p .user with waitLock := none }
      else .ok (t.setPc p .checked)
    | .checked =>
      .ok { (t.setSlot p fun s => { s with chan := some (.proc p), state := .sleeping }).setPc p
        .waiting with waitLock := none }
    | _ => .blocked
  | .kill _ pid =>
    if t.pcs p = .user then .ok (t.setPc p (.killing pid procs)) else .blocked
  | .killScan _ =>
    match t.pcs p with
    | .killing pid (q :: rest) =>
      if (t.slots q).pid = pid then
        .ok { (t.setSlot q Slot.kill).setPc p .user with
          hits := (t.slots q).state :: t.hits, marks := pid :: t.marks }
      else .ok (t.setPc p (.killing pid rest))
    | .killing _ [] => .ok (t.setPc p .user)
    | _ => .blocked
  | .fault _ =>
    if t.pcs p = .user then
      .ok { t.setSlot p (fun s => { s with killed := true }) with marks := (t.slots p).pid :: t.marks }
    else .blocked
  | .sleepOther _ n =>
    if t.pcs p = .user then
      .ok (t.setSlot p fun s => { s with chan := some (.other n), state := .sleeping })
    else .blocked
  | .yield _ =>
    -- a processor that holds `wait_lock` takes no interrupts
    if t.waitLock ≠ some p then .ok (t.setSlot p fun s => { s with state := .runnable }) else .blocked
  | .wakeOther .. | .schedule _ => .blocked

/-- The process that takes a step of its own. -/
def Event.actor : Event P → Option P
  | .alloc p _ _ | .setParent p | .ready p | .exit p _ | .reparent p | .wake p | .die p | .wait p
  | .scan p _ | .sleepWait p | .kill p _ | .killScan p | .fault p | .sleepOther p _ | .yield p => some p
  | .wakeOther .. | .schedule _ => none

def step (procs : List P) (initproc : P) (t : State P) (e : Event P) : Outcome (State P) :=
  match e.actor with
  | some p => if (t.slots p).state = .running then stepRunning procs initproc t p e else .blocked
  | none =>
    match e with
    | .wakeOther q n => .ok (t.setSlot q (Slot.wakeup (some (.other n))))
    | .schedule p =>
      if (t.slots p).state = .runnable then
        -- the end of `sleep` clears the channel
        if t.pcs p = .waiting then
          .ok ((t.setSlot p fun s => { s with state := .running, chan := none }).setPc p .rewait)
        else .ok (t.setSlot p fun s => { s with state := .running, chan := none })
      else .blocked
    | _ => .blocked

/-- The table after `userinit`: the first process is ready to run. -/
def start (initproc : P) : State P where
  slots p := if p = initproc then ⟨.runnable, none, false, 0, 1, none, true, true⟩
    else ⟨.unused, none, false, 0, 0, none, false, false⟩
  pcs _ := .user
  waitLock := none
  nextpid := 2
  allocs := 1
  marks := []
  hits := []
  serial _ := 0
  maker _ := 0
  exits := []
  reaped := []

/-! ### What a step can do -/

/-- The steps, one by one. -/
inductive Step (procs : List P) (initproc : P) (t : State P) : Event P → State P → Prop where
  | allocFail {p q : P} {made : Made} (hr : (t.slots p).state = .running) (hpc : t.pcs p = .user)
      (hq : (t.slots q).state = .unused) (hm : made ≠ .ok) :
      Step procs initproc t (.alloc p q made) { t.setSlot q freeproc with
        nextpid := t.nextpid + 1, allocs := t.allocs + 1 }
  | alloc {p q : P} (hr : (t.slots p).state = .running) (hpc : t.pcs p = .user)
      (hq : (t.slots q).state = .unused) :
      Step procs initproc t (.alloc p q .ok) { ((t.setSlot q fun s => { s with
          pid := t.nextpid, state := .used, trapframe := true, pagetable := true }).setPc q .user).setPc p
            (.forking q) with
        nextpid := t.nextpid + 1, allocs := t.allocs + 1
        serial := Function.update t.serial q t.allocs
        maker := Function.update t.maker q (t.serial p) }
  | setParent {p q : P} (hr : (t.slots p).state = .running) (hpc : t.pcs p = .forking q)
      (hl : t.waitLock = none) : Step procs initproc t (.setParent p)
        ((t.setSlot q fun s => { s with parent := some p }).setPc p (.parented q))
  | ready {p q : P} (hr : (t.slots p).state = .running) (hpc : t.pcs p = .parented q) :
      Step procs initproc t (.ready p)
        ((t.setSlot q fun s => { s with state := .runnable }).setPc p .user)
  | exit {p : P} {status : Int32} (hr : (t.slots p).state = .running) (hpc : t.pcs p = .user)
      (hl : t.waitLock = none) (hp : p ≠ initproc) : Step procs initproc t (.exit p status)
        { t.setPc p (.reparenting procs status) with waitLock := some p }
  | reparent {p q : P} {rest : List P} {status : Int32} (hr : (t.slots p).state = .running)
      (hpc : t.pcs p = .reparenting (q :: rest) status) (hq : (t.slots q).parent = some p) :
      Step procs initproc t (.reparent p) ((t.setSlot q fun s => { s with parent := some initproc }).setPc p
        (.wakingInit procs rest status))
  | reparentNext {p q : P} {rest : List P} {status : Int32} (hr : (t.slots p).state = .running)
      (hpc : t.pcs p = .reparenting (q :: rest) status) (hq : (t.slots q).parent ≠ some p) :
      Step procs initproc t (.reparent p) (t.setPc p (.reparenting rest status))
  | reparentDone {p : P} {status : Int32} (hr : (t.slots p).state = .running)
      (hpc : t.pcs p = .reparenting [] status) :
      Step procs initproc t (.reparent p) (t.setPc p (.wakingParent procs status))
  | wakeSelf {p : P} {todo rest : List P} {status : Int32} (hr : (t.slots p).state = .running)
      (hpc : t.pcs p = .wakingInit (p :: todo) rest status) :
      Step procs initproc t (.wake p) (t.setPc p (.wakingInit todo rest status))
  | wakeInit {p q : P} {todo rest : List P} {status : Int32} (hr : (t.slots p).state = .running)
      (hpc : t.pcs p = .wakingInit (q :: todo) rest status) (hq : q ≠ p) :
      Step procs initproc t (.wake p) ((t.setSlot q (Slot.wakeup (some (.proc initproc)))).setPc p
        (.wakingInit todo rest status))
  | wakeInitDone {p : P} {rest : List P} {status : Int32} (hr : (t.slots p).state = .running)
      (hpc : t.pcs p = .wakingInit [] rest status) :
      Step procs initproc t (.wake p) (t.setPc p (.reparenting rest status))
  | wakeParentSelf {p : P} {todo : List P} {status : Int32} (hr : (t.slots p).state = .running)
      (hpc : t.pcs p = .wakingParent (p :: todo) status) :
      Step procs initproc t (.wake p) (t.setPc p (.wakingParent todo status))
  | wakeParent {p q : P} {todo : List P} {status : Int32} (hr : (t.slots p).state = .running)
      (hpc : t.pcs p = .wakingParent (q :: todo) status) (hq : q ≠ p) :
      Step procs initproc t (.wake p) ((t.setSlot q (Slot.wakeup ((t.slots p).parent.map .proc))).setPc p
        (.wakingParent todo status))
  | wakeParentDone {p : P} {status : Int32} (hr : (t.slots p).state = .running)
      (hpc : t.pcs p = .wakingParent [] status) :
      Step procs initproc t (.wake p) (t.setPc p (.dying status))
  | die {p : P} {status : Int32} (hr : (t.slots p).state = .running) (hpc : t.pcs p = .dying status) :
      Step procs initproc t (.die p)
        { (t.setSlot p fun s => { s with xstate := status, state := .zombie }).setPc p .gone with
          waitLock := none, exits := t.exits ++ [(t.serial p, (t.slots p).pid, status)] }
  | wait {p : P} (hr : (t.slots p).state = .running) (hpc : t.pcs p = .user ∨ t.pcs p = .rewait)
      (hl : t.waitLock = none) : Step procs initproc t (.wait p)
        { t.setPc p (.scanning procs false) with waitLock := some p }
  | reap {p q : P} {rest : List P} {havekids : Bool} (hr : (t.slots p).state = .running)
      (hpc : t.pcs p = .scanning (q :: rest) havekids) (hq : (t.slots q).parent = some p)
      (hz : (t.slots q).state = .zombie) : Step procs initproc t (.scan p true)
        { (t.setSlot q freeproc).setPc p .user with
          waitLock := none, reaped := t.reaped ++ [(p, t.serial q, (t.slots q).pid, (t.slots q).xstate)] }
  | reapFail {p q : P} {rest : List P} {havekids : Bool} (hr : (t.slots p).state = .running)
      (hpc : t.pcs p = .scanning (q :: rest) havekids) (hq : (t.slots q).parent = some p)
      (hz : (t.slots q).state = .zombie) :
      Step procs initproc t (.scan p false) { t.setPc p .user with waitLock := none }
  | scanChild {p q : P} {rest : List P} {havekids copyout : Bool} (hr : (t.slots p).state = .running)
      (hpc : t.pcs p = .scanning (q :: rest) havekids) (hq : (t.slots q).parent = some p)
      (hz : (t.slots q).state ≠ .zombie) :
      Step procs initproc t (.scan p copyout) (t.setPc p (.scanning rest true))
  | scanNext {p q : P} {rest : List P} {havekids copyout : Bool} (hr : (t.slots p).state = .running)
      (hpc : t.pcs p = .scanning (q :: rest) havekids) (hq : (t.slots q).parent ≠ some p) :
      Step procs initproc t (.scan p copyout) (t.setPc p (.scanning rest havekids))
  | waitFail {p : P} {havekids : Bool} (hr : (t.slots p).state = .running)
      (hpc : t.pcs p = .scanning [] havekids) (hk : havekids = false ∨ (t.slots p).killed = true) :
      Step procs initproc t (.sleepWait p) { t.setPc p .user with waitLock := none }
  | waitOn {p : P} (hr : (t.slots p).state = .running) (hpc : t.pcs p = .scanning [] true) :
      Step procs initproc t (.sleepWait p) (t.setPc p .checked)
  | sleepWait {p : P} (hr : (t.slots p).state = .running) (hpc : t.pcs p = .checked) :
      Step procs initproc t (.sleepWait p)
        { (t.setSlot p fun s => { s with chan := some (.proc p), state := .sleeping }).setPc p
          .waiting with waitLock := none }
  | kill {p : P} {pid : Int32} (hr : (t.slots p).state = .running) (hpc : t.pcs p = .user) :
      Step procs initproc t (.kill p pid) (t.setPc p (.killing pid procs))
  | killHit {p q : P} {pid : Int32} {rest : List P} (hr : (t.slots p).state = .running)
      (hpc : t.pcs p = .killing pid (q :: rest)) (hq : (t.slots q).pid = pid) :
      Step procs initproc t (.killScan p) { (t.setSlot q Slot.kill).setPc p .user with
        hits := (t.slots q).state :: t.hits, marks := pid :: t.marks }
  | killNext {p q : P} {pid : Int32} {rest : List P} (hr : (t.slots p).state = .running)
      (hpc : t.pcs p = .killing pid (q :: rest)) (hq : (t.slots q).pid ≠ pid) :
      Step procs initproc t (.killScan p) (t.setPc p (.killing pid rest))
  | killFail {p : P} {pid : Int32} (hr : (t.slots p).state = .running)
      (hpc : t.pcs p = .killing pid []) : Step procs initproc t (.killScan p) (t.setPc p .user)
  | fault {p : P} (hr : (t.slots p).state = .running) (hpc : t.pcs p = .user) :
      Step procs initproc t (.fault p) { t.setSlot p (fun s => { s with killed := true }) with
        marks := (t.slots p).pid :: t.marks }
  | sleepOther {p : P} {n : Nat} (hr : (t.slots p).state = .running) (hpc : t.pcs p = .user) :
      Step procs initproc t (.sleepOther p n)
        (t.setSlot p fun s => { s with chan := some (.other n), state := .sleeping })
  | wakeOther {q : P} {n : Nat} :
      Step procs initproc t (.wakeOther q n) (t.setSlot q (Slot.wakeup (some (.other n))))
  | yield {p : P} (hr : (t.slots p).state = .running) (hl : t.waitLock ≠ some p) :
      Step procs initproc t (.yield p) (t.setSlot p fun s => { s with state := .runnable })
  | resume {p : P} (hs : (t.slots p).state = .runnable) (hpc : t.pcs p = .waiting) :
      Step procs initproc t (.schedule p)
        ((t.setSlot p fun s => { s with state := .running, chan := none }).setPc p .rewait)
  | schedule {p : P} (hs : (t.slots p).state = .runnable) (hpc : t.pcs p ≠ .waiting) :
      Step procs initproc t (.schedule p)
        (t.setSlot p fun s => { s with state := .running, chan := none })

omit [DecidableEq P] in
lemma make_of_ne_ok {made : Made} {pid : Int32} (h : made ≠ .ok) :
    (Slot.make pid made : Slot P → Slot P) = freeproc := by
  cases made with
  | ok => exact absurd rfl h
  | noTrapframe | noPagetable | noMemory => rfl

variable {procs : List P} {initproc : P} {t t' : State P} {e : Event P}

lemma stepRunning_cases {p : P} (he : e.actor = some p) (hr : (t.slots p).state = .running)
    (h : stepRunning procs initproc t p e = .ok t') : Step procs initproc t e t' := by
  cases e with cases he <;> simp only [stepRunning] at h
  | alloc p q made =>
    split_ifs at h with hc hm
    · subst hm
      cases h
      exact .alloc hr hc.1 hc.2
    · cases h
      rw [make_of_ne_ok hm]
      exact .allocFail hr hc.1 hc.2 hm
  | setParent p =>
    split at h
    · split_ifs at h
      cases h
      exact .setParent hr ‹_› ‹_›
    · cases h
  | ready p =>
    split at h
    · cases h
      exact .ready hr ‹_›
    · cases h
  | exit p status =>
    split_ifs at h with hc
    cases h
    exact .exit hr hc.1 hc.2 ‹_›
  | reparent p =>
    split at h
    · split_ifs at h
      · cases h
        exact .reparent hr ‹_› ‹_›
      · cases h
        exact .reparentNext hr ‹_› ‹_›
    · cases h
      exact .reparentDone hr ‹_›
    · cases h
  | wake p =>
    split at h
    · rename_i hpc
      cases h
      split
      · rename_i e
        subst e
        exact .wakeSelf hr hpc
      · exact .wakeInit hr hpc ‹_›
    · cases h
      exact .wakeInitDone hr ‹_›
    · rename_i hpc
      cases h
      split
      · rename_i e
        subst e
        exact .wakeParentSelf hr hpc
      · exact .wakeParent hr hpc ‹_›
    · cases h
      exact .wakeParentDone hr ‹_›
    · cases h
  | die p =>
    split at h
    · cases h
      exact .die hr ‹_›
    · cases h
  | wait p =>
    split_ifs at h with hc
    cases h
    exact .wait hr hc.1 hc.2
  | scan p copyout =>
    split at h
    · split_ifs at h with hq hz hc
      · cases h
        exact hc ▸ .reap hr ‹_› hq hz
      · cases h
        exact eq_false_of_ne_true hc ▸ .reapFail hr ‹_› hq hz
      · cases h
        exact .scanChild hr ‹_› hq hz
      · cases h
        exact .scanNext hr ‹_› hq
    · cases h
  | sleepWait p =>
    split at h
    · rename_i hpc
      split_ifs at h with hk
      · cases h
        exact .waitFail hr hpc hk
      · cases h
        rw [not_or, Bool.not_eq_false] at hk
        exact .waitOn hr (hk.1 ▸ hpc)
    · cases h
      exact .sleepWait hr ‹_›
    · cases h
  | kill p pid =>
    split_ifs at h
    cases h
    exact .kill hr ‹_›
  | killScan p =>
    split at h
    · split_ifs at h
      · cases h
        exact .killHit hr ‹_› ‹_›
      · cases h
        exact .killNext hr ‹_› ‹_›
    · cases h
      exact .killFail hr ‹_›
    · cases h
  | fault p =>
    split_ifs at h
    cases h
    exact .fault hr ‹_›
  | sleepOther p n =>
    split_ifs at h
    cases h
    exact .sleepOther hr ‹_›
  | yield p =>
    split_ifs at h
    cases h
    exact .yield hr ‹_›

lemma step_cases (h : step procs initproc t e = .ok t') : Step procs initproc t e t' := by
  unfold step at h
  split at h
  · rename_i p he
    split_ifs at h with hr
    exact stepRunning_cases he hr h
  · split at h
    · cases h
      exact .wakeOther
    · split_ifs at h
      · cases h
        exact .resume ‹_› ‹_›
      · cases h
        exact .schedule ‹_› ‹_›
    · cases h

end

end FypOs.Proc
