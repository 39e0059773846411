import FypOs.Proc.State

/-!
# Proc — the scheduler

`scheduler`, `sched`, `yield`, `sleep`, `exit` and `forkret` of `kernel/proc.c`, and what other calls do
to the state of a process: `fork`, `wait`, `wakeup` and `kill`.  There are any number of processors `K`
and of slots `P` in the process table.

`p->lock` is taken on one side of `swtch` and released on the other, so it is explicit: `lock` is the
processor that holds it.  A step does what a processor does between two changes of such a lock.

* `scheduler_safe`: which changes of state there are, and that the panics are out of reach.
-/

namespace FypOs.Proc.Sched

set_option linter.unusedSectionVars false

open Lib Function

/-- Where `swtch` goes on when it switches to a process. -/
inductive Ctx where
  | forkret
  | yield
  | sleep
  | exit
  deriving DecidableEq

structure Slot (P K C : Type) where
  state : Procstate
  chan : Option C
  /-- The processor that holds `p->lock`. -/
  lock : Option K
  ctx : Ctx
  /-- A `fork` of the process has released the lock of this slot, and has yet to make it runnable. -/
  child : Option P

/-- Where a processor is. -/
inductive Pc (P : Type) where
  /-- In the loop of `scheduler`. -/
  | scheduler
  /-- `scheduler` holds the lock of `p`, at the test of its state. -/
  | checking (p : P)
  /-- `swtch` has switched to the process, which holds its lock. -/
  | arrived
  /-- The process is running, and holds no lock of a slot. -/
  | running
  /-- The process is about to call `sched`, and holds its lock. -/
  | calling
  /-- `swtch` has switched back to `scheduler`, which holds the lock of `p`. -/
  | back (p : P)
  /-- The process is in `allocproc`, and holds the lock of the new slot. -/
  | allocating (q : P)
  deriving DecidableEq

structure Cpu (P : Type) where
  /-- `c->proc`. -/
  proc : Option P
  pc : Pc P

structure State (P K C : Type) where
  slots : P → Slot P K C
  cpus : K → Cpu P

inductive Event (P K C : Type) where
  /-- `scheduler` takes the lock of a slot. -/
  | pick (c : K) (p : P)
  /-- `scheduler` tests the state of the slot. -/
  | check (c : K)
  /-- The end of `forkret`, `yield`, `sleep` or `exit`. -/
  | resume (c : K)
  /-- The beginning of `yield`, `sleep`, or the last part of `exit`, up to the call of `sched`. -/
  | yield (c : K)
  | sleep (c : K) (chan : C)
  | exit (c : K)
  /-- `sched` switches to `scheduler`. -/
  | sched (c : K)
  /-- `scheduler` goes on after its `swtch`. -/
  | finish (c : K)
  /-- `allocproc` looks at a slot; then it fails, or `fork` goes on to release the lock. -/
  | alloc (c : K) (q : P)
  | allocFail (c : K)
  | allocDone (c : K)
  /-- `fork` makes the new process runnable. -/
  | ready (c : K)
  /-- `wait` looks at a slot. -/
  | reap (c : K) (q : P)
  | wakeup (c : K) (q : P) (chan : C)
  | kill (c : K) (q : P)

section

variable {P K C : Type} [DecidableEq P] [DecidableEq K] [DecidableEq C]

namespace State

def setSlot (t : State P K C) (p : P) (g : Slot P K C → Slot P K C) : State P K C :=
  { t with slots := update t.slots p (g (t.slots p)) }

def setCpu (t : State P K C) (c : K) (cpu : Cpu P) : State P K C :=
  { t with cpus := update t.cpus c cpu }

/-- The process that processor `c` is running, in the calls that it may make now. -/
def current (t : State P K C) (c : K) : Option P :=
  if (t.cpus c).pc = .running then (t.cpus c).proc else none

end State

/-- The part of `yield`, `sleep` and `exit` before `sched`: the process takes its lock and changes its
state. -/
def leave (t : State P K C) (c : K) (g : Slot P K C → Slot P K C) : Outcome (State P K C) :=
  match t.current c with
  | none => .blocked
  | some p =>
    if (t.slots p).lock = none then
      .ok ((t.setSlot p fun s => { g s with lock := some c }).setCpu c ⟨some p, .calling⟩)
    else .blocked

def step (t : State P K C) : Event P K C → Outcome (State P K C)
  | .pick c p =>
    if (t.cpus c).pc = .scheduler ∧ (t.slots p).lock = none then
      .ok ((t.setSlot p fun s => { s with lock := some c }).setCpu c ⟨(t.cpus c).proc, .checking p⟩)
    else .blocked
  | .check c =>
    match (t.cpus c).pc with
    | .checking p =>
      if (t.slots p).state = .runnable then
        .ok ((t.setSlot p fun s => { s with state := .running }).setCpu c ⟨some p, .arrived⟩)
      else
        .ok ((t.setSlot p fun s => { s with lock := none }).setCpu c ⟨(t.cpus c).proc, .scheduler⟩)
    | _ => .blocked
  | .resume c =>
    match (t.cpus c).pc, (t.cpus c).proc with
    | .arrived, some p =>
      match (t.slots p).ctx with
      | .exit => .panic "zombie exit"
      | .sleep =>
        .ok ((t.setSlot p fun s => { s with chan := none, lock := none }).setCpu c ⟨some p, .running⟩)
      | _ => .ok ((t.setSlot p fun s => { s with lock := none }).setCpu c ⟨some p, .running⟩)
    | _, _ => .blocked
  | .yield c => leave t c fun s => { s with state := .runnable, ctx := .yield }
  | .sleep c chan => leave t c fun s => { s with state := .sleeping, chan := some chan, ctx := .sleep }
  | .exit c => leave t c fun s => { s with state := .zombie, ctx := .exit }
  | .sched c =>
    match (t.cpus c).pc, (t.cpus c).proc with
    | .calling, some p =>
      if (t.slots p).lock ≠ some c then .panic "sched p->lock"
      else if (t.slots p).state = .running then .panic "sched running"
      else .ok (t.setCpu c ⟨some p, .back p⟩)
    | _, _ => .blocked
  | .finish c =>
    match (t.cpus c).pc with
    | .back p => .ok ((t.setSlot p fun s => { s with lock := none }).setCpu c ⟨none, .scheduler⟩)
    | _ => .blocked
  | .alloc c q =>
    match t.current c with
    | none => .blocked
    | some p =>
      if (t.slots p).child = none ∧ (t.slots q).lock = none ∧ (t.slots q).state = .unused then
        .ok ((t.setSlot q fun s => { s with state := .used, ctx := .forkret, lock := some c }).setCpu c
          ⟨some p, .allocating q⟩)
      else .blocked
  | .allocFail c =>
    match (t.cpus c).pc with
    | .allocating q =>
      .ok ((t.setSlot q fun s => { s with state := .unused, chan := none, lock := none }).setCpu c
        ⟨(t.cpus c).proc, .running⟩)
    | _ => .blocked
  | .allocDone c =>
    match (t.cpus c).pc, (t.cpus c).proc with
    | .allocating q, some p =>
      .ok (((t.setSlot q fun s => { s with lock := none }).setSlot p
        fun s => { s with child := some q }).setCpu c ⟨some p, .running⟩)
    | _, _ => .blocked
  | .ready c =>
    match t.current c with
    | none => .blocked
    | some p =>
      match (t.slots p).child with
      | none => .blocked
      | some q =>
        if (t.slots q).lock = none then
          .ok ((t.setSlot q fun s => { s with state := .runnable }).setSlot p
            fun s => { s with child := none })
        else .blocked
  | .reap c q =>
    if (t.current c).isSome ∧ (t.slots q).lock = none ∧ (t.slots q).state = .zombie then
      .ok (t.setSlot q fun s => { s with state := .unused, chan := none })
    else .blocked
  | .wakeup c q chan =>
    -- interrupt handlers call it too, also on a processor without a process
    if ((t.cpus c).pc = .running ∨ (t.cpus c).pc = .scheduler) ∧ (t.cpus c).proc ≠ some q ∧
        (t.slots q).lock = none ∧ (t.slots q).state = .sleeping ∧ (t.slots q).chan = some chan then
      .ok (t.setSlot q fun s => { s with state := .runnable })
    else .blocked
  | .kill c q =>
    if (t.current c).isSome ∧ (t.slots q).lock = none ∧ (t.slots q).state = .sleeping then
      .ok (t.setSlot q fun s => { s with state := .runnable })
    else .blocked

/-- The first process is ready to run, and all processors are in `scheduler`. -/
def start (initproc : P) : State P K C where
  slots p := ⟨if p = initproc then .runnable else .unused, none, none, .forkret, none⟩
  cpus _ := ⟨none, .scheduler⟩

end

/-! ### The invariant -/

section

variable {P K C : Type}

/-- The process of the processor is running. -/
def Pc.Runs : Pc P → Prop
  | .arrived | .running | .allocating _ => True
  | _ => False

/-- The process of the processor has changed its state, and is on its way to `scheduler`. -/
def Pc.Leaves : Pc P → Prop
  | .calling | .back _ => True
  | _ => False

/-- The slot whose lock the processor holds. -/
def Cpu.holds (cpu : Cpu P) : Option P :=
  match cpu.pc with
  | .checking p | .back p | .allocating p => some p
  | .arrived | .calling => cpu.proc
  | .scheduler | .running => none

structure Inv (t : State P K C) : Prop where
  lock : ∀ c p, (t.cpus c).holds = some p → (t.slots p).lock = some c
  /-- A processor has a process unless it is in `scheduler`. -/
  proc : ∀ c, (t.cpus c).proc ≠ none ↔ (t.cpus c).pc.Runs ∨ (t.cpus c).pc.Leaves
  runs : ∀ c p, (t.cpus c).proc = some p → (t.cpus c).pc.Runs → (t.slots p).state = .running
  leaves : ∀ c p, (t.cpus c).proc = some p → (t.cpus c).pc.Leaves → (t.slots p).lock = some c ∧
    (t.slots p).state ≠ .running
  one : ∀ c c' p, (t.cpus c).proc = some p → (t.cpus c').proc = some p → c = c'
  /-- A process that is running is running somewhere. -/
  somewhere : ∀ p, (t.slots p).state = .running → ∃ c, (t.cpus c).proc = some p
  /-- A process that has exited does not run again. -/
  exited : ∀ p, (t.slots p).ctx = .exit → (t.slots p).state = .zombie ∨ (t.slots p).state = .unused
  allocating : ∀ c q, (t.cpus c).pc = .allocating q → (t.slots q).state = .used ∧
    ∀ p, (t.slots p).child ≠ some q
  child : ∀ p q, (t.slots p).child = some q → (t.slots q).state = .used
  parent : ∀ p p' q, (t.slots p).child = some q → (t.slots p').child = some q → p = p'
  back : ∀ c p, (t.cpus c).pc = .back p → (t.cpus c).proc = some p

variable {t t' : State P K C} {c : K} {p : P}

lemma inv_start [DecidableEq P] (initproc : P) : Inv (start initproc : State P K C) := by
  refine ⟨nofun, fun c => ⟨fun h => absurd rfl h, nofun⟩, nofun, nofun, nofun, fun p hp => ?_, nofun,
    nofun, nofun, nofun, nofun⟩
  simp only [start] at hp
  split at hp <;> cases hp

variable [DecidableEq P] [DecidableEq K]

/-- The processor that holds the lock of a slot takes it or lets go of it, and goes on in `scheduler`. -/
lemma Inv.scan {pc : Pc P} {l : Option K} (h : Inv t)
    (hpc : (t.cpus c).pc = .scheduler ∧ (t.slots p).lock = none ∧ pc = .checking p ∧ l = some c ∨
      (t.cpus c).pc = .checking p ∧ pc = .scheduler ∧ l = none) :
    Inv ((t.setSlot p fun s => { s with lock := l }).setCpu c ⟨(t.cpus c).proc, pc⟩) := by
  cases h
  constructor <;> simp only [State.setSlot, State.setCpu, update_apply]
  all_goals grind [Cpu.holds, Pc.Runs, Pc.Leaves]

lemma Inv.switch (h : Inv t) (hpc : (t.cpus c).pc = .checking p) (hstate : (t.slots p).state = .runnable) :
    Inv ((t.setSlot p fun s => { s with state := .running }).setCpu c ⟨some p, .arrived⟩) := by
  cases h
  constructor <;> simp only [State.setSlot, State.setCpu, update_apply]
  all_goals grind [Cpu.holds, Pc.Runs, Pc.Leaves]

lemma Inv.resume (chan : Option C) (h : Inv t) (hpc : (t.cpus c).pc = .arrived)
    (hp : (t.cpus c).proc = some p) :
    Inv ((t.setSlot p fun s => { s with chan := chan, lock := none }).setCpu c ⟨some p, .running⟩) := by
  cases h
  constructor <;> simp only [State.setSlot, State.setCpu, update_apply]
  all_goals grind [Cpu.holds, Pc.Runs, Pc.Leaves]

variable {g : Slot P K C → Slot P K C} {q : P}

section

variable (h : Inv t)

include h

/-- The process takes its lock, and is no longer running. -/
lemma Inv.leave (hpc : (t.cpus c).pc = .running)
    (hp : (t.cpus c).proc = some p) (hlock : (t.slots p).lock = none)
    (hstate : (g (t.slots p)).state = .runnable ∨ (g (t.slots p)).state = .sleeping ∨
      (g (t.slots p)).state = .zombie)
    (hctx : (g (t.slots p)).ctx = .exit → (g (t.slots p)).state = .zombie)
    (hg : (g (t.slots p)).child = (t.slots p).child) :
    Inv ((t.setSlot p fun s => { g s with lock := some c }).setCpu c ⟨some p, .calling⟩) := by
  have hrun : (t.slots p).state = .running := h.runs c p hp (by rw [hpc]; trivial)
  cases h
  constructor <;> simp only [State.setSlot, State.setCpu, update_apply]
  all_goals grind [Cpu.holds, Pc.Runs, Pc.Leaves]

lemma Inv.sched (hpc : (t.cpus c).pc = .calling) (hp : (t.cpus c).proc = some p) :
    Inv (t.setCpu c ⟨some p, .back p⟩) := by
  cases h
  constructor <;> simp only [State.setCpu, update_apply]
  all_goals grind [Cpu.holds, Pc.Runs, Pc.Leaves]

/-- `scheduler` lets go of the lock of the process that it has run. -/
lemma Inv.finish (hpc : (t.cpus c).pc = .back p) :
    Inv ((t.setSlot p fun s => { s with lock := none }).setCpu c ⟨none, .scheduler⟩) := by
  have hp : (t.cpus c).proc = some p := h.back c p hpc
  cases h
  constructor <;> simp only [State.setSlot, State.setCpu, update_apply]
  all_goals grind [Cpu.holds, Pc.Runs, Pc.Leaves]

/-- A slot changes from a state in which no process is running in it, and nobody holds its lock. -/
lemma Inv.change (hlock : (t.slots p).lock = none)
    (hstate : (t.slots p).state ≠ .running ∧ (t.slots p).state ≠ .used)
    (hnew : (g (t.slots p)).state = .runnable ∧ (t.slots p).state = .sleeping ∨ (g (t.slots p)).state = .unused)
    (hg : (g (t.slots p)).lock = none ∧ (g (t.slots p)).ctx = (t.slots p).ctx ∧
      (g (t.slots p)).child = (t.slots p).child) : Inv (t.setSlot p g) := by
  cases h
  constructor <;> simp only [State.setSlot, update_apply]
  all_goals grind [Cpu.holds, Pc.Runs, Pc.Leaves]

lemma Inv.alloc (hpc : (t.cpus c).pc = .running) (hp : (t.cpus c).proc = some p)
    (hlock : (t.slots q).lock = none) (hstate : (t.slots q).state = .unused) :
    Inv ((t.setSlot q fun s => { s with state := .used, ctx := .forkret, lock := some c }).setCpu c
      ⟨some p, .allocating q⟩) := by
  -- a slot that is not used is not a child that is being made
  have hnone : ∀ p, (t.slots p).child ≠ some q := fun p' hc => by
    have := h.child p' q hc
    rw [hstate] at this
    cases this
  cases h
  constructor <;> simp only [State.setSlot, State.setCpu, update_apply]
  all_goals grind [Cpu.holds, Pc.Runs, Pc.Leaves]

lemma Inv.allocFail (hpc : (t.cpus c).pc = .allocating q) :
    Inv ((t.setSlot q fun s => { s with state := .unused, chan := none, lock := none }).setCpu c
      ⟨(t.cpus c).proc, .running⟩) := by
  have hq := h.lock c q (by rw [Cpu.holds, hpc])
  cases h
  constructor <;> simp only [State.setSlot, State.setCpu, update_apply]
  all_goals grind [Cpu.holds, Pc.Runs, Pc.Leaves]

lemma Inv.allocDone (hpc : (t.cpus c).pc = .allocating q) (hp : (t.cpus c).proc = some p) :
    Inv (((t.setSlot q fun s => { s with lock := none }).setSlot p
      fun s => { s with child := some q }).setCpu c ⟨some p, .running⟩) := by
  have hq := h.lock c q (by rw [Cpu.holds, hpc])
  cases h
  constructor <;> simp only [State.setSlot, State.setCpu, update_apply]
  all_goals grind [Cpu.holds, Pc.Runs, Pc.Leaves]

lemma Inv.ready (hq : (t.slots p).child = some q) (hlock : (t.slots q).lock = none) :
    Inv ((t.setSlot q fun s => { s with state := .runnable }).setSlot p
      fun s => { s with child := none }) := by
  have hused := h.child p q hq
  cases h
  constructor <;> simp only [State.setSlot, update_apply]
  all_goals grind [Cpu.holds, Pc.Runs, Pc.Leaves]

end

lemma current_eq_some (h : t.current c = some p) : (t.cpus c).pc = .running ∧ (t.cpus c).proc = some p := by
  rw [State.current] at h
  split_ifs at h with hpc
  exact ⟨hpc, h⟩

lemma leave_eq_ok (hs : leave t c g = .ok t') : ∃ p, t.current c = some p ∧ (t.slots p).lock = none ∧
      t' = (t.setSlot p fun s => { g s with lock := some c }).setCpu c ⟨some p, .calling⟩ := by
  rw [Sched.leave] at hs
  split at hs
  · cases hs
  · rename_i p hp
    split_ifs at hs with hlock
    cases hs
    exact ⟨p, hp, hlock, rfl⟩

/-- What a step may do: states change along the life of a slot, and a processor gets a process only if
that is runnable. -/
structure Life (t t' : State P K C) : Prop where
  moves : ∀ q, (t'.slots q).state = (t.slots q).state ∨ (t.slots q).state.Moves (t'.slots q).state
  switches : ∀ c p, (t.cpus c).proc ≠ some p → (t'.cpus c).proc = some p →
    (t.slots p).state = .runnable

lemma Life.of_cpus (hcpus : t'.cpus = t.cpus)
    (hmoves : ∀ q, (t'.slots q).state = (t.slots q).state ∨ (t.slots q).state.Moves (t'.slots q).state) :
    Life t t' := ⟨hmoves, fun _ _ hne he => absurd (hcpus ▸ he) hne⟩

lemma moves_setSlot (hg : (g (t.slots p)).state = (t.slots p).state ∨
    (t.slots p).state.Moves (g (t.slots p)).state) (q : P) : ((t.setSlot p g).slots q).state = (t.slots q).state ∨
      (t.slots q).state.Moves ((t.setSlot p g).slots q).state := by
  simp only [State.setSlot, update_apply]
  split_ifs with e
  · rw [e]
    exact hg
  · exact .inl rfl

/-- One slot and one processor change, and the processor gets no new process. -/
lemma Life.set {cpu : Cpu P} (hg : (g (t.slots p)).state =
    (t.slots p).state ∨ (t.slots p).state.Moves (g (t.slots p)).state)
    (hcpu : ∀ p, cpu.proc = some p → (t.cpus c).proc = some p) :
    Life t ((t.setSlot p g).setCpu c cpu) := by
  refine ⟨moves_setSlot hg, fun c' p' hne he => ?_⟩
  simp only [State.setCpu, State.setSlot, update_apply] at he
  split_ifs at he with e
  · exact absurd (e ▸ hcpu p' he) hne
  · exact absurd he hne

lemma leave_step (h : Inv t) (hs : leave t c g = .ok t')
    (hg : ∀ s, Procstate.Moves .running (g s).state ∧ (g s).child = s.child ∧
      ((g s).ctx = .exit → (g s).state = .zombie) ∧ (g s).state ≠ .unused) : Inv t' ∧ Life t t' := by
  obtain ⟨p, hc, hlock, rfl⟩ := leave_eq_ok hs
  obtain ⟨hpc, hp⟩ := current_eq_some hc
  obtain ⟨hm, hchild, hctx, -⟩ := hg (t.slots p)
  have hrun : (t.slots p).state = .running := h.runs c p hp (by rw [hpc]; trivial)
  have hstate : (g (t.slots p)).state = .runnable ∨ (g (t.slots p)).state = .sleeping ∨
      (g (t.slots p)).state = .zombie := by
    generalize (g (t.slots p)).state = s' at hm
    cases hm with
    | yield => exact .inl rfl
    | sleep => exact .inr (.inl rfl)
    | exit => exact .inr (.inr rfl)
  exact ⟨h.leave hpc hp hlock hstate hctx hchild, .set (.inr (hrun ▸ hm)) fun p' e => e ▸ hp⟩

variable [DecidableEq C] {e : Event P K C}

/-- **One step** keeps the invariant. -/
lemma Inv.step (h : Inv t) (hs : step t e = .ok t') : Inv t' ∧ Life t t' := by
  cases e with simp only [Sched.step] at hs
  | pick c p =>
    split_ifs at hs with hc
    cases hs
    exact ⟨h.scan (.inl ⟨hc.1, hc.2, rfl, rfl⟩), .set (.inl rfl) fun _ e => e⟩
  | check c =>
    split at hs
    · rename_i p hpc
      split_ifs at hs with hr
      · cases hs
        have hmoves := moves_setSlot (t := t) (p := p) (g := fun s => { s with state := .running })
          (.inr (by rw [hr]; exact .schedule))
        refine ⟨h.switch hpc hr, hmoves, fun c' p' hne he => ?_⟩
        simp only [State.setCpu, State.setSlot, update_apply] at he
        split_ifs at he
        · cases he
          exact hr
        · exact absurd he hne
      · cases hs
        exact ⟨h.scan (.inr ⟨hpc, rfl, rfl⟩), .set (.inl rfl) fun _ e => e⟩
    · cases hs
  | resume c =>
    split at hs
    · rename_i p hpc hp
      split at hs
      · cases hs
      · cases hs
        exact ⟨h.resume none hpc hp, .set (.inl rfl) fun p' e => e ▸ hp⟩
      · cases hs
        exact ⟨h.resume (t.slots p).chan hpc hp, .set (.inl rfl) fun p' e => e ▸ hp⟩
    · cases hs
  | yield c => exact leave_step h hs fun s => ⟨.yield, rfl, nofun, nofun⟩
  | sleep c chan => exact leave_step h hs fun s => ⟨.sleep, rfl, nofun, nofun⟩
  | exit c => exact leave_step h hs fun s => ⟨.exit, rfl, fun _ => rfl, nofun⟩
  | sched c =>
    split at hs
    · rename_i p hpc hp
      split_ifs at hs
      cases hs
      refine ⟨h.sched hpc hp, fun q => .inl rfl, fun c' p' hne he => ?_⟩
      simp only [State.setCpu, update_apply] at he
      split_ifs at he with e
      · exact absurd (e ▸ hp.trans he) hne
      · exact absurd he hne
    · cases hs
  | finish c =>
    split at hs
    · rename_i p hpc
      cases hs
      exact ⟨h.finish hpc, .set (.inl rfl) nofun⟩
    · cases hs
  | alloc c q =>
    split at hs
    · cases hs
    · rename_i p hc
      obtain ⟨hpc, hp⟩ := current_eq_some hc
      split_ifs at hs with hq
      cases hs
      refine ⟨h.alloc hpc hp hq.2.1 hq.2.2, .set (.inr ?_) fun p' e => e ▸ hp⟩
      rw [hq.2.2]
      exact .alloc
  | allocFail c =>
    split at hs
    · rename_i q hpc
      cases hs
      refine ⟨h.allocFail hpc, .set (.inr ?_) fun _ e => e⟩
      rw [(h.allocating c q hpc).1]
      exact .abandon
    · cases hs
  | allocDone c =>
    split at hs
    · rename_i q p hpc hp
      cases hs
      have hlife : Life t ((t.setSlot q fun s => { s with lock := none }).setCpu c ⟨some p, .running⟩) :=
        .set (.inl rfl) fun p' e => e ▸ hp
      refine ⟨h.allocDone hpc hp, fun r => ?_, hlife.switches⟩
      simp only [State.setSlot, State.setCpu, update_apply]
      grind
    · cases hs
  | ready c =>
    split at hs
    · cases hs
    · rename_i p hc
      split at hs
      · cases hs
      · rename_i q hq
        split_ifs at hs with hlock
        cases hs
        have hused := h.child p q hq
        refine ⟨h.ready hq hlock, .of_cpus rfl fun r => ?_⟩
        simp only [State.setSlot, update_apply]
        grind [Procstate.Moves.ready]
  | reap c q =>
    split_ifs at hs with hc
    cases hs
    obtain ⟨-, hlock, hz⟩ := hc
    refine ⟨h.change hlock (by simp [hz]) (.inr rfl) ⟨hlock, rfl, rfl⟩, .of_cpus rfl (moves_setSlot (.inr ?_))⟩
    rw [hz]
    exact .reap
  | wakeup c q chan =>
    split_ifs at hs with hc
    cases hs
    obtain ⟨-, -, hlock, hz, -⟩ := hc
    refine ⟨h.change hlock (by simp [hz]) (.inl ⟨rfl, hz⟩) ⟨hlock, rfl, rfl⟩,
      .of_cpus rfl (moves_setSlot (.inr ?_))⟩
    rw [hz]
    exact .wakeup
  | kill c q =>
    split_ifs at hs with hc
    cases hs
    obtain ⟨-, hlock, hz⟩ := hc
    refine ⟨h.change hlock (by simp [hz]) (.inl ⟨rfl, hz⟩) ⟨hlock, rfl, rfl⟩,
      .of_cpus rfl (moves_setSlot (.inr ?_))⟩
    rw [hz]
    exact .wakeup

/-- A process whose lock is free is running if and only if it is the process of some processor. -/
lemma Inv.running_iff (h : Inv t) (hlock : (t.slots p).lock = none) :
    (t.slots p).state = .running ↔ ∃ c, (t.cpus c).proc = some p := by
  refine ⟨h.somewhere p, fun ⟨c, hc⟩ => ?_⟩
  rcases (h.proc c).mp (by simp [hc]) with hr | hl
  · exact h.runs c p hc hr
  · have := (h.leaves c p hc hl).1
    rw [hlock] at this
    cases this

lemma Inv.no_panic {msg : String} (h : Inv t) : Sched.step t e ≠ .panic msg := by
  intro hs
  cases e with
  | resume c =>
    simp only [Sched.step] at hs
    split at hs
    · rename_i p hpc hp
      have hrun := h.runs c p hp (by rw [hpc]; trivial)
      split at hs
      · rename_i hctx
        rcases h.exited p hctx with e | e <;> rw [hrun] at e <;> cases e
      · cases hs
      · cases hs
    · cases hs
  | sched c =>
    simp only [Sched.step] at hs
    split at hs
    · rename_i p hpc hp
      obtain ⟨hlock, hstate⟩ := h.leaves c p hp (by rw [hpc]; trivial)
      rw [if_neg (not_not.mpr hlock), if_neg hstate] at hs
      cases hs
    · cases hs
  | yield c | sleep c _ | exit c =>
    simp only [Sched.step, Sched.leave] at hs
    split at hs
    · cases hs
    · split_ifs at hs
  | _ =>
    simp only [Sched.step] at hs
    repeat' split at hs
    all_goals cases hs

/-- **The scheduler.**  In every run of any number of processors: a process is the process of at most one
of them; a process whose lock is free is running if and only if some processor has it; only runnable
processes are switched to; every change of state is one of those in the life of a slot; and no panic is
reached. -/
theorem scheduler_safe {initproc : P} (hr : Reach (step : State P K C → _) (fun _ _ => True) (start initproc) t) :
    (∀ c c' p, (t.cpus c).proc = some p → (t.cpus c').proc = some p → c = c') ∧
    (∀ p, (t.slots p).lock = none → ((t.slots p).state = .running ↔ ∃ c, (t.cpus c).proc = some p)) ∧
    (∀ e t', step t e = .ok t' →
      (∀ c p, (t.cpus c).proc ≠ some p → (t'.cpus c).proc = some p → (t.slots p).state = .runnable) ∧
      ∀ p, (t'.slots p).state = (t.slots p).state ∨ (t.slots p).state.Moves (t'.slots p).state) ∧
    ∀ e, step t e ≠ .panic "sched p->lock" ∧ step t e ≠ .panic "sched running" ∧
      step t e ≠ .panic "zombie exit" := by
  have hinv : Inv t := hr.invariant (inv_start initproc) fun hi _ hs => (hi.step hs).1
  refine ⟨hinv.one, fun p => hinv.running_iff, fun e t' hs => ?_, fun e =>
    ⟨hinv.no_panic, hinv.no_panic, hinv.no_panic⟩⟩
  obtain ⟨-, hlife⟩ := hinv.step hs
  exact ⟨hlife.switches, hlife.moves⟩

/-- Every lock has a holder that knows of it. -/
lemma Inv.holds_step (h : Inv t) (hl : ∀ p c, (t.slots p).lock = some c → (t.cpus c).holds = some p)
    (hs : Sched.step t e = .ok t') (p : P) (c : K) (hc : (t'.slots p).lock = some c) : (t'.cpus c).holds = some p := by
  have hown := h.lock
  cases e with simp only [Sched.step, Sched.leave, State.current] at hs
  | _ =>
    repeat' split at hs
    all_goals cases hs
    all_goals simp only [State.setSlot, State.setCpu, update_apply] at hc ⊢
    all_goals grind [Cpu.holds]

/-- A processor that has switched to a process releases its lock. -/
lemma Inv.resume_ok (h : Inv t) (hpc : (t.cpus c).pc = .arrived) (hp : (t.cpus c).proc = some p) :
    ∃ t', Sched.step t (.resume c) = .ok t' ∧ (t'.slots p).lock = none := by
  have hno : Sched.step t (.resume c) ≠ .panic "zombie exit" := h.no_panic
  simp only [Sched.step, hpc, hp] at hno ⊢
  split at hno
  · exact absurd rfl hno
  all_goals exact ⟨_, rfl, by simp [State.setSlot, State.setCpu]⟩

/-- **No deadlock.**  In every run a lock is held by the processor that is between taking and releasing it, and that can
release it by steps of its own, whatever the others do; so processors do not wait for one another in a circle. -/
theorem locks_released {initproc : P} (hr : Reach (step : State P K C → _) (fun _ _ => True) (start initproc) t) :
    (∀ p c, (t.slots p).lock = some c ↔ (t.cpus c).holds = some p) ∧ ∀ p c, (t.slots p).lock = some c →
      ∃ t', Reach step (fun _ e => e ∈ [.check c, .resume c, .sched c, .finish c, .allocFail c]) t t' ∧
        (t'.slots p).lock = none := by
  obtain ⟨h, hl⟩ := hr.invariant (I := fun t => Inv t ∧ ∀ p c, (t.slots p).lock = some c → (t.cpus c).holds = some p)
    ⟨inv_start initproc, nofun⟩ fun hi _ hs => ⟨(hi.1.step hs).1, hi.1.holds_step hi.2 hs⟩
  refine ⟨fun p c => ⟨hl p c, h.lock c p⟩, fun p c hlock => ?_⟩
  have hc := hl p c hlock
  cases hpc : (t.cpus c).pc with simp only [Cpu.holds, hpc, Option.some.injEq] at hc
  | arrived =>
    obtain ⟨t', hs, hfree⟩ := h.resume_ok hpc hc
    exact ⟨t', .tail .refl (by simp) hs, hfree⟩
  | checking q =>
    subst hc
    by_cases hrun : (t.slots q).state = .runnable
    · obtain ⟨t', hs, hfree⟩ := (h.switch hpc hrun).resume_ok (c := c) (p := q) (by simp [State.setCpu])
        (by simp [State.setCpu])
      exact ⟨t', .tail (.tail (e := .check c) .refl (by simp) (by simp only [step, hpc, hrun, if_true])) (by simp) hs,
        hfree⟩
    · exact ⟨_, .tail (e := .check c) .refl (by simp) (by simp only [step, hpc, hrun, if_false]; rfl),
        by simp [State.setSlot, State.setCpu]⟩
  | back q =>
    subst hc
    exact ⟨_, .tail (e := .finish c) .refl (by simp) (by simp only [step, hpc]; rfl),
      by simp [State.setSlot, State.setCpu]⟩
  | allocating q =>
    subst hc
    exact ⟨_, .tail (e := .allocFail c) .refl (by simp) (by simp only [step, hpc]; rfl),
      by simp [State.setSlot, State.setCpu]⟩
  | calling =>
    have hs : step t (.sched c) = .ok (t.setCpu c ⟨some p, .back p⟩) := by
      simp [step, hpc, hc, hlock, (h.leaves c p hc (by rw [hpc]; trivial)).2]
    exact ⟨_, .tail (e := .finish c) (.tail .refl (by simp) hs) (by simp) (by simp [step, State.setCpu]; rfl),
      by simp [State.setSlot]⟩
  | _ => cases hc

end

/-- The first process runs and forks, and exits while the second processor runs the child. -/
def sampleRun : List (Event (Fin 2) Bool Unit) :=
  [.pick true 0, .check true, .resume true, .alloc true 1, .allocDone true, .ready true, .pick false 1, .exit true,
    .check false, .sched true, .resume false, .finish true]

theorem scheduler_safe_sample : ∃ t : State (Fin 2) Bool Unit,
    Reach step (fun _ _ => True) (start 0) t ∧ (t.slots 0).state = .zombie ∧
      (t.slots 1).state = .running ∧ ∀ e, step t e ≠ .panic "zombie exit" := by
  have h : runTest step (fun _ _ => True) (start 0 : State (Fin 2) Bool Unit) sampleRun
      (fun t => (t.slots 0).state == .zombie && (t.slots 1).state == .running) = true := by
    decide +kernel
  obtain ⟨t, ht, hc⟩ := Reach.of_runTest h
  simp only [Bool.and_eq_true, beq_iff_eq] at hc
  exact ⟨t, ht, hc.1, hc.2, fun e => ((scheduler_safe ht).2.2.2 e).2.2⟩

/-- Two processors hold a lock each. -/
theorem locks_released_picked : ∃ t : State (Fin 2) Bool Unit, (t.slots 0).lock = some true ∧
    (t.slots 1).lock = some false ∧ ∃ t', Reach step (fun _ e => e ∈
      [.check true, .resume true, .sched true, .finish true, .allocFail true]) t t' ∧ (t'.slots 0).lock = none := by
  have hr : Reach step (fun _ _ => True) (start 0 : State (Fin 2) Bool Unit) _ :=
    .tail (e := .pick false 1) (.tail (e := .pick true 0) .refl trivial rfl) trivial rfl
  exact ⟨_, rfl, rfl, (locks_released hr).2 0 true rfl⟩

end FypOs.Proc.Sched
