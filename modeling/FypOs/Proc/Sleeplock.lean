import FypOs.Proc.State

/-!
# Proc — sleep-locks

`kernel/sleeplock.c`, with `sleep`, `wakeup` and `kill` of `kernel/proc.c`.  The spinlock `lk->lk` is
explicit, since `releasesleep` holds it while its wakeup goes through the process table.  A section of
`p->lock` is one step.  So is the hand-over in `sleep`, which takes `p->lock` before it lets go of
`lk->lk`: with it the process is asleep.

Channels are of any type; `lk` is the channel of the lock.  Processes may sleep on other channels, be
woken up there, be killed, and give up the processor where they hold no spinlock.

* `sleeplock_safe`: one holder at a time, and no lost wakeup.
-/

namespace FypOs.Proc.Sleeplock

open Lib Function

/-- Where a process is in the calls on the lock. -/
inductive Pc (P : Type) where
  | idle
  /-- `acquiresleep` is about to take `lk->lk`. -/
  | entering
  /-- `acquiresleep` holds `lk->lk`, at the test of its loop. -/
  | testing
  /-- In `sleep`, which has let go of `lk->lk`. -/
  | waiting
  /-- `releasesleep` is about to take `lk->lk`. -/
  | leaving
  /-- `releasesleep` holds `lk->lk`; its wakeup has yet to look at `rest`. -/
  | waking (rest : List P)

structure Thread (P C : Type) where
  state : Procstate
  chan : Option C
  pid : Nat
  pc : Pc P
  /-- An `acquiresleep` has returned, and its `releasesleep` has not unlocked yet. -/
  holds : Bool

/-- The lock and the processes. -/
structure State (P C : Type) where
  /-- The process that holds `lk->lk`. -/
  spin : Option P
  locked : Bool
  pid : Nat
  threads : P → Thread P C

inductive Event (P C : Type) where
  /-- A process calls `acquiresleep` or `releasesleep`. -/
  | acquiresleep (p : P)
  | releasesleep (p : P)
  /-- It takes `lk->lk`. -/
  | acquire (p : P)
  /-- The test of the loop of `acquiresleep`, with what follows. -/
  | test (p : P)
  /-- The next turn of the loop of `wakeup`, or the end of `releasesleep`. -/
  | wakeup (p : P)
  /-- A process goes to sleep on another channel, or is woken up there. -/
  | sleepOn (p : P) (c : C)
  | wakeupOn (p : P) (c : C)
  | kill (p : P)
  | yield (p : P)
  /-- The scheduler switches to a process. -/
  | schedule (p : P)

section

variable {P C : Type} [DecidableEq P] [DecidableEq C]

def State.set (t : State P C) (p : P) (g : Thread P C → Thread P C) : State P C :=
  { t with threads := update t.threads p (g (t.threads p)) }

/-- A turn of the loop of `wakeup`, or of `kill`, for a process that meets `c`. -/
def Thread.wake (c : Bool) (th : Thread P C) : Thread P C :=
  if th.state = .sleeping ∧ c = true then { th with state := .runnable } else th

def step (procs : List P) (lk : C) (t : State P C) : Event P C → Outcome (State P C)
  | .acquiresleep p =>
    match (t.threads p).pc with
    | .idle =>
      if (t.threads p).state = .running then .ok (t.set p fun th => { th with pc := .entering })
      else .blocked
    | _ => .blocked
  | .releasesleep p =>
    match (t.threads p).pc with
    | .idle =>
      if (t.threads p).state = .running ∧ (t.threads p).holds = true then
        .ok (t.set p fun th => { th with pc := .leaving })
      else .blocked
    | _ => .blocked
  | .acquire p =>
    if (t.threads p).state = .running ∧ t.spin = none then
      match (t.threads p).pc with
      | .entering => .ok { t.set p (fun th => { th with pc := .testing }) with spin := some p }
      | .leaving =>
        .ok { t.set p (fun th => { th with pc := .waking procs, holds := false }) with
          spin := some p, locked := false, pid := 0 }
      | _ => .blocked
    else .blocked
  | .test p =>
    match (t.threads p).pc with
    | .testing =>
      if t.locked then
        .ok { t.set p (fun th => { th with state := .sleeping, chan := some lk, pc := .waiting }) with
          spin := none }
      else
        .ok { t.set p (fun th => { th with pc := .idle, holds := true }) with
          spin := none, locked := true, pid := (t.threads p).pid }
    | _ => .blocked
  | .wakeup p =>
    match (t.threads p).pc with
    | .waking (q :: rest) =>
      let t₁ := if q = p then t else t.set q fun th => th.wake (th.chan = some lk)
      .ok (t₁.set p fun th => { th with pc := .waking rest })
    | .waking [] => .ok { t.set p (fun th => { th with pc := .idle }) with spin := none }
    | _ => .blocked
  | .sleepOn p c =>
    match (t.threads p).pc with
    | .idle =>
      if (t.threads p).state = .running ∧ c ≠ lk then
        .ok (t.set p fun th => { th with state := .sleeping, chan := some c })
      else .blocked
    | _ => .blocked
  | .wakeupOn p c =>
    if c ≠ lk then .ok (t.set p fun th => th.wake (th.chan = some c)) else .blocked
  | .kill p => .ok (t.set p fun th => th.wake true)
  | .yield p =>
    match (t.threads p).pc with
    | .testing | .waking _ => .blocked
    | _ =>
      if (t.threads p).state = .running then .ok (t.set p fun th => { th with state := .runnable })
      else .blocked
  | .schedule p =>
    if (t.threads p).state = .runnable then
      match (t.threads p).pc with
      -- the end of `sleep`, up to `acquire(lk)`
      | .waiting => .ok (t.set p fun th => { th with state := .running, chan := none, pc := .entering })
      | .idle => .ok (t.set p fun th => { th with state := .running, chan := none })
      | _ => .ok (t.set p fun th => { th with state := .running })
    else .blocked

/-- The lock is free, and nobody has called yet. -/
def start (pid : P → Nat) : State P C :=
  ⟨none, false, 0, fun p => ⟨.running, none, pid p, .idle, false⟩⟩

end

/-! ### The invariant -/

/-- The process holds `lk->lk`. -/
def Pc.InSpin {P : Type} : Pc P → Prop
  | .testing | .waking _ => True
  | _ => False

section

variable {P C : Type}

/-- The wakeup of some `releasesleep` has yet to look at `p`. -/
def Pending (t : State P C) (p : P) : Prop := ∃ q rest, (t.threads q).pc = .waking rest ∧ p ∈ rest

structure Inv (lk : C) (t : State P C) : Prop where
  spin : ∀ p, (t.threads p).pc.InSpin → t.spin = some p
  locked : ∀ p, (t.threads p).holds = true → t.locked = true ∧ t.pid = (t.threads p).pid
  one : ∀ p q, (t.threads p).holds = true → (t.threads q).holds = true → p = q
  leaving : ∀ p, (t.threads p).pc = .leaving → (t.threads p).holds = true
  /-- Only `sleep` leaves a process on the channel of the lock. -/
  chan : ∀ p, (t.threads p).chan = some lk → (t.threads p).pc = .waiting
  asleep : ∀ p, (t.threads p).state = .sleeping → (t.threads p).chan = some lk →
    t.locked = true ∨ Pending t p

variable {lk : C} {t t' : State P C} {p q : P}

lemma inv_start (pid : P → Nat) : Inv lk (start pid : State P C) :=
  ⟨nofun, nofun, nofun, nofun, nofun, nofun⟩

lemma Inv.spin_eq (h : Inv lk t) (hp : (t.threads p).pc.InSpin) (hq : (t.threads q).pc.InSpin) :
    p = q := Option.some_inj.mp ((h.spin p hp).symm.trans (h.spin q hq))

lemma Pending.inSpin (h : Pending t p) : ∃ q, (t.threads q).pc.InSpin := by
  obtain ⟨q, rest, hq, -⟩ := h
  exact ⟨q, by rw [hq]; trivial⟩

lemma wake_eq (c : Bool) (th : Thread P C) : (th.wake c).pc = th.pc ∧ (th.wake c).chan = th.chan ∧
    (th.wake c).pid = th.pid ∧ (th.wake c).holds = th.holds ∧
    ((th.wake c).state = .sleeping → th.state = .sleeping ∧ c = false) := by
  rw [Thread.wake]
  split_ifs with hc
  · exact ⟨rfl, rfl, rfl, rfl, nofun⟩
  · exact ⟨rfl, rfl, rfl, rfl, fun hs => ⟨hs, Bool.eq_false_iff.mpr fun e => hc ⟨hs, e⟩⟩⟩

variable [DecidableEq P] {g : Thread P C → Thread P C}

@[simp] lemma set_self : (t.set p g).threads p = g (t.threads p) := update_self ..

lemma set_of_ne (h : q ≠ p) : (t.set p g).threads q = t.threads q := update_of_ne h ..

/-- Steps of a process that leave the lock alone, and put nobody to sleep on its channel. -/
lemma Inv.set (h : Inv lk t) (hspin : (g (t.threads p)).pc.InSpin → t.spin = some p)
    (hholds : (g (t.threads p)).holds = (t.threads p).holds) (hpid : (g (t.threads p)).pid = (t.threads p).pid)
    (hleaving : (g (t.threads p)).pc = .leaving → (t.threads p).holds = true)
    (hchan : (g (t.threads p)).chan = some lk → (g (t.threads p)).pc = .waiting)
    (hasleep : (g (t.threads p)).state = .sleeping → (g (t.threads p)).chan = some lk →
      (t.threads p).state = .sleeping ∧ (t.threads p).chan = some lk)
    (hwaking : ∀ rest, (t.threads p).pc = .waking rest → (g (t.threads p)).pc = .waking rest) :
    Inv lk (t.set p g) := by
  obtain ⟨h1, h2, h3, h4, h5, h6⟩ := h
  constructor <;> intro r <;> simp only [State.set, update_apply]
  · grind
  · grind
  · grind
  · grind
  · grind
  · intro hs hc
    have hold : (t.threads r).state = .sleeping ∧ (t.threads r).chan = some lk := by grind
    refine (h6 r hold.1 hold.2).imp_right fun ⟨w, rest, hw, hmem⟩ => ⟨w, rest, ?_, hmem⟩
    simp only [update_apply]
    grind

lemma Inv.wake (h : Inv lk t) (c : Thread P C → Bool) : Inv lk (t.set q fun th => th.wake (c th)) := by
  obtain ⟨hpc, hchan, hpid, hholds, hstate⟩ := wake_eq (c (t.threads q)) (t.threads q)
  refine h.set (fun hs => h.spin q (hpc ▸ hs)) hholds hpid (fun hl => h.leaving q (hpc ▸ hl)) ?_ ?_ ?_
  · intro hc
    rw [hchan] at hc
    rw [hpc]
    exact h.chan q hc
  · intro hs hc
    exact ⟨(hstate hs).1, hchan ▸ hc⟩
  · intro rest hr
    rw [hpc, hr]

variable [DecidableEq C]

/-- A turn of the loop of `wakeup` by `p`, which looks at `q`. -/
lemma Inv.wakeup {rest : List P} (h : Inv lk t) (hp : (t.threads p).pc = .waking (q :: rest)) :
    Inv lk ((if q = p then t else t.set q fun th => th.wake (th.chan = some lk)).set p
      fun th => { th with pc := .waking rest }) := by
  obtain ⟨t1, ht1⟩ : ∃ t1, (if q = p then t else t.set q fun th => th.wake (th.chan = some lk)) = t1 := ⟨_, rfl⟩
  rw [ht1]
  have h1 : Inv lk t1 := by
    rw [← ht1]
    split_ifs
    · exact h
    · exact h.wake _
  -- the process it looks at is not asleep on the channel afterwards
  have hq : ∀ r, (t1.threads r).state = .sleeping → (t1.threads r).chan = some lk → r ≠ q := by
    rintro r hs hc rfl
    rw [← ht1] at hs hc
    split_ifs at hs hc with e
    · have := h.chan _ hc
      rw [e, hp] at this
      cases this
    · rw [set_self] at hs hc
      obtain ⟨-, hchan, -, -, hstate⟩ := wake_eq (decide ((t.threads r).chan = some lk)) (t.threads r)
      exact of_decide_eq_false (hstate hs).2 (hchan ▸ hc)
  have hp1 : (t1.threads p).pc = .waking (q :: rest) := by
    rw [← ht1]
    split_ifs with e
    · exact hp
    · rw [set_of_ne (Ne.symm e), hp]
  have hspin : t1.spin = some p := h1.spin p (by rw [hp1]; trivial)
  obtain ⟨-, h2, h3, h4, h5, h6⟩ := id h1
  constructor <;> intro r
  · intro hr
    by_cases e : r = p
    · rw [e]
      exact hspin
    · rw [set_of_ne e] at hr
      exact h1.spin r hr
  · simp only [State.set, update_apply]
    grind
  · simp only [State.set, update_apply]
    grind
  · simp only [State.set, update_apply]
    grind
  · simp only [State.set, update_apply]
    grind
  · intro hs hc
    have hold : (t1.threads r).state = .sleeping ∧ (t1.threads r).chan = some lk := by
      simp only [State.set, update_apply] at hs hc
      grind
    refine (h6 r hold.1 hold.2).imp_right fun ⟨w, rest', hw, hmem⟩ => ⟨p, rest, by rw [set_self], ?_⟩
    -- the wakeup it is waiting for is this one, which has not come to it yet
    obtain rfl : w = p := h1.spin_eq (by rw [hw]; trivial) (by rw [hp1]; trivial)
    rw [hp1] at hw
    cases hw
    exact (List.mem_cons.mp hmem).resolve_left (hq r hold.1 hold.2)

/-- **One step.** -/
lemma Inv.step {procs : List P} (hall : ∀ p, p ∈ procs) {ev : Event P C} (h : Inv lk t)
    (hs : step procs lk t ev = .ok t') : Inv lk t' := by
  cases ev with simp only [Sleeplock.step] at hs
  | acquiresleep p =>
    split at hs
    · rename_i hpc
      split_ifs at hs
      cases hs
      exact h.set nofun rfl rfl nofun (fun hc => nomatch hpc.symm.trans (h.chan p hc))
        (fun hs hc => ⟨hs, hc⟩) fun rest hr => nomatch hpc.symm.trans hr
    · cases hs
  | releasesleep p =>
    split at hs
    · rename_i hpc
      split_ifs at hs with hrun
      cases hs
      exact h.set nofun rfl rfl (fun _ => hrun.2) (fun hc => nomatch hpc.symm.trans (h.chan p hc))
        (fun hs hc => ⟨hs, hc⟩) fun rest hr => nomatch hpc.symm.trans hr
    · cases hs
  | acquire p =>
    split_ifs at hs with hrun
    -- nobody holds `lk->lk`, so that nobody is inside `releasesleep`
    have hfree (r) : ¬ (t.threads r).pc.InSpin := fun hr => nomatch hrun.2.symm.trans (h.spin r hr)
    have hlocked (r) (hs : (t.threads r).state = .sleeping) (hc : (t.threads r).chan = some lk) :
        t.locked = true := (h.asleep r hs hc).resolve_right fun hr =>
      hr.inSpin.elim fun q hq => hfree q hq
    obtain ⟨-, h2, h3, h4, h5, -⟩ := h
    split at hs
    · rename_i hpc
      cases hs
      constructor <;> intro r <;> simp only [State.set, update_apply]
      all_goals grind
    · rename_i hpc
      cases hs
      constructor <;> intro r <;> simp only [State.set, update_apply]
      · grind
      · grind
      · grind
      · grind
      · grind
      · -- its wakeup looks at everybody
        exact fun _ _ => .inr ⟨p, procs, by simp, hall r⟩
    · cases hs
  | test p =>
    split at hs
    · rename_i hpc
      have hme : (t.threads p).pc.InSpin := by rw [hpc]; trivial
      have hother (r) (hr : r ≠ p) : ¬ (t.threads r).pc.InSpin := fun h' => hr (h.spin_eq h' hme)
      have hlocked (r) (hs : (t.threads r).state = .sleeping) (hc : (t.threads r).chan = some lk) :
          t.locked = true := (h.asleep r hs hc).resolve_right fun ⟨w, rest, hw, _⟩ => by
        obtain rfl : w = p := h.spin_eq (by rw [hw]; trivial) hme
        rw [hpc] at hw
        cases hw
      obtain ⟨-, h2, h3, h4, h5, -⟩ := h
      split_ifs at hs with hl
      all_goals
        cases hs
        constructor <;> intro r <;> simp only [State.set, update_apply]
        all_goals grind [Pc.InSpin]
    · cases hs
  | wakeup p =>
    split at hs
    · rename_i q rest hpc
      cases hs
      exact h.wakeup hpc
    · rename_i hpc
      cases hs
      have hme : (t.threads p).pc.InSpin := by rw [hpc]; trivial
      have hother (r) (hr : r ≠ p) : ¬ (t.threads r).pc.InSpin := fun h' => hr (h.spin_eq h' hme)
      have hlocked (r) (hs : (t.threads r).state = .sleeping) (hc : (t.threads r).chan = some lk) :
          t.locked = true := (h.asleep r hs hc).resolve_right fun ⟨w, rest, hw, hmem⟩ => by
        obtain rfl : w = p := h.spin_eq (by rw [hw]; trivial) hme
        rw [hpc] at hw
        cases hw
        exact nomatch hmem
      cases h
      constructor <;> intro r <;> simp only [State.set, update_apply]
      all_goals grind [Pc.InSpin]
    · cases hs
  | sleepOn p c =>
    split at hs
    · rename_i hpc
      split_ifs at hs with hrun
      cases hs
      have hne : some c ≠ some lk := fun e => hrun.2 (Option.some_inj.mp e)
      exact h.set (fun hr => h.spin p hr) rfl rfl (fun hl => h.leaving p hl) (fun hc => absurd hc hne)
        (fun _ hc => absurd hc hne) fun rest hr => hr
    · cases hs
  | wakeupOn p c =>
    split_ifs at hs
    cases hs
    exact h.wake _
  | kill p =>
    cases hs
    exact h.wake _
  | yield p =>
    have hset : Inv lk (t.set p fun th => { th with state := .runnable }) :=
      h.set (h.spin p) rfl rfl (h.leaving p) (h.chan p) nofun fun _ hr => hr
    split at hs
    · cases hs
    · cases hs
    · split_ifs at hs
      cases hs
      exact hset
  | schedule p =>
    split_ifs at hs
    split at hs
    · rename_i hpc
      cases hs
      exact h.set nofun rfl rfl nofun nofun nofun fun rest hr => nomatch hpc.symm.trans hr
    · rename_i hpc
      cases hs
      exact h.set (h.spin p) rfl rfl (h.leaving p) nofun nofun fun _ hr => hr
    · cases hs
      exact h.set (h.spin p) rfl rfl (h.leaving p) (h.chan p) nofun fun _ hr => hr

/-- **Sleep-locks.**  In every run of any number of processes, at most one process is between the return
of its `acquiresleep` and its `releasesleep`; and if a process is asleep on the channel of the lock, the
lock is held, or the wakeup of some `releasesleep` has yet to look at that process. -/
theorem sleeplock_safe {procs : List P} (hall : ∀ p, p ∈ procs) {pid : P → Nat}
    (hr : Reach (step procs lk) (fun _ _ => True) (start pid) t) :
    (∀ p q, (t.threads p).holds = true → (t.threads q).holds = true → p = q) ∧
    ∀ p, (t.threads p).state = .sleeping → (t.threads p).chan = some lk →
      t.locked = true ∨ ∃ q rest, (t.threads q).pc = .waking rest ∧ p ∈ rest := by
  have hinv : Inv lk t := hr.invariant (inv_start pid) fun hi _ hs => hi.step hall hs
  exact ⟨hinv.one, hinv.asleep⟩

end

/-- One process takes the lock, another one goes to sleep on it, and the first unlocks. -/
def sampleRun : List (Event (Fin 2) Unit) :=
  [.acquiresleep 0, .acquire 0, .test 0, .acquiresleep 1, .acquire 1, .test 1, .releasesleep 0,
    .acquire 0, .wakeup 0]

theorem sleeplock_safe_sample : ∃ t : State (Fin 2) Unit,
    Reach (step [0, 1] ()) (fun _ _ => True) (start fun p => p.val + 1) t ∧
      (t.threads 1).state = .sleeping ∧ t.locked = false ∧
      ∃ q rest, (t.threads q).pc = .waking rest ∧ 1 ∈ rest := by
  have h : runTest (step [0, 1] ()) (fun _ _ => True) (start fun p => p.val + 1) sampleRun
      (fun t => (t.threads 1).state == .sleeping && (t.threads 1).chan == some () && !t.locked) =
        true := by decide +kernel
  obtain ⟨t, ht, hc⟩ := Reach.of_runTest h
  simp only [Bool.and_eq_true, beq_iff_eq, Bool.not_eq_true'] at hc
  obtain ⟨⟨hs, hchan⟩, hl⟩ := hc
  have hpending := ((sleeplock_safe (by decide) ht).2 1 hs hchan).resolve_left (by simp [hl])
  exact ⟨t, ht, hs, hl, hpending⟩

end FypOs.Proc.Sleeplock
