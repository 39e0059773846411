import FypOs.Proc.Table
import Mathlib.Tactic.Ring

/-!
# Proc — slots and pids

In every run in which no process calls `kill(0)`, slots that are not used are blank, the pids of the others
are positive and distinct, and a process is killed only after a `kill` with its pid, or by a fault of its
own.

`kill` does not look at the state of a slot, and slots that are not used have the pid 0: `kill(0)` marks
the first of them, and the process that is made in it later starts out killed (`kill_zero`).
-/

namespace FypOs.Proc

open Lib Function

variable {P : Type}

/-- The slot is as `freeproc` leaves it. -/
structure Slot.Blank (s : Slot P) : Prop where
  pid : s.pid = 0
  killed : s.killed = false
  chan : s.chan = none
  parent : s.parent = none
  pagetable : s.pagetable = false
  trapframe : s.trapframe = false

/-- A `fork` is at work on slot `q`. -/
def Pc.Makes (pc : Pc P) (q : P) : Prop := pc = .forking q ∨ pc = .parented q

/-- A place that is neither in `fork` nor in `kill`. -/
def Pc.plain : Pc P → Bool
  | .forking _ | .parented _ | .killing .. => false
  | _ => true

structure Pids (t : State P) : Prop where
  blank : ∀ q, (t.slots q).state = .unused → (t.slots q).Blank
  pos : ∀ q, (t.slots q).state ≠ .unused → 0 < (t.slots q).pid.toInt ∧
    (t.slots q).pid.toInt < t.nextpid.toInt
  distinct : ∀ q q', (t.slots q).state ≠ .unused → (t.slots q').state ≠ .unused →
    (t.slots q).pid = (t.slots q').pid → q = q'
  next : t.nextpid.toInt = t.allocs + 1
  few : t.allocs < 2 ^ 31 - 1
  killed : ∀ q, (t.slots q).killed = true → (t.slots q).pid ∈ t.marks
  hits : ∀ s ∈ t.hits, s ≠ .unused
  killing : ∀ p pid rest, t.pcs p = .killing pid rest → pid ≠ 0
  makes : ∀ p q, (t.pcs p).Makes q → (t.slots q).state = .used
  maker : ∀ p p' q, (t.pcs p).Makes q → (t.pcs p').Makes q → p = p'

variable [DecidableEq P] {t t' : State P} {procs : List P} {initproc p : P}

lemma pids_start (initproc : P) : Pids (start initproc) := by
  constructor <;> simp only [start]
  · intro q hq
    split_ifs at hq ⊢
    exact ⟨rfl, rfl, rfl, rfl, rfl, rfl⟩
  · intro q hq
    split_ifs at hq ⊢
    · exact ⟨by change 0 < (1 : Int32).toInt; decide, by change (1 : Int32).toInt < _; decide⟩
    · exact absurd rfl hq
  · intro q q' hq hq' _
    split_ifs at hq hq' with e e'
    · rw [e, e']
    · exact absurd rfl hq'
    · exact absurd rfl hq
    · exact absurd rfl hq
  · rfl
  · decide
  · intro q hq
    split_ifs at hq
  · nofun
  · nofun
  · rintro p q (h | h) <;> cases h
  · rintro p p' q (h | h) <;> cases h

/-! ### The parts of a step -/

section

variable {g : Slot P → Slot P} {q : P} {pc : Pc P}

section

variable (h : Pids t)

include h

omit [DecidableEq P] in
lemma Pids.same (hslots : t'.slots = t.slots) (hpcs : t'.pcs = t.pcs)
    (hnext : t'.nextpid = t.nextpid) (hallocs : t'.allocs = t.allocs) (hmarks : t'.marks = t.marks)
    (hhits : t'.hits = t.hits) : Pids t' := by
  cases h
  constructor <;> simp only [hslots, hpcs, hnext, hallocs, hmarks, hhits] <;> assumption

lemma Pids.setSlot (hold : (t.slots q).state ≠ .unused)
    (hnew : (g (t.slots q)).state ≠ .unused) (hpid : (g (t.slots q)).pid = (t.slots q).pid)
    (hkilled : (g (t.slots q)).killed = true → (t.slots q).pid ∈ t.marks)
    (hmakes : ∀ p, (t.pcs p).Makes q → (g (t.slots q)).state = .used) : Pids (t.setSlot q g) := by
  cases h
  constructor <;> simp only [State.setSlot, update_apply]
  all_goals grind

lemma Pids.free (hmakes : ∀ p, ¬ (t.pcs p).Makes q) : Pids (t.setSlot q freeproc) := by
  cases h
  constructor <;> simp only [State.setSlot, update_apply]
  all_goals grind [freeproc, Slot.Blank]

/-- A process goes on to a place where it makes no slot. -/
lemma Pids.setPc (hmakes : ∀ q, ¬ pc.Makes q)
    (hkill : ∀ pid rest, pc = .killing pid rest → pid ≠ 0) : Pids (t.setPc p pc) := by
  cases h
  constructor <;> simp only [State.setPc, update_apply]
  all_goals grind

/-- The same, for places that are not in `kill`. -/
lemma Pids.goto (hpc : pc.plain = true) : Pids (t.setPc p pc) := by
  refine h.setPc ?_ ?_
  · rintro q (rfl | rfl) <;> cases hpc
  · rintro pid rest rfl
    cases hpc

omit [DecidableEq P] in
lemma Pids.mark (pid : Int32) : Pids { t with marks := pid :: t.marks } :=
  { h with killed := fun q hq => List.mem_cons_of_mem _ (h.killed q hq) }

omit [DecidableEq P] in
/-- A process that is not `USED` is not being made. -/
lemma Pids.not_makes (hq : (t.slots q).state ≠ .used) (p : P) : ¬ (t.pcs p).Makes q :=
  fun hm => hq (h.makes p q hm)

lemma Pids.wakeup (chan : Option (Chan P)) : Pids (t.setSlot q (Slot.wakeup chan)) := by
  by_cases hw : (t.slots q).state = .sleeping ∧ (t.slots q).chan = chan
  · have hg : Slot.wakeup chan (t.slots q) = { t.slots q with state := .runnable } := if_pos hw
    refine h.setSlot (by simp [hw.1]) (by simp [hg]) (by rw [hg]) (fun hk => ?_) fun p hm => ?_
    · rw [hg] at hk
      exact h.killed q hk
    · exact absurd hm (h.not_makes (by simp [hw.1]) p)
  · have hg : Slot.wakeup chan (t.slots q) = t.slots q := if_neg hw
    have ht : t.setSlot q (Slot.wakeup chan) = t := by
      rw [State.setSlot, hg, update_eq_self]
    rw [ht]
    exact h

/-- A process changes its own slot while it is running. -/
lemma Pids.setSelf (hr : (t.slots p).state = .running)
    (hnew : (g (t.slots p)).state ≠ .unused) (hpid : (g (t.slots p)).pid = (t.slots p).pid)
    (hkilled : (g (t.slots p)).killed = true → (t.slots p).pid ∈ t.marks) : Pids (t.setSlot p g) :=
  h.setSlot (by simp [hr]) hnew hpid hkilled fun p' hm => absurd hm (h.not_makes (by simp [hr]) p')

lemma Pids.scheduled (hs : (t.slots p).state = .runnable) :
    Pids (t.setSlot p fun s => { s with state := .running, chan := none }) :=
  h.setSlot (by simp [hs]) nofun rfl (h.killed p) fun p' hm =>
    absurd hm (h.not_makes (by simp [hs]) p')

omit [DecidableEq P] in
lemma Pids.hit {s : Procstate} (hs : s ≠ .unused) : Pids { t with hits := s :: t.hits } :=
  { h with
    hits := fun s' hs' => by
      rcases List.mem_cons.mp hs' with rfl | hs'
      · exact hs
      · exact h.hits s' hs' }

lemma Pids.parented (hm : (t.pcs p).Makes q) :
    Pids ((t.setSlot q fun s => { s with parent := some p }).setPc p (.parented q)) := by
  have hused := h.makes p q hm
  cases h
  constructor <;> simp only [State.setSlot, State.setPc, update_apply]
  all_goals grind [Pc.Makes]

lemma Pids.ready (hm : (t.pcs p).Makes q) :
    Pids ((t.setSlot q fun s => { s with state := .runnable }).setPc p .user) := by
  have hused := h.makes p q hm
  cases h
  constructor <;> simp only [State.setSlot, State.setPc, update_apply]
  all_goals grind [Pc.Makes]

omit [DecidableEq P] in
/-- A pid is used up, and there are fewer than `2 ^ 31 - 1` allocations. -/
lemma Pids.allocpid (hfew : t.allocs + 1 < 2 ^ 31 - 1) :
    Pids { t with nextpid := t.nextpid + 1, allocs := t.allocs + 1 } ∧
      (t.nextpid + 1).toInt = t.nextpid.toInt + 1 := by
  have hnext : (t.nextpid + 1).toInt = t.nextpid.toInt + 1 := by
    have hone : (1 : Int32).toInt = 1 := rfl
    have hn := h.next
    rw [Int32.toInt_add, hone]
    exact Int.bmod_eq_of_le (by omega) (by omega)
  refine ⟨{ h with pos := fun q hq => ?_, next := ?_, few := hfew }, hnext⟩
  · obtain ⟨hp, hlt⟩ := h.pos q hq
    exact ⟨hp, hlt.trans (by rw [hnext]; exact Int.lt_succ _)⟩
  · rw [hnext, h.next]
    exact (add_right_comm ..).trans (by rw [Nat.cast_add, Nat.cast_one])

lemma Pids.alloc (hq : (t.slots q).state = .unused) (hfew : t.allocs + 1 < 2 ^ 31 - 1) :
    Pids { ((t.setSlot q fun s => { s with
        pid := t.nextpid, state := .used, trapframe := true, pagetable := true }).setPc q .user).setPc p
          (.forking q) with nextpid := t.nextpid + 1, allocs := t.allocs + 1 } := by
  have hnot := h.not_makes (q := q) (by simp [hq])
  have hblank := h.blank q hq
  have hlt (q') (hq' : (t.slots q').state ≠ .unused) : (t.slots q').pid ≠ t.nextpid := by
    intro e
    have := (h.pos q' hq').2
    rw [e] at this
    omega
  have hpos : 0 < t.nextpid.toInt := by
    have := h.next
    omega
  obtain ⟨h', hnext⟩ := h.allocpid hfew
  obtain ⟨h1, h2, h3, h4, h5, h6, h7, h8, h9, h10⟩ := h'
  have hkq := hblank.killed
  have hmakes (r) (hr : (t.pcs r).Makes q) : False := hnot r hr
  constructor <;> simp only [State.setSlot, State.setPc, update_apply]
  · grind
  · grind
  · grind
  · exact h4
  · exact h5
  · grind
  · exact h7
  · grind
  · grind [Pc.Makes]
  · grind [Pc.Makes]

end

end

/-! ### Runs -/

/-- What the runs may do: no `kill(0)`, and fewer than `2 ^ 31 - 1` allocations. -/
def Within (t : State P) : Event P → Prop
  | .kill _ pid => pid ≠ 0
  | .alloc .. => t.allocs + 1 < 2 ^ 31 - 1
  | _ => True

/-- **One step.** -/
lemma Pids.step {e : Event P} (h : Pids t) (hD : Within t e)
    (hs : step procs initproc t e = .ok t') : Pids t' := by
  cases step_cases hs with
  | alloc hr hpc hq =>
    exact (h.alloc hq hD).same rfl rfl rfl rfl rfl rfl
  | allocFail hr hpc hq hm =>
    refine ((h.free (h.not_makes (by simp [hq]))).allocpid ?_).1
    exact hD
  | @setParent p q hr hpc hl =>
    have hmakes : (t.pcs p).Makes q := .inl hpc
    exact h.parented hmakes
  | @ready p q hr hpc =>
    have hmakes : (t.pcs p).Makes q := .inr hpc
    exact h.ready hmakes
  | exit hr hpc hl hp => exact (h.goto rfl).same rfl rfl rfl rfl rfl rfl
  | @reparent p q rest status hr hpc hq =>
    -- the slot has a parent, so that it is used
    have hused : (t.slots q).state ≠ .unused := fun e => by
      have := (h.blank q e).parent
      rw [hq] at this
      cases this
    exact (h.setSlot hused hused rfl (h.killed q) fun p' hm => h.makes p' q hm).goto rfl
  | reparentNext | reparentDone | wakeSelf | wakeInitDone | wakeParentSelf | wakeParentDone
  | scanChild | scanNext | killFail => exact h.goto rfl
  | wakeInit | wakeParent => exact (h.wakeup _).goto rfl
  | @die p status hr hpc =>
    have hself : Pids (t.setSlot p fun s => { s with xstate := status, state := .zombie }) :=
      h.setSelf hr nofun rfl (h.killed p)
    exact (hself.goto rfl).same rfl rfl rfl rfl rfl rfl
  | wait | waitFail | reapFail => exact (h.goto rfl).same rfl rfl rfl rfl rfl rfl
  | reap hr hpc hq hz =>
    exact ((h.free (h.not_makes (by simp [hz]))).goto rfl).same rfl rfl rfl rfl rfl rfl
  | waitOn => exact h.goto rfl
  | @sleepWait p hr hpc =>
    have hself : Pids (t.setSlot p fun s => { s with chan := some (.proc p), state := .sleeping }) :=
      h.setSelf hr nofun rfl (h.killed p)
    exact (hself.goto rfl).same rfl rfl rfl rfl rfl rfl
  | @kill p pid hr hpc =>
    refine h.setPc ?_ ?_
    · rintro q (e | e) <;> cases e
    · rintro pid' rest ⟨⟩
      exact hD
  | @killHit p q pid rest hr hpc hq =>
    have hne := h.killing p pid _ hpc
    -- slots that are not used have the pid 0
    have hused : (t.slots q).state ≠ .unused := fun e => hne (hq.symm.trans (h.blank q e).pid)
    have hkill : Pids (State.setSlot { t with marks := pid :: t.marks } q Slot.kill) := by
      refine (h.mark pid).setSlot hused ?_ rfl (fun _ => hq ▸ List.mem_cons_self) fun p' hm => ?_
      · change (if _ then _ else _) ≠ Procstate.unused
        split_ifs
        · nofun
        · exact hused
      · have := h.makes p' q hm
        change (if _ then _ else _) = Procstate.used
        rw [this]
        rfl
    exact (hkill.goto rfl).hit hused
  | @killNext p q pid rest hr hpc hq =>
    refine h.setPc ?_ ?_
    · rintro q (e | e) <;> cases e
    · rintro pid' rest' ⟨⟩
      exact h.killing p pid _ hpc
  | @fault p hr hpc =>
    refine ((h.mark (t.slots p).pid).setSelf (g := fun s => { s with killed := true }) hr ?_ rfl ?_).same
      rfl rfl rfl rfl rfl rfl
    · rw [hr]
      nofun
    · exact fun _ => List.mem_cons_self
  | sleepOther hr hpc => exact h.setSelf hr nofun rfl (h.killed _)
  | wakeOther => exact h.wakeup _
  | yield hr hl => exact h.setSelf hr nofun rfl (h.killed _)
  | resume hst hpc => exact (h.scheduled hst).goto rfl
  | schedule hst hpc => exact h.scheduled hst

/-- **The process table.**  In every run with fewer than `2 ^ 31 - 1` allocations and without `kill(0)`,
slots that are not used are blank, the others have pids that are positive and distinct, a `kill` that
returns 0 has marked a process that was in use, and every process that is marked has been found by a
`kill`, or was at fault. -/
theorem process_table (hr : Reach (step procs initproc) Within (start initproc) t) :
    (∀ q, (t.slots q).state = .unused → (t.slots q).pid = 0 ∧ (t.slots q).killed = false ∧
      (t.slots q).chan = none ∧ (t.slots q).parent = none ∧ (t.slots q).pagetable = false ∧
      (t.slots q).trapframe = false) ∧
    (∀ q, (t.slots q).state ≠ .unused → 0 < (t.slots q).pid.toInt) ∧
    (∀ q q', (t.slots q).state ≠ .unused → (t.slots q').state ≠ .unused →
      (t.slots q).pid = (t.slots q').pid → q = q') ∧
    (∀ s ∈ t.hits, s ≠ .unused) ∧
    ∀ q, (t.slots q).killed = true → (t.slots q).pid ∈ t.marks := by
  have h : Pids t := hr.invariant (pids_start initproc) fun hi hD hs => hi.step hD hs
  refine ⟨fun q hq => ?_, fun q hq => (h.pos q hq).1, h.distinct, h.hits, h.killed⟩
  obtain ⟨h₁, h₂, h₃, h₄, h₅, h₆⟩ := h.blank q hq
  exact ⟨h₁, h₂, h₃, h₄, h₅, h₆⟩

instance (t : State P) (e : Event P) : Decidable (Within t e) :=
  match e with
  | .kill _ pid => inferInstanceAs (Decidable (pid ≠ 0))
  | .alloc .. => inferInstanceAs (Decidable (_ < _))
  | .setParent _ | .ready _ | .exit .. | .reparent _ | .wake _ | .die _ | .wait _ | .scan .. | .sleepWait _
  | .killScan _ | .fault _ | .sleepOther .. | .wakeOther .. | .yield _ | .schedule _ => .isTrue trivial

/-- The first process forks, and kills its child. -/
def killRun : List (Event (Fin 2)) :=
  [.schedule 0, .alloc 0 1 .ok, .setParent 0, .ready 0, .kill 0 2, .killScan 0, .killScan 0]

theorem process_table_sample : ∃ t : State (Fin 2),
    Reach (step [0, 1] 0) Within (start 0) t ∧ (t.slots 1).killed = true ∧ t.hits = [.runnable] ∧
      (t.slots 1).pid ∈ t.marks := by
  have h : runTest (step [0, 1] 0) Within (start 0) killRun
      (fun t => (t.slots 1).killed && t.hits == [.runnable]) = true := by decide +kernel
  obtain ⟨t, ht, hc⟩ := Reach.of_runTest h
  simp only [Bool.and_eq_true, beq_iff_eq] at hc
  exact ⟨t, ht, hc.1, hc.2, (process_table ht).2.2.2.2 1 hc.1⟩

/-- **`kill(0)`** returns 0 for a slot that is not used, and leaves it marked: the process that is made in
it afterwards is killed, though no `kill` has found its pid. -/
theorem kill_zero : ∃ t t' : State (Fin 2), Reach (step [0, 1] 0) (fun _ _ => True) (start 0) t ∧
    (t.slots 1).state = .unused ∧ (t.slots 1).killed = true ∧ t.hits = [.unused] ∧
    Reach (step [0, 1] 0) (fun _ _ => True) t t' ∧
    (t'.slots 1).state = .runnable ∧ (t'.slots 1).killed = true ∧ (t'.slots 1).pid ∉ t'.marks := by
  have h : (run (step [0, 1] 0) (fun _ _ => True) (start 0 : State (Fin 2))
      [.schedule 0, .kill 0 0, .killScan 0, .killScan 0]).test (fun t =>
        ((t.slots 1).state == .unused && (t.slots 1).killed && t.hits == [.unused]) &&
        runTest (step [0, 1] 0) (fun _ _ => True) t [.alloc 0 1 .ok, .setParent 0, .ready 0]
          fun t' => (t'.slots 1).state == .runnable && (t'.slots 1).killed &&
            !decide ((t'.slots 1).pid ∈ t'.marks)) = true := by decide +kernel
  obtain ⟨t, ht, hc⟩ := Outcome.of_test h
  rw [Bool.and_eq_true] at hc
  obtain ⟨t', ht', hc'⟩ := Reach.of_runTest hc.2
  simp only [Bool.and_eq_true, beq_iff_eq, Bool.not_eq_true', decide_eq_false_iff_not] at hc hc'
  exact ⟨t, t', .of_run ht, hc.1.1.1, hc.1.1.2, hc.1.2, ht', hc'.1.1, hc'.1.2, hc'.2⟩

end FypOs.Proc
