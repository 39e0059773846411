import FypOs.Proc.Table

/-!
# Proc — parents and children

`exit` hands the children of a process on to the first process, wakes up its parent, and leaves a zombie
that one `wait` of the parent reaps.

* `reaped_once`: each process that exits is reaped at most once, by its parent.
-/

namespace FypOs.Proc

set_option linter.unusedSectionVars false

open Lib Function List

section

variable {P : Type}

/-- The process can run, now or later. -/
def Procstate.Alive (s : Procstate) : Prop := s = .sleeping ∨ s = .runnable ∨ s = .running

namespace Pc

/-- The process holds `wait_lock`. -/
def Holds : Pc P → Prop
  | .reparenting .. | .wakingInit .. | .wakingParent .. | .dying _ | .scanning .. | .checked => True
  | _ => False

/-- The process has called `exit`. -/
def Exits : Pc P → Prop
  | .reparenting .. | .wakingInit .. | .wakingParent .. | .dying _ | .gone => True
  | _ => False

/-- A `fork` of the process is at work on slot `q`. -/
def Forks (pc : Pc P) (q : P) : Prop := pc = .forking q ∨ pc = .parented q

/-- The slots that `reparent` has yet to look at. -/
def left : Pc P → Option (List P)
  | .reparenting rest _ | .wakingInit _ rest _ => some rest
  | .wakingParent .. | .dying _ => some []
  | _ => none

/-- A place outside of `fork`, and without `wait_lock`. -/
def Quiet : Pc P → Prop
  | .user | .waiting | .rewait | .killing .. => True
  | _ => False

lemma exits_of_left {pc : Pc P} {rest : List P} (h : pc.left = some rest) : pc.Exits := by
  cases pc with
  | reparenting | wakingInit | wakingParent | dying => trivial
  | user | forking | parented | gone | scanning | checked | waiting | rewait | killing => cases h

lemma left_of_not_holds {pc : Pc P} (h : ¬ pc.Holds) : pc.left = none := by
  cases pc with
  | reparenting | wakingInit | wakingParent | dying => exact absurd trivial h
  | user | forking | parented | gone | scanning | checked | waiting | rewait | killing => rfl

end Pc

/-! ### Parents -/

/-- Who is whose parent: a parent is alive, and has forked the child, or is the first process. -/
structure Kin (initproc : P) (t : State P) : Prop where
  lock : ∀ p, (t.pcs p).Holds → t.waitLock = some p ∧ (t.slots p).state = .running
  init : (t.slots initproc).state.Alive ∧ ¬ (t.pcs initproc).Exits
  forks : ∀ p q, (t.pcs p).Forks q → (t.slots q).state = .used ∧ (t.slots p).state.Alive ∧
    t.maker q = t.serial p
  one : ∀ p p' q, (t.pcs p).Forks q → (t.pcs p').Forks q → p = p'
  parented : ∀ p q, t.pcs p = .parented q → (t.slots q).parent ≠ none
  /-- A parent is alive, and it is the maker of its child, or the first process. -/
  parent : ∀ p q, (t.slots q).parent = some p → (t.slots p).state.Alive ∧
    (p = initproc ∨ t.serial p = t.maker q)
  inUse : ∀ q, (t.slots q).parent ≠ none → (t.slots q).state ≠ .unused
  child : ∀ q, (t.slots q).state ≠ .unused → (t.slots q).state ≠ .used → q ≠ initproc →
    (t.slots q).parent ≠ none
  /-- `reparent` leaves no children behind. -/
  left : ∀ p rest q, (t.pcs p).left = some rest → q ∉ rest → (t.slots q).parent ≠ some p

lemma kin_start [DecidableEq P] (initproc : P) : Kin initproc (start initproc) := by
  constructor <;> simp only [start]
  · nofun
  · exact ⟨by simp [Procstate.Alive], nofun⟩
  · rintro p q (h | h) <;> cases h
  · rintro p p' q (h | h) <;> cases h
  · nofun
  · intro p q h
    split_ifs at h
  · intro q h
    split_ifs at h
    · exact absurd rfl h
    · exact absurd rfl h
  · intro q h _ hq
    rw [if_neg hq] at h
    exact absurd rfl h
  · nofun

variable [DecidableEq P] {t t' : State P} {procs : List P} {initproc p q : P} {g : Slot P → Slot P}
  {pc : Pc P} {l : Option P} {s s' : Slot P}

namespace Kin

section

variable (h : Kin initproc t)

include h

lemma holder (hp : (t.pcs p).Holds) (hq : (t.pcs q).Holds) : p = q :=
  Option.some_inj.mp ((h.lock p hp).1.symm.trans (h.lock q hq).1)

lemma free (hl : t.waitLock = none) (p : P) : ¬ (t.pcs p).Holds := fun hp =>
  nomatch hl.symm.trans (h.lock p hp).1

lemma same (hslots : t'.slots = t.slots) (hpcs : t'.pcs = t.pcs)
    (hlock : t'.waitLock = t.waitLock) (hserial : t'.serial = t.serial) (hmaker : t'.maker = t.maker) :
    Kin initproc t' := by
  cases h
  constructor <;> simp only [hslots, hpcs, hlock, hserial, hmaker] <;> assumption

/-- A slot changes, and its process is as much alive as before. -/
lemma slot (hparent : (g (t.slots q)).parent = (t.slots q).parent)
    (hstate : (g (t.slots q)).state = (t.slots q).state ∨ (t.slots q).state.Alive ∧
      (g (t.slots q)).state.Alive ∧ ¬ (t.pcs q).Holds) : Kin initproc (t.setSlot q g) := by
  cases h
  constructor <;> simp only [State.setSlot, update_apply]
  all_goals grind [Procstate.Alive]

lemma goto (hpc : pc.Quiet) (hl : ∀ r, r ≠ p → (t.pcs r).Holds → l = some r) :
    Kin initproc { t.setPc p pc with waitLock := l } := by
  have hforks (q) : ¬ pc.Forks q := by rintro (rfl | rfl) <;> exact hpc
  have hholds : ¬ pc.Holds := by cases pc <;> first | exact id | exact fun _ => hpc
  have hexits : ¬ pc.Exits := by cases pc <;> first | exact id | exact fun _ => hpc
  have hleft : pc.left = none := by cases pc <;> first | rfl | exact hpc.elim
  have hpar (q) : pc ≠ .parented q := fun e => hforks q (.inr e)
  cases h
  constructor <;> simp only [State.setPc, update_apply]
  all_goals grind

lemma hold (hpc : pc.Holds) (hr : (t.slots p).state = .running)
    (hother : ∀ r, r ≠ p → ¬ (t.pcs r).Holds) (hinit : pc.Exits → p ≠ initproc)
    (hleft : ∀ rest q, pc.left = some rest → q ∉ rest → (t.slots q).parent ≠ some p) :
    Kin initproc { t.setPc p pc with waitLock := some p } := by
  have hforks (q) : ¬ pc.Forks q := by rintro (rfl | rfl) <;> exact hpc
  have hpar (q) : pc ≠ .parented q := fun e => hforks q (.inr e)
  cases h
  constructor <;> simp only [State.setPc, update_apply]
  all_goals grind

lemma alloc (hr : (t.slots p).state = .running)
    (hq : (t.slots q).state = .unused) (hg : (g (t.slots q)).state = .used)
    (hparent : (g (t.slots q)).parent = (t.slots q).parent) (n : Nat) :
    Kin initproc { ((t.setSlot q g).setPc q .user).setPc p (.forking q) with
      serial := update t.serial q n
      maker := update t.maker q (t.serial p) } := by
  have hne : q ≠ p := fun e => by
    rw [e, hr] at hq
    cases hq
  have hnone : (t.slots q).parent = none := by
    by_contra hc
    exact h.inUse q hc hq
  -- a slot that is not used is nobody's parent, and neither forks nor is forked
  have hdead : ¬ (t.slots q).state.Alive := by
    rw [hq]
    rintro (e | e | e) <;> cases e
  have hinit : q ≠ initproc := fun e => hdead (e ▸ h.init.1)
  have halive : (t.slots p).state.Alive := .inr (.inr hr)
  have huser : (Pc.user : Pc P).left = none := rfl
  have hfork : (Pc.forking q : Pc P).left = none := rfl
  have hholds : ¬ (Pc.user : Pc P).Holds ∧ ¬ (Pc.forking q : Pc P).Holds ∧ ¬ (Pc.forking q : Pc P).Exits :=
    ⟨id, id, id⟩
  cases h
  constructor <;> simp only [State.setSlot, State.setPc, update_apply]
  all_goals grind [Pc.Forks]

lemma setParent (hpc : t.pcs p = .forking q) (hl : t.waitLock = none) :
    Kin initproc ((t.setSlot q fun s => { s with parent := some p }).setPc p (.parented q)) := by
  have hfree := h.free hl
  have hleft (r) : (t.pcs r).left = none := Pc.left_of_not_holds (hfree r)
  have hq := h.forks p q (.inl hpc)
  have hp : (Pc.parented q : Pc P).left = none := rfl
  have hholds : ¬ (Pc.parented q : Pc P).Holds ∧ ¬ (Pc.parented q : Pc P).Exits := ⟨id, id⟩
  cases h
  constructor <;> simp only [State.setSlot, State.setPc, update_apply]
  all_goals grind [Pc.Forks]

lemma ready (hpc : t.pcs p = .parented q) :
    Kin initproc ((t.setSlot q fun s => { s with state := .runnable }).setPc p .user) := by
  have hq := h.forks p q (.inr hpc)
  have hpar := h.parented p q hpc
  have hp : (Pc.user : Pc P).left = none := rfl
  have hholds : ¬ (Pc.user : Pc P).Holds ∧ ¬ (Pc.user : Pc P).Exits := ⟨id, id⟩
  cases h
  constructor <;> simp only [State.setSlot, State.setPc, update_apply]
  all_goals grind [Pc.Forks, Procstate.Alive]

lemma reparent (hq : (t.slots q).parent = some p) :
    Kin initproc (t.setSlot q fun s => { s with parent := some initproc }) := by
  have hnot (rest) : (t.pcs initproc).left ≠ some rest := fun e => h.init.2 (Pc.exits_of_left e)
  cases h
  constructor <;> simp only [State.setSlot, update_apply]
  all_goals grind

lemma die {status : Int32} (hr : (t.slots p).state = .running) (hpc : t.pcs p = .dying status) :
    Kin initproc { (t.setSlot p fun s => { s with xstate := status, state := .zombie }).setPc p .gone with
      waitLock := none } := by
  have hleft (q) : (t.slots q).parent ≠ some p := h.left p [] q (by rw [hpc]; rfl) (by simp)
  have hother (r) (hr : r ≠ p) : ¬ (t.pcs r).Holds := fun hh => hr (h.holder hh (by rw [hpc]; trivial))
  have hinit : p ≠ initproc := fun e => h.init.2 (by rw [← e, hpc]; trivial)
  have hp : (Pc.gone : Pc P).left = none := rfl
  have hholds : ¬ (Pc.gone : Pc P).Holds := id
  cases h
  constructor <;> simp only [State.setSlot, State.setPc, update_apply]
  all_goals grind [Pc.Forks, Procstate.Alive]

lemma freeSlot (hz : ¬ (t.slots q).state.Alive)
    (hu : (t.slots q).state ≠ .used) : Kin initproc (t.setSlot q freeproc) := by
  have hinit : q ≠ initproc := fun e => hz (e ▸ h.init.1)
  have hrun : (t.slots q).state ≠ .running := fun e => hz (.inr (.inr e))
  have hfork (r) : t.pcs r ≠ .parented q := fun e => hu (h.forks r q (.inr e)).1
  have hfree : (freeproc (t.slots q)).state = .unused ∧ (freeproc (t.slots q)).parent = none :=
    ⟨rfl, rfl⟩
  cases h
  constructor <;> simp only [State.setSlot, update_apply]
  all_goals grind

/-- A process goes on with or without `wait_lock`, as before. -/
lemma stay (hp : (t.pcs p).Holds) (hpc : pc.Holds) (hexits : pc.Exits → (t.pcs p).Exits)
    (hleft : ∀ rest q, pc.left = some rest → q ∉ rest → (t.slots q).parent ≠ some p) :
    Kin initproc (t.setPc p pc) := by
  obtain ⟨hlock, hr⟩ := h.lock p hp
  have hinit (he : pc.Exits) : p ≠ initproc := by
    rintro rfl
    exact h.init.2 (hexits he)
  exact (h.hold hpc hr (fun r hr hh => hr (h.holder hh hp)) hinit hleft).same rfl rfl hlock rfl rfl

lemma walk (hpc : pc.Quiet) : Kin initproc (t.setPc p pc) :=
  h.goto hpc fun r _ hr => (h.lock r hr).1

lemma release (hp : (t.pcs p).Holds) (hpc : pc.Quiet) : Kin initproc { t.setPc p pc with waitLock := none } :=
  h.goto hpc fun _ hr hh => absurd (h.holder hh hp) hr

lemma wakeup (q : P) (c : Option (Chan P)) : Kin initproc (t.setSlot q (Slot.wakeup c)) := by
  refine h.slot ?_ ?_
  · unfold Slot.wakeup
    split_ifs <;> rfl
  · unfold Slot.wakeup
    split_ifs with hc
    · refine .inr ⟨.inl hc.1, .inr (.inl rfl), fun hh => ?_⟩
      cases hc.1.symm.trans (h.lock q hh).2
    · exact .inl rfl

lemma kill (q : P) : Kin initproc (t.setSlot q Slot.kill) := by
  refine h.slot rfl ?_
  simp only [Slot.kill]
  split_ifs with hc
  · refine .inr ⟨.inl hc, .inr (.inl rfl), fun hh => ?_⟩
    cases hc.symm.trans (h.lock q hh).2
  · exact .inl rfl

/-- **One step.** -/
lemma step {e : Event P} (hall : ∀ p, p ∈ procs)
    (hs : Proc.step procs initproc t e = .ok t') : Kin initproc t' := by
  cases step_cases hs with
  | alloc hr hpc hq => exact (h.alloc hr hq rfl rfl _).same rfl rfl rfl rfl rfl
  | @allocFail p q made hr hpc hq hm =>
    have hdead : ¬ (t.slots q).state.Alive := by simp [hq, Procstate.Alive]
    exact (h.freeSlot hdead (by simp [hq])).same rfl rfl rfl rfl rfl
  | setParent hr hpc hl => exact h.setParent hpc hl
  | ready hr hpc => exact h.ready hpc
  | exit hr hpc hl hp =>
    exact h.hold trivial hr (fun r _ => h.free hl r) (fun _ => hp) fun rest q e hq => by
      cases e
      exact absurd (hall q) hq
  | @reparent p q rest status hr hpc hq =>
    have hholds : (t.pcs p).Holds := by rw [hpc]; trivial
    have hexits : (t.pcs p).Exits := by rw [hpc]; trivial
    refine (h.reparent hq).stay hholds trivial (fun _ => hexits) fun rest' q' e hq' => ?_
    cases e
    -- the slot that was handed on has another parent now
    simp only [State.setSlot, update_apply]
    split_ifs with hqq
    · rintro ⟨⟩
      exact h.init.2 hexits
    · exact h.left p (q :: rest) q' (by rw [hpc]; rfl) (by simp [hqq, hq'])
  | @reparentNext p q rest status hr hpc hq =>
    refine h.stay (by rw [hpc]; trivial) trivial (fun _ => by rw [hpc]; trivial) fun rest' q' e hq' => ?_
    cases e
    by_cases hqq : q' = q
    · exact hqq ▸ hq
    · exact h.left p (q :: rest) q' (by rw [hpc]; rfl) (by simp [hqq, hq'])
  | reparentDone hr hpc | wakeSelf hr hpc | wakeInitDone hr hpc | wakeParentSelf hr hpc
  | wakeParentDone hr hpc =>
    refine h.stay (by rw [hpc]; trivial) trivial (fun _ => by rw [hpc]; trivial) fun rest' q' e hq' => ?_
    cases e
    exact h.left _ _ q' (by rw [hpc]; rfl) hq'
  | @wakeInit p q _ _ _ hr hpc hq | @wakeParent p q _ _ hr hpc hq =>
    have hw := h.wakeup q
    have hholds : (t.pcs p).Holds ∧ (t.pcs p).Exits := by rw [hpc]; exact ⟨trivial, trivial⟩
    refine (hw _).stay hholds.1 trivial (fun _ => hholds.2) fun rest' q' e hq' => ?_
    cases e
    exact (hw _).left _ _ q' (congrArg Pc.left hpc) hq'
  | die hr hpc => exact (h.die hr hpc).same rfl rfl rfl rfl rfl
  | wait hr hpc hl => exact h.hold trivial hr (fun r _ => h.free hl r) nofun nofun
  | @reap p q rest havekids hr hpc hq hz =>
    have hdead : ¬ (t.slots q).state.Alive := by simp [hz, Procstate.Alive]
    have hholds : (t.pcs p).Holds := by rw [hpc]; trivial
    have huser : (Pc.user : Pc P).Quiet := trivial
    exact ((h.freeSlot hdead (by simp [hz])).release hholds huser).same rfl rfl rfl rfl rfl
  | reapFail hr hpc hq hz => exact h.release (by rw [hpc]; trivial) trivial
  | scanChild hr hpc | scanNext hr hpc | waitOn hr hpc => exact h.stay (by rw [hpc]; trivial) trivial nofun nofun
  | waitFail hr hpc hk => exact h.release (by rw [hpc]; trivial) trivial
  | @sleepWait p hr hpc =>
    have hholds : (t.pcs p).Holds := by rw [hpc]; trivial
    have hwait : (Pc.waiting : Pc P).Quiet := trivial
    refine (h.release hholds hwait).slot
      (g := fun s => { s with chan := some (.proc p), state := .sleeping }) rfl (.inr ⟨.inr (.inr hr), .inl rfl, ?_⟩)
    simp [State.setPc, Pc.Holds]
  | @kill p pid hr hpc =>
    have hkill : (Pc.killing pid procs).Quiet := trivial
    exact (h.walk hkill).same rfl rfl rfl rfl rfl
  | @killHit p q pid rest hr hpc hq =>
    have huser : (Pc.user : Pc P).Quiet := trivial
    exact ((h.kill q).walk huser).same rfl rfl rfl rfl rfl
  | killNext hr hpc => exact h.walk trivial
  | killFail hr hpc => exact h.walk trivial
  | @fault p hr hpc =>
    have hslot : Kin initproc (t.setSlot p fun s => { s with killed := true }) := h.slot rfl (.inl rfl)
    exact hslot.same rfl rfl rfl rfl rfl
  | sleepOther hr hpc =>
    exact h.slot rfl (.inr ⟨.inr (.inr hr), .inl rfl, by rw [hpc]; exact id⟩)
  | wakeOther => exact h.wakeup _ _
  | @yield p hr hl =>
    exact h.slot rfl (.inr ⟨.inr (.inr hr), .inr (.inl rfl), fun hh => hl (h.lock p hh).1⟩)
  | resume hst hpc =>
    exact (h.slot rfl (.inr ⟨.inr (.inl hst), .inr (.inr rfl), by rw [hpc]; exact id⟩)).walk trivial
  | @schedule p hst hpc =>
    refine h.slot rfl (.inr ⟨.inr (.inl hst), .inr (.inr rfl), fun hh => ?_⟩)
    cases hst.symm.trans (h.lock p hh).2

end

end Kin

/-! ### Sleepers -/

/-- The process sleeps in `wait`. -/
def State.InWait (t : State P) (p : P) : Prop := (t.slots p).state = .sleeping ∧ t.pcs p = .waiting

/-- The slots that `wakeup(initproc)` has yet to look at. -/
def Pc.Wakes (pc : Pc P) (q : P) : Prop := ∃ todo rest status, pc = .wakingInit todo rest status ∧ q ∈ todo

/-- Nobody who sleeps in `wait` has a zombie for a child, but while an `exit` is about to wake it up. -/
structure Awake (initproc : P) (t : State P) : Prop where
  chan : ∀ p, t.InWait p → (t.slots p).chan = some (.proc p)
  scanned : ∀ p rest havekids q, t.pcs p = .scanning rest havekids → q ∉ rest →
    (t.slots q).parent = some p → (t.slots q).state ≠ .zombie
  checked : ∀ p q, t.pcs p = .checked → (t.slots q).parent = some p → (t.slots q).state ≠ .zombie
  /-- Who sleeps in `wait` has no zombie for a child, but for the first process while it is about to be
  woken up. -/
  asleep : ∀ p q, t.InWait p → (t.slots q).parent = some p → (t.slots q).state = .zombie →
    p = initproc ∧ ∃ r, (t.pcs r).Wakes initproc
  woken : ∀ r todo status p, t.pcs r = .wakingParent todo status → (t.slots r).parent = some p →
    t.InWait p → p ∈ todo
  dying : ∀ r status p, t.pcs r = .dying status → (t.slots r).parent = some p → ¬ t.InWait p

lemma awake_start (initproc : P) : Awake initproc (start initproc) := by
  constructor
  · rintro p ⟨_, h⟩
    cases h
  · nofun
  · nofun
  · rintro p q ⟨_, h⟩
    cases h
  · nofun
  · nofun

lemma Pc.Wakes.holds (h : pc.Wakes q) : pc.Holds := by
  obtain ⟨_, _, _, rfl, _⟩ := h
  trivial

lemma Kin.not_wakes (h : Kin initproc t) (hp : (t.pcs p).Holds)
    (hnot : ∀ todo rest status, t.pcs p ≠ .wakingInit todo rest status) (r : P) :
    ¬ (t.pcs r).Wakes q := fun hr => by
  have hrp : r = p := h.holder hr.holds hp
  obtain ⟨todo, rest, status, e, _⟩ := hr
  exact hnot todo rest status (hrp ▸ e)

namespace Awake

section

variable (h : Awake initproc t)

include h

/-- Nobody new sleeps in `wait`, and there is no new zombie. -/
lemma frame (hpcs : t'.pcs = t.pcs)
    (hwait : ∀ p, t.pcs p = .waiting → (t'.slots p).state = .sleeping → (t.slots p).state = .sleeping ∧
      (t'.slots p).chan = (t.slots p).chan)
    (hzombie : ∀ q, (t'.slots q).state = .zombie → (t.slots q).state = .zombie)
    (hparent : ∀ q r, (t'.slots q).parent = some r → (t.slots q).parent = some r) :
    Awake initproc t' := by
  cases h
  constructor <;> simp only [hpcs, State.InWait] at *
  all_goals grind

lemma same (hslots : t'.slots = t.slots) (hpcs : t'.pcs = t.pcs) : Awake initproc t' := by
  refine h.frame hpcs ?_ ?_ ?_ <;> rw [hslots]
  · exact fun _ _ hs => ⟨hs, rfl⟩
  · exact fun _ => id
  · exact fun _ _ => id

/-- A slot changes, and its process neither goes to sleep nor dies. -/
lemma slot (hparent : (g (t.slots q)).parent = (t.slots q).parent ∨ (g (t.slots q)).parent = none)
    (hstate : (g (t.slots q)).state ≠ .zombie ∨ (g (t.slots q)).state = (t.slots q).state)
    (hwait : t.pcs q = .waiting → (g (t.slots q)).state = .sleeping → (t.slots q).state = .sleeping ∧
      (g (t.slots q)).chan = (t.slots q).chan) : Awake initproc (t.setSlot q g) := by
  refine h.frame rfl ?_ ?_ ?_ <;> simp only [State.setSlot, update_apply] <;> grind

/-- A process goes on that is not about to wake up the first process. -/
lemma setPc (hw : pc ≠ .waiting) (hp : ¬ (t.pcs p).Wakes initproc)
    (hscan : ∀ rest havekids q, pc = .scanning rest havekids → q ∉ rest →
      (t.slots q).parent = some p → (t.slots q).state ≠ .zombie)
    (hcheck : pc = .checked → ∀ q, (t.slots q).parent = some p → (t.slots q).state ≠ .zombie)
    (hwoken : ∀ todo status r, pc = .wakingParent todo status → (t.slots p).parent = some r →
      t.InWait r → r ∈ todo)
    (hdying : ∀ status r, pc = .dying status → (t.slots p).parent = some r → ¬ t.InWait r) :
    Awake initproc (t.setPc p pc) := by
  cases h
  constructor <;> simp only [State.InWait, State.setPc, update_apply] at *
  all_goals grind

end

variable {status : Int32}

section

variable (h : Awake initproc t)

include h

lemma nextInit {todo rest : List P}
    (hpc : t.pcs p = .wakingInit (q :: todo) rest status) (hq : t.InWait initproc → q ≠ initproc) :
    Awake initproc (t.setPc p (.wakingInit todo rest status)) := by
  have hwakes : t.InWait initproc → (∃ r, (t.pcs r).Wakes initproc) →
      ∃ r, ((t.setPc p (.wakingInit todo rest status)).pcs r).Wakes initproc := by
    rintro hi ⟨r, hr⟩
    refine ⟨r, ?_⟩
    simp only [State.setPc, update_apply]
    split_ifs with hrp
    · rw [hrp, hpc] at hr
      obtain ⟨_, _, _, ⟨⟩, hm⟩ := hr
      exact ⟨_, _, _, rfl, (mem_cons.mp hm).resolve_left (hq hi).symm⟩
    · exact hr
  cases h
  constructor <;> simp only [State.InWait, State.setPc, update_apply] at *
  all_goals grind

section

variable (hk : Kin initproc t)

include hk

/-- A child is handed on to the first process, which is about to be woken up. -/
lemma reparent {rest : List P} (hall : ∀ p, p ∈ procs) (hpc : t.pcs p = .reparenting (q :: rest) status) :
    Awake initproc ((t.setSlot q fun s => { s with parent := some initproc }).setPc p
      (.wakingInit procs rest status)) := by
  have hholds : (t.pcs p).Holds := by rw [hpc]; trivial
  have hother (r) (hr : r ≠ p) : ¬ (t.pcs r).Holds := fun hh => hr (hk.holder hh hholds)
  have hwakes : (Pc.wakingInit procs rest status).Wakes initproc := ⟨_, _, _, rfl, hall _⟩
  have hno (r) : ¬ (t.pcs r).Wakes initproc := hk.not_wakes hholds (by rw [hpc]; nofun) r
  cases h
  constructor <;> simp only [State.InWait, State.setSlot, State.setPc, update_apply] at *
  all_goals grind [Pc.Holds]

/-- `fork` sets the parent of a process that is not yet there. -/
lemma setParent (hpc : t.pcs p = .forking q) (hl : t.waitLock = none) :
    Awake initproc ((t.setSlot q fun s => { s with parent := some p }).setPc p (.parented q)) := by
  have hfree := hk.free hl
  have hused := (hk.forks p q (.inl hpc)).1
  have hno (r) : ¬ (t.pcs r).Wakes initproc := fun hr => hfree r hr.holds
  cases h
  constructor <;> simp only [State.InWait, State.setSlot, State.setPc, update_apply] at *
  all_goals grind [Pc.Holds]

/-- The process dies, and its parent does not sleep. -/
lemma die (hpc : t.pcs p = .dying status) :
    Awake initproc ((t.setSlot p fun s => { s with xstate := status, state := .zombie }).setPc p .gone) := by
  have hholds : (t.pcs p).Holds := by rw [hpc]; trivial
  have hother (r) (hr : r ≠ p) : ¬ (t.pcs r).Holds := fun hh => hr (hk.holder hh hholds)
  have hno (r) : ¬ (t.pcs r).Wakes initproc := hk.not_wakes hholds (by rw [hpc]; nofun) r
  cases h
  constructor <;> simp only [State.InWait, State.setSlot, State.setPc, update_apply] at *
  all_goals grind [Pc.Holds]

lemma sleepWait (hpc : t.pcs p = .checked) :
    Awake initproc ((t.setSlot p fun s => { s with chan := some (.proc p), state := .sleeping }).setPc p
      .waiting) := by
  have hholds : (t.pcs p).Holds := by rw [hpc]; trivial
  have hother (r) (hr : r ≠ p) : ¬ (t.pcs r).Holds := fun hh => hr (hk.holder hh hholds)
  have hno (r) : ¬ (t.pcs r).Wakes initproc := hk.not_wakes hholds (by rw [hpc]; nofun) r
  have hscan := h.checked p
  cases h
  constructor <;> simp only [State.InWait, State.setSlot, State.setPc, update_apply] at *
  all_goals grind [Pc.Holds]

end

lemma walk (pc : Pc P) (hpc : ¬ pc.Holds) (hw : pc ≠ .waiting)
    (hp : ¬ (t.pcs p).Wakes initproc) : Awake initproc (t.setPc p pc) := by
  refine h.setPc hw hp ?_ ?_ ?_ ?_
  · rintro _ _ _ rfl
    exact absurd trivial hpc
  · rintro rfl
    exact absurd trivial hpc
  · rintro _ _ _ rfl
    exact absurd trivial hpc
  · rintro _ _ rfl
    exact absurd trivial hpc

lemma not_inWait_wakeup (q : P) : ¬ (t.setSlot q (Slot.wakeup (some (.proc q)))).InWait q := by
  rintro ⟨hs, hpc⟩
  have hc := h.chan q
  simp only [State.InWait, State.setSlot, update_self, Slot.wakeup] at hs hpc hc
  split_ifs at hs with hif
  exact hif ⟨hs, hc ⟨hs, hpc⟩⟩

lemma wakeup (q : P) (c : Option (Chan P)) : Awake initproc (t.setSlot q (Slot.wakeup c)) := by
  refine h.slot ?_ ?_ ?_ <;> unfold Slot.wakeup <;> split_ifs <;> simp

/-- **One step.** -/
lemma step {e : Event P} (hk : Kin initproc t) (hall : ∀ p, p ∈ procs)
    (hs : Proc.step procs initproc t e = .ok t') : Awake initproc t' := by
  -- who does not hold `wait_lock` wakes up nobody
  have hquiet {r} (hr : ¬ (t.pcs r).Holds) : ¬ (t.pcs r).Wakes initproc := fun hw => hr hw.holds
  have hno {p : P} {pc : Pc P} (hpc : t.pcs p = pc) (hp : pc.Holds)
      (hnot : ∀ todo rest status, pc ≠ .wakingInit todo rest status) (r : P) : ¬ (t.pcs r).Wakes initproc :=
    hk.not_wakes (hpc ▸ hp) (hpc ▸ hnot) r
  cases step_cases hs with
  | @alloc p q hr hpc hq =>
    have hslot : Awake initproc (t.setSlot q fun s => { s with
        pid := t.nextpid, state := .used, trapframe := true, pagetable := true }) :=
      h.slot (.inl rfl) (.inl nofun) nofun
    have hunused : ¬ (t.pcs q).Holds := fun hh => by cases hq.symm.trans (hk.lock q hh).2
    have huser : Awake initproc (State.setPc _ q .user) :=
      hslot.walk .user id nofun (hquiet hunused)
    refine (huser.walk (.forking q) id nofun ?_).same rfl rfl
    have hpq : p ≠ q := fun e => by cases hr.symm.trans (e ▸ hq)
    simpa only [State.setPc, State.setSlot, update_of_ne hpq] using
      hquiet (by rw [hpc]; exact id)
  | @allocFail p q made hr hpc hq hm =>
    have hslot : Awake initproc (t.setSlot q freeproc) := h.slot (.inr rfl) (.inl nofun) nofun
    exact hslot.same rfl rfl
  | setParent hr hpc hl => exact h.setParent hk hpc hl
  | @ready p q hr hpc =>
    have hslot : Awake initproc (t.setSlot q fun s => { s with state := .runnable }) :=
      h.slot (.inl rfl) (.inl nofun) nofun
    exact hslot.walk .user id nofun (hquiet (by rw [hpc]; exact id))
  | @exit p status hr hpc hl hp =>
    have hpcs : Awake initproc (t.setPc p (.reparenting procs status)) :=
      h.setPc nofun (hquiet (by rw [hpc]; exact id)) nofun nofun nofun nofun
    exact hpcs.same rfl rfl
  | reparent hr hpc hq => exact h.reparent hk hall hpc
  | reparentNext hr hpc =>
    exact h.setPc nofun (hno hpc trivial nofun _) nofun nofun nofun nofun
  | reparentDone hr hpc =>
    refine h.setPc nofun (hno hpc trivial nofun _) nofun nofun ?_ nofun
    rintro _ _ r ⟨⟩ _ _
    exact hall r
  | @wakeSelf p todo rest status hr hpc =>
    refine h.nextInit hpc fun _ e => ?_
    exact hk.init.2 (by rw [← e, hpc]; trivial)
  | @wakeInit p q todo rest status hr hpc hq =>
    refine (h.wakeup q _).nextInit hpc fun hi e => ?_
    subst e
    exact h.not_inWait_wakeup q hi
  | @wakeInitDone p rest status hr hpc =>
    refine h.setPc nofun ?_ nofun nofun nofun nofun
    rintro ⟨_, _, _, e, hm⟩
    rw [hpc] at e
    cases e
    cases hm
  | @wakeParentSelf p todo status hr hpc =>
    refine h.setPc nofun (hno hpc trivial nofun _) nofun nofun ?_ nofun
    rintro _ _ r ⟨⟩ hpar hi
    refine (mem_cons.mp (h.woken p _ _ r hpc hpar hi)).resolve_left ?_
    rintro rfl
    cases hr.symm.trans hi.1
  | @wakeParent p q todo status hr hpc hq =>
    have hw := h.wakeup q ((t.slots p).parent.map .proc)
    refine hw.setPc nofun (hno hpc trivial nofun _) nofun nofun ?_ nofun
    rintro _ _ r ⟨⟩ hpar hi
    refine (mem_cons.mp (hw.woken p _ _ r hpc hpar hi)).resolve_left ?_
    rintro rfl
    have hpar' : (t.slots p).parent = some r := by
      simpa only [State.setSlot, update_of_ne hq.symm] using hpar
    rw [hpar'] at hi
    exact h.not_inWait_wakeup r hi
  | @wakeParentDone p status hr hpc =>
    refine h.setPc nofun (hno hpc trivial nofun _) nofun nofun nofun ?_
    rintro _ r ⟨⟩ hpar hi
    cases h.woken p _ _ r hpc hpar hi
  | die hr hpc => exact (h.die hk hpc).same rfl rfl
  | @wait p hr hpc hl =>
    have hpcs : Awake initproc (t.setPc p (.scanning procs false)) := by
      refine h.setPc nofun (hquiet (hk.free hl p)) ?_ nofun nofun nofun
      rintro _ _ r ⟨⟩ hr
      exact absurd (hall r) hr
    exact hpcs.same rfl rfl
  | @reap p q rest havekids hr hpc hq hz =>
    have hslot : Awake initproc (t.setSlot q freeproc) := h.slot (.inr rfl) (.inl nofun) nofun
    exact (hslot.walk .user id nofun (hno hpc trivial nofun p)).same rfl rfl
  | @reapFail p q rest havekids hr hpc hq hz | @waitFail p havekids hr hpc hk' =>
    exact (h.walk .user id nofun (hno hpc trivial nofun p)).same rfl rfl
  | @scanChild p q rest havekids copyout hr hpc hq hz =>
    refine h.setPc nofun (hno hpc trivial nofun _) ?_ nofun nofun nofun
    rintro _ _ r ⟨⟩ hr hpar
    by_cases hrq : r = q
    · exact hrq ▸ hz
    · exact h.scanned p _ _ r hpc (by simp [hrq, hr]) hpar
  | @scanNext p q rest havekids copyout hr hpc hq =>
    refine h.setPc nofun (hno hpc trivial nofun _) ?_ nofun nofun nofun
    rintro _ _ r ⟨⟩ hr hpar
    have hrq : r ≠ q := fun e => hq (e ▸ hpar)
    exact h.scanned p _ _ r hpc (by simp [hrq, hr]) hpar
  | @waitOn p hr hpc =>
    exact h.setPc nofun (hno hpc trivial nofun _) nofun (fun _ q => h.scanned p _ _ q hpc nofun) nofun nofun
  | sleepWait hr hpc => exact (h.sleepWait hk hpc).same rfl rfl
  | @kill p pid hr hpc =>
    exact (h.walk (.killing pid procs) id nofun (hquiet (by rw [hpc]; exact id))).same rfl rfl
  | @killHit p q pid rest hr hpc hq =>
    have hslot : Awake initproc (t.setSlot q Slot.kill) := by
      refine h.slot (.inl rfl) ?_ ?_ <;> simp only [Slot.kill] <;> split_ifs <;> simp
    have hq : ¬ (t.pcs p).Wakes initproc := hquiet (by rw [hpc]; exact id)
    exact (hslot.walk .user id nofun hq).same rfl rfl
  | killNext hr hpc | killFail hr hpc => exact h.walk _ id nofun (hquiet (by rw [hpc]; exact id))
  | @fault p hr hpc =>
    have hslot : Awake initproc (t.setSlot p fun s => { s with killed := true }) :=
      h.slot (.inl rfl) (.inr rfl) fun _ hs => ⟨hs, rfl⟩
    exact hslot.same rfl rfl
  | sleepOther hr hpc => exact h.slot (.inl rfl) (.inl nofun) fun hw => nomatch hpc.symm.trans hw
  | wakeOther => exact h.wakeup _ _
  | yield hr hl | schedule hst hpc => exact h.slot (.inl rfl) (.inl nofun) nofun
  | @resume p hst hpc =>
    have hslot : Awake initproc (t.setSlot p fun s => { s with state := .running, chan := none }) :=
      h.slot (.inl rfl) (.inl nofun) nofun
    exact hslot.walk .rewait id nofun (hquiet (by rw [hpc]; exact id))

end

end Awake

/-! ### What the records say -/

structure Reaping (t : State P) : Prop where
  serial : ∀ q, (t.slots q).state ≠ .unused → t.serial q < t.allocs
  distinct : ∀ q q', (t.slots q).state ≠ .unused → (t.slots q').state ≠ .unused →
    t.serial q = t.serial q' → q = q'
  zombie : ∀ q, (t.slots q).state = .zombie →
    (t.serial q, (t.slots q).pid, (t.slots q).xstate) ∈ t.exits
  /-- A process that has exited is a zombie, or in no slot any more. -/
  dead : ∀ x ∈ t.exits, x.1 < t.allocs ∧
    ∀ q, (t.slots q).state ≠ .unused → t.serial q = x.1 → (t.slots q).state = .zombie
  once : (t.reaped.map fun x => x.2.1).Nodup
  past : ∀ x ∈ t.reaped, x.2 ∈ t.exits ∧ x.2.1 < t.allocs ∧
    ∀ q, (t.slots q).state ≠ .unused → t.serial q ≠ x.2.1

lemma reaping_start (initproc : P) : Reaping (start initproc) := by
  have hinit (q : P) (h : ((start initproc).slots q).state ≠ .unused) : q = initproc := by
    by_contra hq
    simp [start, hq] at h
  refine ⟨fun q _ => Nat.one_pos, fun q q' h h' _ => (hinit q h).trans (hinit q' h').symm, fun q h => ?_,
    nofun, nodup_nil, nofun⟩
  simp only [start] at h
  split_ifs at h

/-- What a slot may become when no process is made, and none dies. -/
def Slot.Keeps (s s' : Slot P) : Prop :=
  s'.state ≠ .unused → s.state ≠ .unused ∧ (s'.state = .zombie ↔ s.state = .zombie) ∧
    (s.state = .zombie → s'.pid = s.pid ∧ s'.xstate = s.xstate)

lemma Slot.Keeps.of_alive (hs : s.state ≠ .unused ∧ s.state ≠ .zombie)
    (hs' : s'.state ≠ .zombie) : s.Keeps s' := fun _ =>
  ⟨hs.1, ⟨fun hz => absurd hz hs', fun hz => absurd hz hs.2⟩, fun hz => absurd hz hs.2⟩

lemma Slot.Keeps.of_eq (hstate : s'.state = s.state) (hpid : s'.pid = s.pid)
    (hxstate : s'.xstate = s.xstate) : s.Keeps s' := fun hs =>
  ⟨hstate ▸ hs, by rw [hstate], fun _ => ⟨hpid, hxstate⟩⟩

lemma Slot.Keeps.wakeup (s : Slot P) (c : Option (Chan P)) : s.Keeps (s.wakeup c) := by
  unfold Slot.wakeup
  split_ifs with hc
  · exact .of_alive (by rw [hc.1]; exact ⟨nofun, nofun⟩) nofun
  · exact .of_eq rfl rfl rfl

lemma Slot.Keeps.kill (s : Slot P) : s.Keeps s.kill := by
  by_cases hs : s.state = .sleeping
  · refine .of_alive (by rw [hs]; exact ⟨nofun, nofun⟩) ?_
    simp [Slot.kill, hs]
  · exact .of_eq (if_neg hs) rfl rfl

namespace Reaping

section

variable (h : Reaping t)

include h

lemma frame (hkeeps : ∀ q, (t.slots q).Keeps (t'.slots q))
    (hserial : t'.serial = t.serial) (hallocs : t.allocs ≤ t'.allocs) (hexits : t'.exits = t.exits)
    (hreaped : t'.reaped = t.reaped) : Reaping t' := by
  cases h
  unfold Slot.Keeps at hkeeps
  constructor <;> simp only [hserial, hexits, hreaped]
  all_goals grind

lemma slot (q : P) (g : Slot P → Slot P) (hkeeps : (t.slots q).Keeps (g (t.slots q)))
    (hslots : t'.slots = update t.slots q (g (t.slots q)))
    (hserial : t'.serial = t.serial) (hallocs : t.allocs ≤ t'.allocs) (hexits : t'.exits = t.exits)
    (hreaped : t'.reaped = t.reaped) : Reaping t' := by
  refine h.frame (fun r => ?_) hserial hallocs hexits hreaped
  rw [hslots, update_apply]
  split_ifs with hr
  · exact hr ▸ hkeeps
  · exact .of_eq rfl rfl rfl

lemma same (hslots : t'.slots = t.slots) (hserial : t'.serial = t.serial)
    (hallocs : t'.allocs = t.allocs) (hexits : t'.exits = t.exits) (hreaped : t'.reaped = t.reaped) :
    Reaping t' :=
  h.frame (fun _ => by rw [hslots]; exact .of_eq rfl rfl rfl) hserial (Nat.le_of_eq hallocs.symm) hexits
    hreaped

lemma alloc (hslots : t'.slots = update t.slots q (g (t.slots q)))
    (hg : (g (t.slots q)).state = .used) (hserial : t'.serial = update t.serial q t.allocs)
    (hallocs : t'.allocs = t.allocs + 1) (hexits : t'.exits = t.exits)
    (hreaped : t'.reaped = t.reaped) : Reaping t' := by
  cases h
  constructor <;> simp only [hslots, hserial, hallocs, hexits, hreaped, update_apply]
  all_goals grind

lemma die (status : Int32) (hr : (t.slots q).state = .running)
    (hslots : t'.slots = update t.slots q { t.slots q with xstate := status, state := .zombie })
    (hserial : t'.serial = t.serial) (hallocs : t'.allocs = t.allocs)
    (hexits : t'.exits = t.exits ++ [(t.serial q, (t.slots q).pid, status)])
    (hreaped : t'.reaped = t.reaped) : Reaping t' := by
  cases h
  constructor <;> simp only [hslots, hserial, hallocs, hexits, hreaped, update_apply, mem_append]
  all_goals grind

lemma reap (hz : (t.slots q).state = .zombie) (hslots : t'.slots = update t.slots q (freeproc (t.slots q)))
    (hserial : t'.serial = t.serial) (hallocs : t'.allocs = t.allocs) (hexits : t'.exits = t.exits)
    (hreaped : t'.reaped = t.reaped ++ [(p, t.serial q, (t.slots q).pid, (t.slots q).xstate)]) :
    Reaping t' := by
  have hfree : (freeproc (t.slots q)).state = .unused := rfl
  have hused : (t.slots q).state ≠ .unused := by rw [hz]; nofun
  have hnew : t.serial q ∉ t.reaped.map fun x => x.2.1 := by
    intro hm
    obtain ⟨x, hx, e⟩ := mem_map.mp hm
    exact (h.past x hx).2.2 q hused e.symm
  obtain ⟨h1, h2, h3, h4, h5, h6⟩ := h
  constructor <;> simp only [hslots, hserial, hallocs, hexits, hreaped, update_apply]
  · grind
  · grind
  · grind
  · grind
  · rw [map_append]
    exact nodup_append.mpr ⟨h5, nodup_cons.mpr ⟨nofun, nodup_nil⟩, by grind⟩
  · intro x hx
    rcases mem_append.mp hx with hx | hx
    · grind
    · rw [mem_singleton.mp hx]
      refine ⟨h3 q hz, h1 q hused, fun q' hq' e => ?_⟩
      split_ifs at hq' with hqq
      · exact hq' hfree
      · exact hqq (h2 q' q hq' hused e)

/-- **One step.** -/
lemma step {e : Event P} (hk : Kin initproc t) (hs : Proc.step procs initproc t e = .ok t') : Reaping t' := by
  cases step_cases hs with
  | @alloc p q hr hpc hq =>
    exact h.alloc (q := q) (g := fun s => { s with
      pid := t.nextpid, state := .used, trapframe := true, pagetable := true }) rfl rfl rfl rfl rfl rfl
  | @allocFail p q made hr hpc hq hm =>
    exact h.slot q freeproc (fun hf => absurd rfl hf) rfl rfl (Nat.le_succ _) rfl rfl
  | @setParent p q hr hpc hl =>
    exact h.slot q (fun s => { s with parent := some p }) (.of_eq rfl rfl rfl) rfl rfl (Nat.le_refl _) rfl
      rfl
  | @ready p q hr hpc =>
    have hused := (hk.forks p q (.inr hpc)).1
    exact h.slot q (fun s => { s with state := .runnable })
      (.of_alive (by rw [hused]; exact ⟨nofun, nofun⟩) nofun) rfl rfl (Nat.le_refl _) rfl rfl
  | @reparent p q rest status hr hpc hq =>
    exact h.slot q (fun s => { s with parent := some initproc }) (.of_eq rfl rfl rfl) rfl rfl
      (Nat.le_refl _) rfl rfl
  | exit | reparentNext | reparentDone | wakeSelf | wakeInitDone | wakeParentSelf | wakeParentDone | wait
  | reapFail | scanChild | scanNext | waitFail | waitOn | kill | killNext | killFail =>
    exact h.same rfl rfl rfl rfl rfl
  | wakeInit | wakeParent | wakeOther => exact h.slot _ _ (.wakeup _ _) rfl rfl (Nat.le_refl _) rfl rfl
  | die hr hpc => exact h.die _ hr rfl rfl rfl rfl rfl
  | reap hr hpc hq hz => exact h.reap hz rfl rfl rfl rfl rfl
  | killHit => exact h.slot _ _ (.kill _) rfl rfl (Nat.le_refl _) rfl rfl
  | @fault p hr hpc =>
    exact h.slot p (fun s => { s with killed := true }) (.of_eq rfl rfl rfl) rfl rfl (Nat.le_refl _) rfl
      rfl
  | @sleepWait p hr hpc =>
    exact h.slot p (fun s => { s with chan := some (.proc p), state := .sleeping })
      (.of_alive (by rw [hr]; exact ⟨nofun, nofun⟩) nofun) rfl rfl (Nat.le_refl _) rfl rfl
  | @sleepOther p n hr hpc =>
    exact h.slot p (fun s => { s with chan := some (.other n), state := .sleeping })
      (.of_alive (by rw [hr]; exact ⟨nofun, nofun⟩) nofun) rfl rfl (Nat.le_refl _) rfl rfl
  | @yield p hr hl =>
    exact h.slot p (fun s => { s with state := .runnable })
      (.of_alive (by rw [hr]; exact ⟨nofun, nofun⟩) nofun) rfl rfl (Nat.le_refl _) rfl rfl
  | @resume p hst hpc | @schedule p hst hpc =>
    exact h.slot p (fun s => { s with state := .running, chan := none })
      (.of_alive (by rw [hst]; exact ⟨nofun, nofun⟩) nofun) rfl rfl (Nat.le_refl _) rfl rfl

end

end Reaping

/-! ### Runs -/

/-- A record of a child that was reaped is made by its parent. -/
lemma reaped_of_step {e : Event P} (hs : step procs initproc t e = .ok t') : t'.reaped = t.reaped ∨
    ∃ p q, e = .scan p true ∧ (t.slots q).parent = some p ∧ (t.slots q).state = .zombie ∧
      t'.reaped = t.reaped ++ [(p, t.serial q, (t.slots q).pid, (t.slots q).xstate)] := by
  cases step_cases hs with
  | @reap p q rest havekids hr hpc hq hz => exact .inr ⟨p, q, rfl, hq, hz, rfl⟩
  | _ => exact .inl rfl

/-- A `wait` that cannot copy the status out leaves the table as it is. -/
lemma scan_false (hs : step procs initproc t (.scan p false) = .ok t') :
    t'.slots = t.slots ∧ t'.reaped = t.reaped := by
  cases step_cases hs with
  | reapFail | scanChild | scanNext => exact ⟨rfl, rfl⟩

/-- **Every process that exits is reaped at most once.**  In every run, no two successful `wait`s have
returned the same process, and each has returned a process that has exited, with its pid and status;
it was called by its parent at that moment, and a `wait` that cannot copy the status out reaps nobody.
Every process but the first has a parent that is neither unused nor a zombie, which is the first process if
the process that has forked it has exited.  While nobody holds `wait_lock`, nobody who sleeps in
`wait` has a zombie for a child. -/
theorem reaped_once (hall : ∀ p, p ∈ procs)
    (hr : Reach (step procs initproc) (fun _ _ => True) (start initproc) t) :
    (t.reaped.map fun x => x.2.1).Nodup ∧ (∀ x ∈ t.reaped, x.2 ∈ t.exits) ∧
    (∀ e t', step procs initproc t e = .ok t' → t'.reaped = t.reaped ∨
      ∃ p q, e = .scan p true ∧ (t.slots q).parent = some p ∧ (t.slots q).state = .zombie ∧
        t'.reaped = t.reaped ++ [(p, t.serial q, (t.slots q).pid, (t.slots q).xstate)]) ∧
    (∀ p t', step procs initproc t (.scan p false) = .ok t' → t'.slots = t.slots ∧ t'.reaped = t.reaped) ∧
    (∀ q, (t.slots q).state ≠ .unused → (t.slots q).state ≠ .used → q ≠ initproc →
      ∃ p, (t.slots q).parent = some p ∧ (t.slots p).state ≠ .unused ∧ (t.slots p).state ≠ .zombie ∧
        ∀ x ∈ t.exits, x.1 = t.maker q → p = initproc) ∧
    (t.waitLock = none → ∀ p q, (t.slots p).state = .sleeping → t.pcs p = .waiting →
      (t.slots q).parent = some p → (t.slots q).state ≠ .zombie) := by
  obtain ⟨hk, ha, hp⟩ : Kin initproc t ∧ Awake initproc t ∧ Reaping t :=
    hr.invariant (I := fun t => Kin initproc t ∧ Awake initproc t ∧ Reaping t)
      ⟨kin_start initproc, awake_start initproc, reaping_start initproc⟩
      fun ⟨hk, ha, hp⟩ _ hs => ⟨hk.step hall hs, ha.step hk hall hs, hp.step hk hs⟩
  refine ⟨hp.once, fun x hx => (hp.past x hx).1, fun e t' => reaped_of_step, fun p t' => scan_false, ?_, ?_⟩
  · intro q hq hu hi
    obtain ⟨p, hpar⟩ := Option.ne_none_iff_exists'.mp (hk.child q hq hu hi)
    obtain ⟨halive, hmaker⟩ := hk.parent p q hpar
    have hstate : (t.slots p).state ≠ .unused ∧ (t.slots p).state ≠ .zombie := by
      rcases halive with h | h | h <;> rw [h] <;> exact ⟨nofun, nofun⟩
    refine ⟨p, hpar, hstate.1, hstate.2, fun x hx e => hmaker.resolve_right fun hm => ?_⟩
    exact hstate.2 ((hp.dead x hx).2 p hstate.1 (hm.trans e.symm))
  · intro hl p q hst hpc hpar hz
    obtain ⟨_, r, hw⟩ := ha.asleep p q ⟨hst, hpc⟩ hpar hz
    exact hk.free hl r hw.holds

end

/-- The first process forks a child, which forks another one; the first of them exits while the first
process sleeps in `wait`, and is reaped. -/
def reapRun : List (Event (Fin 3)) :=
  [.schedule 0, .alloc 0 1 .ok, .setParent 0, .ready 0, .schedule 1, .alloc 1 2 .ok, .setParent 1, .ready 1,
    .wait 0, .scan 0 true, .scan 0 true, .scan 0 true, .sleepWait 0, .sleepWait 0, .exit 1 7, .reparent 1,
    .reparent 1, .reparent 1, .wake 1, .wake 1, .wake 1, .wake 1, .reparent 1, .wake 1, .wake 1, .wake 1, .wake 1, .die 1,
    .schedule 0, .wait 0, .scan 0 true, .scan 0 true]

theorem reaped_once_sample : ∃ t : State (Fin 3),
    Reach (step [0, 1, 2] 0) (fun _ _ => True) (start 0) t ∧ t.reaped = [(0, 1, 2, 7)] ∧
      (t.slots 2).parent = some 0 ∧ (t.reaped.map fun x => x.2.1).Nodup ∧ ∀ x ∈ t.reaped, x.2 ∈ t.exits := by
  have h : runTest (step [0, 1, 2] 0) (fun _ _ => True) (start 0) reapRun
      (fun t => t.reaped == [(0, 1, 2, 7)] && (t.slots 2).parent == some 0) = true := by decide +kernel
  obtain ⟨t, ht, hc⟩ := Reach.of_runTest h
  simp only [Bool.and_eq_true, beq_iff_eq] at hc
  have hresult := reaped_once (by decide) ht
  exact ⟨t, ht, hc.1, hc.2, hresult.1, hresult.2.1⟩

end FypOs.Proc
