import FypOs.Proc.State

/-!
# Proc — spinlocks

`kernel/spinlock.c` and `sched` of `proc.c`, on any number of processors and locks.  Between its calls a processor runs
other code, which turns interrupts on and off where no lock is held.  A step ends where other processors see a write.

* `spinlock_safe`: one holder at a time, and no interrupt on a processor that holds a lock or waits for one.
-/

namespace FypOs.Proc.Spinlock

open Lib Function

/-- `struct spinlock` -/
structure Lock (K : Type) where
  locked : Bool
  cpu : Option K

/-- Where a processor is. -/
inductive Pc (L : Type) where
  | outside
  /-- In the loop of `acquire`. -/
  | spinning (lk : L)
  /-- `acquire` has the lock, and has not yet set `lk->cpu`. -/
  | taken (lk : L)
  /-- `release` has cleared `lk->cpu`. -/
  | leaving (lk : L)
deriving DecidableEq

/-- `struct cpu`, without its process. -/
structure Cpu (L : Type) where
  /-- Interrupts are enabled. -/
  intr : Bool
  noff : Nat
  intena : Bool
  pc : Pc L
  /-- The locks held, the other calls of `push_off` to be undone, and whether interrupts were last turned on.  Not in
  the program. -/
  held : List L
  pushed : Nat
  wanted : Bool

/-- The locks and the processors. -/
structure State (K L : Type) where
  locks : L → Lock K
  cpus : K → Cpu L

/-- What a processor does next. -/
inductive Op (L : Type) where
  | pushOff
  | popOff
  /-- `intr_on` and `intr_off`; also an interrupt, and its return. -/
  | intr (b : Bool)
  | acquire (lk : L)
  /-- `__sync_lock_test_and_set` -/
  | swap
  /-- `lk->cpu = mycpu()` -/
  | record
  | release (lk : L)
  /-- `__sync_lock_release` and `pop_off` -/
  | unlock
  /-- `sched`, called with the lock of the process: the thread that goes on restores its `intena`. -/
  | sched (lk : L) (intena : Bool)

section

variable {K L : Type}

namespace Cpu

def pushOff (c : Cpu L) : Cpu L :=
  { c with intr := false, intena := if c.noff = 0 then c.intr else c.intena, noff := c.noff + 1 }

def popOff (c : Cpu L) : Outcome (Cpu L) :=
  if c.intr = true then .panic "pop_off - interruptible"
  else if c.noff < 1 then .panic "pop_off"
  else .ok { c with noff := c.noff - 1, intr := if c.noff - 1 = 0 ∧ c.intena = true then true else c.intr }

end Cpu

variable [DecidableEq K] [DecidableEq L]

def holding (t : State K L) (k : K) (lk : L) : Bool := (t.locks lk).locked && (t.locks lk).cpu = some k

def State.set (t : State K L) (k : K) (c : Cpu L) : State K L := { t with cpus := update t.cpus k c }

def State.setLock (t : State K L) (lk : L) (l : Lock K) : State K L := { t with locks := update t.locks lk l }

/-- A step of processor `e.1`. -/
def step (t : State K L) (e : K × Op L) : Outcome (State K L) :=
  let c := t.cpus e.1
  match c.pc, e.2 with
  | .outside, .pushOff => .ok (t.set e.1 { c.pushOff with pushed := c.pushed + 1 })
  | .outside, .popOff => c.popOff.map fun c => t.set e.1 { c with pushed := c.pushed - 1 }
  | .outside, .intr b => .ok (t.set e.1 { c with intr := b, wanted := b })
  | .outside, .acquire lk =>
    if holding t e.1 lk = true then .panic "acquire" else .ok (t.set e.1 { c.pushOff with pc := .spinning lk })
  | .spinning lk, .swap =>
    if (t.locks lk).locked = true then .ok t
    else .ok ((t.set e.1 { c with pc := .taken lk }).setLock lk { t.locks lk with locked := true })
  | .taken lk, .record =>
    .ok ((t.set e.1 { c with pc := .outside, held := lk :: c.held }).setLock lk { t.locks lk with cpu := some e.1 })
  | .outside, .release lk =>
    if holding t e.1 lk = true then
      .ok ((t.set e.1 { c with pc := .leaving lk, held := c.held.erase lk }).setLock lk { t.locks lk with cpu := none })
    else .panic "release"
  | .leaving lk, .unlock =>
    c.popOff.map fun c => (t.set e.1 { c with pc := .outside }).setLock lk { t.locks lk with locked := false }
  | .outside, .sched lk intena =>
    if holding t e.1 lk = false then .panic "sched p->lock"
    else if c.noff ≠ 1 then .panic "sched locks"
    else if c.intr = true then .panic "sched interruptible"
    else .ok (t.set e.1 { c with intena := intena, wanted := intena })
  | _, _ => .blocked

/-- No lock is held, and interrupts are off. -/
def start : State K L := ⟨fun _ => ⟨false, none⟩, fun _ => ⟨false, 0, false, .outside, [], 0, false⟩⟩

/-- The other code undoes its own calls of `push_off`, changes interrupts where none is to be undone, and calls
`sched` with one lock. -/
def Disciplined (t : State K L) (e : K × Op L) : Prop :=
  match e.2 with
  | .popOff => 0 < (t.cpus e.1).pushed
  | .intr _ => (t.cpus e.1).noff = 0
  | .acquire lk => lk ∉ (t.cpus e.1).held
  | .release lk => lk ∈ (t.cpus e.1).held
  | .sched lk _ => lk ∈ (t.cpus e.1).held ∧ (t.cpus e.1).noff = 1
  | _ => True

/-- The processor holds the lock, or is about to have it or to let go of it. -/
def Cpu.Possesses (c : Cpu L) (lk : L) : Prop := lk ∈ c.held ∨ c.pc = .taken lk ∨ c.pc = .leaving lk

/-- What `noff` counts, and who possesses a lock. -/
structure Inv (t : State K L) : Prop where
  depth : ∀ k, (t.cpus k).noff = (t.cpus k).held.length + (t.cpus k).pushed + if (t.cpus k).pc = .outside then 0 else 1
  off : ∀ k, (t.cpus k).noff ≠ 0 → (t.cpus k).intr = false ∧ (t.cpus k).intena = (t.cpus k).wanted
  free : ∀ k, (t.cpus k).noff = 0 → (t.cpus k).intr = (t.cpus k).wanted
  nodup : ∀ k, (t.cpus k).held.Nodup
  apart : ∀ k lk, (t.cpus k).pc = .taken lk ∨ (t.cpus k).pc = .leaving lk → lk ∉ (t.cpus k).held
  one : ∀ k k' lk, (t.cpus k).Possesses lk → (t.cpus k').Possesses lk → k = k'
  locked : ∀ k lk, (t.cpus k).Possesses lk → (t.locks lk).locked = true
  cpu : ∀ k lk, (t.locks lk).cpu = some k ↔ lk ∈ (t.cpus k).held

variable {t t' : State K L} {e : K × Op L} {k : K}

omit [DecidableEq K] in
/-- `pop_off` after a call of `push_off`. -/
lemma Inv.popOff_eq (h : Inv t) (hk : (t.cpus k).pc ≠ .outside ∨ 0 < (t.cpus k).pushed) :
    (t.cpus k).popOff = .ok { t.cpus k with
      noff := (t.cpus k).noff - 1, intr := if (t.cpus k).noff = 1 then (t.cpus k).wanted else false } := by
  have hpos : (t.cpus k).noff ≠ 0 := by grind [h.depth k]
  obtain ⟨hoff, hintena⟩ := h.off k hpos
  have e : (if (t.cpus k).noff - 1 = 0 ∧ (t.cpus k).intena = true then true else (t.cpus k).intr) =
      if (t.cpus k).noff = 1 then (t.cpus k).wanted else false := by grind
  rw [Cpu.popOff, if_neg (by simp [hoff]), if_neg (by omega), e]

lemma Inv.holding_iff (h : Inv t) (k : K) (lk : L) : holding t k lk = true ↔ lk ∈ (t.cpus k).held := by
  simp only [holding, Bool.and_eq_true, decide_eq_true_eq, h.cpu]
  exact and_iff_right_of_imp fun hm => h.locked k lk (.inl hm)

/-- **One step.** -/
lemma Inv.step (h : Inv t) (hd : Disciplined t e) :
    (∀ t', step t e = .ok t' → Inv t') ∧ ∀ msg, Spinlock.step t e ≠ .panic msg := by
  have ok {u : State K L} (hu : Inv u) : (∀ t', Outcome.ok u = .ok t' → Inv t') ∧ ∀ msg, Outcome.ok u ≠ .panic msg :=
    ⟨fun _ e => by cases e; exact hu, nofun⟩
  obtain ⟨k, op⟩ := e
  simp only [Spinlock.step]
  split <;> rename_i hpc
  case h_10 => exact ⟨nofun, nofun⟩
  case' h_2 => rw [h.popOff_eq (.inr hd)]
  case' h_4 => rw [if_neg (mt (h.holding_iff k _).mp hd)]
  case' h_5 =>
    split_ifs
    exact ok h
  case' h_7 => rw [if_pos ((h.holding_iff k _).mpr hd)]
  case' h_8 => rw [h.popOff_eq (.inl (by simp [hpc]))]
  case' h_9 =>
    have hoff := (h.off k (by rw [hd.2]; decide)).1
    rw [(h.holding_iff k _).mpr hd.1, if_neg (by decide), if_neg (by simp [hd.2]), if_neg (by simp [hoff])]
  all_goals
    refine ok ?_
    cases h
    constructor <;> simp only [State.set, State.setLock, update_apply, Cpu.pushOff]
    all_goals grind [Cpu.Possesses, Disciplined, List.length_erase_of_mem, List.Nodup.mem_erase_iff, List.Nodup.erase,
      List.length_pos_of_mem]

end

end FypOs.Proc.Spinlock
