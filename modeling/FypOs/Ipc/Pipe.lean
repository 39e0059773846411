import FypOs.Lib.Runs
import FypOs.Lib.Window

/-!
# Ipc — pipes

`kernel/pipe.c`: a ring buffer between processes that write and processes that read.  A step of the
machine is one critical section of `pi->lock`: a call runs from the lock to its return, or to the place
where it sleeps and lets go of the lock.  A sleeper may go on at any time, which covers every wakeup,
spurious ones included.

* `pipe_fifo`: what readers have removed is at every moment the beginning of what writers have stored.
-/

namespace FypOs.Ipc

open Lib List Function

def PIPESIZE : Nat := 512

lemma PIPESIZE_dvd : PIPESIZE ∣ 2 ^ 32 := by decide

structure Pipe where
  data : Nat → UInt8
  /-- The number of bytes read. -/
  nread : UInt32
  /-- The number of bytes written. -/
  nwrite : UInt32
  /-- The read end is still open. -/
  readopen : Bool
  writeopen : Bool

/-- The pipe that `pipealloc` makes of a page, which holds whatever was there before. -/
def pipealloc (data : Nat → UInt8) : Pipe := ⟨data, 0, 0, true, true⟩

/-- How a critical section ends: the call returns, or it sleeps and goes on later, with `i` bytes done. -/
inductive Leaves where
  | ret (r : Int)
  | sleep (i : Nat)
  deriving DecidableEq

namespace Pipe

/-- `pi->data[pi->nwrite++ % PIPESIZE] = ch`. -/
def store (pi : Pipe) (ch : UInt8) : Pipe :=
  { pi with data := update pi.data (slotOf PIPESIZE pi.nwrite) ch, nwrite := pi.nwrite + 1 }

/-- `pi->data[pi->nread++ % PIPESIZE]`: the byte, and the pipe without it. -/
def first (pi : Pipe) : UInt8 := pi.data (slotOf PIPESIZE pi.nread)

def remove (pi : Pipe) : Pipe := { pi with nread := pi.nread + 1 }

end Pipe

/-- The loop of `pipewrite`, with `rest` bytes to go; the bytes it stores come with the result.  `src`
is what `copyin` finds, and `killed` what `killed` says before byte `i`. -/
def pipewrite (src : Nat → Option UInt8) (killed : Nat → Bool) :
    Nat → Nat → Pipe → Pipe × List UInt8 × Leaves
  | 0, i, pi => (pi, [], .ret i)
  | rest + 1, i, pi =>
    if pi.readopen = false ∨ killed i = true then (pi, [], .ret (-1))
    else if pi.nwrite = pi.nread + UInt32.ofNat PIPESIZE then (pi, [], .sleep i)
    else
      match src i with
      | none => (pi, [], .ret i)
      | some ch =>
        let r := pipewrite src killed rest (i + 1) (pi.store ch)
        (r.1, ch :: r.2.1, r.2.2)

/-- The second loop of `piperead`; the bytes it removes come with the result. -/
def readLoop (copyout : Nat → Bool) : Nat → Nat → Pipe → Pipe × List UInt8 × Leaves
  | 0, i, pi => (pi, [], .ret i)
  | rest + 1, i, pi =>
    if pi.nread = pi.nwrite then (pi, [], .ret i)
    else if copyout i = false then (pi.remove, [pi.first], .ret i)
    else
      let r := readLoop copyout rest (i + 1) pi.remove
      (r.1, pi.first :: r.2.1, r.2.2)

def piperead (copyout : Nat → Bool) (killed : Bool) (n : Nat) (pi : Pipe) :
    Pipe × List UInt8 × Leaves :=
  if pi.nread = pi.nwrite ∧ pi.writeopen = true then
    if killed then (pi, [], .ret (-1)) else (pi, [], .sleep 0)
  else readLoop copyout n 0 pi

/-- Close one end; there is no pipe any more when both are closed. -/
def pipeclose (writable : Bool) (pi : Pipe) : Option Pipe :=
  let pi' := if writable then { pi with writeopen := false } else { pi with readopen := false }
  if pi'.readopen = false ∧ pi'.writeopen = false then none else some pi'

/-! ### The machine -/

/-- What a process is doing: nothing, since its last call has returned, or a call. -/
inductive Call where
  | idle (last : Option Int)
  | writing (n : Int) (i : Nat)
  | reading (n : Int)
  deriving DecidableEq

/-- A pipe, until it is freed, and the processes that use it.  `stored` and `removed` record the bytes
that have gone in and out. -/
structure State (P : Type) where
  pipe : Option Pipe
  calls : P → Call
  stored : List UInt8
  removed : List UInt8

inductive Event (P : Type) where
  /-- A process calls `pipewrite` or `piperead`. -/
  | callWrite (p : P) (n : Int)
  | callRead (p : P) (n : Int)
  /-- A process in such a call runs its next critical section. -/
  | pipewrite (p : P) (src : Nat → Option UInt8) (killed : Nat → Bool)
  | piperead (p : P) (copyout : Nat → Bool) (killed : Bool)
  | pipeclose (writable : Bool)

/-- Where a process is after a section of a call, which goes on with `resume` if it sleeps. -/
def Leaves.next (resume : Nat → Call) : Leaves → Call
  | .ret r => .idle (some r)
  | .sleep i => resume i

section

variable {P : Type} [DecidableEq P]

def step (t : State P) : Event P → Outcome (State P)
  | .callWrite p n =>
    match t.calls p with
    | .idle _ => .ok { t with calls := update t.calls p (.writing n 0) }
    | _ => .blocked
  | .callRead p n =>
    match t.calls p with
    | .idle _ => .ok { t with calls := update t.calls p (.reading n) }
    | _ => .blocked
  | .pipewrite p src killed =>
    match t.calls p, t.pipe with
    | .writing n i, some pi =>
      let r := pipewrite src killed (n - i).toNat i pi
      .ok { t with
        pipe := some r.1
        calls := update t.calls p (r.2.2.next (.writing n))
        stored := t.stored ++ r.2.1 }
    | _, _ => .blocked
  | .piperead p copyout killed =>
    match t.calls p, t.pipe with
    | .reading n, some pi =>
      let r := piperead copyout killed n.toNat pi
      .ok { t with
        pipe := some r.1
        calls := update t.calls p (r.2.2.next fun _ => .reading n)
        removed := t.removed ++ r.2.1 }
    | _, _ => .blocked
  | .pipeclose writable =>
    match t.pipe with
    | some pi => .ok { t with pipe := pipeclose writable pi }
    | none => .blocked

/-- A new pipe, and processes that do not use it yet. -/
def start (data : Nat → UInt8) : State P := ⟨some (pipealloc data), fun _ => .idle none, [], []⟩

end

/-! ### The queue -/

namespace Pipe

variable {pi : Pipe} {q : List UInt8}

/-- The bytes in the buffer are `q`, first in first. -/
structure Holds (pi : Pipe) (q : List UInt8) : Prop where
  room : gap pi.nread pi.nwrite ≤ PIPESIZE
  bytes : window pi.data PIPESIZE pi.nread (gap pi.nread pi.nwrite) = q

lemma holds_alloc (data : Nat → UInt8) : (pipealloc data).Holds [] := by
  have hgap : gap (pipealloc data).nread (pipealloc data).nwrite = 0 := gap_self 0
  exact ⟨by rw [hgap]; exact Nat.zero_le _, by rw [hgap]; rfl⟩

lemma Holds.store (h : pi.Holds q) (hfull : pi.nwrite ≠ pi.nread + UInt32.ofNat PIPESIZE)
    (ch : UInt8) : (pi.store ch).Holds (q ++ [ch]) := by
  have hlt : gap pi.nread pi.nwrite < PIPESIZE := by
    refine lt_of_le_of_ne h.room fun e => hfull ?_
    rw [← e, add_gap]
  have hgap : gap pi.nread (pi.nwrite + 1) = gap pi.nread pi.nwrite + 1 := by
    refine gap_succ (hlt.trans ?_)
    decide
  refine ⟨?_, ?_⟩
  · change gap pi.nread (pi.nwrite + 1) ≤ PIPESIZE
    rw [hgap]
    exact hlt
  · change window (update pi.data (slotOf PIPESIZE pi.nwrite) ch) PIPESIZE pi.nread
      (gap pi.nread (pi.nwrite + 1)) = _
    have hpush := window_push pi.data pi.nread PIPESIZE_dvd hlt ch
    rw [add_gap, h.bytes] at hpush
    rw [hgap, hpush]

lemma Holds.remove (h : pi.Holds q) (hne : pi.nread ≠ pi.nwrite) :
    ∃ q', q = pi.first :: q' ∧ pi.remove.Holds q' := by
  have hgap := gap_succ_left hne
  refine ⟨window pi.data PIPESIZE (pi.nread + 1) (gap (pi.nread + 1) pi.nwrite), ?_, ?_, rfl⟩
  · rw [← h.bytes, ← hgap, window_pop]
    rfl
  · have hroom := h.room
    change gap (pi.nread + 1) pi.nwrite ≤ PIPESIZE
    omega

/-- Closing one end leaves the buffer alone, and opens no end. -/
lemma of_close {writable : Bool} {pi' : Pipe} (hc : pipeclose writable pi = some pi') :
    (pi.Holds q → pi'.Holds q) ∧ (pi.readopen = false → pi'.readopen = false) := by
  cases writable with
  | false =>
    simp only [pipeclose, Bool.false_eq_true, if_false] at hc
    split_ifs at hc
    cases hc
    exact ⟨fun h => ⟨h.room, h.bytes⟩, fun _ => rfl⟩
  | true =>
    simp only [pipeclose, if_true] at hc
    split_ifs at hc
    cases hc
    exact ⟨fun h => ⟨h.room, h.bytes⟩, id⟩

end Pipe

section

variable {pi : Pipe} {q : List UInt8}

/-- A section of `pipewrite` adds what it stores to the queue. -/
lemma pipewrite_holds (src : Nat → Option UInt8) (killed : Nat → Bool) (rest i : Nat)
    (h : pi.Holds q) : (pipewrite src killed rest i pi).1.Holds (q ++ (pipewrite src killed rest i pi).2.1) := by
  induction rest generalizing i pi q with
  | zero =>
    rw [pipewrite, append_nil]
    exact h
  | succ rest ih =>
    rw [pipewrite]
    split_ifs with hdead hfull
    · rw [append_nil]
      exact h
    · rw [append_nil]
      exact h
    · cases src i with
      | none =>
        rw [append_nil]
        exact h
      | some ch =>
        have := ih (i + 1) (h.store hfull ch)
        rw [append_assoc, singleton_append] at this
        exact this

/-- Nothing is stored once the read end is closed, and writing closes no end. -/
lemma pipewrite_ends (src : Nat → Option UInt8) (killed : Nat → Bool) (rest i : Nat) (pi : Pipe) :
    (pipewrite src killed rest i pi).1.readopen = pi.readopen ∧
      (pi.readopen = false → (pipewrite src killed rest i pi).2.1 = []) := by
  induction rest generalizing i pi with
  | zero => exact ⟨rfl, fun _ => rfl⟩
  | succ rest ih =>
    rw [pipewrite]
    split_ifs with hdead hfull
    · exact ⟨rfl, fun _ => rfl⟩
    · exact ⟨rfl, fun _ => rfl⟩
    · cases src i with
      | none => exact ⟨rfl, fun _ => rfl⟩
      | some ch => exact ⟨(ih (i + 1) (pi.store ch)).1, fun hro => absurd (.inl hro) hdead⟩

lemma readLoop_holds (copyout : Nat → Bool) (rest i : Nat) (h : pi.Holds q) :
    ∃ q', q = (readLoop copyout rest i pi).2.1 ++ q' ∧ (readLoop copyout rest i pi).1.Holds q' := by
  induction rest generalizing i pi q with
  | zero => exact ⟨q, rfl, h⟩
  | succ rest ih =>
    rw [readLoop]
    split_ifs with hempty hfail
    · exact ⟨q, rfl, h⟩
    · exact h.remove hempty
    · obtain ⟨q1, rfl, h1⟩ := h.remove hempty
      obtain ⟨q', rfl, h'⟩ := ih (i + 1) h1
      exact ⟨q', rfl, h'⟩

/-- A section of `piperead` takes what it removes from the front of the queue. -/
lemma piperead_holds (copyout : Nat → Bool) (killed : Bool) (n : Nat) (h : pi.Holds q) :
    ∃ q', q = (piperead copyout killed n pi).2.1 ++ q' ∧ (piperead copyout killed n pi).1.Holds q' := by
  rw [piperead]
  split_ifs
  · exact ⟨q, rfl, h⟩
  · exact ⟨q, rfl, h⟩
  · exact readLoop_holds copyout n 0 h

lemma readLoop_readopen (copyout : Nat → Bool) (rest i : Nat) (pi : Pipe) :
    (readLoop copyout rest i pi).1.readopen = pi.readopen := by
  induction rest generalizing i pi with
  | zero => rfl
  | succ rest ih =>
    rw [readLoop]
    split_ifs
    · rfl
    · rfl
    · exact ih (i + 1) pi.remove

lemma piperead_readopen (copyout : Nat → Bool) (killed : Bool) (n : Nat) (pi : Pipe) :
    (piperead copyout killed n pi).1.readopen = pi.readopen := by
  rw [piperead]
  split_ifs
  · rfl
  · rfl
  · exact readLoop_readopen copyout n 0 pi

/-- The loop returns at least the number of bytes it started with. -/
lemma readLoop_ret (copyout : Nat → Bool) (rest i : Nat) (pi : Pipe) :
    ∃ j : Nat, i ≤ j ∧ (readLoop copyout rest i pi).2.2 = .ret j := by
  induction rest generalizing i pi with
  | zero => exact ⟨i, le_rfl, rfl⟩
  | succ rest ih =>
    rw [readLoop]
    split_ifs
    · exact ⟨i, le_rfl, rfl⟩
    · exact ⟨i, le_rfl, rfl⟩
    · obtain ⟨j, hj, e⟩ := ih (i + 1) pi.remove
      exact ⟨j, Nat.le_of_succ_le hj, e⟩

/-- **A read returns nothing** only at the end of the data, or if the first byte cannot be copied. -/
lemma piperead_eq_zero {copyout : Nat → Bool} {killed : Bool} {n : Nat} (hn : 0 < n)
    (h : (piperead copyout killed n pi).2.2 = .ret 0) :
    pi.nread = pi.nwrite ∧ pi.writeopen = false ∨ copyout 0 = false := by
  rw [piperead] at h
  split_ifs at h with hwait hkilled
  · cases h
  · obtain ⟨n, rfl⟩ := Nat.exists_eq_succ_of_ne_zero hn.ne'
    rw [readLoop] at h
    split_ifs at h with hempty hfail
    · exact .inl ⟨hempty, Bool.eq_false_of_not_eq_true fun hw => hwait ⟨hempty, hw⟩⟩
    · exact .inr hfail
    · obtain ⟨j, hj, e⟩ := readLoop_ret copyout n 1 pi.remove
      rw [e] at h
      have : (j : Int) = 0 := Leaves.ret.inj h
      omega

end

/-! ### Runs -/

section

variable {P : Type} [DecidableEq P] {t t' : State P} {e : Event P}

/-- What is in the buffer is what has been stored and not been removed. -/
structure Inv (t : State P) : Prop where
  pre : t.removed <+: t.stored
  holds : ∀ pi, t.pipe = some pi → ∃ q, pi.Holds q ∧ t.stored = t.removed ++ q

omit [DecidableEq P] in
lemma inv_start (data : Nat → UInt8) : Inv (start data : State P) where
  pre := prefix_rfl
  holds := by
    rintro pi ⟨⟩
    exact ⟨[], Pipe.holds_alloc data, rfl⟩

lemma step_cases (h : step t e = .ok t') : (t'.pipe = t.pipe ∧ t'.stored = t.stored ∧ t'.removed = t.removed) ∨
    (∃ p src killed n i pi, e = .pipewrite p src killed ∧ t.calls p = .writing n i ∧ t.pipe = some pi ∧
      t'.pipe = some (pipewrite src killed (n - i).toNat i pi).1 ∧
      t'.stored = t.stored ++ (pipewrite src killed (n - i).toNat i pi).2.1 ∧
      t'.removed = t.removed) ∨
    (∃ p copyout killed n pi, e = .piperead p copyout killed ∧ t.calls p = .reading n ∧
      t.pipe = some pi ∧ t'.pipe = some (piperead copyout killed n.toNat pi).1 ∧
      t'.calls p = (piperead copyout killed n.toNat pi).2.2.next (fun _ => .reading n) ∧
      t'.stored = t.stored ∧ t'.removed = t.removed ++ (piperead copyout killed n.toNat pi).2.1) ∨
    ∃ writable pi, t.pipe = some pi ∧ t'.pipe = pipeclose writable pi ∧ t'.stored = t.stored ∧
      t'.removed = t.removed := by
  cases e with simp only [step] at h
  | callWrite p n | callRead p n =>
    split at h
    · cases h
      exact .inl ⟨rfl, rfl, rfl⟩
    · cases h
  | pipewrite p src killed =>
    split at h
    · rename_i n i pi hcall hpipe
      cases h
      exact .inr (.inl ⟨p, src, killed, n, i, pi, rfl, hcall, hpipe, rfl, rfl, rfl⟩)
    · cases h
  | piperead p copyout killed =>
    split at h
    · rename_i n pi hcall hpipe
      cases h
      exact .inr (.inr (.inl ⟨p, copyout, killed, n, pi, rfl, hcall, hpipe, rfl,
        update_self .., rfl, rfl⟩))
    · cases h
  | pipeclose writable =>
    split at h
    · rename_i pi hpipe
      cases h
      exact .inr (.inr (.inr ⟨writable, pi, hpipe, rfl, rfl, rfl⟩))
    · cases h

lemma Inv.step (h : Inv t) (hs : step t e = .ok t') : Inv t' := by
  rcases step_cases hs with ⟨hp, hst, hrm⟩ | ⟨-, src, killed, n, i, pi, -, -, hpi, hp, hst, hrm⟩ |
    ⟨-, copyout, killed, n, pi, -, -, hpi, hp, -, hst, hrm⟩ | ⟨writable, pi, hpi, hp, hst, hrm⟩
  · refine ⟨by rw [hst, hrm]; exact h.pre, fun pi hpi => ?_⟩
    rw [hst, hrm]
    exact h.holds pi (hp ▸ hpi)
  · obtain ⟨q, hq, e⟩ := h.holds pi hpi
    have hw := pipewrite_holds src killed (n - i).toNat i hq
    rw [e, append_assoc] at hst
    refine ⟨?_, ?_⟩
    · rw [hst, hrm]
      exact prefix_append ..
    · intro pi' hpi'
      cases hp.symm.trans hpi'
      exact ⟨_, hw, by rw [hst, hrm]⟩
  · obtain ⟨q, hq, e⟩ := h.holds pi hpi
    obtain ⟨q', rfl, hq'⟩ := piperead_holds copyout killed n.toNat hq
    rw [e, ← append_assoc, ← hrm] at hst
    refine ⟨?_, ?_⟩
    · rw [hst]
      exact prefix_append ..
    · intro pi' hpi'
      cases hp.symm.trans hpi'
      exact ⟨q', hq', hst⟩
  · obtain ⟨q, hq, e⟩ := h.holds pi hpi
    refine ⟨by rw [hst, hrm]; exact h.pre, fun pi' hpi' => ⟨q, (Pipe.of_close (hp.symm.trans hpi')).1 hq, ?_⟩⟩
    rw [hst, hrm, e]

/-- The read end is closed, or the pipe is gone. -/
def ReadClosed (t : State P) : Prop := ∀ pi, t.pipe = some pi → pi.readopen = false

lemma ReadClosed.step (h : ReadClosed t) (hs : step t e = .ok t') : ReadClosed t' ∧ t'.stored = t.stored := by
  rcases step_cases hs with ⟨hp, hst, -⟩ | ⟨-, src, killed, n, i, pi, -, -, hpi, hp, hst, -⟩ |
    ⟨-, copyout, killed, n, pi, -, -, hpi, hp, -, hst, -⟩ | ⟨writable, pi, hpi, hp, hst, -⟩
  · exact ⟨fun pi hpi => h pi (hp ▸ hpi), hst⟩
  · obtain ⟨hro, hnil⟩ := pipewrite_ends src killed (n - i).toNat i pi
    rw [hnil (h pi hpi), append_nil] at hst
    refine ⟨fun pi' hpi' => ?_, hst⟩
    cases hp.symm.trans hpi'
    rw [hro, h pi hpi]
  · refine ⟨fun pi' hpi' => ?_, hst⟩
    cases hp.symm.trans hpi'
    rw [piperead_readopen, h pi hpi]
  · refine ⟨fun pi' hpi' => ?_, hst⟩
    exact (Pipe.of_close (q := []) (hp.symm.trans hpi')).2 (h pi hpi)

lemma ReadClosed.run (h : ReadClosed t) (hr : Reach Ipc.step (fun _ _ => True) t t') :
    t'.stored = t.stored := by
  have hboth : ReadClosed t' ∧ t'.stored = t.stored := by
    induction hr with
    | refl => exact ⟨h, rfl⟩
    | tail _ _ hs ih =>
      obtain ⟨hc, e⟩ := ih.1.step hs
      exact ⟨hc, e.trans ih.2⟩
  exact hboth.2

/-- **A pipe is a bounded queue.**  In every run of any number of processes on a new pipe, there are at
most `PIPESIZE` bytes in it, the readers have removed a beginning of what the writers have stored, a
read that asks for bytes returns none only at the end of the data or if its first byte could not be
copied, and nothing is stored after the read end was closed. -/
theorem pipe_fifo {data : Nat → UInt8} (hr : Reach step (fun _ _ => True) (start data) t) :
    (∀ pi, t.pipe = some pi → (pi.nwrite - pi.nread).toNat ≤ PIPESIZE) ∧
    t.removed <+: t.stored ∧ (∀ p n copyout killed t', t.calls p = .reading n → 0 < n →
      step t (.piperead p copyout killed) = .ok t' → t'.calls p = .idle (some 0) →
      (∃ pi, t.pipe = some pi ∧ pi.nread = pi.nwrite ∧ pi.writeopen = false) ∨ copyout 0 = false) ∧
    ∀ pi t', t.pipe = some pi → pi.readopen = false → Reach step (fun _ _ => True) t t' →
      t'.stored = t.stored := by
  have hinv : Inv t := hr.invariant (inv_start data) fun hi _ hs => hi.step hs
  refine ⟨fun pi hpi => ?_, hinv.pre, fun p n copyout killed t' hcall hn hs hret => ?_,
    fun pi t' hpi hro hrun => ReadClosed.run (fun pi' hpi' => ?_) hrun⟩
  · obtain ⟨q, hq, -⟩ := hinv.holds pi hpi
    exact hq.room
  · simp only [step, hcall] at hs
    cases hpipe : t.pipe with
    | none =>
      rw [hpipe] at hs
      cases hs
    | some pi =>
      rw [hpipe] at hs
      cases hs
      have hzero : (piperead copyout killed n.toNat pi).2.2 = .ret 0 := by
        have hnext := (update_self ..).symm.trans hret
        cases hlv : (piperead copyout killed n.toNat pi).2.2 with
        | ret r =>
          rw [hlv] at hnext
          cases hnext
          rfl
        | sleep i =>
          rw [hlv] at hnext
          cases hnext
      rcases piperead_eq_zero (by omega) hzero with ⟨he, hw⟩ | hfail
      · exact .inl ⟨pi, rfl, he, hw⟩
      · exact .inr hfail
  · cases hpi.symm.trans hpi'
    exact hro

end

/-- Two bytes are written, and one of them is read: a run of two processes. -/
def sampleRun : List (Event (Fin 2)) :=
  [.callWrite 0 2, .callRead 1 1, .piperead 1 (fun _ => true) false,
    .pipewrite 0 (fun i => if i = 0 then some 7 else some 9) (fun _ => false),
    .piperead 1 (fun _ => true) false]

theorem pipe_fifo_sample : ∃ t : State (Fin 2),
    Reach step (fun _ _ => True) (start fun _ => 0) t ∧ t.stored = [7, 9] ∧ t.removed = [7] ∧
      t.removed <+: t.stored := by
  have h : runTest step (fun _ _ => True) (start fun _ => 0 : State (Fin 2)) sampleRun
      (fun t => t.stored == [7, 9] && t.removed == [7]) = true := by decide +kernel
  obtain ⟨t, ht, hc⟩ := Reach.of_runTest h
  simp only [Bool.and_eq_true, beq_iff_eq] at hc
  exact ⟨t, ht, hc.1, hc.2, (pipe_fifo ht).2.1⟩

end FypOs.Ipc
