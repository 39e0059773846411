import FypOs.Lib.Runs
import FypOs.Lib.Window
import Mathlib.Data.List.Induction

/-!
# Dev — the console

`kernel/console.c`: characters typed at the terminal are edited in a ring buffer and read line by line.
Three counters run through the buffer: `r`, up to which it has been read, `w`, up to which it may be
read, and `e`, up to which it has been typed.

A step is one critical section of `cons.lock`: the handling of one character, or a part of a read, up to
its return or to the place where it sleeps.  A sleeper may go on at any time, which covers every wakeup.
The echo on the terminal is left out.

* `console_refines`: every run of the console is a run of the line.
-/

namespace FypOs.Dev

open Lib Function List UInt32

def INPUT_BUF_SIZE : Nat := 128

lemma INPUT_BUF_SIZE_dvd : INPUT_BUF_SIZE ∣ 2 ^ 32 := by decide

/-- Control-x, for the letter `x`. -/
def ctrl (x : Char) : UInt8 := x.toNat.toUInt8 - 64

def newline : UInt8 := 10

def carriageReturn : UInt8 := 13

def delete : UInt8 := 0x7f

structure Cons where
  buf : Nat → UInt8
  /-- Read index. -/
  r : UInt32
  /-- Write index. -/
  w : UInt32
  /-- Edit index. -/
  e : UInt32

namespace Cons

/-- The loop of control-U.  It takes one turn for each character of the line. -/
def killLine : Nat → Cons → Cons
  | 0, s => s
  | fuel + 1, s =>
    if s.e ≠ s.w ∧ s.buf (slotOf INPUT_BUF_SIZE (s.e - 1)) ≠ newline then
      killLine fuel { s with e := s.e - 1 }
    else s

/-- Store a character, and hand on the line if it is complete or the buffer is full. -/
def put (s : Cons) (c : UInt8) : Cons :=
  let s' := { s with buf := update s.buf (slotOf INPUT_BUF_SIZE s.e) c, e := s.e + 1 }
  if c = newline ∨ c = ctrl 'D' ∨ s'.e - s'.r = ofNat INPUT_BUF_SIZE then { s' with w := s'.e }
  else s'

end Cons

/-- The console input interrupt handler. -/
def consoleintr (c : UInt8) (s : Cons) : Cons :=
  if c = ctrl 'P' then s
  else if c = ctrl 'U' then s.killLine (gap s.w s.e)
  else if c = ctrl 'H' ∨ c = delete then if s.e ≠ s.w then { s with e := s.e - 1 } else s
  else if c ≠ 0 ∧ s.e - s.r < ofNat INPUT_BUF_SIZE then
    s.put (if c = carriageReturn then newline else c)
  else s

/-- How a section of a read ends: the read returns `-1`, since the process is killed, or the bytes it
has copied; or it sleeps, with `n` bytes to go. -/
inductive Leaves where
  | killed
  | ret (got : List UInt8)
  | sleep (n : Nat) (got : List UInt8)
  deriving DecidableEq

/-- The loop of `consoleread`, with `n` of `target` bytes to go, after it has copied `got`.  `copyout`
says whether the next byte can be copied, with `n` to go. -/
def consoleread (copyout : Nat → Bool) (killed : Bool) (target : Nat) :
    Nat → List UInt8 → Cons → Cons × Leaves
  | 0, got, s => (s, .ret got)
  | n + 1, got, s =>
    if s.r = s.w then (s, if killed then .killed else .sleep (n + 1) got)
    else
      let c := s.buf (slotOf INPUT_BUF_SIZE s.r)
      let s' := { s with r := s.r + 1 }
      if c = ctrl 'D' then
        -- save it for next time, so that the caller gets a read without bytes
        (if n + 1 < target then { s' with r := s'.r - 1 } else s', .ret got)
      else if copyout (n + 1) = false then (s', .ret got)
      else if c = newline then (s', .ret (got ++ [c]))
      else consoleread copyout killed target n (got ++ [c]) s'

/-! ### Lines -/

/-- The bytes to be read, and the line that is being edited. -/
structure Line where
  queue : List UInt8
  edit : List UInt8
  deriving DecidableEq

namespace Line

def size (l : Line) : Nat := l.queue.length + l.edit.length

/-- A complete line can be read, and so can everything when there is no room left. -/
def put (l : Line) (c : UInt8) : Line :=
  if c = newline ∨ c = ctrl 'D' ∨ l.size + 1 = INPUT_BUF_SIZE then ⟨l.queue ++ (l.edit ++ [c]), []⟩
  else ⟨l.queue, l.edit ++ [c]⟩

/-- A character is typed. -/
def type (c : UInt8) (l : Line) : Line :=
  if c = ctrl 'P' then l
  else if c = ctrl 'U' then ⟨l.queue, []⟩
  else if c = ctrl 'H' ∨ c = delete then ⟨l.queue, l.edit.dropLast⟩
  else if c ≠ 0 ∧ l.size < INPUT_BUF_SIZE then l.put (if c = carriageReturn then newline else c)
  else l

/-- A read takes bytes from the queue up to its length, or to a newline; a control-D ends it, and is
left in place unless it is the first. -/
def read (copyout : Nat → Bool) (killed : Bool) :
    Nat → List UInt8 → List UInt8 → List UInt8 × Leaves
  | 0, got, queue => (queue, .ret got)
  | n + 1, got, [] => ([], if killed then .killed else .sleep (n + 1) got)
  | n + 1, got, c :: queue =>
    if c = ctrl 'D' then (if got = [] then queue else c :: queue, .ret got)
    else if copyout (n + 1) = false then (queue, .ret got)
    else if c = newline then (queue, .ret (got ++ [c]))
    else read copyout killed n (got ++ [c]) queue

end Line

/-! ### The machines -/

/-- What a process is doing: nothing, since its last read has ended, or a read. -/
inductive Reader where
  | idle (last : Option Leaves)
  | reading (target n : Nat) (got : List UInt8)
  deriving DecidableEq

def Leaves.next (target : Nat) : Leaves → Reader
  | .sleep n got => .reading target n got
  | l => .idle (some l)

inductive Event (P : Type) where
  | consoleintr (c : UInt8)
  /-- A process calls `consoleread`. -/
  | callRead (p : P) (n : Int)
  /-- A process in a read runs its next critical section. -/
  | consoleread (p : P) (copyout : Nat → Bool) (killed : Bool)

/-- A console, or a line, and the processes that read it. -/
structure State (P σ : Type) where
  input : σ
  readers : P → Reader

section

variable {P σ : Type} [DecidableEq P]

/-- One critical section, for a device `σ`: what a character does, and what a part of a read does. -/
def stepWith (intr : UInt8 → σ → σ)
    (read : (Nat → Bool) → Bool → Nat → Nat → List UInt8 → σ → σ × Leaves) (t : State P σ) :
    Event P → Outcome (State P σ)
  | .consoleintr c => .ok { t with input := intr c t.input }
  | .callRead p n =>
    match t.readers p with
    | .idle _ => .ok { t with readers := update t.readers p (.reading n.toNat n.toNat []) }
    | .reading .. => .blocked
  | .consoleread p copyout killed =>
    match t.readers p with
    | .idle _ => .blocked
    | .reading target n got =>
      let r := read copyout killed target n got t.input
      .ok ⟨r.1, update t.readers p (r.2.next target)⟩

/-- The console. -/
def step : State P Cons → Event P → Outcome (State P Cons) := stepWith consoleintr consoleread

/-- The line. -/
def lineStep : State P Line → Event P → Outcome (State P Line) :=
  stepWith Line.type fun copyout killed _ n got l =>
    let r := Line.read copyout killed n got l.queue
    (⟨r.1, l.edit⟩, r.2)

/-- The console before anything is typed. -/
def start : State P Cons := ⟨⟨fun _ => 0, 0, 0, 0⟩, fun _ => .idle none⟩

def lineStart : State P Line := ⟨⟨[], []⟩, fun _ => .idle none⟩

end

/-! ### The buffer holds the line -/

section

variable {s : Cons} {l : Line} {c : UInt8} {q xs : List UInt8}

/-- The buffer holds the line `l`. -/
structure Rep (s : Cons) (l : Line) : Prop where
  w : s.w = s.r + ofNat l.queue.length
  e : s.e = s.r + ofNat l.size
  room : l.size ≤ INPUT_BUF_SIZE
  bytes : window s.buf INPUT_BUF_SIZE s.r l.size = l.queue ++ l.edit
  /-- The line that is edited is not complete. -/
  clean : ∀ c ∈ l.edit, c ≠ newline ∧ c ≠ ctrl 'D'
  full : l.size = INPUT_BUF_SIZE → l.edit = []

lemma gap_add_ofNat {a : UInt32} {n : Nat} (hn : n < 2 ^ 32) : gap a (a + ofNat n) = n := by
  have e : a + ofNat n - a = ofNat n := by grind
  rw [gap, e, toNat_ofNat']
  exact Nat.mod_eq_of_lt hn

namespace Rep

section

variable (h : Rep s l)

include h

lemma gap_e : gap s.r s.e = l.size := by
  rw [h.e]
  exact gap_add_ofNat (h.room.trans_lt (by decide))

lemma gap_w : gap s.r s.w = l.queue.length := by
  rw [h.w]
  refine gap_add_ofNat (lt_of_le_of_lt ?_ (h.room.trans_lt (by decide : INPUT_BUF_SIZE < 2 ^ 32)))
  exact Nat.le_add_right ..

lemma gap_we : gap s.w s.e = l.edit.length := by
  have e : s.e = s.w + ofNat l.edit.length := by
    rw [h.e, h.w, Line.size, UInt32.ofNat_add, UInt32.add_assoc]
  rw [e]
  refine gap_add_ofNat (lt_of_le_of_lt ?_ (h.room.trans_lt (by decide : INPUT_BUF_SIZE < 2 ^ 32)))
  exact Nat.le_add_left ..

lemma r_eq_w : s.r = s.w ↔ l.queue = [] := by
  rw [← gap_eq_zero, h.gap_w, length_eq_zero_iff]

lemma e_eq_w : s.e = s.w ↔ l.edit = [] := by
  rw [eq_comm, ← gap_eq_zero, h.gap_we, length_eq_zero_iff]

lemma room_iff : s.e - s.r < ofNat INPUT_BUF_SIZE ↔ l.size < INPUT_BUF_SIZE := by
  rw [lt_iff_toNat_lt, ← h.gap_e]
  rfl

end

lemma erase (h : Rep s ⟨q, xs ++ [c]⟩) :
    s.buf (slotOf INPUT_BUF_SIZE (s.e - 1)) = c ∧ Rep { s with e := s.e - 1 } ⟨q, xs⟩ := by
  have hsize : Line.size ⟨q, xs ++ [c]⟩ = Line.size ⟨q, xs⟩ + 1 := by
    rw [Line.size, Line.size, length_append, length_singleton, Nat.add_assoc]
  have he : s.e - 1 = s.r + ofNat (Line.size ⟨q, xs⟩) := by
    rw [h.e, hsize, ofNat_add]
    have hone : ofNat 1 = 1 := rfl
    grind
  have hbytes := h.bytes
  rw [hsize, window_succ, ← he, ← append_assoc] at hbytes
  obtain ⟨hw, hc⟩ := append_inj' hbytes rfl
  have hroom := h.room
  rw [hsize] at hroom
  refine ⟨singleton_inj.mp hc, h.w, he, by omega, hw, fun x hx => ?_, fun hf => by omega⟩
  exact h.clean x (mem_append_left _ hx)

lemma backspace (h : Rep s l) : Rep (if s.e ≠ s.w then { s with e := s.e - 1 } else s)
    ⟨l.queue, l.edit.dropLast⟩ := by
  obtain ⟨q, ed⟩ := l
  rcases eq_nil_or_concat' ed with rfl | ⟨xs, c, rfl⟩
  · rw [if_neg (not_not.mpr (h.e_eq_w.mpr rfl))]
    exact h
  · rw [if_pos fun e => by simp [h.e_eq_w] at e, dropLast_concat]
    exact h.erase.2

lemma killLine (h : Rep s ⟨q, xs⟩) : Rep (s.killLine xs.length) ⟨q, []⟩ := by
  induction xs using List.reverseRecOn generalizing s with
  | nil => exact h
  | append_singleton xs c ih =>
    obtain ⟨hc, herase⟩ := h.erase
    have hne : s.e ≠ s.w := fun e => by simp [h.e_eq_w] at e
    have hclean := (h.clean c (mem_append_right _ (mem_singleton_self c))).1
    rw [length_append, length_singleton, Cons.killLine, hc, if_pos ⟨hne, hclean⟩]
    exact ih herase

lemma put (h : Rep s l) (hroom : l.size < INPUT_BUF_SIZE) (c : UInt8) : Rep (s.put c) (l.put c) := by
  have hpush := window_push s.buf s.r INPUT_BUF_SIZE_dvd hroom c
  rw [← h.e, h.bytes, append_assoc] at hpush
  have he : s.e + 1 = s.r + ofNat (l.size + 1) := by
    rw [h.e, UInt32.ofNat_add, UInt32.add_assoc]
    rfl
  have hfull : s.e + 1 - s.r = ofNat INPUT_BUF_SIZE ↔ l.size + 1 = INPUT_BUF_SIZE := by
    have hgap : gap s.r (s.e + 1) = l.size + 1 := by
      rw [he]
      refine gap_add_ofNat (Nat.lt_of_le_of_lt hroom ?_)
      decide
    rw [← UInt32.toNat_inj]
    change gap s.r (s.e + 1) = INPUT_BUF_SIZE ↔ _
    rw [hgap]
  rw [Cons.put, Line.put]
  simp only [hfull]
  split_ifs with hdone
  · have hsize : Line.size ⟨l.queue ++ (l.edit ++ [c]), []⟩ = l.size + 1 := by
      simp only [Line.size, length_append, length_singleton, length_nil]
      omega
    refine ⟨?_, ?_, ?_, ?_, nofun, fun _ => rfl⟩
    · change s.e + 1 = s.r + ofNat (l.queue ++ (l.edit ++ [c])).length
      rw [he, ← hsize]
      rfl
    · rw [hsize]
      exact he
    · rw [hsize]
      exact hroom
    · rw [hsize, append_nil]
      exact hpush
  · have hsize : Line.size ⟨l.queue, l.edit ++ [c]⟩ = l.size + 1 := by
      simp only [Line.size, length_append, length_singleton]
      omega
    refine ⟨h.w, by rw [hsize]; exact he, by rw [hsize]; exact hroom, by rw [hsize]; exact hpush,
      fun x hx => ?_, fun hf => ?_⟩
    · rcases mem_append.mp hx with hx | hx
      · exact h.clean x hx
      · rw [mem_singleton.mp hx]
        exact ⟨fun e => hdone (.inl e), fun e => hdone (.inr (.inl e))⟩
    · rw [hsize] at hf
      exact absurd (.inr (.inr hf)) hdone

/-- **Typing** a character. -/
lemma intr (h : Rep s l) (c : UInt8) : Rep (consoleintr c s) (l.type c) := by
  rw [consoleintr, Line.type]
  by_cases hP : c = ctrl 'P'
  · rw [if_pos hP, if_pos hP]
    exact h
  rw [if_neg hP, if_neg hP]
  by_cases hU : c = ctrl 'U'
  · rw [if_pos hU, if_pos hU, h.gap_we]
    exact h.killLine
  rw [if_neg hU, if_neg hU]
  by_cases hH : c = ctrl 'H' ∨ c = delete
  · rw [if_pos hH, if_pos hH]
    exact h.backspace
  rw [if_neg hH, if_neg hH]
  by_cases hput : c ≠ 0 ∧ l.size < INPUT_BUF_SIZE
  · rw [if_pos hput, if_pos ⟨hput.1, h.room_iff.mpr hput.2⟩]
    exact h.put hput.2 _
  · rw [if_neg hput, if_neg fun hc => hput ⟨hc.1, h.room_iff.mp hc.2⟩]
    exact h

lemma take {ed : List UInt8} (h : Rep s ⟨c :: q, ed⟩) :
    s.buf (slotOf INPUT_BUF_SIZE s.r) = c ∧ Rep { s with r := s.r + 1 } ⟨q, ed⟩ := by
  have hsize : Line.size ⟨c :: q, ed⟩ = Line.size ⟨q, ed⟩ + 1 := by
    simp only [Line.size, length_cons]
    omega
  have hbytes := h.bytes
  rw [hsize, window_pop, cons_append] at hbytes
  obtain ⟨hc, hw⟩ := List.cons.inj hbytes
  have hroom := h.room
  rw [hsize] at hroom
  have hadd (n : Nat) : s.r + ofNat (n + 1) = s.r + 1 + ofNat n := by
    rw [Nat.add_comm, UInt32.ofNat_add, UInt32.add_assoc]
    rfl
  refine ⟨hc, ?_, ?_, by omega, hw, h.clean, fun hf => by omega⟩
  · exact h.w.trans (hadd _)
  · exact (h.e.trans (by rw [hsize])).trans (hadd _)

/-- **Reading**: a part of a read of the console is a part of a read of the line. -/
lemma read (h : Rep s l) (copyout : Nat → Bool) (killed : Bool) {target n : Nat} {got : List UInt8}
    (hgot : got.length + n = target) :
    (consoleread copyout killed target n got s).2 = (Line.read copyout killed n got l.queue).2 ∧
      Rep (consoleread copyout killed target n got s).1
        ⟨(Line.read copyout killed n got l.queue).1, l.edit⟩ := by
  obtain ⟨q, ed⟩ := l
  induction n generalizing s q got with
  | zero => exact ⟨by rw [consoleread, Line.read], by rw [consoleread, Line.read]; exact h⟩
  | succ n ih =>
    cases q with
    | nil =>
      rw [consoleread, Line.read, if_pos (h.r_eq_w.mpr rfl)]
      exact ⟨rfl, h⟩
    | cons c q =>
      obtain ⟨hc, htake⟩ := h.take
      rw [consoleread, Line.read, if_neg fun e => by simp [h.r_eq_w] at e]
      dsimp only
      rw [hc]
      by_cases hD : c = ctrl 'D'
      · -- it is left in place if there are bytes before it
        rw [if_pos hD, if_pos hD]
        refine ⟨rfl, ?_⟩
        by_cases hnil : got = []
        · have hlt : ¬ n + 1 < target := by
            rw [← hgot, hnil]
            simp
          rw [if_neg hlt, if_pos hnil]
          exact htake
        · have hlt : n + 1 < target := by
            have := length_pos_iff.mpr hnil
            omega
          have hback : s.r + 1 - 1 = s.r := by grind
          rw [if_pos hlt, if_neg hnil, hback]
          exact h
      · rw [if_neg hD, if_neg hD]
        by_cases hfail : copyout (n + 1) = false
        · rw [if_pos hfail, if_pos hfail]
          exact ⟨rfl, htake⟩
        · rw [if_neg hfail, if_neg hfail]
          by_cases hnl : c = newline
          · rw [if_pos hnl, if_pos hnl]
            exact ⟨rfl, htake⟩
          · rw [if_neg hnl, if_neg hnl]
            have hgot' : (got ++ [c]).length + n = target := by
              rw [length_append, length_singleton]
              omega
            exact ih hgot' q htake

end Rep

end

/-! ### What a read returns -/

/-- A read of `target` bytes that has got `got` so far. -/
def Reader.Ok : Reader → Prop
  | .reading target n got => got.length + n = target ∧ ∀ c ∈ got, c ≠ newline ∧ c ≠ ctrl 'D'
  | .idle _ => True

lemma lineRead_ok (copyout : Nat → Bool) (killed : Bool) {target n : Nat} {got queue : List UInt8}
    (h : Reader.Ok (.reading target n got)) : ((Line.read copyout killed n got queue).2.next target).Ok := by
  induction n generalizing got queue with
  | zero => trivial
  | succ n ih =>
    cases queue with
    | nil =>
      rw [Line.read]
      cases killed
      · exact h
      · trivial
    | cons c queue =>
      rw [Line.read]
      split_ifs with hD hdone hfail hnl
      · trivial
      · trivial
      · trivial
      · trivial
      · refine ih ⟨?_, fun x hx => ?_⟩
        · rw [length_append, length_singleton, Nat.add_assoc, Nat.add_comm 1]
          exact h.1
        · rcases mem_append.mp hx with hx | hx
          · exact h.2 x hx
          · rw [mem_singleton.mp hx]
            exact ⟨hnl, hD⟩

/-! ### Runs -/

section

variable {P : Type} [DecidableEq P] {t t' : State P Cons} {u : State P Line} {ev : Event P}

/-- The console and the line are in step. -/
structure Related (t : State P Cons) (u : State P Line) : Prop where
  rep : Rep t.input u.input
  readers : t.readers = u.readers
  ok : ∀ p, (t.readers p).Ok

omit [DecidableEq P] in
lemma related_start : Related (start : State P Cons) lineStart :=
  ⟨⟨rfl, rfl, Nat.zero_le _, rfl, nofun, nofun⟩, rfl, fun _ => trivial⟩

lemma Related.step (h : Related t u) (hs : step t ev = .ok t') :
    ∃ u', lineStep u ev = .ok u' ∧ Related t' u' := by
  cases ev with
  | consoleintr c =>
    cases hs
    exact ⟨_, rfl, h.rep.intr c, h.readers, h.ok⟩
  | callRead p n =>
    simp only [Dev.step, stepWith] at hs
    simp only [lineStep, stepWith, ← h.readers]
    split at hs
    · cases hs
      refine ⟨_, rfl, h.rep, rfl, fun p' => ?_⟩
      change (update t.readers p _ p').Ok
      by_cases e : p' = p
      · rw [e, update_self]
        exact ⟨Nat.zero_add _, nofun⟩
      · rw [update_of_ne e]
        exact h.ok p'
    · cases hs
  | consoleread p copyout killed =>
    simp only [Dev.step, stepWith] at hs
    simp only [lineStep, stepWith, ← h.readers]
    have hok := h.ok p
    split at hs
    · cases hs
    · rename_i target n got hp
      cases hs
      rw [hp] at hok
      obtain ⟨heq, hrep⟩ := h.rep.read copyout killed hok.1
      refine ⟨_, rfl, hrep, by rw [heq], fun p' => ?_⟩
      change (update t.readers p _ p').Ok
      by_cases e : p' = p
      · rw [e, update_self, heq]
        exact lineRead_ok copyout killed hok
      · rw [update_of_ne e]
        exact h.ok p'

lemma Related.run {es : List (Event P)} (h : Related t u)
    (hrun : run Dev.step (fun _ _ => True) t es = .ok t') :
    ∃ u', run lineStep (fun _ _ => True) u es = .ok u' ∧ Related t' u' := by
  induction es generalizing t u with
  | nil =>
    cases hrun
    exact ⟨u, rfl, h⟩
  | cons ev es ih =>
    rw [Lib.run, if_pos trivial] at hrun
    cases hs : Dev.step t ev with
    | ok t1 =>
      rw [hs] at hrun
      obtain ⟨u1, hu, h1⟩ := h.step hs
      obtain ⟨u', hu', h'⟩ := ih h1 hrun
      exact ⟨u', by rw [Lib.run, if_pos trivial, hu]; exact hu', h'⟩
    | panic msg | blocked =>
      rw [hs] at hrun
      cases hrun

/-- **The console is a line editor.**  In every run of the console the read index is followed by the
write index and the edit index, at most a buffer ahead; there is no newline and no control-D between the
two, and a full buffer can be read.  The same characters and reads are a run of the line, in which every
process is given the same bytes. -/
theorem console_refines {es : List (Event P)} (hrun : run step (fun _ _ => True) start es = .ok t) :
    ((t.input.w - t.input.r).toNat ≤ (t.input.e - t.input.r).toNat ∧
      (t.input.e - t.input.r).toNat ≤ INPUT_BUF_SIZE) ∧
    (∀ i < (t.input.e - t.input.w).toNat,
      let c := t.input.buf (slotOf INPUT_BUF_SIZE (t.input.w + ofNat i))
      c ≠ newline ∧ c ≠ ctrl 'D') ∧
    ((t.input.e - t.input.r).toNat = INPUT_BUF_SIZE → t.input.w = t.input.e) ∧
    ∃ u, run lineStep (fun _ _ => True) lineStart es = .ok u ∧ t.readers = u.readers ∧
      u.input.queue = window t.input.buf INPUT_BUF_SIZE t.input.r (t.input.w - t.input.r).toNat ∧
      u.input.edit = window t.input.buf INPUT_BUF_SIZE t.input.w (t.input.e - t.input.w).toNat := by
  obtain ⟨u, hu, h⟩ := related_start.run hrun
  have hrep := h.rep
  have hr : (t.input.w - t.input.r).toNat = u.input.queue.length := hrep.gap_w
  have he : (t.input.e - t.input.r).toNat = u.input.size := hrep.gap_e
  have hw : (t.input.e - t.input.w).toNat = u.input.edit.length := hrep.gap_we
  -- the buffer, split at the write index
  have hsplit := hrep.bytes
  rw [Line.size, window_append, ← hrep.w] at hsplit
  obtain ⟨hqueue, hedit⟩ := append_inj hsplit length_window
  refine ⟨⟨?_, by rw [he]; exact hrep.room⟩, fun i hi => ?_, fun hf => ?_, u, hu, h.readers, ?_, ?_⟩
  · rw [hr, he]
    exact Nat.le_add_right ..
  · refine hrep.clean _ ?_
    rw [← hedit]
    exact mem_map.mpr ⟨i, mem_range.mpr (hw ▸ hi), rfl⟩
  · exact (hrep.e_eq_w.mpr (hrep.full (he ▸ hf))).symm
  · rw [hr, hqueue]
  · rw [hw, hedit]

end

/-- `a`, a letter that is erased, and a return; and a read of four bytes. -/
def sampleRun : List (Event Unit) :=
  [.callRead () 4, .consoleread () (fun _ => true) false, .consoleintr 97, .consoleintr 98,
    .consoleintr delete, .consoleintr carriageReturn, .consoleread () (fun _ => true) false]

theorem console_refines_sample : ∃ t : State Unit Cons, run step (fun _ _ => True) start sampleRun = .ok t ∧
      t.readers () = .idle (some (.ret [97, newline])) ∧
      ∃ u, run lineStep (fun _ _ => True) lineStart sampleRun = .ok u ∧ t.readers = u.readers := by
  have h : (run step (fun _ _ => True) start sampleRun).test
      (fun t => t.readers () == .idle (some (.ret [97, newline]))) = true := by decide +kernel
  obtain ⟨t, ht, hc⟩ := Outcome.of_test h
  obtain ⟨-, -, -, u, hu, hreaders, -⟩ := console_refines ht
  exact ⟨t, ht, beq_iff_eq.mp hc, u, hu, hreaders⟩

end FypOs.Dev
