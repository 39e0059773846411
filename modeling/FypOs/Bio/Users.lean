import FypOs.Bio.Rep

/-!
# Bio — reference counts and the processes they count

`Cache.uses s i` counts the processes between the rise of `refcnt` in `bget` and its fall in
`brelse` on buffer `i`: those that hold it, wait for its lock, or are about to drop it.  `RefOk`
says that `refcnt`, a `uint`, is this number plus the pins.  One lemma per critical section says
what it does (`bget_ok`, `acquire_ok`, …) and one that it keeps `RefOk`.
-/

namespace FypOs.Bio
open Lib Function Bcache

variable {P : Type} {f : Buf P → Buf P}

/-- The buffer a process is acquiring or releasing. -/
def Pend.buf : Pend → Option (Fin NBUF)
  | .idle => none
  | .waiting i | .locked i | .releasing i => some i

/-- How often a process uses buffer `i`. -/
def Thread.uses (t : Thread) (i : Fin NBUF) : Nat :=
  t.held.count i + if t.pend.buf = some i then 1 else 0

/-- Holders and waiters of buffer `i`. -/
def Cache.uses [Fintype P] (s : Cache P) (i : Fin NBUF) : Nat := ∑ p, (s.thr p).uses i

/-- Every reference count is the number of holders and waiters plus the pins, as a `uint`. -/
def RefOk [Fintype P] (s : Cache P) (pins : Fin NBUF → ℤ) : Prop :=
  ∀ i, ((s.bc.buf i).refcnt : ℤ) = (s.uses i + pins i) % 2 ^ 32

/-! ### What each critical section does -/

section Inversion

variable [DecidableEq P] {s s' : Cache P} {p : P} {msg : String} {i : Fin NBUF}

lemma bget_ok {dev blockno : Nat} (h : s.bget p dev blockno = .ok s') :
    (s.thr p).pend = .idle ∧ ∃ bc i, s.bc.bget dev blockno = some (bc, i) ∧
      s' = { bc, thr := update s.thr p { pend := .waiting i, held := (s.thr p).held } } := by
  unfold Cache.bget at h
  split at h
  case isTrue hp =>
    cases e : s.bc.bget dev blockno with
    | none => rw [e] at h; cases h
    | some r => obtain ⟨bc, i⟩ := r; rw [e] at h; cases h; exact ⟨hp, bc, i, rfl, rfl⟩
  case isFalse => cases h

lemma acquire_ok (h : s.acquire p = .ok s') : ∃ i, (s.thr p).pend = .waiting i ∧ (s.bc.buf i).lock = none ∧
      s' = { bc := s.bc.modify i fun b => { b with lock := some p },
             thr := update s.thr p { pend := .locked i, held := (s.thr p).held } } := by
  unfold Cache.acquire at h
  cases e : (s.thr p).pend with
  | waiting i =>
    rw [e] at h
    simp only at h
    split at h
    · cases h; exact ⟨i, rfl, ‹_›, rfl⟩
    · cases h
  | _ => rw [e] at h; cases h

/-- The cache after the disk read of `bread`, if there is one. -/
def filled (c : Bcache P) (i : Fin NBUF) (disk : Nat → Block) : Bcache P :=
  if (c.buf i).valid then c
  else c.modify i fun b => { b with data := disk b.blockno, valid := true }

lemma fill_ok {disk : Nat → Block} (h : s.fill p disk = .ok s') : ∃ i, (s.thr p).pend = .locked i ∧
      s' = { bc := filled s.bc i disk,
             thr := update s.thr p { pend := .idle, held := i :: (s.thr p).held } } := by
  unfold Cache.fill at h
  cases e : (s.thr p).pend with
  | locked i => rw [e] at h; cases h; exact ⟨i, rfl, rfl⟩
  | _ => rw [e] at h; cases h

lemma brelse_ok (h : s.brelse p i = .ok s') :
    (s.thr p).pend = .idle ∧ i ∈ (s.thr p).held ∧ (s.bc.buf i).lock = some p ∧
      s' = { bc := s.bc.modify i fun b => { b with lock := none }, thr := update s.thr p
               { pend := .releasing i, held := (s.thr p).held.erase i } } := by
  unfold Cache.brelse at h
  split at h
  case isTrue hp =>
    split at h
    · cases h; exact ⟨hp.1, hp.2, ‹_›, rfl⟩
    · cases h
  case isFalse => cases h

lemma unref_ok (h : s.unref p = .ok s') : ∃ i, (s.thr p).pend = .releasing i ∧
      s' = { bc := s.bc.unref i, thr := update s.thr p { pend := .idle, held := (s.thr p).held } } := by
  unfold Cache.unref at h
  cases e : (s.thr p).pend with
  | releasing i => rw [e] at h; cases h; exact ⟨i, rfl, rfl⟩
  | _ => rw [e] at h; cases h

/-- Which critical sections can panic, and how. -/
lemma acquire_ne_panic : s.acquire p ≠ .panic msg := by
  unfold Cache.acquire
  split
  · split <;> simp
  · simp

lemma fill_ne_panic {disk : Nat → Block} : s.fill p disk ≠ .panic msg := by
  unfold Cache.fill
  split <;> simp

lemma unref_ne_panic : s.unref p ≠ .panic msg := by
  unfold Cache.unref
  split <;> simp

lemma brelse_panic (h : s.brelse p i = .panic msg) : msg = "brelse" := by
  unfold Cache.brelse at h
  split at h
  · split at h
    · cases h
    · cases h; rfl
  · cases h

end Inversion

/-! ### Fields of a changed buffer -/

@[simp] lemma modify_buf_self (c : Bcache P) (i : Fin NBUF) (f : Buf P → Buf P) :
    (c.modify i f).buf i = f (c.buf i) :=
  update_self ..

lemma modify_buf_of_ne {c : Bcache P} {i j : Fin NBUF} (h : j ≠ i) : (c.modify i f).buf j = c.buf j :=
  update_of_ne h ..

lemma unref_buf (c : Bcache P) (i : Fin NBUF) :
    (c.unref i).buf = (c.modify i fun b => { b with refcnt := udec b.refcnt }).buf := by
  unfold unref
  dsimp only
  split <;> rfl

/-- A change that leaves a field alone leaves it alone at every buffer. -/
lemma modify_field {α : Type} (g : Buf P → α) (c : Bcache P) (i j : Fin NBUF) (h : g (f (c.buf i)) = g (c.buf i)) :
    g ((c.modify i f).buf j) = g (c.buf j) := by
  by_cases e : j = i
  · subst e; rw [modify_buf_self]; exact h
  · rw [modify_buf_of_ne e]

/-! ### Reference counts -/

lemma uinc_cast (x : Nat) : ((uinc x : Nat) : ℤ) = ((x : ℤ) + 1) % 2 ^ 32 := by
  unfold uinc u32; omega

lemma udec_cast (x : Nat) : ((udec x : Nat) : ℤ) = ((x : ℤ) - 1) % 2 ^ 32 := by
  unfold udec u32; omega

section RefCounts

variable [Fintype P] [DecidableEq P] {s s' : Cache P} {p : P} {pins : Fin NBUF → ℤ} {i : Fin NBUF}
  {bc : Bcache P} {t : Thread}

omit [DecidableEq P] in
lemma refOk_init : RefOk { bc := .binit, thr := fun _ : P => .start } fun _ => 0 := by
  intro i
  show (((binit : Bcache P).buf i).refcnt : ℤ) = _
  rw [binit_buf]
  simp [zeroed, Cache.uses, Thread.start, Thread.uses, Pend.buf]

/-- A step of `p` exchanges its own uses of a buffer. -/
lemma uses_update (s : Cache P) (bc : Bcache P) (p : P) (t : Thread) (i : Fin NBUF) :
    Cache.uses { bc, thr := update s.thr p t } i + (s.thr p).uses i = s.uses i + t.uses i :=
  tally_update (fun t : Thread => t.uses i) s.thr p t

lemma uses_update_of_eq (ht : t.uses i = (s.thr p).uses i) :
    Cache.uses { bc, thr := update s.thr p t } i = s.uses i := by
  have := uses_update s bc p t i
  omega

/-- A step that changes neither the counts nor its process's uses keeps `RefOk`. -/
lemma RefOk.of_same (h : RefOk s pins)
    (hb : ∀ i, (bc.buf i).refcnt = (s.bc.buf i).refcnt) (ht : ∀ i, t.uses i = (s.thr p).uses i) :
    RefOk { bc, thr := update s.thr p t } pins := by
  intro i
  rw [uses_update_of_eq (ht i)]
  show ((bc.buf i).refcnt : ℤ) = _
  rw [hb i]
  exact h i

lemma refOk_bget {dev blockno : Nat} {l : List (Fin NBUF)} (hl : Listed s.bc l)
    (h : RefOk s pins) (hs : s.bget p dev blockno = .ok s') : RefOk s' pins := by
  obtain ⟨hp, bc, i, hb, rfl⟩ := bget_ok hs
  have hcnt : (bc.buf i).refcnt = uinc (s.bc.buf i).refcnt ∧
      ∀ j, j ≠ i → (bc.buf j).refcnt = (s.bc.buf j).refcnt := by
    have hc := bget_cases hl dev blockno
    rw [hb] at hc
    cases hc with
    | hit _ _ =>
      refine ⟨by simp [bpin], fun j hj => ?_⟩
      unfold bpin; rw [modify_buf_of_ne hj]
    | recycled _ _ _ _ _ h0 _ =>
      refine ⟨by simp [recycle, h0, uinc, u32], fun j hj => ?_⟩
      unfold recycle; rw [modify_buf_of_ne hj]
  intro j
  have hu := uses_update s bc p { pend := .waiting i, held := (s.thr p).held } j
  simp only [Thread.uses, hp, Pend.buf, Option.some.injEq, reduceCtorEq, if_false] at hu
  show ((bc.buf j).refcnt : ℤ) = _
  by_cases e : j = i
  · subst e
    rw [hcnt.1, uinc_cast, h j]
    simp only [if_true] at hu
    omega
  · rw [hcnt.2 j e, h j]
    simp only [Ne.symm e, if_false] at hu
    omega

section

variable (h : RefOk s pins)

include h

lemma refOk_acquire (hs : s.acquire p = .ok s') : RefOk s' pins := by
  obtain ⟨i, hp, -, rfl⟩ := acquire_ok hs
  refine h.of_same (fun j => modify_field Buf.refcnt _ _ _ rfl) fun j => ?_
  simp [Thread.uses, hp, Pend.buf]

lemma refOk_fill {disk : Nat → Block} (hs : s.fill p disk = .ok s') : RefOk s' pins := by
  obtain ⟨i, hp, rfl⟩ := fill_ok hs
  refine h.of_same (fun j => ?_) fun j => ?_
  · unfold filled
    split
    · rfl
    · exact modify_field Buf.refcnt _ _ _ rfl
  · simp [Thread.uses, hp, Pend.buf, List.count_cons]

lemma refOk_brelse (hs : s.brelse p i = .ok s') : RefOk s' pins := by
  obtain ⟨hp, hi, -, rfl⟩ := brelse_ok hs
  refine h.of_same (fun j => modify_field Buf.refcnt _ _ _ rfl) fun j => ?_
  have hpos := List.count_pos_iff.mpr hi
  by_cases e : i = j
  · subst e; simp [Thread.uses, hp, Pend.buf]; omega
  · simp [Thread.uses, hp, Pend.buf, e, List.count_erase_of_ne (Ne.symm e)]

lemma refOk_unref (hs : s.unref p = .ok s') : RefOk s' pins := by
  obtain ⟨i, hp, rfl⟩ := unref_ok hs
  intro j
  have hu := uses_update s (s.bc.unref i) p { pend := .idle, held := (s.thr p).held } j
  simp only [Thread.uses, hp, Pend.buf, Option.some.injEq, reduceCtorEq, if_false] at hu
  show (((s.bc.unref i).buf j).refcnt : ℤ) = _
  rw [unref_buf]
  by_cases e : j = i
  · subst e
    rw [modify_buf_self, udec_cast, h j]
    simp only [if_true] at hu
    omega
  · rw [modify_buf_of_ne e, h j]
    simp only [Ne.symm e, if_false] at hu
    omega

omit [DecidableEq P] in
/-- `bpin` and `bunpin` move the count by the pin they add or take away. -/
lemma refOk_pin {d : ℤ} {f : Buf P → Buf P}
    (hf : ((f (s.bc.buf i)).refcnt : ℤ) = (((s.bc.buf i).refcnt : ℤ) + d) % 2 ^ 32) :
    RefOk { s with bc := s.bc.modify i f } (update pins i (pins i + d)) := by
  intro j
  show (((s.bc.modify i f).buf j).refcnt : ℤ) = (s.uses j + _) % _
  by_cases e : j = i
  · subst e
    rw [modify_buf_self, hf, h j, update_self]
    omega
  · rw [modify_buf_of_ne e, h j, update_of_ne e]

end

end RefCounts

end FypOs.Bio
