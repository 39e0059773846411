import FypOs.Bio.Users

/-!
# Bio — the cache under any interleaving of its operations

`Call` is a critical section of `bget`, `bread`, `brelse`, `bpin` or `bunpin`, by any process; a run
is any sequence of them that starts after `binit`.  `Traced` adds to the cache what the calls so far
amount to: the pins of each buffer (`bpin`s less `bunpin`s), and when its reference count last
fell to zero in `brelse`.

`cache_rep` is the representation invariant of the cache in every state of every run.  The list is
kept in the order of these times, the latest first (`Ordered`), so that the buffer `bget` recycles
is the unused one released longest ago.
-/

namespace FypOs.Bio
open Lib Function List Outcome

variable {P : Type}

/-- A critical section of the buffer cache. -/
inductive Call (P : Type) where
  | bget (p : P) (dev blockno : Nat)
  | acquire (p : P)
  | fill (p : P) (disk : Nat → Block)
  | brelse (p : P) (i : Fin NBUF)
  | unref (p : P)
  | bpin (i : Fin NBUF)
  | bunpin (i : Fin NBUF)

/-- The cache with the history of its calls: the pins of each buffer, and the time its count last
fell to zero in `brelse` (0: never), on a clock that counts these falls. -/
structure Traced (P : Type) where
  cache : Cache P
  pins : Fin NBUF → ℤ
  now : Nat
  dropped : Fin NBUF → Nat

namespace Traced

/-- After `binit`. -/
def init : Traced P :=
  { cache := { bc := .binit, thr := fun _ => .start }, pins := fun _ => 0, now := 0, dropped := fun _ => 0 }

/-- Record that `p`'s `brelse` has dropped its reference to `i`. -/
def afterUnref (t : Traced P) (i : Fin NBUF) (c : Cache P) : Traced P :=
  if (c.bc.buf i).refcnt = 0 then
    { t with cache := c, now := t.now + 1, dropped := update t.dropped i (t.now + 1) }
  else { t with cache := c }

def step [DecidableEq P] (t : Traced P) : Call P → Outcome (Traced P)
  | .bget p dev blockno => (t.cache.bget p dev blockno).map fun c => { t with cache := c }
  | .acquire p => (t.cache.acquire p).map fun c => { t with cache := c }
  | .fill p disk => (t.cache.fill p disk).map fun c => { t with cache := c }
  | .brelse p i => (t.cache.brelse p i).map fun c => { t with cache := c }
  | .unref p =>
    match (t.cache.thr p).pend with
    | .releasing i => (t.cache.unref p).map (t.afterUnref i)
    | _ => .blocked
  | .bpin i =>
    .ok { t with cache := { t.cache with bc := t.cache.bc.bpin i }, pins := update t.pins i (t.pins i + 1) }
  | .bunpin i =>
    .ok { t with cache := { t.cache with bc := t.cache.bc.bunpin i }, pins := update t.pins i (t.pins i - 1) }

/-- The states any sequence of calls leads to from `binit`. -/
def Reachable [DecidableEq P] (t : Traced P) : Prop := Reach step (fun _ _ => True) init t

end Traced

/-- `j` fell to zero before `i` did, or neither ever fell. -/
def Later (dropped : Fin NBUF → Nat) (i j : Fin NBUF) : Prop :=
  dropped j < dropped i ∨ (dropped i = 0 ∧ dropped j = 0)

/-- The list is in the order of the last falls to zero, the latest first. -/
structure Ordered (t : Traced P) (l : List (Fin NBUF)) : Prop where
  sorted : l.Pairwise (Later t.dropped)
  past : ∀ i, t.dropped i ≤ t.now

/-- The cache's representation, with `l` the buffers in list order. -/
structure Rep [Fintype P] (t : Traced P) (l : List (Fin NBUF)) : Prop where
  listed : Listed t.cache.bc l
  unique : Unique t.cache.bc
  refs : RefOk t.cache t.pins
  order : Ordered t l

namespace Rep

variable [Fintype P] [DecidableEq P] {t t' : Traced P} {l : List (Fin NBUF)} {p : P}

omit [DecidableEq P] in
lemma init : Rep (Traced.init : Traced P) (List.finRange NBUF).reverse := by
  refine ⟨listed_binit, unique_binit, refOk_init, ⟨?_, fun _ => le_rfl⟩⟩
  exact pairwise_of_forall fun i j => Or.inr ⟨rfl, rfl⟩

variable {c : Cache P} {i : Fin NBUF} {f : Buf P → Buf P}

section

variable (h : Rep t l)

include h

omit [DecidableEq P] in
/-- A change of one buffer that leaves it the block it carries. -/
lemma of_modify {thr : P → Thread} (hr : RefOk { bc := t.cache.bc.modify i f, thr } t.pins)
    (hf : ∀ b, (f b).dev = b.dev ∧ (f b).blockno = b.blockno) :
    Rep { t with cache := { bc := t.cache.bc.modify i f, thr } } l :=
  have hl : Listed (t.cache.bc.modify i f) l := h.listed.modify i f
  ⟨hl, unique_modify h.unique i hf, hr, ⟨h.order.sorted, h.order.past⟩⟩

lemma bget {dev blockno : Nat} (hs : t.cache.bget p dev blockno = .ok c) : Rep { t with cache := c } l := by
  have hr := refOk_bget h.listed h.refs hs
  obtain ⟨-, bc, i, hb, rfl⟩ := bget_ok hs
  have hc := bget_cases h.listed dev blockno
  rw [hb] at hc
  cases hc with
  | hit i hi => exact h.of_modify hr fun _ => ⟨rfl, rfl⟩
  | recycled i _ _ hno =>
    have hl : Listed (recycle t.cache.bc dev blockno i) l := h.listed.modify i _
    exact ⟨hl, unique_recycle h.unique hno i, hr, ⟨h.order.sorted, h.order.past⟩⟩

lemma acquire (hs : t.cache.acquire p = .ok c) : Rep { t with cache := c } l := by
  have hr := refOk_acquire h.refs hs
  obtain ⟨i, -, -, rfl⟩ := acquire_ok hs
  exact h.of_modify hr fun _ => ⟨rfl, rfl⟩

lemma fill {disk : Nat → Block} (hs : t.cache.fill p disk = .ok c) : Rep { t with cache := c } l := by
  have hr := refOk_fill h.refs hs
  obtain ⟨i, -, rfl⟩ := fill_ok hs
  by_cases hv : (t.cache.bc.buf i).valid
  · simp only [filled, hv, if_true] at hr ⊢
    exact ⟨h.listed, h.unique, hr, ⟨h.order.sorted, h.order.past⟩⟩
  · simp only [filled, if_neg hv] at hr ⊢
    exact h.of_modify hr fun _ => ⟨rfl, rfl⟩

lemma brelse (hs : t.cache.brelse p i = .ok c) : Rep { t with cache := c } l := by
  have hr := refOk_brelse h.refs hs
  obtain ⟨-, -, -, rfl⟩ := brelse_ok hs
  exact h.of_modify hr fun _ => ⟨rfl, rfl⟩

end

omit [Fintype P] [DecidableEq P] in
/-- A buffer that falls to zero now is later than every other. -/
lemma order_toFront {l1 l2 : List (Fin NBUF)} (h : Ordered t (l1 ++ i :: l2)) (hi : i ∉ l1 ++ l2) :
    Ordered { t with cache := c, now := t.now + 1,
                     dropped := update t.dropped i (t.now + 1) } (i :: (l1 ++ l2)) := by
  refine ⟨pairwise_cons.mpr ⟨fun j hj => Or.inl ?_, ?_⟩, fun j => ?_⟩
  · have hji : j ≠ i := fun e => hi (e ▸ hj)
    show update t.dropped i (t.now + 1) j < update t.dropped i (t.now + 1) i
    rw [update_of_ne hji, update_self]
    exact Nat.lt_succ_of_le (h.past j)
  · have hsub : (l1 ++ l2).Pairwise (Later t.dropped) :=
      h.sorted.sublist (List.Sublist.append_left (sublist_cons_self i l2) l1)
    refine hsub.imp_of_mem fun {a b} ha hb hab => ?_
    have hai : a ≠ i := fun e => hi (e ▸ ha)
    have hbi : b ≠ i := fun e => hi (e ▸ hb)
    show Later (update t.dropped i (t.now + 1)) a b
    simpa only [Later, update_of_ne hai, update_of_ne hbi] using hab
  · show update t.dropped i (t.now + 1) j ≤ t.now + 1
    by_cases e : j = i
    · rw [e, update_self]
    · rw [update_of_ne e]; exact Nat.le_succ_of_le (h.past j)

lemma unref (h : Rep t l) (hp : (t.cache.thr p).pend = .releasing i)
    (hs : t.cache.unref p = .ok c) : ∃ l', Rep (t.afterUnref i c) l' := by
  have hr := refOk_unref h.refs hs
  obtain ⟨j, hj, rfl⟩ := unref_ok hs
  obtain rfl : i = j := by rw [hp] at hj; exact Pend.releasing.inj hj
  have hu : Unique (t.cache.bc.unref i) := by
    intro dev blockno a b h0 ha hb
    have hm := unique_modify h.unique i (f := fun b => { b with refcnt := udec b.refcnt })
      fun _ => ⟨rfl, rfl⟩
    simp only [Carries, unref_buf] at ha hb
    exact hm dev blockno a b h0 ha hb
  simp only [Traced.afterUnref]
  split
  case isTrue h0 =>
    obtain ⟨l1, l2, rfl⟩ := append_of_mem (h.listed.all i)
    have hnd := h.listed.ring.nodup
    have hi : i ∉ l1 ++ l2 := (nodup_cons.mp (nodup_middle.mp hnd)).1
    refine ⟨i :: (l1 ++ l2), ?_, hu, hr, order_toFront h.order hi⟩
    have hl : t.cache.bc.unref i = ((t.cache.bc.modify i fun b =>
        { b with refcnt := udec b.refcnt }).unlink i).pushFront i := by
      rw [unref_buf] at h0
      simp only [Bcache.unref]
      exact if_pos h0
    show Listed (t.cache.bc.unref i) _
    rw [hl]
    exact (h.listed.modify i _).toFront
  case isFalse h0 =>
    refine ⟨l, ?_, hu, hr, ⟨h.order.sorted, h.order.past⟩⟩
    have hl : t.cache.bc.unref i = t.cache.bc.modify i fun b => { b with refcnt := udec b.refcnt } := by
      rw [unref_buf] at h0
      simp only [Bcache.unref]
      exact if_neg h0
    show Listed (t.cache.bc.unref i) _
    rw [hl]
    exact h.listed.modify i _

omit [DecidableEq P] in
lemma pin {d : ℤ} (h : Rep t l) (hd : ∀ b, (f b).dev = b.dev ∧ (f b).blockno = b.blockno)
    (hf : ∀ b, ((f b).refcnt : ℤ) = ((b.refcnt : ℤ) + d) % 2 ^ 32) :
    Rep { t with cache := { t.cache with bc := t.cache.bc.modify i f },
                 pins := update t.pins i (t.pins i + d) } l :=
  have hl : Listed (t.cache.bc.modify i f) l := h.listed.modify i f
  ⟨hl, unique_modify h.unique i hd, refOk_pin h.refs (hf _), ⟨h.order.sorted, h.order.past⟩⟩

/-- **One call** keeps the representation. -/
lemma step {e : Call P} (h : Rep t l) (hs : t.step e = .ok t') : ∃ l', Rep t' l' := by
  cases e with
  | bget p dev blockno => obtain ⟨c, hc, rfl⟩ := map_eq_ok hs; exact ⟨l, h.bget hc⟩
  | acquire p => obtain ⟨c, hc, rfl⟩ := map_eq_ok hs; exact ⟨l, h.acquire hc⟩
  | fill p disk => obtain ⟨c, hc, rfl⟩ := map_eq_ok hs; exact ⟨l, h.fill hc⟩
  | brelse p i => obtain ⟨c, hc, rfl⟩ := map_eq_ok hs; exact ⟨l, h.brelse hc⟩
  | unref p =>
    simp only [Traced.step] at hs
    split at hs
    · obtain ⟨c, hc, rfl⟩ := map_eq_ok hs
      exact h.unref ‹_› hc
    · cases hs
  | bpin i => cases hs; exact ⟨l, h.pin (fun _ => ⟨rfl, rfl⟩) fun b => uinc_cast _⟩
  | bunpin i => cases hs; exact ⟨l, h.pin (fun _ => ⟨rfl, rfl⟩) fun b => udec_cast _⟩

/-- **Every run** keeps the representation. -/
lemma of_reachable (h : t.Reachable) : ∃ l, Rep t l :=
  h.invariant (I := fun t => ∃ l, Rep t l) ⟨_, Rep.init⟩ fun ⟨_, hl⟩ _ hs => hl.step hs

end Rep

/-- **The buffer cache's representation invariant.**  In every state any interleaving of calls
leads to from `binit`:
* the list through `bcache.head` contains every buffer exactly once, and `next` and `prev` are
  inverse to each other;
* no two buffers carry the same block of a device other than 0;
* every `refcnt`, as a `uint`, is the number of holders and waiters plus the pins;
* `bget` of a block no buffer carries makes it carried, with `refcnt` 1, by a buffer with `refcnt` 0
  that no buffer with `refcnt` 0 follows in the list, and whose last fall to zero in `brelse` is older than that of any other
  buffer with `refcnt` 0 (buffers that never fell being the oldest); it panics exactly when there
  is no buffer with `refcnt` 0. -/
theorem cache_rep [Fintype P] [DecidableEq P] {t : Traced P} (h : t.Reachable) :
    ∃ l : List (Fin NBUF), t.cache.bc.forward = l ∧ l.Nodup ∧ (∀ i, i ∈ l) ∧
      (∀ b, t.cache.bc.prev (t.cache.bc.next b) = b ∧ t.cache.bc.next (t.cache.bc.prev b) = b) ∧
      Unique t.cache.bc ∧
      (∀ i, ((t.cache.bc.buf i).refcnt : ℤ) = (t.cache.uses i + t.pins i) % 2 ^ 32) ∧
      ∀ dev blockno, (∀ j, ¬ Carries t.cache.bc dev blockno j) →
        (t.cache.bc.bget dev blockno = none ↔ ∀ i, (t.cache.bc.buf i).refcnt ≠ 0) ∧
        ∀ c i, t.cache.bc.bget dev blockno = some (c, i) → (t.cache.bc.buf i).refcnt = 0 ∧
          Carries c dev blockno i ∧ (c.buf i).refcnt = 1 ∧
          (∃ l₁ l₂, l = l₁ ++ i :: l₂ ∧ ∀ j ∈ l₂, (t.cache.bc.buf j).refcnt ≠ 0) ∧
          ∀ j, j ≠ i → (t.cache.bc.buf j).refcnt = 0 → Later t.dropped j i := by
  obtain ⟨l, hl⟩ := Rep.of_reachable h
  refine ⟨l, hl.listed.forward_eq, hl.listed.ring.nodup, hl.listed.all,
    fun b => hl.listed.ring.inverse b fun i _ => hl.listed.all i, hl.unique, hl.refs,
    fun dev blockno hno => ?_⟩
  have hc := bget_cases hl.listed dev blockno
  refine ⟨⟨fun e => ?_, fun hall => ?_⟩, fun c i e => ?_⟩
  · rw [e] at hc
    cases hc with
    | full _ hall => exact hall
  · cases e : t.cache.bc.bget dev blockno with
    | none => rfl
    | some r =>
      rw [e] at hc
      cases hc with
      | hit i hi => exact absurd hi (hno i)
      | recycled i _ _ _ _ h₀ => exact absurd h₀ (hall i)
  · rw [e] at hc
    cases hc with
    | hit i hi => exact absurd hi (hno i)
    | recycled i l₁ l₂ _ hll h₀ hlast =>
      refine ⟨h₀, by simp [Carries, recycle], by simp [recycle], ⟨l₁, l₂, hll, hlast⟩, fun j hj hj₀ => ?_⟩
      subst hll
      -- `j` has count 0, so it stands before `i` in the list
      have hj₁ : j ∈ l₁ := by
        rcases mem_append.mp (hl.listed.all j) with h₁ | h₂
        · exact h₁
        · rcases mem_cons.mp h₂ with e | h₂
          · exact absurd e hj
          · exact absurd hj₀ (hlast j h₂)
      exact (pairwise_append.mp hl.order.sorted).2.2 j hj₁ i mem_cons_self

/-- A buffer has been released; the next `bget` takes another, which has not been in use. -/
theorem cache_rep_released : ∃ t : Traced Bool, t.Reachable ∧ t.dropped ⟨0, by decide⟩ = 1 ∧
    ∃ c i, t.cache.bc.bget ROOTDEV 8 = some (c, i) ∧ (c.buf i).refcnt = 1 ∧ Later t.dropped ⟨0, by decide⟩ i := by
  have h : runTest Traced.step (fun _ _ => True) (Traced.init : Traced Bool)
      [.bget true ROOTDEV 7, .acquire true, .fill true fun _ _ => 0, .brelse true ⟨0, by decide⟩, .unref true]
      (fun t => decide (t.dropped ⟨0, by decide⟩ = 1 ∧ (t.cache.bc.buf ⟨0, by decide⟩).refcnt = 0 ∧
        (∀ j, ¬ ((t.cache.bc.buf j).dev = ROOTDEV ∧ (t.cache.bc.buf j).blockno = 8)) ∧
        (t.cache.bc.bget ROOTDEV 8).map Prod.snd = some ⟨1, by decide⟩)) = true := by
    decide +kernel
  obtain ⟨t, ht, hc⟩ := Reach.of_runTest h
  obtain ⟨hdrop, hzero, hno, hget⟩ := of_decide_eq_true hc
  obtain ⟨⟨c, _⟩, hget, rfl⟩ := Option.map_eq_some_iff.mp hget
  obtain ⟨l, -, -, -, -, -, -, hbget⟩ := cache_rep ht
  obtain ⟨-, -, hone, -, hlater⟩ := (hbget ROOTDEV 8 hno).2 c _ hget
  exact ⟨t, ht, hdrop, c, _, hget, hone, hlater _ (by decide) hzero⟩

end FypOs.Bio
