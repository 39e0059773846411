import FypOs.Bio.Users

/-!
# Bio — a cache with pinned blocks

Somebody outside the cache has pinned a list of blocks of the root device, each once.  `Shared`
is what then holds of the cache whatever its users do: besides the list, the identities and the
reference counts, the sleep-locks are with the processes that hold the buffers, and every pinned
block is in the cache, valid.  With at most `NPROC` processes no `refcnt` ever wraps around, so a
buffer that `bget` recycles is one nobody uses and nobody has pinned.
-/

namespace FypOs.Bio
open Lib Function List Buf Cache Pend

set_option linter.unusedSectionVars false

variable {P : Type} [Fintype P] [DecidableEq P] {c c' : Cache P} {p : P} {pinned : List Nat}
  {disk : Nat → Block}

/-- A critical section of `p` inside `bread` or `brelse`, on the root device. -/
inductive Move (disk : Nat → Block) (c : Cache P) (p : P) : Cache P → Prop where
  | bget {blockno : Nat} {c' : Cache P} (h : c.bget p ROOTDEV blockno = .ok c') : Move disk c p c'
  | acquire {c' : Cache P} (h : c.acquire p = .ok c') : Move disk c p c'
  | fill {c' : Cache P} (h : c.fill p disk = .ok c') : Move disk c p c'
  | brelse {i : Fin NBUF} {c' : Cache P} (h : c.brelse p i = .ok c') : Move disk c p c'
  | unref {c' : Cache P} (h : c.unref p = .ok c') : Move disk c p c'

/-- The block a buffer carries. -/
def Buf.ident (b : Buf P) : Nat × Nat := (b.dev, b.blockno)

/-- A buffer as `bread` finds it. -/
def Buf.view (b : Buf P) : Bool × Nat × Nat × Block := (b.valid, b.dev, b.blockno, b.data)

/-- The pins of a buffer: one if it carries a block of the list. -/
def pins (bc : Bcache P) (pinned : List Nat) (i : Fin NBUF) : ℤ :=
  if (bc.buf i).dev = ROOTDEV ∧ (bc.buf i).blockno ∈ pinned then 1 else 0

/-- What a process's own buffers look like. -/
structure Thread.Ok (bc : Bcache P) (p : P) (t : Thread) : Prop where
  nodup : t.held.Nodup
  held : ∀ i ∈ t.held, (bc.buf i).lock = some p ∧ (bc.buf i).valid = true
  locked : ∀ i, t.pend = .locked i → (bc.buf i).lock = some p ∧ i ∉ t.held

/-- What holds of the cache whatever its users do while the blocks `pinned` are pinned. -/
structure Shared (c : Cache P) (pinned : List Nat) : Prop where
  listed : ∃ l, Listed c.bc l
  unique : Unique c.bc
  refs : RefOk c (pins c.bc pinned)
  threads : ∀ p, (c.thr p).Ok c.bc p
  dev : ∀ i, 0 < c.uses i → (c.bc.buf i).dev = ROOTDEV
  /-- A pinned block is in the cache. -/
  kept : ∀ b ∈ pinned, ∃ i, Carries c.bc ROOTDEV b i ∧ (c.bc.buf i).valid = true

lemma unref_view (bc : Bcache P) (i j : Fin NBUF) : ((bc.unref i).buf j).view = (bc.buf j).view := by
  rw [unref_buf]
  exact modify_field view bc i j (by dsimp only [view])

lemma bpin_view (bc : Bcache P) (i j : Fin NBUF) : ((bc.bpin i).buf j).view = (bc.buf j).view :=
  modify_field view bc i j (by dsimp only [view])

lemma bunpin_view (bc : Bcache P) (i j : Fin NBUF) : ((bc.bunpin i).buf j).view = (bc.buf j).view :=
  modify_field view bc i j (by dsimp only [view])

/-- The view of a buffer includes its identity. -/
lemma ident_of_view {b b' : Buf P} (h : b'.view = b.view) : b'.ident = b.ident := by
  simp only [view, ident, Prod.mk.injEq] at h ⊢
  exact ⟨h.2.1, h.2.2.1⟩

/-! ### Counting -/

variable {i : Fin NBUF} {bc bc' : Bcache P} {b : Nat} {t : Thread}

lemma Thread.Ok.uses_le {bc : Bcache P} (h : t.Ok bc p) (i : Fin NBUF) : t.uses i ≤ 2 := by
  have hc := nodup_iff_count_le_one.mp h.nodup i
  unfold Thread.uses
  split <;> omega

lemma uses_pos_of_held (h : i ∈ (c.thr p).held) : 0 < c.uses i := by
  have h1 := le_tally (fun t : Thread => t.uses i) c.thr p
  have h2 := count_pos_iff.mpr h
  simp only [Thread.uses] at h1
  exact lt_of_lt_of_le (by omega) h1

lemma uses_pos_of_pend (h : (c.thr p).pend.buf = some i) : 0 < c.uses i := by
  have h1 := le_tally (fun t : Thread => t.uses i) c.thr p
  simp only [Thread.uses, h, if_true] at h1
  exact lt_of_lt_of_le (by omega) h1

lemma carries_iff {bc : Bcache P} {dev b : Nat} : Carries bc dev b i ↔ (bc.buf i).ident = (dev, b) := by
  simp [Carries, ident]

lemma Carries.congr {dev b : Nat} (h : Carries bc dev b i)
    (hid : (bc'.buf i).ident = (bc.buf i).ident) : Carries bc' dev b i :=
  carries_iff.mpr (hid.trans (carries_iff.mp h))

lemma pins_cases (bc : Bcache P) (pinned : List Nat) (i : Fin NBUF) :
    pins bc pinned i = 0 ∨ pins bc pinned i = 1 := by
  unfold pins
  split
  · exact Or.inr rfl
  · exact Or.inl rfl

lemma pins_of_carries {bc : Bcache P} (h : Carries bc ROOTDEV b i) (hb : b ∈ pinned) : pins bc pinned i = 1 :=
  if_pos ⟨h.1, h.2 ▸ hb⟩

lemma pins_congr (h : ∀ j, (bc'.buf j).ident = (bc.buf j).ident) : pins bc' pinned = pins bc pinned := by
  funext j
  obtain ⟨hd, hb⟩ := Prod.mk.inj (h j)
  unfold pins
  rw [hd, hb]

/-- At most `NPROC` processes use a buffer, each at most twice, so its `refcnt` is the exact number
of users and pins. -/
lemma Shared.refcnt_eq (h : Shared c pinned) (hP : Fintype.card P ≤ NPROC) (i : Fin NBUF) :
    ((c.bc.buf i).refcnt : ℤ) = c.uses i + pins c.bc pinned i := by
  have hle : c.uses i ≤ Fintype.card P * 2 := by
    have := Finset.sum_le_card_nsmul Finset.univ (fun p => (c.thr p).uses i) 2
      fun p _ => (h.threads p).uses_le i
    simpa [uses] using this
  rw [h.refs i, Int.emod_eq_of_lt]
  · rcases pins_cases c.bc pinned i with e | e <;> omega
  · simp only [NPROC] at hP
    rcases pins_cases c.bc pinned i with e | e <;> omega

/-- A buffer with reference count 0 is free: nobody uses it and it carries no pinned block. -/
lemma Shared.free (h : Shared c pinned) (hP : Fintype.card P ≤ NPROC)
    (h0 : (c.bc.buf i).refcnt = 0) : c.uses i = 0 ∧ pins c.bc pinned i = 0 := by
  have := h.refcnt_eq hP i
  rcases pins_cases c.bc pinned i with e | e <;> omega

/-! ### One critical section -/

/-- Another process keeps its buffers if their locks and contents stay. -/
lemma Thread.Ok.congr {q : P} (h : t.Ok bc q) (hb : ∀ i, 0 < t.uses i → (bc.buf i).lock = some q →
      (bc'.buf i).lock = some q ∧ ((bc.buf i).valid = true → (bc'.buf i).valid = true)) :
    t.Ok bc' q where
  nodup := h.nodup
  held i hi := by
    obtain ⟨hl, hv⟩ := h.held i hi
    have hu : 0 < t.uses i := by
      have := count_pos_iff.mpr hi
      unfold Thread.uses
      omega
    exact ⟨(hb i hu hl).1, (hb i hu hl).2 hv⟩
  locked i hi := by
    obtain ⟨hl, hn⟩ := h.locked i hi
    have hu : 0 < t.uses i := by
      simp only [Thread.uses, hi, buf, if_true]
      omega
    exact ⟨(hb i hu hl).1, hn⟩

/-- Every process but `p` keeps its buffers, and `p` has new ones. -/
lemma threads_update {thr : P → Thread} (h : ∀ q, (thr q).Ok bc q)
    (hb : ∀ q, q ≠ p → ∀ i, 0 < (thr q).uses i → (bc.buf i).lock = some q →
      (bc'.buf i).lock = some q ∧ ((bc.buf i).valid = true → (bc'.buf i).valid = true))
    (ht : t.Ok bc' p) : ∀ q, (update thr p t q).Ok bc' q := by
  intro q
  by_cases e : q = p
  · subst e
    rwa [update_self]
  · rw [update_of_ne e]
    exact (h q).congr (hb q e)

/-- A change that keeps identities and makes no buffer invalid keeps the pinned blocks. -/
lemma kept_congr (h : ∀ b ∈ pinned, ∃ i, Carries bc ROOTDEV b i ∧ (bc.buf i).valid = true)
    (hid : ∀ j, (bc'.buf j).ident = (bc.buf j).ident)
    (hv : ∀ j, (bc.buf j).valid = true → (bc'.buf j).valid = true) :
    ∀ b ∈ pinned, ∃ i, Carries bc' ROOTDEV b i ∧ (bc'.buf i).valid = true := by
  intro b hb
  obtain ⟨i, hi, hval⟩ := h b hb
  exact ⟨i, hi.congr (hid i), hv i hval⟩

/-- A change that keeps identities keeps blocks apart. -/
lemma unique_congr (h : Unique bc) (hid : ∀ j, (bc'.buf j).ident = (bc.buf j).ident) : Unique bc' := by
  intro d b i j h0 hi hj
  exact h d b i j h0 (hi.congr (hid i).symm) (hj.congr (hid j).symm)

/-- What a critical section other than `bget` leaves alone. -/
structure Steady (c c' : Cache P) : Prop where
  ident : ∀ j, (c'.bc.buf j).ident = (c.bc.buf j).ident
  valid : ∀ j, (c.bc.buf j).valid = true → (c'.bc.buf j).valid = true
  uses : ∀ j, c'.uses j ≤ c.uses j

lemma Shared.of_steady (h : Shared c pinned) (hk : Steady c c') (hl : ∃ l, Listed c'.bc l)
    (hr : RefOk c' (pins c.bc pinned)) (ht : ∀ q, (c'.thr q).Ok c'.bc q) : Shared c' pinned where
  listed := hl
  unique := unique_congr h.unique hk.ident
  refs := by rwa [pins_congr hk.ident]
  threads := ht
  dev i hi := (Prod.mk.inj (hk.ident i)).1.trans (h.dev i (lt_of_lt_of_le hi (hk.uses i)))
  kept := kept_congr h.kept hk.ident hk.valid

lemma steady_acquire (hs : c.acquire p = .ok c') : Steady c c' := by
  obtain ⟨i, hp, -, rfl⟩ := acquire_ok hs
  refine ⟨fun j => ?_, fun j hj => ?_, fun j => ?_⟩
  · dsimp only
    rw [modify_field ident _ _ _ rfl]
  · dsimp only
    rwa [modify_field valid _ _ _ rfl]
  · exact (uses_update_of_eq (by simp [Thread.uses, hp, buf])).le

lemma steady_fill (hs : c.fill p disk = .ok c') : Steady c c' := by
  obtain ⟨i, hp, rfl⟩ := fill_ok hs
  have hu : ∀ j, Thread.uses { pend := .idle, held := i :: (c.thr p).held } j = (c.thr p).uses j := by
    intro j
    simp [Thread.uses, hp, buf, count_cons]
  refine ⟨fun j => ?_, fun j hj => ?_, fun j => (uses_update_of_eq (hu j)).le⟩
  · dsimp only [filled]
    split
    · rfl
    · rw [modify_field ident _ _ _ rfl]
  · dsimp only [filled]
    split
    · exact hj
    · by_cases e : j = i
      · subst e; simp
      · rw [modify_buf_of_ne e]; exact hj

lemma steady_brelse (hs : c.brelse p i = .ok c') : Steady c c' := by
  obtain ⟨hp, hi, -, rfl⟩ := brelse_ok hs
  refine ⟨fun j => ?_, fun j hj => ?_, fun j => ?_⟩
  · dsimp only
    rw [modify_field ident _ _ _ rfl]
  · dsimp only
    rwa [modify_field valid _ _ _ rfl]
  · refine (uses_update_of_eq ?_).le
    have hpos := count_pos_iff.mpr hi
    by_cases e : i = j
    · subst e; simp [Thread.uses, hp, buf]; omega
    · simp [Thread.uses, hp, buf, e, count_erase_of_ne (Ne.symm e)]

lemma steady_unref (hs : c.unref p = .ok c') : Steady c c' := by
  obtain ⟨i, hp, rfl⟩ := unref_ok hs
  refine ⟨fun j => ?_, fun j hj => ?_, fun j => ?_⟩
  · exact ident_of_view (unref_view c.bc i j)
  · rwa [unref_buf, modify_field valid _ _ _ rfl]
  · have := uses_update c (c.bc.unref i) p { pend := .idle, held := (c.thr p).held } j
    simp only [Thread.uses, hp, buf, reduceCtorEq, if_false] at this
    omega

lemma listed_unref {bc : Bcache P} (h : ∃ l, Listed bc l) (i : Fin NBUF) : ∃ l, Listed (bc.unref i) l := by
  obtain ⟨l, hl⟩ := h
  obtain ⟨l1, l2, rfl⟩ := append_of_mem (hl.all i)
  have hm := hl.modify i fun b => { b with refcnt := udec b.refcnt }
  unfold Bcache.unref
  dsimp only
  split
  · exact ⟨_, hm.toFront⟩
  · exact ⟨_, hm⟩

section

variable (h : Shared c pinned)

include h

lemma Shared.acquire (hs : c.acquire p = .ok c') : Shared c' pinned := by
  refine h.of_steady (steady_acquire hs) ?_ (refOk_acquire h.refs hs) ?_
  · obtain ⟨i, -, -, rfl⟩ := acquire_ok hs
    obtain ⟨l, hl⟩ := h.listed
    exact ⟨l, hl.ring, hl.all⟩
  · obtain ⟨i, hp, hfree, rfl⟩ := acquire_ok hs
    refine threads_update h.threads (fun q _ j _ hj => ?_) ⟨(h.threads p).nodup, fun j hj => ?_, ?_⟩
    · -- the lock was free, so it is another buffer that `q` has locked
      have e : j ≠ i := by rintro rfl; rw [hfree] at hj; cases hj
      rw [modify_buf_of_ne e]
      exact ⟨hj, id⟩
    · obtain ⟨hl, hv⟩ := (h.threads p).held j hj
      have e : j ≠ i := by rintro rfl; rw [hfree] at hl; cases hl
      rw [modify_buf_of_ne e]
      exact ⟨hl, hv⟩
    · rintro j ⟨rfl⟩
      refine ⟨by simp, fun hi => ?_⟩
      have := ((h.threads p).held i hi).1
      rw [hfree] at this
      cases this

lemma Shared.fill (hs : c.fill p disk = .ok c') : Shared c' pinned := by
  refine h.of_steady (steady_fill hs) ?_ (refOk_fill h.refs hs) ?_
  · obtain ⟨i, -, rfl⟩ := fill_ok hs
    dsimp only [filled]
    split
    · exact h.listed
    · obtain ⟨l, hl⟩ := h.listed
      exact ⟨l, hl.ring, hl.all⟩
  · have hk := (steady_fill hs).valid
    obtain ⟨i, hp, rfl⟩ := fill_ok hs
    have hlock : ∀ j, ((filled c.bc i disk).buf j).lock = (c.bc.buf j).lock := by
      intro j
      unfold filled
      split
      · rfl
      · exact modify_field lock _ _ _ rfl
    obtain ⟨hl, hn⟩ := (h.threads p).locked i hp
    refine threads_update h.threads (fun q _ j _ hj => ⟨(hlock j).trans hj, hk j⟩)
      ⟨nodup_cons.mpr ⟨hn, (h.threads p).nodup⟩, fun j hj => ?_, fun j hj => by cases hj⟩
    rcases mem_cons.mp hj with rfl | hj
    · refine ⟨(hlock j).trans hl, ?_⟩
      unfold filled
      split
      · assumption
      · simp
    · obtain ⟨hl', hv'⟩ := (h.threads p).held j hj
      exact ⟨(hlock j).trans hl', hk j hv'⟩

lemma Shared.brelse (hs : c.brelse p i = .ok c') : Shared c' pinned := by
  refine h.of_steady (steady_brelse hs) ?_ (refOk_brelse h.refs hs) ?_
  · obtain ⟨-, -, -, rfl⟩ := brelse_ok hs
    obtain ⟨l, hl⟩ := h.listed
    exact ⟨l, hl.ring, hl.all⟩
  · obtain ⟨hp, hi, hlk, rfl⟩ := brelse_ok hs
    have hnd := (h.threads p).nodup
    refine threads_update h.threads (fun q hq j _ hj => ?_) ⟨hnd.erase i, fun j hj => ?_, fun j hj => by cases hj⟩
    · have e : j ≠ i := by
        rintro rfl
        rw [hlk] at hj
        exact hq (Option.some.inj hj).symm
      rw [modify_buf_of_ne e]
      exact ⟨hj, id⟩
    · obtain ⟨e, hj⟩ := (hnd.mem_erase_iff).mp hj
      rw [modify_buf_of_ne e]
      exact (h.threads p).held j hj

lemma Shared.unref (hs : c.unref p = .ok c') : Shared c' pinned := by
  refine h.of_steady (steady_unref hs) ?_ (refOk_unref h.refs hs) ?_
  · obtain ⟨i, -, rfl⟩ := unref_ok hs
    exact listed_unref h.listed i
  · obtain ⟨i, hp, rfl⟩ := unref_ok hs
    have hsame : ∀ j, ((c.bc.unref i).buf j).lock = (c.bc.buf j).lock ∧
        ((c.bc.unref i).buf j).valid = (c.bc.buf j).valid := by
      intro j
      rw [unref_buf]
      exact ⟨modify_field lock _ _ _ rfl, modify_field valid _ _ _ rfl⟩
    refine threads_update h.threads (fun q _ j _ hj => ⟨(hsame j).1.trans hj, fun hv => (hsame j).2.trans hv⟩)
      ⟨(h.threads p).nodup, fun j hj => ?_, fun j hj => by cases hj⟩
    obtain ⟨hl, hv⟩ := (h.threads p).held j hj
    exact ⟨(hsame j).1.trans hl, (hsame j).2.trans hv⟩

end

/-- What `bget` does to a shared cache: it raises the count of the block's buffer, or it gives the
block a buffer that was free. -/
inductive Got (c : Cache P) (b : Nat) (i : Fin NBUF) : Bcache P → Prop where
  | hit (hi : Carries c.bc ROOTDEV b i) : Got c b i (c.bc.bpin i)
  | recycled (hno : ∀ j, ¬ Carries c.bc ROOTDEV b j) (h₀ : (c.bc.buf i).refcnt = 0) :
      Got c b i (recycle c.bc ROOTDEV b i)

lemma Shared.got (h : Shared c pinned) (hs : c.bget p ROOTDEV b = .ok c') :
    ∃ bc i, Got c b i bc ∧ (c.thr p).pend = .idle ∧
      c' = { bc, thr := update c.thr p { pend := .waiting i, held := (c.thr p).held } } := by
  obtain ⟨hp, bc, i, hb, rfl⟩ := bget_ok hs
  obtain ⟨l, hl⟩ := h.listed
  have hc := bget_cases hl ROOTDEV b
  rw [hb] at hc
  refine ⟨bc, i, ?_, hp, rfl⟩
  cases hc with
  | hit _ hi => exact .hit hi
  | recycled _ _ _ hno _ h0 _ => exact .recycled hno h0

lemma Got.carries {bc : Bcache P} (h : Got c b i bc) : Carries bc ROOTDEV b i := by
  cases h with
  | hit hi => exact hi.congr (ident_of_view (bpin_view c.bc i i))
  | recycled hno h0 => simp [carries_recycle]

/-- `bget` leaves the buffers that are not free with their blocks, locks and contents. -/
lemma Got.buf_of_ne_zero {bc : Bcache P} {i j : Fin NBUF} (h : Got c b i bc) (hj : (c.bc.buf j).refcnt ≠ 0) :
    (bc.buf j).ident = (c.bc.buf j).ident ∧
      (bc.buf j).lock = (c.bc.buf j).lock ∧ (bc.buf j).valid = (c.bc.buf j).valid := by
  cases h with
  | hit hi =>
    exact ⟨ident_of_view (bpin_view c.bc i j), modify_field lock _ _ _ rfl, modify_field valid _ _ _ rfl⟩
  | recycled hno h0 =>
    have e : j ≠ i := by rintro rfl; exact hj h0
    unfold recycle
    rw [modify_buf_of_ne e]
    exact ⟨rfl, rfl, rfl⟩

section

variable (h : Shared c pinned)

include h

section

variable (hP : Fintype.card P ≤ NPROC)

include hP

lemma Shared.refcnt_ne_zero (hu : 0 < c.uses i) : (c.bc.buf i).refcnt ≠ 0 := by
  intro h0
  have := (h.free hP h0).1
  omega

lemma Shared.refcnt_ne_zero_of_pinned (hi : Carries c.bc ROOTDEV b i) (hb : b ∈ pinned) :
    (c.bc.buf i).refcnt ≠ 0 := by
  intro h0
  have := (h.free hP h0).2
  rw [pins_of_carries hi hb] at this
  cases this

lemma Shared.bget (hs : c.bget p ROOTDEV b = .ok c') : Shared c' pinned := by
  obtain ⟨l, hl⟩ := h.listed
  have hrefs := refOk_bget hl h.refs hs
  obtain ⟨bc, i, hg, hp, rfl⟩ := h.got hs
  have hpins : pins bc pinned = pins c.bc pinned := by
    cases hg with
    | hit hi => exact pins_congr fun j => ident_of_view (bpin_view c.bc i j)
    | recycled hno h0 =>
      funext j
      by_cases e : j = i
      · -- the block was not in the cache, so it is not pinned; nor was the buffer's old block
        subst e
        rw [(h.free hP h0).2]
        refine if_neg fun ⟨_, hb⟩ => ?_
        obtain ⟨k, hk, -⟩ := h.kept b (by simpa [recycle] using hb)
        exact hno k hk
      · unfold pins recycle
        rw [modify_buf_of_ne e]
  refine ⟨?_, ?_, by rwa [hpins], ?_, fun j hj => ?_, fun b' hb' => ?_⟩
  · cases hg with
    | hit _ | recycled _ _ => exact ⟨l, hl.ring, hl.all⟩
  · cases hg with
    | hit _ => exact unique_congr h.unique fun j => ident_of_view (bpin_view c.bc i j)
    | recycled hno _ => exact unique_recycle h.unique hno i
  · have hkeep : ∀ q j, 0 < (c.thr q).uses j → (bc.buf j).lock = (c.bc.buf j).lock ∧
        (bc.buf j).valid = (c.bc.buf j).valid := by
      intro q j hj
      have hu := lt_of_lt_of_le hj (le_tally (fun t : Thread => t.uses j) c.thr q)
      exact (hg.buf_of_ne_zero (h.refcnt_ne_zero hP hu)).2
    have ht : ∀ q, (c.thr q).Ok bc q := fun q => (h.threads q).congr fun j hj hl =>
      ⟨(hkeep q j hj).1.trans hl, fun hv => (hkeep q j hj).2.trans hv⟩
    exact threads_update ht (fun q _ j _ hj => ⟨hj, id⟩) ⟨(ht p).nodup, (ht p).held, fun j hj => by cases hj⟩
  · by_cases e : j = i
    · subst e; exact hg.carries.1
    · have hu := uses_update c bc p { pend := .waiting i, held := (c.thr p).held } j
      have hne : ¬ i = j := fun e' => e e'.symm
      simp only [Thread.uses, hp, buf, Option.some.injEq, hne, reduceCtorEq, if_false] at hu
      have hj' : 0 < c.uses j := by omega
      exact (Prod.mk.inj (hg.buf_of_ne_zero (h.refcnt_ne_zero hP hj')).1).1.trans (h.dev j hj')
  · obtain ⟨k, hk, hv⟩ := h.kept b' hb'
    obtain ⟨hid, -, hval⟩ := hg.buf_of_ne_zero (h.refcnt_ne_zero_of_pinned hP hk hb')
    exact ⟨k, hk.congr hid, hval.trans hv⟩

/-- **One critical section** of any process keeps what holds of the cache. -/
lemma Shared.move (hm : Move disk c p c') : Shared c' pinned := by
  cases hm with
  | bget hs => exact h.bget hP hs
  | acquire hs => exact h.acquire hs
  | fill hs => exact h.fill hs
  | brelse hs => exact h.brelse hs
  | unref hs => exact h.unref hs

lemma Shared.identity (hm : Move disk c p c') (hi : 0 < c.uses i) (hb : Carries c.bc ROOTDEV b i) :
    Carries c'.bc ROOTDEV b i := by
  refine hb.congr ?_
  cases hm with
  | bget hs =>
    obtain ⟨bc, j, hg, -, rfl⟩ := h.got hs
    exact (hg.buf_of_ne_zero (h.refcnt_ne_zero hP hi)).1
  | acquire hs => exact (steady_acquire hs).ident i
  | fill hs => exact (steady_fill hs).ident i
  | brelse hs => exact (steady_brelse hs).ident i
  | unref hs => exact (steady_unref hs).ident i

end

end

lemma Move.thr_of_ne (hm : Move disk c p c') {q : P} (hq : q ≠ p) : c'.thr q = c.thr q := by
  cases hm with
  | bget hs => obtain ⟨-, bc, i, -, rfl⟩ := bget_ok hs; exact update_of_ne hq ..
  | acquire hs => obtain ⟨i, -, -, rfl⟩ := acquire_ok hs; exact update_of_ne hq ..
  | fill hs => obtain ⟨i, -, rfl⟩ := fill_ok hs; exact update_of_ne hq ..
  | brelse hs => obtain ⟨-, -, -, rfl⟩ := brelse_ok hs; exact update_of_ne hq ..
  | unref hs => obtain ⟨i, -, rfl⟩ := unref_ok hs; exact update_of_ne hq ..

/-! ### Pinning -/

lemma shared_init : Shared (init : Cache P) [] where
  listed := ⟨_, listed_binit⟩
  unique := unique_binit
  refs := by
    have : pins (Bcache.binit : Bcache P) [] = fun _ => 0 := by
      funext i
      exact if_neg fun h => not_mem_nil h.2
    exact this ▸ refOk_init
  threads p := ⟨nodup_nil, fun i hi => absurd hi not_mem_nil, fun i hi => by cases hi⟩
  dev i hi := by
    have : (init : Cache P).uses i = 0 := by
      simp [uses, init, Thread.start, Thread.uses, buf]
    omega
  kept b hb := absurd hb not_mem_nil

/-- A change to the count or the data of a buffer, with the pins it accounts for. -/
lemma Shared.modify {pinned' : List Nat} (h : Shared c pinned) (i : Fin NBUF) (f : Buf P → Buf P)
    (hf : ∀ b, (f b).ident = b.ident ∧ (f b).lock = b.lock ∧ (f b).valid = b.valid)
    (hr : RefOk { c with bc := c.bc.modify i f } (pins c.bc pinned'))
    (hk : ∀ b ∈ pinned', ∃ j, Carries c.bc ROOTDEV b j ∧ (c.bc.buf j).valid = true) :
    Shared { c with bc := c.bc.modify i f } pinned' := by
  have hid : ∀ j, ((c.bc.modify i f).buf j).ident = (c.bc.buf j).ident := fun j =>
    modify_field ident c.bc i j (hf _).1
  have hv : ∀ j, ((c.bc.modify i f).buf j).valid = (c.bc.buf j).valid := fun j =>
    modify_field valid c.bc i j (hf _).2.2
  have hl : ∀ j, ((c.bc.modify i f).buf j).lock = (c.bc.buf j).lock := fun j =>
    modify_field lock c.bc i j (hf _).2.1
  obtain ⟨l, hlist⟩ := h.listed
  exact ⟨⟨l, hlist.modify i f⟩, unique_congr h.unique hid, by rwa [pins_congr hid],
    fun q => (h.threads q).congr fun j _ hj => ⟨(hl j).trans hj, fun hvj => (hv j).trans hvj⟩,
    fun j hj => (Prod.mk.inj (hid j)).1.trans (h.dev j hj),
    kept_congr hk hid fun j hj => (hv j).trans hj⟩

lemma Shared.store (h : Shared c pinned) (i : Fin NBUF) (data : Block) :
    Shared { c with bc := c.bc.modify i fun b => { b with data := data } } pinned := by
  refine h.modify i _ (fun b => ⟨rfl, rfl, rfl⟩) (fun j => ?_) h.kept
  have hr : ((c.bc.modify i fun b => { b with data := data }).buf j).refcnt =
      (c.bc.buf j).refcnt := modify_field refcnt c.bc i j (by rfl)
  dsimp only
  rw [hr]
  exact h.refs j

lemma Shared.pin (h : Shared c pinned) (hi : i ∈ (c.thr p).held) (hb : (c.bc.buf i).blockno ∉ pinned) :
    Shared { c with bc := c.bc.bpin i } (pinned ++ [(c.bc.buf i).blockno]) := by
  have hd := h.dev i (uses_pos_of_held hi)
  refine h.modify i (fun b => { b with refcnt := uinc b.refcnt })
    (fun b => ⟨by dsimp only [ident], rfl, rfl⟩) ?_ ?_
  · have hr := refOk_pin (i := i) (d := 1) (f := fun b => { b with refcnt := uinc b.refcnt })
      h.refs (uinc_cast _)
    have hp : update (pins c.bc pinned) i (pins c.bc pinned i + 1) =
        pins c.bc (pinned ++ [(c.bc.buf i).blockno]) := by
      funext j
      by_cases e : j = i
      · subst e
        simp [pins, hd, hb]
      · have hne : ¬ ((c.bc.buf j).dev = ROOTDEV ∧ (c.bc.buf j).blockno = (c.bc.buf i).blockno) :=
          fun hj => e (h.unique ROOTDEV _ j i (by decide) hj ⟨hd, rfl⟩)
        simp only [update_of_ne e, pins, mem_append, mem_singleton]
        exact if_congr (by tauto) rfl rfl
    rwa [hp] at hr
  · intro b hb'
    rcases mem_append.mp hb' with hb' | hb'
    · exact h.kept b hb'
    · cases mem_singleton.mp hb'
      exact ⟨i, ⟨hd, rfl⟩, ((h.threads p).held i hi).2⟩

lemma Shared.unpin (h : Shared c (b :: pinned)) (hb : b ∉ pinned)
    (hi : Carries c.bc ROOTDEV b i) : Shared { c with bc := c.bc.bunpin i } pinned := by
  refine h.modify i (fun b => { b with refcnt := udec b.refcnt })
    (fun b => ⟨by dsimp only [ident], rfl, rfl⟩) ?_
    fun b' hb' => h.kept b' (mem_cons_of_mem _ hb')
  have hr := refOk_pin (i := i) (d := -1) (f := fun b => { b with refcnt := udec b.refcnt })
    h.refs (udec_cast _)
  have hp : update (pins c.bc (b :: pinned)) i (pins c.bc (b :: pinned) i + -1) = pins c.bc pinned := by
    funext j
    by_cases e : j = i
    · subst e
      simp [pins, hi.1, hi.2, hb]
    · have hne : ¬ ((c.bc.buf j).dev = ROOTDEV ∧ (c.bc.buf j).blockno = b) :=
        fun hj => e (h.unique ROOTDEV _ j i (by decide) hj hi)
      simp only [update_of_ne e, pins, mem_cons]
      exact if_congr (by tauto) rfl rfl
  rwa [hp] at hr

/-! ### Contents -/

/-- Every valid buffer has the content of its block. -/
def Coherent (bc : Bcache P) (content : Nat → Block) : Prop :=
  ∀ i, (bc.buf i).valid = true → (bc.buf i).dev = ROOTDEV →
    (bc.buf i).data = content (bc.buf i).blockno

lemma Coherent.congr {content : Nat → Block} (h : Coherent bc content)
    (hb : ∀ j, (bc'.buf j).view = (bc.buf j).view) : Coherent bc' content := by
  intro j hv hd
  have hj := hb j
  simp only [view, Prod.mk.injEq] at hj
  obtain ⟨h1, h2, h3, h4⟩ := hj
  rw [h1] at hv
  rw [h2] at hd
  rw [h3, h4]
  exact h j hv hd

lemma Coherent.cast {bc : Bcache P} {content content' : Nat → Block} (h : Coherent bc content)
    (e : content' = content) : Coherent bc content' := e ▸ h

lemma coherent_init (content : Nat → Block) : Coherent (init : Cache P).bc content := by
  intro i hv
  simp [init, binit_buf, Bcache.zeroed] at hv

/-- Storing data in a buffer changes the content of its block, and of no other. -/
lemma Coherent.store {content content' : Nat → Block} (h : Coherent c.bc content)
    (hu : Unique c.bc) {data : Block} (hi : Carries c.bc ROOTDEV b i)
    (hb : content' b = data) (hne : ∀ b', b' ≠ b → content' b' = content b') :
    Coherent (c.bc.modify i fun b => { b with data := data }) content' := by
  intro j hv hd
  by_cases e : j = i
  · subst e
    rw [modify_buf_self]
    show data = content' (c.bc.buf j).blockno
    rw [hi.2, hb]
  · simp only [modify_buf_of_ne e] at hv hd ⊢
    rw [hne _ fun hb' => e (hu ROOTDEV b j i (by decide) ⟨hd, hb'⟩ hi)]
    exact h j hv hd

/-- **One critical section** leaves every valid buffer with the content of its block, when the
blocks that are not pinned have the content the disk has. -/
lemma Coherent.move {content : Nat → Block} (h : Coherent c.bc content) (hsh : Shared c pinned)
    (hdisk : ∀ b, b ∉ pinned → content b = disk b) (hm : Move disk c p c') :
    Coherent c'.bc content := by
  cases hm with
  | bget hs =>
    obtain ⟨bc, i, hg, -, rfl⟩ := hsh.got hs
    cases hg with
    | hit _ => exact h.congr fun j => bpin_view c.bc i j
    | recycled hno h0 =>
      intro j hv hd
      by_cases e : j = i
      · subst e; simp [recycle] at hv
      · simp only [recycle, modify_buf_of_ne e] at hv hd ⊢
        exact h j hv hd
  | acquire hs =>
    obtain ⟨i, -, -, rfl⟩ := acquire_ok hs
    refine h.congr fun j => ?_
    dsimp only
    rw [modify_field view _ _ _ rfl]
  | fill hs =>
    obtain ⟨i, -, rfl⟩ := fill_ok hs
    dsimp only [filled]
    split
    · exact h
    · rename_i hnv
      intro j hv hd
      by_cases e : j = i
      · -- a pinned block is valid in the buffer that carries it, so this one is not pinned
        subst e
        simp only [modify_buf_self] at hd ⊢
        refine (hdisk _ fun hb => ?_).symm
        obtain ⟨k, hk, hval⟩ := hsh.kept _ hb
        have := hsh.unique _ _ k j (by decide) hk ⟨hd, rfl⟩
        subst this
        exact hnv hval
      · simp only [modify_buf_of_ne e] at hv hd ⊢
        exact h j hv hd
  | @brelse i _ hs =>
    obtain ⟨-, -, -, rfl⟩ := brelse_ok hs
    refine h.congr fun j => ?_
    dsimp only
    rw [modify_field view _ _ _ rfl]
  | unref hs =>
    obtain ⟨i, -, rfl⟩ := unref_ok hs
    exact h.congr fun j => unref_view c.bc i j

end FypOs.Bio
