import FypOs.Log.Pin

/-!
# Log — enough buffers

`bget` panics when it has to recycle a buffer and all are in use.  A buffer is in use when a process
has it or waits for it, or when it holds a pinned block; so `bget` has a buffer as long as the pinned
blocks and the buffers of all processes are fewer than `NBUF` (`bget_ne_panic`).

FS operations that hold two buffers at a time can use up the buffers: `NBUF` is no more than
`LOGSIZE`, so a full transaction leaves none to `commit` (`commit_out_of_buffers`).  `buffers_suffice`
says how full the log may be.
-/

namespace FypOs.Log
open Lib Bio Function Log.State Finset Outcome Fintype

set_option linter.unusedSectionVars false

variable {P : Type} [Fintype P] [DecidableEq P] {sb : Sb} {s s' : State P} {p : P}

/-! ### Buffers in use -/

/-- The buffers a process has, waits for or is releasing. -/
def load (t : Thread) : Nat := t.held.length + if t.pend = .idle then 0 else 1

lemma sum_uses (t : Thread) : ∑ i, t.uses i = load t := by
  have hpend : (∑ i : Fin NBUF, if t.pend.buf = some i then 1 else 0) = if t.pend = .idle then 0 else 1 := by
    cases t.pend with
    | idle => simp [Pend.buf]
    | _ => simp [Pend.buf]
  unfold Thread.uses load
  rw [sum_add_distrib, hpend, sum_count]

variable {c c' : Cache P} {i : Fin NBUF} {b : Nat}

lemma card_pinned_le {pinned : List Nat} {c : Cache P} (h : Shared c pinned) :
    (univ.filter fun i => pins c.bc pinned i = 1).card ≤ pinned.length := by
  have hp : ∀ i, pins c.bc pinned i = 1 → (c.bc.buf i).dev = ROOTDEV ∧ (c.bc.buf i).blockno ∈ pinned := by
    intro i hi
    by_contra hno
    rw [pins, if_neg hno] at hi
    cases hi
  refine (card_le_card_of_injOn (t := pinned.toFinset) (fun i => (c.bc.buf i).blockno)
    (fun i hi => ?_) fun i hi j hj e => ?_).trans pinned.toFinset_card_le
  · exact List.mem_toFinset.mpr (hp i (mem_filter.mp hi).2).2
  · have hi' := hp i (mem_filter.mp hi).2
    have hj' := hp j (mem_filter.mp hj).2
    exact h.unique ROOTDEV _ i j (by decide) ⟨hi'.1, rfl⟩ ⟨hj'.1, e.symm⟩

/-- With fewer pinned blocks and buffers of processes than buffers, one is free. -/
lemma exists_free {pinned : List Nat} {c : Cache P} (h : Shared c pinned)
    (hP : card P ≤ NPROC) (hlt : pinned.length + ∑ q, load (c.thr q) < NBUF) :
    ∃ i, (c.bc.buf i).refcnt = 0 := by
  by_contra hno
  have hbusy : ∀ i, 1 ≤ c.uses i + (if pins c.bc pinned i = 1 then 1 else 0) := by
    intro i
    have hi : (c.bc.buf i).refcnt ≠ 0 := fun e => hno ⟨i, e⟩
    have := h.refcnt_eq hP i
    rcases pins_cases c.bc pinned i with e | e
    · rw [if_neg (by rw [e]; decide)]
      omega
    · rw [if_pos e]
      exact Nat.le_add_left 1 _
  have hsum : NBUF ≤ ∑ i, c.uses i + (univ.filter fun i => pins c.bc pinned i = 1).card := by
    rw [card_filter, ← sum_add_distrib]
    simpa using sum_le_sum fun i (_ : i ∈ univ) => hbusy i
  have huses : ∑ i, c.uses i = ∑ q, load (c.thr q) := by
    unfold Cache.uses
    rw [sum_comm]
    exact sum_congr rfl fun q _ => sum_uses _
  have := card_pinned_le h
  omega

/-- **`bget` has a buffer** for a block that is in the cache, and for any block while some buffer
is neither pinned nor with a process. -/
lemma bget_ne_panic {pinned : List Nat} {c : Cache P} (h : Shared c pinned) (hP : card P ≤ NPROC)
    (hroom : (∃ i, Carries c.bc ROOTDEV b i) ∨ pinned.length + ∑ q, load (c.thr q) < NBUF)
    (msg : String) : c.bget p ROOTDEV b ≠ .panic msg := by
  intro e
  obtain ⟨l, hl⟩ := h.listed
  have hc := bget_cases hl ROOTDEV b
  unfold Cache.bget at e
  split at e
  · cases hb : c.bc.bget ROOTDEV b with
    | some r => rw [hb] at e; cases e
    | none =>
      rw [hb] at hc
      cases hc with
      | full hno hall =>
        rcases hroom with ⟨i, hi⟩ | hlt
        · exact hno i hi
        · obtain ⟨i, hi⟩ := exists_free h hP hlt
          exact hall i hi
  · cases e

/-! ### The buffers of FS operations and of `commit` -/

/-- FS operations keep to their budgets of log blocks, use buffers only between `begin_op` and
`end_op`, and hold at most two at a time. -/
def Frugal (s : State P) (e : Event P) : Prop :=
  Budgeted s e ∧
    match e with
    | .bread p _ => s.op p ≠ none ∧ (s.cache.thr p).held.length ≤ 1
    | .endOp p => (s.cache.thr p).held = []
    | _ => True

instance (s : State P) (e : Event P) : Decidable (Frugal s e) :=
  match e with
  | .bread .. => inferInstanceAs (Decidable (_ ∧ _ ∧ _))
  | .endOp p => inferInstanceAs (Decidable (_ ∧ (s.cache.thr p).held = []))
  | .beginOp _ | .acquire _ | .fill _ | .logWrite .. | .brelse .. | .unref _ | .commit | .crash _ =>
    inferInstanceAs (Decidable (_ ∧ True))

/-- Room for two buffers of each operation when one is asked for by an operation, and for one when
`commit` runs. -/
def Spare (s : State P) : Event P → Prop
  | .bread .. => (s.lh.length : ℤ) + 2 * s.outstanding ≤ NBUF
  | .commit => s.lh.length < NBUF
  | _ => True

instance (s : State P) : (e : Event P) → Decidable (Spare s e)
  | .bread .. => inferInstanceAs (Decidable ((s.lh.length : ℤ) + 2 * s.outstanding ≤ NBUF))
  | .commit => inferInstanceAs (Decidable (s.lh.length < NBUF))
  | .beginOp _ | .acquire _ | .fill _ | .logWrite .. | .brelse .. | .unref _ | .endOp _
  | .crash _ => inferInstanceAs (Decidable True)

/-- The buffers of processes are those of operations in progress, two for each, or those the point
of `commit` needs. -/
structure LoadInv (sb : Sb) (s : State P) : Prop where
  ops : ∀ p, ¬ s.isCom p → load (s.cache.thr p) ≤ 2 * active (s.op p)
  com : ∀ p c, s.com = some (p, c) →
    (acquired (s.cache.thr p)).length = (c.blocks sb s.lh).length

lemma load_of_idle {t : Thread} (h : t.pend = .idle) : load t = t.held.length := by
  simp [load, h]

/-- What the critical sections do to the load of their process. -/
lemma load_acquire (h : c.acquire p = .ok c') (q : P) : load (c'.thr q) = load (c.thr q) := by
  obtain ⟨i, hp, -, rfl⟩ := acquire_ok h
  by_cases e : q = p
  · subst e; simp [load, hp]
  · simp [update_of_ne e]

lemma load_fill {disk : Nat → Block} (h : c.fill p disk = .ok c') (q : P) :
    load (c'.thr q) = load (c.thr q) := by
  obtain ⟨i, hp, rfl⟩ := fill_ok h
  by_cases e : q = p
  · subst e; simp [load, hp]
  · simp [update_of_ne e]

lemma load_brelse (h : c.brelse p i = .ok c') (q : P) : load (c'.thr q) = load (c.thr q) := by
  obtain ⟨hp, hi, -, rfl⟩ := brelse_ok h
  by_cases e : q = p
  · subst e
    have hpos := List.length_pos_of_mem hi
    simp only [load, hp, update_self, List.length_erase_of_mem hi, reduceCtorEq, if_true, if_false]
    omega
  · simp [update_of_ne e]

lemma load_unref (h : c.unref p = .ok c') (q : P) : load (c'.thr q) ≤ load (c.thr q) := by
  obtain ⟨i, hp, rfl⟩ := unref_ok h
  by_cases e : q = p
  · subst e; simp [load, hp]
  · simp [update_of_ne e]

lemma loadInv_init (disk : Nat → Block) : LoadInv sb (init disk : State P) where
  ops p _ := by simp [init, Cache.init, Thread.start, load]
  com p c e := by cases e

lemma blocks_length_brelse {held : List (Fin NBUF)} {c c' : Ctl}
    (h : State.PlanCase sb s held c (.brelse i) (some c')) :
    (c.blocks sb s.lh).length = (c'.blocks sb s.lh).length + 1 := by
  cases h <;> rfl

/-- A process that is free to begin a step is not the committing one. -/
lemma ne_of_ready {q : P} {c : Ctl} (hr : s.ready q) (hcom : s.com = some (p, c)) : p ≠ q := by
  rintro rfl
  exact hr.2.1 (by rw [isCom, hcom]; rfl)

namespace LoadInv

variable {c c' : Ctl} {a : State.Act} {s₁ : State P}

lemma commit_next (h : LoadInv sb s) (hcom : s.com = some (p, c)) (hpend : (s.cache.thr p).pend = .idle)
    (hpl : State.PlanCase sb s (s.cache.thr p).held c a (some c')) (hx : State.ExecCase s p a s₁) :
    (acquired (s₁.cache.thr p)).length = (c'.blocks sb s₁.lh).length := by
  have hold := h.com p c hcom
  rw [acquired_of_idle hpend] at hold
  cases hx with
  | goto | bwrite _ | bunpin | setHead =>
    rw [← blocks_other hpl (by simp) (by simp)] at hold; rw [acquired_of_idle hpend]; exact hold
  | bread hs =>
    obtain ⟨-, bc, i, -, rfl⟩ := bget_ok hs
    rw [blocks_bread hpl]
    simp [acquired, hold]
  | brelse hs =>
    obtain ⟨-, hi, -, rfl⟩ := brelse_ok hs
    have := blocks_length_brelse hpl
    simp only [acquired, update_self, List.length_erase_of_mem hi]
    omega
  | finish => cases hpl

lemma thr_of_ne (hx : State.ExecCase s p a s₁) {q : P} (hq : q ≠ p) : s₁.cache.thr q = s.cache.thr q := by
  cases hx with
  | @bread b c hs =>
    have hm : Move s.disk s.cache p c := .bget hs
    exact hm.thr_of_ne hq
  | @brelse i c hs =>
    have hm : Move s.disk s.cache p c := .brelse hs
    exact hm.thr_of_ne hq
  | _ => rfl

lemma commit (h : LoadInv sb s) {c' : Option Ctl} (hcom : s.com = some (p, c))
    (hpend : (s.cache.thr p).pend = .idle)
    (hpl : State.PlanCase sb s (s.cache.thr p).held c a c') (hx : State.ExecCase s p a s₁) :
    LoadInv sb { s₁ with com := c'.map (p, ·) } := by
  have hop : s₁.op = s.op := by cases hx <;> rfl
  have hother : ∀ q, q ≠ p → load (s₁.cache.thr q) ≤ 2 * active (s₁.op q) := by
    intro q hq
    rw [thr_of_ne hx hq, hop]
    refine h.ops q fun hc => ?_
    rw [isCom, hcom] at hc
    exact hq (Option.some.inj hc).symm
  rcases hpl.next with ⟨rfl, rfl⟩ | ⟨-, c'', rfl⟩
  · cases hx
    cases hpl
    refine ⟨fun q _ => ?_, by simp⟩
    by_cases e : q = p
    · subst e
      have := h.com q _ hcom
      rw [acquired_of_idle hpend] at this
      show load (s.cache.thr q) ≤ _
      rw [load_of_idle hpend, this]
      exact Nat.zero_le _
    · exact hother q e
  · refine ⟨fun q hc => hother q ?_, ?_⟩
    · rintro rfl
      exact hc rfl
    · rintro q k ⟨rfl, rfl⟩
      have := h.commit_next hcom hpend hpl hx
      exact this

/-- **One step** keeps the load. -/
lemma step {e : Event P} (h : LoadInv sb s) (hp : PinInv sb s) (hf : Frugal s e)
    (hs : s.step sb e = .ok s') : LoadInv sb s' := by
  cases step_cases hs with
  | @beginOp p _ h0 _ _ =>
    refine ⟨fun q hc => (h.ops q hc).trans ?_, h.com⟩
    by_cases e : q = p
    · subst e; simp [h0]
    · simp [update_of_ne e]
  | @bread p b c hr hb =>
    obtain ⟨hop, hlen⟩ := hf.2
    obtain ⟨hpend, bc, i, -, rfl⟩ := bget_ok hb
    obtain ⟨u, hu⟩ := Option.ne_none_iff_exists'.mp hop
    refine ⟨fun q hc => ?_, fun q k hk => ?_⟩
    · by_cases e : q = p
      · subst e; simp [load, hu]; omega
      · dsimp only; rw [update_of_ne e]; exact h.ops q hc
    · dsimp only; rw [update_of_ne (ne_of_ready hr hk)]; exact h.com q k hk
  | acquire ha =>
    exact ⟨fun q hc => (load_acquire ha q).le.trans (h.ops q hc), fun q k hk =>
      (congrArg List.length (acquired_acquire ha q)).trans (h.com q k hk)⟩
  | fill hr =>
    exact ⟨fun q hc => (load_fill hr q).le.trans (h.ops q hc), fun q k hk =>
      (congrArg List.length (acquired_fill hr q)).trans (h.com q k hk)⟩
  | @brelse p i c hr hb =>
    refine ⟨fun q hc => (load_brelse hb q).le.trans (h.ops q hc), fun q k hk => ?_⟩
    have hm : Move s.disk s.cache p c := .brelse hb
    exact (congrArg (fun t => (acquired t).length) (hm.thr_of_ne (ne_of_ready hr hk))).trans (h.com q k hk)
  | unref hu =>
    exact ⟨fun q hc => (load_unref hu q).trans (h.ops q hc), fun q k hk =>
      (congrArg List.length (acquired_unref hu q)).trans (h.com q k hk)⟩
  | @logNew p i data used hu _ _ _ _ _ _ =>
    have hnone := hp.log.com_eq_none (p := p) (by rw [hu]; simp)
    refine ⟨fun q hc => (h.ops q hc).trans ?_, fun q k hk => absurd (hnone.symm.trans hk) (by simp)⟩
    by_cases e : q = p
    · subst e; simp [hu]
    · simp [update_of_ne e]
  | logAbsorb _ _ _ _ => exact ⟨h.ops, h.com⟩
  | @endLast p hr hop _ _ =>
    have hnone := hp.log.com_eq_none hop
    refine ⟨fun q hc => ?_, ?_⟩
    · have e : q ≠ p := by rintro rfl; exact hc rfl
      dsimp only
      rw [update_of_ne e]
      exact h.ops q (by simp [isCom, hnone])
    · rintro q k ⟨rfl, rfl⟩
      rw [acquired_of_idle hr.2.2]
      exact congrArg List.length hf.2
  | @endOther p hr hop _ _ =>
    refine ⟨fun q hc => ?_, h.com⟩
    by_cases e : q = p
    · subst e
      have hheld : (s.cache.thr q).held = [] := hf.2
      dsimp only
      rw [load_of_idle hr.2.2, hheld]
      exact Nat.zero_le _
    · dsimp only
      rw [update_of_ne e]
      exact h.ops q hc
  | commit hcom hpend hpl hx => exact h.commit hcom hpend hpl hx
  | crash => exact absurd hf.1 id

end LoadInv

/-! ### Runs -/

/-- What holds in every run of frugal operations. -/
structure FrugalInv (sb : Sb) (s : State P) : Prop where
  pin : PinInv sb s
  up : s.booting = false
  load : LoadInv sb s

lemma frugalInv_of_reach (hP : card P ≤ NPROC) {disk : Nat → Block}
    {D : State P → Event P → Prop} (hD : ∀ s e, D s e → Frugal s e)
    (h : Reach (step sb) D (init disk) s) : FrugalInv sb s := by
  refine h.invariant (I := FrugalInv sb) ⟨pinInv_init disk, rfl, loadInv_init disk⟩ ?_
  intro s e s' hi hd hs
  have hf := hD s e hd
  refine ⟨hi.pin.step hP (readsWf_of_up hi.pin.log hi.up) hs, ?_, hi.load.step hi.pin hf hs⟩
  exact booting_step hi.up (noCrash_of_budgeted hf.1) hs

/-- An operation that asks for a buffer leaves the operations with fewer than two each. -/
lemma FrugalInv.load_lt (h : FrugalInv sb s) (hop : s.op p ≠ none) (hr : s.ready p)
    (hlen : (s.cache.thr p).held.length ≤ 1) :
    ((∑ q, Log.load (s.cache.thr q) : Nat) : ℤ) < 2 * s.outstanding := by
  have hnone := h.pin.log.com_eq_none hop
  have hle : ∀ q, Log.load (s.cache.thr q) ≤ 2 * active (s.op q) := fun q =>
    h.load.ops q (by simp [isCom, hnone])
  have hlt : Log.load (s.cache.thr p) < 2 * active (s.op p) := by
    obtain ⟨u, hu⟩ := Option.ne_none_iff_exists'.mp hop
    rw [load_of_idle hr.2.2, hu, active_some]
    omega
  have hsum := sum_lt_sum (fun q _ => hle q) ⟨p, mem_univ p, hlt⟩
  rw [← mul_sum] at hsum
  rw [h.pin.log.count]
  exact_mod_cast hsum

/-- During `commit` no other process has a buffer. -/
lemma FrugalInv.load_commit (h : FrugalInv sb s) {c : Ctl} (hcom : s.com = some (p, c))
    (hpend : (s.cache.thr p).pend = .idle) :
    ∑ q, Log.load (s.cache.thr q) = (c.blocks sb s.lh).length := by
  have hq := h.pin.log.quiet (by rw [hcom]; rfl)
  rw [Finset.sum_eq_single p]
  · have := h.load.com p c hcom
    rwa [acquired_of_idle hpend, ← load_of_idle hpend] at this
  · intro q _ hne
    have := h.load.ops q (by
      intro hc
      rw [isCom, hcom] at hc
      exact hne (Option.some.inj hc).symm)
    rw [hq q] at this
    simpa using this
  · exact fun hno => absurd (mem_univ p) hno

lemma pinned_length_le : (pinned s).length ≤ s.lh.length := by
  unfold pinned
  split
  · exact Nat.zero_le _
  · split
    · exact le_rfl
    · simp

/-- A home block that `write_log` or `install_trans` reads is pinned. -/
lemma FrugalInv.mem_pinned (h : FrugalInv sb s) {c : Ctl} {t b : Nat}
    (hcom : s.com = some (p, c)) (hc : c.unpinned ≤ t) (hb : s.lh[t]? = some b) : b ∈ pinned s := by
  rw [pinned_of_com h.up hcom]
  refine List.mem_iff_getElem?.mpr ⟨t - c.unpinned, ?_⟩
  rw [List.getElem?_drop, Nat.add_sub_cancel' hc]
  exact hb

/-- The steps of `commit` find their buffers while the log has fewer than `NBUF` blocks. -/
lemma FrugalInv.commit_bread (h : FrugalInv sb s) (hP : card P ≤ NPROC) {c : Ctl}
    {c' : Option Ctl} (hcom : s.com = some (p, c))
    (hpend : (s.cache.thr p).pend = .idle) (hspare : s.lh.length < NBUF)
    (hpl : State.PlanCase sb s (s.cache.thr p).held c (.bread b) c') (msg : String) :
    s.cache.bget p ROOTDEV b ≠ .panic msg := by
  have hload := h.load_commit hcom hpend
  have hlen : (pinned s).length ≤ s.lh.length := pinned_length_le
  refine bget_ne_panic h.pin.shared hP ?_ msg
  -- a log block needs a free buffer, a home block is in the cache
  cases hpl with
  | logFrom hb =>
    obtain ⟨i, hi, -⟩ := h.pin.shared.kept b (h.mem_pinned hcom (Nat.zero_le _) hb)
    exact Or.inl ⟨i, hi⟩
  | insDst hb =>
    obtain ⟨i, hi, -⟩ := h.pin.shared.kept b (h.mem_pinned hcom le_rfl hb)
    exact Or.inl ⟨i, hi⟩
  | _ =>
    refine Or.inr ?_
    rw [hload]
    exact lt_of_le_of_lt hlen hspare

/-- **Buffers suffice** while the log leaves room.  In every run of FS operations that keep to
their budgets and hold at most two buffers each, in any interleaving: if an operation asks for a
buffer only while the blocks in the header and two buffers for each outstanding operation are at
most `NBUF`, and `commit` runs only while the header has fewer than `NBUF` blocks, then no `bget` panics. -/
theorem buffers_suffice (hP : Fintype.card P ≤ NPROC) {disk : Nat → Block}
    (h : Reach (step sb) (fun s e => Frugal s e ∧ Spare s e) (init disk) s)
    {e : Event P} (hf : Frugal s e) (hspare : Spare s e) :
    s.step sb e ≠ .panic "bget: no buffers" := by
  have hi := frugalInv_of_reach hP (fun _ _ hd => hd.1) h
  intro hs
  cases e with
  | bread p b =>
    simp only [step] at hs
    split at hs
    case isTrue hr =>
      have hlt := hi.load_lt hf.2.1 hr hf.2.2
      have hle : (pinned s).length ≤ s.lh.length := pinned_length_le
      have hsp : (s.lh.length : ℤ) + 2 * s.outstanding ≤ NBUF := hspare
      refine bget_ne_panic hi.pin.shared hP (Or.inr ?_) _ (map_eq_panic hs)
      omega
    case isFalse => cases hs
  | commit =>
    obtain ⟨p, c, a, c', hcom, hpend, hpl, hx⟩ := commit_panic hs
    cases a with
    | bread b =>
      exact hi.commit_bread hP hcom hpend hspare (plan_cases hpl) _ (map_eq_panic hx)
    | brelse i => exact absurd (brelse_panic (map_eq_panic hx)) (by decide)
    | bwrite i d =>
      simp only [exec] at hx
      split at hx <;> simp at hx
    | _ => cases hx
  | beginOp p =>
    simp only [step, beginOp] at hs
    split_ifs at hs
  | acquire p => exact acquire_ne_panic (map_eq_panic hs)
  | fill p => exact fill_ne_panic (map_eq_panic hs)
  | logWrite p i data =>
    simp only [step, logWrite] at hs
    split at hs
    · cases hs
    · split_ifs at hs <;> simp at hs
  | brelse p i =>
    simp only [step] at hs
    split at hs
    · exact absurd (brelse_panic (map_eq_panic hs)) (by decide)
    · cases hs
  | unref p => exact unref_ne_panic (map_eq_panic hs)
  | endOp p =>
    simp only [step, endOp] at hs
    split_ifs at hs
    simp at hs
  | crash p => cases hs

/-- `commit` finds a buffer for the log block of a transaction of one block. -/
theorem buffers_suffice_commit : ∃ s : State (Fin 3),
      Reach (step ⟨2, LOGSIZE + 1⟩) (fun s e => Frugal s e ∧ Spare s e)
        (init fun _ _ => 0) s ∧
      s.com = some (0, .writeLog 0) ∧ s.lh = [100] ∧
      s.step ⟨2, LOGSIZE + 1⟩ .commit ≠ .panic "bget: no buffers" := by
  have h : runTest (step ⟨2, LOGSIZE + 1⟩) (fun s e => Frugal s e ∧ Spare s e) (init fun _ _ => 0 : State (Fin 3))
      ([.beginOp 0] ++ logBlock 0 100 ⟨0, by decide⟩ ++ [.endOp 0, .commit])
      (fun s => decide ((s.com = some (0, .writeLog 0) ∧ s.lh = [100]) ∧
        Frugal s .commit ∧ Spare s .commit)) = true := by
    decide +kernel
  obtain ⟨s, hs, hc⟩ := Reach.of_runTest h
  obtain ⟨⟨hcom, hlh⟩, hf, hsp⟩ := of_decide_eq_true hc
  exact ⟨s, hs, hcom, hlh, buffers_suffice (by decide) hs hf hsp⟩

/-- **A full transaction leaves no buffer to `commit`.**  Three operations, each within its budget
and holding one buffer at a time, log ten blocks each and end.  All `NBUF` buffers are then pinned,
and `write_log` finds none for its first log block. -/
theorem commit_out_of_buffers : ∃ s : State (Fin 3),
      Reach (step ⟨2, LOGSIZE + 1⟩) Frugal (init fun _ _ => 0) s ∧
      Frugal s .commit ∧ s.step ⟨2, LOGSIZE + 1⟩ .commit = .panic "bget: no buffers" := by
  have h : runTest (step ⟨2, LOGSIZE + 1⟩) Frugal (init fun _ _ => 0)
      (fillLog ++ [.endOp 0, .endOp 1, .endOp 2, .commit])
      (fun s => decide (Frugal s .commit) &&
        (s.step ⟨2, LOGSIZE + 1⟩ .commit).stops "bget: no buffers") = true := by
    decide +kernel
  obtain ⟨s, hs, hc⟩ := Reach.of_runTest h
  simp only [Bool.and_eq_true, decide_eq_true_eq] at hc
  exact ⟨s, hs, hc.1, eq_panic_of_stops hc.2⟩

end FypOs.Log
