import FypOs.Log.Reserve
import FypOs.Bio.Shared

/-!
# Log — pinned buffers

`log_write` pins the buffer of a block it adds to the header, and `install_trans` unpins it after
the block is home.  `pinned s` is the list of the blocks in between: the header without the blocks
that `install_trans` is done with.  `PinInv` is what holds in every run:

* the process inside `commit` or `recover_from_log` has the buffers its point needs, with the right
  blocks in them (`CtlInv`), whatever the other processes do meanwhile;
* the cache is one with exactly the blocks `pinned s` pinned (`Shared`).
-/

namespace FypOs.Log
open Lib Bio Function List

set_option linter.unusedSectionVars false

variable {P : Type} [Fintype P] [DecidableEq P] {sb : Sb} {s s' : State P} {p : P}
  {l : List (Fin NBUF)} {i : Fin NBUF} {b : Nat}

/-! ### The buffers of the committing process -/

/-- The buffers a process has or waits for, the latest first. -/
def acquired (t : Thread) : List (Fin NBUF) :=
  match t.pend with
  | .waiting i | .locked i => i :: t.held
  | .idle | .releasing _ => t.held

/-- The first buffers of the list carry these blocks. -/
def Holds (bc : Bcache P) : List (Fin NBUF) → List Nat → Prop
  | _, [] => True
  | [], _ :: _ => False
  | i :: l, b :: bs => Carries bc ROOTDEV b i ∧ Holds bc l bs

/-- The blocks whose buffers the process at a point of `commit` or `recover_from_log` has, the one
it read last first. -/
def Ctl.blocks (sb : Sb) (lh : List Nat) : Ctl → List Nat
  | .writeLogFrom t | .writeLogRelTo t | .installDst _ t => [sb.logstart + t + 1]
  | .writeLogCopy t | .writeLogRelFrom t | .installCopy _ t | .installUnpin _ t
  | .installRelSrc _ t => [lh.getD t 0, sb.logstart + t + 1]
  | .installRelDst _ t => [lh.getD t 0]
  | .writeHeadPut _ | .writeHeadRel _ | .readHeadGet | .readHeadRel => [sb.logstart]
  | .start | .writeLog _ | .writeHead _ | .install _ _ | .readHead | .finish => []

/-- The loop variable is in range, and the header is empty once everything is installed. -/
def Ctl.Range (lh : List Nat) : Ctl → Prop
  | .writeLogFrom t | .writeLogCopy t | .writeLogRelFrom t | .writeLogRelTo t | .installDst _ t
  | .installCopy _ t | .installUnpin _ t | .installRelSrc _ t | .installRelDst _ t => t < lh.length
  | .writeLog t | .install _ t => t ≤ lh.length
  | .writeHead true | .writeHeadPut true | .writeHeadRel true | .finish => lh = []
  | .start | .writeHead false | .writeHeadPut false | .writeHeadRel false | .readHead
  | .readHeadGet | .readHeadRel => True

/-- The process inside `commit` or `recover_from_log` is where it should be. -/
structure CtlInv (sb : Sb) (s : State P) : Prop where
  blocks : ∀ p c, s.com = some (p, c) →
    Holds s.cache.bc (acquired (s.cache.thr p)) (c.blocks sb s.lh)
  range : ∀ p c, s.com = some (p, c) → c.Range s.lh

@[simp] lemma holds_nil {bc : Bcache P} : Holds bc l [] := by
  cases l <;> trivial

lemma stored_ident (s : State P) (i : Fin NBUF) (data : Block) (j : Fin NBUF) :
    ((s.stored i data).buf j).ident = (s.cache.bc.buf j).ident :=
  modify_field Buf.ident s.cache.bc i j rfl

lemma Holds.congr {bc bc' : Bcache P} {bs : List Nat} (h : Holds bc l bs)
    (hc : ∀ i ∈ l, ∀ b, Carries bc ROOTDEV b i → Carries bc' ROOTDEV b i) : Holds bc' l bs := by
  induction bs generalizing l with
  | nil => exact holds_nil
  | cons b bs ih =>
    cases l with
    | nil => exact h
    | cons i l =>
      exact ⟨hc i mem_cons_self b h.1, ih h.2 fun j hj => hc j (mem_cons_of_mem _ hj)⟩

lemma acquired_of_idle {t : Thread} (h : t.pend = .idle) : acquired t = t.held := by
  simp [acquired, h]

variable {c : Cache P} {k' : Option Ctl} {a : State.Act} {s1 : State P} {q : P} {k : Ctl}

lemma uses_pos_of_acquired (h : i ∈ acquired (c.thr p)) : 0 < c.uses i := by
  have key : i ∈ (c.thr p).held ∨ (c.thr p).pend.buf = some i := by
    unfold acquired at h
    split at h
    · rename_i j hj
      rcases mem_cons.mp h with rfl | h
      · exact Or.inr (by rw [hj]; rfl)
      · exact Or.inl h
    · rename_i j hj
      rcases mem_cons.mp h with rfl | h
      · exact Or.inr (by rw [hj]; rfl)
      · exact Or.inl h
    · exact Or.inl h
    · exact Or.inl h
  rcases key with h | h
  · exact uses_pos_of_held h
  · exact uses_pos_of_pend h

/-- Inside `bread` and `brelse` a process keeps its buffers. -/
lemma acquired_acquire {c c' : Cache P} (h : c.acquire q = .ok c') (p : P) :
    acquired (c'.thr p) = acquired (c.thr p) := by
  obtain ⟨i, hp, -, rfl⟩ := acquire_ok h
  by_cases e : p = q
  · subst e; simp [acquired, hp]
  · simp [update_of_ne e]

lemma acquired_fill {c c' : Cache P} {disk : Nat → Block} (h : c.fill q disk = .ok c')
    (p : P) : acquired (c'.thr p) = acquired (c.thr p) := by
  obtain ⟨i, hp, rfl⟩ := fill_ok h
  by_cases e : p = q
  · subst e; simp [acquired, hp]
  · simp [update_of_ne e]

lemma acquired_unref {c c' : Cache P} (h : c.unref q = .ok c') (p : P) :
    acquired (c'.thr p) = acquired (c.thr p) := by
  obtain ⟨i, hp, rfl⟩ := unref_ok h
  by_cases e : p = q
  · subst e; simp [acquired, hp]
  · simp [update_of_ne e]

lemma CtlInv.of_none (hc : s.com = none) : CtlInv sb s :=
  ⟨fun p c e => absurd (hc.symm.trans e) (by simp), fun p c e => absurd (hc.symm.trans e) (by simp)⟩

/-! ### What is pinned -/

/-- How many blocks of the header `install_trans` has unpinned. -/
def Ctl.unpinned : Ctl → Nat
  | .install _ t | .installDst _ t | .installCopy _ t | .installUnpin _ t => t
  | .installRelSrc _ t | .installRelDst _ t => t + 1
  | _ => 0

/-- The blocks logged and not yet installed.  `recover_from_log` works on blocks nobody has
pinned. -/
def pinned (s : State P) : List Nat :=
  if s.booting then [] else
    match s.com with
    | none => s.lh
    | some (_, c) => s.lh.drop c.unpinned

lemma pinned_of_none (hb : s.booting = false) (hc : s.com = none) : pinned s = s.lh := by
  simp [pinned, hb, hc]

lemma pinned_of_com {c : Ctl} (hb : s.booting = false) (hc : s.com = some (p, c)) :
    pinned s = s.lh.drop c.unpinned := by
  simp [pinned, hb, hc]

lemma pinned_of_booting (hb : s.booting = true) : pinned s = [] := by
  simp [pinned, hb]

/-- Only `struct log` and the point of the committing process matter. -/
lemma pinned_congr (e : (s'.lh, s'.com, s'.booting) = (s.lh, s.com, s.booting)) : pinned s' = pinned s := by
  simp only [Prod.mk.injEq] at e
  obtain ⟨e1, e2, e3⟩ := e
  unfold pinned
  rw [e1, e2, e3]

lemma mem_lh_of_mem_pinned (h : b ∈ pinned s) : b ∈ s.lh := by
  unfold pinned at h
  split at h
  · exact absurd h not_mem_nil
  · split at h
    · exact h
    · exact mem_of_mem_drop h

/-- What holds of the log and the cache in every run. -/
structure PinInv (sb : Sb) (s : State P) : Prop where
  log : LogInv s
  ctl : CtlInv sb s
  shared : Shared s.cache (pinned s)

/-- No process is inside `commit` or `recover_from_log` while an operation is in progress. -/
lemma LogInv.com_eq_none (h : LogInv s) (hop : s.op p ≠ none) : s.com = none := by
  cases e : s.com with
  | none => rfl
  | some pc => exact absurd (h.quiet (by rw [e]; rfl) p) hop

/-! ### One step of `commit` or `recover_from_log` -/

section Plan

open Log.State

variable {held : List (Fin NBUF)} {c c' : Ctl} {a : Act}

/-- The header after a step. -/
def Act.head (lh : List Nat) : State.Act → List Nat
  | .setHead lh' => lh'
  | _ => lh

lemma range_plan (h : PlanCase sb s held c a (some c')) (hr : c.Range s.lh) : c'.Range (Act.head s.lh a) := by
  cases h with
  | startFull _ | headCommitted _ | rdRel _ => exact Nat.zero_le _
  | startEmpty h => exact h
  | logRead h => exact h
  | logEnd _ => trivial
  | logFrom _ => exact hr
  | logCopy _ => exact hr
  | logRelFrom _ => exact hr
  | logRelTo _ | insRelDst _ => exact Nat.succ_le_of_lt hr
  | @headRead e => cases e <;> exact hr
  | @headPut e _ _ _ => cases e <;> exact hr
  | headErased _ => exact hr
  | insRead h => exact h
  | insEnd _ => rfl
  | insDst _ => exact hr
  | insCopy _ => exact hr
  | insUnpin _ => exact hr
  | insKeep _ => exact hr
  | insRelSrc _ => exact hr
  | rdRead => trivial
  | rdGet _ => trivial

lemma blocks_bread {b : Nat} (h : PlanCase sb s held c (.bread b) (some c')) :
    c'.blocks sb s.lh = b :: c.blocks sb s.lh := by
  cases h with
  | logFrom h | insDst h => simp [Ctl.blocks, getD_eq_getElem?_getD, h]
  | _ => rfl

lemma blocks_brelse {bc : Bcache P} {i : Fin NBUF} (hnd : held.Nodup)
    (h : PlanCase sb s held c (.brelse i) (some c')) (hh : Holds bc held (c.blocks sb s.lh)) :
    Holds bc (held.erase i) (c'.blocks sb s.lh) := by
  cases h with
  | logRelFrom h => subst h; rw [erase_cons_head]; exact hh.2
  | @insRelSrc r t dst src rest h =>
    subst h
    have hne : dst ≠ i := fun e => (nodup_cons.mp hnd).1 (e ▸ mem_cons_self)
    rw [erase_cons_tail (by simpa using hne)]
    exact ⟨hh.1, holds_nil⟩
  | _ => exact holds_nil

lemma blocks_other (h : PlanCase sb s held c a (some c')) (hb : ∀ b, a ≠ .bread b)
    (hr : ∀ i, a ≠ .brelse i) : c'.blocks sb (Act.head s.lh a) = c.blocks sb s.lh := by
  cases h with
  | logRead | logFrom | headRead | insRead | insDst | rdRead => exact absurd rfl (hb _)
  | logRelFrom | logRelTo | headCommitted | headErased | insRelSrc | insRelDst | rdRel =>
    exact absurd rfl (hr _)
  | _ => rfl

lemma unpinned_plan (h : PlanCase sb s held c a (some c')) (hm : c.Mode false)
    (hr : c.Range s.lh) (hu : ∀ i, a ≠ .bunpin i) :
    (Act.head s.lh a).drop c'.unpinned = s.lh.drop c.unpinned := by
  cases h with
  | insEnd h => exact (drop_eq_nil_of_le h).symm
  | insUnpin => exact absurd rfl (hu _)
  | insKeep => cases hm
  | rdGet => cases hm
  | _ => rfl

end Plan

/-! ### One step -/

section

variable (h : PinInv sb s)

include h

section

variable (hP : Fintype.card P ≤ NPROC)

include hP

/-- A critical section on a buffer that leaves the committing process with its buffers. -/
lemma PinInv.move (hm : Move s.disk s.cache q c)
    (hacq : ∀ p k, s.com = some (p, k) → acquired (c.thr p) = acquired (s.cache.thr p)) :
    PinInv sb { s with cache := c } where
  log := h.log.congr rfl
  ctl := by
    refine ⟨fun p k hk => ?_, h.ctl.range⟩
    dsimp only at hk ⊢
    rw [hacq p k hk]
    exact (h.ctl.blocks p k hk).congr fun i hi b hb =>
      h.shared.identity hP hm (uses_pos_of_acquired hi) hb
  shared := h.shared.move hP hm

/-- A process that is free to begin a step is not the committing one. -/
lemma PinInv.move_ready (hr : s.ready q) (hm : Move s.disk s.cache q c) : PinInv sb { s with cache := c } := by
  refine h.move hP hm fun p k hk => ?_
  have hne : p ≠ q := by
    rintro rfl
    exact hr.2.1 (by rw [State.isCom, hk]; rfl)
  rw [hm.thr_of_ne hne]

lemma PinInv.commit_bread {k k' : Ctl} (hcom : s.com = some (p, k)) (hpend : (s.cache.thr p).pend = .idle)
    (hpl : State.PlanCase sb s (s.cache.thr p).held k (.bread b) (some k'))
    (hs : s.cache.bget p ROOTDEV b = .ok c) :
    Holds c.bc (acquired (c.thr p)) (k'.blocks sb s.lh) := by
  have hold := h.ctl.blocks p k hcom
  have hm : Move s.disk s.cache p c := .bget hs
  have hid := fun i hi b' => h.shared.identity (i := i) (b := b') hP hm (uses_pos_of_acquired (p := p) hi)
  obtain ⟨bc, i, hg, -, rfl⟩ := h.shared.got hs
  rw [blocks_bread hpl]
  rw [acquired_of_idle hpend] at hold hid
  have e : acquired (update s.cache.thr p
      { pend := .waiting i, held := (s.cache.thr p).held } p) = i :: (s.cache.thr p).held := by
    rw [update_self]
    rfl
  rw [e]
  exact ⟨hg.carries, hold.congr hid⟩

end

lemma PinInv.commit_brelse {k k' : Ctl} (hcom : s.com = some (p, k)) (hpend : (s.cache.thr p).pend = .idle)
    (hpl : State.PlanCase sb s (s.cache.thr p).held k (.brelse i) (some k')) (hs : s.cache.brelse p i = .ok c) :
    Holds c.bc (acquired (c.thr p)) (k'.blocks sb s.lh) := by
  have hold := h.ctl.blocks p k hcom
  have hid := (steady_brelse hs).ident
  rw [acquired_of_idle hpend] at hold
  obtain ⟨-, -, -, rfl⟩ := brelse_ok hs
  have e : acquired (update s.cache.thr p { pend := .releasing i, held := (s.cache.thr p).held.erase i } p) =
      (s.cache.thr p).held.erase i := by
    rw [update_self]
    rfl
  rw [e]
  exact (blocks_brelse (h.shared.threads p).nodup hpl hold).congr fun j _ b hb => hb.congr (hid j)

lemma PinInv.ctl_commit (hP : Fintype.card P ≤ NPROC) (hcom : s.com = some (p, k))
    (hpend : (s.cache.thr p).pend = .idle)
    (hpl : State.PlanCase sb s (s.cache.thr p).held k a k') (hx : State.ExecCase s p a s1) :
    CtlInv sb { s1 with com := k'.map (p, ·) } := by
  rcases hpl.next with ⟨-, rfl⟩ | ⟨hne, k'', rfl⟩
  · exact .of_none rfl
  · have hrange := range_plan hpl (h.ctl.range p k hcom)
    have hold := h.ctl.blocks p k hcom
    -- a step that changes data or counts only
    have same : ∀ {lh' : List Nat} {bc : Bcache P}, k''.blocks sb lh' = k.blocks sb s.lh →
        (∀ j, (bc.buf j).ident = (s.cache.bc.buf j).ident) →
        Holds bc (acquired (s.cache.thr p)) (k''.blocks sb lh') := by
      intro lh' bc hbl hid
      rw [hbl]
      exact hold.congr fun j _ b hb => hb.congr (hid j)
    cases hx with
    | goto | setHead =>
      refine ⟨?_, ?_⟩ <;> rintro q c ⟨rfl, rfl⟩
      · exact same (blocks_other hpl (by simp) (by simp)) fun j => rfl
      · exact hrange
    | bread hs =>
      refine ⟨?_, ?_⟩ <;> rintro q c ⟨rfl, rfl⟩
      · exact h.commit_bread hP hcom hpend hpl hs
      · exact hrange
    | brelse hs =>
      refine ⟨?_, ?_⟩ <;> rintro q c ⟨rfl, rfl⟩
      · exact h.commit_brelse hcom hpend hpl hs
      · exact hrange
    | bwrite hl =>
      refine ⟨?_, ?_⟩ <;> rintro q c ⟨rfl, rfl⟩
      · exact same (blocks_other hpl (by simp) (by simp)) fun j =>
          stored_ident s _ _ j
      · exact hrange
    | bunpin =>
      refine ⟨?_, ?_⟩ <;> rintro q c ⟨rfl, rfl⟩
      · exact same (blocks_other hpl (by simp) (by simp)) fun j =>
          ident_of_view (bunpin_view s.cache.bc _ j)
      · exact hrange
    | finish => exact absurd rfl hne

/-- What is pinned after a step of `commit` or `recover_from_log` other than `bunpin`. -/
lemma PinInv.pinned_commit (hcom : s.com = some (p, k))
    (hpl : State.PlanCase sb s (s.cache.thr p).held k a k') (hx : State.ExecCase s p a s1)
    (hu : ∀ i, a ≠ .bunpin i) : pinned { s1 with com := k'.map (p, ·) } = pinned s := by
  have hmode := h.log.mode p k hcom
  have hrange := h.ctl.range p k hcom
  rcases hpl.next with ⟨rfl, rfl⟩ | ⟨hne, k'', rfl⟩
  · cases hx
    cases hpl
    have hlh : s.lh = [] := hrange
    unfold pinned
    simp [hlh, hcom]
  · have hhead : s1.lh = Act.head s.lh a ∧ s1.booting = s.booting := by
      cases hx <;> first | exact ⟨rfl, rfl⟩ | exact absurd rfl hne
    cases hb : s.booting with
    | true =>
      rw [pinned_of_booting hb]
      exact pinned_of_booting (by exact hhead.2.trans hb)
    | false =>
      rw [hb] at hmode
      rw [pinned_of_com hb hcom, ← unpinned_plan hpl hmode hrange hu, ← hhead.1]
      exact pinned_of_com (by exact hhead.2.trans hb) rfl

/-- The block that `install_trans` unpins is the first of those pinned. -/
lemma PinInv.pinned_unpin {t : Nat} (hcom : s.com = some (p, .installUnpin false t)) :
    pinned s = s.lh.getD t 0 :: s.lh.drop (t + 1) ∧ s.lh.getD t 0 ∉ s.lh.drop (t + 1) := by
  have hb : s.booting = false := (h.log.mode p _ hcom).symm
  have hlt : t < s.lh.length := h.ctl.range p _ hcom
  have hg : s.lh.getD t 0 = s.lh[t] := by simp [getD_eq_getElem?_getD, hlt]
  have hd : s.lh.drop t = s.lh[t] :: s.lh.drop (t + 1) := drop_eq_getElem_cons hlt
  have hnd : (s.lh.drop t).Nodup := h.log.nodup.sublist (drop_sublist _ _)
  rw [hd] at hnd
  rw [pinned_of_com hb hcom, hg]
  exact ⟨hd, (nodup_cons.mp hnd).1⟩

lemma PinInv.shared_commit (hP : Fintype.card P ≤ NPROC) (hcom : s.com = some (p, k))
    (hpend : (s.cache.thr p).pend = .idle)
    (hpl : State.PlanCase sb s (s.cache.thr p).held k a k') (hx : State.ExecCase s p a s1) :
    Shared s1.cache (pinned { s1 with com := k'.map (p, ·) }) := by
  have hpin := h.pinned_commit hcom hpl hx
  cases hx with
  | goto | setHead | finish => rw [hpin (by simp)]; exact h.shared
  | bread hs => rw [hpin (by simp)]; exact h.shared.bget hP hs
  | brelse hs => rw [hpin (by simp)]; exact h.shared.brelse hs
  | bwrite hl => rw [hpin (by simp)]; exact h.shared.store _ _
  | bunpin =>
    cases hpl with
    | @insUnpin t dst rest hheld =>
      obtain ⟨hp, hnot⟩ := h.pinned_unpin hcom
      have hold := h.ctl.blocks p _ hcom
      rw [acquired_of_idle hpend, hheld] at hold
      have hb : s.booting = false := (h.log.mode p _ hcom).symm
      rw [pinned_of_com (p := p) (c := .installRelSrc false t) (by exact hb) rfl]
      exact (hp ▸ h.shared).unpin hnot hold.1

end

lemma pinInv_reboot (disk : Nat → Block) (p : P) : PinInv sb (State.reboot disk p) where
  log := logInv_reboot disk p
  ctl := ⟨fun q c e => by cases e; exact holds_nil, fun q c e => by cases e; trivial⟩
  shared := shared_init

lemma pinInv_init (disk : Nat → Block) : PinInv sb (State.init disk : State P) where
  log := logInv_init disk
  ctl := .of_none rfl
  shared := shared_init

/-- **One step** keeps the pins and the buffers of the committing process. -/
lemma PinInv.step {e : Event P} (h : PinInv sb s) (hP : Fintype.card P ≤ NPROC)
    (hw : ReadsWf s) (hs : s.step sb e = .ok s') : PinInv sb s' := by
  have hlog := h.log.step hw hs
  cases State.step_cases hs with
  | beginOp _ _ _ _ => exact ⟨hlog, ⟨h.ctl.blocks, h.ctl.range⟩, h.shared⟩
  | bread hr hb => exact h.move_ready hP hr (.bget hb)
  | acquire ha => exact h.move hP (.acquire ha) fun p _ _ => acquired_acquire ha p
  | fill hf => exact h.move hP (.fill hf) fun p _ _ => acquired_fill hf p
  | brelse hr hb => exact h.move_ready hP hr (.brelse hb)
  | unref hu => exact h.move hP (.unref hu) fun p _ _ => acquired_unref hu p
  | @logNew p i data used hu hr hi _ _ _ hno =>
    have hnone := h.log.com_eq_none (p := p) (by rw [hu]; simp)
    have hp := pinned_of_none hr.1 hnone
    refine ⟨hlog, .of_none hnone, ?_⟩
    rw [pinned_of_none (by exact hr.1) (by exact hnone)]
    have hst := h.shared.store i data
    have hb : ((s.stored i data).buf i).blockno = (s.cache.bc.buf i).blockno :=
      modify_field Buf.blockno s.cache.bc i i rfl
    rw [hp] at hst
    have := hst.pin (p := p) (i := i) hi (by rw [← State.stored, hb]; exact hno)
    dsimp only at this
    rw [← State.stored, hb] at this
    exact this
  | @logAbsorb p i data used hu hr hi hin =>
    have hnone := h.log.com_eq_none (p := p) (by rw [hu]; simp)
    exact ⟨hlog, .of_none hnone, h.shared.store i data⟩
  | @endLast p hr hop _ _ =>
    have hnone := h.log.com_eq_none hop
    refine ⟨hlog, ⟨?_, ?_⟩, ?_⟩
    · rintro q c ⟨rfl, rfl⟩; exact holds_nil
    · rintro q c ⟨rfl, rfl⟩; trivial
    · have hp := pinned_of_none hr.1 hnone
      rw [pinned_of_com (p := p) (c := .start) (by exact hr.1) rfl]
      exact hp ▸ h.shared
  | endOther hr hop _ _ => exact ⟨hlog, .of_none (h.log.com_eq_none hop), h.shared⟩
  | commit hcom hp hpl hx =>
    have hsh := h.shared_commit hP hcom hp hpl hx
    exact ⟨hlog, h.ctl_commit hP hcom hp hpl hx, hsh⟩
  | crash => exact pinInv_reboot _ _

end FypOs.Log
