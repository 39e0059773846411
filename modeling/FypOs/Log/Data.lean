import FypOs.Log.History

/-!
# Log — what is in the buffers and in the log

A block logged and not yet installed has its last logged content in the cache and nowhere else;
every other block has in the cache what it has on the disk (`content`).  `DataInv` says this, and
follows `write_log` and `install_trans`: the log blocks written so far hold the last logged content
of the blocks of the header, and the home blocks installed so far hold what the log blocks hold.
FS operations are assumed to log home blocks only, as they do.

The main result is `pinned_until_installed`.
-/

namespace FypOs.Log
open Lib Bio Function List Recorded

set_option linter.unusedSectionVars false

variable {P : Type} [Fintype P] [DecidableEq P] {sb : Sb} {s s' : State P} {p : P}
  {view : Nat → Block} {t : Recorded P} {lh : List Nat} {b : Nat}

/-- The block of the log that holds block `k` of the transaction; the header is before the first. -/
def slot (sb : Sb) (k : Nat) : Nat := sb.logstart + k + 1

/-- `b` is a block of the log, or its header. -/
def InLog (sb : Sb) (b : Nat) : Prop :=
  b = sb.logstart ∨ sb.logstart < b ∧ b < sb.logstart + sb.nlog

/-- `b` is a block number, and not in the log. -/
def Home (sb : Sb) (b : Nat) : Prop := b < 2 ^ 32 ∧ ¬ InLog sb b

instance (sb : Sb) (b : Nat) : Decidable (Home sb b) :=
  inferInstanceAs (Decidable (_ ∧ ¬ (_ ∨ _ ∧ _)))

/-- FS operations log home blocks only. -/
def LogsHome (sb : Sb) (s : State P) : Event P → Prop
  | .logWrite _ i _ => Home sb (s.cache.bc.buf i).blockno
  | _ => True

instance (sb : Sb) (s : State P) : (e : Event P) → Decidable (LogsHome sb s e)
  | .logWrite _ i _ => inferInstanceAs (Decidable (Home sb (s.cache.bc.buf i).blockno))
  | .beginOp _ | .bread .. | .acquire _ | .fill _ | .brelse .. | .unref _ | .endOp _ | .commit
  | .crash _ => inferInstanceAs (Decidable True)

/-- A header `write_head` can have written. -/
structure HeadOk (sb : Sb) (lh : List Nat) : Prop where
  nodup : lh.Nodup
  le : lh.length ≤ LOGSIZE
  room : lh.length ≤ sb.nlog - 1
  home : ∀ b ∈ lh, Home sb b

lemma headOk_nil : HeadOk sb [] :=
  ⟨nodup_nil, Nat.zero_le _, Nat.zero_le _, fun _ h => absurd h not_mem_nil⟩

/-- The header `read_head` is about to take over is a possible one. -/
def ReadsHead (sb : Sb) (s : State P) : Prop :=
  ∀ p b rest, s.com = some (p, .readHeadGet) → (s.cache.thr p).pend = .idle →
    (s.cache.thr p).held = b :: rest → HeadOk sb (getHead (s.cache.bc.buf b).data)

lemma ReadsHead.wf (h : ReadsHead sb s) : ReadsWf s := fun p b rest hc hp hh =>
  ⟨(h p b rest hc hp hh).nodup, (h p b rest hc hp hh).le⟩

/-- What a block is in the eyes of the file system. -/
def content (s : State P) (view : Nat → Block) (b : Nat) : Block :=
  if b ∈ pinned s then view b else s.disk b

/-- How many of `n` blocks are in the log. -/
def Ctl.copied (n : Nat) : Ctl → Nat
  | .writeLog t | .writeLogFrom t | .writeLogCopy t => t
  | .writeLogRelFrom t | .writeLogRelTo t => t + 1
  | .writeHead false | .writeHeadPut false | .writeHeadRel false => n
  | .install false _ | .installDst false _ | .installCopy false _ | .installUnpin false _
  | .installRelSrc false _ | .installRelDst false _ => n
  | _ => 0

/-- How many blocks are home. -/
def Ctl.installed : Ctl → Nat
  | .install _ t | .installDst _ t | .installCopy _ t => t
  | .installUnpin _ t | .installRelSrc _ t | .installRelDst _ t => t + 1
  | _ => 0

/-- What holds of the contents of buffers and blocks. -/
structure DataInv (sb : Sb) (s : State P) (view : Nat → Block) : Prop where
  room : s.lh.length ≤ sb.nlog - 1
  home : ∀ b ∈ s.lh, Home sb b
  coherent : Coherent s.cache.bc (content s view)
  copied : ∀ p c, s.com = some (p, c) → ∀ k < c.copied s.lh.length, s.disk (slot sb k) = view (s.lh.getD k 0)
  installed : ∀ p c, s.com = some (p, c) → ∀ k < c.installed, s.disk (s.lh.getD k 0) = s.disk (slot sb k)

lemma content_congr (hp : pinned s' = pinned s) (hd : s'.disk = s.disk) : content s' view = content s view := by
  funext b
  unfold content
  rw [hp, hd]

/-- A write to the disk changes the content of one block at most. -/
lemma content_write {b b0 : Nat} {d : Block} (hne : b ≠ b0) :
    content { s with disk := update s.disk b0 d } view b = content s view b := by
  unfold content
  dsimp only
  rw [update_of_ne hne]
  rfl

/-! ### Places -/

lemma slot_ne_logstart (k : Nat) : slot sb k ≠ sb.logstart := by
  unfold slot
  omega

lemma slot_inj {k t : Nat} (h : slot sb k = slot sb t) : k = t := by
  unfold slot at h
  omega

lemma inLog_slot {k : Nat} (h : k < sb.nlog - 1) : InLog sb (slot sb k) := by
  unfold InLog slot
  omega

lemma getD_mem {t : Nat} (h : t < lh.length) : lh.getD t 0 ∈ lh := by
  rw [getD_eq_getElem _ _ h]
  exact getElem_mem h

lemma getD_inj (hnd : lh.Nodup) {k t : Nat} (hk : k < lh.length)
    (ht : t < lh.length) (e : lh.getD k 0 = lh.getD t 0) : k = t := by
  rw [getD_eq_getElem _ _ hk, getD_eq_getElem _ _ ht] at e
  exact (List.Nodup.getElem_inj_iff hnd).mp e

namespace DataInv

section

variable (h : DataInv sb s view)

include h

/-- A log block in use is not a home block in use. -/
lemma slot_ne {k : Nat} (hk : k < s.lh.length) {b : Nat} (hb : b ∈ s.lh) : slot sb k ≠ b := by
  rintro rfl
  exact (h.home _ hb).2 (inLog_slot (lt_of_lt_of_le hk h.room))

lemma not_pinned_of_inLog {b : Nat} (hb : InLog sb b) : b ∉ pinned s :=
  fun hp => (h.home b (mem_lh_of_mem_pinned hp)).2 hb

/-- A process finds the content of a block in its buffer. -/
lemma data_of_held (hp : PinInv sb s) {i : Fin NBUF} {b : Nat}
    (hi : i ∈ (s.cache.thr p).held) (hb : Carries s.cache.bc ROOTDEV b i) :
    (s.cache.bc.buf i).data = content s view b := by
  have := h.coherent i ((hp.shared.threads p).held i hi).2 hb.1
  rwa [hb.2] at this

/-- The invariant does not depend on the operations in progress. -/
lemma congr (e : (s'.cache.bc, s'.disk, s'.lh, s'.com, s'.booting) =
    (s.cache.bc, s.disk, s.lh, s.com, s.booting)) : DataInv sb s' view := by
  simp only [Prod.mk.injEq] at e
  obtain ⟨e1, e2, e3, e4, e5⟩ := e
  have hc : content s' view = content s view :=
    content_congr (pinned_congr (by rw [e3, e4, e5])) e2
  exact ⟨e3 ▸ h.room, e3 ▸ h.home, by rw [e1, hc]; exact h.coherent,
    by rw [e2, e3, e4]; exact h.copied, by rw [e2, e3, e4]; exact h.installed⟩

/-- Nothing is pinned and nothing is going on: the invariant does not depend on the view. -/
lemma of_idle (hp : pinned s = []) (hc : s.com = none) (view' : Nat → Block) : DataInv sb s view' := by
  have hcon : content s view' = content s view := by
    funext b
    unfold content
    rw [hp, if_neg not_mem_nil, if_neg not_mem_nil]
  refine ⟨h.room, h.home, hcon ▸ h.coherent, fun p c e => ?_, fun p c e => ?_⟩
  · rw [hc] at e; cases e
  · rw [hc] at e; cases e

lemma move (hp : PinInv sb s) {q : P} {c : Cache P}
    (hm : Move s.disk s.cache q c) : DataInv sb { s with cache := c } view where
  room := h.room
  home := h.home
  coherent := by
    have hcon : content { s with cache := c } view = content s view := rfl
    rw [hcon]
    exact h.coherent.move hp.shared (fun b hb => if_neg hb) hm
  copied := h.copied
  installed := h.installed

end

end DataInv

lemma dataInv_reboot (disk : Nat → Block) (p : P) (view : Nat → Block) :
    DataInv sb (State.reboot disk p) view where
  room := Nat.zero_le _
  home b hb := absurd hb not_mem_nil
  coherent := coherent_init _
  copied q c e k hk := by cases e; cases hk
  installed q c e k hk := by cases e; cases hk

lemma dataInv_init (disk view : Nat → Block) : DataInv sb (State.init disk : State P) view where
  room := Nat.zero_le _
  home b hb := absurd hb not_mem_nil
  coherent := coherent_init _
  copied q c e := by cases e
  installed q c e := by cases e

/-! ### One step of `commit` or `recover_from_log` -/

section Plan

open Log.State

variable {held : List (Fin NBUF)} {c c' : Ctl} {a : Act}

/-- Only the copy of a block to the log adds to the blocks copied. -/
lemma copied_plan (h : PlanCase sb s held c a (some c')) (hr : c.Range s.lh) {k : Nat}
    (hk : k < c'.copied (Act.head s.lh a).length) :
    Act.head s.lh a = s.lh ∧ (k < c.copied s.lh.length ∨ c = .writeLogCopy k) := by
  cases h with
  | startFull | startEmpty | headErased | insEnd | rdRead | rdGet | rdRel => exact absurd hk (Nat.not_lt_zero k)
  | logEnd h => exact ⟨rfl, Or.inl (lt_of_lt_of_le hk h)⟩
  | logCopy =>
    rcases Nat.lt_succ_iff_lt_or_eq.mp hk with hk | rfl
    · exact ⟨rfl, Or.inl hk⟩
    · exact ⟨rfl, Or.inr rfl⟩
  | @headRead e | @headPut e _ _ _ => cases e <;> exact ⟨rfl, Or.inl hk⟩
  | @insRead r _ _ | @insDst r _ _ _ | @insCopy r _ _ _ _ _ | @insRelSrc r _ _ _ _ _
  | @insRelDst r _ _ _ _ => cases r <;> exact ⟨rfl, Or.inl hk⟩
  | _ => exact ⟨rfl, Or.inl hk⟩

/-- Only the copy of a log block to its home adds to the blocks installed. -/
lemma installed_plan (h : PlanCase sb s held c a (some c')) {k : Nat} (hk : k < c'.installed) :
    Act.head s.lh a = s.lh ∧ (k < c.installed ∨ ∃ r, c = .installCopy r k) := by
  cases h with
  | insCopy =>
    rcases Nat.lt_succ_iff_lt_or_eq.mp hk with hk | rfl
    · exact ⟨rfl, Or.inl hk⟩
    · exact ⟨rfl, Or.inr ⟨_, rfl⟩⟩
  | startFull | startEmpty | logRead | logEnd | logFrom | logCopy | logRelFrom | logRelTo
  | headRead | headPut | headCommitted | headErased | insEnd | rdRead | rdGet | rdRel =>
    exact absurd hk (Nat.not_lt_zero k)
  | _ => exact ⟨rfl, Or.inl hk⟩

/-- The block whose buffer the committing process writes. -/
lemma carries_head (h : PinInv sb s) {k : Ctl} {b : Nat} {bs : List Nat} {i : Fin NBUF}
    {rest : List (Fin NBUF)} (hcom : s.com = some (p, k)) (hpend : (s.cache.thr p).pend = .idle)
    (hheld : (s.cache.thr p).held = i :: rest) (hb : k.blocks sb s.lh = b :: bs) :
    Carries s.cache.bc ROOTDEV b i ∧ Holds s.cache.bc rest bs := by
  have := h.ctl.blocks p k hcom
  rw [acquired_of_idle hpend, hheld, hb] at this
  exact this

end Plan

namespace DataInv

variable {k k' : Ctl} {a : State.Act} {s₁ : State P}

lemma commit_quiet (h : DataInv sb s view) (hp : PinInv sb s) (hcom : s.com = some (p, k))
    (hpl : State.PlanCase sb s (s.cache.thr p).held k a (some k')) (hw : ∀ i d, a ≠ .bwrite i d)
    (hd : s₁.disk = s.disk) (hlh : s₁.lh = Act.head s.lh a)
    (hok : s₁.lh.length ≤ sb.nlog - 1 ∧ ∀ b ∈ s₁.lh, Home sb b)
    (hcoh : Coherent s₁.cache.bc (content { s₁ with com := some (p, k') } view)) :
    DataInv sb { s₁ with com := some (p, k') } view := by
  refine ⟨hok.1, hok.2, hcoh, ?_, ?_⟩
  · rintro q c ⟨rfl, rfl⟩ j hj
    dsimp only at hj ⊢
    rw [hlh] at hj
    obtain ⟨he, hj' | rfl⟩ := copied_plan hpl (hp.ctl.range p k hcom) hj
    · rw [hd, hlh, he]
      exact h.copied p k hcom j hj'
    · cases hpl
      exact absurd rfl (hw _ _)
  · rintro q c ⟨rfl, rfl⟩ j hj
    dsimp only at hj ⊢
    obtain ⟨he, hj' | ⟨r, rfl⟩⟩ := installed_plan hpl hj
    · rw [hd, hlh, he]
      exact h.installed p k hcom j hj'
    · cases hpl
      exact absurd rfl (hw _ _)

variable {rest : List (Fin NBUF)} {i : Fin NBUF} {t : Nat}

section

variable (h : DataInv sb s view)

include h

section

variable (hp : PinInv sb s)

include hp

/-- `install_trans` unpins a block that is home: its content does not change. -/
lemma content_unpin (hcom : s.com = some (p, .installUnpin false t)) (hd : s'.disk = s.disk)
    (hpin : pinned s' = s.lh.drop (t + 1)) : content s' view = content s view := by
  have hlt : t < s.lh.length := hp.ctl.range p _ hcom
  obtain ⟨hpd, hnot⟩ := hp.pinned_unpin hcom
  funext b
  unfold content
  rw [hpd, hpin, hd]
  by_cases e : b = s.lh.getD t 0
  · subst e
    rw [if_neg hnot, if_pos mem_cons_self, h.installed p _ hcom t (Nat.lt_succ_self t)]
    exact h.copied p _ hcom t hlt
  · exact if_congr (by simp only [mem_cons, e, false_or]) rfl rfl

lemma commit_logCopy {src dst : Fin NBUF} (hcom : s.com = some (p, .writeLogCopy t))
    (hpend : (s.cache.thr p).pend = .idle) (hheld : (s.cache.thr p).held = src :: dst :: rest) :
    (s.cache.bc.buf dst).blockno = slot sb t ∧ (s.cache.bc.buf src).data = view (s.lh.getD t 0) ∧
      Coherent (s.stored dst (s.cache.bc.buf src).data)
        (content { s with disk := update s.disk (slot sb t) (s.cache.bc.buf src).data }
          view) := by
  have hlt : t < s.lh.length := hp.ctl.range p _ hcom
  have hb : s.booting = false := hp.log.mode p _ hcom
  obtain ⟨hsrc, hdst, -⟩ := carries_head hp hcom hpend hheld rfl
  have hnp := h.not_pinned_of_inLog (inLog_slot (lt_of_lt_of_le hlt h.room))
  refine ⟨hdst.2, ?_, ?_⟩
  · rw [h.data_of_held hp (p := p) (by rw [hheld]; exact mem_cons_self) hsrc]
    refine if_pos ?_
    rw [pinned_of_com hb hcom]
    exact getD_mem hlt
  · refine h.coherent.store hp.shared.unique hdst ?_ fun b hne => ?_
    · exact (if_neg hnp).trans (update_self ..)
    · exact content_write hne

lemma commit_headPut {e : Bool} (data : Block) (hcom : s.com = some (p, .writeHeadPut e))
    (hpend : (s.cache.thr p).pend = .idle) (hheld : (s.cache.thr p).held = i :: rest) :
    (s.cache.bc.buf i).blockno = sb.logstart ∧ Coherent (s.stored i data)
        (content { s with disk := update s.disk sb.logstart data } view) := by
  obtain ⟨hi, -⟩ := carries_head hp hcom hpend hheld rfl
  have hnp := h.not_pinned_of_inLog (b := sb.logstart) (Or.inl rfl)
  refine ⟨hi.2, h.coherent.store hp.shared.unique hi ?_ fun b hne => ?_⟩
  · exact (if_neg hnp).trans (update_self ..)
  · exact content_write hne

lemma commit_insCopy {r : Bool} {dst src : Fin NBUF} (hcom : s.com = some (p, .installCopy r t))
    (hpend : (s.cache.thr p).pend = .idle) (hheld : (s.cache.thr p).held = dst :: src :: rest) :
    (s.cache.bc.buf dst).blockno = s.lh.getD t 0 ∧ (s.cache.bc.buf src).data = s.disk (slot sb t) ∧
      Coherent (s.stored dst (s.cache.bc.buf src).data)
        (content { s with
          disk := update s.disk (s.lh.getD t 0) (s.cache.bc.buf src).data } view) := by
  have hlt : t < s.lh.length := hp.ctl.range p _ hcom
  obtain ⟨hdst, hsrc, -⟩ := carries_head hp hcom hpend hheld rfl
  have hnp := h.not_pinned_of_inLog (inLog_slot (lt_of_lt_of_le hlt h.room))
  have hdata : (s.cache.bc.buf src).data = s.disk (slot sb t) := by
    rw [h.data_of_held hp (p := p) (by rw [hheld]; simp) hsrc]
    exact if_neg hnp
  refine ⟨hdst.2, hdata, h.coherent.store hp.shared.unique hdst ?_ fun b hne => ?_⟩
  · -- in `commit` the block is still pinned, and the log has what is in its buffer
    by_cases hpin : s.lh.getD t 0 ∈ pinned s
    · refine (if_pos hpin).trans ?_
      cases r with
      | false => rw [hdata]; exact (h.copied p _ hcom t hlt).symm
      | true =>
        rw [pinned_of_booting (hp.log.mode p _ hcom).symm] at hpin
        exact absurd hpin not_mem_nil
    · exact (if_neg hpin).trans (update_self ..)
  · exact content_write hne

lemma commit_write {data : Block} {b0 : Nat} (hcom : s.com = some (p, k))
    (hpl : State.PlanCase sb s (s.cache.thr p).held k (.bwrite i data) (some k'))
    (hb : (s.cache.bc.buf i).blockno = b0) (hx : State.ExecCase s p (.bwrite i data) s₁)
    (hcoh : Coherent (s.stored i data)
      (content { s with disk := update s.disk b0 data } view))
    (hcop : ∀ j < k'.copied s.lh.length, update s.disk b0 data (slot sb j) = view (s.lh.getD j 0))
    (hins : ∀ j < k'.installed, update s.disk b0 data (s.lh.getD j 0) = update s.disk b0 data (slot sb j)) :
    DataInv sb { s₁ with com := some (p, k') } view := by
  have hpin := hp.pinned_commit hcom hpl hx (by simp)
  subst hb
  cases hx
  refine ⟨h.room, h.home, ?_, ?_, ?_⟩
  · exact hcoh.cast (content_congr (by exact hpin) rfl)
  · rintro q c ⟨rfl, rfl⟩
    exact hcop
  · rintro q c ⟨rfl, rfl⟩
    exact hins

lemma commit_bwrite {data : Block} (hcom : s.com = some (p, k)) (hpend : (s.cache.thr p).pend = .idle)
    (hpl : State.PlanCase sb s (s.cache.thr p).held k (.bwrite i data) (some k'))
    (hx : State.ExecCase s p (.bwrite i data) s₁) :
    DataInv sb { s₁ with com := some (p, k') } view := by
  have hrange := hp.ctl.range p k hcom
  have hpl' := hpl
  cases hpl with
  | @logCopy t src _ rest hheld =>
    obtain ⟨hb, hdata, hcoh⟩ := h.commit_logCopy hp hcom hpend hheld
    refine h.commit_write hp hcom hpl' hb hx hcoh (fun j hj => ?_)
      fun j hj => absurd hj (Nat.not_lt_zero j)
    rcases Nat.lt_succ_iff_lt_or_eq.mp hj with hj | rfl
    · rw [update_of_ne fun e => (Nat.ne_of_lt hj) (slot_inj e)]
      exact h.copied p _ hcom j hj
    · rw [update_self, hdata]
  | @headPut e _ rest hheld =>
    obtain ⟨hb, hcoh⟩ := h.commit_headPut hp _ hcom hpend hheld
    refine h.commit_write hp hcom hpl' hb hx hcoh (fun j hj => ?_)
      fun j hj => absurd hj (Nat.not_lt_zero j)
    rw [update_of_ne (slot_ne_logstart j)]
    cases e with
    | false => exact h.copied p _ hcom j hj
    | true => exact absurd hj (Nat.not_lt_zero j)
  | @insCopy r t _ src rest hheld =>
    obtain ⟨hb, hdata, hcoh⟩ := h.commit_insCopy hp hcom hpend hheld
    have hlt : t < s.lh.length := hrange
    have hslot : ∀ j < s.lh.length, slot sb j ≠ s.lh.getD t 0 := fun j hj =>
      h.slot_ne hj (getD_mem hlt)
    refine h.commit_write hp hcom hpl' hb hx hcoh (fun j hj => ?_) fun j hj => ?_
    · cases r with
      | false =>
        rw [update_of_ne (hslot j hj)]
        exact h.copied p _ hcom j hj
      | true => exact absurd hj (Nat.not_lt_zero j)
    · rcases Nat.lt_succ_iff_lt_or_eq.mp hj with hj | rfl
      · have hjlt : j < s.lh.length := hj.trans hlt
        have hne : s.lh.getD j 0 ≠ s.lh.getD t 0 := fun e =>
          (Nat.ne_of_lt hj) (getD_inj hp.log.nodup hjlt hlt e)
        rw [update_of_ne hne, update_of_ne (hslot j hjlt)]
        exact h.installed p _ hcom j hj
      · rw [update_self, update_of_ne (hslot j hlt), hdata]

lemma commit (hw : ReadsHead sb s) {k' : Option Ctl}
    (hcom : s.com = some (p, k)) (hpend : (s.cache.thr p).pend = .idle)
    (hpl : State.PlanCase sb s (s.cache.thr p).held k a k') (hx : State.ExecCase s p a s₁) :
    DataInv sb { s₁ with com := k'.map (p, ·) } view := by
  have hpin := hp.pinned_commit hcom hpl hx
  have hx' := hx
  rcases hpl.next with ⟨rfl, rfl⟩ | ⟨hne, k'', rfl⟩
  · cases hx
    refine ⟨h.room, h.home, ?_, nofun, nofun⟩
    exact h.coherent.cast (content_congr (by exact hpin (by simp)) rfl)
  · cases hx with
    | goto =>
      refine h.commit_quiet hp hcom hpl (by simp) rfl rfl ⟨h.room, h.home⟩ ?_
      exact h.coherent.cast (content_congr (by exact hpin (by simp)) rfl)
    | bread hs =>
      refine h.commit_quiet hp hcom hpl (by simp) rfl rfl ⟨h.room, h.home⟩ ?_
      exact (h.move hp (.bget hs)).coherent.cast (content_congr (by exact hpin (by simp)) rfl)
    | brelse hs =>
      refine h.commit_quiet hp hcom hpl (by simp) rfl rfl ⟨h.room, h.home⟩ ?_
      exact (h.move hp (.brelse hs)).coherent.cast (content_congr (by exact hpin (by simp)) rfl)
    | bwrite hl => exact h.commit_bwrite hp hcom hpend hpl hx'
    | @bunpin i =>
      refine h.commit_quiet hp hcom hpl (by simp) rfl rfl ⟨h.room, h.home⟩ ?_
      cases hpl with
      | @insUnpin t dst rest hheld =>
        have hb : s.booting = false := (hp.log.mode p _ hcom).symm
        have hcoh := h.coherent.congr fun j => bunpin_view s.cache.bc i j
        refine hcoh.cast (h.content_unpin hp hcom rfl ?_)
        exact pinned_of_com (p := p) (c := .installRelSrc false t) (by exact hb) rfl
    | @setHead lh =>
      have hok : HeadOk sb lh := by
        cases hpl with
        | insEnd _ => exact headOk_nil
        | rdGet hheld => exact hw p _ _ hcom hpend hheld
      refine h.commit_quiet hp hcom hpl (by simp) rfl rfl ⟨hok.room, hok.home⟩ ?_
      exact h.coherent.cast (content_congr (by exact hpin (by simp)) rfl)
    | finish => exact absurd rfl hne

end

end

end DataInv

/-! ### One step -/

/-- The last logged content of each block after an event. -/
def viewAfter (s : State P) (view : Nat → Block) : Event P → Nat → Block
  | .logWrite _ i data => update view (s.cache.bc.buf i).blockno data
  | _ => view

/-- A `log_write` gives its block a new content, and no other. -/
lemma content_logWrite {i : Fin NBUF} {data : Block}
    (hp : pinned s' = s.lh ∨ pinned s' = s.lh ++ [(s.cache.bc.buf i).blockno])
    (hs : pinned s = s.lh) (hd : s'.disk = s.disk) (hne : b ≠ (s.cache.bc.buf i).blockno) :
    content s' (update view (s.cache.bc.buf i).blockno data) b = content s view b := by
  unfold content
  rw [hs, hd, update_of_ne hne]
  rcases hp with hp | hp
  · rw [hp]
  · rw [hp]
    exact if_congr (by simp [hne]) rfl rfl

/-- **One step** keeps the contents in place. -/
lemma DataInv.step {e : Event P} (h : DataInv sb s view) (hp : PinInv sb s)
    (hw : ReadsHead sb s) (hd : LogsHome sb s e) (hs : s.step sb e = .ok s') :
    DataInv sb s' (viewAfter s view e) := by
  cases State.step_cases hs with
  | beginOp _ _ _ _ => exact h.congr rfl
  | bread hr hb => exact h.move hp (.bget hb)
  | acquire ha => exact h.move hp (.acquire ha)
  | fill hf => exact h.move hp (.fill hf)
  | brelse hr hb => exact h.move hp (.brelse hb)
  | unref hu => exact h.move hp (.unref hu)
  | @logNew p i data used hu hr hi _ hsize _ hno =>
    have hnone := hp.log.com_eq_none (p := p) (by rw [hu]; simp)
    have hpin := pinned_of_none hr.1 hnone
    have hdev := hp.shared.dev i (uses_pos_of_held hi)
    refine ⟨?_, fun b hb => ?_, ?_, fun q c e => ?_, fun q c e => ?_⟩
    · show (s.lh ++ [(s.cache.bc.buf i).blockno]).length ≤ sb.nlog - 1
      rw [length_append]
      exact Nat.le_sub_of_add_le hsize
    · rcases mem_append.mp hb with hb | hb
      · exact h.home b hb
      · cases mem_singleton.mp hb
        exact hd
    · have hpin' := pinned_of_none (s := { s with
        cache := { s.cache with bc := (s.stored i data).bpin i },
        lh := s.lh ++ [(s.cache.bc.buf i).blockno],
        op := update s.op p (some (used + 1)) }) hr.1 hnone
      refine Coherent.congr (h.coherent.store hp.shared.unique ⟨hdev, rfl⟩ ?_ fun b hne => ?_)
        fun j => bpin_view _ i j
      · exact (if_pos (by rw [hpin']; simp)).trans (update_self ..)
      · exact content_logWrite (Or.inr hpin') hpin rfl hne
    · exact absurd (hnone.symm.trans e) (by simp)
    · exact absurd (hnone.symm.trans e) (by simp)
  | @logAbsorb p i data used hu hr hi hin =>
    have hnone := hp.log.com_eq_none (p := p) (by rw [hu]; simp)
    have hpin := pinned_of_none hr.1 hnone
    have hdev := hp.shared.dev i (uses_pos_of_held hi)
    refine ⟨h.room, h.home, ?_, fun q c e => ?_, fun q c e => ?_⟩
    · refine h.coherent.store hp.shared.unique ⟨hdev, rfl⟩ ?_ fun b hne => ?_
      · refine (if_pos ?_).trans (update_self ..)
        show (s.cache.bc.buf i).blockno ∈ pinned s
        rwa [hpin]
      · exact content_logWrite (Or.inl hpin) hpin rfl hne
    · exact absurd (hnone.symm.trans e) (by simp)
    · exact absurd (hnone.symm.trans e) (by simp)
  | @endLast p hr hop _ _ =>
    have hpin := pinned_of_none hr.1 (hp.log.com_eq_none hop)
    refine ⟨h.room, h.home, h.coherent.cast (content_congr ?_ rfl), ?_, ?_⟩
    · exact (pinned_of_com (p := p) (c := .start) (by exact hr.1) rfl).trans hpin.symm
    · rintro q c ⟨rfl, rfl⟩ k hk
      exact absurd hk (Nat.not_lt_zero k)
    · rintro q c ⟨rfl, rfl⟩ k hk
      exact absurd hk (Nat.not_lt_zero k)
  | endOther _ _ _ _ => exact h.congr rfl
  | commit hcom hpend hpl hx => exact h.commit hp hw hcom hpend hpl hx
  | crash => exact dataInv_reboot _ _ _

/-! ### Runs without a crash -/

/-- The system comes up. -/
def ComesUp (s : State P) (e : Event P) : Prop :=
  e = .commit ∧ s.booting = true ∧ ∃ p, s.com = some (p, .finish)

lemma not_comesUp (hb : s.booting = false) (e : Event P) : ¬ ComesUp s e := by
  rintro ⟨-, hb', -⟩
  rw [hb] at hb'
  cases hb'

/-- Otherwise `commit` and `recover_from_log` change no more of the history than the number of
commits that have returned. -/
lemma Hist.step_commit (s : State P) (h : Hist P) (hn : ¬ ComesUp s .commit) : h.step s .commit = h ∨
      (h.step s .commit = { h with returned := h.txns.length } ∧ ((∃ p, s.com = some (p, .start) ∧ s.lh = []) ∨
          (s.booting = false ∧ ∃ p, s.com = some (p, .writeHeadRel true)))) := by
  simp only [Hist.step]
  split
  · rename_i p hcom
    by_cases hl : s.lh = []
    · rw [if_pos hl]
      exact Or.inr ⟨rfl, Or.inl ⟨p, hcom, hl⟩⟩
    · rw [if_neg hl]
      exact Or.inl rfl
  · rename_i p hcom
    rcases Bool.eq_false_or_eq_true s.booting with hb | hb
    · rw [if_pos hb]
      exact Or.inl rfl
    · rw [if_neg (by rw [hb]; decide)]
      exact Or.inr ⟨rfl, Or.inr ⟨hb, p, hcom⟩⟩
  · rename_i p hcom
    exact Or.inl (if_neg fun hb => hn ⟨rfl, hb, p, hcom⟩)
  · exact Or.inl rfl

/-- The history's view follows the `log_write`s. -/
lemma Hist.view_step (s : State P) (h : Hist P) (e : Event P) (hn : ¬ ComesUp s e) :
    (h.step s e).view = viewAfter s h.view e := by
  cases e with
  | logWrite p i data => exact h.view_concat _
  | endOp p =>
    show (if s.outstanding = 1 then _ else h : Hist P).view = h.view
    split
    · exact h.view_close
    · rfl
  | commit =>
    rcases h.step_commit s hn with e | ⟨e, -⟩
    · rw [e]; rfl
    · rw [e]; rfl
  | _ => rfl

lemma readsHead_of_up (h : LogInv s) (hup : s.booting = false) : ReadsHead sb s := by
  intro p b rest hcom _ _
  have : s.booting = true := h.mode p _ hcom
  rw [hup] at this
  cases this

lemma pinInv_of_reach (hP : Fintype.card P ≤ NPROC) {disk : Nat → Block}
    (h : Reach (step sb) (fun _ e => NoCrash e) (init disk) t) :
    PinInv sb t.st ∧ t.st.booting = false := by
  refine h.invariant (I := fun t => PinInv sb t.st ∧ t.st.booting = false) ⟨pinInv_init disk, rfl⟩ ?_
  rintro t e t' ⟨hp, hb⟩ hd hs
  have hst := (step_ok hs).1
  exact ⟨hp.step hP (readsWf_of_up hp.log hb) hst, booting_step hb hd hst⟩

lemma dataInv_of_reach (hP : Fintype.card P ≤ NPROC) {disk : Nat → Block}
    (h : Reach (step sb) (fun t e => NoCrash e ∧ LogsHome sb t.st e)
      (init disk) t) :
    DataInv sb t.st t.hist.view := by
  refine (h.invariant (I := fun t => (PinInv sb t.st ∧ t.st.booting = false) ∧ DataInv sb t.st t.hist.view)
    ⟨⟨pinInv_init disk, rfl⟩, dataInv_init disk _⟩ ?_).2
  rintro t e t' ⟨⟨hp, hb⟩, hi⟩ ⟨hd, hl⟩ hs
  obtain ⟨hst, hh⟩ := step_ok hs
  refine ⟨⟨hp.step hP (readsWf_of_up hp.log hb) hst, booting_step hb hd hst⟩, ?_⟩
  rw [hh, Hist.view_step t.st t.hist e (not_comesUp hb e)]
  exact hi.step hp (readsHead_of_up hp.log hb) hl hst

/-- Buffer `i`, and no other, holds block `b`; it is valid, and no `bget` recycles it. -/
structure KeptIn (c : Bcache P) (b : Nat) (i : Fin NBUF) : Prop where
  carries : Carries c ROOTDEV b i
  only : ∀ j, Carries c ROOTDEV b j → j = i
  valid : (c.buf i).valid = true
  refcnt : 1 ≤ (c.buf i).refcnt
  stays : ∀ b' bc j, c.bget ROOTDEV b' = some (bc, j) → Carries bc ROOTDEV b i ∧
    (bc.buf i).valid = true ∧ (bc.buf i).data = (c.buf i).data

lemma PinInv.keptIn (h : PinInv sb s) (hP : Fintype.card P ≤ NPROC)
    (hb : b ∈ pinned s) : ∃ i, KeptIn s.cache.bc b i := by
  obtain ⟨i, hi, hv⟩ := h.shared.kept b hb
  have hne := h.shared.refcnt_ne_zero_of_pinned hP hi hb
  refine ⟨i, hi, fun j hj => h.shared.unique ROOTDEV b j i (by decide) hj hi, hv,
    Nat.one_le_iff_ne_zero.mpr hne, fun b' bc j hg => ?_⟩
  obtain ⟨l, hl⟩ := h.shared.listed
  have hc := bget_cases hl ROOTDEV b'
  rw [hg] at hc
  have hview : (bc.buf i).view = (s.cache.bc.buf i).view := by
    cases hc with
    | hit _ _ => exact bpin_view _ _ i
    | recycled _ _ _ _ _ h0 _ =>
      have e : i ≠ j := by rintro rfl; exact hne h0
      unfold recycle
      rw [modify_buf_of_ne e]
  refine ⟨hi.congr (ident_of_view hview), ?_, ?_⟩
  · exact (congrArg Prod.fst hview).trans hv
  · exact congrArg (fun v => v.2.2.2) hview

/-- **Pinning keeps uncommitted data in the cache.**  In every state that any interleaving of
`bread`, `log_write`, `brelse` and the steps of `commit` by at most `NPROC` processes leads to:
every block logged and not yet installed is in exactly one buffer, which is valid and which no
`bget` recycles; every reference count is the number of the buffer's users, plus one if it holds
such a block, so that none is left raised when `commit` is done.  If operations log home blocks
only, that buffer has the data last passed to `log_write`, and so have the log blocks that
`write_log` has written. -/
theorem pinned_until_installed (hP : Fintype.card P ≤ NPROC) {disk : Nat → Block} {t : Recorded P}
    (h : Reach (step sb) (fun _ e => NoCrash e) (init disk) t) :
    (∀ b ∈ pinned t.st, ∃ i, KeptIn t.st.cache.bc b i) ∧ (∀ i, ((t.st.cache.bc.buf i).refcnt : ℤ) =
        t.st.cache.uses i + pins t.st.cache.bc (pinned t.st) i) ∧
      (∀ p, t.st.com = some (p, .finish) → ∀ i, (t.st.cache.bc.buf i).refcnt = t.st.cache.uses i) ∧
      (Reach (step sb) (fun t e => NoCrash e ∧ LogsHome sb t.st e) (init disk) t →
        (∀ b ∈ pinned t.st, ∀ i, KeptIn t.st.cache.bc b i → (t.st.cache.bc.buf i).data = t.hist.view b) ∧
        ∀ p c, t.st.com = some (p, c) → ∀ k < c.copied t.st.lh.length,
          t.st.disk (slot sb k) = t.hist.view (t.st.lh.getD k 0)) := by
  obtain ⟨hp, -⟩ := pinInv_of_reach hP h
  refine ⟨fun b hb => hp.keptIn hP hb, hp.shared.refcnt_eq hP, fun p hc i => ?_, fun hr => ?_⟩
  · have hlh : t.st.lh = [] := hp.ctl.range p _ hc
    have hpn : pins t.st.cache.bc (pinned t.st) i = 0 :=
      if_neg fun hb => not_mem_nil (hlh ▸ mem_lh_of_mem_pinned hb.2)
    have := hp.shared.refcnt_eq hP i
    omega
  · have hi := dataInv_of_reach hP hr
    refine ⟨fun b hb i hk => ?_, hi.copied⟩
    rw [hi.coherent i hk.valid hk.carries.1, hk.carries.2]
    exact if_pos hb

/-- A block that the first of two processes has logged and released stays in its buffer while the
second has an operation in progress. -/
theorem pinned_until_installed_logged : ∃ t : Recorded (Fin 2), 100 ∈ pinned t.st ∧
      ∃ i, KeptIn t.st.cache.bc 100 i ∧ (t.st.cache.bc.buf i).data = t.hist.view 100 := by
  have h : runTest (step ⟨2, LOGSIZE + 1⟩) (fun t e => NoCrash e ∧ LogsHome ⟨2, LOGSIZE + 1⟩ t.st e)
      (init fun _ _ => 0 : Recorded (Fin 2))
      ([.beginOp 0, .beginOp 1] ++ logBlock 0 100 ⟨0, by decide⟩ ++ [.endOp 0])
      (fun t => decide (100 ∈ pinned t.st)) = true := by
    decide +kernel
  obtain ⟨t, ht, hc⟩ := Reach.of_runTest h
  have hb := of_decide_eq_true hc
  obtain ⟨hk, -, -, hd⟩ := pinned_until_installed (by decide) (ht.mono fun _ _ he => he.1)
  obtain ⟨i, hi⟩ := hk 100 hb
  exact ⟨t, hb, i, hi, (hd ht).1 100 hb i hi⟩

end FypOs.Log
