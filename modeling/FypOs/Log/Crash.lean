import FypOs.Log.Data

/-!
# Log — crash atomicity

After a crash only the disk is left, and `recover_from_log` installs the blocks of the header it
finds.  `recovered` is what the home blocks will be once it is done.  A step of `commit` or of
`recover_from_log` changes `recovered` at one point only: where `write_head` writes the header of a
transaction that is complete in the log.  This is the commit point: before it the transaction is
lost in a crash, after it the transaction survives any number of crashes.

* `crash_atomicity` is the result about whole runs, with crashes anywhere; `recovery_idempotent` is about crashes while
  the system boots, and `log_is_array` about what is read while it is up.
-/

namespace FypOs.Log
open Lib Bio Function List Hist

set_option linter.unusedSectionVars false

variable {P : Type} [Fintype P] [DecidableEq P] {sb : Sb} {s s' : State P} {p : P} {h h' : Hist P}

/-- The header on a disk. -/
def diskHead (sb : Sb) (disk : Nat → Block) : List Nat := getHead (disk sb.logstart)

/-- The disk as `recover_from_log` will leave it, the log aside. -/
def recovered (sb : Sb) (disk : Nat → Block) : Nat → Block :=
  replay (diskHead sb disk) (fun k => disk (slot sb k)) disk

/-- Two disks have the same home blocks. -/
def HomeEq (sb : Sb) (d d' : Nat → Block) : Prop := ∀ b, Home sb b → d b = d' b

/-- Every block of the header is home. -/
def Settled (sb : Sb) (disk : Nat → Block) : Prop :=
  ∀ k b, (diskHead sb disk)[k]? = some b → disk b = disk (slot sb k)

/-- The header on the disk at a point of `commit` or `recover_from_log`. -/
def Ctl.Head (sb : Sb) (s : State P) : Ctl → Prop
  | .start | .writeLog _ | .writeLogFrom _ | .writeLogCopy _ | .writeLogRelFrom _
  | .writeLogRelTo _ | .writeHead false | .writeHeadPut false => diskHead sb s.disk = []
  | .writeHeadRel false | .install _ _ | .installDst _ _ | .installCopy _ _ | .installUnpin _ _
  | .installRelSrc _ _ | .installRelDst _ _ | .readHeadRel => diskHead sb s.disk = s.lh
  | .writeHead true | .writeHeadPut true => HeadOk sb (diskHead sb s.disk) ∧ Settled sb s.disk
  | .writeHeadRel true | .finish => diskHead sb s.disk = []
  | .readHead | .readHeadGet => HeadOk sb (diskHead sb s.disk)

/-- The header on the disk. -/
def Head (sb : Sb) (s : State P) : Prop :=
  match s.com with
  | none => diskHead sb s.disk = []
  | some (_, c) => c.Head sb s

/-- `commit` has not reached the commit point. -/
def Ctl.early : Ctl → Bool
  | .start | .writeLog _ | .writeLogFrom _ | .writeLogCopy _ | .writeLogRelFrom _
  | .writeLogRelTo _ | .writeHead false | .writeHeadPut false => true
  | _ => false

/-- The system is up and collects the writes of a transaction. -/
structure Collecting (sb : Sb) (s : State P) (h : Hist P) : Prop where
  returned : h.returned ≤ h.txns.length
  disk : HomeEq sb s.disk (h.after h.txns.length)
  logged : ∀ w ∈ h.cur, w.blockno ∈ s.lh

/-- The last transaction is being written to the log. -/
structure Closing (sb : Sb) (s : State P) (h : Hist P) : Prop where
  cur : h.cur = []
  txns : ∃ old last, h.txns = old ++ [last] ∧ h.returned ≤ old.length ∧
    HomeEq sb s.disk (h.after old.length) ∧ ∀ w ∈ last, w.blockno ∈ s.lh

/-- The last transaction is past the commit point. -/
structure Committed (sb : Sb) (s : State P) (h : Hist P) : Prop where
  cur : h.cur = []
  returned : h.returned ≤ h.txns.length
  disk : HomeEq sb (recovered sb s.disk) h.view

/-- What a recovery will find is what some transactions have left, among them all whose commit has
returned. -/
def Recoverable (sb : Sb) (disk : Nat → Block) (h : Hist P) : Prop :=
  ∃ k, h.returned ≤ k ∧ k ≤ h.txns.length ∧ HomeEq sb (recovered sb disk) (h.after k)

/-- Which transactions the disk has. -/
def Stage (sb : Sb) (s : State P) (h : Hist P) : Prop :=
  if s.booting then Recoverable sb s.disk h
  else
    match s.com with
    | none => Collecting sb s h
    | some (_, c) => if c.early then Closing sb s h else Committed sb s h

/-! ### Disks -/

lemma HomeEq.trans {d d' d'' : Nat → Block} (e : HomeEq sb d d') (e' : HomeEq sb d' d'') :
    HomeEq sb d d'' := fun b hb => (e b hb).trans (e' b hb)

variable {disk : Nat → Block} {b : Nat} {e : Event P} {c : Ctl}

lemma Home.ne_logstart (hb : Home sb b) : b ≠ sb.logstart := fun e => hb.2 (Or.inl e)

lemma Home.ne_slot {b k : Nat} (hb : Home sb b) (hk : k < sb.nlog - 1) : b ≠ slot sb k :=
  fun e => hb.2 (e ▸ inLog_slot hk)

lemma homeEq_update {data : Block} (hb : InLog sb b) : HomeEq sb (update disk b data) disk := by
  intro b' hb'
  have hne : b' ≠ b := fun e => hb'.2 (e ▸ hb)
  exact update_of_ne hne ..

lemma recovered_of_nil (hd : diskHead sb disk = []) : recovered sb disk = disk := by
  unfold recovered
  rw [hd, replay_nil]

lemma recovered_of_settled (hd : Settled sb disk) : recovered sb disk = disk :=
  replay_settled hd

/-- Installing a block does not change what will be recovered. -/
lemma recovered_install (data : Block) (hok : HeadOk sb (diskHead sb disk)) (hb : b ∈ diskHead sb disk) :
    diskHead sb (update disk b data) = diskHead sb disk ∧
      recovered sb (update disk b data) = recovered sb disk := by
  have hhome := hok.home b hb
  have hhead : diskHead sb (update disk b data) = diskHead sb disk := by
    unfold diskHead
    rw [update_of_ne hhome.ne_logstart.symm]
  refine ⟨hhead, ?_⟩
  unfold recovered
  rw [hhead, ← replay_update (fun k => disk (slot sb k)) (m := disk) hb data]
  funext a
  refine replay_congr (fun k hk => ?_) fun _ => rfl
  exact update_of_ne (hhome.ne_slot (lt_of_lt_of_le hk hok.room)).symm ..

lemma head_put {lh : List Nat} {b : Block} (hok : HeadOk sb lh) :
    diskHead sb (update disk sb.logstart (putHead lh b)) = lh := by
  unfold diskHead
  rw [update_self]
  refine getHead_putHead b (lt_of_le_of_lt hok.le (by decide)) fun x hx => (hok.home x hx).1

/-! ### Transactions -/

/-- A block that the last transaction does not write is as the others have left it. -/
lemma Closing.view_eq (hc : Closing sb s h) (hb : Home sb b) (hn : b ∉ s.lh) : h.view b = s.disk b := by
  obtain ⟨old, last, ht, -, hd, hl⟩ := hc.txns
  have hv : h.view = writeAll (h.after old.length) (last.map Write.entry) := by
    unfold Hist.view Hist.after
    rw [hc.cur, ht]
    simp [writeAll_append]
  rw [hv, writeAll_of_not_mem, hd b hb]
  intro w hw e
  obtain ⟨w', hw', rfl⟩ := mem_map.mp hw
  exact hn (e ▸ hl w' hw')

/-- **The commit point.**  With the transaction complete in the log and its header on the disk, all
of it will be recovered. -/
lemma Closing.committed (hc : Closing sb s h) (hd : DataInv sb s h.view) (hp : PinInv sb s)
    (hcom : s.com = some (p, .writeHeadPut false)) {b : Block} :
    HomeEq sb (recovered sb (update s.disk sb.logstart (putHead s.lh b))) h.view := by
  have hok : HeadOk sb s.lh := ⟨hp.log.nodup, hp.log.le, hd.room, hd.home⟩
  intro a ha
  unfold recovered
  rw [head_put hok]
  refine replay_writes (fun k x hx => ?_) fun hn => ?_
  · have hk : k < s.lh.length := (List.getElem?_eq_some_iff.mp hx).1
    rw [update_of_ne (slot_ne_logstart k), hd.copied p _ hcom k hk, getD_eq_getElem?_getD, hx]
    rfl
  · rw [update_of_ne ha.ne_logstart, hc.view_eq ha hn]

lemma Ctl.Head.nil_of_early (hh : c.Head sb s) (he : c.early = true) : diskHead sb s.disk = [] := by
  cases c with
  | writeHead e | writeHeadPut e =>
    cases e with
    | false => exact hh
    | true => cases he
  | start | writeLog | writeLogFrom | writeLogCopy | writeLogRelFrom | writeLogRelTo => exact hh
  | _ => cases he

lemma Ctl.Head.ok (hh : c.Head sb s) (hok : HeadOk sb s.lh) : HeadOk sb (diskHead sb s.disk) := by
  have hnil : diskHead sb s.disk = [] → HeadOk sb (diskHead sb s.disk) := fun e => e ▸ headOk_nil
  have hlh : diskHead sb s.disk = s.lh → HeadOk sb (diskHead sb s.disk) := fun e => e ▸ hok
  cases c with
  | writeHead e | writeHeadPut e =>
    cases e with
    | false => exact hnil hh
    | true => exact hh.1
  | writeHeadRel e =>
    cases e with
    | false => exact hlh hh
    | true => exact hnil hh
  | start | writeLog | writeLogFrom | writeLogCopy | writeLogRelFrom | writeLogRelTo
  | finish => exact hnil hh
  | readHead | readHeadGet => exact hh
  | _ => exact hlh hh

lemma Ctl.Head.congr (hh : c.Head sb s) (hd : s'.disk = s.disk) (hl : s'.lh = s.lh) : c.Head sb s' := by
  cases c with
  | writeHead e | writeHeadPut e | writeHeadRel e =>
    cases e <;> simpa only [Ctl.Head, hd, hl] using hh
  | _ => simpa only [Ctl.Head, hd, hl] using hh

/-- What holds of the disk: its header, and which transactions it has. -/
structure DiskInv (sb : Sb) (s : State P) (h : Hist P) : Prop where
  head : Head sb s
  stage : Stage sb s h

section Access

variable {c : Ctl}

lemma Head.at (hh : Head sb s) (hcom : s.com = some (p, c)) : c.Head sb s := by
  simpa only [Head, hcom] using hh

lemma Head.up (hh : Head sb s) (hcom : s.com = none) : diskHead sb s.disk = [] := by
  simpa only [Head, hcom] using hh

lemma Head.ok (hh : Head sb s) (hok : HeadOk sb s.lh) : HeadOk sb (diskHead sb s.disk) := by
  cases e : s.com with
  | none => rw [hh.up e]; exact headOk_nil
  | some pc => exact (hh.at (p := pc.1) (c := pc.2) e).ok hok

section

variable (hs : Stage sb s h)

include hs

lemma Stage.booting (hb : s.booting = true) : Recoverable sb s.disk h := by
  simpa only [Stage, hb, if_true] using hs

lemma Stage.collecting (hb : s.booting = false) (hcom : s.com = none) : Collecting sb s h := by
  simpa [Stage, hb, hcom] using hs

lemma Stage.closing (hb : s.booting = false) (hcom : s.com = some (p, c))
    (he : c.early = true) : Closing sb s h := by
  simpa [Stage, hb, hcom, he] using hs

lemma Stage.committed (hb : s.booting = false) (hcom : s.com = some (p, c))
    (he : c.early = false) : Committed sb s h := by
  simpa [Stage, hb, hcom, he] using hs

end

lemma stage_booting (hb : s.booting = true) (hs : Recoverable sb s.disk h) : Stage sb s h := by
  simpa only [Stage, hb, if_true] using hs

lemma stage_collecting (hb : s.booting = false) (hcom : s.com = none) (hs : Collecting sb s h) :
    Stage sb s h := by
  simpa [Stage, hb, hcom] using hs

lemma stage_closing (hb : s.booting = false) (hcom : s.com = some (p, c)) (he : c.early = true)
    (hs : Closing sb s h) : Stage sb s h := by
  simpa [Stage, hb, hcom, he] using hs

lemma stage_committed (hb : s.booting = false) (hcom : s.com = some (p, c))
    (he : c.early = false) (hs : Committed sb s h) : Stage sb s h := by
  simpa [Stage, hb, hcom, he] using hs

end Access

/-- **Whatever the system is doing, it can be recovered.** -/
lemma DiskInv.recoverable (hi : DiskInv sb s h) : Recoverable sb s.disk h := by
  cases hb : s.booting with
  | true => exact hi.stage.booting hb
  | false =>
    cases hcom : s.com with
    | none =>
      have hs := hi.stage.collecting hb hcom
      refine ⟨_, hs.returned, le_rfl, ?_⟩
      rw [recovered_of_nil (hi.head.up hcom)]
      exact hs.disk
    | some pc =>
      obtain ⟨q, c⟩ := pc
      cases he : c.early with
      | true =>
        obtain ⟨old, last, ht, hr, hd, -⟩ := (hi.stage.closing hb hcom he).txns
        refine ⟨old.length, hr, by simp [ht], ?_⟩
        rw [recovered_of_nil ((hi.head.at hcom).nil_of_early he)]
        exact hd
      | false =>
        have hs := hi.stage.committed hb hcom he
        refine ⟨_, hs.returned, le_rfl, ?_⟩
        rw [h.after_length hs.cur]
        exact hs.disk

/-- The invariant does not depend on the cache and the operations in progress. -/
lemma DiskInv.congr (hi : DiskInv sb s h)
    (e : (s'.disk, s'.lh, s'.com, s'.booting) = (s.disk, s.lh, s.com, s.booting))
    (eh : (h'.base, h'.txns, h'.cur, h'.returned) = (h.base, h.txns, h.cur, h.returned)) :
    DiskInv sb s' h' := by
  simp only [Prod.mk.injEq] at e eh
  obtain ⟨e1, e2, e3, e4⟩ := e
  obtain ⟨f1, f2, f3, f4⟩ := eh
  have hafter : ∀ k, h'.after k = h.after k := fun k => by unfold Hist.after; rw [f1, f2]
  have hview : h'.view = h.view := by unfold view; rw [f1, f2, f3]
  cases hb : s.booting with
  | true =>
    obtain ⟨k, hk, hk', hd⟩ := hi.stage.booting hb
    refine ⟨?_, stage_booting (e4.trans hb) ⟨k, f4 ▸ hk, f2 ▸ hk', ?_⟩⟩
    · unfold Head
      rw [e3]
      cases hc : s.com with
      | none => rw [e1]; exact hi.head.up hc
      | some pc => exact (hi.head.at (p := pc.1) (c := pc.2) hc).congr e1 e2
    · rw [e1, hafter]; exact hd
  | false =>
    cases hc : s.com with
    | none =>
      have hs := hi.stage.collecting hb hc
      refine ⟨?_, stage_collecting (e4.trans hb) (e3.trans hc) ⟨by rw [f4, f2]; exact hs.returned,
        by rw [e1, f2, hafter]; exact hs.disk, by rw [f3, e2]; exact hs.logged⟩⟩
      unfold Head
      rw [e3, hc, e1]
      exact hi.head.up hc
    | some pc =>
      obtain ⟨q, c⟩ := pc
      have hhead : Head sb s' := by
        unfold Head
        rw [e3, hc]
        exact (hi.head.at hc).congr e1 e2
      cases he : c.early with
      | true =>
        have hs := hi.stage.closing hb hc he
        obtain ⟨old, last, ht, hr, hd, hl⟩ := hs.txns
        exact ⟨hhead, stage_closing (e4.trans hb) (e3.trans hc) he ⟨f3.trans hs.cur, old, last,
          f2.trans ht, f4 ▸ hr, by rw [e1, hafter]; exact hd, by rw [e2]; exact hl⟩⟩
      | false =>
        have hs := hi.stage.committed hb hc he
        exact ⟨hhead, stage_committed (e4.trans hb) (e3.trans hc) he ⟨f3.trans hs.cur,
          by rw [f4, f2]; exact hs.returned, by rw [e1, hview]; exact hs.disk⟩⟩

/-! ### One step of `commit` or `recover_from_log` -/

section Plan

open Log.State

variable {held : List (Fin NBUF)} {c c' : Ctl} {a : Act} {s₁ : State P} {t : Nat} {r : Bool}

/-- A step that touches neither the disk nor `log.lh` keeps the header. -/
lemma head_plan (hpl : PlanCase sb s held c a (some c')) (hw : ∀ i d, a ≠ .bwrite i d)
    (hl : ∀ lh, a ≠ .setHead lh) (hh : c.Head sb s) : c'.Head sb s := by
  cases hpl with
  | @headRead e => cases e <;> exact hh
  | logCopy | headPut | insCopy => exact absurd rfl (hw _ _)
  | insEnd | rdGet => exact absurd rfl (hl _)
  | _ => exact hh

/-- It does not pass the commit point, unless there is nothing to commit. -/
lemma early_plan (hpl : PlanCase sb s held c a (some c')) (hw : ∀ i d, a ≠ .bwrite i d) :
    c'.early = c.early ∨ (c.early = true ∧ c'.early = false ∧ s.lh = []) := by
  cases hpl with
  | startEmpty h => exact Or.inr ⟨rfl, rfl, h⟩
  | @headRead e => cases e <;> exact Or.inl rfl
  | logCopy | headPut | insCopy => exact absurd rfl (hw _ _)
  | _ => exact Or.inl rfl

lemma Closing.committed_of_nil (hc : Closing sb s h) (hlh : s.lh = [])
    (hd : diskHead sb s.disk = []) : Committed sb s h where
  cur := hc.cur
  returned := by
    obtain ⟨old, last, ht, hr, -⟩ := hc.txns
    rw [ht, length_append]
    exact Nat.le_add_right_of_le hr
  disk b hb := by
    rw [recovered_of_nil hd]
    exact (hc.view_eq hb (by simp [hlh])).symm

section

variable (hi : DiskInv sb s h)

include hi

/-- The step leads to a state that has the disk and the header of `s`. -/
lemma DiskInv.commit_quiet (hcom : s.com = some (p, c))
    (hpl : PlanCase sb s held c a (some c')) (hw : ∀ i d, a ≠ .bwrite i d) (hl : ∀ lh, a ≠ .setHead lh)
    (e : (s₁.disk, s₁.lh, s₁.booting) = (s.disk, s.lh, s.booting)) :
    DiskInv sb { s₁ with com := some (p, c') } h := by
  -- first with the point alone changed, then with the rest of `s₁`
  suffices key : DiskInv sb { s with com := some (p, c') } h by
    refine key.congr ?_ rfl
    simp only [Prod.mk.injEq] at e
    dsimp only
    rw [e.1, e.2.1, e.2.2]
  have hh := hi.head.at hcom
  refine ⟨(head_plan hpl hw hl hh).congr rfl rfl, ?_⟩
  rcases Bool.eq_false_or_eq_true s.booting with hb | hb
  · exact stage_booting hb (hi.stage.booting hb)
  · rcases early_plan hpl hw with he | ⟨he, he', hlh⟩
    · rcases Bool.eq_false_or_eq_true c.early with he' | he'
      · have hs := hi.stage.closing hb hcom he'
        exact stage_closing hb rfl (he.trans he') ⟨hs.cur, hs.txns⟩
      · have hs := hi.stage.committed hb hcom he'
        exact stage_committed hb rfl (he.trans he') ⟨hs.cur, hs.returned, hs.disk⟩
    · have hs := (hi.stage.closing hb hcom he).committed_of_nil hlh (hh.nil_of_early he)
      exact stage_committed hb rfl he' ⟨hs.cur, hs.returned, hs.disk⟩

/-- A step past the commit point, or of `recover_from_log`, that changes the disk or the header but
not what will be recovered. -/
lemma DiskInv.commit_late (hcom : s.com = some (p, c))
    (he : c.early = false) (he' : c'.early = false) (hb : s₁.booting = s.booting)
    (hrec : HomeEq sb (recovered sb s₁.disk) (recovered sb s.disk)) (hh : c'.Head sb s₁) :
    DiskInv sb { s₁ with com := some (p, c') } h := by
  refine ⟨hh.congr rfl rfl, ?_⟩
  cases hbt : s.booting with
  | true =>
    obtain ⟨k, h1, h2, hd⟩ := hi.stage.booting hbt
    exact stage_booting (hb.trans hbt) ⟨k, h1, h2, hrec.trans hd⟩
  | false =>
    have hs := hi.stage.committed hbt hcom he
    exact stage_committed (hb.trans hbt) rfl he' ⟨hs.cur, hs.returned, hrec.trans hs.disk⟩

section

variable (hp : PinInv sb s)

include hp

lemma DiskInv.commit_logCopy (hd : DataInv sb s h.view) {data : Block} (hcom : s.com = some (p, .writeLogCopy t))
    (e : (s₁.disk, s₁.lh, s₁.booting) = (update s.disk (slot sb t) data, s.lh, s.booting)) :
    DiskInv sb { s₁ with com := some (p, .writeLogRelFrom t) } h := by
  simp only [Prod.mk.injEq] at e
  obtain ⟨e1, e2, e3⟩ := e
  have hb : s.booting = false := hp.log.mode p _ hcom
  have hlt : t < s.lh.length := hp.ctl.range p _ hcom
  have hs := hi.stage.closing hb hcom rfl
  obtain ⟨old, last, ht, hr, hdisk, hl⟩ := hs.txns
  have hh : diskHead sb s.disk = [] := hi.head.at hcom
  refine ⟨?_, stage_closing (e3.trans hb) rfl rfl ⟨hs.cur, old, last, ht, hr, ?_, ?_⟩⟩
  · show getHead (s₁.disk sb.logstart) = []
    rw [e1, update_of_ne (slot_ne_logstart t).symm]
    exact hh
  · show HomeEq sb s₁.disk _
    rw [e1]
    exact (homeEq_update (inLog_slot (lt_of_lt_of_le hlt hd.room))).trans hdisk
  · show ∀ w ∈ last, w.blockno ∈ s₁.lh
    rw [e2]
    exact hl

/-- The commit point, and the erasure of the header. -/
lemma DiskInv.commit_headPut (hd : DataInv sb s h.view)
    {e : Bool} {data : Block} (hcom : s.com = some (p, .writeHeadPut e))
    (eq : (s₁.disk, s₁.lh, s₁.booting) = (update s.disk sb.logstart (putHead s.lh data), s.lh, s.booting)) :
    DiskInv sb { s₁ with com := some (p, .writeHeadRel e) } h := by
  simp only [Prod.mk.injEq] at eq
  obtain ⟨e1, e2, e3⟩ := eq
  have hok : HeadOk sb s.lh := ⟨hp.log.nodup, hp.log.le, hd.room, hd.home⟩
  have hput : diskHead sb s₁.disk = s.lh := by rw [e1]; exact head_put hok
  cases e with
  | false =>
    have hb : s.booting = false := hp.log.mode p _ hcom
    have hs := hi.stage.closing hb hcom rfl
    obtain ⟨old, last, ht, hr, -⟩ := hs.txns
    have hle : h.returned ≤ h.txns.length := by
      rw [ht, length_append]
      exact Nat.le_add_right_of_le hr
    refine ⟨?_, stage_committed (e3.trans hb) rfl rfl ⟨hs.cur, hle, ?_⟩⟩
    · exact hput.trans e2.symm
    · show HomeEq sb (recovered sb s₁.disk) h.view
      rw [e1]
      exact hs.committed hd hp hcom
  | true =>
    have hlh : s.lh = [] := hp.ctl.range p _ hcom
    rw [hlh] at hput
    refine hi.commit_late hcom rfl rfl e3 ?_ hput
    rw [recovered_of_nil hput, recovered_of_settled (hi.head.at hcom).2, e1]
    exact homeEq_update (Or.inl rfl)

lemma DiskInv.commit_insCopy (hd : DataInv sb s h.view) {data : Block} (hcom : s.com = some (p, .installCopy r t))
    (e : (s₁.disk, s₁.lh, s₁.booting) = (update s.disk (s.lh.getD t 0) data, s.lh, s.booting)) :
    DiskInv sb { s₁ with com := some (p, .installUnpin r t) } h := by
  simp only [Prod.mk.injEq] at e
  obtain ⟨e1, e2, e3⟩ := e
  have hok : HeadOk sb s.lh := ⟨hp.log.nodup, hp.log.le, hd.room, hd.home⟩
  have hh : diskHead sb s.disk = s.lh := hi.head.at hcom
  have hmem : s.lh.getD t 0 ∈ diskHead sb s.disk := by
    rw [hh]
    exact getD_mem (hp.ctl.range p _ hcom)
  obtain ⟨hhead, hrec⟩ := recovered_install data (hh ▸ hok) hmem
  refine hi.commit_late hcom rfl rfl e3 ?_ ?_
  · rw [e1, hrec]
    exact fun _ _ => rfl
  · show diskHead sb s₁.disk = s₁.lh
    rw [e1, e2, hhead, hh]

lemma DiskInv.commit_insEnd (hd : DataInv sb s h.view) (hcom : s.com = some (p, .install r t)) (hlen : s.lh.length ≤ t) :
    DiskInv sb { s with lh := [], com := some (p, .writeHead true) } h := by
  have hok : HeadOk sb s.lh := ⟨hp.log.nodup, hp.log.le, hd.room, hd.home⟩
  have hh : diskHead sb s.disk = s.lh := hi.head.at hcom
  have hb : ({ s with lh := [] } : State P).booting = s.booting := rfl
  refine hi.commit_late hcom rfl rfl hb (fun _ _ => rfl) ⟨hh ▸ hok, fun k b hb => ?_⟩
  dsimp only at hb ⊢
  rw [hh] at hb
  have hk : k < s.lh.length := (List.getElem?_eq_some_iff.mp hb).1
  have := hd.installed p _ hcom k (lt_of_lt_of_le hk hlen)
  rwa [getD_eq_getElem?_getD, hb] at this

end

end

/-- `read_head` finds the header of the disk in the buffer. -/
lemma DataInv.readHead (hd : DataInv sb s h.view) (hp : PinInv sb s)
    (hcom : s.com = some (p, .readHeadGet)) (hpend : (s.cache.thr p).pend = .idle) {b : Fin NBUF}
    {rest : List (Fin NBUF)} (hheld : (s.cache.thr p).held = b :: rest) :
    getHead (s.cache.bc.buf b).data = diskHead sb s.disk := by
  obtain ⟨hb, -⟩ := carries_head hp hcom hpend hheld rfl
  rw [hd.data_of_held hp (p := p) (by rw [hheld]; exact mem_cons_self) hb]
  unfold content
  rw [pinned_of_booting (hp.log.mode p _ hcom), if_neg not_mem_nil]
  rfl

section

variable (hi : DiskInv sb s h)

include hi

lemma DiskInv.commit_finish (hp : PinInv sb s) (hcom : s.com = some (p, .finish)) :
    DiskInv sb { s with committing := false, booting := false, com := none } (h.step s .commit) := by
  have hh : diskHead sb s.disk = [] := hi.head.at hcom
  have hlh : s.lh = [] := hp.ctl.range p _ hcom
  refine ⟨hh, stage_collecting rfl rfl ?_⟩
  rcases Bool.eq_false_or_eq_true s.booting with hb | hb
  · have hstep : h.step s .commit = { h with base := s.disk, txns := [], cur := [], returned := 0 } := by
      simp only [Hist.step, hcom, hb, if_true]
    rw [hstep]
    exact ⟨le_rfl, fun _ _ => rfl, fun w hw => absurd hw not_mem_nil⟩
  · have hstep : h.step s .commit = h := by
      simp only [Hist.step, hcom, hb]
      rfl
    have hs := hi.stage.committed hb hcom rfl
    have hdisk : HomeEq sb s.disk (h.after h.txns.length) := by
      have := hs.disk
      rwa [recovered_of_nil hh, ← h.after_length hs.cur] at this
    rw [hstep]
    exact ⟨hs.returned, hdisk, fun w hw => absurd (hs.cur ▸ hw) not_mem_nil⟩

lemma DiskInv.of_returned (hb : s.booting = false) (hcom : s.com = some (p, .finish)) :
    DiskInv sb s { h with returned := h.txns.length } := by
  have hs := hi.stage.committed hb hcom rfl
  exact ⟨hi.head, stage_committed hb hcom rfl ⟨hs.cur, le_rfl, hs.disk⟩⟩

variable (hp : PinInv sb s) (hd : DataInv sb s h.view) (hcom : s.com = some (p, c))
  (hpend : (s.cache.thr p).pend = .idle)

include hp hd hcom hpend

lemma DiskInv.commit_bwrite {i : Fin NBUF} {data : Block}
    (hpl : PlanCase sb s (s.cache.thr p).held c (.bwrite i data) (some c'))
    (e : (s₁.disk, s₁.lh, s₁.booting) = (update s.disk (s.cache.bc.buf i).blockno data, s.lh, s.booting)) :
    DiskInv sb { s₁ with com := some (p, c') } h := by
  cases hpl with
  | logCopy hheld =>
    rw [(hd.commit_logCopy hp hcom hpend hheld).1] at e
    exact hi.commit_logCopy hp hd hcom e
  | headPut hheld =>
    rw [(hd.commit_headPut hp (fun _ => 0) hcom hpend hheld).1] at e
    exact hi.commit_headPut hp hd hcom e
  | insCopy hheld =>
    rw [(hd.commit_insCopy hp hcom hpend hheld).1] at e
    exact hi.commit_insCopy hp hd hcom e

lemma DiskInv.commit_next (hpl : PlanCase sb s (s.cache.thr p).held c a (some c')) (hx : ExecCase s p a s₁) :
    DiskInv sb { s₁ with com := some (p, c') } h := by
  cases hx with
  | goto | bread _ | brelse _ | bunpin => exact hi.commit_quiet hcom hpl (by simp) (by simp) rfl
  | bwrite _ => exact hi.commit_bwrite hp hd hcom hpend hpl rfl
  | setHead =>
    cases hpl with
    | insEnd hlen => exact hi.commit_insEnd hp hd hcom hlen
    | rdGet hheld =>
      refine hi.commit_late hcom rfl rfl rfl (fun _ _ => rfl) ?_
      exact (hd.readHead hp hcom hpend hheld).symm
  | finish => cases hpl

lemma DiskInv.commit {c' : Option Ctl} (hpl : PlanCase sb s (s.cache.thr p).held c a c') (hx : ExecCase s p a s₁) :
    DiskInv sb { s₁ with com := c'.map (p, ·) } (h.step s .commit) := by
  rcases hpl.next with ⟨rfl, rfl⟩ | ⟨hne, c'', rfl⟩
  · cases hx
    cases hpl
    exact hi.commit_finish hp hcom
  · have key := hi.commit_next hp hd hcom hpend hpl hx
    have hn : ¬ ComesUp s .commit := by
      rintro ⟨-, -, q, hq⟩
      rw [hcom] at hq
      cases hq
      cases hpl
    rcases h.step_commit s hn with e | ⟨e, hret⟩
    · rw [e]
      exact key
    · -- the step leads out of `commit`
      rw [e]
      rcases hret with ⟨q, hq, hlh⟩ | ⟨hb, q, hq⟩
      · rw [hcom] at hq
        cases hq
        have hb : s.booting = false := hp.log.mode p _ hcom
        cases hpl with
        | startFull h0 => exact absurd h0 (by simp [hlh])
        | startEmpty _ => cases hx; exact key.of_returned hb rfl
      · rw [hcom] at hq
        cases hq
        cases hpl
        cases hx
        exact key.of_returned hb rfl

end

end Plan

/-! ### One step -/

/-- The header that `read_head` takes over is a possible one. -/
lemma DiskInv.readsHead (hi : DiskInv sb s h) (hp : PinInv sb s) (hd : DataInv sb s h.view) :
    ReadsHead sb s := by
  intro p b rest hcom hpend hheld
  rw [hd.readHead hp hcom hpend hheld]
  exact hi.head.at hcom

/-- **One step** changes what will be recovered at the commit point only. -/
lemma DiskInv.step (hi : DiskInv sb s h) (hp : PinInv sb s)
    (hd : DataInv sb s h.view) (hs : s.step sb e = .ok s') : DiskInv sb s' (h.step s e) := by
  cases State.step_cases hs with
  | beginOp _ _ _ _ | bread _ _ | acquire _ | fill _ | brelse _ _ | unref _ => exact hi.congr rfl rfl
  | @logNew p i data used hu hr hi' _ _ _ _ =>
    have hnone := hp.log.com_eq_none (p := p) (by rw [hu]; simp)
    have hc := hi.stage.collecting hr.1 hnone
    refine ⟨?_, stage_collecting (by exact hr.1) (by exact hnone) ⟨hc.returned, hc.disk, ?_⟩⟩
    · simpa only [Head, hnone] using hi.head.up hnone
    · intro w hw
      rcases mem_append.mp hw with hw | hw
      · exact mem_append_left _ (hc.logged w hw)
      · cases mem_singleton.mp hw
        exact mem_append_right _ (mem_singleton_self _)
  | @logAbsorb p i data used hu hr hi' hin =>
    have hnone := hp.log.com_eq_none (p := p) (by rw [hu]; simp)
    have hc := hi.stage.collecting hr.1 hnone
    refine ⟨?_, stage_collecting (by exact hr.1) (by exact hnone) ⟨hc.returned, hc.disk, ?_⟩⟩
    · simpa only [Head, hnone] using hi.head.up hnone
    · intro w hw
      rcases mem_append.mp hw with hw | hw
      · exact hc.logged w hw
      · cases mem_singleton.mp hw
        exact hin
  | @endLast p hr hop _ hone =>
    have hnone := hp.log.com_eq_none hop
    have hc := hi.stage.collecting hr.1 hnone
    have hstep : h.step s (.endOp p) = { h with txns := h.txns ++ [h.cur], cur := [] } :=
      if_pos hone
    have hafter : after { h with txns := h.txns ++ [h.cur], cur := [] } h.txns.length =
        h.after h.txns.length := by
      unfold Hist.after
      simp
    rw [hstep]
    refine ⟨hi.head.up hnone, stage_closing (p := p) (c := .start) (by exact hr.1) rfl rfl
      ⟨rfl, h.txns, h.cur, rfl, hc.returned, ?_, hc.logged⟩⟩
    rw [hafter]
    exact hc.disk
  | endOther _ _ _ hone =>
    rw [show h.step s (.endOp _) = h from if_neg hone]
    exact hi.congr rfl rfl
  | commit hcom hpend hpl hx => exact hi.commit hp hd hcom hpend hpl hx
  | crash =>
    have hok : HeadOk sb s.lh := ⟨hp.log.nodup, hp.log.le, hd.room, hd.home⟩
    exact ⟨hi.head.ok hok, stage_booting rfl hi.recoverable⟩

/-! ### Operations and transactions -/

/-- Each FS operation's writes are in one transaction. -/
structure OpsApart (s : State P) (h : Hist P) : Prop where
  apart : (h.txns ++ [h.cur]).Pairwise fun t t' => ∀ w ∈ t, ∀ w' ∈ t', w.op ≠ w'.op
  old : ∀ t ∈ h.txns ++ [h.cur], ∀ w ∈ t, w.op < h.next
  /-- An operation in progress has not written in an earlier transaction. -/
  new : ∀ p, s.op p ≠ none → h.opid p < h.next ∧ ∀ t ∈ h.txns, ∀ w ∈ t, w.op ≠ h.opid p

lemma opsApart_start (hs : ∀ p, s.op p = none) (disk : Nat → Block) : OpsApart s (start disk) where
  apart := pairwise_singleton _ _
  old t ht w hw := by
    cases mem_singleton.mp ht
    exact absurd hw not_mem_nil
  new p hp := absurd (hs p) hp

lemma OpsApart.logWrite (ho : OpsApart s h) (hop : s.op p ≠ none) {data : Block}
    (hs : ∀ q, s'.op q ≠ none → s.op q ≠ none) :
    OpsApart s' { h with cur := h.cur ++ [⟨h.opid p, b, data⟩] } := by
  obtain ⟨hlt, hnew⟩ := ho.new p hop
  have hp := pairwise_append.mp ho.apart
  refine ⟨pairwise_append.mpr ⟨hp.1, pairwise_singleton _ _, ?_⟩, ?_, ?_⟩
  · intro t ht t' ht' w hw w' hw'
    cases mem_singleton.mp ht'
    rcases mem_append.mp hw' with hw' | hw'
    · exact hp.2.2 t ht h.cur (mem_singleton_self _) w hw w' hw'
    · cases mem_singleton.mp hw'
      exact hnew t ht w hw
  · intro t ht w hw
    rcases mem_append.mp ht with ht | ht
    · exact ho.old t (mem_append_left _ ht) w hw
    · cases mem_singleton.mp ht
      rcases mem_append.mp hw with hw | hw
      · exact ho.old h.cur (mem_append_right _ (mem_singleton_self _)) w hw
      · cases mem_singleton.mp hw
        exact hlt
  · exact fun q hq => ho.new q (hs q hq)

lemma OpsApart.step (ho : OpsApart s h) (hp : PinInv sb s)
    (hs : s.step sb e = .ok s') : OpsApart s' (h.step s e) := by
  cases State.step_cases hs with
  | @beginOp p _ _ _ _ =>
    refine ⟨ho.apart, fun t ht w hw => Nat.lt_succ_of_lt (ho.old t ht w hw), fun q hq => ?_⟩
    by_cases e : q = p
    · subst e
      dsimp only [step]
      rw [update_self]
      exact ⟨Nat.lt_succ_self _, fun t ht w hw =>
        Nat.ne_of_lt (ho.old t (mem_append_left _ ht) w hw)⟩
    · dsimp only [step] at hq ⊢
      rw [update_of_ne e] at hq ⊢
      exact ⟨Nat.lt_succ_of_lt (ho.new q hq).1, (ho.new q hq).2⟩
  | bread _ _ | acquire _ | fill _ | brelse _ _ | unref _ => exact ⟨ho.apart, ho.old, ho.new⟩
  | @logNew p i data used hu _ _ _ _ _ _ =>
    have hop : s.op p ≠ none := by rw [hu]; simp
    refine ho.logWrite hop fun q hq => ?_
    by_cases e : q = p
    · exact e ▸ hop
    · dsimp only at hq
      rwa [update_of_ne e] at hq
  | @logAbsorb p i data used hu _ _ _ =>
    exact ho.logWrite (by rw [hu]; simp) fun q hq => hq
  | @endLast p hr hop hc hone =>
    have hquiet := hp.log.last_op hop hone
    rw [show h.step s (.endOp p) = { h with txns := h.txns ++ [h.cur], cur := [] } from if_pos hone]
    refine ⟨?_, ?_, fun q hq => absurd (hquiet q) hq⟩
    · refine pairwise_append.mpr ⟨ho.apart, pairwise_singleton _ _, ?_⟩
      intro t _ t' ht' w _ w' hw'
      cases mem_singleton.mp ht'
      exact absurd hw' not_mem_nil
    · intro t ht w hw
      rcases mem_append.mp ht with ht | ht
      · exact ho.old t ht w hw
      · cases mem_singleton.mp ht
        exact absurd hw not_mem_nil
  | @endOther p _ _ _ hone =>
    rw [show h.step s (.endOp p) = h from if_neg hone]
    refine ⟨ho.apart, ho.old, fun q hq => ho.new q ?_⟩
    by_cases e : q = p
    · subst e
      simp at hq
    · dsimp only at hq
      rwa [update_of_ne e] at hq
  | @commit p c a c' s₁ hcom _ _ hx =>
    have hquiet : ∀ q, s₁.op q = none := by
      have := hp.log.quiet (by rw [hcom]; rfl)
      cases hx <;> exact this
    have key : OpsApart s (h.step s .commit) := by
      by_cases hn : ComesUp s .commit
      · obtain ⟨-, hb, q, hq⟩ := hn
        simp only [step, hq, hb, if_true]
        have := opsApart_start (s := s) (hp.log.quiet (by rw [hcom]; rfl)) s.disk
        exact ⟨this.apart, fun t ht w hw => absurd (this.old t ht w hw) (Nat.not_lt_zero _),
          fun q hq => absurd (hp.log.quiet (by rw [hcom]; rfl) q) hq⟩
      · rcases h.step_commit s hn with e | ⟨e, -⟩
        · rw [e]; exact ho
        · rw [e]; exact ⟨ho.apart, ho.old, ho.new⟩
    exact ⟨key.apart, key.old, fun q hq => absurd (hquiet q) hq⟩
  | crash => exact ⟨ho.apart, ho.old, fun q hq => absurd rfl hq⟩

/-- The writes of an operation are all among the first `k` transactions, or none is. -/
lemma OpsApart.all_or_none (ho : OpsApart s h) (k op : Nat) :
    (∀ w ∈ (h.txns.drop k).flatten ++ h.cur, w.op ≠ op) ∨ ∀ w ∈ (h.txns.take k).flatten, w.op ≠ op := by
  by_contra hno
  simp only [not_or, not_forall, not_not] at hno
  obtain ⟨⟨w', hw', rfl⟩, w, hw, e⟩ := hno
  obtain ⟨t, ht, hwt⟩ := mem_flatten.mp hw
  have hap := ho.apart
  rw [← take_append_drop k h.txns, append_assoc] at hap
  have hcross := (pairwise_append.mp hap).2.2 t ht
  rcases mem_append.mp hw' with hw' | hw'
  · obtain ⟨t', ht', hwt'⟩ := mem_flatten.mp hw'
    exact hcross t' (mem_append_left _ ht') w hwt w' hwt' e
  · exact hcross h.cur (mem_append_right _ (mem_singleton_self _)) w hwt w' hw' e

/-! ### Runs with crashes -/

/-- What holds in every run, crashes included. -/
structure CrashInv (sb : Sb) (t : Recorded P) : Prop where
  pin : PinInv sb t.st
  data : DataInv sb t.st t.hist.view
  disk : DiskInv sb t.st t.hist
  ops : OpsApart t.st t.hist

/-- The system boots from a disk, with what its log holds. -/
def Recorded.boot (sb : Sb) (disk : Nat → Block) (p : P) : Recorded P :=
  ⟨.reboot disk p, .start (recovered sb disk)⟩

lemma recoverable_boot (disk : Nat → Block) :
    Recoverable sb disk (start (recovered sb disk) : Hist P) := by
  refine ⟨0, le_rfl, le_rfl, ?_⟩
  rw [after_start]
  exact fun _ _ => rfl

lemma crashInv_boot (hok : HeadOk sb (diskHead sb disk)) (p : P) : CrashInv sb (Recorded.boot sb disk p) where
  pin := pinInv_reboot disk p
  data := dataInv_reboot disk p _
  disk := ⟨hok, stage_booting rfl (recoverable_boot disk)⟩
  ops := opsApart_start (fun _ => rfl) _

lemma CrashInv.step {t t' : Recorded P} (hi : CrashInv sb t)
    (hP : Fintype.card P ≤ NPROC) (hl : LogsHome sb t.st e) (hs : t.step sb e = .ok t') :
    CrashInv sb t' := by
  obtain ⟨st', hist'⟩ := t'
  obtain ⟨hst, hh⟩ := Recorded.step_ok hs
  dsimp only at hst hh
  have hw := hi.disk.readsHead hi.pin hi.data
  have hp := hi.pin.step hP hw.wf hst
  have hd := hi.data.step hi.pin hw hl hst
  refine ⟨hp, ?_, hh ▸ hi.disk.step hi.pin hi.data hst, hh ▸ hi.ops.step hi.pin hst⟩
  by_cases hn : ComesUp t.st e
  · -- nothing is pinned when the system comes up, so any view will do
    obtain ⟨rfl, hb, q, hq⟩ := hn
    have hlh : t.st.lh = [] := hi.pin.ctl.range q _ hq
    cases State.step_cases hst with
    | commit hcom _ hpl hx =>
      rw [hq] at hcom
      cases hcom
      cases hpl
      cases hx
      exact hd.of_idle ((pinned_of_none rfl rfl).trans hlh) rfl _
  · rw [hh, t.hist.view_step t.st e hn]
    exact hd

lemma crashInv_of_reach (hP : Fintype.card P ≤ NPROC) {p0 : P}
    (hok : HeadOk sb (diskHead sb disk)) {t : Recorded P}
    (h : Reach (Recorded.step sb) (fun t e => LogsHome sb t.st e) (Recorded.boot sb disk p0) t) :
    CrashInv sb t :=
  h.invariant (I := CrashInv sb) (crashInv_boot hok p0) fun hi hl hs => hi.step hP hl hs

/-- **Crash atomicity.**  The system boots, runs FS operations in any interleaving, commits, and
crashes between any two steps, any number of times, also in `recover_from_log`.  Whenever
`recover_from_log` is done, the home blocks are as the first `k` of the transactions since the
system was last up have left them; `k` counts every transaction whose `commit` had returned; and of
every FS operation either all writes are among these transactions or none is. -/
theorem crash_atomicity (hP : Fintype.card P ≤ NPROC) {disk : Nat → Block} {p₀ : P}
    (hok : HeadOk sb (diskHead sb disk)) {t : Recorded P}
    (h : Reach (Recorded.step sb) (fun t e => LogsHome sb t.st e) (Recorded.boot sb disk p₀) t)
    (hb : t.st.booting = true) {p : P} (hdone : t.st.com = some (p, .finish)) :
    ∃ k, t.hist.returned ≤ k ∧ k ≤ t.hist.txns.length ∧ (∀ b, Home sb b → t.st.disk b = t.hist.after k b) ∧
      ∀ op, (∀ w ∈ (t.hist.txns.drop k).flatten ++ t.hist.cur, w.op ≠ op) ∨
        ∀ w ∈ (t.hist.txns.take k).flatten, w.op ≠ op := by
  have hi := crashInv_of_reach hP hok h
  obtain ⟨k, h₁, h₂, hd⟩ := hi.disk.stage.booting hb
  rw [recovered_of_nil (hi.disk.head.at hdone)] at hd
  exact ⟨k, h₁, h₂, hd, hi.ops.all_or_none k⟩

/-- The events of a `bread` and of a `brelse` inside `commit` or `recover_from_log`. -/
def readBlock (p : P) : List (Event P) := [.commit, .acquire p, .fill p]

def releaseBlock (p : P) : List (Event P) := [.commit, .unref p]

/-- `recover_from_log` by `p`, with `n` blocks in the header. -/
def recoverRun (p : P) (n : Nat) : List (Event P) :=
  readBlock p ++ [.commit] ++ releaseBlock p ++
    (List.replicate n (readBlock p ++ readBlock p ++ [.commit, .commit] ++ releaseBlock p ++
      releaseBlock p)).flatten ++
    [.commit] ++ readBlock p ++ [.commit] ++ releaseBlock p

/-- `commit` of one block by `p`, up to the commit point. -/
def commitRun (p : P) : List (Event P) :=
  [.commit] ++ readBlock p ++ readBlock p ++ [.commit] ++ releaseBlock p ++ releaseBlock p ++
    [.commit] ++ readBlock p ++ [.commit]

/-- The system boots, an operation logs block 100, and the power fails right after the commit
point, before the block is home; another process recovers it. -/
theorem crash_atomicity_recovers : ∃ t : Recorded (Fin 2), t.hist.txns.length = 1 ∧ t.st.disk 100 0 = 1 ∧
      ∃ k, t.hist.returned ≤ k ∧ k ≤ t.hist.txns.length ∧
        (∀ b, Home ⟨2, LOGSIZE + 1⟩ b → t.st.disk b = t.hist.after k b) ∧
        ∀ op, (∀ w ∈ (t.hist.txns.drop k).flatten ++ t.hist.cur, w.op ≠ op) ∨
          ∀ w ∈ (t.hist.txns.take k).flatten, w.op ≠ op := by
  have h : runTest (Recorded.step ⟨2, LOGSIZE + 1⟩) (fun t e => LogsHome ⟨2, LOGSIZE + 1⟩ t.st e)
      (Recorded.boot ⟨2, LOGSIZE + 1⟩ (fun _ _ => 0) 0 : Recorded (Fin 2))
      (recoverRun 0 0 ++ [.commit, .beginOp 0] ++ logBlock 0 100 ⟨1, by decide⟩ ++ [.endOp 0] ++
        commitRun 0 ++ [.crash 1] ++ recoverRun 1 1)
      (fun t => decide (t.st.booting = true ∧ t.st.com = some (1, .finish) ∧
        t.hist.txns.length = 1 ∧ t.st.disk 100 0 = 1)) = true := by
    decide +kernel
  obtain ⟨t, ht, hc⟩ := Reach.of_runTest h
  obtain ⟨hb, hcom, hlen, hdisk⟩ := of_decide_eq_true hc
  have hok : HeadOk ⟨2, LOGSIZE + 1⟩ (diskHead ⟨2, LOGSIZE + 1⟩ fun _ _ => 0) := headOk_nil
  exact ⟨t, hlen, hdisk, crash_atomicity (by decide) hok ht hb hcom⟩

/-! ### Crashes during recovery -/

/-- With no transaction since, the disk has what the history began with. -/
lemma CrashInv.recovered_eq {t : Recorded P} (hi : CrashInv sb t) (htx : t.hist.txns = []) :
    HomeEq sb (recovered sb t.st.disk) t.hist.base := by
  obtain ⟨k, -, -, hd⟩ := hi.disk.recoverable
  rwa [Hist.after, htx, take_nil] at hd

/-- While the system boots, no operation runs, and the history begins anew at the end only. -/
lemma CrashInv.boot_step {t t' : Recorded P} {e : Event P} (hi : CrashInv sb t) (hb : t.st.booting = true)
    (htx : t.hist.txns = []) (hs : t.step sb e = .ok t') :
    LogsHome sb t.st e ∧ HomeEq sb t'.hist.base t.hist.base ∧ t'.hist.txns = [] := by
  obtain ⟨st', hist'⟩ := t'
  obtain ⟨hst, hh⟩ := Recorded.step_ok hs
  dsimp only at hst hh
  subst hh
  have hnot (p) : ¬ t.st.ready p := fun hr => by simp [hr.1] at hb
  cases State.step_cases hst with
  | beginOp hr | logNew _ hr | logAbsorb _ hr | endLast hr | endOther hr => exact absurd hr (hnot _)
  | commit hcom =>
    refine ⟨trivial, ?_⟩
    by_cases hn : ComesUp t.st .commit
    · obtain ⟨-, -, q, hq⟩ := hn
      have hd := hi.recovered_eq htx
      rw [recovered_of_nil (hi.disk.head.at hq)] at hd
      simp only [Hist.step, hq, hb, if_true]
      exact ⟨hd, trivial⟩
    · rcases t.hist.step_commit t.st hn with e | ⟨e, -⟩ <;> rw [e] <;> exact ⟨fun _ _ => rfl, htx⟩
  | _ => exact ⟨trivial, fun _ _ => rfl, htx⟩

/-- **Recovery is idempotent.**  However often the power fails while the system boots, what is there to recover stays
the same; and when the system is up, the home blocks are as the log on the first disk had them. -/
theorem recovery_idempotent (hP : Fintype.card P ≤ NPROC) {p₀ : P} (hok : HeadOk sb (diskHead sb disk))
    {t : Recorded P} (h : Reach (Recorded.step sb) (fun t _ => t.st.booting = true) (Recorded.boot sb disk p₀) t) :
    HomeEq sb (recovered sb t.st.disk) (recovered sb disk) ∧
    (t.st.com = none → HomeEq sb t.st.disk (recovered sb disk)) := by
  obtain ⟨hi, hbase, htx⟩ := h.invariant
    (I := fun t => CrashInv sb t ∧ HomeEq sb t.hist.base (recovered sb disk) ∧ t.hist.txns = [])
    ⟨crashInv_boot hok p₀, fun _ _ => rfl, rfl⟩ fun hI hb hs => by
      obtain ⟨hi, hbase, htx⟩ := hI
      obtain ⟨hl, e, htx'⟩ := hi.boot_step hb htx hs
      exact ⟨hi.step hP hl hs, e.trans hbase, htx'⟩
  have hd := (hi.recovered_eq htx).trans hbase
  refine ⟨hd, fun hcom => ?_⟩
  rwa [recovered_of_nil (hi.disk.head.up hcom)] at hd

/-- A disk whose log holds blocks 100 and 101, which are not home. -/
def committed : Nat → Block :=
  update (update (update (fun _ _ => 0) 2 (putHead [100, 101] fun _ => 0)) 3 fun _ => 7) 4 fun _ => 9

/-- The power fails when block 100 is home and block 101 has been read; another process recovers both. -/
theorem recovery_idempotent_twice : ∃ t : Recorded (Fin 2), t.st.booting = false ∧ t.st.disk 100 0 = 7 ∧
    t.st.disk 101 0 = 9 ∧ HomeEq ⟨2, LOGSIZE + 1⟩ t.st.disk (recovered ⟨2, LOGSIZE + 1⟩ committed) := by
  have h : runTest (Recorded.step ⟨2, LOGSIZE + 1⟩) (fun t _ => t.st.booting = true)
      (Recorded.boot ⟨2, LOGSIZE + 1⟩ committed 0 : Recorded (Fin 2))
      (readBlock 0 ++ [.commit] ++ releaseBlock 0 ++ readBlock 0 ++ readBlock 0 ++ [.commit, .commit] ++
        releaseBlock 0 ++ releaseBlock 0 ++ readBlock 0 ++ readBlock 0 ++ [.crash 1] ++ recoverRun 1 2 ++ [.commit])
      (fun t => decide (t.st.booting = false ∧ t.st.com = none ∧ t.st.disk 100 0 = 7 ∧ t.st.disk 101 0 = 9)) = true := by
    decide +kernel
  obtain ⟨t, ht, hc⟩ := Reach.of_runTest h
  obtain ⟨hb, hcom, hdisk⟩ := of_decide_eq_true hc
  have hhead : diskHead ⟨2, LOGSIZE + 1⟩ committed = [100, 101] := by decide +kernel
  have hok : HeadOk ⟨2, LOGSIZE + 1⟩ (diskHead ⟨2, LOGSIZE + 1⟩ committed) := by
    rw [hhead]
    refine ⟨by decide, by decide, by decide, fun b hm => ?_⟩
    rcases List.mem_pair.mp hm with rfl | rfl <;> decide
  exact ⟨t, hb, hdisk.1, hdisk.2, (recovery_idempotent (by decide) hok ht).2 hcom⟩

/-! ### Reading through the cache -/

/-- Past the commit point, a block that is not pinned is home, or the transaction does not write it. -/
lemma DataInv.recovered_eq {view : Nat → Block} (hd : DataInv sb s view) (hcom : s.com = some (p, c))
    (hhead : c.Head sb s) (hmode : c.Mode false) (he : c.early = false) (hn : b ∉ s.lh.drop c.unpinned) :
    recovered sb s.disk b = s.disk b := by
  by_cases hm : b ∈ diskHead sb s.disk
  · obtain ⟨k, -, hbk, e⟩ := replay_of_mem (fun k => s.disk (slot sb k)) s.disk hm
    rw [recovered, e]
    -- its slot is installed, or the header is about to be cleared
    have key (hlh : diskHead sb s.disk = s.lh) (hle : ∀ j < c.unpinned, j < c.installed) :
        s.disk (slot sb k) = s.disk b := by
      rw [hlh] at hbk
      have hk : k < c.unpinned := by
        by_contra hlt
        exact hn (mem_of_getElem? (i := k - c.unpinned)
          (by rw [getElem?_drop, Nat.add_sub_cancel' (by omega), hbk]))
      rw [← hd.installed p c hcom k (hle k hk), getD_eq_getElem?_getD, hbk]
      rfl
    cases c with
    | writeHead e | writeHeadPut e =>
      cases e with
      | false => cases he
      | true => exact (hhead.2 k b hbk).symm
    | writeHeadRel e =>
      cases e with
      | false => exact key hhead fun _ => nofun
      | true => exact absurd (hhead ▸ hm) not_mem_nil
    | finish => exact absurd (hhead ▸ hm) not_mem_nil
    | readHead | readHeadGet | readHeadRel => cases hmode
    | install | installDst | installCopy | installRelSrc | installRelDst => exact key hhead fun _ hj => hj
    | installUnpin => exact key hhead fun _ hj => Nat.lt_succ_of_lt hj
    | _ => cases he
  · exact replay_of_not_mem hm

/-- A home block that is not pinned is on the disk as it was last logged. -/
lemma CrashInv.disk_eq {t : Recorded P} (hi : CrashInv sb t) (hup : t.st.booting = false) (hb : Home sb b)
    (hn : b ∉ pinned t.st) : t.st.disk b = t.hist.view b := by
  cases hcom : t.st.com with
  | none =>
    have hs := hi.disk.stage.collecting hup hcom
    rw [pinned_of_none hup hcom] at hn
    rw [hs.disk b hb, Hist.after, Hist.view, take_length, map_append, writeAll_append]
    refine (writeAll_of_not_mem fun w hw e => ?_).symm
    obtain ⟨w', hw', rfl⟩ := mem_map.mp hw
    exact hn (e ▸ hs.logged w' hw')
  | some pc =>
    obtain ⟨p, c⟩ := pc
    rw [pinned_of_com hup hcom] at hn
    cases he : c.early with
    | true =>
      have hc : c.unpinned = 0 := by cases c <;> first | rfl | cases he
      rw [hc] at hn
      exact ((hi.disk.stage.closing hup hcom he).view_eq hb hn).symm
    | false =>
      rw [← (hi.disk.stage.committed hup hcom he).disk b hb]
      exact (hi.data.recovered_eq hcom (hi.disk.head.at hcom) (hup ▸ hi.pin.log.mode p c hcom) he hn).symm

/-- **The log, the block cache and the disk are one array of blocks.**  In every run, crashes included, while the
system is up: the array `view` changes by `log_write` only, and only at its block; every valid buffer of a home block
has what the array has; and so has the disk, unless a buffer is kept that has it. -/
theorem log_is_array (hP : Fintype.card P ≤ NPROC) {disk : Nat → Block} {p₀ : P}
    (hok : HeadOk sb (diskHead sb disk)) {t : Recorded P}
    (h : Reach (Recorded.step sb) (fun t e => LogsHome sb t.st e) (Recorded.boot sb disk p₀) t)
    (hup : t.st.booting = false) :
    (∀ e t', t.step sb e = .ok t' → t'.hist.view = viewAfter t.st t.hist.view e) ∧
    ∀ b, Home sb b → (∀ i, Carries t.st.cache.bc ROOTDEV b i → (t.st.cache.bc.buf i).valid = true →
      (t.st.cache.bc.buf i).data = t.hist.view b) ∧
      ((∃ i, KeptIn t.st.cache.bc b i) ∨ t.st.disk b = t.hist.view b) := by
  have hi := crashInv_of_reach hP hok h
  refine ⟨fun e t' hs => ?_, fun b hb => ⟨fun i hc hv => ?_, ?_⟩⟩
  · rw [(Recorded.step_ok hs).2]
    exact view_step t.st t.hist e (not_comesUp hup e)
  · rw [hi.data.coherent i hv hc.1, hc.2, content]
    split_ifs with hm
    · rfl
    · exact hi.disk_eq hup hb hm
  · by_cases hm : b ∈ pinned t.st
    · exact .inl (hi.pin.keptIn hP hm)
    · exact .inr (hi.disk_eq hup hb hm)

/-- The system comes up, and an operation logs block 100. -/
theorem log_is_array_logged : ∃ t : Recorded (Fin 2), t.hist.view 100 0 = 1 ∧
    ∃ i, Carries t.st.cache.bc ROOTDEV 100 i ∧ (t.st.cache.bc.buf i).data = t.hist.view 100 := by
  have h : runTest (Recorded.step ⟨2, LOGSIZE + 1⟩) (fun t e => LogsHome ⟨2, LOGSIZE + 1⟩ t.st e)
      (Recorded.boot ⟨2, LOGSIZE + 1⟩ (fun _ _ => 0) 0 : Recorded (Fin 2))
      (recoverRun 0 0 ++ [.commit, .beginOp 0] ++ logBlock 0 100 ⟨1, by decide⟩)
      (fun t => decide (t.st.booting = false ∧ t.hist.view 100 0 = 1 ∧ ∃ i, (t.st.cache.bc.buf i).valid = true ∧
        (t.st.cache.bc.buf i).dev = ROOTDEV ∧ (t.st.cache.bc.buf i).blockno = 100)) = true := by
    decide +kernel
  obtain ⟨t, ht, hc⟩ := Reach.of_runTest h
  obtain ⟨hup, hview, i, hv, hi⟩ := of_decide_eq_true hc
  exact ⟨t, hview, i, hi, ((log_is_array (by decide) headOk_nil ht hup).2 100 (by decide)).1 i hi hv⟩

end FypOs.Log
