import FypOs.Log.Steps
import FypOs.Lib.Tally
import Mathlib.Algebra.BigOperators.Ring.Finset

/-!
# Log — space in the log

`begin_op` lets an operation in only when the log has room for `MAXOPBLOCKS` blocks of it and of
every operation outstanding.  While an operation runs it uses this room up, so what is kept is the sum
of what the operations may still use (`Budget`): it fits into the log beside the blocks in the header.

`LogInv` is what holds of `struct log` in every run.
-/

namespace FypOs.Log
open Lib Bio List Log.State Function

set_option linter.unusedSectionVars false

variable {P : Type} [Fintype P] [DecidableEq P] {sb : Sb} {s s' : State P} {a : State.Act} {c : Ctl}

/-! ### `struct log` -/

/-- Which of `commit` (`false`) and `recover_from_log` (`true`) has the point `c`; the second
`write_head` belongs to both. -/
def Ctl.Mode (booting : Bool) : Ctl → Prop
  | .start | .writeLog _ | .writeLogFrom _ | .writeLogCopy _ | .writeLogRelFrom _
  | .writeLogRelTo _ | .writeHead false | .writeHeadPut false | .writeHeadRel false =>
    booting = false
  | .install r _ | .installDst r _ | .installCopy r _ | .installUnpin r _ | .installRelSrc r _
  | .installRelDst r _ => r = booting
  | .readHead | .readHeadGet | .readHeadRel => booting = true
  | .writeHead true | .writeHeadPut true | .writeHeadRel true | .finish => True

/-- Operations in progress: 1 for a process between `begin_op` and `end_op`. -/
def active (o : Option Nat) : Nat := if o.isSome then 1 else 0

@[simp] lemma active_none : active none = 0 := rfl

@[simp] lemma active_some (u : Nat) : active (some u) = 1 := rfl

/-- What holds of `struct log` and the operations in progress. -/
structure LogInv (s : State P) : Prop where
  /-- `outstanding` counts the operations in progress. -/
  count : s.outstanding = (∑ p, active (s.op p) : Nat)
  com : s.com.isSome ↔ s.committing = true ∨ s.booting = true
  one : ¬ (s.committing = true ∧ s.booting = true)
  mode : ∀ p c, s.com = some (p, c) → c.Mode s.booting
  /-- No operation is in progress during `commit` and `recover_from_log`. -/
  quiet : s.com.isSome → ∀ p, s.op p = none
  nodup : s.lh.Nodup
  le : s.lh.length ≤ LOGSIZE

/-- The header `read_head` is about to take over is one that `write_head` can have written. -/
def ReadsWf (s : State P) : Prop :=
  ∀ p b rest, s.com = some (p, .readHeadGet) → (s.cache.thr p).pend = .idle →
    (s.cache.thr p).held = b :: rest → (getHead (s.cache.bc.buf b).data).Nodup ∧
      (getHead (s.cache.bc.buf b).data).length ≤ LOGSIZE

/-- The next point belongs to the same function. -/
lemma mode_plan {held : List (Fin NBUF)} {c c' : Ctl} {r : Bool}
    (h : State.PlanCase sb s held c a (some c')) (hm : c.Mode r) : c'.Mode r := by
  cases h with
  | @headRead e => cases e <;> exact hm
  | @headPut e => cases e <;> exact hm
  | startEmpty | headErased | insEnd => trivial
  | headCommitted => exact hm.symm
  | rdRel => exact hm.symm
  | _ => exact hm

lemma active_eq_zero_of_quiet (h : ∀ p, s.op p = none) : ∑ p, active (s.op p) = 0 :=
  Finset.sum_eq_zero fun p _ => by rw [h p]; rfl

lemma logInv_reboot (disk : Nat → Block) (p : P) : LogInv (reboot disk p) where
  count := by simp [reboot, active]
  com := by simp [reboot]
  one := by simp [reboot]
  mode q c h := by cases h; rfl
  quiet _ _ := rfl
  nodup := nodup_nil
  le := Nat.zero_le _

lemma logInv_init (disk : Nat → Block) : LogInv (init disk : State P) where
  count := by simp [init, active]
  com := by simp [init]
  one := by simp [init]
  mode q c h := by cases h
  quiet _ _ := rfl
  nodup := nodup_nil
  le := Nat.zero_le _

/-- The invariant depends on `struct log` and the operations in progress only. -/
lemma LogInv.congr (h : LogInv s) (e : (s'.outstanding, s'.committing, s'.lh, s'.op, s'.com, s'.booting) =
    (s.outstanding, s.committing, s.lh, s.op, s.com, s.booting)) : LogInv s' := by
  simp only [Prod.mk.injEq] at e
  obtain ⟨e1, e2, e3, e4, e5, e6⟩ := e
  exact ⟨by rw [e1, e4]; exact h.count, by rw [e2, e5, e6]; exact h.com, by rw [e2, e6]; exact h.one,
    by rw [e5, e6]; exact h.mode, by rw [e4, e5]; exact h.quiet, e3 ▸ h.nodup, e3 ▸ h.le⟩

variable {e : Event P} {p : P}

/-- The process inside `commit` or `recover_from_log` gets to another point of it. -/
lemma LogInv.setCtl (h : LogInv s) (hsome : s.com.isSome)
    (hm : c.Mode s.booting) (e : s' = { s with cache := s'.cache, disk := s'.disk, com := some (p, c) }) :
    LogInv s' := by
  rw [e]
  refine ⟨h.count, ?_, h.one, ?_, fun _ => h.quiet hsome, h.nodup, h.le⟩
  · simpa using h.com.mp hsome
  · rintro q c' e; cases e; exact hm

lemma LogInv.commit (h : LogInv s) (hw : ReadsWf s)
    {c' : Option Ctl} {s1 : State P} (hcom : s.com = some (p, c)) (hpend : (s.cache.thr p).pend = .idle)
    (hpl : State.PlanCase sb s (s.cache.thr p).held c a c') (hx : State.ExecCase s p a s1) :
    LogInv { s1 with com := c'.map (p, ·) } := by
  have hsome : s.com.isSome := by rw [hcom]; rfl
  rcases hpl.next with ⟨rfl, rfl⟩ | ⟨hne, c'', rfl⟩
  · cases hx
    refine ⟨h.count, by simp, by simp, by simp, by simp, h.nodup, h.le⟩
  · have hm : c''.Mode s.booting := mode_plan hpl (h.mode p c hcom)
    cases hx with
    | goto | bread _ | brelse _ | bwrite _ | bunpin => exact h.setCtl hsome hm rfl
    | @setHead lh =>
      have hlh : lh.Nodup ∧ lh.length ≤ LOGSIZE := by
        cases hpl with
        | insEnd _ => exact ⟨nodup_nil, Nat.zero_le _⟩
        | rdGet hb => exact hw p _ _ hcom hpend hb
      have h' : LogInv { s with lh } :=
        ⟨h.count, h.com, h.one, h.mode, h.quiet, hlh.1, hlh.2⟩
      exact h'.setCtl hsome hm rfl
    | finish => exact absurd rfl hne

/-- When the only operation outstanding ends, none is in progress. -/
lemma LogInv.last_op (h : LogInv s) (hop : s.op p ≠ none) (hone : s.outstanding = 1) :
    ∀ q, update s.op p none q = none := by
  intro q
  have ht := tally_update active s.op p none
  obtain ⟨u, hu⟩ := Option.ne_none_iff_exists'.mp hop
  have hcnt := h.count
  rw [hu, active_none, active_some] at ht
  have hle := le_tally active (update s.op p none) q
  by_contra hq
  obtain ⟨v, hv⟩ := Option.ne_none_iff_exists'.mp hq
  rw [hv, active_some] at hle
  omega

/-- **One step** keeps what holds of `struct log`. -/
lemma LogInv.step (h : LogInv s) (hw : ReadsWf s) (hs : s.step sb e = .ok s') : LogInv s' := by
  cases step_cases hs with
  | @beginOp p hr h0 hc hadm =>
    have ht := tally_update active s.op p (some 0)
    rw [h0, active_none, active_some] at ht
    have hnone : ¬ s.com.isSome := fun hcom => by
      rcases h.com.mp hcom with h' | h'
      · rw [hc] at h'; cases h'
      · rw [hr.1] at h'; cases h'
    refine ⟨?_, h.com, h.one, h.mode, fun hcom => absurd hcom hnone, h.nodup, h.le⟩
    have := h.count
    show s.outstanding + 1 = (∑ q, active (update s.op p (some 0) q) : Nat)
    omega
  | bread _ _ | acquire _ | fill _ | brelse _ _ | unref _ | logAbsorb _ _ _ _ => exact h.congr rfl
  | @logNew p i data used hu hr hi hlog hsize hout hno =>
    have ht := tally_update_eq (g := active) (f := s.op) (p := p) (x := some (used + 1)) (by rw [hu]; rfl)
    refine ⟨h.count.trans (by rw [← ht]), h.com, h.one, h.mode, fun hcom => ?_, ?_, ?_⟩
    · exact absurd (h.quiet hcom p) (by rw [hu]; simp)
    · exact nodup_append.mpr ⟨h.nodup, by simp, by
        intro a ha b hb e
        cases mem_singleton.mp hb
        exact hno (e ▸ ha)⟩
    · rw [length_append]; exact hlog
  | @endLast p hr hop hc hone =>
    have h0 := h.last_op hop hone
    refine ⟨?_, by simp, by simp [hr.1], ?_, fun _ => h0, h.nodup, h.le⟩
    · rw [active_eq_zero_of_quiet (s := { s with op := update s.op p none }) h0]; rfl
    · rintro q c e; cases e; exact hr.1
  | @endOther p hr hop hc hone =>
    have ht := tally_update active s.op p none
    obtain ⟨u, hu⟩ := Option.ne_none_iff_exists'.mp hop
    have hcnt := h.count
    rw [hu, active_none, active_some] at ht
    refine ⟨?_, h.com, h.one, h.mode, fun hcom => ?_, h.nodup, h.le⟩
    · show s.outstanding - 1 = (∑ q, active (update s.op p none q) : Nat)
      omega
    · exact absurd (h.quiet hcom p) hop
  | commit hcom hpend hpl hx => exact h.commit hw hcom hpend hpl hx
  | crash => exact logInv_reboot _ _

/-! ### Budgets -/

/-- What an operation may still add to the header. -/
def credit : Option Nat → Nat
  | none => 0
  | some used => MAXOPBLOCKS - used

/-- The header and the unused budgets of the operations in progress fit into the log. -/
def Budget (s : State P) : Prop := s.lh.length + ∑ p, credit (s.op p) ≤ LOGSIZE

lemma credit_le (o : Option Nat) : credit o ≤ MAXOPBLOCKS * active o := by
  cases o with
  | none => exact Nat.zero_le _
  | some u => simp [credit, active]

lemma credit_eq_zero_of_quiet (h : ∀ p, s.op p = none) : ∑ p, credit (s.op p) = 0 :=
  Finset.sum_eq_zero fun p _ => by rw [h p]; rfl

/-- Between two reboots every operation adds at most `MAXOPBLOCKS` new block numbers to the
header. -/
def Budgeted (s : State P) : Event P → Prop
  | .logWrite p i _ => (s.cache.bc.buf i).blockno ∈ s.lh ∨ (s.op p).getD 0 < MAXOPBLOCKS
  | .crash _ => False
  | _ => True

instance (s : State P) : (e : Event P) → Decidable (Budgeted s e)
  | .logWrite .. => inferInstanceAs (Decidable (_ ∨ _))
  | .crash _ => inferInstanceAs (Decidable False)
  | .beginOp _ | .bread .. | .acquire _ | .fill _ | .brelse .. | .unref _ | .endOp _ | .commit =>
    inferInstanceAs (Decidable True)

lemma Budget.step (h : Budget s) (hl : LogInv s) (hw : ReadsWf s)
    (hd : Budgeted s e) (hs : s.step sb e = .ok s') : Budget s' := by
  simp only [Budget] at h ⊢
  cases step_cases hs with
  | @beginOp p hr h0 hc hadm =>
    have ht := tally_update credit s.op p (some 0)
    have hle : ∑ q, credit (s.op q) ≤ MAXOPBLOCKS * ∑ q, active (s.op q) := by
      rw [Finset.mul_sum]; exact Finset.sum_le_sum fun q _ => credit_le _
    have hcnt := hl.count
    rw [h0] at ht
    simp only [credit, MAXOPBLOCKS, LOGSIZE] at *
    omega
  | bread _ _ => exact h
  | acquire _ => exact h
  | fill _ => exact h
  | brelse _ _ => exact h
  | unref _ => exact h
  | @logNew p i data used hu hr hi hlog hsize hout hno =>
    have ht := tally_update credit s.op p (some (used + 1))
    have hroom : used < MAXOPBLOCKS := by
      rcases hd with hin | hlt
      · exact absurd hin hno
      · rwa [hu] at hlt
    rw [hu] at ht
    simp only [credit, length_append, length_singleton] at *
    omega
  | logAbsorb _ _ _ _ => exact h
  | @endLast p _ _ _ _ | @endOther p _ _ _ _ =>
    have ht := tally_update credit s.op p none
    simp only [credit] at *
    omega
  | @commit p c a c' s1 hcom hpend hpl hx =>
    have hq := credit_eq_zero_of_quiet (hl.quiet (by rw [hcom]; rfl))
    cases hx with
    | @setHead lh =>
      have hlen : lh.length ≤ LOGSIZE := by
        cases hpl with
        | insEnd _ => exact Nat.zero_le _
        | rdGet hb => exact (hw p _ _ hcom hpend hb).2
      show lh.length + ∑ q, credit (s.op q) ≤ LOGSIZE
      omega
    | _ => exact h
  | crash => exact absurd hd id

/-! ### The log between two reboots -/

/-- The system does not crash. -/
def NoCrash : Event P → Prop
  | .crash _ => False
  | _ => True

instance : (e : Event P) → Decidable (NoCrash e)
  | .crash _ => inferInstanceAs (Decidable False)
  | .beginOp _ | .bread .. | .acquire _ | .fill _ | .logWrite .. | .brelse .. | .unref _ | .endOp _
  | .commit => inferInstanceAs (Decidable True)

lemma booting_step (hb : s.booting = false) (hd : NoCrash e)
    (hs : s.step sb e = .ok s') : s'.booting = false := by
  cases step_cases hs with
  | commit _ _ _ hx => cases hx <;> first | exact hb | rfl
  | crash => exact absurd hd id
  | _ => exact hb

lemma noCrash_of_budgeted (h : Budgeted s e) : NoCrash e := by
  cases e with
  | crash p => exact h
  | _ => trivial

/-- What holds in every run without a crash. -/
structure Upright (s : State P) : Prop where
  log : LogInv s
  up : s.booting = false
  budget : Budget s

lemma readsWf_of_up (h : LogInv s) (hup : s.booting = false) : ReadsWf s := by
  intro p b rest hcom _ _
  have : s.booting = true := h.mode p _ hcom
  rw [hup] at this
  cases this

lemma Upright.step (h : Upright s) (hd : Budgeted s e) (hs : s.step sb e = .ok s') : Upright s' := by
  have hw := readsWf_of_up h.log h.up
  exact ⟨h.log.step hw hs, booting_step h.up (noCrash_of_budgeted hd) hs, h.budget.step h.log hw hd hs⟩

lemma upright_init (disk : Nat → Block) : Upright (init disk : State P) :=
  ⟨logInv_init disk, rfl, by simp [Budget, init, credit]⟩

lemma upright_of_reach {disk : Nat → Block} (h : Reach (step sb) Budgeted (init disk) s) : Upright s :=
  h.invariant (I := Upright) (upright_init disk) Upright.step

/-- `p` calls `log_write` on a buffer of its, inside an operation. -/
def CallsLogWrite (s : State P) (p : P) (i : Fin NBUF) : Prop :=
  s.op p ≠ none ∧ s.ready p ∧ i ∈ (s.cache.thr p).held

/-- A call of `log_write` by an operation in progress panics exactly when the header is full: the
test for room comes before the search for the block number. -/
lemma logWrite_panics_iff (h : Upright s) (hsize : LOGSIZE + 1 ≤ sb.nlog) {i : Fin NBUF}
    (hcall : CallsLogWrite s p i) (data : Block) :
    (∃ msg, s.step sb (.logWrite p i data) = .panic msg) ↔ s.lh.length = LOGSIZE := by
  obtain ⟨hop, hr, hi⟩ := hcall
  obtain ⟨used, hu⟩ := Option.ne_none_iff_exists'.mp hop
  have hle := h.log.le
  have hout : 1 ≤ s.outstanding := by
    have h1 := le_tally active s.op p
    rw [hu, ← Nat.cast_le (α := ℤ), ← h.log.count] at h1
    simpa [active] using h1
  simp only [step, logWrite, hu, hr, hi, and_self, if_true]
  constructor
  · rintro ⟨msg, e⟩
    split at e
    · omega
    · split at e
      · omega
      · split at e <;> cases e
  · intro e
    exact ⟨"too big a transaction", if_pos (Or.inl e.ge)⟩

/-- Within the budgets there is room for a block number that is not in the header yet. -/
lemma Upright.room (h : Upright s) {i : Fin NBUF} {data : Block} (hcall : CallsLogWrite s p i)
    (hd : Budgeted s (.logWrite p i data)) (hnew : (s.cache.bc.buf i).blockno ∉ s.lh) : s.lh.length < LOGSIZE := by
  obtain ⟨used, hu⟩ := Option.ne_none_iff_exists'.mp hcall.1
  have hlt := hd.resolve_left hnew
  have hone := le_tally credit s.op p
  have hall : s.lh.length + ∑ q, credit (s.op q) ≤ LOGSIZE := h.budget
  rw [hu] at hlt hone
  change used < MAXOPBLOCKS at hlt
  change MAXOPBLOCKS - used ≤ _ at hone
  omega

/-- **Log space reservation.**  With a log of at least `LOGSIZE + 1` blocks, in every state that
operations within their budgets lead to, by any number of processes and in any interleaving:
the header holds at most `LOGSIZE` block numbers, none twice; no operation is outstanding while
`committing` is set; no `log_write` of an operation panics with `log_write outside of trans`; one
panics with `too big a transaction` exactly when it is called while the header holds `LOGSIZE`
block numbers; and one of a block that is not in the header, within the budget, never panics. -/
theorem log_reservation {disk : Nat → Block} (hsize : LOGSIZE + 1 ≤ sb.nlog)
    (h : Reach (step sb) Budgeted (init disk) s) :
    s.lh.length ≤ LOGSIZE ∧ s.lh.Nodup ∧ (s.committing = true → s.outstanding = 0 ∧ ∀ p, s.op p = none) ∧
      ∀ p i data, CallsLogWrite s p i → s.step sb (.logWrite p i data) ≠ .panic "log_write outside of trans" ∧
        ((∀ msg, s.step sb (.logWrite p i data) ≠ .panic msg) ↔ s.lh.length < LOGSIZE) ∧
        ((s.cache.bc.buf i).blockno ∉ s.lh → Budgeted s (.logWrite p i data) →
          ∀ msg, s.step sb (.logWrite p i data) ≠ .panic msg) := by
  have hi := upright_of_reach h
  have hiff {p i data} (hcall : CallsLogWrite s p i) :
      (∀ msg, s.step sb (.logWrite p i data) ≠ .panic msg) ↔ s.lh.length < LOGSIZE := by
    rw [← not_exists, logWrite_panics_iff hi hsize hcall data]
    have := hi.log.le
    omega
  refine ⟨hi.log.le, hi.log.nodup, fun hc => ?_, fun p i data hcall =>
    ⟨fun e => ?_, hiff hcall, fun hnew hd => (hiff hcall).mpr (hi.room hcall hd hnew)⟩⟩
  · have hq := hi.log.quiet (hi.log.com.mpr (Or.inl hc))
    refine ⟨?_, hq⟩
    rw [hi.log.count, active_eq_zero_of_quiet hq]
    rfl
  · have hfull := (logWrite_panics_iff hi hsize hcall data).mp ⟨_, e⟩
    obtain ⟨hop, hr, hm⟩ := hcall
    obtain ⟨used, hu⟩ := Option.ne_none_iff_exists'.mp hop
    simp only [step, logWrite, hu, hr, hm, and_self, if_true, hfull] at e
    simp at e

/-- One block read, modified, logged and released by `p`, in buffer `i`. -/
def logBlock (p : P) (blockno : Nat) (i : Fin NBUF) : List (Event P) :=
  [.bread p blockno, .acquire p, .fill p, .logWrite p i (fun _ => 1), .brelse p i, .unref p]

/-- Three operations log ten blocks each: blocks 100 to 129, in the buffers in array order. -/
def fillLog : List (Event (Fin 3)) :=
  [.beginOp 0, .beginOp 1, .beginOp 2] ++
    (List.finRange NBUF).flatMap fun i => logBlock (Fin.ofNat 3 (i.1 / MAXOPBLOCKS)) (100 + i.1) i

/-- Three operations that log ten blocks each fill the header with `LOGSIZE` different block
numbers. -/
theorem log_reservation_fillLog : ∃ s : State (Fin 3),
      Reach (step ⟨2, LOGSIZE + 1⟩) Budgeted (init fun _ _ => 0) s ∧ s.lh.length = LOGSIZE ∧ s.lh.Nodup := by
  have h : runTest (step ⟨2, LOGSIZE + 1⟩) Budgeted (init fun _ _ => 0) fillLog
      (fun s => decide (s.lh.length = LOGSIZE)) = true := by
    decide +kernel
  obtain ⟨s, hs, hc⟩ := Reach.of_runTest h
  exact ⟨s, hs, of_decide_eq_true hc, (log_reservation (Nat.le_refl (LOGSIZE + 1)) hs).2.1⟩

/-- **The room test of `log_write` is one block too strict.**  Three operations, each within its
budget of `MAXOPBLOCKS` blocks, fill the header; the first then logs its first block again, which
adds nothing to the log, and panics. -/
theorem log_write_panics_when_full : ∃ s : State (Fin 3),
      Reach (step ⟨2, LOGSIZE + 1⟩) Budgeted (init fun _ _ => 0) s ∧
      ∃ i data, CallsLogWrite s 0 i ∧ (s.cache.bc.buf i).blockno ∈ s.lh ∧
        s.step ⟨2, LOGSIZE + 1⟩ (.logWrite 0 i data) = .panic "too big a transaction" := by
  have h : runTest (step ⟨2, LOGSIZE + 1⟩) Budgeted (init fun _ _ => 0)
      (fillLog ++ [.bread 0 100, .acquire 0, .fill 0])
      (fun s => decide ((s.op 0 ≠ none ∧ s.ready 0 ∧ ⟨0, by decide⟩ ∈ (s.cache.thr 0).held) ∧
        (s.cache.bc.buf ⟨0, by decide⟩).blockno ∈ s.lh) &&
        (s.step ⟨2, LOGSIZE + 1⟩ (.logWrite 0 ⟨0, by decide⟩ fun _ => 2)).stops
          "too big a transaction") = true := by
    decide +kernel
  obtain ⟨s, hs, hc⟩ := Reach.of_runTest h
  simp only [Bool.and_eq_true, decide_eq_true_eq] at hc
  exact ⟨s, hs, ⟨0, by decide⟩, _, hc.1.1, hc.1.2, Outcome.eq_panic_of_stops hc.2⟩

end FypOs.Log
