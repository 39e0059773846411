import FypOs.Log.Machine

/-!
# Log — what each step does

One inversion lemma per event: from `step … = .ok s'`, the guard that let the step happen and the
state it leads to.  Every invariant of the machine is derived from these.
-/

namespace FypOs.Log
open Lib Bio Function Outcome

variable {P : Type} [DecidableEq P] {sb : Sb} {s s' : State P} {p : P}

namespace State

lemma beginOp_ok (h : s.beginOp p = .ok s') : s.ready p ∧ s.op p = none ∧ s.committing = false ∧
      (s.lh.length : ℤ) + (s.outstanding + 1) * MAXOPBLOCKS ≤ LOGSIZE ∧
      s' = { s with outstanding := s.outstanding + 1, op := update s.op p (some 0) } := by
  simp only [beginOp] at h
  split at h
  case isTrue hr =>
    split at h
    · cases h
    · split at h
      · cases h
      · cases h
        exact ⟨hr.1, hr.2, by simpa using ‹¬ s.committing = true›, by omega, rfl⟩
  case isFalse => cases h

variable {c' : Option Ctl} {lh : List Nat} {b : Nat} {c : Ctl}

/-- The loop of `log_write` runs to the end exactly when the block number is new. -/
lemma findIdx_absent (h : lh.findIdx (· == b) = lh.length) : b ∉ lh := by
  intro hm
  have := List.findIdx_eq_length.mp h b hm
  simp at this

/-- Storing a block number where the loop found it changes nothing. -/
lemma findIdx_present (h : ¬ lh.findIdx (· == b) = lh.length) :
    b ∈ lh ∧ lh.set (lh.findIdx (· == b)) b = lh := by
  have hlt : lh.findIdx (· == b) < lh.length := lt_of_le_of_ne List.findIdx_le_length h
  have hat : lh[lh.findIdx (· == b)] = b := by simpa using List.findIdx_getElem (w := hlt)
  refine ⟨List.mem_of_getElem hat, List.ext_getElem (by simp) fun k h1 h2 => ?_⟩
  rw [List.getElem_set]
  split
  · subst_vars; exact hat.symm
  · rfl

/-- A `log_write` that does not panic adds the block number and pins the buffer, or finds the
block number already there. -/
lemma logWrite_ok {i : Fin NBUF} {data : Block} (h : s.logWrite sb p i data = .ok s') :
    ∃ used, s.op p = some used ∧ s.ready p ∧ i ∈ (s.cache.thr p).held ∧ s.lh.length < LOGSIZE ∧
      s.lh.length + 1 < sb.nlog ∧ 1 ≤ s.outstanding ∧
      (((s.cache.bc.buf i).blockno ∉ s.lh ∧
          s' = { s with cache := { s.cache with bc := (s.stored i data).bpin i },
                        lh := s.lh ++ [(s.cache.bc.buf i).blockno],
                        op := update s.op p (some (used + 1)) }) ∨
        ((s.cache.bc.buf i).blockno ∈ s.lh ∧
          s' = { s with cache := { s.cache with bc := s.stored i data } })) := by
  simp only [logWrite] at h
  cases hu : s.op p with
  | none => rw [hu] at h; cases h
  | some used =>
    rw [hu] at h
    simp only at h
    split at h
    case isTrue hr =>
      split at h
      · cases h
      · split at h
        · cases h
        · refine ⟨used, rfl, hr.1, hr.2, by omega, by omega, by omega, ?_⟩
          split at h
          case isTrue hk => cases h; exact Or.inl ⟨findIdx_absent hk, rfl⟩
          case isFalse hk =>
            obtain ⟨hm, hset⟩ := findIdx_present hk
            rw [hset] at h
            cases h
            exact Or.inr ⟨hm, rfl⟩
    case isFalse => cases h

lemma endOp_ok (h : s.endOp p = .ok s') : s.ready p ∧ s.op p ≠ none ∧ s.committing = false ∧
      ((s.outstanding = 1 ∧
          s' = { s with outstanding := 0, op := update s.op p none, committing := true,
                        com := some (p, .start) }) ∨
        (s.outstanding ≠ 1 ∧
          s' = { s with outstanding := s.outstanding - 1, op := update s.op p none })) := by
  simp only [endOp] at h
  split at h
  case isTrue hr =>
    split at h
    · cases h
    · refine ⟨hr.1, hr.2, by simpa using ‹¬ s.committing = true›, ?_⟩
      split at h
      case isTrue h0 =>
        cases h
        exact Or.inl ⟨by omega, by rw [h0]⟩
      case isFalse h0 => cases h; exact Or.inr ⟨by omega, rfl⟩
  case isFalse => cases h

/-- The process inside `commit` or `recover_from_log` does what is planned, if it is not waiting. -/
lemma commit_planned (h : s.commit sb ≠ .blocked) :
    ∃ p c a c', s.com = some (p, c) ∧ (s.cache.thr p).pend = .idle ∧
      s.plan sb (s.cache.thr p).held c = some (a, c') ∧
      s.commit sb = (s.exec p a).map fun s1 => { s1 with com := c'.map (p, ·) } := by
  simp only [commit] at h ⊢
  cases hc : s.com with
  | none => exact absurd (by rw [hc]) h
  | some pc =>
    obtain ⟨p, c⟩ := pc
    rw [hc] at h
    simp only at h ⊢
    split at h
    case isTrue hp =>
      cases hpl : s.plan sb (s.cache.thr p).held c with
      | none => exact absurd (by rw [hpl]) h
      | some ac => exact ⟨p, c, ac.1, ac.2, rfl, hp, hpl, if_pos hp⟩
    case isFalse => exact absurd rfl h

lemma commit_ok (h : s.commit sb = .ok s') : ∃ p c a c' s1, s.com = some (p, c) ∧ (s.cache.thr p).pend = .idle ∧
      s.plan sb (s.cache.thr p).held c = some (a, c') ∧ s.exec p a = .ok s1 ∧
      s' = { s1 with com := c'.map (p, ·) } := by
  obtain ⟨p, c, a, c', hc, hp, hpl, e⟩ := commit_planned (by rw [h]; nofun)
  obtain ⟨s1, h1, rfl⟩ := map_eq_ok (e.symm.trans h)
  exact ⟨p, c, a, c', s1, hc, hp, hpl, h1, rfl⟩

lemma commit_panic {msg : String} (h : s.commit sb = .panic msg) :
    ∃ p c a c', s.com = some (p, c) ∧ (s.cache.thr p).pend = .idle ∧
      s.plan sb (s.cache.thr p).held c = some (a, c') ∧ s.exec p a = .panic msg := by
  obtain ⟨p, c, a, c', hc, hp, hpl, e⟩ := commit_planned (by rw [h]; nofun)
  exact ⟨p, c, a, c', hc, hp, hpl, map_eq_panic (e.symm.trans h)⟩

/-- What the steps of `commit` and `recover_from_log` do to the state. -/
inductive ExecCase (s : State P) (p : P) : Act → State P → Prop where
  | goto : ExecCase s p .goto s
  | bread {blockno : Nat} {c : Cache P} (h : s.cache.bget p ROOTDEV blockno = .ok c) :
      ExecCase s p (.bread blockno) { s with cache := c }
  | brelse {i : Fin NBUF} {c : Cache P} (h : s.cache.brelse p i = .ok c) :
      ExecCase s p (.brelse i) { s with cache := c }
  | bwrite {i : Fin NBUF} {data : Block} (h : (s.cache.bc.buf i).lock = some p) :
      ExecCase s p (.bwrite i data)
        { s with cache := { s.cache with bc := s.stored i data },
                 disk := update s.disk (s.cache.bc.buf i).blockno data }
  | bunpin {i : Fin NBUF} :
      ExecCase s p (.bunpin i) { s with cache := { s.cache with bc := s.cache.bc.bunpin i } }
  | setHead {lh : List Nat} : ExecCase s p (.setHead lh) { s with lh }
  | finish : ExecCase s p .finish { s with committing := false, booting := false }

variable {held : List (Fin NBUF)} {a : Act}

lemma exec_ok (h : s.exec p a = .ok s') : ExecCase s p a s' := by
  cases a with
  | goto => cases h; exact .goto
  | bread b => obtain ⟨c, hc, rfl⟩ := map_eq_ok h; exact .bread hc
  | brelse i => obtain ⟨c, hc, rfl⟩ := map_eq_ok h; exact .brelse hc
  | bwrite i data =>
    simp only [exec] at h
    split at h
    · cases h; exact .bwrite ‹_›
    · cases h
  | bunpin i => cases h; exact .bunpin
  | setHead lh => cases h; exact .setHead
  | finish => cases h; exact .finish

/-- What `commit` and `recover_from_log` do next at each point. -/
inductive PlanCase (sb : Sb) (s : State P) (held : List (Fin NBUF)) :
    Ctl → Act → Option Ctl → Prop where
  | startFull (h : 0 < s.lh.length) : PlanCase sb s held .start .goto (some (.writeLog 0))
  | startEmpty (h : s.lh = []) : PlanCase sb s held .start .goto (some .finish)
  | logRead {t : Nat} (h : t < s.lh.length) :
      PlanCase sb s held (.writeLog t) (.bread (sb.logstart + t + 1)) (some (.writeLogFrom t))
  | logEnd {t : Nat} (h : s.lh.length ≤ t) :
      PlanCase sb s held (.writeLog t) .goto (some (.writeHead false))
  | logFrom {t b : Nat} (h : s.lh[t]? = some b) :
      PlanCase sb s held (.writeLogFrom t) (.bread b) (some (.writeLogCopy t))
  | logCopy {t : Nat} {src dst : Fin NBUF} {rest : List (Fin NBUF)} (h : held = src :: dst :: rest) :
      PlanCase sb s held (.writeLogCopy t) (.bwrite dst (s.cache.bc.buf src).data)
        (some (.writeLogRelFrom t))
  | logRelFrom {t : Nat} {src : Fin NBUF} {rest : List (Fin NBUF)} (h : held = src :: rest) :
      PlanCase sb s held (.writeLogRelFrom t) (.brelse src) (some (.writeLogRelTo t))
  | logRelTo {t : Nat} {dst : Fin NBUF} {rest : List (Fin NBUF)} (h : held = dst :: rest) :
      PlanCase sb s held (.writeLogRelTo t) (.brelse dst) (some (.writeLog (t + 1)))
  | headRead {e : Bool} :
      PlanCase sb s held (.writeHead e) (.bread sb.logstart) (some (.writeHeadPut e))
  | headPut {e : Bool} {b : Fin NBUF} {rest : List (Fin NBUF)} (h : held = b :: rest) :
      PlanCase sb s held (.writeHeadPut e) (.bwrite b (putHead s.lh (s.cache.bc.buf b).data))
        (some (.writeHeadRel e))
  | headCommitted {b : Fin NBUF} {rest : List (Fin NBUF)} (h : held = b :: rest) :
      PlanCase sb s held (.writeHeadRel false) (.brelse b) (some (.install false 0))
  | headErased {b : Fin NBUF} {rest : List (Fin NBUF)} (h : held = b :: rest) :
      PlanCase sb s held (.writeHeadRel true) (.brelse b) (some .finish)
  | insRead {r : Bool} {t : Nat} (h : t < s.lh.length) :
      PlanCase sb s held (.install r t) (.bread (sb.logstart + t + 1)) (some (.installDst r t))
  | insEnd {r : Bool} {t : Nat} (h : s.lh.length ≤ t) :
      PlanCase sb s held (.install r t) (.setHead []) (some (.writeHead true))
  | insDst {r : Bool} {t b : Nat} (h : s.lh[t]? = some b) :
      PlanCase sb s held (.installDst r t) (.bread b) (some (.installCopy r t))
  | insCopy {r : Bool} {t : Nat} {dst src : Fin NBUF} {rest : List (Fin NBUF)}
      (h : held = dst :: src :: rest) :
      PlanCase sb s held (.installCopy r t) (.bwrite dst (s.cache.bc.buf src).data)
        (some (.installUnpin r t))
  | insUnpin {t : Nat} {dst : Fin NBUF} {rest : List (Fin NBUF)} (h : held = dst :: rest) :
      PlanCase sb s held (.installUnpin false t) (.bunpin dst) (some (.installRelSrc false t))
  | insKeep {t : Nat} {dst : Fin NBUF} {rest : List (Fin NBUF)} (h : held = dst :: rest) :
      PlanCase sb s held (.installUnpin true t) .goto (some (.installRelSrc true t))
  | insRelSrc {r : Bool} {t : Nat} {dst src : Fin NBUF} {rest : List (Fin NBUF)}
      (h : held = dst :: src :: rest) :
      PlanCase sb s held (.installRelSrc r t) (.brelse src) (some (.installRelDst r t))
  | insRelDst {r : Bool} {t : Nat} {dst : Fin NBUF} {rest : List (Fin NBUF)}
      (h : held = dst :: rest) :
      PlanCase sb s held (.installRelDst r t) (.brelse dst) (some (.install r (t + 1)))
  | rdRead : PlanCase sb s held .readHead (.bread sb.logstart) (some .readHeadGet)
  | rdGet {b : Fin NBUF} {rest : List (Fin NBUF)} (h : held = b :: rest) :
      PlanCase sb s held .readHeadGet (.setHead (getHead (s.cache.bc.buf b).data))
        (some .readHeadRel)
  | rdRel {b : Fin NBUF} {rest : List (Fin NBUF)} (h : held = b :: rest) :
      PlanCase sb s held .readHeadRel (.brelse b) (some (.install true 0))
  | finish : PlanCase sb s held .finish .finish none

lemma map_head_eq {α : Type} {f : Fin NBUF → α} {x : α}
    (h : held.head?.map f = some x) : ∃ b rest, held = b :: rest ∧ f b = x := by
  cases held with
  | nil => simp at h
  | cons b rest => exact ⟨b, rest, rfl, by simpa using h⟩

omit [DecidableEq P] in
lemma plan_cases (h : s.plan sb held c = some (a, c')) : PlanCase sb s held c a c' := by
  cases c with
  | start =>
    cases h
    split
    · exact .startFull ‹_›
    · exact .startEmpty (List.length_eq_zero_iff.mp (by omega))
  | writeLog t =>
    simp only [plan] at h
    split at h
    · cases h; exact .logRead ‹_›
    · cases h; exact .logEnd (by omega)
  | writeLogFrom t =>
    obtain ⟨b, hb, e⟩ := Option.map_eq_some_iff.mp h
    cases e; exact .logFrom hb
  | writeLogCopy t =>
    simp only [plan] at h
    split at h
    · cases h; exact .logCopy rfl
    · cases h
  | writeLogRelFrom t => obtain ⟨b, rest, hh, e⟩ := map_head_eq h; cases e; exact .logRelFrom hh
  | writeLogRelTo t => obtain ⟨b, rest, hh, e⟩ := map_head_eq h; cases e; exact .logRelTo hh
  | writeHead e => cases h; exact .headRead
  | writeHeadPut e => obtain ⟨b, rest, hh, e⟩ := map_head_eq h; cases e; exact .headPut hh
  | writeHeadRel e =>
    obtain ⟨b, rest, hh, e'⟩ := map_head_eq h
    cases e'
    cases e with
    | false => exact .headCommitted hh
    | true => exact .headErased hh
  | install r t =>
    simp only [plan] at h
    split at h
    · cases h; exact .insRead ‹_›
    · cases h; exact .insEnd (by omega)
  | installDst r t =>
    obtain ⟨b, hb, e⟩ := Option.map_eq_some_iff.mp h
    cases e; exact .insDst hb
  | installCopy r t =>
    simp only [plan] at h
    split at h
    · cases h; exact .insCopy rfl
    · cases h
  | installUnpin r t =>
    obtain ⟨b, rest, hh, e⟩ := map_head_eq h
    cases e
    cases r with
    | false => exact .insUnpin hh
    | true => exact .insKeep hh
  | installRelSrc r t =>
    simp only [plan] at h
    split at h
    · cases h; exact .insRelSrc rfl
    · cases h
  | installRelDst r t => obtain ⟨b, rest, hh, e⟩ := map_head_eq h; cases e; exact .insRelDst hh
  | readHead => cases h; exact .rdRead
  | readHeadGet => obtain ⟨b, rest, hh, e⟩ := map_head_eq h; cases e; exact .rdGet hh
  | readHeadRel => obtain ⟨b, rest, hh, e⟩ := map_head_eq h; cases e; exact .rdRel hh
  | finish => cases h; exact .finish

omit [DecidableEq P] in
/-- Only the last step of `commit` and `recover_from_log` leads out of them. -/
lemma PlanCase.next
    (h : PlanCase sb s held c a c') : (a = .finish ∧ c' = none) ∨ (a ≠ .finish ∧ ∃ c'', c' = some c'') := by
  cases h with
  | finish => exact Or.inl ⟨rfl, rfl⟩
  | _ => exact Or.inr ⟨by simp, _, rfl⟩

/-- Every step of the machine. -/
inductive StepCase (sb : Sb) (s : State P) : Event P → State P → Prop where
  | beginOp {p : P} (hr : s.ready p) (h₀ : s.op p = none) (hc : s.committing = false)
      (hadm : (s.lh.length : ℤ) + (s.outstanding + 1) * MAXOPBLOCKS ≤ LOGSIZE) :
      StepCase sb s (.beginOp p)
        { s with outstanding := s.outstanding + 1, op := update s.op p (some 0) }
  | bread {p : P} {blockno : Nat} {c : Cache P} (hr : s.ready p)
      (h : s.cache.bget p ROOTDEV blockno = .ok c) :
      StepCase sb s (.bread p blockno) { s with cache := c }
  | acquire {p : P} {c : Cache P} (h : s.cache.acquire p = .ok c) :
      StepCase sb s (.acquire p) { s with cache := c }
  | fill {p : P} {c : Cache P} (h : s.cache.fill p s.disk = .ok c) :
      StepCase sb s (.fill p) { s with cache := c }
  | brelse {p : P} {i : Fin NBUF} {c : Cache P} (hr : s.ready p)
      (h : s.cache.brelse p i = .ok c) : StepCase sb s (.brelse p i) { s with cache := c }
  | unref {p : P} {c : Cache P} (h : s.cache.unref p = .ok c) :
      StepCase sb s (.unref p) { s with cache := c }
  | logNew {p : P} {i : Fin NBUF} {data : Block} {used : Nat} (hu : s.op p = some used)
      (hr : s.ready p) (hi : i ∈ (s.cache.thr p).held) (hlog : s.lh.length < LOGSIZE)
      (hsize : s.lh.length + 1 < sb.nlog) (hout : 1 ≤ s.outstanding)
      (hno : (s.cache.bc.buf i).blockno ∉ s.lh) :
      StepCase sb s (.logWrite p i data)
        { s with cache := { s.cache with bc := (s.stored i data).bpin i },
                 lh := s.lh ++ [(s.cache.bc.buf i).blockno],
                 op := update s.op p (some (used + 1)) }
  | logAbsorb {p : P} {i : Fin NBUF} {data : Block} {used : Nat} (hu : s.op p = some used)
      (hr : s.ready p) (hi : i ∈ (s.cache.thr p).held)
      (hin : (s.cache.bc.buf i).blockno ∈ s.lh) :
      StepCase sb s (.logWrite p i data) { s with cache := { s.cache with bc := s.stored i data } }
  | endLast {p : P} (hr : s.ready p) (hop : s.op p ≠ none) (hc : s.committing = false)
      (hone : s.outstanding = 1) :
      StepCase sb s (.endOp p)
        { s with outstanding := 0, op := update s.op p none, committing := true,
                 com := some (p, .start) }
  | endOther {p : P} (hr : s.ready p) (hop : s.op p ≠ none) (hc : s.committing = false)
      (hone : s.outstanding ≠ 1) :
      StepCase sb s (.endOp p)
        { s with outstanding := s.outstanding - 1, op := update s.op p none }
  | commit {p : P} {c : Ctl} {a : Act} {c' : Option Ctl} {s₁ : State P}
      (hcom : s.com = some (p, c)) (hp : (s.cache.thr p).pend = .idle)
      (hpl : PlanCase sb s (s.cache.thr p).held c a c') (hx : ExecCase s p a s₁) :
      StepCase sb s .commit { s₁ with com := c'.map (p, ·) }
  | crash {p : P} : StepCase sb s (.crash p) (reboot s.disk p)

lemma step_cases {e : Event P} (h : s.step sb e = .ok s') : StepCase sb s e s' := by
  cases e with
  | beginOp p => obtain ⟨hr, h0, hc, ha, rfl⟩ := beginOp_ok h; exact .beginOp hr h0 hc ha
  | bread p b =>
    simp only [step] at h
    split at h
    · obtain ⟨c, hc, rfl⟩ := map_eq_ok h; exact .bread ‹_› hc
    · cases h
  | acquire p => obtain ⟨c, hc, rfl⟩ := map_eq_ok h; exact .acquire hc
  | fill p => obtain ⟨c, hc, rfl⟩ := map_eq_ok h; exact .fill hc
  | logWrite p i data =>
    obtain ⟨used, hu, hr, hi, h1, h2, h3, ⟨hno, rfl⟩ | ⟨hin, rfl⟩⟩ := logWrite_ok h
    · exact .logNew hu hr hi h1 h2 h3 hno
    · exact .logAbsorb hu hr hi hin
  | brelse p i =>
    simp only [step] at h
    split at h
    · obtain ⟨c, hc, rfl⟩ := map_eq_ok h; exact .brelse ‹_› hc
    · cases h
  | unref p => obtain ⟨c, hc, rfl⟩ := map_eq_ok h; exact .unref hc
  | endOp p =>
    obtain ⟨hr, hop, hc, ⟨h1, rfl⟩ | ⟨h1, rfl⟩⟩ := endOp_ok h
    · exact .endLast hr hop hc h1
    · exact .endOther hr hop hc h1
  | commit =>
    obtain ⟨p, c, a, c', s1, hcom, hp, hpl, hx, rfl⟩ := commit_ok h
    exact .commit hcom hp (plan_cases hpl) (exec_ok hx)
  | crash p => cases h; exact .crash

end State

end FypOs.Log
