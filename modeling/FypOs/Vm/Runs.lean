import FypOs.Vm.System

/-!
# Vm — runs

What holds of memory in every state that any sequence of system calls and stores leads to.

* `address_spaces`: every process has an address space of its size, and no step panics.
* `pages_accounted`: every page is in one place, and what a call has taken comes back if it fails.
-/

namespace FypOs.Vm

open Lib Prog Function Sys

/-! ### The calls -/

section

variable {O : Frame → Prop} {s : Space} {tr tf : Frame} {g sz n : Nat}

/-- **`growproc`** moves the size by `k`, but for a `k` below minus the size, which does nothing. -/
lemma wp_growproc {k : Int32} (h : Good O s) (hs : Spans tr tf g (pages sz) s.pt) :
    wp (growproc sz k) (fun r s' => Good O s' ∧ Keeps O s s' ∧ Spans tr tf g (pages (r.getD sz)) s'.pt ∧
      Low (min (pages sz) (pages (r.getD sz))) s s' ∧ ∀ x, r = some x →
        (x : Int) = (if 0 ≤ (sz : Int) + k.toInt then sz + k.toInt else sz) ∧
          Zeroed (pages sz) (pages x) s') Never s := by
  have hle := hs.le h
  have hk := k.toInt_lt
  have hk' := k.le_toInt
  have hnone (x : Nat) (hx : pages x ≤ pages sz) (s' : Space) : Zeroed (pages sz) (pages x) s' :=
    fun u hu hu' => absurd (hx.trans hu) (Nat.not_le_of_lt hu')
  unfold growproc
  obtain ⟨newsz, hnew⟩ : ∃ newsz, newsz = (((sz : Int) + k.toInt) % 2 ^ 64).toNat := ⟨_, rfl⟩
  rw [← hnew]
  have hsz : sz < 2 ^ 32 := by
    unfold pages PGSIZE at hle
    omega
  refine wp_ite (fun hpos => ?_) fun hpos => wp_ite (fun hneg => ?_) fun hneg => ?_
  · rw [wp_bind]
    refine (wp_uvmalloc h hs).post fun r s1 hpost => ?_
    obtain ⟨h1, hk1, hr, hs1, hlow, hzero⟩ := hpost
    refine wp_ite (fun h0 => ?_) fun h0 => ?_
    · rw [if_pos h0] at hs1
      exact ⟨h1, hk1, hs1, hlow.mono (Nat.min_le_left ..), fun x e => by cases e⟩
    · rw [if_neg h0] at hs1
      refine ⟨h1, hk1, hs1, hlow.mono (Nat.min_le_left ..), fun x e => ?_⟩
      cases e
      refine ⟨?_, hzero h0⟩
      rw [hr h0, if_pos (by omega)]
      omega
  · rw [wp_bind]
    refine (wp_uvmdealloc h hs).post fun r s1 hpost => ?_
    obtain ⟨h1, hk1, hr, hs1, hlow⟩ := hpost
    refine ⟨h1, hk1, hs1, hlow.mono (Nat.min_le_right ..), fun x e => ?_⟩
    cases e
    refine ⟨?_, hnone r (pages_mono (by omega)) s1⟩
    split_ifs <;> omega
  · refine ⟨h, fun _ _ => rfl, hs, .refl _ s, fun x e => ?_⟩
    cases e
    refine ⟨?_, hnone sz le_rfl s⟩
    rw [if_pos (by omega)]
    omega

lemma wp_freeMem (h : Good O s) (htf : O tf) (hs : Spans tr tf g (pages sz) s.pt) :
    wp (freeMem tf sz) (fun _ s' => Good (fun y => O y ∧ y ≠ tf) s' ∧
      Keeps (fun y => O y ∧ y ≠ tf) s s' ∧ s'.pt = Table.empty) Never s := by
  rw [freeMem, wp_bind]
  refine (wp_kfree h htf).post fun _ s1 hpost => ?_
  obtain ⟨hpt1, hk1, h1⟩ := hpost
  have hs1 : Spans tr tf g (pages sz) s1.pt := hpt1 ▸ hs
  refine (wp_procFreepagetable h1 hs1).post fun _ s2 hpost => ?_
  obtain ⟨h2, hk2, hpt2⟩ := hpost
  exact ⟨h2, hk1.trans hk2, hpt2⟩

lemma wp_storeByte {va : Nat} {byte : UInt8} (h : Good O s) (hs : Spans tr tf g n s.pt) :
    wp (storeByte va byte) (fun _ s' => Good O s' ∧ Keeps O s s' ∧ s'.pt = s.pt ∧
      ∀ f, (∀ pte, s.pt.ptes (va / PGSIZE) = some pte → pte.perm.w = true → pte.frame ≠ f) →
        s'.mem.data f = s.mem.data f) Never s := by
  rw [storeByte, wp_modify]
  cases hpte : s.pt.ptes (va / PGSIZE) with
  | none => exact ⟨h, fun _ _ => rfl, rfl, fun _ _ => rfl⟩
  | some pte =>
    dsimp only
    split_ifs with hperm
    · obtain ⟨hu, hw⟩ := Bool.and_eq_true_iff.mp hperm
      obtain ⟨hd, ht, hlt⟩ := h.present (v := va / PGSIZE) (by rw [hpte]; simp)
      have hmax : va / PGSIZE < MAXPAGE := by
        by_contra hge
        rw [hs.top _ (Nat.le_of_not_lt hge)] at hpte
        cases hpte
      have haddr : walkaddr s.pt (va / PGSIZE) = some pte.frame := by
        rw [walkaddr, if_neg (Nat.not_le_of_lt hmax), if_neg, hpte]
        · exact if_pos hu
        · exact not_isNone_or hd ht
      obtain ⟨h1, hk1⟩ := h.write hs haddr (memmove (s.mem.data pte.frame) (va % PGSIZE) [byte])
      exact ⟨h1, hk1, rfl, fun f hf => update_of_ne (Ne.symm (hf pte rfl hw)) _ _⟩
    · exact ⟨h, fun _ _ => rfl, rfl, fun _ _ => rfl⟩

lemma wp_userinitMem {code : List UInt8} (h : Good O s) (hpt : s.pt = Table.empty) :
    wp (userinitMem tr code) (fun r s' => Keeps O s s' ∧ ∀ tf, r = some tf →
      Good (fun y => O y ∨ y = tf) s' ∧ ¬ O tf ∧ Spans tr tf MAXPAGE (pages PGSIZE) s'.pt) Never s := by
  have hp1 : pages PGSIZE = 0 + 1 := by decide
  have h0 : 0 < TRAPFRAME := by decide
  rw [userinitMem, wp_bind]
  refine (wp_kalloc h).post fun r s1 hpost => ?_
  obtain ⟨hpt1, hg, hr⟩ := hpost
  have hk1 := h.keeps hg
  cases r with
  | none => exact ⟨hk1, by simp⟩
  | some tf =>
    obtain ⟨h1, htf, _⟩ := hr
    simp only [wp_bind]
    refine (wp_procPagetable h1 (hpt1.trans hpt) tr tf MAXPAGE).post
      fun r s2 hpost => ?_
    obtain ⟨h2, hk2, htrue2, _⟩ := hpost
    have hk2' : Keeps O s s2 := hk1.trans fun f hf => hk2 f (.inl hf)
    cases r with
    | false => exact ⟨hk2', by simp⟩
    | true =>
      simp only [if_true, wp_bind]
      refine (wp_kalloc h2).post fun r s3 hpost => ?_
      obtain ⟨hpt3, hg3, hr3⟩ := hpost
      have hk3 : Keeps O s s3 := hk2'.trans fun f hf => h2.keeps hg3 f (.inl hf)
      have hs3 : Spans tr tf MAXPAGE 0 s3.pt := hpt3 ▸ htrue2 rfl
      cases r with
      | none => exact ⟨hk3, by simp⟩
      | some x =>
        obtain ⟨h3, hx, _⟩ := hr3
        have hne (f) (hf : O f) : f ≠ x := fun e => hx (.inl (by rw [← e]; exact hf))
        simp only [wp_bind, wp_modify]
        have hnone : (s3.fill x fun _ => 0).pt.ptes 0 = none := hs3.above 0 (Nat.le_refl 0) h0
        refine (wp_mappages (h3.fill x fun _ => 0) (.inr rfl) h0 hnone).post
          fun r s4 hpost => ?_
        obtain ⟨hroot, hdata, _, htrue4, _⟩ := hpost
        have hk4 : Keeps O s s4 := fun f hf => (hdata f fun hf' =>
          h3.ledger.free_other f hf' (.inl (.inl hf))).trans ((update_of_ne (hne f hf) _ _).trans (hk3 f hf))
        cases r with
        | false => exact ⟨hk4, by simp⟩
        | true =>
          obtain ⟨h4, hptes⟩ := htrue4 rfl
          simp only [if_true, wp_bind, wp_modify, wp_pure]
          refine ⟨fun f hf => (update_of_ne (hne f hf) _ _).trans (hk4 f hf), ?_⟩
          rintro _ ⟨⟩
          refine ⟨(h4.fill x _).congr fun y => by grind, htf, ?_⟩
          rw [hp1]
          exact hs3.add h0 hptes hroot rfl fun _ => rfl

end

/-! ### One step -/

section

variable {P : Type} [DecidableEq P] {tr : Frame} {rest : Frame → Prop} {t t' : Sys P} {p q : P} {pr : Proc}

omit [DecidableEq P] in
lemma call_cases (t : Sys P) (p : P) (k : Proc → Outcome (Sys P)) :
    t.call p k = .blocked ∨ ∃ pr, t.procs p = some pr ∧ t.call p k = k pr := by
  unfold call
  cases t.procs p with
  | none => exact .inl rfl
  | some pr =>
    dsimp only
    split_ifs
    · exact .inl rfl
    · exact .inr ⟨pr, rfl, rfl⟩

omit [DecidableEq P] in
/-- A program that returns is run to its end. -/
lemma run_returns {α : Type} {pt : Table} {m : Prog Space α} {Q : α → Space → Prop}
    (h : wp m Q Never ⟨t.mem, pt⟩) : ∃ a s, Q a s ∧ ∀ k : α → Space → Outcome (Sys P), t.run pt m k = k a s := by
  obtain ⟨a, s, hm, hQ⟩ := wp.returns h
  exact ⟨a, s, hQ, fun k => by rw [Sys.run, hm]⟩

/-- The events that change the address space of `q`. -/
def Event.Of (q : P) : Event P → Prop
  | .exec p _ _ | .sbrk p _ | .copyout p _ _ | .store p _ _ | .wait p => p = q
  | .userinit .. | .fork .. | .exit _ | .pipe _ | .closePipe _ => False

/-- What `fork` comes to. -/
def Forks (t t' : Sys P) (p q : P) : Prop :=
  t'.procs = t.procs ∧ t'.fileRef = t.fileRef ∧ t'.inodeRef = t.inodeRef ∨
  ∃ pr pr', t.procs p = some pr ∧ t'.procs q = some pr' ∧ pr'.sz = pr.sz ∧
    Copied pr.pt t.mem.data (pages pr.sz) ⟨t'.mem, pr'.pt⟩

omit [DecidableEq P] in
lemma Sound.source {g : Nat} (h : Sound tr rest t) (hp : t.procs p = some pr)
    (hs : Spans tr pr.trapframe g (pages pr.sz) pr.pt) : Source (t.All rest) g (pages pr.sz) pr.pt := by
  have hg := h.good hp
  have hlt : pages pr.sz < TRAPFRAME := hs.lt hg
  refine ⟨fun v hv => ?_, fun v hv => ?_⟩
  · obtain ⟨pte, hpte, hr, hu⟩ := hs.user v hv
    exact ⟨pte, hpte, hr, hu, .inr ⟨_, held_leaf hp (by omega) hpte⟩⟩
  · obtain ⟨pte, hpte, _⟩ := hs.user v hv
    have hne : (Space.mk t.mem pr.pt).pt.ptes v ≠ none := by
      change pr.pt.ptes v ≠ none
      rw [hpte]
      simp
    exact ⟨(hg.present hne).1, (hg.present hne).2.1⟩

namespace Sound

section

variable (h : Sound tr rest t)

include h

lemma fork (p q : P) : Vm.step tr t (.fork p q) = .blocked ∨
    ∃ t', Vm.step tr t (.fork p q) = .ok t' ∧ Sound tr rest t' ∧ (∀ q', Apart t t' q') ∧
      t.procs q = none ∧ Forks t t' p q := by
  rcases call_cases t p _ with hb | ⟨pr, hp, hk⟩
  · exact .inl hb
  obtain ⟨g, hs⟩ := h.spans p pr hp
  rw [Vm.step, hk]
  cases hq : t.procs q with
  | some _ => exact .inl rfl
  | none =>
    have hwp : wp (forkMem tr pr.pt pr.sz pr.trapframe) _ Never ⟨t.mem, .empty⟩ :=
      wp_forkMem h.spare rfl (h.source hp hs)
    obtain ⟨r, s, ⟨hkeeps, hr⟩, hrun⟩ := run_returns hwp
    dsimp only
    rw [hrun]
    cases r with
    | none =>
      refine .inr ⟨_, rfl, h.same hr.1 hr.2 rfl rfl rfl, fun q' => ?_, rfl, .inl ⟨rfl, rfl, rfl⟩⟩
      exact apart_of_keeps_all hkeeps rfl rfl rfl
    | some tf =>
      obtain ⟨hg, hnew, hspan, hcopied⟩ := hr
      refine .inr ⟨_, rfl, h.add ⟨pr.sz, s.pt, tf, pr.ofile, pr.cwd, false⟩ hq hg hnew hspan rfl rfl rfl rfl
        rfl, fun q' => ?_, rfl, .inr ⟨pr, _, hp, update_self .., rfl, hcopied⟩⟩
      by_cases hqq : q' = q
      · intro pr' hpr'
        rw [hqq, hq] at hpr'
        cases hpr'
      · exact apart_of_keeps_all hkeeps rfl rfl (update_of_ne hqq _ _)

lemma exec (p : P) (image : Image) (args : List Arg) :
    Vm.step tr t (.exec p image args) = .blocked ∨ ∃ t', Vm.step tr t (.exec p image args) = .ok t' ∧
      Sound tr rest t' ∧ (∀ q, q ≠ p → Apart t t' q) ∧ t'.pipes = t.pipes := by
  rcases call_cases t p _ with hb | ⟨pr, hp, hk⟩
  · exact .inl hb
  obtain ⟨g, hs⟩ := h.spans p pr hp
  have hgood := h.good hp
  have hwp : wp (sysExec tr pr.trapframe pr.pt pr.sz image args) _ Never ⟨t.mem, .empty⟩ :=
    wp_sysExec (h.spare.congr (all_iff hp)) rfl (h.shape p pr hp) hs hgood.ledger.inj
      hgood.ledger.held_other
  obtain ⟨r, s, ⟨hkeeps, hr⟩, hrun⟩ := run_returns hwp
  rw [Vm.step, hk, hrun]
  cases r with
  | none =>
    have hall := hr.1.congr fun x => (all_iff hp x).symm
    refine .inr ⟨_, rfl, h.same hall hr.2.1 rfl rfl rfl, fun q hqp => ?_, rfl⟩
    exact apart_of_keeps hqp hkeeps rfl rfl rfl
  | some sz =>
    obtain ⟨hg, g', hspan⟩ := hr
    refine .inr ⟨_, rfl, h.put { pr with sz := sz, pt := s.pt } hp hg hspan rfl rfl rfl rfl rfl,
      fun q hqp => ?_, rfl⟩
    exact apart_of_keeps hqp hkeeps rfl rfl (update_of_ne hqp _ _)

lemma sbrk (p : P) (n : Int32) : Vm.step tr t (.sbrk p n) = .blocked ∨
    ∃ t', Vm.step tr t (.sbrk p n) = .ok t' ∧ Sound tr rest t' ∧ (∀ q, q ≠ p → Apart t t' q) ∧
      t'.pipes = t.pipes ∧ ∃ pr sz s, t.procs p = some pr ∧
        t'.procs = update t.procs p (some { pr with sz := sz, pt := s.pt }) ∧
        Low (min (pages pr.sz) (pages sz)) ⟨t.mem, pr.pt⟩ s := by
  rcases call_cases t p _ with hb | ⟨pr, hp, hk⟩
  · exact .inl hb
  obtain ⟨g, hs⟩ := h.spans p pr hp
  have hwp : wp (growproc pr.sz n) _ Never ⟨t.mem, pr.pt⟩ := wp_growproc (h.good hp) hs
  obtain ⟨r, s, ⟨hg, hkeeps, hspan, hlow, -⟩, hrun⟩ := run_returns hwp
  rw [Vm.step, hk, hrun]
  refine .inr ⟨_, rfl, h.put { pr with sz := r.getD pr.sz, pt := s.pt } hp hg hspan rfl rfl rfl rfl rfl,
    fun q hqp => ?_, rfl, pr, r.getD pr.sz, s, hp, rfl, hlow⟩
  exact apart_of_keeps hqp hkeeps rfl rfl (update_of_ne hqp _ _)

lemma userinit (p : P) (code : List UInt8) :
    Vm.step tr t (.userinit p code) = .blocked ∨ ∃ t', Vm.step tr t (.userinit p code) = .ok t' ∧
      Sound tr rest t' ∧ ∀ q, Apart t t' q := by
  rw [Vm.step]
  cases hp : t.procs p with
  | some _ => exact .inl rfl
  | none =>
    have hwp : wp (userinitMem tr code) _ Never ⟨t.mem, .empty⟩ := wp_userinitMem h.spare rfl
    obtain ⟨r, s, ⟨hkeeps, hr⟩, hrun⟩ := run_returns hwp
    dsimp only
    rw [hrun]
    cases r with
    | none => exact .inl rfl
    | some tf =>
      obtain ⟨hg, hnew, hspan⟩ := hr tf rfl
      refine .inr ⟨_, rfl, h.add ⟨PGSIZE, s.pt, tf, [], 0, false⟩ hp hg hnew hspan rfl rfl rfl rfl rfl,
        fun q => ?_⟩
      by_cases hqp : q = p
      · intro pr' hpr'
        rw [hqp, hp] at hpr'
        cases hpr'
      · exact apart_of_keeps_all hkeeps rfl rfl (update_of_ne hqp _ _)

lemma wait (q : P) : Vm.step tr t (.wait q) = .blocked ∨
    ∃ t', Vm.step tr t (.wait q) = .ok t' ∧ Sound tr rest t' ∧ (∀ q', q' ≠ q → Apart t t' q') ∧
      t'.procs = update t.procs q none ∧ t'.pipes = t.pipes := by
  rw [Vm.step]
  cases hq : t.procs q with
  | none => exact .inl rfl
  | some pr =>
    dsimp only
    split_ifs
    · obtain ⟨g, hs⟩ := h.spans q pr hq
      have htf : t.Others rest q pr.trapframe := .inr ⟨.trapframe q, by simp, by simp [held, hq]⟩
      have hwp : wp (freeMem pr.trapframe pr.sz) _ Never ⟨t.mem, pr.pt⟩ := wp_freeMem (h.good hq) htf hs
      obtain ⟨r, s, ⟨hg, hkeeps, hpt⟩, hrun⟩ := run_returns hwp
      rw [hrun]
      refine .inr ⟨_, rfl, h.remove hq hg hpt rfl rfl rfl, fun q' hqq => ?_, rfl, rfl⟩
      intro pr' hq'
      refine ⟨pr', (update_of_ne hqq _ _).trans hq', rfl, fun v pte hv hpte => ?_⟩
      have hheld := held_leaf hq' hv hpte
      have hne : pte.frame ≠ pr.trapframe := fun e => by
        have htf' : t.held (.trapframe q) = some pte.frame := by simp [held, hq, e]
        cases h.ledger.inj _ _ _ hheld htf'
      exact hkeeps pte.frame ⟨.inr ⟨_, fun a e => hqq (Holder.part.inj e).1.symm, hheld⟩, hne⟩
    · exact .inl rfl

lemma exit (p : P) : Vm.step tr t (.exit p) = .blocked ∨
    ∃ t', Vm.step tr t (.exit p) = .ok t' ∧ Sound tr rest t' ∧ ∀ q, Apart t t' q := by
  rcases call_cases t p _ with hb | ⟨pr, hp, hk⟩
  · exact .inl hb
  obtain ⟨g, hs⟩ := h.spans p pr hp
  rw [Vm.step, hk]
  refine .inr ⟨_, rfl, h.put { pr with ofile := [], exited := true } hp (h.good hp) hs rfl rfl rfl rfl rfl,
    fun q pr' hq => ?_⟩
  by_cases hqp : q = p
  · rw [hqp, hp] at hq
    cases hq
    exact ⟨{ pr with ofile := [], exited := true }, by simp [hqp], rfl, fun _ _ _ _ => rfl⟩
  · exact ⟨pr', (update_of_ne hqp _ _).trans hq, rfl, fun _ _ _ _ => rfl⟩

lemma writes {s : Space} (hp : t.procs p = some pr) (hg : Good (t.Others rest p) s)
    (hpt : s.pt = pr.pt) (hmem : t'.mem = s.mem) (hprocs : t'.procs = t.procs)
    (hpipes : t'.pipes = t.pipes) : Sound tr rest t' := by
  obtain ⟨g, hs⟩ := h.spans p pr hp
  refine h.put pr hp hg (by rw [hpt]; exact hs) hpt.symm rfl hmem ?_ hpipes
  rw [hprocs, ← hp, update_eq_self]

lemma copyout (p : P) (dstva : Nat) (src : List UInt8) :
    Vm.step tr t (.copyout p dstva src) = .blocked ∨ ∃ t', Vm.step tr t (.copyout p dstva src) = .ok t' ∧
      Sound tr rest t' ∧ (∀ q, q ≠ p → Apart t t' q) ∧ t'.procs = t.procs ∧ t'.pipes = t.pipes ∧
      ∃ pr, t.procs p = some pr ∧
        ∀ f, (∀ v, dstva / PGSIZE ≤ v → v * PGSIZE < dstva + src.length → walkaddr pr.pt v ≠ some f) →
          t'.mem.data f = t.mem.data f := by
  rcases call_cases t p _ with hb | ⟨pr, hp, hk⟩
  · exact .inl hb
  obtain ⟨g, hs⟩ := h.spans p pr hp
  have hwp : wp (Vm.copyout dstva src) _ Never ⟨t.mem, pr.pt⟩ := wp_copyout (h.good hp) hs
  obtain ⟨r, s, ⟨hg, hkeeps, hpt, hdata⟩, hrun⟩ := run_returns hwp
  rw [Vm.step, hk, hrun]
  refine .inr ⟨_, rfl, h.writes hp hg hpt rfl rfl rfl, fun q hqp => ?_, rfl, rfl, pr, hp, hdata⟩
  exact apart_of_keeps hqp hkeeps rfl rfl rfl

lemma store (p : P) (va : Nat) (byte : UInt8) :
    Vm.step tr t (.store p va byte) = .blocked ∨ ∃ t', Vm.step tr t (.store p va byte) = .ok t' ∧
      Sound tr rest t' ∧ ∀ q, q ≠ p → Apart t t' q := by
  rcases call_cases t p _ with hb | ⟨pr, hp, hk⟩
  · exact .inl hb
  obtain ⟨g, hs⟩ := h.spans p pr hp
  have hwp : wp (storeByte va byte) _ Never ⟨t.mem, pr.pt⟩ := wp_storeByte (h.good hp) hs
  obtain ⟨r, s, ⟨hg, hkeeps, hpt, _⟩, hrun⟩ := run_returns hwp
  rw [Vm.step, hk, hrun]
  refine .inr ⟨_, rfl, h.writes hp hg hpt rfl rfl rfl, fun q hqp => ?_⟩
  exact apart_of_keeps hqp hkeeps rfl rfl rfl

omit [DecidableEq P] in
lemma pipes (hl : Ledger t'.mem.free t'.held rest) (hprocs : t'.procs = t.procs) :
    Sound tr rest t' := ⟨hl, hprocs ▸ h.shape, hprocs ▸ h.spans⟩

lemma pipe (k : Nat) : Vm.step tr t (.pipe k) = .blocked ∨
    ∃ t', Vm.step tr t (.pipe k) = .ok t' ∧ Sound tr rest t' ∧ ∀ q, Apart t t' q := by
  rw [Vm.step]
  cases hk : t.pipes k with
  | some _ => exact .inl rfl
  | none =>
    have hwp : wp kalloc _ Never ⟨t.mem, .empty⟩ := wp_kalloc h.spare
    obtain ⟨r, s, ⟨hpt, hgrows, hr⟩, hrun⟩ := run_returns hwp
    have hkeeps := h.spare.keeps hgrows
    dsimp only
    rw [hrun]
    cases r with
    | none =>
      refine .inr ⟨_, rfl, h.same hr hpt rfl rfl rfl, fun q => ?_⟩
      exact apart_of_keeps_all hkeeps rfl rfl rfl
    | some x =>
      obtain ⟨hg, hnew, _⟩ := hr
      have hnone (a) : s.pt.held a = none := by rw [hpt]; exact held_empty a
      have hx : ∀ a y, t.held a = some y → ¬ (rest y ∨ y = x) := by
        rintro a y ha (hy | rfl)
        · exact h.ledger.held_other a y ha hy
        · exact hnew (.inr ⟨a, ha⟩)
      have hl : Ledger s.mem.free t.held fun y => rest y ∨ y = x := by
        refine ((hg.ledger.congr fun y => ?_).swap h.ledger.inj hx).congr fun y => by simp [hnone]
        unfold Sys.All
        grind
      refine .inr ⟨_, rfl, h.pipes ?_ rfl, fun q => apart_of_keeps_all hkeeps rfl rfl rfl⟩
      have hput := hl.put (a := Holder.pipe k) (x := x) (.inr rfl) hk
      have hrest : ¬ rest x := fun hr => hnew (.inl hr)
      have hheld : held { t with mem := s.mem, pipes := update t.pipes k (some x) } =
          update t.held (.pipe k) (some x) := by
        funext b
        cases b <;> simp [held, update_apply]
      rw [hheld]
      exact hput.congr fun y => by grind

lemma closePipe (k : Nat) : Vm.step tr t (.closePipe k) = .blocked ∨
    ∃ t', Vm.step tr t (.closePipe k) = .ok t' ∧ Sound tr rest t' ∧ ∀ q, Apart t t' q := by
  rw [Vm.step]
  cases hk : t.pipes k with
  | none => exact .inl rfl
  | some x =>
    have hheld : t.held (.pipe k) = some x := hk
    have hall : t.All rest x := .inr ⟨_, hheld⟩
    have hwp : wp (kfree x) _ Never ⟨t.mem, .empty⟩ := wp_kfree h.spare hall
    refine .inr ⟨_, rfl, h.pipes ?_ rfl, fun q pr hq => ⟨pr, hq, rfl, fun v pte hv hpte => ?_⟩⟩
    · have hheld' : held { t with pipes := update t.pipes k none } = update t.held (.pipe k) none := by
        funext b
        cases b <;> simp [held, update_apply]
      exact hheld' ▸ h.ledger.recycle hheld
    · refine update_of_ne (fun e => ?_) _ _
      cases h.ledger.inj _ _ _ hheld (e ▸ held_leaf hq hv hpte)

/-- **One step** returns, and changes no address space but those it is about. -/
lemma step (e : Event P) : Vm.step tr t e = .blocked ∨
    ∃ t', Vm.step tr t e = .ok t' ∧ Sound tr rest t' ∧ ∀ q, ¬ e.Of q → Apart t t' q := by
  cases e with
  | userinit p code => exact (h.userinit p code).imp_right fun ⟨t', hs, h', ha⟩ => ⟨t', hs, h', fun q _ => ha q⟩
  | fork p q => exact (h.fork p q).imp_right fun ⟨t', hs, h', ha, _⟩ => ⟨t', hs, h', fun q _ => ha q⟩
  | exec p image args =>
    refine (h.exec p image args).imp_right fun ⟨t', hs, h', ha, _⟩ => ⟨t', hs, h', fun q hq => ?_⟩
    exact ha q (Ne.symm hq)
  | sbrk p n =>
    refine (h.sbrk p n).imp_right fun ⟨t', hs, h', ha, _⟩ => ⟨t', hs, h', fun q hq => ?_⟩
    exact ha q (Ne.symm hq)
  | exit p => exact (h.exit p).imp_right fun ⟨t', hs, h', ha⟩ => ⟨t', hs, h', fun q _ => ha q⟩
  | wait p =>
    refine (h.wait p).imp_right fun ⟨t', hs, h', ha, _⟩ => ⟨t', hs, h', fun q hq => ?_⟩
    exact ha q (Ne.symm hq)
  | pipe k => exact (h.pipe k).imp_right fun ⟨t', hs, h', ha⟩ => ⟨t', hs, h', fun q _ => ha q⟩
  | closePipe k => exact (h.closePipe k).imp_right fun ⟨t', hs, h', ha⟩ => ⟨t', hs, h', fun q _ => ha q⟩
  | copyout p dstva src =>
    refine (h.copyout p dstva src).imp_right fun ⟨t', hs, h', ha, _⟩ => ⟨t', hs, h', fun q hq => ?_⟩
    exact ha q (Ne.symm hq)
  | store p va byte =>
    refine (h.store p va byte).imp_right fun ⟨t', hs, h', ha⟩ => ⟨t', hs, h', fun q hq => ?_⟩
    exact ha q (Ne.symm hq)

end

end Sound

/-! ### Runs -/

omit [DecidableEq P] in
lemma sound_boot {mem : Mem} (hfree : mem.free.Nodup) :
    Sound tr (fun x => x ∉ mem.free) (boot mem : Sys P) := by
  have hheld (b) : (boot mem : Sys P).held b = none := by cases b <;> rfl
  refine ⟨⟨hfree, ?_, ?_, ?_, ?_, ?_⟩, nofun, nofun⟩
  · intro a b x ha
    rw [hheld] at ha
    cases ha
  · intro x a _ ha
    rw [hheld] at ha
    cases ha
  · exact fun x hx hn => hn hx
  · intro a x ha
    rw [hheld] at ha
    cases ha
  · exact fun x hx hn => absurd hx hn

/-- **Runs.**  `D` says which steps are taken. -/
lemma sound_of_reach {mem : Mem} {D : Sys P → Event P → Prop} (hfree : mem.free.Nodup)
    (hr : Reach (step tr) D (boot mem) t) : Sound tr (fun x => x ∉ mem.free) t := by
  refine hr.invariant (I := Sound tr fun x => x ∉ mem.free) (sound_boot hfree) fun {t e t'} h _ hs => ?_
  rcases h.step e with hb | ⟨t1, hs1, h1, _⟩
  · rw [hb] at hs
    cases hs
  · rw [hs1] at hs
    cases hs
    exact h1

/-- Pages 8 to 31 are free, and every call of `kalloc` is served. -/
def someMem : Mem := ⟨(List.finRange 24).map fun i => ⟨i.val + 8, by omega⟩, fun _ _ => 0, fun _ => true, 0⟩

omit [DecidableEq P] in
/-- Who holds the same pages leaves the same pages free. -/
lemma Sound.free_iff (h : Sound tr rest t) (h' : Sound tr rest t') (hprocs : t'.procs = t.procs)
    (hpipes : t'.pipes = t.pipes) (x : Frame) : x ∈ t'.mem.free ↔ x ∈ t.mem.free := by
  have hheld : t'.held = t.held := by
    funext b
    cases b <;> simp only [held, hprocs, hpipes]
  have hout {t1 t2 : Sys P} (h1 : Sound tr rest t1) (h2 : Sound tr rest t2) (e : t2.held = t1.held)
      (hx : x ∈ t1.mem.free) : x ∈ t2.mem.free := by
    by_contra hn
    obtain ⟨a, ha⟩ := h2.ledger.cover x hn (h1.ledger.free_other x hx)
    exact h1.ledger.free_held x a hx (by rw [← e]; exact ha)
  exact ⟨hout h' h hheld.symm, hout h h' hheld⟩

/-- **Physical pages.**  In every state that a run leads to, every page is in exactly one place: once in the
free list, among those taken before the first process, or held by one process or pipe, for one purpose.  A call
that leaves the processes and the pipes as they were leaves the same pages free; an `sbrk` that leaves the
size as it was takes no pages but for the caller's table; and a process that is reaped leaves all of its pages
free. -/
theorem pages_accounted {mem : Mem} (hfree : mem.free.Nodup)
    (hr : Reach (step tr) (fun _ _ => True) (boot mem) t) :
    t.mem.free.Nodup ∧ (∀ x, x ∈ t.mem.free ∧ x ∈ mem.free ∧ (∀ b, t.held b ≠ some x) ∨
      x ∉ t.mem.free ∧ x ∉ mem.free ∧ (∀ b, t.held b ≠ some x) ∨
      x ∉ t.mem.free ∧ x ∈ mem.free ∧ ∃ b, t.held b = some x ∧ ∀ b', t.held b' = some x → b' = b) ∧
    (∀ e t', step tr t e = .ok t' → t'.procs = t.procs → t'.pipes = t.pipes →
      ∀ x, x ∈ t'.mem.free ↔ x ∈ t.mem.free) ∧
    (∀ p n t' pr pr', step tr t (.sbrk p n) = .ok t' → t.procs p = some pr → t'.procs p = some pr' →
      pr'.sz = pr.sz → ∀ x, x ∈ t.mem.free → x ∈ t'.mem.free ∨
        ∃ i, pr'.pt.dirs i = some x ∨ pr'.pt.tabs i = some x) ∧
    (∀ q t' pr, step tr t (.wait q) = .ok t' → t.procs q = some pr → pr.trapframe ∈ t'.mem.free ∧
      ∀ a x, pr.pt.held a = some x → x ∈ t'.mem.free) := by
  have h := sound_of_reach hfree hr
  refine ⟨h.ledger.nodup, fun x => ?_, fun e t' hs hprocs hpipes x => ?_, ?_, ?_⟩
  · by_cases hx : x ∈ t.mem.free
    · refine .inl ⟨hx, ?_, fun b => h.ledger.free_held x b hx⟩
      by_contra hn
      exact h.ledger.free_other x hx hn
    · by_cases hm : x ∈ mem.free
      · obtain ⟨b, hb⟩ := h.ledger.cover x hx fun hn => hn hm
        exact .inr (.inr ⟨hx, hm, b, hb, fun b' hb' => h.ledger.inj _ _ _ hb' hb⟩)
      · exact .inr (.inl ⟨hx, hm, fun b hb => h.ledger.held_other b x hb hm⟩)
  · rcases h.step e with hb | ⟨t₁, hs₁, h₁, _⟩
    · rw [hb] at hs
      cases hs
    · rw [hs₁] at hs
      cases hs
      exact h.free_iff h₁ hprocs hpipes x
  · intro p n t' pr pr' hs hp hp' hsz x hx
    rcases h.sbrk p n with hb | ⟨t₁, hs₁, h₁, _, hpipes, pr₀, sz, s, hp₀, hprocs, hlow⟩
    · rw [hb] at hs
      cases hs
    · rw [hs₁] at hs
      cases hs
      rw [hp] at hp₀
      cases hp₀
      rw [hprocs, update_self] at hp'
      cases hp'
      by_contra hn
      obtain ⟨hn, htab⟩ := not_or.mp hn
      obtain ⟨b, hb⟩ := h₁.ledger.cover x hn (h.ledger.free_other x hx)
      -- whatever holds the page now has held it before
      refine h.ledger.free_held x b hx ?_
      cases b with
      | pipe k => simpa only [held, hpipes] using hb
      | trapframe q =>
        by_cases hqp : q = p
        · rw [hqp] at hb ⊢
          simpa [held, hprocs, hp] using hb
        · simpa [held, hprocs, hqp] using hb
      | part q a =>
        by_cases hqp : q = p
        · rw [hqp] at hb ⊢
          simp only [held, hprocs, update_self, Option.bind_some] at hb
          simp only [held, hp, Option.bind_some]
          obtain ⟨g, hs'⟩ := h₁.spans p _ (by rw [hprocs]; exact update_self ..)
          cases a with
          | root => exact hlow.root.symm.trans hb
          | dir i => exact absurd ⟨i, .inl hb⟩ htab
          | tab i => exact absurd ⟨i, .inr hb⟩ htab
          | leaf v =>
            simp only [Table.held] at hb ⊢
            split_ifs at hb ⊢ with hv
            by_cases hlt : v < pages sz
            · have hmin : v < min (pages pr.sz) (pages sz) := by
                have hsz' : sz = pr.sz := hsz
                rw [hsz', Nat.min_self]
                exact hsz' ▸ hlt
              rw [← hb, hlow.ptes v hmin]
            · have hnone := hs'.above v (Nat.le_of_not_lt hlt) hv
              rw [hnone] at hb
              cases hb
        · simpa [held, hprocs, hqp] using hb
  · intro q t' pr hs hq
    rcases h.wait q with hb | ⟨t₁, hs₁, h₁, _, hprocs, hpipes⟩
    · rw [hb] at hs
      cases hs
    · rw [hs₁] at hs
      cases hs
      have hback (b x) (hb : t'.held b = some x) : t.held b = some x ∧ ∀ a, b ≠ .part q a ∧ b ≠ .trapframe q := by
        cases b with
        | pipe k => exact ⟨by simpa only [held, hpipes] using hb, fun a => ⟨by simp, by simp⟩⟩
        | trapframe q' =>
          by_cases hqq : q' = q
          · simp [held, hprocs, hqq] at hb
          · exact ⟨by simpa [held, hprocs, hqq] using hb, fun a => ⟨by simp, by simp [hqq]⟩⟩
        | part q' a' =>
          by_cases hqq : q' = q
          · simp [held, hprocs, hqq] at hb
          · exact ⟨by simpa [held, hprocs, hqq] using hb, fun a => ⟨by simp [hqq], by simp⟩⟩
      have hgone (b x) (hb : t.held b = some x) (hof : (∃ a, b = .part q a) ∨ b = .trapframe q) :
          x ∈ t'.mem.free := by
        by_contra hn
        obtain ⟨b', hb'⟩ := h₁.ledger.cover x hn (h.ledger.held_other b x hb)
        obtain ⟨hb₀, hne⟩ := hback b' x hb'
        obtain rfl := h.ledger.inj _ _ _ hb hb₀
        rcases hof with ⟨a, e⟩ | e
        · exact (hne a).1 e
        · exact (hne .root).2 e
      refine ⟨hgone (.trapframe q) _ (by simp [held, hq]) (.inr rfl), fun a x ha => ?_⟩
      exact hgone (.part q a) x (by simp [held, hq, ha]) (.inl ⟨a, rfl⟩)

/-- A process is forked, exits and is reaped. -/
def reapRun : List (Event (Fin 2)) := [.userinit 0 [1, 2], .fork 0 1, .exit 1, .wait 1]

theorem pages_accounted_sample : ∃ t : Sys (Fin 2), Reach (step 0) (fun _ _ => True) (boot someMem) t ∧
    (t.procs 1).isNone ∧ t.mem.free.length = 17 ∧ t.mem.free.Nodup := by
  have h : runTest (step 0) (fun _ _ => True) (boot someMem) reapRun
      (fun t => (t.procs 1).isNone && t.mem.free.length == 17) = true := by
    decide +kernel
  obtain ⟨t, ht, hc⟩ := Reach.of_runTest h
  simp only [Bool.and_eq_true, beq_iff_eq] at hc
  exact ⟨t, ht, hc.1, hc.2, (pages_accounted (by decide +kernel) ht).1⟩

end

end FypOs.Vm
