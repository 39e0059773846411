import FypOs.Vm.Runs

/-!
# Vm — isolation

* `fork_isolates`: what a new process sees, and that no other process can change what a process sees.
* `readonly_kept`: system calls that write to pages with `PTE_W` change no page without it.
* `copyout_readonly`: `copyout` does not ask for `PTE_W`.
-/

namespace FypOs.Vm

open Lib Prog

section

variable {P : Type} [DecidableEq P] {tr : Frame} {rest : Frame → Prop} {t t' : Sys P} {p q : P}

/-- The entry for a page, in the table of a process. -/
def Sys.pte (t : Sys P) (p : P) (v : Nat) : Option Pte := (t.procs p).bind fun pr => pr.pt.ptes v

/-- What a process can read at an address. -/
def Sys.read (t : Sys P) (p : P) (va : Nat) : Option UInt8 :=
  match t.procs p with
  | none => none
  | some pr =>
    match pr.pt.ptes (va / PGSIZE) with
    | some pte => if pte.perm.r && pte.perm.u then some (t.mem.data pte.frame (va % PGSIZE)) else none
    | none => none

omit [DecidableEq P] in
/-- A process that is left alone reads what it has read before. -/
lemma Apart.read (ha : Apart t t' q) (h : Sound tr rest t) (hq : t.procs q ≠ none) (va : Nat) :
    t'.read q va = t.read q va := by
  obtain ⟨pr, hpr⟩ := Option.ne_none_iff_exists'.mp hq
  obtain ⟨pr', hpr', hpt, hdata⟩ := ha pr hpr
  obtain ⟨g, hs⟩ := h.spans q pr hpr
  simp only [Sys.read, hpr, hpr', hpt]
  cases hpte : pr.pt.ptes (va / PGSIZE) with
  | none => rfl
  | some pte =>
    dsimp only
    split_ifs with hperm
    · have hu := (Bool.and_eq_true_iff.mp hperm).2
      have hv : va / PGSIZE < TRAPFRAME := by
        -- the pages above are not for users
        by_contra hge
        have htop : TRAMPOLINE + 1 = MAXPAGE ∧ TRAPFRAME + 1 = TRAMPOLINE := by decide
        rcases Nat.lt_trichotomy (va / PGSIZE) TRAMPOLINE with hlt | heq | hgt
        · rw [show va / PGSIZE = TRAPFRAME by omega, hs.trapframe] at hpte
          cases hpte
          cases hu
        · rw [heq, hs.trampoline] at hpte
          cases hpte
          cases hu
        · rw [hs.top _ (by omega)] at hpte
          cases hpte
      rw [hdata _ pte hv hpte]
    · rfl

/-- A process that is left alone is still there. -/
lemma read_of_reach (h : Sound tr rest t) (hr : Reach (step tr) (fun _ e => ¬ e.Of q) t t')
    (hq : t.procs q ≠ none) : Sound tr rest t' ∧ t'.procs q ≠ none ∧ ∀ va, t'.read q va = t.read q va := by
  refine hr.invariant (I := fun t' => Sound tr rest t' ∧ t'.procs q ≠ none ∧ ∀ va, t'.read q va = t.read q va)
    ⟨h, hq, fun _ => rfl⟩ fun {t1 e t2} ⟨h1, hq1, hread⟩ hD hs => ?_
  rcases h1.step e with hb | ⟨t2', hs', h2, ha⟩
  · rw [hb] at hs
    cases hs
  · rw [hs'] at hs
    cases hs
    have hap := ha q hD
    obtain ⟨pr, hpr⟩ := Option.ne_none_iff_exists'.mp hq1
    obtain ⟨pr', hpr', _⟩ := hap pr hpr
    exact ⟨h2, by rw [hpr']; simp, fun va => (hap.read h1 hq1 va).trans (hread va)⟩

/-- **`fork`** that succeeds gives the new process pages of its own, with the flags and the contents of those
of the parent; one that fails leaves the processes, their memory and the reference counts as they were.
Afterwards, what happens in other processes changes nothing that a process can read. -/
theorem fork_isolates (h : Sound tr rest t) : (∀ p q t', step tr t (.fork p q) = .ok t' →
      (t'.procs q = none → t'.procs = t.procs ∧ t'.fileRef = t.fileRef ∧ t'.inodeRef = t.inodeRef) ∧
      (∀ pr', t'.procs q = some pr' → ∃ pr, t.procs p = some pr ∧ pr'.sz = pr.sz ∧
        ∀ v, v < pages pr.sz → ∃ pte pte', pr.pt.ptes v = some pte ∧ pr'.pt.ptes v = some pte' ∧
          pte'.perm = pte.perm ∧ t'.mem.data pte'.frame = t.mem.data pte.frame ∧
          ∀ b, t'.held b = some pte'.frame → b = .part q (.leaf v)) ∧
      ∀ q' va, t.procs q' ≠ none → t'.read q' va = t.read q' va) ∧
    ∀ q t', Reach (step tr) (fun _ e => ¬ e.Of q) t t' → t.procs q ≠ none → ∀ va, t'.read q va = t.read q va := by
  refine ⟨fun p q t' hs => ?_, fun q t' hr hq => (read_of_reach h hr hq).2.2⟩
  rcases h.fork p q with hb | ⟨t₁, hs₁, h₁, ha, hq, hforks⟩
  · rw [hb] at hs
    cases hs
  · rw [hs₁] at hs
    cases hs
    refine ⟨fun hnone => ?_, fun pr' hpr' => ?_, fun q' va hq' => (ha q').read h hq' va⟩
    · rcases hforks with hsame | ⟨pr, pr', _, hpr', _⟩
      · exact hsame
      · rw [hnone] at hpr'
        cases hpr'
    · rcases hforks with ⟨hsame, _⟩ | ⟨pr, pr₁, hp, hpr₁, hsz, hcopied⟩
      · rw [hsame, hq] at hpr'
        cases hpr'
      · rw [hpr₁] at hpr'
        cases hpr'
        refine ⟨pr, hp, hsz, fun v hv => ?_⟩
        obtain ⟨pte, pte', hpte, hpte', hperm, hdata⟩ := hcopied v hv
        obtain ⟨g, hs₁⟩ := h₁.spans q pr' hpr₁
        have hlt : pages pr'.sz < TRAPFRAME := hs₁.lt (h₁.good hpr₁)
        have hheld := held_leaf hpr₁ (by rw [hsz] at hlt; omega) hpte'
        exact ⟨pte, pte', hpte, hpte', hperm, hdata, fun b hb => h₁.ledger.inj _ _ _ hb hheld⟩

/-- Parent and child have the byte that the parent had. -/
theorem fork_isolates_sample : ∃ t t' : Sys (Fin 2),
    Reach (step 0) (fun _ _ => True) (boot someMem) t ∧ step 0 t (.fork 0 1) = .ok t' ∧
    t.read 0 1 = some 2 ∧ t'.read 0 1 = some 2 ∧ t'.read 1 1 = some 2 := by
  have h : runTest (step 0) (fun _ _ => True) (boot someMem : Sys (Fin 2)) [.userinit 0 [1, 2]]
      (fun t => (step 0 t (.fork 0 1)).test (·.read 1 1 = some 2) && (t.read 0 1 == some 2) &&
        (t.procs 0).isSome) = true := by decide +kernel
  obtain ⟨t, ht, hc⟩ := Reach.of_runTest h
  simp only [Bool.and_eq_true, beq_iff_eq] at hc
  obtain ⟨t', hs, hchild⟩ := Outcome.of_test hc.1.1
  have hsound : Sound 0 (fun x => x ∉ someMem.free) t := sound_of_reach (by decide +kernel) ht
  refine ⟨t, t', ht, hs, hc.1.2, ?_, of_decide_eq_true hchild⟩
  rw [((fork_isolates hsound).1 0 1 t' hs).2.2 0 1 (Option.isSome_iff_ne_none.mp hc.2)]
  exact hc.1.2

/-! ### Read-only pages -/

/-- A system call writes to pages of the user that have `PTE_W`. -/
def Writable (t : Sys P) : Event P → Prop
  | .copyout p dstva src => ∀ pr v pte, t.procs p = some pr → dstva / PGSIZE ≤ v →
      v * PGSIZE < dstva + src.length → pr.pt.ptes v = some pte → pte.perm.u = true → pte.perm.w = true
  | _ => True

/-- **Read-only pages.**  In every run in which `copyout` is asked to write to pages with `PTE_W` only, it
changes no page that is mapped without it. -/
theorem readonly_kept {mem : Mem} (hfree : mem.free.Nodup) (hr : Reach (step tr) Writable (boot mem) t)
    {dstva : Nat} {src : List UInt8} (hD : Writable t (.copyout p dstva src))
    (hs : step tr t (.copyout p dstva src) = .ok t') :
    ∀ q v pte, v < TRAPFRAME → t.pte q v = some pte → pte.perm.w = false →
      t'.mem.data pte.frame = t.mem.data pte.frame := by
  intro q v pte hv hpte hw
  obtain ⟨pr, hq, hpte⟩ := Option.bind_eq_some_iff.mp hpte
  have h := sound_of_reach hfree hr
  rcases h.copyout p dstva src with hb | ⟨t₁, hs₁, _, _, _, _, pr₀, hp, hdata⟩
  · rw [hb] at hs
    cases hs
  · rw [hs₁] at hs
    cases hs
    refine hdata pte.frame fun u hu hlt haddr => ?_
    obtain ⟨g, hs⟩ := h.spans p pr₀ hp
    have hlt' : pages pr₀.sz < TRAPFRAME := hs.lt (h.good hp)
    have haddr' : walkaddr (Space.mk t.mem pr₀.pt).pt u = some pte.frame := haddr
    obtain ⟨hun, pte₀, hpte₀, hframe⟩ := Spans.of_walkaddr hs haddr'
    have hu₀ : pte₀.perm.u = true := by
      have hpte₀' : pr₀.pt.ptes u = some pte₀ := hpte₀
      simp only [walkaddr, hpte₀'] at haddr
      split_ifs at haddr with _ _ hu₀
      exact hu₀
    -- the page that is written and the one without `PTE_W` are one and the same
    have hsame := h.ledger.inj _ _ _ (held_leaf hp (by omega) hpte₀) (hframe ▸ held_leaf hq hv hpte)
    obtain ⟨hpq, huv⟩ := Holder.part.inj hsame
    rw [← hpq, hp] at hq
    cases hq
    rw [← Place.leaf.inj huv] at hpte
    have hpte₁ : some pte₀ = some pte := hpte₀.symm.trans hpte
    cases hpte₁
    have hw' := hD pr u pte hp hu hlt hpte hu₀
    rw [hw] at hw'
    cases hw'

end

/-- A program of one page of text. -/
def textImage : Image := ⟨true, [some ⟨true, 5, 0, 4, 4, fun _ => [1, 2, 3, 4]⟩]⟩

/-- The first process executes a program, and a system call writes to its stack. -/
theorem readonly_kept_sample : ∃ t t' : Sys (Fin 1), Reach (step 0) Writable (boot someMem) t ∧
    step 0 t (.copyout 0 8192 [7]) = .ok t' ∧ (t.pte 0 0).map (fun pte => pte.perm.w) = some false ∧
    ∀ pte, t.pte 0 0 = some pte → pte.perm.w = false → t'.mem.data pte.frame = t.mem.data pte.frame := by
  have h : ((step 0 (boot someMem : Sys (Fin 1)) (.userinit 0 [])).test fun t₀ =>
      (step 0 t₀ (.exec 0 textImage [])).test fun t =>
        (t.pte 0 0).map (fun pte => pte.perm.w) == some false &&
        (t.pte 0 2).map (fun pte => pte.perm.w) == some true &&
        (step 0 t (.copyout 0 8192 [7])).test fun _ => true) = true := by decide +kernel
  obtain ⟨t₀, hs₀, h₀⟩ := Outcome.of_test h
  obtain ⟨t, hs, hc⟩ := Outcome.of_test h₀
  simp only [Bool.and_eq_true, beq_iff_eq] at hc
  obtain ⟨t', hs', _⟩ := Outcome.of_test hc.2
  have hreach : Reach (step 0) Writable (boot someMem) t := by
    refine .tail (.tail .refl ?_ hs₀) ?_ hs
    · trivial
    · trivial
  have hD : Writable t (.copyout 0 8192 [7]) := by
    intro pr v pte hp hv hlt hpte _
    obtain rfl : v = 2 := by
      unfold PGSIZE at hv hlt
      simp only [List.length_singleton] at hlt
      omega
    have hw := hc.1.2
    simp only [Sys.pte, hp, Option.bind_some, hpte, Option.map_some, Option.some_inj] at hw
    exact hw
  exact ⟨t, t', hreach, hs', hc.1.1, fun pte =>
    readonly_kept (by decide +kernel) hreach hD hs' 0 0 pte (by decide)⟩

/-- **`copyout` does not ask for `PTE_W`**: a system call writes to the text of a program. -/
theorem copyout_readonly : ∃ t t' : Sys (Fin 1), Reach (step 0) (fun _ _ => True) (boot someMem) t ∧
    step 0 t (.copyout 0 0 [7]) = .ok t' ∧ (t.pte 0 0).map (fun pte => pte.perm.w) = some false ∧
    t.read 0 0 = some 1 ∧ t'.read 0 0 = some 7 := by
  have h : runTest (step 0) (fun _ _ => True) (boot someMem : Sys (Fin 1)) [.userinit 0 [], .exec 0 textImage []]
      (fun t => (step 0 t (.copyout 0 0 [7])).test (fun t' => t'.read 0 0 == some 7) &&
        (t.read 0 0 == some 1) && ((t.pte 0 0).map fun pte => pte.perm.w) == some false) = true := by
    decide +kernel
  obtain ⟨t, ht, hc⟩ := Reach.of_runTest h
  simp only [Bool.and_eq_true, beq_iff_eq] at hc
  obtain ⟨t', hs, hread'⟩ := Outcome.of_test hc.1.1
  exact ⟨t, t', ht, hs, hc.2, hc.1.2, beq_iff_eq.mp hread'⟩

end FypOs.Vm
