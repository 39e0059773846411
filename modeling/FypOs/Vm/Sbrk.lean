import FypOs.Vm.Runs

/-!
# Vm — `sbrk`

* `wp_sysSbrk`: a call that returns the old size has moved it, and the new pages read as zeros.
* `sbrk_moves`: calls whose arguments sum to zero give the same pages back.
-/

namespace FypOs.Vm

open Lib Prog

/-- `sys_sbrk`: what it returns, and the size that it leaves. -/
def sysSbrk (sz : Nat) (n : Int32) : Prog Space (Int × Nat) := do
  match ← growproc sz n with
  | none => pure (-1, sz)
  | some sz' => pure (sz, sz')

/-- Calls of `sbrk` until one fails: whether all succeed, and the size. -/
def sbrks : List Int32 → Nat → Prog Space (Bool × Nat)
  | [], sz => pure (true, sz)
  | n :: ns, sz => do
    let r ← sysSbrk sz n
    if r.1 = -1 then pure (false, r.2) else sbrks ns r.2

/-- No size on the way is negative. -/
def Fits (sz : Int) : List Int32 → Prop
  | [] => True
  | n :: ns => 0 ≤ sz + n.toInt ∧ Fits (sz + n.toInt) ns

section

variable {O : Frame → Prop} {s : Space} {tr tf : Frame} {g sz v n : Nat} {pt : Table}

lemma Spans.mapped_iff (hs : Spans tr tf g n pt) (hv : v < TRAPFRAME) : pt.ptes v ≠ none ↔ v < n := by
  by_cases h : v < n
  · obtain ⟨pte, hpte, -⟩ := hs.user v h
    simp [hpte, h]
  · simp [hs.above v (Nat.le_of_not_lt h) hv, h]

lemma wp_sysSbrk {k : Int32} (h : Good O s) (hs : Spans tr tf g (pages sz) s.pt) :
    wp (sysSbrk sz k) (fun r s' => Good O s' ∧ Spans tr tf g (pages r.2) s'.pt ∧
      (r.1 = sz ∧ (r.2 : Int) = (if 0 ≤ (sz : Int) + k.toInt then sz + k.toInt else sz) ∧
          Zeroed (pages sz) (pages r.2) s' ∨
        r.1 = -1 ∧ r.2 = sz ∧ ∀ u < TRAPFRAME, s'.pt.ptes u = s.pt.ptes u)) Never s := by
  rw [sysSbrk, wp_bind]
  refine (wp_growproc h hs).post fun r s1 hpost => ?_
  obtain ⟨h1, -, hs1, hlow, hsome⟩ := hpost
  cases r with
  | some x => exact ⟨h1, hs1, .inl ⟨rfl, hsome x rfl⟩⟩
  | none =>
    refine ⟨h1, hs1, .inr ⟨rfl, rfl, fun u hu => ?_⟩⟩
    rw [Option.getD_none, Nat.min_self] at hlow
    by_cases hlt : u < pages sz
    · exact hlow.ptes u hlt
    · rw [hs.above u (Nat.le_of_not_lt hlt) hu]
      exact hs1.above u (Nat.le_of_not_lt hlt) hu

lemma wp_sbrks (ns : List Int32) (h : Good O s) (hs : Spans tr tf g (pages sz) s.pt) (hfits : Fits sz ns) :
    wp (sbrks ns sz) (fun r s' => Spans tr tf g (pages r.2) s'.pt ∧
      (r.1 = true → (r.2 : Int) = sz + (ns.map Int32.toInt).foldr (· + ·) 0)) Never s := by
  induction ns generalizing sz s with
  | nil => exact ⟨hs, fun _ => (Int.add_zero _).symm⟩
  | cons n ns ih =>
    rw [sbrks, wp_bind]
    refine (wp_sysSbrk h hs).post fun r s1 hpost => ?_
    obtain ⟨h1, hs1, hr⟩ := hpost
    refine wp_ite (fun _ => ⟨hs1, fun e => by cases e⟩) fun hne => ?_
    rcases hr with ⟨-, hsz, -⟩ | ⟨hbad, -⟩
    · rw [if_pos hfits.1] at hsz
      refine (ih h1 hs1 (hsz ▸ hfits.2)).post fun r' s2 hpost => ⟨hpost.1, fun e => ?_⟩
      rw [hpost.2 e, hsz, List.map_cons, List.foldr_cons, Int.add_assoc]
    · exact absurd hbad hne

end

/-- A size that would be negative wraps, and `uvmdealloc` takes its early return. -/
lemma sysSbrk_of_neg {sz : Nat} {n : Int32} (h : (sz : Int) + n.toInt < 0) (s : Space) :
    sysSbrk sz n s = .ok ((sz, sz), s) := by
  have hn := n.le_toInt
  have hle : sz ≤ (((sz : Int) + n.toInt) % 2 ^ 64).toNat := by omega
  rw [sysSbrk, growproc, if_neg (by omega), if_pos (by omega), uvmdealloc, if_pos hle]
  rfl

section

variable {P : Type} [DecidableEq P] {tr : Frame} {t : Sys P}

/-- **`sbrk`** moves the size of a process by `n` or fails, exactly if the size does not become negative.  New pages
read as zeros, and calls that sum to zero restore the pages that are mapped. -/
theorem sbrk_moves {mem : Mem} (hfree : mem.free.Nodup) (hr : Reach (step tr) (fun _ _ => True) (boot mem) t)
    {p : P} {pr : Proc} (hp : t.procs p = some pr) :
    (∀ n : Int32, ∃ r s', sysSbrk pr.sz n ⟨t.mem, pr.pt⟩ = .ok (r, s') ∧
      ((r.1 = pr.sz ∧ (r.2 : Int) = pr.sz + n.toInt ∧ Zeroed (pages pr.sz) (pages r.2) s' ∨
        r.1 = -1 ∧ r.2 = pr.sz ∧ ∀ v < TRAPFRAME, s'.pt.ptes v = pr.pt.ptes v) ↔
      0 ≤ (pr.sz : Int) + n.toInt)) ∧
    ∀ ns : List Int32, Fits pr.sz ns → (ns.map Int32.toInt).foldr (· + ·) 0 = 0 →
      ∃ ok sz s', sbrks ns pr.sz ⟨t.mem, pr.pt⟩ = .ok ((ok, sz), s') ∧
        (ok = true → sz = pr.sz ∧ ∀ v < TRAPFRAME, s'.pt.ptes v ≠ none ↔ pr.pt.ptes v ≠ none) := by
  have h := sound_of_reach hfree hr
  obtain ⟨g, hs⟩ := h.spans p pr hp
  refine ⟨fun n => ?_, fun ns hfits hsum => ?_⟩
  · obtain ⟨r, s', hrun, -, -, hcase⟩ := (wp_sysSbrk (k := n) (h.good hp) hs).returns
    refine ⟨r, s', hrun, fun hmoved => ?_, fun hn => by rwa [if_pos hn] at hcase⟩
    -- with a negative size, the old one is returned and kept
    by_contra hneg
    cases hrun.symm.trans (sysSbrk_of_neg (Int.not_le.mp hneg) _)
    simp only at hmoved
    omega
  · obtain ⟨⟨ok, sz⟩, s', hrun, hs', hsz⟩ := (wp_sbrks ns (h.good hp) hs hfits).returns
    refine ⟨ok, sz, s', hrun, fun e => ?_⟩
    have hsz := hsz e
    rw [hsum, Int.add_zero] at hsz
    obtain rfl : sz = pr.sz := Int.ofNat_inj.mp hsz
    exact ⟨rfl, fun v hv => (hs'.mapped_iff hv).trans (hs.mapped_iff hv).symm⟩

end

lemma userinit_reach : ∃ t : Sys Unit, Reach (step 0) (fun _ _ => True) (boot someMem) t ∧
    ∃ pr, t.procs () = some pr ∧ pr.sz = 4096 := by
  have h : runTest (step 0) (fun _ _ => True) (boot someMem) [Event.userinit () []]
      (fun t => (t.procs ()).map Proc.sz == some 4096) = true := by decide +kernel
  obtain ⟨t, ht, hc⟩ := Reach.of_runTest h
  exact ⟨t, ht, Option.map_eq_some_iff.mp (beq_iff_eq.mp hc)⟩

/-- A process of one page grows by 100 bytes, or finds no memory. -/
theorem sbrk_moves_page : ∃ (t : Sys Unit) (pr : Proc), Reach (step 0) (fun _ _ => True) (boot someMem) t ∧
    t.procs () = some pr ∧ ∃ r s', sysSbrk pr.sz 100 ⟨t.mem, pr.pt⟩ = .ok (r, s') ∧ (r.2 = 4196 ∨ r.2 = 4096) := by
  obtain ⟨t, ht, pr, hp, hsz⟩ := userinit_reach
  obtain ⟨r, s', hrun, hiff⟩ := (sbrk_moves (by decide +kernel) ht hp).1 100
  refine ⟨t, pr, ht, hp, r, s', hrun, ?_⟩
  rw [hsz] at hiff
  rcases hiff.mpr (by decide) with ⟨-, h, -⟩ | ⟨-, h, -⟩
  · exact .inl (Int.ofNat_inj.mp h)
  · exact .inr h

/-- A process of one page gives back two: the call returns the old size, and does nothing. -/
theorem sbrk_ignored : ∃ (t : Sys Unit) (pr : Proc), Reach (step 0) (fun _ _ => True) (boot someMem) t ∧
    t.procs () = some pr ∧ pr.sz = 4096 ∧
    sysSbrk pr.sz (-8192) ⟨t.mem, pr.pt⟩ = .ok ((4096, 4096), ⟨t.mem, pr.pt⟩) := by
  obtain ⟨t, ht, pr, hp, hsz⟩ := userinit_reach
  refine ⟨t, pr, ht, hp, hsz, ?_⟩
  rw [hsz]
  rfl

end FypOs.Vm
