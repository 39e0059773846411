import FypOs.Vm.Walk
import Mathlib.Data.Fintype.EquivFin

/-!
# Vm — user address spaces

* `Spans`: the table maps the pages from 0 up to some number, and those of the trampoline and the trapframe.
* One specification for each function of `kernel/vm.c` that makes, grows, copies or frees an address
  space: none of them stops, and each leaves the table with a span.
-/

namespace FypOs.Vm

open Lib Prog Function Table

/-- The table maps the pages below `n`, which users may read, and may use but for the guard page `g`. -/
structure Spans (trampoline trapframe : Frame) (g n : Nat) (pt : Table) : Prop where
  user : ∀ v, v < n → ∃ pte, pt.ptes v = some pte ∧ pte.perm.r = true ∧ (v ≠ g → pte.perm.u = true)
  above : ∀ v, n ≤ v → v < TRAPFRAME → pt.ptes v = none
  trapframe : pt.ptes TRAPFRAME = some ⟨trapframe, ⟨true, true, false, false⟩⟩
  trampoline : pt.ptes TRAMPOLINE = some ⟨trampoline, ⟨true, false, true, false⟩⟩
  top : ∀ v, MAXPAGE ≤ v → pt.ptes v = none
  root : pt.root ≠ none

variable {O : Frame → Prop} {s s' : Space} {tr tf : Frame} {g n v k : Nat} {oldsz newsz : Nat}
  {d : Frame → Page}

lemma pages_mul (k : Nat) : pages (k * PGSIZE) = k := by
  unfold pages PGSIZE
  omega

lemma pages_mono {a b : Nat} (h : a ≤ b) : pages a ≤ pages b := by
  unfold pages PGSIZE
  omega

/-- **No more pages than there are.** -/
lemma Spans.le (hs : Spans tr tf g n s.pt) (h : Good O s) : n ≤ 32768 := by
  by_contra hn
  have hv (v : Fin 32769) : v.val < n ∧ v.val < TRAPFRAME := by
    have := v.isLt
    unfold TRAPFRAME MAXPAGE
    omega
  choose pte hpte _ using fun v : Fin 32769 => hs.user v (hv v).1
  have hinj : Function.Injective fun v => (pte v).frame := by
    intro u v huv
    have hheld (v : Fin 32769) : s.pt.held (.leaf v) = some (pte v).frame := by
      simp [held, (hv v).2, hpte v]
    have := h.ledger.inj _ _ _ (hheld u) ((hheld v).trans (congrArg some huv.symm))
    exact Fin.ext (Place.leaf.inj this)
  have := Fintype.card_le_of_injective _ hinj
  simp at this

lemma Spans.lt (hs : Spans tr tf g n s.pt) (h : Good O s) : n < TRAPFRAME := by
  have := hs.le h
  unfold TRAPFRAME MAXPAGE
  omega

/-! ### Shrinking and growing -/

/-- The pages below `n` are mapped as before. -/
structure Low (n : Nat) (s s' : Space) : Prop where
  root : s'.pt.root = s.pt.root
  ptes : ∀ u, u < n → s'.pt.ptes u = s.pt.ptes u

lemma Low.refl (n : Nat) (s : Space) : Low n s s := ⟨rfl, fun _ _ => rfl⟩

lemma Low.mono {m : Nat} (h : Low n s s') (hm : m ≤ n) : Low m s s' :=
  ⟨h.root, fun u hu => h.ptes u (Nat.lt_of_lt_of_le hu hm)⟩

lemma Low.trans {s1 : Space} (h : Low n s s1) (h' : Low n s1 s') : Low n s s' :=
  ⟨h'.root.trans h.root, fun u hu => (h'.ptes u hu).trans (h.ptes u hu)⟩

lemma wp_uvmdealloc (h : Good O s) (hs : Spans tr tf g (pages oldsz) s.pt) :
    wp (uvmdealloc oldsz newsz) (fun r s' => Good O s' ∧ Keeps O s s' ∧ r = min oldsz newsz ∧
      Spans tr tf g (pages r) s'.pt ∧ Low (pages r) s s') Never s := by
  rw [uvmdealloc]
  refine wp_ite (fun hle => ?_) fun hlt => ?_
  · exact ⟨h, fun _ _ => rfl, by omega, hs, .refl _ s⟩
  · have hmin : newsz = min oldsz newsz := by omega
    have hpages := pages_mono (Nat.le_of_not_le hlt)
    have hlt' := hs.lt h
    by_cases hp : pages newsz < pages oldsz
    · rw [if_pos hp]
      simp only [wp_bind]
      refine (wp_uvmunmap h (by omega) fun u _ hu => ?_).post fun _ s1 hpost => ?_
      · obtain ⟨pte, hpte, hr, _⟩ := hs.user u (by omega)
        exact ⟨pte, hpte, hr⟩
      · obtain ⟨h1, hk, hroot, hptes⟩ := hpost
        have htf : ¬ TRAPFRAME < pages oldsz := by omega
        have htr : TRAPFRAME < TRAMPOLINE := by decide
        have hmax : TRAPFRAME < MAXPAGE := by decide
        refine ⟨h1, hk, hmin, ⟨fun u hu => ?_, fun u hu hu' => ?_, ?_, ?_, fun u hu => ?_, hroot ▸ hs.root⟩,
          ⟨hroot, fun u hu => ?_⟩⟩
        · rw [hptes u, if_neg (by omega)]
          exact hs.user u (by omega)
        · rw [hptes u]
          split_ifs
          · rfl
          · exact hs.above u (by omega) hu'
        · rw [hptes, if_neg (by omega)]
          exact hs.trapframe
        · rw [hptes, if_neg (by omega)]
          exact hs.trampoline
        · rw [hptes, if_neg (by omega)]
          exact hs.top u hu
        · rw [hptes, if_neg (by omega)]
    · rw [if_neg hp]
      have e : pages newsz = pages oldsz := by omega
      exact ⟨h, fun _ _ => rfl, hmin, e ▸ hs, .refl _ s⟩

lemma Spans.add {pte : Pte} (hs : Spans tr tf g n s.pt) (hn : n < TRAPFRAME)
    (hptes : s'.pt.ptes = update s.pt.ptes n (some pte)) (hroot : s'.pt.root = s.pt.root)
    (hr : pte.perm.r = true) (hu : n ≠ g → pte.perm.u = true) : Spans tr tf g (n + 1) s'.pt := by
  have htr : TRAPFRAME < TRAMPOLINE := by decide
  have hmax : TRAPFRAME < MAXPAGE := by decide
  refine ⟨fun u hlt => ?_, fun u hle hu' => ?_, ?_, ?_, fun u hle => ?_, hroot ▸ hs.root⟩
  · rw [hptes, update_apply]
    split_ifs with hun
    · exact ⟨pte, rfl, hr, fun hne => hu (hun ▸ hne)⟩
    · exact hs.user u (by omega)
  · rw [hptes, update_of_ne (by omega)]
    exact hs.above u (by omega) hu'
  · rw [hptes, update_of_ne (by omega)]
    exact hs.trapframe
  · rw [hptes, update_of_ne (by omega)]
    exact hs.trampoline
  · rw [hptes, update_of_ne (by omega)]
    exact hs.top u hle

lemma Spans.congr (hs : Spans tr tf g n s.pt) (hptes : s'.pt.ptes = s.pt.ptes)
    (hroot : s'.pt.root = s.pt.root) : Spans tr tf g n s'.pt := by
  obtain ⟨h1, h2, h3, h4, h5, h6⟩ := hs
  constructor <;> simp only [hptes, hroot] <;> assumption

variable {xperm : Perm} {first : Nat} {old : Table} {x : Frame} {sz : Nat}

/-- The pages from `m` to `n` are mapped to pages of zeros. -/
def Zeroed (m n : Nat) (s : Space) : Prop :=
  ∀ u, m ≤ u → u < n → ∃ pte, s.pt.ptes u = some pte ∧ s.mem.data pte.frame = fun _ => 0

/-- The pages from `m` to `n` are new. -/
structure Grown (m n : Nat) (s s' : Space) : Prop where
  old : ∀ u pte, u < m → s.pt.ptes u = some pte →
    s'.pt.ptes u = some pte ∧ s'.mem.data pte.frame = s.mem.data pte.frame
  new : Zeroed m n s'

lemma Grown.refl (s : Space) {m : Nat} (hn : n ≤ m) : Grown m n s s :=
  ⟨fun _ _ _ h => ⟨h, rfl⟩, fun _ hu hu' => absurd (hn.trans hu) (Nat.not_le_of_lt hu')⟩

lemma Grown.trans {s1 : Space} {m : Nat} (h : Grown v m s s1) (h' : Grown m n s1 s') (hv : v ≤ m) :
    Grown v n s s' := by
  refine ⟨fun u pte hu hpte => ?_, fun u hu hn => ?_⟩
  · obtain ⟨h1, e1⟩ := h.old u pte hu hpte
    obtain ⟨h2, e2⟩ := h'.old u pte (by omega) h1
    exact ⟨h2, e2.trans e1⟩
  · by_cases hm : u < m
    · obtain ⟨pte, hpte, hz⟩ := h.new u hu hm
      obtain ⟨h2, e2⟩ := h'.old u pte hm hpte
      exact ⟨pte, h2, e2.trans hz⟩
    · exact h'.new u (by omega) hn

section

variable (h : Good O s)

include h

section

variable (hs : Spans tr tf g v s.pt)

include hs

/-- What `uvmalloc` does when memory runs out: it goes back to where it started. -/
lemma wp_shrinkBack (hv : first ≤ v) :
    wp (uvmdealloc (v * PGSIZE) (first * PGSIZE)) (fun _ s' => Good O s' ∧ Keeps O s s' ∧
      Spans tr tf g first s'.pt ∧ Low first s s') Never s := by
  have hs' : Spans tr tf g (pages (v * PGSIZE)) s.pt := (pages_mul v).symm ▸ hs
  refine (wp_uvmdealloc h hs').post fun r s1 hpost => ?_
  obtain ⟨h1, hk, hr, hs1, hlow⟩ := hpost
  refine ⟨h1, hk, ?_⟩
  rw [hr, Nat.min_eq_right (Nat.mul_le_mul_right _ hv), pages_mul] at hs1 hlow
  exact ⟨hs1, hlow⟩

/-- The turns of `uvmalloc` and `uvmcopy`: a new page is mapped, or all is undone. -/
lemma wp_mapNew {α : Type} {undo : Prog Space α} {page : Space → Page} {perm : Perm}
    {Q : Option Unit → Space → Prop} (hnew : ∀ x s1 s2, Keeps O s s1 → x ∈ s.mem.free → s2.mem.data x = page s1 →
      (∀ f, f ∉ s.mem.free → s2.mem.data f = s.mem.data f) → s2.pt.root = s.pt.root →
      s2.pt.ptes = update s.pt.ptes v (some ⟨x, perm⟩) → Good O s2 → Keeps O s s2 → Q none s2)
    (hundo : ∀ s1, s1.pt.root = s.pt.root → s1.pt.ptes = s.pt.ptes → Good O s1 → Keeps O s s1 →
      wp undo (fun _ => Q (some ())) Never s1) :
    wp (do
      match ← kalloc with
      | none => do
        let _ ← undo
        pure (some ())
      | some x => do
        modify fun s => s.fill x (page s)
        if ← mappages v ⟨x, perm⟩ then pure none
        else do
          kfree x
          let _ ← undo
          pure (some ())) Q Never s := by
  have hlt := hs.lt h
  rw [wp_bind]
  refine (wp_kalloc h).post fun r s1 hpost => ?_
  obtain ⟨hpt, hg, hr⟩ := hpost
  have hk1 := h.keeps hg
  cases r with
  | none => exact wp_bind.mpr (hundo s1 hg.root hg.ptes hr hk1)
  | some x =>
    obtain ⟨h1, hx, hxfree, hxfree'⟩ := hr
    simp only [wp_bind, wp_modify]
    have hnone : (s1.fill x (page s1)).pt.ptes v = none :=
      (congrFun hg.ptes v).trans (hs.above v (Nat.le_refl v) hlt)
    refine (wp_mappages (h1.fill x _) (.inr rfl) hlt hnone).post fun r s2 hpost => ?_
    obtain ⟨hroot, hdata, hfree, htrue, hfalse⟩ := hpost
    have hsame (f) (hf : f ∉ s.mem.free) : s2.mem.data f = s.mem.data f := by
      have hne : f ≠ x := fun e => hf (e ▸ hxfree')
      rw [hdata f fun hf' => hf (hg.free f hf'), ← hg.data f hf]
      exact update_of_ne hne _ _
    have hk2 : Keeps O s s2 := fun f hf => hsame f fun hf' => h.ledger.free_other f hf' hf
    cases r with
    | true =>
      obtain ⟨h2, hptes⟩ := htrue rfl
      have hx2 : s2.mem.data x = page s1 := (hdata x hxfree).trans (update_self ..)
      exact hnew x s1 s2 hk1 hxfree' hx2 hsame (hroot.trans hg.root)
        (hptes.trans (congrArg (update · v _) hg.ptes)) (h2.congr fun y => by grind) hk2
    | false =>
      obtain ⟨h2, hptes⟩ := hfalse rfl
      simp only [Bool.false_eq_true, if_false, wp_bind]
      refine (wp_kfree h2 (.inr rfl)).post fun _ s3 hpost => ?_
      obtain ⟨hpt3, hk3, h3⟩ := hpost
      have hk3' : Keeps O s2 s3 := fun f hf => hk3 f ⟨.inl hf, fun e => hx (e ▸ hf)⟩
      exact wp_bind.mpr (hundo s3 ((congrArg root hpt3).trans (hroot.trans hg.root))
        ((congrArg ptes hpt3).trans (hptes.trans hg.ptes)) (h3.congr fun y => by grind)
        (hk2.trans hk3'))

lemma wp_grow (hv : first ≤ v) : wp (grow first xperm v) (fun r s' => Good O s' ∧ Keeps O s s' ∧
      Low first s s' ∧ (r = none → Spans tr tf g (v + 1) s'.pt ∧ Grown v (v + 1) s s') ∧
      (r = some () → Spans tr tf g first s'.pt)) Never s := by
  have hlt := hs.lt h
  refine wp_mapNew h hs (fun x _ s2 _ _ hx hsame hroot hptes h2 hk2 => ?_) fun s1 hroot hptes h1 hk1 => ?_
  · have hold (u) (hu : u < v) : s2.pt.ptes u = s.pt.ptes u :=
      (congrFun hptes u).trans (update_of_ne (Nat.ne_of_lt hu) _ _)
    refine ⟨h2, hk2, ⟨hroot, fun u hu => hold u (by omega)⟩, fun _ => ⟨hs.add hlt hptes hroot rfl fun _ => rfl,
      fun u pte hu hpte => ⟨(hold u hu).trans hpte, hsame _ fun hf => ?_⟩, fun u hu hu' => ?_⟩, by simp⟩
    · refine h.ledger.free_held _ (.leaf u) hf ?_
      rw [held, if_pos (by omega), hpte]
      rfl
    · obtain rfl : u = v := by omega
      exact ⟨_, (congrFun hptes u).trans (update_self ..), hx⟩
  · refine (wp_shrinkBack h1 (hs.congr hptes hroot) hv).post fun _ s2 hpost => ?_
    obtain ⟨h2, hk2, hs2, hlow⟩ := hpost
    have hlow1 : Low first s s1 := ⟨hroot, fun u _ => congrFun hptes u⟩
    exact ⟨h2, hk1.trans hk2, hlow1.trans hlow, by simp, fun _ => hs2⟩

lemma wp_growLoop (hv : first ≤ v) : wp (search (grow first xperm) (List.range' v k)) (fun r s' => Good O s' ∧
      Keeps O s s' ∧ Low first s s' ∧
      (r = none → Spans tr tf g (v + k) s'.pt ∧ Grown v (v + k) s s') ∧
      (r = some () → Spans tr tf g first s'.pt)) Never s := by
  induction k generalizing v s with
  | zero => exact ⟨h, fun _ _ => rfl, .refl _ s, fun _ => ⟨hs, .refl s (Nat.le_refl v)⟩, by simp⟩
  | succ k ih =>
    rw [List.range'_succ, search, wp_bind]
    refine (wp_grow h hs hv).post fun r s1 hpost => ?_
    obtain ⟨h1, hk1, hlow1, hnone, hsome⟩ := hpost
    cases r with
    | some u => exact ⟨h1, hk1, hlow1, by simp, fun _ => hsome rfl⟩
    | none =>
      obtain ⟨hs1, hg1⟩ := hnone rfl
      refine (ih h1 hs1 (by omega)).post fun r s2 hpost => ?_
      obtain ⟨h2, hk2, hlow2, hnone2, hsome2⟩ := hpost
      refine ⟨h2, hk1.trans hk2, hlow1.trans hlow2, fun e => ?_, hsome2⟩
      rw [show v + (k + 1) = v + 1 + k by omega]
      exact ⟨(hnone2 e).1, hg1.trans (hnone2 e).2 (Nat.le_succ v)⟩

end

/-- **`uvmalloc`** returns the larger size with its pages mapped, or 0 with those of the old size. -/
lemma wp_uvmalloc
    (hs : Spans tr tf g (pages oldsz) s.pt) : wp (uvmalloc oldsz newsz xperm) (fun r s' => Good O s' ∧
      Keeps O s s' ∧ (r ≠ 0 → r = max oldsz newsz) ∧
      Spans tr tf g (pages (if r = 0 then oldsz else r)) s'.pt ∧ Low (pages oldsz) s s' ∧
      (r ≠ 0 → Zeroed (pages oldsz) (pages r) s')) Never s := by
  rw [uvmalloc]
  refine wp_ite (fun hlt => ?_) fun hge => ?_
  · exact ⟨h, fun _ _ => rfl, fun _ => by omega, by rw [if_neg (by omega)]; exact hs, .refl _ s,
      fun _ => (Grown.refl s le_rfl).new⟩
  · rw [wp_bind]
    refine (wp_growLoop h hs le_rfl).post fun r s1 hpost => ?_
    obtain ⟨h1, hk1, hlow, hnone, hsome⟩ := hpost
    have hle := pages_mono (Nat.le_of_not_lt hge)
    cases r with
    | some u => exact ⟨h1, hk1, fun h0 => absurd rfl h0, hsome rfl, hlow, fun h0 => absurd rfl h0⟩
    | none =>
      obtain ⟨hs1, hg1⟩ := hnone rfl
      rw [show pages oldsz + (pages newsz - pages oldsz) = pages newsz by omega] at hs1 hg1
      refine ⟨h1, hk1, fun _ => by omega, ?_, hlow, fun _ => hg1.new⟩
      split_ifs with h0
      · obtain rfl : oldsz = newsz := by omega
        exact hs1
      · exact hs1

/-! ### Making and freeing -/

lemma wp_uvmfree (hsz : pages sz ≤ TRAPFRAME)
    (huser : ∀ u, u < pages sz → ∃ pte, s.pt.ptes u = some pte ∧ pte.perm.r = true)
    (hrest : ∀ u, pages sz ≤ u → s.pt.ptes u = none) (hroot : s.pt.root = some x) :
    wp (uvmfree sz) (fun _ s' => Good O s' ∧ Keeps O s s' ∧ s'.pt = empty) Never s := by
  rw [uvmfree]
  by_cases h0 : 0 < sz
  · rw [if_pos h0, wp_bind]
    refine (wp_uvmunmap h (by omega) fun u _ hu => huser u (by omega)).post
      fun _ s1 hpost => ?_
    obtain ⟨h1, hk1, hroot1, hptes1⟩ := hpost
    have hnone (u) : s1.pt.ptes u = none := by
      rw [hptes1]
      split_ifs with hu
      · rfl
      · exact hrest u (by omega)
    refine (wp_freewalk h1 hnone (hroot1.trans hroot)).post fun _ s2 hpost => ?_
    obtain ⟨h2, hk2, hpt2⟩ := hpost
    exact ⟨h2, hk1.trans hk2, hpt2⟩
  · have hpages : pages sz = 0 := by
      unfold pages PGSIZE
      omega
    rw [if_neg h0]
    exact wp_freewalk h (fun u => hrest u (by omega)) hroot

lemma wp_uvmcreate (hpt : s.pt = empty) :
    wp uvmcreate (fun r s' => Good O s' ∧ Keeps O s s' ∧ (∀ u, s'.pt.ptes u = none) ∧
      (r = true → ∃ x, s'.pt.root = some x) ∧ (r = false → s'.pt = empty)) Never s := by
  rw [uvmcreate, wp_bind]
  refine (wp_kalloc h).post fun r s1 hpost => ?_
  obtain ⟨hpt1, hg, hr⟩ := hpost
  have hempty : s1.pt = empty := hpt1.trans hpt
  have hnone (u) : s1.pt.ptes u = none := by rw [hempty]; rfl
  cases r with
  | none => exact ⟨hr, h.keeps hg, hnone, by simp, fun _ => hempty⟩
  | some x =>
    obtain ⟨h1, hx, _⟩ := hr
    simp only [wp_bind, wp_modify, wp_pure]
    have hheld : s1.pt.held .root = none := by rw [hempty]; rfl
    refine ⟨⟨?_, h1.tab, h1.dir, h1.bound⟩, fun f hf => ?_, hnone, fun _ => ⟨x, rfl⟩, by simp⟩
    · rw [held_setRoot]
      have hput := h1.ledger.put (x := x) (.inr rfl) hheld
      exact hput.congr fun y => by grind
    · have hne : f ≠ x := fun e => hx (by rw [← e]; exact hf)
      exact (update_of_ne hne _ _).trans (h.keeps hg f hf)

/-- **`proc_pagetable`** makes a table without user memory, or gives everything back. -/
lemma wp_procPagetable (hpt : s.pt = empty) (tr tf : Frame) (g : Nat) :
    wp (procPagetable tr tf) (fun r s' => Good O s' ∧ Keeps O s s' ∧
      (r = true → Spans tr tf g 0 s'.pt) ∧ (r = false → s'.pt = empty)) Never s := by
  have htr : TRAPFRAME < TRAMPOLINE := by decide
  have hmax : TRAMPOLINE < MAXPAGE := by decide
  have hp0 : pages 0 = 0 := by decide
  rw [procPagetable, wp_bind]
  refine (wp_uvmcreate h hpt).post fun r s1 hpost => ?_
  obtain ⟨h1, hk1, hnone1, htrue1, hfalse1⟩ := hpost
  cases r with
  | false => exact ⟨h1, hk1, by simp, hfalse1⟩
  | true =>
    obtain ⟨x, hx⟩ := htrue1 rfl
    rw [if_pos rfl, wp_bind]
    refine (wp_mappages_top h1 (Nat.le_of_lt htr) hmax (hnone1 _)).post
      fun r s2 hpost => ?_
    obtain ⟨hroot2, h2, hk2, htrue2, hfalse2⟩ := hpost
    cases r with
    | false =>
      simp only [Bool.false_eq_true, if_false, wp_bind]
      have hnone (u) : s2.pt.ptes u = none := by rw [hfalse2 rfl, hnone1]
      refine (wp_uvmfree h2 (by rw [hp0]; omega) (fun u hu => absurd hu (by rw [hp0]; omega))
        (fun u _ => hnone u) (hroot2.trans hx)).post fun _ s3 hpost => ?_
      obtain ⟨h3, hk3, hpt3⟩ := hpost
      exact ⟨h3, (hk1.trans hk2).trans hk3, by simp, fun _ => hpt3⟩
    | true =>
      have hptes2 := htrue2 rfl
      have htf : s2.pt.ptes TRAPFRAME = none := by
        rw [hptes2, update_of_ne (Nat.ne_of_lt htr), hnone1]
      rw [if_pos rfl, wp_bind]
      refine (wp_mappages_top h2 le_rfl (Nat.lt_trans htr hmax) htf).post
        fun r s3 hpost => ?_
      obtain ⟨hroot3, h3, hk3, htrue3, hfalse3⟩ := hpost
      have hk : Keeps O s s3 := (hk1.trans hk2).trans hk3
      have hroot : s3.pt.root = some x := (hroot3.trans hroot2).trans hx
      cases r with
      | true =>
        have hptes3 := htrue3 rfl
        refine ⟨h3, hk, fun _ => ⟨by simp, fun u _ hu => ?_, ?_, ?_, fun u hu => ?_, ?_⟩, by simp⟩
        · rw [hptes3, update_of_ne (by omega), hptes2, update_of_ne (by omega), hnone1]
        · rw [hptes3, update_self]
        · rw [hptes3, update_of_ne (by omega), hptes2, update_self]
        · rw [hptes3, update_of_ne (by omega), hptes2, update_of_ne (by omega), hnone1]
        · rw [hroot]
          simp
      | false =>
        simp only [Bool.false_eq_true, if_false, wp_bind]
        have htramp : s3.pt.ptes TRAMPOLINE = some ⟨tr, ⟨true, false, true, false⟩⟩ := by
          rw [hfalse3 rfl, hptes2, update_self]
        refine (wp_uvmunmap_top h3 (Nat.le_of_lt htr) hmax htramp rfl).post
          fun _ s4 hpost => ?_
        obtain ⟨h4, hk4, hroot4, hptes4⟩ := hpost
        have hnone (u) : s4.pt.ptes u = none := by
          rw [hptes4, hfalse3 rfl, hptes2, update_idem, update_apply, hnone1]
          split_ifs <;> rfl
        rw [wp_bind]
        refine (wp_uvmfree h4 (by rw [hp0]; omega) (fun u hu => absurd hu (by rw [hp0]; omega))
          (fun u _ => hnone u) (hroot4.trans hroot)).post fun _ s5 hpost => ?_
        obtain ⟨h5, hk5, hpt5⟩ := hpost
        exact ⟨h5, (hk.trans hk4).trans hk5, by simp, fun _ => hpt5⟩

/-- **`proc_freepagetable`** gives all the pages of an address space back. -/
lemma wp_procFreepagetable (hs : Spans tr tf g (pages sz) s.pt) :
    wp (procFreepagetable sz) (fun _ s' => Good O s' ∧ Keeps O s s' ∧ s'.pt = empty) Never s := by
  have htr : TRAPFRAME < TRAMPOLINE := by decide
  have hmax : TRAMPOLINE < MAXPAGE := by decide
  have hlt := hs.lt h
  rw [procFreepagetable, wp_bind]
  refine (wp_uvmunmap_top h (Nat.le_of_lt htr) hmax hs.trampoline rfl).post
    fun _ s1 hpost => ?_
  obtain ⟨h1, hk1, hroot1, hptes1⟩ := hpost
  have htf : s1.pt.ptes TRAPFRAME = some ⟨tf, ⟨true, true, false, false⟩⟩ := by
    rw [hptes1, update_of_ne (Nat.ne_of_lt htr)]
    exact hs.trapframe
  rw [wp_bind]
  refine (wp_uvmunmap_top h1 le_rfl (Nat.lt_trans htr hmax) htf rfl).post
    fun _ s2 hpost => ?_
  obtain ⟨h2, hk2, hroot2, hptes2⟩ := hpost
  obtain ⟨x, hx⟩ := Option.ne_none_iff_exists'.mp hs.root
  refine (wp_uvmfree h2 (by omega) (fun u hu => ?_) (fun u hu => ?_)
    ((hroot2.trans hroot1).trans hx)).post fun _ s3 hpost => ⟨hpost.1, (hk1.trans hk2).trans hpost.2.1, hpost.2.2⟩
  · obtain ⟨pte, hpte, hr, _⟩ := hs.user u hu
    refine ⟨pte, ?_, hr⟩
    rw [hptes2, update_of_ne (by omega), hptes1, update_of_ne (by omega), hpte]
  · rw [hptes2, update_apply, hptes1, update_apply]
    split_ifs with h1 h2
    · rfl
    · rfl
    · by_cases hu' : u < TRAPFRAME
      · exact hs.above u hu hu'
      · refine hs.top u ?_
        unfold TRAMPOLINE TRAPFRAME at *
        omega

end

/-! ### Copying -/

/-- The pages below `n` have the same flags and the same contents as those of `old` in `d`. -/
def Copied (old : Table) (d : Frame → Page) (n : Nat) (s : Space) : Prop :=
  ∀ v, v < n → ∃ pte pte', old.ptes v = some pte ∧ s.pt.ptes v = some pte' ∧ pte'.perm = pte.perm ∧
    s.mem.data pte'.frame = d pte.frame

/-- What `uvmcopy` needs to know of the table it copies from. -/
structure Source (O : Frame → Prop) (g n : Nat) (old : Table) : Prop where
  user : ∀ v, v < n → ∃ pte, old.ptes v = some pte ∧ pte.perm.r = true ∧ (v ≠ g → pte.perm.u = true) ∧
    O pte.frame
  present : ∀ v, v < n → (old.dirs (v / 2 ^ 18)).isSome ∧ (old.tabs (v / 2 ^ 9)).isSome

section

variable (h : Good O s)

include h

lemma wp_unwind (hs : Spans tr tf g v s.pt) :
    wp (uvmunmap 0 v true) (fun _ s' => Good O s' ∧ Keeps O s s' ∧ Spans tr tf g 0 s'.pt) Never s := by
  have htr : TRAPFRAME < TRAMPOLINE := by decide
  have hmax : TRAPFRAME < MAXPAGE := by decide
  have hlt := hs.lt h
  refine (wp_uvmunmap h (by omega) fun u _ hu => ?_).post fun _ s1 hpost => ?_
  · obtain ⟨pte, hpte, hr, _⟩ := hs.user u (by omega)
    exact ⟨pte, hpte, hr⟩
  · obtain ⟨h1, hk, hroot, hptes⟩ := hpost
    refine ⟨h1, hk, ⟨by simp, fun u _ hu => ?_, ?_, ?_, fun u hu => ?_, hroot ▸ hs.root⟩⟩
    · rw [hptes u]
      split_ifs
      · rfl
      · exact hs.above u (by omega) hu
    · rw [hptes, if_neg (by omega)]
      exact hs.trapframe
    · rw [hptes, if_neg (by omega)]
      exact hs.trampoline
    · rw [hptes, if_neg (by omega)]
      exact hs.top u hu

lemma wp_copyPage (hs : Spans tr tf g v s.pt)
    (hold : Source O g n old) (hv : v < n) (hd : ∀ f, O f → s.mem.data f = d f)
    (hc : Copied old d v s) : wp (copyPage old v) (fun r s' => Good O s' ∧ Keeps O s s' ∧
      (r = none → Spans tr tf g (v + 1) s'.pt ∧ Copied old d (v + 1) s') ∧
      (r = some () → Spans tr tf g 0 s'.pt)) Never s := by
  obtain ⟨pte, hpte, hperm, huser, hO⟩ := hold.user v hv
  obtain ⟨hdir, htab⟩ := hold.present v hv
  have hlt := hs.lt h
  have hif : ¬ ((old.dirs (v / 2 ^ 18)).isNone || (old.tabs (v / 2 ^ 9)).isNone) = true :=
    not_isNone_or hdir htab
  rw [copyPage, if_neg hif, hpte]
  refine wp_mapNew h hs (fun x s1 s2 hk1 hx hdata hsame hroot hptes h2 hk2 => ?_) fun s1 hroot hptes h1 hk1 => ?_
  · refine ⟨h2, hk2, fun _ => ⟨hs.add hlt hptes hroot hperm huser, fun u hu => ?_⟩, by simp⟩
    by_cases huv : u = v
    · refine ⟨pte, ⟨x, pte.perm⟩, huv ▸ hpte, ?_, rfl, ?_⟩
      · rw [hptes, huv, update_self]
      · rw [hdata, ← hd pte.frame hO, ← hk1 pte.frame hO]
    · obtain ⟨p, p', hp, hp', hpp, hdd⟩ := hc u (by omega)
      -- the page was mapped before, and is not free
      have hheld : s.pt.held (.leaf u) = some p'.frame := by
        have : u < TRAPFRAME := by omega
        simp [held, this, hp']
      refine ⟨p, p', hp, ?_, hpp, ?_⟩
      · rw [hptes, update_of_ne huv]
        exact hp'
      · rw [hsame p'.frame fun hf => h.ledger.free_held _ _ hf hheld, ← hdd]
  · refine (wp_unwind h1 (hs.congr hptes hroot)).post fun _ s2 hpost => ?_
    obtain ⟨h2, hk2, hs2⟩ := hpost
    exact ⟨h2, hk1.trans hk2, by simp, fun _ => hs2⟩

lemma wp_copyLoop (hs : Spans tr tf g v s.pt)
    (hold : Source O g n old) (hv : v + k = n) (hd : ∀ f, O f → s.mem.data f = d f)
    (hc : Copied old d v s) : wp (search (copyPage old) (List.range' v k)) (fun r s' => Good O s' ∧
      Keeps O s s' ∧ (r = none → Spans tr tf g n s'.pt ∧ Copied old d n s') ∧
      (r = some () → Spans tr tf g 0 s'.pt)) Never s := by
  induction k generalizing v s with
  | zero =>
    obtain rfl : v = n := hv
    exact ⟨h, fun _ _ => rfl, fun _ => ⟨hs, hc⟩, by simp⟩
  | succ k ih =>
    rw [List.range'_succ, search, wp_bind]
    refine (wp_copyPage h hs hold (by omega) hd hc).post fun r s1 hpost => ?_
    obtain ⟨h1, hk1, hnone, hsome⟩ := hpost
    cases r with
    | some u => exact ⟨h1, hk1, by simp, fun _ => hsome rfl⟩
    | none =>
      obtain ⟨hs1, hc1⟩ := hnone rfl
      have hd1 (f) (hf : O f) : s1.mem.data f = d f := (hk1 f hf).trans (hd f hf)
      refine (ih h1 hs1 (by omega) hd1 hc1).post fun r s2 hpost => ?_
      obtain ⟨h2, hk2, hnone2, hsome2⟩ := hpost
      exact ⟨h2, hk1.trans hk2, hnone2, hsome2⟩

/-- **`uvmcopy`** copies all the pages with their flags, or leaves no page behind. -/
lemma wp_uvmcopy (hs : Spans tr tf g 0 s.pt)
    (hold : Source O g (pages sz) old) : wp (uvmcopy old sz) (fun r s' => Good O s' ∧ Keeps O s s' ∧
      (r = true → Spans tr tf g (pages sz) s'.pt ∧ Copied old s.mem.data (pages sz) s') ∧
      (r = false → Spans tr tf g 0 s'.pt)) Never s := by
  rw [uvmcopy, wp_bind]
  refine (wp_copyLoop h hs hold (Nat.zero_add _) (fun _ _ => rfl) nofun).post
    fun r s1 hpost => ?_
  obtain ⟨h1, hk1, hnone, hsome⟩ := hpost
  cases r with
  | some u => exact ⟨h1, hk1, by simp, fun _ => hsome rfl⟩
  | none => exact ⟨h1, hk1, fun _ => hnone rfl, by simp⟩

/-! ### Guard pages, and writing -/

lemma wp_uvmclear (hs : Spans tr tf MAXPAGE n s.pt) (hv : v < n) :
    wp (uvmclear v) (fun _ s' => Good O s' ∧ Keeps O s s' ∧ Spans tr tf v n s'.pt) Never s := by
  have hlt := hs.lt h
  have htr : TRAPFRAME < TRAMPOLINE := by decide
  have hmax : TRAPFRAME < MAXPAGE := by decide
  obtain ⟨pte, hpte, hr, _⟩ := hs.user v hv
  rw [uvmclear, wp_bind]
  refine (wp_walk_present h (by omega) (by rw [hpte]; simp)).post ?_
  rintro _ _ ⟨rfl, rfl⟩
  simp only [if_true, wp_modify, hpte]
  have hheld : (s.setPte v (some { pte with perm := { pte.perm with u := false } })).pt.held = s.pt.held := by
    rw [held_setPte (by omega)]
    refine (congrArg (update s.pt.held (Place.leaf v)) ?_).trans (update_eq_self ..)
    have : v < TRAPFRAME := by omega
    simp [held, this, hpte]
  refine ⟨⟨?_, fun u hu => ?_, h.dir, h.bound⟩, fun _ _ => rfl, ⟨fun u hu => ?_, fun u hu hu' => ?_, ?_, ?_,
    fun u hu => ?_, hs.root⟩⟩
  · rw [hheld]
    exact h.ledger
  · refine h.tab u fun e => hu ?_
    have huv : u ≠ v := fun e' => by
      rw [e', hpte] at e
      cases e
    simp only [Space.setPte, update_of_ne huv]
    exact e
  · simp only [Space.setPte, update_apply]
    split_ifs with huv
    · exact ⟨_, rfl, hr, fun hne => absurd huv hne⟩
    · obtain ⟨p, hp, hpr, hpu⟩ := hs.user u hu
      exact ⟨p, hp, hpr, fun _ => hpu (by omega)⟩
  · exact (update_of_ne (by omega) _ _).trans (hs.above u hu hu')
  · exact (update_of_ne (by omega) _ _).trans hs.trapframe
  · exact (update_of_ne (by omega) _ _).trans hs.trampoline
  · exact (update_of_ne (by omega) _ _).trans (hs.top u hu)

end

lemma Spans.of_walkaddr (hs : Spans tr tf g n s.pt) (hw : walkaddr s.pt v = some x) :
    v < n ∧ ∃ pte, s.pt.ptes v = some pte ∧ pte.frame = x := by
  unfold walkaddr at hw
  split_ifs at hw with hmax hpres
  split at hw
  case _ pte hpte =>
    split_ifs at hw with hu
    refine ⟨?_, pte, hpte, Option.some_inj.mp hw⟩
    by_contra hv
    have htop : TRAMPOLINE + 1 = MAXPAGE ∧ TRAPFRAME + 1 = TRAMPOLINE := by decide
    rcases Nat.lt_trichotomy v TRAPFRAME with hlt | heq | hgt
    · rw [hs.above v (by omega) hlt] at hpte
      cases hpte
    · rw [heq, hs.trapframe] at hpte
      cases hpte
      cases hu
    · obtain rfl : v = TRAMPOLINE := by omega
      rw [hs.trampoline] at hpte
      cases hpte
      cases hu
  case _ => cases hw

/-- Pages of the user are found, but for the guard page. -/
lemma Spans.walkaddr_eq (hs : Spans tr tf g n s.pt) (h : Good O s) (hv : v < n) (hg : v ≠ g) :
    ∃ pte, s.pt.ptes v = some pte ∧ walkaddr s.pt v = some pte.frame := by
  obtain ⟨pte, hpte, hr, hu⟩ := hs.user v hv
  obtain ⟨hd, ht, _⟩ := h.present (v := v) (by rw [hpte]; simp)
  have hlt := hs.lt h
  have hmax : TRAPFRAME < MAXPAGE := by decide
  refine ⟨pte, hpte, ?_⟩
  rw [walkaddr, if_neg (by omega), if_neg, hpte]
  · exact if_pos (hu hg)
  · exact not_isNone_or hd ht

/-- A write into a page that `walkaddr` has found does not touch the others. -/
lemma Good.write (h : Good O s) (hs : Spans tr tf g n s.pt) (hw : walkaddr s.pt v = some x)
    (page : Page) : Good O (s.fill x page) ∧ Keeps O s (s.fill x page) := by
  obtain ⟨hv, pte, hpte, rfl⟩ := hs.of_walkaddr hw
  have hlt := hs.lt h
  have hheld : s.pt.held (.leaf v) = some pte.frame := by
    have : v < TRAPFRAME := by omega
    simp [held, this, hpte]
  refine ⟨h.fill _ _, fun f hf => ?_⟩
  have hne : f ≠ pte.frame := fun e => h.ledger.held_other _ _ hheld (by rw [← e]; exact hf)
  exact update_of_ne hne _ _

lemma wp_copyout {dstva : Nat} {src : List UInt8} (h : Good O s) (hs : Spans tr tf g n s.pt) :
    wp (copyout dstva src) (fun _ s' => Good O s' ∧ Keeps O s s' ∧ s'.pt = s.pt ∧
      ∀ f, (∀ v, dstva / PGSIZE ≤ v → v * PGSIZE < dstva + src.length → walkaddr s.pt v ≠ some f) →
        s'.mem.data f = s.mem.data f) Never s := by
  induction dstva, src using copyout.induct generalizing s with
  | case1 dstva =>
    rw [copyout, dif_pos rfl]
    exact ⟨h, fun _ _ => rfl, rfl, fun _ _ => rfl⟩
  | case2 dstva src hne ih =>
    rw [copyout, dif_neg hne, wp_bind, wp_reads]
    cases hw : walkaddr s.pt (dstva / PGSIZE) with
    | none => exact ⟨h, fun _ _ => rfl, rfl, fun _ _ => rfl⟩
    | some x =>
      simp only [wp_bind, wp_modify]
      obtain ⟨h1, hk1⟩ := h.write hs hw (memmove (s.mem.data x) (dstva % PGSIZE)
        (src.take (PGSIZE - dstva % PGSIZE)))
      refine (ih h1 hs).post fun _ s2 hpost => ?_
      obtain ⟨h2, hk2, hpt2, hdata2⟩ := hpost
      have hlen : 0 < src.length := List.length_pos_iff.mpr hne
      refine ⟨h2, hk1.trans hk2, hpt2, fun f hf => ?_⟩
      have hfx : f ≠ x := by
        rintro rfl
        refine hf (dstva / PGSIZE) le_rfl ?_ hw
        have := Nat.div_mul_le_self dstva PGSIZE
        omega
      refine (hdata2 f fun v hv hlt => ?_).trans (update_of_ne hfx _ _)
      rw [Nat.mul_div_cancel _ (by decide)] at hv
      refine hf v (by omega) ?_
      · rw [List.length_drop] at hlt
        have := Nat.mul_le_mul_right PGSIZE hv
        have := Nat.div_add_mod' dstva PGSIZE
        have := Nat.mod_lt dstva (y := PGSIZE) (by decide)
        have : (dstva / PGSIZE + 1) * PGSIZE = dstva / PGSIZE * PGSIZE + PGSIZE := Nat.succ_mul ..
        omega

end FypOs.Vm
