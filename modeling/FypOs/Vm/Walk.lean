import FypOs.Vm.Table

/-!
# Vm — walks through a page table

* One specification for each function that works on the table alone: none of them stops.
-/

namespace FypOs.Vm

open Lib Prog Function

/-- No way to stop. -/
def Never : Stop → Prop := fun _ => False

/-- Where a page table has pages. -/
inductive Place where
  | root
  | dir (i : Nat)
  | tab (i : Nat)
  | leaf (v : Nat)
  deriving DecidableEq

/-- The pages that a page table holds; it does not own those of the trampoline and the trapframe. -/
def Table.held (pt : Table) : Place → Option Frame
  | .root => pt.root
  | .dir i => pt.dirs i
  | .tab i => pt.tabs i
  | .leaf v => if v < TRAPFRAME then (pt.ptes v).map Pte.frame else none

structure Good (O : Frame → Prop) (s : Space) : Prop where
  ledger : Ledger s.mem.free s.pt.held O
  tab : ∀ v, s.pt.ptes v ≠ none → s.pt.tabs (v / 2 ^ 9) ≠ none
  dir : ∀ i, s.pt.tabs i ≠ none → s.pt.dirs (i / 2 ^ 9) ≠ none
  bound : ∀ i, s.pt.dirs i ≠ none → i < 2 ^ 9

variable {O : Frame → Prop} {s s' s₁ : Space} {x : Frame} {v i n : Nat} {get : Table → Option Frame}

lemma held_setRoot (x : Option Frame) : (s.setRoot x).pt.held = update s.pt.held .root x := by
  funext a
  cases a <;> simp [Space.setRoot, Table.held]

lemma held_setDir (x : Option Frame) : (s.setDir i x).pt.held = update s.pt.held (.dir i) x := by
  funext a
  cases a <;> simp [Space.setDir, Table.held, update_apply]

lemma held_setTab (x : Option Frame) : (s.setTab i x).pt.held = update s.pt.held (.tab i) x := by
  funext a
  cases a <;> simp [Space.setTab, Table.held, update_apply]

lemma held_setPte (hv : v < TRAPFRAME) (x : Option Pte) :
    (s.setPte v x).pt.held = update s.pt.held (.leaf v) (x.map Pte.frame) := by
  funext a
  cases a with
  | leaf u =>
    simp only [Space.setPte, Table.held, update_apply, Place.leaf.injEq]
    split_ifs with h1 h2 h2 <;> simp_all
  | root | dir | tab => simp [Space.setPte, Table.held]

/-- Entries above the user's part hold no pages. -/
lemma held_setPte_top (hv : TRAPFRAME ≤ v) (x : Option Pte) : (s.setPte v x).pt.held = s.pt.held := by
  funext a
  cases a with
  | leaf u =>
    simp only [Space.setPte, Table.held, update_apply]
    split_ifs with h1 h2
    · omega
    · rfl
    · rfl
  | root | dir | tab => simp [Space.setPte, Table.held]

/-- Pages may come from the free list, but no entry for a page changes. -/
structure Grows (s s' : Space) : Prop where
  ptes : s'.pt.ptes = s.pt.ptes
  root : s'.pt.root = s.pt.root
  free : ∀ f, f ∈ s'.mem.free → f ∈ s.mem.free
  data : ∀ f, f ∉ s.mem.free → s'.mem.data f = s.mem.data f

lemma Grows.refl (s : Space) : Grows s s := ⟨rfl, rfl, fun _ => id, fun _ _ => rfl⟩

lemma Grows.trans (h : Grows s s₁) (h' : Grows s₁ s') : Grows s s' :=
  ⟨h'.ptes.trans h.ptes, h'.root.trans h.root, fun f hf => h.free f (h'.free f hf),
    fun f hf => (h'.data f fun hf' => hf (h.free f hf')).trans (h.data f hf)⟩

/-- The pages of the others are as they were. -/
def Keeps (O : Frame → Prop) (s s' : Space) : Prop := ∀ f, O f → s'.mem.data f = s.mem.data f

lemma Keeps.trans (h : Keeps O s s₁) (h' : Keeps O s₁ s') : Keeps O s s' := fun f hf =>
  (h' f hf).trans (h f hf)

lemma not_isNone_or {α β : Type} {a : Option α} {b : Option β} (ha : a.isSome = true)
    (hb : b.isSome = true) : ¬ (a.isNone || b.isNone) = true := by
  rw [Option.isNone_eq_false_iff.mpr ha, Option.isNone_eq_false_iff.mpr hb]
  decide

namespace Good

lemma congr {O' : Frame → Prop} (h : Good O s) (ho : ∀ x, O x ↔ O' x) : Good O' s :=
  { h with ledger := h.ledger.congr ho }

lemma fill (h : Good O s) (x : Frame) (page : Page) : Good O (s.fill x page) := { h with }

lemma keeps (h : Good O s) (hg : Grows s s') : Keeps O s s' := fun f hf =>
  hg.data f fun hfree => h.ledger.free_other f hfree hf

lemma div_div (v : Nat) : v / 2 ^ 9 / 2 ^ 9 = v / 2 ^ 18 :=
  Nat.div_div_eq_div_mul v (2 ^ 9) (2 ^ 9)

lemma present (h : Good O s) (hv : s.pt.ptes v ≠ none) :
    (s.pt.dirs (v / 2 ^ 18)).isSome ∧ (s.pt.tabs (v / 2 ^ 9)).isSome ∧ v < 2 ^ 27 := by
  have htab := h.tab v hv
  have hdir := h.dir _ htab
  rw [div_div] at hdir
  have hb := h.bound _ hdir
  exact ⟨Option.isSome_iff_ne_none.mpr hdir, Option.isSome_iff_ne_none.mpr htab, by omega⟩

end Good

/-! ### The allocator -/

section

variable (h : Good O s)

include h

lemma wp_kalloc : wp kalloc (fun r s' => s'.pt = s.pt ∧ Grows s s' ∧ match r with
    | none => Good O s'
    | some x => Good (fun y => O y ∨ y = x) s' ∧ ¬ O x ∧ x ∉ s'.mem.free ∧ x ∈ s.mem.free) Never s := by
  obtain ⟨free, hf⟩ : ∃ free, s.mem.free = free := ⟨_, rfl⟩
  cases free with
  | nil =>
    have e : kalloc s = .ok (none, { s with mem := { s.mem with calls := s.mem.calls + 1 } }) := by
      simp only [kalloc, hf]
    rw [wp, e]
    exact ⟨rfl, ⟨rfl, rfl, fun _ => id, fun _ _ => rfl⟩, ⟨h.ledger, h.tab, h.dir, h.bound⟩⟩
  | cons x free =>
    by_cases hluck : s.mem.luck s.mem.calls = true
    · have e : kalloc s = .ok (some x, Space.fill { s with
          mem := { s.mem with free := free, calls := s.mem.calls + 1 } } x fun _ => 5) := by
        simp only [kalloc, hf, hluck, if_true]
      have hl : Ledger (x :: free) s.pt.held O := hf ▸ h.ledger
      rw [wp, e]
      refine ⟨rfl, ⟨rfl, rfl, fun f hf' => ?_, fun f hf' => ?_⟩, ⟨hl.take, h.tab, h.dir, h.bound⟩,
        hl.free_other x List.mem_cons_self, (List.nodup_cons.mp hl.nodup).1, ?_⟩
      · rw [hf]
        exact List.mem_cons_of_mem x hf'
      · rw [hf] at hf'
        have hfx : f ≠ x := fun e => hf' (by rw [e]; exact List.mem_cons_self)
        exact update_of_ne hfx _ _
      · rw [hf]
        exact List.mem_cons_self
    · have e : kalloc s = .ok (none, { s with mem := { s.mem with calls := s.mem.calls + 1 } }) := by
        simp only [kalloc, hf, hluck]
        rfl
      rw [wp, e]
      exact ⟨rfl, ⟨rfl, rfl, fun _ => id, fun _ _ => rfl⟩, ⟨h.ledger, h.tab, h.dir, h.bound⟩⟩

lemma wp_kfree (hx : O x) : wp (kfree x) (fun _ s' => s'.pt = s.pt ∧
    Keeps (fun y => O y ∧ y ≠ x) s s' ∧ Good (fun y => O y ∧ y ≠ x) s') Never s :=
  ⟨rfl, fun _ hf => update_of_ne hf.2 _ _, ⟨h.ledger.give hx, h.tab, h.dir, h.bound⟩⟩

/-! ### `walk` and `mappages` -/

/-- A level of the walk, from what a new page table does where it is put. -/
lemma wp_walkLevel {set : Space → Option Frame → Space}
    (hset : ∀ x s₁, get s.pt = none → s₁.pt = s.pt → ¬ O x → Good (fun y => O y ∨ y = x) s₁ →
      Good O (set s₁ (some x)) ∧ Grows s₁ (set s₁ (some x)) ∧ get (set s₁ (some x)).pt ≠ none)
    (alloc : Bool) : wp (walkLevel get set alloc) (fun r s' => Good O s' ∧ Grows s s' ∧
      (r = true → get s'.pt ≠ none)) Never s := by
  rw [walkLevel, wp_bind, wp_reads]
  cases hget : get s.pt with
  | some y => exact ⟨h, .refl s, fun _ => by rw [hget]; simp⟩
  | none =>
    cases alloc with
    | false => exact ⟨h, .refl s, by simp⟩
    | true =>
      simp only [if_true, wp_bind]
      refine (wp_kalloc h).post fun r s₁ hpost => ?_
      obtain ⟨hpt, hg, hr⟩ := hpost
      cases r with
      | none => exact ⟨hr, hg, by simp⟩
      | some x =>
        obtain ⟨h1, hx, -, hfree⟩ := hr
        simp only [wp_bind, wp_modify, wp_pure]
        have hfill : Grows s (s₁.fill x fun _ => 0) := ⟨hg.ptes, hg.root, hg.free, fun f hf => by
          rw [← hg.data f hf]
          have hfx : f ≠ x := fun e => hf (by rw [e]; exact hfree)
          exact update_of_ne hfx _ _⟩
        obtain ⟨hgood, hgrows, hne⟩ :=
          hset x (s₁.fill x fun _ => 0) hget hpt hx (h1.fill x fun _ => 0)
        exact ⟨hgood, hfill.trans hgrows, fun _ => hne⟩

lemma wp_walkDir (hi : i < 2 ^ 9) (alloc : Bool) :
    wp (walkLevel (fun pt => pt.dirs i) (fun s => s.setDir i) alloc) (fun r s' => Good O s' ∧ Grows s s' ∧
      (r = true → s'.pt.dirs i ≠ none)) Never s := by
  refine wp_walkLevel h (fun x s₁ hdir hpt hx h1 => ?_) alloc
  have hput := h1.ledger.put (a := .dir i) (x := x) (.inr rfl) (by rw [← hdir, ← hpt]; rfl)
  refine ⟨⟨?_, h1.tab, ?_, ?_⟩, ⟨rfl, rfl, fun _ => id, fun _ _ => rfl⟩, by simp [Space.setDir]⟩
  · rw [held_setDir]
    exact hput.congr fun y => by grind
  · intro j hj
    simp only [Space.setDir, update_apply]
    split_ifs
    · simp
    · exact h1.dir j hj
  · intro j hj
    simp only [Space.setDir, update_apply] at hj
    split_ifs at hj with hji
    · exact hji ▸ hi
    · exact h1.bound j hj

lemma wp_walkTab (hi : s.pt.dirs (i / 2 ^ 9) ≠ none) (alloc : Bool) :
    wp (walkLevel (fun pt => pt.tabs i) (fun s => s.setTab i) alloc) (fun r s' => Good O s' ∧ Grows s s' ∧
      (r = true → s'.pt.tabs i ≠ none)) Never s := by
  refine wp_walkLevel h (fun x s₁ htab hpt hx h1 => ?_) alloc
  have hput := h1.ledger.put (a := .tab i) (x := x) (.inr rfl) (by rw [← htab, ← hpt]; rfl)
  refine ⟨⟨?_, ?_, ?_, h1.bound⟩, ⟨rfl, rfl, fun _ => id, fun _ _ => rfl⟩, by simp [Space.setTab]⟩
  · rw [held_setTab]
    exact hput.congr fun y => by grind
  · intro u hu
    simp only [Space.setTab, update_apply]
    split_ifs
    · simp
    · exact h1.tab u hu
  · intro j hj
    simp only [Space.setTab, update_apply] at hj ⊢
    split_ifs at hj with hji
    · rw [hji]
      exact (congrArg (fun pt => pt.dirs (i / 2 ^ 9)) hpt).trans_ne hi
    · exact h1.dir j hj

lemma wp_walk (hv : v < MAXPAGE) (alloc : Bool) :
    wp (walk v alloc) (fun r s' => Good O s' ∧ Grows s s' ∧
      (r = true → s'.pt.tabs (v / 2 ^ 9) ≠ none)) Never s := by
  have hi : v / 2 ^ 18 < 2 ^ 9 := by
    unfold MAXPAGE at hv
    omega
  rw [walk, if_neg (Nat.not_le_of_lt hv), wp_bind]
  refine (wp_walkDir h hi alloc).post fun r s₁ hpost => ?_
  obtain ⟨h1, hg1, hr1⟩ := hpost
  cases r with
  | false => exact ⟨h1, hg1, by simp⟩
  | true =>
    refine (wp_walkTab h1 (by rw [Good.div_div]; exact hr1 rfl) alloc).post fun r s2 hpost => ?_
    obtain ⟨h2, hg2, hr2⟩ := hpost
    exact ⟨h2, hg1.trans hg2, hr2⟩

end

lemma wp_walkLevel_present {set : Space → Option Frame → Space} {alloc : Bool} (hget : (get s.pt).isSome) :
    wp (walkLevel get set alloc) (fun r s' => r = true ∧ s = s') Never s := by
  obtain ⟨y, hy⟩ := Option.isSome_iff_exists.mp hget
  rw [walkLevel, wp_bind, wp_reads, hy]
  exact ⟨rfl, rfl⟩

lemma wp_walk_present (h : Good O s) (hv : v < MAXPAGE) (hp : s.pt.ptes v ≠ none) :
    wp (walk v false) (fun r s' => r = true ∧ s = s') Never s := by
  obtain ⟨hd, ht, _⟩ := h.present hp
  rw [walk, if_neg (Nat.not_le_of_lt hv), wp_bind]
  refine (wp_walkLevel_present hd).post ?_
  rintro _ _ ⟨rfl, rfl⟩
  rw [if_pos rfl]
  exact wp_walkLevel_present ht

/-- `mappages` at a page of the user, of a page that nobody else holds. -/
lemma wp_mappages {perm : Perm} (h : Good O s) (hx : O x) (hv : v < TRAPFRAME)
    (hnone : s.pt.ptes v = none) : wp (mappages v ⟨x, perm⟩) (fun r s' => s'.pt.root = s.pt.root ∧
      (∀ f, f ∉ s.mem.free → s'.mem.data f = s.mem.data f) ∧ (∀ f, f ∈ s'.mem.free → f ∈ s.mem.free) ∧
      (r = true → Good (fun y => O y ∧ y ≠ x) s' ∧
        s'.pt.ptes = update s.pt.ptes v (some ⟨x, perm⟩)) ∧
      (r = false → Good O s' ∧ s'.pt.ptes = s.pt.ptes)) Never s := by
  have hmax : v < MAXPAGE := by
    unfold TRAPFRAME at hv
    omega
  rw [mappages, wp_bind]
  refine (wp_walk h hmax true).post fun r s₁ hpost => ?_
  obtain ⟨h1, hg, hr⟩ := hpost
  cases r with
  | false => exact ⟨hg.root, hg.data, hg.free, by simp, fun _ => ⟨h1, hg.ptes⟩⟩
  | true =>
    have hnone1 : s₁.pt.ptes v = none := by rw [hg.ptes, hnone]
    simp only [if_true, wp_bind, wp_reads, hnone1, wp_modify, wp_pure]
    have hheld : s₁.pt.held (.leaf v) = none := by simp [Table.held, hnone1]
    refine ⟨hg.root, hg.data, hg.free, fun _ => ⟨⟨?_, ?_, h1.dir, h1.bound⟩, ?_⟩, by simp⟩
    · rw [held_setPte hv]
      exact h1.ledger.put hx hheld
    · intro u hu
      simp only [Space.setPte, update_apply] at hu
      split_ifs at hu with huv
      · rw [huv]
        exact hr rfl
      · exact h1.tab u hu
    · rw [← hg.ptes]
      rfl

lemma wp_mappages_top {pte : Pte} (h : Good O s) (hv : TRAPFRAME ≤ v) (hmax : v < MAXPAGE)
    (hnone : s.pt.ptes v = none) : wp (mappages v pte) (fun r s' => s'.pt.root = s.pt.root ∧
      Good O s' ∧ Keeps O s s' ∧
      (r = true → s'.pt.ptes = update s.pt.ptes v (some pte)) ∧
      (r = false → s'.pt.ptes = s.pt.ptes)) Never s := by
  rw [mappages, wp_bind]
  refine (wp_walk h hmax true).post fun r s₁ hpost => ?_
  obtain ⟨h1, hg, hr⟩ := hpost
  cases r with
  | false => exact ⟨hg.root, h1, h.keeps hg, by simp, fun _ => hg.ptes⟩
  | true =>
    have hnone1 : s₁.pt.ptes v = none := by rw [hg.ptes, hnone]
    simp only [if_true, wp_bind, wp_reads, hnone1, wp_modify, wp_pure]
    refine ⟨hg.root, ⟨?_, ?_, h1.dir, h1.bound⟩, fun f hf => h.keeps hg f hf, fun _ => ?_, by simp⟩
    · rw [held_setPte_top hv]
      exact h1.ledger
    · intro u hu
      simp only [Space.setPte, update_apply] at hu
      split_ifs at hu with huv
      · rw [huv]
        exact hr rfl
      · exact h1.tab u hu
    · rw [← hg.ptes]
      rfl

/-! ### `uvmunmap` and `freewalk` -/

lemma Perm.leaf_of_r {f : Perm} (h : f.r = true) : f.Leaf := by
  rintro rfl
  cases h

section

variable (h : Good O s)

include h

lemma wp_unmap {pte : Pte} (hv : v < TRAPFRAME) (hp : s.pt.ptes v = some pte)
    (hr : pte.perm.r = true) : wp (unmap true v) (fun _ s' => Good O s' ∧ Keeps O s s' ∧
      s'.pt.root = s.pt.root ∧ s'.pt.ptes = update s.pt.ptes v none) Never s := by
  have hmax : v < MAXPAGE := by
    unfold TRAPFRAME at hv
    omega
  rw [unmap, wp_bind]
  refine (wp_walk_present h hmax (by rw [hp]; simp)).post ?_
  rintro _ _ ⟨rfl, rfl⟩
  have hheld : s.pt.held (.leaf v) = some pte.frame := by simp [Table.held, hv, hp]
  have hnot : ¬ O pte.frame := h.ledger.held_other _ _ hheld
  simp only [if_true, wp_bind, wp_reads, hp, if_pos (Perm.leaf_of_r hr), kfree, wp_modify]
  have hkeeps (f) (hf : O f) : f ≠ pte.frame := fun e => hnot (by rw [← e]; exact hf)
  refine ⟨⟨?_, ?_, h.dir, h.bound⟩, fun f hf => update_of_ne (hkeeps f hf) _ _, rfl, rfl⟩
  · rw [held_setPte hv]
    exact h.ledger.recycle hheld
  · intro u hu
    simp only [Space.setPte, update_apply] at hu
    split_ifs at hu
    · exact absurd rfl hu
    · exact h.tab u hu

lemma wp_uvmunmap_top {pte : Pte} (hv : TRAPFRAME ≤ v) (hmax : v < MAXPAGE)
    (hp : s.pt.ptes v = some pte) (hr : pte.perm.r = true) : wp (uvmunmap v 1 false) (fun _ s' =>
      Good O s' ∧ Keeps O s s' ∧ s'.pt.root = s.pt.root ∧
      s'.pt.ptes = update s.pt.ptes v none) Never s := by
  rw [uvmunmap, List.range'_one, forEach, wp_bind, unmap, wp_bind]
  refine (wp_walk_present h hmax (by rw [hp]; simp)).post ?_
  rintro _ _ ⟨rfl, rfl⟩
  simp only [if_true, wp_bind, wp_reads, hp, if_pos (Perm.leaf_of_r hr)]
  refine ⟨⟨?_, ?_, h.dir, h.bound⟩, fun _ _ => rfl, rfl, rfl⟩
  · rw [held_setPte_top hv]
    exact h.ledger
  · intro u hu
    simp only [Space.setPte, update_apply] at hu
    split_ifs at hu
    · exact absurd rfl hu
    · exact h.tab u hu

lemma wp_uvmunmap (hn : v + n ≤ TRAPFRAME)
    (hp : ∀ u, v ≤ u → u < v + n → ∃ pte, s.pt.ptes u = some pte ∧ pte.perm.r = true) :
    wp (uvmunmap v n true) (fun _ s' => Good O s' ∧ Keeps O s s' ∧ s'.pt.root = s.pt.root ∧
      ∀ u, s'.pt.ptes u = if v ≤ u ∧ u < v + n then none else s.pt.ptes u) Never s := by
  induction n generalizing v s with
  | zero =>
    refine ⟨h, fun _ _ => rfl, rfl, fun u => ?_⟩
    rw [if_neg (by omega)]
  | succ n ih =>
    obtain ⟨pte, hpte, hr⟩ := hp v (Nat.le_refl v) (by omega)
    rw [uvmunmap, List.range'_succ, forEach, wp_bind]
    refine (wp_unmap h (by omega) hpte hr).post fun _ s₁ hpost => ?_
    obtain ⟨h1, hk1, hroot1, hptes1⟩ := hpost
    have hp1 (u) (hu : v + 1 ≤ u) (hu' : u < v + 1 + n) :
        ∃ pte, s₁.pt.ptes u = some pte ∧ pte.perm.r = true := by
      rw [hptes1, update_of_ne (by omega)]
      exact hp u (by omega) (by omega)
    refine (ih h1 (by omega) hp1).post fun _ s2 hpost => ?_
    obtain ⟨h2, hk2, hroot2, hptes2⟩ := hpost
    refine ⟨h2, hk1.trans hk2, hroot2.trans hroot1, fun u => ?_⟩
    rw [hptes2 u, hptes1, update_apply]
    grind

/-- `freewalk` of a page of the lowest level, when nothing is mapped. -/
lemma wp_freeTab (hp : ∀ u, s.pt.ptes u = none) (i : Nat) :
    wp (freeTab i) (fun _ s' => Good O s' ∧ Keeps O s s' ∧
      s'.pt = { s.pt with tabs := update s.pt.tabs i none }) Never s := by
  rw [freeTab, wp_bind, wp_reads]
  cases htab : s.pt.tabs i with
  | none =>
    refine ⟨h, fun _ _ => rfl, ?_⟩
    rw [← htab, update_eq_self]
  | some x =>
    rw [wp_bind]
    generalize List.range (2 ^ 9) = ks
    refine wp_forEach (fun _ s' => s = s') rfl ?_ ?_
    · rintro k ks _ rfl
      rw [wp_bind, wp_reads, hp]
      exact rfl
    · rintro _ rfl
      have hheld : s.pt.held (.tab i) = some x := htab
      have hnot : ¬ O x := h.ledger.held_other _ _ hheld
      simp only [wp_bind, kfree, wp_modify]
      refine ⟨⟨?_, fun u hu => absurd (hp u) hu, fun j hj => ?_, h.bound⟩, fun f hf => ?_, rfl⟩
      · rw [held_setTab]
        exact h.ledger.recycle hheld
      · simp only [Space.setTab, update_apply] at hj
        split_ifs at hj
        · exact absurd rfl hj
        · exact h.dir j hj
      · have hne : f ≠ x := fun e => hnot (by rw [← e]; exact hf)
        exact update_of_ne hne _ _

/-- `freewalk` of a page of the middle level, when nothing is mapped. -/
lemma wp_freeDir (hp : ∀ u, s.pt.ptes u = none) (i : Nat) :
    wp (freeDir i) (fun _ s' => Good O s' ∧ Keeps O s s' ∧ s'.pt.ptes = s.pt.ptes ∧
      s'.pt.root = s.pt.root ∧ s'.pt.dirs = update s.pt.dirs i none) Never s := by
  obtain ⟨ks, hks⟩ : ∃ ks, ks = List.range (2 ^ 9) := ⟨_, rfl⟩
  have hall (k) (hk : k < 2 ^ 9) : k ∈ ks := by
    rw [hks]
    exact List.mem_range.mpr hk
  rw [freeDir, wp_bind, wp_reads, ← hks]
  cases hdir : s.pt.dirs i with
  | none =>
    refine ⟨h, fun _ _ => rfl, rfl, rfl, ?_⟩
    rw [← hdir, update_eq_self]
  | some x =>
    rw [wp_bind]
    -- the pages below that have been visited are free
    refine wp_forEach (fun ks s' => Good O s' ∧ Keeps O s s' ∧ s'.pt.ptes = s.pt.ptes ∧
      s'.pt.root = s.pt.root ∧ s'.pt.dirs = s.pt.dirs ∧
      ∀ k, k < 2 ^ 9 → k ∉ ks → s'.pt.tabs (i * 2 ^ 9 + k) = none)
      ⟨h, fun _ _ => rfl, rfl, rfl, rfl, fun k hk hnot => absurd (hall k hk) hnot⟩ ?_ ?_
    · rintro k ks s₁ ⟨h1, hk1, hptes1, hroot1, hdirs1, htabs1⟩
      refine (wp_freeTab h1 (by rw [hptes1]; exact hp) _).post fun _ s2 hpost => ?_
      obtain ⟨h2, hk2, hpt2⟩ := hpost
      refine ⟨h2, hk1.trans hk2, by rw [hpt2, hptes1], by rw [hpt2, hroot1], by rw [hpt2, hdirs1], ?_⟩
      intro j hj hjs
      rw [hpt2]
      by_cases hjk : j = k
      · rw [hjk]
        exact update_self ..
      · exact (update_of_ne (by omega) _ _).trans (htabs1 j hj (by simp [hjk, hjs]))
    · rintro s₁ ⟨h1, hk1, hptes1, hroot1, hdirs1, htabs1⟩
      have hheld : s₁.pt.held (.dir i) = some x := (congrFun hdirs1 i).trans hdir
      have hnot : ¬ O x := h1.ledger.held_other _ _ hheld
      simp only [wp_bind, kfree, wp_modify]
      refine ⟨⟨?_, fun u hu => absurd ?_ hu, fun j hj => ?_, fun j hj => ?_⟩, fun f hf => ?_, hptes1, hroot1,
        ?_⟩
      · rw [held_setDir]
        exact h1.ledger.recycle hheld
      · exact (congrFun hptes1 u).trans (hp u)
      · have hji : j / 2 ^ 9 ≠ i := fun e => hj (by
          have := htabs1 (j % 2 ^ 9) (Nat.mod_lt _ (by decide)) (by simp)
          rwa [← e, Nat.div_add_mod'] at this)
        simp only [Space.setDir, update_of_ne hji]
        exact h1.dir j hj
      · simp only [Space.setDir, update_apply] at hj
        split_ifs at hj
        · exact absurd rfl hj
        · exact h1.bound j hj
      · have hne : f ≠ x := fun e => hnot (by rw [← e]; exact hf)
        exact (update_of_ne hne _ _).trans (hk1 f hf)
      · rw [← hdirs1]
        rfl

/-- **`freewalk`** gives all the pages of a table back, when nothing is mapped. -/
lemma wp_freewalk (hp : ∀ u, s.pt.ptes u = none) (hroot : s.pt.root = some x) :
    wp freewalk (fun _ s' => Good O s' ∧ Keeps O s s' ∧ s'.pt = Table.empty) Never s := by
  obtain ⟨ks, hks⟩ : ∃ ks, ks = List.range (2 ^ 9) := ⟨_, rfl⟩
  have hall (k) (hk : k < 2 ^ 9) : k ∈ ks := by
    rw [hks]
    exact List.mem_range.mpr hk
  rw [freewalk, wp_bind, wp_reads, hroot, ← hks]
  simp only [wp_bind]
  refine wp_forEach (fun ks s' => Good O s' ∧ Keeps O s s' ∧ s'.pt.ptes = s.pt.ptes ∧
    s'.pt.root = s.pt.root ∧ ∀ k, k < 2 ^ 9 → k ∉ ks → s'.pt.dirs k = none)
    ⟨h, fun _ _ => rfl, rfl, rfl, fun k hk hnot => absurd (hall k hk) hnot⟩ ?_ ?_
  · rintro k ks s₁ ⟨h1, hk1, hptes1, hroot1, hdirs1⟩
    refine (wp_freeDir h1 (by rw [hptes1]; exact hp) k).post fun _ s2 hpost => ?_
    obtain ⟨h2, hk2, hptes2, hroot2, hdirs2⟩ := hpost
    refine ⟨h2, hk1.trans hk2, hptes2.trans hptes1, hroot2.trans hroot1, fun j hj hjs => ?_⟩
    rw [hdirs2, update_apply]
    split_ifs with hjk
    · rfl
    · exact hdirs1 j hj (by simp [hjk, hjs])
  · rintro s₁ ⟨h1, hk1, hptes1, hroot1, hdirs1⟩
    have hheld : s₁.pt.held .root = some x := hroot1.trans hroot
    have hnot : ¬ O x := h1.ledger.held_other _ _ hheld
    have hdirs (i) : s₁.pt.dirs i = none := by
      by_contra hi
      exact hi (hdirs1 i (h1.bound i hi) (by simp))
    have htabs (i) : s₁.pt.tabs i = none := by
      by_contra hi
      exact h1.dir i hi (hdirs _)
    have hptes (u) : s₁.pt.ptes u = none := (congrFun hptes1 u).trans (hp u)
    simp only [kfree]
    refine ⟨⟨?_, fun u hu => absurd (hptes u) hu, fun j hj => absurd (htabs j) hj,
      fun j hj => absurd (hdirs j) hj⟩, fun f hf => ?_, ?_⟩
    · rw [held_setRoot]
      exact h1.ledger.recycle hheld
    · have hne : f ≠ x := fun e => hnot (by rw [← e]; exact hf)
      exact (update_of_ne hne _ _).trans (hk1 f hf)
    · simp only [Space.setRoot, Space.fill, Table.empty, Table.mk.injEq, true_and]
      exact ⟨funext hdirs, funext htabs, funext hptes⟩

end

end FypOs.Vm
