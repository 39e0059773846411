import Mathlib.Logic.Function.Basic
import Mathlib.Tactic.ByContra

/-!
# Lib — directory trees

Directories have slots, and an entry in a slot names something: `R d k n x` says that slot `k` of
directory `d` names `n` with the name `x`.  By convention two slots name the directory itself and the
directory above it.
-/

namespace FypOs.Lib

open Function

/-- The root, the two slots that every directory has, and the names in them. -/
structure Conventions (ι κ ν : Type) where
  root : ι
  self : κ
  up : κ
  dot : ν
  dotdot : ν
  self_ne_up : self ≠ up
  dot_ne_dotdot : dot ≠ dotdot

variable {ι κ ν : Type} {C : Conventions ι κ ν} {Dir : ι → Prop} {R : ι → κ → ι → ν → Prop}
  {d n : ι} {k k' : κ} {x x' : ν}

/-- A name of the user. -/
def Conventions.Proper (C : Conventions ι κ ν) (x : ν) : Prop := x ≠ C.dot ∧ x ≠ C.dotdot

/-- Every directory has the two entries, names in it are distinct, and every directory but the root
has one proper name, in the directory above it. -/
structure Forest (C : Conventions ι κ ν) (Dir : ι → Prop) (R : ι → κ → ι → ν → Prop) : Prop where
  dir : ∀ {d k n x}, R d k n x → Dir d
  /-- A slot has one entry. -/
  slot : ∀ {d k n n' x x'}, R d k n x → R d k n' x' → n = n' ∧ x = x'
  distinct : ∀ {d k k' n n' x}, R d k n x → R d k' n' x → k = k'
  root : Dir C.root
  rootUp : R C.root C.up C.root C.dotdot
  dot : ∀ {d}, Dir d → R d C.self d C.dot
  parent : ∀ {d}, Dir d → d ≠ C.root → ∃ p k x, R d C.up p C.dotdot ∧ R p k d x ∧ C.Proper x
  /-- Where a directory has a proper name, it has its parent. -/
  named : ∀ {d k n x}, R d k n x → C.Proper x → Dir n → n ≠ C.root ∧ R n C.up d C.dotdot
  single : ∀ {d k k' n x x'}, R d k n x → C.Proper x → R d k' n x' → C.Proper x' → Dir n → k = k'
  /-- There are no cycles. -/
  rank : ∃ r : ι → Nat, ∀ d p, R d C.up p C.dotdot → d ≠ C.root → r p < r d

namespace Forest

variable (h : Forest C Dir R)

include h

lemma up (hd : Dir d) : ∃ p, R d C.up p C.dotdot := by
  by_cases hr : d = C.root
  · exact ⟨C.root, hr ▸ h.rootUp⟩
  · obtain ⟨p, -, -, hp, -⟩ := h.parent hd hr
    exact ⟨p, hp⟩

/-- A name that a directory does not have is a proper one. -/
lemma proper_of_fresh (hd : Dir d) (hx : ∀ k n, ¬ R d k n x) : C.Proper x := by
  obtain ⟨p, hp⟩ := h.up hd
  exact ⟨fun e => hx _ _ (e ▸ h.dot hd), fun e => hx _ _ (e ▸ hp)⟩

/-- The entry of a proper name is in neither of the two slots. -/
lemma self_ne (he : R d k n x) (hx : C.Proper x) {a c : ι} (ha : R a C.self c C.dot) :
    ¬ (a = d ∧ C.self = k) := by
  rintro ⟨rfl, rfl⟩
  exact hx.1 (h.slot he ha).2

lemma up_ne (he : R d k n x) (hx : C.Proper x) {a c : ι} (ha : R a C.up c C.dotdot) : ¬ (a = d ∧ C.up = k) := by
  rintro ⟨rfl, rfl⟩
  exact hx.2 (h.slot he ha).2

/-! ### Files -/

/-- **A new name** for something that is not a directory. -/
lemma add (hd : Dir d) (hk : ∀ n x, ¬ R d k n x) (hx : ∀ k n, ¬ R d k n x) (hn : ¬ Dir n) :
    Forest C Dir fun a b c y => R a b c y ∨ a = d ∧ b = k ∧ c = n ∧ y = x where
  dir := by
    rintro a b c y (ha | ⟨rfl, -, -, -⟩)
    · exact h.dir ha
    · exact hd
  slot := by
    rintro a b c c' y y' (h1 | ⟨rfl, rfl, rfl, rfl⟩) (h2 | ⟨e1, e2, rfl, rfl⟩)
    · exact h.slot h1 h2
    · exact absurd (e1 ▸ e2 ▸ h1) (hk _ _)
    · exact absurd h2 (hk _ _)
    · exact ⟨rfl, rfl⟩
  distinct := by
    rintro a b b' c c' y (h1 | ⟨rfl, rfl, rfl, rfl⟩) (h2 | ⟨e1, rfl, rfl, e2⟩)
    · exact h.distinct h1 h2
    · exact absurd (e1 ▸ e2 ▸ h1) (hx _ _)
    · exact absurd h2 (hx _ _)
    · rfl
  root := h.root
  rootUp := .inl h.rootUp
  dot ha := .inl (h.dot ha)
  parent ha hr := by
    obtain ⟨p, b, y, h1, h2, hy⟩ := h.parent ha hr
    exact ⟨p, b, y, .inl h1, .inl h2, hy⟩
  named := by
    rintro a b c y (h1 | ⟨-, -, rfl, -⟩) hy hc
    · obtain ⟨hr, h2⟩ := h.named h1 hy hc
      exact ⟨hr, .inl h2⟩
    · exact absurd hc hn
  single := by
    rintro a b b' c y y' (h1 | ⟨-, -, rfl, -⟩) hy (h2 | ⟨-, -, e, -⟩) hy' hc
    · exact h.single h1 hy h2 hy' hc
    · exact absurd (e ▸ hc) hn
    · exact absurd hc hn
    · exact absurd hc hn
  rank := by
    obtain ⟨r, hr⟩ := h.rank
    refine ⟨r, ?_⟩
    rintro a p (h1 | ⟨-, -, -, e⟩) ha
    · exact hr a p h1 ha
    · exact absurd e.symm (h.proper_of_fresh hd hx).2

/-- **A name is removed** of something that is not a directory. -/
lemma remove (he : R d k n x) (hx : C.Proper x) (hn : ¬ Dir n) :
    Forest C Dir fun a b c y => R a b c y ∧ ¬ (a = d ∧ b = k) where
  dir ha := h.dir ha.1
  slot h1 h2 := h.slot h1.1 h2.1
  distinct h1 h2 := h.distinct h1.1 h2.1
  root := h.root
  rootUp := ⟨h.rootUp, h.up_ne he hx h.rootUp⟩
  dot ha := ⟨h.dot ha, h.self_ne he hx (h.dot ha)⟩
  parent ha hr := by
    obtain ⟨p, b, y, h1, h2, hy⟩ := h.parent ha hr
    refine ⟨p, b, y, ⟨h1, h.up_ne he hx h1⟩, ⟨h2, ?_⟩, hy⟩
    rintro ⟨rfl, rfl⟩
    exact hn ((h.slot he h2).1 ▸ ha)
  named h1 hy hc := by
    obtain ⟨hr, h2⟩ := h.named h1.1 hy hc
    exact ⟨hr, h2, h.up_ne he hx h2⟩
  single h1 hy h2 := h.single h1.1 hy h2.1
  rank := by
    obtain ⟨r, hr⟩ := h.rank
    exact ⟨r, fun a p h1 => hr a p h1.1⟩

/-- **A name is changed**, in the same directory. -/
lemma move (he : R d k' n x') (hx' : C.Proper x') (hk : ∀ n x, ¬ R d k n x) (hx : ∀ k n, ¬ R d k n x) :
    Forest C Dir fun a b c y =>
      R a b c y ∧ ¬ (a = d ∧ b = k') ∨ a = d ∧ b = k ∧ c = n ∧ y = x where
  dir := by
    rintro a b c y (ha | ⟨rfl, -, -, -⟩)
    · exact h.dir ha.1
    · exact h.dir he
  slot := by
    rintro a b c c' y y' (h1 | ⟨rfl, rfl, rfl, rfl⟩) (h2 | ⟨e1, e2, rfl, rfl⟩)
    · exact h.slot h1.1 h2.1
    · exact absurd (e1 ▸ e2 ▸ h1.1) (hk _ _)
    · exact absurd h2.1 (hk _ _)
    · exact ⟨rfl, rfl⟩
  distinct := by
    rintro a b b' c c' y (h1 | ⟨rfl, rfl, rfl, rfl⟩) (h2 | ⟨e1, rfl, rfl, e2⟩)
    · exact h.distinct h1.1 h2.1
    · exact absurd (e1 ▸ e2 ▸ h1.1) (hx _ _)
    · exact absurd h2.1 (hx _ _)
    · rfl
  root := h.root
  rootUp := .inl ⟨h.rootUp, h.up_ne he hx' h.rootUp⟩
  dot ha := .inl ⟨h.dot ha, h.self_ne he hx' (h.dot ha)⟩
  parent {a} ha hr := by
    obtain ⟨p, b, y, h1, h2, hy⟩ := h.parent ha hr
    by_cases hb : p = d ∧ b = k'
    · -- it is the directory that has got its new name
      obtain ⟨rfl, rfl⟩ := hb
      obtain rfl : n = a := (h.slot he h2).1
      exact ⟨p, k, x, .inl ⟨h1, h.up_ne he hx' h1⟩, .inr ⟨rfl, rfl, rfl, rfl⟩, h.proper_of_fresh (h.dir he) hx⟩
    · exact ⟨p, b, y, .inl ⟨h1, h.up_ne he hx' h1⟩, .inl ⟨h2, hb⟩, hy⟩
  named := by
    rintro a b c y (h1 | ⟨rfl, -, rfl, -⟩) hy hc
    · obtain ⟨hr, h2⟩ := h.named h1.1 hy hc
      exact ⟨hr, .inl ⟨h2, h.up_ne he hx' h2⟩⟩
    · obtain ⟨hr, h2⟩ := h.named he hx' hc
      exact ⟨hr, .inl ⟨h2, h.up_ne he hx' h2⟩⟩
  single := by
    rintro a b b' c y y' (⟨h1, hb⟩ | ⟨rfl, rfl, rfl, -⟩) hy (⟨h2, hb'⟩ | ⟨e1, rfl, e2, -⟩) hy' hc
    · exact h.single h1 hy h2 hy' hc
    · subst e1 e2
      exact absurd ⟨rfl, h.single h1 hy he hx' hc⟩ hb
    · exact absurd ⟨rfl, h.single h2 hy' he hx' hc⟩ hb'
    · rfl
  rank := by
    obtain ⟨r, hr⟩ := h.rank
    refine ⟨r, ?_⟩
    rintro a p (h1 | ⟨-, -, -, e⟩) ha
    · exact hr a p h1.1 ha
    · exact absurd e.symm (h.proper_of_fresh (h.dir he) hx).2

/-! ### Directories -/

/-- **A new directory.** -/
lemma mkdir (hd : Dir d) (hk : ∀ n x, ¬ R d k n x) (hx : ∀ k n, ¬ R d k n x) (hn : ¬ Dir n)
    (hfree : ∀ d k x, ¬ R d k n x) :
    Forest C (fun a => Dir a ∨ a = n) fun a b c y => R a b c y ∨ a = d ∧ b = k ∧ c = n ∧ y = x ∨
      a = n ∧ b = C.self ∧ c = n ∧ y = C.dot ∨ a = n ∧ b = C.up ∧ c = d ∧ y = C.dotdot := by
  classical
  have hdn : d ≠ n := fun e => hn (e ▸ hd)
  have hR {b c y} : ¬ R n b c y := fun h1 => hn (h.dir h1)
  have hproper := h.proper_of_fresh hd hx
  refine ⟨?_, ?_, ?_, .inl h.root, .inl h.rootUp, ?_, ?_, ?_, ?_, ?_⟩
  · rintro a b c y (h1 | ⟨rfl, -, -, -⟩ | ⟨rfl, -, -, -⟩ | ⟨rfl, -, -, -⟩)
    · exact .inl (h.dir h1)
    · exact .inl hd
    · exact .inr rfl
    · exact .inr rfl
  · rintro a b c c' y y' (h1 | ⟨rfl, rfl, rfl, rfl⟩ | ⟨rfl, rfl, rfl, rfl⟩ | ⟨rfl, rfl, rfl, rfl⟩)
      (h2 | ⟨e1, e2, rfl, rfl⟩ | ⟨e1, e2, rfl, rfl⟩ | ⟨e1, e2, rfl, rfl⟩)
    · exact h.slot h1 h2
    · exact absurd (e1 ▸ e2 ▸ h1) (hk _ _)
    · exact absurd (e1 ▸ h1) hR
    · exact absurd (e1 ▸ h1) hR
    · exact absurd h2 (hk _ _)
    · exact ⟨rfl, rfl⟩
    · exact absurd e1 hdn
    · exact absurd e1 hdn
    · exact absurd h2 hR
    · exact absurd e1.symm hdn
    · exact ⟨rfl, rfl⟩
    · exact absurd e2 C.self_ne_up
    · exact absurd h2 hR
    · exact absurd e1.symm hdn
    · exact absurd e2.symm C.self_ne_up
    · exact ⟨rfl, rfl⟩
  · rintro a b b' c c' y (h1 | ⟨rfl, rfl, rfl, rfl⟩ | ⟨rfl, rfl, rfl, rfl⟩ | ⟨rfl, rfl, rfl, rfl⟩)
      (h2 | ⟨e1, rfl, rfl, e2⟩ | ⟨e1, rfl, rfl, e2⟩ | ⟨e1, rfl, rfl, e2⟩)
    · exact h.distinct h1 h2
    · exact absurd (e1 ▸ e2 ▸ h1) (hx _ _)
    · exact absurd (e1 ▸ h1) hR
    · exact absurd (e1 ▸ h1) hR
    · exact absurd h2 (hx _ _)
    · rfl
    · exact absurd e1 hdn
    · exact absurd e1 hdn
    · exact absurd h2 hR
    · exact absurd e1.symm hdn
    · rfl
    · exact absurd e2 C.dot_ne_dotdot
    · exact absurd h2 hR
    · exact absurd e1.symm hdn
    · exact absurd e2.symm C.dot_ne_dotdot
    · rfl
  · rintro a (ha | rfl)
    · exact .inl (h.dot ha)
    · exact .inr (.inr (.inl ⟨rfl, rfl, rfl, rfl⟩))
  · rintro a (ha | rfl) hr
    · obtain ⟨p, b, y, h1, h2, hy⟩ := h.parent ha hr
      exact ⟨p, b, y, .inl h1, .inl h2, hy⟩
    · exact ⟨d, k, x, .inr (.inr (.inr ⟨rfl, rfl, rfl, rfl⟩)), .inr (.inl ⟨rfl, rfl, rfl, rfl⟩), hproper⟩
  · rintro a b c y (h1 | ⟨rfl, rfl, rfl, rfl⟩ | ⟨rfl, rfl, rfl, rfl⟩ | ⟨rfl, rfl, rfl, rfl⟩) hy hc
    · rcases hc with hc | rfl
      · obtain ⟨hr, h2⟩ := h.named h1 hy hc
        exact ⟨hr, .inl h2⟩
      · exact absurd h1 (hfree _ _ _)
    · exact ⟨fun e => hn (e ▸ h.root), .inr (.inr (.inr ⟨rfl, rfl, rfl, rfl⟩))⟩
    · exact absurd rfl hy.1
    · exact absurd rfl hy.2
  · rintro a b b' c y y' (h1 | ⟨rfl, rfl, rfl, rfl⟩ | ⟨-, -, -, rfl⟩ | ⟨-, -, -, rfl⟩) hy
      (h2 | ⟨e1, rfl, e2, rfl⟩ | ⟨-, -, -, rfl⟩ | ⟨-, -, -, rfl⟩) hy' hc
    · rcases hc with hc | rfl
      · exact h.single h1 hy h2 hy' hc
      · exact absurd h1 (hfree _ _ _)
    · exact absurd (e2 ▸ h1) (hfree _ _ _)
    · exact absurd rfl hy'.1
    · exact absurd rfl hy'.2
    · exact absurd h2 (hfree _ _ _)
    · rfl
    · exact absurd rfl hy'.1
    · exact absurd rfl hy'.2
    all_goals first | exact absurd rfl hy.1 | exact absurd rfl hy.2
  · obtain ⟨r, hr⟩ := h.rank
    refine ⟨update r n (r d + 1), ?_⟩
    rintro a p (h1 | ⟨-, -, -, e⟩ | ⟨-, -, -, e⟩ | ⟨rfl, -, rfl, -⟩) ha
    · have han : a ≠ n := fun e => hn (e ▸ h.dir h1)
      have hpn : p ≠ n := fun e => hfree _ _ _ (e ▸ h1)
      rw [update_of_ne han, update_of_ne hpn]
      exact hr a p h1 ha
    · exact absurd e.symm hproper.2
    · exact absurd e.symm C.dot_ne_dotdot
    · rw [update_self, update_of_ne hdn]
      exact Nat.lt_succ_self _

/-- **A directory is removed** that has no entries under proper names. -/
lemma rmdir (he : R d k n x) (hx : C.Proper x) (hn : Dir n) (hempty : ∀ {b c y}, R n b c y → ¬ C.Proper y) :
    Forest C (fun a => Dir a ∧ a ≠ n) fun a b c y => R a b c y ∧ ¬ (a = d ∧ b = k) ∧ a ≠ n := by
  have hroot : C.root ≠ n := (h.named he hx hn).1.symm
  refine ⟨fun h1 => ⟨h.dir h1.1, h1.2.2⟩, fun h1 h2 => h.slot h1.1 h2.1,
    fun h1 h2 => h.distinct h1.1 h2.1, ⟨h.root, hroot⟩, ⟨h.rootUp, h.up_ne he hx h.rootUp, hroot⟩,
    fun ha => ⟨h.dot ha.1, h.self_ne he hx (h.dot ha.1), ha.2⟩, ?_, ?_,
    fun h1 hy h2 hy' hc => h.single h1.1 hy h2.1 hy' hc.1, ?_⟩
  · rintro a ⟨ha, hne⟩ hr
    obtain ⟨p, b, y, h1, h2, hy⟩ := h.parent ha hr
    refine ⟨p, b, y, ⟨h1, h.up_ne he hx h1, hne⟩, ⟨h2, ?_, ?_⟩, hy⟩
    · rintro ⟨rfl, rfl⟩
      exact hne (h.slot he h2).1.symm
    · rintro rfl
      exact hempty h2 hy
  · rintro a b c y ⟨h1, -, -⟩ hy ⟨hc, hne⟩
    obtain ⟨hr, h2⟩ := h.named h1 hy hc
    exact ⟨hr, h2, h.up_ne he hx h2, hne⟩
  · obtain ⟨r, hr⟩ := h.rank
    exact ⟨r, fun a p h1 => hr a p h1.1⟩

end Forest

/-! ### Reaching everything -/

end FypOs.Lib
