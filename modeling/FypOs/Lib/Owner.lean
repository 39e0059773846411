import Mathlib.Logic.Function.Basic

/-!
# Lib — exact ownership

A pool of resources with a mark on each, and a family of references `R` into it, a reference to
`null` being none.  `Owner pool null marked R`: exactly the referenced resources of the pool are
marked, no resource is referenced twice, and nothing outside the pool is referenced.
-/

namespace FypOs.Lib

open Function

/-- The marks say exactly what the references own. -/
structure Owner {β ι : Type} (pool : β → Prop) (null : β) (marked : β → Bool) (R : ι → β) :
    Prop where
  /-- A resource of the pool is marked when it is referenced, and only then. -/
  marked_iff : ∀ b, pool b → (marked b = true ↔ ∃ r, R r = b)
  /-- No resource is referenced twice. -/
  unique : ∀ r r', R r = R r' → R r ≠ null → r = r'
  /-- Only resources of the pool are referenced. -/
  mem : ∀ r, R r ≠ null → pool (R r)
  null_not_mem : ¬ pool null

namespace Owner

variable {β ι : Type} {pool : β → Prop} {null b : β} {marked marked' : β → Bool} {R R' : ι → β}
  {r : ι}

section

variable (h : Owner pool null marked R)

include h

lemma marked_of (hr : R r ≠ null) : marked (R r) = true :=
  (h.marked_iff _ (h.mem r hr)).mpr ⟨r, rfl⟩

/-- An unmarked resource of the pool is not referenced. -/
lemma ne_of_not_marked (hp : pool b) (hb : marked b = false) (r : ι) : R r ≠ b := fun e => by
  have := (h.marked_iff b hp).mpr ⟨r, e⟩
  rw [hb] at this
  cases this

lemma congr (hm : ∀ b, pool b → marked' b = marked b) (hR : ∀ r, R' r = R r) : Owner pool null marked' R' := by
  obtain rfl : R' = R := funext hR
  exact ⟨fun b hb => by rw [hm b hb]; exact h.marked_iff b hb, h.unique, h.mem, h.null_not_mem⟩

end

variable [DecidableEq β] [DecidableEq ι]

/-- **Allocation.** -/
lemma take (h : Owner pool null marked R) (hp : pool b) (hb : marked b = false)
    (hr : R r = null) : Owner pool null (update marked b true) (update R r b) where
  marked_iff c hc := by
    by_cases hcb : c = b
    · subst hcb
      simp only [update_self, true_iff]
      exact ⟨r, update_self ..⟩
    · rw [update_of_ne hcb, h.marked_iff c hc]
      constructor
      · rintro ⟨r', rfl⟩
        have hne : r' ≠ r := fun e => h.null_not_mem (hr ▸ e ▸ hc)
        exact ⟨r', update_of_ne hne ..⟩
      · rintro ⟨r', e⟩
        by_cases hne : r' = r
        · rw [hne, update_self] at e
          exact absurd e.symm hcb
        · exact ⟨r', by rwa [update_of_ne hne] at e⟩
  unique r1 r2 e hn := by
    have hfresh := h.ne_of_not_marked hp hb
    by_cases h1 : r1 = r <;> by_cases h2 : r2 = r
    · rw [h1, h2]
    · rw [h1, update_self, update_of_ne h2] at e
      exact absurd e.symm (hfresh r2)
    · rw [h2, update_self, update_of_ne h1] at e
      exact absurd e (hfresh r1)
    · rw [update_of_ne h1] at e hn
      rw [update_of_ne h2] at e
      exact h.unique r1 r2 e hn
  mem r' hn := by
    by_cases hne : r' = r
    · rw [hne, update_self]; exact hp
    · rw [update_of_ne hne] at hn ⊢
      exact h.mem r' hn
  null_not_mem := h.null_not_mem

/-- **Release.** -/
lemma give (h : Owner pool null marked R) (hr : R r ≠ null) :
    Owner pool null (update marked (R r) false) (update R r null) where
  marked_iff c hc := by
    by_cases hcb : c = R r
    · subst hcb
      simp only [update_self, Bool.false_eq_true, false_iff, not_exists]
      intro r' e
      by_cases hne : r' = r
      · rw [hne, update_self] at e
        exact hr e.symm
      · rw [update_of_ne hne] at e
        exact hne (h.unique r' r e (e ▸ hr))
    · rw [update_of_ne hcb, h.marked_iff c hc]
      constructor
      · rintro ⟨r', rfl⟩
        have hne : r' ≠ r := fun e => hcb (by rw [e])
        exact ⟨r', update_of_ne hne ..⟩
      · rintro ⟨r', e⟩
        by_cases hne : r' = r
        · rw [hne, update_self] at e
          exact absurd (e ▸ hc) h.null_not_mem
        · exact ⟨r', by rwa [update_of_ne hne] at e⟩
  unique r1 r2 e hn := by
    have h1 : r1 ≠ r := fun e' => hn (by rw [e', update_self])
    rw [update_of_ne h1] at e hn
    have h2 : r2 ≠ r := fun e' => hn (by rw [e, e', update_self])
    rw [update_of_ne h2] at e
    exact h.unique r1 r2 e hn
  mem r' hn := by
    have hne : r' ≠ r := fun e => hn (by rw [e, update_self])
    rw [update_of_ne hne] at hn ⊢
    exact h.mem r' hn
  null_not_mem := h.null_not_mem

end Owner

end FypOs.Lib
