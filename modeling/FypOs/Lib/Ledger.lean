import Mathlib.Logic.Function.Basic

/-!
# Lib — who holds what

Items are handed out from a free list and held at places.  `Ledger free held other` says that every item
is in exactly one of: the free list, once; one place; or elsewhere, where `other` says.

* `Ledger.take`, `Ledger.give`: an item leaves the free list, or comes back to it.
-/

namespace FypOs.Lib

open Function

variable {F A B : Type} {free : List F} {held : A → Option F} {other other' : F → Prop} {x : F} {a : A}

structure Ledger (free : List F) (held : A → Option F) (other : F → Prop) : Prop where
  nodup : free.Nodup
  inj : ∀ a b x, held a = some x → held b = some x → a = b
  free_held : ∀ x a, x ∈ free → held a ≠ some x
  free_other : ∀ x, x ∈ free → ¬ other x
  held_other : ∀ a x, held a = some x → ¬ other x
  cover : ∀ x, x ∉ free → ¬ other x → ∃ a, held a = some x

namespace Ledger

lemma congr (h : Ledger free held other) (ho : ∀ x, other x ↔ other' x) : Ledger free held other' := by
  obtain rfl : other = other' := funext fun x => propext (ho x)
  exact h

lemma take (h : Ledger (x :: free) held other) : Ledger free held fun y => other y ∨ y = x := by
  cases h
  constructor <;> grind

lemma give (h : Ledger free held other) (hx : other x) : Ledger (x :: free) held fun y => other y ∧ y ≠ x := by
  cases h
  constructor <;> grind

variable [DecidableEq A] {held' : B → Option F}

section

variable (h : Ledger free held other)

include h

lemma put (hx : other x) (ha : held a = none) :
    Ledger free (update held a (some x)) fun y => other y ∧ y ≠ x := by
  obtain ⟨h1, h2, h3, h4, h5, h6⟩ := h
  refine ⟨h1, ?_, ?_, ?_, ?_, ?_⟩
  · simp only [update_apply]
    grind
  · simp only [update_apply]
    grind
  · grind
  · simp only [update_apply]
    grind
  · simp only [update_apply]
    intro y hy ho
    by_cases hyx : y = x
    · exact ⟨a, by rw [if_pos rfl, hyx]⟩
    · obtain ⟨b, hb⟩ := h6 y hy fun hoy => ho ⟨hoy, hyx⟩
      refine ⟨b, ?_⟩
      rw [if_neg]
      · exact hb
      · rintro rfl
        exact nomatch ha.symm.trans hb

lemma drop (ha : held a = some x) : Ledger free (update held a none) fun y => other y ∨ y = x := by
  obtain ⟨h1, h2, h3, h4, h5, h6⟩ := h
  refine ⟨h1, ?_, ?_, ?_, ?_, ?_⟩
  · simp only [update_apply]
    grind
  · simp only [update_apply]
    grind
  · grind
  · simp only [update_apply]
    grind
  · simp only [update_apply]
    intro y hy ho
    obtain ⟨b, hb⟩ := h6 y hy fun hoy => ho (.inl hoy)
    refine ⟨b, ?_⟩
    rw [if_neg]
    · exact hb
    · rintro rfl
      exact ho (.inr (Option.some_inj.mp (hb.symm.trans ha)))

lemma recycle (ha : held a = some x) : Ledger (x :: free) (update held a none) other := by
  have hx : ¬ other x := h.held_other a x ha
  exact ((h.drop ha).give (.inr rfl)).congr fun y => by grind

end

omit [DecidableEq A]

/-- The places of `B` that are not in the range of `f` are elsewhere. -/
lemma focus (f : A → B) (hf : ∀ a b, f a = f b → a = b)
    (h : Ledger free held' other) : Ledger free (fun a => held' (f a))
      fun x => other x ∨ ∃ b, (∀ a, f a ≠ b) ∧ held' b = some x := by
  obtain ⟨h1, h2, h3, h4, h5, h6⟩ := h
  refine ⟨h1, fun a b x ha hb => hf _ _ (h2 _ _ _ ha hb), fun x a => h3 x _, ?_, ?_, ?_⟩
  · rintro x hx (ho | ⟨b, _, hb⟩)
    · exact h4 x hx ho
    · exact h3 x b hx hb
  · rintro a x ha (ho | ⟨b, hne, hb⟩)
    · exact h5 _ x ha ho
    · exact hne a (h2 _ _ _ ha hb)
  · intro x hx ho
    obtain ⟨b, hb⟩ := h6 x hx fun hox => ho (.inl hox)
    by_contra hc
    exact ho (.inr ⟨b, fun a e => hc ⟨a, e ▸ hb⟩, hb⟩)

/-- Back to all places: those that are not in the range of `f` are as they were. -/
lemma widen {held0 held' : B → Option F} (f : A → B)
    (h : Ledger free held fun x => other x ∨ ∃ b, (∀ a, f a ≠ b) ∧ held0 b = some x)
    (h0 : ∀ b b' x, held0 b = some x → held0 b' = some x → b = b') (ho : ∀ b x, held0 b = some x → ¬ other x)
    (hin : ∀ a, held' (f a) = held a) (hout : ∀ b, (∀ a, f a ≠ b) → held' b = held0 b) :
    Ledger free held' other := by
  have hcase (b) : (∃ a, f a = b ∧ held' b = held a) ∨ (∀ a, f a ≠ b) ∧ held' b = held0 b := by
    by_cases hb : ∃ a, f a = b
    · obtain ⟨a, rfl⟩ := hb
      exact .inl ⟨a, rfl, hin a⟩
    · have hne (a) : f a ≠ b := fun e => hb ⟨a, e⟩
      exact .inr ⟨hne, hout b hne⟩
  obtain ⟨h1, h2, h3, h4, h5, h6⟩ := h
  refine ⟨h1, fun b b' x hb hb' => ?_, fun x b hx hb => ?_, fun x hx ho => h4 x hx (.inl ho),
    fun b x hb hox => ?_, fun x hx hox => ?_⟩
  · rcases hcase b with ⟨a, rfl, ha⟩ | ⟨hne, ha⟩ <;> rcases hcase b' with ⟨a', rfl, ha'⟩ | ⟨hne', ha'⟩
    · rw [h2 a a' x (ha.symm.trans hb) (ha'.symm.trans hb')]
    · exact absurd (.inr ⟨b', hne', ha'.symm.trans hb'⟩) (h5 a x (ha.symm.trans hb))
    · exact absurd (.inr ⟨b, hne, ha.symm.trans hb⟩) (h5 a' x (ha'.symm.trans hb'))
    · exact h0 b b' x (ha.symm.trans hb) (ha'.symm.trans hb')
  · rcases hcase b with ⟨a, rfl, ha⟩ | ⟨hne, ha⟩
    · exact h3 x a hx (ha.symm.trans hb)
    · exact h4 x hx (.inr ⟨b, hne, ha.symm.trans hb⟩)
  · rcases hcase b with ⟨a, rfl, ha⟩ | ⟨hne, ha⟩
    · exact h5 a x (ha.symm.trans hb) (.inl hox)
    · exact ho b x (ha.symm.trans hb) hox
  · by_cases hb : ∃ b, (∀ a, f a ≠ b) ∧ held0 b = some x
    · obtain ⟨b, hne, hb⟩ := hb
      exact ⟨b, (hout b hne).trans hb⟩
    · obtain ⟨a, ha⟩ := h6 x hx fun hc => hc.elim hox hb
      exact ⟨f a, (hin a).trans ha⟩

/-- The places at hand are elsewhere for other places, and the other way round. -/
lemma swap (h : Ledger free held fun x => other x ∨ ∃ b, held' b = some x)
    (hinj : ∀ b b' x, held' b = some x → held' b' = some x → b = b') (ho : ∀ b x, held' b = some x → ¬ other x) :
    Ledger free held' fun x => other x ∨ ∃ a, held a = some x := by
  obtain ⟨h1, h2, h3, h4, h5, h6⟩ := h
  refine ⟨h1, hinj, fun x b hx hb => h4 x hx (.inr ⟨b, hb⟩), ?_, ?_, fun x hx hn => ?_⟩
  · rintro x hx (hox | ⟨a, ha⟩)
    · exact h4 x hx (.inl hox)
    · exact h3 x a hx ha
  · rintro b x hb (hox | ⟨a, ha⟩)
    · exact ho b x hb hox
    · exact h5 a x ha (.inr ⟨b, hb⟩)
  · by_contra hc
    obtain ⟨a, ha⟩ := h6 x hx fun hox => hox.elim (fun hox => hn (.inl hox)) hc
    exact hn (.inr ⟨a, ha⟩)

/-- An item that is elsewhere comes to a place of its own. -/
lemma extend (h : Ledger free held fun y => other y ∨ y = x) (hx : ¬ other x) :
    Ledger free (fun o : Option A => o.elim (some x) held) other := by
  obtain ⟨h1, h2, h3, h4, h5, h6⟩ := h
  refine ⟨h1, ?_, ?_, fun y hy ho => h4 y hy (.inl ho), ?_, fun y hy ho => ?_⟩
  · rintro (_ | a) (_ | b) y ha hb
    · rfl
    · cases ha
      exact absurd (.inr rfl) (h5 b x hb)
    · cases hb
      exact absurd (.inr rfl) (h5 a x ha)
    · rw [h2 a b y ha hb]
  · rintro y (_ | a) hy ha
    · cases ha
      exact h4 x hy (.inr rfl)
    · exact h3 y a hy ha
  · rintro (_ | a) y ha ho
    · cases ha
      exact hx ho
    · exact h5 a y ha (.inl ho)
  · by_cases hyx : y = x
    · exact ⟨none, by rw [hyx]; rfl⟩
    · obtain ⟨a, ha⟩ := h6 y hy fun hoy => hoy.elim ho hyx
      exact ⟨some a, ha⟩

end Ledger

end FypOs.Lib
