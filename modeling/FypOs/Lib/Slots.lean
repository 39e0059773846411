import Mathlib.Order.Interval.Finset.Nat
import Mathlib.Data.Nat.ModEq

/-!
# Lib — rings of distinct entries

A ring of `size` slots and two 16-bit counters that run freely, one for the entries that have been taken out and one
for those that have been put in.  The ring holds a set of different numbers below `size`, each in one slot between
the counters.
-/

namespace FypOs.Lib
open Finset UInt16 Function

/-- The slots between the counters `lo` and `hi` hold the numbers of `H`, each once. -/
structure Holds (size : Nat) (ring : Nat → Nat) (lo hi : UInt16) (H : Nat → Prop) (a b : Nat) : Prop where
  /-- The counters, had they not wrapped around. -/
  lo_eq : lo = ofNat a
  hi_eq : hi = ofNat b
  le : a ≤ b
  mem : ∀ k, a ≤ k → k < b → H (ring (k % size))
  inj : ∀ k l, a ≤ k → k < b → a ≤ l → l < b → ring (k % size) = ring (l % size) → k = l
  all : ∀ h, H h → ∃ k, a ≤ k ∧ k < b ∧ ring (k % size) = h

namespace Holds

variable {size : Nat} {ring : Nat → Nat} {lo hi : UInt16} {H H' : Nat → Prop} {a b x : Nat}

lemma empty (size : Nat) (ring : Nat → Nat) (c : UInt16) : Holds size ring c c (fun _ => False) c.toNat c.toNat :=
  ⟨by simp, by simp, le_rfl, fun k _ _ => by omega, fun k _ _ _ _ _ => by omega, fun _ h => h.elim⟩

section

variable (h : Holds size ring lo hi H a b)

include h

lemma congr (e : ∀ x, H' x ↔ H x) : Holds size ring lo hi H' a b where
  lo_eq := h.lo_eq
  hi_eq := h.hi_eq
  le := h.le
  mem k h1 h2 := (e _).mpr (h.mem k h1 h2)
  inj := h.inj
  all x hx := h.all x ((e x).mp hx)

/-- There are no more entries than numbers they can be. -/
lemma length_le (s : Finset Nat) (hs : ∀ x, H x → x ∈ s) : b - a ≤ s.card := by
  have hmaps : ∀ k ∈ Finset.Ico a b, ring (k % size) ∈ s := fun k hk =>
    hs _ (h.mem k (mem_Ico.mp hk).1 (mem_Ico.mp hk).2)
  have hinj : Set.InjOn (fun k => ring (k % size)) (Finset.Ico a b) := fun k hk l hl e =>
    h.inj k l (mem_Ico.mp hk).1 (mem_Ico.mp hk).2 (mem_Ico.mp hl).1 (mem_Ico.mp hl).2 e
  have := card_le_card_of_injOn _ hmaps hinj
  rwa [Nat.card_Ico] at this

lemma length_le_size (hH : ∀ x, H x → x < size) : b - a ≤ size := by
  have := h.length_le (range size) fun x hx => mem_range.mpr (hH x hx)
  rwa [card_range] at this

lemma length_lt_size (hH : ∀ x, H x → x < size) (hx : x < size) (hno : ¬ H x) : b - a < size := by
  have := h.length_le ((range size).erase x) fun y hy =>
    mem_erase.mpr ⟨fun e => hno (e ▸ hy), mem_range.mpr (hH y hy)⟩
  rw [card_erase_of_mem (mem_range.mpr hx), card_range] at this
  omega

lemma slot_lo (hdvd : size ∣ 2 ^ 16) : lo.toNat % size = a % size := by
  rw [h.lo_eq, toNat_ofNat']
  exact Nat.mod_mod_of_dvd a hdvd

lemma slot_hi (hdvd : size ∣ 2 ^ 16) : hi.toNat % size = b % size := by
  rw [h.hi_eq, toNat_ofNat']
  exact Nat.mod_mod_of_dvd b hdvd

/-- The counters are equal if and only if the ring is empty. -/
lemma eq_iff (hlt : b - a < 2 ^ 16) : lo = hi ↔ a = b := by
  refine ⟨fun e => ?_, fun e => by rw [h.lo_eq, h.hi_eq, e]⟩
  have e' := congrArg toNat e
  rw [h.lo_eq, h.hi_eq, toNat_ofNat', toNat_ofNat'] at e'
  have := h.le
  omega

end

/-- Two positions less than a turn apart are different slots. -/
lemma slot_ne {k l : Nat} (hkl : k < l) (hlt : l - k < size) : k % size ≠ l % size := by
  intro e
  have hdvd : size ∣ l - k := (Nat.modEq_iff_dvd' (Nat.le_of_lt hkl)).mp e
  have := Nat.le_of_dvd (by omega) hdvd
  omega

section

variable (h : Holds size ring lo hi H a b)

include h

/-- The slot for the next entry is none that is in use. -/
lemma slot_free (hdvd : size ∣ 2 ^ 16) (hlen : b - a < size) {k : Nat}
    (hk : k < (hi - lo).toNat) : (lo + ofNat k).toNat % size ≠ hi.toNat % size := by
  have hsize := Nat.le_of_dvd (by decide) hdvd
  have hle := h.le
  have hgap : (hi - lo).toNat = b - a := by
    rw [h.lo_eq, h.hi_eq, UInt16.toNat_sub, UInt16.toNat_ofNat', UInt16.toNat_ofNat']
    omega
  have hslot : (lo + ofNat k).toNat % size = (a + k) % size := by
    rw [h.lo_eq, ← ofNat_add, toNat_ofNat']
    exact Nat.mod_mod_of_dvd (a + k) hdvd
  rw [hslot, h.slot_hi hdvd]
  exact slot_ne (by omega) (by omega)

/-- **Putting a number in**, in a slot that is not in use. -/
lemma push (hdvd : size ∣ 2 ^ 16) (hH : ∀ y, H y → y < size) (hx : x < size) (hno : ¬ H x) :
    Holds size (update ring (hi.toNat % size) x) lo (hi + 1) (fun y => H y ∨ y = x) a (b + 1) := by
  have hlen := h.length_lt_size hH hx hno
  have hle := h.le
  have hold (k : Nat) (h1 : a ≤ k) (h2 : k < b) :
      update ring (hi.toNat % size) x (k % size) = ring (k % size) := by
    rw [h.slot_hi hdvd]
    exact update_of_ne (slot_ne h2 (by omega)) ..
  have hnew : update ring (hi.toNat % size) x (b % size) = x := by
    rw [h.slot_hi hdvd, update_self]
  refine ⟨h.lo_eq, by rw [h.hi_eq]; simp, by omega, fun k h1 h2 => ?_, fun k l hk1 hk2 hl1 hl2 e => ?_,
    fun y hy => ?_⟩
  · by_cases hk : k < b
    · rw [hold k h1 hk]
      exact .inl (h.mem k h1 hk)
    · obtain rfl : k = b := by omega
      exact .inr hnew
  · by_cases hk : k < b
    · by_cases hl : l < b
      · rw [hold k hk1 hk, hold l hl1 hl] at e
        exact h.inj k l hk1 hk hl1 hl e
      · obtain rfl : l = b := by omega
        rw [hold k hk1 hk, hnew] at e
        exact absurd (e ▸ h.mem k hk1 hk) hno
    · obtain rfl : k = b := by omega
      by_cases hl : l < k
      · rw [hold l hl1 hl, hnew] at e
        exact absurd (e ▸ h.mem l hl1 hl) hno
      · omega
  · rcases hy with hy | rfl
    · obtain ⟨k, h1, h2, e⟩ := h.all y hy
      exact ⟨k, h1, by omega, by rw [hold k h1 h2, e]⟩
    · exact ⟨b, hle, by omega, hnew⟩

/-- **Taking the first entry out.** -/
lemma pop (hdvd : size ∣ 2 ^ 16) (hlt : a < b) : H (ring (lo.toNat % size)) ∧
      Holds size ring (lo + 1) hi (fun y => H y ∧ y ≠ ring (lo.toNat % size)) (a + 1) b := by
  rw [h.slot_lo hdvd]
  refine ⟨h.mem a (Nat.le_refl a) hlt, by rw [h.lo_eq]; simp, h.hi_eq, hlt, fun k h1 h2 => ?_,
    fun k l hk1 hk2 hl1 hl2 e => h.inj k l (by omega) hk2 (by omega) hl2 e, fun y hy => ?_⟩
  · refine ⟨h.mem k (by omega) h2, fun e => ?_⟩
    have := h.inj k a (by omega) h2 (Nat.le_refl a) hlt e
    omega
  · obtain ⟨k, h1, h2, e⟩ := h.all y hy.1
    refine ⟨k, ?_, h2, e⟩
    by_contra hk
    obtain rfl : k = a := by omega
    exact hy.2 e.symm

end

end Holds

end FypOs.Lib
