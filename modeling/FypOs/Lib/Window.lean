import Mathlib.Data.List.Basic
import Mathlib.Data.Nat.ModEq

/-!
# Lib — ring buffers with running counters

The bytes in a ring buffer stand between two counters that are only ever advanced, and wrap at `2 ^ 32`;
byte `i` is in slot `i % size`.  The size divides `2 ^ 32`, so that a wrap goes unnoticed.
-/

namespace FypOs.Lib

open List UInt32

variable {α : Type} {size len : Nat} {a b : UInt32}

/-- How far `b` is ahead of `a`. -/
def gap (a b : UInt32) : Nat := (b - a).toNat

lemma add_gap (a b : UInt32) : a + UInt32.ofNat (gap a b) = b := by
  rw [gap, UInt32.ofNat_toNat, UInt32.add_comm, UInt32.sub_add_cancel]

lemma gap_self (a : UInt32) : gap a a = 0 := by
  rw [gap, UInt32.sub_self]
  rfl

lemma gap_eq_zero : gap a b = 0 ↔ a = b := by
  constructor
  · intro h
    have hb := add_gap a b
    rw [h] at hb
    exact (UInt32.add_zero a).symm.trans hb
  · rintro rfl
    exact gap_self a

lemma gap_lt (a b : UInt32) : gap a b < 2 ^ 32 := UInt32.toNat_lt _

lemma gap_succ (h : gap a b < 2 ^ 32 - 1) : gap a (b + 1) = gap a b + 1 := by
  have e : b + 1 - a = b - a + 1 := by grind
  rw [gap, e, UInt32.toNat_add]
  exact Nat.mod_eq_of_lt (by rw [gap] at h; change (b - a).toNat + 1 < 2 ^ 32; omega)

lemma gap_succ_left (h : a ≠ b) : gap (a + 1) b + 1 = gap a b := by
  have e : b - a = b - (a + 1) + 1 := by grind
  have hne : gap (a + 1) b ≠ 2 ^ 32 - 1 := by
    intro hm
    refine h (gap_eq_zero.mp ?_)
    rw [gap, e, UInt32.toNat_add]
    rw [gap] at hm
    rw [hm]
    rfl
  have hlt := gap_lt (a + 1) b
  rw [gap, gap, e, UInt32.toNat_add]
  rw [gap] at hne hlt
  exact (Nat.mod_eq_of_lt (by omega)).symm

/-- The slot of byte `i`. -/
def slotOf (size : Nat) (i : UInt32) : Nat := i.toNat % size

lemma slotOf_add (hs : size ∣ 2 ^ 32) (i : Nat) : slotOf size (a + UInt32.ofNat i) = (a.toNat + i) % size := by
  rw [slotOf, UInt32.toNat_add, UInt32.toNat_ofNat', Nat.mod_mod_of_dvd _ hs]
  exact Nat.ModEq.add_left _ (Nat.mod_mod_of_dvd i hs)

/-- The `len` elements from counter `a` on. -/
def window (buf : Nat → α) (size : Nat) (a : UInt32) (len : Nat) : List α :=
  (List.range len).map fun i => buf (slotOf size (a + ofNat i))

section

variable {buf : Nat → α}

lemma length_window : (window buf size a len).length = len := by
  rw [window, length_map, length_range]

lemma window_zero : window buf size a 0 = [] := rfl

lemma window_succ :
    window buf size a (len + 1) = window buf size a len ++ [buf (slotOf size (a + ofNat len))] := by
  rw [window, range_succ, map_append, map_singleton]
  rfl

lemma window_append (a : UInt32) (len len' : Nat) : window buf size a (len + len') =
    window buf size a len ++ window buf size (a + ofNat len) len' := by
  rw [window, range_add, map_append, map_map, window, window]
  congr 1
  refine map_congr_left fun i _ => ?_
  rw [Function.comp_apply, UInt32.ofNat_add, UInt32.add_assoc]

lemma window_pop : window buf size a (len + 1) = buf (slotOf size a) :: window buf size (a + 1) len := by
  rw [Nat.add_comm, window_append, window_succ, window_zero]
  exact congrArg (fun i => buf (slotOf size i) :: window buf size (a + 1) len) (UInt32.add_zero a)

/-- **Storing** behind the last element, while there is room. -/
lemma window_push (buf : Nat → α) (a : UInt32) (hs : size ∣ 2 ^ 32) (hlen : len < size) (x : α) :
    window (Function.update buf (slotOf size (a + ofNat len)) x) size a (len + 1) =
      window buf size a len ++ [x] := by
  rw [window_succ, Function.update_self]
  congr 1
  refine map_congr_left fun i hi => Function.update_of_ne ?_ ..
  have hi := mem_range.mp hi
  rw [slotOf_add hs, slotOf_add hs]
  intro he
  -- two slots less than a round apart are different
  have hdvd := (Nat.modEq_iff_dvd' (by omega)).mp (show a.toNat + i ≡ a.toNat + len [MOD size] from he)
  exact absurd (Nat.le_of_dvd (by omega) hdvd) (by omega)

end

end FypOs.Lib
