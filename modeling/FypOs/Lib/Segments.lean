import Mathlib.Data.List.Basic

/-!
# Lib — linked lists and tilings

`Leads ptr x l z`: from `x`, the pointers `ptr` lead through the list `l` to `z`.  `Tiles size a T b`: the blocks at the
addresses `T`, with `size` units of `unit` bytes each, cover the addresses from `a` to `b` without gaps.
-/

namespace FypOs.Lib

open List

/-! ### Segments -/

/-- From `x` the pointers lead through `l` to `z`. -/
def Leads (ptr : Nat → Nat) : Nat → List Nat → Nat → Prop
  | x, [], z => ptr x = z
  | x, y :: l, z => ptr x = y ∧ Leads ptr y l z

namespace Leads

variable {ptr ptr' : Nat → Nat} {x y z : Nat} {l m : List Nat}

lemma append : Leads ptr x (l ++ y :: m) z ↔ Leads ptr x l y ∧ Leads ptr y m z := by
  induction l generalizing x with
  | nil => rfl
  | cons w l ih =>
    rw [cons_append, Leads, Leads, ih, and_assoc]

section

variable (h : Leads ptr x l z)

include h

/-- A list is entered from `y` in place of `x`. -/
lemma head (hy : ptr' y = ptr x) (hl : ∀ w ∈ l, ptr' w = ptr w) : Leads ptr' y l z := by
  induction l generalizing x y with
  | nil => exact hy.trans h
  | cons w l ih =>
    obtain ⟨hx, h⟩ := h
    exact ⟨hy.trans hx, ih h (hl w mem_cons_self) fun v hv => hl v (mem_cons_of_mem w hv)⟩

lemma congr (hl : ∀ w ∈ x :: l, ptr' w = ptr w) : Leads ptr' x l z :=
  h.head (hl x mem_cons_self) fun w hw => hl w (mem_cons_of_mem x hw)

lemma suffix {f : Nat} {a b : List Nat} (e : x :: l = a ++ f :: b) : Leads ptr f b z := by
  cases a with
  | nil =>
    obtain ⟨rfl, rfl⟩ := List.cons.inj e
    exact h
  | cons y a =>
    obtain ⟨rfl, rfl⟩ := List.cons.inj e
    exact (append.mp h).2

/-- In an increasing list a pointer leads upwards, or to the end. -/
lemma next (hs : (x :: l).Pairwise (· < ·)) (hy : y ∈ x :: l) : ptr y = z ∨ y < ptr y ∧ ptr y ∈ l := by
  induction l generalizing x with
  | nil =>
    rw [mem_singleton.mp hy]
    exact .inl h
  | cons w l ih =>
    obtain ⟨hx, h⟩ := h
    obtain ⟨hlt, hs⟩ := pairwise_cons.mp hs
    rcases mem_cons.mp hy with rfl | hy
    · exact .inr ⟨hx ▸ hlt w mem_cons_self, hx ▸ mem_cons_self⟩
    · exact (ih h hs hy).imp_right fun hn => ⟨hn.1, mem_cons_of_mem w hn.2⟩

lemma ptr_mem (hy : y ∈ x :: l) : ptr y ∈ l ++ [z] := by
  induction l generalizing x with
  | nil =>
    rw [mem_singleton.mp hy, show ptr x = z from h]
    exact mem_cons_self
  | cons w l ih =>
    obtain ⟨hx, h⟩ := h
    rcases mem_cons.mp hy with rfl | hy
    · rw [hx]
      exact mem_cons_self
    · exact mem_cons_of_mem w (ih h hy)

/-- Different elements lead to different ones. -/
lemma inj {a b : Nat} (hno : (l ++ [z]).Nodup) (ha : a ∈ x :: l) (hb : b ∈ x :: l)
    (e : ptr a = ptr b) : a = b := by
  induction l generalizing x with
  | nil => rw [mem_singleton.mp ha, mem_singleton.mp hb]
  | cons w l ih =>
    obtain ⟨hx, h⟩ := h
    obtain ⟨hw, hno⟩ := nodup_cons.mp hno
    rcases mem_cons.mp ha with ea | ha' <;> rcases mem_cons.mp hb with eb | hb'
    · rw [ea, eb]
    · rw [ea, hx] at e
      exact absurd (e ▸ h.ptr_mem hb') hw
    · rw [eb, hx] at e
      exact absurd (e ▸ h.ptr_mem ha') hw
    · exact ih h hno ha' hb'

end

end Leads

/-- `p` is the last element of `x :: l`, and the pointers lead to it. -/
def Upto (ptr : Nat → Nat) (x : Nat) (l : List Nat) (p : Nat) : Prop :=
  l = [] ∧ p = x ∨ ∃ l', l = l' ++ [p] ∧ Leads ptr x l' p

namespace Upto

variable {ptr ptr' : Nat → Nat} {x p z : Nat} {l m : List Nat}

lemma mem (h : Upto ptr x l p) : p ∈ x :: l := by
  rcases h with ⟨-, rfl⟩ | ⟨l', rfl, -⟩
  · exact mem_cons_self
  · simp

lemma seg (h : Upto ptr x l p) (hm : Leads ptr p m z) : Leads ptr x (l ++ m) z := by
  rcases h with ⟨rfl, rfl⟩ | ⟨l', rfl, h⟩
  · exact hm
  · rw [append_assoc, singleton_append, Leads.append]
    exact ⟨h, hm⟩

lemma of_cons {y : Nat} (h : Upto ptr x (y :: l) p) : ptr x = y ∧ Upto ptr y l p := by
  rcases h with ⟨e, -⟩ | ⟨l', e, h⟩
  · cases e
  · cases l' with
    | nil =>
      obtain ⟨rfl, rfl⟩ := List.cons.inj e
      exact ⟨h, .inl ⟨rfl, rfl⟩⟩
    | cons w l' =>
      obtain ⟨rfl, rfl⟩ := List.cons.inj e
      exact ⟨h.1, .inr ⟨l', rfl, h.2⟩⟩

lemma congr (h : Upto ptr x l p) (hno : (x :: l).Nodup) (hl : ∀ w ∈ x :: l, w ≠ p → ptr' w = ptr w) :
    Upto ptr' x l p := by
  rcases h with ⟨rfl, rfl⟩ | ⟨l', rfl, h⟩
  · exact .inl ⟨rfl, rfl⟩
  · refine .inr ⟨l', rfl, h.congr fun w hw => hl w ?_ ?_⟩
    · rw [← cons_append]
      exact mem_append_left _ hw
    · rintro rfl
      rw [← cons_append] at hno
      exact (nodup_append.mp hno).2.2 w hw w mem_cons_self rfl

end Upto

lemma Leads.upto {ptr : Nat → Nat} {x z : Nat} {l m : List Nat} (h : Leads ptr x (l ++ m) z) :
    ∃ p, Upto ptr x l p ∧ Leads ptr p m z := by
  rcases eq_nil_or_concat l with rfl | ⟨l', p, rfl⟩
  · exact ⟨x, .inl ⟨rfl, rfl⟩, h⟩
  · rw [concat_eq_append, append_assoc, singleton_append, Leads.append] at h
    exact ⟨p, .inr ⟨l', concat_eq_append, h.1⟩, h.2⟩

/-- A circular list, entered at another of its elements. -/
lemma Leads.rotate {ptr : Nat → Nat} {x f : Nat} {l a b : List Nat} (h : Leads ptr x l x) (e : x :: l = a ++ f :: b) :
    Leads ptr f (b ++ a) f := by
  cases a with
  | nil =>
    obtain ⟨rfl, rfl⟩ := List.cons.inj e
    rwa [append_nil]
  | cons y a =>
    obtain ⟨rfl, rfl⟩ := List.cons.inj e
    rw [append_eq, Leads.append] at h
    exact Leads.append.mpr ⟨h.2, h.1⟩

/-! ### Tilings -/

/-- The blocks `T` cover the addresses from `a` to `b`, one after the other. -/
def Tiles (unit : Nat) (size : Nat → Nat) : Nat → List Nat → Nat → Prop
  | a, [], b => a = b
  | a, x :: T, b => x = a ∧ 0 < size x ∧ Tiles unit size (x + unit * size x) T b

namespace Tiles

variable {unit : Nat} {size size' : Nat → Nat} {a b x y : Nat} {T T' : List Nat}

lemma append : Tiles unit size a (T ++ T') b ↔ ∃ m, Tiles unit size a T m ∧ Tiles unit size m T' b := by
  induction T generalizing a with
  | nil => exact ⟨fun h => ⟨a, rfl, h⟩, fun h => by obtain ⟨m, rfl, h⟩ := h; exact h⟩
  | cons x T ih =>
    rw [cons_append, Tiles, ih]
    constructor
    · rintro ⟨rfl, hx, m, h, h'⟩
      exact ⟨m, ⟨rfl, hx, h⟩, h'⟩
    · rintro ⟨m, ⟨rfl, hx, h⟩, h'⟩
      exact ⟨rfl, hx, m, h, h'⟩

section

variable (h : Tiles unit size a T b)

include h

lemma congr (e : ∀ x ∈ T, size' x = size x) : Tiles unit size' a T b := by
  induction T generalizing a with
  | nil => exact h
  | cons x T ih =>
    obtain ⟨rfl, hx, h⟩ := h
    rw [Tiles, e x mem_cons_self]
    exact ⟨rfl, hx, ih h fun y hy => e y (mem_cons_of_mem x hy)⟩

lemma le : a ≤ b := by
  induction T generalizing a with
  | nil => exact Nat.le_of_eq h
  | cons x T ih =>
    obtain ⟨rfl, -, h⟩ := h
    exact Nat.le_trans (Nat.le_add_right _ _) (ih h)

lemma mem (hx : x ∈ T) : a ≤ x ∧ x + unit * size x ≤ b ∧ 0 < size x := by
  obtain ⟨T1, T2, rfl⟩ := append_of_mem hx
  obtain ⟨m, h1, rfl, hpos, h2⟩ := append.mp h
  exact ⟨h1.le, h2.le, hpos⟩

end

lemma apart (h : Tiles unit size a (T ++ T') b) (hx : x ∈ T) (hy : y ∈ T') : x + unit * size x ≤ y := by
  obtain ⟨m, h1, h2⟩ := append.mp h
  exact Nat.le_trans (h1.mem hx).2.1 (h2.mem hy).1

lemma sorted (h : Tiles unit size a T b) : T.Pairwise (fun x y => x + unit * size x ≤ y) := by
  induction T generalizing a with
  | nil => exact List.Pairwise.nil
  | cons x T ih =>
    refine pairwise_cons.mpr ⟨fun y hy => ?_, ?_⟩
    · exact apart (T := [x]) h mem_cons_self hy
    · obtain ⟨-, -, h⟩ := h
      exact ih h

lemma lt_of_unit (hu : 0 < unit) (hx : 0 < size x) : x < x + unit * size x :=
  Nat.lt_add_of_pos_right (Nat.mul_pos hu hx)

lemma nodup (hu : 0 < unit) (h : Tiles unit size a T b) : T.Nodup := by
  induction T generalizing a with
  | nil => exact nodup_nil
  | cons x T ih =>
    have hT := h
    obtain ⟨-, hx, hT⟩ := hT
    refine nodup_cons.mpr ⟨fun hm => ?_, ih hT⟩
    have := apart (T := [x]) h mem_cons_self hm
    exact absurd this (Nat.not_le.mpr (lt_of_unit hu hx))

/-- **Each address is in one block.** -/
lemma cover (h : Tiles unit size a T b) (hy : a ≤ y ∧ y < b) : ∃! x, x ∈ T ∧ x ≤ y ∧ y < x + unit * size x := by
  induction T generalizing a with
  | nil =>
    cases h
    omega
  | cons x T ih =>
    have hT := h
    obtain ⟨rfl, hx, hT⟩ := hT
    by_cases hlt : y < x + unit * size x
    · refine ⟨x, ⟨mem_cons_self, hy.1, hlt⟩, fun w hw => ?_⟩
      obtain ⟨hm, hw1, -⟩ := hw
      rcases mem_cons.mp hm with rfl | hm
      · rfl
      · have := (hT.mem hm).1
        omega
    · obtain ⟨w, ⟨hm, hw1, hw2⟩, huniq⟩ := ih hT ⟨by omega, hy.2⟩
      refine ⟨w, ⟨mem_cons_of_mem x hm, hw1, hw2⟩, fun v hv => ?_⟩
      obtain ⟨hv, hv1, hv2⟩ := hv
      rcases mem_cons.mp hv with rfl | hv
      · omega
      · exact huniq v ⟨hv, hv1, hv2⟩

end Tiles

end FypOs.Lib
