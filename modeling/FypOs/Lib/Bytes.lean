import Mathlib.Data.Nat.Bitwise
import Mathlib.Tactic.Ring

/-!
# Lib — little-endian numbers in byte arrays

`getLE w off b` is the number stored in the `w` bytes of `b` from `off` on, least significant byte
first; `putLE w off v b` stores one.

`bitAt`, `setBit` and `clearBit` use the same bytes as an array of bits, through masks;
`overlay b o src m` has the first `m` bytes of `src` in place of those from `o` on.
-/

namespace FypOs.Lib

open List

/-- The number in the `w` bytes from `off` on. -/
def getLE : Nat → Nat → (Nat → UInt8) → Nat
  | 0, _, _ => 0
  | w + 1, off, b => (b off).toNat + 256 * getLE w (off + 1) b

/-- Store `v` in the `w` bytes from `off` on. -/
def putLE (w off v : Nat) (b : Nat → UInt8) : Nat → UInt8 :=
  fun j => if off ≤ j ∧ j < off + w then UInt8.ofNat (v / 256 ^ (j - off)) else b j

variable {w off v : Nat} {b b' : Nat → UInt8}

lemma getLE_congr (h : ∀ j, off ≤ j → j < off + w → b j = b' j) : getLE w off b = getLE w off b' := by
  induction w generalizing off with
  | zero => rfl
  | succ w ih =>
    simp only [getLE]
    rw [h off le_rfl (by omega), ih fun j h1 h2 => h j (by omega) (by omega)]

/-- A stored number is read back, modulo what fits. -/
lemma getLE_putLE (w off v : Nat) (b : Nat → UInt8) : getLE w off (putLE w off v b) = v % 256 ^ w := by
  induction w generalizing off v b with
  | zero => simp [getLE, Nat.mod_one]
  | succ w ih =>
    have hrest : getLE w (off + 1) (putLE (w + 1) off v b) =
        getLE w (off + 1) (putLE w (off + 1) (v / 256) b) := by
      refine getLE_congr fun j h1 h2 => ?_
      have hexp : j - off = (j - (off + 1)) + 1 := by omega
      simp only [putLE, h1, h2, and_self, if_true, show off ≤ j by omega,
        show j < off + (w + 1) by omega]
      rw [hexp, Nat.pow_succ, Nat.mul_comm, ← Nat.div_div_eq_div_mul]
    have hlow : (putLE (w + 1) off v b off).toNat = v % 256 := by
      simp [putLE, UInt8.toNat_ofNat']
    rw [getLE, hrest, ih, hlow, Nat.pow_succ, Nat.mul_comm (256 ^ w), Nat.mod_mul]

lemma getLE_putLE_of_disjoint {w' off' : Nat} (h : off + w ≤ off' ∨ off' + w' ≤ off) :
    getLE w off (putLE w' off' v b) = getLE w off b :=
  getLE_congr fun j h1 h2 => if_neg (by omega)

/-- Bytes that spell a number out are read as that number. -/
lemma getLE_of_bytes (h : ∀ j, j < w → b (off + j) = UInt8.ofNat (v / 256 ^ j)) :
    getLE w off b = v % 256 ^ w := by
  rw [← getLE_putLE w off v b]
  refine getLE_congr fun j h1 h2 => ?_
  rw [putLE, if_pos ⟨h1, h2⟩, ← h _ (by omega), Nat.add_sub_cancel' h1]

lemma getLE_putLE_self (h : v < 256 ^ w) : getLE w off (putLE w off v b) = v := by
  rw [getLE_putLE, Nat.mod_eq_of_lt h]

/-! ### Arrays of 32-bit words -/

/-- The 32-bit word with index `i` of a block. -/
def word (b : Nat → UInt8) (i : Nat) : Nat := getLE 4 (4 * i) b

def setWord (b : Nat → UInt8) (i v : Nat) : Nat → UInt8 := putLE 4 (4 * i) v b

lemma word_setWord_self {b : Nat → UInt8} {i v : Nat} (h : v < 2 ^ 32) : word (setWord b i v) i = v :=
  getLE_putLE_self h

lemma word_setWord_of_ne {b : Nat → UInt8} {i j v : Nat} (h : i ≠ j) : word (setWord b j v) i = word b i :=
  getLE_putLE_of_disjoint (by omega)

lemma word_zero (i : Nat) : word (fun _ => 0) i = 0 := rfl

/-! ### Arrays of bits -/

/-- The mask of bit `i` in its byte. -/
def mask (i : Nat) : UInt8 := 1 <<< UInt8.ofNat (i % 8)

def bitAt (b : Nat → UInt8) (i : Nat) : Bool := b (i / 8) &&& mask i != 0

def setBit (b : Nat → UInt8) (i : Nat) : Nat → UInt8 :=
  Function.update b (i / 8) (b (i / 8) ||| mask i)

def clearBit (b : Nat → UInt8) (i : Nat) : Nat → UInt8 :=
  Function.update b (i / 8) (b (i / 8) &&& ~~~ mask i)

lemma toNat_mask (i : Nat) : (mask i).toNat = 2 ^ (i % 8) := by
  have h : ∀ k, k < 8 → ((1 : UInt8) <<< UInt8.ofNat k).toNat = 2 ^ k := by decide
  exact h _ (Nat.mod_lt _ (by decide))

lemma bitAt_eq (b : Nat → UInt8) (i : Nat) : bitAt b i = (b (i / 8)).toNat.testBit (i % 8) := by
  rw [bitAt, Bool.eq_iff_iff, bne_iff_ne, ne_eq, ← UInt8.toNat_inj, UInt8.toNat_and, toNat_mask, Nat.and_two_pow]
  cases (b (i / 8)).toNat.testBit (i % 8) <;> simp

lemma testBit_compl_mask {i k : Nat} (hk : k < 8) : (~~~ mask i).toNat.testBit k = decide (k ≠ i % 8) := by
  have h : ∀ k, k < 8 → ∀ j, j < 8 → (255 - 2 ^ j : Nat).testBit k = decide (k ≠ j) := by decide
  have hm : (~~~ mask i).toNat = 255 - 2 ^ (i % 8) := by rw [UInt8.toNat_not, toNat_mask]; rfl
  rw [hm]
  exact h _ hk _ (Nat.mod_lt _ (by decide))

lemma bitAt_setBit (b : Nat → UInt8) (i j : Nat) :
    bitAt (setBit b i) j = if j = i then true else bitAt b j := by
  simp only [bitAt_eq, setBit, Function.update_apply]
  by_cases hb : j / 8 = i / 8
  · rw [if_pos hb, UInt8.toNat_or, Nat.testBit_or, toNat_mask, Nat.testBit_two_pow, hb]
    by_cases hj : j = i
    · simp [hj]
    · rw [if_neg hj, decide_eq_false (by omega), Bool.or_false]
  · rw [if_neg hb, if_neg (fun e => hb (by rw [e]))]

lemma bitAt_clearBit (b : Nat → UInt8) (i j : Nat) :
    bitAt (clearBit b i) j = if j = i then false else bitAt b j := by
  simp only [bitAt_eq, clearBit, Function.update_apply]
  by_cases hb : j / 8 = i / 8
  · rw [if_pos hb, UInt8.toNat_and, Nat.testBit_and, testBit_compl_mask (Nat.mod_lt _ (by decide)), hb]
    by_cases hj : j = i
    · simp [hj]
    · rw [if_neg hj, decide_eq_true (by omega), Bool.and_true]
  · rw [if_neg hb, if_neg (fun e => hb (by rw [e]))]

/-! ### Copying -/

/-- `b` with `m` bytes of `src` in place of those from `o` on. -/
def overlay (b : Nat → UInt8) (o : Nat) (src : Nat → UInt8) (m : Nat) : Nat → UInt8 :=
  fun j => if o ≤ j ∧ j < o + m then src (j - o) else b j

/-- `old` with `new` in place of what stands from `off` on. -/
def splice {α : Type} (old : List α) (off : Nat) (new : List α) : List α :=
  old.take off ++ new ++ old.drop (off + new.length)

section

variable {α : Type} {old a b : List α} {off : Nat}

lemma splice_nil : splice old off [] = old := by simp [splice]

/-- Behind the last element, a list is appended. -/
lemma splice_length : splice old old.length a = old ++ a := by simp [splice]

lemma length_splice (h : off ≤ old.length) : (splice old off a).length = max old.length (off + a.length) := by
  simp only [splice, length_append, length_take, length_drop]
  omega

lemma getElem?_splice_one (h : off ≤ old.length) (x : α) (j : Nat) :
    (splice old off [x])[j]? = if j = off then some x else old[j]? := by
  have hlen : (old.take off).length = off := by rw [length_take, Nat.min_eq_left h]
  rcases Nat.lt_trichotomy j off with hlt | rfl | hgt
  · rw [if_neg (by omega), splice, append_assoc, getElem?_append_left (by omega), getElem?_take_of_lt hlt]
  · rw [if_pos rfl, splice, append_assoc, getElem?_append_right (by omega), hlen, Nat.sub_self]
    rfl
  · rw [if_neg (by omega), splice, getElem?_append_right (by simp [hlen]; omega), getElem?_drop]
    congr 1
    simp only [length_append, hlen, length_singleton]
    omega

lemma splice_splice (h : off ≤ old.length) :
    splice (splice old off a) (off + a.length) b = splice old off (a ++ b) := by
  have hlen : (old.take off ++ a).length = off + a.length := by
    rw [length_append, length_take, Nat.min_eq_left h]
  have htake : (splice old off a).take (off + a.length) = old.take off ++ a := by
    rw [splice, ← hlen, take_left']
    rfl
  have hdrop (k : Nat) : (splice old off a).drop (off + a.length + k) = old.drop (off + a.length + k) := by
    rw [splice, drop_append, hlen, drop_drop, drop_of_length_le (by omega), nil_append, Nat.add_sub_cancel_left]
  rw [splice, htake, hdrop, splice, length_append, append_assoc _ a b, Nat.add_assoc]

end

/-! ### Counting -/

lemma countP_le_one {α : Type} {p : α → Bool} {l : List α}
    (h : ∀ (i j : Nat) (a b : α), l[i]? = some a → p a = true → l[j]? = some b → p b = true → i = j) :
    l.countP p ≤ 1 := by
  induction l with
  | nil => exact Nat.zero_le 1
  | cons a l ih =>
    rw [countP_cons]
    split
    · rename_i ha
      -- no other entry counts
      have hrest : l.countP p = 0 := by
        refine countP_eq_zero.mpr fun b hb hp => ?_
        obtain ⟨j, hj⟩ := mem_iff_getElem?.mp hb
        exact absurd (h 0 (j + 1) a b rfl ha hj hp) (Nat.succ_ne_zero j).symm
      omega
    · refine ih fun i j a b hi ha hj hb => Nat.succ_injective ?_
      exact h (i + 1) (j + 1) a b hi ha hj hb

/-- One element is replaced, or added at the end. -/
lemma countP_splice {α : Type} {p : α → Bool} {l : List α} {k : Nat} {a : α} (hk : k ≤ l.length) :
    (splice l k [a]).countP p + (l[k]?.elim 0 fun b => if p b then 1 else 0) =
      l.countP p + if p a then 1 else 0 := by
  have hsplit := congrArg (List.countP p) (take_append_drop k l)
  rw [countP_append] at hsplit
  rw [splice, countP_append, countP_append, countP_singleton, length_singleton, ← hsplit]
  rcases Nat.lt_or_eq_of_le hk with hlt | rfl
  · rw [List.getElem?_eq_getElem hlt, drop_eq_getElem_cons hlt, countP_cons, Option.elim_some]
    omega
  · rw [List.getElem?_eq_none le_rfl, drop_eq_nil_of_le (Nat.le_succ _), drop_length, Option.elim_none]
    omega

end FypOs.Lib
