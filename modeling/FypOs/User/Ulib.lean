import Mathlib.Data.Nat.Digits.Lemmas

/-!
# User — moving bytes and printing numbers

`memmove` and `printint` exist twice, in the kernel (`kernel/string.c`, `kernel/printf.c`) and for user programs
(`user/ulib.c`, `user/printf.c`).

* `memmoves_agree`: both versions move a range, whatever its overlap with the place where it goes.
* `printint_exact`: what is printed, and that `atoi` reads it back.
-/

namespace FypOs.User

open Function UInt64

/-! ### Moving bytes -/

/-- The bytes in memory, by their addresses. -/
abbrev Memory := UInt64 → UInt8

/-- `while(n-- > 0) *d++ = *s++`. -/
def copyUp (m : Memory) (d s : UInt64) : Nat → Memory
  | 0 => m
  | n + 1 => copyUp (update m d (m s)) (d + 1) (s + 1) n

/-- `while(n-- > 0) *--d = *--s`. -/
def copyDown (m : Memory) (d s : UInt64) : Nat → Memory
  | 0 => m
  | n + 1 => copyDown (update m (d - 1) (m (s - 1))) (d - 1) (s - 1) n

/-- `memmove` of `kernel/string.c`: the pointer returned, and the memory. -/
def kernelMemmove (dst src : UInt64) (n : UInt32) (m : Memory) : UInt64 × Memory :=
  if n = 0 then (dst, m)
  else if src < dst ∧ src + n.toUInt64 > dst then
    (dst, copyDown m (dst + n.toUInt64) (src + n.toUInt64) n.toNat)
  else (dst, copyUp m dst src n.toNat)

/-- `memmove` of `user/ulib.c`; a pointer takes an `int` with its sign. -/
def userMemmove (dst src : UInt64) (n : Int32) (m : Memory) : UInt64 × Memory :=
  if src > dst then (dst, copyUp m dst src n.toInt.toNat)
  else (dst, copyDown m (dst + ofInt n.toInt) (src + ofInt n.toInt) n.toInt.toNat)

/-- The `n` bytes from `d` on are those that were at `s` before, and all others are as before. -/
structure Moved (m : Memory) (d s : UInt64) (n : Nat) (m' : Memory) : Prop where
  moved : ∀ i < n, m' (d + ofNat i) = m (s + ofNat i)
  same : ∀ a, (∀ i < n, a ≠ d + ofNat i) → m' a = m a

section

variable {m m' m'' : Memory} {d s dst src : UInt64} {n : Nat}

lemma Moved.unique (h : Moved m d s n m') (h' : Moved m d s n m'') : m' = m'' := by
  funext a
  by_cases ha : ∃ i < n, a = d + ofNat i
  · obtain ⟨i, hi, rfl⟩ := ha
    rw [h.moved i hi, h'.moved i hi]
  · have hout : ∀ i < n, a ≠ d + ofNat i := fun i hi e => ha ⟨i, hi, e⟩
    rw [h.same a hout, h'.same a hout]

lemma add_ofNat_zero (a : UInt64) : a + UInt64.ofNat 0 = a := UInt64.add_zero a

lemma add_ofNat_succ (a : UInt64) (i : Nat) : a + ofNat (i + 1) = a + 1 + ofNat i := by
  rw [Nat.add_comm, UInt64.ofNat_add, UInt64.add_assoc]
  rfl

lemma ofNat_inj {i j : Nat} (hi : i < 2 ^ 64) (hj : j < 2 ^ 64) (h : d + ofNat i = d + ofNat j) : i = j := by
  have e := congrArg UInt64.toNat ((UInt64.add_right_inj d).mp h)
  rwa [UInt64.toNat_ofNat_of_lt' hi, UInt64.toNat_ofNat_of_lt' hj] at e

/-- Upwards, if no byte is read after it has been written. -/
lemma copyUp_moved (hn : n ≤ 2 ^ 64) (hclear : ∀ i j, i < j → j < n → s + ofNat j ≠ d + ofNat i) :
    Moved m d s n (copyUp m d s n) := by
  induction n generalizing m d s with
  | zero => exact ⟨fun i hi => absurd hi (Nat.not_lt_zero i), fun _ _ => rfl⟩
  | succ n ih =>
    have hrest := ih (m := update m d (m s)) (d := d + 1) (s := s + 1) (by omega) fun i j hij hj => by
      rw [← add_ofNat_succ, ← add_ofNat_succ]
      exact hclear _ _ (by omega) (by omega)
    refine ⟨fun i hi => ?_, fun a ha => ?_⟩
    · cases i with
      | zero =>
        rw [add_ofNat_zero, add_ofNat_zero, copyUp, hrest.same d, update_self]
        intro i hi' e
        rw [← add_ofNat_succ] at e
        have := ofNat_inj (i := 0) (by omega) (by omega) ((add_ofNat_zero d).trans e)
        omega
      | succ i =>
        have hne := hclear 0 (i + 1) (by omega) hi
        rw [add_ofNat_zero, add_ofNat_succ] at hne
        rw [add_ofNat_succ, add_ofNat_succ, copyUp, hrest.moved i (by omega), update_of_ne hne]
    · have hne : a ≠ d := fun e => ha 0 (by omega) (by rw [e, add_ofNat_zero])
      rw [copyUp, hrest.same a fun i hi => add_ofNat_succ d i ▸ ha (i + 1) (by omega), update_of_ne hne]

lemma add_ofNat_pred (a : UInt64) (n : Nat) : a + ofNat (n + 1) - 1 = a + ofNat n := by
  rw [UInt64.ofNat_add, ← UInt64.add_assoc]
  exact UInt64.add_sub_cancel ..

lemma copyDown_moved (hn : n ≤ 2 ^ 64) (hclear : ∀ i j, i < j → j < n → s + ofNat i ≠ d + ofNat j) :
    Moved m d s n (copyDown m (d + ofNat n) (s + ofNat n) n) := by
  induction n generalizing m with
  | zero => exact ⟨fun i hi => absurd hi (Nat.not_lt_zero i), fun _ _ => rfl⟩
  | succ n ih =>
    rw [copyDown, add_ofNat_pred, add_ofNat_pred]
    have hrest := ih (m := update m (d + ofNat n) (m (s + ofNat n))) (by omega)
      fun i j hij hj => hclear i j hij (by omega)
    refine ⟨fun i hi => ?_, fun a ha => ?_⟩
    · rcases Nat.lt_succ_iff_lt_or_eq.mp hi with hi | rfl
      · rw [hrest.moved i hi, update_of_ne (hclear i n hi (by omega))]
      · rw [hrest.same, update_self]
        intro j hj e
        have := ofNat_inj (by omega) (by omega) e
        omega
    · rw [hrest.same a fun i hi => ha i (by omega), update_of_ne (ha n (by omega))]

lemma toNat_add_ofNat {i : Nat} (h : d.toNat + i < 2 ^ 64) : (d + UInt64.ofNat i).toNat = d.toNat + i := by
  rw [UInt64.toNat_add, UInt64.toNat_ofNat_of_lt' (show i < 2 ^ 64 by omega), Nat.mod_eq_of_lt h]

lemma toUInt64_ofNat (hn : n < 2 ^ 32) : (UInt32.ofNat n).toUInt64 = ofNat n := by
  refine UInt64.toNat_inj.mp ?_
  rw [UInt32.toNat_toUInt64, UInt32.toNat_ofNat_of_lt' hn, UInt64.toNat_ofNat_of_lt' (show n < 2 ^ 64 by omega)]

lemma kernelMemmove_moved (hd : dst.toNat + n ≤ 2 ^ 64) (hs : src.toNat + n ≤ 2 ^ 64) (hn : n < 2 ^ 32) :
    (kernelMemmove dst src (UInt32.ofNat n) m).1 = dst ∧
      Moved m dst src n (kernelMemmove dst src (UInt32.ofNat n) m).2 := by
  rw [kernelMemmove, toUInt64_ofNat hn, UInt32.toNat_ofNat_of_lt' hn]
  by_cases h0 : UInt32.ofNat n = 0
  · rw [if_pos h0]
    obtain rfl : n = 0 := by
      have := congrArg UInt32.toNat h0
      rwa [UInt32.toNat_ofNat_of_lt' hn] at this
    exact ⟨rfl, fun i hi => absurd hi (Nat.not_lt_zero i), fun _ _ => rfl⟩
  · rw [if_neg h0]
    split_ifs with hlt
    · have hlt := lt_iff_toNat_lt.mp hlt.1
      refine ⟨rfl, copyDown_moved (by omega) fun i j hij hj e => ?_⟩
      have := congrArg toNat e
      rw [toNat_add_ofNat (by omega), toNat_add_ofNat (by omega)] at this
      omega
    · refine ⟨rfl, copyUp_moved (by omega) fun i j hij hj e => hlt ?_⟩
      have e := congrArg toNat e
      rw [toNat_add_ofNat (by omega), toNat_add_ofNat (by omega)] at e
      refine ⟨lt_iff_toNat_lt.mpr (by omega), lt_iff_toNat_lt.mpr ?_⟩
      rw [toNat_add_ofNat (by omega)]
      omega

lemma userMemmove_moved (hd : dst.toNat + n ≤ 2 ^ 64) (hs : src.toNat + n ≤ 2 ^ 64) (hn : n < 2 ^ 31) :
    (userMemmove dst src (Int32.ofNat n) m).1 = dst ∧ Moved m dst src n (userMemmove dst src (Int32.ofNat n) m).2 := by
  have hcast : ((n : Int) % 2 ^ 64).toNat = n := by omega
  rw [userMemmove, Int32.toInt_ofNat_of_lt hn, Int.toNat_natCast, ofInt, hcast]
  split_ifs with hlt
  · have hlt := lt_iff_toNat_lt.mp hlt
    refine ⟨rfl, copyUp_moved (by omega) fun i j hij hj e => ?_⟩
    have := congrArg toNat e
    rw [toNat_add_ofNat (by omega), toNat_add_ofNat (by omega)] at this
    omega
  · have hle := UInt64.le_iff_toNat_le.mp (UInt64.not_lt.mp hlt)
    refine ⟨rfl, copyDown_moved (by omega) fun i j hij hj e => ?_⟩
    have := congrArg toNat e
    rw [toNat_add_ofNat (by omega), toNat_add_ofNat (by omega)] at this
    omega

/-- **Both versions of `memmove`** copy ranges that do not wrap, whatever their overlap, and agree. -/
theorem memmoves_agree (m : Memory) (dst src : UInt64) (n : Nat) (hd : dst.toNat + n ≤ 2 ^ 64)
    (hs : src.toNat + n ≤ 2 ^ 64) : (n < 2 ^ 32 → (kernelMemmove dst src (UInt32.ofNat n) m).1 = dst ∧
      Moved m dst src n (kernelMemmove dst src (UInt32.ofNat n) m).2) ∧
    (n < 2 ^ 31 → Moved m dst src n (userMemmove dst src (Int32.ofNat n) m).2 ∧
      userMemmove dst src (Int32.ofNat n) m = kernelMemmove dst src (UInt32.ofNat n) m) := by
  refine ⟨fun hn => kernelMemmove_moved hd hs hn, fun hn => ?_⟩
  obtain ⟨hk, hmk⟩ := kernelMemmove_moved (m := m) hd hs (by omega)
  obtain ⟨hu, hmu⟩ := userMemmove_moved (m := m) hd hs hn
  exact ⟨hmu, Prod.ext (hu.trans hk.symm) (hmu.unique hmk)⟩

/-- Three bytes at 4 are moved up by one. -/
theorem memmoves_agree_three : Moved toUInt8 5 4 3 (kernelMemmove 5 4 (UInt32.ofNat 3) toUInt8).2 ∧
    userMemmove 5 4 (Int32.ofNat 3) toUInt8 = kernelMemmove 5 4 (UInt32.ofNat 3) toUInt8 := by
  obtain ⟨hk, hu⟩ := memmoves_agree toUInt8 5 4 3 (by decide) (by decide)
  exact ⟨(hk (by decide)).2, (hu (by decide)).2⟩

end

/-! ### Printing numbers -/

def kernelDigits : List Char := ['0', '1', '2', '3', '4', '5', '6', '7', '8', '9', 'a', 'b', 'c', 'd', 'e', 'f']

def userDigits : List Char := ['0', '1', '2', '3', '4', '5', '6', '7', '8', '9', 'A', 'B', 'C', 'D', 'E', 'F']

/-- `digits[d]`. -/
def digit (digits : List Char) (d : Nat) : UInt8 := (digits.getD d '0').toNat.toUInt8

/-- The loop of `printint` over the digits.  The bytes in `buf`, which has room for 16, are listed from the last. -/
def digitLoop (digits : List Char) (base x : UInt32) (buf : List UInt8) : Option (List UInt8) :=
  if buf.length < 16 then
    let buf' := digit digits (x % base).toNat :: buf
    if x / base ≠ 0 then digitLoop digits base (x / base) buf' else some buf'
  else none
termination_by 16 - buf.length

/-- `printint`: the bytes in the order in which they are printed, unless it stores outside of `buf`. -/
def printint (digits : List Char) (xx base : Int32) (sign : Bool) : Option (List UInt8) :=
  let neg := sign && decide (xx < 0)
  let x := if neg then (-xx).toUInt32 else xx.toUInt32
  match digitLoop digits base.toUInt32 x [] with
  | none => none
  | some buf => if neg then if buf.length < 16 then some (45 :: buf) else none else some buf

/-- `printint` of `kernel/printf.c`. -/
def kernelPrintint : Int32 → Int32 → Bool → Option (List UInt8) := printint kernelDigits

/-- `printint` of `user/printf.c`. -/
def userPrintint : Int32 → Int32 → Bool → Option (List UInt8) := printint userDigits

/-- The loop of `atoi`, with `n` so far; the string ends with the list. -/
def atoiLoop (n : Int32) : List UInt8 → Int32
  | [] => n
  | c :: s => if 48 ≤ c ∧ c ≤ 57 then atoiLoop (n * 10 + Int32.ofNat c.toNat - 48) s else n

def atoi (s : List UInt8) : Int32 := atoiLoop 0 s

/-- The digits of a number, without a zero in front. -/
def numeral (base n : Nat) : List Nat := if n = 0 then [0] else (Nat.digits base n).reverse

variable {b n : Nat}

lemma numeral_of_lt (hb : 1 < b) (h : n / b = 0) : numeral b n = [n % b] := by
  have hlt : n < b := (Nat.div_eq_zero_iff_lt (by omega)).mp h
  rw [numeral, Nat.mod_eq_of_lt hlt]
  split_ifs with h0
  · rw [h0]
  · rw [Nat.digits_of_lt b n h0 hlt]
    rfl

lemma numeral_step (hb : 1 < b) (h : n / b ≠ 0) : numeral b n = numeral b (n / b) ++ [n % b] := by
  have h0 : n ≠ 0 := fun e => h (by rw [e, Nat.zero_div])
  rw [numeral, numeral, if_neg h0, if_neg h, Nat.digits_def' hb (Nat.pos_of_ne_zero h0), List.reverse_cons]

/-- The loop stores the numeral, if there is room for the digits. -/
lemma digitLoop_eq (digits : List Char) {base : UInt32} (hb : 10 ≤ base.toNat) (k : Nat) {x : UInt32} {buf : List UInt8}
    (hx : x.toNat < 10 ^ (k + 1)) (hbuf : buf.length + k < 16) :
    digitLoop digits base x buf = some ((numeral base.toNat x.toNat).map (digit digits) ++ buf) := by
  have hzero : x / base = 0 ↔ x.toNat / base.toNat = 0 := by
    rw [← UInt32.toNat_inj, UInt32.toNat_div]
    rfl
  induction k generalizing x buf with
  | zero =>
    have hdiv : x.toNat / base.toNat = 0 := Nat.div_eq_of_lt (by omega)
    rw [digitLoop, if_pos (by omega), if_neg (not_not.mpr (hzero.mpr hdiv)), numeral_of_lt (by omega) hdiv,
      UInt32.toNat_mod]
    rfl
  | succ k ih =>
    rw [digitLoop, if_pos (by omega)]
    by_cases hdiv : x.toNat / base.toNat = 0
    · rw [if_neg (not_not.mpr (hzero.mpr hdiv)), numeral_of_lt (by omega) hdiv, UInt32.toNat_mod]
      rfl
    · have hlt : x.toNat / base.toNat < 10 ^ (k + 1) :=
        (Nat.div_le_div_left hb (by omega)).trans_lt (Nat.div_lt_of_lt_mul (by rwa [← Nat.pow_succ']))
      rw [if_pos (mt hzero.mp hdiv), ih (by rwa [UInt32.toNat_div]) (by simp only [List.length_cons]; omega) ?_,
        UInt32.toNat_div, numeral_step (by omega) hdiv, UInt32.toNat_mod, List.map_append, List.append_assoc]
      · rfl
      · rw [← UInt32.toNat_inj, UInt32.toNat_div]
        rfl

lemma bmod_mod (a : Int) : a.bmod (2 ^ 32) % 2 ^ 32 = a % 2 ^ 32 := Int.bmod_emod

lemma toNat_toUInt32 (xx : Int32) : (xx.toUInt32.toNat : Int) = xx.toInt % 2 ^ 32 := by
  have e : xx.toInt = Int.bmod xx.toUInt32.toNat (2 ^ 32) := BitVec.toInt_eq_toNat_bmod _
  rw [e, bmod_mod]
  exact (Int.emod_eq_of_lt (Int.natCast_nonneg _) (by exact_mod_cast xx.toUInt32.toNat_lt)).symm

lemma toNat_neg {xx : Int32} (h : xx.toInt < 0) : (-xx).toUInt32.toNat = xx.toInt.natAbs := by
  have e := toNat_toUInt32 (-xx)
  have hle := xx.le_toInt
  rw [Int32.toInt_neg, bmod_mod] at e
  omega

/-- What is printed: the value itself with its sign, or as an unsigned number. -/
def printed (digits : List Char) (xx : Int32) (base : Nat) (sign : Bool) : List UInt8 :=
  if sign = true ∧ xx.toInt < 0 then 45 :: (numeral base xx.toInt.natAbs).map (digit digits)
  else (numeral base (xx.toInt % 2 ^ 32).toNat).map (digit digits)

lemma length_numeral_le (hb : 10 ≤ b) (hn : n < 10 ^ 10) : (numeral b n).length ≤ 10 := by
  rw [numeral]
  split_ifs
  · exact Nat.le_of_ble_eq_true rfl
  · rw [List.length_reverse]
    exact (Nat.digits_length_le_iff (by omega) n).mpr (hn.trans_le (Nat.pow_le_pow_left hb 10))

lemma printint_eq (digits : List Char) (xx : Int32) {base : Int32} (hb : base = 10 ∨ base = 16) (sign : Bool) :
    printint digits xx base sign = some (printed digits xx base.toInt.toNat sign) := by
  have hbase : base.toUInt32.toNat = base.toInt.toNat ∧ 10 ≤ base.toUInt32.toNat := by
    rcases hb with rfl | rfl <;> decide
  have hloop (x : UInt32) : digitLoop digits base.toUInt32 x [] =
      some ((numeral base.toInt.toNat x.toNat).map (digit digits)) := by
    rw [digitLoop_eq digits hbase.2 9 (x.toNat_lt.trans (by decide)) (by decide), hbase.1, List.append_nil]
  have hneg : (sign && decide (xx < 0)) = decide (sign = true ∧ xx.toInt < 0) := by
    rw [Bool.decide_and, Bool.decide_eq_true]
    exact congrArg _ (decide_eq_decide.mpr Int32.lt_iff_toInt_lt)
  rw [printint, hneg, printed]
  by_cases h : sign = true ∧ xx.toInt < 0
  · have hle := xx.le_toInt
    have hlen : (numeral base.toInt.toNat xx.toInt.natAbs).length ≤ 10 :=
      length_numeral_le (by omega) (lt_of_le_of_lt (show _ ≤ 2 ^ 31 by omega) (by decide))
    simp only [h, decide_true, if_true, hloop, toNat_neg h.2, and_self]
    rw [if_pos (by rw [List.length_map]; omega)]
  · have hnat : xx.toUInt32.toNat = (xx.toInt % 2 ^ 32).toNat := by
      rw [← toNat_toUInt32, Int.toNat_natCast]
    simp only [h, decide_false, if_false, hloop, hnat, Bool.false_eq_true]

lemma atoiLoop_eq (ds : List Nat) (hds : ∀ d ∈ ds, d < 10) (a : Nat) :
    atoiLoop (Int32.ofNat a) (ds.map (digit userDigits)) = Int32.ofNat (ds.foldl (fun a d => d + 10 * a) a) := by
  induction ds generalizing a with
  | nil => rfl
  | cons d ds ih =>
    have hd : 48 ≤ digit userDigits d ∧ digit userDigits d ≤ 57 ∧ (digit userDigits d).toNat = 48 + d := by
      have := hds d List.mem_cons_self
      interval_cases d <;> decide
    rw [List.map_cons, atoiLoop, if_pos ⟨hd.1, hd.2.1⟩, hd.2.2, List.foldl_cons,
      ← ih fun x hx => hds x (List.mem_cons_of_mem d hx)]
    rw [Int32.ofNat_add, Int32.ofNat_add, Int32.ofNat_mul]
    refine congrArg (atoiLoop · _) ?_
    grind

lemma atoi_numeral (n : Nat) : atoi ((numeral 10 n).map (digit userDigits)) = Int32.ofNat n := by
  rw [numeral]
  split_ifs with h
  · rw [h]
    decide
  · refine (atoiLoop_eq _ (fun d hd => ?_) 0).trans (congrArg Int32.ofNat ?_)
    · exact Nat.digits_lt_base (by decide) (List.mem_reverse.mp hd)
    · rw [List.foldl_reverse]
      exact (Nat.ofDigits_eq_foldr 10 _).symm.trans (Nat.ofDigits_digits 10 n)

/-- **Numbers are printed exactly**, in base 10 and 16, by the kernel and by user programs; and `atoi` reads them. -/
theorem printint_exact (xx base : Int32) (hb : base = 10 ∨ base = 16) (sign : Bool) :
    kernelPrintint xx base sign = some (printed kernelDigits xx base.toInt.toNat sign) ∧
    userPrintint xx base sign = some (printed userDigits xx base.toInt.toNat sign) ∧
    (base = 10 → 0 ≤ xx.toInt → atoi (printed userDigits xx base.toInt.toNat sign) = xx) := by
  refine ⟨printint_eq _ xx hb sign, printint_eq _ xx hb sign, fun h10 hpos => ?_⟩
  have hlt := xx.toInt_lt
  rw [printed, if_neg (by omega), Int.emod_eq_of_lt hpos (by omega), h10]
  refine (atoi_numeral _).trans (Int32.toInt_inj.mp ?_)
  rw [Int32.toInt_ofNat_of_lt (by omega), Int.toNat_of_nonneg hpos]

/-- The least number. -/
theorem printint_exact_min : userPrintint (-2147483648) 16 true = some [45, 56, 48, 48, 48, 48, 48, 48, 48] := by
  rw [(printint_exact (-2147483648) 16 (.inr rfl) true).2.1]
  decide

end FypOs.User
