import FypOs.Lib.Bytes
import FypOs.Param

/-!
# Log — the header block

The header of the on-disk log (`struct logheader` of `kernel/log.c`) is an `int n` followed by
`n` block numbers, in the first bytes of block `log.start`.  `putHead` is what `write_head` does to
the buffer of that block, `getHead` what `read_head` takes from it; a header is read back as it
was written (`getHead_putHead`).
-/

namespace FypOs.Log
open Lib

/-- The value of a word as an `int`. -/
def toInt (x : Nat) : ℤ := if x < 2 ^ 31 then x else x - 2 ^ 32

/-- `for (i = 0; i < n; i++) hb->block[i] = lh.block[i]`, from word `i` on. -/
def putBlocks : List Nat → Nat → Block → Block
  | [], _, b => b
  | x :: xs, i, b => putBlocks xs (i + 1) (setWord b i x)

/-- `write_head`: store the header in the buffer of block `log.start`. -/
def putHead (lh : List Nat) (b : Block) : Block := putBlocks lh 1 (setWord b 0 lh.length)

/-- `read_head`: the block numbers of the header in a block.  A negative `n` reads none. -/
def getHead (b : Block) : List Nat :=
  (List.range (toInt (word b 0)).toNat).map fun i => word b (i + 1)

variable {lh : List Nat} {b : Block}

lemma word_putBlocks_of_lt {i j : Nat} (h : j < i) : word (putBlocks lh i b) j = word b j := by
  induction lh generalizing i b with
  | nil => rfl
  | cons x lh ih =>
    rw [putBlocks, ih (by omega), word_setWord_of_ne (by omega)]

lemma word_putBlocks {i k : Nat} (h : ∀ x ∈ lh, x < 2 ^ 32)
    (hk : k < lh.length) : word (putBlocks lh i b) (i + k) = lh[k] := by
  induction lh generalizing i k b with
  | nil => simp at hk
  | cons x lh ih =>
    rw [putBlocks]
    cases k with
    | zero =>
      show word (putBlocks lh (i + 1) (setWord b i x)) i = x
      rw [word_putBlocks_of_lt (Nat.lt_succ_self i), word_setWord_self (h x List.mem_cons_self)]
    | succ k =>
      have := ih (i := i + 1) (b := setWord b i x)
        (fun y hy => h y (List.mem_cons_of_mem _ hy)) (Nat.lt_of_succ_lt_succ hk)
      rw [show i + (k + 1) = i + 1 + k by omega, this]
      rfl

/-- **A header is read back as it was written.** -/
lemma getHead_putHead (b : Block) (hn : lh.length < 2 ^ 31)
    (h : ∀ x ∈ lh, x < 2 ^ 32) : getHead (putHead lh b) = lh := by
  have hw : word (putHead lh b) 0 = lh.length := by
    rw [putHead, word_putBlocks_of_lt Nat.zero_lt_one, word_setWord_self (by omega)]
  have hlen : (toInt (word (putHead lh b) 0)).toNat = lh.length := by
    rw [hw, toInt, if_pos hn, Int.toNat_natCast]
  refine List.ext_getElem (by simp [getHead, hlen]) fun k h1 h2 => ?_
  simp only [getHead, List.getElem_map, List.getElem_range]
  rw [putHead, Nat.add_comm k 1, word_putBlocks h h2]

end FypOs.Log
