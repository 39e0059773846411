import FypOs.Fs.Own

/-!
# Fs — the number of free blocks

`count_free_blocks` goes through the free map on its own, with a super block it reads from the disk, and says how many
blocks `balloc` has left.

* `free_count_exact`: the count is the number of calls of `balloc` that succeed.
-/

namespace FypOs.Fs

open Lib Prog Function List

/-- The super block as it is on the disk. -/
def getSuperblock (b : Block) : Superblock where
  size := word b 1
  nblocks := word b 2
  ninodes := word b 3
  inodestart := word b 6
  bmapstart := word b 7

def readsb : FsM Superblock := do
  let data ← bread 1
  pure (getSuperblock data)

/-- The clear bits of the block of the free map that begins with the bit for `b`. -/
def Superblock.clearBits (sb : Superblock) (b : Nat) (data : Block) : Nat :=
  (List.range (min BPB (sb.size - b))).countP fun bi => !bitAt data bi

def countLoop (sb : Superblock) : List Nat → Nat → FsM Nat
  | [], free_blocks => pure free_blocks
  | b :: bs, free_blocks => do
    let data ← bread (sb.BBLOCK b)
    countLoop sb bs (free_blocks + sb.clearBits b data)

def countFreeBlocks : FsM Nat := do
  let sb ← readsb
  countLoop sb sb.groups 0

/-- The blocks that are free. -/
def State.freeBlocks (s : State) : Finset Nat := (Finset.range s.sb.size).filter fun b => s.bit b = false

section

variable {E : Stop → Prop} {s s' : State} {b : Nat}

lemma mem_freeBlocks : b ∈ s.freeBlocks ↔ b < s.sb.size ∧ s.bit b = false := by
  simp [State.freeBlocks]

/-! ### Counting -/

/-- The free blocks below `n`. -/
def State.freeBelow (s : State) (n : Nat) : Nat := (List.range n).countP fun b => !s.bit b

lemma freeBelow_size : s.freeBelow s.sb.size = s.freeBlocks.card := by
  rw [State.freeBelow, countP_eq_length_filter, State.freeBlocks, ← toFinset_card_of_nodup (nodup_range.filter _)]
  congr 1
  ext b
  simp

lemma clearBits_eq (s : State) (g : Nat) :
    s.freeBelow (g * BPB) + s.sb.clearBits (g * BPB) (s.blocks (s.sb.BBLOCK (g * BPB))) =
      s.freeBelow (g * BPB + min BPB (s.sb.size - g * BPB)) := by
  rw [State.freeBelow, State.freeBelow, range_add, countP_append, countP_map, Superblock.clearBits,
    Nat.add_left_cancel_iff]
  refine countP_congr fun bi hbi => ?_
  have hlt : bi < BPB := by
    have := mem_range.mp hbi
    omega
  obtain ⟨hg, hm⟩ := group_add s.sb (g := g) hlt
  simp only [Function.comp_apply, State.bit, hg, hm]

/-- What the loop has counted when it comes to group `g`. -/
lemma countLoop_spec (n g : Nat) (hn : g + n = (s.sb.size + BPB - 1) / BPB) :
    wp (countLoop s.sb ((List.range' g n).map (· * BPB)) (s.freeBelow (min (g * BPB) s.sb.size)))
      (fun k s' => s' = s ∧ k = s.freeBelow s.sb.size) E s := by
  induction n generalizing g with
  | zero =>
    refine ⟨rfl, ?_⟩
    rw [Nat.min_eq_right]
    simp only [BPB, BSIZE] at hn ⊢
    omega
  | succ n ih =>
    have hg : g * BPB < s.sb.size := by
      simp only [BPB, BSIZE] at hn ⊢
      omega
    rw [List.range'_succ, map_cons, countLoop, wp_bind, wp_bread, Nat.min_eq_left hg.le, clearBits_eq]
    have hnext : g * BPB + min BPB (s.sb.size - g * BPB) = min ((g + 1) * BPB) s.sb.size := by
      rw [Nat.add_mul]
      omega
    rw [hnext]
    exact ih (g + 1) (by omega)

/-- **The count** of a disk whose super block is the one in memory. -/
lemma countFreeBlocks_eq (hsb : getSuperblock (s.blocks 1) = s.sb) :
    countFreeBlocks s = .ok (s.freeBlocks.card, s) := by
  have hwp : wp countFreeBlocks (fun k s' => s' = s ∧ k = s.freeBelow s.sb.size) (fun _ => False) s := by
    rw [countFreeBlocks, readsb, wp_bind, wp_bind, wp_bread, wp_pure, hsb, Superblock.groups, range_eq_range']
    have h := countLoop_spec (s := s) (E := fun _ => False) _ 0 (Nat.zero_add _)
    rwa [Nat.zero_mul, Nat.zero_min] at h
  obtain ⟨k, s', hrun, rfl, rfl⟩ := hwp.returns
  rw [hrun, freeBelow_size]

/-! ### Taking and giving back -/

/-- The super block in memory is the one on the disk, and neither it nor a block of the free map is free. -/
structure Mapping (s : State) : Prop where
  sb : getSuperblock (s.blocks 1) = s.sb
  small : s.sb.size < 2 ^ 31
  first : s.bit 0 = true
  apart : ∀ c, c < s.sb.size → s.sb.BBLOCK c ≠ 1
  used : ∀ b, b ∈ s.freeBlocks → b ≠ 1 ∧ ∀ c, c < s.sb.size → s.sb.BBLOCK c ≠ b

lemma bit_marked (h : Mapping s) (hb : b ∈ s.freeBlocks) {c : Nat} (hc : c < s.sb.size) :
    (s.marked b).bit c = update s.bit b true c := by
  rw [State.marked, bit_logged, bit_poke_of_ne, bit_logged, bit_poke_setBit]
  exact (h.used b hb).2 c hc

lemma blocks_marked {x : Nat} (hx : x ≠ b) (hmap : x ≠ s.sb.BBLOCK b) : (s.marked b).blocks x = s.blocks x := by
  simp only [State.marked, logged_blocks, poke_blocks, update_of_ne hx, update_of_ne hmap]

lemma freeBlocks_marked (h : Mapping s) (hb : b ∈ s.freeBlocks) :
    (s.marked b).freeBlocks = s.freeBlocks.erase b := by
  ext c
  have hsb : (s.marked b).sb = s.sb := rfl
  rw [Finset.mem_erase, mem_freeBlocks, mem_freeBlocks, hsb]
  constructor
  · rintro ⟨hc, hbit⟩
    rw [bit_marked h hb hc] at hbit
    by_cases e : c = b
    · rw [e, update_self] at hbit
      cases hbit
    · rw [update_of_ne e] at hbit
      exact ⟨e, hc, hbit⟩
  · rintro ⟨e, hc, hbit⟩
    rw [bit_marked h hb hc, update_of_ne e]
    exact ⟨hc, hbit⟩

/-- **Taking a block** keeps the map where it is. -/
lemma Mapping.marked (h : Mapping s) (hb : b ∈ s.freeBlocks) : Mapping (s.marked b) := by
  have hlt := (mem_freeBlocks.mp hb).1
  have hfirst : (0 : Nat) ≠ b := fun e => by
    have := (mem_freeBlocks.mp hb).2
    rw [← e, h.first] at this
    cases this
  refine ⟨?_, h.small, ?_, h.apart, fun c hc => ?_⟩
  · rw [blocks_marked (h.used b hb).1.symm (h.apart b hlt).symm]
    exact h.sb
  · rw [bit_marked h hb (by omega), update_of_ne hfirst]
    exact h.first
  · rw [freeBlocks_marked h hb] at hc
    exact h.used c (Finset.mem_of_mem_erase hc)

/-- **A call of `balloc`** takes a free block, or there is none. -/
lemma balloc_cases (h : Mapping s) : (s.freeBlocks = ∅ ∧ balloc s = .ok (0, s)) ∨
    ∃ b ∈ s.freeBlocks, balloc s = .ok (b, s.marked b) := by
  obtain ⟨b, s', hrun, hs⟩ := (balloc_marks (s := s) (E := fun _ => False)).returns
  rcases hs with ⟨rfl, rfl, hall⟩ | ⟨hb, hfree, rfl⟩
  · refine .inl ⟨Finset.eq_empty_of_forall_notMem fun c hc => ?_, hrun⟩
    obtain ⟨hc, hbit⟩ := mem_freeBlocks.mp hc
    rw [hall c hc] at hbit
    cases hbit
  · exact .inr ⟨b, mem_freeBlocks.mpr ⟨hb, hfree⟩, hrun⟩

/-- Calls of `balloc` in a row. -/
def ballocs : Nat → FsM (List Nat)
  | 0 => pure []
  | n + 1 => do
    let b ← balloc
    let bs ← ballocs n
    pure (b :: bs)

lemma ballocs_succ {n : Nat} {bs : List Nat} {s1 : State} (h1 : balloc s = .ok (b, s1))
    (h2 : ballocs n s1 = .ok (bs, s')) : ballocs (n + 1) s = .ok (b :: bs, s') := by
  change Prog.bind balloc _ s = _
  rw [Prog.bind, h1]
  change Prog.bind (ballocs n) _ s1 = _
  rw [Prog.bind, h2]
  rfl

/-- What a number of calls have taken. -/
structure Taken (s : State) (bs : List Nat) (s' : State) : Prop where
  mapping : Mapping s'
  sb : s'.sb = s.sb
  nodup : bs.Nodup
  free : ∀ b ∈ bs, b ∈ s.freeBlocks
  left : s'.freeBlocks = s.freeBlocks \ bs.toFinset
  zero : ∀ b ∈ bs, s'.blocks b = fun _ => 0
  same : ∀ x, x ∉ bs → (∀ c, c < s.sb.size → x ≠ s.sb.BBLOCK c) → s'.blocks x = s.blocks x

/-- As many calls as there are free blocks succeed. -/
lemma ballocs_spec (n : Nat) (h : Mapping s) (hn : n ≤ s.freeBlocks.card) :
    ∃ bs s', ballocs n s = .ok (bs, s') ∧ bs.length = n ∧ Taken s bs s' := by
  induction n generalizing s with
  | zero => exact ⟨[], s, rfl, rfl, h, rfl, .nil, by simp, by simp, by simp, fun _ _ _ => rfl⟩
  | succ n ih =>
    rcases balloc_cases h with ⟨hempty, -⟩ | ⟨b, hb, hrun⟩
    · rw [hempty, Finset.card_empty] at hn
      omega
    · have hleft := freeBlocks_marked h hb
      have hcard := Finset.card_erase_of_mem hb
      obtain ⟨bs, s', hrun', hlen, ht⟩ := ih (h.marked hb) (by rw [hleft]; omega)
      have hnot : b ∉ bs := fun hin => by
        have := ht.free b hin
        rw [hleft] at this
        exact absurd rfl (Finset.ne_of_mem_erase this)
      refine ⟨b :: bs, s', ballocs_succ hrun hrun', by rw [length_cons, hlen], ht.mapping, ht.sb,
        nodup_cons.mpr ⟨hnot, ht.nodup⟩, fun c hc => ?_, ?_, fun c hc => ?_, fun x hx hmap => ?_⟩
      · rcases mem_cons.mp hc with rfl | hc
        · exact hb
        · have := ht.free c hc
          rw [hleft] at this
          exact Finset.mem_of_mem_erase this
      · rw [ht.left, hleft]
        ext c
        simp only [Finset.mem_sdiff, Finset.mem_erase, toFinset_cons, Finset.mem_insert]
        tauto
      · rcases mem_cons.mp hc with rfl | hc
        · -- the calls that follow write to other blocks, and to the free map
          rw [ht.same c hnot fun c' hc' => ((h.used c hb).2 c' hc').symm]
          exact update_self ..
        · exact ht.zero c hc
      · rw [ht.same x (fun hin => hx (mem_cons_of_mem b hin)) hmap]
        exact blocks_marked (fun e => hx (e ▸ mem_cons_self)) (hmap b (mem_freeBlocks.mp hb).1)

/-- **Giving a block back.** -/
lemma bfree_returns (hbit : s.bit b = true) : bfree b s =
    .ok ((), (s.poke (s.sb.BBLOCK b) fun data => clearBit data (b % BPB)).logged (s.sb.BBLOCK b)) := by
  have hwp : wp (bfree b) (fun _ s' => s' =
      (s.poke (s.sb.BBLOCK b) fun data => clearBit data (b % BPB)).logged (s.sb.BBLOCK b)) (fun _ => False) s := by
    simp only [bfree, wp_bind, wp_reads, wp_bread]
    refine wp_ite (fun hfree => ?_) fun _ => rfl
    rw [State.bit, hfree] at hbit
    cases hbit
  obtain ⟨r, s', hrun, rfl⟩ := hwp.returns
  exact hrun

lemma freeBlocks_given (hb : b < s.sb.size) :
    ((s.poke (s.sb.BBLOCK b) fun data => clearBit data (b % BPB)).logged (s.sb.BBLOCK b)).freeBlocks =
      insert b s.freeBlocks := by
  ext c
  rw [Finset.mem_insert, mem_freeBlocks, mem_freeBlocks, bit_logged, bit_poke_clearBit, logged_sb, poke_sb]
  by_cases e : c = b
  · rw [e, update_self]
    exact ⟨fun _ => .inl rfl, fun _ => ⟨hb, rfl⟩⟩
  · rw [update_of_ne e]
    exact ⟨.inr, fun h => h.resolve_left e⟩

/-- **The count agrees with the allocator.**  As many calls of `balloc` succeed as it says, each with another free
block, zeroed, and each takes one off the count; the next returns 0 and changes nothing.  `bfree` of a block in use adds
one to the count, and makes this block free and no other. -/
theorem free_count_exact (s : State) (h : Mapping s) : ∃ k, countFreeBlocks s = .ok (k, s) ∧
    (∀ j ≤ k, ∃ bs s', ballocs j s = .ok (bs, s') ∧ bs.length = j ∧ bs.Nodup ∧
      (∀ b ∈ bs, 0 < b ∧ b < s.sb.size ∧ s.bit b = false ∧ s'.blocks b = fun _ => 0) ∧
      countFreeBlocks s' = .ok (k - j, s') ∧ (j = k → balloc s' = .ok (0, s'))) ∧
    ∀ b, b < s.sb.size → s.bit b = true → ∃ s', bfree b s = .ok ((), s') ∧ countFreeBlocks s' = .ok (k + 1, s') ∧
      ∀ c, c < s.sb.size → s'.bit c = if c = b then false else s.bit c := by
  refine ⟨_, countFreeBlocks_eq h.sb, fun j hj => ?_, fun b hb hbit => ?_⟩
  · obtain ⟨bs, s', hrun, hlen, ht⟩ := ballocs_spec j h hj
    have hsub : bs.toFinset ⊆ s.freeBlocks := fun b hb => ht.free b (mem_toFinset.mp hb)
    have hcard : s'.freeBlocks.card = s.freeBlocks.card - j := by
      rw [ht.left, Finset.card_sdiff_of_subset hsub, toFinset_card_of_nodup ht.nodup, hlen]
    refine ⟨bs, s', hrun, hlen, ht.nodup, fun b hb => ?_, ?_, fun e => ?_⟩
    · obtain ⟨hlt, hfree⟩ := mem_freeBlocks.mp (ht.free b hb)
      refine ⟨Nat.pos_of_ne_zero fun e => ?_, hlt, hfree, ht.zero b hb⟩
      rw [e, h.first] at hfree
      cases hfree
    · rw [countFreeBlocks_eq ht.mapping.sb, hcard]
    · rcases balloc_cases ht.mapping with ⟨-, hnone⟩ | ⟨b, hb, -⟩
      · exact hnone
      · have := Finset.card_pos.mpr ⟨b, hb⟩
        omega
  · have hnot : b ∉ s.freeBlocks := fun hin => by
      have := (mem_freeBlocks.mp hin).2
      rw [hbit] at this
      cases this
    refine ⟨_, bfree_returns hbit, ?_, fun c _ => ?_⟩
    · rw [countFreeBlocks_eq, freeBlocks_given hb, Finset.card_insert_of_notMem hnot]
      rw [logged_blocks, poke_blocks, update_of_ne (h.apart b hb).symm]
      exact h.sb
    · rw [bit_logged, bit_poke_clearBit, update_apply]

end

/-! ### Small disks -/

/-- A disk of four blocks whose free map is block 2, with the bits `bits`. -/
def tinyFs (bits : UInt8) : State where
  sb := ⟨4, 1, 0, 0, 2⟩
  blocks b :=
    if b = 1 then setWord (setWord (setWord (fun _ => 0) 1 4) 2 1) 7 2
    else if b = 2 then fun j => if j = 0 then bits else 0
    else fun _ => 0
  writes := []
  itable _ := ⟨0, 0, 0, none, false, .blank 0⟩
  me := ⟨1, 0⟩

lemma tinyFs_mapping : Mapping (tinyFs 7) where
  sb := by decide +kernel
  small := by decide
  first := by decide +kernel
  apart := by decide
  used := by decide +kernel

/-- Only block 3 is free. -/
theorem free_count_exact_tiny : countFreeBlocks (tinyFs 7) = .ok (1, tinyFs 7) ∧
    ∃ bs s', ballocs 1 (tinyFs 7) = .ok (bs, s') ∧ bs.length = 1 ∧ balloc s' = .ok (0, s') := by
  have hone : countFreeBlocks (tinyFs 7) = .ok (1, tinyFs 7) := by
    rw [countFreeBlocks_eq tinyFs_mapping.sb, show (tinyFs 7).freeBlocks.card = 1 by decide +kernel]
  obtain ⟨k, hk, htake, -⟩ := free_count_exact (tinyFs 7) tinyFs_mapping
  obtain rfl : k = 1 := by
    rw [hone] at hk
    cases hk
    rfl
  obtain ⟨bs, s', hrun, hlen, -, -, -, hnone⟩ := htake 1 (Nat.le_refl 1)
  exact ⟨hone, bs, s', hrun, hlen, hnone rfl⟩

/-- **A free map that does not mark its own block.**  Block 0 is marked, and two blocks are free; `balloc` takes the
block of the map and zeroes it, and then there are four. -/
theorem map_takes_itself : (tinyFs 3).bit 0 = true ∧ ∃ s', countFreeBlocks (tinyFs 3) = .ok (2, tinyFs 3) ∧
    balloc (tinyFs 3) = .ok (2, s') ∧ countFreeBlocks s' = .ok (4, s') := by
  refine ⟨by decide +kernel, ?_⟩
  obtain ⟨s', hs, hsb, hcard⟩ : ∃ s', balloc (tinyFs 3) = .ok (2, s') ∧ getSuperblock (s'.blocks 1) = s'.sb ∧
      s'.freeBlocks.card = 4 := Outcome.ok_of_test (by decide +kernel)
  refine ⟨s', ?_, hs, ?_⟩
  · rw [countFreeBlocks_eq (by decide +kernel), show (tinyFs 3).freeBlocks.card = 2 by decide +kernel]
  · rw [countFreeBlocks_eq hsb, hcard]

end FypOs.Fs
