import FypOs.Fs.Inode
import FypOs.Lib.Owner

/-!
# Fs — who owns which block

An inode refers to blocks through its slots: its addresses, the last of which is that of the
indirect block, and the entries of the indirect block.  `Owns s R` says that the free map of `s` is
exact for the references `R`: a data block is marked when it is in one slot of one inode, and only
then.
-/

namespace FypOs.Fs

open Lib Prog Function List

/-! ### Rules for the primitives -/

section Rules

variable {E : Stop → Prop} {s : State} {b : Nat} {i : Fin NINODE} {f : Block → Block}
  {g : Inode → Inode}

@[simp] lemma wp_bread {Q : Block → State → Prop} : wp (bread b) Q E s ↔ Q (s.blocks b) s := Iff.rfl

variable {Q : Unit → State → Prop}

@[simp] lemma wp_poke : wp (poke b f) Q E s ↔ Q () (s.poke b f) := Iff.rfl

@[simp] lemma wp_logWrite : wp (logWrite b) Q E s ↔ Q () (s.logged b) := Iff.rfl

@[simp] lemma wp_inode {Q : Inode → State → Prop} : wp (inode i) Q E s ↔ Q (s.itable i) s := Iff.rfl

@[simp] lemma wp_setInode : wp (setInode i g) Q E s ↔ Q () (s.setInode i g) := Iff.rfl

@[simp] lemma wp_setDinode {g : Dinode → Dinode} :
    wp (setDinode i g) Q E s ↔ Q () (s.setInode i fun ip => { ip with d := g ip.d }) := Iff.rfl

@[simp] lemma wp_setAddr {k : Fin (NDIRECT + 1)} : wp (setAddr i k b) Q E s ↔ Q () (s.setAddr i k b) := Iff.rfl

@[simp] lemma poke_sb : (s.poke b f).sb = s.sb := rfl
@[simp] lemma poke_itable : (s.poke b f).itable = s.itable := rfl
@[simp] lemma poke_blocks : (s.poke b f).blocks = update s.blocks b (f (s.blocks b)) := rfl
@[simp] lemma logged_sb : (s.logged b).sb = s.sb := rfl
@[simp] lemma logged_blocks : (s.logged b).blocks = s.blocks := rfl
@[simp] lemma setInode_sb : (s.setInode i g).sb = s.sb := rfl
@[simp] lemma setInode_blocks : (s.setInode i g).blocks = s.blocks := rfl
@[simp] lemma setInode_itable_self : (s.setInode i g).itable i = g (s.itable i) :=
  update_self ..
lemma setInode_itable_of_ne {j : Fin NINODE} (h : j ≠ i) :
    (s.setInode i g).itable j = s.itable j := update_of_ne h ..

lemma setInode_setInode {g' : Inode → Inode} :
    (s.setInode i g).setInode i g' = s.setInode i fun ip => g' (g ip) := by
  simp only [State.setInode, update_self, update_idem]

end Rules

/-! ### The free map and the disk inodes -/

namespace State

/-- The bit of block `b` in the free map. -/
def bit (s : State) (b : Nat) : Bool := bitAt (s.blocks (s.sb.BBLOCK b)) (b % BPB)

/-- Inode `n` on disk. -/
def dinode (s : State) (n : Nat) : Dinode := getDinode (s.blocks (s.sb.IBLOCK n)) (n % IPB)

/-- No data block is free. -/
def Full (s : State) : Prop := ∀ b, s.sb.Data b → s.bit b = true

end State

@[simp] lemma bit_logged (s : State) (b : Nat) : (s.logged b).bit = s.bit := rfl
@[simp] lemma dinode_logged (s : State) (b : Nat) : (s.logged b).dinode = s.dinode := rfl

variable {sb : Superblock} {j : Fin NINDIRECT} {b : Nat} {n : Nat} {f : Block → Block}
  {D : Nat → Dinode} {d : Dinode} {r : Ref}

lemma bblock_bit_inj {b c : Nat} (h1 : sb.BBLOCK b = sb.BBLOCK c) (h2 : b % BPB = c % BPB) : b = c := by
  have h3 : b / BPB = c / BPB := Nat.add_right_cancel h1
  rw [← Nat.div_add_mod b BPB, h2, h3, Nat.div_add_mod]

lemma bit_poke_setBit (s : State) (b c : Nat) :
    (s.poke (s.sb.BBLOCK b) fun data => setBit data (b % BPB)).bit c = update s.bit b true c := by
  simp only [State.bit, poke_sb, poke_blocks, update_apply]
  by_cases hc : c = b
  · rw [if_pos (by rw [hc]), if_pos hc, bitAt_setBit, if_pos (by rw [hc])]
  · rw [if_neg hc]
    split
    · rw [bitAt_setBit, if_neg fun e => hc (bblock_bit_inj ‹_› e), ‹s.sb.BBLOCK c = _›]
    · rfl

lemma bit_poke_clearBit (s : State) (b c : Nat) :
    (s.poke (s.sb.BBLOCK b) fun data => clearBit data (b % BPB)).bit c = update s.bit b false c := by
  simp only [State.bit, poke_sb, poke_blocks, update_apply]
  by_cases hc : c = b
  · rw [if_pos (by rw [hc]), if_pos hc, bitAt_clearBit, if_pos (by rw [hc])]
  · rw [if_neg hc]
    split
    · rw [bitAt_clearBit, if_neg fun e => hc (bblock_bit_inj ‹_› e), ‹s.sb.BBLOCK c = _›]
    · rfl

lemma bit_poke_of_ne {s : State} {x c : Nat} (h : s.sb.BBLOCK c ≠ x) : (s.poke x f).bit c = s.bit c := by
  simp only [State.bit, poke_sb, poke_blocks, update_of_ne h]

lemma dinode_poke_of_ne {s : State} {x n : Nat} (h : s.sb.IBLOCK n ≠ x) :
    (s.poke x f).dinode n = s.dinode n := by
  simp only [State.dinode, poke_sb, poke_blocks, update_of_ne h]

/-! ### Slots -/

/-- A place where an inode names a block. -/
inductive Slot where
  /-- `addrs[k]`; the last one is the address of the indirect block. -/
  | addr (k : Fin (NDIRECT + 1))
  /-- An entry of the indirect block. -/
  | entry (j : Fin NINDIRECT)
  deriving DecidableEq

/-- The address of the indirect block. -/
def Dinode.ind (d : Dinode) : Nat := (d.addrs (Fin.last NDIRECT)).toNat

/-- The block an inode names in a slot; `0` if none. -/
def slot (blocks : Nat → Block) (d : Dinode) : Slot → Nat
  | .addr k => (d.addrs k).toNat
  | .entry j => if d.ind = 0 then 0 else word (blocks d.ind) j

lemma slot_entry_congr {blocks blocks' : Nat → Block} {d d' : Dinode}
    (hind : d'.ind = d.ind) (h : d.ind ≠ 0 → blocks' d.ind = blocks d.ind) :
    slot blocks' d' (.entry j) = slot blocks d (.entry j) := by
  simp only [slot, hind]
  split
  · rfl
  · rw [h ‹_›]

lemma slot_entry_of_ind {blocks : Nat → Block} (h : d.ind = 0) : slot blocks d (.entry j) = 0 := if_pos h

/-- An indirect block of zeros has no entries. -/
lemma slot_entry_of_zero {blocks : Nat → Block}
    (h : blocks d.ind = fun _ => 0) : slot blocks d (.entry j) = 0 := by
  simp only [slot, h, word_zero, ite_self]

/-- The inode number is one of the file system's, and the inode is allocated. -/
def Live (sb : Superblock) (n : Nat) (d : Dinode) : Prop := 0 < n ∧ n < sb.ninodes ∧ d.type ≠ 0

instance (sb : Superblock) (n : Nat) (d : Dinode) : Decidable (Live sb n d) :=
  inferInstanceAs (Decidable (_ ∧ _ ∧ _))

/-- A slot of an inode. -/
abbrev Ref := Nat × Slot

/-- The references of the allocated inodes, when the inodes are `D`. -/
def State.refs (s : State) (D : Nat → Dinode) (r : Ref) : Nat :=
  if Live s.sb r.1 (D r.1) then slot s.blocks (D r.1) r.2 else 0

lemma refs_of_live {s : State} (h : Live s.sb n (D n)) (k : Slot) :
    s.refs D (n, k) = slot s.blocks (D n) k := if_pos h

lemma refs_of_not_live {s : State} (h : ¬ Live s.sb n (D n)) (k : Slot) : s.refs D (n, k) = 0 := if_neg h

/-- The references of an inode are its own and those in its indirect block. -/
lemma refs_congr {s s' : State} {D D' : Nat → Dinode} (hsb : s'.sb = s.sb)
    (hD : 0 < n → n < s.sb.ninodes → D' n = D n)
    (hind : Live s.sb n (D n) → (D n).ind ≠ 0 → s'.blocks (D n).ind = s.blocks (D n).ind)
    (k : Slot) : s'.refs D' (n, k) = s.refs D (n, k) := by
  by_cases hl : Live s.sb n (D n)
  · have hD := hD hl.1 hl.2.1
    rw [refs_of_live hl, refs_of_live (by rw [hsb, hD]; exact hl), hD]
    cases k with
    | addr k => rfl
    | entry j => exact slot_entry_congr rfl (hind hl)
  · rw [refs_of_not_live hl, refs_of_not_live]
    intro ⟨h1, h2, h3⟩
    rw [hsb] at h2
    rw [hD h1 h2] at h3
    exact hl ⟨h1, h2, h3⟩

/-- The free map is exact for the references `R`, and the blocks before the data blocks are marked
used. -/
structure Owns (s : State) (R : Ref → Nat) : Prop where
  layout : s.sb.Layout
  exact : Owner s.sb.Data 0 s.bit R
  reserved : ∀ b, b < s.sb.dataStart → s.bit b = true

lemma Owns.congr {s s' : State} {R R' : Ref → Nat} (h : Owns s R) (hsb : s'.sb = s.sb)
    (hbit : ∀ b, b < s.sb.size → s'.bit b = s.bit b) (hR : ∀ r, R' r = R r) : Owns s' R' where
  layout := hsb ▸ h.layout
  exact := by
    rw [hsb]
    exact h.exact.congr (fun b hb => hbit b hb.2) hR
  reserved b hb := by
    rw [hsb] at hb
    have hsize : b < s.sb.size := Nat.lt_of_lt_of_le hb (Nat.sub_le _ _)
    rw [hbit b hsize]
    exact h.reserved b hb

lemma Owns.data_of_free {s : State} {R : Ref → Nat} (h : Owns s R)
    (hb : b < s.sb.size) (hfree : s.bit b = false) : s.sb.Data b := by
  refine ⟨Nat.le_of_not_lt fun hlt => ?_, hb⟩
  rw [h.reserved b hlt] at hfree
  cases hfree

/-! ### The allocator -/

/-- What a change of the free map alone leaves as it is. -/
structure MapOnly (s s' : State) : Prop where
  sb : s'.sb = s.sb
  me : s'.me = s.me
  itable : s'.itable = s.itable
  dinode : ∀ n, n < s.sb.ninodes → s'.dinode n = s.dinode n

/-- Block `b` has been allocated. -/
structure Allocated (s s' : State) (b : Nat) : Prop extends MapOnly s s' where
  data : s.sb.Data b
  free : s.bit b = false
  bit : ∀ c, c < s.sb.size → s'.bit c = update s.bit b true c
  zero : s'.blocks b = fun _ => 0
  same : ∀ x, s.sb.Data x → x ≠ b → s'.blocks x = s.blocks x

/-- Block `b` has been freed. -/
structure Freed (s s' : State) (b : Nat) : Prop extends MapOnly s s' where
  bit : ∀ c, c < s.sb.size → s'.bit c = update s.bit b false c
  same : ∀ x, s.sb.Data x → s'.blocks x = s.blocks x

variable {E : Stop → Prop} {s s' : State} {R : Ref → Nat}

lemma Owns.take (h : Owns s R) (ha : Allocated s s' b) (hr : R r = 0) : Owns s' (update R r b) where
  layout := ha.sb ▸ h.layout
  exact := by
    rw [ha.sb]
    exact (h.exact.take ha.data ha.free hr).congr (fun c hc => ha.bit c hc.2) fun _ => rfl
  reserved c hc := by
    rw [ha.sb] at hc
    have hne : c ≠ b := fun e => absurd ha.data.1 (by omega)
    rw [ha.bit c (Nat.lt_of_lt_of_le hc (Nat.sub_le _ _)), update_of_ne hne]
    exact h.reserved c hc

lemma Owns.give (h : Owns s R) (hf : Freed s s' (R r)) (hr : R r ≠ 0) : Owns s' (update R r 0) where
  layout := hf.sb ▸ h.layout
  exact := by
    rw [hf.sb]
    exact (h.exact.give hr).congr (fun c hc => hf.bit c hc.2) fun _ => rfl
  reserved c hc := by
    rw [hf.sb] at hc
    have hne : c ≠ R r := fun e => absurd (h.exact.mem r hr).1 (by omega)
    rw [hf.bit c (Nat.lt_of_lt_of_le hc (Nat.sub_le _ _)), update_of_ne hne]
    exact h.reserved c hc

/-- Block `b` marked in the free map, and zeroed. -/
def State.marked (s : State) (b : Nat) : State :=
  (((s.poke (s.sb.BBLOCK b) fun data => setBit data (b % BPB)).logged (s.sb.BBLOCK b)).poke b fun _ _ => 0).logged b

lemma allocated_marked (h : Owns s R) (hb : b < s.sb.size) (hfree : s.bit b = false) :
    Allocated s (s.marked b) b := by
  have hdata := h.data_of_free hb hfree
  refine ⟨⟨rfl, rfl, rfl, fun n hn => ?_⟩, hdata, hfree, fun c hc => ?_, ?_, fun x hx hne => ?_⟩
  · rw [State.marked, dinode_logged, dinode_poke_of_ne, dinode_logged,
      dinode_poke_of_ne (h.layout.iblock_ne_bblock hn b)]
    exact h.layout.iblock_ne_data hn hdata
  · rw [State.marked, bit_logged, bit_poke_of_ne, bit_logged, bit_poke_setBit]
    exact h.layout.bblock_ne_data hc hdata
  · exact update_self ..
  · have hx' : x ≠ s.sb.BBLOCK b := fun e => h.layout.bblock_ne_data hb hx e.symm
    simp only [State.marked, logged_blocks, poke_blocks, update_of_ne hne, update_of_ne hx']

lemma clearBit_eq_some {b bi : Nat} {data : Block}
    (h : sb.clearBit b data = some bi) : bi < BPB ∧ b + bi < sb.size ∧ bitAt data bi = false := by
  have h1 := mem_range.mp (mem_of_find?_eq_some h)
  have h2 := find?_some h
  simp only [Bool.not_eq_eq_eq_not, Bool.not_true] at h2
  exact ⟨by omega, by omega, h2⟩

lemma clearBit_eq_none {b bi : Nat} {data : Block}
    (h : sb.clearBit b data = none) (h1 : bi < BPB) (h2 : b + bi < sb.size) :
    bitAt data bi = true := by
  have := find?_eq_none.mp h bi (mem_range.mpr (by omega))
  simpa using this

lemma group_add (sb : Superblock) {g bi : Nat} (hbi : bi < BPB) :
    sb.BBLOCK (g * BPB + bi) = sb.BBLOCK (g * BPB) ∧ (g * BPB + bi) % BPB = bi := by
  simp only [Superblock.BBLOCK, BPB, BSIZE] at hbi ⊢
  omega

lemma mem_groups (hb : b < sb.size) : b / BPB * BPB ∈ sb.groups := by
  refine mem_map.mpr ⟨b / BPB, mem_range.mpr ?_, rfl⟩
  simp only [BPB, BSIZE]
  omega

/-- **The search of the allocator**, in any free map: it marks a free block and zeroes it, or there is none. -/
lemma balloc_marks : wp balloc (fun b s' => (b = 0 ∧ s' = s ∧ ∀ c, c < s.sb.size → s.bit c = true) ∨
      (b < s.sb.size ∧ s.bit b = false ∧ s' = s.marked b)) E s := by
  simp only [balloc, wp_bind, wp_reads]
  -- the groups already seen have no clear bit
  refine wp_search (fun gs s' => s' = s ∧ (∃ pre, s.sb.groups = pre ++ gs) ∧
    ∀ b, b < s.sb.size → s.bit b = false → b / BPB * BPB ∈ gs)
    ⟨rfl, ⟨[], rfl⟩, fun b hb _ => mem_groups hb⟩ ?_ ?_
  · rintro g gs t ⟨rfl, ⟨pre, hpre⟩, hleft⟩
    obtain ⟨k, -, rfl⟩ := mem_map.mp (hpre ▸ mem_append_right pre mem_cons_self : g ∈ t.sb.groups)
    rw [wp_bind, wp_bread]
    cases hc : t.sb.clearBit (k * BPB) (t.blocks (t.sb.BBLOCK (k * BPB))) with
    | some bi =>
      obtain ⟨h1, h2, h3⟩ := clearBit_eq_some hc
      obtain ⟨hg, hm⟩ := group_add t.sb (g := k) h1
      have hfree : t.bit (k * BPB + bi) = false := by rw [State.bit, hg, hm]; exact h3
      simp only [bzero, wp_bind, wp_poke, wp_logWrite, wp_pure, Option.getD_some]
      refine .inr ⟨h2, hfree, ?_⟩
      rw [State.marked, hg, hm]
    | none =>
      refine ⟨rfl, ⟨pre ++ [k * BPB], by rw [hpre, append_assoc]; rfl⟩, fun b hb hf => ?_⟩
      rcases mem_cons.mp (hleft b hb hf) with hk | hin
      · have hmod := Nat.mod_lt b (show BPB > 0 by decide)
        have hb' : k * BPB + b % BPB = b := by rw [← hk, Nat.div_add_mod']
        have := clearBit_eq_none hc hmod (by rwa [hb'])
        rw [State.bit, ← hb', (group_add t.sb hmod).1, (group_add t.sb hmod).2, this] at hf
        cases hf
      · exact hin
  · rintro t ⟨rfl, -, hleft⟩
    refine .inl ⟨rfl, rfl, fun b hb => ?_⟩
    cases hbit : t.bit b with
    | true => rfl
    | false => exact absurd (hleft b hb hbit) not_mem_nil

/-- **The allocator.**  It returns a free block, marked and zeroed, or `0` when every block is in
use. -/
lemma balloc_spec (h : Owns s R) :
    wp balloc (fun b s' => (b = 0 ∧ s' = s ∧ s.Full) ∨ (b ≠ 0 ∧ Allocated s s' b)) E s := by
  refine balloc_marks.post fun b s' hs => ?_
  rcases hs with ⟨rfl, rfl, hall⟩ | ⟨hb, hfree, rfl⟩
  · exact .inl ⟨rfl, rfl, fun c hc => hall c hc.2⟩
  · have ha := allocated_marked h hb hfree
    exact .inr ⟨fun e => h.layout.not_data_zero (e ▸ ha.data), ha⟩

/-- **Freeing** a marked block does not stop. -/
lemma bfree_spec (hl : s.sb.Layout) (hb : s.sb.Data b) (hbit : s.bit b = true) :
    wp (bfree b) (fun _ s' => Freed s s' b) E s := by
  simp only [bfree, wp_bind, wp_reads, wp_bread]
  refine wp_ite (fun hfree => ?_) fun _ => ?_
  · rw [State.bit, hfree] at hbit
    cases hbit
  · simp only [wp_bind, wp_poke, wp_logWrite]
    refine ⟨⟨rfl, rfl, rfl, fun n hn => ?_⟩, fun c _ => ?_, fun x hx => ?_⟩
    · rw [dinode_logged, dinode_poke_of_ne (hl.iblock_ne_bblock hn b)]
    · rw [bit_logged, bit_poke_clearBit]
    · exact update_of_ne (fun e => hl.bblock_ne_data hb.2 hx e.symm) ..

end FypOs.Fs
