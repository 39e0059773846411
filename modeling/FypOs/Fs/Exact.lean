import FypOs.Fs.Entries

/-!
# Fs — block ownership is exact

Every call that allocates or frees blocks, writing, truncating, changing a directory or dropping the
last reference to an inode, leads from consistent states to consistent states, whatever it is asked
for and wherever it fails, and never frees a free block.  Reading does so where no block of the file
is missing: `bmap` allocates one that is, and `readi` does not write the inode back.
-/

namespace FypOs.Fs

open Lib

/-- The calls on an in-memory inode that may allocate or free blocks. -/
inductive Call where
  | readi (i : Fin NINODE) (dst : Nat → Bool) (off n : UInt32)
  | writei (i : Fin NINODE) (src : Nat → Option UInt8) (off n : UInt32)
  | dirlink (i : Fin NINODE) (name : Name) (inum : Nat)
  | dirunlink (i : Fin NINODE) (name : Name)
  | itrunc (i : Fin NINODE)
  | iput (i : Fin NINODE)

namespace Call

/-- Make the call; the state it leaves. -/
def run (s : State) : Call → Outcome State
  | readi i dst off n => (Fs.readi i dst off n s).map Prod.snd
  | writei i src off n => (Fs.writei i src off n s).map Prod.snd
  | dirlink i name inum => (Fs.dirlink i name inum s).map Prod.snd
  | dirunlink i name => (Fs.dirunlink i name s).map Prod.snd
  | itrunc i => (Fs.itrunc i s).map Prod.snd
  | iput i => (Fs.iput i s).map Prod.snd

/-- The entry the call is about. -/
def entry : Call → Fin NINODE
  | readi i .. | writei i .. | dirlink i .. | dirunlink i .. | itrunc i | iput i => i

/-- What the caller has to have done: it holds a reference, and has read the inode in by locking
it. -/
def Allowed (s : State) : Call → Prop
  | iput i => 0 < (s.itable i).ref
  | c => Held s c.entry

/-- The call reads the file. -/
def Reads : Call → Prop
  | readi .. | dirlink .. | dirunlink .. => True
  | _ => False

end Call

/-- A program whose runs lead to consistent states and do not free a free block. -/
lemma exact_of_wp {α : Type} {m : FsM α} {s : State}
    (h : Prog.wp m (fun _ s' => Consistent s') (fun e => e ≠ .panic "freeing free block") s) :
    (∀ s', (m s).map Prod.snd = .ok s' → Consistent s') ∧ (m s).map Prod.snd ≠ .panic "freeing free block" := by
  refine ⟨fun s' hs => ?_, fun hp => h.panic (Outcome.map_eq_panic hp) rfl⟩
  obtain ⟨r, hr, rfl⟩ := Outcome.map_eq_ok hs
  exact h.ok hr

/-- **Block ownership is exact.**  From every consistent state, a call leads to a consistent state,
and `bfree` never finds its block free; the calls that read need a file without holes. -/
theorem block_ownership (s : State) (c : Call) (h : Consistent s) (hc : c.Allowed s)
    (hh : c.Reads → HoleFree s (s.itable c.entry).inum) :
    (∀ s', c.run s = .ok s' → Consistent s') ∧ c.run s ≠ .panic "freeing free block" := by
  cases c with
  | readi i dst off n =>
    refine exact_of_wp ((readi_spec h hc (fun k hk => ?_) off n).post fun _ s' hs => hs.1 ▸ h)
    exact (hh trivial).byte ((h.synced i hc).2 ▸ hk)
  | writei i src off n =>
    refine exact_of_wp ((writei_spec h hc src off n).post fun _ s' hs => ?_)
    rcases hs with ⟨-, rfl, -⟩ | ⟨-, tot, p, -, hw⟩
    · exact h
    · exact hw.consistent
  | dirlink i name inum =>
    refine exact_of_wp ((dirlink_spec h hc (hh trivial) name inum (.inr (by decide))
      (fun _ => .inr (by decide)) (by decide)).post fun _ s' hs => ?_)
    · rcases hs.2 with ⟨-, hq⟩ | ⟨-, k, tot, -, hw, -⟩
      · exact hq.consistent
      · exact hw.written.consistent
  | dirunlink i name =>
    refine exact_of_wp ((dirunlink_spec h hc (hh trivial) name (.inr (by decide))).post
      fun _ s' hs => ?_)
    · rcases hs with ⟨-, rfl, -⟩ | ⟨k, -, -, -, -, hw⟩
      · exact h
      · exact hw.written.consistent
  | itrunc i => exact exact_of_wp ((itrunc_spec h hc).post fun _ s' hs => hs.1)
  | iput i => exact exact_of_wp ((iput_spec h hc nofun).post fun _ s' hs => hs.consistent)

/-! ### A small disk -/

/-- An inode without blocks. -/
def sampleInode (type : Int16) (size : UInt32) : Dinode :=
  { Dinode.blank type with nlink := 1, size := size }

def sampleSb : Superblock where
  size := 6
  nblocks := 2
  ninodes := 2
  inodestart := 2
  bmapstart := 3

lemma sampleSb_layout : sampleSb.Layout :=
  ⟨by decide, by decide, by decide, by decide, by decide, by decide⟩

/-- A disk with two data blocks, both free, and one inode, without blocks, which the first entry of
the table is a copy of. -/
def sample (type : Int16) (size : UInt32) : State where
  sb := sampleSb
  blocks := Function.update (Function.update (fun _ _ => 0) 3 (putLE 1 0 15 fun _ => 0)) 2
    (putDinode (fun _ => 0) 1 (sampleInode type size))
  writes := []
  itable i := if i = 0 then ⟨ROOTDEV, 1, 1, some 1, true, sampleInode type size⟩
    else ⟨0, 0, 0, none, false, .blank 0⟩
  me := ⟨1, 0⟩

section Sample

variable {type : Int16} {size : UInt32}

lemma sample_dinode (type : Int16) (size : UInt32) : (sample type size).dinode 1 = sampleInode type size := by
  rw [State.dinode]
  exact getDinode_putDinode_self ..

/-- An inode without addresses names no block. -/
lemma slot_eq_zero {blocks : Nat → Block} {d : Dinode} (hd : ∀ k, d.addrs k = 0) (c : Slot) :
    slot blocks d c = 0 := by
  cases c with
  | addr k => rw [slot, hd]; rfl
  | entry j => exact slot_entry_of_ind (by rw [Dinode.ind, hd]; rfl)

lemma disk_eq_zero {s : State} (hn : s.sb.ninodes = 2) (hd : ∀ k, (s.dinode 1).addrs k = 0)
    (r : Ref) : s.disk r = 0 := by
  obtain ⟨n, c⟩ := r
  rw [State.disk, State.refs]
  split
  · rename_i hl
    obtain ⟨h1, h2, -⟩ := hl
    have : n = 1 := by simp only [hn] at h2; omega
    rw [this, slot_eq_zero hd]
  · rfl

lemma sample_bit {b : Nat} (hb : b < 6) : (sample type size).bit b = decide (b < 4) := by
  have hblock : (sample type size).sb.BBLOCK b = 3 := by
    have : b / 8192 = 0 := by omega
    rw [Superblock.BBLOCK, BPB, BSIZE, this]
    rfl
  have hbits : ∀ b, b < 6 → bitAt (putLE 1 0 15 fun _ => 0) (b % BPB) = decide (b < 4) := by decide
  rw [State.bit, hblock]
  exact hbits b hb

lemma sample_consistent (htype : type ≠ 0) : Consistent (sample type size) := by
  have hdisk := disk_eq_zero (s := sample type size) rfl fun k => by rw [sample_dinode]; rfl
  have hheld (i) (h : 0 < ((sample type size).itable i).ref) : i = 0 := by
    by_contra hne
    simp only [sample, if_neg hne] at h
    exact absurd h (by decide)
  refine ⟨⟨sampleSb_layout, ⟨fun b hb => ?_, fun r _ _ h0 => absurd (hdisk r) h0,
    fun r h0 => absurd (hdisk r) h0, sampleSb_layout.not_data_zero⟩, fun b hb => ?_⟩,
    fun i hi => ?_, fun i j hi hj _ => ?_, fun i hi => ?_⟩
  · have h4 : 4 ≤ b := hb.1
    rw [sample_bit hb.2, decide_eq_true_iff]
    refine ⟨fun hlt => by omega, fun ⟨r, hr⟩ => ?_⟩
    rw [hdisk r] at hr
    omega
  · have h4 : b < 4 := hb
    rw [sample_bit (by omega), decide_eq_true h4]
  · rw [hheld i hi.1]
    exact ⟨⟨Nat.one_pos, sampleSb_layout.root, htype⟩, (sample_dinode type size).symm⟩
  · rw [hheld i hi, hheld j hj]
  · rw [hheld i hi]
    rfl

end Sample

/-- Adding an entry to an empty directory. -/
theorem block_ownership_dirlink : ∃ s', (Call.dirlink 0 dot 1).run (sample T_DIR 0) = .ok s' ∧ Consistent s' := by
  have htest : ((Call.dirlink 0 dot 1).run (sample T_DIR 0)).test (fun _ => true) = true := by
    decide +kernel
  obtain ⟨s', hs, -⟩ := Outcome.of_test htest
  have hheld : Held (sample T_DIR 0) 0 := by decide
  have hfree : HoleFree (sample T_DIR 0) 1 := by
    refine ⟨?_, fun bn hbn => ?_⟩
    · rw [sample_dinode]
      decide
    · rw [sample_dinode] at hbn
      exact absurd hbn (Nat.not_lt_zero _)
  exact ⟨s', hs, (block_ownership _ (.dirlink 0 dot 1) (sample_consistent (by decide)) hheld
    fun _ => hfree).1 s' hs⟩

/-- **Reading a hole leaks a block.**  The state is consistent, and the file of one byte has no block:
reading that byte marks a block that no inode names. -/
theorem readi_hole_inconsistent : Consistent (sample T_FILE 1) ∧ Held (sample T_FILE 1) 0 ∧
      ∃ s', (Call.readi 0 (fun _ => true) 0 1).run (sample T_FILE 1) = .ok s' ∧ ¬ Consistent s' := by
  refine ⟨sample_consistent (by decide), by decide, ?_⟩
  have htest : ((Call.readi 0 (fun _ => true) 0 1).run (sample T_FILE 1)).test (fun s' =>
      s'.sb = sampleSb ∧ (∀ k, (s'.dinode 1).addrs k = 0) ∧ s'.bit 4 = true) = true := by
    decide +kernel
  obtain ⟨s', hs, htest⟩ := Outcome.of_test htest
  obtain ⟨hsb, hd, hbit⟩ := of_decide_eq_true htest
  refine ⟨s', hs, fun hc => ?_⟩
  have hdata : s'.sb.Data 4 := by rw [hsb]; decide
  obtain ⟨r, hr⟩ := (hc.owns.exact.marked_iff 4 hdata).mp hbit
  rw [disk_eq_zero (by rw [hsb]; rfl) hd r] at hr
  cases hr

end FypOs.Fs
