import FypOs.Fs.Entries

/-!
# Fs — sound states

A state is sound when it is consistent, no allocated inode has a hole, and every directory is a
sequence of whole entries that name inodes of the file system.

What a step may do to a state has been said in the modules before; here it is shown, for each of
these relations, that it leads from sound states to sound states.
-/

namespace FypOs.Fs

open Lib

/-- The directory consists of whole entries, which name inodes of the file system. -/
structure DirOk (s : State) (n : Nat) : Prop where
  whole : DIRENTSZ ∣ (s.dinode n).size.toNat
  inum : ∀ off, off % DIRENTSZ = 0 → off < (s.dinode n).size.toNat →
    direntInum (s.entry n off) < s.sb.ninodes

/-- The file has no hole, and is a proper directory if it is one. -/
structure FileOk (s : State) (n : Nat) : Prop extends HoleFree s n where
  dir : (s.dinode n).type = T_DIR → DirOk s n

structure Sound (s : State) : Prop where
  consistent : Consistent s
  files : ∀ n, Live s.sb n (s.dinode n) → FileOk s n
  range : ∀ i, InRange s i

section

variable {s s₁ s' : State} {i j : Fin NINODE} {n : Nat} {src : Nat → Option UInt8}
  {off len tot p : Nat} {de : Block}

/-! ### Files that are as they were -/

lemma Unchanged.entry (h : Unchanged s s' n) (off : Nat) : s'.entry n off = s.entry n off := by
  have hbyte : s'.byte n = s.byte n := funext h.byte
  rw [State.entry, State.entry, State.bytes, State.bytes, hbyte]

lemma Unchanged.fileOk (h : Unchanged s s' n) (hsb : s'.sb = s.sb) (hf : FileOk s n) : FileOk s' n where
  size := by
    rw [h.dinode]
    exact hf.size
  mapped bn hbn := by
    rw [h.dinode] at hbn
    rw [h.block]
    exact hf.mapped bn hbn
  dir ht := by
    rw [h.dinode] at ht
    refine ⟨?_, fun off hmod hlt => ?_⟩
    · rw [h.dinode]
      exact (hf.dir ht).whole
    · rw [h.dinode] at hlt
      rw [h.entry, hsb]
      exact (hf.dir ht).inum off hmod hlt

/-- The inodes are as they were, or no longer allocated, or proper files. -/
lemma Sound.of_files (h : Sound s) (hc : Consistent s') (hsb : s'.sb = s.sb)
    (hfiles : ∀ n, n < s.sb.ninodes → Unchanged s s' n ∨ (Live s'.sb n (s'.dinode n) → FileOk s' n))
    (hrange : ∀ i, InRange s' i) : Sound s' where
  consistent := hc
  range := hrange
  files n hl := by
    have hn : n < s.sb.ninodes := hsb ▸ hl.2.1
    rcases hfiles n hn with hu | hf
    · refine hu.fileOk hsb (h.files n ?_)
      rw [← hsb, ← hu.dinode]
      exact hl
    · exact hf hl

lemma Sound.sched (h : Sound s) (p : Proc) : Sound { s with me := p } :=
  h.of_files (h.consistent.sched p) rfl (fun _ _ => .inl ⟨rfl, fun _ => rfl, fun _ => rfl⟩) h.range

lemma InRange.of_eq (h : InRange s i) (hsb : s'.sb = s.sb) (he : s'.itable i = s.itable i) : InRange s' i := by
  rw [InRange, he, hsb]
  exact h

/-! ### The table -/

section

variable (h : Sound s)

include h

lemma Got.sound {inum : Nat} (hg : Got s s' inum j) (hn : 0 < inum ∧ inum < s.sb.ninodes) : Sound s' := by
  refine h.of_files hg.consistent hg.sb (fun n _ => .inl (.of_blocks hg.sb hg.blocks n)) fun k => ?_
  by_cases hk : k = j
  · subst hk
    intro _
    rw [hg.inum, hg.sb]
    exact hn
  · exact (h.range k).of_eq hg.sb (hg.others k hk)

lemma Locked.sound (hl : Locked s s' i) : Sound s' := by
  refine h.of_files hl.consistent hl.sb (fun n _ => .inl (.of_blocks hl.sb hl.blocks n)) fun k => ?_
  by_cases hk : k = i
  · subst hk
    intro _
    rw [hl.inum, hl.sb]
    exact h.range k hl.ref_pos
  · exact (h.range k).of_eq hl.sb (hl.others k hk)

lemma Put.sound (hr : 0 < (s.itable i).ref) (hp : Put s s' i) : Sound s' := by
  refine h.of_files hp.consistent hp.sb (fun n hn => ?_) fun k => ?_
  · exact (hp.files n hn).imp_right fun hd hl => absurd hl hd.2.2
  · by_cases hk : k = i
    · subst hk
      intro _
      rw [hp.inum, hp.sb]
      exact h.range k hr
    · exact (h.range k).of_eq hp.sb (hp.others k hk)

lemma Quiet.sound (hq : Quiet s s') : Sound s' := by
  refine h.of_files hq.consistent hq.sb (fun n _ => .inl (.of_blocks hq.sb hq.blocks n)) fun k => ?_
  intro hk
  have hpos : 0 < (s.itable k).ref := hq.ref k ▸ hk
  rw [hq.kept k hpos, hq.sb]
  exact h.range k hpos

/-- Dropping the lock of an entry, or adding a reference. -/
lemma Sound.setInode {g : Inode → Inode} (hinum : (g (s.itable i)).inum = (s.itable i).inum)
    (hdev : (g (s.itable i)).dev = (s.itable i).dev) (hd : (g (s.itable i)).d = (s.itable i).d)
    (hvalid : (g (s.itable i)).valid = (s.itable i).valid)
    (href : 0 < (g (s.itable i)).ref → 0 < (s.itable i).ref) : Sound (s.setInode i g) := by
  refine h.of_files (h.consistent.setInode hinum hdev hd hvalid href) rfl
    (fun n _ => .inl (.setInode ..)) fun k => ?_
  by_cases hk : k = i
  · subst hk
    intro hpos
    rw [setInode_itable_self] at hpos ⊢
    rw [hinum]
    exact h.range k (href hpos)
  · exact (h.range k).of_eq rfl (setInode_itable_of_ne hk)

/-! ### Work on an inode -/

/-- Work on one inode leaves the others proper files; it is left to show that it leaves this one
proper. -/
lemma Frame.sound (hi : Held s i) (hf : Frame s s' i) (hc : Consistent s')
    (hfile : FileOk s' (s.itable i).inum) : Sound s' := by
  refine h.of_files hc hf.sb (fun n hn => ?_) fun k => ?_
  · by_cases hne : n = (s.itable i).inum
    · exact .inr fun _ => hne ▸ hfile
    · exact .inl (hf.files n hn hne)
  · by_cases hk : k = i
    · subst hk
      intro _
      rw [hf.inum, hf.sb]
      exact h.range k hi.1
    · exact (h.range k).of_eq hf.sb (hf.others k hk)

end

/-- The inode on disk is then the in-memory copy. -/
lemma Frame.dinode (hi : Held s i) (hf : Frame s s' i) (hc : Consistent s') :
    s'.dinode (s.itable i).inum = (s'.itable i).d := by
  rw [(hc.synced i (hf.held hi)).2, hf.inum]

lemma Sound.fileOk (h : Sound s) (hi : Held s i) : FileOk s (s.itable i).inum := by
  obtain ⟨hl, hd⟩ := h.consistent.synced i hi
  exact h.files _ (by rw [← hd]; exact hl)

lemma fileOk_of_empty (hsize : (s.dinode n).size = 0) : FileOk s n where
  size := by
    rw [hsize]
    exact Nat.zero_le _
  mapped bn hbn := by
    rw [hsize] at hbn
    exact absurd hbn (Nat.not_lt_zero _)
  dir _ := by
    refine ⟨?_, fun off _ hlt => ?_⟩
    · rw [hsize]
      exact Nat.dvd_zero _
    · rw [hsize] at hlt
      exact absurd hlt (Nat.not_lt_zero _)

lemma Fresh.sound (h : Sound s) {type : Int16} (hf : Fresh s s' type n j) : Sound s' := by
  refine h.of_files hf.consistent hf.sb (fun m hm => ?_) fun k => ?_
  · by_cases hmn : m = n
    · exact .inr fun _ => fileOk_of_empty (by rw [hmn, hf.dinode]; rfl)
    · exact .inl (hf.files m hm hmn)
  · by_cases hk : k = j
    · subst hk
      intro _
      rw [hf.inum, hf.sb]
      exact hf.range
    · exact (h.range k).of_eq hf.sb (hf.others k hk)

/-- Writing leaves no hole: what is new of the file has been mapped. -/
lemma Written.holeFree (hi : Held s i)
    (hc : Consistent s) (hh : HoleFree s (s.itable i).inum) (hw : Written s s' i src off len tot p)
    (hoff : off ≤ (s.itable i).d.size.toNat) (hmax : off + len ≤ MAXFILE * BSIZE) :
    HoleFree s' (s.itable i).inum := by
  obtain ⟨a, size, hd, hsize⟩ := hw.inode
  have hdin : (s'.dinode (s.itable i).inum).size = size := by
    rw [hw.frame.dinode hi hw.consistent, hd]
  have hold := hh.size
  rw [← (hc.synced i hi).2] at hold
  have hle := hw.le
  refine ⟨?_, fun bn hbn => ?_⟩
  · rw [hdin, hsize]
    omega
  · rw [hdin, hsize] at hbn
    by_cases hb : bn * BSIZE < (s.itable i).d.size.toNat
    · refine hw.mono bn (hh.mapped bn ?_)
      rw [← (hc.synced i hi).2]
      exact hb
    · have := hw.mapped (bn * BSIZE) (by omega) (by omega)
      rwa [Nat.mul_div_cancel _ (by decide)] at this

lemma Written.sound (h : Sound s) (hi : Held s i)
    (hw : Written s s' i src off len tot p) (hoff : off ≤ (s.itable i).d.size.toNat)
    (hmax : off + len ≤ MAXFILE * BSIZE) (hdir : (s.itable i).d.type ≠ T_DIR) : Sound s' := by
  obtain ⟨a, size, hd, -⟩ := hw.inode
  refine hw.frame.sound h hi hw.consistent
    ⟨hw.holeFree hi h.consistent (h.fileOk hi).toHoleFree hoff hmax, fun ht => absurd ?_ hdir⟩
  rwa [hw.frame.dinode hi hw.consistent, hd] at ht

/-! ### Directories -/

/-- The entry of a directory that has been written, and the others. -/
lemma EntryWritten.entry {off tot off' : Nat} (he : EntryWritten s s' i de off tot)
    (hmod : off' % DIRENTSZ = 0) {j : Nat} (hj : j < DIRENTSZ) :
    s'.entry (s.itable i).inum off' j =
      if off' = off ∧ tot = DIRENTSZ then de j else s.entry (s.itable i).inum off' j := by
  have hoff := he.aligned
  have htot : tot = DIRENTSZ ∨ tot = 0 := he.whole.imp_right And.left
  rw [entry_apply _ _ _ hj, entry_apply _ _ _ hj, he.written.byte]
  have hD : DIRENTSZ = 16 := rfl
  rw [hD] at hmod hoff
  by_cases heq : off' = off ∧ tot = DIRENTSZ
  · rw [if_pos heq, if_pos (by omega), heq.1, Nat.add_sub_cancel_left]
    rfl
  · rw [if_neg heq, if_neg (by omega)]

lemma EntryWritten.dirOk {off tot : Nat} (hi : Held s i) (hc : Consistent s)
    (hd : DirOk s (s.itable i).inum) (he : EntryWritten s s' i de off tot)
    (hde : direntInum de < s.sb.ninodes) : DirOk s' (s.itable i).inum := by
  obtain ⟨a, size, hd', hsize⟩ := he.written.inode
  have hdin : (s'.dinode (s.itable i).inum).size = size := by
    rw [he.written.frame.dinode hi he.written.consistent, hd']
  have hold : (s.dinode (s.itable i).inum).size = (s.itable i).d.size := by rw [(hc.synced i hi).2]
  have hwhole := hd.whole
  have hle := he.le
  have haligned := he.aligned
  have htot : tot = DIRENTSZ ∨ tot = 0 := he.whole.imp_right And.left
  rw [hold] at hwhole
  refine ⟨?_, fun off' hmod hlt => ?_⟩
  · rw [hdin, hsize]
    simp only [DIRENTSZ] at hwhole haligned htot ⊢
    omega
  · rw [hdin, hsize] at hlt
    by_cases heq : off' = off ∧ tot = DIRENTSZ
    · -- the new entry
      have : direntInum (s'.entry (s.itable i).inum off') = direntInum de :=
        getLE_congr fun j _ hj => by
          rw [he.entry hmod (by simp only [DIRENTSZ]; omega), if_pos heq]
      rw [this, he.written.frame.sb]
      exact hde
    · have : direntInum (s'.entry (s.itable i).inum off') = direntInum (s.entry (s.itable i).inum off') :=
        getLE_congr fun j _ hj => by
          rw [he.entry hmod (by simp only [DIRENTSZ]; omega), if_neg heq]
      rw [this, he.written.frame.sb]
      refine hd.inum off' hmod ?_
      rw [hold]
      simp only [DIRENTSZ] at hmod hwhole haligned htot heq
      omega

lemma EntryWritten.sound {off tot : Nat} (h : Sound s) (hi : Held s i)
    (he : EntryWritten s s' i de off tot) (hde : direntInum de < s.sb.ninodes) : Sound s' := by
  obtain ⟨a, size, hd, -⟩ := he.written.inode
  have hok := h.fileOk hi
  refine he.written.frame.sound h hi he.written.consistent
    ⟨he.written.holeFree hi h.consistent hok.toHoleFree he.le he.max, fun ht => ?_⟩
  rw [he.written.frame.dinode hi he.written.consistent, hd] at ht
  refine he.dirOk hi h.consistent (hok.dir ?_) hde
  rwa [← (h.consistent.synced i hi).2]

/-- The entry `dirlink` writes names the inode, or one before it if the number does not fit. -/
lemma direntInum_mkDirent_le (name : Name) (inum : Nat) : direntInum (mkDirent name inum) ≤ inum := by
  rw [direntInum, mkDirent, getLE_putLE]
  exact Nat.mod_le _ _

lemma direntInum_clear (de : Block) : direntInum (putLE 2 0 0 de) = 0 := by
  rw [direntInum, getLE_putLE]
  rfl

end

end FypOs.Fs
