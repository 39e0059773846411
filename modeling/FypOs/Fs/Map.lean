import FypOs.Fs.Own

/-!
# Fs — the blocks of a file

Code that works on an inode changes its in-memory copy first and writes it to disk, by `iupdate`,
later.  In between, the references that count are those of the in-memory copy, `State.own`.
-/

namespace FypOs.Fs

open Lib Prog Function Fin

/-! ### The view of code at work on an inode -/

namespace State

/-- The inodes, with the in-memory copy of entry `i` in place of the one on disk. -/
def view (s : State) (i : Fin NINODE) : Nat → Dinode :=
  update s.dinode (s.itable i).inum (s.itable i).d

/-- The references, with those of the in-memory copy of entry `i`. -/
def own (s : State) (i : Fin NINODE) : Ref → Nat := s.refs (s.view i)

end State

lemma view_self (s : State) (i : Fin NINODE) : s.view i (s.itable i).inum = (s.itable i).d :=
  update_self ..

variable {R : Ref → Nat} {s : State} {i : Fin NINODE} {n bn : Nat} {k : Slot}

lemma view_of_ne {n : Nat} (h : n ≠ (s.itable i).inum) : s.view i n = s.dinode n := update_of_ne h ..

/-- The inode of entry `i` is one of the file system's and allocated. -/
def State.LiveAt (s : State) (i : Fin NINODE) : Prop :=
  Live s.sb (s.itable i).inum (s.itable i).d

lemma own_self (h : s.LiveAt i) (k : Slot) :
    s.own i ((s.itable i).inum, k) = slot s.blocks (s.itable i).d k := by
  have hview := view_self s i
  rw [State.own, refs_of_live (by rw [hview]; exact h), hview]

/-- Work on entry `i` has changed addresses in its in-memory copy, and data blocks and the free map
on disk. -/
structure Work (s s' : State) (i : Fin NINODE) : Prop where
  sb : s'.sb = s.sb
  me : s'.me = s.me
  others : ∀ j, j ≠ i → s'.itable j = s.itable j
  entry : ∃ a, s'.itable i = { s.itable i with d := { (s.itable i).d with addrs := a } }
  dinode : ∀ n, n < s.sb.ninodes → s'.dinode n = s.dinode n

namespace Work

variable {s s₁ s₂ s' : State} {i : Fin NINODE}

lemma refl (s : State) (i : Fin NINODE) : Work s s i :=
  ⟨rfl, rfl, fun _ _ => rfl, ⟨_, rfl⟩, fun _ _ => rfl⟩

lemma trans (h1 : Work s s₁ i) (h2 : Work s₁ s₂ i) : Work s s₂ i where
  sb := h2.sb.trans h1.sb
  me := h2.me.trans h1.me
  others j hj := (h2.others j hj).trans (h1.others j hj)
  entry := by
    obtain ⟨a1, e1⟩ := h1.entry
    obtain ⟨a2, e2⟩ := h2.entry
    exact ⟨a2, by rw [e2, e1]⟩
  dinode n hn := (h2.dinode n (h1.sb ▸ hn)).trans (h1.dinode n hn)

section

variable (h : Work s s' i)

include h

lemma inum : (s'.itable i).inum = (s.itable i).inum := by
  obtain ⟨a, e⟩ := h.entry
  rw [e]

lemma size : (s'.itable i).d.size = (s.itable i).d.size := by
  obtain ⟨a, e⟩ := h.entry
  rw [e]

lemma liveAt (hl : s.LiveAt i) : s'.LiveAt i := by
  obtain ⟨a, e⟩ := h.entry
  rw [State.LiveAt, e, h.sb]
  exact hl

lemma view {n : Nat} (hn : n ≠ (s.itable i).inum) (hlt : n < s.sb.ninodes) : s'.view i n = s.view i n := by
  rw [view_of_ne hn, view_of_ne (h.inum ▸ hn), h.dinode n hlt]

/-- The other inodes keep their references, when their indirect blocks are left alone. -/
lemma own {n : Nat} (hn : n ≠ (s.itable i).inum) (hind : (s.view i n).ind ≠ 0 → Live s.sb n (s.view i n) →
      s'.blocks (s.view i n).ind = s.blocks (s.view i n).ind) (k : Slot) :
    s'.own i (n, k) = s.own i (n, k) :=
  refs_congr h.sb (fun _ hlt => h.view hn hlt) (fun hl h0 => hind h0 hl) k

end

end Work

lemma MapOnly.work {s s' : State} (h : MapOnly s s') (i : Fin NINODE) : Work s s' i :=
  ⟨h.sb, h.me, fun j _ => by rw [h.itable], ⟨(s.itable i).d.addrs, by rw [h.itable]⟩, h.dinode⟩

lemma work_setAddr (s : State) (i : Fin NINODE) (k : Fin (NDIRECT + 1)) (b : Nat) :
    Work s (s.setAddr i k b) i where
  sb := rfl
  me := rfl
  others _ hj := setInode_itable_of_ne hj
  entry := ⟨_, setInode_itable_self⟩
  dinode _ _ := rfl

lemma setAddr_addrs (s : State) (i : Fin NINODE) (k : Fin (NDIRECT + 1)) (b : Nat) :
    ((s.setAddr i k b).itable i).d.addrs = update (s.itable i).d.addrs k (UInt32.ofNat b) := by
  rw [State.setAddr, setInode_itable_self]

lemma Work.logged {s s' : State} (h : Work s s' i) (b : Nat) :
    Work s (s'.logged b) i := ⟨h.sb, h.me, h.others, h.entry, h.dinode⟩

lemma Owns.logged (h : Owns s R) (b : Nat) : Owns (s.logged b) R :=
  ⟨h.layout, h.exact, h.reserved⟩

lemma Owns.setInode (h : Owns s R) (i : Fin NINODE) (g : Inode → Inode) : Owns (s.setInode i g) R :=
  h.congr rfl (fun _ _ => rfl) fun _ => rfl

/-- The indirect block of an inode is in the slot of its address. -/
lemma own_ind {n : Nat} (hl : Live s.sb n (s.view i n)) :
    s.own i (n, .addr (last NDIRECT)) = (s.view i n).ind := by
  rw [State.own, refs_of_live hl]
  rfl

lemma own_ind_self (hl : s.LiveAt i) :
    s.own i ((s.itable i).inum, .addr (last NDIRECT)) = (s.itable i).d.ind := own_self hl _

/-! ### Blocks and bytes of a file -/

/-- The slot of block `bn` of a file. -/
def fileSlot (bn : Nat) : Option Slot :=
  if h : bn < NDIRECT then some (.addr (Fin.castSucc ⟨bn, h⟩))
  else if h : bn - NDIRECT < NINDIRECT then some (.entry ⟨bn - NDIRECT, h⟩)
  else none

lemma fileSlot_inj {bn bn' : Nat} (h : fileSlot bn = some k) (h' : fileSlot bn' = some k) : bn = bn' := by
  simp only [fileSlot] at h h'
  split at h <;> split at h'
  · cases h; simpa using h'.symm
  · cases h
    split at h' <;> cases h'
  · cases h'
    split at h <;> cases h
  · split at h <;> split at h'
    · have e := Slot.entry.inj ((Option.some.inj h).trans (Option.some.inj h').symm)
      have := congrArg val e
      dsimp only at this
      omega
    · cases h'
    · cases h
    · cases h

/-- The address of the indirect block is not the slot of a block of the file. -/
lemma fileSlot_ne_last (bn : Nat) : fileSlot bn ≠ some (.addr (last NDIRECT)) := by
  intro h
  simp only [fileSlot] at h
  split at h
  · have := congrArg val (Slot.addr.inj (Option.some.inj h))
    simp only [val_castSucc, val_last] at this
    omega
  · split at h <;> cases h

/-- The disk block with block `bn` of file `n`; `0` if there is none. -/
def fileBlock (R : Ref → Nat) (n bn : Nat) : Nat :=
  match fileSlot bn with
  | some k => R (n, k)
  | none => 0

/-- Byte `k` of file `n`; a missing block is read as zeros. -/
def fileByte (blocks : Nat → Block) (R : Ref → Nat) (n k : Nat) : UInt8 :=
  if fileBlock R n (k / BSIZE) = 0 then 0 else blocks (fileBlock R n (k / BSIZE)) (k % BSIZE)

lemma fileBlock_of_slot (h : fileSlot bn = some k) : fileBlock R n bn = R (n, k) := by rw [fileBlock, h]

lemma fileBlock_ne_zero (h : fileBlock R n bn ≠ 0) : ∃ k, fileSlot bn = some k ∧ R (n, k) ≠ 0 := by
  rw [fileBlock] at h
  split at h
  · exact ⟨_, ‹_›, h⟩
  · exact absurd rfl h

/-- Two blocks of files are different blocks of the disk. -/
lemma Owns.fileBlock_inj (h : Owns s R) {n m bn bn' : Nat}
    (h0 : fileBlock R n bn ≠ 0) (e : fileBlock R m bn' = fileBlock R n bn) : m = n ∧ bn' = bn := by
  obtain ⟨k, hk, hR⟩ := fileBlock_ne_zero h0
  obtain ⟨k', hk', hR'⟩ := fileBlock_ne_zero (e ▸ h0)
  rw [fileBlock_of_slot hk, fileBlock_of_slot hk'] at e
  obtain ⟨rfl, rfl⟩ := Prod.mk.inj (h.exact.unique _ _ e hR')
  exact ⟨rfl, fileSlot_inj hk' hk⟩

lemma Owns.data_fileBlock (h : Owns s R) (h0 : fileBlock R n bn ≠ 0) : s.sb.Data (fileBlock R n bn) := by
  obtain ⟨k, hk, hR⟩ := fileBlock_ne_zero h0
  rw [fileBlock_of_slot hk]
  exact h.exact.mem _ hR

/-- The files have the blocks they had, with the same data; new ones are of file `n` and zero. -/
def Grown (n : Nat) (s s' : State) (R R' : Ref → Nat) : Prop :=
  ∀ m bn, (fileBlock R' m bn = fileBlock R m bn ∧
      (fileBlock R m bn ≠ 0 → s'.blocks (fileBlock R m bn) = s.blocks (fileBlock R m bn))) ∨
    (m = n ∧ fileBlock R m bn = 0 ∧ fileBlock R' m bn ≠ 0 ∧
      s'.blocks (fileBlock R' m bn) = fun _ => 0)

namespace Grown

variable {n : Nat} {s s₁ s₂ s' : State} {R R₁ R₂ R' : Ref → Nat}

lemma refl (n : Nat) (s : State) (R : Ref → Nat) : Grown n s s R R :=
  fun _ _ => .inl ⟨rfl, fun _ => rfl⟩

lemma trans (h1 : Grown n s s₁ R R₁) (h2 : Grown n s₁ s₂ R₁ R₂) : Grown n s s₂ R R₂ := by
  intro m bn
  rcases h1 m bn with ⟨e1, b1⟩ | ⟨hm, z1, nz1, b1⟩ <;>
    rcases h2 m bn with ⟨e2, b2⟩ | ⟨hm', z2, nz2, b2⟩
  · refine .inl ⟨e2.trans e1, fun h => ?_⟩
    rw [e1] at b2
    exact (b2 h).trans (b1 h)
  · exact .inr ⟨hm', e1 ▸ z2, nz2, b2⟩
  · rw [← e2] at nz1 b1
    exact .inr ⟨hm, z1, nz1, by rw [e2] at nz1 b1 ⊢; exact (b2 nz1).trans b1⟩
  · exact absurd z2 nz1

/-- **No byte of any file changes.** -/
lemma fileByte (h : Grown n s s' R R') (m k : Nat) : fileByte s'.blocks R' m k = fileByte s.blocks R m k := by
  simp only [Fs.fileByte]
  rcases h m (k / BSIZE) with ⟨e, hb⟩ | ⟨-, z, nz, hb⟩
  · rw [e]
    split
    · rfl
    · rw [hb ‹_›]
  · rw [if_pos z, if_neg nz, hb]

lemma fileBlock (h : Grown n s s' R R') {m bn : Nat} (h0 : fileBlock R m bn ≠ 0) :
    fileBlock R' m bn = Fs.fileBlock R m bn := by
  rcases h m bn with ⟨e, -⟩ | ⟨-, z, -⟩
  · exact e
  · exact absurd z h0

lemma other (h : Grown n s s' R R') {m : Nat} (hm : m ≠ n) (bn : Nat) :
    Fs.fileBlock R' m bn = Fs.fileBlock R m bn := by
  rcases h m bn with ⟨e, -⟩ | ⟨e, -⟩
  · exact e
  · exact absurd e hm

end Grown

lemma grown_take {s s' : State} {n b : Nat} (hr : R (n, k) = 0) (hb : b ≠ 0) (hzero : s'.blocks b = fun _ => 0)
    (hsame : ∀ m bn, fileBlock R m bn ≠ 0 → s'.blocks (fileBlock R m bn) = s.blocks (fileBlock R m bn)) :
    Grown n s s' R (update R (n, k) b) := by
  intro m bn
  rcases hk : fileSlot bn with _ | k'
  · exact .inl ⟨by simp only [fileBlock, hk], hsame m bn⟩
  · by_cases he : (m, k') = (n, k)
    · obtain ⟨rfl, rfl⟩ := Prod.mk.inj he
      simp only [fileBlock_of_slot hk, update_self]
      exact .inr ⟨trivial, hr, hb, hzero⟩
    · refine .inl ⟨?_, hsame m bn⟩
      simp only [fileBlock_of_slot hk, update_of_ne he]

/-! ### Mapping a block -/

section Bmap

variable {E : Stop → Prop} {s s' : State} {i : Fin NINODE} {b : Nat}

/-- The blocks of files are not touched by allocating another one. -/
lemma Allocated.same_of_ref {R : Ref → Nat} (ha : Allocated s s' b) (h : Owns s R) {r : Ref}
    (hr : R r ≠ 0) : s'.blocks (R r) = s.blocks (R r) :=
  ha.same _ (h.exact.mem r hr) (h.exact.ne_of_not_marked ha.data ha.free r)

lemma Allocated.ne_zero {R : Ref → Nat} (ha : Allocated s s' b) (h : Owns s R) : b ≠ 0 :=
  fun e => h.layout.not_data_zero (e ▸ ha.data)

lemma toNat_ofNat_of_data (hl : s.sb.Layout) (hb : s.sb.Data b) : (UInt32.ofNat b).toNat = b :=
  UInt32.toNat_ofNat_of_lt' (hl.lt_two_pow hb.2)

/-- A slot of the inode of entry `i` has been mapped: what this did to the state, and the block `r`
it returned. -/
structure Mapped (s s' : State) (i : Fin NINODE) (k : Slot) (r : Nat) : Prop where
  work : Work s s' i
  owns : Owns s' (s'.own i)
  grown : Grown (s.itable i).inum s s' (s.own i) (s'.own i)
  result : r = s'.own i ((s.itable i).inum, k)
  full : r = 0 → s'.Full

lemma Mapped.refl (h : Owns s (s.own i)) {k : Slot} {r : Nat}
    (hr : r = s.own i ((s.itable i).inum, k)) (hfull : r = 0 → s.Full) : Mapped s s i k r :=
  ⟨.refl _ _, h, .refl _ _ _, hr, hfull⟩

lemma Mapped.trans {s₁ s₂ : State} {k1 k2 : Slot} {r1 r2 : Nat} (h1 : Mapped s s₁ i k1 r1)
    (h2 : Mapped s₁ s₂ i k2 r2) : Mapped s s₂ i k2 r2 :=
  ⟨h1.work.trans h2.work, h2.owns, h1.grown.trans (h1.work.inum ▸ h2.grown), h1.work.inum ▸ h2.result, h2.full⟩

lemma mapped_take {k : Slot} {s₁ : State} (h : Owns s (s.own i))
    (ha : Allocated s s₁ b) (hw : Work s s' i) (hslot : s.own i ((s.itable i).inum, k) = 0)
    (hown : s'.own i = update (s.own i) ((s.itable i).inum, k) b)
    (howns : Owns s' (s'.own i)) (hzero : s'.blocks b = s₁.blocks b)
    (hsame : ∀ m bn, fileBlock (s.own i) m bn ≠ 0 →
      s'.blocks (fileBlock (s.own i) m bn) = s₁.blocks (fileBlock (s.own i) m bn)) :
    Mapped s s' i k b := by
  refine ⟨hw, howns, ?_, by rw [hown, update_self], fun e => absurd e (ha.ne_zero h)⟩
  rw [hown]
  refine grown_take hslot (ha.ne_zero h) (hzero.trans ha.zero) fun m bn h0 => ?_
  rw [hsame m bn h0]
  obtain ⟨k', hk', hR⟩ := fileBlock_ne_zero h0
  rw [fileBlock_of_slot hk']
  exact ha.same_of_ref h hR

/-- The address `k` of the inode set to an allocated block. -/
lemma own_setAddr (h : Owns s (s.own i)) (hl : s.LiveAt i) {k : Fin (NDIRECT + 1)}
    (hk : (s.itable i).d.addrs k = 0) (ha : Allocated s s' b) :
    (s'.setAddr i k b).own i = update (s.own i) ((s.itable i).inum, .addr k) b := by
  have hw := (ha.work i).trans (work_setAddr s' i k b)
  have haddrs := setAddr_addrs s' i k b
  rw [ha.itable] at haddrs
  funext ⟨n, c⟩
  by_cases hn : n = (s.itable i).inum
  · subst hn
    have hself := own_self (hw.liveAt hl) c
    rw [hw.inum] at hself
    rw [hself]
    cases c with
    | addr k' =>
      by_cases hk' : k' = k
      · rw [hk', update_self, slot, haddrs, update_self, toNat_ofNat_of_data h.layout ha.data]
      · rw [update_of_ne (by simpa using hk'), own_self hl, slot, haddrs, update_of_ne hk']
        rfl
    | entry j =>
      rw [update_of_ne (by simp), own_self hl]
      by_cases hlast : last NDIRECT = k
      · -- a new indirect block is empty
        have hind : ((s'.setAddr i k b).itable i).d.ind = b := by
          rw [Dinode.ind, haddrs, hlast, update_self, toNat_ofNat_of_data h.layout ha.data]
        have hind0 : (s.itable i).d.ind = 0 := by rw [Dinode.ind, hlast, hk]; rfl
        rw [slot_entry_of_ind hind0, slot_entry_of_zero (by rw [hind]; exact ha.zero)]
      · have hind : ((s'.setAddr i k b).itable i).d.ind = (s.itable i).d.ind := by
          rw [Dinode.ind, haddrs, update_of_ne hlast]
          rfl
        refine slot_entry_congr hind fun h0 => ?_
        rw [← own_ind_self hl] at h0 ⊢
        exact ha.same_of_ref h h0
  · rw [update_of_ne fun e => hn (Prod.mk.inj e).1]
    refine hw.own hn (fun h0 hlive => ?_) c
    have hind := own_ind hlive
    rw [← hind] at h0 ⊢
    exact ha.same_of_ref h h0

lemma bmapAddr_spec (h : Owns s (s.own i)) (hl : s.LiveAt i) (k : Fin (NDIRECT + 1)) :
    wp (bmapAddr i k) (fun r s' => Mapped s s' i (.addr k) r) E s := by
  have hslot := own_self hl (.addr k)
  simp only [bmapAddr, wp_bind, wp_inode]
  refine wp_ite (fun hk => ?_) fun hk => ?_
  · have hslot : s.own i ((s.itable i).inum, .addr k) = 0 := by rw [hslot, slot, hk]; rfl
    rw [wp_bind]
    refine (balloc_spec h).post fun b s₁ hb => ?_
    rcases hb with ⟨rfl, rfl, hfull⟩ | ⟨hb, ha⟩
    · exact .refl h hslot.symm fun _ => hfull
    · rw [if_neg hb]
      simp only [wp_bind, wp_setAddr, wp_pure]
      have hown := own_setAddr h hl hk ha
      refine mapped_take h ha ((ha.work i).trans (work_setAddr ..)) hslot hown ?_ rfl fun _ _ _ => rfl
      rw [hown]
      exact (h.take ha hslot).setInode i _
  · exact .refl h hslot.symm fun e => absurd (UInt32.toNat_inj.mp e) hk

/-! ### Writing a data block -/

lemma Owns.poke {R : Ref → Nat} (h : Owns s R) (hb : s.sb.Data b) (f : Block → Block) : Owns (s.poke b f) R :=
  h.congr rfl (fun _ hc => bit_poke_of_ne (h.layout.bblock_ne_data hc hb)) fun _ => rfl

lemma work_poke (hl : s.sb.Layout) (hb : s.sb.Data b) (f : Block → Block) (i : Fin NINODE) :
    Work s (s.poke b f) i :=
  ⟨rfl, rfl, fun _ _ => rfl, ⟨_, rfl⟩, fun _ hn => dinode_poke_of_ne (hl.iblock_ne_data hn hb)⟩

section

variable (h : Owns s (s.own i))

include h

/-- A block that is in a slot other than an indirect address is no one's indirect block. -/
lemma Owns.ind_ne {r : Ref} (hr : s.own i r ≠ 0)
    (hne : ∀ n, r ≠ (n, .addr (last NDIRECT))) {n : Nat} (hlive : Live s.sb n (s.view i n)) :
    (s.view i n).ind ≠ s.own i r := by
  intro e
  rw [← own_ind hlive] at e
  exact hne n (h.exact.unique r _ e.symm hr)

/-! ### Mapping a block, continued -/

section

variable (hl : s.LiveAt i)

include hl

lemma Owns.data_ind (hind : (s.itable i).d.ind ≠ 0) : s.sb.Data (s.itable i).d.ind := by
  rw [← own_ind_self hl] at hind ⊢
  exact h.exact.mem _ hind

/-- The entry `j` of the indirect block set to an allocated block. -/
lemma own_setEntry {j : Fin NINDIRECT} (hind : (s.itable i).d.ind ≠ 0) (ha : Allocated s s' b) :
    (s'.poke (s.itable i).d.ind fun a => setWord a j b).own i =
      update (s.own i) ((s.itable i).inum, .entry j) b := by
  have hdata := h.data_ind hl hind
  have hsame : s'.blocks (s.itable i).d.ind = s.blocks (s.itable i).d.ind := by
    rw [← own_ind_self hl] at hind ⊢
    exact ha.same_of_ref h hind
  have hw : Work s (s'.poke (s.itable i).d.ind fun a => setWord a j b) i :=
    (ha.work i).trans (work_poke (ha.sb ▸ h.layout) (ha.sb ▸ hdata) _ i)
  funext ⟨n, c⟩
  by_cases hn : n = (s.itable i).inum
  · subst hn
    have hself := own_self (hw.liveAt hl) c
    rw [hw.inum] at hself
    rw [hself, poke_itable, ha.itable]
    cases c with
    | addr k' => rw [update_of_ne (by simp), own_self hl]; rfl
    | entry j' =>
      rw [slot, if_neg hind, poke_blocks, update_self, hsame]
      by_cases hj : j' = j
      · rw [hj, update_self, word_setWord_self (h.layout.lt_two_pow ha.data.2)]
      · rw [update_of_ne (by simpa using hj), own_self hl, slot, if_neg hind,
          word_setWord_of_ne (val_ne_of_ne hj)]
  · rw [update_of_ne fun e => hn (Prod.mk.inj e).1]
    refine hw.own hn (fun h0 hlive => ?_) c
    have hown := own_ind hlive
    rw [← hown] at h0
    have hne : s.own i (n, .addr (last NDIRECT)) ≠ (s.itable i).d.ind := by
      rw [← own_ind_self hl]
      exact fun e => hn (Prod.mk.inj (h.exact.unique _ _ e h0)).1
    rw [← hown, poke_blocks, update_of_ne hne]
    exact ha.same_of_ref h h0

lemma bmapEntry_spec (hind : (s.itable i).d.ind ≠ 0) (j : Fin NINDIRECT) :
    wp (bmapEntry (s.itable i).d.ind j) (fun r s' => Mapped s s' i (.entry j) r) E s := by
  have hslot := own_self hl (.entry j)
  rw [slot, if_neg hind] at hslot
  simp only [bmapEntry, wp_bind, wp_bread]
  refine wp_ite (fun hk => ?_) fun hk => ?_
  · rw [hk] at hslot
    rw [wp_bind]
    refine (balloc_spec h).post fun b s₁ hb => ?_
    rcases hb with ⟨rfl, rfl, hfull⟩ | ⟨hb, ha⟩
    · exact .refl h hslot.symm fun _ => hfull
    · rw [if_neg hb]
      simp only [wp_bind, wp_poke, wp_logWrite, wp_pure]
      have hown := own_setEntry (j := j) h hl hind ha
      have hdata := h.data_ind hl hind
      have hsb := ha.sb
      have howns := (h.take ha hslot).poke (b := (s.itable i).d.ind) (hsb ▸ hdata)
        fun a => setWord a j b
      have hw := (ha.work i).trans (work_poke (hsb ▸ h.layout) (hsb ▸ hdata) (fun a => setWord a j b) i)
      rw [← hown] at howns
      refine mapped_take h ha (hw.logged _) hslot hown (howns.logged _) ?_ fun m bn h0 => ?_
      · refine update_of_ne (fun e => ?_) ..
        exact h.exact.ne_of_not_marked ha.data ha.free _ ((own_ind_self hl).trans e.symm)
      · refine update_of_ne (fun e => ?_) ..
        obtain ⟨k, hk, hR⟩ := fileBlock_ne_zero h0
        rw [fileBlock_of_slot hk, ← own_ind_self hl] at e
        exact fileSlot_ne_last bn (hk.trans (by rw [(Prod.mk.inj (h.exact.unique _ _ e hR)).2]))
  · exact .refl h hslot.symm fun e => absurd e hk

/-- **`bmap`** maps the block of the file it is asked for. -/
lemma bmap_spec {bn : Nat} {k : Slot} (hk : fileSlot bn = some k) :
    wp (bmap i bn) (fun r s' => Mapped s s' i k r) E s := by
  rw [fileSlot] at hk
  rw [bmap]
  split at hk
  · cases hk
    rw [dif_pos ‹_›]
    exact bmapAddr_spec h hl _
  · rw [dif_neg ‹_›]
    split at hk
    · cases hk
      rw [if_pos ‹_›, wp_bind]
      refine (bmapAddr_spec h hl (last NDIRECT)).post fun ind s₁ h1 => ?_
      have hl1 := h1.work.liveAt hl
      have hind : ind = (s₁.itable i).d.ind := by
        rw [h1.result, ← h1.work.inum]
        exact own_ind_self hl1
      refine wp_ite (fun h0 => ?_) fun h0 => ?_
      · refine h1.trans (.refl h1.owns ?_ fun _ => h1.full h0)
        rw [own_self hl1, slot_entry_of_ind (hind ▸ h0)]
      · subst hind
        exact (bmapEntry_spec h1.owns hl1 h0 ⟨_, ‹_›⟩).post fun _ _ h2 => h1.trans h2
    · cases hk

end

end

lemma bmapAddr_mapped {k : Fin (NDIRECT + 1)} (hk : ((s.itable i).d.addrs k).toNat ≠ 0) :
    wp (bmapAddr i k) (fun r s' => r = ((s.itable i).d.addrs k).toNat ∧ s' = s) E s := by
  have h0 : (s.itable i).d.addrs k ≠ 0 := fun e => hk (by rw [e]; rfl)
  simp only [bmapAddr, wp_bind, wp_inode]
  rw [if_neg h0]
  exact ⟨rfl, rfl⟩

lemma bmapEntry_mapped {ind bn : Nat} (hk : word (s.blocks ind) bn ≠ 0) :
    wp (bmapEntry ind bn) (fun r s' => r = word (s.blocks ind) bn ∧ s' = s) E s := by
  simp only [bmapEntry, wp_bind, wp_bread]
  rw [if_neg hk]
  exact ⟨rfl, rfl⟩

/-- A block that is there is returned, and nothing changes. -/
lemma bmap_mapped (hl : s.LiveAt i) {bn : Nat} (h0 : fileBlock (s.own i) (s.itable i).inum bn ≠ 0) :
    wp (bmap i bn)
      (fun r s' => r = fileBlock (s.own i) (s.itable i).inum bn ∧ s' = s) E s := by
  obtain ⟨k, hk, hR⟩ := fileBlock_ne_zero h0
  rw [fileBlock_of_slot hk]
  rw [own_self hl] at hR ⊢
  rw [fileSlot] at hk
  rw [bmap]
  split at hk
  · cases hk
    rw [dif_pos ‹_›]
    exact bmapAddr_mapped hR
  · rw [dif_neg ‹_›]
    split at hk
    · cases hk
      have hind : (s.itable i).d.ind ≠ 0 := fun e => hR (slot_entry_of_ind e)
      rw [slot, if_neg hind] at hR ⊢
      rw [if_pos ‹_›, wp_bind]
      refine (bmapAddr_mapped hind).post fun r s' h => ?_
      obtain ⟨rfl, rfl⟩ := h
      exact wp_ite (fun e => absurd e hind) fun _ => bmapEntry_mapped hR
    · cases hk

end Bmap

end FypOs.Fs
