import FypOs.Fs.Map

/-!
# Fs — giving blocks back, and writing an inode to disk

Truncation frees the blocks of a file one by one, changing the in-memory copy of the inode; the
entries of its indirect block stay where they are until the block itself is freed, so that the
references to account for are not those the disk shows (`dropEntries`).
-/

namespace FypOs.Fs

open Lib Prog Function List Fin

/-! ### Freeing the blocks -/

section Trunc

variable {E : Stop → Prop} {s s₁ s' : State} {i : Fin NINODE} {R : Ref → Nat}

/-- Blocks of entry `i` have been freed; the data blocks keep their data. -/
structure Shrunk (s s' : State) (i : Fin NINODE) : Prop extends Work s s' i where
  same : ∀ x, s.sb.Data x → s'.blocks x = s.blocks x

lemma Shrunk.trans {s2 : State} (h1 : Shrunk s s₁ i) (h2 : Shrunk s₁ s2 i) : Shrunk s s2 i :=
  ⟨h1.toWork.trans h2.toWork, fun x hx => (h2.same x (h1.sb ▸ hx)).trans (h1.same x hx)⟩

lemma Shrunk.refl (s : State) (i : Fin NINODE) : Shrunk s s i := ⟨.refl _ _, fun _ _ => rfl⟩

lemma Freed.shrunk {b : Nat} (h : Freed s s' b) (i : Fin NINODE) : Shrunk s s' i :=
  ⟨h.work i, h.same⟩

/-- Freeing the block of an address.  `R` are the references still to be accounted for. -/
lemma itruncAddr_spec (h : Owns s R) {k : Fin (NDIRECT + 1)}
    (hk : R ((s.itable i).inum, .addr k) = ((s.itable i).d.addrs k).toNat) :
    wp (itruncAddr i k) (fun _ s' => Shrunk s s' i ∧ (s'.itable i).d.addrs = update (s.itable i).d.addrs k 0 ∧
      Owns s' (update R ((s.itable i).inum, .addr k) 0)) E s := by
  simp only [itruncAddr, wp_bind, wp_inode]
  refine wp_ite (fun h0 => ?_) fun h0 => ?_
  · have hR : R ((s.itable i).inum, .addr k) = 0 := by rw [hk, h0]; rfl
    refine ⟨.refl _ _, ?_, ?_⟩
    · rw [← h0, update_eq_self]
    · rw [← hR, update_eq_self]
      exact h
  · have hR : R ((s.itable i).inum, .addr k) ≠ 0 := by
      rw [hk]
      exact fun e => h0 (UInt32.toNat_inj.mp e)
    rw [wp_bind, ← hk]
    refine (bfree_spec h.layout (h.exact.mem _ hR) (h.exact.marked_of hR)).post fun _ s₁ hf => ?_
    refine ⟨(hf.shrunk i).trans ⟨work_setAddr .., fun _ _ => rfl⟩, ?_, (h.give hf hR).setInode i _⟩
    rw [setAddr_addrs, hf.itable]
    rfl

/-- The references without the entries of the indirect block of inode `n`, those in `js` apart. -/
def dropEntries (R : Ref → Nat) (n : Nat) (js : List Nat) : Ref → Nat
  | (m, .entry j) => if m = n ∧ (j : Nat) ∉ js then 0 else R (m, .entry j)
  | (m, .addr k) => R (m, .addr k)

lemma dropEntries_all (R : Ref → Nat) (n : Nat) : dropEntries R n (List.range NINDIRECT) = R := by
  funext ⟨m, c⟩
  cases c with
  | addr k => rfl
  | entry j => exact if_neg fun ⟨_, hj⟩ => hj (mem_range.mpr j.isLt)

lemma dropEntries_cons (R : Ref → Nat) (n : Nat) {js : List Nat} (j : Fin NINDIRECT) (hj : (j : Nat) ∉ js) :
    update (dropEntries R n (j :: js)) (n, .entry j) 0 = dropEntries R n js := by
  funext ⟨m, c⟩
  cases c with
  | addr k => rw [update_of_ne (by simp)]; rfl
  | entry j' =>
    by_cases he : (m, Slot.entry j') = (n, Slot.entry j)
    · obtain ⟨rfl, hj'⟩ := Prod.mk.inj he
      cases Slot.entry.inj hj'
      rw [update_self, dropEntries, if_pos ⟨rfl, hj⟩]
    · rw [update_of_ne he]
      have hiff : (m = n ∧ (j' : Nat) ∉ (j : Nat) :: js) ↔ (m = n ∧ (j' : Nat) ∉ js) := by
        refine and_congr_right fun hm => ?_
        have hne : (j' : Nat) ≠ j := fun e => he (by rw [hm, Fin.ext e])
        simp [hne]
      simp only [dropEntries, hiff]

lemma itruncEntries_spec (h : Owns s R) {ind n : Nat} (hind : s.sb.Data ind)
    (hR : ∀ j : Fin NINDIRECT, R (n, .entry j) = word (s.blocks ind) j) :
    wp (itruncEntries ind) (fun _ s' => MapOnly s s' ∧
      (∀ x, s.sb.Data x → s'.blocks x = s.blocks x) ∧ Owns s' (dropEntries R n [])) E s := by
  -- the entries not yet visited still count
  refine wp_forEach (fun js s' => (MapOnly s s' ∧ (∀ x, s.sb.Data x → s'.blocks x = s.blocks x) ∧
    Owns s' (dropEntries R n js)) ∧ js.Nodup ∧ ∀ j ∈ js, j < NINDIRECT) ?_ ?_ fun _ h => h.1
  · refine ⟨⟨⟨rfl, rfl, rfl, fun _ _ => rfl⟩, fun _ _ => rfl, ?_⟩, nodup_range,
      fun j hj => mem_range.mp hj⟩
    rwa [dropEntries_all]
  · rintro j js t ⟨⟨hm, hsame, howns⟩, hnd, hlt⟩
    obtain ⟨hj, hnd⟩ := nodup_cons.mp hnd
    have hlt' : ∀ x ∈ js, x < NINDIRECT := fun x hx => hlt x (mem_cons_of_mem _ hx)
    let jf : Fin NINDIRECT := ⟨j, hlt j mem_cons_self⟩
    have hval : dropEntries R n (j :: js) (n, .entry jf) = word (t.blocks ind) j := by
      rw [dropEntries, if_neg fun ⟨_, hn⟩ => hn mem_cons_self, hR, hsame ind hind]
    have hcons := dropEntries_cons R n jf hj
    rw [wp_bind, wp_bread]
    refine wp_ite (fun h0 => ?_) fun h0 => ?_
    · refine ⟨⟨hm, hsame, ?_⟩, hnd, hlt'⟩
      rw [← hcons, ← h0, ← hval, update_eq_self]
      exact howns
    · rw [← hval] at h0 ⊢
      refine (bfree_spec howns.layout (howns.exact.mem _ h0) (howns.exact.marked_of h0)).post
        fun _ s₁ hf => ⟨⟨?_, fun x hx => ?_, ?_⟩, hnd, hlt'⟩
      · exact ⟨hf.sb.trans hm.sb, hf.me.trans hm.me, hf.itable.trans hm.itable,
          fun m hn => (hf.dinode m (hm.sb ▸ hn)).trans (hm.dinode m hn)⟩
      · exact (hf.same x (hm.sb ▸ hx)).trans (hsame x hx)
      · rw [← hcons]
        exact howns.give hf h0

section

variable (hw : Shrunk s s' i)

include hw

/-- The references after addresses have been changed: those of the other inodes are as before. -/
lemma Shrunk.own_of_ne (h : Owns s (s.own i)) {n : Nat}
    (hn : n ≠ (s.itable i).inum) (c : Slot) : s'.own i (n, c) = s.own i (n, c) := by
  refine hw.toWork.own hn (fun h0 hlive => hw.same _ ?_) c
  rw [← own_ind hlive] at h0 ⊢
  exact h.exact.mem _ h0

lemma Shrunk.own_self (hl : s.LiveAt i) (c : Slot) :
    s'.own i ((s.itable i).inum, c) = slot s'.blocks (s'.itable i).d c := by
  rw [← hw.inum]
  exact Fs.own_self (hw.liveAt hl) c

lemma Shrunk.own_direct (h : Owns s (s.own i)) (hl : s.LiveAt i) {k : Fin NDIRECT}
    (hk : (s'.itable i).d.addrs = update (s.itable i).d.addrs k.castSucc 0) :
    s'.own i = update (s.own i) ((s.itable i).inum, .addr k.castSucc) 0 := by
  have hind : (s'.itable i).d.ind = (s.itable i).d.ind := by
    rw [Dinode.ind, hk, update_of_ne (castSucc_lt_last k).ne']
    rfl
  funext x
  obtain ⟨n, c⟩ := x
  by_cases hn : n = (s.itable i).inum
  · subst hn
    rw [hw.own_self hl]
    cases c with
    | addr k' =>
      by_cases hk' : k' = k.castSucc
      · rw [hk', update_self, slot, hk, update_self]
        rfl
      · rw [update_of_ne (by simpa using hk'), Fs.own_self hl, slot, hk, update_of_ne hk']
        rfl
    | entry j =>
      rw [update_of_ne (by simp), Fs.own_self hl]
      exact slot_entry_congr hind fun h0 => hw.same _ (h.data_ind hl h0)
  · rw [update_of_ne fun e => hn (Prod.mk.inj e).1]
    exact hw.own_of_ne h hn c

/-- The indirect address dropped, with the entries of the block. -/
lemma Shrunk.own_indirect (h : Owns s (s.own i)) (hl : s.LiveAt i)
    (hk : (s'.itable i).d.addrs = update (s.itable i).d.addrs (last NDIRECT) 0) :
    s'.own i = update (dropEntries (s.own i) (s.itable i).inum [])
      ((s.itable i).inum, .addr (last NDIRECT)) 0 := by
  have hind : (s'.itable i).d.ind = 0 := by
    rw [Dinode.ind, hk, update_self]
    rfl
  funext x
  obtain ⟨n, c⟩ := x
  by_cases hn : n = (s.itable i).inum
  · subst hn
    rw [hw.own_self hl]
    cases c with
    | addr k' =>
      by_cases hk' : k' = last NDIRECT
      · rw [hk', update_self]
        exact hind
      · rw [update_of_ne (by simpa using hk'), dropEntries, Fs.own_self hl, slot, hk, update_of_ne hk']
        rfl
    | entry j =>
      rw [update_of_ne (by simp), slot_entry_of_ind hind, dropEntries, if_pos ⟨rfl, not_mem_nil⟩]
  · rw [update_of_ne fun e => hn (Prod.mk.inj e).1, hw.own_of_ne h hn c]
    cases c with
    | addr k' => rfl
    | entry j => exact (if_neg fun hm => hn hm.1).symm

end

lemma itruncDirect_spec (h : Owns s (s.own i)) (hl : s.LiveAt i) :
    wp (Prog.forEach (fun k => itruncAddr i (castSucc k)) (List.finRange NDIRECT))
      (fun _ s' => Shrunk s s' i ∧ Owns s' (s'.own i) ∧
        ∀ k : Fin NDIRECT, (s'.itable i).d.addrs k.castSucc = 0) E s := by
  refine wp_forEach (fun ks s' => Shrunk s s' i ∧ Owns s' (s'.own i) ∧
    ∀ k : Fin NDIRECT, k ∉ ks → (s'.itable i).d.addrs k.castSucc = 0) ?_ ?_
    fun _ h => ⟨h.1, h.2.1, fun k => h.2.2 k not_mem_nil⟩
  · exact ⟨.refl _ _, h, fun k hk => absurd (mem_finRange k) hk⟩
  · rintro k ks t ⟨hw, howns, hzero⟩
    have hlt := hw.liveAt hl
    refine (itruncAddr_spec howns (own_self hlt _)).post fun _ s' hs => ?_
    obtain ⟨hw', haddrs, howns'⟩ := hs
    refine ⟨hw.trans hw', ?_, fun k' hk' => ?_⟩
    · rw [hw'.own_direct howns hlt haddrs]
      exact howns'
    · rw [haddrs]
      by_cases he : k'.castSucc = k.castSucc
      · rw [he, update_self]
      · rw [update_of_ne he]
        refine hzero k' fun hmem => ?_
        rcases mem_cons.mp hmem with rfl | hin
        · exact he rfl
        · exact hk' hin

lemma itruncIndirect_spec (h : Owns s (s.own i)) (hl : s.LiveAt i) :
    wp (itruncIndirect i) (fun _ s' => Shrunk s s' i ∧ Owns s' (s'.own i) ∧
      (s'.itable i).d.addrs = update (s.itable i).d.addrs (last NDIRECT) 0) E s := by
  simp only [itruncIndirect, wp_bind, wp_inode]
  refine wp_ite (fun h0 => ?_) fun h0 => ?_
  · exact ⟨.refl _ _, h, by rw [← h0, update_eq_self]⟩
  · have hind : (s.itable i).d.ind ≠ 0 := fun e => h0 (UInt32.toNat_inj.mp e)
    rw [wp_bind]
    refine (itruncEntries_spec h (n := (s.itable i).inum) (h.data_ind hl hind) fun j => ?_).post
      fun _ s₁ hs1 => ?_
    · rw [own_self hl, slot, if_neg hind]
    · obtain ⟨hm, hsame, howns⟩ := hs1
      have haddr : dropEntries (s.own i) (s.itable i).inum [] ((s₁.itable i).inum, .addr (last NDIRECT)) =
          ((s₁.itable i).d.addrs (last NDIRECT)).toNat := by
        rw [dropEntries, hm.itable, own_self hl]
        rfl
      refine (itruncAddr_spec howns haddr).post fun _ s' hs' => ?_
      obtain ⟨hw', haddrs, howns'⟩ := hs'
      rw [hm.itable] at haddrs howns'
      have hw : Shrunk s s' i := Shrunk.trans ⟨hm.work i, hsame⟩ hw'
      refine ⟨hw, ?_, haddrs⟩
      rw [hw.own_indirect h hl haddrs]
      exact howns'

end Trunc

/-! ### Writing the inode to disk -/

section Store

variable {E : Stop → Prop} {s s' : State} {i : Fin NINODE}

/-- The in-memory copy of entry `i` has been written to disk. -/
structure Stored (s s' : State) (i : Fin NINODE) : Prop where
  sb : s'.sb = s.sb
  me : s'.me = s.me
  itable : s'.itable = s.itable
  bit : ∀ c, c < s.sb.size → s'.bit c = s.bit c
  same : ∀ x, s.sb.Data x → s'.blocks x = s.blocks x
  dinode : ∀ n, n < s.sb.ninodes → s'.dinode n = s.view i n

lemma iblock_inj {sb : Superblock} {n m : Nat} (h1 : sb.IBLOCK n = sb.IBLOCK m)
    (h2 : n % IPB = m % IPB) : n = m := by
  have h3 : n / IPB = m / IPB := Nat.add_right_cancel h1
  rw [← Nat.div_add_mod n IPB, h2, h3, Nat.div_add_mod]

lemma dinode_poke_putDinode (s : State) (m : Nat) (d : Dinode) :
    (s.poke (s.sb.IBLOCK m) fun data => putDinode data (m % IPB) d).dinode = update s.dinode m d := by
  funext n
  simp only [State.dinode, poke_sb, poke_blocks, update_apply]
  by_cases hn : n = m
  · rw [if_pos (by rw [hn]), if_pos hn, hn, getDinode_putDinode_self]
  · rw [if_neg hn]
    split
    · rw [getDinode_putDinode_of_ne fun e => hn (iblock_inj ‹_› e), ‹s.sb.IBLOCK n = _›]
    · rfl

/-- Writing a block of inodes changes no data block and no bit of the free map. -/
lemma poke_iblock (hl : s.sb.Layout) {m : Nat} (hm : m < s.sb.ninodes) (f : Block → Block) :
    (∀ c, (s.poke (s.sb.IBLOCK m) f).bit c = s.bit c) ∧
      ∀ x, s.sb.Data x → (s.poke (s.sb.IBLOCK m) f).blocks x = s.blocks x :=
  ⟨fun c => bit_poke_of_ne fun e => hl.iblock_ne_bblock hm c e.symm,
    fun _ hx => update_of_ne (fun e => hl.iblock_ne_data hm hx e.symm) ..⟩

lemma iupdate_spec (hl : s.sb.Layout) (hn : (s.itable i).inum < s.sb.ninodes) :
    wp (iupdate i) (fun _ s' => Stored s s' i) E s := by
  simp only [iupdate, wp_bind, wp_inode, wp_reads, wp_poke, wp_logWrite]
  obtain ⟨hbit, hsame⟩ := poke_iblock hl hn fun data =>
    putDinode data ((s.itable i).inum % IPB) (s.itable i).d
  refine ⟨rfl, rfl, rfl, fun c _ => hbit c, hsame, fun n _ => ?_⟩
  rw [dinode_logged, dinode_poke_putDinode, State.view]

/-- The references on disk are then those of the in-memory copy. -/
lemma Stored.refs (hs : Stored s s' i) (h : Owns s (s.own i)) : s'.refs s'.dinode = s.own i := by
  funext x
  obtain ⟨n, c⟩ := x
  refine refs_congr hs.sb (fun _ hn => hs.dinode n hn) (fun hlive h0 => hs.same _ ?_) c
  rw [← own_ind hlive] at h0 ⊢
  exact h.exact.mem _ h0

lemma Stored.owns (hs : Stored s s' i) (h : Owns s (s.own i)) : Owns s' (s'.refs s'.dinode) :=
  h.congr hs.sb hs.bit fun r => congrFun (hs.refs h) r

/-- Changing fields other than the type and the addresses does not change the references. -/
lemma own_setInode {g : Inode → Inode} (hinum : (g (s.itable i)).inum = (s.itable i).inum)
    (htype : (g (s.itable i)).d.type = (s.itable i).d.type)
    (haddrs : (g (s.itable i)).d.addrs = (s.itable i).d.addrs) : (s.setInode i g).own i = s.own i := by
  funext x
  obtain ⟨n, c⟩ := x
  by_cases hn : n = (s.itable i).inum
  · have hview : (s.setInode i g).view i n = (g (s.itable i)).d := by
      rw [State.view, setInode_itable_self, hinum, hn, update_self]
    have hview0 : s.view i n = (s.itable i).d := by rw [hn, view_self]
    have hslot : slot s.blocks (g (s.itable i)).d c = slot s.blocks (s.itable i).d c := by
      cases c with
      | addr k => rw [slot, haddrs]; rfl
      | entry j =>
        refine slot_entry_congr ?_ fun _ => rfl
        rw [Dinode.ind, haddrs]
        rfl
    simp only [State.own, State.refs, hview, hview0, Live, htype, setInode_sb, setInode_blocks, hslot]
  · refine refs_congr rfl (fun _ _ => ?_) (fun _ _ => rfl) c
    rw [view_of_ne hn, view_of_ne (by rw [setInode_itable_self, hinum]; exact hn)]
    rfl

end Store

end FypOs.Fs
