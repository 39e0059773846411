import FypOs.Fs.Entries
import FypOs.Fs.Count

/-!
# Fs — how much room an entry needs

`bmap` takes up to two blocks, one of them for the addresses of others.
-/

namespace FypOs.Fs

open Lib Prog Function UInt32

variable {E : Stop → Prop} {s s' s₁ : State} {i : Fin NINODE} {b bn : Nat} {R : Ref → Nat}
  {off : Nat}

/-! ### Free blocks -/

lemma Owns.freeBlocks_of_full (h : Owns s R) (hf : s.Full) : s.freeBlocks = ∅ := by
  refine Finset.eq_empty_of_forall_notMem fun b hb => ?_
  obtain ⟨hlt, hfree⟩ := mem_freeBlocks.mp hb
  rw [hf b (h.data_of_free hlt hfree)] at hfree
  cases hfree

lemma Allocated.mem_freeBlocks (ha : Allocated s s' b) : b ∈ s.freeBlocks :=
  Fs.mem_freeBlocks.mpr ⟨ha.data.2, ha.free⟩

lemma Allocated.freeBlocks (ha : Allocated s s' b) : s'.freeBlocks = s.freeBlocks.erase b := by
  ext c
  rw [Finset.mem_erase, Fs.mem_freeBlocks, Fs.mem_freeBlocks, ha.sb]
  constructor
  · rintro ⟨hlt, hfree⟩
    rw [ha.bit c hlt] at hfree
    by_cases hcb : c = b
    · rw [hcb, update_self] at hfree
      cases hfree
    · rw [update_of_ne hcb] at hfree
      exact ⟨hcb, hlt, hfree⟩
  · rintro ⟨hcb, hlt, hfree⟩
    refine ⟨hlt, ?_⟩
    rw [ha.bit c hlt, update_of_ne hcb]
    exact hfree

lemma freeBlocks_setAddr (k : Fin (NDIRECT + 1)) : (s.setAddr i k b).freeBlocks = s.freeBlocks := rfl

/-! ### Blocks of a file -/

/-- How many blocks `bmap` has to take to return block `bn` of the file. -/
def State.need (s : State) (i : Fin NINODE) (bn : Nat) : Nat :=
  if fileBlock s.disk (s.itable i).inum bn ≠ 0 then 0
  else if bn < NDIRECT ∨ (s.itable i).d.ind ≠ 0 then 1 else 2

/-- A block has been asked for. -/
def Asked (s s' : State) (r : Nat) : Prop := r = 0 ∧ s' = s ∧ s.freeBlocks = ∅ ∨ r ≠ 0 ∧ Allocated s s' r

lemma balloc_asks (h : Owns s R) : wp balloc (fun r s' => Asked s s' r) E s :=
  (balloc_spec h).post fun _ _ hb => hb.imp_left fun hf => ⟨hf.1, hf.2.1, h.freeBlocks_of_full hf.2.2⟩

lemma Asked.card {r : Nat} (h : Asked s s' r) : r ≠ 0 ↔ 1 ≤ s.freeBlocks.card := by
  rcases h with ⟨rfl, -, hf⟩ | ⟨hr, ha⟩
  · simp [hf]
  · exact ⟨fun _ => Finset.card_pos.mpr ⟨r, ha.mem_freeBlocks⟩, fun _ => hr⟩

lemma bmapAddr_asks (h : Owns s (s.own i)) {k : Fin (NDIRECT + 1)} (hk : (s.itable i).d.addrs k = 0) :
    wp (bmapAddr i k) (fun r s' => r = 0 ∧ s' = s ∧ s.freeBlocks = ∅ ∨
      r ≠ 0 ∧ ∃ s₁, Allocated s s₁ r ∧ s' = s₁.setAddr i k r) E s := by
  simp only [bmapAddr, wp_bind, wp_inode]
  rw [if_pos hk, wp_bind]
  refine (balloc_asks h).post fun r s₁ ha => ?_
  rcases ha with ⟨rfl, rfl, hf⟩ | ⟨hr, ha⟩
  · exact .inl ⟨rfl, rfl, hf⟩
  · rw [if_neg hr]
    simp only [wp_bind, wp_setAddr, wp_pure]
    exact .inr ⟨hr, s₁, ha, rfl⟩

lemma bmapEntry_asks (h : Owns s R) {ind j : Nat} (hj : word (s.blocks ind) j = 0) :
    wp (bmapEntry ind j) (fun r _ => r ≠ 0 ↔ 1 ≤ s.freeBlocks.card) E s := by
  simp only [bmapEntry, wp_bind, wp_bread]
  rw [if_pos hj, wp_bind]
  refine (balloc_asks h).post fun r s₁ ha => ?_
  refine wp_ite (fun hr => wp_pure.mpr (hr ▸ ha.card)) fun hr => ?_
  simp only [wp_bind, wp_poke, wp_logWrite, wp_pure]
  exact ha.card

/-- **`bmap` succeeds if there are blocks enough.** -/
lemma bmap_exact (h : Consistent s) (hi : Held s i) (hbn : bn < MAXFILE) :
    wp (bmap i bn) (fun r _ => r ≠ 0 ↔ s.need i bn ≤ s.freeBlocks.card) E s := by
  have hl := h.liveAt hi
  have ho := h.owns_own hi
  by_cases h0 : fileBlock s.disk (s.itable i).inum bn ≠ 0
  · refine (bmap_mapped hl (by rw [h.own hi]; exact h0)).post fun r s' hr => ?_
    rw [hr.1, h.own hi, State.need, if_pos h0]
    exact ⟨fun _ => Nat.zero_le _, fun _ => h0⟩
  rw [State.need, if_neg h0]
  have hz := not_not.mp h0
  have hslot : ∀ c, s.disk ((s.itable i).inum, c) = slot s.blocks (s.itable i).d c := fun c => by
    rw [← h.own hi, own_self hl]
  rw [bmap]
  by_cases hdir : bn < NDIRECT
  · rw [dif_pos hdir, if_pos (.inl hdir)]
    have hk : (s.itable i).d.addrs (Fin.castSucc ⟨bn, hdir⟩) = 0 := by
      have hf : fileSlot bn = some (.addr (Fin.castSucc ⟨bn, hdir⟩)) := by rw [fileSlot, dif_pos hdir]
      rw [fileBlock_of_slot hf, hslot] at hz
      exact UInt32.toNat_inj.mp hz
    refine (bmapAddr_asks ho hk).post fun r s' hr => ?_
    rcases hr with ⟨rfl, rfl, hf⟩ | ⟨hr, s₁, ha, -⟩
    · simp [hf]
    · exact ⟨fun _ => Finset.card_pos.mpr ⟨r, ha.mem_freeBlocks⟩, fun _ => hr⟩
  · have hind : bn - NDIRECT < NINDIRECT := by
      simp only [MAXFILE] at hbn
      omega
    have hf : fileSlot bn = some (.entry ⟨bn - NDIRECT, hind⟩) := by rw [fileSlot, dif_neg hdir, dif_pos hind]
    rw [fileBlock_of_slot hf, hslot] at hz
    rw [dif_neg hdir, if_pos hind, wp_bind]
    by_cases hi0 : (s.itable i).d.ind = 0
    · rw [if_neg (by rintro (hlt | hne) <;> contradiction)]
      have hk : (s.itable i).d.addrs (Fin.last NDIRECT) = 0 := UInt32.toNat_inj.mp hi0
      refine ((bmapAddr_asks ho hk).and (bmapAddr_spec (E := E) ho hl (Fin.last NDIRECT))).post fun ind s2 hr => ?_
      obtain ⟨⟨rfl, rfl, hfree⟩ | ⟨hr, s₁, ha, rfl⟩, hm⟩ := hr
      · rw [if_pos rfl]
        exact wp_pure.mpr (by simp [hfree])
      · -- the indirect block is new, so that the entry is missing
        rw [if_neg hr]
        have hword : word ((s₁.setAddr i (Fin.last NDIRECT) ind).blocks ind) (bn - NDIRECT) = 0 := by
          rw [show (s₁.setAddr i (Fin.last NDIRECT) ind).blocks ind = fun _ => 0 from ha.zero]
          simp [word, getLE]
        refine (bmapEntry_asks hm.owns hword).post fun r s3 hr' => ?_
        have hcard : (s₁.setAddr i (Fin.last NDIRECT) ind).freeBlocks.card = s.freeBlocks.card - 1 := by
          rw [freeBlocks_setAddr, ha.freeBlocks, Finset.card_erase_of_mem ha.mem_freeBlocks]
        rw [hr', hcard]
        omega
    · rw [if_pos (.inr hi0)]
      refine (bmapAddr_mapped hi0).post fun ind s₁ hr => ?_
      obtain ⟨rfl, rfl⟩ := hr
      refine wp_ite (fun e => absurd e hi0) fun _ => ?_
      rw [slot, if_neg hi0] at hz
      exact bmapEntry_asks ho hz

/-! ### Entries -/

/-- There is room for the entry at `off`. -/
def State.RoomAt (s : State) (i : Fin NINODE) (off : Nat) : Prop :=
  off ≤ (s.itable i).d.size.toNat ∧ off + DIRENTSZ ≤ MAXFILE * BSIZE ∧ s.need i (off / BSIZE) ≤ s.freeBlocks.card

lemma writeiLoop_entry (h : Consistent s) (hi : Held s i) (hmod : off % DIRENTSZ = 0)
    (hmax : off + DIRENTSZ ≤ MAXFILE * BSIZE) (de : Block) :
    wp (writeiLoop i (fun j => some (de j)) off DIRENTSZ DIRENTSZ 0)
      (fun tot _ => tot = DIRENTSZ ↔ s.need i (off / BSIZE) ≤ s.freeBlocks.card) E s := by
  have hbn : off / BSIZE < MAXFILE := by
    simp only [DIRENTSZ, BSIZE, MAXFILE] at *
    omega
  have hm : min (DIRENTSZ - 0) (BSIZE - (off + 0) % BSIZE) = DIRENTSZ := by
    simp only [DIRENTSZ, BSIZE] at *
    omega
  show wp (writeiLoop i (fun j => some (de j)) off DIRENTSZ (15 + 1) 0) _ E s
  rw [writeiLoop, if_pos (by decide), wp_bind]
  refine (bmap_exact h hi hbn).post fun r s₁ hr => ?_
  rw [← hr]
  by_cases h0 : r = 0
  · rw [if_pos h0]
    exact wp_pure.mpr ⟨fun e => (by cases e), fun e => absurd h0 e⟩
  · rw [if_neg h0]
    simp only [wp_bind, wp_poke]
    rw [hm, if_neg (fun hlt => (by cases accessible_lt hlt))]
    simp only [wp_bind, wp_logWrite]
    show wp (writeiLoop i (fun j => some (de j)) off DIRENTSZ (14 + 1) (0 + DIRENTSZ)) _ E _
    rw [writeiLoop, if_neg (by decide)]
    exact wp_pure.mpr ⟨fun _ => h0, fun _ => by rw [Nat.zero_add]⟩

/-- **When an entry can be written.** -/
lemma writeDirent_exact (h : Consistent s) (hi : Held s i) (hmod : off % DIRENTSZ = 0)
    (hoff : off < 2 ^ 32) (de : Block) :
    wp (writeDirent i off de) (fun r _ => r = DIRENTSZ ↔ s.RoomAt i off) E s := by
  have hto : (ofNat off).toNat = off := toNat_ofNat_of_lt' hoff
  have hsz : (ofNat DIRENTSZ).toNat = DIRENTSZ := by decide
  have hacc : Accepted (s.itable i).d.size (ofNat off) (ofNat DIRENTSZ) ↔ _ := accepted_iff
  rw [Accepted, hto, hsz] at hacc
  have hrefused (hno : ¬ s.RoomAt i off) : (-1 : Int) = DIRENTSZ ↔ s.RoomAt i off :=
    ⟨fun e => (by cases e), fun hr => absurd hr hno⟩
  simp only [writeDirent, writei, wp_bind, wp_inode]
  refine wp_ite (fun hno => ?_) fun hyes1 => wp_ite (fun hno => ?_) fun hyes2 => ?_
  · exact wp_pure.mpr (hrefused fun hr => (hacc.mp ⟨hr.1, hr.2.1⟩).1 hno)
  · exact wp_pure.mpr (hrefused fun hr => (hacc.mp ⟨hr.1, hr.2.1⟩).2 hno)
  obtain ⟨hle, hmax⟩ := hacc.mpr ⟨hyes1, hyes2⟩
  rw [hto, hsz, wp_bind]
  refine (writeiLoop_entry h hi hmod hmax de).post fun tot s₁ ht => ?_
  simp only [iupdate, wp_bind, wp_inode, wp_reads, wp_poke, wp_logWrite, wp_pure, wp_setDinode]
  rw [Int.natCast_inj, ht, State.RoomAt]
  exact ⟨fun hn => ⟨hle, hmax, hn⟩, fun hr => hr.2.2⟩

end FypOs.Fs
