import FypOs.Fs.Table

/-!
# Fs — reading and writing a file

A file is the array of its bytes, `State.byte`, up to its size.
-/

namespace FypOs.Fs

open Lib Prog Function List UInt32

/-! ### Accessible bytes -/

lemma accessible_le (ok : Nat → Bool) (tot m : Nat) : accessible ok tot m ≤ m := by
  have : accessible ok tot m ≤ (List.range m).length := findIdx_le_length
  rwa [length_range] at this

lemma accessible_ok {ok : Nat → Bool} {tot m j : Nat} (h : j < accessible ok tot m) : ok (tot + j) = true := by
  have := not_of_lt_findIdx h
  rwa [getElem_range, Bool.not_eq_false'] at this

lemma accessible_read {src : Nat → Option UInt8} {tot m k : Nat} (hk : tot ≤ k)
    (hlt : k < tot + accessible (fun j => (src j).isSome) tot m) : src k ≠ none := by
  have hok : (src (tot + (k - tot))).isSome = true :=
    @accessible_ok (fun j => (src j).isSome) tot m (k - tot) (Nat.sub_lt_left_of_lt_add hk hlt)
  rw [Nat.add_sub_cancel' hk] at hok
  exact Option.isSome_iff_ne_none.mp hok

/-- A copy that stops early stops at a byte that cannot be accessed. -/
lemma accessible_lt {ok : Nat → Bool} {tot m : Nat} (h : accessible ok tot m < m) :
    ok (tot + accessible ok tot m) = false := by
  have hlen : (List.range m).findIdx (fun j => !ok (tot + j)) < (List.range m).length := by
    rwa [length_range]
  have := findIdx_getElem (w := hlen)
  rwa [getElem_range, Bool.not_eq_true'] at this

/-! ### Positions in a block -/

lemma pos_in_block {pos j : Nat} (h : j < BSIZE - pos % BSIZE) :
    (pos + j) / BSIZE = pos / BSIZE ∧ (pos + j) % BSIZE = pos % BSIZE + j := by
  simp only [BSIZE] at h ⊢
  omega

/-- A chunk of a copy: not empty, within what is left and within the block. -/
lemma chunk_pos {n tot : Nat} (pos : Nat) (h : tot < n) : 0 < min (n - tot) (BSIZE - pos % BSIZE) := by
  have := Nat.mod_lt pos (show BSIZE > 0 by decide)
  omega

/-- It ends at the end of the copy or of the block. -/
lemma chunk_end {n tot : Nat} (pos : Nat) (h : tot < n) : tot + min (n - tot) (BSIZE - pos % BSIZE) = n ∨
      (pos + min (n - tot) (BSIZE - pos % BSIZE)) % BSIZE = 0 := by
  simp only [BSIZE]
  omega

lemma fileSlot_of_lt {bn : Nat} (h : bn < MAXFILE) : ∃ k, fileSlot bn = some k := by
  by_cases h1 : bn < NDIRECT
  · exact ⟨_, dif_pos h1⟩
  · have h2 : bn - NDIRECT < NINDIRECT := by
      rw [MAXFILE] at h
      omega
    exact ⟨.entry ⟨_, h2⟩, by rw [fileSlot, dif_neg h1, dif_pos h2]⟩

/-! ### Writing into a block of a file -/

section Poke

variable {s : State} {i : Fin NINODE} {n bn : Nat} {f : Block → Block}

lemma own_poke (h : Owns s (s.own i)) (h0 : fileBlock (s.own i) n bn ≠ 0) :
    (s.poke (fileBlock (s.own i) n bn) f).own i = s.own i := by
  have hw := work_poke h.layout (h.data_fileBlock h0) f i
  obtain ⟨k, hk, hR⟩ := fileBlock_ne_zero h0
  funext ⟨m, c⟩
  simp only [State.own]
  refine refs_congr poke_sb (fun _ hlt => ?_) (fun hlive _ => ?_) c
  · by_cases hm : m = (s.itable i).inum
    · rw [hm, view_self, State.view, poke_itable, update_self]
    · exact hw.view hm hlt
  · refine update_of_ne ?_ ..
    rw [fileBlock_of_slot hk]
    refine h.ind_ne hR (fun m' e => ?_) hlive
    rw [(Prod.mk.inj e).2] at hk
    exact fileSlot_ne_last bn hk

/-- Only the bytes of that block of the file change. -/
lemma fileByte_poke (h : Owns s (s.own i)) (h0 : fileBlock (s.own i) n bn ≠ 0) (m k : Nat) :
    fileByte (s.poke (fileBlock (s.own i) n bn) f).blocks (s.own i) m k =
      if m = n ∧ k / BSIZE = bn then f (s.blocks (fileBlock (s.own i) n bn)) (k % BSIZE)
      else fileByte s.blocks (s.own i) m k := by
  split
  · obtain ⟨rfl, rfl⟩ := ‹m = n ∧ k / BSIZE = bn›
    rw [fileByte, if_neg h0, poke_blocks, update_self]
  · rw [fileByte, fileByte, poke_blocks]
    split
    · rfl
    · rw [update_of_ne]
      exact fun e => ‹¬ (m = n ∧ k / BSIZE = bn)› (h.fileBlock_inj h0 e)

end Poke

/-! ### The loop of `writei` -/

section Write

variable {E : Stop → Prop} {s s₁ s₂ s' : State} {i : Fin NINODE} {src : Nat → Option UInt8}

/-- Bytes `[lo, hi)` of the file have come from the source, whose byte `k - off` goes to `k`. -/
structure Copied (s s' : State) (i : Fin NINODE) (src : Nat → Option UInt8) (off lo hi : Nat) :
    Prop where
  work : Work s s' i
  owns : Owns s' (s'.own i)
  byte : ∀ m k, fileByte s'.blocks (s'.own i) m k =
    if m = (s.itable i).inum ∧ lo ≤ k ∧ k < hi then (src (k - off)).getD 0
    else fileByte s.blocks (s.own i) m k
  mono : ∀ m bn, fileBlock (s.own i) m bn ≠ 0 →
    fileBlock (s'.own i) m bn = fileBlock (s.own i) m bn
  other : ∀ m bn, m ≠ (s.itable i).inum → fileBlock (s'.own i) m bn = fileBlock (s.own i) m bn
  mapped : ∀ k, lo ≤ k → k < hi → fileBlock (s'.own i) (s.itable i).inum (k / BSIZE) ≠ 0

lemma Copied.trans {off lo mid hi : Nat} (h1 : Copied s s₁ i src off lo mid)
    (h2 : Copied s₁ s₂ i src off mid hi) (hle : lo ≤ mid) (hle' : mid ≤ hi) :
    Copied s s₂ i src off lo hi where
  work := h1.work.trans h2.work
  owns := h2.owns
  byte m k := by
    rw [h2.byte, h1.byte, h1.work.inum]
    by_cases hm : m = (s.itable i).inum
    · simp only [hm, true_and]
      by_cases h2 : mid ≤ k ∧ k < hi
      · rw [if_pos h2, if_pos ⟨by omega, h2.2⟩]
      · rw [if_neg h2]
        by_cases h1 : lo ≤ k ∧ k < mid
        · rw [if_pos h1, if_pos ⟨h1.1, by omega⟩]
        · rw [if_neg h1, if_neg (by omega)]
    · simp only [hm, false_and, if_false]
  mono m bn h0 := by
    have e := h1.mono m bn h0
    exact (h2.mono m bn (e ▸ h0)).trans e
  other m bn hm := (h2.other m bn (h1.work.inum ▸ hm)).trans (h1.other m bn hm)
  mapped k hlo hhi := by
    by_cases hk : k < mid
    · have h0 := h1.mapped k hlo hk
      rw [h2.mono _ _ h0]
      exact h0
    · rw [← h1.work.inum]
      exact h2.mapped k (by omega) hhi

lemma Copied.logged {off lo hi : Nat} (h : Copied s s' i src off lo hi) (b : Nat) :
    Copied s (s'.logged b) i src off lo hi :=
  ⟨h.work.logged b, h.owns.logged b, h.byte, h.mono, h.other, h.mapped⟩

lemma Mapped.copied {r off lo : Nat} {k : Slot} (h : Mapped s s' i k r) : Copied s s' i src off lo lo where
  work := h.work
  owns := h.owns
  byte m k := by
    rw [if_neg fun ⟨_, h1, h2⟩ => absurd h1 (Nat.not_le_of_lt h2)]
    exact h.grown.fileByte m k
  mono _ _ h0 := h.grown.fileBlock h0
  other _ bn hm := h.grown.other hm bn
  mapped k h1 h2 := absurd h1 (Nat.not_le_of_lt h2)

/-- A position is in the `k` bytes from `pos` on, which are in one block. -/
lemma pos_range {pos k p : Nat} (hk : k ≤ BSIZE - pos % BSIZE) : (pos ≤ p ∧ p < pos + k) ↔
      p / BSIZE = pos / BSIZE ∧ pos % BSIZE ≤ p % BSIZE ∧ p % BSIZE < pos % BSIZE + k := by
  simp only [BSIZE] at hk ⊢
  omega

/-- Copying `k` bytes of the source into a block of the file. -/
lemma copied_poke (src : Nat → Option UInt8) (off tot k : Nat) (h : Owns s (s.own i))
    (h0 : fileBlock (s.own i) (s.itable i).inum ((off + tot) / BSIZE) ≠ 0) (hk : k ≤ BSIZE - (off + tot) % BSIZE)
    (hs : s' = s.poke (fileBlock (s.own i) (s.itable i).inum ((off + tot) / BSIZE)) fun data =>
      overlay data ((off + tot) % BSIZE) (fun j => (src (tot + j)).getD 0) k) :
    Copied s s' i src off (off + tot) (off + tot + k) := by
  subst hs
  have hdata := h.data_fileBlock h0
  have hown := own_poke (f := fun data =>
      overlay data ((off + tot) % BSIZE) (fun j => (src (tot + j)).getD 0) k) h h0
  refine ⟨work_poke h.layout hdata _ i, ?_, fun m p => ?_, fun m bn _ => ?_, fun m bn _ => ?_,
    fun p h1 h2 => ?_⟩
  · rw [hown]
    exact h.poke hdata _
  · rw [hown, fileByte_poke h h0]
    by_cases hm : m = (s.itable i).inum
    · subst hm
      simp only [true_and, pos_range hk]
      by_cases hb : p / BSIZE = (off + tot) / BSIZE
      · simp only [hb, true_and, if_true, overlay]
        by_cases ho : (off + tot) % BSIZE ≤ p % BSIZE ∧ p % BSIZE < (off + tot) % BSIZE + k
        · have hp := (pos_range hk).mpr ⟨hb, ho⟩
          have hsub : tot + (p % BSIZE - (off + tot) % BSIZE) = p - off := by
            obtain ⟨j, rfl⟩ := Nat.exists_eq_add_of_le hp.1
            rw [(pos_in_block (by omega)).2]
            omega
          rw [if_pos ho, if_pos ho, hsub]
        · rw [if_neg ho, if_neg ho, fileByte, hb, if_neg h0]
      · simp only [hb, false_and, if_false]
    · simp only [hm, false_and, if_false]
  · rw [hown]
  · rw [hown]
  · rw [hown]
    obtain ⟨j, rfl⟩ := Nat.exists_eq_add_of_le h1
    rw [(pos_in_block (by omega)).1]
    exact h0

/-- How the loop of `writei` ends, after `tot'` bytes and `p` more that it does not count. -/
structure LoopEnd (s s' : State) (i : Fin NINODE) (src : Nat → Option UInt8) (off n tot tot' p : Nat) :
    Prop where
  copied : Copied s s' i src off (off + tot) (off + tot' + p)
  le : tot ≤ tot' ∧ tot' + p ≤ n
  /-- The loop stops at its start, at its end or at the end of a block. -/
  aligned : tot' = n ∨ tot' = tot ∨ (off + tot') % BSIZE = 0
  reason : tot' = n ∨ tot' + p < n ∧ src (tot' + p) = none ∨ p = 0 ∧ s'.Full ∧
    fileBlock (s.own i) (s.itable i).inum ((off + tot') / BSIZE) = 0
  /-- What is not counted is the beginning of a copy into one block. -/
  part : p ≠ 0 → (off + tot' + p) / BSIZE = (off + tot') / BSIZE
  read : ∀ k, tot ≤ k → k < tot' + p → src k ≠ none

lemma LoopEnd.of_copied {off n tot mid tot' p : Nat}
    (h1 : Copied s s₁ i src off (off + tot) (off + mid)) (hle : tot ≤ mid)
    (hread : ∀ k, tot ≤ k → k < mid → src k ≠ none)
    (hmid : mid = n ∨ (off + mid) % BSIZE = 0)
    (h2 : LoopEnd s₁ s' i src off n mid tot' p) : LoopEnd s s' i src off n tot tot' p where
  copied := h1.trans h2.copied (by omega) (by have := h2.le; omega)
  le := ⟨by have := h2.le; omega, h2.le.2⟩
  aligned := by
    rcases h2.aligned with h | rfl | h
    · exact .inl h
    · exact hmid.imp_right .inr
    · exact .inr (.inr h)
  reason := by
    refine h2.reason.imp_right fun h => h.imp_right fun hrest => ?_
    obtain ⟨hp, hfull, h0⟩ := hrest
    refine ⟨hp, hfull, ?_⟩
    by_contra hne
    rw [h1.work.inum, h1.mono _ _ hne] at h0
    exact hne h0
  part := h2.part
  read k hk hlt := by
    by_cases hmid' : k < mid
    · exact hread k hk hmid'
    · exact h2.read k (Nat.le_of_not_lt hmid') hlt

lemma writeiLoop_spec {off n : Nat} (hmax : off + n ≤ MAXFILE * BSIZE) (fuel : Nat) {tot : Nat}
    (h : Owns s (s.own i)) (hl : s.LiveAt i) (htot : tot ≤ n) (hfuel : n ≤ tot + fuel) :
    wp (writeiLoop i src off n fuel tot)
      (fun tot' s' => ∃ p, LoopEnd s s' i src off n tot tot' p) E s := by
  have hdone {s : State} (h : Owns s (s.own i)) {tot : Nat} :
      Copied s s i src off (off + tot) (off + tot + 0) :=
    ⟨.refl _ _, h, fun m k => by rw [if_neg (by omega)], fun _ _ _ => rfl, fun _ _ _ => rfl,
      fun k h1 h2 => by omega⟩
  induction fuel generalizing s tot with
  | zero =>
    exact ⟨0, hdone h, by omega, .inr (.inl rfl), .inl (by omega), absurd rfl, fun k _ _ => by omega⟩
  | succ fuel ih =>
    rw [writeiLoop]
    refine wp_ite (fun hlt => ?_) fun hge =>
      ⟨0, hdone h, by omega, .inr (.inl rfl), .inl (by omega), absurd rfl, fun k _ _ => by omega⟩
    have hbn : (off + tot) / BSIZE < MAXFILE := Nat.div_lt_of_lt_mul (by rw [Nat.mul_comm]; omega)
    obtain ⟨k, hk⟩ := fileSlot_of_lt hbn
    rw [wp_bind]
    refine (bmap_spec h hl hk).post fun addr s₁ h1 => ?_
    have haddr : addr = fileBlock (s₁.own i) (s₁.itable i).inum ((off + tot) / BSIZE) := by
      rw [fileBlock_of_slot hk, h1.work.inum]
      exact h1.result
    have hc1 : Copied s s₁ i src off (off + tot) (off + tot) := h1.copied
    refine wp_ite (fun h0 => ?_) fun h0 => ?_
    · -- out of disk space
      refine ⟨0, hc1, by omega, .inr (.inl rfl), .inr (.inr ⟨rfl, h1.full h0, ?_⟩), absurd rfl, fun k _ _ => by omega⟩
      by_contra hne
      rw [h1.work.inum, hc1.mono _ _ hne] at haddr
      exact hne (haddr ▸ h0)
    · dsimp only
      rw [wp_bind, wp_poke]
      have hpos := chunk_pos (off + tot) hlt
      have hleft := Nat.min_le_left (n - tot) (BSIZE - (off + tot) % BSIZE)
      have hright := Nat.min_le_right (n - tot) (BSIZE - (off + tot) % BSIZE)
      have hmid := chunk_end (off + tot) hlt
      generalize min (n - tot) (BSIZE - (off + tot) % BSIZE) = m at hpos hleft hright hmid ⊢
      have hacc := accessible_le (fun j => (src j).isSome) tot m
      have hnone : accessible (fun j => (src j).isSome) tot m < m →
          src (tot + accessible (fun j => (src j).isSome) tot m) = none := fun hlt => by
        simpa using accessible_lt hlt
      have hsome : ∀ k, tot ≤ k → k < tot + accessible (fun j => (src j).isSome) tot m → src k ≠ none :=
        fun k hk hlt => accessible_read hk hlt
      generalize accessible (fun j => (src j).isSome) tot m = c at hacc hnone hsome ⊢
      have hc2 := copied_poke src off tot c h1.owns (haddr ▸ h0) (by omega) rfl
      rw [← haddr] at hc2
      have hc := hc1.trans hc2 le_rfl (Nat.le_add_right _ _)
      refine wp_ite (fun hstop => ?_) fun hall => ?_
      · -- the source cannot be read
        exact ⟨c, hc, by omega, .inr (.inl rfl), .inr (.inl ⟨by omega, hnone hstop⟩),
          fun _ => (pos_in_block (by omega)).1, hsome⟩
      · obtain rfl : c = m := by omega
        rw [wp_bind, wp_logWrite]
        have hc : Copied s _ i src off (off + tot) (off + (tot + c)) :=
          (Nat.add_assoc off tot c ▸ hc).logged addr
        refine (ih hc.owns (hc.work.liveAt hl) (by omega) (by omega)).post fun tot' s' h' => ?_
        obtain ⟨p, hp⟩ := h'
        exact ⟨p, .of_copied hc (by omega) hsome (Nat.add_assoc off tot c ▸ hmid) hp⟩

/-- The offsets and lengths that `writei` accepts, on a file of the given size. -/
def Accepted (size off n : UInt32) : Prop :=
  off.toNat ≤ size.toNat ∧ off.toNat + n.toNat ≤ MAXFILE * BSIZE

lemma accepted_iff {size off n : UInt32} : Accepted size off n ↔
      ¬ (off > size ∨ off + n < off) ∧ ¬ (off + n).toNat > MAXFILE * BSIZE := by
  have h1 := off.toNat_lt
  have h2 := n.toNat_lt
  simp only [Accepted, MAXFILE, NDIRECT, NINDIRECT, BSIZE, gt_iff_lt, UInt32.lt_iff_toNat_lt, UInt32.toNat_add]
  omega

/-- `writei` has written `tot` bytes of `n`; a copy that failed has put `p` more into the buffer of
the last block. -/
structure Written (s s' : State) (i : Fin NINODE) (src : Nat → Option UInt8) (off n tot p : Nat) :
    Prop where
  consistent : Consistent s'
  frame : Frame s s' i
  inode : ∃ a size, (s'.itable i).d = { (s.itable i).d with size := size, addrs := a } ∧
    size.toNat = max (s.itable i).d.size.toNat (off + tot)
  byte : ∀ k, s'.byte (s.itable i).inum k =
    if off ≤ k ∧ k < off + tot + p then (src (k - off)).getD 0 else s.byte (s.itable i).inum k
  mono : ∀ bn, fileBlock s.disk (s.itable i).inum bn ≠ 0 →
    fileBlock s'.disk (s.itable i).inum bn ≠ 0
  mapped : ∀ k, off ≤ k → k < off + tot → fileBlock s'.disk (s.itable i).inum (k / BSIZE) ≠ 0
  le : tot + p ≤ n
  aligned : tot = n ∨ tot = 0 ∨ (off + tot) % BSIZE = 0
  reason : tot = n ∨ tot + p < n ∧ src (tot + p) = none ∨ p = 0 ∧ s'.Full ∧
    fileBlock s.disk (s.itable i).inum ((off + tot) / BSIZE) = 0
  part : p ≠ 0 → (off + tot + p) / BSIZE = (off + tot) / BSIZE
  read : ∀ k < tot + p, src k ≠ none

lemma toNat_newSize {d : Dinode} {last : Nat} (h : last ≤ MAXFILE * BSIZE) :
    (if last > d.size.toNat then { d with size := ofNat last } else d).size.toNat =
      max d.size.toNat last := by
  have hlt : last < 2 ^ 32 := Nat.lt_of_le_of_lt h (by decide)
  split
  · rw [toNat_ofNat_of_lt' hlt]
    omega
  · omega

/-- **Writing** is refused, changing nothing, or does as much as the source and the disk allow. -/
lemma writei_spec (h : Consistent s) (hi : Held s i) (src : Nat → Option UInt8) (off n : UInt32) :
    wp (writei i src off n) (fun r s' =>
      (r = -1 ∧ s' = s ∧ ¬ Accepted (s.itable i).d.size off n) ∨
      (Accepted (s.itable i).d.size off n ∧
        ∃ tot p : Nat, r = tot ∧ Written s s' i src off.toNat n.toNat tot p)) E s := by
  have hl := h.liveAt hi
  simp only [writei, wp_bind, wp_inode]
  refine wp_ite (fun hno => ?_) fun hyes1 => wp_ite (fun hno => ?_) fun hyes2 => ?_
  · exact .inl ⟨rfl, rfl, fun ha => (accepted_iff.mp ha).1 hno⟩
  · exact .inl ⟨rfl, rfl, fun ha => (accepted_iff.mp ha).2 hno⟩
  have hacc : Accepted (s.itable i).d.size off n := accepted_iff.mpr ⟨hyes1, hyes2⟩
  rw [wp_bind]
  refine (writeiLoop_spec hacc.2 n.toNat (h.owns_own hi) hl (Nat.zero_le _) (by omega)).post
    fun tot s₁ hs1 => ?_
  obtain ⟨p, hloop⟩ := hs1
  have hc := hloop.copied
  have hw := hc.work
  have hlast : off.toNat + tot ≤ MAXFILE * BSIZE := by
    have h1 := hloop.le
    have h2 := hacc.2
    omega
  rw [wp_bind, wp_setDinode, wp_bind]
  refine (save_spec (g := fun d => if off.toNat + tot > d.size.toNat then
    { d with size := ofNat (off.toNat + tot) } else d) h hi hw hc.owns ?_ ?_).post
    fun _ s' hs => .inr ⟨hacc, tot, p, rfl, ?_⟩
  · split <;> rfl
  · split <;> rfl
  have hown := h.own hi
  have hbyte (m k) := hc.byte m k
  simp only [hown, Nat.add_zero] at hbyte
  refine ⟨hs.consistent, hs.frame (fun m hm bn => ?_) (fun m hm k => ?_), ?_, fun k => ?_,
    fun bn h0 => ?_, fun k h1 h2 => ?_, hloop.le.2, hloop.aligned, ?_, hloop.part,
    fun k hk => hloop.read k (Nat.zero_le k) hk⟩
  · rw [hc.other m bn hm, hown]
  · rw [hbyte, if_neg fun hk => hm hk.1]
    rfl
  · obtain ⟨a, e⟩ := hw.entry
    refine ⟨a, _, ?_, by rw [← hw.size]; exact toNat_newSize hlast⟩
    rw [hs.inode, e]
    split <;> rfl
  · rw [hs.byte, hbyte]
    simp only [true_and]
    rfl
  · rw [hs.disk, hc.mono _ _ (by rwa [hown]), hown]
    exact h0
  · rw [hs.disk]
    exact hc.mapped k h1 (by omega)
  · rw [← hown]
    exact hloop.reason.imp_right fun h => h.imp_right fun hrest =>
      ⟨hrest.1, hs.full hrest.2.1, hrest.2.2⟩

end Write

/-! ### Reading -/

section Read

variable {E : Stop → Prop} {s : State} {i : Fin NINODE} {dst : Nat → Bool}

/-- The bytes of a file from `lo` to `hi`. -/
def State.bytes (s : State) (n lo hi : Nat) : List UInt8 :=
  (List.range' lo (hi - lo)).map (s.byte n)

lemma bytes_append (s : State) (n : Nat) {lo mid hi : Nat} (h1 : lo ≤ mid) (h2 : mid ≤ hi) :
    s.bytes n lo mid ++ s.bytes n mid hi = s.bytes n lo hi := by
  have hmid : lo + (mid - lo) = mid := by omega
  have hlen : (mid - lo) + (hi - mid) = hi - lo := by omega
  rw [State.bytes, State.bytes, State.bytes, ← map_append, ← hlen, ← List.range'_append_1, hmid]

/-- The bytes of a block from `pos` on are those of the file. -/
lemma block_bytes {pos m : Nat} (hm : m ≤ BSIZE - pos % BSIZE)
    (h0 : fileBlock s.disk (s.itable i).inum (pos / BSIZE) ≠ 0) : ((List.range m).map fun j =>
      s.blocks (fileBlock s.disk (s.itable i).inum (pos / BSIZE)) (pos % BSIZE + j)) =
      s.bytes (s.itable i).inum pos (pos + m) := by
  rw [State.bytes, Nat.add_sub_cancel_left, List.range'_eq_map_range, map_map]
  refine map_congr_left fun j hj => ?_
  have hlt : j < BSIZE - pos % BSIZE := Nat.lt_of_lt_of_le (mem_range.mp hj) hm
  obtain ⟨hdiv, hmod⟩ := pos_in_block hlt
  rw [Function.comp_apply, State.byte, fileByte, hdiv, hmod, if_neg h0]

lemma readiLoop_spec (h : Consistent s) (hi : Held s i) {off n : Nat}
    (hmap : ∀ k, off ≤ k → k < off + n → fileBlock s.disk (s.itable i).inum (k / BSIZE) ≠ 0)
    (fuel : Nat) {tot : Nat} {out : List UInt8} (htot : tot ≤ n) (hfuel : n ≤ tot + fuel)
    (hout : out = s.bytes (s.itable i).inum off (off + tot)) :
    wp (readiLoop i dst off n fuel tot out) (fun r s' => s' = s ∧
      (r = ((n : Int), s.bytes (s.itable i).inum off (off + n)) ∨
        r.1 = -1 ∧ r.2.length < n ∧ dst r.2.length = false)) E s := by
  have hdone {tot : Nat} {out : List UInt8} (htot : tot = n)
      (hout : out = s.bytes (s.itable i).inum off (off + tot)) :
      ((tot : Int), out) = ((n : Int), s.bytes (s.itable i).inum off (off + n)) := by
    rw [hout, htot]
  induction fuel generalizing tot out with
  | zero => exact ⟨rfl, .inl (hdone (by omega) hout)⟩
  | succ fuel ih =>
    rw [readiLoop]
    refine wp_ite (fun hlt => ?_) fun hge => ⟨rfl, .inl (hdone (by omega) hout)⟩
    have h0 := hmap (off + tot) (by omega) (by omega)
    have hbmap := bmap_mapped (E := E) (h.liveAt hi) (h.own hi ▸ h0)
    rw [h.own hi] at hbmap
    rw [wp_bind]
    refine hbmap.post fun addr s₁ hs1 => ?_
    obtain ⟨rfl, rfl⟩ := hs1
    refine wp_ite (fun e => absurd e h0) fun _ => ?_
    dsimp only
    rw [wp_bind, wp_bread]
    have hpos := chunk_pos (off + tot) hlt
    have hleft := Nat.min_le_left (n - tot) (BSIZE - (off + tot) % BSIZE)
    have hright := Nat.min_le_right (n - tot) (BSIZE - (off + tot) % BSIZE)
    generalize min (n - tot) (BSIZE - (off + tot) % BSIZE) = m at hpos hleft hright ⊢
    have hacc := accessible_le dst tot m
    refine wp_ite (fun hstop => ?_) fun hall => ?_
    · have hlen : (out ++ (range (accessible dst tot m)).map fun j => s₁.blocks (fileBlock s₁.disk (s₁.itable i).inum
          ((off + tot) / BSIZE)) ((off + tot) % BSIZE + j)).length = tot + accessible dst tot m := by
        simp [hout, State.bytes]
      exact ⟨rfl, .inr ⟨rfl, hlen ▸ by omega, hlen ▸ accessible_lt hstop⟩⟩
    · have hm : accessible dst tot m = m := by omega
      refine ih (by omega) (by omega) ?_
      rw [hm, block_bytes hright h0, hout, bytes_append _ _ (by omega) (by omega), Nat.add_assoc]

/-- How many bytes `readi` has to copy. -/
def readCount (size off n : UInt32) : Nat :=
  if off.toNat ≤ size.toNat ∧ off.toNat + n.toNat < 2 ^ 32 then
    min n.toNat (size.toNat - off.toNat)
  else 0

lemma readCount_eq {size off n : UInt32} (h : ¬ (off > size ∨ off + n < off)) :
    (if off + n > size then size - off else n).toNat = readCount size off n := by
  have h1 := off.toNat_lt
  have h2 := n.toNat_lt
  simp only [gt_iff_lt, not_or, UInt32.lt_iff_toNat_lt, UInt32.toNat_add, Nat.not_lt] at h
  have hsum : off.toNat + n.toNat < 2 ^ 32 := by omega
  have hcount : readCount size off n = min n.toNat (size.toNat - off.toNat) :=
    if_pos ⟨h.1, hsum⟩
  rw [hcount]
  split
  · rename_i hgt
    rw [gt_iff_lt, UInt32.lt_iff_toNat_lt, UInt32.toNat_add] at hgt
    rw [UInt32.toNat_sub_of_le _ _ (UInt32.le_iff_toNat_le.mpr h.1)]
    omega
  · rename_i hle
    rw [gt_iff_lt, UInt32.lt_iff_toNat_lt, UInt32.toNat_add] at hle
    omega

/-- **Reading** a file that has no block missing changes nothing. -/
lemma readi_spec (h : Consistent s) (hi : Held s i) (hmap : ∀ k, k < (s.itable i).d.size.toNat →
      fileBlock s.disk (s.itable i).inum (k / BSIZE) ≠ 0) (off n : UInt32) :
    wp (readi i dst off n) (fun r s' => s' = s ∧
      (r = ((readCount (s.itable i).d.size off n : Int), s.bytes (s.itable i).inum off.toNat
          (off.toNat + readCount (s.itable i).d.size off n)) ∨
        r.1 = -1 ∧ r.2.length < readCount (s.itable i).d.size off n ∧ dst r.2.length = false)) E s := by
  simp only [readi, wp_bind, wp_inode]
  refine wp_ite (fun hno => ⟨rfl, .inl ?_⟩) fun hyes => ?_
  · have hcount : readCount (s.itable i).d.size off n = 0 := by
      have h1 := off.toNat_lt
      have h2 := n.toNat_lt
      simp only [gt_iff_lt, UInt32.lt_iff_toNat_lt, UInt32.toNat_add] at hno
      rw [readCount, if_neg (by omega)]
    rw [hcount]
    simp [State.bytes]
  · rw [readCount_eq hyes]
    refine readiLoop_spec h hi (fun k _ hk => hmap k ?_) _ (Nat.zero_le _) (by omega) (by simp [State.bytes])
    rw [readCount] at hk
    split at hk <;> omega

end Read

end FypOs.Fs
