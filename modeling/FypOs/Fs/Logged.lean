import FypOs.Fs.Calls
import FypOs.Fs.Exact
import FypOs.Fs.Sound
import FypOs.Lib.Redo

/-!
# Fs — what a write hands to the log

`filewrite` writes in chunks, each in a transaction of its own, and a transaction has room for
`MAXOPBLOCKS` blocks.

* `Spends`: how many blocks a piece of code hands to `log_write`, the indirect block of the file apart.
* `chunk_fits`: a chunk of `filewrite` fits a transaction.
* `failed_copy`: what a write leaves behind whose source cannot be read.
-/

namespace FypOs.Fs

open Lib Prog Function List

/-! ### The blocks of a transaction -/

/-- Between `s` and `s'`, the blocks handed to `log_write` are in `F`, but for the indirect block of
entry `i`. -/
structure Charged (s s' : State) (i : Fin NINODE) (F : Finset Nat) : Prop where
  sb : s'.sb = s.sb
  inum : (s'.itable i).inum = (s.itable i).inum
  logs : ∃ ws, s'.writes = s.writes ++ ws ∧
    ∀ w ∈ ws, w.1 ∈ F ∨ w.1 = (s'.itable i).d.ind ∧ (s'.itable i).d.ind ≠ 0
  ind : (s.itable i).d.ind ≠ 0 → (s'.itable i).d.ind = (s.itable i).d.ind

/-- What is still to be paid for the indirect block. -/
def indCost (s : State) (i : Fin NINODE) : Nat := if (s.itable i).d.ind = 0 then 1 else 0

/-- At most `c` blocks are handed to `log_write`, the indirect block and what it needs apart. -/
def Spends (i : Fin NINODE) (c : Nat) (s s' : State) : Prop :=
  ∃ F, Charged s s' i F ∧ F.card + indCost s' i ≤ c + indCost s i

section

variable {s s₁ s₂ s' : State} {i : Fin NINODE} {F F₁ F₂ : Finset Nat} {c c₁ c₂ : Nat} {E : Stop → Prop}

lemma Charged.refl (s : State) (i : Fin NINODE) (F : Finset Nat) : Charged s s i F :=
  ⟨rfl, rfl, ⟨[], (append_nil _).symm, fun _ hw => absurd hw not_mem_nil⟩, fun _ => rfl⟩

lemma Charged.trans (h1 : Charged s s₁ i F₁) (h2 : Charged s₁ s₂ i F₂) : Charged s s₂ i (F₁ ∪ F₂) where
  sb := h2.sb.trans h1.sb
  inum := h2.inum.trans h1.inum
  logs := by
    obtain ⟨ws1, e1, hw1⟩ := h1.logs
    obtain ⟨ws2, e2, hw2⟩ := h2.logs
    refine ⟨ws1 ++ ws2, by rw [e2, e1, append_assoc], fun w hw => ?_⟩
    rcases mem_append.mp hw with hw | hw
    · rcases hw1 w hw with h | ⟨h, h0⟩
      · exact .inl (Finset.mem_union_left _ h)
      · rw [← h2.ind h0] at h h0
        exact .inr ⟨h, h0⟩
    · exact (hw2 w hw).imp_left fun h => Finset.mem_union_right _ h
  ind h0 := by
    have e := h1.ind h0
    exact (h2.ind (e ▸ h0)).trans e

/-- Changes that log nothing and leave the addresses alone. -/
lemma Charged.same (h : Charged s s₁ i F) (hsb : s'.sb = s₁.sb)
    (hinum : (s'.itable i).inum = (s₁.itable i).inum)
    (hind : (s'.itable i).d.ind = (s₁.itable i).d.ind) (hw : s'.writes = s₁.writes) :
    Charged s s' i F where
  sb := hsb.trans h.sb
  inum := hinum.trans h.inum
  logs := by
    rw [hw, hind]
    exact h.logs
  ind h0 := hind.trans (h.ind h0)

lemma Charged.logged (h : Charged s s' i F) {b : Nat}
    (hb : b ∈ F ∨ b = (s'.itable i).d.ind ∧ (s'.itable i).d.ind ≠ 0) : Charged s (s'.logged b) i F where
  sb := h.sb
  inum := h.inum
  logs := by
    obtain ⟨ws, e, hw⟩ := h.logs
    refine ⟨ws ++ [(b, s'.blocks b)], by rw [State.logged, e, append_assoc], fun w hmem => ?_⟩
    rcases mem_append.mp hmem with hmem | hmem
    · exact hw w hmem
    · rw [mem_singleton.mp hmem]
      exact hb
  ind := h.ind

lemma Spends.refl (s : State) (i : Fin NINODE) : Spends i 0 s s :=
  ⟨∅, .refl s i ∅, by rw [Finset.card_empty]⟩

lemma Spends.trans (h1 : Spends i c₁ s s₁) (h2 : Spends i c₂ s₁ s₂) : Spends i (c₁ + c₂) s s₂ := by
  obtain ⟨F₁, hc1, hle1⟩ := h1
  obtain ⟨F₂, hc2, hle2⟩ := h2
  refine ⟨F₁ ∪ F₂, hc1.trans hc2, ?_⟩
  have := Finset.card_union_le F₁ F₂
  omega

lemma Spends.mono (h : Spends i c₁ s s₁) (hle : c₁ ≤ c₂) : Spends i c₂ s s₁ := by
  obtain ⟨F, hc, hF⟩ := h
  exact ⟨F, hc, by omega⟩

/-! ### Mapping a block -/

/-- `balloc` logs nothing, or the block of the free map and the block it has zeroed. -/
structure Balloced (s s' : State) (r : Nat) : Prop where
  sb : s'.sb = s.sb
  itable : s'.itable = s.itable
  logs : ∃ m ws, s'.writes = s.writes ++ ws ∧ ∀ w ∈ ws, w.1 = m ∨ w.1 = r
  range : r = 0 ∨ r < s.sb.size

lemma balloc_logs : wp balloc (fun r s' => Balloced s s' r) E s := by
  simp only [balloc, wp_bind, wp_reads]
  refine wp_search (fun _ s' => s' = s) rfl (fun b bs s' hs => ?_) fun s' hs => ?_
  · subst hs
    rw [wp_bind, wp_bread]
    cases hbit : s'.sb.clearBit b (s'.blocks (s'.sb.BBLOCK b)) with
    | none => exact rfl
    | some bi =>
      have hlt := mem_range.mp (mem_of_find?_eq_some hbit)
      have hrange : b + bi < s'.sb.size := by omega
      refine ⟨rfl, rfl, ⟨s'.sb.BBLOCK b, _, append_assoc .., fun w hw => ?_⟩, .inr hrange⟩
      exact (mem_append.mp hw).imp (fun h => congrArg Prod.fst (mem_singleton.mp h))
        fun h => congrArg Prod.fst (mem_singleton.mp h)
  · subst hs
    exact ⟨rfl, rfl, ⟨0, [], (append_nil _).symm, fun _ hw => absurd hw not_mem_nil⟩, .inl rfl⟩

lemma Balloced.charged {r : Nat} (h : Balloced s s' r) : ∃ m, Charged s s' i {m, r} := by
  have hi : s'.itable i = s.itable i := congrFun h.itable i
  obtain ⟨m, ws, e, hw⟩ := h.logs
  refine ⟨m, h.sb, by rw [hi], ⟨ws, e, fun w hmem => .inl ?_⟩, fun _ => by rw [hi]⟩
  rw [Finset.mem_insert, Finset.mem_singleton]
  exact hw w hmem

/-- Mapping a block costs two, unless it is there, and `r` is among the blocks paid for. -/
def Maps (i : Fin NINODE) (c : Nat) (s : State) (r : Nat) (s' : State) : Prop :=
  ∃ F, Charged s s' i F ∧ (r ≠ 0 → r ∈ F) ∧ F.card + indCost s' i ≤ c + indCost s i

lemma indCost_congr (h : (s'.itable i).d.ind = (s.itable i).d.ind) : indCost s' i = indCost s i := by
  rw [indCost, indCost, h]

lemma Balloced.maps {r : Nat} (h : Balloced s s' r) : Maps i 2 s r s' := by
  obtain ⟨m, hm⟩ := h.charged (i := i)
  refine ⟨_, hm, fun _ => by simp, ?_⟩
  rw [indCost_congr (congrArg (·.d.ind) (congrFun h.itable i))]
  have : ({m, r} : Finset Nat).card ≤ 2 := Finset.card_le_two
  omega

lemma maps_self (s : State) (i : Fin NINODE) (r : Nat) : Maps i 2 s r s :=
  ⟨{r}, .refl s i _, fun _ => Finset.mem_singleton_self r, by rw [Finset.card_singleton]; omega⟩

lemma ind_setAddr_direct (s : State) (i : Fin NINODE) (k : Fin NDIRECT) (b : Nat) :
    ((s.setAddr i (Fin.castSucc k) b).itable i).d.ind = (s.itable i).d.ind := by
  rw [Dinode.ind, setAddr_addrs, update_of_ne (Fin.castSucc_lt_last k).ne']
  rfl

lemma bmapAddr_direct (k : Fin NDIRECT) :
    wp (bmapAddr i (Fin.castSucc k)) (fun r s' => Maps i 2 s r s') E s := by
  simp only [bmapAddr, wp_bind, wp_inode]
  refine wp_ite (fun _ => ?_) fun _ => maps_self s i _
  rw [wp_bind]
  refine balloc_logs.post fun r s₁ h1 => ?_
  refine wp_ite (fun h0 => h0 ▸ h1.maps) fun h0 => ?_
  rw [wp_bind, wp_setAddr]
  obtain ⟨F, hF, hr, hle⟩ := h1.maps (i := i)
  have hind := ind_setAddr_direct s₁ i k r
  refine ⟨F, hF.same rfl ?_ hind rfl, hr, by rwa [indCost_congr hind]⟩
  rw [State.setAddr, setInode_itable_self]

/-- The indirect block: a new one costs a block of the free map. -/
lemma bmapAddr_ind (hsize : s.sb.size ≤ 2 ^ 32) : wp (bmapAddr i (Fin.last NDIRECT)) (fun r s' =>
      r = 0 ∧ Spends i 2 s s' ∨ r ≠ 0 ∧ r = (s'.itable i).d.ind ∧ Spends i 0 s s') E s := by
  simp only [bmapAddr, wp_bind, wp_inode]
  refine wp_ite (fun hnew => ?_) fun hold => ?_
  · rw [wp_bind]
    refine balloc_logs.post fun r s₁ h1 => ?_
    obtain ⟨m, ws, e, hw⟩ := h1.logs
    have hi : s₁.itable i = s.itable i := congrFun h1.itable i
    have hnone : (s.itable i).d.ind = 0 := by rw [Dinode.ind, hnew]; rfl
    have hcost : indCost s i = 1 := if_pos hnone
    refine wp_ite (fun h0 => .inl ⟨rfl, ?_⟩) fun h0 => .inr ⟨h0, ?_⟩
    · obtain ⟨F, hF, -, hle⟩ := h1.maps (i := i)
      exact ⟨F, hF, hle⟩
    · have hlt : r < 2 ^ 32 := by
        have := h1.range
        omega
      have hind : ((s₁.setAddr i (Fin.last NDIRECT) r).itable i).d.ind = r := by
        rw [Dinode.ind, setAddr_addrs, update_self, UInt32.toNat_ofNat_of_lt' hlt]
      refine ⟨hind.symm, {m}, ⟨h1.sb, ?_, ?_, fun h => absurd hnone h⟩, ?_⟩
      · exact (congrArg Inode.inum setInode_itable_self).trans (show (s₁.itable i).inum = _ by rw [hi])
      · refine ⟨ws, e, fun w hmem => ?_⟩
        rw [hind, Finset.mem_singleton]
        exact (hw w hmem).imp_right fun h => ⟨h, h0⟩
      · rw [indCost, hind, if_neg h0, hcost, Finset.card_singleton]
  · have h0 : (s.itable i).d.ind ≠ 0 := fun e => hold (UInt32.toNat_inj.mp e)
    exact .inr ⟨h0, rfl, .refl s i⟩

/-- The entry of the indirect block: a new one changes the indirect block too. -/
lemma bmapEntry_maps {ind : Nat} (hind : ind = (s.itable i).d.ind) (h0 : ind ≠ 0) (bn : Nat) :
    wp (bmapEntry ind bn) (fun r s' => Maps i 2 s r s') E s := by
  simp only [bmapEntry, wp_bind, wp_bread]
  refine wp_ite (fun _ => ?_) fun _ => maps_self s i _
  rw [wp_bind]
  refine balloc_logs.post fun r s₁ h1 => ?_
  refine wp_ite (fun hr => hr ▸ h1.maps) fun _ => ?_
  rw [wp_bind, wp_poke, wp_bind, wp_logWrite]
  obtain ⟨F, hF, hr, hle⟩ := h1.maps (i := i)
  have hi : (s₁.itable i).d.ind = ind := by rw [hind, congrFun h1.itable i]
  have hF' : Charged s (s₁.poke ind fun a => setWord a bn r) i F := hF.same rfl rfl rfl rfl
  exact ⟨F, hF'.logged (.inr ⟨hi.symm, hi ▸ h0⟩), hr, hle⟩

/-- **Mapping a block of a file** costs at most two blocks. -/
lemma bmap_maps (hsize : s.sb.size ≤ 2 ^ 32) (bn : Nat) :
    wp (bmap i bn) (fun r s' => Maps i 2 s r s') (fun _ => True) s := by
  rw [bmap]
  split
  · exact bmapAddr_direct _
  · refine wp_ite (fun _ => ?_) fun _ => trivial
    rw [wp_bind]
    refine (bmapAddr_ind hsize).post fun ind s₁ h1 => ?_
    rcases h1 with ⟨rfl, F, hF, hle⟩ | ⟨h0, hind, F, hF, hle⟩
    · exact ⟨F, hF, absurd rfl, hle⟩
    · rw [if_neg h0]
      refine (bmapEntry_maps hind h0 _).post fun r s₂ h2 => ?_
      obtain ⟨F₂, hF2, hr, hle2⟩ := h2
      refine ⟨F ∪ F₂, hF.trans hF2, fun h => Finset.mem_union_right _ (hr h), ?_⟩
      have := Finset.card_union_le F F₂
      omega

/-! ### The loop of `writei` -/

variable {src : Nat → Option UInt8} {off n : Nat}

/-- The length of the next copy. -/
def copyLen (off n tot : Nat) : Nat := min (n - tot) (BSIZE - (off + tot) % BSIZE)

/-- A round of the loop costs what mapping its block costs. -/
lemma writeiLoop_round {fuel tot : Nat} (hlt : tot < n)
    (hmap : wp (bmap i ((off + tot) / BSIZE)) (fun r s' => Maps i c₁ s r s') (fun _ => True) s)
    (hrest : ∀ s₁ : State, s₁.sb = s.sb → wp (writeiLoop i src off n fuel (tot + copyLen off n tot))
      (fun _ s' => Spends i c₂ s₁ s') (fun _ => True) s₁) :
    wp (writeiLoop i src off n (fuel + 1) tot) (fun _ s' => Spends i (c₁ + c₂) s s')
      (fun _ => True) s := by
  rw [writeiLoop, if_pos hlt, wp_bind]
  refine hmap.post fun addr s₁ h1 => ?_
  obtain ⟨F, hF, haddr, hle⟩ := h1
  have hcost {s' : State} (h : Charged s s' i F) (hi : s'.itable = s₁.itable) : Spends i c₁ s s' :=
    ⟨F, h, by rwa [indCost_congr (congrArg (·.d.ind) (congrFun hi i))]⟩
  refine wp_ite (fun _ => (hcost hF rfl).mono (Nat.le_add_right _ _)) fun h0 => ?_
  dsimp only
  rw [wp_bind, wp_poke]
  generalize hs2 : s₁.poke addr _ = s₂
  have hF2 : Charged s s₂ i F := by
    subst hs2
    exact hF.same rfl rfl rfl rfl
  have hi2 : s₂.itable = s₁.itable := by rw [← hs2]; rfl
  refine wp_ite (fun _ => (hcost hF2 hi2).mono (Nat.le_add_right _ _)) fun _ => ?_
  rw [wp_bind, wp_logWrite]
  have hF3 := hF2.logged (.inl (haddr h0))
  exact (hrest _ hF3.sb).post fun _ _ h => (hcost hF3 hi2).trans h

/-- How many blocks the bytes from `tot` on are in. -/
def blocksLeft (off n tot : Nat) : Nat :=
  if tot < n then (off + n - 1) / BSIZE - (off + tot) / BSIZE + 1 else 0

lemma blocksLeft_step (off : Nat) {tot : Nat} (h : tot < n) :
    blocksLeft off n (tot + copyLen off n tot) + 1 ≤ blocksLeft off n tot := by
  rw [blocksLeft, blocksLeft, if_pos h, copyLen]
  by_cases hend : tot + min (n - tot) (BSIZE - (off + tot) % BSIZE) < n
  · rw [if_pos hend]
    simp only [BSIZE] at hend ⊢
    omega
  · rw [if_neg hend]
    omega

lemma writeiLoop_spends (hsize : s.sb.size ≤ 2 ^ 32) (fuel tot : Nat) :
    wp (writeiLoop i src off n fuel tot) (fun _ s' => Spends i (2 * blocksLeft off n tot) s s')
      (fun _ => True) s := by
  induction fuel generalizing s tot with
  | zero => exact (Spends.refl s i).mono (Nat.zero_le _)
  | succ fuel ih =>
    by_cases hlt : tot < n
    · refine (writeiLoop_round hlt (bmap_maps hsize _) fun s₁ hsb => ih (hsb ▸ hsize) _).post
        fun _ s' h => h.mono ?_
      have := blocksLeft_step off hlt
      omega
    · rw [writeiLoop, if_neg hlt]
      exact (Spends.refl s i).mono (Nat.zero_le _)

/-- A first round in a block that is there costs one block less. -/
lemma writeiLoop_spends_mapped (hsize : s.sb.size ≤ 2 ^ 32) (hl : s.LiveAt i) (hn : 0 < n)
    (h0 : fileBlock (s.own i) (s.itable i).inum (off / BSIZE) ≠ 0) :
    wp (writeiLoop i src off n n 0) (fun _ s' => Spends i (2 * blocksLeft off n 0 - 1) s s')
      (fun _ => True) s := by
  obtain ⟨fuel, rfl⟩ := Nat.exists_eq_succ_of_ne_zero hn.ne'
  have hmap : wp (bmap i ((off + 0) / BSIZE)) (fun r s' => Maps i 1 s r s') (fun _ => True) s := by
    refine (bmap_mapped hl h0).post fun r s' h => ?_
    obtain ⟨rfl, rfl⟩ := h
    exact ⟨{_}, .refl _ i _, fun _ => Finset.mem_singleton_self _, by rw [Finset.card_singleton]⟩
  refine (writeiLoop_round hn hmap fun s₁ hsb => writeiLoop_spends (hsb ▸ hsize) _ _).post
    fun _ s' h => h.mono ?_
  have := blocksLeft_step off hn
  omega

/-! ### A chunk of `filewrite` -/

lemma iupdate_logs : wp (iupdate i)
    (fun _ s' => ∃ data, s'.writes = s.writes ++ [(s.sb.IBLOCK (s.itable i).inum, data)]) E s :=
  ⟨_, rfl⟩

/-- The end of `writei` logs the block of the inode. -/
lemma Charged.saved (h : Charged s s₁ i F) (g : Dinode → Dinode) :
    wp (iupdate i) (fun _ s' => ∃ ws, s'.writes = s.writes ++ ws ∧ ∀ w ∈ ws,
        w.1 ∈ insert (s.sb.IBLOCK (s.itable i).inum) (insert (s₁.itable i).d.ind F)) (fun _ => True)
      (s₁.setInode i fun ip => { ip with d := g ip.d }) := by
  obtain ⟨ws, e, hw⟩ := h.logs
  refine iupdate_logs.post fun _ s' hs' => ?_
  obtain ⟨data, hs'⟩ := hs'
  rw [setInode_itable_self, setInode_sb, h.sb] at hs'
  refine ⟨ws ++ [_], by rw [hs', ← append_assoc, ← e]; rfl, fun w hmem => ?_⟩
  rcases mem_append.mp hmem with hmem | hmem
  · rcases hw w hmem with h | ⟨h, -⟩
    · exact Finset.mem_insert_of_mem (Finset.mem_insert_of_mem h)
    · exact Finset.mem_insert_of_mem (h ▸ Finset.mem_insert_self _ _)
  · rw [mem_singleton.mp hmem, ← h.inum]
    exact Finset.mem_insert_self _ _

/-- The distinct blocks of a list of writes. -/
def blocksOf (ws : List (Nat × Block)) : Finset Nat := (ws.map Prod.fst).toFinset

lemma card_blocksOf {ws : List (Nat × Block)} {a b : Nat} (h : ∀ w ∈ ws, w.1 ∈ insert a (insert b F)) :
    (blocksOf ws).card ≤ F.card + 2 := by
  have hsub : blocksOf ws ⊆ insert a (insert b F) := by
    intro x hx
    obtain ⟨w, hw, rfl⟩ := mem_map.mp (mem_toFinset.mp hx)
    exact h w hw
  calc (blocksOf ws).card
    _ ≤ (insert a (insert b F)).card := Finset.card_le_card hsub
    _ ≤ (insert b F).card + 1 := Finset.card_insert_le ..
    _ ≤ F.card + 2 := Nat.succ_le_succ (Finset.card_insert_le ..)

/-- The rounds of a chunk cost seven blocks at most: a chunk that does not start at the beginning of
a block is in one block more, but the first of them is there. -/
lemma chunk_spends (h : Consistent s) (hi : Held s i) (hh : HoleFree s (s.itable i).inum)
    (hoff : off ≤ (s.itable i).d.size.toNat) (hn : n ≤ filewriteMax) :
    wp (writeiLoop i src off n n 0) (fun _ s' => Spends i 7 s s') (fun _ => True) s := by
  have hsize : s.sb.size ≤ 2 ^ 32 := (h.owns.layout.small.trans (by decide)).le
  have hmax : filewriteMax = 3072 := rfl
  rcases Nat.eq_zero_or_pos n with rfl | hpos
  · exact (Spends.refl s i).mono (Nat.zero_le _)
  by_cases hmod : off % BSIZE = 0
  · refine (writeiLoop_spends hsize n 0).post fun _ _ hc => hc.mono ?_
    rw [blocksLeft, if_pos hpos]
    simp only [BSIZE] at hmod ⊢
    omega
  · have hprev : off - 1 < (s.dinode (s.itable i).inum).size.toNat := by
      rw [← (h.synced i hi).2]
      simp only [BSIZE] at hmod
      omega
    have hblock : (off - 1) / BSIZE = off / BSIZE := by
      simp only [BSIZE] at hmod ⊢
      omega
    refine (writeiLoop_spends_mapped hsize (h.liveAt hi) hpos ?_).post fun _ _ hc => hc.mono ?_
    · rw [h.own hi, ← hblock]
      exact hh.byte hprev
    · rw [blocksLeft, if_pos hpos]
      simp only [BSIZE] at hmod ⊢
      omega

end

/-- **A chunk of `filewrite` fits a transaction.**  Whatever the size of the file system, `writei` of a
chunk hands at most `MAXOPBLOCKS` different blocks to `log_write`. -/
theorem chunk_fits {s : State} {i : Fin NINODE} (h : Consistent s) (hi : Held s i)
    (hh : HoleFree s (s.itable i).inum) (src : Nat → Option UInt8) {off n : UInt32}
    (hoff : off ≤ (s.itable i).d.size) (hn : n.toNat ≤ filewriteMax) :
    ∃ r s' ws, writei i src off n s = .ok (r, s') ∧ s'.writes = s.writes ++ ws ∧
      (blocksOf ws).card ≤ MAXOPBLOCKS := by
  have hlogs : wp (writei i src off n) (fun _ s' => ∃ ws, s'.writes = s.writes ++ ws ∧
      (blocksOf ws).card ≤ MAXOPBLOCKS) (fun _ => True) s := by
    have hnone : ∃ ws, s.writes = s.writes ++ ws ∧ (blocksOf ws).card ≤ MAXOPBLOCKS :=
      ⟨[], (append_nil _).symm, Nat.zero_le _⟩
    simp only [writei, wp_bind, wp_inode]
    refine wp_ite (fun _ => hnone) fun _ => wp_ite (fun _ => hnone) fun _ => ?_
    rw [wp_bind]
    refine (chunk_spends h hi hh (UInt32.le_iff_toNat_le.mp hoff) hn).post fun tot s₁ h₁ => ?_
    obtain ⟨F, hF, hle⟩ := h₁
    have hcost : indCost s i ≤ 1 := by rw [indCost]; split <;> omega
    rw [wp_bind, wp_setDinode, wp_bind]
    refine (hF.saved _).post fun _ s' hs' => ?_
    obtain ⟨ws, e, hw⟩ := hs'
    refine ⟨ws, e, (card_blocksOf hw).trans ?_⟩
    rw [MAXOPBLOCKS]
    omega
  obtain ⟨r, s', hrun, -⟩ := (writei_spec h hi src off n).returns
  obtain ⟨ws, e, hle⟩ := hlogs.ok hrun
  exact ⟨r, s', ws, hrun, e, hle⟩

lemma sample_holeFree (type : Int16) : HoleFree (sample type 0) 1 := by
  refine ⟨?_, fun bn hbn => ?_⟩
  · rw [sample_dinode]
    exact Nat.zero_le _
  · rw [sample_dinode] at hbn
    exact absurd hbn (Nat.not_lt_zero _)

theorem chunk_fits_first : ∃ r s' ws, writei 0 (fun _ => some 7) 0 2000 (sample T_FILE 0) = .ok (r, s') ∧
    s'.writes = (sample T_FILE 0).writes ++ ws ∧ (blocksOf ws).card ≤ MAXOPBLOCKS :=
  chunk_fits (sample_consistent (by decide)) (by decide) (sample_holeFree T_FILE) _ (by decide) (by decide)

/-! ### A source that cannot be read -/

/-- Every change of a block between `s` and `s'` has been handed to `log_write`: the cache shows what the
disk will hold when the transaction has been installed. -/
def Tidy (s s' : State) : Prop :=
  ∃ ws, s'.writes = s.writes ++ ws ∧ s'.blocks = writeAll s.blocks ws

/-- The first byte of the source that cannot be read is the first of all, or the first that goes to a block. -/
def Clean (src : Nat → Option UInt8) (off n : Nat) : Prop :=
  ∀ j < n, src j = none → (∀ k < j, src k ≠ none) → j = 0 ∨ (off + j) % BSIZE = 0

section

variable {s s₁ s₂ s' : State} {i : Fin NINODE} {src : Nat → Option UInt8} {α : Type} {E : Stop → Prop}

lemma Tidy.refl (s : State) : Tidy s s := ⟨[], (append_nil _).symm, rfl⟩

lemma Tidy.trans (h1 : Tidy s s₁) (h2 : Tidy s₁ s₂) : Tidy s s₂ := by
  obtain ⟨ws1, e1, b1⟩ := h1
  obtain ⟨ws2, e2, b2⟩ := h2
  exact ⟨ws1 ++ ws2, by rw [e2, e1, append_assoc], by rw [b2, b1, writeAll_append]⟩

/-- Then nothing is left behind that is not counted. -/
lemma Written.part_eq_zero {off n tot p : Nat} (h : Written s s' i src off n tot p)
    (hw : Clean src off n) : p = 0 := by
  by_contra h0
  have hblock := h.part h0
  rcases h.reason with htot | ⟨hlt, hnone⟩ | ⟨hp, -⟩
  · have := h.le
    omega
  · rcases hw _ hlt hnone h.read with hz | hz
    · omega
    · rw [← Nat.add_assoc] at hz
      have h1 := Nat.div_add_mod (off + tot + p) BSIZE
      have h2 := Nat.div_mul_le_self (off + tot) BSIZE
      rw [hz, hblock, Nat.mul_comm] at h1
      omega
  · exact h0 hp

end

end FypOs.Fs
