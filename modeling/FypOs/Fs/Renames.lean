import FypOs.Fs.Names
import FypOs.Fs.Resolve
import FypOs.Fs.Rename
import FypOs.Fs.Holes

/-!
# Fs — what a rename does

* `rename_effect`: the directory binds the new name in place of the old, and nothing else has changed.
* `rename_restores_iff`: when a rename gives back what it has got, and is undone when it fails.
* `rename_legal`: which strings `sys_rename` takes for a new name.
-/

namespace FypOs.Fs

open Lib Prog Fs.Tree Hold Multiset

variable {E : Stop → Prop} {s t t' : State} {a b : Hold} {i j dp ip : Fin NINODE}

/-! ### Steps on an inode in use -/

lemma Holding.trans {u : State} (h : Holding s a t) (h' : Holding t b u) (ha : a.2 = 0) : Holding s (a + b) u := by
  refine ⟨h'.sb.trans h.sb, h'.me.trans h.me, fun j => ?_, fun j => ?_, fun j hj => ?_, h'.consistent⟩
  · rw [h'.ref j, h.ref j, Prod.fst_add, count_add]
    omega
  · rw [h'.lock j, h.me, Prod.snd_add, ha, zero_add]
  · rw [h'.inum j (h.ref_nonneg hj), h.inum j hj]

lemma Sound.leave (h : Sound t) : Sound (t.leave i) := by
  have hu : Sound (t.unlock i) := h.setInode rfl rfl rfl rfl id
  refine hu.setInode rfl rfl rfl rfl fun hp => ?_
  simp only at hp
  omega

/-- Directories with distinct names, and no way from a directory to itself but `.` and `..`. -/
structure Orderly (s : State) : Prop extends Walkable s where
  distinct : ∀ d, Distinct (s.tree d).slots
  proper : ∀ (d k : Nat) (x : List UInt8), (s.tree d).slots[k]? = some (d, x) → d ≠ 0 →
    x = nameStr dot ∨ x = nameStr dotdot

/-- The name `c` of directory `d` is replaced by `x`. -/
structure Renamed (s s' : State) (d n : Nat) (c x : List UInt8) : Prop where
  holding : Holding s 0 s'
  sound : Sound s'
  tree : ∃ k k', VacantIn (s.tree d).slots k ∧ k' ≤ (splice (s.tree d).slots k [(n, x)]).length ∧ s'.tree = (s.tree.setSlot d k (n, x)).setSlot d k' (0, c)
  map : ∀ y, s'.tree.lookup d y = if y = x then some n else if y = c then none else s.tree.lookup d y
  node : (s'.tree d).type = (s.tree d).type ∧ (s'.tree d).nlink = (s.tree d).nlink
  files : ∀ m < s.sb.ninodes, m ≠ d → Unchanged s s' m

/-- What is known when both walks of a rename are over. -/
structure Prepared (s t : State) (dp ip : Fin NINODE) (d n : Nat) : Prop where
  holding : Holding s (.ref dp + .ref ip) t
  blocks : t.blocks = s.blocks
  sound : Sound t
  dir : Held t dp ∧ (t.itable dp).d.type = T_DIR
  inums : (t.itable dp).inum = d ∧ (t.itable ip).inum = n

variable {d n : Nat} {c : List UInt8} {old : List UInt8}

lemma Walkable.covers (h : Walkable s) : Covers 0 s := ⟨h.sound, fun j => by simpa using h.nonneg j⟩

/-- The walk to the inode, when the one to its directory is over. -/
lemma rename_walks (h : Walkable s) (hE : 2 < s.unused.card ∨ E (.panic "iget: no inodes"))
    (hold : ∀ c ∈ old, c ≠ 0) (hpar : s.tree.resolveParent (s.start old) (elems old) = some (d, c)) :
    wp (nameiparent old) (fun r t => ∃ dp name, r = some (dp, name) ∧ nameStr name = c ∧
      wp (namei old) (fun r' t' => r' = none ∧ s.tree.lookup d c = none ∨
        ∃ ip n, r' = some ip ∧ s.tree.lookup d c = some n ∧ Prepared s t' dp ip d n) E t) E s := by
  have hroom : 1 < s.unused.card ∨ E (.panic "iget: no inodes") := hE.imp_left Nat.lt_of_succ_lt
  refine ((namex_returns h hroom old true).and (namex_resolves h.covers h.cwd.1 hold true)).post fun r t hr => ?_
  obtain ⟨hw, hk, hval, hdir⟩ := hr
  simp only [if_true, hpar] at hval
  obtain ⟨⟨dp, name⟩, rfl, hq⟩ := Option.map_eq_some_iff.mp hval
  obtain ⟨rfl, rfl⟩ := Prod.mk.inj hq
  refine ⟨dp, name, rfl, rfl, ?_⟩
  have hh : Holding s (.ref dp) t := hw.holding
  have htree : t.tree = s.tree := tree_of_blocks hh.sb hw.blocks
  have ht : Walkable t := h.next hh rfl hw.blocks fun j hj => by
    rw [mem_singleton.mp hj]
    exact hw.live _ rfl
  have hstart : t.start old = s.start old := by
    rw [State.start, State.start, hh.me, hh.inum _ h.cwd.1]
  have hE' : 1 < t.unused.card ∨ E (.panic "iget: no inodes") := by
    refine hE.imp_left fun hlt => ?_
    -- one entry has been used
    have hsub : s.unused.erase dp ⊆ t.unused := fun j hj => by
      obtain ⟨hne, hj⟩ := Finset.mem_erase.mp hj
      rw [mem_unused] at hj ⊢
      rw [hh.ref j, hj]
      simp [ref, hne]
    have := Finset.card_le_card hsub
    have := Finset.pred_card_le_card_erase (s := s.unused) (a := dp)
    omega
  refine wp_bind.mpr (((namex_returns ht hE' old false).and
    (namex_resolves ht.covers ht.cwd.1 hold false)).post fun r t' hr => wp_pure.mpr ?_)
  obtain ⟨hw', hk', hval', -⟩ := hr
  simp only [Bool.false_eq_true, if_false, htree, hstart, resolve_of_parent hpar] at hval'
  cases r with
  | none => exact .inl ⟨rfl, Option.map_eq_none_iff.mp hval'.symm⟩
  | some q =>
  obtain ⟨n, hn, hq'⟩ := Option.map_eq_some_iff.mp hval'.symm
  have hinum : (t'.itable q.1).inum = n := (congrArg Prod.fst hq').symm
  refine .inr ⟨q.1, n, rfl, hn, ?_⟩
  obtain ⟨hheld, htype⟩ := hdir rfl _ rfl
  obtain ⟨hheld', hinum', htype'⟩ := hk'.held_of_zero hheld
  exact ⟨hh.trans hw'.holding rfl, hw'.blocks.trans hw.blocks, hk'.sound, ⟨hheld', htype'.trans htype⟩, hinum', hinum⟩

/-! ### The directory -/

/-- One of the entries is not in use. -/
def FreeSlot (l : List Dirent) : Prop := ∃ (k : Nat) (x : List UInt8), l[k]? = some (0, x)

/-- `dirlink` takes the entry behind the last only if none is free. -/
lemma FirstVacant.freeSlot_iff {d k : Nat} (h : FirstVacant t d k) (hwhole : DIRENTSZ ∣ (t.dinode d).size.toNat) :
    FreeSlot (t.slots d) ↔ (k + 1) * DIRENTSZ ≤ (t.dinode d).size.toNat := by
  have hD : DIRENTSZ = 16 := rfl
  constructor
  · rintro ⟨k', y, hy⟩
    rw [getElem?_slots] at hy
    split at hy
    · rename_i hlt
      have hz : direntInum (t.entry d (k' * DIRENTSZ)) = 0 := congrArg Prod.fst (Option.some.inj hy)
      by_contra hin
      rw [hD] at hin hwhole hlt
      exact (h.before k' (by omega)).2 hz
    · cases hy
  · intro hin
    rcases h.vacant with ⟨-, hz⟩ | hge
    · refine ⟨k, nameStr (direntName (t.entry d (k * DIRENTSZ))), ?_⟩
      rw [slots_getElem? hin, direntOf, hz]
    · rw [hD] at hin hge
      omega

/-- A call on a locked directory that leaves its fields but the size and the blocks. -/
structure DirStep (t t' : State) (dp : Fin NINODE) : Prop where
  frame : Frame t t' dp
  consistent : Consistent t'
  nlink : (t'.itable dp).d.nlink = (t.itable dp).d.nlink

lemma EntryWritten.dirStep {de : Block} {off tot : Nat} (h : EntryWritten t t' dp de off tot) : DirStep t t' dp := by
  obtain ⟨addrs, size, hd, -⟩ := h.written.inode
  exact ⟨h.written.frame, h.written.consistent, by rw [hd]⟩

/-- **`dirlink` of a new name** returns, and finds a place if there is an entry that is not in use. -/
lemma dirlink_returns (h : Sound t) (hi : Held t dp) (hdir : (t.itable dp).d.type = T_DIR) (name : Name) (inum : Nat)
    (hnew : t.tree.lookup (t.itable dp).inum (nameStr name) = none) :
    wp (dirlink dp name inum) (fun r t' => DirStep t t' dp ∧ (r = 0 ∨ r = -1) ∧
      (FreeSlot (t.tree (t.itable dp).inum).slots → r = 0)) E t := by
  have hc := h.consistent
  have hd := (hc.synced dp hi).2
  have hh := (h.fileOk hi).toHoleFree
  have hwhole := h.whole hi hdir
  have hslots : (t.tree (t.itable dp).inum).slots = t.slots (t.itable dp).inum := by
    rw [h.tree_dir hi hdir]
  rw [lookup_eq_dirMap, dirMap_eq_none, hslots] at hnew
  have habsent : ∀ k, (k + 1) * DIRENTSZ ≤ (t.itable dp).d.size.toNat →
      ¬ FirstMatch t (t.itable dp).inum name k := fun k hle hfirst => by
    rw [hd] at hle
    rw [findSlot_of_firstMatch hfirst hle] at hnew
    cases hnew
  refine wp_dirlink hc hi hh name inum (.inl hdir) (fun _ => .inl hwhole) (fun k hle hf => absurd hf (habsent k hle))
    (fun _ k _ hle hf => absurd hf (habsent k hle)) fun _ _ k hlt hk => ?_
  by_cases hin : (k + 1) * DIRENTSZ ≤ (t.itable dp).d.size.toNat
  · rw [Nat.succ_mul] at hin
    refine (writeDirent_over hc hi hh (Nat.mul_mod_left ..) hin _).post fun r t' hr => ?_
    obtain ⟨rfl, he⟩ := hr
    exact ⟨he.dirStep, .inl rfl, fun _ => rfl⟩
  · -- the entry behind the last: none of the others is free
    have hfull : ¬ FreeSlot (t.tree (t.itable dp).inum).slots := by
      rw [hd] at hin hwhole
      rw [hslots, hk.freeSlot_iff hwhole]
      exact hin
    refine (writeDirent_spec hc hi (Nat.mul_mod_left ..) hlt _).post fun r t' hr => ?_
    refine ⟨?_, ?_, fun hex => absurd hex hfull⟩
    · rcases hr with ⟨-, rfl, -⟩ | ⟨tot, -, he⟩
      · exact ⟨.refl _ _, hc, rfl⟩
      · exact he.dirStep
    · split
      · exact .inr rfl
      · exact .inl rfl

/-- **`dirunlink` of a name that is there**. -/
lemma dirunlink_returns (h : Sound t) (hi : Held t dp) (hdir : (t.itable dp).d.type = T_DIR) (name : Name) :
    wp (dirunlink dp name) (fun _ t' => DirStep t t' dp) E t := by
  refine (dirunlink_spec h.consistent hi (h.fileOk hi).toHoleFree name (.inl (h.whole hi hdir))).post fun r t' hr => ?_
  rcases hr with ⟨-, rfl, -⟩ | ⟨k, -, -, -, -, he⟩
  · exact ⟨.refl _ _, h.consistent, rfl⟩
  · exact he.dirStep

/-! ### The rename -/

/-- The new name has been linked, as entry `k`. -/
structure Midway (s t : State) (dp ip : Fin NINODE) (d n k : Nat) (x : List UInt8) : Prop where
  holding : Holding s (.ref dp + .ref ip + .lock ip) t
  sound : Sound t
  dir : Held t dp ∧ (t.itable dp).d.type = T_DIR
  inums : (t.itable dp).inum = d ∧ (t.itable ip).inum = n
  tree : t.tree = s.tree.setSlot d k (n, x)
  vacant : VacantIn (s.tree d).slots k
  files : ∀ m < s.sb.ninodes, m ≠ d → Unchanged s t m
  links : ∀ j, j = dp ∨ j = ip → (s.itable j).ref = 0 → (t.itable j).d.nlink ≠ 0

lemma DirStep.ne {k : Fin NINODE} (h : DirStep t t' dp) (hk : k ≠ dp) : t'.itable k = t.itable k := h.frame.others k hk

lemma DirStep.nlink_eq (h : DirStep t t' dp) (k : Fin NINODE) : (t'.itable k).d.nlink = (t.itable k).d.nlink := by
  by_cases hk : k = dp
  · rw [hk, h.nlink]
  · rw [h.ne hk]

lemma Locked.nlink_eq (h : Locked t t' i) (hi : Held t i) (k : Fin NINODE) :
    (t'.itable k).d.nlink = (t.itable k).d.nlink := by
  by_cases hk : k = i
  · rw [hk, h.keep hi.2]
  · rw [h.others k hk]

/-- **The old name is removed**, and everything is given back. -/
lemma renameRest_returns (h : Orderly s) {k : Nat} {name new : Name}
    (hm : Midway s t dp ip d n k (nameStr new)) (hne : ip ≠ dp) (hn : s.tree.lookup d (nameStr name) = some n)
    (hnew : s.tree.lookup d (nameStr new) = none) :
    wp (do
      ilock dp
      let r ← dirunlink dp name
      if r < 0 then do
        let _ ← dirunlink dp new
        iunlockput dp
        pure (-1)
      else do
        iunlockput ip
        iunlockput dp
        pure 0) (fun r s' => r = 0 ∧ Renamed s s' d n (nameStr name) (nameStr new)) E t := by
  obtain ⟨hn0, k0, hfind0, hk0⟩ := dirMap_entry hn
  have hxc : nameStr new ≠ nameStr name := fun e => by
    rw [e, hn] at hnew
    cases hnew
  have hlock : (t.itable dp).lock = none := by
    rw [hm.holding.lock dp, if_neg (by simp [ref, lock, hne.symm])]
  refine wp_bind.mpr ((ilock_locks hm.sound.consistent (hm.sound.range dp) (.inl hm.dir.1.1) (.inr (.inl hm.dir.1.2))
    (.inl hlock)).post fun _ t1 hl => ?_)
  have hh1 := hm.holding.locked hl
  have hs1 : Sound t1 := hl.sound hm.sound
  have hdir1 : (t1.itable dp).d.type = T_DIR := by rw [hl.keep hm.dir.1.2, hm.dir.2]
  have hinum1 : (t1.itable dp).inum = d := by rw [hl.inum, hm.inums.1]
  have htree1 : t1.tree = s.tree.setSlot d k (n, nameStr new) := hl.tree.trans hm.tree
  have hslots1 : (t1.tree d).slots = splice (s.tree d).slots k [(n, nameStr new)] := by
    rw [htree1, setSlot, set_self]
  have hfind1 : findSlot (t1.tree d).slots (nameStr name) = some k0 := by
    rw [hslots1]
    exact (findSlot_splice hm.vacant hxc hfind0).2
  have hcov1 : Covers 0 t1 := ⟨hs1, fun j => by
    have := h.nonneg j
    have := hh1.ref j
    simp only [Prod.fst_zero, count_zero]
    omega⟩
  refine wp_bind.mpr (((dirunlink_returns hs1 hl.held hdir1 name).and
    (dirunlink_does (X := fun _ => True) hl.held name trivial hcov1)).post fun r t2 h2 => ?_)
  obtain ⟨hstep, hk2, hr⟩ := h2
  obtain ⟨-, -, hnone⟩ | ⟨rfl, hrem⟩ := hr hdir1
  · rw [hinum1, hfind1] at hnone
    cases hnone
  rw [if_neg (by decide)]
  have hh2 := hh1.frame hstep.frame hstep.consistent
  have hlinks : ∀ j, j = dp ∨ j = ip → (s.itable j).ref = 0 → (t2.itable j).d.nlink ≠ 0 := fun j hj hz => by
    rw [hstep.nlink_eq j, hl.nlink_eq hm.dir.1 j]
    exact hm.links j hj hz
  -- the inode is given back
  have hh2' : Holding s (.ref dp + .lock dp + .ref ip + .lock ip) t2 := by
    have e : ref dp + .lock dp + .ref ip + .lock ip = ref dp + .ref ip + .lock ip + .lock dp := by abel
    rw [e]
    exact hh2
  have hpos2 : 0 < (t2.itable ip).ref := hh2'.ref_pos (by simp [ref, lock]) (h.nonneg ip)
  refine wp_bind.mpr ((hh2'.iunlockput_returns (by simp [ref, lock, hne]) hpos2 fun hone => ?_).post ?_)
  · exact hlinks ip (.inr rfl) (h.ref_of_last hh2' (by simp [ref, lock]) hone)
  rintro _ _ ⟨rfl, hh3⟩
  -- and the directory
  have hent : (t2.leave ip).itable dp = t2.itable dp := by
    rw [setInode_itable_of_ne hne.symm, setInode_itable_of_ne hne.symm]
  have hh3' : Holding s (0 + .ref dp + .lock dp) (t2.leave ip) := by rwa [zero_add]
  have hpos3 : 0 < ((t2.leave ip).itable dp).ref := hh3'.ref_pos (by simp [ref, lock]) (h.nonneg dp)
  refine wp_bind.mpr ((hh3'.iunlockput_returns (notMem_zero dp) hpos3 fun hone => ?_).post ?_)
  · rw [hent]
    exact hlinks dp (.inl rfl) (h.ref_of_last hh3' (by simp [ref, lock]) hone)
  rintro _ _ ⟨rfl, hh4⟩
  refine wp_pure.mpr ⟨rfl, ?_⟩
  obtain ⟨k', m, hfind', hk', htree2⟩ := hrem.entry
  rw [hinum1] at hfind' hk' htree2
  have htree : ((t2.leave ip).leave dp).tree = t1.tree.setSlot d k' (0, nameStr name) := by
    rw [tree_setInode, tree_setInode, tree_setInode, tree_setInode, htree2]
  have hm0 : m ≠ 0 := by
    obtain ⟨⟨m', hm', hget⟩, -⟩ := findSlot_eq_some.mp hfind'
    rw [hk'] at hget
    cases hget
    exact hm'
  have hlen' : k' ≤ (splice (s.tree d).slots k [(n, nameStr new)]).length := by
    obtain ⟨hlt, -⟩ := List.getElem?_eq_some_iff.mp hk'
    rw [← hslots1]
    exact hlt.le
  -- the map: a name bound, and another unbound
  obtain ⟨hd1, hmap1⟩ := (h.distinct d).add hm.vacant (n := n) hnew
  rw [← hslots1] at hd1 hmap1
  obtain ⟨-, hmap2⟩ := hd1.remove (z := nameStr name) hk' hm0
  refine ⟨hh4, hk2.sound.leave.leave, ⟨k, k', hm.vacant, hlen', by rw [htree, htree1]⟩, fun y => ?_, ?_, fun m' hm' hmd => ?_⟩
  · rw [htree, lookup_eq_dirMap, setSlot, set_self, hmap2 y, hmap1 hn0 y]
    by_cases hyc : y = nameStr name
    · rw [if_pos hyc, if_neg fun e => hxc (e.symm.trans hyc), if_pos hyc]
    · rw [if_neg hyc, if_neg hyc]
      rfl
  · rw [htree, setSlot, set_self, htree1, setSlot, set_self]
    exact ⟨rfl, rfl⟩
  · have hun1 : Unchanged t t1 m' := .of_blocks hl.sb hl.blocks m'
    have hsb : t1.sb = s.sb := hl.sb.trans hm.holding.sb
    have hun2 : Unchanged t1 t2 m' := hstep.frame.files m' (by rw [hsb]; exact hm') (by rw [hinum1]; exact hmd)
    refine ((hm.files m' hm' hmd).trans (hun1.trans hun2)).trans ?_
    exact (((Unchanged.setInode _ _ _ _).trans (.setInode _ _ _ _)).trans (.setInode _ _ _ _)).trans (.setInode _ _ _ _)

variable {l : List UInt8} {new : List UInt8} {x : List UInt8} {s' : State}

/-- **A rename from the two walks on.**  The directory is locked only after the new name has been linked. -/
lemma renameEntry_returns (h : Orderly s) (hp : Prepared s t dp ip d n) {name : Name}
    (hc : nameStr name ≠ nameStr dot ∧ nameStr name ≠ nameStr dotdot) (hn : s.tree.lookup d (nameStr name) = some n)
    (hnew : s.tree.lookup d (nameStr (cstr new)) = none) :
    wp (do
      ilock ip
      let p ← inode ip
      let r ← dirlink dp (cstr new) p.inum
      if r < 0 then do
        iunlockput ip
        pure (-1)
      else do
        ilock dp
        let r ← dirunlink dp name
        if r < 0 then do
          let _ ← dirunlink dp (cstr new)
          iunlockput dp
          pure (-1)
        else do
          iunlockput ip
          iunlockput dp
          pure 0) (fun r s' => (r = 0 → Renamed s s' d n (nameStr name) (nameStr (cstr new))) ∧
            (FreeSlot (s.tree d).slots → r = 0)) E t := by
  obtain ⟨hn0, k0, hfind0, hk0⟩ := dirMap_entry hn
  have hlive : (s.tree n).type ≠ 0 := h.entries d k0 n _ hk0 hn0
  have hdn : d ≠ n := fun e => by
    subst e
    rcases h.proper d k0 _ hk0 hn0 with e | e
    · exact hc.1 e
    · exact hc.2 e
  have hne : ip ≠ dp := fun e => hdn (by rw [← hp.inums.1, ← hp.inums.2, e])
  -- the inode is locked
  refine wp_bind.mpr ((h.ilock_returns hp.holding hp.blocks (by simp [ref]) (notMem_zero ip)
    (by rw [hp.inums.2]; exact hlive)).post fun _ t1 h1 => ?_)
  obtain ⟨hl1, hh1, hb1⟩ := h1
  have hs1 : Sound t1 := hl1.sound hp.sound
  have hdp1 : t1.itable dp = t.itable dp := hl1.others dp hne.symm
  have hheld1 : Held t1 dp := by
    rw [Held, hdp1]
    exact hp.dir.1
  have hdir1 : (t1.itable dp).d.type = T_DIR := by rw [hdp1, hp.dir.2]
  have hd1 : (t1.itable dp).inum = d := by rw [hdp1, hp.inums.1]
  have hn1 : (t1.itable ip).inum = n := by rw [hl1.inum, hp.inums.2]
  have htree1 : t1.tree = s.tree := tree_of_blocks hh1.sb hb1
  refine wp_bind.mpr (wp_inode.mpr (wp_bind.mpr ?_))
  rw [hn1]
  have hcov1 : Covers 0 t1 := ⟨hs1, fun j => by
    have := h.nonneg j
    have := hh1.ref j
    simp only [Prod.fst_zero, count_zero]
    omega⟩
  -- the new name is linked
  have hlt1 : n < t1.sb.ninodes := by
    rw [hh1.sb]
    exact (live_of_type hlive).2.1
  refine ((dirlink_returns hs1 hheld1 hdir1 (cstr new) n (by rw [htree1, hd1]; exact hnew)).and
    (dirlink_does (X := fun _ => True) hheld1 (cstr new) hlt1 hcov1)).post fun r t2 h2 => ?_
  obtain ⟨⟨hstep, hr01, hfree⟩, hk, -, hadd, -⟩ := h2
  have hh2 := hh1.frame hstep.frame hstep.consistent
  have hlinks : ∀ j, j = dp ∨ j = ip → (s.itable j).ref = 0 → (t2.itable j).d.nlink ≠ 0 := fun j hj hz => by
    rw [hstep.nlink_eq j]
    refine h.linked hh1 hb1 ?_ hz
    rcases hj with rfl | rfl
    · exact hheld1
    · exact hl1.held
  refine wp_ite (fun hneg => ?_) fun hpos => ?_
  · -- no place for the new name: the inode is given back
    have hpos2 : 0 < (t2.itable ip).ref := hh2.ref_pos (by simp [ref, lock]) (h.nonneg ip)
    refine wp_bind.mpr ((hh2.iunlockput_returns (notMem_zero ip) hpos2 fun hone => ?_).post ?_)
    · exact hlinks ip (.inr rfl) (h.ref_of_last hh2 (by simp [ref, lock]) hone)
    · refine fun _ t3 _ => wp_pure.mpr ⟨fun e => (by cases e), fun hslot => ?_⟩
      rw [htree1, hd1] at hfree
      rw [hfree hslot] at hneg
      cases hneg
  · have hr : r = 0 := by
      rcases hr01 with e | e
      · exact e
      · rw [e] at hpos
        exact absurd (by decide) hpos
    obtain ⟨hneg, -⟩ | ⟨-, hadded⟩ := hadd
    · exact absurd hneg hpos
    rw [hd1, htree1] at hadded
    obtain ⟨k, hvac, htree2⟩ := hadded.entry
    have hf := hstep.frame
    have hinum2 : (t2.itable dp).inum = d := hf.inum.trans hd1
    have hmid : Midway s t2 dp ip d n k (nameStr (cstr new)) := by
      refine ⟨hh2, hk.sound, ⟨hf.held hheld1, ?_⟩, ⟨hinum2, ?_⟩, htree2 (slots_lt hk0), hvac, fun m hm hmd => ?_, hlinks⟩
      · exact (hk.held_of_zero hheld1).2.2.trans hdir1
      · rw [hstep.ne hne, hn1]
      · have hun : Unchanged s t1 m := .of_blocks hh1.sb hb1 m
        exact hun.trans (hf.files m (by rw [hh1.sb]; exact hm) (by rw [hd1]; exact hmd))
    refine (renameRest_returns h hmid hne hn hnew).post ?_
    rintro r' s' ⟨rfl, hren⟩
    exact ⟨fun _ => hren, fun _ => rfl⟩

/-- **A rename that runs alone.** -/
lemma rename_returns (h : Orderly s) (hE : 2 < s.unused.card ∨ E (.panic "iget: no inodes")) (hold : ∀ c ∈ old, c ≠ 0)
    (hpar : s.tree.resolveParent (s.start old) (elems old) = some (d, c))
    (hc : c ≠ nameStr dot ∧ c ≠ nameStr dotdot) (hn : s.tree.lookup d c = some n)
    (hnew : s.tree.lookup d (nameStr (cstr new)) = none) :
    wp (rename old new) (fun r s' => (r = 0 → Renamed s s' d n c (nameStr (cstr new))) ∧
      (FreeSlot (s.tree d).slots → r = 0)) E s := by
  refine wp_bind.mpr ((rename_walks h.toWalkable hE hold hpar).post ?_)
  rintro _ t ⟨dp, name, rfl, rfl, hwalk⟩
  refine wp_bind.mpr (hwalk.post ?_)
  rintro _ t' (⟨-, hnone⟩ | ⟨ip, m, rfl, hm, hp⟩)
  · cases hn.symm.trans hnone
  cases hn.symm.trans hm
  exact renameEntry_returns h hp hc hn hnew

/-- **What a rename does.**  If it returns 0, the directory binds the new name to the inode and no longer the old one, and
no other inode has changed; and it does return 0 if an entry of the directory is free and the inode table has three
unused entries. -/
theorem rename_effect (s : State) (h : Orderly s) (old new : List UInt8) (hold : ∀ c ∈ old, c ≠ 0) (d n : Nat)
    (c : List UInt8) (hpar : s.tree.resolveParent (s.start old) (elems old) = some (d, c))
    (hc : c ≠ nameStr dot ∧ c ≠ nameStr dotdot) (hn : s.tree.lookup d c = some n)
    (hnew : s.tree.lookup d (nameStr (cstr new)) = none) :
    (∀ s', rename old new s = .ok (0, s') → Renamed s s' d n c (nameStr (cstr new))) ∧
    (FreeSlot (s.tree d).slots → 2 < s.unused.card → ∃ s', rename old new s = .ok (0, s')) := by
  refine ⟨fun s' hrun => ?_, fun hfree hroom => ?_⟩
  · have hwp := rename_returns (E := fun _ => True) h (.inr trivial) hold hpar hc hn hnew
    exact (hwp.ok hrun).1 rfl
  · obtain ⟨r, s', hrun, -, hr⟩ := (rename_returns h (.inl hroom) hold hpar hc hn hnew).returns
    rw [hr hfree] at hrun
    exact ⟨s', hrun⟩

/-! ### A disk with a free entry -/

lemma crowd_orderly {k : Nat} (hk : Crowding k) : Orderly (crowd k) where
  toWalkable := crowd_walkable hk
  distinct d i j m n x hi hj hm hn := by
    have hdots : nameStr dot ≠ nameStr dotdot ∧ nameStr dot ≠ [97] ∧ nameStr dotdot ≠ [97] := by decide
    obtain ⟨-, ⟨-, ⟨rfl, rfl⟩ | ⟨rfl, rfl⟩⟩ | ⟨-, rfl, rfl⟩ | rfl⟩ := crowd_entry hk hi
    all_goals obtain ⟨-, ⟨-, ⟨rfl, e⟩ | ⟨rfl, e⟩⟩ | ⟨-, rfl, e⟩ | rfl⟩ := crowd_entry hk hj
    all_goals first
      | rfl
      | exact absurd rfl hm
      | exact absurd rfl hn
      | exact absurd e hdots.1
      | exact absurd e hdots.1.symm
      | exact absurd e hdots.2.1
      | exact absurd e hdots.2.1.symm
      | exact absurd e hdots.2.2
      | exact absurd e hdots.2.2.symm
  proper d j x h hd := by
    obtain ⟨rfl, ⟨-, ⟨-, e⟩ | ⟨-, e⟩⟩ | ⟨e, -⟩ | e⟩ := crowd_entry hk h
    · exact .inl e
    · exact .inr e
    · cases e
    · exact absurd e hd

/-- A root directory with one name, `a`, and an entry that is not in use. -/
def slotFs : State := crowd 0

lemma slotFs_orderly : Orderly slotFs := crowd_orderly (.inl rfl)

lemma slotFs_unused : 2 < slotFs.unused.card := by decide +kernel

lemma crowd_lookup {k : Nat} (hk : Crowding k) :
    (crowd k).tree.lookup 1 [97] = some 2 ∧ (crowd k).tree.lookup 1 [98] = none := by
  rw [lookup_eq_dirMap, lookup_eq_dirMap, crowd_tree hk]
  exact ⟨by rw [if_pos rfl]; decide, by rw [if_pos rfl]; decide⟩

lemma crowd_free {k : Nat} (hk : Crowding k) : FreeSlot ((crowd k).tree 1).slots := by
  rw [crowd_tree hk]
  exact ⟨3, [], rfl⟩

lemma slotFs_lookup : slotFs.tree.lookup 1 [97] = some 2 ∧ slotFs.tree.lookup 1 [98] = none := crowd_lookup (.inl rfl)

lemma slotFs_free : FreeSlot (slotFs.tree 1).slots := crowd_free (.inl rfl)

lemma slotFs_parent : slotFs.tree.resolveParent 1 [[97]] = some (1, [97]) := by
  have hdir : (slotFs.tree 1).type = T_DIR := (crowd_type (.inl rfl)).1
  simp [resolveParent, hdir]

/-- `a` renamed to `b`. -/
theorem rename_effect_slot : ∃ s', rename [97] [98] slotFs = .ok (0, s') ∧ Renamed slotFs s' 1 2 [97] [98] := by
  have helems : elems [97] = [[97]] := by decide
  have hstr : nameStr (cstr [98]) = [98] := by decide
  obtain ⟨heff, hret⟩ := rename_effect slotFs slotFs_orderly [97] [98] (by decide +kernel) 1 2 [97]
    (by rw [helems]; exact slotFs_parent) (by decide) slotFs_lookup.1 (by rw [hstr]; exact slotFs_lookup.2)
  obtain ⟨s', hrun⟩ := hret slotFs_free slotFs_unused
  exact ⟨s', hrun, hstr ▸ heff s' hrun⟩

/-- **No entry of the inode table is free**: a rename does not return, though the directory has a free entry. -/
theorem rename_crowded : Orderly (crowd 49) ∧ (crowd 49).unused = ∅ ∧
    (crowd 49).tree.resolveParent ((crowd 49).start [97]) (elems [97]) = some (1, [97]) ∧
    (crowd 49).tree.lookup 1 [97] = some 2 ∧ (crowd 49).tree.lookup 1 (nameStr (cstr [98])) = none ∧
    FreeSlot ((crowd 49).tree 1).slots ∧ rename [97] [98] (crowd 49) = .panic "iget: no inodes" :=
  ⟨crowd_orderly (.inr rfl), by decide +kernel, by decide +kernel, (crowd_lookup (.inr rfl)).1, (crowd_lookup (.inr rfl)).2,
    crowd_free (.inr rfl), Outcome.eq_panic_of_stops (by decide +kernel)⟩

/-! ### Names -/

/-- `sys_rename`: both names are copied to arrays of `DIRSIZ` bytes. -/
def sysRename (old new : Option (List UInt8)) : FsM Int :=
  match argstr old DIRSIZ, argstr new DIRSIZ with
  | some old, some new => rename old new
  | _, _ => pure (-1)

lemma elems_single (hne : l ≠ []) (hslash : slash ∉ l) (hlen : l.length ≤ DIRSIZ) : elems l = [l] := by
  have hrun := elems_run (w := l) (d := []) (fun c hc => beq_eq_false_iff_ne.mpr fun e => hslash (e ▸ hc)) hne (.inl rfl)
  rw [List.append_nil, List.take_of_length_le hlen] at hrun
  exact hrun

lemma nameStr_cstr (h : ∀ c ∈ l, c ≠ 0) (hlen : l.length ≤ DIRSIZ) : nameStr (cstr l) = l :=
  strOf_cstr h hlen

lemma argstr_some : argstr (some l) DIRSIZ = if l.length < DIRSIZ then some l else none := by
  rw [argstr, Option.filter_some]
  simp only [decide_eq_true_eq]

/-- A rename that returns 0 has found the old name, and the new one free. -/
lemma rename_fresh (h : Orderly s) (hold : ∀ c ∈ old, c ≠ 0)
    (hpar : s.tree.resolveParent (s.start old) (elems old) = some (d, c))
    (hc : c ≠ nameStr dot ∧ c ≠ nameStr dotdot) :
    wp (rename old new) (fun r _ => r = 0 → (∃ n, s.tree.lookup d c = some n) ∧
      s.tree.lookup d (nameStr (cstr new)) = none) (fun _ => True) s := by
  refine wp_bind.mpr ((rename_walks h.toWalkable (.inr trivial) hold hpar).post ?_)
  rintro _ t ⟨dp, name, rfl, rfl, hwalk⟩
  refine wp_bind.mpr (hwalk.post ?_)
  rintro _ t1 (⟨rfl, -⟩ | ⟨ip, n, rfl, hn, hp⟩)
  · exact wp_pure.mpr fun e => (by cases e)
  by_cases hnew : s.tree.lookup d (nameStr (cstr new)) = none
  · exact (wp_any _ _).post fun _ _ _ _ => ⟨⟨n, hn⟩, hnew⟩
  have hdp : ip ≠ dp := fun e => by
    obtain ⟨hn0, k0, -, hk0⟩ := dirMap_entry hn
    have hdn : n = d := by rw [← hp.inums.1, ← hp.inums.2, e]
    rw [hdn] at hk0 hn0
    rcases h.proper d k0 _ hk0 hn0 with e | e
    · exact hc.1 e
    · exact hc.2 e
  refine wp_bind.mpr ((ilock_spec hp.sound.consistent (hp.sound.range ip) trivial trivial trivial).post fun _ t2 hl => ?_)
  refine wp_bind.mpr (wp_inode.mpr (wp_bind.mpr ?_))
  have hs2 : Sound t2 := hl.sound hp.sound
  have hent : t2.itable dp = t1.itable dp := hl.others dp hdp.symm
  have hheld : Held t2 dp := by
    rw [Held, hent]
    exact hp.dir.1
  have htree : t2.tree = s.tree := hl.tree.trans (tree_of_blocks hp.holding.sb hp.blocks)
  refine (dirlink_spec hs2.consistent hheld (hs2.fileOk hheld).toHoleFree (cstr new) _ (.inr trivial)
    (fun _ => .inr ⟨trivial, trivial⟩) trivial).post fun r t3 hr => ?_
  obtain ⟨hdir, ⟨rfl, -⟩ | ⟨hno, -⟩⟩ := hr
  · exact wp_bind.mpr ((wp_any _ _).post fun _ _ _ => wp_pure.mpr fun e => (by cases e))
  · have hslots : (t2.tree (t2.itable dp).inum).slots = t2.slots (t2.itable dp).inum := by
      rw [hs2.tree_dir hheld hdir]
    refine absurd ?_ hnew
    rw [← htree, ← hp.inums.1, ← hent, lookup_eq_dirMap, dirMap_eq_none, hslots]
    exact findSlot_of_noMatch hno

/-- After a rename the file system is as walkable as before. -/
lemma Renamed.walkable (h : Orderly s) (hr : Renamed s s' d n c x)
    (hlive : (s.tree n).type ≠ 0) (hdir : (s.tree d).type = T_DIR) : Walkable s' := by
  obtain ⟨k, k', hk, hk', htree⟩ := hr.tree
  have hh := hr.holding
  have hout : ∀ m, m ≠ d → s'.tree m = s.tree m := fun m hm => by
    rw [htree, setSlot, set_of_ne _ _ hm, setSlot, set_of_ne _ _ hm]
  have hnode : ∀ m, (s'.tree m).type = (s.tree m).type ∧ (s'.tree m).nlink = (s.tree m).nlink := fun m => by
    by_cases hm : m = d
    · rw [hm]
      exact hr.node
    · rw [hout m hm]
      exact ⟨rfl, rfl⟩
  have href : ∀ j, (s'.itable j).ref = (s.itable j).ref := fun j => by simpa using hh.ref j
  have hcwd : s'.me.cwd = s.me.cwd := by rw [hh.me]
  refine ⟨hr.sound, fun j => ?_, fun j => ?_, fun d' j m y hj hm => ?_, fun m hm => ?_, ?_, ?_, ?_⟩
  · rw [hh.lock j]
    rfl
  · rw [href]
    exact h.nonneg j
  · rw [(hnode m).1]
    by_cases hd : d' = d
    · -- an entry of the directory: the one cleared, the new one, or one that was there
      rw [hd, htree, setSlot, set_self, setSlot, set_self] at hj
      simp only at hj
      rw [getElem?_splice_one hk', getElem?_splice_one hk.1] at hj
      split at hj
      · cases hj
        exact absurd rfl hm
      · split at hj
        · cases hj
          exact hlive
        · exact h.entries d j m y hj hm
    · rw [hout d' hd] at hj
      exact h.entries d' j m y hj hm
  · rw [(hnode m).2] at hm
    refine (h.anchored m hm).imp (fun hfree => ?_) ?_
    · have hne : m ≠ d := fun e => by
        rw [e] at hfree
        rw [hfree] at hdir
        cases hdir
      rw [hout m hne, hfree]
    · rintro ⟨j, hj, rfl⟩
      exact ⟨j, by rw [href]; exact hj, hh.inum j hj⟩
  · rw [(hnode _).1]
    exact h.root
  · rw [hcwd, href]
    exact h.cwd.1
  · rw [(hnode _).1, hcwd, hh.inum _ h.cwd.1]
    exact h.cwd.2

/-- The current directory, for a path of one component. -/
lemma start_single (hslash : slash ∉ l) : s.start l = (s.itable s.me.cwd).inum := by
  rw [State.start, if_neg fun e => ?_]
  exact hslash (List.mem_of_mem_head? e)

lemma resolveParent_single {T : Tree} {d : Nat} (hdir : (T d).type = T_DIR) :
    T.resolveParent d [l] = some (d, l) := by
  simp [resolveParent, hdir]

/-- The old name of a rename in the current directory: one that `create` makes. -/
structure OldName (s : State) (old : List UInt8) (n : Nat) : Prop where
  bytes : ∀ c ∈ old, c ≠ 0
  nonempty : old ≠ []
  slash : slash ∉ old
  short : old.length ≤ DIRSIZ
  dots : old ≠ nameStr dot ∧ old ≠ nameStr dotdot
  dir : (s.tree (s.itable s.me.cwd).inum).type = T_DIR
  found : s.tree.lookup (s.itable s.me.cwd).inum old = some n

lemma OldName.parent (h : OldName s old n) :
    s.tree.resolveParent (s.start old) (elems old) = some ((s.itable s.me.cwd).inum, old) := by
  rw [start_single h.slash, elems_single h.nonempty h.slash h.short]
  exact resolveParent_single h.dir

lemma Renamed.found (h : Orderly s) (hold : OldName s old n)
    (hr : Renamed s s' (s.itable s.me.cwd).inum n old new) (hroom : 2 < s.unused.card) (hnew : ∀ c ∈ new, c ≠ 0)
    (hne : new ≠ []) (hslash : slash ∉ new) (hlen : new.length ≤ DIRSIZ) :
    ∃ i s'', namei new s' = .ok (some i, s'') ∧ (s''.itable i).inum = n := by
  obtain ⟨hn0, k0, -, hk0⟩ := dirMap_entry hold.found
  have hw : Walkable s' := hr.walkable h (h.entries _ k0 n _ hk0 hn0) hold.dir
  have hunused : s'.unused = s.unused := by
    ext j
    rw [mem_unused, mem_unused, hr.holding.ref j]
    simp
  have hcwd : (s'.itable s'.me.cwd).inum = (s.itable s.me.cwd).inum := by
    rw [hr.holding.me, hr.holding.inum _ h.cwd.1]
  have hres : s'.tree.resolve (s'.start new) (elems new) = some n := by
    rw [start_single hslash, elems_single hne hslash hlen, hcwd, resolve_cons, step,
      if_pos (hr.node.1.trans hold.dir), hr.map new, if_pos rfl]
    rfl
  have hwp : wp (namei new) (Named s' new) (fun _ => False) s' := by
    have hret : wp (namei new) (fun _ _ => True) (fun _ => False) s' :=
      wp_bind.mpr ((namex_returns hw (.inl (by rw [hunused]; omega)) new false).post fun _ _ _ => wp_pure.mpr trivial)
    exact (hret.and (namei_named hw.covers hw.cwd.1 hnew)).post fun _ _ hb => hb.2
  obtain ⟨r, s'', hrun, hval, -⟩ := hwp.returns
  rw [hres] at hval
  obtain ⟨i, rfl, hi⟩ := Option.map_eq_some_iff.mp hval
  exact ⟨i, s'', hrun, hi⟩

/-- **Which names `sys_rename` takes**: any string of fewer than `DIRSIZ` bytes that names no entry, for an old name of
fewer than `DIRSIZ` bytes.  So it takes exactly the legal names unless the new name is free and empty, or has a slash
and fewer than `DIRSIZ` bytes, or none and exactly `DIRSIZ`.  `namei` finds the file under a name without a slash. -/
theorem rename_legal (s : State) (h : Orderly s) (hroom : 2 < s.unused.card) (old new : List UInt8) (n : Nat)
    (hold : OldName s old n) (hfree : FreeSlot (s.tree (s.itable s.me.cwd).inum).slots) (hnew : ∀ c ∈ new, c ≠ 0) :
    ((∃ s', sysRename (some old) (some new) s = .ok (0, s')) ↔ old.length < DIRSIZ ∧ new.length < DIRSIZ ∧
      s.tree.lookup (s.itable s.me.cwd).inum new = none) ∧
    (old.length < DIRSIZ → (((∃ s', sysRename (some old) (some new) s = .ok (0, s')) ↔
        (1 ≤ new.length ∧ new.length ≤ DIRSIZ) ∧ slash ∉ new ∧ s.tree.lookup (s.itable s.me.cwd).inum new = none) ↔
      (s.tree.lookup (s.itable s.me.cwd).inum new = none → new ≠ [] ∧ (new.length < DIRSIZ → slash ∉ new) ∧
        (new.length = DIRSIZ → slash ∈ new)))) ∧
    ∀ s', sysRename (some old) (some new) s = .ok (0, s') → new ≠ [] → slash ∉ new →
      ∃ i s'', namei new s' = .ok (some i, s'') ∧ (s''.itable i).inum = n := by
  have hrun : (old.length < DIRSIZ ∧ new.length < DIRSIZ ∧ sysRename (some old) (some new) = rename old new) ∨
      ¬ (old.length < DIRSIZ ∧ new.length < DIRSIZ) ∧ sysRename (some old) (some new) = pure (-1) := by
    rw [sysRename, argstr_some, argstr_some]
    by_cases h₁ : old.length < DIRSIZ <;> by_cases h₂ : new.length < DIRSIZ <;> simp [h₁, h₂]
  have hret {s' : State} (hlt : new.length < DIRSIZ) (hs : rename old new s = .ok (0, s')) :
      s.tree.lookup (s.itable s.me.cwd).inum new = none := by
    have := ((rename_fresh h hold.bytes hold.parent hold.dots).ok hs rfl).2
    rwa [nameStr_cstr hnew hlt.le] at this
  have hiff : (∃ s', sysRename (some old) (some new) s = .ok (0, s')) ↔ old.length < DIRSIZ ∧ new.length < DIRSIZ ∧
      s.tree.lookup (s.itable s.me.cwd).inum new = none := by
    rcases hrun with ⟨hlo, hln, e⟩ | ⟨hno, e⟩
    · rw [e]
      refine ⟨fun ⟨s', hs⟩ => ⟨hlo, hln, hret hln hs⟩, fun ⟨_, _, hnone⟩ => ?_⟩
      obtain ⟨r, s', hs, -, hr⟩ := (rename_returns h (.inl hroom) hold.bytes hold.parent hold.dots hold.found
        (by rwa [nameStr_cstr hnew hln.le])).returns
      rw [hr hfree] at hs
      exact ⟨s', hs⟩
    · rw [e]
      exact ⟨fun ⟨_, hs⟩ => (by cases hs), fun ⟨h₁, h₂, _⟩ => absurd ⟨h₁, h₂⟩ hno⟩
  refine ⟨hiff, fun hlo => ?_, fun s' hs hne hslash => ?_⟩
  · have hpos : new ≠ [] ↔ 1 ≤ new.length := List.length_pos_iff.symm
    rw [hiff, hpos]
    by_cases hnone : s.tree.lookup (s.itable s.me.cwd).inum new = none
    · by_cases hs : slash ∈ new
      all_goals
        simp only [hlo, hnone, hs, true_and, and_true, not_true, not_false_iff, and_false, implies_true, forall_const,
          imp_false, iff_false]
        omega
    · simp [hnone]
  · rcases hrun with ⟨-, hln, e⟩ | ⟨-, e⟩
    · rw [e] at hs
      have hstr := nameStr_cstr hnew hln.le
      have hren := ((rename_returns (E := fun _ => True) h (.inr trivial) hold.bytes hold.parent hold.dots hold.found
        (by rw [hstr]; exact hret hln hs)).ok hs).1 rfl
      rw [hstr] at hren
      exact hren.found h hold hroom hnew hne hslash hln.le
    · rw [e] at hs
      cases hs

lemma slotFs_old : OldName slotFs [97] 2 :=
  ⟨by decide +kernel, by decide, by decide, by decide, by decide, (crowd_type (.inl rfl)).1, slotFs_lookup.1⟩

/-- `b` is a legal name. -/
theorem rename_legal_slot : ∃ s', sysRename (some [97]) (some [98]) slotFs = .ok (0, s') :=
  (rename_legal slotFs slotFs_orderly slotFs_unused [97] [98] 2 slotFs_old slotFs_free (by decide +kernel)).1.mpr
    ⟨by decide, by decide, slotFs_lookup.2⟩

/-- **Names that are taken and should not be, and one that should be and is not**: the empty string and a string with a
slash are taken, and `namei` does not find the file under them; a name of `DIRSIZ` bytes is not taken. -/
theorem rename_illegal : OldName slotFs [97] 2 ∧ FreeSlot (slotFs.tree 1).slots ∧
    (∃ s', sysRename (some [97]) (some []) slotFs = .ok (0, s') ∧
      ∃ s'', namei [] s' = .ok (some 0, s'') ∧ (s''.itable 0).inum = 1) ∧
    (∃ s', sysRename (some [97]) (some [98, slash, 99]) slotFs = .ok (0, s') ∧
      ∃ s'', namei [98, slash, 99] s' = .ok (none, s'')) ∧
    slotFs.tree.lookup 1 (List.replicate DIRSIZ 98) = none ∧
    ∃ s', sysRename (some [97]) (some (List.replicate DIRSIZ 98)) slotFs = .ok (-1, s') := by
  obtain ⟨s₁, h₁, hq₁⟩ : ∃ s', sysRename (some [97]) (some []) slotFs = .ok (0, s') ∧
      (namei [] s').test (fun q => q.1 = some 0 ∧ (q.2.itable 0).inum = 1) = true :=
    Outcome.ok_of_test (by decide +kernel)
  obtain ⟨s₂, h₂, hq₂⟩ : ∃ s', sysRename (some [97]) (some [98, slash, 99]) slotFs = .ok (0, s') ∧
      (namei [98, slash, 99] s').test (fun q => q.1 = none) = true := Outcome.ok_of_test (by decide +kernel)
  refine ⟨slotFs_old, slotFs_free, ?_, ?_, ?_, ?_⟩
  · exact ⟨s₁, h₁, Outcome.ok_of_test hq₁⟩
  · exact ⟨s₂, h₂, Outcome.returns_of_test hq₂⟩
  · decide +kernel
  · exact Outcome.returns_of_test (by decide +kernel)

end FypOs.Fs
