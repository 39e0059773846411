import FypOs.Fs.Hold

/-!
# Fs — the calls on directories and paths

Looking names up, walking paths, creating and unlinking files lead from sound states to sound
states, and account for the references and locks they take: a path walk hands a reference on,
`create` a reference and a lock, and everything else is given back on every way out, successful or
not.
-/

namespace FypOs.Fs

open Lib Accounts Fs.Tree Keeps TreeOp

section

variable {X : Nat → Prop} {a : Hold} {s s' : State} {i : Fin NINODE} {T : Tree} {α : Type}

lemma Does.of_sound {m : FsM α} {b : α → Hold} {Q : α → State → Prop}
    (h : Sound s → Does X a m b Q s) : Does X a m b Q s := fun ha => h ha.sound ha

lemma does_inode {f : Inode → FsM α} {b : α → Hold} {Q : α → State → Prop}
    (h : Does X a (f (s.itable i)) b Q s) : Does X a (inode i >>= f) b Q s :=
  does_reads h

lemma Sound.inum_lt (h : Sound s) (hi : Held s i) : (s.itable i).inum < s.sb.ninodes :=
  (h.range i hi.1).2

/-- An entry that a part of a call does not give a reference to back is as good as it was. -/
lemma Keeps.held_of_zero {b : Hold} (h : Keeps X 0 b s s') (hi : Held s i) :
    Held s' i ∧ (s'.itable i).inum = (s.itable i).inum ∧ (s'.itable i).d.type = (s.itable i).d.type :=
  h.held hi hi.1

/-! ### Directories -/

lemma Sound.whole (h : Sound s) (hi : Held s i) (ht : (s.itable i).d.type = T_DIR) :
    DIRENTSZ ∣ (s.itable i).d.size.toNat := by
  have hd := (h.consistent.synced i hi).2
  rw [hd] at ht ⊢
  exact ((h.fileOk hi).dir ht).whole

/-- The inode that an entry of a directory names. -/
lemma Sound.entry_range (h : Sound s) (hi : Held s i) (ht : (s.itable i).d.type = T_DIR) {off : Nat}
    (hmod : off % DIRENTSZ = 0) (hle : off + DIRENTSZ ≤ (s.itable i).d.size.toNat)
    (hne : direntInum (s.entry (s.itable i).inum off) ≠ 0) :
    0 < direntInum (s.entry (s.itable i).inum off) ∧
      direntInum (s.entry (s.itable i).inum off) < s.sb.ninodes := by
  have hd := (h.consistent.synced i hi).2
  refine ⟨Nat.pos_of_ne_zero hne, ((h.fileOk hi).dir (by rw [← hd]; exact ht)).inum off hmod ?_⟩
  rw [← hd]
  simp only [DIRENTSZ] at hle
  omega

/-- Getting an entry changes no more than the reference count of an entry in use. -/
lemma Got.entry_eq {inum : Nat} {j k : Fin NINODE} (hg : Got s s' inum j)
    (hk : 0 < (s.itable k).ref) : ∃ r, s'.itable k = { s.itable k with ref := r } := by
  by_cases hkj : k = j
  · subst hkj
    rcases hg.entry with ⟨-, e⟩ | ⟨h0, -⟩
    · exact ⟨_, e⟩
    · exact absurd h0 hk.ne'
  · exact ⟨_, hg.others k hkj⟩

lemma Sound.tree_dir (h : Sound s) (hi : Held s i) (ht : (s.itable i).d.type = T_DIR) :
    s.tree (s.itable i).inum = ⟨T_DIR, (s.itable i).d.nlink, s.slots (s.itable i).inum⟩ := by
  rw [tree_of_held h.consistent hi, ht, if_pos rfl]

/-- What a lookup of the name in directory `d` of the tree comes to. -/
def Found (T : Tree) (d : Nat) (name : Name) (s' : State) : Option (Fin NINODE × Nat) → Prop
  | none => findSlot (T d).slots (nameStr name) = none
  | some (j, off) => ∃ k, off = k * DIRENTSZ ∧ findSlot (T d).slots (nameStr name) = some k ∧
      (T d).slots[k]? = some ((s'.itable j).inum, nameStr name)

/-- Looking a name up gets a reference to the inode that its entry names. -/
lemma dirlookup_does (hi : Held s i) (name : Name) :
    Does X 0 (dirlookup i name) (fun r => r.elim 0 fun q => .ref q.1) (fun r s' =>
      (s.itable i).d.type = T_DIR ∧ (∃ r, s'.itable i = { s.itable i with ref := r }) ∧
      s'.tree = s.tree ∧ Found s.tree (s.itable i).inum name s' r ∧
      ∀ j off, r = some (j, off) → off % DIRENTSZ = 0 ∧ off + DIRENTSZ ≤ (s.itable i).d.size.toNat) s := by
  intro ha
  have h := ha.sound
  refine (dirlookup_finds h.consistent hi (h.fileOk hi).toHoleFree name (.inr (by decide))
    (fun ht => .inl (h.whole hi ht)) fun _ _ _ => .inr (by decide)).post fun r s' hr => ?_
  obtain ⟨ht, ⟨rfl, rfl, hno⟩ | ⟨j, k, rfl, hle, hfirst, hg⟩⟩ := hr
  · refine ⟨.refl h, ht, ⟨_, rfl⟩, rfl, ?_, nofun⟩
    rw [Found, h.tree_dir hi ht]
    exact findSlot_of_noMatch hno
  · have hd := (h.consistent.synced i hi).2
    have hmod : k * DIRENTSZ % DIRENTSZ = 0 := Nat.mul_mod_left ..
    have hle' : k * DIRENTSZ + DIRENTSZ ≤ (s.itable i).d.size.toNat := by
      rw [← Nat.succ_mul]
      exact hle
    refine ⟨hg.keeps h (h.entry_range hi ht hmod hle' hfirst.1.1), ht, hg.entry_eq hi.1, hg.tree,
      ⟨k, rfl, ?_, ?_⟩, fun k' o e => ?_⟩
    · rw [h.tree_dir hi ht]
      exact findSlot_of_firstMatch hfirst (hd ▸ hle)
    · rw [h.tree_dir hi ht, slots_getElem? (hd ▸ hle), hg.inum]
      exact congrArg some (Prod.ext rfl (matches_iff.mp hfirst.1).2)
    · cases e
      exact ⟨hmod, hle'⟩

/-- A directory is not one of the files that a step has to leave alone. -/
lemma Consistent.not_linked (h : Consistent s) (hi : Held s i) (ht : (s.itable i).d.type = T_DIR) :
    ¬ Linked s (s.itable i).inum := by
  intro hl
  rw [(h.synced i hi).2] at ht
  exact hl.type ht

lemma EntryWritten.keeps {de : Block} {off tot : Nat} (h : Sound s) (hi : Held s i)
    (he : EntryWritten s s' i de off tot) (hde : direntInum de < s.sb.ninodes)
    (hX : X (s.itable i).inum ∨ ¬ Linked s (s.itable i).inum) : Keeps X a a s s' := by
  obtain ⟨_, _, hd, -⟩ := he.written.inode
  exact he.written.frame.keeps (he.sound h hi hde) (by rw [hd]) hX

/-- What adding an entry to directory `d` comes to; inode numbers have to fit. -/
structure Added (T T' : Tree) (d inum : Nat) (name : Name) : Prop where
  fresh : findSlot (T d).slots (nameStr name) = none
  entry : ∃ k, VacantIn (T d).slots k ∧
    (inum < 2 ^ 16 → T' = T.setSlot d k (inum, nameStr name))

lemma dirlink_does (hi : Held s i) (name : Name) {inum : Nat} (hinum : inum < s.sb.ninodes) :
    Does X 0 (dirlink i name inum) (fun _ => 0) (fun r s' => (s.itable i).d.type = T_DIR ∧
      (r < 0 ∧ s'.tree = s.tree ∨ r = 0 ∧ Added s.tree s'.tree (s.itable i).inum inum name) ∧
      ∀ j, (s'.itable j).lock = (s.itable j).lock) s := by
  intro ha
  have h := ha.sound
  refine (dirlink_spec h.consistent hi (h.fileOk hi).toHoleFree name inum (.inr (by decide))
    (fun ht => .inl (h.whole hi ht)) (by decide)).post fun r s' hr => ?_
  obtain ⟨ht, ⟨rfl, hq⟩ | ⟨hno, k, tot, hk, he, hr⟩⟩ := hr
  · exact ⟨hq.keeps h, ht, .inl ⟨by decide, hq.tree⟩, hq.lock⟩
  · refine ⟨he.keeps h hi ?_ (.inr (h.consistent.not_linked hi ht)), ht, ?_, he.written.frame.lock⟩
    · exact Nat.lt_of_le_of_lt (direntInum_mkDirent_le name inum) hinum
    · have htree := he.tree h hi ht
      have hle := he.le
      rw [(h.consistent.synced i hi).2] at hle
      by_cases htot : tot = DIRENTSZ
      · rw [if_pos htot] at hr htree
        refine .inr ⟨hr, ?_, k, ?_, fun hfit => ?_⟩
        · rw [h.tree_dir hi ht]
          exact findSlot_of_noMatch hno
        · rw [h.tree_dir hi ht]
          exact vacantIn_of_vacant hk hle
        · rw [htree, Nat.mul_div_cancel _ (by decide), direntOf, direntInum_mkDirent,
            nameStr_mkDirent, Nat.mod_eq_of_lt hfit]
      · rw [if_neg htot] at hr htree
        exact .inl ⟨by rw [hr]; decide, htree⟩

lemma Sound.zero_lt_ninodes (h : Sound s) : 0 < s.sb.ninodes :=
  Nat.lt_trans Nat.one_pos h.consistent.layout.root

/-- What removing the name from directory `d` comes to. -/
structure Removed (T T' : Tree) (d : Nat) (name : Name) : Prop where
  entry : ∃ k m, findSlot (T d).slots (nameStr name) = some k ∧
    (T d).slots[k]? = some (m, nameStr name) ∧ T' = T.setSlot d k (0, nameStr name)

lemma dirunlink_does (hi : Held s i) (name : Name) (hX : X (s.itable i).inum) :
    Does X 0 (dirunlink i name) (fun _ => 0) (fun r s' => (s.itable i).d.type = T_DIR →
      (r < 0 ∧ s'.tree = s.tree ∧ findSlot (s.tree (s.itable i).inum).slots (nameStr name) = none ∨
        r = 0 ∧ Removed s.tree s'.tree (s.itable i).inum name)) s := by
  intro ha
  have h := ha.sound
  have hd := (h.consistent.synced i hi).2
  refine (dirunlink_spec h.consistent hi (h.fileOk hi).toHoleFree name (.inr (by decide))).post
    fun r s' hr => ?_
  rcases hr with ⟨rfl, rfl, hno⟩ | ⟨k, rfl, hle, hm, hfirst, he⟩
  · refine ⟨.refl h, fun ht => .inl ⟨by decide, rfl, ?_⟩⟩
    rw [h.tree_dir hi ht]
    exact findSlot_of_noMatch fun k hk hm => hno k (hd ▸ hk) (removable_iff.mpr hm)
  · refine ⟨he.keeps h hi ?_ (.inl hX), fun ht =>
      .inr ⟨rfl, k, direntInum (s.entry (s.itable i).inum (k * DIRENTSZ)), ?_, ?_, ?_⟩⟩
    · rw [direntInum_clear]
      exact h.zero_lt_ninodes
    · rw [h.tree_dir hi ht]
      exact findSlot_of_firstMatch ⟨removable_iff.mp hm, fun k' hk' hm' =>
        hfirst k' hk' (removable_iff.mpr hm')⟩ (hd ▸ hle)
    · rw [h.tree_dir hi ht, slots_getElem? (hd ▸ hle)]
      exact congrArg some (Prod.ext rfl (matches_iff.mp (removable_iff.mp hm)).2)
    · rw [he.tree h hi ht, if_pos rfl, Nat.mul_div_cancel _ (by decide), direntOf, direntInum_clear,
        direntName_clear]
      rw [← (matches_iff.mp (removable_iff.mp hm)).2]
      rfl

/-! ### Paths -/

/-- The inode and the name that a path walk has come to. -/
def State.place (s : State) (q : Fin NINODE × Name) : Nat × Name := ((s.itable q.1).inum, q.2)

lemma namexEnd_does (parent : Bool) : Does X (.ref i) (namexEnd parent i)
    (fun r => r.elim 0 fun q => .ref q.1) (fun r s' => s.tree.Frees s'.tree ∧
      r.map s'.place = (if parent then none else some ((s.itable i).inum, cstr [])) ∧
      (parent = true → r = none)) s := by
  rw [namexEnd]
  refine does_ite (fun hp => ?_) fun hp => .pure rfl ⟨.refl _, ?_, fun e => absurd e hp⟩
  · refine iput_does.bind (zero_add _).symm fun _ _ _ hput => .pure (add_zero 0) ⟨hput.tree, ?_, fun _ => rfl⟩
    rw [if_pos hp]
    rfl
  · rw [if_neg hp]
    rfl

/-- Walking a path gives back the reference it starts with, and every other it gets on its way; it
comes to where the path leads in the tree. -/
lemma namexLoop_does (hT : T.Like s.tree) (parent : Bool) (fuel : Nat) (path : List UInt8) :
    Does X (.ref i) (namexLoop parent fuel i path) (fun r => r.elim 0 fun q => .ref q.1)
      (fun r s' => s.tree.Frees s'.tree ∧ r.map s'.place = T.walkFrom parent fuel (s.itable i).inum path ∧
        (parent = true → ∀ q, r = some q → Held s' q.1 ∧ (s'.itable q.1).d.type = T_DIR)) s := by
  induction fuel generalizing i path s with
  | zero =>
    refine (namexEnd_does parent).post fun r s' _ h => ⟨h.1, h.2.1, fun hp q hq => ?_⟩
    rw [h.2.2 hp] at hq
    cases hq
  | succ fuel ih =>
    rw [namexLoop]
    cases hskip : skipelem path with
    | none =>
      refine (namexEnd_does parent).post fun r s' _ h => ?_
      rw [walkFrom_end hskip]
      refine ⟨h.1, h.2.1, fun hp q hq => ?_⟩
      rw [h.2.2 hp] at hq
      cases hq
    | some q =>
      obtain ⟨name, path'⟩ := q
      refine ilock_does.bind (add_zero _).symm fun _ s1 _ hl => does_inode ?_
      -- the inode is allocated, so that it looks as it did at first
      have hnode : s1.tree (s.itable i).inum = _ := hl.inum ▸ tree_of_held hl.consistent hl.held
      obtain ⟨htype, hslots⟩ := hT (s.itable i).inum (by
        rw [← hl.tree, hnode]
        exact (hl.consistent.liveAt hl.held).2.2)
      rw [← hl.tree, hnode] at htype
      refine does_ite (fun hno => ?_) fun hdir =>
        does_ite (fun hlast => ?_) fun hlast => ?_
      · refine iunlockput_does.bind (zero_add _).symm fun _ _ _ hput => .pure (add_zero 0) ?_
        rw [walkFrom_file hskip (htype ▸ hno)]
        exact ⟨hl.tree ▸ hput.unlock_frees, rfl, nofun⟩
      · refine iunlock_does.bind rfl fun _ s2 _ hs => .pure (add_zero _) ?_
        subst hs
        rw [walkFrom_last hskip (htype ▸ not_not.mp hdir) hlast]
        refine ⟨?_, ?_, fun _ q hq => ?_⟩
        · rw [tree_setInode, hl.tree]
          exact .refl _
        · rw [Option.map_some, State.place, setInode_itable_self, ← hl.inum]
        · cases hq
          rw [Held, setInode_itable_self]
          exact ⟨hl.held, not_not.mp hdir⟩
      · refine (dirlookup_does hl.held name).bind (add_zero _).symm fun r s2 _ hr => ?_
        obtain ⟨-, -, htree, hfound, -⟩ := hr
        rw [walkFrom_dir hskip (htype ▸ not_not.mp hdir) hlast, lookup, ← hslots, ← hl.tree]
        rw [hl.inum] at hfound
        cases r with
        | none =>
          refine iunlockput_does.bind (add_comm _ _) fun _ _ _ hput => .pure (add_zero 0) ?_
          refine ⟨htree ▸ hput.unlock_frees, ?_, nofun⟩
          rw [show findSlot _ _ = none from hfound]
          rfl
        | some q =>
          obtain ⟨j, off⟩ := q
          obtain ⟨k, -, hfind, hget⟩ := hfound
          refine iunlockput_does.bind (add_comm _ _) fun _ s3 _ hput => ?_
          rw [add_zero, hfind, Option.bind_some, hget]
          have hfrees : s1.tree.Frees s3.tree := htree ▸ hput.unlock_frees
          refine (ih ((hl.tree ▸ hT).trans hfrees.like) path').post fun r s' _ h => ?_
          refine ⟨hfrees.trans h.1, ?_, h.2.2⟩
          rw [h.2.1, hput.unlock_inum]
          rfl

lemma namex_does (hcwd : 0 < (s.itable s.me.cwd).ref) (path : List UInt8) (parent : Bool) (hT : T.Like s.tree) :
    Does X 0 (namex path parent) (fun r => r.elim 0 fun q => .ref q.1)
      (fun r s' => s.tree.Frees s'.tree ∧ r.map s'.place = T.walk (s.itable s.me.cwd).inum path parent ∧
        (parent = true → ∀ q, r = some q → Held s' q.1 ∧ (s'.itable q.1).d.type = T_DIR)) s := by
  refine .of_sound fun h => does_reads ?_
  have hstart : Does X 0 (if path.head? = some slash then iget ROOTDEV ROOTINO else idup s.me.cwd)
      .ref (fun j s1 => s1.tree = s.tree ∧ (s1.itable j).inum =
        if path.head? = some slash then ROOTINO else (s.itable s.me.cwd).inum) s := by
    refine does_ite (fun hp => ?_) fun hp => ?_
    · refine (iget_does ⟨Nat.one_pos, h.consistent.layout.root⟩).post fun j s1 _ hg => ⟨hg.tree, ?_⟩
      rw [if_pos hp, hg.inum]
      rfl
    · refine (idup_does hcwd).post fun j s1 _ hs => ⟨hs.2.1, ?_⟩
      rw [if_neg hp, hs.2.2, hs.1]
  refine hstart.bind (add_zero 0).symm fun j s1 _ hs => ?_
  rw [zero_add]
  refine (namexLoop_does (hs.1 ▸ hT) parent _ path).post fun r s' _ hr => ?_
  rw [hs.1, hs.2] at hr
  exact hr

/-! ### Creating -/

variable {dp ip : Fin NINODE}

lemma createFail_does (hip : Held s ip) (hne : ip ≠ dp) (hX : X (s.itable ip).inum) :
    Does X (.ref dp + .lock dp + (.ref ip + .lock ip)) (createFail dp ip)
      (fun r => r.elim 0 fun i => .ref i + .lock i) (fun r s' => r = none ∧
        (s.tree.setNlink (s.itable ip).inum 0).Frees s'.tree ∧ Anchored s' (s.itable ip).inum) s := by
  refine (editInode_does hip meta_noLink (.inl hX)).bind (add_zero _).symm fun _ s1 k1 h1 => ?_
  obtain ⟨htree, hd, -⟩ := h1
  obtain ⟨hip1, hinum1, -⟩ := held_of_zero k1 hip
  refine iunlockput_does.bind (add_zero _) fun _ s2 _ hput => ?_
  have hset := hput.unlock_settled hip1 (by rw [hd])
  rw [hinum1] at hset
  refine iunlockput_does.bind (c := 0) (by abel) fun _ s3 _ hput2 => .pure (add_zero 0)
    ⟨rfl, htree ▸ hput.unlock_frees.trans hput2.unlock_frees, ?_⟩
  rcases hset with hfree | hheld
  · exact .inl (hput2.unlock_frees.eq_free hfree)
  · refine .inr ⟨ip, ?_, ?_⟩
    · rw [Held, hput2.unlock_others hne]
      exact hheld
    · rw [hput2.unlock_inum, hput.unlock_inum, hinum1]

/-- The entries `.` and `..` of a directory that has none. -/
lemma createDots_does (hdp : Held s dp) (hip : Held s ip) :
    Does X 0 (createDots dp ip) (fun _ => 0) (fun r s' => s.sb.ninodes ≤ 2 ^ 16 →
      ∃ l, s'.tree = s.tree.set (s.itable ip).inum { s.tree (s.itable ip).inum with slots := l } ∧
        (Bare (s.itable ip).inum (s.tree (s.itable ip).inum).slots → Bare (s.itable ip).inum l) ∧
        (r = true → (s.tree (s.itable ip).inum).slots = [] →
          l = [((s.itable ip).inum, nameStr dot), ((s.itable dp).inum, nameStr dotdot)])) s := by
  refine .of_sound fun h => does_inode ?_
  refine (dirlink_does hip dot (h.inum_lt hip)).bind (add_zero 0).symm fun r s1 k1 hr1 => ?_
  refine does_ite (fun hneg => .pure (add_zero 0) fun _ =>
    ⟨(s.tree (s.itable ip).inum).slots, ?_, id, nofun⟩) fun hneg =>
    does_inode ?_
  · rcases hr1.2.1 with ⟨-, e⟩ | ⟨e, -⟩
    · rw [e, Tree.set]
      exact (Function.update_eq_self ..).symm
    · omega
  obtain ⟨hip1, hinum1, -⟩ := held_of_zero k1 hip
  obtain ⟨hdp1, hdinum1, -⟩ := held_of_zero k1 hdp
  refine (dirlink_does hip1 dotdot (k1.sound.inum_lt hdp1)).bind (add_zero _).symm fun r s2 k2 hr2 => ?_
  refine .pure (by simp) fun hsmall => ?_
  have hfit {j} (hj : Held s j) : (s.itable j).inum < 2 ^ 16 :=
    Nat.lt_of_lt_of_le (h.inum_lt hj) hsmall
  -- the first entry has been written
  obtain ⟨k, hk, hset1⟩ : ∃ k, VacantIn (s.tree (s.itable ip).inum).slots k ∧
      s1.tree = s.tree.setSlot (s.itable ip).inum k ((s.itable ip).inum, nameStr dot) := by
    rcases hr1.2.1 with ⟨e, -⟩ | ⟨-, hadd⟩
    · exact absurd e hneg
    · obtain ⟨k, hk, e⟩ := hadd.entry
      exact ⟨k, hk, e (hfit hip)⟩
  rw [setSlot] at hset1
  rw [hinum1, hdinum1] at hr2
  rcases hr2.2.1 with ⟨e, htree⟩ | ⟨-, hadd⟩
  · refine ⟨_, htree.trans hset1, fun hb => hb.splice hk.1 (.inl ⟨rfl, rfl⟩), fun hr => ?_⟩
    have : 0 ≤ r := of_decide_eq_true hr
    omega
  · obtain ⟨k', hk', hset2⟩ := hadd.entry
    have hset := hset2 (hfit hdp)
    rw [setSlot, hset1, set_self, set_set] at hset
    rw [hset1, set_self] at hk'
    refine ⟨_, hset, fun hb => (hb.splice hk.1 (.inl ⟨rfl, rfl⟩)).splice hk'.1 (.inr rfl),
      fun _ hnil => ?_⟩
    rw [hnil] at hk hk' ⊢
    obtain rfl : k = 0 := Nat.le_zero.mp hk.1
    have hk' : k' = 1 := by
      have hle : k' ≤ 1 := hk'.1
      by_contra hne
      obtain rfl : k' = 0 := by omega
      exact (h.range ip hip.1).1.ne' (hk'.2 _ rfl)
    subst hk'
    rfl

/-- The new inode gets its entry in the directory, or is given up. -/
lemma createEntry_does (hdp : Held s dp) (hip : Held s ip) (hne : ip ≠ dp)
    (hX : X (s.itable ip).inum) (name : Name) (type : Int16) :
    Does X (.ref dp + .lock dp + (.ref ip + .lock ip)) (createEntry dp ip name type)
      (fun r => r.elim 0 fun i => .ref i + .lock i) (fun r s' =>
        (r = none → (s.tree.setNlink (s.itable ip).inum 0).Frees s'.tree ∧ Anchored s' (s.itable ip).inum) ∧
        ∀ i, r = some i → Held s' i ∧ (s'.itable i).d.type = (s.itable ip).d.type ∧
          (s'.itable i).inum = (s.itable ip).inum ∧
          (s.sb.ninodes ≤ 2 ^ 16 → ∃ k, TreeOp.Room s.tree (s.itable dp).inum k (nameStr name) ∧
            let T := s.tree.setSlot (s.itable dp).inum k ((s.itable ip).inum, nameStr name)
            (if type = T_DIR
              then T.setNlink (s.itable dp).inum ((s.tree (s.itable dp).inum).nlink + 1)
              else T).Frees s'.tree)) s := by
  refine .of_sound fun h => does_inode ?_
  refine (dirlink_does hdp name (h.inum_lt hip)).bind (add_zero _).symm fun r s1 k1 hr1 => ?_
  obtain ⟨hip1, hinum1, htype1⟩ := held_of_zero k1 hip
  obtain ⟨hdp1, hdinum1, hdtype1⟩ := held_of_zero k1 hdp
  rw [add_zero]
  refine does_ite (fun hneg => ?_) fun hneg => ?_
  · refine (createFail_does hip1 hne (by rw [hinum1]; exact hX)).post fun r s' _ hr => ?_
    obtain ⟨rfl, hfrees, hanchored⟩ := hr
    rcases hr1.2.1 with ⟨-, e⟩ | ⟨e, -⟩
    · rw [e, hinum1] at hfrees
      rw [hinum1] at hanchored
      exact ⟨fun _ => ⟨hfrees, hanchored⟩, nofun⟩
    · omega
  · have hlink : Does X 0 (if type = T_DIR then addLink dp 1 else pure ()) (fun _ => 0)
        (fun _ s2 => s2.tree = if type = T_DIR
          then s1.tree.setNlink (s.itable dp).inum ((s1.tree (s.itable dp).inum).nlink + 1)
          else s1.tree) s1 := by
      refine does_ite (fun ht => ?_) fun ht => .pure rfl (if_neg ht).symm
      refine (editInode_does hdp1 (meta_addLink 1)
        (.inr (k1.sound.consistent.not_linked hdp1 (hdtype1.trans hr1.1)))).post fun _ s2 _ hs => ?_
      rw [if_pos ht, hs.1, hdinum1, ← hdinum1, tree_of_held k1.sound.consistent hdp1]
    refine hlink.bind (add_zero _).symm fun _ s2 k2 htree2 => ?_
    obtain ⟨hip2, hinum2, htype2⟩ := held_of_zero k2 hip1
    refine iunlockput_does.bind (c := Hold.ref ip + Hold.lock ip) (by abel)
      fun _ s3 _ hput => .pure (add_zero _) ⟨nofun, fun i hi => ?_⟩
    cases hi
    rw [Held, hput.unlock_others hne, htype2, htype1, hinum2, hinum1]
    refine ⟨hip2, rfl, rfl, fun hsmall => ?_⟩
    rcases hr1.2.1 with ⟨e, -⟩ | ⟨-, hadd⟩
    · exact absurd e hneg
    · obtain ⟨k, hk, hset⟩ := hadd.entry
      have hset := hset (Nat.lt_of_lt_of_le (h.inum_lt hip) hsmall)
      have hdir : (s.tree (s.itable dp).inum).type = T_DIR := by rw [h.tree_dir hdp hr1.1]
      refine ⟨k, ⟨hdir, hadd.fresh, hk⟩, ?_⟩
      have hnlink : (s1.tree (s.itable dp).inum).nlink = (s.tree (s.itable dp).inum).nlink := by
        rw [hset, setSlot, set_self]
      have hfrees := hput.unlock_frees
      rw [htree2, hnlink, hset] at hfrees
      exact hfrees

/-- What the making of an inode in directory `d` comes to. -/
def Made (T : Tree) (s' : State) (d : Nat) (name : Name) (type : Int16) : Option (Fin NINODE) → Prop
  | none => T.Frees s'.tree ∨ ∃ n nd, TreeOp.Enabled T (.spare n nd) ∧ (T.set n nd).Frees s'.tree ∧
      Anchored s' n
  | some i => ∃ k n, TreeOp.Enabled T (.create d k n (nameStr name) type) ∧
      (TreeOp.apply T (.create d k n (nameStr name) type)).Frees s'.tree ∧ (s'.itable i).inum = n

lemma createNew_does (hdp : Held s dp) (name : Name) (type major minor : Int16) :
    Does X (.ref dp + .lock dp) (createNew dp name type major minor)
      (fun r => r.elim 0 fun i => .ref i + .lock i) (fun r s' =>
        (∀ i, r = some i → Held s' i ∧ (s'.itable i).d.type = type) ∧
        (s.sb.ninodes ≤ 2 ^ 16 → type ≠ 0 → Made s.tree s' (s.itable dp).inum name type r)) s := by
  refine .of_sound fun h => does_inode ?_
  rw [h.consistent.dev dp hdp.1]
  refine (ialloc_does type).bind (add_zero _).symm fun r s1 k1 hr => ?_
  cases r with
  | none =>
    refine iunlockput_does.bind (by simp) fun _ _ _ hput => .pure (add_zero 0) ⟨by simp, fun _ _ => ?_⟩
    exact .inl (hr.1 rfl ▸ hput.unlock_frees)
  | some ip =>
    obtain ⟨n, hf⟩ := hr.2 ip rfl
    have hne : ip ≠ dp := fun e => hf.not_held (e ▸ hdp)
    obtain ⟨hdp1, hdinum1, -⟩ := held_of_zero k1 hdp
    -- the new inode is not linked yet, so that it may be changed
    refine Does.restrict (Y := fun m => X m ∨ m = n) ?_ fun m hm => hm.imp_right fun e hl => ?_
    · refine ilock_does.bind (add_zero _).symm fun _ s2 k2 hl => ?_
      obtain ⟨hdp2, hdinum2, -⟩ := held_of_zero k2 hdp1
      have hinum2 : (s2.itable ip).inum = n := hl.inum.trans hf.inum
      have htype2 : (s2.itable ip).d.type = type := by
        rw [(hl.consistent.synced ip hl.held).2, hinum2, dinode_congr hl.sb hl.blocks, hf.dinode]
        rfl
      refine (editInode_does hl.held (meta_new major minor) (.inl (.inr hinum2))).bind
        (add_zero _).symm fun _ s3 k3 h3 => ?_
      obtain ⟨hip3, hinum3, htype3⟩ := held_of_zero k3 hl.held
      obtain ⟨hdp3, hdinum3, -⟩ := held_of_zero k3 hdp2
      have hdots : Does (fun m => X m ∨ m = n) 0
          (if type = T_DIR then createDots dp ip else pure true) (fun _ => 0)
          (fun r s4 => s.sb.ninodes ≤ 2 ^ 16 → ∃ l, s4.tree = s3.tree.set n { s3.tree n with slots := l } ∧
            (Bare n (s3.tree n).slots → Bare n l) ∧
            (r = true → (s3.tree n).slots = [] → l = firstSlots type (s.itable dp).inum n)) s3 := by
        refine does_ite (fun ht => ?_) fun ht => .pure rfl fun _ =>
          ⟨(s3.tree n).slots, (Function.update_eq_self ..).symm, id, fun _ hnil => ?_⟩
        · refine (createDots_does hdp3 hip3).post fun r s4 _ hr hsmall => ?_
          rw [hinum3, hinum2, hdinum3, hdinum2, hdinum1] at hr
          obtain ⟨l, hl, hbare, hdots⟩ := hr (by rw [k3.sb, k2.sb, k1.sb]; exact hsmall)
          refine ⟨l, hl, hbare, fun hr hnil => (hdots hr hnil).trans ?_⟩
          rw [firstSlots, if_pos ht]
        · rw [hnil, firstSlots, if_neg ht]
      refine hdots.bind (add_zero _).symm fun dots s4 k4 h4 => ?_
      obtain ⟨hip4, hinum4, htype4⟩ := held_of_zero k4 hip3
      obtain ⟨hdp4, hdinum4, -⟩ := held_of_zero k4 hdp3
      have hinum : (s4.itable ip).inum = n := by rw [hinum4, hinum3, hinum2]
      have hdinum : (s4.itable dp).inum = (s.itable dp).inum := by
        rw [hdinum4, hdinum3, hdinum2, hdinum1]
      have hX4 : X (s4.itable ip).inum ∨ (s4.itable ip).inum = n := .inr hinum
      -- the tree so far
      have htree : s.sb.ninodes ≤ 2 ^ 16 → type ≠ 0 → s.tree n = .free ∧ ∃ l,
          s4.tree = s.tree.set n ⟨type, 1, l⟩ ∧ Bare n l ∧
          (dots = true → l = firstSlots type (s.itable dp).inum n) := by
        intro hsmall htype
        obtain ⟨hset, hfree⟩ := hf.tree htype
        have h2 : s3.tree = s.tree.set n ⟨type, 1, []⟩ := by
          rw [h3.1, hinum2, hl.tree, hset, setNlink, set_self, set_set]
        obtain ⟨l, hl, hbare, hdots⟩ := h4 hsmall
        rw [h2, set_self, set_set] at hl
        rw [h2, set_self] at hdots hbare
        exact ⟨hfree, l, hl, hbare (fun _ _ _ hk => by cases hk), fun hr => hdots hr rfl⟩
      rw [add_zero, add_zero, Option.elim_some, add_assoc]
      refine does_ite (fun hd => ?_) fun _ => ?_
      · refine (createEntry_does hdp4 hip4 hne hX4 name type).post fun r s' k5 hr =>
          ⟨fun i hi => ?_, fun hsmall htype => ?_⟩
        · rw [← htype2, ← htype3, ← htype4]
          obtain ⟨hi1, hi2, -⟩ := hr.2 i hi
          exact ⟨hi1, hi2⟩
        · obtain ⟨hfree, l, hl, hbare, hdots⟩ := htree hsmall htype
          cases r with
          | none =>
            obtain ⟨hfrees, hanchored⟩ := hr.1 rfl
            rw [hinum, hl, setNlink, set_self, set_set] at hfrees
            rw [hinum] at hanchored
            exact .inr ⟨n, _, ⟨hfree, rfl, hbare⟩, hfrees, hanchored⟩
          | some i =>
            obtain ⟨-, -, hi, hmade⟩ := hr.2 i rfl
            obtain ⟨k, hroom, hfrees⟩ := hmade (by rw [k4.sb, k3.sb, k2.sb, k1.sb]; exact hsmall)
            have hdn : (s.itable dp).inum ≠ n := by
              intro e
              have hlive := (h.consistent.liveAt hdp).2.2
              have hnode := tree_of_held h.consistent hdp
              rw [e, hfree] at hnode
              exact hlive (congrArg Node.type hnode).symm
            have hnode : s4.tree (s.itable dp).inum = s.tree (s.itable dp).inum := by
              rw [hl, set_of_ne _ _ hdn]
            rw [hdinum, hinum, hnode, hl, hdots hd] at hfrees
            obtain ⟨hdir, hfresh, hvacant⟩ := hroom
            rw [hdinum, hnode] at hdir hfresh hvacant
            exact ⟨k, n, ⟨hfree, hf.range.1, htype, ⟨hdir, hfresh, hvacant⟩⟩, hfrees, hi.trans hinum⟩
      · refine (createFail_does hip4 hne hX4).post fun r s' _ hr => ?_
        obtain ⟨rfl, hfrees, hanchored⟩ := hr
        refine ⟨by simp, fun hsmall htype => ?_⟩
        obtain ⟨hfree, l, hl, hbare, -⟩ := htree hsmall htype
        rw [hinum, hl, setNlink, set_self, set_set] at hfrees
        rw [hinum] at hanchored
        exact .inr ⟨n, _, ⟨hfree, rfl, hbare⟩, hfrees, hanchored⟩
    · subst e
      refine hl.nlink ?_
      rw [hf.dinode]
      rfl

lemma Made.meets {d : Nat} {name : Name} {type : Int16} {r : Option (Fin NINODE)}
    {path : List UInt8} (h : Made T s' d name type r) (hT : s.tree.Frees T)
    (hwalk : s.tree.walk (s.itable s.me.cwd).inum path true = some (d, name)) :
    Meets s s' (.make path type) := by
  cases r with
  | none =>
    rcases h with hfrees | ⟨n, nd, hen, hfrees, hanchored⟩
    · exact .of_frees (hT.trans hfrees) _
    · refine ⟨.spare n nd, trivial, ⟨T, hT, hen, hfrees⟩, fun m hm _ => ?_⟩
      cases hm
      exact hanchored
  | some i =>
    obtain ⟨k, n, hen, hfrees, -⟩ := h
    exact ⟨.create d k n (nameStr name) type, ⟨rfl, name, hwalk, rfl⟩, ⟨T, hT, hen, hfrees⟩, nofun⟩

/-- **Creating a file** hands on a locked inode, with a reference; a regular file or a device if a
regular file was asked for. -/
lemma create_does (hcwd : 0 < (s.itable s.me.cwd).ref) (path : List UInt8) (type major minor : Int16) :
    Does X 0 (create path type major minor) (fun r => r.elim 0 fun i => .ref i + .lock i)
      (fun r s' => (∀ i, r = some i → Held s' i ∧ (type = T_FILE → (s'.itable i).d.type ≠ T_DIR)) ∧
        (s.sb.ninodes ≤ 2 ^ 16 → type ≠ 0 → Meets s s' (.make path type))) s := by
  refine (namex_does hcwd path true (.refl _)).bind (add_zero 0).symm fun r s1 k1 hr => ?_
  obtain ⟨hfrees1, hwalk, -⟩ := hr
  cases r with
  | none => exact .pure (add_zero 0) ⟨nofun, fun _ _ => .of_frees hfrees1 _⟩
  | some q =>
    obtain ⟨dp, name⟩ := q
    refine ilock_does.bind (add_zero _).symm fun _ s2 k2 hl => ?_
    rw [zero_add, Option.elim_some]
    refine (dirlookup_does hl.held name).bind (add_zero _).symm fun r s3 k3 hr => ?_
    obtain ⟨-, -, htree3, -, -⟩ := hr
    obtain ⟨hdp3, hdinum3, -⟩ := held_of_zero k3 hl.held
    have hfrees3 : s.tree.Frees s3.tree := by
      rw [htree3, hl.tree]
      exact hfrees1
    cases r with
    | none =>
      rw [Option.elim_none, add_zero]
      refine (createNew_does hdp3 name type major minor).post fun r s' _ hr =>
        ⟨fun i hi => ⟨(hr.1 i hi).1, fun ht => ?_⟩, fun hsmall htype => ?_⟩
      · rw [(hr.1 i hi).2, ht]
        decide
      · refine (hr.2 (by rw [k3.sb, k2.sb, k1.sb]; exact hsmall) htype).meets hfrees3 ?_
        rw [← hwalk, hdinum3, hl.inum]
        rfl
    | some q =>
      refine iunlockput_does.bind (add_comm _ _) fun _ s4 _ hput => ?_
      refine ilock_does.bind rfl fun _ s5 _ hl5 => does_inode ?_
      rw [Option.elim_some]
      have hfrees5 : s.tree.Frees s5.tree := by
        rw [hl5.tree]
        exact hfrees3.trans hput.unlock_frees
      refine does_ite (fun hfile => .pure rfl ⟨fun i hi => ?_, fun _ _ => .of_frees hfrees5 _⟩)
        fun _ => ?_
      · cases hi
        refine ⟨hl5.held, fun _ ht => ?_⟩
        rw [ht] at hfile
        exact absurd hfile.2 (by decide)
      · exact iunlockput_does.bind (zero_add _).symm fun _ _ _ hput => .pure (add_zero 0)
          ⟨nofun, fun _ _ => .of_frees (hfrees5.trans hput.unlock_frees) _⟩

/-! ### Unlinking -/

lemma isdirempty_does (hi : Held s i) (ht : (s.itable i).d.type = T_DIR) :
    Does X 0 (isdirempty i) (fun _ => 0) (fun r s' => s' = s ∧
      (r = true ↔ EmptyDir (s.tree (s.itable i).inum).slots)) s := by
  intro ha
  have h := ha.sound
  refine (isdirempty_spec h.consistent hi (h.fileOk hi).toHoleFree (.inl (h.whole hi ht))).post
    fun r s' hs => ?_
  obtain ⟨rfl, hr⟩ := hs
  refine ⟨.refl h, rfl, hr.trans ?_⟩
  have hwhole := h.whole hi ht
  have hD : DIRENTSZ = 16 := rfl
  rw [h.tree_dir hi ht, emptyDir_slots, ← (h.consistent.synced i hi).2]
  refine forall_congr' fun k => imp_congr_right fun _ => imp_congr_left ?_
  rw [hD] at hwhole ⊢
  omega

lemma direntOf_zero : direntOf (fun _ => 0) = (0, []) := rfl

lemma addLink_does (hi : Held s i) (k : Int16) (hX : X (s.itable i).inum ∨ ¬ Linked s (s.itable i).inum) :
    Does X 0 (addLink i k) (fun _ => 0) (fun _ s' =>
      s'.tree = s.tree.setNlink (s.itable i).inum ((s.tree (s.itable i).inum).nlink + k) ∧
      ∀ j, j ≠ i → s'.itable j = s.itable j) s := by
  refine .of_sound fun h => (editInode_does hi (meta_addLink k) hX).post fun _ s' _ hs => ⟨?_, hs.2.2⟩
  rw [hs.1, tree_of_held h.consistent hi]

/-- The entry that was found is there, so that it can be cleared. -/
lemma unlinkEntry_does (hdp : Held s dp) (hip : Held s ip) (hne : ip ≠ dp) {k : Nat}
    (hle : k * DIRENTSZ + DIRENTSZ ≤ (s.itable dp).d.size.toNat) (hdir : (s.itable dp).d.type = T_DIR)
    (name : List UInt8) :
    Does (fun _ => True) (.ref dp + .lock dp + (.ref ip + .lock ip)) (unlinkEntry dp ip (k * DIRENTSZ))
      (fun _ => 0) (fun _ s' =>
        (apply s.tree (.unlink (s.itable dp).inum k (s.itable ip).inum name)).Frees s'.tree ∧
        ((s'.tree (s.itable ip).inum).nlink = 0 → Anchored s' (s.itable ip).inum)) s := by
  refine .of_sound fun h => ?_
  have hnd : (s.itable ip).inum ≠ (s.itable dp).inum :=
    fun e => hne (h.consistent.unique ip dp hip.1 hdp.1 e)
  have hclear : Does (fun _ => True) 0 (writeDirent dp (k * DIRENTSZ) fun _ => 0) (fun _ => 0)
      (fun r s' => r = DIRENTSZ ∧ s'.tree = s.tree.setSlot (s.itable dp).inum k (0, [])) s := by
    intro ha
    refine (writeDirent_over h.consistent hdp (h.fileOk hdp).toHoleFree (Nat.mul_mod_left ..) hle _).post
      fun r s' hr => ⟨hr.2.keeps h hdp ?_ (.inl trivial), hr.1, ?_⟩
    · exact h.zero_lt_ninodes
    · rw [hr.2.tree h hdp hdir, if_pos rfl, Nat.mul_div_cancel _ (by decide), direntOf_zero]
  refine hclear.bind (add_zero _).symm fun r s1 k1 hr => ?_
  obtain ⟨hr, htree1⟩ := hr
  refine does_ite (fun hno => absurd hr hno) fun _ => does_inode ?_
  obtain ⟨hdp1, hdinum1, -⟩ := held_of_zero k1 hdp
  obtain ⟨hip1, hinum1, htype1⟩ := held_of_zero k1 hip
  have htype : (s1.itable ip).d.type = (s.tree (s.itable ip).inum).type := by
    rw [htype1, tree_of_held h.consistent hip]
  have hlink : Does (fun _ => True) 0
      (if (s1.itable ip).d.type = T_DIR then addLink dp (-1) else pure ()) (fun _ => 0)
      (fun _ s2 => s2.tree = if (s.tree (s.itable ip).inum).type = T_DIR
        then s1.tree.setNlink (s.itable dp).inum ((s.tree (s.itable dp).inum).nlink - 1)
        else s1.tree) s1 := by
    rw [htype]
    refine does_ite (fun ht => ?_) fun ht => .pure rfl (if_neg ht).symm
    refine (addLink_does hdp1 (-1) (.inl trivial)).post fun _ s2 _ hs => ?_
    rw [if_pos ht, hs.1, hdinum1, htree1, setSlot, set_self, Int16.sub_eq_add_neg]
  refine hlink.bind (add_zero _).symm fun _ s2 k2 htree2 => ?_
  obtain ⟨hip2, hinum2, -⟩ := held_of_zero k2 hip1
  refine iunlockput_does.bind (c := Hold.ref ip + Hold.lock ip) (by abel) fun _ s3 k3 hput => ?_
  have hip3 : Held s3 ip := by
    rw [Held, hput.unlock_others hne]
    exact hip2
  have hinum3 : (s3.itable ip).inum = (s.itable ip).inum := by
    rw [hput.unlock_inum, hinum2, hinum1]
  -- the inode is in the table, so that it has not been freed with the directory
  have hkept : s3.tree (s.itable ip).inum = s2.tree (s.itable ip).inum := by
    refine hput.unlock_frees.eq_of_type ?_
    rw [← hinum3, tree_of_held k3.sound.consistent hip3]
    exact (k3.sound.consistent.liveAt hip3).2.2
  have hnlink : (s2.tree (s.itable ip).inum).nlink = (s.tree (s.itable ip).inum).nlink := by
    rw [htree2]
    split
    · rw [setNlink, set_of_ne _ _ hnd, htree1, setSlot, set_of_ne _ _ hnd]
    · rw [htree1, setSlot, set_of_ne _ _ hnd]
  refine (addLink_does hip3 (-1) (.inl trivial)).bind (add_zero _).symm fun _ s4 k4 hs => ?_
  obtain ⟨htree4, -⟩ := hs
  obtain ⟨hip4, hinum4, -⟩ := held_of_zero k4 hip3
  rw [hinum3] at hinum4 htree4
  refine iunlockput_does.bind (c := 0) (by abel) fun _ s' _ hput2 => .pure (add_zero 0) ⟨?_, fun hz => ?_⟩
  · have happly : (apply s.tree (.unlink (s.itable dp).inum k (s.itable ip).inum name)).Frees
        s4.tree := by
      rw [htree4, hkept, hnlink, ← Int16.sub_eq_add_neg, apply, ← htree1, ← htree2]
      exact hput.unlock_frees.setNlink hkept _
    exact happly.trans hput2.unlock_frees
  · by_cases hz4 : (s4.itable ip).d.nlink = 0
    · rcases hput2.unlock_settled hip4 hz4 with hfree | hheld
      · rw [hinum4] at hfree
        exact .inl hfree
      · exact .inr ⟨ip, hheld, by rw [hput2.unlock_inum, hinum4]⟩
    · have hne4 : (s4.tree (s.itable ip).inum).nlink ≠ 0 := by
        rw [← hinum4, tree_of_held k4.sound.consistent hip4]
        exact hz4
      rw [hput2.unlock_frees.eq_of_nlink hne4] at hz
      exact absurd hz hne4

lemma unlinkBad_does : Does X (.ref dp + .lock dp) (unlinkBad dp) (fun _ => 0)
    (fun _ s' => s.tree.Frees s'.tree) s :=
  iunlockput_does.bind (zero_add _).symm fun _ _ _ hput => .pure (add_zero 0) hput.unlock_frees

/-- A directory has an entry for an inode without links, that is neither `.` nor `..`. -/
def Stray (T : Tree) : Prop :=
  ∃ T₁ d k n name, T.Frees T₁ ∧ TreeOp.Names T₁ d k n name ∧ name ≠ nameStr dot ∧
    name ≠ nameStr dotdot ∧ (T₁ n).nlink < 1

/-- **Unlinking a file** gives back everything it takes; it never fails to clear the entry it has
found, and it stops at an inode without links only if there is one. -/
lemma sysUnlink_does {E : Prog.Stop → Prop} (hE : ∀ e, Stops e → E e)
    (hstray : Stray s.tree → E (.panic noLinks)) (hcwd : 0 < (s.itable s.me.cwd).ref) (path : List UInt8) :
    (accounts fun _ => True).Does 0 (sysUnlink path) (fun _ => 0)
      (fun _ s' => Meets s s' (.unlink path)) E s := by
  refine ((namex_does hcwd path true (.refl _)).stops hE).bind (add_zero 0).symm fun r s1 _ hr => ?_
  obtain ⟨hfrees1, hwalk, -⟩ := hr
  cases r with
  | none => exact .pure (add_zero 0) (.of_frees hfrees1 _)
  | some q =>
    obtain ⟨dp, name⟩ := q
    refine (ilock_does.stops hE).bind (add_zero _).symm fun _ s2 _ hl => ?_
    rw [zero_add, Option.elim_some]
    rw [← hl.tree] at hfrees1
    have hbad {s3 : State} (htree : s3.tree = s2.tree) :
        Does (fun _ => True) (.ref dp + .lock dp) (unlinkBad dp) (fun _ => 0)
          (fun _ s' => Meets s s' (.unlink path)) s3 :=
      unlinkBad_does.post fun _ s' _ hf => .of_frees (hfrees1.trans (htree ▸ hf)) _
    refine does_ite (fun _ => (hbad rfl).stops hE) fun hdots => ?_
    rw [namecmp_eq_zero, namecmp_eq_zero, not_or] at hdots
    refine ((dirlookup_does hl.held name).stops hE).bind (add_zero _).symm fun r s3 k3 hr => ?_
    obtain ⟨hdir, ⟨ref, hent⟩, htree3, hfound, hoff⟩ := hr
    cases r with
    | none =>
      rw [Option.elim_none, add_zero]
      exact (hbad htree3).stops hE
    | some q =>
      obtain ⟨ip, off⟩ := q
      obtain ⟨k, rfl, hfind, hget⟩ := hfound
      obtain ⟨-, hle⟩ := hoff ip _ rfl
      obtain ⟨hdp3, hdinum3, hdtype3⟩ := held_of_zero k3 hl.held
      refine (ilock_does.stops hE).bind (add_zero _).symm fun _ s4 k4 hl4 => ?_
      -- a directory does not get past the lock it holds itself
      have hne : ip ≠ dp := by
        rintro rfl
        obtain ⟨d, e⟩ := hl.entry
        have hfree := hl4.free
        rw [hent, e] at hfree
        cases hfree
      obtain ⟨hdp4, hdinum4, hdtype4⟩ := held_of_zero k4 hdp3
      have hle4 : k * DIRENTSZ + DIRENTSZ ≤ (s4.itable dp).d.size.toNat := by
        rw [hl4.others dp hne.symm, hent]
        exact hle
      have hd : (s4.itable dp).inum = (s2.itable dp).inum := hdinum4.trans hdinum3
      have htree4 : s4.tree = s2.tree := hl4.tree.trans htree3
      have hnode := tree_of_held hl4.consistent hl4.held
      have hnames : TreeOp.Names s4.tree (s4.itable dp).inum k (s4.itable ip).inum (nameStr name) := by
        refine ⟨?_, ?_, ?_, ?_⟩
        · rw [tree_of_held hl4.consistent hdp4]
          exact hdtype4.trans (hdtype3.trans hdir)
        · rw [htree4, hd]
          exact hfind
        · rw [htree4, hd, hl4.inum]
          exact hget
        · rw [hnode]
          exact (hl4.consistent.liveAt hl4.held).2.2
      rw [← htree4] at hfrees1
      rw [Option.elim_some, add_assoc]
      refine does_reads (does_ite (fun hlt => does_panic (hstray ?_))
        fun hnlink => ?_)
      · refine ⟨_, _, k, _, nameStr name, hfrees1, hnames, hdots.1, hdots.2, ?_⟩
        rw [hnode]
        exact hlt
      have hempty : Does (fun _ => True) 0
          (if (s4.itable ip).d.type = T_DIR then isdirempty ip else pure true) (fun _ => 0)
          (fun r s' => s' = s4 ∧ (r = true → (s4.itable ip).d.type = T_DIR →
            EmptyDir (s4.tree (s4.itable ip).inum).slots)) s4 := by
        refine does_ite (fun ht => ?_) fun ht => .pure rfl ⟨rfl, fun _ h => absurd h ht⟩
        exact (isdirempty_does hl4.held ht).post fun r s' _ hr => ⟨hr.1, fun e _ => hr.2.mp e⟩
      refine (hempty.stops hE).bind (add_zero _).symm fun empty s5 _ hs => ?_
      obtain ⟨rfl, hempty⟩ := hs
      rw [add_zero]
      refine does_ite (fun he => ?_) fun _ => ?_
      · refine ((unlinkEntry_does hdp4 hl4.held hne hle4 (hdtype4.trans (hdtype3.trans hdir))
          (nameStr name)).stops hE).post fun _ s' _ hs => ?_
        refine ⟨.unlink _ k _ (nameStr name), ⟨name, ?_, rfl⟩,
          ⟨_, hfrees1, ⟨hnames, ?_, hdots.1, hdots.2, ?_, ?_⟩, hs.1⟩, fun m hm => ?_⟩
        · rw [← hwalk, hd, hl.inum]
          rfl
        · exact fun e => hne (hl4.consistent.unique ip dp hl4.held.1 hdp4.1 e)
        · rw [hnode]
          exact Int16.not_lt.mp hnlink
        · intro ht
          rw [hnode] at ht
          exact hempty he ht
        · cases hm
          exact hs.2
      · refine (iunlockput_does.stops hE).bind rfl fun _ s6 _ hput => ?_
        rw [add_zero]
        refine (unlinkBad_does.stops hE).post fun _ s' _ hf => .of_frees ?_ _
        exact hfrees1.trans (hput.unlock_frees.trans hf)

end

end FypOs.Fs
