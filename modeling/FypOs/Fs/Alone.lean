import FypOs.Fs.Paths

/-!
# Fs — calls that run alone

What a call does when no inode is locked and the table has entries to spare: it does not wait, and it does not stop.
-/

namespace FypOs.Fs

open Lib Prog Hold Multiset

variable {E : Stop → Prop} {s t t' : State} {a : Hold} {i j : Fin NINODE}

/-! ### References and locks -/

/-- The table is that of `s`, with the references and locks `a`. -/
structure Holding (s : State) (a : Hold) (t : State) : Prop where
  sb : t.sb = s.sb
  me : t.me = s.me
  ref : ∀ j, (t.itable j).ref = (s.itable j).ref + a.1.count j
  lock : ∀ j, (t.itable j).lock = if j ∈ a.2 then some s.me.pid else none
  inum : ∀ j, 0 < (s.itable j).ref → (t.itable j).inum = (s.itable j).inum
  consistent : Consistent t

lemma holding_refl (h : Consistent s) (hfree : ∀ j, (s.itable j).lock = none) : Holding s 0 s :=
  ⟨rfl, rfl, fun j => by simp, fun j => by simp [hfree j], fun _ _ => rfl, h⟩

namespace Holding

section

variable (h : Holding s a t)

include h

lemma ref_nonneg (hs : 0 < (s.itable j).ref) : 0 < (t.itable j).ref := by
  rw [h.ref j]
  omega

lemma ref_pos (hj : j ∈ a.1) (hs : 0 ≤ (s.itable j).ref) : 0 < (t.itable j).ref := by
  have := count_pos.mpr hj
  rw [h.ref j]
  omega

lemma got {n : Nat} (hg : Got t t' n j) : Holding s (a + .ref j) t' := by
  refine ⟨hg.sb.trans h.sb, hg.me.trans h.me, fun k => ?_, fun k => ?_, fun k hk => ?_, hg.consistent⟩
  · by_cases hkj : k = j
    · subst hkj
      have hr := h.ref k
      simp only [Hold.ref, Prod.fst_add, count_add, count_singleton_self]
      rcases hg.entry with ⟨-, e⟩ | ⟨e0, e1, -⟩
      · rw [e]
        simp only
        omega
      · rw [e1]
        omega
    · rw [hg.others k hkj, h.ref k]
      simp [Hold.ref, hkj]
  · have hlock : (t'.itable k).lock = (t.itable k).lock := by
      by_cases hkj : k = j
      · rw [hkj, hg.lock]
      · rw [hg.others k hkj]
    rw [hlock, h.lock k]
    simp [Hold.ref]
  · rw [← h.inum k hk]
    by_cases hkj : k = j
    · subst hkj
      rcases hg.entry with ⟨-, e⟩ | ⟨e0, -⟩
      · rw [e]
      · have := h.ref_nonneg hk
        omega
    · rw [hg.others k hkj]

lemma locked (hl : Locked t t' i) : Holding s (a + .lock i) t' := by
  obtain ⟨d, hd⟩ := hl.entry
  have hent : ∀ k, (t'.itable k).ref = (t.itable k).ref ∧ (t'.itable k).inum = (t.itable k).inum := fun k => by
    by_cases hki : k = i
    · rw [hki, hd]
      exact ⟨rfl, rfl⟩
    · rw [hl.others k hki]
      exact ⟨rfl, rfl⟩
  refine ⟨hl.sb.trans h.sb, hl.me.trans h.me, fun k => ?_, fun k => ?_, fun k hk => ?_, hl.consistent⟩
  · rw [(hent k).1, h.ref k]
    simp [Hold.lock]
  · by_cases hki : k = i
    · rw [hki, hd, if_pos (by simp [Hold.lock]), h.me]
    · rw [hl.others k hki, h.lock k]
      simp [Hold.lock, hki]
  · rw [(hent k).2, h.inum k hk]

end

lemma unlock (h : Holding s (a + .lock i) t) (hi : i ∉ a.2) : Holding s a (t.unlock i) := by
  refine ⟨h.sb, h.me, fun k => ?_, fun k => ?_, fun k hk => ?_, h.consistent.setInode rfl rfl rfl rfl id⟩
  · obtain ⟨l, e⟩ := unlock_entry t i k
    rw [e]
    simpa [Hold.lock] using h.ref k
  · by_cases hki : k = i
    · rw [hki, setInode_itable_self, if_neg hi]
    · rw [setInode_itable_of_ne hki, h.lock k]
      simp [Hold.lock, hki]
  · obtain ⟨l, e⟩ := unlock_entry t i k
    rw [e]
    exact h.inum k hk

lemma setRef {b : Hold} (h : Holding s b t) {x : Int} (hlock : b.2 = a.2)
    (hc : Consistent (t.setInode i fun ip => { ip with ref := x })) (hx : x = (s.itable i).ref + a.1.count i)
    (hother : ∀ k, k ≠ i → b.1.count k = a.1.count k) :
    Holding s a (t.setInode i fun ip => { ip with ref := x }) := by
  have hent : ∀ k, ∃ r, (t.setInode i fun ip => { ip with ref := x }).itable k =
      { t.itable k with ref := r } := fun k => by
    by_cases hki : k = i
    · rw [hki]
      exact ⟨_, setInode_itable_self⟩
    · exact ⟨_, setInode_itable_of_ne hki⟩
  refine ⟨h.sb, h.me, fun k => ?_, fun k => ?_, fun k hk => ?_, hc⟩
  · by_cases hki : k = i
    · rw [hki, setInode_itable_self, hx]
    · rw [setInode_itable_of_ne hki, h.ref k, hother k hki]
  · obtain ⟨r, e⟩ := hent k
    rw [e, ← hlock]
    exact h.lock k
  · obtain ⟨r, e⟩ := hent k
    rw [e]
    exact h.inum k hk

lemma put (h : Holding s (a + .ref i) t) : Holding s a (t.setInode i fun ip => { ip with ref := ip.ref - 1 }) := by
  have hr := h.ref i
  simp only [Hold.ref, Prod.fst_add, count_add, count_singleton_self] at hr
  refine h.setRef (x := (t.itable i).ref - 1) (by simp [Hold.ref]) ?_ (by omega) fun k hk => by simp [Hold.ref, hk]
  refine h.consistent.setInode rfl rfl rfl rfl fun hp => ?_
  simp only at hp
  omega

lemma dup (h : Holding s a t) (hpos : 0 < (t.itable i).ref) :
    Holding s (a + .ref i) (t.setInode i fun ip => { ip with ref := ip.ref + 1 }) := by
  have hr := h.ref i
  refine h.setRef (x := (t.itable i).ref + 1) (by simp [Hold.ref]) ?_ ?_ fun k hk => by simp [Hold.ref, hk]
  · exact h.consistent.setInode rfl rfl rfl rfl fun _ => hpos
  · simp only [Hold.ref, Prod.fst_add, count_add, count_singleton_self]
    omega

lemma frame (h : Holding s a t) (hf : Frame t t' i) (hc : Consistent t') : Holding s a t' := by
  obtain ⟨d, hd⟩ := hf.entry
  have hent : ∀ k, ∃ d, t'.itable k = { t.itable k with d := d } := fun k => by
    by_cases hki : k = i
    · rw [hki]
      exact ⟨d, hd⟩
    · exact ⟨_, hf.others k hki⟩
  refine ⟨hf.sb.trans h.sb, hf.me.trans h.me, fun k => ?_, fun k => ?_, fun k hk => ?_, hc⟩
  · obtain ⟨d, e⟩ := hent k
    rw [e]
    exact h.ref k
  · obtain ⟨d, e⟩ := hent k
    rw [e]
    exact h.lock k
  · obtain ⟨d, e⟩ := hent k
    rw [e]
    exact h.inum k hk

lemma iunlock_returns (h : Holding s (a + .lock i) t) (hr : 0 < (t.itable i).ref) :
    wp (iunlock i) (fun _ t' => t' = t.unlock i) E t := by
  have hl : (t.itable i).lock = some t.me.pid := by
    rw [h.lock i, if_pos (by simp [Hold.lock]), h.me]
  simp only [iunlock, wp_bind, wp_inode, wp_reads]
  refine wp_ite (fun hno => ?_) fun _ => rfl
  rcases hno with hno | hlt
  · exact absurd hl hno
  · omega

end Holding

/-- The state with a lock released and a reference dropped. -/
abbrev State.leave (t : State) (i : Fin NINODE) : State :=
  (t.unlock i).setInode i fun ip => { ip with ref := ip.ref - 1 }

/-- `iunlockput` of an inode with links, or of one that is also in use elsewhere. -/
lemma Holding.iunlockput_returns (h : Holding s (a + .ref i + .lock i) t) (hi : i ∉ a.2) (hr : 0 < (t.itable i).ref)
    (hkeep : (t.itable i).ref = 1 → (t.itable i).d.nlink ≠ 0) :
    wp (iunlockput i) (fun _ t' => t' = t.leave i ∧ Holding s a t') E t := by
  have hi' : i ∉ (a + Hold.ref i).2 := by simpa [Hold.ref] using hi
  refine wp_bind.mpr ((h.iunlock_returns hr).post ?_)
  rintro _ _ rfl
  have hh := h.unlock hi'
  refine (iput_drops ?_).post ?_
  · rw [setInode_itable_self]
    exact fun hlast => hkeep hlast.1 hlast.2.2
  · rintro _ _ rfl
    exact ⟨rfl, hh.put⟩

/-! ### The walk -/

/-- A file system in which nothing else goes on, and every walk can come to an end. -/
structure Walkable (s : State) : Prop where
  sound : Sound s
  unlocked : ∀ j, (s.itable j).lock = none
  nonneg : ∀ j, 0 ≤ (s.itable j).ref
  entries : ∀ (d k n : Nat) (name : List UInt8), (s.tree d).slots[k]? = some (n, name) → n ≠ 0 → (s.tree n).type ≠ 0
  anchored : ∀ n, (s.tree n).nlink = 0 → s.tree n = .free ∨ ∃ j, 0 < (s.itable j).ref ∧ (s.itable j).inum = n
  root : (s.tree ROOTINO).type ≠ 0
  cwd : 0 < (s.itable s.me.cwd).ref ∧ (s.tree (s.itable s.me.cwd).inum).type ≠ 0

/-- The entries of the table that nobody uses. -/
def State.unused (s : State) : Finset (Fin NINODE) := Finset.univ.filter fun j => (s.itable j).ref = 0

lemma mem_unused : j ∈ s.unused ↔ (s.itable j).ref = 0 := by simp [State.unused]

/-- More entries are unused than have been taken. -/
lemma Holding.gettable (hh : Holding s a t) (hroom : a.1.card < s.unused.card) (n : Nat) : Gettable t n := by
  have hlt : a.1.toFinset.card < s.unused.card := Nat.lt_of_le_of_lt (toFinset_card_le _) hroom
  obtain ⟨j, hj, hnot⟩ := Finset.exists_mem_notMem_of_card_lt_card hlt
  refine .inr ⟨j, ?_⟩
  rw [hh.ref j, mem_unused.mp hj, count_eq_zero_of_notMem fun h => hnot (mem_toFinset.mpr h)]
  rfl

lemma live_of_type {n : Nat} (h : (s.tree n).type ≠ 0) : Live s.sb n (s.dinode n) := by
  by_contra hno
  rw [tree_of_not_live hno] at h
  exact h rfl

namespace Walkable

section

variable (h : Walkable s)

include h

section

variable (hh : Holding s a t)

include hh

lemma linked (hb : t.blocks = s.blocks) (hheld : Held t i)
    (hnew : (s.itable i).ref = 0) : (t.itable i).d.nlink ≠ 0 := by
  intro hz
  have hn := tree_of_held hh.consistent hheld
  rw [tree_of_blocks hh.sb hb] at hn
  rcases h.anchored (t.itable i).inum (by rw [hn]; exact hz) with hfree | ⟨j, hj, hinum⟩
  · rw [hfree] at hn
    have htype := congrArg Node.type hn
    exact (hh.consistent.liveAt hheld).2.2 htype.symm
  · have hij : j = i := by
      refine hh.consistent.unique j i (hh.ref_nonneg hj) hheld.1 ?_
      rw [hh.inum j hj, hinum]
    rw [hij] at hj
    omega

/-- A reference that is the last one was not there before. -/
lemma ref_of_last (hi : i ∈ a.1) (hone : (t.itable i).ref = 1) : (s.itable i).ref = 0 := by
  have := count_pos.mpr hi
  have := hh.ref i
  have := h.nonneg i
  omega

/-- The reference on top is not the last to an inode without links. -/
lemma not_last (hb : t.blocks = s.blocks) (hi : i ∈ a.1) (hheld : Held t i)
    (hone : (t.itable i).ref = 1) : (t.itable i).d.nlink ≠ 0 :=
  h.linked hh hb hheld (h.ref_of_last hh hi hone)

/-- References to allocated inodes have been taken, and nothing else has happened. -/
lemma next (ha : a.2 = 0) (hb : t.blocks = s.blocks)
    (hlive : ∀ j ∈ a.1, (s.tree (t.itable j).inum).type ≠ 0) : Walkable t := by
  have htree : t.tree = s.tree := tree_of_blocks hh.sb hb
  have hcwd : (t.itable t.me.cwd).inum = (s.itable s.me.cwd).inum := by
    rw [hh.me]
    exact hh.inum _ h.cwd.1
  refine ⟨⟨hh.consistent, fun n hn => ?_, fun j hj => ?_⟩, fun j => ?_, fun j => ?_, ?_, fun n hn => ?_, ?_, ?_, ?_⟩
  · have hun : Unchanged s t n := .of_blocks hh.sb hb n
    refine hun.fileOk hh.sb (h.sound.files n ?_)
    rwa [hun.dinode, hh.sb] at hn
  · by_cases hpos : 0 < (s.itable j).ref
    · rw [hh.inum j hpos, hh.sb]
      exact h.sound.range j hpos
    · have hmem : j ∈ a.1 := count_pos.mp (by have := hh.ref j; omega)
      have hl := live_of_type (hlive j hmem)
      rw [hh.sb]
      exact ⟨hl.1, hl.2.1⟩
  · rw [hh.lock j, ha, if_neg (notMem_zero j)]
  · have := h.nonneg j
    have := hh.ref j
    omega
  · rw [htree]
    exact h.entries
  · rw [htree] at hn ⊢
    refine (h.anchored n hn).imp_right ?_
    rintro ⟨j, hj, rfl⟩
    exact ⟨j, hh.ref_nonneg hj, hh.inum j hj⟩
  · rw [htree]
    exact h.root
  · rw [hh.me]
    exact hh.ref_nonneg h.cwd.1
  · rw [htree, hcwd]
    exact h.cwd.2

lemma ilock_returns (hb : t.blocks = s.blocks) (hi : i ∈ a.1)
    (hfree : i ∉ a.2) (hlive : (s.tree (t.itable i).inum).type ≠ 0) :
    wp (ilock i) (fun _ t' => Locked t t' i ∧ Holding s (a + .lock i) t' ∧ t'.blocks = s.blocks) E t := by
  have htree : t.tree = s.tree := tree_of_blocks hh.sb hb
  have hl := live_of_type (htree ▸ hlive)
  have hpos := hh.ref_pos hi (h.nonneg i)
  refine (ilock_locks hh.consistent (fun _ => ⟨hl.1, hl.2.1⟩) (.inl hpos) (.inl hl.2.2) (.inl ?_)).post ?_
  · rw [hh.lock i, if_neg hfree]
  · exact fun _ t' hlk => ⟨hlk, hh.locked hlk, hlk.blocks.trans hb⟩

lemma dirlookup_returns (hb : t.blocks = s.blocks)
    (hE : a.1.card < s.unused.card ∨ E (.panic "iget: no inodes")) (hi : Held t i) (hdir : (t.itable i).d.type = T_DIR) (name : Name) :
    wp (dirlookup i name) (fun r t' => t'.blocks = s.blocks ∧ match r with
      | none => t' = t
      | some (j, _) => Holding s (a + .ref j) t' ∧ (s.tree (t'.itable j).inum).type ≠ 0 ∧
        ∃ x, t'.itable i = { t.itable i with ref := x }) E t := by
  have htree : t.tree = s.tree := tree_of_blocks hh.sb hb
  have hlive := hh.consistent.liveAt hi
  have hd := (hh.consistent.synced i hi).2
  have hun : Unchanged s t (t.itable i).inum := .of_blocks hh.sb hb _
  have hlive' : Live s.sb (t.itable i).inum (s.dinode (t.itable i).inum) := by
    rw [← hun.dinode, ← hd, ← hh.sb]
    exact hlive
  have hok : FileOk t (t.itable i).inum := hun.fileOk hh.sb (h.sound.files _ hlive')
  have hnode := tree_of_held hh.consistent hi
  rw [if_pos hdir] at hnode
  refine (dirlookup_finds hh.consistent hi hok.toHoleFree name (.inl hdir) (fun _ => .inl ?_)
    fun k _ _ => hE.imp_left fun hroom => hh.gettable hroom _).post fun r t' hr => ?_
  · rw [hd]
    exact (hok.dir (hd ▸ hdir)).whole
  obtain ⟨-, ⟨rfl, rfl, -⟩ | ⟨j, k, rfl, hle, hfirst, hg⟩⟩ := hr
  · exact ⟨hb, rfl⟩
  · refine ⟨hg.blocks.trans hb, hh.got hg, ?_, hg.entry_eq hi.1⟩
    rw [hg.inum]
    rw [hd] at hle
    have hslot := slots_getElem? (s := t) hle
    refine h.entries (t.itable i).inum k _ (direntOf (t.entry (t.itable i).inum (k * DIRENTSZ))).2 ?_ hfirst.1.1
    rw [← htree, hnode]
    exact hslot

end

end

end Walkable

/-- What a walk has taken: a reference to the inode it returns. -/
def walkHold (r : Option (Fin NINODE × Name)) : Hold := r.elim 0 fun q => .ref q.1

/-- A reference to an allocated inode has been taken, and nothing else has happened. -/
structure Walked (s : State) (r : Option (Fin NINODE × Name)) (t : State) : Prop where
  holding : Holding s (walkHold r) t
  blocks : t.blocks = s.blocks
  live : ∀ q, r = some q → (s.tree (t.itable q.1).inum).type ≠ 0

lemma namexEnd_returns (h : Walkable s) (parent : Bool) (hh : Holding s (.ref i) t) (hb : t.blocks = s.blocks)
    (hlive : (s.tree (t.itable i).inum).type ≠ 0) :
    wp (namexEnd parent i) (Walked s) E t := by
  cases parent with
  | false =>
    refine ⟨hh, hb, fun q hq => ?_⟩
    obtain rfl := Option.some.inj hq
    exact hlive
  | true =>
    refine wp_bind.mpr ((iput_drops ?_).post ?_)
    · rintro ⟨hone, hv, hz⟩
      refine h.not_last hh hb (mem_singleton_self i) ⟨?_, hv⟩ hone hz
      omega
    · rintro _ _ rfl
      exact ⟨Holding.put (a := 0) (by rwa [zero_add]), hb, fun q hq => (by cases hq)⟩

/-- **The loop of `namex` returns**: it is never short of an entry, and frees nothing. -/
lemma namexLoop_returns (h : Walkable s) (hE : 1 < s.unused.card ∨ E (.panic "iget: no inodes")) (parent : Bool)
    (fuel : Nat) (path : List UInt8) (hh : Holding s (.ref i) t) (hb : t.blocks = s.blocks) (hlive : (s.tree (t.itable i).inum).type ≠ 0) :
    wp (namexLoop parent fuel i path) (Walked s) E t := by
  induction fuel generalizing i path t with
  | zero => exact namexEnd_returns h parent hh hb hlive
  | succ fuel ih =>
    rw [namexLoop]
    cases hskip : skipelem path with
    | none => exact namexEnd_returns h parent hh hb hlive
    | some q =>
      obtain ⟨name, path'⟩ := q
      have hmem : i ∈ (ref i).1 := mem_singleton_self i
      have hnot : i ∉ (ref i).2 := notMem_zero i
      refine wp_bind.mpr ((h.ilock_returns hh hb hmem hnot hlive).post fun _ t1 h1 => ?_)
      obtain ⟨hl, hh1, hb1⟩ := h1
      have hmem1 : i ∈ (ref i + lock i).1 := by simp [ref, lock]
      have hkeep := h.not_last hh1 hb1 hmem1 hl.held
      have hh1' : Holding s (0 + .ref i + .lock i) t1 := by rwa [zero_add]
      refine wp_bind.mpr (wp_inode.mpr (wp_ite (fun _ => ?_) fun hdir => wp_ite (fun _ => ?_) fun _ => ?_))
      · refine wp_bind.mpr ((hh1'.iunlockput_returns (notMem_zero i) hl.held.1 hkeep).post ?_)
        rintro _ _ ⟨rfl, hh2⟩
        exact ⟨hh2, hb1, fun q hq => (by cases hq)⟩
      · refine wp_bind.mpr ((hh1.iunlock_returns hl.held.1).post ?_)
        rintro _ _ rfl
        refine ⟨hh1.unlock hnot, hb1, fun q hq => ?_⟩
        obtain rfl := Option.some.inj hq
        rw [setInode_itable_self, hl.inum]
        exact hlive
      · have hE1 : (ref i + lock i).1.card < s.unused.card ∨ E (.panic "iget: no inodes") := hE
        refine wp_bind.mpr
          ((h.dirlookup_returns hh1 hb1 hE1 hl.held (not_not.mp hdir) name).post fun r t2 h2 => ?_)
        cases r with
        | none =>
          obtain ⟨-, rfl⟩ := h2
          refine wp_bind.mpr ((hh1'.iunlockput_returns (notMem_zero i) hl.held.1 hkeep).post ?_)
          rintro _ _ ⟨rfl, hh3⟩
          exact ⟨hh3, hb1, fun q hq => (by cases hq)⟩
        | some q =>
          obtain ⟨j, off⟩ := q
          obtain ⟨hb2, hh2, hlive2, x, hx⟩ := h2
          have hh2' : Holding s (.ref j + .ref i + .lock i) t2 := by
            rwa [add_assoc, add_comm]
          have hheld2 : Held t2 i := by
            refine ⟨hh2.ref_pos (by simp [ref, lock]) (h.nonneg i), ?_⟩
            rw [hx]
            exact hl.held.2
          have hkeep2 := h.not_last hh2' hb2 (by simp [ref, lock]) hheld2
          refine wp_bind.mpr ((hh2'.iunlockput_returns (notMem_zero i) hheld2.1 hkeep2).post ?_)
          rintro _ _ ⟨rfl, hh3⟩
          refine ih path' hh3 hb2 ?_
          have hinum : ((t2.leave i).itable j).inum = (t2.itable j).inum := by
            by_cases hji : j = i
            · rw [hji, setInode_itable_self, setInode_itable_self]
            · rw [setInode_itable_of_ne hji, setInode_itable_of_ne hji]
          rwa [hinum]

/-- **A walk returns**, and has done nothing but take the reference it returns. -/
lemma namex_returns (h : Walkable s) (hE : 1 < s.unused.card ∨ E (.panic "iget: no inodes")) (path : List UInt8)
    (parent : Bool) : wp (namex path parent) (Walked s) E s := by
  have hc := h.sound.consistent
  have hh := holding_refl hc h.unlocked
  refine wp_bind.mpr (wp_reads.mpr ?_)
  split
  · have hroot : Gettable s ROOTINO ∨ E (.panic "iget: no inodes") :=
      hE.imp_left fun hroom => hh.gettable (Nat.lt_of_succ_lt hroom) _
    refine wp_bind.mpr ((iget_gets hc ROOTINO hroot).post fun j t hg => ?_)
    refine namexLoop_returns h hE parent path.length path (by simpa using hh.got hg) hg.blocks ?_
    rw [hg.inum]
    exact h.root
  · refine wp_bind.mpr ((idup_spec hc h.cwd.1).post ?_)
    rintro _ _ ⟨rfl, rfl, hc'⟩
    refine namexLoop_returns h hE parent path.length path ?_ rfl ?_
    · simpa using hh.dup h.cwd.1
    · rw [setInode_itable_self]
      exact h.cwd.2

end FypOs.Fs
