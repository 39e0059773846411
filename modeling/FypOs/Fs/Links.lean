import FypOs.Fs.Paths
import FypOs.Fs.File

/-!
# Fs — linking, renaming, opening

`sys_link` counts the link before it makes the entry, and takes it back when that fails; `rename` makes
the new entry before it removes the old one.  Both walk two paths, and in between the tree has changed.

* `rename_leaves`: so does `rename` to the tree, but it may keep a reference.
-/

namespace FypOs.Fs

open Lib Fs.Tree Keeps Accounts

section

variable {X : Nat → Prop} {a b : Hold} {s s₀ s₁ s' : State} {i dp ip : Fin NINODE} {T : Tree}
  {old : List UInt8} {old_name : Name}

/-- The current directory of the process stays what it is. -/
lemma Keeps.cwd (h : Keeps X a b s s') (ha : a.1 = 0) (hcwd : 0 < (s.itable s.me.cwd).ref) :
    0 < (s'.itable s'.me.cwd).ref ∧ (s'.itable s'.me.cwd).inum = (s.itable s.me.cwd).inum := by
  have href := h.ref s.me.cwd
  have hkept := h.kept s.me.cwd (by rw [ha]; exact hcwd)
  rw [ha, Multiset.count_zero] at href
  rw [h.me]
  exact ⟨by omega, hkept.1⟩

lemma namei_does (hcwd : 0 < (s.itable s.me.cwd).ref) (path : List UInt8) (hT : T.Like s.tree) :
    Does X 0 (namei path) (fun r => r.elim 0 .ref) (fun r s' => s.tree.Frees s'.tree ∧
      ∀ j, r = some j → ∃ nm, T.walk (s.itable s.me.cwd).inum path false = some ((s'.itable j).inum, nm)) s := by
  refine (namex_does hcwd path false hT).bind (add_zero 0).symm fun r s' _ hr => ?_
  obtain ⟨hfrees, hwalk, -⟩ := hr
  refine .pure ?_ ⟨hfrees, fun j hj => ?_⟩
  · cases r with
    | none => rfl
    | some q => exact zero_add _
  · cases r with
    | none => cases hj
    | some q =>
      cases hj
      exact ⟨q.2, hwalk.symm⟩

/-! ### Linking -/

lemma linkBad_does (hX : X (s.itable ip).inum) : Does X (.ref ip) (linkBad ip) (fun _ => 0) (fun _ s' =>
      (s.tree.setNlink (s.itable ip).inum ((s.tree (s.itable ip).inum).nlink - 1)).Frees s'.tree) s := by
  refine ilock_does.bind (add_zero _).symm fun _ s₁ _ hl => ?_
  refine (addLink_does hl.held (-1) (.inl (hl.inum ▸ hX))).bind (add_zero _).symm fun _ s2 _ hs => ?_
  refine iunlockput_does.bind (zero_add _).symm fun _ s' _ hput => .pure (add_zero 0) ?_
  have htree := hs.1
  rw [hl.inum, hl.tree] at htree
  rw [Int16.sub_eq_add_neg, ← show s2.tree = _ from htree]
  exact hput.unlock_frees

/-- What making the entry of a link to inode `n` comes to, where `T` is the tree before the link was
counted. -/
def LinkMade (T T₁ : Tree) (s' : State) (cwd n : Nat) (new : List UInt8) : Prop :=
  (T₁.setNlink n ((T₁ n).nlink - 1)).Frees s'.tree ∨
  ∃ T₂ d k name, T₁.Frees T₂ ∧ T₂ n = T₁ n ∧ T.Leads cwd new d name ∧ TreeOp.Room T₂ d k name ∧
    (T₂.setSlot d k (n, name)).Frees s'.tree

section

variable (hcwd : 0 < (s.itable s.me.cwd).ref)

include hcwd

lemma linkEntry_does (hip : Held s ip)
    (hfile : (s.itable ip).d.type ≠ T_DIR) (hX : X (s.itable ip).inum) (new : List UInt8) (hT : T.Like s.tree) :
    Does X (.ref ip) (linkEntry ip new) (fun _ => 0) (fun _ s' => s.sb.ninodes ≤ 2 ^ 16 →
      LinkMade T s.tree s' (s.itable s.me.cwd).inum (s.itable ip).inum new) s := by
  refine (namex_does hcwd new true hT).bind (add_zero _).symm fun r s₁ k1 hr => ?_
  obtain ⟨hfrees, hwalk, hdp⟩ := hr
  -- the inode is in the table, so that it is not freed on the way
  obtain ⟨hip1, hinum1, htype1⟩ := held_of_zero k1 hip
  have hsame {s2 : State} (hf : s.tree.Frees s2.tree) (hc : Consistent s2) (hip2 : Held s2 ip)
      (hinum : (s2.itable ip).inum = (s.itable ip).inum) :
      s2.tree (s.itable ip).inum = s.tree (s.itable ip).inum := by
    refine hf.eq_of_type ?_
    rw [← hinum, tree_of_held hc hip2]
    exact (hc.liveAt hip2).2.2
  have hbad {s2 : State} (hf : s.tree.Frees s2.tree) (hc : Consistent s2) (hip2 : Held s2 ip)
      (hinum : (s2.itable ip).inum = (s.itable ip).inum) :
      Does X (.ref ip) (linkBad ip) (fun _ => 0) (fun _ s' => s.sb.ninodes ≤ 2 ^ 16 →
        LinkMade T s.tree s' (s.itable s.me.cwd).inum (s.itable ip).inum new) s2 := by
    refine (linkBad_does (hinum ▸ hX)).post fun _ s' _ hs _ => .inl ?_
    rw [hinum, hsame hf hc hip2 hinum] at hs
    exact (hf.setNlink (hsame hf hc hip2 hinum) _).trans hs
  cases r with
  | none =>
    rw [Option.elim_none, add_zero]
    exact hbad hfrees k1.sound.consistent hip1 hinum1
  | some q =>
    obtain ⟨dp, name⟩ := q
    obtain ⟨hdp1, hdir1⟩ := hdp rfl _ rfl
    have hne : ip ≠ dp := by
      rintro rfl
      exact hfile (htype1 ▸ hdir1)
    refine ilock_does.bind (add_zero _).symm fun _ s2 k2 hl => does_inode (does_inode ?_)
    obtain ⟨hip2, hinum2, -⟩ := held_of_zero k2 hip1
    rw [hinum1] at hinum2
    have hfrees2 : s.tree.Frees s2.tree := hl.tree ▸ hfrees
    have hdirlink : Does X 0 (if (s2.itable dp).dev ≠ (s2.itable ip).dev then pure (-1)
        else dirlink dp name (s2.itable ip).inum) (fun _ => 0) (fun r s3 =>
          r < 0 ∧ s3.tree = s2.tree ∨ r = 0 ∧ (s2.itable dp).d.type = T_DIR ∧
            Added s2.tree s3.tree (s2.itable dp).inum (s2.itable ip).inum name) s2 := by
      refine does_ite (fun _ => .pure rfl (.inl ⟨by decide, rfl⟩)) fun _ => ?_
      refine (dirlink_does hl.held name (k2.sound.inum_lt hip2)).post fun r s3 _ hr => ?_
      exact hr.2.1.imp_right fun e => ⟨e.1, hr.1, e.2⟩
    refine hdirlink.bind (add_zero _).symm fun r s3 k3 hr => ?_
    obtain ⟨hip3, hinum3, -⟩ := held_of_zero k3 hip2
    rw [Option.elim_some, add_zero]
    refine does_ite (fun hneg => ?_) fun hneg => ?_
    · rcases hr with ⟨-, htree⟩ | ⟨e, -⟩
      · refine iunlockput_does.bind (add_assoc _ _ _) fun _ s4 k4 hput => ?_
        rw [add_zero]
        refine hbad (hfrees2.trans (htree ▸ hput.unlock_frees)) k4.sound.consistent ?_ ?_
        · rw [Held, hput.unlock_others hne]
          exact hip3
        · rw [hput.unlock_inum, hinum3, hinum2]
      · omega
    · rcases hr with ⟨e, -⟩ | ⟨-, hdir, hadd⟩
      · exact absurd e hneg
      · refine iunlockput_does.bind (add_assoc _ _ _) fun _ s4 _ hput => ?_
        refine iput_does.bind (by abel) fun _ s' _ hput2 => .pure (add_zero 0) fun hsmall => .inr ?_
        obtain ⟨k, hk, hset⟩ := hadd.entry
        have hset := hset (Nat.lt_of_lt_of_le (k2.sound.inum_lt hip2) (by rw [k2.sb, k1.sb]; exact hsmall))
        refine ⟨s2.tree, (s2.itable dp).inum, k, nameStr name, hfrees2,
          hsame hfrees2 k2.sound.consistent hip2 hinum2, ⟨name, ?_, rfl⟩, ⟨?_, hadd.fresh, hk⟩, ?_⟩
        · rw [← hwalk, hl.inum]
          rfl
        · rw [k2.sound.tree_dir hl.held hdir]
        · rw [← hinum2, ← hset]
          exact hput.unlock_frees.trans hput2.tree

/-- **Linking a file** gives back everything it takes. -/
lemma sysLink_does (old new : List UInt8) :
    Does (fun _ => True) 0 (sysLink old new) (fun _ => 0) (fun _ s' => s.sb.ninodes ≤ 2 ^ 16 →
      Meets s s' (.link old new)) s := by
  refine (namei_does hcwd old (.refl _)).bind (add_zero 0).symm fun r s₁ k1 hr => ?_
  obtain ⟨hfrees1, hwalk⟩ := hr
  cases r with
  | none => exact .pure (add_zero 0) fun _ => .of_frees hfrees1 _
  | some ip =>
    obtain ⟨nm, hwalk⟩ := hwalk ip rfl
    refine ilock_does.bind (add_zero _).symm fun _ s2 k2 hl => does_inode ?_
    have hfrees2 : s.tree.Frees s2.tree := hl.tree ▸ hfrees1
    refine does_ite (fun _ => ?_) fun hfile => ?_
    · exact iunlockput_does.bind (add_assoc _ _ _) fun _ _ _ hput => .pure (add_zero 0) fun _ =>
        .of_frees (hfrees2.trans hput.unlock_frees) _
    · refine (addLink_does hl.held 1 (.inl trivial)).bind (add_zero _).symm fun _ s3 k3 hs => ?_
      obtain ⟨htree3, -⟩ := hs
      obtain ⟨hip3, hinum3, htype3⟩ := held_of_zero k3 hl.held
      refine iunlock_does.bind (add_zero _) fun _ s4 k4 hs => ?_
      have htree4 : s4.tree = s3.tree := by
        rw [hs]
        exact tree_setInode ..
      obtain ⟨hip4, hinum4, htype4⟩ := k4.held hip3 hip3.1
      obtain ⟨hcwd1, hcwdn1⟩ := k1.cwd rfl hcwd
      obtain ⟨hcwd2, hcwdn2⟩ := k2.cwd rfl hcwd1
      obtain ⟨hcwd3, hcwdn3⟩ := k3.cwd rfl hcwd2
      obtain ⟨hcwd4, hcwdn4⟩ := k4.cwd rfl hcwd3
      have hinum : (s4.itable ip).inum = (s2.itable ip).inum := hinum4.trans hinum3
      have hlike : s.tree.Like s4.tree := by
        rw [htree4, htree3]
        exact hfrees2.like.trans (like_setNlink _ _ _)
      rw [Option.elim_some, zero_add, add_zero]
      refine (linkEntry_does hcwd4 hip4 (by rw [htype4, htype3]; exact hfile) trivial new hlike).post
        fun _ s' _ hs hsmall => ?_
      have hmade := hs (by rw [k4.sb, k3.sb, k2.sb, k1.sb]; exact hsmall)
      rw [hinum, hcwdn4, hcwdn3, hcwdn2, hcwdn1, htree4, htree3] at hmade
      have hnode := tree_of_held hl.consistent hl.held
      rcases hmade with hf | ⟨T2, d, k, name, hf, hn, hleads, hroom, hf'⟩
      · refine .of_frees (hfrees2.trans ?_) _
        rwa [setNlink_setNlink, setNlink_nlink, Int16.add_sub_cancel, setNlink_eq_self rfl] at hf
      · -- the tree as it would be had the link not been counted yet
        have hback := hf.setNlink hn (s2.tree (s2.itable ip).inum).nlink
        rw [setNlink_setNlink, setNlink_eq_self rfl] at hback
        rw [setNlink, set_self] at hn
        have hdn : d ≠ (s2.itable ip).inum := by
          rintro rfl
          have hdir := hroom.dir
          rw [hn, hnode] at hdir
          exact hfile hdir
        refine ⟨.link d k (s2.itable ip).inum name, ⟨⟨nm, ?_⟩, hleads⟩,
          ⟨_, hfrees2.trans hback, ⟨?_, ?_, ?_, ?_, ?_⟩, ?_⟩, fun _ e => by cases e⟩
        · rw [hl.inum]
          exact hwalk
        · rw [setNlink, set_self, hn, hnode]
          exact (hl.consistent.liveAt hl.held).2.2
        · rw [setNlink, set_self, hn, hnode]
          exact hfile
        · rw [setNlink, set_of_ne _ _ hdn]
          exact hroom.dir
        · rw [setNlink, set_of_ne _ _ hdn]
          exact hroom.fresh
        · rw [setNlink, set_of_ne _ _ hdn]
          exact hroom.vacant
        · rw [TreeOp.apply, setNlink_nlink, setNlink_setNlink, setNlink_eq_self (by rw [hn])]
          exact hf'

/-! ### Making -/

lemma make_does (path : List UInt8) (type major minor : Int16) :
    Does X 0 (make path type major minor) (fun _ => 0) (fun _ s' => s.sb.ninodes ≤ 2 ^ 16 →
      type ≠ 0 → Meets s s' (.make path type)) s := by
  refine (create_does hcwd path type major minor).bind (add_zero 0).symm fun r s₁ k1 hr => ?_
  cases r with
  | none => exact .pure (add_zero 0) hr.2
  | some ip =>
    refine iunlockput_does.bind rfl fun _ s' _ hput => .pure (add_zero 0) fun hsmall htype => ?_
    exact (hr.2 hsmall htype).calm (hput.unlock_calm k1.sound)

end

/-! ### Renaming -/

/-- From `s`, the call takes a process that holds `a` to one that holds something. -/
def Leaves {α : Type} (X : Nat → Prop) (a : Hold) (m : FsM α) (Q : α → State → Prop) (s : State) :
    Prop :=
  Covers a s → Prog.wp m (fun r s' => (∃ b, Keeps X a b s s') ∧ Q r s') Stops s

section

variable {α β : Type} {m m₁ m₂ : FsM α} {f : α → FsM β} {x : Hold} {y : α → Hold}
  {Q : α → State → Prop} {R : β → State → Prop}

lemma leaves_pure {r : α} (h : Q r s) : Leaves X a (pure r) Q s :=
  fun ha => ⟨⟨a, .refl ha.sound⟩, h⟩

lemma Leaves.bind {c : Hold} (hm : Does X x m y Q s) (ha : a = c + x)
    (hf : ∀ r s₁, Keeps X x (y r) s s₁ → Q r s₁ → Leaves X (c + y r) (f r) R s₁) :
    Leaves X a (m >>= f) R s := by
  subst ha
  intro hcov
  rw [Prog.wp_bind]
  refine (hm hcov.weaken).post fun r s₁ hr => ?_
  have hk := frame c hr.1
  refine (hf r s₁ hr.1 hr.2 (hk.covers hcov)).post fun t s' ht => ⟨?_, ht.2⟩
  obtain ⟨b, hb⟩ := ht.1
  exact ⟨b, hk.trans hb⟩

lemma leaves_reads {g : State → α} (h : Leaves X a (f (g s)) R s) :
    Leaves X a (Prog.reads g >>= f) R s := fun ha => by
  rw [Prog.wp_bind, Prog.wp_reads]
  exact h ha

lemma leaves_ite {c : Prop} [Decidable c] (h1 : c → Leaves X a m₁ Q s)
    (h2 : ¬ c → Leaves X a m₂ Q s) : Leaves X a (if c then m₁ else m₂) Q s :=
  fun ha => Prog.wp_ite (fun hc => h1 hc ha) fun hc => h2 hc ha

end

/-- The old name is still there when the new one has been added. -/
lemma findSlot_of_walk {cwd d n k : Nat} {nm : Name}
    {new : List UInt8} {l : List Dirent} (hparent : T.walk cwd old true = some (d, old_name))
    (hwalk : T.walk cwd old false = some (n, nm)) (hl : (T d).slots = l)
    (hfresh : findSlot l new = none) (hk : VacantIn l k) :
    ∃ k', findSlot l (nameStr old_name) = some k' ∧ l[k']? = some (n, nameStr old_name) ∧
      findSlot (splice l k [(n, new)]) (nameStr old_name) = some k' := by
  rw [Tree.walk, walkFrom_of_parent hparent, lookup, hl] at hwalk
  cases hfind : findSlot l (nameStr old_name) with
  | none =>
    rw [hfind] at hwalk
    cases hwalk
  | some k' =>
    obtain ⟨⟨m, hm, hget⟩, -⟩ := findSlot_eq_some.mp hfind
    rw [hfind, Option.bind_some, hget] at hwalk
    cases hwalk
    refine ⟨k', rfl, hget, (findSlot_splice hk ?_ hfind).2⟩
    rintro rfl
    rw [hfresh] at hfind
    cases hfind

/-- The part of `rename` after the parent has been found, for a call that began in `s₀`. -/
lemma renameEntry_leaves (hfrees : s₀.tree.Frees s.tree) (hcwd : 0 < (s.itable s.me.cwd).ref)
    (hcwd0 : (s.itable s.me.cwd).inum = (s₀.itable s₀.me.cwd).inum) (hdp : Held s dp)
    (hdir : (s.itable dp).d.type = T_DIR) (new : List UInt8)
    (hparent : s₀.tree.walk (s₀.itable s₀.me.cwd).inum old true = some ((s.itable dp).inum, old_name)) :
    Leaves (fun _ => True) (.ref dp) (renameEntry dp old_name old new) (fun _ s' =>
      s.sb.ninodes ≤ 2 ^ 16 → Meets s₀ s' (.rename old new)) s := by
  refine Leaves.bind (namei_does hcwd old hfrees.like) (add_zero _).symm fun r s₁ k1 hr => ?_
  obtain ⟨hfrees1, hwalk⟩ := hr
  have hfrees1 := hfrees.trans hfrees1
  cases r with
  | none => exact leaves_pure fun _ => .of_frees hfrees1 _
  | some ip =>
    obtain ⟨nm, hwalk⟩ := hwalk ip rfl
    obtain ⟨hdp1, hdinum1, hdtype1⟩ := held_of_zero k1 hdp
    refine Leaves.bind ilock_does (add_zero _).symm fun _ s2 k2 hl => leaves_reads ?_
    obtain ⟨hdp2, hdinum2, hdtype2⟩ := held_of_zero k2 hdp1
    rw [hdinum1] at hdinum2
    rw [hdtype1] at hdtype2
    have hfrees2 : s₀.tree.Frees s2.tree := hl.tree ▸ hfrees1
    refine Leaves.bind (dirlink_does hdp2 (cstr new) (k2.sound.inum_lt hl.held)) (add_zero _).symm
      fun r s3 k3 hr => ?_
    obtain ⟨-, hadd, hlock⟩ := hr
    obtain ⟨hdp3, hdinum3, hdtype3⟩ := held_of_zero k3 hdp2
    refine leaves_ite (fun hneg => ?_) fun hneg => ?_
    · -- the target exists, or there is no space for it
      rcases hadd with ⟨-, htree⟩ | ⟨e, -⟩
      · refine Leaves.bind iunlockput_does (c := .ref dp) (by simp [add_assoc]) fun _ s' _ hput =>
          leaves_pure fun _ => .of_frees (hfrees2.trans (htree ▸ hput.unlock_frees)) _
      · omega
    rcases hadd with ⟨e, -⟩ | ⟨-, hadd⟩
    · exact absurd e hneg
    refine Leaves.bind ilock_does (add_zero _).symm fun _ s4 k4 hl4 => ?_
    have hne : ip ≠ dp := by
      rintro rfl
      have hfree := hl4.free
      obtain ⟨d, e⟩ := hl.entry
      rw [hlock, e] at hfree
      cases hfree
    have hdinum : (s4.itable dp).inum = (s2.itable dp).inum := hl4.inum.trans hdinum3
    have hdtype : (s4.itable dp).d.type = T_DIR := by
      rw [(held_of_zero k4 hdp3).2.2, hdtype3, hdtype2, hdir]
    have htree2 := k2.sound.tree_dir hdp2 (hdtype2.trans hdir)
    -- what the two entries come to, when inode numbers fit
    have hentries (hsmall : s.sb.ninodes ≤ 2 ^ 16) : ∃ k k',
        TreeOp.Enabled s2.tree (.rename (s2.itable dp).inum k k' (s2.itable ip).inum
          (nameStr old_name) (nameStr (cstr new))) ∧
        s4.tree = s2.tree.setSlot (s2.itable dp).inum k ((s2.itable ip).inum, nameStr (cstr new)) ∧
        findSlot (s4.tree (s2.itable dp).inum).slots (nameStr old_name) = some k' := by
      obtain ⟨k, hk, hset⟩ := hadd.entry
      have hset := hset (Nat.lt_of_lt_of_le (k2.sound.inum_lt hl.held) (by
        rw [k2.sb, k1.sb]
        exact hsmall))
      have hslots : (s₀.tree (s2.itable dp).inum).slots = (s2.tree (s2.itable dp).inum).slots := by
        rw [hfrees2.eq_of_type]
        rw [htree2]
        exact (by decide : T_DIR ≠ 0)
      rw [hcwd0, ← hl.inum] at hwalk
      rw [← hdinum2] at hparent
      obtain ⟨k', hfind, hget, hfind'⟩ := findSlot_of_walk hparent hwalk hslots hadd.fresh hk
      refine ⟨k, k', ⟨⟨by rw [htree2], hadd.fresh, hk⟩, ⟨by rw [htree2], hfind, hget, ?_⟩, ?_⟩, ?_, ?_⟩
      · rw [tree_of_held k2.sound.consistent hl.held]
        exact (k2.sound.consistent.liveAt hl.held).2.2
      · exact fun e => hne (k2.sound.consistent.unique ip dp hl.held.1 hdp2.1 e)
      · rw [hl4.tree, hset]
      · rw [hl4.tree, hset, setSlot, set_self]
        exact hfind'
    refine Leaves.bind (dirunlink_does hl4.held old_name trivial) (add_zero _).symm
      fun r s5 k5 hr => ?_
    rw [hdinum] at hr
    have hr := hr hdtype
    refine leaves_ite (fun hneg => ?_) fun hneg => ?_
    · -- the old entry is there, so that it can be removed
      obtain ⟨hdp5, -, -⟩ := held_of_zero k5 hl4.held
      refine Leaves.bind (dirunlink_does hdp5 _ trivial) (add_zero _).symm fun _ s6 _ _ => ?_
      refine Leaves.bind iunlockput_does (c := .ref ip + .lock ip) (by simp; abel) fun _ s' _ _ =>
        leaves_pure fun hsmall => ?_
      obtain ⟨k, k', -, -, hfind⟩ := hentries hsmall
      rcases hr with ⟨-, -, hnone⟩ | ⟨e, -⟩
      · rw [hnone] at hfind
        cases hfind
      · omega
    · refine Leaves.bind iunlockput_does (c := .ref dp + .lock dp) (by simp; abel) fun _ s6 _ hput =>
        Leaves.bind iunlockput_does (add_comm _ _) fun _ s' _ hput2 => leaves_pure fun hsmall => ?_
      obtain ⟨k, k', hen, htree, hfind⟩ := hentries hsmall
      rcases hr with ⟨e, -⟩ | ⟨-, hrem⟩
      · exact absurd e hneg
      · obtain ⟨k0, m, hfind0, -, htree5⟩ := hrem.entry
        obtain rfl : k0 = k' := Option.some.inj (hfind0.symm.trans hfind)
        refine ⟨.rename _ k k0 _ (nameStr old_name) (nameStr (cstr new)),
          ⟨⟨old_name, ?_, rfl⟩, rfl⟩, ⟨_, hfrees2, hen, ?_⟩, fun _ e => by cases e⟩
        · rw [hdinum2]
          exact hparent
        · rw [TreeOp.apply, ← htree, ← htree5]
          exact hput.unlock_frees.trans hput2.unlock_frees

/-- **Renaming** does to the tree what it was asked to, or nothing. -/
lemma rename_leaves (hcwd : 0 < (s.itable s.me.cwd).ref) (old new : List UInt8) :
    Leaves (fun _ => True) 0 (rename old new) (fun _ s' => s.sb.ninodes ≤ 2 ^ 16 →
      Meets s s' (.rename old new)) s := by
  refine Leaves.bind (namex_does hcwd old true (.refl _)) (add_zero 0).symm fun r s₁ k1 hr => ?_
  obtain ⟨hfrees, hwalk, hdp⟩ := hr
  cases r with
  | none => exact leaves_pure fun _ => .of_frees hfrees _
  | some q =>
    obtain ⟨dp, old_name⟩ := q
    obtain ⟨hdp, hdir⟩ := hdp rfl _ rfl
    obtain ⟨hcwd1, hcwdn1⟩ := k1.cwd rfl hcwd
    have h := renameEntry_leaves hfrees hcwd1 hcwdn1 hdp hdir new hwalk.symm
    rw [k1.sb] at h
    rw [zero_add]
    exact h

/-! ### Opening -/

/-- What opening a file is asked to do to the tree. -/
def openRequest (path : List UInt8) (omode : UInt32) : Request :=
  if omode &&& O_CREATE ≠ 0 then .make path T_FILE else .quiet

/-- The part of `sys_open` that finds or makes the inode: no directory, if it is to be written. -/
lemma openInode_does (hcwd : 0 < (s.itable s.me.cwd).ref) (path : List UInt8) (omode : UInt32) :
    Does X 0 (openInode path omode) (fun r => r.elim 0 fun i => .ref i + .lock i) (fun r s' =>
      (∀ i, r = some i → Held s' i ∧ (writing omode = true → (s'.itable i).d.type ≠ T_DIR)) ∧
      (s.sb.ninodes ≤ 2 ^ 16 → Meets s s' (openRequest path omode))) s := by
  rw [openRequest]
  refine does_ite (fun hc => ?_) fun hc => ?_
  · rw [if_pos hc]
    exact (create_does hcwd path T_FILE 0 0).post fun r s' _ hr =>
      ⟨fun i hi => ⟨(hr.1 i hi).1, fun _ => (hr.1 i hi).2 rfl⟩, fun hsmall => hr.2 hsmall (by decide)⟩
  · rw [if_neg hc]
    refine (namei_does hcwd path (.refl _)).bind (add_zero 0).symm fun r s₁ _ hr => ?_
    obtain ⟨hfrees, -⟩ := hr
    cases r with
    | none => exact .pure (add_zero 0) ⟨nofun, fun _ => .of_frees hfrees _⟩
    | some ip =>
      refine ilock_does.bind (add_zero _).symm fun _ s2 _ hl => does_inode ?_
      have hfrees2 : s.tree.Frees s2.tree := hl.tree ▸ hfrees
      rw [zero_add]
      refine does_ite (fun _ => ?_) fun hdir => .pure rfl ⟨fun i hi => ?_, fun _ => .of_frees hfrees2 _⟩
      · exact iunlockput_does.bind (zero_add _).symm fun _ _ _ hput => .pure (add_zero 0)
          ⟨nofun, fun _ => .of_frees (hfrees2.trans hput.unlock_frees) _⟩
      · cases hi
        refine ⟨hl.held, fun hw ht => hdir ⟨ht, ?_⟩⟩
        rintro rfl
        exact absurd hw (by decide)

/-- The part of `sys_open` that truncates the file or finds its end. -/
lemma openOffset_does (hi : Held s i) (omode : UInt32) (hX : omode &&& O_TRUNC = 0 ∨ X (s.itable i).inum) :
    Does X 0 (openOffset i omode) (fun _ => 0) (fun off s' => s'.tree = s.tree ∧
      (omode &&& O_TRUNC = 0 → writing omode = true → s' = s ∧ off = (s.itable i).d.size)) s := by
  refine does_inode ?_
  have htrunc : Does X 0 (if omode &&& O_TRUNC ≠ 0 ∧ (s.itable i).d.type = T_FILE then itrunc i else pure ())
      (fun _ => 0) (fun _ s₁ => s₁.tree = s.tree ∧ (omode &&& O_TRUNC = 0 → s₁ = s)) s := by
    refine does_ite (fun ht => ?_) fun _ => .pure rfl ⟨rfl, fun _ => rfl⟩
    refine (itrunc_does hi (hX.resolve_left ht.1)).post fun _ s₁ _ hs =>
      ⟨hs.2 ?_, fun h => absurd h ht.1⟩
    rw [ht.2]
    decide
  refine htrunc.bind (add_zero 0).symm fun _ s₁ _ hs => ?_
  refine does_ite (fun ht => does_inode (.pure (add_zero 0) ⟨hs.1, fun h _ => ?_⟩)) fun ht =>
    .pure (add_zero 0) ⟨hs.1, fun h hw => absurd ⟨h, hw⟩ ht⟩
  rw [hs.2 h]
  exact ⟨rfl, rfl⟩

end

end FypOs.Fs
