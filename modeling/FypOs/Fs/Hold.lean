import FypOs.Fs.Tree
import FypOs.Lib.Accounts
import Mathlib.Algebra.Group.Prod
import Mathlib.Algebra.Order.Group.Multiset

/-!
# Fs — what a call holds

A system call gets references to entries of the inode table and locks entries, and gives both back
or hands them on.  `Keeps X a b s s'` says what a part of a call that starts by holding `a` and ends by
holding `b` does to the state:

* it leads to a sound state;
* the reference counts have changed by the references got and given back, and an entry that somebody
  else refers to is still the entry of its inode;
* the locks it took are those it holds;
* every file that a directory names is as it was, but for those in `X`.
-/

namespace FypOs.Fs

open Lib Multiset

/-- The references and the locks that a call holds. -/
abbrev Hold := Multiset (Fin NINODE) × Multiset (Fin NINODE)

/-- A reference to an entry. -/
def Hold.ref (i : Fin NINODE) : Hold := ({i}, 0)

/-- The lock of an entry. -/
def Hold.lock (i : Fin NINODE) : Hold := (0, {i})

/-- Inode `n` is a file, or a device, that a directory names. -/
structure Linked (s : State) (n : Nat) : Prop where
  live : Live s.sb n (s.dinode n)
  type : (s.dinode n).type ≠ T_DIR
  nlink : (s.dinode n).nlink ≠ 0

/-- What a part of a call does that holds `a` at its start and `b` at its end. -/
structure Keeps (X : Nat → Prop) (a b : Hold) (s s' : State) : Prop where
  sb : s'.sb = s.sb
  me : s'.me = s.me
  sound : Sound s'
  files : ∀ n, ¬ X n → Linked s n → Unchanged s s' n
  ref : ∀ j, (s'.itable j).ref + a.1.count j = (s.itable j).ref + b.1.count j
  /-- An entry that somebody else refers to. -/
  kept : ∀ j, (a.1.count j : Int) < (s.itable j).ref → (s'.itable j).inum = (s.itable j).inum ∧
    ((s.itable j).valid = true →
      (s'.itable j).valid = true ∧ (s'.itable j).d.type = (s.itable j).d.type)
  lock : ∀ j, j ∉ b.2 → (s'.itable j).lock = none ∨
    j ∉ a.2 ∧ (s'.itable j).lock = (s.itable j).lock

/-- The state is sound, and the references held are counted. -/
structure Covers (a : Hold) (s : State) : Prop where
  sound : Sound s
  ref : ∀ j, (a.1.count j : Int) ≤ (s.itable j).ref

section

variable {X Y : Nat → Prop} {a b c : Hold} {s s₁ s' : State} {i j : Fin NINODE} {n : Nat}

lemma Linked.unchanged (h : Linked s n) (hsb : s'.sb = s.sb) (hu : Unchanged s s' n) : Linked s' n := by
  refine ⟨?_, ?_, ?_⟩
  · rw [hu.dinode, hsb]
    exact h.live
  · rw [hu.dinode]
    exact h.type
  · rw [hu.dinode]
    exact h.nlink

namespace Keeps

lemma refl (h : Sound s) : Keeps X a a s s :=
  ⟨rfl, rfl, h, fun n _ _ => .refl s n, fun _ => rfl, fun _ _ => ⟨rfl, fun hv => ⟨hv, rfl⟩⟩,
    fun _ hj => .inr ⟨hj, rfl⟩⟩

lemma trans (h1 : Keeps X a b s s₁) (h2 : Keeps X b c s₁ s') : Keeps X a c s s' where
  sb := h2.sb.trans h1.sb
  me := h2.me.trans h1.me
  sound := h2.sound
  files n hn hl := by
    have hu := h1.files n hn hl
    exact hu.trans (h2.files n hn (hl.unchanged h1.sb hu))
  ref j := by
    have := h1.ref j
    have := h2.ref j
    omega
  kept j hj := by
    have href := h1.ref j
    obtain ⟨e1, v1⟩ := h1.kept j hj
    obtain ⟨e2, v2⟩ := h2.kept j (by omega)
    refine ⟨e2.trans e1, fun hv => ?_⟩
    obtain ⟨hv1, t1⟩ := v1 hv
    obtain ⟨hv2, t2⟩ := v2 hv1
    exact ⟨hv2, t2.trans t1⟩
  lock j hj := by
    rcases h2.lock j hj with e | ⟨hb, e⟩
    · exact .inl e
    · rw [e]
      exact h1.lock j hb

/-- What the part of the call does not use stands by. -/
lemma frame (c : Hold) (h : Keeps X a b s s') : Keeps X (c + a) (c + b) s s' where
  sb := h.sb
  me := h.me
  sound := h.sound
  files := h.files
  ref j := by
    have := h.ref j
    simp only [Prod.fst_add, count_add]
    omega
  kept j hj := by
    refine h.kept j ?_
    simp only [Prod.fst_add, count_add] at hj
    omega
  lock j hj := by
    rw [Prod.snd_add, mem_add, not_or] at hj ⊢
    exact (h.lock j hj.2).imp_right fun ⟨ha, e⟩ => ⟨⟨hj.1, ha⟩, e⟩

lemma covers (h : Keeps X a b s s') (ha : Covers a s) : Covers b s' := by
  refine ⟨h.sound, fun j => ?_⟩
  have := h.ref j
  have := ha.ref j
  omega

/-- Files that no directory names need not be excepted. -/
lemma restrict (h : Keeps Y a b s s') (hX : ∀ n, Y n → X n ∨ ¬ Linked s n) : Keeps X a b s s' :=
  { h with files := fun n hn hl => h.files n (fun hy => (hX n hy).elim hn fun hno => hno hl) hl }

/-- An entry that is in use and read from disk stays so, if not for a reference given back. -/
lemma held (h : Keeps X a b s s') (hj : Held s j) (ha : (a.1.count j : Int) < (s.itable j).ref)
    : Held s' j ∧ (s'.itable j).inum = (s.itable j).inum ∧ (s'.itable j).d.type = (s.itable j).d.type := by
  obtain ⟨e, hv⟩ := h.kept j ha
  obtain ⟨hv', ht⟩ := hv hj.2
  refine ⟨⟨?_, hv'⟩, e, ht⟩
  have := h.ref j
  omega

end Keeps

lemma Covers.weaken (h : Covers (c + a) s) : Covers a s := by
  refine ⟨h.sound, fun j => ?_⟩
  have := h.ref j
  simp only [Prod.fst_add, count_add] at this
  omega

/-- The account of the references and locks of the inode table. -/
def accounts (X : Nat → Prop) : Accounts State Hold where
  Owns := Covers
  Step := Keeps X
  refl h := .refl h.sound
  trans := .trans
  frame := .frame
  weaken := .weaken
  next ha h := h.covers ha

/-! ### How the parts of a call may stop -/

/-- The messages of calls that find a file or a directory in bad shape. -/
def badShape : List String :=
  ["bmap: out of range", "dirlookup read", "dirlink read", "isdirempty: readi", "unlink: writei"]

/-- The message of `sys_unlink` on an inode that has no links. -/
def noLinks : String := "unlink: nlink < 1"

/-- The other ways to stop. -/
def Stops (e : Prog.Stop) : Prop := ∀ msg ∈ noLinks :: badShape, e ≠ .panic msg

instance (e : Prog.Stop) : Decidable (Stops e) := inferInstanceAs (Decidable (∀ _ ∈ _, _))

/-- From `s`, the call takes a process that holds `a` to one that holds `b r`, and does not find a
file in bad shape. -/
abbrev Does {α : Type} (X : Nat → Prop) (a : Hold) (m : FsM α) (b : α → Hold)
    (Q : α → State → Prop) (s : State) : Prop :=
  (accounts X).Does a m b Q Stops s

lemma Does.restrict {α : Type} {m : FsM α} {b : α → Hold} {Q : α → State → Prop}
    (h : Does Y a m b Q s) (hX : ∀ n, Y n → X n ∨ ¬ Linked s n) : Does X a m b Q s :=
  fun ha => (h ha).post fun _ _ hs => ⟨Keeps.restrict hs.1 hX, hs.2⟩

/-! ### The relations of the layers below -/

/-- A step that has left the table alone, but for fields of entry `i`. -/
lemma Frame.keeps (h : Sound s') (hf : Frame s s' i) (htype : (s'.itable i).d.type = (s.itable i).d.type)
    (hX : X (s.itable i).inum ∨ ¬ Linked s (s.itable i).inum) : Keeps X a a s s' := by
  have hent (j) : (s'.itable j).ref = (s.itable j).ref ∧ (s'.itable j).inum = (s.itable j).inum ∧
      (s'.itable j).valid = (s.itable j).valid ∧ (s'.itable j).d.type = (s.itable j).d.type ∧
      (s'.itable j).lock = (s.itable j).lock := by
    by_cases hj : j = i
    · subst hj
      obtain ⟨d, e⟩ := hf.entry
      exact ⟨by rw [e], by rw [e], by rw [e], htype, by rw [e]⟩
    · rw [hf.others j hj]
      exact ⟨rfl, rfl, rfl, rfl, rfl⟩
  refine ⟨hf.sb, hf.me, h, fun n hn hl => ?_, fun j => ?_, fun j _ => ?_, fun j hj => ?_⟩
  · refine hf.files n hl.live.2.1 fun e => ?_
    subst e
    exact hX.elim hn fun hno => hno hl
  · rw [(hent j).1]
  · obtain ⟨-, e, hv, ht, -⟩ := hent j
    rw [e, hv, ht]
    exact ⟨rfl, fun hv => ⟨hv, rfl⟩⟩
  · exact .inr ⟨hj, (hent j).2.2.2.2⟩

/-- A reference got: to an entry in use, or to one that nobody used. -/
lemma keeps_of_got (hsb : s'.sb = s.sb) (hme : s'.me = s.me) (hs : Sound s')
    (hfiles : ∀ n, Linked s n → Unchanged s s' n) (hothers : ∀ k, k ≠ j → s'.itable k = s.itable k)
    (hentry : 0 < (s.itable j).ref ∧ s'.itable j = { s.itable j with ref := (s.itable j).ref + 1 } ∨
      (s.itable j).ref = 0 ∧ (s'.itable j).ref = 1)
    (hlock : (s'.itable j).lock = (s.itable j).lock) : Keeps X 0 (.ref j) s s' := by
  refine ⟨hsb, hme, hs, fun n _ => hfiles n, fun k => ?_, fun k hk => ?_,
    fun k _ => .inr ⟨notMem_zero k, ?_⟩⟩
  · by_cases hkj : k = j
    · subst hkj
      rcases hentry with ⟨-, e⟩ | ⟨h0, e⟩
      · simp [Hold.ref, e]
      · simp [Hold.ref, e, h0]
    · simp [Hold.ref, hothers k hkj, hkj]
  · by_cases hkj : k = j
    · subst hkj
      rcases hentry with ⟨-, e⟩ | ⟨h0, -⟩
      · rw [e]
        exact ⟨rfl, fun hv => ⟨hv, rfl⟩⟩
      · rw [h0] at hk
        exact absurd hk (by simp)
    · rw [hothers k hkj]
      exact ⟨rfl, fun hv => ⟨hv, rfl⟩⟩
  · by_cases hkj : k = j
    · rw [hkj, hlock]
    · rw [hothers k hkj]

section

variable (h : Sound s)

include h

lemma Got.keeps (hg : Got s s' n j) (hn : 0 < n ∧ n < s.sb.ninodes) : Keeps X 0 (.ref j) s s' :=
  keeps_of_got hg.sb hg.me (hg.sound h hn) (fun n _ => .of_blocks hg.sb hg.blocks n) hg.others
    (hg.entry.imp_right fun he => ⟨he.1, he.2.1⟩) hg.lock

lemma Fresh.keeps {type : Int16} (hf : Fresh s s' type n j) : Keeps X 0 (.ref j) s s' := by
  refine keeps_of_got hf.sb hf.me (hf.sound h) (fun m hl => ?_) hf.others hf.entry hf.lock
  refine hf.files m hl.live.2.1 fun e => ?_
  subst e
  exact hl.live.2.2 hf.was_free

lemma Quiet.keeps (hq : Quiet s s') : Keeps X a a s s' := by
  refine ⟨hq.sb, hq.me, hq.sound h, fun n _ _ => .of_blocks hq.sb hq.blocks n, fun k => ?_,
    fun k hk => ?_, fun k hk => .inr ⟨hk, hq.lock k⟩⟩
  · rw [hq.ref k]
  · rw [hq.kept k (by omega)]
    exact ⟨rfl, fun hv => ⟨hv, rfl⟩⟩

lemma Locked.keeps (hl : Locked s s' i) : Keeps X 0 (.lock i) s s' := by
  obtain ⟨d, e⟩ := hl.entry
  refine ⟨hl.sb, hl.me, hl.sound h, fun n _ _ => .of_blocks hl.sb hl.blocks n, fun k => ?_,
    fun k _ => ?_, fun k hk => .inr ⟨notMem_zero k, ?_⟩⟩
  · by_cases hki : k = i
    · rw [hki, e]
      rfl
    · rw [hl.others k hki]
      rfl
  · by_cases hki : k = i
    · subst hki
      refine ⟨hl.inum, fun hv => ⟨hl.held.2, ?_⟩⟩
      rw [hl.keep hv]
    · rw [hl.others k hki]
      exact ⟨rfl, fun hv => ⟨hv, rfl⟩⟩
  · have hki : k ≠ i := fun e => hk (mem_singleton.mpr e)
    rw [hl.others k hki]

lemma Put.keeps (hr : 0 < (s.itable i).ref) (hp : Put s s' i) : Keeps X (.ref i) 0 s s' := by
  refine ⟨hp.sb, hp.me, hp.sound h hr, fun n _ hl => ?_, fun k => ?_, fun k hk => ?_, fun k _ => ?_⟩
  · exact (hp.files n hl.live.2.1).resolve_right fun hd => hl.nlink hd.2.1
  · by_cases hki : k = i
    · subst hki
      simp [Hold.ref, hp.ref]
    · simp [Hold.ref, hp.others k hki, hki]
  · by_cases hki : k = i
    · subst hki
      rw [hp.kept (by simpa [Hold.ref] using hk)]
      exact ⟨rfl, fun hv => ⟨hv, rfl⟩⟩
    · rw [hp.others k hki]
      exact ⟨rfl, fun hv => ⟨hv, rfl⟩⟩
  · by_cases hki : k = i
    · subst hki
      exact hp.lock.imp_right fun e => ⟨notMem_zero _, e⟩
    · exact .inr ⟨notMem_zero _, by rw [hp.others k hki]⟩

end

/-! ### The functions of the inode layer -/

lemma ilock_does : Does X 0 (ilock i) (fun _ => .lock i) (fun _ s' => Locked s s' i) s :=
  fun ha => (ilock_spec ha.sound.consistent (ha.sound.range i) (by decide) (by decide)
    (by decide)).post fun _ _ hl => ⟨hl.keeps ha.sound, hl⟩

lemma keeps_unlock (h : Sound s) : Keeps X (.lock i) 0 s (s.setInode i fun ip => { ip with lock := none }) := by
  have hent (j) : let ip := (s.setInode i fun ip => { ip with lock := none }).itable j
      ip.ref = (s.itable j).ref ∧ ip.inum = (s.itable j).inum ∧ ip.valid = (s.itable j).valid ∧
      ip.d = (s.itable j).d := by
    by_cases hj : j = i
    · rw [hj, setInode_itable_self]
      exact ⟨rfl, rfl, rfl, rfl⟩
    · rw [setInode_itable_of_ne hj]
      exact ⟨rfl, rfl, rfl, rfl⟩
  refine ⟨rfl, rfl, h.setInode rfl rfl rfl rfl id, fun n _ _ => .setInode .., fun j => ?_,
    fun j _ => ?_, fun j _ => ?_⟩
  · rw [(hent j).1]
    rfl
  · obtain ⟨-, e, hv, hd⟩ := hent j
    rw [e, hv, hd]
    exact ⟨rfl, fun hv => ⟨hv, rfl⟩⟩
  · by_cases hj : j = i
    · rw [hj, setInode_itable_self]
      exact .inl rfl
    · rw [setInode_itable_of_ne hj]
      exact .inr ⟨fun hmem => hj (mem_singleton.mp hmem), rfl⟩

lemma iunlock_does : Does X (.lock i) (iunlock i) (fun _ => 0)
    (fun _ s' => s' = s.setInode i fun ip => { ip with lock := none }) s :=
  fun ha => (iunlock_spec (by decide)).post fun _ _ hs => ⟨hs.2 ▸ keeps_unlock ha.sound, hs.2⟩

lemma iput_does : Does X (.ref i) (iput i) (fun _ => 0) (fun _ s' => Put s s' i) s := by
  intro ha
  have hr : 1 ≤ (s.itable i).ref := by simpa [Hold.ref] using ha.ref i
  exact (iput_spec ha.sound.consistent hr (by decide)).post fun _ _ hp => ⟨hp.keeps ha.sound hr, hp⟩

/-- An inode without links is freed, or somebody else refers to it. -/
lemma Put.settled (h : Put s s' i) (hi : Held s i) (hz : (s.itable i).d.nlink = 0) :
    s'.tree (s.itable i).inum = .free ∨ Held s' i := by
  by_cases hlast : (s.itable i).ref = 1
  · have hf := h.freed
    rw [if_pos ⟨hlast, hi.2, hz⟩] at hf
    exact .inl (tree_of_not_live hf)
  · have hpos := hi.1
    have hk := h.kept (by omega)
    refine .inr ⟨?_, ?_⟩
    · rw [hk]
      dsimp only
      omega
    · rw [hk]
      exact hi.2

/-- A part of a call that does nothing to the tree, but that inodes without links may be freed; one
that is in the table stays there or is freed. -/
structure Calm (s s' : State) : Prop where
  frees : s.tree.Frees s'.tree
  moored : ∀ n, InTable s n → (s'.tree n).nlink = 0 → Anchored s' n

namespace Calm

lemma refl (s : State) : Calm s s := ⟨.refl _, fun _ hn _ => .inr hn⟩

lemma anchored (h : Calm s s') (hn : (s.tree n).nlink = 0 → Anchored s n)
    (hz : (s'.tree n).nlink = 0) : Anchored s' n := by
  rcases h.frees n with e | ⟨-, e⟩
  · rcases hn (e ▸ hz) with hfree | hin
    · exact .inl (e.trans hfree)
    · exact h.moored n hin hz
  · exact .inl e

lemma trans (h1 : Calm s s₁) (h2 : Calm s₁ s') : Calm s s' :=
  ⟨h1.frees.trans h2.frees, fun n hn => h2.anchored (h1.moored n hn)⟩

end Calm

lemma InTable.keeps (h : InTable s n) (hk : Keeps X a b s s') (ha : a.1 = 0) : InTable s' n := by
  obtain ⟨i, hi, rfl⟩ := h
  obtain ⟨hi', e, -⟩ := hk.held hi (by rw [ha]; exact hi.1)
  exact ⟨i, hi', e⟩

lemma Keeps.calm (h : Keeps X a b s s') (ha : a.1 = 0) (hf : s.tree.Frees s'.tree) : Calm s s' :=
  ⟨hf, fun _ hn _ => .inr (hn.keeps h ha)⟩

lemma Put.calm (h : Put s s' i) (hc : Consistent s) : Calm s s' := by
  refine ⟨h.tree, ?_⟩
  rintro n ⟨j, hj, rfl⟩ hz
  by_cases hji : j = i
  · subst hji
    by_cases hz0 : (s.itable j).d.nlink = 0
    · exact (h.settled hj hz0).imp_right fun hj' => ⟨j, hj', h.inum⟩
    · have hne : (s.tree (s.itable j).inum).nlink ≠ 0 := by
        rw [tree_of_held hc hj]
        exact hz0
      rw [h.tree.eq_of_nlink hne] at hz
      exact absurd hz hne
  · exact .inr ⟨j, by rw [Held, h.others j hji]; exact hj, by rw [h.others j hji]⟩

/-- What a call has done to the tree, when the rest of it does nothing more. -/
lemma Meets.calm {req : Request} (h : Meets s s₁ req) (hc : Calm s₁ s') : Meets s s' req := by
  obtain ⟨op, hop, ⟨T, hT, hen, hf⟩, ha⟩ := h
  exact ⟨op, hop, ⟨T, hT, hen, hf.trans hc.frees⟩, fun n hn => hc.anchored (ha n hn)⟩

/-- The entry without its lock. -/
abbrev State.unlock (s : State) (i : Fin NINODE) : State :=
  s.setInode i fun ip => { ip with lock := none }

lemma unlock_entry (s : State) (i j : Fin NINODE) :
    ∃ l, (s.unlock i).itable j = { s.itable j with lock := l } := by
  by_cases hj : j = i
  · exact ⟨none, by rw [hj, setInode_itable_self]⟩
  · exact ⟨_, setInode_itable_of_ne hj⟩

lemma held_unlock : Held (s.unlock i) j ↔ Held s j := by
  obtain ⟨l, e⟩ := unlock_entry s i j
  rw [Held, Held, e]

lemma iunlockput_does : Does X (.ref i + .lock i) (iunlockput i) (fun _ => 0)
    (fun _ s' => Put (s.unlock i) s' i) s := by
  refine iunlock_does.bind rfl fun _ s₁ _ hs1 => ?_
  subst hs1
  rw [add_zero]
  exact iput_does

namespace Put

variable (h : Put (s.unlock i) s' i)

include h

lemma unlock_others (hj : j ≠ i) : s'.itable j = s.itable j := by
  rw [h.others j hj, setInode_itable_of_ne hj]

lemma unlock_inum (j : Fin NINODE) : (s'.itable j).inum = (s.itable j).inum := by
  by_cases hj : j = i
  · rw [hj, h.inum, setInode_itable_self]
  · rw [h.unlock_others hj]

lemma unlock_frees : s.tree.Frees s'.tree := tree_setInode s i _ ▸ h.tree

lemma unlock_calm (hs : Sound s) : Calm s s' := by
  have hk : Keeps (fun _ => False) (.lock i) 0 s (s.unlock i) := keeps_unlock hs
  refine (hk.calm rfl ?_).trans (h.calm hk.sound.consistent)
  rw [tree_setInode]
  exact .refl _

lemma unlock_settled (hi : Held s i) (hz : (s.itable i).d.nlink = 0) :
    s'.tree (s.itable i).inum = .free ∨ Held s' i := by
  have hset := h.settled (held_unlock.mpr hi)
  rw [setInode_itable_self] at hset
  exact hset hz

end Put

lemma idup_does (hr : 0 < (s.itable i).ref) : Does X 0 (idup i) .ref (fun j s' => j = i ∧ s'.tree = s.tree ∧
      ∀ k, (s'.itable k).inum = (s.itable k).inum) s := by
  refine fun ha => (idup_spec ha.sound.consistent hr).post fun j s' hs => ?_
  obtain ⟨rfl, rfl, -⟩ := hs
  refine ⟨keeps_of_got rfl rfl (ha.sound.setInode rfl rfl rfl rfl fun _ => hr)
    (fun n _ => .setInode ..) (fun _ => setInode_itable_of_ne) (.inl ⟨hr, setInode_itable_self⟩) ?_,
    rfl, tree_setInode .., fun k => ?_⟩
  · rw [setInode_itable_self]
  · by_cases hk : k = j
    · rw [hk, setInode_itable_self]
    · rw [setInode_itable_of_ne hk]

lemma iget_does (hn : 0 < n ∧ n < s.sb.ninodes) : Does X 0 (iget ROOTDEV n) .ref (fun j s' => Got s s' n j) s :=
  fun ha => (iget_spec ha.sound.consistent n (by decide)).post fun _ _ hg =>
    ⟨hg.keeps ha.sound hn, hg⟩

lemma ialloc_does (type : Int16) : Does X 0 (ialloc ROOTDEV type) (fun r => r.elim 0 .ref)
    (fun r s' => (r = none → s' = s) ∧ ∀ j, r = some j → ∃ n, Fresh s s' type n j) s := by
  refine fun ha => (ialloc_spec ha.sound.consistent type (by decide)).post fun r s' hs => ?_
  rcases hs with ⟨rfl, rfl⟩ | ⟨n, j, rfl, hf⟩
  · exact ⟨.refl ha.sound, fun _ => rfl, nofun⟩
  · refine ⟨hf.keeps ha.sound, nofun, fun k hk => ?_⟩
    cases hk
    exact ⟨n, hf⟩

/-- An edit of fields that have nothing to do with the contents of the file. -/
def Meta (g : Dinode → Dinode) : Prop :=
  ∀ d, (g d).type = d.type ∧ (g d).addrs = d.addrs ∧ (g d).size = d.size

lemma meta_addLink (k : Int16) : Meta fun d => { d with nlink := d.nlink + k } :=
  fun _ => ⟨rfl, rfl, rfl⟩

lemma meta_noLink : Meta fun d => { d with nlink := 0 } := fun _ => ⟨rfl, rfl, rfl⟩

lemma meta_new (major minor : Int16) :
    Meta fun d => { d with major := major, minor := minor, nlink := 1 } := fun _ => ⟨rfl, rfl, rfl⟩

lemma editInode_does (hi : Held s i) {g : Dinode → Dinode} (hg : Meta g)
    (hX : X (s.itable i).inum ∨ ¬ Linked s (s.itable i).inum) :
    Does X 0 (editInode i g) (fun _ => 0) (fun _ s' =>
      s'.tree = s.tree.setNlink (s.itable i).inum (g (s.itable i).d).nlink ∧
      (s'.itable i).d = g (s.itable i).d ∧ ∀ j, j ≠ i → s'.itable j = s.itable j) s := by
  have htype (d) : (g d).type = d.type := (hg d).1
  have hsize (d) : (g d).size = d.size := (hg d).2.2
  refine fun ha => (setMeta_spec ha.sound.consistent hi htype fun d => (hg d).2.1).post
    fun _ s' hs => ?_
  obtain ⟨hc, hf, hd, hblock, hbyte⟩ := hs
  have hok := ha.sound.fileOk hi
  have hdin : s'.dinode (s.itable i).inum = g (s.dinode (s.itable i).inum) := by
    rw [hf.dinode hi hc, hd, (ha.sound.consistent.synced i hi).2]
  have hentry (off) : s'.entry (s.itable i).inum off = s.entry (s.itable i).inum off := by
    rw [State.entry, State.entry, State.bytes, State.bytes, funext hbyte]
  refine ⟨hf.keeps (hf.sound ha.sound hi hc ⟨⟨?_, fun bn hbn => ?_⟩, fun ht => ⟨?_, fun off hmod hlt => ?_⟩⟩)
    ?_ hX, hf.tree ha.sound hi ?_, hd, hf.others⟩
  · rw [hdin, hsize]
    exact hok.size
  · rw [hblock]
    rw [hdin, hsize] at hbn
    exact hok.mapped bn hbn
  · rw [hdin, htype] at ht
    rw [hdin, hsize]
    exact (hok.dir ht).whole
  · rw [hdin, htype] at ht
    rw [hdin, hsize] at hlt
    rw [hentry, hf.sb]
    exact (hok.dir ht).inum off hmod hlt
  · rw [hd, htype]
  · have hslots : s'.slots (s.itable i).inum = s.slots (s.itable i).inum := by
      rw [State.slots, State.slots, hdin, hsize]
      exact List.map_congr_left fun k _ => by rw [hentry]
    rw [tree_of_held ha.sound.consistent hi, ← hf.inum, tree_of_held hc (hf.held hi), hf.inum, hslots, hd, htype]

lemma Sound.readi_spec {E : Prog.Stop → Prop} (h : Sound s) (hi : Held s i) (dst : Nat → Bool)
    (off n : UInt32) : Prog.wp (readi i dst off n) (fun _ s' => s' = s) E s := by
  refine (Fs.readi_spec h.consistent hi (fun k hk => ?_) off n).post fun _ s' hs => hs.1
  exact (h.fileOk hi).byte ((h.consistent.synced i hi).2 ▸ hk)

lemma itrunc_does (hi : Held s i) (hX : X (s.itable i).inum) : Does X 0 (itrunc i) (fun _ => 0) (fun _ s' =>
      (s'.itable i).d = { (s.itable i).d with size := 0, addrs := fun _ => 0 } ∧
      ((s.itable i).d.type ≠ T_DIR → s'.tree = s.tree)) s := by
  refine fun ha => (itrunc_spec ha.sound.consistent hi).post fun _ s' hs => ?_
  obtain ⟨hc, hf, hd, -⟩ := hs
  refine ⟨hf.keeps (hf.sound ha.sound hi hc (fileOk_of_empty ?_)) (by rw [hd]) (.inl hX), hd,
    hf.tree_eq ha.sound hi hc (by rw [hd]) (by rw [hd])⟩
  rw [hf.dinode hi hc, hd]

lemma writei_does (hi : Held s i) (hdir : (s.itable i).d.type ≠ T_DIR) (hX : X (s.itable i).inum)
    (src : Nat → Option UInt8) (off n : UInt32) :
    Does X 0 (writei i src off n) (fun _ => 0) (fun r s' => s'.tree = s.tree ∧
      ((r = -1 ∧ s' = s ∧ ¬ Accepted (s.itable i).d.size off n) ∨
      (Accepted (s.itable i).d.size off n ∧
        ∃ tot p : Nat, r = tot ∧ Written s s' i src off.toNat n.toNat tot p))) s := by
  refine fun ha => (writei_spec ha.sound.consistent hi src off n).post fun r s' hs => ?_
  have hkeeps : Keeps X 0 0 s s' ∧ s'.tree = s.tree := by
    rcases hs with ⟨-, rfl, -⟩ | ⟨hacc, tot, p, -, hw⟩
    · exact ⟨.refl ha.sound, rfl⟩
    · obtain ⟨a, size, hd, -⟩ := hw.inode
      exact ⟨hw.frame.keeps (hw.sound ha.sound hi hacc.1 hacc.2 hdir) (by rw [hd]) (.inl hX),
        hw.frame.tree_eq ha.sound hi hw.consistent (by rw [hd]) (by rw [hd]) hdir⟩
  exact ⟨hkeeps.1, hkeeps.2, hs⟩

end

end FypOs.Fs
