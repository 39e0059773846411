import FypOs.Fs.Trunc

/-!
# Fs — consistent states

A state between two calls is consistent when the free map is exact for the inodes on disk and the
table of in-memory inodes has at most one entry for an inode, a valid one being a copy of the inode
on disk.
-/

namespace FypOs.Fs

open Lib Prog Function List Fs.State

namespace State

/-- The references of the inodes on disk. -/
def disk (s : State) : Ref → Nat := s.refs s.dinode

/-- Byte `k` of file `n`. -/
def byte (s : State) (n k : Nat) : UInt8 := fileByte s.blocks s.disk n k

end State

/-- The entry is in use and has been read from disk. -/
def Held (s : State) (i : Fin NINODE) : Prop := 0 < (s.itable i).ref ∧ (s.itable i).valid = true

instance (s : State) (i : Fin NINODE) : Decidable (Held s i) :=
  inferInstanceAs (Decidable (_ ∧ _))

/-- The states between calls. -/
structure Consistent (s : State) : Prop where
  owns : Owns s s.disk
  /-- A valid entry is a copy of an allocated inode. -/
  synced : ∀ i, Held s i → s.LiveAt i ∧ (s.itable i).d = s.dinode (s.itable i).inum
  unique : ∀ i j, 0 < (s.itable i).ref → 0 < (s.itable j).ref →
    (s.itable i).inum = (s.itable j).inum → i = j
  dev : ∀ i, 0 < (s.itable i).ref → (s.itable i).dev = ROOTDEV

variable {s s' : State} {R R' : Ref → Nat} {n : Nat}

lemma dinode_congr (hsb : s'.sb = s.sb) (hb : s'.blocks = s.blocks) : s'.dinode = s.dinode := by
  funext n
  rw [dinode, dinode, hsb, hb]

lemma disk_congr (hsb : s'.sb = s.sb) (hb : s'.blocks = s.blocks) : s'.disk = s.disk := by
  funext r
  rw [disk, disk, dinode_congr hsb hb, refs, refs, hsb, hb]

/-- Inode `n` and its file are as they were. -/
structure Unchanged (s s' : State) (n : Nat) : Prop where
  dinode : s'.dinode n = s.dinode n
  block : ∀ bn, fileBlock s'.disk n bn = fileBlock s.disk n bn
  byte : ∀ k, s'.byte n k = s.byte n k

namespace Unchanged

variable {s s₁ s₂ s' : State} {n : Nat}

lemma refl (s : State) (n : Nat) : Unchanged s s n := ⟨rfl, fun _ => rfl, fun _ => rfl⟩

lemma trans (h1 : Unchanged s s₁ n) (h2 : Unchanged s₁ s₂ n) : Unchanged s s₂ n :=
  ⟨h2.dinode.trans h1.dinode, fun bn => (h2.block bn).trans (h1.block bn),
    fun k => (h2.byte k).trans (h1.byte k)⟩

lemma setInode (s : State) (i : Fin NINODE) (g : Inode → Inode) (n : Nat) :
    Unchanged s (s.setInode i g) n := ⟨rfl, fun _ => rfl, fun _ => rfl⟩

lemma of_blocks (hsb : s'.sb = s.sb) (hb : s'.blocks = s.blocks) (n : Nat) : Unchanged s s' n := by
  have hdisk := disk_congr hsb hb
  exact ⟨congrFun (dinode_congr hsb hb) n, fun _ => by rw [hdisk],
    fun _ => by rw [State.byte, State.byte, hdisk, hb]⟩

end Unchanged

lemma fileBlock_congr (hR : ∀ c, R' (n, c) = R (n, c)) (bn : Nat) : fileBlock R' n bn = fileBlock R n bn := by
  rw [fileBlock, fileBlock]
  split
  · exact hR _
  · rfl

/-- A file is what the references of the inode lead to. -/
lemma fileByte_congr {blocks blocks' : Nat → Block}
    (hR : ∀ c, R' (n, c) = R (n, c)) (hb : ∀ c, R (n, c) ≠ 0 → blocks' (R (n, c)) = blocks (R (n, c)))
    (k : Nat) : fileByte blocks' R' n k = fileByte blocks R n k := by
  rw [fileByte, fileByte, fileBlock_congr hR]
  split
  · rfl
  · obtain ⟨c, hc, h0⟩ := fileBlock_ne_zero ‹_›
    rw [fileBlock_of_slot hc, hb c h0]

lemma unchanged_of_refs (hd : s'.dinode n = s.dinode n) (hR : ∀ c, s'.disk (n, c) = s.disk (n, c))
    (hb : ∀ c, s.disk (n, c) ≠ 0 → s'.blocks (s.disk (n, c)) = s.blocks (s.disk (n, c))) :
    Unchanged s s' n :=
  ⟨hd, fileBlock_congr hR, fileByte_congr hR hb⟩

namespace Consistent

variable {s s₁ s' : State} {i : Fin NINODE}

section

variable (h : Consistent s)

include h

lemma layout : s.sb.Layout := h.owns.layout

lemma liveAt (hi : Held s i) : s.LiveAt i := (h.synced i hi).1

lemma view (hi : Held s i) : s.view i = s.dinode := by
  rw [State.view, (h.synced i hi).2, update_eq_self]

/-- Before work on an inode starts, its in-memory copy agrees with the disk. -/
lemma own (hi : Held s i) : s.own i = s.disk := by
  rw [State.own, h.view hi, State.disk]

lemma owns_own (hi : Held s i) : Owns s (s.own i) := h.own hi ▸ h.owns

/-- A change of one entry, and of one inode on disk. -/
lemma frame (hi : 0 < (s.itable i).ref) (howns : Owns s' s'.disk)
    (hsb : s'.sb = s.sb) (hothers : ∀ j, j ≠ i → s'.itable j = s.itable j)
    (hinum : (s'.itable i).inum = (s.itable i).inum) (hdev : (s'.itable i).dev = (s.itable i).dev)
    (hdinode : ∀ n, n < s.sb.ninodes → n ≠ (s.itable i).inum → s'.dinode n = s.dinode n)
    (hsync : Held s' i → s'.LiveAt i ∧ (s'.itable i).d = s'.dinode (s'.itable i).inum) :
    Consistent s' := by
  have href (j) : 0 < (s'.itable j).ref → 0 < (s.itable j).ref := by
    by_cases hj : j = i
    · rw [hj]; exact fun _ => hi
    · rw [hothers j hj]; exact id
  have hsame (j) : (s'.itable j).inum = (s.itable j).inum ∧ (s'.itable j).dev = (s.itable j).dev := by
    by_cases hj : j = i
    · rw [hj]; exact ⟨hinum, hdev⟩
    · rw [hothers j hj]; exact ⟨rfl, rfl⟩
  refine ⟨howns, fun j hj => ?_, fun j k hj hk e => ?_, fun j hj => ?_⟩
  · by_cases hji : j = i
    · subst hji
      exact hsync hj
    · rw [Held, hothers j hji] at hj
      obtain ⟨hl, hd⟩ := h.synced j hj
      have hne : (s.itable j).inum ≠ (s.itable i).inum := fun e => hji (h.unique j i hj.1 hi e)
      rw [State.LiveAt, hothers j hji, hsb, hdinode _ hl.2.1 hne]
      exact ⟨hl, hd⟩
  · rw [(hsame j).1, (hsame k).1] at e
    exact h.unique j k (href j hj) (href k hk) e
  · rw [(hsame j).2]
    exact h.dev j (href j hj)

end

end Consistent

/-! ### Work on one inode -/

/-- The in-memory copy of entry `i` has been edited; no inode on disk has changed. -/
structure Edited (s s' : State) (i : Fin NINODE) : Prop where
  sb : s'.sb = s.sb
  me : s'.me = s.me
  others : ∀ j, j ≠ i → s'.itable j = s.itable j
  entry : ∃ d, s'.itable i = { s.itable i with d := d }
  dinode : ∀ n, n < s.sb.ninodes → s'.dinode n = s.dinode n

/-- Work on entry `i` has been written to disk: the entry has changed in its copy of the inode only,
and the other inodes and their files are as they were. -/
structure Frame (s s' : State) (i : Fin NINODE) : Prop where
  sb : s'.sb = s.sb
  me : s'.me = s.me
  others : ∀ j, j ≠ i → s'.itable j = s.itable j
  entry : ∃ d, s'.itable i = { s.itable i with d := d }
  files : ∀ n, n < s.sb.ninodes → n ≠ (s.itable i).inum → Unchanged s s' n

section Work

variable {E : Stop → Prop} {s s₁ s₂ s' : State} {i : Fin NINODE} {g : Dinode → Dinode}

lemma Work.edited (h : Work s s' i) : Edited s s' i :=
  ⟨h.sb, h.me, h.others, h.entry.imp' (fun a => { (s.itable i).d with addrs := a }) fun _ e => e, h.dinode⟩

lemma Edited.setDinode (h : Edited s s' i) (g : Dinode → Dinode) :
    Edited s (s'.setInode i fun ip => { ip with d := g ip.d }) i where
  sb := h.sb
  me := h.me
  others j hj := (setInode_itable_of_ne hj).trans (h.others j hj)
  entry := by
    obtain ⟨d, e⟩ := h.entry
    exact ⟨g d, by rw [setInode_itable_self, e]⟩
  dinode := h.dinode

lemma Edited.inum (h : Edited s s' i) : (s'.itable i).inum = (s.itable i).inum := by
  obtain ⟨d, e⟩ := h.entry
  rw [e]

section

variable (h : Frame s s' i)

include h

lemma Frame.inum : (s'.itable i).inum = (s.itable i).inum := by
  obtain ⟨d, e⟩ := h.entry
  rw [e]

lemma Frame.lock (j : Fin NINODE) : (s'.itable j).lock = (s.itable j).lock := by
  by_cases hj : j = i
  · obtain ⟨d, e⟩ := h.entry
    rw [hj, e]
  · rw [h.others j hj]

lemma Frame.ref (j : Fin NINODE) : (s'.itable j).ref = (s.itable j).ref := by
  by_cases hj : j = i
  · obtain ⟨d, e⟩ := h.entry
    rw [hj, e]
  · rw [h.others j hj]

lemma Frame.held (hi : Held s i) : Held s' i := by
  obtain ⟨d, e⟩ := h.entry
  rw [Held, e]
  exact hi

end

lemma Frame.refl (s : State) (i : Fin NINODE) : Frame s s i :=
  ⟨rfl, rfl, fun _ _ => rfl, ⟨_, rfl⟩, fun n _ _ => .refl s n⟩

lemma Stored.disk (hs : Stored s s' i) (h : Owns s (s.own i)) : s'.disk = s.own i := hs.refs h

/-- The files on disk are then those of the in-memory copy. -/
lemma Stored.byte (hs : Stored s s' i) (h : Owns s (s.own i)) (n k : Nat) :
    s'.byte n k = fileByte s.blocks (s.own i) n k := by
  rw [State.byte, hs.disk h]
  exact fileByte_congr (fun _ => rfl) (fun c h0 => hs.same _ (h.exact.mem _ h0)) k

/-- **Work on one inode.**  Its copy is edited, the other inodes keep their references and their
data, and at the end the copy is written to disk. -/
lemma Consistent.store (h : Consistent s) (hi : Held s i) (he : Edited s s₁ i)
    (hl : s₁.LiveAt i) (ho : Owns s₁ (s₁.own i)) (hs : Stored s₁ s' i) : Consistent s' := by
  have hent : s'.itable = s₁.itable := hs.itable
  obtain ⟨d, hd⟩ := he.entry
  refine h.frame hi.1 (hs.owns ho) (hs.sb.trans he.sb) (fun j hj => ?_) ?_ ?_ (fun n hn hne => ?_)
    fun _ => ?_
  · rw [hent, he.others j hj]
  · rw [hent, he.inum]
  · rw [hent, hd]
  · rw [hs.dinode n (he.sb ▸ hn), view_of_ne (he.inum ▸ hne), he.dinode n hn]
  · rw [State.LiveAt, hent, hs.sb, hs.dinode _ hl.2.1, view_self]
    exact ⟨hl, rfl⟩

lemma frame_store (he : Edited s s₁ i) (ho : Owns s₁ (s₁.own i)) (hs : Stored s₁ s' i)
    (hblock : ∀ n, n ≠ (s.itable i).inum → ∀ bn, fileBlock (s₁.own i) n bn = fileBlock s.disk n bn)
    (hbyte : ∀ n, n ≠ (s.itable i).inum → ∀ k, fileByte s₁.blocks (s₁.own i) n k = s.byte n k) :
    Frame s s' i := by
  refine ⟨hs.sb.trans he.sb, hs.me.trans he.me, fun j hj => ?_, ?_, fun n hn hne => ⟨?_, ?_, ?_⟩⟩
  · rw [hs.itable, he.others j hj]
  · rw [hs.itable]
    exact he.entry
  · rw [hs.dinode n (he.sb ▸ hn), view_of_ne (he.inum ▸ hne), he.dinode n hn]
  · rw [hs.disk ho]
    exact hblock n hne
  · intro k
    rw [hs.byte ho]
    exact hbyte n hne k

/-- The end of work on entry `i`: fields of the copy other than the type and the addresses have been
edited by `g`, and it has been written to disk. -/
structure Saved (s s₁ s' : State) (i : Fin NINODE) (g : Dinode → Dinode) : Prop where
  consistent : Consistent s'
  disk : s'.disk = s₁.own i
  byte : ∀ n k, s'.byte n k = fileByte s₁.blocks (s₁.own i) n k
  inode : (s'.itable i).d = g (s₁.itable i).d
  full : s₁.Full → s'.Full
  frame : (∀ n, n ≠ (s.itable i).inum → ∀ bn, fileBlock (s₁.own i) n bn = fileBlock s.disk n bn) →
    (∀ n, n ≠ (s.itable i).inum → ∀ k, fileByte s₁.blocks (s₁.own i) n k = s.byte n k) →
    Frame s s' i

lemma save_spec (h : Consistent s) (hi : Held s i) (hw : Work s s₁ i) (ho : Owns s₁ (s₁.own i))
    (htype : (g (s₁.itable i).d).type = (s₁.itable i).d.type)
    (haddrs : (g (s₁.itable i).d).addrs = (s₁.itable i).d.addrs) :
    wp (iupdate i) (fun _ s' => Saved s s₁ s' i g) E
      (s₁.setInode i fun ip => { ip with d := g ip.d }) := by
  have hl := hw.liveAt (h.liveAt hi)
  have he := hw.edited.setDinode g
  obtain ⟨f, hf⟩ : ∃ f : Inode → Inode, f = fun ip => { ip with d := g ip.d } := ⟨_, rfl⟩
  rw [← hf] at he ⊢
  have hent : (s₁.setInode i f).itable i = { s₁.itable i with d := g (s₁.itable i).d } := by
    rw [setInode_itable_self, hf]
  have hown : (s₁.setInode i f).own i = s₁.own i := by
    subst hf
    exact own_setInode rfl htype haddrs
  have ho' : Owns (s₁.setInode i f) ((s₁.setInode i f).own i) := by
    rw [hown]
    exact ho.setInode i _
  have hl' : (s₁.setInode i f).LiveAt i := by
    rw [State.LiveAt, hent]
    exact ⟨hl.1, hl.2.1, by rw [htype]; exact hl.2.2⟩
  refine (iupdate_spec (s := s₁.setInode i _) ho.layout hl'.2.1).post fun _ s' hs => ?_
  refine ⟨h.store hi he hl' ho' hs, (hs.disk ho').trans hown, fun n k => ?_, ?_, fun hfull b hb => ?_,
    fun hblock hbyte => frame_store he ho' hs ?_ ?_⟩
  · rw [hs.byte ho', hown]
    rfl
  · rw [hs.itable, hent]
  · rw [hs.sb] at hb
    rw [hs.bit b hb.2]
    exact hfull b hb
  · rw [hown]
    exact hblock
  · rw [hown]
    exact hbyte

/-- Editing fields that have nothing to do with the blocks of the file. -/
lemma setMeta_spec (h : Consistent s) (hi : Held s i)
    (htype : ∀ d, (g d).type = d.type) (haddrs : ∀ d, (g d).addrs = d.addrs) :
    wp (do setDinode i g; iupdate i) (fun _ s' => Consistent s' ∧ Frame s s' i ∧
      (s'.itable i).d = g (s.itable i).d ∧
      (∀ bn, fileBlock s'.disk (s.itable i).inum bn = fileBlock s.disk (s.itable i).inum bn) ∧
      ∀ k, s'.byte (s.itable i).inum k = s.byte (s.itable i).inum k) E s := by
  have hown := h.own hi
  rw [wp_bind, wp_setDinode]
  refine (save_spec h hi (.refl s i) (h.owns_own hi) (htype _) (haddrs _)).post fun _ s' hs => ?_
  refine ⟨hs.consistent, hs.frame (fun _ _ _ => by rw [hown]) fun _ _ _ => by rw [hown]; rfl,
    hs.inode, fun bn => by rw [hs.disk, hown], fun k => by rw [hs.byte, hown]; rfl⟩

/-- **Truncation** does not stop; it leaves the file without blocks. -/
lemma itrunc_spec (h : Consistent s) (hi : Held s i) : wp (itrunc i) (fun _ s' => Consistent s' ∧ Frame s s' i ∧
      (s'.itable i).d = { (s.itable i).d with size := 0, addrs := fun _ => 0 } ∧
      ∀ c, s'.disk ((s.itable i).inum, c) = 0) E s := by
  have hl := h.liveAt hi
  rw [itrunc, wp_bind]
  refine (itruncDirect_spec (h.owns_own hi) hl).post fun _ s₁ h1 => ?_
  obtain ⟨hw1, ho1, hdir⟩ := h1
  rw [wp_bind]
  refine (itruncIndirect_spec ho1 (hw1.liveAt hl)).post fun _ s₂ h2 => ?_
  obtain ⟨hw2, ho2, hind⟩ := h2
  have hw := hw1.trans hw2
  have haddrs : (s₂.itable i).d.addrs = fun _ => 0 := by
    funext k
    rw [hind]
    refine Fin.lastCases ?_ (fun k => ?_) k
    · exact update_self ..
    · rw [update_of_ne (Fin.castSucc_lt_last k).ne]
      exact hdir k
  have hsame (n) (hn : n ≠ (s.itable i).inum) (c) : s₂.own i (n, c) = s.disk (n, c) := by
    rw [← h.own hi]
    exact hw.own_of_ne (h.owns_own hi) hn c
  rw [wp_bind, wp_setDinode]
  refine (save_spec (g := fun d => { d with size := 0 }) h hi hw.toWork ho2 rfl rfl).post fun _ s' hs => ?_
  refine ⟨hs.consistent, hs.frame (fun n hn => fileBlock_congr (hsame n hn)) fun n hn =>
    fileByte_congr (hsame n hn) fun c h0 => hw.same _ (h.owns.exact.mem _ h0), ?_, fun c => ?_⟩
  · obtain ⟨a, e⟩ := hw.entry
    rw [hs.inode]
    rw [e] at haddrs ⊢
    exact congrArg (fun a => { (s.itable i).d with size := 0, addrs := a }) haddrs
  · rw [hs.disk, hw.own_self hl]
    cases c with
    | addr k => rw [slot, haddrs]; rfl
    | entry j => exact slot_entry_of_ind (by rw [Dinode.ind, haddrs]; rfl)

end Work

/-! ### The inode table -/

section Table

variable {E : Stop → Prop} {s s₁ s' : State} {i : Fin NINODE} {g : Inode → Inode} {n : Nat}

/-- Changing the lock or the reference count of an entry. -/
lemma Consistent.setInode (h : Consistent s) (hinum : (g (s.itable i)).inum = (s.itable i).inum)
    (hdev : (g (s.itable i)).dev = (s.itable i).dev) (hd : (g (s.itable i)).d = (s.itable i).d)
    (hvalid : (g (s.itable i)).valid = (s.itable i).valid)
    (href : 0 < (g (s.itable i)).ref → 0 < (s.itable i).ref) : Consistent (s.setInode i g) := by
  have hent (j) : ((s.setInode i g).itable j).inum = (s.itable j).inum ∧
      ((s.setInode i g).itable j).dev = (s.itable j).dev ∧
      ((s.setInode i g).itable j).d = (s.itable j).d ∧
      ((s.setInode i g).itable j).valid = (s.itable j).valid ∧
      (0 < ((s.setInode i g).itable j).ref → 0 < (s.itable j).ref) := by
    by_cases hj : j = i
    · rw [hj, setInode_itable_self]
      exact ⟨hinum, hdev, hd, hvalid, href⟩
    · rw [setInode_itable_of_ne hj]
      exact ⟨rfl, rfl, rfl, rfl, id⟩
  refine ⟨h.owns.setInode i g, fun j hj => ?_, fun j k hj hk e => ?_, fun j hj => ?_⟩
  · obtain ⟨e1, -, e3, e4, e5⟩ := hent j
    rw [State.LiveAt, e1, e3]
    exact h.synced j ⟨e5 hj.1, e4 ▸ hj.2⟩
  · rw [(hent j).1, (hent k).1] at e
    exact h.unique j k ((hent j).2.2.2.2 hj) ((hent k).2.2.2.2 hk) e
  · rw [(hent j).2.1]
    exact h.dev j ((hent j).2.2.2.2 hj)

lemma Consistent.load (h : Consistent s) (hpos : 0 < (s.itable i).ref)
    (hlive : Live s.sb (s.itable i).inum (s.dinode (s.itable i).inum))
    (hinum : (g (s.itable i)).inum = (s.itable i).inum) (hdev : (g (s.itable i)).dev = (s.itable i).dev)
    (hd : (g (s.itable i)).d = s.dinode (s.itable i).inum) : Consistent (s.setInode i g) := by
  refine h.frame hpos (h.owns.setInode i g) rfl (fun _ => setInode_itable_of_ne) ?_ ?_
    (fun _ _ _ => rfl) fun _ => ?_
  · rw [setInode_itable_self, hinum]
  · rw [setInode_itable_self, hdev]
  · rw [State.LiveAt, setInode_itable_self, hinum, hd]
    exact ⟨hlive, rfl⟩

/-- An entry for inode `inum` has been got: one that had it, or an unused one. -/
structure Got (s s' : State) (inum : Nat) (j : Fin NINODE) : Prop where
  sb : s'.sb = s.sb
  me : s'.me = s.me
  blocks : s'.blocks = s.blocks
  writes : s'.writes = s.writes
  others : ∀ j', j' ≠ j → s'.itable j' = s.itable j'
  inum : (s'.itable j).inum = inum
  entry : 0 < (s.itable j).ref ∧
      s'.itable j = { s.itable j with ref := (s.itable j).ref + 1 } ∨
    (s.itable j).ref = 0 ∧ (s'.itable j).ref = 1 ∧ (s'.itable j).valid = false
  lock : (s'.itable j).lock = (s.itable j).lock
  consistent : Consistent s'

lemma Got.ref_pos {inum : Nat} {j : Fin NINODE} (h : Got s s' inum j) : 0 < (s'.itable j).ref := by
  rcases h.entry with ⟨hpos, e⟩ | ⟨-, e, -⟩
  · rw [e]
    exact Int.lt_add_one_of_le (le_of_lt hpos)
  · rw [e]
    exact Int.one_pos

/-- `iget` finds an entry for the inode, or one that nobody uses. -/
def Gettable (s : State) (inum : Nat) : Prop :=
  (∃ j, 0 < (s.itable j).ref ∧ (s.itable j).inum = inum) ∨ ∃ j, (s.itable j).ref = 0

lemma iget_gets (h : Consistent s) (inum : Nat) (hE : Gettable s inum ∨ E (.panic "iget: no inodes")) :
    wp (iget ROOTDEV inum) (fun j s' => Got s s' inum j) E s := by
  simp only [iget, wp_bind, wp_reads]
  split
  · rename_i j hj
    have hj := find?_some hj
    obtain ⟨hpos, hdev, hinum⟩ := of_decide_eq_true hj
    simp only [wp_bind, wp_setInode, wp_pure]
    refine ⟨rfl, rfl, rfl, rfl, fun _ => setInode_itable_of_ne, ?_,
      .inl ⟨hpos, setInode_itable_self⟩, by rw [setInode_itable_self],
      h.setInode rfl rfl rfl rfl fun _ => hpos⟩
    rw [setInode_itable_self, hinum]
  · rename_i hnone
    have hnone : ∀ j, 0 < (s.itable j).ref → (s.itable j).inum ≠ inum := by
      intro j hpos e
      have := find?_eq_none.mp hnone j (mem_finRange j)
      exact this (decide_eq_true ⟨hpos, h.dev j hpos, e⟩)
    split
    · rename_i j hj
      have hj := find?_some hj
      have hj := of_decide_eq_true hj
      simp only [wp_bind, wp_setInode, wp_pure]
      have hent : ((s.setInode j fun ip =>
          { ip with dev := ROOTDEV, inum := inum, ref := 1, valid := false }).itable j) =
          { s.itable j with dev := ROOTDEV, inum := inum, ref := 1, valid := false } :=
        setInode_itable_self
      refine ⟨rfl, rfl, rfl, rfl, fun _ => setInode_itable_of_ne, by rw [hent],
        .inr ⟨hj, by rw [hent], by rw [hent]⟩, by rw [hent], h.owns.setInode j _, fun k hk => ?_,
        fun k l hk hl e => ?_, fun k hk => ?_⟩
      · by_cases hkj : k = j
        · rw [Held, hkj, hent] at hk
          cases hk.2
        · rw [Held, setInode_itable_of_ne hkj] at hk
          rw [State.LiveAt, setInode_itable_of_ne hkj]
          exact h.synced k hk
      · by_cases hkj : k = j <;> by_cases hlj : l = j
        · rw [hkj, hlj]
        · rw [hkj, hent, setInode_itable_of_ne hlj] at e
          rw [setInode_itable_of_ne hlj] at hl
          exact absurd e.symm (hnone l hl)
        · rw [hlj, hent, setInode_itable_of_ne hkj] at e
          rw [setInode_itable_of_ne hkj] at hk
          exact absurd e (hnone k hk)
        · rw [setInode_itable_of_ne hkj] at e hk
          rw [setInode_itable_of_ne hlj] at e hl
          exact h.unique k l hk hl e
      · by_cases hkj : k = j
        · rw [hkj, hent]
        · rw [setInode_itable_of_ne hkj] at hk ⊢
          exact h.dev k hk
    · rename_i hused
      refine hE.resolve_left fun hget => ?_
      rcases hget with ⟨j, hpos, e⟩ | ⟨j, hj⟩
      · exact hnone j hpos e
      · exact find?_eq_none.mp hused j (mem_finRange j) (decide_eq_true hj)

lemma iget_spec (h : Consistent s) (inum : Nat) (hE : E (.panic "iget: no inodes")) :
    wp (iget ROOTDEV inum) (fun j s' => Got s s' inum j) E s :=
  iget_gets h inum (.inr hE)

lemma acquiresleep_spec (hE : (s.itable i).lock = none ∨ E .blocked) :
    wp (acquiresleep i) (fun _ s' => (s.itable i).lock = none ∧
      s' = s.setInode i fun ip => { ip with lock := some s.me.pid }) E s := by
  simp only [acquiresleep, wp_bind, wp_inode, wp_reads]
  exact wp_ite (fun hfree => ⟨hfree, rfl⟩) fun hno => hE.resolve_left hno

/-- An entry has been locked, and read from disk if it was not valid. -/
structure Locked (s s' : State) (i : Fin NINODE) : Prop where
  sb : s'.sb = s.sb
  me : s'.me = s.me
  blocks : s'.blocks = s.blocks
  writes : s'.writes = s.writes
  others : ∀ j, j ≠ i → s'.itable j = s.itable j
  entry : ∃ d, s'.itable i = { s.itable i with lock := some s.me.pid, valid := true, d := d }
  ref_pos : 0 < (s.itable i).ref
  free : (s.itable i).lock = none
  keep : (s.itable i).valid = true → (s'.itable i).d = (s.itable i).d
  consistent : Consistent s'

lemma Locked.held (h : Locked s s' i) : Held s' i := by
  obtain ⟨d, e⟩ := h.entry
  rw [Held, e]
  exact ⟨h.ref_pos, rfl⟩

lemma Locked.inum (h : Locked s s' i) : (s'.itable i).inum = (s.itable i).inum := by
  obtain ⟨d, e⟩ := h.entry
  rw [e]

/-- The inode number of an entry in use is one of the file system's. -/
def InRange (s : State) (i : Fin NINODE) : Prop :=
  0 < (s.itable i).ref → 0 < (s.itable i).inum ∧ (s.itable i).inum < s.sb.ninodes

lemma ilock_locks (h : Consistent s) (hr : InRange s i) (h1 : 0 < (s.itable i).ref ∨ E (.panic "ilock"))
    (h2 : (s.dinode (s.itable i).inum).type ≠ 0 ∨ (s.itable i).valid = true ∨ E (.panic "ilock: no type"))
    (h3 : (s.itable i).lock = none ∨ E .blocked) :
    wp (ilock i) (fun _ s' => Locked s s' i) E s := by
  simp only [ilock, wp_bind, wp_inode]
  refine wp_ite (fun hlt => h1.resolve_left (by omega)) fun hpos => ?_
  have hpos : 0 < (s.itable i).ref := by omega
  rw [wp_bind]
  refine (acquiresleep_spec h3).post fun _ s₁ hs1 => ?_
  obtain ⟨hfree, rfl⟩ := hs1
  have hc : Consistent (s.setInode i fun ip => { ip with lock := some s.me.pid }) :=
    h.setInode rfl rfl rfl rfl id
  refine wp_ite (fun hv => ?_) fun hv => ?_
  · refine ⟨rfl, rfl, rfl, rfl, fun _ => setInode_itable_of_ne, ⟨(s.itable i).d, ?_⟩, hpos, hfree,
      fun _ => by rw [setInode_itable_self], hc⟩
    rw [setInode_itable_self, ← hv]
  · simp only [wp_bind, wp_reads, wp_bread, wp_setInode, setInode_setInode]
    refine wp_ite (fun hz => (h2.resolve_left (not_not.mpr hz)).resolve_left hv) fun htype => ?_
    refine ⟨rfl, rfl, rfl, rfl, fun _ => setInode_itable_of_ne, ⟨_, setInode_itable_self⟩, hpos, hfree,
      fun e => absurd e hv, ?_⟩
    exact h.load hpos ⟨(hr hpos).1, (hr hpos).2, htype⟩ rfl rfl rfl

lemma ilock_spec (h : Consistent s) (hr : InRange s i) (h1 : E (.panic "ilock"))
    (h2 : E (.panic "ilock: no type")) (h3 : E .blocked) :
    wp (ilock i) (fun _ s' => Locked s s' i) E s :=
  ilock_locks h hr (.inr h1) (.inr (.inr h2)) (.inr h3)

lemma iunlock_spec (hE : E (.panic "iunlock")) : wp (iunlock i) (fun _ s' => 0 < (s.itable i).ref ∧
      s' = s.setInode i fun ip => { ip with lock := none }) E s := by
  simp only [iunlock, wp_bind, wp_inode, wp_reads]
  refine wp_ite (fun _ => hE) fun h => ?_
  rw [not_or] at h
  exact ⟨by omega, rfl⟩

/-- A reference has been dropped; what has become of the inodes. -/
structure Put (s s' : State) (i : Fin NINODE) : Prop where
  sb : s'.sb = s.sb
  me : s'.me = s.me
  others : ∀ j, j ≠ i → s'.itable j = s.itable j
  inum : (s'.itable i).inum = (s.itable i).inum
  ref : (s'.itable i).ref = (s.itable i).ref - 1
  /-- It was not the last one. -/
  kept : 1 < (s.itable i).ref → s'.itable i = { s.itable i with ref := (s.itable i).ref - 1 }
  lock : (s'.itable i).lock = none ∨ (s'.itable i).lock = (s.itable i).lock
  files : ∀ n, n < s.sb.ninodes → Unchanged s s' n ∨
    n = (s.itable i).inum ∧ (s.dinode n).nlink = 0 ∧ ¬ Live s'.sb n (s'.dinode n)
  /-- The last reference to an inode without links frees it, and nothing else does. -/
  freed : if (s.itable i).ref = 1 ∧ (s.itable i).valid = true ∧ (s.itable i).d.nlink = 0
    then ¬ Live s'.sb (s.itable i).inum (s'.dinode (s.itable i).inum) else s'.blocks = s.blocks
  consistent : Consistent s'

/-- An inode that nobody links to any more has been freed. -/
structure Dropped (s s' : State) (i : Fin NINODE) : Prop where
  sb : s'.sb = s.sb
  me : s'.me = s.me
  others : ∀ j, j ≠ i → s'.itable j = s.itable j
  entry : ∃ d, s'.itable i = { s.itable i with lock := none, valid := false, d := d }
  files : ∀ n, n < s.sb.ninodes → n ≠ (s.itable i).inum → Unchanged s s' n
  dead : ¬ Live s'.sb (s.itable i).inum (s'.dinode (s.itable i).inum)
  consistent : Consistent s'

lemma clearType_spec (h : Consistent s) (hi : Held s i) (hzero : ∀ c, s.disk ((s.itable i).inum, c) = 0) :
    wp (do
      setDinode i fun d => { d with type := 0 }
      iupdate i
      setInode i fun ip => { ip with valid := false }
      releasesleep i) (fun _ s' => Dropped s s' i) E s := by
  have hl := h.liveAt hi
  rw [wp_bind, wp_setDinode, wp_bind]
  have hent : (s.setInode i fun ip => { ip with d := { ip.d with type := 0 } }).itable i =
      { s.itable i with d := { (s.itable i).d with type := 0 } } := setInode_itable_self
  -- the inode is no longer allocated, and had no references
  have hown : (s.setInode i fun ip => { ip with d := { ip.d with type := 0 } }).own i = s.disk := by
    funext ⟨n, c⟩
    by_cases hn : n = (s.itable i).inum
    · rw [hn, hzero, own, refs_of_not_live]
      rw [view, hent, update_self]
      exact fun hlive => hlive.2.2 rfl
    · refine refs_congr rfl (fun _ _ => view_of_ne ?_) (fun _ _ => rfl) c
      rw [hent]
      exact hn
  have ho : Owns (s.setInode i fun ip => { ip with d := { ip.d with type := 0 } })
      ((s.setInode i fun ip => { ip with d := { ip.d with type := 0 } }).own i) := by
    rw [hown]
    exact h.owns.setInode i _
  refine (iupdate_spec (s := s.setInode i _) h.layout (by rw [hent]; exact hl.2.1)).post
    fun _ s₁ hs => ?_
  rw [wp_bind, wp_setInode, releasesleep, wp_setInode, setInode_setInode]
  have hdinode (n) (hn : n < s.sb.ninodes) (hne : n ≠ (s.itable i).inum) :
      s₁.dinode n = s.dinode n := by
    rw [hs.dinode n hn, view_of_ne (by rw [hent]; exact hne)]
    rfl
  have hothers (j) (hj : j ≠ i) : s₁.itable j = s.itable j := by
    rw [hs.itable, setInode_itable_of_ne hj]
  have hent' : (s₁.setInode i fun ip => { ip with valid := false, lock := none }).itable i =
      { s.itable i with lock := none, valid := false, d := { (s.itable i).d with type := 0 } } := by
    rw [setInode_itable_self, hs.itable, hent]
  refine ⟨hs.sb, hs.me, fun j hj => (setInode_itable_of_ne hj).trans (hothers j hj), ⟨_, hent'⟩,
    fun n hn hne => ⟨hdinode n hn hne, fun bn => ?_, fun k => ?_⟩, fun hlive => ?_, ?_⟩
  · change fileBlock s₁.disk n bn = _
    rw [hs.disk ho, hown]
  · change s₁.byte n k = _
    rw [hs.byte ho, hown]
    rfl
  · have hd := hs.dinode _ hl.2.1
    rw [view, hent, update_self] at hd
    refine hlive.2.2 ?_
    change (s₁.dinode _).type = 0
    rw [hd]
  · refine h.frame hi.1 ((hs.owns ho).setInode i _) hs.sb
      (fun j hj => (setInode_itable_of_ne hj).trans (hothers j hj)) ?_ ?_ hdinode fun hheld => ?_
    · rw [hent']
    · rw [hent']
    · rw [Held, hent'] at hheld
      cases hheld.2

lemma iputFree_spec (h : Consistent s) (hi : Held s i) (hE : E .blocked) :
    wp (iputFree i) (fun _ s' => Dropped s s' i) E s := by
  rw [iputFree, wp_bind]
  refine (acquiresleep_spec (.inr hE)).post fun _ s₁ hs1 => ?_
  obtain ⟨-, rfl⟩ := hs1
  have hent : (s.setInode i fun ip => { ip with lock := some s.me.pid }).itable i =
      { s.itable i with lock := some s.me.pid } := setInode_itable_self
  have hi1 : Held (s.setInode i fun ip => { ip with lock := some s.me.pid }) i := by
    rw [Held, hent]
    exact hi
  rw [wp_bind]
  refine (itrunc_spec (h.setInode rfl rfl rfl rfl id) hi1).post fun _ s₂ hs2 => ?_
  obtain ⟨hc2, hf, -, hzero⟩ := hs2
  have hinum := hf.inum
  rw [← hinum] at hzero
  rw [hent] at hinum
  refine (clearType_spec hc2 (hf.held hi1) hzero).post fun _ s' hd => ?_
  obtain ⟨d2, e2⟩ := hf.entry
  obtain ⟨d, e⟩ := hd.entry
  refine ⟨hd.sb.trans hf.sb, hd.me.trans hf.me, fun j hj => ?_, ⟨d, ?_⟩, fun n hn hne => ?_, ?_, hd.consistent⟩
  · rw [hd.others j hj, hf.others j hj, setInode_itable_of_ne hj]
  · rw [e, e2, hent]
  · refine ((Unchanged.setInode ..).trans (hf.files n hn ?_)).trans (hd.files n (hf.sb ▸ hn) (hinum ▸ hne))
    rw [hent]
    exact hne
  · have := hd.dead
    rwa [hinum] at this

/-- Dropping a reference that is not the last one to an inode without links. -/
lemma iput_drops (hk : ¬ ((s.itable i).ref = 1 ∧ (s.itable i).valid = true ∧ (s.itable i).d.nlink = 0)) :
    wp (iput i)
      (fun _ s' => s' = s.setInode i fun ip => { ip with ref := ip.ref - 1 }) E s := by
  rw [iput, wp_bind, wp_inode, wp_bind, if_neg hk]
  rfl

/-- Dropping a reference that is not the last one to a valid entry. -/
lemma iput_kept (hk : (s.itable i).ref ≠ 1 ∨ (s.itable i).valid = false) : wp (iput i)
      (fun _ s' => s' = s.setInode i fun ip => { ip with ref := ip.ref - 1 }) E s := by
  refine iput_drops ?_
  rintro ⟨h1, h2, -⟩
  rcases hk with hk | hk
  · exact hk h1
  · rw [hk] at h2
    cases h2

/-- **Dropping a reference.** -/
lemma iput_spec (h : Consistent s) (hr : 0 < (s.itable i).ref) (hE : E .blocked) :
    wp (iput i) (fun _ s' => Put s s' i) E s := by
  rw [iput, wp_bind, wp_inode, wp_bind]
  refine wp_ite (fun hlast => ?_) fun _ => ?_
  · refine (iputFree_spec h ⟨hr, hlast.2.1⟩ hE).post fun _ s₁ hd => ?_
    obtain ⟨d, e⟩ := hd.entry
    have href : (s₁.itable i).ref = (s.itable i).ref := by rw [e]
    rw [wp_setInode]
    refine ⟨hd.sb, hd.me, fun j hj => (setInode_itable_of_ne hj).trans (hd.others j hj), ?_, ?_,
      fun hgt => ?_, ?_, fun n hn => ?_, ?_, ?_⟩
    · rw [setInode_itable_self, e]
    · rw [setInode_itable_self, e]
    · have := hlast.1
      omega
    · rw [setInode_itable_self, e]
      exact .inl rfl
    · by_cases hne : n = (s.itable i).inum
      · refine .inr ⟨hne, ?_, hne ▸ hd.dead⟩
        rw [hne, ← (h.synced i ⟨hr, hlast.2.1⟩).2]
        exact hlast.2.2
      · exact .inl ((hd.files n hn hne).trans (.setInode ..))
    · rw [if_pos hlast]
      exact hd.dead
    · exact hd.consistent.setInode rfl rfl rfl rfl fun _ => by rw [href]; exact hr
  · rw [wp_pure, wp_setInode]
    refine ⟨rfl, rfl, fun _ => setInode_itable_of_ne, ?_, ?_, fun _ => ?_, .inr ?_,
      fun n _ => .inl (.setInode ..), ?_, h.setInode rfl rfl rfl rfl fun _ => hr⟩
    all_goals first | rw [setInode_itable_self] | rw [if_neg ‹_›]
    rfl

lemma idup_spec (h : Consistent s) (hr : 0 < (s.itable i).ref) : wp (idup i) (fun j s' => j = i ∧
      s' = s.setInode i (fun ip => { ip with ref := ip.ref + 1 }) ∧ Consistent s') E s := by
  rw [idup, wp_bind, wp_setInode, wp_pure]
  exact ⟨rfl, rfl, h.setInode rfl rfl rfl rfl fun _ => hr⟩

/-! ### Allocating an inode -/

/-- Inode `n`, which was free, has been allocated and has got entry `j`. -/
structure Fresh (s s' : State) (type : Int16) (n : Nat) (j : Fin NINODE) : Prop where
  range : 0 < n ∧ n < s.sb.ninodes
  was_free : (s.dinode n).type = 0
  sb : s'.sb = s.sb
  me : s'.me = s.me
  others : ∀ j', j' ≠ j → s'.itable j' = s.itable j'
  inum : (s'.itable j).inum = n
  /-- Nobody has read the entry from disk. -/
  not_held : ¬ Held s j
  not_valid : (s'.itable j).valid = false
  entry : 0 < (s.itable j).ref ∧
      s'.itable j = { s.itable j with ref := (s.itable j).ref + 1 } ∨
    (s.itable j).ref = 0 ∧ (s'.itable j).ref = 1
  lock : (s'.itable j).lock = (s.itable j).lock
  dinode : s'.dinode n = .blank type
  empty : ∀ c, s'.disk (n, c) = 0
  files : ∀ m, m < s.sb.ninodes → m ≠ n → Unchanged s s' m
  consistent : Consistent s'

lemma slot_blank (blocks : Nat → Block) (type : Int16) (c : Slot) : slot blocks (.blank type) c = 0 := by
  cases c with
  | addr k => rfl
  | entry j => rfl

section

variable (h : Consistent s)

include h

lemma blank_disk (hn : n < s.sb.ninodes) (type : Int16) (hfree : (s.dinode n).type = 0) :
    (s.poke (s.sb.IBLOCK n) fun data => putDinode data (n % IPB) (.blank type)).disk = s.disk := by
  funext ⟨m, c⟩
  by_cases hm : m = n
  · have hnot : ¬ Live s.sb m (s.dinode m) := fun hl => hl.2.2 (hm ▸ hfree)
    rw [disk, disk, refs_of_not_live hnot, refs, dinode_poke_putDinode, hm,
      update_self, slot_blank, ite_self]
  · simp only [disk]
    refine refs_congr poke_sb (fun _ _ => ?_) (fun hl h0 => ?_) c
    · rw [dinode_poke_putDinode, update_of_ne hm]
    · have hind : s.disk (m, .addr (Fin.last NDIRECT)) = (s.dinode m).ind := refs_of_live hl _
      rw [← hind] at h0 ⊢
      exact (poke_iblock h.layout hn _).2 _ (h.owns.exact.mem _ h0)

lemma ialloc_blank (hn : n < s.sb.ninodes) (type : Int16) (hfree : (s.dinode n).type = 0)
    (hs : s' = s.poke (s.sb.IBLOCK n) fun data => putDinode data (n % IPB) (.blank type)) :
    Consistent s' ∧ ∀ m, m ≠ n → Unchanged s s' m := by
  obtain ⟨hbit, hsame⟩ := poke_iblock h.layout hn fun data => putDinode data (n % IPB) (.blank type)
  have hdinode (m) (hm : m ≠ n) : s'.dinode m = s.dinode m := by
    rw [hs, dinode_poke_putDinode, update_of_ne hm]
  have hdisk := blank_disk h hn type hfree
  rw [← hs] at hdisk hbit hsame
  have hsb : s'.sb = s.sb := by rw [hs, poke_sb]
  have hit : s'.itable = s.itable := by rw [hs, poke_itable]
  refine ⟨⟨?_, fun j hj => ?_, ?_, ?_⟩, fun m hm => ?_⟩
  · exact h.owns.congr hsb (fun c _ => hbit c) fun r => congrFun hdisk r
  · rw [Held, hit] at hj
    obtain ⟨hl, hd⟩ := h.synced j hj
    have hne : (s.itable j).inum ≠ n := fun e => hl.2.2 (by rw [hd, e, hfree])
    rw [State.LiveAt, hit, hsb, hdinode _ hne]
    exact ⟨hl, hd⟩
  · rw [hit]
    exact h.unique
  · rw [hit]
    exact h.dev
  · exact unchanged_of_refs (hdinode m hm) (fun c => congrFun hdisk (m, c))
      fun c h0 => hsame _ (h.owns.exact.mem _ h0)

/-- Another process runs: the file system is as it was. -/
lemma Consistent.sched (p : Proc) : Consistent { s with me := p } :=
  ⟨⟨h.owns.layout, h.owns.exact, h.owns.reserved⟩, h.synced, h.unique, h.dev⟩

lemma Consistent.logged (b : Nat) : Consistent (s.logged b) :=
  ⟨h.owns.logged b, h.synced, h.unique, h.dev⟩

end

lemma Unchanged.logged (h : Unchanged s s' n) (b : Nat) : Unchanged s (s'.logged b) n :=
  ⟨h.dinode, h.block, h.byte⟩

lemma ialloc_spec (h : Consistent s) (type : Int16) (hE : E (.panic "iget: no inodes")) :
    wp (ialloc ROOTDEV type) (fun r s' => (r = none ∧ s' = s) ∨ ∃ n j, r = some j ∧ Fresh s s' type n j) E s := by
  simp only [ialloc, wp_bind, wp_reads]
  refine wp_search (fun ns s' => s' = s ∧ ∀ n ∈ ns, 0 < n ∧ n < s.sb.ninodes) ⟨rfl, fun n hn => ?_⟩ ?_ ?_
  · obtain ⟨h1, h2⟩ := mem_range'_1.mp hn
    omega
  · rintro n ns t ⟨rfl, hns⟩
    obtain ⟨h0, hn⟩ := hns n mem_cons_self
    rw [wp_bind, wp_bread]
    refine wp_ite (fun hfree => ?_) fun _ => ?_
    · simp only [wp_bind, wp_poke, wp_logWrite, wp_pure]
      have hfree : (t.dinode n).type = 0 := hfree
      obtain ⟨hc, hfiles⟩ := ialloc_blank h hn type hfree rfl
      refine (iget_spec (hc.logged _) n hE).post fun j s' hg => .inr ⟨n, j, rfl, ?_⟩
      have hdisk := (disk_congr hg.sb hg.blocks).trans (blank_disk h hn type hfree)
      -- a valid entry would be a copy of an allocated inode
      have hnot : ¬ Held t j := by
        intro hheld
        rcases hg.entry with ⟨-, e⟩ | ⟨h0, -⟩
        · have hinum := hg.inum
          rw [e] at hinum
          obtain ⟨hl, hd⟩ := h.synced j hheld
          exact hl.2.2 (by rw [hd, show (t.itable j).inum = n from hinum, hfree])
        · exact hheld.1.ne' h0
      refine ⟨⟨h0, hn⟩, hfree, hg.sb, hg.me, hg.others, hg.inum, hnot, ?_,
        hg.entry.imp_right fun he => ⟨he.1, he.2.1⟩, hg.lock, ?_, fun c => ?_,
        fun m _ hm => ((hfiles m hm).logged _).trans (.of_blocks hg.sb hg.blocks m), hg.consistent⟩
      · rcases hg.entry with ⟨hpos, e⟩ | ⟨-, -, hv⟩
        · rw [e]
          exact Bool.not_eq_true _ ▸ fun hv => hnot ⟨hpos, hv⟩
        · exact hv
      · rw [dinode_congr hg.sb hg.blocks, dinode_logged, dinode_poke_putDinode, update_self]
      · rw [hdisk]
        exact refs_of_not_live (fun hl => hl.2.2 hfree) c
    · exact ⟨rfl, fun m hm => hns m (mem_cons_of_mem _ hm)⟩
  · rintro t ⟨rfl, -⟩
    exact .inl ⟨rfl, rfl⟩

end Table

end FypOs.Fs
