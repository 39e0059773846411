import FypOs.Fs.Space
import FypOs.Fs.Renames

/-!
# Fs — a directory is a finite map

`dirlink`, `dirunlink` and the way `sys_unlink` clears an entry, as operations on a map from names to inode numbers.

* `directory_is_map`: so does every sequence of them.
-/

namespace FypOs.Fs

open Lib Prog

variable {E : Stop → Prop} {s s₁ s₂ s' : State} {i j : Fin NINODE} {m : Nat}

/-- A locked directory without holes, with distinct names. -/
structure Directory (s : State) (i : Fin NINODE) : Prop where
  consistent : Consistent s
  held : Held s i
  type : (s.dinode (s.itable i).inum).type = T_DIR
  holeFree : HoleFree s (s.itable i).inum
  whole : DIRENTSZ ∣ (s.dinode (s.itable i).inum).size.toNat
  distinct : Distinct (s.slots (s.itable i).inum)

/-- The map that the directory stands for. -/
def State.dir (s : State) (i : Fin NINODE) : List UInt8 → Option Nat := dirMap (s.slots (s.itable i).inum)

/-- There is an entry that is not in use, or room for one behind the last. -/
def State.Room (s : State) (i : Fin NINODE) : Prop :=
  FreeSlot (s.slots (s.itable i).inum) ∨ s.RoomAt i (s.itable i).d.size.toNat

/-! ### The operations -/

inductive DirOp where
  | link (name : Name) (inum : Nat)
  | unlink (name : Name)
  | clear (name : Name)

/-- How `sys_unlink` removes an entry: it looks the name up, and writes zero bytes over what it has found. -/
def lookupClear (i : Fin NINODE) (name : Name) : FsM Int := do
  match ← dirlookup i name with
  | none => pure (-1)
  | some (ip, off) => do
    let r ← writeDirent i off fun _ => 0
    if r ≠ DIRENTSZ then .panic "unlink: writei"
    else do
      iput ip
      pure 0

def DirOp.exec (i : Fin NINODE) : DirOp → FsM Int
  | .link name inum => dirlink i name inum
  | .unlink name => dirunlink i name
  | .clear name => lookupClear i name

/-- An inode number is not zero, and has 16 bits. -/
def DirOp.Fits : DirOp → Prop
  | .link _ inum => 0 < inum ∧ inum < 65536
  | _ => True

/-- A name is removed from the map `m`. -/
def Removes (m : List UInt8 → Option Nat) (x : List UInt8) (r : Int) (m' : List UInt8 → Option Nat) : Prop :=
  m x ≠ none ∧ r = 0 ∧ m' = Function.update m x none ∨ m x = none ∧ r = -1 ∧ m' = m

/-- **The operations on the map**, when there is room for another name or there is not. -/
def DirOp.Does (room : Prop) (m : List UInt8 → Option Nat) : DirOp → Int → (List UInt8 → Option Nat) → Prop
  | .link name inum, r, m' =>
    (m (nameStr name) = none ∧ room) ∧ r = 0 ∧ m' = Function.update m (nameStr name) (some inum) ∨
    ¬ (m (nameStr name) = none ∧ room) ∧ r = -1 ∧ m' = m
  | .unlink name, r, m' => Removes m (nameStr name) r m'
  | .clear name, r, m' => Removes m (nameStr name) r m'

/-! ### What keeps a directory -/

/-- The directory is one still, and no reference has been left. -/
structure DirKept (s s' : State) (i : Fin NINODE) : Prop where
  dir : Directory s' i
  inum : (s'.itable i).inum = (s.itable i).inum
  ref : ∀ j, (s'.itable j).ref = (s.itable j).ref

namespace Directory

section

variable (h : Directory s i)

include h

lemma size_eq : (s.itable i).d.size = (s.dinode (s.itable i).inum).size := by
  rw [(h.consistent.synced i h.held).2]

lemma type_eq : (s.itable i).d.type = T_DIR := by
  rw [(h.consistent.synced i h.held).2]
  exact h.type

lemma unchanged (hc : Consistent s') (hi : Held s' i)
    (hinum : (s'.itable i).inum = (s.itable i).inum) (hu : Unchanged s s' (s.itable i).inum) :
    Directory s' i ∧ s'.dir i = s.dir i := by
  refine ⟨⟨hc, hi, ?_, ?_, ?_, ?_⟩, ?_⟩
  · rw [hinum, hu.dinode]
    exact h.type
  · rw [hinum]
    exact hu.holeFree h.holeFree
  · rw [hinum, hu.dinode]
    exact h.whole
  · rw [hinum, hu.slots]
    exact h.distinct
  · rw [State.dir, State.dir, hinum, hu.slots]

lemma quiet (hq : Quiet s s') : DirKept s s' i ∧ s'.dir i = s.dir i := by
  have hkept := hq.kept i h.held.1
  have hinum : (s'.itable i).inum = (s.itable i).inum := by rw [hkept]
  have hi : Held s' i := by
    rw [Held, hkept]
    exact h.held
  obtain ⟨hdir, hmap⟩ := h.unchanged hq.consistent hi hinum (.of_blocks hq.sb hq.blocks _)
  exact ⟨⟨hdir, hinum, hq.ref⟩, hmap⟩

lemma written {de : Block} {k tot : Nat} (he : EntryWritten s s' i de (k * DIRENTSZ) tot)
    {l : List Dirent} (hl : l = if tot = DIRENTSZ then splice (s.slots (s.itable i).inum) k [direntOf de]
      else s.slots (s.itable i).inum) (hdist : Distinct l) : DirKept s s' i ∧ s'.dir i = dirMap l := by
  have hf := he.written.frame
  have hslots := he.slots h.held h.consistent h.whole
  rw [Nat.mul_div_cancel _ (by decide), ← hl] at hslots
  obtain ⟨a, size, hd, hsize⟩ := he.written.inode
  have hdin := hf.dinode h.held he.written.consistent
  refine ⟨⟨⟨he.written.consistent, hf.held h.held, ?_, ?_, ?_, ?_⟩, hf.inum, hf.ref⟩, ?_⟩
  · rw [hf.inum, hdin, hd]
    exact h.type_eq
  · rw [hf.inum]
    exact he.written.holeFree h.held h.consistent h.holeFree he.le he.max
  · rw [hf.inum, hdin, hd, hsize, h.size_eq]
    have hwhole := h.whole
    have htot := he.whole
    simp only [DIRENTSZ] at hwhole htot ⊢
    omega
  · rw [hf.inum, hslots]
    exact hdist
  · rw [State.dir, hf.inum, hslots]

/-! ### Looking a name up -/

/-- **`dirlookup` reads the map.** -/
lemma lookup (hfree : ∃ j, (s.itable j).ref = 0) (name : Name) : wp (dirlookup i name) (fun r s' =>
      (r = none ∧ s' = s ∧ s.dir i (nameStr name) = none) ∨
      ∃ j k m, r = some (j, k * DIRENTSZ) ∧ (k + 1) * DIRENTSZ ≤ (s.itable i).d.size.toNat ∧
        (s.slots (s.itable i).inum)[k]? = some (m, nameStr name) ∧ m ≠ 0 ∧
        s.dir i (nameStr name) = some m ∧ Got s s' m j) E s := by
  refine (dirlookup_finds h.consistent h.held h.holeFree name (.inl h.type_eq)
    (fun _ => .inl (by rw [h.size_eq]; exact h.whole)) fun _ _ _ => .inl (.inr hfree)).post fun r s' hr => ?_
  obtain ⟨-, ⟨rfl, rfl, hno⟩ | ⟨j, k, rfl, hle, hfirst, hg⟩⟩ := hr
  · exact .inl ⟨rfl, rfl, dirMap_eq_none.mpr (findSlot_of_noMatch hno)⟩
  · obtain ⟨hne, hname⟩ := matches_iff.mp hfirst.1
    have hk : (s.slots (s.itable i).inum)[k]? = some (direntInum (s.entry (s.itable i).inum (k * DIRENTSZ)), nameStr name) := by
      rw [slots_getElem? (by rw [← h.size_eq]; exact hle), ← hname]
      rfl
    exact .inr ⟨j, k, _, rfl, hle, hk, hne, h.distinct.dirMap_of_entry hk hne, hg⟩

end

end Directory

/-! ### Adding a name -/

section

variable (h : Directory s i)

include h

/-- The entry that `dirlink` takes can be written if there is room. -/
lemma Directory.room_iff {k : Nat} (hk : FirstVacant s (s.itable i).inum k) :
    s.RoomAt i (k * DIRENTSZ) ↔ s.Room i := by
  have hiff := hk.freeSlot_iff h.whole
  have hD : DIRENTSZ = 16 := rfl
  by_cases hin : (k + 1) * DIRENTSZ ≤ (s.dinode (s.itable i).inum).size.toNat
  · refine iff_of_true ?_ (.inl (hiff.mpr hin))
    have hmax := h.holeFree.size
    have hlt : k * DIRENTSZ < (s.dinode (s.itable i).inum).size.toNat := by
      rw [hD] at hin ⊢
      omega
    refine ⟨h.size_eq ▸ hlt.le, by rw [Nat.succ_mul] at hin; omega, ?_⟩
    rw [State.need, if_pos (h.holeFree.byte hlt)]
    exact Nat.zero_le _
  · -- the entry is the one behind the last
    have heq : k * DIRENTSZ = (s.itable i).d.size.toNat := by
      rw [h.size_eq]
      have hwhole := h.whole
      have hbefore : k ≠ 0 → (k - 1) * DIRENTSZ < (s.dinode (s.itable i).inum).size.toNat := fun h0 =>
        (hk.before (k - 1) (by omega)).1
      rw [hD] at hin hwhole hbefore ⊢
      omega
    rw [State.Room, hiff, heq]
    exact ⟨.inr, fun hroom => hroom.resolve_left hin⟩

lemma Directory.link (hfree : ∃ j, (s.itable j).ref = 0) (name : Name) {inum : Nat}
    (hinum : 0 < inum ∧ inum < 65536) :
    wp (dirlink i name inum) (fun r s' =>
      DirKept s s' i ∧ (DirOp.link name inum).Does (s.Room i) (s.dir i) r (s'.dir i)) E s := by
  have hsize := h.size_eq
  have hwhole := h.whole
  refine wp_dirlink h.consistent h.held h.holeFree name inum (.inl h.type_eq)
    (fun _ => .inl (by rw [hsize]; exact hwhole)) (fun _ _ _ => .inl (.inr hfree)) (fun _ k s' hle hfirst hq => ?_)
    fun _ hno k hlt hk => ?_
  · -- the name is there
    obtain ⟨hkept, hmap⟩ := h.quiet hq
    refine ⟨hkept, .inr ⟨fun hroom => ?_, rfl, hmap⟩⟩
    have hfind := findSlot_of_firstMatch hfirst (by rw [← hsize]; exact hle)
    rw [dirMap_eq_none.mp hroom.1] at hfind
    cases hfind
  · have hnew : s.dir i (nameStr name) = none := dirMap_eq_none.mpr (findSlot_of_noMatch hno)
    have hroom := h.room_iff hk
    refine ((writeDirent_exact h.consistent h.held (Nat.mul_mod_left ..) hlt _).and
      (writeDirent_spec (E := E) h.consistent h.held (Nat.mul_mod_left ..) hlt _)).post fun r s' hr => ?_
    obtain ⟨hiff, hw⟩ := hr
    rw [hroom] at hiff
    by_cases hr : r = DIRENTSZ
    · rw [if_neg (not_not.mpr hr)]
      rcases hw with ⟨e, -⟩ | ⟨tot, e, he⟩
      · rw [e] at hr
        cases hr
      · have htot : tot = DIRENTSZ := Int.natCast_inj.mp (e.symm.trans hr)
        have hv : VacantIn (s.slots (s.itable i).inum) k := vacantIn_of_vacant hk.vacant (by rw [← hsize]; exact he.le)
        have hde : direntOf (mkDirent name inum) = (inum, nameStr name) := by
          rw [direntOf, direntInum_mkDirent, nameStr_mkDirent, Nat.mod_eq_of_lt (show inum < 2 ^ 16 from hinum.2)]
        obtain ⟨hd, hadd⟩ := h.distinct.add (n := inum) hv hnew
        obtain ⟨hkept, hmap⟩ := h.written he (by rw [if_pos htot, hde]) hd
        refine ⟨hkept, .inl ⟨⟨hnew, hiff.mp hr⟩, rfl, ?_⟩⟩
        rw [hmap]
        funext y
        rw [hadd (by omega), Function.update_apply]
        rfl
    · rw [if_pos hr]
      have hno : ¬ (s.dir i (nameStr name) = none ∧ s.Room i) := fun hroom => hr (hiff.mpr hroom.2)
      rcases hw with ⟨-, rfl, -⟩ | ⟨tot, e, he⟩
      · exact ⟨⟨h, rfl, fun _ => rfl⟩, .inr ⟨hno, rfl, rfl⟩⟩
      · have htot : tot ≠ DIRENTSZ := fun e' => hr (by rw [e, e'])
        obtain ⟨hkept, hmap⟩ := h.written he (by rw [if_neg htot]) h.distinct
        exact ⟨hkept, .inr ⟨hno, rfl, hmap⟩⟩

/-! ### Removing a name -/

lemma Directory.remove {de : Block} {k m : Nat} {x : List UInt8}
    (he : EntryWritten s s' i de (k * DIRENTSZ) DIRENTSZ) (hde : direntInum de = 0)
    (hk : (s.slots (s.itable i).inum)[k]? = some (m, x)) (hm : m ≠ 0) :
    DirKept s s' i ∧ Removes (s.dir i) x 0 (s'.dir i) := by
  have hof : direntOf de = (0, nameStr (direntName de)) := by rw [direntOf, hde]
  obtain ⟨hd, hrem⟩ := h.distinct.remove (z := nameStr (direntName de)) hk hm
  obtain ⟨hkept, hmap⟩ := h.written he (by rw [if_pos rfl, hof]) hd
  have hsome : s.dir i x = some m := h.distinct.dirMap_of_entry hk hm
  refine ⟨hkept, .inl ⟨by rw [hsome]; exact Option.some_ne_none _, rfl, ?_⟩⟩
  rw [hmap]
  funext y
  rw [hrem, Function.update_apply]
  rfl

lemma Directory.unlink (name : Name) :
    wp (dirunlink i name) (fun r s' => DirKept s s' i ∧ Removes (s.dir i) (nameStr name) r (s'.dir i)) E s := by
  have hsize := h.size_eq
  refine (dirunlink_spec h.consistent h.held h.holeFree name (.inl (by rw [hsize]; exact h.whole))).post fun r s' hr => ?_
  rcases hr with ⟨rfl, rfl, hno⟩ | ⟨k, rfl, hle, hm, -, he⟩
  · refine ⟨⟨h, rfl, fun _ => rfl⟩, .inr ⟨dirMap_eq_none.mpr (findSlot_of_noMatch fun k hk hm => ?_), rfl, rfl⟩⟩
    rw [← hsize] at hk
    exact hno k hk (removable_iff.mpr hm)
  · obtain ⟨hne, hname⟩ := matches_iff.mp (removable_iff.mp hm)
    refine h.remove he (direntInum_clear _) (m := direntInum (s.entry (s.itable i).inum (k * DIRENTSZ))) ?_ hne
    rw [slots_getElem? (by rw [← hsize]; exact hle), ← hname]
    rfl

lemma Directory.got (hg : Got s s₁ m j) :
    Directory s₁ i ∧ s₁.dir i = s.dir i ∧ (s₁.itable i).inum = (s.itable i).inum := by
  obtain ⟨r, e⟩ := hg.entry_eq h.held.1
  have hinum : (s₁.itable i).inum = (s.itable i).inum := by rw [e]
  have hpos : 0 < (s₁.itable i).ref := by
    by_cases hij : i = j
    · exact hij ▸ hg.ref_pos
    · rw [hg.others i hij]
      exact h.held.1
  have hi : Held s₁ i := ⟨hpos, by rw [e]; exact h.held.2⟩
  obtain ⟨hdir, hmap⟩ := h.unchanged hg.consistent hi hinum (.of_blocks hg.sb hg.blocks _)
  exact ⟨hdir, hmap, hinum⟩

end

lemma Got.ref_eq (h : Got s s₁ m j) : (s₁.itable j).ref = (s.itable j).ref + 1 := by
  rcases h.entry with ⟨-, e⟩ | ⟨h0, e, -⟩
  · rw [e]
  · rw [e, h0]
    rfl

/-- The reference is dropped again, once an entry has been written. -/
lemma Directory.put (h : Directory s i) (hg : Got s s₁ m j) (hf : Frame s₁ s₂ i) (hk : DirKept s₁ s₂ i) :
    wp (iput j) (fun _ s' => DirKept s s' i ∧ s'.dir i = s₂.dir i) E s₂ := by
  have hnew : (s₂.itable j).ref ≠ 1 ∨ (s₂.itable j).valid = false := by
    rw [hk.ref j]
    rcases hg.entry with ⟨hpos, e⟩ | ⟨h0, -, hv⟩
    · rw [e]
      refine .inl fun e' => ?_
      dsimp only at e'
      omega
    · have hij : j ≠ i := fun e => by
        have := h.held.1
        rw [← e] at this
        omega
      rw [hf.others j hij]
      exact .inr hv
  refine (iput_kept hnew).post fun _ s' hs => ?_
  subst hs
  have href (k : Fin NINODE) : ((s₂.setInode j fun ip => { ip with ref := ip.ref - 1 }).itable k).ref =
      (s.itable k).ref := by
    by_cases hkj : k = j
    · subst hkj
      rw [setInode_itable_self]
      show (s₂.itable k).ref - 1 = _
      rw [hk.ref k, hg.ref_eq]
      omega
    · rw [setInode_itable_of_ne hkj, hk.ref k, hg.others k hkj]
  have hent : ((s₂.setInode j fun ip => { ip with ref := ip.ref - 1 }).itable i).inum = (s₂.itable i).inum ∧
      ((s₂.setInode j fun ip => { ip with ref := ip.ref - 1 }).itable i).valid = (s₂.itable i).valid := by
    by_cases hij : i = j
    · subst hij
      rw [setInode_itable_self]
      exact ⟨rfl, rfl⟩
    · rw [setInode_itable_of_ne hij]
      exact ⟨rfl, rfl⟩
  have hc : Consistent (s₂.setInode j fun ip => { ip with ref := ip.ref - 1 }) :=
    hk.dir.consistent.setInode rfl rfl rfl rfl fun _ => hk.ref j ▸ hg.ref_pos
  obtain ⟨hdir, hmap⟩ := hk.dir.unchanged hc ⟨by rw [href]; exact h.held.1, by rw [hent.2]; exact hk.dir.held.2⟩
    hent.1 (.setInode ..)
  exact ⟨⟨hdir, hent.1.trans (hk.inum.trans (h.got hg).2.2), href⟩, hmap⟩

lemma Directory.clear (h : Directory s i) (hfree : ∃ j, (s.itable j).ref = 0) (name : Name) :
    wp (lookupClear i name) (fun r s' => DirKept s s' i ∧ Removes (s.dir i) (nameStr name) r (s'.dir i)) E s := by
  rw [lookupClear, wp_bind]
  refine (h.lookup hfree name).post fun r s₁ hr => ?_
  rcases hr with ⟨rfl, rfl, hnone⟩ | ⟨j, k, m, rfl, hle, hk, hm, -, hg⟩
  · exact wp_pure.mpr ⟨⟨h, rfl, fun _ => rfl⟩, .inr ⟨hnone, rfl, rfl⟩⟩
  · obtain ⟨h1, hmap, hinum⟩ := h.got hg
    have hu : Unchanged s s₁ (s.itable i).inum := .of_blocks hg.sb hg.blocks _
    rw [h.size_eq, ← hu.dinode, ← hinum, ← h1.size_eq] at hle
    rw [← hu.slots, ← hinum] at hk
    dsimp only
    rw [wp_bind]
    refine (writeDirent_over h1.consistent h1.held h1.holeFree (Nat.mul_mod_left ..)
      (by rw [← Nat.succ_mul]; exact hle) _).post fun r s₂ hr => ?_
    obtain ⟨rfl, he⟩ := hr
    obtain ⟨hkept, hrem⟩ := h1.remove he rfl hk hm
    rw [if_neg (not_not.mpr rfl), wp_bind]
    refine (h.put hg he.written.frame hkept).post fun _ s' hs => wp_pure.mpr ⟨hs.1, ?_⟩
    rw [hs.2, ← hmap]
    exact hrem

/-! ### Sequences of operations -/

/-- **Each operation on the directory is the operation on the map.** -/
lemma DirOp.maps (h : Directory s i) (hfree : ∃ j, (s.itable j).ref = 0) (op : DirOp) (hop : op.Fits) :
    wp (op.exec i) (fun r s' => DirKept s s' i ∧ op.Does (s.Room i) (s.dir i) r (s'.dir i)) E s := by
  cases op with
  | link name inum => exact h.link hfree name hop
  | unlink name => exact h.unlink name
  | clear name => exact h.clear hfree name

/-- An operation as a step of the file system. -/
def dirStep (i : Fin NINODE) (s : State) (op : DirOp) : Outcome State := (op.exec i s).map Prod.snd

/-- **A directory is a finite map**, as long as an entry of the inode table is free: after every sequence of
operations a lookup finds what the map has under the name, and the next operation does what it does on the map. -/
theorem directory_is_map (s t : State) (i : Fin NINODE) (h : Directory s i) (hfree : ∃ j, (s.itable j).ref = 0)
    (ht : Reach (dirStep i) (fun _ op => op.Fits) s t) :
    Directory t i ∧ (t.itable i).inum = (s.itable i).inum ∧ (∀ name, ∃ r t', dirlookup i name t = .ok (r, t') ∧
      r.map (fun found => (t'.itable found.1).inum) = t.dir i (nameStr name)) ∧
    ∀ op : DirOp, op.Fits → ∃ r t', op.exec i t = .ok (r, t') ∧ op.Does (t.Room i) (t.dir i) r (t'.dir i) := by
  obtain ⟨hdir, hinum, hfree⟩ := ht.invariant (I := fun t => Directory t i ∧
      (t.itable i).inum = (s.itable i).inum ∧ ∃ j, (t.itable j).ref = 0) ⟨h, rfl, hfree⟩ fun {t op t'} hI hop hstep => by
    obtain ⟨⟨r, u⟩, hrun, rfl⟩ := Outcome.map_eq_ok hstep
    obtain ⟨hk, -⟩ := (op.maps (E := fun _ => False) hI.1 hI.2.2 hop).ok hrun
    obtain ⟨j, hj⟩ := hI.2.2
    exact ⟨hk.dir, hk.inum.trans hI.2.1, j, (hk.ref j).trans hj⟩
  refine ⟨hdir, hinum, fun name => ?_, fun op hop => ?_⟩
  · obtain ⟨r, t', hrun, hr⟩ := (hdir.lookup hfree name).returns
    refine ⟨r, t', hrun, ?_⟩
    rcases hr with ⟨rfl, -, hnone⟩ | ⟨j, k, m, rfl, -, -, -, hsome, hg⟩
    · exact hnone.symm
    · rw [hsome, Option.map_some, hg.inum]
  · obtain ⟨r, t', hrun, -, hdoes⟩ := (op.maps hdir hfree hop).returns
    exact ⟨r, t', hrun, hdoes⟩

/-! ### A sample -/

lemma Sound.directory (h : Sound s) (hi : Held s i) (hdir : (s.itable i).d.type = T_DIR)
    (hd : Distinct (s.tree (s.itable i).inum).slots) : Directory s i := by
  have hsynced := (h.consistent.synced i hi).2
  have htype := hdir
  rw [hsynced] at htype
  refine ⟨h.consistent, hi, htype, (h.fileOk hi).toHoleFree, ((h.fileOk hi).dir htype).whole, ?_⟩
  rwa [h.tree_dir hi hdir] at hd

lemma slotFs_directory : Directory slotFs 0 :=
  slotFs_orderly.sound.directory (by decide +kernel) (by decide +kernel) (slotFs_orderly.distinct _)

/-- `a` is removed. -/
theorem directory_is_map_slot : ∃ s', dirunlink 0 (cstr [97]) slotFs = .ok (0, s') ∧
    s'.dir 0 = Function.update (slotFs.dir 0) [97] none := by
  have hfree : ∃ j, (slotFs.itable j).ref = 0 := by decide +kernel
  obtain ⟨-, -, -, hop⟩ := directory_is_map slotFs slotFs 0 slotFs_directory hfree .refl
  obtain ⟨r, s', hrun, hdoes⟩ := hop (.unlink (cstr [97])) trivial
  have hstr : nameStr (cstr [97]) = [97] := by decide
  have hsome : slotFs.dir 0 [97] ≠ none := by decide +kernel
  rcases hdoes with ⟨-, rfl, hmap⟩ | ⟨hnone, -⟩
  · exact ⟨s', hrun, hstr ▸ hmap⟩
  · exact absurd (hstr ▸ hnone) hsome

/-- **No entry of the inode table is free**: the lookup of a name that the directory has does not return. -/
theorem crowded_lookup : Directory (crowd 49) 0 ∧ (crowd 49).dir 0 [97] = some 2 ∧
    dirlookup 0 (cstr [97]) (crowd 49) = .panic "iget: no inodes" :=
  ⟨(crowd_sound (.inr rfl)).directory (by decide +kernel) (by decide +kernel) ((crowd_orderly (.inr rfl)).distinct _),
    by decide +kernel, Outcome.eq_panic_of_stops (by decide +kernel)⟩

end FypOs.Fs
