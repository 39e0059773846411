import FypOs.Fs.Sound

/-!
# Fs — the tree of files

What the file system is for: inodes with a type and a count of links, some of them directories with
named entries.  `State.tree` reads this off the blocks of the disk.
-/

namespace FypOs.Fs

open Lib Function List

/-! ### Names -/

/-- The string in the first `n` bytes. -/
def strOf (p : Name) : Nat → List UInt8
  | 0 => []
  | n + 1 => if p 0 = 0 then [] else p 0 :: strOf (fun j => p (j + 1)) n

/-- The string in a name. -/
def nameStr (name : Name) : List UInt8 := strOf name DIRSIZ

variable {s s' : State} {p q : Name} {n : Nat}

/-- Only the bytes up to the first zero count. -/
lemma strOf_congr (h : ∀ j < n, (∀ k < j, p k ≠ 0) → p j = q j) : strOf p n = strOf q n := by
  induction n generalizing p q with
  | zero => rfl
  | succ n ih =>
    have h0 : p 0 = q 0 := h 0 n.succ_pos nofun
    rw [strOf, strOf, ← h0]
    split
    · rfl
    · rename_i hne
      rw [ih fun j hj hk => h (j + 1) (Nat.succ_lt_succ hj) fun k hkj => ?_]
      cases k with
      | zero => exact hne
      | succ k => exact hk k (Nat.lt_of_succ_lt_succ hkj)

lemma strncmp_eq_zero : strncmp p q n = 0 ↔ strOf p n = strOf q n := by
  induction n generalizing p q with
  | zero => simp [strncmp, strOf]
  | succ n ih =>
    rw [strncmp, strOf, strOf]
    by_cases he : p 0 = q 0
    · by_cases hz : p 0 = 0
      · rw [if_neg fun h => h.1 hz, if_pos hz, if_pos (he ▸ hz), he]
        simp
      · rw [if_pos ⟨hz, he⟩, if_neg hz, if_neg (he ▸ hz), ih, he]
        simp
    · rw [if_neg fun h => he h.2]
      have hne : ((p 0).toNat : Int) - (q 0).toNat ≠ 0 := fun h => he (UInt8.toNat_inj.mp (by omega))
      refine ⟨fun h => absurd h hne, fun h => ?_⟩
      split at h <;> split at h
      · rename_i hp hq
        exact absurd (hp.trans hq.symm) he
      · cases h
      · cases h
      · exact absurd (List.cons.inj h).1 he

lemma namecmp_eq_zero {s t : Name} : namecmp s t = 0 ↔ nameStr s = nameStr t := strncmp_eq_zero

/-- The name in the entry that `dirlink` writes. -/
lemma nameStr_mkDirent (name : Name) (inum : Nat) :
    nameStr (direntName (mkDirent name inum)) = nameStr name := by
  refine (strOf_congr fun j hj hk => ?_).symm
  have hput : mkDirent name inum (2 + j) = strncpy name DIRSIZ j := by
    rw [mkDirent, putLE, if_neg (by omega), Nat.add_sub_cancel_left]
  rw [direntName, if_pos hj, hput, strncpy]
  by_cases hz : name j = 0
  · rw [if_neg fun h => h.2 j (Nat.le_refl j) hz, hz]
  · have hne : ∀ k ≤ j, name k ≠ 0 := fun k hkj => by
      rcases Nat.lt_or_eq_of_le hkj with hlt | rfl
      · exact hk k hlt
      · exact hz
    rw [if_pos ⟨hj, hne⟩]

lemma direntInum_mkDirent (name : Name) (inum : Nat) :
    direntInum (mkDirent name inum) = inum % 2 ^ 16 := getLE_putLE ..

/-- Clearing the inode number leaves the name. -/
lemma direntName_clear (de : Block) : direntName (putLE 2 0 0 de) = direntName de := by
  funext j
  rw [direntName, direntName]
  split
  · rw [putLE, if_neg (by omega)]
  · rfl

/-! ### Entries -/

/-- An entry of a directory: an inode, none if it is zero, and a name. -/
abbrev Dirent := Nat × List UInt8

def direntOf (de : Block) : Dirent := (direntInum de, nameStr (direntName de))

/-- The entries of directory `n`. -/
def State.slots (s : State) (n : Nat) : List Dirent :=
  (List.range ((s.dinode n).size.toNat / DIRENTSZ)).map fun k => direntOf (s.entry n (k * DIRENTSZ))

lemma direntOf_congr {de de' : Block} (h : ∀ j < DIRENTSZ, de j = de' j) : direntOf de = direntOf de' := by
  have hinum : direntInum de = direntInum de' :=
    getLE_congr fun j _ hj => h j (by simp only [DIRENTSZ]; omega)
  have hname : direntName de = direntName de' := by
    funext j
    rw [direntName, direntName]
    split
    · refine h (2 + j) ?_
      rename_i hj
      simp only [DIRSIZ] at hj
      simp only [DIRENTSZ]
      omega
    · rfl
  rw [direntOf, direntOf, hinum, hname]

lemma length_slots (s : State) (n : Nat) : (s.slots n).length = (s.dinode n).size.toNat / DIRENTSZ := by
  rw [State.slots, length_map, length_range]

lemma getElem?_slots (s : State) (n k : Nat) : (s.slots n)[k]? =
    if k < (s.dinode n).size.toNat / DIRENTSZ then some (direntOf (s.entry n (k * DIRENTSZ)))
    else none := by
  rw [State.slots, getElem?_map]
  split
  · rw [getElem?_range ‹_›]
    rfl
  · rw [List.getElem?_eq_none (by rw [length_range]; omega)]
    rfl

section

variable {s s₁ s' : State} {i j : Fin NINODE} {n m : Nat}

lemma Unchanged.slots (h : Unchanged s s' n) : s'.slots n = s.slots n := by
  rw [State.slots, State.slots, h.dinode]
  exact map_congr_left fun k _ => by rw [h.entry]

lemma EntryWritten.slots {de : Block} {off tot : Nat} (hi : Held s i) (hc : Consistent s)
    (hwhole : DIRENTSZ ∣ (s.dinode (s.itable i).inum).size.toNat) (he : EntryWritten s s' i de off tot) :
    s'.slots (s.itable i).inum = if tot = DIRENTSZ
      then splice (s.slots (s.itable i).inum) (off / DIRENTSZ) [direntOf de]
      else s.slots (s.itable i).inum := by
  obtain ⟨a, size, hd', hsize⟩ := he.written.inode
  have hdin : (s'.dinode (s.itable i).inum).size = size := by
    rw [he.written.frame.dinode hi he.written.consistent, hd']
  rw [(hc.synced i hi).2, ← hdin] at hsize
  have hle := he.le
  have haligned := he.aligned
  have htot : tot = DIRENTSZ ∨ tot = 0 := he.whole.imp_right And.left
  rw [(hc.synced i hi).2] at hle
  have hD : DIRENTSZ = 16 := rfl
  rw [hD] at hwhole haligned htot
  have hentry (k) : direntOf (s'.entry (s.itable i).inum (k * DIRENTSZ)) =
      if k = off / DIRENTSZ ∧ tot = DIRENTSZ then direntOf de
      else direntOf (s.entry (s.itable i).inum (k * DIRENTSZ)) := by
    have hmod : k * DIRENTSZ % DIRENTSZ = 0 := Nat.mul_mod_left ..
    have hiff : k * DIRENTSZ = off ∧ tot = DIRENTSZ ↔ k = off / DIRENTSZ ∧ tot = DIRENTSZ := by
      rw [hD]
      omega
    split
    · refine direntOf_congr fun j hj => ?_
      rw [he.entry hmod hj, if_pos (hiff.mpr ‹_›)]
    · refine direntOf_congr fun j hj => ?_
      rw [he.entry hmod hj, if_neg (mt hiff.mp ‹_›)]
  refine ext_getElem? fun k => ?_
  rw [getElem?_slots, hsize, hentry]
  by_cases hfull : tot = DIRENTSZ
  · rw [if_pos hfull, getElem?_splice_one (by rw [length_slots, hD]; omega), getElem?_slots, hfull, hD]
    simp only [and_true]
    split_ifs <;> first | rfl | omega
  · have hne : ¬ (k = off / DIRENTSZ ∧ tot = DIRENTSZ) := fun h => hfull h.2
    rw [if_neg hfull, if_neg hne, getElem?_slots, htot.resolve_left hfull, Nat.add_zero, Nat.max_eq_left hle]

end

/-! ### Looking entries up -/

/-- The first entry in use under the name. -/
def findSlot (l : List Dirent) (name : List UInt8) : Option Nat :=
  l.findIdx? fun x => x.1 ≠ 0 ∧ x.2 = name

variable {l : List Dirent} {name : List UInt8}

lemma findSlot_eq_none : findSlot l name = none ↔ ∀ (k n : Nat), l[k]? = some (n, name) → n = 0 := by
  rw [findSlot, findIdx?_eq_none_iff]
  constructor
  · intro h k n hk
    by_contra hn
    have := h _ (mem_of_getElem? hk)
    exact of_decide_eq_false this ⟨hn, rfl⟩
  · rintro h ⟨n, nm⟩ hx
    obtain ⟨k, hk⟩ := mem_iff_getElem?.mp hx
    refine decide_eq_false fun ⟨hn, e⟩ => hn (h k n ?_)
    rw [hk, show nm = name from e]

lemma findSlot_eq_some {k : Nat} : findSlot l name = some k ↔ (∃ n, n ≠ 0 ∧ l[k]? = some (n, name)) ∧
      ∀ j < k, ∀ n, l[j]? = some (n, name) → n = 0 := by
  rw [findSlot, findIdx?_eq_some_iff_getElem]
  constructor
  · rintro ⟨hlt, hk, hbefore⟩
    obtain ⟨hn, e⟩ := of_decide_eq_true hk
    refine ⟨⟨l[k].1, hn, ?_⟩, fun j hj n hget => ?_⟩
    · rw [List.getElem?_eq_getElem hlt]
      exact congrArg some (Prod.ext rfl e)
    · by_contra hn
      obtain ⟨hlt', e⟩ := List.getElem?_eq_some_iff.mp hget
      refine hbefore j hj (decide_eq_true ?_)
      rw [e]
      exact ⟨hn, rfl⟩
  · rintro ⟨⟨n, hn, hk⟩, hbefore⟩
    obtain ⟨hlt, e⟩ := List.getElem?_eq_some_iff.mp hk
    refine ⟨hlt, decide_eq_true (by rw [e]; exact ⟨hn, rfl⟩), fun j hj hd => ?_⟩
    obtain ⟨hne, e⟩ := of_decide_eq_true hd
    refine hne (hbefore j hj _ ?_)
    rw [List.getElem?_eq_getElem (hj.trans hlt)]
    exact congrArg some (Prod.ext rfl e)

/-- Entry `k` is not in use, or the one behind the last. -/
def VacantIn (l : List Dirent) (k : Nat) : Prop := k ≤ l.length ∧ ∀ x, l[k]? = some x → x.1 = 0

/-- No entry but the first two is in use. -/
def EmptyDir (l : List Dirent) : Prop := ∀ k x, 2 ≤ k → l[k]? = some x → x.1 = 0

/-- The entries in use are `.`, for the inode `n` itself, and `..`. -/
def Bare (n : Nat) (l : List Dirent) : Prop :=
  ∀ (k m : Nat) (x : List UInt8), l[k]? = some (m, x) → m ≠ 0 → x = nameStr dot ∧ m = n ∨ x = nameStr dotdot

lemma Bare.splice {n k m : Nat} {x : List UInt8} (h : Bare n l) (hk : k ≤ l.length)
    (hx : x = nameStr dot ∧ m = n ∨ x = nameStr dotdot) : Bare n (splice l k [(m, x)]) := by
  intro j m' x' hj
  rw [getElem?_splice_one hk] at hj
  split at hj
  · cases hj
    exact fun _ => hx
  · exact h j m' x' hj

/-- An entry under another name is written, where none is in use. -/
lemma findSlot_splice {k k' : Nat} {x : Dirent}
    (hk : VacantIn l k) (hx : x.2 ≠ name) (h : findSlot l name = some k') :
    k' ≠ k ∧ findSlot (splice l k [x]) name = some k' := by
  obtain ⟨⟨n, hn, hget⟩, hbefore⟩ := findSlot_eq_some.mp h
  have hne : k' ≠ k := by
    rintro rfl
    exact hn (hk.2 _ hget)
  refine ⟨hne, findSlot_eq_some.mpr ⟨⟨n, hn, ?_⟩, fun j hj m hm => ?_⟩⟩
  · rw [getElem?_splice_one hk.1, if_neg hne, hget]
  · rw [getElem?_splice_one hk.1] at hm
    split at hm
    · cases hm
      exact absurd rfl hx
    · exact hbefore j hj m hm

section

variable {s : State} {n k : Nat} {name : Name}

lemma matches_iff {de : Block} : Matches name de ↔ (direntOf de).1 ≠ 0 ∧ (direntOf de).2 = nameStr name := by
  rw [Matches, namecmp_eq_zero, eq_comm (a := nameStr name)]
  rfl

lemma removable_iff {de : Block} : Removable name de ↔ Matches name de := by
  rw [Removable, Matches, namecmp, strncmp_eq_zero, strncmp_eq_zero, and_comm, eq_comm (a := strOf name DIRSIZ)]

lemma slots_getElem? (hk : (k + 1) * DIRENTSZ ≤ (s.dinode n).size.toNat) :
    (s.slots n)[k]? = some (direntOf (s.entry n (k * DIRENTSZ))) := by
  rw [getElem?_slots, if_pos]
  have hD : DIRENTSZ = 16 := rfl
  rw [hD] at hk ⊢
  omega

lemma findSlot_of_noMatch (h : NoMatch s n name) : findSlot (s.slots n) (nameStr name) = none := by
  refine findIdx?_eq_none_iff.mpr fun x hx => ?_
  obtain ⟨k, hk, rfl⟩ := mem_map.mp hx
  have hk := mem_range.mp hk
  refine decide_eq_false fun hm => h k ?_ (matches_iff.mpr hm)
  have hD : DIRENTSZ = 16 := rfl
  rw [hD] at hk ⊢
  omega

lemma findSlot_of_firstMatch (h : FirstMatch s n name k) (hk : (k + 1) * DIRENTSZ ≤ (s.dinode n).size.toNat) :
    findSlot (s.slots n) (nameStr name) = some k := by
  have hget (j) (hj : j ≤ k) : (s.slots n)[j]? = some (direntOf (s.entry n (j * DIRENTSZ))) :=
    slots_getElem? (Nat.le_trans (Nat.mul_le_mul_right _ (by omega)) hk)
  have hlt : k < (s.slots n).length := (List.getElem?_eq_some_iff.mp (hget k (Nat.le_refl k))).1
  refine findIdx?_eq_some_iff_getElem.mpr ⟨hlt, ?_, fun j hj => ?_⟩
  · rw [(List.getElem?_eq_some_iff.mp (hget k (Nat.le_refl k))).2]
    exact decide_eq_true (matches_iff.mp h.1)
  · rw [(List.getElem?_eq_some_iff.mp (hget j hj.le)).2, decide_eq_true_iff]
    exact fun hm => h.2 j hj (matches_iff.mpr hm)

lemma vacantIn_of_vacant (h : Vacant s n k) (hle : k * DIRENTSZ ≤ (s.dinode n).size.toNat) :
    VacantIn (s.slots n) k := by
  have hD : DIRENTSZ = 16 := rfl
  refine ⟨?_, fun x hx => ?_⟩
  · rw [length_slots]
    rw [hD] at hle ⊢
    omega
  · rcases h with ⟨hk, hz⟩ | hge
    · rw [slots_getElem? hk] at hx
      cases hx
      exact hz
    · rw [getElem?_slots, if_neg] at hx
      · cases hx
      · rw [hD] at hge ⊢
        omega

lemma emptyDir_slots : EmptyDir (s.slots n) ↔ ∀ k, 2 ≤ k →
    k < (s.dinode n).size.toNat / DIRENTSZ → direntInum (s.entry n (k * DIRENTSZ)) = 0 := by
  refine ⟨fun h k h2 hk => h k _ h2 (by rw [getElem?_slots, if_pos hk]), fun h k x h2 hx => ?_⟩
  rw [getElem?_slots] at hx
  split at hx
  · cases hx
    exact h k h2 ‹_›
  · cases hx

end

/-! ### The tree -/

/-- An inode: what it is, how often it is named, and its entries if it is a directory. -/
structure Node where
  type : Int16
  nlink : Int16
  slots : List Dirent
  deriving DecidableEq

/-- An inode that is not allocated. -/
def Node.free : Node := ⟨0, 0, []⟩

abbrev Tree := Nat → Node

def State.tree (s : State) : Tree := fun n =>
  if Live s.sb n (s.dinode n) then
    ⟨(s.dinode n).type, (s.dinode n).nlink, if (s.dinode n).type = T_DIR then s.slots n else []⟩
  else .free

namespace Tree

def set (T : Tree) (n : Nat) (nd : Node) : Tree := update T n nd

@[simp] lemma set_self (T : Tree) (n : Nat) (nd : Node) : T.set n nd n = nd :=
  update_self ..

lemma set_of_ne (T : Tree) {n m : Nat} (nd : Node) (h : m ≠ n) : T.set n nd m = T m :=
  update_of_ne h ..

lemma set_set (T : Tree) (n : Nat) (nd nd' : Node) : (T.set n nd).set n nd' = T.set n nd' :=
  update_idem ..

/-- Change the link count of an inode. -/
def setNlink (T : Tree) (n : Nat) (k : Int16) : Tree := T.set n { T n with nlink := k }

@[simp] lemma setNlink_nlink (T : Tree) (n : Nat) (k : Int16) : (T.setNlink n k n).nlink = k := by
  rw [setNlink, set_self]

lemma setNlink_setNlink (T : Tree) (n : Nat) (k k' : Int16) :
    (T.setNlink n k).setNlink n k' = T.setNlink n k' := by
  rw [setNlink, setNlink, set_self, set_set]
  rfl

lemma setNlink_eq_self {T : Tree} {n : Nat} {k : Int16} (h : (T n).nlink = k) : T.setNlink n k = T := by
  subst h
  exact update_eq_self ..

/-- Write entry `k` of a directory, or add one behind the last. -/
def setSlot (T : Tree) (d k : Nat) (x : Dirent) : Tree :=
  T.set d { T d with slots := splice (T d).slots k [x] }

/-- The inode that a directory has under a name. -/
def lookup (T : Tree) (d : Nat) (name : List UInt8) : Option Nat :=
  (findSlot (T d).slots name).bind fun k => (T d).slots[k]?.map Prod.fst

/-- Walk down a path from inode `n`, as `namex` does; with `parent`, to the directory of the last
element. -/
def walkFrom (T : Tree) (parent : Bool) : Nat → Nat → List UInt8 → Option (Nat × Name)
  | 0, n, _ => if parent then none else some (n, cstr [])
  | fuel + 1, n, path =>
    match skipelem path with
    | none => if parent then none else some (n, cstr [])
    | some (name, path) =>
      if (T n).type ≠ T_DIR then none
      else if parent = true ∧ path = [] then some (n, name)
      else
        match T.lookup n (nameStr name) with
        | none => none
        | some m => walkFrom T parent fuel m path

section

variable {T : Tree} {parent : Bool} {fuel n : Nat} {path path' : List UInt8} {name : Name}

lemma walkFrom_end (h : skipelem path = none) : T.walkFrom parent (fuel + 1) n path =
    if parent then none else some (n, cstr []) := by
  rw [walkFrom, h]

section

variable (h : skipelem path = some (name, path'))

include h

lemma walkFrom_file (hn : (T n).type ≠ T_DIR) : T.walkFrom parent (fuel + 1) n path = none := by
  simp only [walkFrom, h, if_pos hn]

lemma walkFrom_last (hn : (T n).type = T_DIR)
    (hlast : parent = true ∧ path' = []) : T.walkFrom parent (fuel + 1) n path = some (n, name) := by
  simp only [walkFrom, h, if_neg (not_not.mpr hn), if_pos hlast]

lemma walkFrom_dir (hn : (T n).type = T_DIR)
    (hlast : ¬ (parent = true ∧ path' = [])) : T.walkFrom parent (fuel + 1) n path =
      (T.lookup n (nameStr name)).bind fun m => T.walkFrom parent fuel m path' := by
  simp only [walkFrom, h, if_neg (not_not.mpr hn), if_neg hlast]
  cases T.lookup n (nameStr name) with
  | none => rfl
  | some m => rfl

end

lemma walkFrom_nil : T.walkFrom false fuel n [] = some (n, cstr []) := by
  cases fuel <;> rfl

/-- The path leads to what its last element names. -/
lemma walkFrom_of_parent {d : Nat} (h : T.walkFrom true fuel n path = some (d, name)) :
    T.walkFrom false fuel n path = (T.lookup d (nameStr name)).map fun m => (m, cstr []) := by
  induction fuel generalizing n path with
  | zero => cases h
  | succ fuel ih =>
    cases hskip : skipelem path with
    | none =>
      rw [walkFrom_end hskip] at h
      cases h
    | some e =>
      obtain ⟨nm, path'⟩ := e
      by_cases hdir : (T n).type = T_DIR
      · rw [walkFrom_dir hskip hdir (by simp)]
        by_cases hlast : path' = []
        · rw [walkFrom_last hskip hdir ⟨rfl, hlast⟩] at h
          cases h
          rw [hlast]
          cases T.lookup d (nameStr name) with
          | none => rfl
          | some m => exact walkFrom_nil
        · rw [walkFrom_dir hskip hdir fun h => hlast h.2] at h
          cases hl : T.lookup n (nameStr nm) with
          | none =>
            rw [hl] at h
            cases h
          | some m =>
            rw [hl] at h
            exact ih h
      · rw [walkFrom_file hskip hdir] at h
        cases h

end

/-- What a path leads to, for a process in the directory `cwd`. -/
def walk (T : Tree) (cwd : Nat) (path : List UInt8) (parent : Bool) : Option (Nat × Name) :=
  T.walkFrom parent path.length (if path.head? = some slash then ROOTINO else cwd) path

/-- Inodes without links may have been freed. -/
def Frees (T T' : Tree) : Prop := ∀ n, T' n = T n ∨ (T n).nlink = 0 ∧ T' n = .free

/-- What is still allocated looks the same to a path walk. -/
def Like (T T' : Tree) : Prop :=
  ∀ n, (T' n).type ≠ 0 → (T' n).type = (T n).type ∧ (T' n).slots = (T n).slots

end Tree

section

variable {s s₁ s' : State} {i j : Fin NINODE} {n m : Nat} {T T₁ T' : Tree}

lemma tree_of_live (h : Live s.sb n (s.dinode n)) : s.tree n =
    ⟨(s.dinode n).type, (s.dinode n).nlink, if (s.dinode n).type = T_DIR then s.slots n else []⟩ :=
  if_pos h

lemma tree_of_not_live (h : ¬ Live s.sb n (s.dinode n)) : s.tree n = .free := if_neg h

lemma tree_of_held (h : Consistent s) (hi : Held s i) : s.tree (s.itable i).inum =
    ⟨(s.itable i).d.type, (s.itable i).d.nlink,
      if (s.itable i).d.type = T_DIR then s.slots (s.itable i).inum else []⟩ := by
  obtain ⟨hl, hd⟩ := h.synced i hi
  rw [tree_of_live (by rw [← hd]; exact hl), hd]

namespace Tree.Frees

lemma refl (T : Tree) : T.Frees T := fun _ => .inl rfl

lemma trans (h1 : T.Frees T₁) (h2 : T₁.Frees T') : T.Frees T' := by
  intro n
  rcases h1 n with e1 | ⟨hz, e1⟩
  · rw [← e1]
    exact h2 n
  · rcases h2 n with e2 | ⟨-, e2⟩
    · exact .inr ⟨hz, e2.trans e1⟩
    · exact .inr ⟨hz, e2⟩

section

variable (h : T.Frees T')

include h

/-- An inode that is still allocated is as it was. -/
lemma eq_of_type (hn : (T' n).type ≠ 0) : T' n = T n :=
  (h n).resolve_right fun hf => hn (by rw [hf.2]; rfl)

lemma eq_of_nlink (hn : (T n).nlink ≠ 0) : T' n = T n :=
  (h n).resolve_right fun hf => hn hf.1

lemma eq_free (hn : T n = .free) : T' n = .free := by
  rcases h n with e | ⟨-, e⟩
  · rw [e, hn]
  · exact e

lemma like : T.Like T' := fun n hn => by
  rw [h.eq_of_type hn]
  exact ⟨rfl, rfl⟩

lemma set (nd : Node) : (T.set n nd).Frees (T'.set n nd) := by
  intro m
  by_cases hm : m = n
  · left
    rw [hm, Tree.set_self, Tree.set_self]
  · rw [T.set_of_ne nd hm, T'.set_of_ne nd hm]
    exact h m

lemma setNlink (hn : T' n = T n) (k : Int16) : (T.setNlink n k).Frees (T'.setNlink n k) := by
  rw [Tree.setNlink, Tree.setNlink, hn]
  exact h.set _

end

end Tree.Frees

lemma Tree.Like.refl (T : Tree) : T.Like T := fun _ _ => ⟨rfl, rfl⟩

lemma Tree.Like.trans (h1 : T.Like T₁) (h2 : T₁.Like T') : T.Like T' := fun n hn => by
  obtain ⟨ht, hs⟩ := h2 n hn
  obtain ⟨ht1, hs1⟩ := h1 n (ht ▸ hn)
  exact ⟨ht.trans ht1, hs.trans hs1⟩

lemma Tree.like_setNlink (T : Tree) (n : Nat) (k : Int16) : T.Like (T.setNlink n k) := by
  intro m _
  by_cases hm : m = n
  · rw [hm, Tree.setNlink, Tree.set_self]
    exact ⟨rfl, rfl⟩
  · rw [Tree.setNlink, T.set_of_ne _ hm]
    exact ⟨rfl, rfl⟩

/-! ### What the layers below do to it -/

lemma Unchanged.tree (h : Unchanged s s' n) (hsb : s'.sb = s.sb) : s'.tree n = s.tree n := by
  rw [State.tree, State.tree, hsb, h.dinode, h.slots]

lemma tree_of_blocks (hsb : s'.sb = s.sb) (hb : s'.blocks = s.blocks) : s'.tree = s.tree :=
  funext fun n => (Unchanged.of_blocks hsb hb n).tree hsb

/-- Only inodes of the file system are in the tree. -/
lemma tree_ext (hsb : s'.sb = s.sb) (h : ∀ n, n < s.sb.ninodes → s'.tree n = T n)
    (hT : ∀ n, ¬ n < s.sb.ninodes → T n = .free) : s'.tree = T := by
  funext n
  by_cases hn : n < s.sb.ninodes
  · exact h n hn
  · rw [hT n hn]
    exact tree_of_not_live fun hl => hn (hsb ▸ hl.2.1)

lemma tree_of_ge (hn : ¬ n < s.sb.ninodes) : s.tree n = .free :=
  tree_of_not_live fun hl => hn hl.2.1

lemma tree_update (hsb : s'.sb = s.sb) (hn : n < s.sb.ninodes)
    (hfiles : ∀ m, m < s.sb.ninodes → m ≠ n → Unchanged s s' m) {nd : Node} (hnd : s'.tree n = nd) :
    s'.tree = s.tree.set n nd := by
  refine tree_ext hsb (fun m hm => ?_) fun m hm => ?_
  · by_cases hmn : m = n
    · rw [hmn, Tree.set_self, hnd]
    · rw [Tree.set_of_ne _ _ hmn, (hfiles m hm hmn).tree hsb]
  · rw [Tree.set_of_ne _ _ fun e => hm (by rw [e]; exact hn), tree_of_ge hm]

lemma Got.tree (h : Got s s' n j) : s'.tree = s.tree := tree_of_blocks h.sb h.blocks

lemma Locked.tree (h : Locked s s' i) : s'.tree = s.tree := tree_of_blocks h.sb h.blocks

lemma Quiet.tree (h : Quiet s s') : s'.tree = s.tree := tree_of_blocks h.sb h.blocks

lemma tree_setInode (s : State) (i : Fin NINODE) (g : Inode → Inode) :
    (s.setInode i g).tree = s.tree := tree_of_blocks rfl rfl

/-- Dropping the last reference to an inode without links frees it. -/
lemma Put.tree (h : Put s s' i) : s.tree.Frees s'.tree := by
  intro n
  by_cases hn : n < s.sb.ninodes
  · rcases h.files n hn with hu | ⟨-, hz, hl⟩
    · exact .inl (hu.tree h.sb)
    · refine .inr ⟨?_, tree_of_not_live hl⟩
      rw [State.tree]
      split
      · exact hz
      · rfl
  · left
    rw [tree_of_ge hn, tree_of_ge (by rw [h.sb]; exact hn)]

lemma Fresh.tree {type : Int16} (h : Fresh s s' type n j) (htype : type ≠ 0) :
    s'.tree = s.tree.set n ⟨type, 0, []⟩ ∧ s.tree n = .free := by
  have hd : s'.dinode n = .blank type := h.dinode
  refine ⟨tree_update h.sb h.range.2 h.files ?_, tree_of_not_live fun hl => hl.2.2 h.was_free⟩
  have hslots : s'.slots n = [] := length_eq_zero_iff.mp (by rw [length_slots, hd]; exact Nat.zero_div _)
  rw [tree_of_live ⟨h.range.1, h.sb ▸ h.range.2, by rw [hd]; exact htype⟩, hslots, hd, ite_self]
  rfl

lemma Frame.tree (h : Sound s) (hi : Held s i) (hf : Frame s s' i) {nd : Node}
    (hnd : s'.tree (s.itable i).inum = nd) :
    s'.tree = s.tree.set (s.itable i).inum nd :=
  tree_update hf.sb (h.range i hi.1).2 hf.files hnd

lemma Frame.tree_eq (h : Sound s) (hi : Held s i) (hf : Frame s s' i) (hc : Consistent s')
    (htype : (s'.itable i).d.type = (s.itable i).d.type)
    (hnlink : (s'.itable i).d.nlink = (s.itable i).d.nlink) (hdir : (s.itable i).d.type ≠ T_DIR) :
    s'.tree = s.tree := by
  have hnd : s'.tree (s.itable i).inum = s.tree (s.itable i).inum := by
    rw [← hf.inum, tree_of_held hc (hf.held hi), hf.inum, tree_of_held h.consistent hi, htype, hnlink,
      if_neg hdir, if_neg hdir]
  rw [hf.tree h hi hnd, Tree.set, update_eq_self]

lemma EntryWritten.tree {de : Block} {off tot : Nat} (h : Sound s) (hi : Held s i)
    (hdir : (s.itable i).d.type = T_DIR) (he : EntryWritten s s' i de off tot) :
    s'.tree = if tot = DIRENTSZ then s.tree.setSlot (s.itable i).inum (off / DIRENTSZ) (direntOf de)
      else s.tree := by
  obtain ⟨a, size, hd, -⟩ := he.written.inode
  have hf := he.written.frame
  have hc := he.written.consistent
  have hok : DirOk s (s.itable i).inum := by
    refine (h.fileOk hi).dir ?_
    rw [← (h.consistent.synced i hi).2]
    exact hdir
  have hnd : s'.tree (s.itable i).inum = { s.tree (s.itable i).inum with
      slots := s'.slots (s.itable i).inum } := by
    rw [tree_of_held h.consistent hi, ← hf.inum, tree_of_held hc (hf.held hi), hd]
    simp only [hdir, if_true]
  rw [hf.tree h hi hnd, he.slots hi h.consistent hok.whole]
  split
  · rw [Tree.setSlot, tree_of_held h.consistent hi]
    simp only [hdir, if_true]
  · have hslots : (s.tree (s.itable i).inum).slots = s.slots (s.itable i).inum := by
      rw [tree_of_held h.consistent hi]
      simp only [hdir, if_true]
    rw [← hslots]
    exact update_eq_self ..

/-- Inode `n` is in the table, and has been read in. -/
def InTable (s : State) (n : Nat) : Prop := ∃ i, Held s i ∧ (s.itable i).inum = n

/-- Inode `n` is not allocated, or it is in the table. -/
def Anchored (s : State) (n : Nat) : Prop := s.tree n = .free ∨ InTable s n

end

/-! ### What the calls do to it -/

/-- What a call does to the tree: nothing, or it leaves a new inode without links behind, or it does
what it is for. -/
inductive TreeOp where
  | idle
  | spare (n : Nat) (nd : Node)
  /-- A new inode `n`, as entry `k` of directory `d`. -/
  | create (d k n : Nat) (name : List UInt8) (type : Int16)
  /-- A link to inode `n`, as entry `k` of directory `d`. -/
  | link (d k n : Nat) (name : List UInt8)
  /-- Entry `k` of directory `d`, which names inode `n`, is removed. -/
  | unlink (d k n : Nat) (name : List UInt8)
  /-- Inode `n` gets a new name, as entry `k` of directory `d`, and loses its old one, entry `k'`. -/
  | rename (d k k' n : Nat) (old new : List UInt8)

namespace TreeOp

/-- The first entries of a new inode. -/
def firstSlots (type : Int16) (d n : Nat) : List Dirent :=
  if type = T_DIR then [(n, nameStr dot), (d, nameStr dotdot)] else []

def apply (T : Tree) : TreeOp → Tree
  | idle => T
  | spare n nd => T.set n nd
  | create d k n name type =>
    let T₁ := (T.set n ⟨type, 1, firstSlots type d n⟩).setSlot d k (n, name)
    if type = T_DIR then T₁.setNlink d ((T d).nlink + 1) else T₁
  | link d k n name => (T.setNlink n ((T n).nlink + 1)).setSlot d k (n, name)
  | unlink d k n _ =>
    let T₁ := T.setSlot d k (0, [])
    let T₂ := if (T n).type = T_DIR then T₁.setNlink d ((T d).nlink - 1) else T₁
    T₂.setNlink n ((T n).nlink - 1)
  | rename d k k' n old new => (T.setSlot d k (n, new)).setSlot d k' (0, old)

/-- Directory `d` of the tree has room for the name at entry `k`. -/
structure Room (T : Tree) (d k : Nat) (name : List UInt8) : Prop where
  dir : (T d).type = T_DIR
  fresh : findSlot (T d).slots name = none
  vacant : VacantIn (T d).slots k

/-- Entry `k` of directory `d` of the tree names inode `n`. -/
structure Names (T : Tree) (d k n : Nat) (name : List UInt8) : Prop where
  dir : (T d).type = T_DIR
  find : findSlot (T d).slots name = some k
  entry : (T d).slots[k]? = some (n, name)
  node : (T n).type ≠ 0

def Enabled (T : Tree) : TreeOp → Prop
  | idle => True
  | spare n nd => T n = .free ∧ nd.nlink = 0 ∧ Bare n nd.slots
  | create d k n name type => T n = .free ∧ 0 < n ∧ type ≠ 0 ∧ Room T d k name
  | link d k n name => (T n).type ≠ 0 ∧ (T n).type ≠ T_DIR ∧ Room T d k name
  | unlink d k n name => Names T d k n name ∧ n ≠ d ∧ name ≠ nameStr dot ∧ name ≠ nameStr dotdot ∧
      1 ≤ (T n).nlink ∧ ((T n).type = T_DIR → EmptyDir (T n).slots)
  | rename d k k' n old new => Room T d k new ∧ Names T d k' n old ∧ n ≠ d

/-- The inode that may have lost its last link. -/
def dropped : TreeOp → Option Nat
  | spare n _ | unlink _ _ n _ => some n
  | _ => none

end TreeOp

/-- A call does `op` to the tree; inodes without links may be freed before and after. -/
structure Performs (s s' : State) (op : TreeOp) : Prop where
  tree : ∃ T, s.tree.Frees T ∧ op.Enabled T ∧ (op.apply T).Frees s'.tree
  anchored : ∀ n, op.dropped = some n → (s'.tree n).nlink = 0 → Anchored s' n

/-- What a call is asked to do to the tree. -/
inductive Request where
  | quiet
  | make (path : List UInt8) (type : Int16)
  | link (old new : List UInt8)
  | unlink (path : List UInt8)
  | rename (old new : List UInt8)

/-- The path leads to the name in directory `d`. -/
def Tree.Leads (T : Tree) (cwd : Nat) (path : List UInt8) (d : Nat) (name : List UInt8) : Prop :=
  ∃ nm, T.walk cwd path true = some (d, nm) ∧ name = nameStr nm

/-- What a call may do to the tree `T` that has been asked for, in the directory `cwd`. -/
def Request.Allows (T : Tree) (cwd : Nat) : Request → TreeOp → Prop
  | _, .idle => True
  | make _ _, .spare _ _ => True
  | make path type, .create d _ _ name type' => type' = type ∧ T.Leads cwd path d name
  | link old new, .link d _ n name =>
    (∃ nm, T.walk cwd old false = some (n, nm)) ∧ T.Leads cwd new d name
  | unlink path, .unlink d _ _ name => T.Leads cwd path d name
  | rename old new, .rename d _ _ _ old' new' => T.Leads cwd old d old' ∧ new' = nameStr (cstr new)
  | _, _ => False

/-- A call has done what it was asked to, or nothing. -/
def Meets (s s' : State) (req : Request) : Prop :=
  ∃ op, req.Allows s.tree (s.itable s.me.cwd).inum op ∧ Performs s s' op

lemma Performs.of_frees (h : s.tree.Frees s'.tree) : Performs s s' .idle :=
  ⟨⟨s.tree, .refl _, trivial, h⟩, nofun⟩

lemma Meets.of_frees (h : s.tree.Frees s'.tree) (req : Request) : Meets s s' req :=
  ⟨.idle, by cases req <;> trivial, .of_frees h⟩

end FypOs.Fs
