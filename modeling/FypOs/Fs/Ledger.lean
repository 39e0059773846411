import FypOs.Fs.Dir
import FypOs.Lib.Accounts

/-!
# Fs — the references and locks of the inode table

What a call does to the reference counts of the inode table and to the locks the running process
holds, in any state: that the table agrees with the disk, or the directories with anything, is not
asked for here.

The load of a state counts both.  For each function of the inode layer, and for each function built
on them, a lemma says how it changes the load.
-/

namespace FypOs.Fs

open Lib Prog Fs.State Fixes Pays

/-- What is counted: references and locks of entries of the inode table, and transactions. -/
inductive Token where
  | ref (i : Fin NINODE)
  | lock (i : Fin NINODE)
  | op
  deriving DecidableEq

/-- How many there are of each. -/
abbrev Load := Token → ℤ

namespace Load

def ref (i : Fin NINODE) : Load := Pi.single (.ref i) 1
def lock (i : Fin NINODE) : Load := Pi.single (.lock i) 1
def op : Load := Pi.single .op 1

lemma ref_apply (i j : Fin NINODE) : ref i (.ref j) = if i = j then 1 else 0 := by
  by_cases h : i = j
  · rw [if_pos h, h]
    exact Pi.single_eq_same ..
  · rw [if_neg h]
    exact Pi.single_eq_of_ne (fun e => h (Token.ref.inj e).symm) _

lemma op_ref (j : Fin NINODE) : op (.ref j) = 0 := rfl
lemma op_lock (j : Fin NINODE) : op (.lock j) = 0 := rfl
lemma op_op : op .op = 1 := rfl

end Load

/-- The references to each entry, and the locks that the running process holds. -/
def State.load (s : State) : Load
  | .ref j => (s.itable j).ref
  | .lock j => if (s.itable j).lock = some s.me.pid then 1 else 0
  | .op => 0

/-- What the load depends on. -/
def State.counts (s : State) : Proc × (Fin NINODE → Int × Option Nat) :=
  (s.me, fun i => ((s.itable i).ref, (s.itable i).lock))

section

variable {α : Type} {s s' : State} {i j : Fin NINODE} {a : Load} {g : Inode → Inode} {k : ℤ}

lemma load_of_counts (s s' : State) (h : s'.counts = s.counts) : s'.load = s.load := by
  obtain ⟨hme, htable⟩ := Prod.ext_iff.mp h
  have hentry (k) : (s'.itable k).ref = (s.itable k).ref ∧ (s'.itable k).lock = (s.itable k).lock :=
    Prod.ext_iff.mp (congrFun htable k)
  funext t
  cases t with
  | ref k => exact (hentry k).1
  | lock k =>
    change (if (s'.itable k).lock = some s'.me.pid then (1 : ℤ) else 0) = _
    rw [(hentry k).2, show s'.me = s.me from hme]
    rfl
  | op => rfl

lemma counts_setInode (s : State) (href : ∀ ip, (g ip).ref = ip.ref)
    (hlock : ∀ ip, (g ip).lock = ip.lock) : (s.setInode i g).counts = s.counts := by
  refine Prod.ext rfl (funext fun k => ?_)
  by_cases hk : k = i
  · subst hk
    simp [State.counts, State.setInode, href, hlock]
  · simp [State.counts, State.setInode, hk]

lemma load_ref (s : State) (href : (g (s.itable i)).ref = (s.itable i).ref + k)
    (hlock : (g (s.itable i)).lock = (s.itable i).lock) : (s.setInode i g).load = s.load + k • Load.ref i := by
  funext t
  cases t with
  | ref j =>
    by_cases hj : j = i
    · subst hj
      simp [State.load, State.setInode, Load.ref, href]
    · simp [State.load, State.setInode, Load.ref, hj]
  | lock j =>
    by_cases hj : j = i
    · subst hj
      simp [State.load, State.setInode, Load.ref, hlock]
    · simp [State.load, State.setInode, Load.ref, hj]
  | op => simp [State.load, Load.ref]

/-- What takes or lets go of the lock of one entry. -/
lemma load_lock (s : State) {l : Option Nat} (h : (if l = some s.me.pid then 1 else 0 : ℤ) =
      (if (s.itable i).lock = some s.me.pid then 1 else 0) + k) :
    (s.setInode i fun ip => { ip with lock := l }).load = s.load + k • Load.lock i := by
  funext t
  cases t with
  | ref j =>
    by_cases hj : j = i
    · subst hj
      simp [State.load, State.setInode, Load.lock]
    · simp [State.load, State.setInode, Load.lock, hj]
  | lock j =>
    by_cases hj : j = i
    · subst hj
      simp [State.load, State.setInode, Load.lock, h]
    · simp [State.load, State.setInode, Load.lock, hj]
  | op => simp [load, Load.lock]

/-- From any state, the program changes the load by `b r - a`. -/
abbrev Costs (a : Load) (m : FsM α) (b : α → Load) : Prop := Pays me load a m b

/-! ### What leaves the counts alone -/

lemma fixes_poke (b : Nat) (f : Block → Block) : Fixes counts (poke b f) :=
  fixes_modify fun _ => rfl

lemma fixes_logWrite (b : Nat) : Fixes counts (logWrite b) := fixes_modify fun _ => rfl

lemma fixes_setDinode (f : Dinode → Dinode) : Fixes counts (setDinode i f) :=
  fixes_modify fun s => counts_setInode s (fun _ => rfl) fun _ => rfl

lemma fixes_setAddr (k : Fin (NDIRECT + 1)) (b : Nat) : Fixes counts (setAddr i k b) :=
  fixes_modify fun s => counts_setInode s (fun _ => rfl) fun _ => rfl

lemma fixes_balloc : Fixes counts balloc := by
  refine fixes_reads.bind fun sb => (fixes_search (fun b => ?_) _).bind fun _ => fixes_pure
  refine fixes_reads.bind fun data => ?_
  split
  · refine (fixes_poke _ _).bind fun _ => (fixes_logWrite _).bind fun _ => ?_
    exact ((fixes_poke _ _).bind fun _ => fixes_logWrite _).bind fun _ => fixes_pure
  · exact fixes_pure

lemma fixes_bfree (b : Nat) : Fixes counts (bfree b) := by
  refine fixes_reads.bind fun sb => fixes_reads.bind fun data => fixes_ite fixes_panic ?_
  exact (fixes_poke _ _).bind fun _ => fixes_logWrite _

lemma fixes_iupdate : Fixes counts (iupdate i) :=
  fixes_reads.bind fun _ => fixes_reads.bind fun _ => (fixes_poke _ _).bind fun _ => fixes_logWrite _

lemma fixes_editInode (g : Dinode → Dinode) : Fixes counts (editInode i g) :=
  (fixes_setDinode g).bind fun _ => fixes_iupdate

lemma fixes_bmapAddr (k : Fin (NDIRECT + 1)) : Fixes counts (bmapAddr i k) := by
  refine fixes_reads.bind fun ip => fixes_ite (fixes_balloc.bind fun b => ?_) fixes_pure
  exact fixes_ite fixes_pure ((fixes_setAddr k b).bind fun _ => fixes_pure)

lemma fixes_bmapEntry (ind bn : Nat) : Fixes counts (bmapEntry ind bn) := by
  refine fixes_reads.bind fun a => fixes_ite (fixes_balloc.bind fun b => ?_) fixes_pure
  refine fixes_ite fixes_pure ((fixes_poke _ _).bind fun _ => ?_)
  exact (fixes_logWrite _).bind fun _ => fixes_pure

lemma fixes_bmap (bn : Nat) : Fixes counts (bmap i bn) := by
  rw [bmap]
  split
  · exact fixes_bmapAddr _
  · refine fixes_ite ((fixes_bmapAddr _).bind fun ind => ?_) fixes_panic
    exact fixes_ite fixes_pure (fixes_bmapEntry _ _)

lemma fixes_itruncAddr (k : Fin (NDIRECT + 1)) : Fixes counts (itruncAddr i k) :=
  fixes_reads.bind fun _ =>
    fixes_ite fixes_pure ((fixes_bfree _).bind fun _ => fixes_setAddr k 0)

lemma fixes_itrunc : Fixes counts (itrunc i) := by
  refine (fixes_forEach (fun k => fixes_itruncAddr _) _).bind fun _ => ?_
  refine bind ?_ fun _ => (fixes_setDinode _).bind fun _ => fixes_iupdate
  refine fixes_reads.bind fun ip => fixes_ite fixes_pure (bind ?_ fun _ => fixes_itruncAddr _)
  exact fixes_forEach (fun j => fixes_reads.bind fun a => fixes_ite fixes_pure (fixes_bfree _)) _

lemma fixes_readiLoop (dst : Nat → Bool) (off n fuel tot : Nat) (out : List UInt8) :
    Fixes counts (readiLoop i dst off n fuel tot out) := by
  induction fuel generalizing tot out with
  | zero => exact fixes_pure
  | succ fuel ih =>
    refine fixes_ite ((fixes_bmap _).bind fun addr => fixes_ite fixes_pure ?_) fixes_pure
    exact fixes_reads.bind fun data => fixes_ite fixes_pure (ih _ _)

lemma fixes_readi (dst : Nat → Bool) (off n : UInt32) : Fixes counts (readi i dst off n) :=
  fixes_reads.bind fun _ => fixes_ite fixes_pure (fixes_readiLoop _ _ _ _ _ _)

lemma fixes_writeiLoop (src : Nat → Option UInt8) (off n fuel tot : Nat) :
    Fixes counts (writeiLoop i src off n fuel tot) := by
  induction fuel generalizing tot with
  | zero => exact fixes_pure
  | succ fuel ih =>
    refine fixes_ite ((fixes_bmap _).bind fun addr => fixes_ite fixes_pure ?_) fixes_pure
    refine (fixes_poke _ _).bind fun _ => fixes_ite fixes_pure ?_
    exact (fixes_logWrite _).bind fun _ => ih _

lemma fixes_writei (src : Nat → Option UInt8) (off n : UInt32) : Fixes counts (writei i src off n) := by
  refine fixes_reads.bind fun ip => fixes_ite fixes_pure (fixes_ite fixes_pure ?_)
  refine (fixes_writeiLoop _ _ _ _ _).bind fun tot => (fixes_setDinode _).bind fun _ => ?_
  exact fixes_iupdate.bind fun _ => fixes_pure

lemma fixes_readDirent (off : Nat) (msg : String) : Fixes counts (readDirent i off msg) :=
  (fixes_readi _ _ _).bind fun _ => fixes_ite fixes_panic fixes_pure

lemma fixes_dirlinkSlot : Fixes counts (dirlinkSlot i) := by
  refine fixes_reads.bind fun dp => (fixes_search (fun off => ?_) _).bind fun _ => fixes_pure
  exact (fixes_readDirent off _).bind fun de => fixes_ite fixes_pure fixes_pure

lemma fixes_isdirempty : Fixes counts (isdirempty i) := by
  refine fixes_reads.bind fun dp => (fixes_search (fun off => ?_) _).bind fun _ => fixes_pure
  exact (fixes_readDirent off _).bind fun de => fixes_ite fixes_pure fixes_pure

lemma Fixes.pays {m : FsM α} (h : Fixes counts m) :
    Costs a m fun _ => a := pays_of_fixes h fun s s' e => ⟨(Prod.ext_iff.mp e).1, load_of_counts s s' e⟩

/-! ### The functions of the inode table -/

lemma acquiresleep_pays : Costs 0 (acquiresleep i) fun _ => .lock i := by
  intro s
  rw [acquiresleep, wp_bind, inode, wp_reads, wp_bind, wp_reads]
  refine wp_ite (fun h => ?_) fun _ => trivial
  refine ⟨rfl, ?_⟩
  rw [add_zero, load_lock s (k := 1) (by simp [h]), one_zsmul]

lemma load_release (h : (s.itable i).lock = some s.me.pid) :
    (s.setInode i fun ip => { ip with lock := none }).load + .lock i = s.load := by
  rw [load_lock s (k := -1) (by simp [h]), neg_one_zsmul, neg_add_cancel_right]

lemma iunlock_pays : Costs (.lock i) (iunlock i) fun _ => 0 := by
  intro s
  rw [iunlock, wp_bind, inode, wp_reads, wp_bind, wp_reads]
  refine wp_ite (fun _ => trivial) fun h => ?_
  rw [not_or, not_not] at h
  refine ⟨rfl, ?_⟩
  rw [load_release h.1, add_zero]

lemma ilock_pays : Costs 0 (ilock i) fun _ => .lock i := by
  refine pays_reads fun ip => pays_ite (fun _ => pays_panic) fun _ => ?_
  refine acquiresleep_pays.bind fun _ => ?_
  rw [sub_zero, zero_add]
  refine pays_ite (fun _ => pays_pure rfl) fun _ => Fixes.pays ?_
  refine fixes_reads.bind fun sb => fixes_reads.bind fun data => Fixes.bind ?_ fun _ =>
    fixes_ite fixes_panic fixes_pure
  exact fixes_modify fun s => counts_setInode s (fun _ => rfl) fun _ => rfl

lemma addRef_pays (k : ℤ) :
    Costs 0 (setInode i fun ip => { ip with ref := ip.ref + k }) fun _ => k • .ref i := by
  refine fun s => ⟨rfl, ?_⟩
  rw [add_zero]
  exact load_ref s rfl rfl

lemma idup_pays : Costs 0 (idup i) Load.ref :=
  (addRef_pays 1).bind fun _ => pays_pure (by rw [sub_zero, zero_add, one_zsmul])

lemma iget_pays (dev inum : Nat) : Costs 0 (iget dev inum) Load.ref := by
  intro s
  rw [iget, wp_bind, wp_reads]
  split
  · exact ((addRef_pays 1).bind fun _ => pays_pure (by rw [sub_zero, zero_add, one_zsmul])) s
  · split
    · next j hj =>
      have h0 : (s.itable j).ref = 0 := by simpa using List.find?_some hj
      refine ⟨rfl, ?_⟩
      rw [add_zero, load_ref s (k := 1) (by simp [h0]) rfl, one_zsmul]
    · trivial

lemma ialloc_pays (dev : Nat) (type : Int16) : Costs 0 (ialloc dev type) fun r => r.elim 0 .ref := by
  refine pays_reads fun sb => bind (Fixes.pays (a := 0) (fixes_search (fun inum => ?_) _)) ?_
  · refine fixes_reads.bind fun data => fixes_ite ?_ fixes_pure
    exact (fixes_poke _ _).bind fun _ => (fixes_logWrite _).bind fun _ => fixes_pure
  · intro found
    rw [sub_self, zero_add]
    cases found with
    | none => exact pays_pure rfl
    | some inum => exact (iget_pays dev inum).bind fun i => pays_pure (by simp)

/-- What `iput` does with the lock of the entry held. -/
def iputWork (i : Fin NINODE) : FsM Unit := do
  itrunc i
  setDinode i fun d => { d with type := 0 }
  iupdate i
  setInode i fun ip => { ip with valid := false }

lemma fixes_iputWork : Fixes counts (iputWork i) := by
  refine fixes_itrunc.bind fun _ => (fixes_setDinode _).bind fun _ => fixes_iupdate.bind fun _ => ?_
  exact fixes_modify fun s => counts_setInode s (fun _ => rfl) fun _ => rfl

lemma iputFree_eq : iputFree i = (acquiresleep i >>= fun _ => iputWork i >>= fun _ => releasesleep i) := by
  simp only [iputFree, iputWork, Prog.bind_assoc]

lemma iputFree_pays : Costs 0 (iputFree i) fun _ => 0 := by
  intro s
  rw [iputFree_eq, acquiresleep, wp_bind, wp_bind, inode, wp_reads, wp_bind, wp_reads]
  refine wp_ite (fun h => ?_) fun _ => trivial
  rw [setInode, wp_modify, wp_bind]
  refine (fixes_iputWork _).post fun _ s2 h2 => ?_
  obtain ⟨hme, htable⟩ := Prod.ext_iff.mp h2
  have hl : (s2.itable i).lock = some s2.me.pid := by
    rw [show (s2.itable i).lock = _ from (Prod.ext_iff.mp (congrFun htable i)).2,
      show s2.me = _ from hme]
    simp [State.counts, State.setInode]
  have hload := load_release hl
  rw [load_of_counts _ _ h2, load_lock s (k := 1) (by simp [h]), one_zsmul] at hload
  exact ⟨hme, congrArg (· + 0) (add_right_cancel hload)⟩

lemma iput_pays : Costs (.ref i) (iput i) fun _ => 0 := by
  refine pays_reads fun ip => bind (x := 0) (y := fun _ => 0) ?_ fun _ => ?_
  · exact pays_ite (fun _ => iputFree_pays) fun _ => pays_pure rfl
  · exact (addRef_pays (-1)).last fun _ => by simp

lemma iunlockput_pays : Costs (.ref i + .lock i) (iunlockput i) fun _ => 0 :=
  iunlock_pays.bind fun _ => iput_pays.last fun _ => by abel

/-! ### Directories and paths -/

/-- A reference to what a search has found. -/
def Load.found {β : Type} (r : Option (Fin NINODE × β)) : Load := r.elim 0 fun x => .ref x.1

lemma dirlookup_pays (name : Name) : Costs 0 (dirlookup i name) Load.found := by
  refine pays_reads fun dp => pays_ite (fun _ => pays_panic) fun _ => ?_
  refine pays_search (b := Load.found) (fun off => ?_) _
  refine (Fixes.pays (a := 0) (fixes_readDirent off _)).bind fun de => ?_
  rw [sub_zero, add_zero]
  refine pays_ite (fun _ => pays_pure rfl) fun _ => pays_ite (fun _ => ?_) fun _ => pays_pure rfl
  exact (iget_pays _ _).bind fun ip => pays_pure (by simp [Load.found])

lemma dirlink_pays (name : Name) (inum : Nat) : Costs 0 (dirlink i name inum) fun _ => 0 := by
  refine (dirlookup_pays name).bind fun r => ?_
  cases r with
  | some ip => exact iput_pays.bind fun _ => pays_pure (by simp [Load.found])
  | none =>
    refine last (x := 0) (y := fun _ => 0) (Fixes.pays ?_) fun _ => by simp [Load.found]
    exact fixes_dirlinkSlot.bind fun off => (fixes_writei _ _ _).bind fun r =>
      fixes_ite fixes_pure fixes_pure

lemma namexEnd_pays (parent : Bool) : Costs (.ref i) (namexEnd parent i) Load.found :=
  pays_ite (fun _ => iput_pays.bind fun _ => pays_pure (by simp [Load.found])) fun _ => pays_pure rfl

lemma namexLoop_pays (parent : Bool) (fuel : Nat) (path : List UInt8) :
    Costs (.ref i) (namexLoop parent fuel i path) Load.found := by
  induction fuel generalizing i path with
  | zero => exact namexEnd_pays parent
  | succ fuel ih =>
    rw [namexLoop]
    cases skipelem path with
    | none => exact namexEnd_pays parent
    | some e =>
      refine ilock_pays.bind fun _ => pays_reads fun ip => pays_ite (fun _ => ?_) fun _ =>
        pays_ite (fun _ => ?_) fun _ => (dirlookup_pays _).bind fun r => ?_
      · exact iunlockput_pays.bind fun _ => pays_pure (by simp [Load.found])
      · exact iunlock_pays.bind fun _ => pays_pure (by simp [Load.found])
      · cases r with
        | none => exact iunlockput_pays.bind fun _ => pays_pure (by simp [Load.found])
        | some next =>
          refine iunlockput_pays.bind fun _ => (ih _).last fun r => ?_
          simp only [Load.found, Option.elim_some]
          abel

lemma namex_pays (path : List UInt8) (parent : Bool) : Costs 0 (namex path parent) Load.found := by
  refine pays_reads fun p => bind (x := 0) (y := Load.ref) ?_ fun i =>
    (namexLoop_pays parent _ path).last fun r => by simp
  exact pays_ite (fun _ => iget_pays _ _) fun _ => idup_pays

lemma namei_pays (path : List UInt8) : Costs 0 (namei path) fun r => r.elim 0 .ref :=
  (namex_pays path false).bind fun r => pays_pure (by cases r <;> simp [Load.found])

/-! ### Creating -/

variable {dp ip : Fin NINODE}

/-- The references and the locks of both. -/
def Load.both (dp ip : Fin NINODE) : Load := .ref dp + .lock dp + (.ref ip + .lock ip)

/-- The reference and the lock that `create` returns. -/
def Load.locked (r : Option (Fin NINODE)) : Load := r.elim 0 fun ip => .ref ip + .lock ip

lemma createFail_pays : Costs (.both dp ip) (createFail dp ip) Load.locked := by
  refine (Fixes.pays (a := 0) (fixes_editInode _)).bind fun _ => iunlockput_pays.bind fun _ => ?_
  refine iunlockput_pays.bind fun _ => pays_pure ?_
  simp only [Load.both, Load.locked, Option.elim_none]
  abel

lemma createDots_pays : Costs 0 (createDots dp ip) fun _ => 0 := by
  refine pays_reads fun p => (dirlink_pays _ _).bind fun r => ?_
  rw [sub_zero, add_zero]
  refine pays_ite (fun _ => pays_pure rfl) fun _ => pays_reads fun q => ?_
  exact (dirlink_pays _ _).bind fun r => pays_pure (by simp)

lemma createEntry_pays (name : Name) (type : Int16) :
    Costs (.both dp ip) (createEntry dp ip name type) Load.locked := by
  refine pays_reads fun p => (dirlink_pays _ _).bind fun r => ?_
  rw [sub_zero, add_zero]
  refine pays_ite (fun _ => createFail_pays) fun _ => bind (x := 0) (y := fun _ => 0) ?_ fun _ => ?_
  · exact pays_ite (fun _ => Fixes.pays (fixes_editInode _)) fun _ => pays_pure rfl
  · refine iunlockput_pays.bind fun _ => pays_pure ?_
    simp only [Load.both, Load.locked, Option.elim_some]
    abel

lemma createNew_pays (name : Name) (type major minor : Int16) :
    Costs (.ref dp + .lock dp) (createNew dp name type major minor) Load.locked := by
  refine pays_reads fun q => (ialloc_pays _ _).bind fun r => ?_
  cases r with
  | none => exact iunlockput_pays.bind fun _ => pays_pure (by simp [Load.locked])
  | some ip =>
    refine ilock_pays.bind fun _ => (Fixes.pays (a := 0) (fixes_editInode _)).bind fun _ => ?_
    refine bind (x := 0) (y := fun _ => 0) ?_ fun dots => ?_
    · exact pays_ite (fun _ => createDots_pays) fun _ => pays_pure rfl
    · refine last (x := .both dp ip) (y := Load.locked) ?_ fun r => ?_
      · exact pays_ite (fun _ => createEntry_pays name type) fun _ => createFail_pays
      · simp only [Load.both, Option.elim_some]
        abel

lemma create_pays (path : List UInt8) (type major minor : Int16) :
    Costs 0 (create path type major minor) Load.locked := by
  refine (namex_pays path true).bind fun r => ?_
  cases r with
  | none => exact pays_pure (by simp [Load.found, Load.locked])
  | some r =>
    refine ilock_pays.bind fun _ => (dirlookup_pays _).bind fun found => ?_
    cases found with
    | none => exact (createNew_pays _ _ _ _).last fun r => by simp [Load.found]
    | some ip =>
      refine iunlockput_pays.bind fun _ => ilock_pays.bind fun _ => pays_reads fun p => ?_
      refine pays_ite (fun _ => pays_pure ?_) fun _ => iunlockput_pays.bind fun _ => pays_pure ?_
      · simp only [Load.found, Load.locked, Option.elim_some]
        abel
      · simp only [Load.found, Load.locked, Option.elim_some, Option.elim_none]
        abel

end

end FypOs.Fs
