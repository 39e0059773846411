import FypOs.Fs.Exact
import FypOs.Fs.Paths
import FypOs.Fs.File

/-!
# Fs — files have no holes

The calls that change files and directories, and those that move references and locks about, are
the steps of a machine.  Every state it reaches from a sound one is sound: no allocated inode has a
hole, and every directory is a sequence of whole entries.  So reading allocates nothing, and the
messages of calls that would find a file in bad shape are never printed.

`writei` is a step for files and devices only: `sys_open` opens no directory for writing, and the
calls that change a directory go through `dirlink`, `dirunlink` and `sys_unlink`.
-/

namespace FypOs.Fs

open Lib Prod

/-- The calls of the machine; `sched` lets another process run. -/
inductive FsCall where
  | writei (i : Fin NINODE) (src : Nat → Option UInt8) (off n : UInt32)
  | itrunc (i : Fin NINODE)
  | dirlink (i : Fin NINODE) (name : Name) (inum : Nat)
  | dirunlink (i : Fin NINODE) (name : Name)
  | create (path : List UInt8) (type major minor : Int16)
  | unlink (path : List UInt8)
  | namex (path : List UInt8) (parent : Bool)
  | fileread (f : File) (dst : Nat → Bool) (n : UInt32)
  | idup (i : Fin NINODE)
  | ilock (i : Fin NINODE)
  | iunlock (i : Fin NINODE)
  | iput (i : Fin NINODE)
  | sched (p : Proc)

namespace FsCall

/-- Make the call; the state it leaves. -/
def step (s : State) : FsCall → Outcome State
  | writei i src off n => (Fs.writei i src off n s).map snd
  | itrunc i => (Fs.itrunc i s).map snd
  | dirlink i name inum => (Fs.dirlink i name inum s).map snd
  | dirunlink i name => (Fs.dirunlink i name s).map snd
  | create path type major minor => (Fs.create path type major minor s).map snd
  | unlink path => (sysUnlink path s).map snd
  | namex path parent => (Fs.namex path parent s).map snd
  | fileread f dst n => (filereadInode f dst n s).map snd
  | idup i => (Fs.idup i s).map snd
  | ilock i => (Fs.ilock i s).map snd
  | iunlock i => (Fs.iunlock i s).map snd
  | iput i => (Fs.iput i s).map snd
  | sched p => .ok { s with me := p }

/-- What the callers see to: an inode that is worked on has been read in by locking it, one that is
written with `writei` is not a directory, a directory entry names an inode of the file system, and
who drops or copies a reference has one, as a process has to its current directory. -/
def Allowed (s : State) : FsCall → Prop
  | writei i .. => Held s i ∧ (s.itable i).d.type ≠ T_DIR
  | itrunc i | dirunlink i _ => Held s i
  | dirlink i _ inum => Held s i ∧ inum < s.sb.ninodes
  | create .. | unlink _ | namex .. => 0 < (s.itable s.me.cwd).ref
  | idup i | iput i => 0 < (s.itable i).ref
  | fileread .. | ilock _ | iunlock _ | sched _ => True

instance (s : State) : DecidablePred (Allowed s)
  | writei .. => inferInstanceAs (Decidable (_ ∧ _))
  | itrunc _ | dirunlink .. => inferInstanceAs (Decidable (_ ∧ _))
  | dirlink .. => inferInstanceAs (Decidable (_ ∧ _))
  | create .. | unlink _ | namex .. => inferInstanceAs (Decidable (_ < _))
  | idup _ | iput _ => inferInstanceAs (Decidable (_ < _))
  | fileread .. | ilock _ | iunlock _ | sched _ => inferInstanceAs (Decidable True)

end FsCall

section

variable {s s' : State} {i : Fin NINODE} {X : Nat → Prop} {a : Hold}

/-! ### Reading -/

/-- Reading a file takes and gives back the lock of its inode, and changes no block. -/
lemma filereadInode_does (f : File) (dst : Nat → Bool) (n : UInt32) :
    Does X 0 (filereadInode f dst n) (fun _ => 0)
      (fun _ s' => s'.blocks = s.blocks ∧ s'.writes = s.writes) s := by
  refine ilock_does.bind (add_zero 0).symm fun _ s1 k1 hl => ?_
  have hread : Does X 0 (readi f.ip dst f.off n) (fun _ => 0) (fun _ s' => s' = s1) s1 :=
    fun ha => (ha.sound.readi_spec hl.held dst f.off n).post fun _ _ e => by
      subst e
      exact ⟨.refl ha.sound, rfl⟩
  refine hread.bind (add_zero _).symm fun r s2 _ e => ?_
  subst e
  refine iunlock_does.bind (by simp) fun _ s3 _ e => .pure (add_zero 0) ?_
  subst e
  exact ⟨hl.blocks, hl.writes⟩

/-! ### The steps -/

lemma Covers.zero (h : Covers a s) : Covers 0 s :=
  Covers.weaken (c := a) (by rwa [add_zero])

/-- What a call leads to, and how it does not stop. -/
structure Fine (o : Outcome State) : Prop where
  covers : ∀ s', o = .ok s' → Covers 0 s'
  shape : ∀ msg ∈ badShape, o ≠ .panic msg

lemma fine_of_does {α : Type} {m : FsM α} {b : α → Hold}
    {Q : α → State → Prop} (h : (accounts X).Does a m b Q (∀ msg ∈ badShape, · ≠ .panic msg) s)
    (ha : Covers a s) : Fine ((m s).map snd) := by
  refine ⟨fun s' hs => ?_, fun msg hmsg hp => (h ha).panic (Outcome.map_eq_panic hp) msg hmsg rfl⟩
  obtain ⟨r, hr, rfl⟩ := Outcome.map_eq_ok hs
  exact (Keeps.covers ((h ha).ok hr).1 ha).zero

lemma Covers.sched (h : Covers 0 s) (p : Proc) : Covers 0 { s with me := p } :=
  ⟨h.sound.sched p, h.ref⟩

lemma Covers.of_ref (h : Covers 0 s) (hr : 0 < (s.itable i).ref) : Covers (.ref i) s := by
  refine ⟨h.sound, fun j => ?_⟩
  by_cases hj : j = i
  · subst hj
    have hr : 1 ≤ (s.itable j).ref := hr
    simpa [Hold.ref] using hr
  · simpa [Hold.ref, hj] using h.ref j

/-- **A step** leads from a sound state to a sound state, and does not find a file in bad shape. -/
lemma FsCall.fine (h : Covers 0 s) {c : FsCall} (hc : c.Allowed s) : Fine (c.step s) := by
  have hdoes {α : Type} {m : FsM α} {a : Hold} {b : α → Hold} {Q : α → State → Prop}
      (h : Does (fun _ => True) a m b Q s) (ha : Covers a s) : Fine ((m s).map snd) :=
    fine_of_does (h.stops fun _ he msg hmsg => he msg (.tail _ hmsg)) ha
  cases c with
  | writei i src off n =>
    exact hdoes (writei_does hc.1 hc.2 trivial src off n) h
  | itrunc i => exact hdoes (itrunc_does hc trivial) h
  | dirlink i name inum => exact hdoes (dirlink_does hc.1 name hc.2) h
  | dirunlink i name => exact hdoes (dirunlink_does hc name trivial) h
  | create path type major minor =>
    exact hdoes (create_does hc path type major minor) h
  | unlink path => exact fine_of_does (sysUnlink_does (fun _ he msg hmsg => he msg (.tail _ hmsg))
        (fun _ => by decide) hc path) h
  | namex path parent => exact hdoes (namex_does hc path parent (.refl _)) h
  | fileread f dst n => exact hdoes (filereadInode_does f dst n) h
  | idup i => exact hdoes (idup_does hc) h
  | ilock i => exact hdoes ilock_does h
  | iunlock i =>
    exact hdoes iunlock_does ⟨h.sound, h.ref⟩
  | iput i => exact hdoes iput_does (h.of_ref hc)
  | sched p =>
    refine ⟨fun s' hs => ?_, fun _ _ hp => nomatch hp⟩
    cases hs
    exact h.sched p

end

/-- **Files have no holes.**  In every state that a run from a sound state reaches:

* the blocks of an allocated inode are all there up to its size, which is within bounds, and a
  directory consists of whole entries;
* `bmap` finds them, so that reading returns and changes nothing: it allocates no block and makes no
  `log_write`, and `fileread` does not either;
* no call finds a file or a directory in bad shape. -/
theorem files_have_no_holes (s₀ s : State) (h₀ : Covers 0 s₀) (hr : Reach FsCall.step FsCall.Allowed s₀ s) :
    (∀ n, Live s.sb n (s.dinode n) → HoleFree s n ∧
      ((s.dinode n).type = T_DIR → DIRENTSZ ∣ (s.dinode n).size.toNat)) ∧
    (∀ i, Held s i → (∀ bn, bn * BSIZE < (s.itable i).d.size.toNat → ∃ b, b ≠ 0 ∧ bmap i bn s = .ok (b, s)) ∧
      ∀ dst off n, ∃ r, readi i dst off n s = .ok (r, s)) ∧
    (∀ f dst n r s', filereadInode f dst n s = .ok (r, s') → s'.blocks = s.blocks ∧ s'.writes = s.writes) ∧
    ∀ c : FsCall, c.Allowed s → ∀ msg ∈ badShape, c.step s ≠ .panic msg := by
  have h : Covers 0 s := hr.invariant h₀ fun hs hd hstep => (FsCall.fine hs hd).covers _ hstep
  refine ⟨fun n hl => ?_, fun i hi => ⟨fun bn hbn => ?_, fun dst off n => ?_⟩,
    fun f dst n r s' hf => ?_, fun c hc => (FsCall.fine h hc).shape⟩
  · have hok := h.sound.files n hl
    exact ⟨hok.toHoleFree, fun ht => (hok.dir ht).whole⟩
  · obtain ⟨hl, hd⟩ := h.sound.consistent.synced i hi
    have hmap : fileBlock (s.own i) (s.itable i).inum bn ≠ 0 := by
      rw [h.sound.consistent.own hi]
      exact (h.sound.fileOk hi).mapped bn (hd ▸ hbn)
    obtain ⟨b, s', hb, rfl, rfl⟩ := (bmap_mapped hl hmap).returns
    exact ⟨_, hmap, hb⟩
  · obtain ⟨r, s', hr, rfl⟩ := (h.sound.readi_spec hi dst off n).returns
    exact ⟨r, hr⟩
  · exact ((filereadInode_does (X := fun _ => True) f dst n h).ok hf).2

/-! ### On a small disk -/

lemma sample_covers {type : Int16} (htype : type ≠ 0) : Covers 0 (sample type 0) := by
  refine ⟨⟨sample_consistent htype, fun n hl => ?_, fun i hi => ?_⟩, fun i => ?_⟩
  · obtain ⟨h1, h2, -⟩ := hl
    have hn : n = 1 := by
      have : n < 2 := h2
      omega
    refine fileOk_of_empty ?_
    rw [hn, sample_dinode]
    rfl
  · by_cases h0 : i = 0
    · subst h0
      exact ⟨Nat.one_pos, sampleSb_layout.root⟩
    · simp only [sample, if_neg h0] at hi
      exact absurd hi (by decide)
  · by_cases h0 : i = 0
    · subst h0
      exact (by decide : (0 : Int) ≤ 1)
    · simp only [sample, if_neg h0]
      exact le_refl _

/-- Five bytes are written to an empty file; its block is then there. -/
theorem files_have_no_holes_five : ∃ s, Reach FsCall.step FsCall.Allowed (sample T_FILE 0) s ∧
    (s.dinode 1).size = 5 ∧ Live s.sb 1 (s.dinode 1) ∧ HoleFree s 1 := by
  have htest : runTest FsCall.step FsCall.Allowed (sample T_FILE 0) [.writei 0 (fun _ => some 7) 0 5] (fun s =>
        (s.dinode 1).size = 5 ∧ s.sb = sampleSb ∧ (s.dinode 1).type = T_FILE) = true := by
    decide +kernel
  obtain ⟨s, hr, htest⟩ := Reach.of_runTest htest
  obtain ⟨hsize, hsb, htype⟩ := of_decide_eq_true htest
  have hlive : Live s.sb 1 (s.dinode 1) := by
    refine ⟨Nat.one_pos, ?_, ?_⟩
    · rw [hsb]
      decide
    · rw [htype]
      decide
  exact ⟨s, hr, hsize, hlive, ((files_have_no_holes _ s (sample_covers (by decide)) hr).1 1 hlive).1⟩

/-- **A directory written like a file** is no longer a sequence of entries: this is why `writei` is
a step for files and devices only. -/
theorem writei_breaks_directory : Sound (sample T_DIR 0) ∧ Held (sample T_DIR 0) 0 ∧
    ∃ s', FsCall.step (sample T_DIR 0) (.writei 0 (fun _ => some 7) 0 5) = .ok s' ∧
      (s'.dinode 1).type = T_DIR ∧ ¬ DIRENTSZ ∣ (s'.dinode 1).size.toNat := by
  refine ⟨(sample_covers (by decide)).sound, by decide, ?_⟩
  have htest : (FsCall.step (sample T_DIR 0) (.writei 0 (fun _ => some 7) 0 5)).test (fun s' =>
      (s'.dinode 1).type = T_DIR ∧ ¬ DIRENTSZ ∣ (s'.dinode 1).size.toNat) = true := by
    decide +kernel
  obtain ⟨s', hs, htest⟩ := Outcome.of_test htest
  exact ⟨s', hs, of_decide_eq_true htest⟩

end FypOs.Fs
