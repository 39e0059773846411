import FypOs.Fs.Links
import FypOs.Fs.Balance
import FypOs.Lib.Tally

/-!
# Fs — the system between the calls

Between the system calls the references to entries of the inode table belong to open files and to
processes.  What a call of process `p` holds comes on top of what the files and the other processes
hold; `Good p a t` says that the table covers all of it, and that open files refer to inodes that have
been read in, and to no directory if they can be written.
-/

namespace FypOs.Fs

open Lib Prog Code Op Finset

/-- The file refers to an inode. -/
def File.Active (f : File) : Prop := 0 < f.ref ∧ (f.type = .inode ∨ f.type = .device)

instance (f : File) : Decidable f.Active := inferInstanceAs (Decidable (_ ∧ _))

/-- The reference of an open file. -/
def File.hold (f : File) : Hold := if f.Active then .ref f.ip else 0

/-- The reference of a process. -/
def Task.hold (task : Task) : Hold := if task.used then .ref task.proc.cwd else 0

/-- The inode of an open file has been read in, and is no directory if it can be written. -/
structure File.Good (s : State) (f : File) : Prop where
  held : Held s f.ip
  file : f.type = .inode → f.writable = true → (s.itable f.ip).d.type ≠ T_DIR

/-- What a call has done to the tree. -/
structure Serves (s s' : State) (req : Request) : Prop where
  meets : s.sb.ninodes ≤ 2 ^ 16 → Meets s s' req
  moored : ∀ n, InTable s n → (s'.tree n).nlink = 0 → Anchored s' n

variable {req : Request} {s s' : State}

lemma Serves.calm {s s1 s' : State} (h : Serves s s1 req) (hc : Calm s1 s') : Serves s s' req :=
  ⟨fun hsmall => (h.meets hsmall).calm hc, fun n hn => hc.anchored (h.moored n hn)⟩

lemma Calm.serves (h : Calm s s') (req : Request) : Serves s s' req :=
  ⟨fun _ => .of_frees h.frees req, h.moored⟩

lemma Keeps.serves {X : Nat → Prop} {a b : Hold}
    (h : Keeps X a b s s') (ha : a.1 = 0) (hm : s.sb.ninodes ≤ 2 ^ 16 → Meets s s' req) :
    Serves s s' req :=
  ⟨hm, fun _ hn _ => .inr (hn.keeps h ha)⟩

section

variable {P : Type} [DecidableEq P] [Fintype P]

/-- What the open files and the processes other than `p` hold. -/
def Sys.hold (p : P) (t : Sys P) : Hold :=
  ∑ f, (t.ftable f).hold + ∑ q ∈ univ.erase p, (t.tasks q).hold

/-- A system in which a call of `p` holds `a`. -/
structure Good (p : P) (a : Hold) (t : Sys P) : Prop where
  covers : Covers (t.hold p + a) t.fs
  idle : ∀ f, ¬ 0 < (t.ftable f).ref → (t.ftable f).type = .none
  files : ∀ f, (t.ftable f).Active → (t.ftable f).Good t.fs

/-- What a part of a call of `p` does, which holds `a` at its start and `b` at its end. -/
structure Kept (X : Nat → Prop) (p : P) (a b : Hold) (t t' : Sys P) : Prop where
  keeps : Keeps X (t.hold p + a) (t'.hold p + b) t.fs t'.fs
  idle : ∀ f, ¬ 0 < (t'.ftable f).ref → (t'.ftable f).type = .none
  files : ∀ f, (t'.ftable f).Active → (t'.ftable f).Good t'.fs
  proc : (t'.tasks p).proc = (t.tasks p).proc
  used : (t'.tasks p).used = (t.tasks p).used

/-- A part of a call that works on the file system only. -/
structure FsStep (X : Nat → Prop) (a b : Hold) (Q : State → Prop) (t t' : Sys P) : Prop where
  keeps : Keeps X a b t.fs t'.fs
  post : Q t'.fs
  ftable : t'.ftable = t.ftable
  tasks : t'.tasks = t.tasks

variable {X : Nat → Prop} {p : P} {a b c : Hold} {t t₁ t' : Sys P}

lemma Kept.frame (c : Hold) (h : Kept X p a b t t') : Kept X p (c + a) (c + b) t t' where
  keeps := by
    rw [add_left_comm, add_left_comm (t'.hold p)]
    exact h.keeps.frame c
  idle := h.idle
  files := h.files
  proc := h.proc
  used := h.used

lemma Good.weaken (h : Good p (c + a) t) : Good p a t where
  covers := Covers.weaken (c := c) (add_left_comm c (t.hold p) a ▸ h.covers)
  idle := h.idle
  files := h.files

/-- The account of process `p`. -/
def holdings (X : Nat → Prop) (p : P) : Accounts (Sys P) Hold where
  Owns := Good p
  Step := Kept X p
  refl h := ⟨.refl h.covers.sound, h.idle, h.files, rfl, rfl⟩
  trans h₁ h₂ := ⟨h₁.keeps.trans h₂.keeps, h₂.idle, h₂.files, h₂.proc.trans h₁.proc, h₂.used.trans h₁.used⟩
  frame := .frame
  weaken := .weaken
  next ha h := ⟨h.keeps.covers ha.covers, h.idle, h.files⟩

/-- From `t`, the part `c` of a call of `p` takes it from holding `a` to holding `b r`. -/
abbrev Holds {α : Type} (X : Nat → Prop) (p : P) (a : Hold) (c : Op α) (b : α → Hold)
    (Q : α → Sys P → Prop) (t : Sys P) : Prop :=
  (holdings X p).Does a (c.run (den p)) b Q (fun _ => True) t

/-! ### Rules -/

section

variable {α β : Type} {x : Hold} {m m₁ m₂ : Op α} {f : α → Op β} {b y : α → Hold} {d : β → Hold}
  {Q : α → Sys P → Prop} {R : β → Sys P → Prop}

lemma Holds.bind (hm : Holds X p x m y Q t) (ha : a = c + x)
    (hf : ∀ r t₁, Kept X p x (y r) t t₁ → Q r t₁ → Holds X p (c + y r) (f r) d R t₁) :
    Holds X p a (m >>= f) d R t := by
  rw [Holds, run_bind]
  exact Accounts.Does.bind hm ha hf

lemma holds_pure {r : α} (h : a = b r) (hQ : Q r t) : Holds X p a (pure r) b Q t :=
  Accounts.Does.pure h hQ

lemma holds_ite {e : Prop} [Decidable e] (h1 : e → Holds X p a m₁ b Q t)
    (h2 : ¬ e → Holds X p a m₂ b Q t) : Holds X p a (if e then m₁ else m₂) b Q t := by
  rw [Holds, run_ite]
  exact Accounts.does_ite h1 h2

lemma holds_panic {msg : String} : Holds X p a (panic msg) b Q t := fun _ => trivial

lemma Holds.of_good (h : Good p a t → Holds X p a m b Q t) : Holds X p a m b Q t := fun ha => h ha ha

end

/-! ### What the files hold -/

variable {i : Fin NINODE} {f : Fin NFILE} {ip : Fin NINODE} {g : File → File} {omode : UInt32}

lemma hold_of_active (hf : (t.ftable f).Active) : ∃ c, t.hold p = .ref (t.ftable f).ip + c := by
  have h := add_sum_erase univ (fun f => (t.ftable f).hold) (mem_univ f)
  rw [Sys.hold, ← h, File.hold, if_pos hf, add_assoc]
  exact ⟨_, rfl⟩

lemma hold_setFile (f : Fin NFILE) (g : File → File) :
    (t.setFile f g).hold p + (t.ftable f).hold = t.hold p + (g (t.ftable f)).hold := by
  have hsum := tally_update File.hold t.ftable f (g (t.ftable f))
  rw [Sys.hold, Sys.hold, add_right_comm]
  exact (congrArg (· + _) hsum).trans (add_right_comm _ _ _)

lemma hold_setTask (g : Task → Task) : (t.setTask p g).hold p = t.hold p := by
  refine congrArg (_ + ·) (sum_congr rfl fun q hq => ?_)
  rw [t.setTask_of_ne _ (ne_of_mem_erase hq)]

/-- An entry that a file refers to is still there after a part of a call that does not give the
reference of the file back. -/
lemma Good.keeps_file {s' : State} {b : Hold} (h : Good p a t)
    (hk : Keeps X a b t.fs s') (hf : (t.ftable f).Active) : (t.ftable f).Good s' := by
  obtain ⟨c, hc⟩ := hold_of_active (p := p) hf
  have href := h.covers.ref (t.ftable f).ip
  rw [hc] at href
  simp only [Hold.ref, Prod.fst_add, Multiset.count_add, Multiset.count_singleton_self] at href
  obtain ⟨hheld, -, htype⟩ := hk.held (h.files f hf).held (by omega)
  exact ⟨hheld, fun hi hw => htype ▸ (h.files f hf).file hi hw⟩

section

variable {α : Type} {m : Op α} {b : α → Hold} {Q : α → State → Prop}

/-- The parts of a call that are functions of the file system. -/
lemma holds_fs {m' : FsM α} (hrun : m.run (den p) = onFs m') (h : Does X a m' b Q t.fs) :
    Holds X p a m b (fun r => FsStep X a (b r) (Q r) t) t := by
  intro hgood
  rw [hrun, onFs, wp_zoom]
  refine wp_mono (h hgood.covers.weaken) (fun r s' hs => ?_) fun _ _ => trivial
  exact ⟨⟨Keeps.frame _ hs.1, hgood.idle, fun f hf => hgood.keeps_file hs.1 hf, rfl, rfl⟩, hs.1, hs.2, rfl, rfl⟩

/-- The parts of a call that change fields of the process. -/
lemma holds_setTask {m : Op Unit} {g : Task → Task} (hrun : m.run (den p) = setTask p g)
    (hg : ∀ task, (g task).proc = task.proc ∧ (g task).used = task.used) :
    Holds X p a m (fun _ => a) (fun _ t' => t' = t.setTask p g) t := by
  intro hgood
  rw [hrun]
  refine ⟨⟨?_, hgood.idle, hgood.files, ?_, ?_⟩, rfl⟩
  · rw [hold_setTask]
    exact .refl hgood.covers.sound
  · rw [t.setTask_self]
    exact (hg _).1
  · rw [t.setTask_self]
    exact (hg _).2

lemma holds_reads {m : Op α} {g : Sys P → α} (hrun : m.run (den p) = .reads g) :
    Holds X p a m (fun _ => a) (fun r t' => r = g t ∧ t' = t) t := by
  intro hgood
  rw [hrun]
  exact ⟨(holdings X p).refl hgood, rfl, rfl⟩

/-- A part that keeps what is held, and then the rest. -/
lemma Holds.andThen {β : Type} {Q : α → Sys P → Prop} {f : α → Op β} {d : β → Hold}
    {R : β → Sys P → Prop} (hm : Holds X p a m (fun _ => a) Q t)
    (hf : ∀ r t₁, Kept X p a a t t₁ → Q r t₁ → Holds X p a (f r) d R t₁) :
    Holds X p a (m >>= f) d R t := by
  refine hm.bind (zero_add a).symm fun r t₁ hk hr => ?_
  rw [zero_add]
  exact hf r t₁ hk hr

lemma holds_search {γ : Type} {body : α → Op (Option γ)}
    (h : ∀ x, Holds X p a (body x) (fun _ => a) (fun _ t' => t' = t) t) (xs : List α) :
    Holds X p a (Code.search body xs) (fun _ => a) (fun _ t' => t' = t) t := by
  induction xs with
  | nil => exact holds_pure rfl rfl
  | cons x xs ih =>
    refine (h x).andThen fun r t₁ _ e => ?_
    subst e
    cases r with
    | some c => exact holds_pure rfl rfl
    | none => exact ih

lemma holds_forEach {body : α → Op Unit}
    (h : ∀ x t, Holds X p a (body x) (fun _ => a) (fun _ t' => Calm t.fs t'.fs) t) (xs : List α) :
    Holds X p a (Code.forEach body xs) (fun _ => a) (fun _ t' => Calm t.fs t'.fs) t := by
  induction xs generalizing t with
  | nil => exact holds_pure rfl (.refl _)
  | cons x xs ih =>
    refine (h x t).andThen fun _ t₁ _ hc => ?_
    exact ih.post fun _ t' _ hc' => hc.trans hc'

end

/-! ### Transactions, descriptors, files -/

lemma holds_beginOp : Holds X p a beginOp (fun _ => a) (fun _ t' => t'.fs = t.fs ∧ t'.ftable = t.ftable) t :=
  (holds_setTask (run_beginOp p) fun _ => ⟨rfl, rfl⟩).post fun _ _ _ h => by
    subst h
    exact ⟨rfl, rfl⟩

lemma holds_endOp : Holds X p a endOp (fun _ => a) (fun _ t' => t'.fs = t.fs ∧ t'.ftable = t.ftable) t :=
  (holds_setTask (run_endOp p) fun _ => ⟨rfl, rfl⟩).post fun _ _ _ h => by
    subst h
    exact ⟨rfl, rfl⟩

lemma holds_fail : Holds X p a fail (fun _ => a) (fun _ t' => t'.fs = t.fs) t :=
  holds_endOp.andThen fun _ _ _ h => holds_pure rfl h.1

lemma holds_setOfile (fd : Fin NOFILE) (o : Option (Fin NFILE)) :
    Holds X p a (setOfile fd o) (fun _ => a) (fun _ t' => t'.fs = t.fs ∧ t'.ftable = t.ftable) t :=
  (holds_setTask (run_setOfile p fd o) fun _ => ⟨rfl, rfl⟩).post fun _ _ _ h => by
    subst h
    exact ⟨rfl, rfl⟩

lemma holds_fdalloc (f : Fin NFILE) : Holds X p a (Op.fdalloc f) (fun _ => a)
    (fun _ t' => t'.fs = t.fs ∧ t'.ftable = t.ftable) t := by
  intro hgood
  rw [run_fdalloc, fdalloc, wp_bind, getTask, wp_reads]
  split
  · refine ⟨⟨?_, hgood.idle, hgood.files, ?_, ?_⟩, rfl, rfl⟩
    · rw [hold_setTask]
      exact .refl hgood.covers.sound
    · rw [t.setTask_self]
    · rw [t.setTask_self]
  · exact ⟨(holdings X p).refl hgood, rfl, rfl⟩

lemma Good.setFile (h : Good p a t) (hidle : ¬ 0 < (g (t.ftable f)).ref → (g (t.ftable f)).type = .none)
    (hfile : (g (t.ftable f)).Active → (g (t.ftable f)).Good t.fs)
    (hhold : b + (g (t.ftable f)).hold = a + (t.ftable f).hold) :
    Kept X p a b t (t.setFile f g) := by
  have hsum : t.hold p + a = (t.setFile f g).hold p + b := by
    have := hold_setFile (p := p) (t := t) f g
    refine add_right_cancel (b := (t.ftable f).hold) ?_
    rw [add_assoc, ← hhold, add_right_comm, this]
    abel
  refine ⟨?_, fun x hx => ?_, fun x hx => ?_, rfl, rfl⟩
  · rw [hsum]
    exact .refl h.covers.sound
  · by_cases hxf : x = f
    · subst hxf
      rw [t.setFile_self] at hx ⊢
      exact hidle hx
    · rw [t.setFile_of_ne _ hxf] at hx ⊢
      exact h.idle x hx
  · by_cases hxf : x = f
    · subst hxf
      rw [t.setFile_self] at hx ⊢
      exact hfile hx
    · rw [t.setFile_of_ne _ hxf] at hx ⊢
      exact h.files x hx

lemma Good.setFile_eq (h : Good p a t)
    (hg : (g (t.ftable f)).type = (t.ftable f).type ∧ (g (t.ftable f)).ip = (t.ftable f).ip ∧
      (g (t.ftable f)).writable = (t.ftable f).writable)
    (href : 0 < (g (t.ftable f)).ref ↔ 0 < (t.ftable f).ref) :
    Kept X p a a t (t.setFile f g) := by
  obtain ⟨htype, hip, hw⟩ := hg
  have hactive : (g (t.ftable f)).Active ↔ (t.ftable f).Active := by
    rw [File.Active, File.Active, href, htype]
  refine h.setFile (fun hx => ?_) (fun hx => ?_) ?_
  · rw [htype]
    exact h.idle f fun hpos => hx (href.mpr hpos)
  · obtain ⟨hheld, hfile⟩ := h.files f (hactive.mp hx)
    refine ⟨hip ▸ hheld, ?_⟩
    rw [htype, hip, hw]
    exact hfile
  · simp only [File.hold, hactive, hip]

lemma File.hold_of_none {f : File} (h : f.type = .none) : f.hold = 0 := by
  refine if_neg fun ha => ?_
  rcases ha.2 with e | e
  · rw [h] at e
    cases e
  · rw [h] at e
    cases e

lemma holds_filealloc : Holds X p a Op.filealloc (fun _ => a) (fun r t' => t'.fs = t.fs ∧
    ∀ f, r = some f → (t'.ftable f).ref = 1 ∧ (t'.ftable f).type = .none) t := by
  intro hgood
  rw [run_filealloc, filealloc, wp_bind, wp_reads]
  split
  · next f hf =>
    have h0 : (t.ftable f).ref = 0 := by simpa using List.find?_some hf
    have hnone := hgood.idle f (by omega)
    refine ⟨hgood.setFile (fun _ => hnone) (fun hx => ?_) ?_, rfl, fun f' hf' => ?_⟩
    · rcases hx.2 with e | e
      · exact absurd (hnone.symm.trans e) (by simp)
      · exact absurd (hnone.symm.trans e) (by simp)
    · rw [File.hold_of_none hnone, File.hold_of_none (f := { t.ftable f with ref := 1 }) hnone]
    · cases hf'
      rw [t.setFile_self]
      exact ⟨rfl, hnone⟩
  · exact ⟨(holdings X p).refl hgood, rfl, by simp⟩

/-- The last reference to a file gives its inode to the process that closes it. -/
lemma holds_filedrop (f : Fin NFILE) : Holds X p a (Op.filedrop f)
    (fun r => a + r.elim 0 File.hold) (fun r t' => t'.fs = t.fs ∧ ∀ ff, r = some ff → 0 < ff.ref) t := by
  intro hgood
  rw [run_filedrop, filedrop, wp_bind, getFile, wp_reads]
  refine wp_ite (fun _ => trivial) fun h1 => wp_ite (fun h2 => ?_) fun h2 => ?_
  · have hpos : 0 < (t.ftable f).ref := by omega
    have hk : Kept X p a a t (t.setFile f fun file => { file with ref := file.ref - 1 }) :=
      hgood.setFile_eq ⟨rfl, rfl, rfl⟩ ⟨fun _ => hpos, fun _ => h2⟩
    refine ⟨?_, rfl, by simp⟩
    change Kept X p a (a + 0) t _
    rw [add_zero]
    exact hk
  · refine ⟨hgood.setFile (fun _ => rfl) (fun hx => ?_) ?_, rfl, fun ff hff => ?_⟩
    · exact absurd hx.1 (lt_irrefl 0)
    · rw [File.hold_of_none (f := { t.ftable f with ref := 0, type := .none }) rfl, add_zero]
      rfl
    · cases hff
      omega

lemma holds_iput : Holds X p (.ref i) (Op.iput i) (fun _ => 0) (fun _ => FsStep X (.ref i) 0 (Calm t.fs) t) t :=
  .of_good fun hgood => (holds_fs (run_iput p i) iput_does).post fun _ _ _ h =>
    { h with post := h.post.calm hgood.covers.sound.consistent }

lemma holds_iunlockput : Holds X p (.ref i + .lock i) (Op.iunlockput i)
    (fun _ => 0) (fun _ => FsStep X (.ref i + .lock i) 0 (Calm t.fs) t) t :=
  .of_good fun hgood => (holds_fs (run_iunlockput p i) iunlockput_does).post fun _ _ _ h =>
    { h with post := h.post.unlock_calm hgood.covers.sound }

lemma holds_ilock : Holds X p 0 (Op.ilock i) (fun _ => .lock i)
    (fun _ => FsStep X 0 (.lock i) (Locked t.fs · i) t) t :=
  holds_fs (run_ilock p i) ilock_does

omit [DecidableEq P] [Fintype P] in
lemma FsStep.locked (h : FsStep X 0 (.lock i) (Locked t.fs · i) t t') : Calm t.fs t'.fs :=
  h.keeps.calm rfl (by rw [h.post.tree]; exact .refl _)

lemma holds_iunlock : Holds X p (.lock i) (Op.iunlock i) (fun _ => 0)
    (fun _ => FsStep X (.lock i) 0 (Calm t.fs) t) t := by
  refine (holds_fs (run_iunlock p i) iunlock_does).post fun _ t' _ h =>
    { h with post := h.keeps.calm rfl ?_ }
  rw [h.post, tree_setInode]
  exact .refl _

lemma holds_fileclose (f : Fin NFILE) :
    Holds X p a (Op.fileclose f) (fun _ => a) (fun _ t' => Calm t.fs t'.fs) t := by
  refine (holds_filedrop f).bind (zero_add a).symm fun r t₁ _ hr => ?_
  rw [zero_add, ← hr.1]
  cases r with
  | none =>
    rw [Option.elim_none, add_zero]
    exact holds_pure rfl (.refl _)
  | some ff =>
    have hpos := hr.2 ff rfl
    refine holds_ite (fun hty => ?_) fun hty => holds_pure ?_ (.refl _)
    · rw [Option.elim_some, File.hold, if_pos ⟨hpos, hty⟩]
      refine holds_beginOp.andThen fun _ t2 _ h2 => holds_iput.bind rfl fun _ t3 _ h3 => ?_
      rw [add_zero]
      refine holds_endOp.post fun _ t' _ h => ?_
      rw [h.1, ← h2.1]
      exact h3.post
    · rw [Option.elim_some, File.hold, if_neg fun h => hty h.2, add_zero]

/-! ### Open -/

lemma holds_fields : Holds X p a (fields i) (fun _ => a) (fun r t' => r = t.fs.itable i ∧ t' = t) t := by
  intro hgood
  rw [run_fields, onFs, wp_zoom]
  exact ⟨(holdings X p).refl hgood, rfl, rfl⟩

lemma holds_me : Holds X p a me (fun _ => a) (fun r t' => r = t.fs.me ∧ t' = t) t := by
  intro hgood
  rw [run_me, onFs, wp_zoom]
  exact ⟨(holdings X p).refl hgood, rfl, rfl⟩

lemma holds_fill (href : (t.ftable f).ref = 1) (htype : (t.ftable f).type = .none)
    (hg : (g (t.ftable f)).ref = (t.ftable f).ref ∧
      ((g (t.ftable f)).type = .inode ∨ (g (t.ftable f)).type = .device) ∧ (g (t.ftable f)).ip = ip)
    (hgood : (g (t.ftable f)).Good t.fs) :
    Holds X p (.ref ip) (Op.setFile f g) (fun _ => 0) (fun _ t' => t'.fs = t.fs) t := by
  intro h
  rw [run_setFile]
  obtain ⟨hr, hty, hip⟩ := hg
  have hpos : 0 < (g (t.ftable f)).ref := by omega
  refine ⟨h.setFile (fun hx => absurd hpos hx) (fun _ => hgood) ?_, rfl⟩
  rw [File.hold_of_none htype, File.hold, if_pos ⟨hpos, hty⟩, hip, add_zero, zero_add]

lemma holds_openFill (href : (t.ftable f).ref = 1) (htype : (t.ftable f).type = .none) (hip : Held t.fs ip)
    (hw : writing omode = true → (t.fs.itable ip).d.type ≠ T_DIR)
    (hX : omode &&& O_TRUNC = 0 ∨ X (t.fs.itable ip).inum) :
    Holds X p (.ref ip + .lock ip) (Op.openFill f ip omode) (fun _ => 0)
      (fun _ t' => Calm t.fs t'.fs) t := by
  refine holds_fields.andThen fun q t₁ _ hq => ?_
  obtain ⟨-, rfl⟩ := hq
  refine Holds.bind (x := .ref ip) (y := fun _ => 0) (Q := fun _ t2 => Calm t₁.fs t2.fs) ?_
    (add_comm _ _) fun _ t2 _ hc => ?_
  · refine holds_ite (fun _ => ?_) fun _ => ?_
    · refine (holds_fill href htype ?_ ?_).post fun _ t2 _ h => ?_
      · exact ⟨rfl, .inr rfl, rfl⟩
      · exact ⟨hip, nofun⟩
      · rw [h]
        exact .refl _
    · refine (holds_fs (run_openOffset p ip omode) (openOffset_does hip omode hX)).bind (add_zero _).symm
        fun off t2 _ h2 => ?_
      rw [add_zero]
      obtain ⟨hip2, -, htype2⟩ := Keeps.held_of_zero h2.keeps hip
      refine (holds_fill ?_ ?_ ?_ ?_).post fun _ t3 _ h => ?_
      · rw [h2.ftable]
        exact href
      · rw [h2.ftable]
        exact htype
      · exact ⟨rfl, .inl rfl, rfl⟩
      · refine ⟨hip2, fun _ hwr => ?_⟩
        rw [htype2]
        exact hw hwr
      · rw [h]
        exact h2.keeps.calm rfl (by rw [h2.post.1]; exact .refl _)
  · rw [add_zero]
    exact holds_iunlock.post fun _ t' _ h => hc.trans h.post

lemma holds_openFail : Holds X p (.ref ip + .lock ip) (Op.openFail ip) (fun _ => 0)
    (fun _ t' => Calm t.fs t'.fs) t := by
  refine holds_iunlockput.bind (zero_add _).symm fun _ t₁ _ h1 => ?_
  rw [add_zero]
  refine holds_fail.post fun _ t' _ h => ?_
  rw [h]
  exact h1.post

lemma holds_openFile (hip : Held t.fs ip) (hw : writing omode = true → (t.fs.itable ip).d.type ≠ T_DIR)
    (hX : omode &&& O_TRUNC = 0 ∨ X (t.fs.itable ip).inum) :
    Holds X p (.ref ip + .lock ip) (Op.openFile ip omode) (fun _ => 0)
      (fun _ t' => Calm t.fs t'.fs) t := by
  refine holds_fields.andThen fun q t₁ _ hq => ?_
  obtain ⟨-, rfl⟩ := hq
  refine holds_ite (fun _ => holds_openFail) fun _ => holds_filealloc.andThen fun r t2 _ h2 => ?_
  rw [← h2.1] at hip hw hX ⊢
  cases r with
  | none => exact holds_openFail
  | some f =>
    obtain ⟨href, htype⟩ := h2.2 f rfl
    refine (holds_fdalloc f).andThen fun r t3 _ h3 => ?_
    rw [← h3.2] at href htype
    rw [← h3.1] at hip hw hX ⊢
    cases r with
    | none =>
      exact (holds_fileclose f).andThen fun _ t4 _ h4 => holds_openFail.post fun _ t' _ h =>
        h4.trans h
    | some fd =>
      refine (holds_openFill href htype hip hw hX).bind (zero_add _).symm fun _ t4 _ h4 => ?_
      rw [add_zero]
      refine holds_endOp.andThen fun _ t5 _ h5 => holds_pure rfl ?_
      rw [h5.1]
      exact h4

/-- **Opening a file**; without truncation, no file that a directory names is touched. -/
lemma holds_sysOpen (path : Option (List UInt8)) (omode : UInt32)
    (hcwd : 0 < (t.fs.itable t.fs.me.cwd).ref) (hX : omode &&& O_TRUNC = 0 ∨ ∀ n, X n) :
    Holds X p 0 (sysOpen path omode) (fun _ => 0) (fun _ t' => Serves t.fs t'.fs
      ((argstr path MAXPATH).elim .quiet fun path => openRequest path omode)) t := by
  rw [sysOpen]
  cases argstr path MAXPATH with
  | none => exact holds_pure rfl ((Calm.refl _).serves _)
  | some path =>
    refine holds_beginOp.andThen fun _ t₁ _ h1 => ?_
    rw [← h1.1] at hcwd ⊢
    refine (holds_fs (run_openInode p path omode) (openInode_does hcwd path omode)).bind
      (zero_add 0).symm fun r t2 _ h2 => ?_
    have hserves := h2.keeps.serves rfl h2.post.2
    cases r with
    | none =>
      refine (holds_fail (a := 0)).post fun _ t' _ h => ?_
      rw [h]
      exact hserves
    | some ip =>
      obtain ⟨hip, hw⟩ := h2.post.1 ip rfl
      rw [zero_add]
      exact (holds_openFile hip hw (hX.imp_right fun h => h _)).post fun _ t' _ h =>
        hserves.calm h

/-! ### Dup, close, exit -/

lemma holds_filedup (f : Fin NFILE) : Holds X p a (Op.filedup f) (fun _ => a) (fun _ t' => t'.fs = t.fs) t := by
  intro hgood
  rw [run_filedup, filedup, wp_bind, getFile, wp_reads]
  refine wp_ite (fun _ => trivial) fun h => ⟨hgood.setFile_eq ⟨rfl, rfl, rfl⟩ ?_, rfl⟩
  have h : ¬ (t.ftable f).ref < 1 := h
  change 0 < (t.ftable f).ref + 1 ↔ _
  omega

lemma holds_ofile (fd : Fin NOFILE) : Holds X p a (ofile fd) (fun _ => a)
    (fun r t' => r = (t.tasks p).ofile fd ∧ t' = t) t := holds_reads (run_ofile p fd)

lemma holds_sysDup (fd : Fin NOFILE) :
    Holds X p a (Op.sysDup fd) (fun _ => a) (fun _ t' => Calm t.fs t'.fs) t := by
  refine (holds_ofile fd).andThen fun r t₁ _ h1 => ?_
  obtain ⟨-, rfl⟩ := h1
  cases r with
  | none => exact holds_pure rfl (.refl _)
  | some f =>
    refine (holds_fdalloc f).andThen fun r t2 _ h2 => ?_
    rw [← h2.1]
    cases r with
    | none => exact holds_pure rfl (.refl _)
    | some fd =>
      refine (holds_filedup f).andThen fun _ t3 _ h3 => holds_pure rfl ?_
      rw [h3]
      exact .refl _

lemma holds_sysClose (fd : Fin NOFILE) :
    Holds X p a (Op.sysClose fd) (fun _ => a) (fun _ t' => Calm t.fs t'.fs) t := by
  refine (holds_ofile fd).andThen fun r t₁ _ h1 => ?_
  obtain ⟨-, rfl⟩ := h1
  cases r with
  | none => exact holds_pure rfl (.refl _)
  | some f =>
    refine (holds_setOfile fd none).andThen fun _ t2 _ h2 => ?_
    rw [← h2.1]
    exact (holds_fileclose f).andThen fun _ t3 _ h3 => holds_pure rfl h3

/-- The part of `exit` that gives back what the process holds. -/
lemma holds_exitFiles : Holds X p (.ref t.fs.me.cwd) exitFiles (fun _ => 0)
    (fun _ t' => Calm t.fs t'.fs) t := by
  refine holds_me.andThen fun me t₁ _ hme => ?_
  obtain ⟨rfl, rfl⟩ := hme
  refine Holds.andThen (holds_forEach (fun fd t => ?_) _) fun _ t2 _ h2 =>
    holds_beginOp.andThen fun _ t3 _ h3 => holds_iput.bind (zero_add _).symm fun _ t4 _ h4 => ?_
  · refine (holds_ofile fd).andThen fun r t₁ _ h1 => ?_
    obtain ⟨-, rfl⟩ := h1
    cases r with
    | none => exact holds_pure rfl (.refl _)
    | some f =>
      refine (holds_fileclose f).andThen fun _ t2 _ h2 => (holds_setOfile fd none).post
        fun _ t' _ h => ?_
      rw [h.1]
      exact h2
  · rw [add_zero]
    refine holds_endOp.post fun _ t' _ h => ?_
    rw [h.1]
    exact h2.trans (h3.1 ▸ h4.post)

/-! ### Chdir and exec -/

lemma Good.ref_pos (h : Good p (.ref i + a) t) : 0 < (t.fs.itable i).ref := by
  have href := h.covers.ref i
  simp only [Hold.ref, Prod.fst_add, Multiset.count_add, Multiset.count_singleton_self] at href
  omega

lemma holds_namei (hcwd : 0 < (t.fs.itable t.fs.me.cwd).ref) (path : List UInt8) :
    Holds X p 0 (Op.namei path) (fun r => r.elim 0 .ref)
      (fun r => FsStep X 0 (r.elim 0 .ref) (Calm t.fs) t) t :=
  (holds_fs (run_namei p path) (namei_does hcwd path (.refl _))).post fun _ _ _ h =>
    { h with post := h.keeps.calm rfl h.post.1 }

/-- The new directory has been got, and the one that the process had has been given back. -/
lemma holds_chdirTo (path : Option (List UInt8)) :
    Holds X p (.ref t.fs.me.cwd) (chdirTo path) (fun r => r.elim (.ref t.fs.me.cwd) .ref)
      (fun _ t' => Calm t.fs t'.fs) t := by
  refine .of_good fun hgood => holds_me.andThen fun me t₁ _ hme => ?_
  obtain ⟨rfl, rfl⟩ := hme
  have hcwd : 0 < (t₁.fs.itable t₁.fs.me.cwd).ref :=
    Good.ref_pos (a := 0) (by rw [add_zero]; exact hgood)
  refine holds_beginOp.andThen fun _ t2 _ h2 => ?_
  rw [← h2.1] at hcwd ⊢
  cases argstr path MAXPATH with
  | none =>
    refine holds_endOp.andThen fun _ t3 _ h3 => holds_pure rfl ?_
    rw [h3.1]
    exact .refl _
  | some path =>
    refine (holds_namei hcwd path).bind (add_zero _).symm fun r t3 _ h3 => ?_
    cases r with
    | none =>
      rw [Option.elim_none, add_zero]
      refine holds_endOp.andThen fun _ t4 _ h4 => holds_pure rfl ?_
      rw [h4.1]
      exact h3.post
    | some ip =>
      refine holds_ilock.bind (add_zero _).symm fun _ t4 _ h4 => ?_
      have hc : Calm t2.fs t4.fs := h3.post.trans h4.locked
      rw [Option.elim_some]
      refine holds_fields.andThen fun q t5 _ h5 => ?_
      obtain ⟨-, rfl⟩ := h5
      refine holds_ite (fun _ => ?_) fun _ => ?_
      · refine holds_iunlockput.bind (add_assoc _ _ _) fun _ t6 _ h6 => ?_
        rw [add_zero]
        refine holds_endOp.andThen fun _ t7 _ h7 => holds_pure rfl ?_
        rw [h7.1]
        exact hc.trans h6.post
      · refine holds_iunlock.bind rfl fun _ t6 _ h6 => ?_
        rw [add_zero]
        refine holds_iput.bind (add_comm _ _) fun _ t7 _ h7 => ?_
        rw [add_zero]
        refine holds_endOp.andThen fun _ t8 _ h8 => holds_pure rfl ?_
        rw [h8.1]
        exact hc.trans (h6.post.trans h7.post)

section

variable (hi : Held t.fs i)

include hi

lemma holds_readi (dst : Nat → Bool) (off n : UInt32) :
    Holds X p a (Op.readi i dst off n) (fun _ => a) (fun _ t' => t' = t) t := by
  intro hgood
  rw [run_readi, onFs, wp_zoom]
  refine (hgood.covers.sound.readi_spec hi dst off n).post fun _ s' hs => ?_
  subst hs
  exact ⟨(holdings X p).refl hgood, rfl⟩

lemma holds_loadseg (offset sz : Nat) :
    Holds X p a (Op.loadseg i offset sz) (fun _ => a) (fun _ t' => t' = t) t := by
  refine (holds_search (fun k => ?_) _).andThen fun _ _ _ h => holds_pure rfl h
  refine (holds_readi hi _ _ _).andThen fun r _ _ h => ?_
  exact holds_ite (fun _ => holds_pure rfl h) fun _ => holds_pure rfl h

lemma holds_loadProg (mem : Op.ExecMem) (phoff k : Nat) :
    Holds X p a (Op.loadProg i mem phoff k) (fun _ => a) (fun _ t' => t' = t) t := by
  rw [Op.loadProg]
  refine (holds_readi hi _ _ _).andThen fun x t₁ _ h => ?_
  subst h
  obtain ⟨r, out⟩ := x
  dsimp only
  repeat' split
  all_goals first | exact holds_pure rfl rfl | exact holds_loadseg hi _ _

lemma holds_execLoad (mem : Op.ExecMem) :
    Holds X p a (Op.execLoad i mem) (fun _ => a) (fun _ t' => t' = t) t := by
  refine (holds_readi hi _ _ _).andThen fun r t₁ _ h => ?_
  subst h
  refine holds_ite (fun _ => holds_pure rfl rfl) fun _ => holds_ite (fun _ => holds_pure rfl rfl) fun _ =>
    holds_ite (fun _ => holds_pure rfl rfl) fun _ => ?_
  refine (holds_search (fun k => ?_) _).andThen fun _ _ _ h => holds_pure rfl h
  refine (holds_loadProg hi mem _ _).andThen fun r _ _ h => ?_
  exact holds_ite (fun _ => holds_pure rfl h) fun _ => holds_pure rfl h

end

lemma holds_sysExec (path : Option (List UInt8)) (mem : Op.ExecMem) (hcwd : 0 < (t.fs.itable t.fs.me.cwd).ref) :
    Holds X p 0 (sysExec path mem) (fun _ => 0) (fun _ t' => Calm t.fs t'.fs) t := by
  rw [sysExec]
  cases argstr path MAXPATH with
  | none => exact holds_pure rfl (.refl _)
  | some path =>
    refine holds_beginOp.andThen fun _ t₁ _ h1 => ?_
    rw [← h1.1] at hcwd ⊢
    refine (holds_namei hcwd path).bind (zero_add 0).symm fun r t2 _ h2 => ?_
    cases r with
    | none =>
      refine (holds_fail (a := 0)).post fun _ t' _ h => ?_
      rw [h]
      exact h2.post
    | some ip =>
      refine holds_ilock.bind (add_zero _).symm fun _ t3 _ h3 => ?_
      rw [zero_add, Option.elim_some]
      have hc : Calm t₁.fs t3.fs := h2.post.trans h3.locked
      refine (holds_execLoad h3.post.held mem).andThen fun ok t4 _ h4 => ?_
      subst h4
      have hput : Holds X p (.ref ip + .lock ip) (Op.iunlockput ip) (fun _ => 0)
          (fun _ t' => Calm t₁.fs t'.fs) t4 :=
        holds_iunlockput.post fun _ t' _ h => hc.trans h.post
      refine holds_ite (fun _ => ?_) fun _ => ?_
      · refine hput.bind (zero_add _).symm fun _ t5 _ h5 => holds_endOp.andThen fun _ t6 _ h6 => ?_
        rw [← h6.1] at h5
        cases mem.stack with
        | none | some argc => exact holds_pure (add_zero 0) h5
      · refine hput.bind (zero_add _).symm fun _ t5 _ h5 => ?_
        rw [add_zero]
        refine holds_fail.post fun _ t' _ h => ?_
        rw [h]
        exact h5

/-! ### Read and write -/

lemma holds_file (f : Fin NFILE) : Holds X p a (file f) (fun _ => a)
    (fun r t' => r = t.ftable f ∧ t' = t) t := holds_reads (run_file p f)

/-- The file can be written, and is an inode. -/
structure File.Writes (f : File) : Prop where
  active : f.Active
  type : f.type = .inode
  writable : f.writable = true

lemma holds_moveOff (f : Fin NFILE) (k : UInt32) :
    Holds X p a (Op.setFile f fun fl => { fl with off := fl.off + k }) (fun _ => a) (fun _ t' =>
      t'.fs = t.fs ∧ ((t.ftable f).Writes → (t'.ftable f).Writes)) t := by
  intro hgood
  rw [run_setFile]
  refine ⟨hgood.setFile_eq ⟨rfl, rfl, rfl⟩ Iff.rfl, rfl, fun h => ?_⟩
  rw [t.setFile_self]
  exact ⟨h.active, h.type, h.writable⟩

lemma holds_fileread (f : Fin NFILE) (dst : Nat → Bool) (n : UInt32) (drv : Op.Drivers) :
    Holds X p 0 (Op.fileread f dst n drv) (fun _ => 0) (fun _ t' => Calm t.fs t'.fs) t := by
  refine (holds_file f).andThen fun fl t₁ _ h1 => ?_
  obtain ⟨-, rfl⟩ := h1
  refine holds_ite (fun _ => holds_pure rfl (.refl _)) fun _ => ?_
  cases fl.type with
  | pipe | device => exact holds_pure rfl (.refl _)
  | none => exact holds_panic
  | inode =>
    refine (holds_file f).andThen fun fl t2 _ h2 => ?_
    obtain ⟨rfl, rfl⟩ := h2
    refine holds_ilock.bind (add_zero _).symm fun _ t3 _ h3 => ?_
    refine (holds_file f).andThen fun fl t4 _ h4 => ?_
    obtain ⟨rfl, rfl⟩ := h4
    rw [h3.ftable, zero_add]
    refine (holds_readi h3.post.held _ _ _).andThen fun r t5 _ h5 => ?_
    subst h5
    refine Holds.andThen (Q := fun _ t' => t'.fs = t5.fs) ?_ fun _ t6 _ h6 =>
      holds_iunlock.bind (zero_add _).symm fun _ t7 _ h7 => holds_pure (add_zero 0) ?_
    · exact holds_ite (fun _ => (holds_moveOff f _).post fun _ _ _ h => h.1) fun _ =>
        holds_pure rfl rfl
    · exact h3.locked.trans (h6 ▸ h7.post)

lemma holds_filewriteRound (src : Nat → Option UInt8) (i n1 : Nat) (hf : (t.ftable f).Writes) (hX : ∀ n, X n) :
    Holds X p 0 (Op.filewriteRound f src i n1) (fun _ => 0)
      (fun _ t' => Calm t.fs t'.fs ∧ (t'.ftable f).Writes) t := by
  refine .of_good fun hgood => holds_beginOp.andThen fun _ t₁ _ h1 => ?_
  have hfile := hgood.files f hf.active
  rw [← h1.1, ← h1.2] at hfile
  rw [← h1.1]
  rw [← h1.2] at hf
  refine (holds_file f).andThen fun fl t2 _ h2 => ?_
  obtain ⟨rfl, rfl⟩ := h2
  refine holds_ilock.bind (add_zero _).symm fun _ t3 _ h3 => ?_
  refine (holds_file f).andThen fun fl t4 _ h4 => ?_
  obtain ⟨rfl, rfl⟩ := h4
  have hdir : (t4.fs.itable (t2.ftable f).ip).d.type ≠ T_DIR := by
    rw [h3.post.keep hfile.held.2]
    exact hfile.file hf.type hf.writable
  rw [← h3.ftable] at hf
  rw [h3.ftable, zero_add]
  refine (holds_fs (run_writei p _ _ _ _) (writei_does h3.post.held hdir (hX _) _ _ _)).bind
    (add_zero _).symm fun r t5 _ h5 => ?_
  rw [← h5.ftable] at hf
  rw [add_zero]
  have hc : Calm t2.fs t5.fs := h3.locked.trans (h5.keeps.calm rfl (by rw [h5.post.1]; exact .refl _))
  refine Holds.andThen (Q := fun _ t' => t'.fs = t5.fs ∧ (t'.ftable f).Writes) ?_ fun _ t6 _ h6 =>
    holds_iunlock.bind (zero_add _).symm fun _ t7 _ h7 => holds_endOp.andThen fun _ t8 _ h8 =>
      holds_pure (add_zero 0) ⟨?_, ?_⟩
  · exact holds_ite (fun _ => (holds_moveOff f _).post fun _ _ _ h => ⟨h.1, h.2 hf⟩) fun _ =>
      holds_pure rfl ⟨rfl, hf⟩
  · rw [h8.1]
    exact hc.trans (h6.1 ▸ h7.post)
  · rw [h8.2, h7.ftable]
    exact h6.2

lemma holds_filewriteLoop (src : Nat → Option UInt8) (n fuel i : Nat)
    (hf : (t.ftable f).Writes) (hX : ∀ n, X n) :
    Holds X p 0 (filewriteLoop f src n fuel i) (fun _ => 0) (fun _ t' => Calm t.fs t'.fs) t := by
  induction fuel generalizing t i with
  | zero => exact holds_pure rfl (.refl _)
  | succ fuel ih =>
    refine holds_ite (fun _ => ?_) fun _ => holds_pure rfl (.refl _)
    refine (holds_filewriteRound src i _ hf hX).andThen fun r t₁ _ h1 => ?_
    exact holds_ite (fun _ => holds_pure rfl h1.1) fun _ => (ih _ h1.2).post fun _ _ _ h => h1.1.trans h

lemma holds_filewrite (f : Fin NFILE) (src : Nat → Option UInt8) (n : Int) (drv : Op.Drivers) (hX : ∀ n, X n) :
    Holds X p 0 (filewrite f src n drv) (fun _ => 0) (fun _ t' => Calm t.fs t'.fs) t := by
  refine .of_good fun hgood => (holds_file f).andThen fun fl t₁ _ h1 => ?_
  obtain ⟨rfl, rfl⟩ := h1
  refine holds_ite (fun _ => holds_pure rfl (.refl _)) fun hw => ?_
  cases htype : (t₁.ftable f).type with
  | pipe | device => exact holds_pure rfl (.refl _)
  | none => exact holds_panic
  | inode =>
    refine holds_ite (fun _ => holds_pure rfl (.refl _)) fun _ => ?_
    refine holds_filewriteLoop src _ _ _ ⟨⟨?_, .inl htype⟩, htype, Bool.not_eq_false _ ▸ hw⟩ hX
    -- a file that is not in use has no type
    by_contra hpos
    rw [hgood.idle f hpos] at htype
    cases htype

lemma holds_sysRead (fd : Fin NOFILE) (dst : Nat → Bool) (n : UInt32) (drv : Op.Drivers) :
    Holds X p 0 (sysRead fd dst n drv) (fun _ => 0) (fun _ t' => Calm t.fs t'.fs) t := by
  refine (holds_ofile fd).andThen fun r t₁ _ h1 => ?_
  obtain ⟨-, rfl⟩ := h1
  cases r with
  | none => exact holds_pure rfl (.refl _)
  | some f => exact holds_fileread f dst n drv

lemma holds_sysWrite (fd : Fin NOFILE) (src : Nat → Option UInt8) (n : Int) (drv : Op.Drivers) (hX : ∀ n, X n) :
    Holds X p 0 (sysWrite fd src n drv) (fun _ => 0) (fun _ t' => Calm t.fs t'.fs) t := by
  refine (holds_ofile fd).andThen fun r t₁ _ h1 => ?_
  obtain ⟨-, rfl⟩ := h1
  cases r with
  | none => exact holds_pure rfl (.refl _)
  | some f => exact holds_filewrite f src n drv hX

/-! ### Fork -/

lemma hold_setTask_of_ne {np : P} (hne : np ≠ p) (g : Task → Task) :
    (t.setTask np g).hold p + (t.tasks np).hold = t.hold p + (g (t.tasks np)).hold := by
  have hmem : np ∈ univ.erase p := mem_erase.mpr ⟨hne, mem_univ np⟩
  have hrest : ∑ q ∈ (univ.erase p).erase np, ((t.setTask np g).tasks q).hold =
      ∑ q ∈ (univ.erase p).erase np, (t.tasks q).hold := by
    refine sum_congr rfl fun q hq => ?_
    rw [t.setTask_of_ne _ (ne_of_mem_erase hq)]
  rw [Sys.hold, Sys.hold, ← add_sum_erase _ _ hmem, hrest, t.setTask_self,
    ← add_sum_erase (univ.erase p) _ hmem]
  change ∑ f, (t.ftable f).hold + _ + _ = _
  abel

/-- The child has the current directory of the parent. -/
lemma fork_kept (np : Option P) (uvmcopy : Bool) (pid : Nat) (hgood : Good p a t)
    (hcwd : 0 < (t.fs.itable (t.tasks p).proc.cwd).ref) (hused : (t.tasks p).used = true)
    (hnp : ∀ q, np = some q → (t.tasks q).used = false) :
    wp (fork p np uvmcopy pid) (fun _ t' => Kept X p a a t t' ∧ Calm t.fs t'.fs) (fun _ => True) t := by
  have hrefl : Kept X p a a t t := (holdings X p).refl hgood
  cases np with
  | none => exact ⟨hrefl, .refl _⟩
  | some np =>
    have hne : np ≠ p := by
      rintro rfl
      rw [hnp np rfl] at hused
      cases hused
    refine wp_ite (fun _ => ⟨hrefl, .refl _⟩) fun _ => ?_
    rw [wp_bind, getTask, wp_reads, wp_bind]
    refine wp_forEach (fun _ t₁ => Kept X p a a t t₁ ∧ t₁.tasks = t.tasks ∧ t₁.fs = t.fs)
      ⟨hrefl, rfl, rfl⟩ (fun fd _ t₁ h1 => ?_) fun t₁ h1 => ?_
    · split
      · next f _ =>
        have hdup := holds_filedup (X := X) (p := p) (t := t₁) f ((holdings X p).next hgood h1.1)
        rw [run_filedup] at hdup
        have hfix : Fixes Sys.tasks (filedup f : SysM P Unit) :=
          fixes_reads.bind fun _ => fixes_ite fixes_panic (fixes_modify fun _ => rfl)
        exact (hdup.and (hfix t₁)).post fun _ t2 h2 => ⟨(holdings X p).trans h1.1 h2.1.1,
          h2.2.trans h1.2.1, h2.1.2.trans h1.2.2⟩
      · exact h1
    · rw [← h1.2.2] at hcwd ⊢
      have hgood1 : Good p (a + 0) t₁ := by
        rw [add_zero]
        exact (holdings X p).next hgood h1.1
      have hdup := holds_fs (X := X) (run_idup p (t.tasks p).proc.cwd) (idup_does hcwd) hgood1.weaken
      rw [run_idup, onFs, wp_zoom] at hdup
      rw [wp_bind, onFs, wp_zoom]
      refine hdup.post fun cwd fs' h2 => ?_
      have hk : Kept X p a (a + .ref cwd) t (t₁.setFs fs') := by
        refine (holdings X p).trans h1.1 ?_
        have := h2.1.frame a
        rwa [add_zero] at this
      have htask : ((t₁.setFs fs').tasks np).hold = 0 := by
        change (t₁.tasks np).hold = 0
        rw [h1.2.1, Task.hold, hnp np rfl]
        rfl
      have hset := hold_setTask_of_ne (t := t₁.setFs fs') hne ((t.tasks p).child pid cwd)
      have hself := (t₁.setFs fs').setTask_of_ne ((t.tasks p).child pid cwd) hne.symm
      rw [htask, add_zero] at hset
      refine ⟨⟨?_, hk.idle, hk.files, ?_, ?_⟩, ?_⟩
      · rw [hset]
        have := hk.keeps
        rwa [add_comm a, ← add_assoc] at this
      · exact (congrArg Task.proc hself).trans hk.proc
      · exact (congrArg Task.used hself).trans hk.used
      · exact h2.2.keeps.calm rfl (by rw [h2.2.post.2.1]; exact .refl _)

end

end FypOs.Fs
